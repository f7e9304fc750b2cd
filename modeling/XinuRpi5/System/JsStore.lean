/- source: system/js.c
   digest: The values of the JavaScript evaluator and the regions that hold what they refer to. -/

import Mathlib.Data.List.Basic

/-!
Strings are their bytes, one character each; the string region is its fill and the strings
that `js_intern` knows again. The host's own state (the page, the output, its functions) is
a parameter.
-/

namespace XinuRpi5.System.JsStore

abbrev Str := List Char

-- decides membership in a list of strings in every module
theorem lawful_str : LawfulBEq Str := inferInstance

attribute [local instance] lawful_str

def jsStrCap : Nat := 163840
def jsPropCap : Nat := 4096
def jsObjCap : Nat := 1024
def jsEnvCap : Nat := 512
def jsVarCap : Nat := 2048

/-- `JT_UNDEF` to `JT_NAT`. -/
inductive Tag where
  | undef
  | null
  | bool
  | num
  | str
  | obj
  | fn
  | nat
  deriving DecidableEq

/-- `jsv`; `s` is the string itself. -/
structure Jsv where
  t : Tag
  n : Int64
  s : Str
  o : Nat
  deriving DecidableEq

/-- `JU`. -/
def undef : Jsv := ⟨.undef, 0, [], 0⟩

def null : Jsv := { undef with t := .null }

/-- `JB`. -/
def ofBool (b : Bool) : Jsv := { undef with t := .bool, n := if b then 1 else 0 }

/-- `JN`. -/
def ofNum (n : Int64) : Jsv := { undef with t := .num, n := n }

/-- `JS_`. -/
def ofStr (s : Str) : Jsv := { undef with t := .str, s := s }

def ofObj (o : Nat) : Jsv := { undef with t := .obj, o := o }

/-- An entry of `js_prop`. -/
structure PropEntry where
  obj : Nat
  key : Str
  val : Jsv

/-- An entry of `js_env`; `vars` is the chain from `first` on. -/
structure Env where
  parent : Option Nat
  vars : List Nat

/-- An entry of `js_var`. -/
structure Var where
  name : Str
  val : Jsv

/-- The regions; `C` is what a node of a function holds and `H` the host's state. -/
structure Store (C H : Type) where
  strN : Nat
  interned : List Str
  err : Option String
  objs : List Nat
  props : List PropEntry
  envs : List Env
  vars : List Var
  code : List C
  host : H

section Regions

variable {C H : Type} {s : Store C H}

def jsFail (m : String) : StateM (Store C H) Unit :=
  modify fun s => if s.err.isSome then s else { s with err := some m }

def jsIntern (x : Str) : StateM (Store C H) Str := do
  let s : Store C H ← get
  if x ∈ s.interned then return x
  if s.strN + x.length + 1 ≥ jsStrCap then
    jsFail "文字列領域があふれました"
    return []
  set { s with
    strN := s.strN + x.length + 1
    interned := if s.interned.length < jsStrCap / 8 then s.interned ++ [x] else s.interned }
  return x

theorem jsIntern_known {x : Str} (known : x ∈ s.interned) :
    jsIntern x s = (x, s) := by
  change (if x ∈ s.interned then (pure x : StateM (Store C H) Str) else _) s = _
  rw [if_pos known]
  rfl

theorem jsIntern_full {x : Str} (fresh : x ∉ s.interned) (full : s.strN + x.length + 1 ≥ jsStrCap) :
    jsIntern x s = ([], (jsFail "文字列領域があふれました" s).2) := by
  change (if x ∈ s.interned then (pure x : StateM (Store C H) Str)
    else if s.strN + x.length + 1 ≥ jsStrCap then _ else _) s = _
  rw [if_neg fresh, if_pos full]
  rfl

theorem jsIntern_new {x : Str} (fresh : x ∉ s.interned) (room : ¬s.strN + x.length + 1 ≥ jsStrCap) :
    jsIntern x s = (x, { s with
      strN := s.strN + x.length + 1
      interned := if s.interned.length < jsStrCap / 8 then s.interned ++ [x] else s.interned }) := by
  change (if x ∈ s.interned then (pure x : StateM (Store C H) Str)
    else if s.strN + x.length + 1 ≥ jsStrCap then _ else _) s = _
  rw [if_neg fresh, if_neg room]
  rfl

def jsNewObj (cls : Nat) : StateM (Store C H) Nat := do
  let s : Store C H ← get
  if s.objs.length ≥ jsObjCap then
    jsFail "オブジェクトがあふれました"
    return 0
  set { s with objs := s.objs ++ [cls] }
  return s.objs.length

/-- `js_find_prop`, as the place in the list. -/
def jsFindProp (s : Store C H) (obj : Nat) (key : Str) : Option Nat :=
  s.props.findIdx? fun p => p.obj == obj && p.key == key

def jsSetProp (obj : Nat) (key : Str) (v : Jsv) : StateM (Store C H) Unit := do
  let s : Store C H ← get
  match jsFindProp s obj key with
  | some i => set { s with props := s.props.modify i fun p => { p with val := v } }
  | none =>
    if s.props.length ≥ jsPropCap then jsFail "プロパティがあふれました"
    else set { s with props := s.props ++ [PropEntry.mk obj key v] }

def jsGetProp (s : Store C H) (obj : Nat) (key : Str) : Jsv :=
  match s.props.find? fun p => p.obj == obj && p.key == key with
  | some p => p.val
  | none => undef

def jsNewEnv (parent : Option Nat) : StateM (Store C H) Nat := do
  let s : Store C H ← get
  if s.envs.length ≥ jsEnvCap then
    jsFail "環境があふれました"
    return 0
  set { s with envs := s.envs ++ [Env.mk parent []] }
  return s.envs.length

def jsDeclare (env : Nat) (name : Str) (v : Jsv) : StateM (Store C H) Unit := do
  let s : Store C H ← get
  if s.vars.length ≥ jsVarCap then jsFail "変数があふれました"
  else
    set { s with
      vars := s.vars ++ [Var.mk name v]
      envs := s.envs.modify env fun e => { e with vars := s.vars.length :: e.vars } }

/-- The walk of `js_lookup`: the variable's place. -/
def lookupFrom (s : Store C H) (name : Str) : Nat → Option Nat → Option Nat
  | 0, _ => none
  | _, none => none
  | k + 1, some e =>
    match s.envs[e]? with
    | none => none
    | some env =>
      match env.vars.find? fun i => (s.vars[i]?.map Var.name) == some name with
      | some i => some i
      | none => lookupFrom s name k env.parent

/-- `js_lookup`; a parent comes before its child, so the walk is no longer than the list. -/
def jsLookup (s : Store C H) (env : Nat) (name : Str) : Option Nat :=
  lookupFrom s name s.envs.length (some env)

def jsSetVar (i : Nat) (v : Jsv) : StateM (Store C H) Unit :=
  modify fun s => { s with vars := s.vars.modify i fun x => { x with val := v } }

end Regions

section Conversions

variable {C H : Type}

def jsTruthy (v : Jsv) : Bool :=
  match v.t with
  | .undef | .null => false
  | .bool | .num => v.n != 0
  | .str => v.s != []
  | _ => true

/-- The digits that the loop of `js_numstr` writes, last digit first. -/
def digits : Nat → Int64 → Str
  | 0, _ => []
  | k + 1, v =>
    if v = 0 then [] else Char.ofNat (48 + v % 10).toInt.toNat :: digits k (v / 10)

def numText (v : Int64) : Str :=
  let a := if v < 0 then -v else v
  let b := (if a = 0 then ['0'] else []) ++ digits 20 a ++ (if v < 0 then ['-'] else [])
  b.reverse

def jsNumstr (v : Int64) : StateM (Store C H) Str := jsIntern (numText v)

def jsTostr (v : Jsv) : StateM (Store C H) Str :=
  match v.t with
  | .str => return v.s
  | .num => jsNumstr v.n
  | .bool => jsIntern (if v.n != 0 then "true".toList else "false".toList)
  | .null => jsIntern "null".toList
  | .fn | .nat => jsIntern "[function]".toList
  | .obj => do
    let s : Store C H ← get
    jsIntern (if s.objs[v.o]? = some 1 then "[array]".toList else "[object]".toList)
  | .undef => jsIntern "undefined".toList

def jsStrConcat (a b : Str) : StateM (Store C H) Str := do
  let s : Store C H ← get
  if s.strN + a.length + b.length + 1 ≥ jsStrCap then return a
  set { s with strN := s.strN + a.length + b.length + 1 }
  return a ++ b

def jsEqv (a b : Jsv) : Bool :=
  if a.t ≠ b.t then
    (a.t == .null && b.t == .undef) || (a.t == .undef && b.t == .null)
  else
    match a.t with
    | .str => a.s == b.s
    | .num | .bool => a.n == b.n
    | .obj | .fn => a.o == b.o
    | _ => true

end Conversions

end XinuRpi5.System.JsStore
