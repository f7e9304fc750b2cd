/- source: system/js.c
   digest: The JavaScript evaluator: expressions, statements, calls and whole programs. -/

import XinuRpi5.System.JsStore

/-!
The trees are those that the parser builds. The host (the global names, the members of its
objects, its functions) is a parameter: its functions change the regions as they like and
may call back. `Event` is a record of the run for the statements about it, no part of the
program; so is the place that a statement is evaluated with.
-/

namespace XinuRpi5.System.Js

open JsStore

inductive BinOp where
  | mul
  | div
  | mod
  | add
  | sub
  | lt
  | gt
  | le
  | ge
  | eq
  | ne
  | and
  | or

inductive UnOp where
  | not
  | neg
  | typeof

mutual

/-- The nodes that `js_parse_expr` returns. -/
inductive Expr where
  | num (n : Int64)
  | str (s : Str)
  | name (x : Str)
  | bool (b : Bool)
  | null
  | undef
  | obj (fields : List (Str × Expr))
  | arr (items : List Expr)
  | bin (op : BinOp) (a b : Expr)
  | un (op : UnOp) (a : Expr)
  | assign (plus : Bool) (target value : Expr)
  | cond (c a b : Expr)
  | call (f : Expr) (args : List Expr)
  | member (a : Expr) (key : Str)
  | index (a b : Expr)
  | fn (name : Option Str) (params : List Str) (body : Stmt)
  | arrow (params : List Str) (body : Stmt)

/-- The nodes that `js_parse_stmt` returns; `bare` is a function declaration or `;`. -/
inductive Stmt where
  | block (ss : List Stmt)
  | var (ds : List (Str × Option Expr))
  | ret (a : Option Expr)
  | ifte (c : Expr) (t : Stmt) (e : Option Stmt)
  | while (c : Expr) (body : Stmt)
  | for (init : Option Stmt) (c step : Option Expr) (body : Stmt)
  | expr (e : Expr)
  | bare (e : Expr)

end

structure Code where
  params : List Str
  body : Stmt

/-- Where a statement stands: outside all functions, in a function, or in a part of a loop
of a function behind which the loop evaluates something again. -/
inductive Place where
  | top
  | body
  | loop
  deriving DecidableEq

def Place.inLoop : Place → Place
  | .top => .top
  | _ => .loop

/-- A node is evaluated; a return statement has its value (`ok`: without an error); a call
of a function of the program ends. -/
inductive Event where
  | eval
  | ret (place : Place) (ok : Bool) (v : Jsv)
  | leave (v : Jsv)
  deriving DecidableEq

structure State (H : Type) where
  store : Store Code H
  jsRetFlag : Bool
  jsRetVal : Jsv
  log : List Event
  /-- The evaluation was cut off (no budget). -/
  stuck : Bool

abbrev JsM (H : Type) := StateM (State H)

/-- A function of the host: it works on the regions and calls functions back. -/
inductive Native (H : Type) where
  | done (v : Jsv)
  | work (f : Store Code H → Store Code H) (k : Store Code H → Native H)
  | call (f self : Jsv) (args : List Jsv) (k : Jsv → Native H)

/-- `js_host_global`, `js_host_member`, `js_host_setmember` and the table `js_nat`. -/
structure Host (H : Type) where
  jsHostGlobal : Str → StateM (Store Code H) Jsv
  jsHostMember : Jsv → Str → StateM (Store Code H) Jsv
  jsHostSetmember : Jsv → Str → Jsv → StateM (Store Code H) Bool
  jsNat : Jsv → Jsv → List Jsv → Native H

structure Eval (H : Type) where
  expr : Expr → Nat → JsM H Jsv
  stmt : Place → Stmt → Nat → JsM H Jsv
  call : Jsv → Jsv → List Jsv → JsM H Jsv

section Basics

variable {H : Type}

def onStore {α : Type} (m : StateM (Store Code H) α) : JsM H α := fun s =>
  ((m s.store).1, { s with store := (m s.store).2 })

def note (e : Event) : JsM H Unit :=
  modify fun s => if s.stuck then s else { s with log := s.log ++ [e] }

/-- The first line of `js_eval`. -/
def unlessErr (m : JsM H Jsv) : JsM H Jsv := fun s =>
  if s.store.err.isSome then (JsStore.undef, s)
  else (do note .eval; m : JsM H Jsv) s

def setRet (flag : Bool) : JsM H Unit :=
  modify fun s => { s with jsRetFlag := flag }

/-- `!js_ret_flag && !js_has_err`. -/
def goesOn : JsM H Bool := do
  let s ← get
  return !s.jsRetFlag && !s.store.err.isSome

end Basics

section Calls

variable {H : Type}

def runNative (ev : Eval H) : Native H → JsM H Jsv
  | .done v => return v
  | .work f k => fun s =>
    let store := f s.store
    runNative ev (k store) { s with store := store }
  | .call f self args k => do
    let v ← ev.call f self args
    runNative ev (k v)

/-- The parameters of a function, with the arguments or `undefined`. -/
def bindParams (e : Nat) : List Str → List Jsv → StateM (Store Code H) Unit
  | [], _ => return ()
  | p :: ps, args => do
    jsDeclare e p (args.headD JsStore.undef)
    bindParams e ps args.tail

/-- `js_call`. Without its two properties (an overflow, and nothing is evaluated any more) a
function has no body. -/
def jsCall (host : Host H) (ev : Eval H) (f self : Jsv) (args : List Jsv) : JsM H Jsv := do
  if f.t = .nat then runNative ev (host.jsNat f self args)
  else if f.t ≠ .fn then
    onStore (jsFail "関数でないものを呼びました")
    return JsStore.undef
  else
    let key ← onStore (jsIntern "__node".toList)
    let node := (jsGetProp (← get).store f.o key).n.toInt.toNat
    let key ← onStore (jsIntern "__env".toList)
    let fenv := (jsGetProp (← get).store f.o key).n.toInt.toNat
    let e ← onStore (jsNewEnv (some fenv))
    let code := (← get).store.code[node]?
    onStore (bindParams e ((code.map Code.params).getD []) args)
    let this ← onStore (jsIntern "this".toList)
    onStore (jsDeclare e this self)
    setRet false
    let body := (code.map Code.body).getD (.bare .undef)
    let _ ← ev.stmt .body body e
    let s ← get
    let r := if s.jsRetFlag then s.jsRetVal else JsStore.undef
    setRet false
    note (.leave r)
    return r

end Calls

section Expressions

variable {H : Type}

def typeName (t : Tag) : Str :=
  match t with
  | .str => "string".toList
  | .num => "number".toList
  | .bool => "boolean".toList
  | .fn | .nat => "function".toList
  | .undef => "undefined".toList
  | _ => "object".toList

def evalFields (ev : Eval H) (o env : Nat) : List (Str × Expr) → JsM H Unit
  | [] => return ()
  | (key, e) :: rest => do
    let v ← ev.expr e env
    onStore (jsSetProp o key v)
    evalFields ev o env rest

def evalItems (ev : Eval H) (o env : Nat) : Int64 → List Expr → JsM H Int64
  | i, [] => return i
  | i, e :: rest => do
    let key ← onStore (jsNumstr i)
    let v ← ev.expr e env
    onStore (jsSetProp o key v)
    evalItems ev o env (i + 1) rest

def evalArgs (ev : Eval H) (env : Nat) : List Expr → JsM H (List Jsv)
  | [] => return []
  | e :: rest => do
    let v ← ev.expr e env
    return v :: (← evalArgs ev env rest)

/-- `N_FUN` and `N_ARROW`; the node number stands in `__node`. -/
def makeFn (name : Option Str) (code : Code) (env : Nat) : StateM (Store Code H) Jsv := do
  let o ← jsNewObj 0
  let s ← get
  set { s with code := s.code ++ [code] }
  let key ← jsIntern "__node".toList
  jsSetProp o key (ofNum (Int64.ofNat s.code.length))
  let key ← jsIntern "__env".toList
  jsSetProp o key (ofNum (Int64.ofNat env))
  let v := { JsStore.undef with t := .fn, o := o }
  name.forM fun x => jsDeclare env x v
  return v

def arith (op : BinOp) (a b : Jsv) : Jsv :=
  match op with
  | .mul => ofNum (a.n * b.n)
  | .div => ofNum (if b.n = 0 then 0 else a.n / b.n)
  | .mod => ofNum (if b.n = 0 then 0 else a.n % b.n)
  | .add => ofNum (a.n + b.n)
  | .sub => ofNum (a.n - b.n)
  | .lt => ofBool (a.n < b.n)
  | .gt => ofBool (b.n < a.n)
  | .le => ofBool (a.n ≤ b.n)
  | .ge => ofBool (b.n ≤ a.n)
  | .eq => ofBool (jsEqv a b)
  | .ne => ofBool (!jsEqv a b)
  | _ => JsStore.undef

/-- `+` of two values. -/
def plus (a b : Jsv) : StateM (Store Code H) Jsv := do
  if a.t = .str ∨ b.t = .str then
    let x ← jsTostr a
    let y ← jsTostr b
    return ofStr (← jsStrConcat x y)
  return ofNum (a.n + b.n)

def evalBin (ev : Eval H) (op : BinOp) (a b : Expr) (env : Nat) : JsM H Jsv := do
  let x ← ev.expr a env
  match op with
  | .and => if jsTruthy x then ev.expr b env else return x
  | .or => if jsTruthy x then return x else ev.expr b env
  | .add => do
    let y ← ev.expr b env
    onStore (plus x y)
  | op => do
    let y ← ev.expr b env
    return arith op x y

def getMember (host : Host H) (o : Jsv) (key : Str) : StateM (Store Code H) Jsv := do
  let h ← host.jsHostMember o key
  if o.t = .obj ∧ h.t = .undef then return jsGetProp (← get) o.o key
  return h

def setMember (host : Host H) (o : Jsv) (key : Str) (v : Jsv) :
    StateM (Store Code H) Unit := do
  if ← host.jsHostSetmember o key v then return ()
  if o.t = .obj then jsSetProp o.o key v

/-- The stores of `N_ASSIGN`. -/
def assignTo (host : Host H) (ev : Eval H) (target : Expr) (v : Jsv) (env : Nat) :
    JsM H Unit := do
  match target with
  | .name x =>
    match jsLookup (← get).store env x with
    | some i => onStore (jsSetVar i v)
    | none => onStore (jsDeclare env x v)
  | .member a key => do
    let o ← ev.expr a env
    onStore (setMember host o key v)
  | .index a b => do
    let o ← ev.expr a env
    let k ← ev.expr b env
    let key ← onStore (jsTostr k)
    onStore (setMember host o key v)
  | _ => onStore (jsFail "代入先が式です")

def evalAssign (host : Host H) (ev : Eval H) (plus' : Bool) (target value : Expr) (env : Nat) :
    JsM H Jsv := do
  let v ← ev.expr value env
  if plus' then
    let cur ← ev.expr target env
    let v ← onStore (plus cur v)
    assignTo host ev target v env
    return v
  assignTo host ev target v env
  return v

/-- The function and the `this` of a call. -/
def evalCallee (host : Host H) (ev : Eval H) (f : Expr) (env : Nat) : JsM H (Jsv × Jsv) := do
  match f with
  | .member a key => do
    let self ← ev.expr a env
    return (self, ← onStore (getMember host self key))
  | .index a b => do
    let self ← ev.expr a env
    let k ← ev.expr b env
    let key ← onStore (jsTostr k)
    return (self, ← onStore (getMember host self key))
  | f => return (JsStore.undef, ← ev.expr f env)

/-- `js_eval` of an expression. -/
def evalExpr (host : Host H) (ev : Eval H) (e : Expr) (env : Nat) : JsM H Jsv :=
  match e with
  | .num n => return ofNum n
  | .str s => return ofStr s
  | .bool b => return ofBool b
  | .null => return JsStore.null
  | .undef => return JsStore.undef
  | .name x => do
    let s := (← get).store
    match jsLookup s env x with
    | some i => return ((s.vars[i]?).map Var.val).getD JsStore.undef
    | none => onStore (host.jsHostGlobal x)
  | .obj fields => do
    let o ← onStore (jsNewObj 0)
    evalFields ev o env fields
    return ofObj o
  | .arr items => do
    let o ← onStore (jsNewObj 1)
    let i ← evalItems ev o env 0 items
    let key ← onStore (jsIntern "length".toList)
    onStore (jsSetProp o key (ofNum i))
    return ofObj o
  | .fn name params body => onStore (makeFn name ⟨params, body⟩ env)
  | .arrow params body => onStore (makeFn none ⟨params, body⟩ env)
  | .un op a => do
    let v ← ev.expr a env
    match op with
    | .typeof => return ofStr (← onStore (jsIntern (typeName v.t)))
    | .not => return ofBool (!jsTruthy v)
    | .neg => return ofNum (-v.n)
  | .bin op a b => evalBin ev op a b env
  | .cond c a b => do
    let v ← ev.expr c env
    if jsTruthy v then ev.expr a env else ev.expr b env
  | .member a key => do
    let o ← ev.expr a env
    onStore (getMember host o key)
  | .index a b => do
    let o ← ev.expr a env
    let k ← ev.expr b env
    let key ← onStore (jsTostr k)
    onStore (getMember host o key)
  | .assign plus' target value => evalAssign host ev plus' target value env
  | .call f args => do
    let (self, fv) ← evalCallee host ev f env
    let vs ← evalArgs ev env (args.take 8)
    jsCall host ev fv self vs

end Expressions

section Statements

variable {H : Type}

/-- `js_eval` of a part that may be missing. -/
def evalOpt (ev : Eval H) (e : Option Expr) (env : Nat) : JsM H Jsv :=
  match e with
  | some e => ev.expr e env
  | none => return JsStore.undef

def evalStmtOpt (ev : Eval H) (place : Place) (s : Option Stmt) (env : Nat) : JsM H Jsv :=
  match s with
  | some s => ev.stmt place s env
  | none => return JsStore.undef

def loopTest (ev : Eval H) (c : Option Expr) (env : Nat) : JsM H Bool := do
  let v ← evalOpt ev c env
  return (c.isNone || jsTruthy v) && (← goesOn)

/-- The loop of `N_BLOCK`. -/
def blockLoop (ev : Eval H) (place : Place) (e : Nat) : List Stmt → JsM H Unit
  | [] => return ()
  | s :: rest => do
    if ← goesOn then
      let _ ← ev.stmt place s e
      blockLoop ev place e rest

/-- The loop of `N_VAR`. -/
def varLoop (ev : Eval H) (env : Nat) : List (Str × Option Expr) → JsM H Unit
  | [] => return ()
  | (x, init) :: rest => do
    let v ← evalOpt ev init env
    onStore (jsDeclare env x v)
    varLoop ev env rest

/-- The loops of `N_WHILE` and `N_FOR`; the number is what is left of `guard`. -/
def loop (ev : Eval H) (place : Place) (c step : Option Expr) (body : Stmt) (env : Nat)
    (fail : String) : Nat → JsM H Unit
  | 0 => do
    if ← loopTest ev c env then onStore (jsFail fail)
  | guard + 1 => do
    if ← loopTest ev c env then
      let _ ← ev.stmt place body env
      let _ ← evalOpt ev step env
      loop ev place c step body env fail guard

def bodyPlace (place : Place) (c step : Option Expr) : Place :=
  if c.isSome || step.isSome then place.inLoop else place

/-- `js_eval` of a statement. -/
def evalStmt (ev : Eval H) (place : Place) (s : Stmt) (env : Nat) : JsM H Jsv :=
  match s with
  | .block ss => do
    let e ← onStore (jsNewEnv (some env))
    blockLoop ev place e ss
    return JsStore.undef
  | .var ds => do
    varLoop ev env ds
    return JsStore.undef
  | .expr e => ev.expr e env
  | .bare e => ev.expr e env
  | .ret a => do
    let v ← evalOpt ev a env
    modify fun s => { s with jsRetVal := v, jsRetFlag := true }
    note (.ret place (!(← get).store.err.isSome) v)
    return v
  | .ifte c t e => do
    let v ← ev.expr c env
    let _ ← if jsTruthy v then ev.stmt place t env else evalStmtOpt ev place e env
    return JsStore.undef
  | .while c body => do
    loop ev (bodyPlace place (some c) none) (some c) none body env "while が終わりません" 2000000
    return JsStore.undef
  | .for init c step body => do
    let e ← onStore (jsNewEnv (some env))
    let _ ← evalStmtOpt ev (if c.isSome then place.inLoop else place) init e
    loop ev (bodyPlace place c step) c step body e "for が終わりません" 2000000
    return JsStore.undef

end Statements

section Programs

variable {H : Type}

/-- A budget of `k` nested evaluations. -/
def eval (host : Host H) : Nat → Eval H
  | 0 =>
    let off : JsM H Jsv := unlessErr do
      modify fun s => { s with stuck := true }
      return JsStore.undef
    ⟨fun _ _ => off, fun _ _ _ => off, fun _ _ _ => off⟩
  | k + 1 =>
    let ev := eval host k
    ⟨fun e env => unlessErr (evalExpr host ev e env),
      fun place s env => unlessErr (evalStmt ev place s env),
      jsCall host ev⟩

/-- A statement of the program, with the texts of the tokens that are read for it. -/
structure Line where
  tokens : List Str
  stmt : Stmt

/-- The loop of `js_run`. -/
def runLines (ev : Eval H) (env : Nat) : Jsv → List Line → JsM H Jsv
  | last, [] => return last
  | last, line :: rest => do
    if (← get).store.err.isSome then return last
    onStore (line.tokens.forM fun x => do let _ ← jsIntern x)
    let v ← ev.stmt .top line.stmt env
    if (← get).jsRetFlag then return v
    runLines ev env v rest

def jsRun (host : Host H) (fuel : Nat) (program : List Line) : JsM H Str := do
  let last ← runLines (eval host fuel) 0 JsStore.undef program
  onStore (jsTostr last)

/-- The state behind `js_reset`. -/
def jsReset (host : H) : State H :=
  ⟨⟨1, [], none, [], [], [⟨none, []⟩], [], [], host⟩, false, JsStore.undef, [], false⟩

end Programs

end XinuRpi5.System.Js
