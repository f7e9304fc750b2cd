/- source: cc/abcl2c.c
   digest: The state of the AIPL translator and its structural pass over the classes. -/

import XinuRpi5.Cc.AiplLex
import XinuRpi5.Lib.NameTable
import XinuRpi5.Lib.RuledState

namespace XinuRpi5.Cc.AiplStructure

open AiplLex Lib.NameTable Lib.RuledState

def maxClass : Nat := 16

def maxField : Nat := 16

def maxMethod : Nat := 24

def maxParam : Nat := 4

def maxMName : Nat := 48

/-- `finit` and `finit_bool`. -/
inductive Init where
  | int (v : Int)
  | bool (v : Nat)
  | float (neg : Bool) (whole : Nat) (frac : Option Text)
  | new (ci : Nat)

structure Field where
  name : Text
  init : Init

structure Method where
  name : Text
  params : List Text
  body : Text

/-- `class_t`. -/
structure Class where
  name : Text
  fields : List Field
  methods : List Method

/-- A case of a `select`: the message, its variable and the body. -/
structure Case where
  mid : Nat
  var : Text
  body : Text
  deriving DecidableEq

/-- `sel_t`. -/
structure Sel where
  cls : Nat
  owner : Nat
  sid : Nat
  cases : List Case
  tbody : Option Text
  rest : Text
  deriving DecidableEq

inductive Op where
  | add
  | sub
  | mul
  | div
  | lt
  | le
  | gt
  | ge
  | eq
  | ne
  | and
  | or
  | not
  | neg
  deriving DecidableEq

inductive NodeKind where
  | nil
  | int
  | bool
  | str
  | id
  | new
  | now
  | nowdl
  | fut
  | await
  | awaitdl
  | print
  | aicall
  | web
  | wait
  | bin
  | un
  | rt
  | selfcall
  | flt
  | remote
  | spawn
  deriving DecidableEq

/-- `enode_t`; `b` is `none` for -1. -/
structure Node where
  k : NodeKind
  num : Nat
  frac : Option Text
  s : Text
  s2 : String
  op : Op
  a : Nat
  b : Option Nat
  ci : Nat
  mid : Nat
  args : List Nat

/-- What `op_s` and `op_n` write: `length` is the number in `struct Obj` and
`index` the number of a field access, `float` the bits of a `double`. -/
inductive Piece where
  | str (s : String)
  | name (t : Text)
  | num (n : Int)
  | float (neg : Bool) (whole : Nat) (frac : Option Text)
  | length (n : Nat)
  | index (k : Nat)
  deriving DecidableEq

/-- The static variables of the translator; `cc` is `none` at top level, `stuck` says
that a budget of rounds was used up, and `asked` are the names in the source that got
numbers. -/
structure St where
  lex : Lex
  cls : List Class
  mname : List Text
  asked : List (Asked Text)
  toplevel : Text
  maxf : Nat
  topv : List Text
  sel : List Sel
  selField : Nat → Option Nat
  nd : List Node
  cc : Option Nat
  curMeth : Nat
  locals : List Text
  out : List Piece
  stuck : Bool

def classIdx (cls : List Class) (name : Text) : Option Nat := cls.findIdx? fun c => c.name = name

def fieldIdx (c : Class) (name : Text) : Option Nat := c.fields.findIdx? fun f => f.name = name

/-- `meth_id`: a name that does not fit any more gets 0. -/
def methIdIn (mname : List Text) (name : Text) : Nat × List Text :=
  match mname.findIdx? (· = name) with
  | some i => (i, mname)
  | none =>
    if mname.length < maxMName then (mname.length, mname ++ [name.take 47]) else (0, mname)

/-- `meth_id` of a name in the source, under the key that is left of it. -/
def St.ask (s : St) (name key : Text) : St :=
  { s with
    mname := (methIdIn s.mname key).2
    asked := s.asked ++ [⟨name, key, (methIdIn s.mname key).1⟩] }

def Logged (s : St) : Prop :=
  Numbered (List.take 47) maxMName s.mname s.asked ∧
    ∀ c ∈ s.cls, ∀ m ∈ c.methods, ∃ a ∈ s.asked, a.key = m.name ∧ a.name.take 47 = m.name

theorem Logged.ask {s : St} (logged : Logged s) {name key : Text}
    (same : key.take 47 = name.take 47) : Logged (s.ask name key) := by
  refine ⟨logged.1.ask name key same, fun c listed m inside => ?_⟩
  obtain ⟨a, old, known⟩ := logged.2 c listed m inside
  exact ⟨a, List.mem_append_left _ old, known⟩

theorem Logged.again {s : St} (logged : Logged s) {c : Class} {m : Method} (listed : c ∈ s.cls)
    (inside : m ∈ c.methods) :
    ∃ a ∈ s.asked, a.name.take 47 = m.name ∧ methIdIn s.mname m.name = (a.num, s.mname) := by
  obtain ⟨a, old, key, cut⟩ := logged.2 c listed m inside
  have short : a.key.take 47 = a.key := by rw [key, ← cut, List.take_take, Nat.min_self]
  refine ⟨a, old, cut, ?_⟩
  rw [← key]
  exact logged.1.again old short

/-- The number of a name stays: it is in the table, or the table is full. -/
def Named (mname : List Text) (name : Text) : Prop := name ∈ mname ∨ maxMName ≤ mname.length

theorem Named.stable {mname new : List Text} {name : Text} (named : Named mname name)
    (full : maxMName ≤ mname.length → new = []) :
    (methIdIn (mname ++ new) name).1 = (methIdIn mname name).1 := by
  rcases named with listed | most
  · have found : ∃ i, mname.findIdx? (· = name) = some i := by
      cases is : mname.findIdx? (· = name) with
      | some i => exact ⟨i, rfl⟩
      | none =>
        have missing := List.findIdx?_eq_none_iff.mp is name listed
        simp at missing
    obtain ⟨i, is⟩ := found
    have longer : (mname ++ new).findIdx? (· = name) = some i := by
      rw [List.findIdx?_append, is]
      rfl
    unfold methIdIn
    rw [is, longer]
  · rw [full most, List.append_nil]

theorem methIdIn_grows (mname : List Text) (name : Text) :
    ∃ new, (methIdIn mname name).2 = mname ++ new ∧ (maxMName ≤ mname.length → new = []) := by
  unfold methIdIn
  split
  · exact ⟨[], (List.append_nil _).symm, fun _ => rfl⟩
  · split_ifs with room
    · exact ⟨_, rfl, fun full => absurd room (Nat.not_lt.mpr full)⟩
    · exact ⟨[], (List.append_nil _).symm, fun _ => rfl⟩

theorem Named.grows {mname : List Text} {name : Text} (named : Named mname name) (other : Text) :
    Named (methIdIn mname other).2 name := by
  obtain ⟨new, equal, _⟩ := methIdIn_grows mname other
  rw [equal]
  rcases named with listed | full
  · exact .inl (List.mem_append_left new listed)
  · exact .inr (Nat.le_trans full (by simp))

theorem named_methIdIn (mname : List Text) {name : Text} (short : name.take 47 = name) :
    Named (methIdIn mname name).2 name := by
  unfold methIdIn
  split
  · next i found =>
    obtain ⟨inside, test, _⟩ := List.findIdx?_eq_some_iff_getElem.mp found
    rw [decide_eq_true_iff] at test
    exact .inl (test ▸ List.getElem_mem inside)
  · split_ifs with room
    · exact .inl (by rw [short]; simp)
    · exact .inr (Nat.not_lt.mp room)

section Reading

/-- The rule says nothing about the lexer, the table of method names and the
budget. -/
class Neutral (r : Rule St) : Prop where
  lex : ∀ s l, r.rel s { s with lex := l }
  mname : ∀ s name, r.rel s (s.ask name name)
  stuck : ∀ s, r.rel s { s with stuck := true }

variable {r : Rule St} [Neutral r] {α : Type}

def onLex (f : Lex → Lex) : Prog r Unit :=
  .change (fun s => { s with lex := f s.lex }) fun s => Neutral.lex s _

def lexed (f : Lex → α × Lex) : Prog r α :=
  .act (fun s => ((f s.lex).1, { s with lex := (f s.lex).2 })) fun s => Neutral.lex s _

def lexNext : Prog r Unit := onLex Lex.next

def a2cFail (m : String) : Prog r Unit := onLex fun l => l.fail m

def skipBlock : Prog r Unit := onLex Lex.skipBlock

def skipType : Prog r Bool := lexed Lex.skipType

def isP (p : String) : Prog r Bool := .gets fun s => s.lex.isP p

def isKw (k : String) : Prog r Bool := .gets fun s => s.lex.isKw k

def isEof : Prog r Bool := .gets fun s => s.lex.isEof

def failed : Prog r Bool := .gets fun s => s.lex.err.isSome

def tok : Prog r Tok := .gets fun s => s.lex.tok

def cpid : Prog r Text := .gets fun s => s.lex.cpid

def place : Prog r Text := .gets fun s => s.lex.start

def goto (t : Text) : Prog r Unit := onLex fun l => l.goto t

def methId (name : Text) : Prog r Nat :=
  .act (fun s => ((methIdIn s.mname name).1, s.ask name name)) fun s => Neutral.mname s _

def outOfRounds : Prog r Unit :=
  .change (fun s => { s with stuck := true }) fun s => Neutral.stuck s

def expectP (p m : String) : Prog r Bool := do
  if ← isP p then
    lexNext
    return true
  else
    a2cFail m
    return false

end Reading

section Structure

/-- What holds while the classes are read: `MAXF` is the largest number of fields,
and at least 1, the methods have numbers unless the table is full, the lookups are
recorded, nothing is written, and no select is known. -/
structure Declared (s : St) : Prop where
  width : ∀ c ∈ s.cls, c.fields.length ≤ s.maxf
  pos : 0 < s.maxf
  tight : ∀ n, n < s.maxf → n = 0 ∨ ∃ c ∈ s.cls, n < c.fields.length
  named : ∀ c ∈ s.cls, ∀ m ∈ c.methods, Named s.mname m.name
  logged : Logged s
  out : s.out = []
  selField : s.selField = fun _ => none
  sel : s.sel = []

def declares : Rule St := .stable Declared

instance : Neutral declares where
  lex _ _ ok := ⟨ok.width, ok.pos, ok.tight, ok.named, ok.logged, ok.out, ok.selField, ok.sel⟩
  mname _ name ok := ⟨ok.width, ok.pos, ok.tight,
    fun c listed m inside => (ok.named c listed m inside).grows name, ok.logged.ask rfl, ok.out,
    ok.selField, ok.sel⟩
  stuck _ ok := ⟨ok.width, ok.pos, ok.tight, ok.named, ok.logged, ok.out, ok.selField, ok.sel⟩

def withLast (cls : List Class) (f : Class → Class) : List Class :=
  match cls.getLast? with
  | some c => cls.dropLast ++ [f c]
  | none => cls

variable {cls : List Class}

theorem mem_withLast {f : Class → Class} {c : Class}
    (listed : c ∈ withLast cls f) : c ∈ cls ∨ ∃ d, cls.getLast? = some d ∧ c = f d := by
  unfold withLast at listed
  split at listed
  · next d last =>
    rcases List.mem_append.mp listed with early | new
    · exact .inl ((List.dropLast_sublist cls).subset early)
    · exact .inr ⟨d, last, List.mem_singleton.mp new⟩
  · exact .inl listed

theorem withLast_wide {f : Class → Class} {c : Class}
    (grows : ∀ d, d.fields.length ≤ (f d).fields.length) (listed : c ∈ cls) :
    ∃ e ∈ withLast cls f, c.fields.length ≤ e.fields.length := by
  unfold withLast
  split
  · next d last =>
    obtain ⟨before, rfl⟩ := List.getLast?_eq_some_iff.mp last
    rw [List.dropLast_concat]
    rcases List.mem_append.mp listed with early | final
    · exact ⟨c, List.mem_append_left _ early, Nat.le_refl _⟩
    · rw [List.mem_singleton.mp final]
      exact ⟨f d, by simp, grows d⟩
  · exact ⟨c, listed, Nat.le_refl _⟩

theorem withLast_last {d : Class} (f : Class → Class)
    (last : cls.getLast? = some d) : f d ∈ withLast cls f := by
  unfold withLast
  rw [last]
  exact List.mem_append_right _ (List.mem_singleton_self _)

def addClass (name : Text) : Prog declares Unit :=
  .change (fun s => { s with cls := s.cls ++ [⟨name, [], []⟩] }) fun s ok => by
    refine ⟨fun c listed => ?_, ok.pos, fun n less => ?_, fun c listed m inside => ?_,
      ⟨ok.logged.1, fun c listed m inside => ?_⟩, ok.out, ok.selField, ok.sel⟩
    · rcases List.mem_append.mp listed with old | new
      · exact ok.width c old
      · rw [List.mem_singleton.mp new]
        exact Nat.zero_le _
    · refine (ok.tight n less).imp_right fun ⟨c, old, more⟩ => ?_
      exact ⟨c, List.mem_append_left _ old, more⟩
    · rcases List.mem_append.mp listed with old | new
      · exact ok.named c old m inside
      · rw [List.mem_singleton.mp new] at inside
        cases inside
    · rcases List.mem_append.mp listed with old | new
      · exact ok.logged.2 c old m inside
      · rw [List.mem_singleton.mp new] at inside
        cases inside

/-- `c->nfield` and `c->nmethod` of the current class. -/
def lastCount (f : Class → Nat) (s : St) : Nat := s.cls.getLast?.elim 0 f

/-- A new field; `MAXF` grows with the class. -/
def addField (name : Text) (init : Init) : Prog declares Unit :=
  .change (fun s =>
    { s with
      cls := withLast s.cls fun c => { c with fields := c.fields ++ [⟨name, init⟩] }
      maxf := max s.maxf (lastCount (fun c => c.fields.length) s + 1) }) fun s ok => by
    refine ⟨fun c listed => ?_, Nat.lt_of_lt_of_le ok.pos (Nat.le_max_left _ _),
      fun n less => ?_, fun c listed m inside => ?_,
      ⟨ok.logged.1, fun c listed m inside => ?_⟩, ok.out, ok.selField, ok.sel⟩
    · rcases mem_withLast listed with old | ⟨d, last, rfl⟩
      · exact Nat.le_trans (ok.width c old) (Nat.le_max_left _ _)
      · have count : lastCount (fun c => c.fields.length) s = d.fields.length := by
          rw [lastCount, last]
          rfl
        rw [List.length_append, List.length_singleton, ← count]
        exact Nat.le_max_right _ _
    · rcases Nat.lt_or_ge n s.maxf with old | new
      · refine (ok.tight n old).imp_right fun ⟨c, listed, more⟩ => ?_
        obtain ⟨e, now, wide⟩ := withLast_wide
          (f := fun c => { c with fields := c.fields ++ [⟨name, init⟩] })
          (fun d => by simp) listed
        exact ⟨e, now, Nat.lt_of_lt_of_le more wide⟩
      · have below : n < lastCount (fun c => c.fields.length) s + 1 := by
          change n < max _ _ at less
          omega
        cases last : s.cls.getLast? with
        | none =>
          rw [lastCount, last] at below
          exact .inl (Nat.lt_one_iff.mp below)
        | some d =>
          rw [lastCount, last] at below
          exact .inr ⟨_, withLast_last _ last, by simpa using below⟩
    · rcases mem_withLast listed with old | ⟨d, last, rfl⟩
      · exact ok.named c old m inside
      · exact ok.named d (List.mem_of_getLast? last) m inside
    · rcases mem_withLast listed with old | ⟨d, last, rfl⟩
      · exact ok.logged.2 c old m inside
      · exact ok.logged.2 d (List.mem_of_getLast? last) m inside

def addMethod (name : Text) (params : List Text) (body : Text) : Prog declares Unit :=
  .change (fun s =>
    { s.ask name (name.take 47) with
      cls := withLast s.cls fun c =>
        { c with methods := c.methods ++ [⟨name.take 47, params, body⟩] } }) fun s ok => by
    have before : ∀ c ∈ s.cls, ∀ m ∈ c.methods,
        Named (methIdIn s.mname (name.take 47)).2 m.name :=
      fun c listed m inside => (ok.named c listed m inside).grows _
    have asked : Logged (s.ask name (name.take 47)) :=
      ok.logged.ask (by rw [List.take_take, Nat.min_self])
    refine ⟨fun c listed => ?_, ok.pos, fun n less => ?_, fun c listed m inside => ?_,
      ⟨asked.1, fun c listed m inside => ?_⟩, ok.out, ok.selField, ok.sel⟩
    · rcases mem_withLast listed with old | ⟨d, last, rfl⟩
      · exact ok.width c old
      · exact ok.width d (List.mem_of_getLast? last)
    · refine (ok.tight n less).imp_right fun ⟨c, listed, more⟩ => ?_
      obtain ⟨e, now, wide⟩ := withLast_wide
        (f := fun c => { c with methods := c.methods ++ [⟨name.take 47, params, body⟩] })
        (fun d => Nat.le_refl d.fields.length) listed
      exact ⟨e, now, Nat.lt_of_lt_of_le more wide⟩
    · rcases mem_withLast listed with old | ⟨d, last, rfl⟩
      · exact before c old m inside
      · rcases List.mem_append.mp inside with early | new
        · exact before d (List.mem_of_getLast? last) m early
        · rw [List.mem_singleton.mp new]
          exact named_methIdIn s.mname (by rw [List.take_take, Nat.min_self])
    · rcases mem_withLast listed with old | ⟨d, last, rfl⟩
      · exact asked.2 c old m inside
      · rcases List.mem_append.mp inside with early | new
        · exact asked.2 d (List.mem_of_getLast? last) m early
        · rw [List.mem_singleton.mp new]
          exact ⟨_, List.mem_append_right _ List.mem_cons_self, rfl, rfl⟩

def minus : Prog declares Bool := do
  if ← isP "-" then
    lexNext
    return true
  else return false

/-- `float g = 1.5;` with `float` as the current token. -/
def parseFloatField : Prog declares Bool := do
  lexNext
  if (← tok).kind ≠ .id then
    a2cFail "float field: expected name"
    return false
  if maxField ≤ (← .gets (lastCount fun c => c.fields.length)) then
    a2cFail "too many fields"
    return false
  let name ← cpid
  lexNext
  let mut init := Init.float false 0 none
  if ← isP "=" then
    lexNext
    let neg ← minus
    let t ← tok
    if t.kind ≠ .num then
      a2cFail "float field: expected a number"
      return false
    init := .float neg t.num t.frac
    lexNext
  addField name init
  expectP ";" "float field: expected ';'"

/-- `new K()` as the initial value of a field. -/
def parseFieldNew : Prog declares (Option Init) := do
  lexNext
  let t ← tok
  if t.kind ≠ .id then
    a2cFail "field init: new: expected a class name"
    return none
  match classIdx (← .gets St.cls) t.s with
  | none =>
    a2cFail "field init: new: unknown class (定義の順に書くこと)"
    return none
  | some kc =>
    lexNext
    if ← isP "(" then
      lexNext
      if !(← isP ")") then
        a2cFail "field init: new: 引数つきはこの装置では書けません"
        return none
      lexNext
    return some (.new kc)

/-- The initial value of a field, with the token behind `=` as the current one. -/
def parseFieldInit : Prog declares (Option Init) := do
  let neg ← minus
  let t ← tok
  if t.kind = .num then
    lexNext
    return some (.int (asLong (if neg then -(t.num : Int) else t.num)))
  else if (← isKw "true") ∨ (← isKw "false") then
    if neg then
      a2cFail "field init: '-' on bool"
      return none
    let value := if ← isKw "true" then 1 else 0
    lexNext
    return some (.bool value)
  else if ← isKw "new" then
    if neg then
      a2cFail "field init: '-' on new"
      return none
    parseFieldNew
  else
    a2cFail "field init: only int/bool literals, or new K(), on this device"
    return none

/-- `var n: int = 0;` with `var` as the current token. -/
def parseVarField : Prog declares Bool := do
  lexNext
  if (← tok).kind ≠ .id then
    a2cFail "field: expected name"
    return false
  if maxField ≤ (← .gets (lastCount fun c => c.fields.length)) then
    a2cFail "too many fields"
    return false
  let name ← cpid
  lexNext
  if ← isP ":" then
    lexNext
    if !(← skipType) then return false
  let mut init := Init.int 0
  if ← isP "=" then
    lexNext
    match ← parseFieldInit with
    | some value => init := value
    | none => return false
  addField name init
  expectP ";" "field: expected ';'"

/-- The parameters of a method up to the closing bracket; at most `maxParam` are
read. -/
def parseParams : Nat → List Text → Prog declares (Option (List Text))
  | 0, _ => do
    outOfRounds
    return none
  | rounds + 1, params => do
    if (← isP ")") ∨ (← isEof) ∨ (← failed) then return some params
    if (← tok).kind ≠ .id then
      a2cFail "method: expected parameter name"
      return none
    if maxParam ≤ params.length then
      a2cFail "too many parameters (max 4)"
      return none
    let params := params ++ [← cpid]
    lexNext
    if ← isP ":" then
      lexNext
      if !(← skipType) then return none
    if ← isP "," then
      lexNext
      parseParams rounds params
    else return some params

/-- A method, with `method` as the current token. -/
def parseMethod : Prog declares Bool := do
  lexNext
  if (← tok).kind ≠ .id then
    a2cFail "method: expected name"
    return false
  if maxMethod ≤ (← .gets (lastCount fun c => c.methods.length)) then
    a2cFail "too many methods"
    return false
  let name := (← tok).s
  lexNext
  if !(← expectP "(" "method: expected '('") then return false
  match ← parseParams (maxParam + 2) [] with
  | none => return false
  | some params =>
    if !(← expectP ")" "method: expected ')'") then return false
    if !(← lexed (skipMethodAnnots 16)) then return false
    if !(← isP lbrace) then
      a2cFail "method: expected '\x7b'"
      return false
    addMethod name params (← place)
    skipBlock
    return true

def parseMembers : Nat → Prog declares Bool
  | 0 => do
    outOfRounds
    return false
  | rounds + 1 => do
    if (← isP rbrace) ∨ (← isEof) ∨ (← failed) then return true
    let ok ← if ← isKw "float" then parseFloatField
      else if ← isKw "var" then parseVarField
      else if ← isKw "method" then parseMethod
      else do
        a2cFail "class body: expected var/method"
        return false
    if ok then parseMembers rounds else return false

def parseClasses (rounds : Nat) : Nat → Prog declares Bool
  | 0 => do
    outOfRounds
    return false
  | left + 1 => do
    if (← isEof) ∨ !(← isKw "class") then
      let here ← place
      .change (fun s => { s with toplevel := here })
        fun _ ok => ⟨ok.width, ok.pos, ok.tight, ok.named, ok.logged, ok.out, ok.selField, ok.sel⟩
      return true
    if maxClass ≤ (← .gets fun s => s.cls.length) then
      a2cFail "too many classes"
      return false
    lexNext
    if (← tok).kind ≠ .id then
      a2cFail "class: expected name"
      return false
    addClass (← cpid)
    lexNext
    if !(← expectP lbrace "class: expected '\x7b'") then return false
    if !(← parseMembers rounds) then return false
    if ← isP rbrace then lexNext
    parseClasses rounds left

/-- `parse_structure` behind its initialisation. -/
def parseStructure (rounds : Nat) : Prog declares Bool := do
  lexNext
  parseClasses rounds rounds

end Structure

/-- The static variables at the start of `abcl2c`; node 0 is the invalid one. -/
def start (src : Text) : St where
  lex := ⟨src, [], ⟨.eof, [], 0, none⟩, none⟩
  cls := []
  mname := []
  asked := []
  toplevel := []
  maxf := 1
  topv := []
  sel := []
  selField := fun _ => none
  nd := [⟨.nil, 0, none, [], "", .add, 0, none, 0, 0, []⟩]
  cc := none
  curMeth := 0
  locals := []
  out := []
  stuck := false

end XinuRpi5.Cc.AiplStructure
