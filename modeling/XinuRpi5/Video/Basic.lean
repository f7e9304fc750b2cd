/- source: device/video/basic.c
   digest: The control flow of the BASIC interpreter: statements, their jumps and do_run. -/

import Mathlib.Algebra.Group.Nat.Defs
import Mathlib.Data.List.Basic

/-!
A text is what is left of its line, so `ip` is a text. The stacks have their top in front.
What evaluates expressions and executes the statements that do not jump is a parameter: it
moves on in the line and changes the data.
-/

namespace XinuRpi5.Video.Basic

abbrev Str := List Char

def nvarMax : Nat := 224
def forMax : Nat := 32
def gosubMax : Nat := 256
def whileMax : Nat := 32

/-- An entry of `prog`; the number is the word of an `int`. -/
structure Line where
  no : Nat
  text : Str
  deriving DecidableEq

/-- The variables (`vname`, `vval`), the word below `vval`, the rest of the data and `err`. -/
structure Data (R : Type) where
  vars : List (Str × Int)
  below : Int
  rest : R
  err : Option String
  deriving DecidableEq

/-- An entry of `forstk`; no slot is the slot -1. -/
structure ForLoop where
  var : Option Nat
  limit : Int
  step : Int
  idx : Nat
  stmt : Str
  deriving DecidableEq

/-- An entry of `gosubstk` or `whilestk`. -/
structure Spot where
  rpc : Nat
  rip : Str
  deriving DecidableEq

structure State (R : Type) where
  prog : List Line
  data : Data R
  running : Bool
  pc : Nat
  ip : Str
  gGoto : Int
  forstk : List ForLoop
  gosubstk : List Spot
  whilestk : List Spot
  deriving DecidableEq

/-- `expr`, the statements without jumps and what RUN and NEW do to the rest of the data. -/
structure Evaluator (R : Type) where
  expr : Str → Data R → Int × Str × Data R
  expr_onward : ∀ t d, (expr t d).2.1.length ≤ t.length
  other : List Line → Str → Data R → Str × Data R
  reset : R → R

def bIsdigit (c : Char) : Bool := '0' ≤ c && c ≤ '9'

def bIsalpha (c : Char) : Bool := ('A' ≤ c && c ≤ 'Z') || ('a' ≤ c && c ≤ 'z')

def isAlnum (c : Char) : Bool := bIsalpha c || bIsdigit c

def bUp (c : Char) : Char := if 'a' ≤ c && c ≤ 'z' then Char.ofNat (c.toNat - 32) else c

def skipsp (t : Str) : Str := t.dropWhile fun c => c == ' ' || c == '\t'

/-- `b_streqi_kw`: the text behind the keyword. -/
def bStreqiKw (t : Str) (k : String) : Option Str :=
  let rest := t.drop k.length
  if (t.take k.length).map bUp = k.toList ∧ !(rest.headD ' ' |> isAlnum) then some rest else none

def kw (k : String) (t : Str) : Option Str := bStreqiKw (skipsp t) k

/-- `var_name`: the name and the rest of the text. -/
def varName (t : Str) : Str × Str :=
  let t := skipsp t
  match t with
  | [] => ([], [])
  | c :: _ =>
    if bIsalpha c then
      let name := (t.take 10).takeWhile isAlnum
      let rest := t.drop name.length
      match rest with
      | '$' :: rest => (name.map bUp ++ ['$'], rest)
      | rest => (name.map bUp, rest)
    else ([], t)

section Variables

variable {R : Type}

def berr (m : String) (d : Data R) : Data R := if d.err.isSome then d else { d with err := some m }

def varSlot (name : Str) (d : Data R) : Option Nat × Data R :=
  match d.vars.findIdx? fun x => x.1 == name with
  | some i => (some i, d)
  | none =>
    if d.vars.length ≥ nvarMax then (none, berr "too many vars" d)
    else (some d.vars.length, { d with vars := d.vars ++ [(name, 0)] })

/-- `varidx`: the slot, and the text and the data behind it. -/
def varidx (t : Str) (d : Data R) : Option Nat × Str × Data R :=
  let (name, rest) := varName t
  if name = [] ∨ name.getLast? = some '$' then (none, t, d)
  else
    let (slot, d) := varSlot name d
    (slot, rest, d)

def getVar (d : Data R) : Option Nat → Int
  | some i => ((d.vars[i]?).map Prod.snd).getD 0
  | none => d.below

def setVar (d : Data R) (x : Int) : Option Nat → Data R
  | some i => { d with vars := d.vars.modify i fun v => (v.1, x) }
  | none => { d with below := x }

end Variables

section Targets

variable {R : Type}

def findLine (prog : List Line) (no : Nat) : Option Nat := prog.findIdx? fun l => l.no == no

def isLabel (name : Str) (l : Line) : Bool :=
  match l.text with
  | '*' :: t =>
    (t.take name.length).map bUp == name && !((t.drop name.length).headD ' ' |> isAlnum)
  | _ => false

def findLabel (prog : List Line) (name : Str) : Int :=
  match prog.find? (isLabel name) with
  | some l => (l.no : Int).bmod (2 ^ 32)
  | none => -1

/-- `(int)` of a value; the conversion of the processor stops at the ends. -/
def asInt (n : Int) : Int := max (-2147483648) (min n 2147483647)

def gotoTarget (ev : Evaluator R) (s : State R) : Int × State R :=
  match skipsp s.ip with
  | '*' :: t =>
    let name := (t.take 11).takeWhile isAlnum
    (findLabel s.prog (name.map bUp), { s with ip := t.drop name.length })
  | t =>
    let (n, t, d) := ev.expr t s.data
    (asInt n, { s with ip := t, data := d })

end Targets

section Statements

variable {R : Type}

inductive Head where
  | rem
  | data
  | new
  | stop
  | goto
  | gosub
  | ret
  | cond
  | for
  | next
  | while
  | wend
  deriving DecidableEq

def heads : List (String × Head) :=
  [("REM", .rem), ("NEW", .new), ("END", .stop), ("STOP", .stop), ("GOTO", .goto),
    ("GOSUB", .gosub), ("RETURN", .ret), ("IF", .cond), ("FOR", .for), ("NEXT", .next),
    ("DATA", .data), ("WHILE", .while), ("WEND", .wend)]

def findHead (t : Str) : Option (Head × Str) :=
  heads.findSome? fun h => (bStreqiKw t h.1).map fun rest => (h.2, rest)

/-- What `exec_stmt` comes to; `done` is a statement that is over, `line` a THEN with the value
behind it. -/
inductive Stmt where
  | done
  | line (n : Int)
  | other
  | new
  | stop
  | goto
  | gosub
  | ret
  | for
  | next
  | while
  | wend
  deriving DecidableEq

def fail (m : String) (s : State R) : State R := { s with data := berr m s.data }

/-- The first part of `exec_stmt`: the statement at `ip`, with the conditions of IF on the way
to it; `inner` looks behind THEN. -/
def lookAt (ev : Evaluator R) (inner : State R → Stmt × State R) (s : State R) :
    Stmt × State R :=
  let t := s.ip.dropWhile fun c => c == ' ' || c == '\t' || c == ':'
  match t with
  | [] => (.done, { s with ip := [] })
  | '*' :: _ => (.done, { s with ip := [] })
  | t =>
    match findHead t with
    | none => (.other, { s with ip := t })
    | some (.rem, _) | some (.data, _) => (.done, { s with ip := [] })
    | some (.new, t) => (.new, { s with ip := t })
    | some (.stop, t) => (.stop, { s with ip := t })
    | some (.goto, t) => (.goto, { s with ip := t })
    | some (.gosub, t) => (.gosub, { s with ip := t })
    | some (.ret, t) => (.ret, { s with ip := t })
    | some (.for, t) => (.for, { s with ip := t })
    | some (.next, t) => (.next, { s with ip := t })
    | some (.while, t) => (.while, { s with ip := t })
    | some (.wend, t) => (.wend, { s with ip := t })
    | some (.cond, t) =>
      let (c, t, d) := ev.expr t s.data
      match kw "THEN" t with
      | none => (.done, fail "expected THEN" { s with ip := skipsp t, data := d })
      | some t =>
        let t := skipsp t
        if c = 0 then (.done, { s with ip := [], data := d })
        else if (t.headD ' ') |> bIsdigit then
          let (n, t, d) := ev.expr t d
          (.line n, { s with ip := t, data := d })
        else inner { s with ip := t, data := d }

/-- The number bounds the nesting of IF. -/
def findStmt (ev : Evaluator R) : Nat → State R → Stmt × State R
  | 0, s => (.done, s)
  | k + 1, s => lookAt ev (findStmt ev k) s

theorem bStreqiKw_length {t rest : Str} {k : String} (found : bStreqiKw t k = some rest) :
    rest.length = t.length - k.length := by
  simp only [bStreqiKw] at found
  split at found
  · cases found
    exact List.length_drop
  · cases found

theorem skipsp_length (t : Str) : (skipsp t).length ≤ t.length :=
  (List.dropWhile_suffix _).length_le

/-- What stands behind THEN is shorter than the statement. -/
theorem lookAt_agree (ev : Evaluator R) {f g : State R → Stmt × State R} {s : State R}
    (agree : ∀ s', s'.ip.length < s.ip.length → f s' = g s') : lookAt ev f s = lookAt ev g s := by
  have start := (List.dropWhile_suffix (l := s.ip)
    (fun c => c == ' ' || c == '\t' || c == ':')).length_le
  simp only [lookAt]
  generalize s.ip.dropWhile (fun c => c == ' ' || c == '\t' || c == ':') = t at start
  split
  · rfl
  · rfl
  · rename_i nonempty _
    cases found : findHead t with
    | none => rfl
    | some head =>
      obtain ⟨head, behind⟩ := head
      cases head with
      | cond =>
        simp only
        cases then' : kw "THEN" (ev.expr behind s.data).2.1 with
        | none => rfl
        | some rest =>
          simp only
          split
          · rfl
          · split
            · rfl
            · apply agree
              have onward := ev.expr_onward behind s.data
              have keyword := bStreqiKw_length then'
              have blanks := skipsp_length (ev.expr behind s.data).2.1
              have last := skipsp_length rest
              obtain ⟨h, member, same⟩ := List.exists_of_findSome?_eq_some found
              obtain ⟨rest', head', eq⟩ := Option.map_eq_some_iff.mp same
              have same' : rest' = behind := congrArg Prod.snd eq
              rw [same'] at head'
              have first := bStreqiKw_length head'
              show (skipsp rest).length < s.ip.length
              have some : t ≠ [] := nonempty
              have long : 0 < t.length := List.length_pos_iff.mpr some
              have word : 0 < h.1.length := by
                revert member
                have all : ∀ h ∈ heads, 0 < h.1.length := by decide
                exact all h
              omega
      | _ => rfl

theorem findStmt_enough (ev : Evaluator R) (j k : Nat) (s : State R) (enough : s.ip.length < j)
    (enough' : s.ip.length < k) : findStmt ev j s = findStmt ev k s := by
  induction j generalizing k s with
  | zero => omega
  | succ j ih =>
    cases k with
    | zero => omega
    | succ k =>
      apply lookAt_agree
      intro s' shorter
      exact ih k s' (by omega) (by omega)

def forHeader (ev : Evaluator R) (s : State R) : Option (ForLoop × Int) × State R :=
  let (var, t, d) := varidx s.ip s.data
  match skipsp t with
  | '=' :: t =>
    let (start, t, d) := ev.expr t d
    match kw "TO" t with
    | none => (none, fail "FOR TO" { s with ip := skipsp t, data := d })
    | some t =>
      let (limit, t, d) := ev.expr t d
      match kw "STEP" t with
      | none =>
        let t := skipsp t
        (some (⟨var, limit, 1, s.pc, t⟩, start), { s with ip := t, data := d })
      | some t =>
        let (step, t, d) := ev.expr t d
        (some (⟨var, limit, step, s.pc, t⟩, start), { s with ip := t, data := d })
  | t => (none, fail "FOR =" { s with ip := t, data := d })

def nextVar (s : State R) : Option Nat × State R :=
  let (var, t, d) := varidx s.ip s.data
  (var, { s with ip := if var.isSome then t else s.ip, data := d })

def again (f : ForLoop) (x : Int) : Bool :=
  if f.step ≥ 0 then x ≤ f.limit else x ≥ f.limit

def resume (pc : Nat) (ip : Str) (s : State R) : State R :=
  { s with pc := pc, ip := ip, gGoto := -2 }

/-- One more turn of the loop on top of `below`, or its end. -/
def turn (f : ForLoop) (below : List ForLoop) (s : State R) : State R :=
  let x := getVar s.data f.var + f.step
  let s := { s with data := setVar s.data x f.var }
  if again f x then resume f.idx f.stmt { s with forstk := f :: below }
  else { s with forstk := below }

def pushFor (f : ForLoop) (s : State R) : State R :=
  if s.forstk.length < forMax then { s with forstk := f :: s.forstk } else fail "FOR overflow" s

def pushGosub (s : State R) : State R :=
  if s.gosubstk.length < gosubMax then { s with gosubstk := ⟨s.pc, s.ip⟩ :: s.gosubstk }
  else fail "GOSUB overflow" s

/-- How the jumping statements read their targets, and what they do once their parts are
evaluated. -/
structure Rules (R : Type) where
  line : Int → Int
  target : Evaluator R → State R → Int × State R
  loopVar : State R → Option Nat × State R
  goto : Int → State R → State R
  enter : ForLoop → State R → State R
  next : Option Nat → State R → State R
  leave : State R → State R

/-- The second part of `exec_stmt`. -/
def perform (ev : Evaluator R) (rules : Rules R) (stmt : Stmt) (s : State R) : State R :=
  match stmt with
  | .done => s
  | .line n => rules.goto (rules.line n) s
  | .other =>
    let (t, d) := ev.other s.prog s.ip s.data
    { s with ip := t, data := d }
  | .new =>
    { s with
      prog := []
      data := { s.data with vars := [], rest := ev.reset s.data.rest }
      whilestk := [] }
  | .stop => { s with running := false }
  | .goto =>
    let (n, s) := rules.target ev s
    rules.goto n s
  | .gosub =>
    let (n, s) := rules.target ev s
    rules.goto n (pushGosub s)
  | .ret =>
    match s.gosubstk with
    | [] => fail "RETURN without GOSUB" s
    | g :: below => resume g.rpc g.rip { s with gosubstk := below }
  | .for =>
    match forHeader ev s with
    | (none, s) => s
    | (some (f, start), s) => rules.enter f { s with data := setVar s.data start f.var }
  | .next =>
    let (var, s) := rules.loopVar s
    rules.next var s
  | .while =>
    let (c, t, d) := ev.expr s.ip s.data
    let here : Spot := ⟨s.pc, s.ip⟩
    let s := { s with ip := t, data := d }
    if c = 0 then rules.leave s
    else if s.whilestk.length < whileMax then { s with whilestk := here :: s.whilestk }
    else fail "WHILE overflow" s
  | .wend =>
    match s.whilestk with
    | [] => fail "WEND without WHILE" s
    | w :: below =>
      let (c, t, d) := ev.expr w.rip s.data
      if c = 0 then { s with data := d, whilestk := below }
      else resume w.rpc t { s with data := d }

/-- `exec_stmt` at the current `ip`. -/
def execStmt (ev : Evaluator R) (rules : Rules R) (s : State R) : State R :=
  let (stmt, s) := findStmt ev (s.ip.length + 1) s
  perform ev rules stmt s

end Statements

section Code

variable {R : Type}

/-- The search of WHILE for its WEND: only the beginnings of the lines are read. -/
def searchWend : Nat → Nat → List Line → Option Nat
  | _, _, [] => none
  | i, depth, l :: later =>
    let t := skipsp l.text
    if (bStreqiKw t "WHILE").isSome then searchWend (i + 1) (depth + 1) later
    else if (bStreqiKw t "WEND").isSome then
      if depth = 1 then some i else searchWend (i + 1) (depth - 1) later
    else searchWend (i + 1) depth later

def code : Rules R where
  line := asInt
  target := gotoTarget
  loopVar := nextVar
  goto n s := { s with gGoto := n }
  enter := pushFor
  next _ s :=
    match s.forstk with
    | [] => fail "NEXT without FOR" s
    | f :: below => turn f below s
  leave s :=
    match searchWend (s.pc + 1) 1 (s.prog.drop (s.pc + 1)) with
    | some i => resume i [] s
    | none => fail "WHILE without WEND" s

end Code

section Runs

variable {R : Type}

/-- How a run ends; `undefined` leaves out the number in its message. -/
inductive End where
  | ok
  | broken
  | runaway
  | error (m : String)
  | undefined
  deriving DecidableEq

inductive Step (R : Type) where
  | next (s : State R)
  | stop (e : End)
  deriving DecidableEq

/-- The part of the loop of `do_run` behind `exec_stmt`. -/
def finish (s : State R) : Step R :=
  match s.data.err with
  | some m => .stop (.error m)
  | none =>
    if 0 ≤ s.gGoto then
      match findLine s.prog s.gGoto.toNat with
      | none => .stop .undefined
      | some i => .next { s with pc := i, ip := ((s.prog[i]?).map Line.text).getD [] }
    else if s.gGoto = -2 then .next s
    else
      match skipsp s.ip with
      | ':' :: t => .next { s with ip := t }
      | t => .next { s with pc := s.pc + 1, ip := ((s.prog[s.pc + 1]?).map Line.text).getD t }

def doStep (ev : Evaluator R) (rules : Rules R) (s : State R) : Step R :=
  finish (execStmt ev rules { s with gGoto := -1 })

/-- The loop of `do_run`: the states in which a statement is executed, and the end. The number
is what is left of `guard`; `brk` and `poll` say when Ctrl-C comes. -/
def runLoop (ev : Evaluator R) (rules : Rules R) (brk poll : Nat → Bool) :
    Nat → State R → List (State R) × End
  | k, s =>
    if !s.running then ([], .ok)
    else if brk k then ([], .broken)
    else if s.prog.length ≤ s.pc then ([], .ok)
    else
      match k with
      | 0 => ([], .runaway)
      | k + 1 =>
        if poll k then ([], .broken)
        else
          match doStep ev rules s with
          | .stop e => ([s], e)
          | .next s' =>
            let (later, e) := runLoop ev rules brk poll k s'
            (s :: later, e)

/-- The state in which `do_run` starts. -/
def start (ev : Evaluator R) (prog : List Line) (below : Int) (rest : R) : State R :=
  { prog := prog
    data := ⟨[], below, ev.reset rest, none⟩
    running := true
    pc := 0
    ip := ((prog[0]?).map Line.text).getD []
    gGoto := -1
    forstk := []
    gosubstk := []
    whilestk := [] }

def doRun (ev : Evaluator R) (rules : Rules R) (brk poll : Nat → Bool) (prog : List Line)
    (below : Int) (rest : R) : List (State R) × End :=
  runLoop ev rules brk poll 8000000 (start ev prog below rest)

end Runs

end XinuRpi5.Video.Basic
