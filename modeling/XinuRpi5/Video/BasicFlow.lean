/- source: device/video/basic.c
   digest: The jumps of BASIC as the language has them, and when the interpreter makes them. -/

import Mathlib.Data.List.TakeWhile
import Mathlib.Order.Nat
import XinuRpi5.Video.Basic

/-!
The language has its own rules for the jumping statements: a target is the whole value or the
whole name of a label, NEXT with a variable looks for the loop on it, FOR takes the place of
the loop on its variable, a jump to nothing is an error and the WEND of a WHILE is looked for
word by word. A run of the interpreter is a run of the
language as long as each of its states meets a condition.
-/

namespace XinuRpi5.Video.BasicFlow

open Basic

section Language

/-- What the words of a text leave of the open WHILEs, or the text behind the WEND that closes
the last one. Strings, remarks and data are no words. The first number bounds the length. -/
def wordsWend : Nat → Nat → Str → Nat ⊕ Str
  | 0, depth, _ => .inl depth
  | _, depth, [] => .inl depth
  | k + 1, depth, c :: t =>
    if c = '"' then wordsWend k depth (t.dropWhile (· ≠ '"')).tail
    else if bIsalpha c then
      let word := ((c :: t).takeWhile isAlnum).map bUp
      let rest := (c :: t).dropWhile isAlnum
      if word = "REM".toList ∨ word = "DATA".toList then .inl depth
      else if word = "WHILE".toList then wordsWend k (depth + 1) rest
      else if word = "WEND".toList then
        if depth = 1 then .inr rest else wordsWend k (depth - 1) rest
      else wordsWend k depth rest
    else wordsWend k depth t

def textWend (depth : Nat) (t : Str) : Nat ⊕ Str := wordsWend t.length depth t

def lineWend (depth : Nat) (t : Str) : Nat ⊕ Str :=
  if (skipsp t).head? = some '*' then .inl depth else textWend depth t

def laterWend : Nat → Nat → List Line → Option (Nat × Str)
  | _, _, [] => none
  | i, depth, l :: later =>
    match lineWend depth l.text with
    | .inr t => some (i, t)
    | .inl depth => laterWend (i + 1) depth later

/-- The place behind the WEND of the WHILE whose condition ends at this place. -/
def matchingWend (prog : List Line) (pc : Nat) (t : Str) : Option (Nat × Str) :=
  match textWend 1 t with
  | .inr t => some (pc, t)
  | .inl depth => laterWend (pc + 1) depth (prog.drop (pc + 1))

/-- The active loops without the loop on the variable and the loops inside it. -/
def without (var : Option Nat) (loops : List ForLoop) : List ForLoop :=
  match loops.dropWhile (·.var ≠ var) with
  | [] => loops
  | _ :: below => below

variable {R : Type}

def nameAt (t : Str) : Str := t.takeWhile isAlnum

def labelOf (l : Line) : Option Str :=
  match skipsp l.text with
  | '*' :: t => some ((nameAt t).map bUp)
  | _ => none

def labelled (prog : List Line) (name : Str) : Int :=
  match prog.find? fun l => labelOf l == some name with
  | some l => l.no
  | none => -1

/-- The target of GOTO as it is written. -/
def wholeTarget (ev : Evaluator R) (s : State R) : Int × State R :=
  match skipsp s.ip with
  | '*' :: t => (labelled s.prog ((nameAt t).map bUp), { s with ip := t.dropWhile isAlnum })
  | t =>
    let (n, t, d) := ev.expr t s.data
    (n, { s with ip := t, data := d })

/-- Whether a variable stands here that no FOR has: a long name or the name of a text. -/
def noLoopVar (t : Str) : Bool :=
  bIsalpha ((skipsp t).headD ' ') &&
    (10 < (nameAt (skipsp t)).length || ((skipsp t).dropWhile isAlnum).head? == some '$')

/-- The variable of NEXT by its whole name, `nvarMax` for one without a slot. -/
def wholeVar (s : State R) : Option Nat × State R :=
  if noLoopVar s.ip then (some nvarMax, (nextVar s).2) else nextVar s

def lang : Rules R where
  line := id
  target := wholeTarget
  loopVar := wholeVar
  goto n s := if n < 0 then fail "undef'd line" s else { s with gGoto := n }
  enter f s := pushFor f { s with forstk := without f.var s.forstk }
  next var s :=
    match (if var.isNone then s.forstk else s.forstk.dropWhile (·.var ≠ var)) with
    | [] => fail "NEXT without FOR" s
    | f :: below => turn f below s
  leave s :=
    match matchingWend s.prog s.pc s.ip with
    | some (i, t) => resume i (skipsp t) s
    | none => fail "WHILE without WEND" s

end Language

section Condition

variable {R : Type}

def OnTop (var : Option Nat) (loops : List ForLoop) : Prop :=
  var = none ∨ ∀ f ∈ loops.head?, f.var = var

def Unused (var : Option Nat) (loops : List ForLoop) : Prop :=
  ∀ f ∈ loops, f.var ≠ var

/-- The search over the beginnings of the later lines finds the line of the matching WEND, and
nothing stands behind that WEND. -/
def SameWend (s : State R) : Prop :=
  searchWend (s.pc + 1) 1 (s.prog.drop (s.pc + 1)) =
      (matchingWend s.prog s.pc s.ip).map Prod.fst ∧
    ∀ spot ∈ matchingWend s.prog s.pc s.ip, skipsp spot.2 = []

/-- Both numbers are of the same line, or of none. -/
def SameLine (prog : List Line) (n n' : Int) : Prop :=
  0 ≤ n ∧ 0 ≤ n' ∧ findLine prog n.toNat = findLine prog n'.toNat

/-- The condition on the state before a statement; with an error the run ends in any case. -/
def Meets (ev : Evaluator R) (s : State R) : Prop :=
  let (stmt, s) := findStmt ev (s.ip.length + 1) { s with gGoto := -1 }
  match stmt with
  | .line n => s.data.err ≠ none ∨ SameLine s.prog (asInt n) n
  | .goto =>
    let (n, t) := gotoTarget ev s
    t.data.err ≠ none ∨ SameLine s.prog n (wholeTarget ev s).1
  | .gosub =>
    let (n, t) := gotoTarget ev s
    let (n', t') := wholeTarget ev s
    (pushGosub t).data.err ≠ none ∨
      SameLine s.prog n n' ∧ (findLine s.prog n.toNat = none ∨ t.ip = t'.ip)
  | .for =>
    match forHeader ev s with
    | (none, _) => True
    | (some (f, _), s) => s.data.err ≠ none ∨ Unused f.var s.forstk
  | .next =>
    let (var, t) := wholeVar s
    t.data.err ≠ none ∨ OnTop var t.forstk
  | .while =>
    let (c, t, d) := ev.expr s.ip s.data
    c ≠ 0 ∨ d.err ≠ none ∨ SameWend { s with ip := t, data := d }
  | _ => True

end Condition

section Finish

variable {R : Type}

variable {s : State R} {m : String}

theorem finish_failed (err : s.data.err = some m) :
    finish s = .stop (.error m) := by
  simp only [finish, err]

theorem finish_next (fine : s.data.err = none) (back : s.gGoto < 0) :
    ∃ s', finish s = .next s' ∧ s'.forstk = s.forstk ∧ s'.gGoto = s.gGoto := by
  simp only [finish, fine, if_neg (Int.not_le.mpr back)]
  split
  · exact ⟨s, rfl, rfl, rfl⟩
  · split
    · exact ⟨_, rfl, rfl, rfl⟩
    · exact ⟨_, rfl, rfl, rfl⟩

theorem finish_resume (fine : s.data.err = none) (pc : Nat) (t : Str) :
    finish (resume pc t s) = .next (resume pc t s) := by
  have fine' : (resume pc t s).data.err = none := fine
  simp [finish, fine', show (resume pc t s).gGoto = -2 from rfl]

theorem finish_goto (fine : s.data.err = none) (target : 0 ≤ s.gGoto) :
    finish s = match findLine s.prog s.gGoto.toNat with
      | none => .stop .undefined
      | some i => .next { s with pc := i, ip := ((s.prog[i]?).map Line.text).getD [] } := by
  rw [finish, fine]
  exact if_pos target

theorem finish_loops {s' : State R} (goes : finish s = .next s') : s'.forstk = s.forstk := by
  cases err : s.data.err with
  | some m =>
    rw [finish_failed err] at goes
    cases goes
  | none =>
    by_cases target : 0 ≤ s.gGoto
    · rw [finish_goto err target] at goes
      split at goes
      · cases goes
      · cases goes
        rfl
    · obtain ⟨t, next, loops, -⟩ := finish_next err (Int.not_le.mp target)
      rw [next] at goes
      cases goes
      exact loops

theorem fail_err {m' : String} (err : s.data.err = some m') :
    (fail m s).data.err = some m' := by
  simp [fail, berr, err]

theorem fail_fine (fine : s.data.err = none) :
    finish (fail m s) = .stop (.error m) :=
  finish_failed (by simp [fail, berr, fine])

theorem finish_fail {m' : String} (err : s.data.err = some m') :
    finish (fail m s) = .stop (.error m') :=
  finish_failed (fail_err err)

end Finish

section Exact

variable {R : Type} {s : State R}

theorem lang_goto_fails {n : Int} (fine : s.data.err = none) (back : n < 0) :
    finish (lang.goto n s) = .stop (.error "undef'd line") := by
  rw [show lang.goto n s = fail "undef'd line" s from if_pos back]
  exact fail_fine fine

theorem lang_goto_goes {n : Int} (fine : s.data.err = none) (target : 0 ≤ n) :
    finish (lang.goto n s) = match findLine s.prog n.toNat with
      | none => .stop .undefined
      | some i =>
        .next { s with gGoto := n, pc := i, ip := ((s.prog[i]?).map Line.text).getD [] } := by
  rw [show lang.goto n s = { s with gGoto := n } from if_neg (Int.not_lt.mpr target)]
  exact finish_goto (s := { s with gGoto := n }) fine target

theorem findLine_number {prog : List Line} {no i : Nat} (found : findLine prog no = some i) :
    (prog[i]?).map Line.no = some no := by
  obtain ⟨inside, same, -⟩ := List.findIdx?_eq_some_iff_getElem.mp found
  rw [List.getElem?_eq_getElem inside]
  exact congrArg some (eq_of_beq same)

theorem goto_exact (n n' : Int) (s : State R) (ip : Str) (calls : List Spot) :
    finish (code.goto n s) = finish (lang.goto n' { s with ip := ip, gosubstk := calls }) ↔
      s.data.err ≠ none ∨
        SameLine s.prog n n' ∧ (findLine s.prog n.toNat = none ∨ s.gosubstk = calls) := by
  cases err : s.data.err with
  | some m =>
    have right : finish (lang.goto n' { s with ip := ip, gosubstk := calls }) =
        .stop (.error m) := by
      simp only [lang]
      split
      · exact finish_fail err
      · exact finish_failed err
    rw [right, finish_failed (s := code.goto n s) err]
    simp
  | none =>
    simp only [ne_eq, not_true, false_or]
    by_cases back : n < 0
    · -- the interpreter goes on behind the jump
      obtain ⟨s', next, -, goto⟩ := finish_next (s := code.goto n s) err back
      have here : s'.gGoto = n := goto
      rw [next]
      refine iff_of_false ?_ (fun same => by have := same.1.1; omega)
      intro same
      by_cases back' : n' < 0
      · rw [lang_goto_fails (s := { s with ip := ip, gosubstk := calls }) err back'] at same
        cases same
      · rw [lang_goto_goes (s := { s with ip := ip, gosubstk := calls }) err
          (Int.not_lt.mp back')] at same
        split at same
        · cases same
        · have there : s'.gGoto = n' := congrArg State.gGoto (Step.next.inj same)
          omega
    · rw [finish_goto (s := code.goto n s) err (Int.not_lt.mp back)]
      by_cases back' : n' < 0
      · rw [lang_goto_fails (s := { s with ip := ip, gosubstk := calls }) err back']
        refine iff_of_false ?_ (fun same => by have := same.1.2.1; omega)
        split
        · intro same
          cases same
        · intro same
          cases same
      · rw [lang_goto_goes (s := { s with ip := ip, gosubstk := calls }) err (Int.not_lt.mp back')]
        show (match findLine s.prog n.toNat with
          | none => _
          | some i => _) = (match findLine s.prog n'.toNat with
          | none => _
          | some i => _) ↔ _
        simp only [SameLine, Int.not_lt.mp back, Int.not_lt.mp back', true_and]
        cases found : findLine s.prog n.toNat with
        | none => cases findLine s.prog n'.toNat <;> simp
        | some i =>
          cases found' : findLine s.prog n'.toNat with
          | none => simp
          | some j =>
            simp only [Option.some.injEq, reduceCtorEq, false_or]
            constructor
            · intro same
              exact ⟨congrArg State.pc (Step.next.inj same),
                congrArg State.gosubstk (Step.next.inj same)⟩
            · rintro ⟨rfl, rfl⟩
              have number := findLine_number found
              rw [findLine_number found', Option.some.injEq] at number
              obtain rfl : n = n' := by omega
              rfl

theorem gosub_exact (n n' : Int) (s : State R) (ip : Str) :
    finish (code.goto n (pushGosub s)) = finish (lang.goto n' (pushGosub { s with ip := ip })) ↔
      (pushGosub s).data.err ≠ none ∨
        SameLine s.prog n n' ∧ (findLine s.prog n.toNat = none ∨ s.ip = ip) := by
  by_cases roomy : s.gosubstk.length < gosubMax
  · have here : pushGosub s = { s with gosubstk := ⟨s.pc, s.ip⟩ :: s.gosubstk } := if_pos roomy
    have there : pushGosub { s with ip := ip } =
        { s with ip := ip, gosubstk := ⟨s.pc, ip⟩ :: s.gosubstk } := if_pos roomy
    rw [here, there]
    refine (goto_exact n n' { s with gosubstk := ⟨s.pc, s.ip⟩ :: s.gosubstk } ip
      (⟨s.pc, ip⟩ :: s.gosubstk)).trans ?_
    simp
  · have here : pushGosub s = fail "GOSUB overflow" s := if_neg roomy
    have there : pushGosub { s with ip := ip } =
        { fail "GOSUB overflow" s with ip := ip, gosubstk := s.gosubstk } := if_neg roomy
    have failed : (fail "GOSUB overflow" s).data.err ≠ none := by
      unfold fail berr
      split
      · exact Option.isSome_iff_ne_none.mp ‹_›
      · simp
    rw [here, there, goto_exact]
    exact iff_of_true (.inl failed) (.inl failed)

theorem without_unused {var : Option Nat} {loops : List ForLoop} (unused : Unused var loops) :
    without var loops = loops := by
  have gone : loops.dropWhile (·.var ≠ var) = [] := by
    rw [List.dropWhile_eq_nil_iff]
    intro f there
    simpa using unused f there
  simp only [without, gone]

theorem without_length {var : Option Nat} {loops : List ForLoop} (used : ¬ Unused var loops) :
    (without var loops).length < loops.length := by
  simp only [Unused, not_forall, not_not] at used
  obtain ⟨g, there, same⟩ := used
  cases left : loops.dropWhile (·.var ≠ var) with
  | nil =>
    rw [List.dropWhile_eq_nil_iff] at left
    simpa [same] using left g there
  | cons f below =>
    have short := (List.dropWhile_suffix (fun f : ForLoop => decide (f.var ≠ var))
      (l := loops)).length_le
    simp only [without, left]
    rw [left] at short
    exact short

theorem enter_exact (f : ForLoop) (s : State R) (start : s.gGoto = -1)
    (roomy : s.forstk.length ≤ forMax) :
    finish (code.enter f s) = finish (lang.enter f s) ↔
      s.data.err ≠ none ∨ Unused f.var s.forstk := by
  by_cases unused : Unused f.var s.forstk
  · have here : lang.enter f s = code.enter f s := by
      show pushFor f { s with forstk := without f.var s.forstk } = pushFor f s
      rw [without_unused unused]
    rw [here]
    exact iff_of_true rfl (.inr unused)
  · have shorter := without_length unused
    have pushed : lang.enter f s = { s with forstk := f :: without f.var s.forstk } :=
      if_pos (by show (without f.var s.forstk).length < forMax; omega)
    cases err : s.data.err with
    | some m =>
      have left : finish (code.enter f s) = .stop (.error m) := by
        show finish (pushFor f s) = _
        unfold pushFor
        split
        · exact finish_failed err
        · exact finish_fail err
      rw [left, pushed, finish_failed (s := { s with forstk := f :: without f.var s.forstk }) err]
      simp
    | none =>
      apply iff_of_false
      · obtain ⟨t, next, loops, -⟩ :=
          finish_next (s := { s with forstk := f :: without f.var s.forstk }) err
            (by show s.gGoto < 0; omega)
        rw [pushed, next]
        show finish (pushFor f s) ≠ _
        unfold pushFor
        split
        · obtain ⟨t', next', loops', -⟩ :=
            finish_next (s := { s with forstk := f :: s.forstk }) err
              (by show s.gGoto < 0; omega)
          rw [next']
          rintro same
          cases same
          have length := congrArg List.length (loops.symm.trans loops')
          simp only [List.length_cons] at length
          omega
        · rw [fail_fine err]
          intro same
          cases same
      · rintro (none | unused')
        · exact absurd rfl none
        · exact unused unused'

theorem turn_err (f : ForLoop) (below : List ForLoop) (s : State R) :
    (turn f below s).data.err = s.data.err := by
  have kept : (setVar s.data (getVar s.data f.var + f.step) f.var).err = s.data.err := by
    cases f.var <;> rfl
  simp only [turn]
  split
  · exact kept
  · exact kept

theorem turn_loops (f : ForLoop) (below : List ForLoop) (s : State R) :
    ((turn f below s).gGoto = -2 ∧ (turn f below s).forstk = f :: below) ∨
      ((turn f below s).gGoto = s.gGoto ∧ (turn f below s).forstk = below) := by
  simp only [turn]
  split
  · exact .inl ⟨rfl, rfl⟩
  · exact .inr ⟨rfl, rfl⟩

theorem turn_next (f : ForLoop) (below : List ForLoop) {s : State R} (fine : s.data.err = none)
    (start : s.gGoto = -1) : ∃ s', finish (turn f below s) = .next s' ∧
      ((s'.gGoto = -2 ∧ s'.forstk = f :: below) ∨ (s'.gGoto = -1 ∧ s'.forstk = below)) := by
  have back : (turn f below s).gGoto < 0 := by
    rcases turn_loops f below s with ⟨goto, -⟩ | ⟨goto, -⟩ <;> omega
  obtain ⟨s', next, loops, goto⟩ := finish_next ((turn_err f below s).trans fine) back
  refine ⟨s', next, ?_⟩
  rw [loops, goto]
  rcases turn_loops f below s with here | ⟨goto, loops⟩
  · exact .inl here
  · exact .inr ⟨goto.trans start, loops⟩

theorem next_exact (var : Option Nat) (s : State R) (start : s.gGoto = -1) :
    finish (code.next var s) = finish (lang.next var s) ↔
      s.data.err ≠ none ∨ OnTop var s.forstk := by
  by_cases top : OnTop var s.forstk
  · refine iff_of_true ?_ (.inr top)
    have here : (if var.isNone then s.forstk else s.forstk.dropWhile (·.var ≠ var)) =
        s.forstk := by
      rcases top with none | same
      · rw [none]
        rfl
      · cases loops : s.forstk with
        | nil => simp
        | cons f below =>
          have first : f.var = var := same f (by rw [loops]; rfl)
          simp [first]
    show finish (match s.forstk with
      | [] => fail "NEXT without FOR" s
      | f :: below => turn f below s) = finish (match (if var.isNone then s.forstk
        else s.forstk.dropWhile (·.var ≠ var)) with
      | [] => fail "NEXT without FOR" s
      | f :: below => turn f below s)
    rw [here]
  · simp only [OnTop, not_or, not_forall] at top
    obtain ⟨some, f, there, other⟩ := top
    obtain ⟨below, loops⟩ : ∃ below, s.forstk = f :: below := List.head?_eq_some_iff.mp there
    have left : code.next var s = turn f below s := by
      simp only [code, loops]
    have isSome : var.isNone = false := by
      cases var with
      | none => exact absurd rfl some
      | some v => rfl
    have right : lang.next var s = match below.dropWhile (·.var ≠ var) with
        | [] => fail "NEXT without FOR" s
        | g :: rest => turn g rest s := by
      simp only [lang, isSome, loops, List.dropWhile_cons]
      simp [other]
    rw [left, right]
    cases err : s.data.err with
    | some m =>
      rw [finish_failed ((turn_err f below s).trans err)]
      split
      · rw [finish_fail err]
        simp
      · rw [finish_failed ((turn_err _ _ s).trans err)]
        simp
    | none =>
      apply iff_of_false
      · obtain ⟨t, next, inside⟩ := turn_next f below err start
        rw [next]
        cases found : below.dropWhile (·.var ≠ var) with
        | nil =>
          rw [fail_fine err]
          intro same
          cases same
        | cons g rest =>
          have short := (List.dropWhile_suffix (fun f : ForLoop => decide (f.var ≠ var))
            (l := below)).length_le
          rw [found, List.length_cons] at short
          obtain ⟨t', next', outside⟩ := turn_next g rest err start
          rw [next']
          rintro same
          cases same
          rcases inside with ⟨goto, loops⟩ | ⟨goto, loops⟩
          · rcases outside with ⟨-, loops'⟩ | ⟨goto', -⟩
            · have length := congrArg List.length (loops.symm.trans loops')
              simp only [List.length_cons] at length
              omega
            · omega
          · rcases outside with ⟨goto', -⟩ | ⟨-, loops'⟩
            · omega
            · have length := congrArg List.length (loops.symm.trans loops')
              omega
      · rintro (none | here)
        · exact absurd rfl none
        · rcases here with none | same
          · exact some none
          · exact other (same f there)

theorem leave_exact (s : State R) :
    finish (code.leave s) = finish (lang.leave s) ↔ s.data.err ≠ none ∨ SameWend s := by
  cases err : s.data.err with
  | some m =>
    have left : finish (code.leave s) = .stop (.error m) := by
      simp only [code]
      split
      · exact finish_failed err
      · exact finish_fail err
    have right : finish (lang.leave s) = .stop (.error m) := by
      simp only [lang]
      split
      · exact finish_failed err
      · exact finish_fail err
    rw [left, right]
    simp
  | none =>
    simp only [code, lang, SameWend, ne_eq, not_true, false_or]
    cases here : searchWend (s.pc + 1) 1 (s.prog.drop (s.pc + 1)) with
    | none =>
      cases there : matchingWend s.prog s.pc s.ip with
      | none => simp
      | some spot =>
        obtain ⟨i, t⟩ := spot
        simp only
        rw [fail_fine err, finish_resume err]
        simp
    | some j =>
      cases there : matchingWend s.prog s.pc s.ip with
      | none =>
        simp only
        rw [fail_fine err, finish_resume err]
        simp
      | some spot =>
        obtain ⟨i, t⟩ := spot
        simp only
        rw [finish_resume err, finish_resume err]
        constructor
        · intro same
          have pc : j = i := congrArg State.pc (Step.next.inj same)
          have ip : [] = skipsp t := congrArg State.ip (Step.next.inj same)
          refine ⟨congrArg some pc, ?_⟩
          rintro spot ⟨⟩
          exact ip.symm
        · rintro ⟨line, blank⟩
          have pc : j = i := Option.some.inj line
          have ip : skipsp t = [] := blank (i, t) rfl
          rw [pc, ip]

end Exact

section Steps

variable {R : Type}

/-- Looking for the statement changes no loop and sets no target. -/
theorem findStmt_frame (ev : Evaluator R) (k : Nat) (s : State R) :
    (findStmt ev k s).2.forstk = s.forstk ∧ (findStmt ev k s).2.gGoto = s.gGoto := by
  induction k generalizing s with
  | zero => exact ⟨rfl, rfl⟩
  | succ k ih =>
    simp only [findStmt, lookAt]
    split
    · exact ⟨rfl, rfl⟩
    · exact ⟨rfl, rfl⟩
    · split
      -- every statement but IF stands at its own place
      any_goals exact ⟨rfl, rfl⟩
      split
      · exact ⟨rfl, rfl⟩
      · split
        · exact ⟨rfl, rfl⟩
        · split
          · exact ⟨rfl, rfl⟩
          · exact ih _

theorem gotoTarget_frame (ev : Evaluator R) (s : State R) :
    (gotoTarget ev s).2.prog = s.prog ∧ (gotoTarget ev s).2.forstk = s.forstk := by
  simp only [gotoTarget]
  split
  · exact ⟨rfl, rfl⟩
  · exact ⟨rfl, rfl⟩

/-- Read either way, a target differs only in its number and in where it ends. -/
theorem wholeTarget_state (ev : Evaluator R) (s : State R) :
    (wholeTarget ev s).2 = { (gotoTarget ev s).2 with ip := (wholeTarget ev s).2.ip } := by
  unfold wholeTarget gotoTarget
  grind

theorem wholeVar_state (s : State R) : (wholeVar s).2 = (nextVar s).2 := by
  simp only [wholeVar]
  split
  · rfl
  · rfl

theorem forHeader_frame (ev : Evaluator R) (s : State R) :
    (forHeader ev s).2.forstk = s.forstk ∧ (forHeader ev s).2.gGoto = s.gGoto := by
  simp only [forHeader]
  split
  · split
    · exact ⟨rfl, rfl⟩
    · split
      · exact ⟨rfl, rfl⟩
      · exact ⟨rfl, rfl⟩
  · exact ⟨rfl, rfl⟩

theorem setVar_err (d : Data R) (x : Int) (var : Option Nat) : (setVar d x var).err = d.err := by
  cases var <;> rfl

/-- One step of the interpreter is a step of the language exactly if its state meets the
condition. -/
theorem doStep_exact (ev : Evaluator R) (s : State R) (roomy : s.forstk.length ≤ forMax) :
    doStep ev code s = doStep ev lang s ↔ Meets ev s := by
  obtain ⟨loops, goto⟩ := findStmt_frame ev (s.ip.length + 1) { s with gGoto := -1 }
  simp only [doStep, execStmt, Meets]
  generalize findStmt ev (s.ip.length + 1) { s with gGoto := -1 } = found at loops goto
  obtain ⟨stmt, t⟩ := found
  cases stmt with
  | done | other | new | stop | ret | wend => exact iff_of_true rfl trivial
  | line n =>
    refine (goto_exact (asInt n) n t t.ip t.gosubstk).trans ?_
    simp
  | goto =>
    have exact' := goto_exact (gotoTarget ev t).1 (wholeTarget ev t).1 (gotoTarget ev t).2
      (wholeTarget ev t).2.ip (gotoTarget ev t).2.gosubstk
    rw [← wholeTarget_state, (gotoTarget_frame ev t).1] at exact'
    refine Iff.trans exact' ?_
    simp
  | gosub =>
    have exact' := gosub_exact (gotoTarget ev t).1 (wholeTarget ev t).1 (gotoTarget ev t).2
      (wholeTarget ev t).2.ip
    rw [← wholeTarget_state, (gotoTarget_frame ev t).1] at exact'
    exact exact'
  | «for» =>
    have frame := forHeader_frame ev t
    simp only [perform]
    generalize forHeader ev t = header at frame
    obtain ⟨parts, u⟩ := header
    cases parts with
    | none => exact iff_of_true rfl trivial
    | some parts =>
      obtain ⟨f, first⟩ := parts
      have exact' := enter_exact f { u with data := setVar u.data first f.var }
        (frame.2.trans goto)
        (by show u.forstk.length ≤ forMax; rw [frame.1, loops]; exact roomy)
      rw [setVar_err] at exact'
      exact exact'
  | next =>
    simp only [perform, code, lang]
    rw [wholeVar_state]
    exact next_exact (wholeVar t).1 (nextVar t).2 goto
  | «while» =>
    simp only [perform]
    by_cases zero : (ev.expr t.ip t.data).1 = 0
    · rw [if_pos zero, if_pos zero]
      have exact' := leave_exact (R := R)
        { t with ip := (ev.expr t.ip t.data).2.1, data := (ev.expr t.ip t.data).2.2 }
      rw [exact']
      simp [zero]
    · rw [if_neg zero, if_neg zero]
      exact iff_of_true rfl (.inl zero)

theorem pushGosub_loops (s : State R) : (pushGosub s).forstk = s.forstk := by
  unfold pushGosub
  split
  · rfl
  · rfl

/-- What FOR and NEXT keep of the active loops, every statement keeps. -/
theorem perform_keeps (P : List ForLoop → Prop) {rules : Rules R} (ev : Evaluator R)
    (target : ∀ s, (rules.target ev s).2.forstk = s.forstk)
    (loopVar : ∀ s, (rules.loopVar s).2.forstk = s.forstk)
    (goto : ∀ n s, (rules.goto n s).forstk = s.forstk)
    (enter : ∀ f s, P s.forstk → P (rules.enter f s).forstk)
    (next : ∀ var s, P s.forstk → P (rules.next var s).forstk)
    (leave : ∀ s, (rules.leave s).forstk = s.forstk)
    (stmt : Stmt) (s : State R) (kept : P s.forstk) :
    P (perform ev rules stmt s).forstk := by
  cases stmt with
  | done | other | new | stop => exact kept
  | line n =>
    show P (rules.goto (rules.line n) s).forstk
    rw [goto]
    exact kept
  | goto =>
    show P (rules.goto (rules.target ev s).1 (rules.target ev s).2).forstk
    rw [goto, target]
    exact kept
  | gosub =>
    show P (rules.goto (rules.target ev s).1 (pushGosub (rules.target ev s).2)).forstk
    rw [goto, pushGosub_loops, target]
    exact kept
  | ret =>
    simp only [perform]
    split
    · exact kept
    · exact kept
  | «for» =>
    have frame := forHeader_frame ev s
    simp only [perform]
    generalize forHeader ev s = header at frame
    obtain ⟨parts, u⟩ := header
    have kept' : P u.forstk := by
      rw [frame.1]
      exact kept
    cases parts with
    | none => exact kept'
    | some parts => exact enter parts.1 { u with data := setVar u.data parts.2 parts.1.var } kept'
  | next => exact next (rules.loopVar s).1 (rules.loopVar s).2 (by rw [loopVar]; exact kept)
  | «while» =>
    simp only [perform]
    split
    · rw [leave]
      exact kept
    · split
      · exact kept
      · exact kept
  | wend =>
    simp only [perform]
    split
    · exact kept
    · split
      · exact kept
      · exact kept

theorem doStep_keeps (P : List ForLoop → Prop) {rules : Rules R} {ev : Evaluator R}
    (keeps : ∀ stmt s, P s.forstk → P (perform ev rules stmt s).forstk) {s s' : State R}
    (kept : P s.forstk) (goes : doStep ev rules s = .next s') : P s'.forstk := by
  have frame := findStmt_frame ev (s.ip.length + 1) { s with gGoto := -1 }
  rw [finish_loops goes]
  have after := keeps (findStmt ev (s.ip.length + 1) { s with gGoto := -1 }).1
    (findStmt ev (s.ip.length + 1) { s with gGoto := -1 }).2 (by rw [frame.1]; exact kept)
  exact after

theorem turn_keeps {P : List ForLoop → Prop} {f : ForLoop} {below : List ForLoop} {s : State R}
    (turned : P (f :: below)) (dropped : P below) : P (turn f below s).forstk := by
  rcases turn_loops f below s with ⟨-, loops⟩ | ⟨-, loops⟩
  · rw [loops]
    exact turned
  · rw [loops]
    exact dropped

theorem perform_roomy (ev : Evaluator R) (stmt : Stmt) (s : State R)
    (roomy : s.forstk.length ≤ forMax) : (perform ev code stmt s).forstk.length ≤ forMax := by
  refine perform_keeps (fun loops => loops.length ≤ forMax) ev
    (fun s => (gotoTarget_frame ev s).2) (fun _ => rfl) ?_ ?_ ?_ ?_ stmt s roomy
  · intro n s
    rfl
  · intro f s short
    simp only [code, pushFor]
    split
    · assumption
    · exact short
  · intro var s short
    simp only [code]
    split
    · exact short
    · rename_i f below loops
      rw [loops, List.length_cons] at short
      exact turn_keeps (P := fun loops => loops.length ≤ forMax) short (by omega)
  · intro s
    simp only [code]
    split
    · rfl
    · rfl

end Steps

section Runs

variable {R : Type} (ev : Evaluator R) (brk poll : Nat → Bool)

theorem runLoop_cases (k : Nat) (s : State R) :
    (∃ e, ∀ rules, runLoop ev rules brk poll k s = ([], e)) ∨
      ∃ j, k = j + 1 ∧ ∀ rules, runLoop ev rules brk poll k s =
        match doStep ev rules s with
        | .stop e => ([s], e)
        | .next s' =>
          (s :: (runLoop ev rules brk poll j s').1, (runLoop ev rules brk poll j s').2) := by
  by_cases running : s.running
  · by_cases broken : brk k
    · exact .inl ⟨.broken, fun _ => by unfold runLoop; simp [running, broken]⟩
    · by_cases atEnd : s.prog.length ≤ s.pc
      · exact .inl ⟨.ok, fun _ => by unfold runLoop; simp [running, broken, atEnd]⟩
      · cases k with
        | zero => exact .inl ⟨.runaway, fun _ => by unfold runLoop; simp [running, broken, atEnd]⟩
        | succ j =>
          by_cases polled : poll j
          · exact .inl ⟨.broken, fun _ => by
              unfold runLoop
              simp [running, broken, atEnd, polled]⟩
          · refine .inr ⟨j, rfl, fun rules => ?_⟩
            rw [runLoop]
            cases stepped : doStep ev rules s with
            | stop e => simp [running, broken, atEnd, polled]
            | next s' => simp [running, broken, atEnd, polled]
  · exact .inl ⟨.ok, fun _ => by unfold runLoop; simp [running]⟩

theorem run_keeps (P : List ForLoop → Prop) {rules : Rules R}
    (keeps : ∀ stmt s, P s.forstk → P (perform ev rules stmt s).forstk) (k : Nat) (s : State R)
    (first : P s.forstk) : ∀ t ∈ (runLoop ev rules brk poll k s).1, P t.forstk := by
  induction k generalizing s with
  | zero =>
    rcases runLoop_cases ev brk poll 0 s with ⟨e, atEnd⟩ | ⟨j, eq, -⟩
    · rw [atEnd]
      rintro t ⟨⟩
    · cases eq
  | succ k ih =>
    rcases runLoop_cases ev brk poll (k + 1) s with ⟨e, atEnd⟩ | ⟨j, eq, step⟩
    · rw [atEnd]
      rintro t ⟨⟩
    · obtain rfl : k = j := Nat.succ.inj eq
      rw [step]
      intro t there
      cases goes : doStep ev rules s with
      | stop e =>
        rw [goes] at there
        obtain rfl : t = s := List.mem_singleton.mp there
        exact first
      | next s' =>
        rw [goes] at there
        rcases List.mem_cons.mp there with rfl | later
        · exact first
        · exact ih s' (doStep_keeps P keeps first goes) t later

theorem run_same (k : Nat) (s : State R)
    (same : ∀ t ∈ (runLoop ev code brk poll k s).1, doStep ev code t = doStep ev lang t) :
    runLoop ev lang brk poll k s = runLoop ev code brk poll k s := by
  induction k generalizing s with
  | zero =>
    rcases runLoop_cases ev brk poll 0 s with ⟨e, atEnd⟩ | ⟨j, eq, -⟩
    · rw [atEnd, atEnd]
    · cases eq
  | succ k ih =>
    rcases runLoop_cases ev brk poll (k + 1) s with ⟨e, atEnd⟩ | ⟨j, eq, step⟩
    · rw [atEnd, atEnd]
    · obtain rfl : k = j := Nat.succ.inj eq
      rw [step] at same
      rw [step, step]
      cases goes : doStep ev code s with
      | stop e =>
        rw [goes] at same
        rw [← same s (List.mem_singleton_self s), goes]
      | next s' =>
        rw [goes] at same
        rw [← same s List.mem_cons_self, goes]
        simp only
        rw [ih s' fun t there => same t (List.mem_cons_of_mem s there)]

def Keeps (prog : List Line) (below : Int) (rest : R) : Prop :=
  ∀ s ∈ (doRun ev code brk poll prog below rest).1, doStep ev code s = doStep ev lang s

/-- A run of a program keeps to the language exactly if each of its states meets the
condition, and then the language's run is the same, with the same end. -/
theorem control_flow_iff (prog : List Line) (below : Int) (rest : R) :
    (Keeps ev brk poll prog below rest ↔
      ∀ s ∈ (doRun ev code brk poll prog below rest).1, Meets ev s) ∧
    (Keeps ev brk poll prog below rest →
      doRun ev lang brk poll prog below rest = doRun ev code brk poll prog below rest) := by
  refine ⟨?_, run_same ev brk poll 8000000 _⟩
  have roomy := run_keeps ev brk poll (fun loops => loops.length ≤ forMax) (perform_roomy ev)
    8000000 (start ev prog below rest) (Nat.zero_le _)
  constructor
  · intro keeps s there
    exact (doStep_exact ev s (roomy s there)).mp (keeps s there)
  · intro meets s there
    exact (doStep_exact ev s (roomy s there)).mpr (meets s there)

end Runs

def numbers : Evaluator Unit where
  expr t d :=
    let digits := (skipsp t).takeWhile bIsdigit
    (digits.foldl (fun v c => v * 10 + (c.toNat - 48)) 0, (skipsp t).drop digits.length, d)
  expr_onward t d := by
    have skipped := (List.dropWhile_suffix (fun c => c == ' ' || c == '\t') (l := t)).length_le
    simp only [List.length_drop]
    exact (Nat.sub_le _ _).trans skipped
  other _ t d := (t.dropWhile (· ≠ ':'), d)
  reset _ := ()

def never : Nat → Bool := fun _ => false

def listing (texts : List String) : List Line :=
  texts.mapIdx fun i t => ⟨10 * (i + 1), t.toList⟩

/-- NEXT turns the inner loop, a loop that is entered again and again fills the stack, a WEND
on the line of its WHILE is not found, and a jump to no label, also to one with more letters
than are read, goes on behind itself or elsewhere. -/
theorem basic_strays :
    ¬ Keeps numbers never never (listing ["FOR I=1 TO 2", "FOR J=1 TO 2", "NEXT I"]) 0 () ∧
    (doRun numbers code never never (listing ["FOR I=1 TO 9", "GOTO 10"]) 0 ()).2 =
      .error "FOR overflow" ∧
    ¬ Keeps numbers never never (listing ["FOR I=1 TO 9", "GOTO 10"]) 0 () ∧
    (doRun numbers code never never (listing ["WHILE 0:CLS:WEND"]) 0 ()).2 =
      .error "WHILE without WEND" ∧
    ¬ Keeps numbers never never (listing ["WHILE 0:CLS:WEND"]) 0 () ∧
    (doRun numbers code never never (listing ["GOTO *NOWHERE", "END"]) 0 ()).2 = .ok ∧
    ¬ Keeps numbers never never (listing ["GOTO *NOWHERE", "END"]) 0 () ∧
    ¬ Keeps numbers never never
      (listing ["GOTO *ABCDEFGHIJKX", "END", "*ABCDEFGHIJK", "END"]) 0 () := by
  unfold Keeps
  decide +kernel

end XinuRpi5.Video.BasicFlow
