/- source: device/video/avm.c
   digest: What the sweep of code_has_unsafe says about the executions of a method. -/

import XinuRpi5.Lib.GuardedRuns
import XinuRpi5.Video.AvmParallel

namespace XinuRpi5.Video.AvmSafety

open Lib.GuardedRuns Avm AvmParallel

/-- `WAIT` and the drawing opcodes. -/
def unsafeOp (op : Nat) : Bool := [0x07, 0x45, 0x46, 0x47, 0x48].contains op

def width (op : Nat) : Nat :=
  match op with
  | 0x01 => 5
  | 0x02 | 0x03 | 0x04 => 2
  | 0x30 | 0x31 | 0x41 => 3
  | 0x40 | 0x44 => 4
  | _ => 1

/-- `RET`, and whatever is no opcode. -/
def halts (op : Nat) : Bool :=
  match op with
  | 0x01 | 0x02 | 0x03 | 0x04 | 0x05 | 0x06 | 0x07 | 0x08 | 0x10 | 0x11 | 0x12 | 0x13 | 0x14 | 0x20
  | 0x21 | 0x22 | 0x23 | 0x24 | 0x25 | 0x30 | 0x31 | 0x40 | 0x41 | 0x42 | 0x44 | 0x45 | 0x46 | 0x47
  | 0x48 => false
  | _ => true

/-- Where control goes behind the instruction at `pc` when it does not jump. -/
def after (code : Nat → UInt8) (len pc : Nat) : Nat :=
  if halts (code pc).toNat then len else pc + width (code pc).toNat

/-- The places that the sweep reads as opcodes, and the one where it stops. -/
inductive Swept (code : Nat → UInt8) (len : Nat) : Nat → Prop where
  | start : Swept code len 0
  | next {pc : Nat} (before : Swept code len pc) (inside : pc < len) :
      Swept code len (pc + width (code pc).toNat)

theorem width_pos (op : Nat) : 0 < width op := by
  unfold width
  split <;> exact Nat.succ_pos _

theorem codeHasUnsafe_succ {code : Nat → UInt8} {len rounds pc : Nat} (inside : pc < len) :
    codeHasUnsafe code len (rounds + 1) pc =
      (unsafeOp (code pc).toNat || codeHasUnsafe code len rounds (pc + width (code pc).toNat)) := by
  rw [codeHasUnsafe, if_neg (Nat.not_le.mpr inside)]
  generalize (code pc).toNat = op
  split
  case h_15 =>
    have safe : unsafeOp op = false := by simp_all [unsafeOp]
    have short : width op = 1 := by
      unfold width
      split <;> first
        | rfl
        | simp_all
    rw [safe, short, Bool.false_or]
  all_goals rfl

section Execution

/-- A call of a method, as `avm_dispatch` opens it. -/
def callFrame (mt : Method) (self : Nat) (sender : Int) (args : List Int) : Frame :=
  ⟨self, sender, args, mt.code, mt.codeLen, [], 0, 0⟩

/-- Where the instruction at `pc` jumps, when it does. -/
def jumpsTo (fr : Frame) : Option Nat :=
  if fr.u8 = 0x30 ∨ fr.u8 = 0x31 ∧ fr.top = 0 then some (fr.skip 1).u16 else none

/-- What an instruction finds outside its frame: the fields of the object, and the
number of a new object. -/
structure Found where
  fields : Nat → Int
  spawned : Int

def settled (spawned : Int) (r : Frame × Effect) : Frame :=
  match r.2 with
  | .spawn _ => r.1.push spawned
  | _ => r.1

/-- One round of the loop of `avm_dispatch`, seen from the call. -/
def callStep (m : Module) (fr : Frame) (found : Found) : Option Frame :=
  if Done fr then none else some (settled found.spawned (instr m found.fields fr))

variable {m : Module} {fr fr' : Frame}

@[simp] theorem push_pc (fr : Frame) (v : Int) : (fr.push v).pc = fr.pc := by
  unfold Frame.push
  split_ifs <;> rfl

@[simp] theorem push_code (fr : Frame) (v : Int) : (fr.push v).code = fr.code := by
  unfold Frame.push
  split_ifs <;> rfl

@[simp] theorem push_codeLen (fr : Frame) (v : Int) : (fr.push v).codeLen = fr.codeLen := by
  unfold Frame.push
  split_ifs <;> rfl

/-- The method stays, and control goes to the next instruction, to the target of a
jump, or to the end. -/
structure Moves (fr fr' : Frame) : Prop where
  code : fr'.code = fr.code
  codeLen : fr'.codeLen = fr.codeLen
  jump : ∀ t, jumpsTo fr = some t → fr'.pc = t
  next : jumpsTo fr = none → fr'.pc = after fr.code fr.codeLen fr.pc

theorem Moves.goes {fr fr' : Frame} (moves : Moves fr fr') :
    fr'.pc = (jumpsTo fr).getD (after fr.code fr.codeLen fr.pc) := by
  cases jumps : jumpsTo fr with
  | none => exact moves.next jumps
  | some t => exact moves.jump t jumps

theorem Moves.straight (code : fr'.code = fr.code) (codeLen : fr'.codeLen = fr.codeLen)
    (still : jumpsTo fr = none) (goes : fr'.pc = after fr.code fr.codeLen fr.pc) :
    Moves fr fr' :=
  ⟨code, codeLen, fun _ jumps => (Option.some_ne_none _ (jumps.symm.trans still)).elim, fun _ => goes⟩

theorem instr_moves (m : Module) (f : Nat → Int) (fr : Frame) : Moves fr (instr m f fr).1 := by
  have fetched : (fr.code fr.pc).toNat = fr.u8 := rfl
  unfold instr
  simp only
  split
  case h_20 is =>
    have jumps : jumpsTo fr = some (fr.skip 1).u16 := if_pos (.inl is)
    refine ⟨rfl, rfl, fun t goes => ?_, fun none => ?_⟩
    · exact Option.some.inj (jumps.symm.trans goes)
    · rw [jumps] at none
      cases none
  case h_21 is =>
    split
    case isTrue zero =>
      have jumps : jumpsTo fr = some (fr.skip 1).u16 := if_pos (.inr ⟨is, zero⟩)
      refine ⟨rfl, rfl, fun t goes => ?_, fun none => ?_⟩
      · exact Option.some.inj (jumps.symm.trans goes)
      · rw [jumps] at none
        cases none
    case isFalse other =>
      refine Moves.straight rfl rfl (if_neg ?_) ?_
      · rintro (jump | ⟨_, zero⟩)
        · rw [is] at jump
          cases jump
        · exact other zero
      · show fr.pc + 1 + 2 = after fr.code fr.codeLen fr.pc
        rw [after, fetched, is]
        rfl
  all_goals
    refine Moves.straight ?_ ?_ ?_ ?_
    · simp [Frame.binary, Frame.skip, Frame.drop]
    · simp [Frame.binary, Frame.skip, Frame.drop]
    · simp_all [jumpsTo]
    · simp_all [after, halts, width, Frame.binary, Frame.skip, Frame.drop]

theorem settled_moves {r : Frame × Effect} (moves : Moves fr r.1) (v : Int) :
    Moves fr (settled v r) := by
  unfold settled
  split
  · exact ⟨(push_code _ _).trans moves.code, (push_codeLen _ _).trans moves.codeLen,
      fun t jumps => (push_pc _ _).trans (moves.jump t jumps),
      fun none => by rw [push_pc]; exact moves.next none⟩
  · exact moves

theorem callStep_moves {found : Found} (step : callStep m fr found = some fr') :
    ¬ Done fr ∧ Moves fr fr' := by
  unfold callStep at step
  split_ifs at step with atEnd
  obtain rfl := Option.some.inj step
  exact ⟨atEnd, settled_moves (instr_moves m found.fields fr) found.spawned⟩

end Execution

section Soundness

variable {m : Module} {mt : Method} {self : Nat} {sender : Int} {args : List Int} {fr : Frame}

theorem swept_safe (safe : codeHasUnsafe mt.code mt.codeLen mt.codeLen 0 = false) {pc : Nat}
    (swept : Swept mt.code mt.codeLen pc) (inside : pc < mt.codeLen) :
    unsafeOp (mt.code pc).toNat = false := by
  have rest : ∃ rounds, mt.codeLen ≤ pc + rounds ∧
      codeHasUnsafe mt.code mt.codeLen rounds pc = false := by
    induction swept with
    | start => exact ⟨mt.codeLen, by omega, safe⟩
    | @next q before below ih =>
      obtain ⟨rounds, enough, none⟩ := ih below
      obtain ⟨rounds, rfl⟩ : ∃ n, rounds = n + 1 := ⟨rounds - 1, by omega⟩
      rw [codeHasUnsafe_succ below, Bool.or_eq_false_iff] at none
      refine ⟨rounds, ?_, none.2⟩
      have positive := width_pos (mt.code q).toNat
      omega
  obtain ⟨rounds, enough, none⟩ := rest
  obtain ⟨rounds, rfl⟩ : ∃ n, rounds = n + 1 := ⟨rounds - 1, by omega⟩
  rw [codeHasUnsafe_succ inside, Bool.or_eq_false_iff] at none
  exact none.1

def Known (mt : Method) (pc : Nat) : Prop := Swept mt.code mt.codeLen pc ∨ mt.codeLen ≤ pc

/-- A jump that is taken here does not go between the instructions that the sweep
has read. -/
def Aligned (mt : Method) (fr : Frame) (_ : Found) : Prop :=
  ∀ t, jumpsTo fr = some t → Known mt t

structure OnCourse (mt : Method) (fr : Frame) : Prop where
  code : fr.code = mt.code
  codeLen : fr.codeLen = mt.codeLen
  known : Known mt fr.pc

theorem OnCourse.start : OnCourse mt (callFrame mt self sender args) := ⟨rfl, rfl, .inl .start⟩

theorem OnCourse.step {fr' : Frame} {found : Found} (course : OnCourse mt fr)
    (aligned : Aligned mt fr found) (step : callStep m fr found = some fr') : OnCourse mt fr' := by
  obtain ⟨going, moves⟩ := callStep_moves step
  have inside : fr.pc < mt.codeLen := by
    rw [← course.codeLen]
    exact Nat.not_le.mp fun past => going (.inl past)
  refine ⟨moves.code.trans course.code, moves.codeLen.trans course.codeLen, ?_⟩
  cases jumps : jumpsTo fr with
  | some t =>
    rw [moves.jump t jumps]
    exact aligned t jumps
  | none =>
    rw [moves.next jumps, course.code, course.codeLen, after]
    split_ifs
    · exact .inr (Nat.le_refl _)
    · rcases course.known with swept | past
      · exact .inl (swept.next inside)
      · omega

theorem OnCourse.safe (safe : codeHasUnsafe mt.code mt.codeLen mt.codeLen 0 = false)
    (course : OnCourse mt fr) (going : ¬ Done fr) : unsafeOp fr.u8 = false := by
  have inside : fr.pc < mt.codeLen := by
    rw [← course.codeLen]
    exact Nat.not_le.mp fun past => going (.inl past)
  rcases course.known with swept | past
  · rw [Frame.u8, course.code]
    exact swept_safe safe swept inside
  · omega

/-- An execution of a method that passed the check executes no unsafe opcode as
long as its jumps stay with the instructions of the sweep. -/
theorem aligned_executes_no_unsafe (safe : codeHasUnsafe mt.code mt.codeLen mt.codeLen 0 = false)
    (run : Runs (callStep m) (Aligned mt) (callFrame mt self sender args) fr)
    (going : ¬ Done fr) : unsafeOp fr.u8 = false := by
  have course : OnCourse mt fr := by
    apply Runs.invariant run
    · exact OnCourse.start
    · intro fr found fr' before aligned step
      exact before.step aligned step
  exact course.safe safe going

end Soundness

def codeOf (bytes : List UInt8) : Nat → UInt8 := fun i => bytes.getD i 0

/-- `JMP 3; RET`. -/
def jumpToReturn : Method := ⟨0, 4, codeOf [0x30, 3, 0, 0x43]⟩

theorem aligned_executes_no_unsafe_return :
    ∃ fr, Runs (callStep ⟨[], []⟩) (Aligned jumpToReturn) (callFrame jumpToReturn 0 0 []) fr ∧
      fr.pc = 3 ∧ ¬ Done fr ∧ unsafeOp fr.u8 = false := by
  have swept : Swept jumpToReturn.code jumpToReturn.codeLen 3 :=
    Swept.next .start (by decide)
  have run : Runs (callStep ⟨[], []⟩) (Aligned jumpToReturn) (callFrame jumpToReturn 0 0 [])
      { callFrame jumpToReturn 0 0 [] with pc := 3, guard := 1 } := by
    refine Relation.ReflTransGen.single ⟨⟨fun _ => 0, 0⟩, ?_, rfl⟩
    intro t jumps
    obtain rfl : 3 = t := Option.some.inj jumps
    exact .inl swept
  refine ⟨_, run, rfl, by decide, ?_⟩
  exact aligned_executes_no_unsafe (by decide) run (by decide)

/-- `JMP 4; PUSHI 7`, where the jump goes to the first byte of the number. -/
def jumpIntoNumber : Method := ⟨0, 8, codeOf [0x30, 4, 0, 0x01, 7, 0, 0, 0]⟩

/-- The check passes, and the second instruction of every call is `WAIT`. -/
theorem jump_into_number_waits :
    codeHasUnsafe jumpIntoNumber.code jumpIntoNumber.codeLen jumpIntoNumber.codeLen 0 = false ∧
      ∃ fr, Runs (callStep ⟨[], []⟩) (fun _ _ => True) (callFrame jumpIntoNumber 0 0 []) fr ∧
        ¬ Done fr ∧ unsafeOp fr.u8 = true := by
  refine ⟨by decide, { callFrame jumpIntoNumber 0 0 [] with pc := 4, guard := 1 }, ?_, by decide,
    by decide⟩
  exact Relation.ReflTransGen.single ⟨⟨fun _ => 0, 0⟩, trivial, rfl⟩

end XinuRpi5.Video.AvmSafety
