/- source: device/video/avm.c
   digest: When the execution of a method stays inside its code, its object and the queue. -/

import XinuRpi5.Video.AvmSafety

/-!
A round of `avm_dispatch` reads the opcode and the operand bytes behind it. `WAIT` and the drawing
opcodes are the ones that touch the screen, the frame cache and the pacing; of them it only matters
which are executed.
-/

namespace XinuRpi5.Video.AvmContained

open Avm AvmParallel AvmSafety

def reads (fr : Frame) : List Nat := List.range' fr.pc (width fr.u8)

section Run

variable (m : Module)

/-- The frames in front of the rounds that are executed, and the machine and frame at the end. -/
def rounds : Nat → Vm → Frame → List Frame
  | 0, _, _ => []
  | n + 1, vm, fr =>
    if Done fr then []
    else
      let r := instr m (vm.objs fr.self).f fr
      let s := vm.apply m r.1 r.2
      fr :: rounds n s.1 s.2

def final : Nat → Vm → Frame → Vm × Frame
  | 0, vm, fr => (vm, fr)
  | n + 1, vm, fr =>
    if Done fr then (vm, fr)
    else
      let r := instr m (vm.objs fr.self).f fr
      let s := vm.apply m r.1 r.2
      final n s.1 s.2

variable {m}

theorem final_loop (n : Nat) (vm : Vm) (fr : Frame) :
    (final m n vm fr).1 = Vm.loop m n vm fr := by
  induction n generalizing vm fr with
  | zero => rfl
  | succ n later =>
    unfold final Vm.loop
    split_ifs
    · rfl
    · exact later _ _

theorem first_round {fr : Frame} (n : Nat) (vm : Vm) (going : ¬ Done fr) :
    fr ∈ rounds m (n + 1) vm fr := by
  rw [rounds, if_neg going]
  exact List.mem_cons_self

theorem rounds_invariant {P : Vm → Frame → Prop} (kept : ∀ vm fr, ¬ Done fr → P vm fr →
    P (vm.apply m (instr m (vm.objs fr.self).f fr).1 (instr m (vm.objs fr.self).f fr).2).1
      (vm.apply m (instr m (vm.objs fr.self).f fr).1 (instr m (vm.objs fr.self).f fr).2).2)
    (n : Nat) {vm : Vm} {fr : Frame} (holds : P vm fr) :
    (∀ r ∈ rounds m n vm fr, ∃ vm', P vm' r) ∧ P (final m n vm fr).1 (final m n vm fr).2 := by
  induction n generalizing vm fr with
  | zero => exact ⟨nofun, holds⟩
  | succ n later =>
    unfold rounds final
    split_ifs with atEnd
    · exact ⟨nofun, holds⟩
    · have next := later (kept vm fr atEnd holds)
      refine ⟨fun r listed => ?_, next.2⟩
      rcases List.mem_cons.mp listed with rfl | behind
      · exact ⟨vm, holds⟩
      · exact next.1 r behind

end Run

section Rounds

variable {m : Module}

theorem apply_settled (vm : Vm) (r : Frame × Effect) :
    ∃ v, (vm.apply m r.1 r.2).2 = settled v r := by
  obtain ⟨fr, e⟩ := r
  cases e with
  | none | setField | send => exact ⟨0, rfl⟩
  | spawn cls => exact ⟨_, rfl⟩

section

variable {fr : Frame} (fits : fr.stk.length ≤ vmStack)

include fits

theorem push_stack (v : Int) :
    (fr.push v).stk.length ≤ vmStack := by
  unfold Frame.push
  split_ifs with room
  · exact room
  · exact fits

theorem drop_stack (n : Nat) :
    (fr.drop n).stk.length ≤ vmStack := by
  show (fr.stk.drop n).length ≤ vmStack
  rw [List.length_drop]
  omega

theorem binary_stack (op : Int → Int → Int) :
    (fr.binary op).stk.length ≤ vmStack :=
  push_stack (drop_stack fits 2) _

theorem instr_stack (f : Nat → Int) :
    (instr m f fr).1.stk.length ≤ vmStack := by
  unfold instr
  simp only
  split
  all_goals
    first
      | exact fits
      | exact push_stack (by exact fits) _
      | exact drop_stack (by exact fits) _
      | exact binary_stack (by exact fits) _
      | skip
  split_ifs
  · exact drop_stack fits 1
  · exact drop_stack fits 1

end

theorem push_guard (fr : Frame) (v : Int) : (fr.push v).guard = fr.guard := by
  unfold Frame.push
  split_ifs <;> rfl

theorem push_self (fr : Frame) (v : Int) : (fr.push v).self = fr.self := by
  unfold Frame.push
  split_ifs <;> rfl

theorem instr_guard (f : Nat → Int) (fr : Frame) : (instr m f fr).1.guard = fr.guard + 1 := by
  unfold instr
  simp only
  split
  all_goals
    first
      | rfl
      | exact push_guard _ _
      | skip
  split_ifs <;> rfl

theorem instr_self (f : Nat → Int) (fr : Frame) : (instr m f fr).1.self = fr.self := by
  unfold instr
  simp only
  split
  all_goals
    first
      | rfl
      | exact push_self _ _
      | skip
  split_ifs <;> rfl

end Rounds

section Statement

variable (m : Module) (vm : Vm) (msg : Msg)

def opened : Option Frame := openFrame m (vm.objs (recv msg)) msg

def outside (fr : Frame) : List Nat :=
  ((rounds m guardLimit vm fr).map Frame.u8).filter fun op => unsafeOp op

/-- Nothing of the objects changes but the fields of the receiver and places that were free. -/
def OnlyOwn (self : Nat) (before after : Table) : Prop :=
  ∀ i, after i = before i ∨
    (i = self ∧ (after i).used = (before i).used ∧ (after i).cls = (before i).cls) ∨
    (before i).used = false

/-- A call ends within the guard, its stack keeps to its places, it reads only the code of the
method, and without `WAIT` and drawing opcodes it changes only what is its own. -/
structure ContainedCall (fr : Frame) : Prop where
  ends : Done (final m guardLimit vm fr).2 ∧ (rounds m guardLimit vm fr).length ≤ guardLimit
  stack : (∀ r ∈ rounds m guardLimit vm fr, r.stk.length ≤ vmStack) ∧
    (final m guardLimit vm fr).2.stk.length ≤ vmStack
  reads : ∀ r ∈ rounds m guardLimit vm fr, ∀ i ∈ reads r, i < fr.codeLen
  apart : codeHasUnsafe fr.code fr.codeLen fr.codeLen 0 = false →
    outside m vm fr = [] ∧ OnlyOwn fr.self vm.objs (avmDispatch m vm msg).objs

def Contained : Prop := ∀ fr ∈ opened m vm msg, ContainedCall m vm msg fr

/-- The instruction at `pc` lies in the code with its operands, and is none that the sweep of the
method would have told of. -/
structure Sound (code : Nat → UInt8) (len pc : Nat) : Prop where
  operands : pc + width (code pc).toNat ≤ len
  swept : codeHasUnsafe code len len 0 = false → unsafeOp (code pc).toNat = false

/-- `JMP` and `JMPZ`. -/
def branches (op : Nat) : Bool := op = 0x30 || op = 0x31

/-- The instructions from `pc` to the next branch, return or end, as far as `left` rounds go. -/
def stretch (code : Nat → UInt8) (len : Nat) : Nat → Nat → List Nat
  | 0, _ => []
  | left + 1, pc =>
    if len ≤ pc then []
    else pc :: if branches (code pc).toNat then [] else stretch code len left (after code len pc)

/-- Where a branch goes on, and the rounds that are left there. -/
def landing (r : Frame) : Nat × Nat :=
  (guardLimit - (r.guard + 1), (jumpsTo r).getD (after r.code r.codeLen r.pc))

/-- The beginning of the call, and where each branch of it goes on. -/
def landings (fr : Frame) : List (Nat × Nat) :=
  (guardLimit, 0) :: ((rounds m guardLimit vm fr).filter fun r => branches r.u8).map landing

/-- From its beginning and from wherever a branch goes on, the code is sound up to the next one. -/
def LandsInside : Prop :=
  ∀ fr ∈ opened m vm msg, ∀ place ∈ landings m vm fr,
    ∀ pc ∈ stretch fr.code fr.codeLen place.1 place.2, Sound fr.code fr.codeLen pc

/-- The places that control can come to with some arguments and some object. -/
inductive Reached (code : Nat → UInt8) (len : Nat) : Nat → Prop where
  | start : Reached code len 0
  | next {pc : Nat} (before : Reached code len pc) (inside : pc < len)
      (on : (code pc).toNat ≠ 0x30) : Reached code len (after code len pc)
  | jump {pc : Nat} (before : Reached code len pc) (inside : pc < len)
      (branch : branches (code pc).toNat = true) :
      Reached code len ((code (pc + 1)).toNat + (code (pc + 2)).toNat * 256)

/-- The code is sound wherever control can come to. -/
def FlowInside : Prop :=
  ∀ fr ∈ opened m vm msg, ∀ pc, Reached fr.code fr.codeLen pc → pc < fr.codeLen →
    Sound fr.code fr.codeLen pc

end Statement

section Ends

variable {m : Module}

theorem apply_guard (vm : Vm) (fr : Frame) (e : Effect) : (vm.apply m fr e).2.guard = fr.guard := by
  cases e with
  | none | setField | send => rfl
  | spawn cls => exact push_guard _ _

theorem apply_self (vm : Vm) (fr : Frame) (e : Effect) : (vm.apply m fr e).2.self = fr.self := by
  cases e with
  | none | setField | send => rfl
  | spawn cls => exact push_self _ _

theorem apply_stack (vm : Vm) {fr : Frame} (fits : fr.stk.length ≤ vmStack) (e : Effect) :
    (vm.apply m fr e).2.stk.length ≤ vmStack := by
  cases e with
  | none | setField | send => exact fits
  | spawn cls => exact push_stack fits _

theorem final_done (n : Nat) (vm : Vm) (fr : Frame) (enough : guardLimit ≤ fr.guard + n) :
    Done (final m n vm fr).2 := by
  induction n generalizing vm fr with
  | zero => exact Or.inr enough
  | succ n later =>
    unfold final
    split_ifs with atEnd
    · exact atEnd
    · refine later _ _ ?_
      rw [apply_guard, instr_guard]
      omega

theorem rounds_length (n : Nat) (vm : Vm) (fr : Frame) : (rounds m n vm fr).length ≤ n := by
  induction n generalizing vm fr with
  | zero => exact Nat.le_refl 0
  | succ n later =>
    unfold rounds
    split_ifs
    · exact Nat.zero_le _
    · exact Nat.succ_le_succ (later _ _)

theorem round_moves (vm : Vm) (fr : Frame) :
    Moves fr (vm.apply m (instr m (vm.objs fr.self).f fr).1 (instr m (vm.objs fr.self).f fr).2).2 := by
  obtain ⟨v, settles⟩ := apply_settled (m := m) vm (instr m (vm.objs fr.self).f fr)
  rw [settles]
  exact settled_moves (instr_moves m (vm.objs fr.self).f fr) v

theorem rounds_inside (n : Nat) {vm : Vm} {fr r : Frame} (round : r ∈ rounds m n vm fr) :
    r.pc < fr.codeLen := by
  induction n generalizing vm fr with
  | zero => cases round
  | succ n later =>
    unfold rounds at round
    split_ifs at round with atEnd
    · cases round
    · rcases List.mem_cons.mp round with rfl | behind
      · exact Nat.not_le.mp fun past => atEnd (Or.inl past)
      · have inside := later behind
        rwa [(round_moves vm fr).codeLen] at inside

end Ends

section Branches

variable {m : Module} {code : Nat → UInt8} {len : Nat}

theorem not_branches {fr : Frame} (other : branches fr.u8 = false) : jumpsTo fr = none := by
  simp only [branches, Bool.or_eq_false_iff, decide_eq_false_iff_not] at other
  refine if_neg ?_
  rintro (jump | ⟨jump, -⟩)
  · exact other.1 jump
  · exact other.2 jump

/-- The rounds of a call are those of the stretch that it begins with and of the stretches behind its
branches. -/
theorem rounds_stretches {P : Nat → Prop} (n : Nat) {vm : Vm} {fr : Frame} (same : fr.code = code)
    (length : fr.codeLen = len) (left : fr.guard + n = guardLimit) :
    (∀ r ∈ rounds m n vm fr, P r.pc) ↔ (∀ pc ∈ stretch code len n fr.pc, P pc) ∧
      ∀ r ∈ rounds m n vm fr, branches r.u8 = true →
        ∀ pc ∈ stretch code len (landing r).1 (landing r).2, P pc := by
  induction n generalizing vm fr with
  | zero => simp [rounds, stretch]
  | succ n later =>
    have fetched : (code fr.pc).toNat = fr.u8 := by rw [Frame.u8, same]
    by_cases past : len ≤ fr.pc
    · have ended : Done fr := Or.inl (length ▸ past)
      simp [rounds, stretch, past, ended]
    · have going : ¬ Done fr := by
        rintro (ended | ended)
        · exact past (length ▸ ended)
        · omega
      have moves := round_moves (m := m) vm fr
      have rest := @later (vm.apply m (instr m (vm.objs fr.self).f fr).1
          (instr m (vm.objs fr.self).f fr).2).1 _ (moves.code.trans same)
        (moves.codeLen.trans length) (by rw [apply_guard, instr_guard]; omega)
      simp only [rounds, stretch, fetched, if_neg past, if_neg going, List.forall_mem_cons]
      rw [rest, moves.goes]
      cases branch : branches fr.u8 with
      | true =>
        have place : landing fr = (n, (jumpsTo fr).getD (after fr.code fr.codeLen fr.pc)) := by
          rw [landing, show guardLimit - (fr.guard + 1) = n by omega]
        rw [place]
        simp
      | false =>
        rw [not_branches branch, same, length]
        simp [and_assoc]

theorem rounds_reached (n : Nat) {vm : Vm} {fr : Frame} (before : Reached fr.code fr.codeLen fr.pc) :
    ∀ r ∈ rounds m n vm fr, Reached fr.code fr.codeLen r.pc := by
  induction n generalizing vm fr with
  | zero => exact nofun
  | succ n later =>
    unfold rounds
    split_ifs with atEnd
    · exact nofun
    · have moves := round_moves (m := m) vm fr
      have inside : fr.pc < fr.codeLen := Nat.not_le.mp fun past => atEnd (Or.inl past)
      refine List.forall_mem_cons.mpr ⟨before, ?_⟩
      rw [← moves.code, ← moves.codeLen]
      refine later ?_
      rw [moves.code, moves.codeLen, moves.goes]
      cases branch : branches fr.u8 with
      | true =>
        unfold jumpsTo
        split_ifs with jumps
        · exact before.jump inside branch
        · exact before.next inside fun jump => jumps (Or.inl jump)
      | false =>
        rw [not_branches branch]
        refine before.next inside fun jump => ?_
        rw [branches, Frame.u8, jump] at branch
        cases branch

end Branches

section Objects

variable {m : Module} {self : Nat} {a b c : Table}

theorem OnlyOwn.refl (self : Nat) (a : Table) : OnlyOwn self a a := fun _ => Or.inl rfl

theorem OnlyOwn.trans (first : OnlyOwn self a b) (rest : OnlyOwn self b c) : OnlyOwn self a c := by
  intro i
  rcases rest i with same | ⟨own, used, cls⟩ | free
  · rw [same]
    exact first i
  · rcases first i with same | ⟨_, used', cls'⟩ | free
    · rw [same] at used cls
      exact Or.inr (Or.inl ⟨own, used, cls⟩)
    · exact Or.inr (Or.inl ⟨own, used.trans used', cls.trans cls'⟩)
    · exact Or.inr (Or.inr free)
  · rcases first i with same | ⟨_, used', _⟩ | free'
    · exact Or.inr (Or.inr (same ▸ free))
    · exact Or.inr (Or.inr (used' ▸ free))
    · exact Or.inr (Or.inr free')

theorem vmSpawn_only (objs : Table) (cls : Nat) : OnlyOwn self objs (vmSpawn m objs cls).1 := by
  unfold vmSpawn spawnIn
  split_ifs
  · exact OnlyOwn.refl self objs
  · cases place : (List.range' 0 (vmMaxObj - 0)).find? fun i => (objs i).used = false with
    | none => exact OnlyOwn.refl self objs
    | some k =>
      intro i
      by_cases here : i = k
      · have free := List.find?_some place
        rw [here]
        exact Or.inr (Or.inr (of_decide_eq_true free))
      · exact Or.inl (if_neg here)

theorem apply_only (vm : Vm) (fr : Frame) (e : Effect) :
    OnlyOwn fr.self vm.objs (vm.apply m fr e).1.objs := by
  cases e with
  | none | send => exact OnlyOwn.refl _ _
  | setField i v =>
    intro k
    by_cases own : k = fr.self
    · have new : (vm.apply m fr (.setField i v)).1.objs k = (vm.objs fr.self).set i v := if_pos own
      rw [new, own]
      exact Or.inr (Or.inl ⟨rfl, rfl, rfl⟩)
    · exact Or.inl (if_neg own)
  | spawn cls => exact vmSpawn_only vm.objs cls

end Objects

section Main

variable {m : Module} {vm : Vm} {msg : Msg}

/-- What the frames of a call have in common, and what has become of the objects. -/
structure During (start : Frame) (before : Table) (now : Vm) (fr : Frame) : Prop where
  self : fr.self = start.self
  code : fr.code = start.code
  codeLen : fr.codeLen = start.codeLen
  stack : fr.stk.length ≤ vmStack
  objs : OnlyOwn start.self before now.objs

theorem During.round {start fr : Frame} {before : Table} {now : Vm}
    (during : During start before now fr) :
    During start before
      (now.apply m (instr m (now.objs fr.self).f fr).1 (instr m (now.objs fr.self).f fr).2).1
      (now.apply m (instr m (now.objs fr.self).f fr).1 (instr m (now.objs fr.self).f fr).2).2 := by
  have moves := round_moves (m := m) now fr
  have own := instr_self (m := m) (now.objs fr.self).f fr
  have only := apply_only (m := m) now (instr m (now.objs fr.self).f fr).1
    (instr m (now.objs fr.self).f fr).2
  rw [own, during.self] at only
  constructor
  · rw [apply_self, own, during.self]
  · rw [moves.code, during.code]
  · rw [moves.codeLen, during.codeLen]
  · exact apply_stack now (instr_stack during.stack _) _
  · rw [during.self] at *
    exact during.objs.trans only

theorem opened_fresh {fr : Frame} (there : fr ∈ opened m vm msg) :
    fr.stk = [] ∧ fr.pc = 0 ∧ fr.guard = 0 ∧ avmDispatch m vm msg = Vm.loop m guardLimit vm fr := by
  unfold avmDispatch
  rw [Option.mem_def] at there
  unfold opened at there
  rw [there]
  unfold openFrame at there
  split_ifs at there
  obtain ⟨mt, -, rfl⟩ := Option.map_eq_some_iff.mp there
  exact ⟨rfl, rfl, rfl, rfl⟩

theorem mem_outside {fr : Frame} {op : Nat} : op ∈ outside m vm fr ↔
    ∃ r ∈ rounds m guardLimit vm fr, r.u8 = op ∧ unsafeOp op = true := by
  unfold outside
  rw [List.mem_filter, List.mem_map]
  constructor
  · rintro ⟨⟨r, listed, rfl⟩, touches⟩
    exact ⟨r, listed, rfl, touches⟩
  · rintro ⟨r, listed, rfl, touches⟩
    exact ⟨⟨r, listed, rfl⟩, touches⟩

theorem contained_sound {fr : Frame} (there : fr ∈ opened m vm msg) : ContainedCall m vm msg fr ↔
    ∀ r ∈ rounds m guardLimit vm fr, Sound fr.code fr.codeLen r.pc := by
  obtain ⟨empty, -, zero, loops⟩ := opened_fresh there
  have start : During fr vm.objs vm fr :=
    ⟨rfl, rfl, rfl, by rw [empty]; exact Nat.zero_le _, OnlyOwn.refl _ _⟩
  obtain ⟨along, last⟩ := rounds_invariant (m := m) (P := During fr vm.objs)
    (fun _ _ _ during => during.round) guardLimit start
  have fetched : ∀ r ∈ rounds m guardLimit vm fr, (fr.code r.pc).toNat = r.u8 := by
    intro r listed
    obtain ⟨now, during⟩ := along r listed
    rw [← during.code, Frame.u8]
  constructor
  · intro contained r listed
    constructor
    · have positive := width_pos r.u8
      have inside := contained.reads r listed (r.pc + width r.u8 - 1)
        (List.mem_range'_1.mpr ⟨by omega, by omega⟩)
      rw [fetched r listed]
      omega
    · intro safe
      rw [fetched r listed]
      by_contra touches
      have recorded : r.u8 ∈ outside m vm fr :=
        mem_outside.mpr ⟨r, listed, rfl, Bool.not_eq_false _ ▸ touches⟩
      rw [(contained.apart safe).1] at recorded
      cases recorded
  · intro sound
    refine ⟨⟨final_done guardLimit vm fr (by omega), rounds_length _ _ _⟩, ⟨fun r listed => ?_,
      last.stack⟩, fun r listed i read => ?_, fun safe => ⟨?_, ?_⟩⟩
    · obtain ⟨now, during⟩ := along r listed
      exact during.stack
    · have operands := (sound r listed).operands
      have bounds := List.mem_range'_1.mp read
      rw [fetched r listed] at operands
      omega
    · refine List.eq_nil_iff_forall_not_mem.mpr fun op listed => ?_
      obtain ⟨r, round, rfl, touches⟩ := mem_outside.mp listed
      have harmless := (sound r round).swept safe
      rw [fetched r round] at harmless
      cases touches.symm.trans harmless
    · have only := last.objs
      rw [final_loop, ← loops] at only
      exact only

/-- An object with a method of one byte, `PUSHI` without its number. -/
def shortModule : Module := ⟨[[109]], [[⟨0, 1, codeOf [0x01]⟩]]⟩

end Main

section Isolation

variable {m : Module} {vm : Vm} {msg : Msg}

theorem dispatch_only (m : Module) (vm : Vm) (msg : Msg) :
    OnlyOwn (recv msg) vm.objs (avmDispatch m vm msg).objs := by
  cases there : opened m vm msg with
  | none =>
    rw [avmDispatch, show openFrame m (vm.objs (recv msg)) msg = none from there]
    exact OnlyOwn.refl _ _
  | some fr =>
    obtain ⟨empty, -, -, loops⟩ := opened_fresh there
    have start : During fr vm.objs vm fr :=
      ⟨rfl, rfl, rfl, by rw [empty]; exact Nat.zero_le _, OnlyOwn.refl _ _⟩
    have only := (rounds_invariant (m := m) (P := During fr vm.objs)
      (fun _ _ _ during => during.round) guardLimit start).2.objs
    have own : fr.self = recv msg := by
      unfold opened openFrame at there
      split_ifs at there
      obtain ⟨mt, -, rfl⟩ := Option.map_eq_some_iff.mp there
      rfl
    rw [final_loop, ← loops, own] at only
    exact only

def served (m : Module) : Nat → Vm → List Msg
  | 0, _ => []
  | n + 1, vm =>
    match vm.queue with
    | [] => []
    | msg :: rest => msg :: served m n (avmDispatch m { vm with queue := rest } msg)

/-- Whatever the bytecode does, a used object keeps its place and its class, and its fields
change only where a message for it was taken. -/
theorem rounds_isolate (m : Module) (n : Nat) (vm : Vm) {i : Nat} (used : (vm.objs i).used = true) :
    ((dispatchHeads m n vm).objs i).used = true ∧
      ((dispatchHeads m n vm).objs i).cls = (vm.objs i).cls ∧
      ((dispatchHeads m n vm).objs i ≠ vm.objs i → ∃ msg ∈ served m n vm, recv msg = i) := by
  induction n generalizing vm with
  | zero => exact ⟨used, rfl, fun moved => absurd rfl moved⟩
  | succ n ih =>
    rw [dispatchHeads, served]
    cases queue : vm.queue with
    | nil => exact ⟨used, rfl, fun moved => absurd rfl moved⟩
    | cons msg rest =>
      have only := dispatch_only m { vm with queue := rest } msg i
      rcases only with same | ⟨own, used', cls⟩ | free
      · obtain ⟨still, kept, moved⟩ := ih (avmDispatch m { vm with queue := rest } msg)
          (by rw [same]; exact used)
        rw [same] at kept moved
        refine ⟨still, kept, fun changed => ?_⟩
        obtain ⟨later, listed, own⟩ := moved changed
        exact ⟨later, List.mem_cons_of_mem msg listed, own⟩
      · obtain ⟨still, kept, -⟩ := ih (avmDispatch m { vm with queue := rest } msg)
          (used'.trans used)
        exact ⟨still, kept.trans cls, fun _ => ⟨msg, List.mem_cons_self, own.symm⟩⟩
      · exact absurd (free.symm.trans used) Bool.false_ne_true

theorem rounds_isolate_idle :
    let vm : Vm := ⟨fun _ => ⟨true, 0, fun _ => 0⟩, [⟨0, 0, [109], []⟩]⟩
    ((dispatchHeads shortModule 1 vm).objs 1).used = true :=
  (rounds_isolate shortModule 1 ⟨fun _ => ⟨true, 0, fun _ => 0⟩, [⟨0, 0, [109], []⟩]⟩ rfl).1

end Isolation
end XinuRpi5.Video.AvmContained
