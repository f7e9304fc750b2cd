/- source: cc/cc.c
   digest: Reply destinations: the slots of now calls, replyto and answer. -/

import XinuRpi5.Lib.GuardedRuns
import Mathlib.Data.List.Nodup
import Mathlib.Data.List.Pairwise

/-!
A program is the sequence of its `now` calls, `replyto`s and `answer`s, in any nesting.
`none` stands for the slot number -1. Beside the variables of the runtime the state keeps
which calls are not finished, the destinations that were handed out with the call that
was being handled, and what became of every answer.
-/

namespace XinuRpi5.Cc.ReplySlots

open Lib.GuardedRuns

def rslotMax : Nat := 32

/-- The length of `g_rstack`. -/
def rstackMax : Nat := 16

def waitRounds : Nat := 64

/-- A value of `replyto`, with the call during whose handling it was produced. -/
structure Dest where
  slot : Option Nat
  owner : Option Nat
  deriving DecidableEq

/-- An entry of `g_rslot`; `src` is the destination that it was filled through. -/
structure Slot where
  used : Bool
  taken : Bool
  filled : Bool
  val : Int
  src : Option Dest

/-- A call that is being handled or waits in `cc_now_pop`, and a `cc_pump` of a wait. -/
inductive Frame where
  | handling (id : Nat) (slot : Option Nat)
  | waiting (id slot : Nat) (r : Int) (i : Nat)
  | pump

inductive Event where
  | accepted (d : Dest) (v : Int)
  | rejected (d : Dest) (v : Int)
  | returned (id : Nat) (v : Int) (answer : Option Dest)

structure State where
  rslot : Nat → Slot
  rcur : Option Nat
  rstack : List (Option Nat)
  frames : List Frame
  next : Nat
  dests : List Dest
  log : List Event

inductive Op where
  | nowPush
  | replyto
  | answer (d : Dest) (v : Int)
  | nowPop (r : Int)
  | poll
  | pumped

def live : List Frame → List (Nat × Option Nat)
  | [] => []
  | .handling id slot :: rest => (id, slot) :: live rest
  | .waiting id slot _ _ :: rest => (id, some slot) :: live rest
  | .pump :: rest => live rest

/-- The calls whose handler runs, the innermost first, with their slots. -/
def handled : List Frame → List (Nat × Option Nat)
  | [] => []
  | .handling id slot :: rest => (id, slot) :: handled rest
  | _ :: rest => handled rest

/-- `cc_now_pop` is between two rounds of its pump, and no code of the program runs. -/
def waits (frames : List Frame) : Bool :=
  match frames with
  | .waiting _ _ _ _ :: _ => true
  | _ => false

def rslotAlloc (rslot : Nat → Slot) : Option Nat :=
  (List.range rslotMax).find? fun i => !(rslot i).used

def freshSlot : Slot := ⟨true, false, false, 0, none⟩

def rslotFree (rslot : Nat → Slot) (i : Nat) : Nat → Slot :=
  Function.update rslot i { rslot i with used := false }

def nowPush (s : State) : State :=
  let slot := rslotAlloc s.rslot
  { s with
    rslot := match slot with
      | none => s.rslot
      | some i => Function.update s.rslot i freshSlot
    rstack := if s.rstack.length < rstackMax then s.rcur :: s.rstack else s.rstack
    rcur := slot
    frames := .handling s.next slot :: s.frames
    next := s.next + 1 }

def replyto (s : State) : State :=
  { s with
    rslot := match s.rcur with
      | none => s.rslot
      | some i => Function.update s.rslot i { s.rslot i with taken := true }
    dests := ⟨s.rcur, (handled s.frames).head?.map Prod.fst⟩ :: s.dests }

/-- The test of `cc_answer`. -/
def Open (s : State) (i : Nat) : Prop :=
  i < rslotMax ∧ (s.rslot i).used = true ∧ (s.rslot i).filled = false

instance (s : State) (i : Nat) : Decidable (Open s i) := inferInstanceAs (Decidable (_ ∧ _))

def answer (s : State) (d : Dest) (v : Int) : State :=
  match d.slot with
  | none => { s with log := s.log ++ [.rejected d v] }
  | some i =>
    if Open s i then
      { s with
        rslot := Function.update s.rslot i { s.rslot i with filled := true, val := v, src := d }
        log := s.log ++ [.accepted d v] }
    else { s with log := s.log ++ [.rejected d v] }

/-- `cc_now_pop` up to its loop. -/
def nowPop (s : State) (id : Nat) (rest : List Frame) (r : Int) : State :=
  let s' := { s with rcur := s.rstack.headD none, rstack := s.rstack.tail }
  match s.rcur with
  | none => { s' with frames := rest, log := s.log ++ [.returned id r none] }
  | some i =>
    if (s.rslot i).taken then { s' with frames := .waiting id i r 0 :: rest }
    else
      { s' with
        rslot := rslotFree s.rslot i
        frames := rest
        log := s.log ++ [.returned id r none] }

/-- A test of the loop of `cc_now_pop`, and what follows its end. -/
def poll (s : State) (id slot : Nat) (r : Int) (i : Nat) (rest : List Frame) : State :=
  let sl := s.rslot slot
  if i < waitRounds ∧ sl.filled = false then
    { s with frames := .pump :: .waiting id slot r (i + 1) :: rest }
  else
    { s with
      rslot := rslotFree s.rslot slot
      frames := rest
      log := s.log ++
        [if sl.filled then .returned id sl.val sl.src else .returned id r none] }

def step (s : State) : Op → Option State
  | .nowPush => if waits s.frames then none else some (nowPush s)
  | .replyto => if waits s.frames then none else some (replyto s)
  | .answer d v => if waits s.frames ∨ d ∉ s.dests then none else some (answer s d v)
  | .nowPop r =>
    match s.frames with
    | .handling id _ :: rest => some (nowPop s id rest r)
    | _ => none
  | .poll =>
    match s.frames with
    | .waiting id slot r i :: rest => some (poll s id slot r i rest)
    | _ => none
  | .pumped =>
    match s.frames with
    | .pump :: rest => some { s with frames := rest }
    | _ => none

def start : State := ⟨fun _ => ⟨false, false, false, 0, none⟩, none, [], [], 0, [], []⟩

def Current (s : State) (d : Dest) : Prop :=
  ∃ p ∈ live s.frames, d.owner = some p.1

instance (s : State) (d : Dest) : Decidable (Current s d) :=
  inferInstanceAs (Decidable (∃ p ∈ live s.frames, d.owner = some p.1))

def answered (log : List Event) : List (Option Nat) :=
  log.filterMap fun
    | .accepted d _ => some d.owner
    | _ => none

/-- An unfinished call that waits for its answer has the slot of the destination. -/
def Awaited (s : State) (d : Dest) : Prop :=
  ∃ p ∈ live s.frames, p.2.isSome ∧ p.2 = d.slot ∧ some p.1 ∉ answered s.log

instance (s : State) (d : Dest) : Decidable (Awaited s d) :=
  inferInstanceAs (Decidable (∃ p ∈ live s.frames, _ ∧ _))

/-- A call starts with room on `g_rstack`, and a late answer finds no call that has got the
slot since and is still to be answered. -/
def Timely (s : State) : Op → Prop
  | .nowPush => s.rstack.length < rstackMax
  | .answer d _ => Awaited s d → Current s d
  | _ => True

instance (s : State) (op : Op) : Decidable (Timely s op) := by
  cases op <;> unfold Timely <;> infer_instance

section Invariant

def slotsOf (l : List (Nat × Option Nat)) : List Nat := l.filterMap Prod.snd

/-- What the slots, the destinations and the log have to do with the unfinished calls. -/
structure Inv (s : State) : Prop where
  stack : s.rcur :: s.rstack = (handled s.frames).map Prod.snd ++ [none]
  ids : ((live s.frames).map Prod.fst).Nodup
  older : ∀ p ∈ live s.frames, p.1 < s.next
  apart : (slotsOf (live s.frames)).Nodup
  used : ∀ i, (s.rslot i).used = true ↔ i ∈ slotsOf (live s.frames)
  dests : ∀ d ∈ s.dests, (∀ id, d.owner = some id → id < s.next) ∧
    (∀ p ∈ live s.frames, d.owner = some p.1 → d.slot = p.2) ∧ (d.owner = none → d.slot = none)
  filled : ∀ p ∈ live s.frames, ∀ i ∈ p.2, (s.rslot i).filled = true →
    ∃ d, (s.rslot i).src = some d ∧ d.owner = some p.1 ∧
      .accepted d (s.rslot i).val ∈ s.log
  unfilled : ∀ p ∈ live s.frames, ∀ i ∈ p.2, (s.rslot i).filled = false →
    some p.1 ∉ answered s.log
  once : (answered s.log).Nodup
  past : ∀ owner ∈ answered s.log, ∃ id, owner = some id ∧ id < s.next
  returned : ∀ id v d, .returned id v (some d) ∈ s.log →
    d.owner = some id ∧ .accepted d v ∈ s.log

variable {s s' : State}

theorem handled_sublist (frames : List Frame) : (handled frames).Sublist (live frames) := by
  induction frames with
  | nil => exact List.Sublist.refl _
  | cons f rest ih =>
    cases f with
    | handling id slot => exact ih.cons_cons _
    | waiting id slot r i => exact ih.cons _
    | pump => exact ih

theorem slotsOf_some (id i : Nat) (l : List (Nat × Option Nat)) :
    slotsOf ((id, some i) :: l) = i :: slotsOf l := rfl

theorem mem_slotsOf {l : List (Nat × Option Nat)} {i : Nat} :
    i ∈ slotsOf l ↔ ∃ p ∈ l, p.2 = some i := List.mem_filterMap

theorem answered_snoc (log : List Event) (e : Event) :
    answered (log ++ [e]) = answered log ++ answered [e] := List.filterMap_append

theorem start_inv : Inv start := by
  refine ⟨rfl, List.nodup_nil, ?_, List.nodup_nil, ?_, ?_, ?_, ?_, List.nodup_nil, ?_, ?_⟩
  · exact fun p listed => (List.not_mem_nil listed).elim
  · intro i
    refine ⟨fun used => Bool.noConfusion used, fun listed => (List.not_mem_nil listed).elim⟩
  · exact fun d listed => (List.not_mem_nil listed).elim
  · exact fun p listed => (List.not_mem_nil listed).elim
  · exact fun p listed => (List.not_mem_nil listed).elim
  · exact fun owner listed => (List.not_mem_nil listed).elim
  · exact fun id v d listed => (List.not_mem_nil listed).elim

theorem rslotAlloc_some {rslot : Nat → Slot} {i : Nat} (found : rslotAlloc rslot = some i) :
    (rslot i).used = false := by
  have free := List.find?_some found
  simpa using free

section

variable (inv : Inv s)

include inv

theorem Inv.slot_unique {p q : Nat × Option Nat} (first : p ∈ live s.frames)
    (second : q ∈ live s.frames) (same : p.1 = q.1) : p = q :=
  List.inj_on_of_nodup_map inv.ids first second same

theorem Inv.owner_unique {p q : Nat × Option Nat} {i : Nat} (first : p ∈ live s.frames)
    (second : q ∈ live s.frames) (slot : p.2 = some i) (slot' : q.2 = some i) : p = q := by
  by_contra different
  have apart := List.pairwise_filterMap.mp inv.apart
  have : Std.Symm fun a b : Nat × Option Nat =>
      ∀ x, a.2 = some x → ∀ y, b.2 = some y → x ≠ y :=
    ⟨fun a b ne x left y right equal => ne y right x left equal.symm⟩
  exact List.Pairwise.forall apart first second different i slot i slot' rfl

theorem nowPush_inv (room : s.rstack.length < rstackMax) : Inv (nowPush s) := by
  have fresh : ∀ p ∈ live s.frames, p.1 ≠ s.next :=
    fun p listed => Nat.ne_of_lt (inv.older p listed)
  have unheard : some s.next ∉ answered s.log := by
    intro listed
    obtain ⟨id, equal, below⟩ := inv.past _ listed
    cases equal
    exact Nat.lt_irrefl _ below
  have other : ∀ {i j : Nat}, rslotAlloc s.rslot = some j →
      i ∈ slotsOf (live s.frames) → i ≠ j := by
    rintro i j found listed rfl
    have free := rslotAlloc_some found
    rw [(inv.used i).mpr listed] at free
    exact Bool.noConfusion free
  have kept : ∀ i ∈ slotsOf (live s.frames), (nowPush s).rslot i = s.rslot i := by
    intro i listed
    unfold nowPush
    simp only
    cases found : rslotAlloc s.rslot with
    | none => rfl
    | some j => exact Function.update_of_ne (other found listed) _ _
  refine ⟨?_, ?_, ?_, ?_, ?_, ?_, ?_, ?_, inv.once, ?_, inv.returned⟩
  · change _ :: (if s.rstack.length < rstackMax then _ else _) = _
    rw [if_pos room, inv.stack]
    rfl
  · refine List.nodup_cons.mpr ⟨?_, inv.ids⟩
    intro listed
    obtain ⟨p, member, same⟩ := List.mem_map.mp listed
    exact fresh p member same
  · intro p listed
    rcases List.mem_cons.mp listed with rfl | older
    · exact Nat.lt_succ_self _
    · exact Nat.lt_succ_of_lt (inv.older p older)
  · change (slotsOf ((s.next, rslotAlloc s.rslot) :: live s.frames)).Nodup
    cases found : rslotAlloc s.rslot with
    | none => exact inv.apart
    | some j =>
      rw [slotsOf_some]
      refine List.nodup_cons.mpr ⟨fun listed => ?_, inv.apart⟩
      exact other found listed rfl
  · intro i
    change _ ↔ i ∈ slotsOf ((s.next, rslotAlloc s.rslot) :: live s.frames)
    unfold nowPush
    simp only
    cases found : rslotAlloc s.rslot with
    | none => exact inv.used i
    | some j =>
      rw [slotsOf_some, List.mem_cons]
      by_cases same : i = j
      · rw [same]
        simp only [Function.update_self, freshSlot, true_or]
      · simp only [Function.update_of_ne same, inv.used i, same, false_or]
  · intro d listed
    obtain ⟨below, slots, none⟩ := inv.dests d listed
    refine ⟨fun id owner => Nat.lt_succ_of_lt (below id owner), ?_, none⟩
    intro p member owner
    rcases List.mem_cons.mp member with rfl | older
    · exact absurd (below _ owner) (Nat.lt_irrefl _)
    · exact slots p older owner
  · intro p member i slot full
    rcases List.mem_cons.mp member with rfl | older
    · have found : rslotAlloc s.rslot = some i := slot
      unfold nowPush at full
      simp only [found, Function.update_self] at full
      exact Bool.noConfusion full
    · have listed := mem_slotsOf.mpr ⟨p, older, slot⟩
      rw [kept i listed] at full ⊢
      exact inv.filled p older i slot full
  · intro p member i slot empty
    rcases List.mem_cons.mp member with rfl | older
    · exact unheard
    · have listed := mem_slotsOf.mpr ⟨p, older, slot⟩
      rw [kept i listed] at empty
      exact inv.unfilled p older i slot empty
  · intro owner listed
    obtain ⟨id, equal, below⟩ := inv.past owner listed
    exact ⟨id, equal, Nat.lt_succ_of_lt below⟩

theorem Inv.innermost {p : Nat × Option Nat} (first : (handled s.frames).head? = some p) :
    p ∈ live s.frames ∧ s.rcur = p.2 := by
  obtain ⟨rest, equal⟩ : ∃ rest, handled s.frames = p :: rest := by
    cases shape : handled s.frames with
    | nil => rw [shape] at first; exact absurd first.symm (Option.some_ne_none p)
    | cons q rest =>
      rw [shape] at first
      obtain rfl := Option.some.inj first
      exact ⟨rest, rfl⟩
  constructor
  · apply (handled_sublist s.frames).subset
    rw [equal]
    exact List.mem_cons_self
  · have stack := inv.stack
    rw [equal] at stack
    exact (List.cons.inj stack).1

theorem replyto_inv : Inv (replyto s) := by
  have same : ∀ i, ((replyto s).rslot i).used = (s.rslot i).used ∧
      ((replyto s).rslot i).filled = (s.rslot i).filled ∧
      ((replyto s).rslot i).val = (s.rslot i).val ∧
      ((replyto s).rslot i).src = (s.rslot i).src := by
    intro i
    unfold replyto
    simp only
    cases s.rcur with
    | none => exact ⟨rfl, rfl, rfl, rfl⟩
    | some j =>
      simp only
      by_cases here : i = j
      · rw [here, Function.update_self]
        exact ⟨rfl, rfl, rfl, rfl⟩
      · rw [Function.update_of_ne here]
        exact ⟨rfl, rfl, rfl, rfl⟩
  refine ⟨inv.stack, inv.ids, inv.older, inv.apart, ?_, ?_, ?_, ?_, inv.once, inv.past,
    inv.returned⟩
  · intro i
    rw [(same i).1]
    exact inv.used i
  · intro d listed
    rcases List.mem_cons.mp listed with rfl | older
    · cases first : (handled s.frames).head? with
      | none =>
        refine ⟨fun id owner => ?_, fun p _ owner => ?_, fun _ => ?_⟩
        · exact absurd owner.symm (Option.some_ne_none id)
        · exact absurd owner.symm (Option.some_ne_none p.1)
        · have stack := inv.stack
          rw [List.head?_eq_none_iff.mp first] at stack
          exact (List.cons.inj stack).1
      | some q =>
        obtain ⟨member, slot⟩ := inv.innermost first
        refine ⟨fun id owner => ?_, fun p unfinished owner => ?_, fun owner => ?_⟩
        · have equal : q.1 = id := Option.some.inj owner
          rw [← equal]
          exact inv.older q member
        · rw [← inv.slot_unique member unfinished (Option.some.inj owner)]
          exact slot
        · exact absurd owner (Option.some_ne_none q.1)
    · exact inv.dests d older
  · intro p member i slot full
    rw [(same i).2.1] at full
    rw [(same i).2.2.1, (same i).2.2.2]
    exact inv.filled p member i slot full
  · intro p member i slot empty
    rw [(same i).2.1] at empty
    exact inv.unfilled p member i slot empty

theorem Inv.rejected (d : Dest) (v : Int) :
    Inv { s with log := s.log ++ [.rejected d v] } := by
  have same : answered (s.log ++ [.rejected d v]) = answered s.log :=
    (answered_snoc _ _).trans (List.append_nil _)
  refine ⟨inv.stack, inv.ids, inv.older, inv.apart, inv.used, inv.dests, ?_, ?_, ?_, ?_, ?_⟩
  · intro p member i slot full
    obtain ⟨d', source, owner, heard⟩ := inv.filled p member i slot full
    exact ⟨d', source, owner, List.mem_append_left _ heard⟩
  · intro p member i slot empty
    rw [same]
    exact inv.unfilled p member i slot empty
  · rw [same]
    exact inv.once
  · intro owner listed
    rw [same] at listed
    exact inv.past owner listed
  · intro id v' d' listed
    rcases List.mem_append.mp listed with older | last
    · obtain ⟨owner, heard⟩ := inv.returned id v' d' older
      exact ⟨owner, List.mem_append_left _ heard⟩
    · exact Event.noConfusion (List.mem_singleton.mp last)

theorem Inv.accepted {d : Dest} {i : Nat} (v : Int) (given : d ∈ s.dests) (slot : d.slot = some i)
    (room : Open s i) (current : Current s d) :
    Inv { s with
      rslot := Function.update s.rslot i { s.rslot i with filled := true, val := v, src := d }
      log := s.log ++ [.accepted d v] } := by
  obtain ⟨p, unfinished, owner⟩ := current
  obtain ⟨below, slots, -⟩ := inv.dests d given
  have slot' : p.2 = some i := (slots p unfinished owner).symm.trans slot
  have grown : answered (s.log ++ [.accepted d v]) = answered s.log ++ [d.owner] :=
    answered_snoc _ _
  refine ⟨inv.stack, inv.ids, inv.older, inv.apart, ?_, inv.dests, ?_, ?_, ?_, ?_, ?_⟩
  · intro j
    change (Function.update s.rslot i _ j).used = true ↔ _
    by_cases here : j = i
    · rw [here, Function.update_self]
      exact inv.used i
    · rw [Function.update_of_ne here]
      exact inv.used j
  · intro q member j slotq full
    change (Function.update s.rslot i _ j).filled = true at full
    change ∃ d', (Function.update s.rslot i _ j).src = some d' ∧ _ ∧
      Event.accepted d' (Function.update s.rslot i _ j).val ∈ _
    by_cases here : j = i
    · rw [here] at slotq ⊢
      rw [Function.update_self, inv.owner_unique member unfinished slotq slot']
      exact ⟨d, rfl, owner, List.mem_append_right _ List.mem_cons_self⟩
    · rw [Function.update_of_ne here] at full ⊢
      obtain ⟨d', source, owner', heard⟩ := inv.filled q member j slotq full
      exact ⟨d', source, owner', List.mem_append_left _ heard⟩
  · intro q member j slotq empty
    change (Function.update s.rslot i _ j).filled = false at empty
    have here : j ≠ i := by
      rintro rfl
      rw [Function.update_self] at empty
      exact Bool.noConfusion empty
    rw [Function.update_of_ne here] at empty
    change some q.1 ∉ answered (s.log ++ [.accepted d v])
    rw [grown, List.mem_append, List.mem_singleton, owner]
    rintro (older | equal)
    · exact inv.unfilled q member j slotq empty older
    · have same := inv.slot_unique member unfinished (Option.some.inj equal)
      rw [same, slot'] at slotq
      exact here (Option.some.inj slotq).symm
  · change (answered (s.log ++ [.accepted d v])).Nodup
    rw [grown, List.nodup_append]
    refine ⟨inv.once, List.nodup_singleton _, ?_⟩
    rintro a listed b last rfl
    rw [List.mem_singleton.mp last, owner] at listed
    exact inv.unfilled p unfinished i slot' room.2.2 listed
  · intro a listed
    change a ∈ answered (s.log ++ [.accepted d v]) at listed
    rw [grown, List.mem_append, List.mem_singleton] at listed
    rcases listed with older | last
    · exact inv.past a older
    · rw [last]
      exact ⟨p.1, owner, inv.older p unfinished⟩
  · intro id v' d' listed
    rcases List.mem_append.mp listed with older | last
    · obtain ⟨owner', heard⟩ := inv.returned id v' d' older
      exact ⟨owner', List.mem_append_left _ heard⟩
    · exact Event.noConfusion (List.mem_singleton.mp last)

theorem Inv.awaited {d : Dest} {i : Nat} (slot : d.slot = some i) (room : Open s i) :
    Awaited s d := by
  obtain ⟨p, unfinished, slot'⟩ := mem_slotsOf.mp ((inv.used i).mp room.2.1)
  refine ⟨p, unfinished, slot' ▸ rfl, slot'.trans slot.symm, ?_⟩
  exact inv.unfilled p unfinished i slot' room.2.2

theorem answer_inv {d : Dest} (v : Int) (given : d ∈ s.dests) (timely : Timely s (.answer d v)) :
    Inv (answer s d v) := by
  unfold answer
  cases slot : d.slot with
  | none => exact inv.rejected d v
  | some i =>
    simp only
    by_cases room : Open s i
    · rw [if_pos room]
      exact inv.accepted v given slot room (timely (inv.awaited slot room))
    · rw [if_neg room]
      exact inv.rejected d v

theorem Inv.reframed (frames : live s'.frames = live s.frames)
    (stack : s'.rcur :: s'.rstack = (handled s'.frames).map Prod.snd ++ [none])
    (rslot : s'.rslot = s.rslot) (next : s'.next = s.next) (dests : s'.dests = s.dests)
    (log : s'.log = s.log) : Inv s' := by
  refine ⟨stack, ?_, ?_, ?_, ?_, ?_, ?_, ?_, ?_, ?_, ?_⟩
  all_goals simp only [frames, rslot, next, dests, log]
  · exact inv.ids
  · exact inv.older
  · exact inv.apart
  · exact inv.used
  · exact inv.dests
  · exact inv.filled
  · exact inv.unfilled
  · exact inv.once
  · exact inv.past
  · exact inv.returned

/-- The innermost unfinished call returns. -/
theorem Inv.finish {id : Nat} {slot : Option Nat} {v : Int} {a : Option Dest}
    (first : live s.frames = (id, slot) :: live s'.frames)
    (stack : s'.rcur :: s'.rstack = (handled s'.frames).map Prod.snd ++ [none])
    (rslot : s'.rslot = match slot with | none => s.rslot | some i => rslotFree s.rslot i)
    (next : s'.next = s.next) (dests : s'.dests = s.dests)
    (log : s'.log = s.log ++ [.returned id v a])
    (answer : ∀ d ∈ a, d.owner = some id ∧ .accepted d v ∈ s.log) : Inv s' := by
  have older : ∀ p ∈ live s'.frames, p ∈ live s.frames := by
    intro p member
    rw [first]
    exact List.mem_cons_of_mem _ member
  have same : answered s'.log = answered s.log := by
    rw [log]
    exact (answered_snoc _ _).trans (List.append_nil _)
  have ids := inv.ids
  have apart := inv.apart
  rw [first] at ids apart
  have kept : ∀ p ∈ live s'.frames, ∀ i ∈ p.2, s'.rslot i = s.rslot i := by
    intro p member i slotp
    rw [rslot]
    cases slot with
    | none => rfl
    | some j =>
      refine Function.update_of_ne (fun here => ?_) _ _
      rw [slotsOf_some] at apart
      exact (List.nodup_cons.mp apart).1 (mem_slotsOf.mpr ⟨p, member, here ▸ slotp⟩)
  refine ⟨stack, (List.nodup_cons.mp ids).2, ?_, ?_, ?_, ?_, ?_, ?_, ?_, ?_, ?_⟩
  · intro p member
    rw [next]
    exact inv.older p (older p member)
  · cases slot with
    | none => exact apart
    | some j => exact (List.nodup_cons.mp apart).2
  · intro i
    have used := inv.used i
    rw [first] at used
    rw [rslot]
    cases slot with
    | none => exact used
    | some j =>
      rw [slotsOf_some] at used apart
      by_cases here : i = j
      · rw [here]
        refine ⟨fun freed => ?_, fun listed => ?_⟩
        · unfold rslotFree at freed
          simp only [Function.update_self] at freed
          exact Bool.noConfusion freed
        · exact absurd listed (List.nodup_cons.mp apart).1
      · refine Iff.trans ?_ (used.trans ⟨fun listed => ?_, List.mem_cons_of_mem _⟩)
        · simp only [rslotFree, Function.update_of_ne here]
        · exact (List.mem_cons.mp listed).resolve_left here
  · intro d listed
    rw [dests] at listed
    obtain ⟨below, slots, lost⟩ := inv.dests d listed
    rw [next]
    exact ⟨below, fun p member => slots p (older p member), lost⟩
  · intro p member i slotp full
    rw [kept p member i slotp] at full ⊢
    obtain ⟨d, source, owner, heard⟩ := inv.filled p (older p member) i slotp full
    rw [log]
    exact ⟨d, source, owner, List.mem_append_left _ heard⟩
  · intro p member i slotp empty
    rw [kept p member i slotp] at empty
    rw [same]
    exact inv.unfilled p (older p member) i slotp empty
  · rw [same]
    exact inv.once
  · rw [same, next]
    exact inv.past
  · intro id' v' d listed
    rw [log] at listed ⊢
    rcases List.mem_append.mp listed with before | last
    · obtain ⟨owner, heard⟩ := inv.returned id' v' d before
      exact ⟨owner, List.mem_append_left _ heard⟩
    · cases List.mem_singleton.mp last
      obtain ⟨owner, heard⟩ := answer d rfl
      exact ⟨owner, List.mem_append_left _ heard⟩

theorem nowPop_inv {id : Nat} {slot : Option Nat} {rest : List Frame} (r : Int)
    (frames : s.frames = .handling id slot :: rest) : Inv (nowPop s id rest r) := by
  have stack := inv.stack
  rw [frames] at stack
  obtain ⟨current, saved⟩ := List.cons.inj stack
  have popped : s.rstack.headD none :: s.rstack.tail = (handled rest).map Prod.snd ++ [none] := by
    rw [saved]
    cases handled rest with
    | nil => rfl
    | cons p ps => rfl
  have first : live s.frames = (id, slot) :: live rest := by rw [frames]; rfl
  have nothing : ∀ d ∈ (none : Option Dest), d.owner = some id ∧ .accepted d r ∈ s.log :=
    fun d listed => absurd listed.symm (Option.some_ne_none d)
  unfold nowPop
  cases slot with
  | none =>
    rw [current]
    exact inv.finish first popped rfl rfl rfl rfl nothing
  | some i =>
    rw [current]
    simp only
    by_cases taken : (s.rslot i).taken = true
    · rw [if_pos taken]
      exact inv.reframed first.symm popped rfl rfl rfl rfl
    · rw [if_neg taken]
      exact inv.finish first popped rfl rfl rfl rfl nothing

theorem poll_inv {id slot i : Nat} {r : Int} {rest : List Frame}
    (frames : s.frames = .waiting id slot r i :: rest) : Inv (poll s id slot r i rest) := by
  have stack := inv.stack
  rw [frames] at stack
  have first : live s.frames = (id, some slot) :: live rest := by rw [frames]; rfl
  unfold poll
  simp only
  by_cases goes : i < waitRounds ∧ (s.rslot slot).filled = false
  · rw [if_pos goes]
    exact inv.reframed first.symm stack rfl rfl rfl rfl
  · rw [if_neg goes]
    by_cases full : (s.rslot slot).filled = true
    · have member : (id, some slot) ∈ live s.frames := first ▸ List.mem_cons_self
      obtain ⟨d, source, owner, heard⟩ := inv.filled _ member slot rfl full
      rw [if_pos full]
      refine inv.finish first stack rfl rfl rfl rfl fun d' here => ?_
      rw [source] at here
      obtain rfl := Option.some.inj here
      exact ⟨owner, heard⟩
    · rw [if_neg full]
      refine inv.finish first stack rfl rfl rfl rfl fun d here => ?_
      exact absurd here.symm (Option.some_ne_none d)

theorem step_inv {op : Op} (timely : Timely s op) (goes : step s op = some s') :
    Inv s' := by
  unfold step at goes
  cases op with
  | nowPush =>
    simp only at goes
    split at goes
    · cases goes
    · obtain rfl := Option.some.inj goes
      exact nowPush_inv inv timely
  | replyto =>
    simp only at goes
    split at goes
    · cases goes
    · obtain rfl := Option.some.inj goes
      exact replyto_inv inv
  | answer d v =>
    simp only at goes
    split at goes
    · cases goes
    · rename_i runs
      obtain rfl := Option.some.inj goes
      exact answer_inv inv v (not_not.mp (not_or.mp runs).2) timely
  | nowPop r =>
    simp only at goes
    split at goes
    · rename_i frames
      obtain rfl := Option.some.inj goes
      exact nowPop_inv inv r frames
    · cases goes
  | poll =>
    simp only at goes
    split at goes
    · rename_i frames
      obtain rfl := Option.some.inj goes
      exact poll_inv inv frames
    · cases goes
  | pumped =>
    simp only at goes
    split at goes
    · rename_i frames
      obtain rfl := Option.some.inj goes
      have stack := inv.stack
      rw [frames] at stack
      exact inv.reframed (congrArg live frames).symm stack rfl rfl rfl rfl
    · cases goes

end

theorem run_inv (run : Runs step Timely start s) : Inv s :=
  run.invariant start_inv fun _ _ _ inv timely goes => step_inv inv timely goes

theorem Inv.late (inv : Inv s) {d : Dest} {v : Int} (finished : ¬ Current s d)
    (timely : Timely s (.answer d v)) (goes : step s (.answer d v) = some s') :
    s'.log = s.log ++ [.rejected d v] := by
  have closed : ∀ i, d.slot = some i → ¬ Open s i := fun i slot room =>
    finished (timely (inv.awaited slot room))
  unfold step at goes
  simp only at goes
  split at goes
  · cases goes
  · obtain rfl := Option.some.inj goes
    unfold answer
    cases slot : d.slot with
    | none => rfl
    | some i =>
      simp only
      rw [if_neg (closed i slot)]

end Invariant

/-- In every run of timely operations a `now` call returns the value of an answer only to a
destination of its own, no call gets two answers, and late answers are rejected. -/
theorem replies_reach_caller {s : State} (run : Runs step Timely start s) :
    (∀ id v d, .returned id v (some d) ∈ s.log → d.owner = some id ∧ .accepted d v ∈ s.log) ∧
    (answered s.log).Nodup ∧
    (∀ d v s', ¬ Current s d → Timely s (.answer d v) → step s (.answer d v) = some s' →
      s'.log = s.log ++ [.rejected d v]) :=
  ⟨(run_inv run).returned, (run_inv run).once,
    fun _ _ _ finished timely goes => (run_inv run).late finished timely goes⟩

theorem replies_reach_caller_once : ∃ s : State,
    .returned 0 7 (some ⟨some 0, some 0⟩) ∈ s.log ∧ .accepted ⟨some 0, some 0⟩ 7 ∈ s.log ∧
    (answered s.log).Nodup := by
  obtain ⟨s, goes, log⟩ : ∃ s,
      [Op.nowPush, .replyto, .nowPop 0, .poll, .answer ⟨some 0, some 0⟩ 7, .pumped, .poll].foldlM
        (fun s op => if decide (Timely s op) then step s op else none) start = some s ∧
      s.log = [.accepted ⟨some 0, some 0⟩ 7, .returned 0 7 (some ⟨some 0, some 0⟩)] :=
    ⟨_, rfl, rfl⟩
  have run : Runs step Timely start s :=
    Runs.of_checked _ (fun _ _ meets => of_decide_eq_true meets) _ goes
  have listed : .returned 0 7 (some ⟨some 0, some 0⟩) ∈ s.log := by
    rw [log]
    exact List.mem_cons_of_mem _ List.mem_cons_self
  obtain ⟨own, once, -⟩ := replies_reach_caller run
  exact ⟨s, listed, (own 0 7 _ listed).2, once⟩

/-- A second `now` gets the slot of the first and returns the late answer to the first. -/
theorem reply_reaches_other_caller : ∃ s, Runs step (fun _ _ => True) start s ∧
    ∃ id v d, .returned id v (some d) ∈ s.log ∧ d.owner ≠ some id := by
  obtain ⟨s, goes, log⟩ : ∃ s,
      [Op.nowPush, .replyto, .answer ⟨some 0, some 0⟩ 1, .nowPop 0, .poll, .nowPush, .replyto,
        .nowPop 0, .poll, .answer ⟨some 0, some 0⟩ 2, .pumped, .poll].foldlM step start = some s ∧
      s.log = [.accepted ⟨some 0, some 0⟩ 1, .returned 0 1 (some ⟨some 0, some 0⟩),
        .accepted ⟨some 0, some 0⟩ 2, .returned 1 2 (some ⟨some 0, some 0⟩)] :=
    ⟨_, rfl, rfl⟩
  refine ⟨s, Runs.of_steps _ (fun _ _ _ => trivial) goes, 1, 2, ⟨some 0, some 0⟩, ?_, ?_⟩
  · rw [log]
    exact List.mem_of_getLast? rfl
  · exact fun same => absurd (Option.some.inj same) Nat.zero_ne_one

end XinuRpi5.Cc.ReplySlots
