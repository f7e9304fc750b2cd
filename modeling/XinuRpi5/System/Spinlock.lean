/- source: system/spinlock.c
   digest: The bakery spinlock excludes two cores from its critical section. -/

import Mathlib.Tactic.IntervalCases
import XinuRpi5.Lib.GuardedRuns

/-!
Every read and every write of a lock field is a step of its own. The source reads
`number[i]` once for the comparison with the running maximum and once more for the
assignment, and up to three times in the wait loop, with a read of `number[me]` after
the second and the third of them.
-/

namespace XinuRpi5.System.Spinlock

open Lib.GuardedRuns

def smpNcores : Nat := 4

/-- Where a core is in `spin_lock` and `spin_unlock`. -/
inductive Pc where
  | outside
  /-- The loop for the maximum, about to compare `number[i]` with `max`. -/
  | scan (i max : Nat)
  /-- The comparison held, about to read `number[i]` into `max`. -/
  | take (i : Nat)
  | chosen
  /-- The wait loops, about to read `choosing[i]`. -/
  | gate (i : Nat)
  | first (i : Nat)
  | less (i : Nat)
  | lessOwn (i v : Nat)
  | equal (i : Nat)
  | equalOwn (i v : Nat)
  | critical
  deriving DecidableEq

structure Lock where
  choosing : Nat → Bool
  number : Nat → Nat
  pc : Nat → Pc

/-- `spin_init`, with no core at the lock. -/
def spinInit : Lock := ⟨fun _ => false, fun _ => 0, fun _ => .outside⟩

namespace Lock

def goto (l : Lock) (me : Nat) (pc : Pc) : Lock :=
  { l with pc := fun c => if c = me then pc else l.pc c }

def setChoosing (l : Lock) (me : Nat) (v : Bool) : Lock :=
  { l with choosing := fun c => if c = me then v else l.choosing c }

def setNumber (l : Lock) (me v : Nat) : Lock :=
  { l with number := fun c => if c = me then v else l.number c }

variable (l : Lock) (me : Nat)

@[simp] theorem goto_pc (pc : Pc) : (l.goto me pc).pc me = pc := if_pos rfl

@[simp] theorem goto_number (pc : Pc) : (l.goto me pc).number = l.number := rfl

@[simp] theorem goto_choosing (pc : Pc) : (l.goto me pc).choosing = l.choosing := rfl

@[simp] theorem setNumber_number (v : Nat) : (l.setNumber me v).number me = v := if_pos rfl

@[simp] theorem setNumber_pc (v : Nat) : (l.setNumber me v).pc = l.pc := rfl

@[simp] theorem setNumber_choosing (v : Nat) : (l.setNumber me v).choosing = l.choosing := rfl

@[simp] theorem setChoosing_choosing (v : Bool) : (l.setChoosing me v).choosing me = v := if_pos rfl

@[simp] theorem setChoosing_pc (v : Bool) : (l.setChoosing me v).pc = l.pc := rfl

@[simp] theorem setChoosing_number (v : Bool) : (l.setChoosing me v).number = l.number := rfl

variable {l me} {c : Nat}

theorem goto_pc_of_ne (pc : Pc) (other : c ≠ me) : (l.goto me pc).pc c = l.pc c := if_neg other

theorem setNumber_of_ne (v : Nat) (other : c ≠ me) : (l.setNumber me v).number c = l.number c :=
  if_neg other

theorem setChoosing_of_ne (v : Bool) (other : c ≠ me) :
    (l.setChoosing me v).choosing c = l.choosing c := if_neg other

end Lock

/-- The next read or write of core `me`. -/
def advance (l : Lock) (me : Nat) : Lock :=
  match l.pc me with
  | .outside => (l.setChoosing me true).goto me (.scan 0 0)
  | .scan i max =>
    if i < smpNcores then
      if max < l.number i then l.goto me (.take i) else l.goto me (.scan (i + 1) max)
    else (l.setNumber me ((max + 1) % 4294967296)).goto me .chosen
  | .take i => l.goto me (.scan (i + 1) (l.number i))
  | .chosen => (l.setChoosing me false).goto me (.gate 0)
  | .gate i =>
    if i < smpNcores then
      if i = me then l.goto me (.gate (i + 1))
      else if l.choosing i then l else l.goto me (.first i)
    else l.goto me .critical
  | .first i => if l.number i = 0 then l.goto me (.gate (i + 1)) else l.goto me (.less i)
  | .less i => l.goto me (.lessOwn i (l.number i))
  | .lessOwn i v => if v < l.number me then l.goto me (.first i) else l.goto me (.equal i)
  | .equal i => l.goto me (.equalOwn i (l.number i))
  | .equalOwn i v =>
    if v = l.number me ∧ i < me then l.goto me (.first i) else l.goto me (.gate (i + 1))
  | .critical => (l.setNumber me 0).goto me .outside

def step (l : Lock) (me : Nat) : Option Lock :=
  if me < smpNcores then some (advance l me) else none

/-- All tickets are below the largest `unsigned int`. -/
def Bounded (l : Lock) : Prop := ∀ c, l.number c < 4294967295

section Invariant

def Pc.Choosing : Pc → Prop
  | .scan .. | .take _ | .chosen => True
  | _ => False

def Pc.Ticketed : Pc → Prop
  | .outside | .scan .. | .take _ => False
  | _ => True

/-- The core has read `choosing[i] == 0` in this round. -/
def Pc.Seen (i : Nat) : Pc → Prop
  | .gate k => i < k
  | .first k | .less k | .lessOwn k _ | .equal k | .equalOwn k _ => i ≤ k
  | .critical => True
  | _ => False

/-- The core is through with the wait for core `i`. -/
def Pc.Passed (i : Nat) : Pc → Prop
  | .gate k | .first k | .less k | .lessOwn k _ | .equal k | .equalOwn k _ => i < k
  | .critical => True
  | _ => False

/-- What a core that has seen core `i` not choosing knows of the ticket of `i`, when its own
ticket is `own` and that of `i` is `other`. -/
def Knows (own other i : Nat) : Pc → Prop
  | .lessOwn k v => k = i → own ≤ v → other = 0 ∨ own ≤ other
  | .equal k => k = i → other = 0 ∨ own ≤ other
  | .equalOwn k v => k = i → (other = 0 ∨ own ≤ other) ∧ (v ≠ own → other = 0 ∨ own < other)
  | _ => True

structure CoreOk (l : Lock) (c : Nat) : Prop where
  choosing : l.choosing c = true ↔ (l.pc c).Choosing
  idle : ¬ (l.pc c).Ticketed → l.number c = 0
  ticket : (l.pc c).Ticketed → 0 < l.number c
  small : ∀ i max, l.pc c = .scan i max → max < 4294967295

/-- The order of the tickets of `j` and `i`, as far as `j` relies on it. -/
structure PairOk (l : Lock) (j i : Nat) : Prop where
  scanned : (l.pc j).Seen i → ∀ k max, l.pc i = .scan k max → j < k → l.number j ≤ max
  pending : (l.pc j).Seen i → ∀ k, l.pc i = .take k → j < k → l.number j < l.number k
  knows : Knows (l.number j) (l.number i) i (l.pc j)
  passed : (l.pc j).Passed i → l.number i = 0 ∨ l.number j < l.number i ∨
    (l.number j = l.number i ∧ j < i)

structure LockOk (l : Lock) : Prop where
  core : ∀ c, CoreOk l c
  pair : ∀ j i, j ≠ i → PairOk l j i
  beyond : ∀ c, smpNcores ≤ c → l.pc c = .outside

theorem lockOk_init : LockOk spinInit := by
  refine ⟨fun c => ⟨?_, fun _ => rfl, fun ticketed => ticketed.elim, fun i max at' => ?_⟩, ?_,
    fun _ _ => rfl⟩
  · simp [spinInit, Pc.Choosing]
  · exact absurd at' (by simp [spinInit])
  · intro j i _
    exact ⟨fun seen => seen.elim, fun seen => seen.elim, trivial, fun passed => passed.elim⟩

/-- What a step of core `me` can do. -/
inductive Move (l : Lock) (me : Nat) : Lock → Prop where
  | enter (here : l.pc me = .outside) :
      Move l me ((l.setChoosing me true).goto me (.scan 0 0))
  | higher {i max : Nat} (here : l.pc me = .scan i max) (above : max < l.number i) :
      Move l me (l.goto me (.take i))
  | lower {i max : Nat} (here : l.pc me = .scan i max) (below : l.number i ≤ max) :
      Move l me (l.goto me (.scan (i + 1) max))
  | write {i max : Nat} (here : l.pc me = .scan i max) (all : smpNcores ≤ i) :
      Move l me ((l.setNumber me ((max + 1) % 4294967296)).goto me .chosen)
  | reread {i : Nat} (here : l.pc me = .take i) :
      Move l me (l.goto me (.scan (i + 1) (l.number i)))
  | publish (here : l.pc me = .chosen) : Move l me ((l.setChoosing me false).goto me (.gate 0))
  | skip (here : l.pc me = .gate me) : Move l me (l.goto me (.gate (me + 1)))
  | spin : Move l me l
  | look {i : Nat} (here : l.pc me = .gate i) (calm : l.choosing i = false) :
      Move l me (l.goto me (.first i))
  | acquire {i : Nat} (here : l.pc me = .gate i) (all : smpNcores ≤ i) :
      Move l me (l.goto me .critical)
  | free {i : Nat} (here : l.pc me = .first i) (zero : l.number i = 0) :
      Move l me (l.goto me (.gate (i + 1)))
  | held {i : Nat} (here : l.pc me = .first i) : Move l me (l.goto me (.less i))
  | readLess {i : Nat} (here : l.pc me = .less i) :
      Move l me (l.goto me (.lessOwn i (l.number i)))
  | waitLess {i v : Nat} (here : l.pc me = .lessOwn i v) : Move l me (l.goto me (.first i))
  | notLess {i v : Nat} (here : l.pc me = .lessOwn i v) (above : l.number me ≤ v) :
      Move l me (l.goto me (.equal i))
  | readEqual {i : Nat} (here : l.pc me = .equal i) :
      Move l me (l.goto me (.equalOwn i (l.number i)))
  | waitEqual {i v : Nat} (here : l.pc me = .equalOwn i v) : Move l me (l.goto me (.first i))
  | notEqual {i v : Nat} (here : l.pc me = .equalOwn i v) (past : v = l.number me → me ≤ i) :
      Move l me (l.goto me (.gate (i + 1)))
  | leave (here : l.pc me = .critical) : Move l me ((l.setNumber me 0).goto me .outside)

variable {l l' : Lock} {me : Nat}

theorem advance_moves (l : Lock) (me : Nat) : Move l me (advance l me) := by
  unfold advance
  split
  next here => exact .enter here
  next i max here =>
    split_ifs with inside above
    · exact .higher here above
    · exact .lower here (Nat.not_lt.mp above)
    · exact .write here (Nat.not_lt.mp inside)
  next i here => exact .reread here
  next here => exact .publish here
  next i here =>
    split_ifs with inside own busy
    · subst own
      exact .skip here
    · exact .spin
    · exact .look here (Bool.eq_false_iff.mpr busy)
    · exact .acquire here (Nat.not_lt.mp inside)
  next i here =>
    split_ifs with zero
    · exact .free here zero
    · exact .held here
  next i here => exact .readLess here
  next i v here =>
    split_ifs with below
    · exact .waitLess here
    · exact .notLess here (Nat.not_lt.mp below)
  next i here => exact .readEqual here
  next i v here =>
    split_ifs with same
    · exact .waitEqual here
    · exact .notEqual here fun equal => Nat.not_lt.mp fun before => same ⟨equal, before⟩
  next here => exact .leave here

theorem Move.others (move : Move l me l') {c : Nat} (other : c ≠ me) :
    l'.pc c = l.pc c ∧ l'.number c = l.number c ∧ l'.choosing c = l.choosing c := by
  cases move with
  | spin => exact ⟨rfl, rfl, rfl⟩
  | enter | publish =>
    exact ⟨Lock.goto_pc_of_ne _ other, rfl, Lock.setChoosing_of_ne _ other⟩
  | write | leave => exact ⟨Lock.goto_pc_of_ne _ other, Lock.setNumber_of_ne _ other, rfl⟩
  | _ => exact ⟨Lock.goto_pc_of_ne _ other, rfl, rfl⟩

theorem coreOk_move (h : LockOk l) (bound : Bounded l) (move : Move l me l') (c : Nat) :
    CoreOk l' c := by
  have before := h.core c
  by_cases own : c = me
  · subst own
    obtain ⟨choosing, idle, ticket, small⟩ := before
    cases move with
    | spin => exact ⟨choosing, idle, ticket, small⟩
    | @write _ max here all =>
      have fits := small _ _ here
      have positive : 0 < (max + 1) % 4294967296 := by omega
      rw [here] at choosing
      refine ⟨?_, ?_, ?_, ?_⟩ <;> simp_all [Pc.Choosing, Pc.Ticketed]
    | reread here =>
      have fits : ∀ i, l.number i < 4294967295 := bound
      rw [here] at choosing idle
      refine ⟨?_, ?_, ?_, ?_⟩ <;> simp_all [Pc.Choosing, Pc.Ticketed]
    | lower here =>
      have fits := small _ _ here
      rw [here] at choosing idle
      refine ⟨?_, ?_, ?_, ?_⟩ <;> simp_all [Pc.Choosing, Pc.Ticketed]
    | enter here | higher here | publish here | skip here | look here | acquire here | free here
    | held here | readLess here | waitLess here | notLess here | readEqual here | waitEqual here
    | notEqual here | leave here =>
      rw [here] at choosing idle ticket
      refine ⟨?_, ?_, ?_, ?_⟩ <;> simp_all [Pc.Choosing, Pc.Ticketed]
  · obtain ⟨pc, number, choosing⟩ := move.others own
    refine ⟨?_, ?_, ?_, ?_⟩
    · rw [choosing, pc]
      exact before.choosing
    · rw [number, pc]
      exact before.idle
    · rw [number, pc]
      exact before.ticket
    · rw [pc]
      exact before.small

variable {i : Nat} {pc : Pc}

theorem pairOk_goto (h : PairOk l me i) (other : me ≠ i)
    (seen : pc.Seen i → (l.pc me).Seen i ∨ ¬ (l.pc i).Choosing)
    (knows : Knows (l.number me) (l.number i) i pc)
    (passed : pc.Passed i → l.number i = 0 ∨ l.number me < l.number i ∨
      (l.number me = l.number i ∧ me < i)) : PairOk (l.goto me pc) me i := by
  have same : (l.goto me pc).pc i = l.pc i := Lock.goto_pc_of_ne pc other.symm
  refine ⟨?_, ?_, ?_, ?_⟩ <;> rw [Lock.goto_pc, Lock.goto_number]
  · rw [same]
    intro now k max here before
    rcases seen now with earlier | calm
    · exact h.scanned earlier k max here before
    · rw [here] at calm
      exact absurd trivial calm
  · rw [same]
    intro now k here before
    rcases seen now with earlier | calm
    · exact h.pending earlier k here before
    · rw [here] at calm
      exact absurd trivial calm
  · exact knows
  · exact passed

/-- A core that moves keeps what it relies on. -/
theorem pairOk_move_own (h : LockOk l) (move : Move l me l') {i : Nat} (other : me ≠ i) :
    PairOk l' me i := by
  have pair := h.pair me i other
  have knows := pair.knows
  have passed := pair.passed
  cases move with
  | spin => exact pair
  | enter here | publish here =>
    refine ⟨?_, ?_, ?_, ?_⟩ <;> simp [Pc.Seen, Pc.Passed, Knows]
  | write here | leave here =>
    refine ⟨?_, ?_, ?_, ?_⟩ <;> simp [Pc.Seen, Pc.Passed, Knows]
  | higher here | lower here | reread here =>
    exact pairOk_goto pair other False.elim trivial False.elim
  | held here | waitLess here | waitEqual here =>
    rw [here] at passed
    exact pairOk_goto pair other (fun seen => .inl (by rw [here]; exact seen)) trivial passed
  | skip here =>
    rw [here] at passed
    have before : i < me + 1 → i < me := fun seen => by omega
    exact pairOk_goto pair other (fun seen => .inl (by rw [here]; exact before seen)) trivial
      fun seen => passed (before seen)
  | @look k here free =>
    rw [here] at passed
    refine pairOk_goto pair other (fun seen => ?_) trivial passed
    rcases Nat.lt_or_eq_of_le seen with earlier | rfl
    · exact .inl (by rw [here]; exact earlier)
    · right
      rw [← (h.core i).choosing, free]
      exact Bool.false_ne_true
  | @acquire k here all =>
    rw [here] at passed
    by_cases inside : i < smpNcores
    · have earlier : i < k := Nat.lt_of_lt_of_le inside all
      exact pairOk_goto pair other (fun _ => .inl (by rw [here]; exact earlier)) trivial
        fun _ => passed earlier
    · have off := h.beyond i (Nat.not_lt.mp inside)
      have none : l.number i = 0 := (h.core i).idle (by rw [off]; exact id)
      exact pairOk_goto pair other (fun _ => .inr (by rw [off]; exact id)) trivial
        fun _ => .inl none
  | @free k here zero =>
    rw [here] at passed
    refine pairOk_goto pair other (fun seen => .inl ?_) trivial fun seen => ?_
    · rw [here]
      exact Nat.le_of_lt_succ seen
    · rcases Nat.lt_or_eq_of_le (Nat.le_of_lt_succ seen) with earlier | rfl
      · exact passed earlier
      · exact .inl zero
  | @readLess k here =>
    rw [here] at passed
    refine pairOk_goto pair other (fun seen => .inl (by rw [here]; exact seen)) ?_ passed
    rintro rfl above
    exact .inr above
  | @notLess k v here above =>
    rw [here] at passed knows
    exact pairOk_goto pair other (fun seen => .inl (by rw [here]; exact seen))
      (fun same => knows same above) passed
  | @readEqual k here =>
    rw [here] at passed knows
    refine pairOk_goto pair other (fun seen => .inl (by rw [here]; exact seen)) ?_ passed
    rintro rfl
    have bounds := knows rfl
    exact ⟨bounds, fun differs => by omega⟩
  | @notEqual k v here past =>
    rw [here] at passed knows
    refine pairOk_goto pair other (fun seen => .inl ?_) trivial fun seen => ?_
    · rw [here]
      exact Nat.le_of_lt_succ seen
    · rcases Nat.lt_or_eq_of_le (Nat.le_of_lt_succ seen) with earlier | rfl
      · exact passed earlier
      · have bounds := knows rfl
        omega

theorem Pc.Seen.ticketed (seen : pc.Seen i) : pc.Ticketed := by
  cases pc <;> first | exact seen | trivial

theorem Pc.Passed.seen (passed : pc.Passed i) : pc.Seen i := by
  cases pc <;> first | exact passed | exact Nat.le_of_lt passed

theorem Knows.of_later {own other later : Nat} (h : Knows own other i pc)
    (higher : pc.Seen i → later = 0 ∨ own < later) : Knows own later i pc := by
  cases pc with
  | lessOwn k v =>
    rintro rfl _
    exact (higher (Nat.le_refl k)).imp_right Nat.le_of_lt
  | equal k =>
    rintro rfl
    exact (higher (Nat.le_refl k)).imp_right Nat.le_of_lt
  | equalOwn k v =>
    rintro rfl
    exact ⟨(higher (Nat.le_refl k)).imp_right Nat.le_of_lt, fun _ => higher (Nat.le_refl k)⟩
  | _ => trivial

section

variable (move : Move l me l')

include move

theorem Move.ticket : l'.number me = l.number me ∨
    (l.pc me = .critical ∧ l'.number me = 0) ∨
    ∃ k max, l.pc me = .scan k max ∧ smpNcores ≤ k ∧ l'.number me = (max + 1) % 4294967296 := by
  cases move with
  | write here all => exact .inr (.inr ⟨_, _, here, all, by simp⟩)
  | leave here => exact .inr (.inl ⟨here, by simp⟩)
  | _ => exact .inl rfl

theorem LockOk.later (h : LockOk l) {j : Nat} (other : j ≠ me) (seen : (l.pc j).Seen me) :
    l'.number me = l.number me ∨ l'.number me = 0 ∨ l.number j < l'.number me := by
  rcases move.ticket with same | ⟨_, zero⟩ | ⟨k, max, here, all, written⟩
  · exact .inl same
  · exact .inr (.inl zero)
  · have inside : j < smpNcores := by
      by_contra beyond
      rw [h.beyond j (Nat.not_lt.mp beyond)] at seen
      exact seen
    have below := (h.pair j me other).scanned seen k max here (Nat.lt_of_lt_of_le inside all)
    have limit := (h.core me).small k max here
    omega

/-- What the core that moves has found out about a ticket that stands still. -/
theorem Move.found {j t : Nat} (ticket : l.number j = t)
    (scanned : ∀ k max, l.pc me = .scan k max → j < k → t ≤ max)
    (pending : ∀ k, l.pc me = .take k → j < k → t < l.number k) :
    (∀ k max, l'.pc me = .scan k max → j < k → t ≤ max) ∧
      ∀ k, l'.pc me = .take k → j < k → t < l'.number k := by
  constructor
  · intro k max here before
    cases move with
    | spin => exact scanned k max here before
    | enter => simp at here; omega
    | @lower i top at' below =>
      rw [Lock.goto_pc] at here
      obtain ⟨rfl, rfl⟩ := Pc.scan.inj here
      rcases Nat.lt_or_eq_of_le (Nat.le_of_lt_succ before) with earlier | rfl
      · exact scanned i top at' earlier
      · exact ticket ▸ below
    | @reread i at' =>
      rw [Lock.goto_pc] at here
      obtain ⟨rfl, rfl⟩ := Pc.scan.inj here
      rcases Nat.lt_or_eq_of_le (Nat.le_of_lt_succ before) with earlier | rfl
      · exact Nat.le_of_lt (pending i at' earlier)
      · exact ticket.ge
    | _ => simp at here
  · intro k here before
    cases move with
    | spin => exact pending k here before
    | @higher i top at' above =>
      rw [Lock.goto_pc] at here
      obtain rfl := Pc.take.inj here
      exact Nat.lt_of_le_of_lt (scanned i top at' before) above
    | _ => simp at here

/-- A core keeps what it relies on when the other one moves. -/
theorem pairOk_move_other (h : LockOk l) {j : Nat} (other : j ≠ me) :
    PairOk l' j me := by
  have pair := h.pair j me other
  have later := h.later move other
  obtain ⟨pc, number, _⟩ := move.others other
  refine ⟨?_, ?_, ?_, ?_⟩
  · rw [pc, number]
    exact fun seen => (move.found rfl (pair.scanned seen) (pair.pending seen)).1
  · rw [pc, number]
    exact fun seen => (move.found rfl (pair.scanned seen) (pair.pending seen)).2
  · rw [pc, number]
    by_cases same : l'.number me = l.number me
    · rw [same]
      exact pair.knows
    · exact pair.knows.of_later fun seen => (later seen).resolve_left same
  · rw [pc, number]
    intro passed
    rcases later passed.seen with same | zero | higher
    · rw [same]
      exact pair.passed passed
    · exact .inl zero
    · exact .inr (.inl higher)

theorem pairOk_move_third (h : LockOk l) {j i : Nat} (differ : j ≠ i) (left : j ≠ me)
    (right : i ≠ me) : PairOk l' j i := by
  have pair := h.pair j i differ
  obtain ⟨pcJ, numberJ, _⟩ := move.others left
  obtain ⟨pcI, numberI, _⟩ := move.others right
  refine ⟨?_, ?_, ?_, ?_⟩
  · rw [pcJ, pcI, numberJ]
    exact pair.scanned
  · rw [pcJ, pcI, numberJ]
    intro seen k here before
    have higher := pair.pending seen k here before
    by_cases moved : k = me
    · subst moved
      rcases move.ticket with same | ⟨inside, _⟩ | ⟨_, _, scanning, _, _⟩
      · rw [same]
        exact higher
      · have positive := (h.core j).ticket seen.ticketed
        have order := (h.pair k j (Nat.ne_of_gt before)).passed (by rw [inside]; trivial)
        omega
      · have none := (h.core k).idle (by rw [scanning]; exact id)
        omega
    · rw [(move.others moved).2.1]
      exact higher
  · rw [pcJ, numberJ, numberI]
    exact pair.knows
  · rw [pcJ, numberJ, numberI]
    exact pair.passed

theorem lockOk_move (h : LockOk l) (bound : Bounded l) (inside : me < smpNcores) : LockOk l' := by
  refine ⟨fun c => coreOk_move h bound move c, ?_, ?_⟩
  · intro j i differ
    by_cases left : j = me
    · subst left
      exact pairOk_move_own h move differ
    · by_cases right : i = me
      · subst right
        exact pairOk_move_other move h differ
      · exact pairOk_move_third move h differ left right
  · intro c beyond
    rw [(move.others (by omega : c ≠ me)).1]
    exact h.beyond c beyond

end

end Invariant

/-- In every run whose tickets stay below the largest `unsigned int` no two cores are in the
critical section. -/
theorem bakery_mutual_exclusion {l : Lock}
    (run : Runs step (fun before _ => Bounded before) spinInit l) {a b : Nat}
    (first : l.pc a = .critical) (second : l.pc b = .critical) : a = b := by
  have ok : LockOk l := by
    refine run.invariant lockOk_init ?_
    intro before me after ok bound moved
    unfold step at moved
    split_ifs at moved with inside
    obtain rfl := Option.some.inj moved
    exact lockOk_move (advance_moves before me) ok bound inside
  by_contra differ
  have here := (ok.core a).ticket (by rw [first]; trivial)
  have there := (ok.core b).ticket (by rw [second]; trivial)
  have ahead := (ok.pair a b differ).passed (by rw [first]; trivial)
  have behind := (ok.pair b a (Ne.symm differ)).passed (by rw [second]; trivial)
  omega

private def solo : Nat → Lock
  | 0 => spinInit
  | n + 1 => advance (solo n) 0

private theorem solo_bounded (n : Nat) (low : n < 7) : Bounded (solo n) := by
  intro c
  interval_cases n <;> rcases c with _ | c <;> first | decide | exact Nat.zero_lt_succ _

private theorem solo_run (n : Nat) (low : n ≤ 7) :
    Runs step (fun before _ => Bounded before) spinInit (solo n) := by
  induction n with
  | zero => exact Runs.refl _
  | succ n ih => exact (ih (by omega)).snoc (solo_bounded n low) (if_pos (by decide))

/-- Core 1 draws its ticket while core 0 is about to store its own: the tickets are equal. -/
private def contest : Nat → Lock
  | 0 => solo 5
  | n + 1 => advance (contest n) (if n < 8 then 1 else 0)

private theorem contest_bounded (n : Nat) (low : n < 22) : Bounded (contest n) := by
  intro c
  interval_cases n <;> rcases c with _ | _ | c <;> first | decide | exact Nat.zero_lt_succ _

private theorem contest_run (n : Nat) (low : n ≤ 22) :
    Runs step (fun before _ => Bounded before) spinInit (contest n) := by
  induction n with
  | zero => exact solo_run 5 (by decide)
  | succ n ih =>
    refine (ih (by omega)).snoc (contest_bounded n low) (if_pos ?_)
    split_ifs <;> decide

theorem bakery_mutual_exclusion_contest :
    (contest 22).number 0 = (contest 22).number 1 ∧ (contest 22).pc 0 = .critical ∧
      ∀ b, (contest 22).pc b = .critical → 0 = b := by
  have inside : (contest 22).pc 0 = .critical := by decide
  exact ⟨by decide, inside, fun _ second =>
    bakery_mutual_exclusion (contest_run 22 (Nat.le_refl _)) inside second⟩

section FirstCome

variable {l l' : Lock} {a b t me : Nat}

/-- Core `a` has ticket `t`, and core `b` has come, if at all, since then. -/
structure Behind (a b t : Nat) (l : Lock) : Prop where
  waits : (l.pc a).Ticketed
  ticket : l.number a = t
  scanned : ∀ k max, l.pc b = .scan k max → a < k → t ≤ max
  pending : ∀ k, l.pc b = .take k → a < k → t < l.number k
  later : (l.pc b).Ticketed → t < l.number b

theorem lockOk_reached (run : Runs step (fun before _ => Bounded before) spinInit l) : LockOk l := by
  refine run.invariant lockOk_init fun before c after ok bound moved => ?_
  unfold step at moved
  split_ifs at moved with inside
  obtain rfl := Option.some.inj moved
  exact lockOk_move (advance_moves before c) ok bound inside

/-- The ticket that core `c` would read again to take a higher one is still there. -/
theorem LockOk.keeps_higher (h : LockOk l) (waits : (l.pc a).Ticketed) {c : Nat}
    (higher : l.number a < l.number c) : l.pc c ≠ .critical ∧ (l.pc c).Ticketed := by
  constructor
  · intro inside
    have differ : c ≠ a := fun same => by subst same; exact absurd higher (lt_irrefl _)
    have positive := (h.core a).ticket waits
    have order := (h.pair c a differ).passed (by rw [inside]; trivial)
    omega
  · by_contra none
    have zero := (h.core c).idle none
    omega

theorem Behind.own (behind : Behind a b t l) (move : Move l a l')
    (differ : b ≠ a) (outside : l.pc a ≠ .critical) : Behind a b t l' := by
  obtain ⟨waits, ticket, scanned, pending, later⟩ := behind
  obtain ⟨pcB, numberB, _⟩ := move.others differ
  have same : l'.number a = l.number a ∧ (l'.pc a).Ticketed := by
    cases move with
    | spin => exact ⟨rfl, waits⟩
    | leave here => exact absurd here outside
    | enter here | higher here | lower here | write here | reread here =>
      rw [here] at waits
      exact waits.elim
    | _ => exact ⟨rfl, by simp [Pc.Ticketed]⟩
  refine ⟨same.2, same.1.trans ticket, ?_, ?_, ?_⟩
  · rw [pcB]
    exact scanned
  · rw [pcB]
    intro k here before
    rw [(move.others (Nat.ne_of_gt before)).2.1]
    exact pending k here before
  · rw [pcB, numberB]
    exact later

theorem Behind.other (h : LockOk l) (behind : Behind a b t l)
    (inside : a < smpNcores) (move : Move l b l') (differ : a ≠ b) : Behind a b t l' := by
  obtain ⟨waits, ticket, scanned, pending, later⟩ := behind
  obtain ⟨pcA, numberA, _⟩ := move.others differ
  have small := (h.core b).small
  have found := move.found ticket scanned pending
  refine ⟨pcA ▸ waits, numberA.trans ticket, found.1, found.2, ?_⟩
  · intro ticketed
    cases move with
    | spin => exact later ticketed
    | @write i max here all =>
      have fits := small _ _ here
      have low := scanned _ _ here (Nat.lt_of_lt_of_le inside all)
      change t < (l.setNumber b ((max + 1) % 4294967296)).number b
      rw [Lock.setNumber_number]
      omega
    | enter | higher | lower | reread | leave => simp [Pc.Ticketed] at ticketed
    | publish here | skip here | look here | acquire here | free here | held here | readLess here
    | waitLess here | notLess here | readEqual here | waitEqual here | notEqual here =>
      exact later (by rw [here]; trivial)

theorem Behind.third (h : LockOk l) (behind : Behind a b t l) (move : Move l me l')
    (left : a ≠ me) (right : b ≠ me) : Behind a b t l' := by
  obtain ⟨waits, ticket, scanned, pending, later⟩ := behind
  obtain ⟨pcA, numberA, _⟩ := move.others left
  obtain ⟨pcB, numberB, _⟩ := move.others right
  refine ⟨pcA ▸ waits, numberA.trans ticket, pcB ▸ scanned, ?_, ?_⟩
  · rw [pcB]
    intro k here before
    have higher := pending k here before
    by_cases moved : k = me
    · subst moved
      obtain ⟨waiting, ticketed⟩ := h.keeps_higher waits (ticket.symm ▸ higher)
      rcases move.ticket with same | ⟨inside, _⟩ | ⟨_, _, scanning, _, _⟩
      · rw [same]
        exact higher
      · exact absurd inside waiting
      · rw [scanning] at ticketed
        exact ticketed.elim
    · rw [(move.others moved).2.1]
      exact higher
  · rw [pcB, numberB]
    exact later

/-- A core that comes to the lock while another one waits with a ticket does not enter before
that one does. -/
theorem bakery_first_come (reached : Runs step (fun before _ => Bounded before) spinInit l)
    (waits : (l.pc a).Ticketed) (absent : l.pc b = .outside)
    (meanwhile : Runs step (fun before _ => Bounded before ∧ before.pc a ≠ .critical) l l') :
    l'.pc b ≠ .critical := by
  have start := lockOk_reached reached
  have inside : a < smpNcores := by
    by_contra beyond
    rw [start.beyond a (Nat.not_lt.mp beyond)] at waits
    exact waits
  have differ : a ≠ b := by
    rintro rfl
    rw [absent] at waits
    exact waits
  have kept : LockOk l' ∧ Behind a b (l.number a) l' := by
    refine meanwhile.invariant (I := fun s => LockOk s ∧ Behind a b (l.number a) s)
      ⟨start, waits, rfl, ?_, ?_, ?_⟩ ?_
    · simp [absent]
    · simp [absent]
    · rw [absent]
      exact False.elim
    · rintro before me after ⟨ok, behind⟩ ⟨bound, out⟩ moved
      unfold step at moved
      split_ifs at moved with core
      obtain rfl := Option.some.inj moved
      have move := advance_moves before me
      refine ⟨lockOk_move move ok bound core, ?_⟩
      by_cases left : a = me
      · subst left
        exact behind.own move differ.symm out
      · by_cases right : b = me
        · subst right
          exact behind.other ok inside move differ
        · exact behind.third ok move left right
  intro critical
  obtain ⟨ok, behind⟩ := kept
  have later := behind.later (by rw [critical]; trivial)
  have positive := (start.core a).ticket waits
  have passed := (ok.pair b a differ.symm).passed (by rw [critical]; trivial)
  have ticket := behind.ticket
  omega

/-- Core 1 comes when core 0 has its ticket, and both are on their way to the critical section. -/
private def joined : Nat → Lock
  | 0 => solo 7
  | n + 1 => advance (joined n) 1

private theorem joined_calm (n : Nat) (low : n < 12) :
    Bounded (joined n) ∧ (joined n).pc 0 ≠ .critical := by
  constructor
  · intro c
    interval_cases n <;> rcases c with _ | _ | c <;> first | decide | exact Nat.zero_lt_succ _
  · interval_cases n <;> decide

private theorem joined_run (n : Nat) (low : n ≤ 12) :
    Runs step (fun before _ => Bounded before ∧ before.pc 0 ≠ .critical) (solo 7) (joined n) := by
  induction n with
  | zero => exact Runs.refl _
  | succ n ih => exact (ih (by omega)).snoc (joined_calm n low) (if_pos (by decide))

theorem bakery_first_come_joined : (joined 12).pc 1 ≠ .critical :=
  bakery_first_come (a := 0) (solo_run 7 (by decide))
    (by rw [show (solo 7).pc 0 = .gate 0 from rfl]; trivial) (by decide)
    (joined_run 12 (Nat.le_refl _))

end FirstCome

end XinuRpi5.System.Spinlock
