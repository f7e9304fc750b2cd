/- source: none (library)
   digest: A queue with priorities that can change while items wait, and its scan for the next. -/

import Mathlib.Data.List.Induction
import Mathlib.Data.List.Nodup
import Mathlib.Order.Lattice

namespace XinuRpi5.Lib.StableQueue

variable {α β : Type*}

/-- The items in the order in which they came, and the priority that each has now. -/
structure Queue (α β : Type*) where
  items : List α
  prio : α → β

section Scan

variable [LinearOrder β] {prio : α → β} {xs : List α} {b c : α}

/-- `b` is the earliest item of the list that no other exceeds. -/
def First (prio : α → β) (xs : List α) (b : α) : Prop :=
  ∃ front back, xs = front ++ b :: back ∧ (∀ x ∈ front, prio x < prio b) ∧
    ∀ x ∈ back, prio x ≤ prio b

theorem First.alone (prio : α → β) (b : α) : First prio [b] b :=
  ⟨[], [], rfl, fun _ listed => absurd listed List.not_mem_nil,
    fun _ listed => absurd listed List.not_mem_nil⟩

theorem First.keep (first : First prio xs b) (other : ¬ prio b < prio c) :
    First prio (xs ++ [c]) b := by
  obtain ⟨front, back, rfl, before, behind⟩ := first
  refine ⟨front, back ++ [c], by simp, before, fun x listed => ?_⟩
  rcases List.mem_append.mp listed with old | new
  · exact behind x old
  · obtain rfl := List.mem_singleton.mp new
    exact le_of_not_gt other

theorem First.take (first : First prio xs b) (better : prio b < prio c) :
    First prio (xs ++ [c]) c := by
  obtain ⟨front, back, rfl, before, behind⟩ := first
  refine ⟨front ++ b :: back, [], rfl, fun x listed => ?_,
    fun _ listed => absurd listed List.not_mem_nil⟩
  rcases List.mem_append.mp listed with early | rest
  · exact lt_trans (before x early) better
  · rcases List.mem_cons.mp rest with rfl | late
    · exact better
    · exact lt_of_le_of_lt (behind x late) better

theorem exists_first (prio : α → β) (some : xs ≠ []) : ∃ b, First prio xs b := by
  induction xs using List.reverseRecOn with
  | nil => exact absurd rfl some
  | append_singleton xs c ih =>
    by_cases none : xs = []
    · rw [none]
      exact ⟨c, .alone prio c⟩
    · obtain ⟨b, first⟩ := ih none
      by_cases better : prio b < prio c
      · exact ⟨c, first.take better⟩
      · exact ⟨b, first.keep better⟩

end Scan

namespace Queue

def push (q : Queue α β) (x : α) : Queue α β := { q with items := q.items ++ [x] }

def setPrio [DecidableEq α] (q : Queue α β) (x : α) (p : β) : Queue α β :=
  { q with prio := Function.update q.prio x p }

variable [LinearOrder β]

def next (q : Queue α β) : Option α :=
  q.items.find? fun x => q.items.all fun y => q.prio y ≤ q.prio x

def pop [DecidableEq α] (q : Queue α β) : Option α × Queue α β :=
  match q.next with
  | none => (none, q)
  | some x => (some x, { q with items := q.items.erase x })

theorem next_first {q : Queue α β} {b : α} (first : First q.prio q.items b) :
    q.next = some b := by
  obtain ⟨front, back, split, before, behind⟩ := first
  have listed : b ∈ q.items := by
    rw [split]
    exact List.mem_append_right front List.mem_cons_self
  have highest : (q.items.all fun y => q.prio y ≤ q.prio b) = true := by
    rw [List.all_eq_true]
    intro y here
    rw [split] at here
    apply decide_eq_true
    rcases List.mem_append.mp here with early | rest
    · exact le_of_lt (before y early)
    · rcases List.mem_cons.mp rest with rfl | late
      · exact le_refl _
      · exact behind y late
  have lower : ∀ x ∈ front, ¬ (q.items.all fun y => q.prio y ≤ q.prio x) = true := by
    intro x early all
    have below := of_decide_eq_true (List.all_eq_true.mp all b listed)
    exact absurd (before x early) (not_lt_of_ge below)
  unfold next
  rw [List.find?_eq_some_iff_append]
  exact ⟨highest, front, back, split, fun x early => by simpa using lower x early⟩

theorem pop_first [DecidableEq α] {q : Queue α β} {b : α} (first : First q.prio q.items b) :
    q.pop = (some b, { q with items := q.items.erase b }) := by
  unfold pop
  rw [next_first first]

/-- At most `n` of the items are served before `x`, as long as priorities stay. -/
def Waits (q : Queue α β) (x : α) (n : Nat) : Prop :=
  ∃ front back, q.items = front ++ x :: back ∧
    front.countP (fun y => q.prio x ≤ q.prio y) + back.countP (fun y => q.prio x < q.prio y) ≤ n

variable {q : Queue α β} {x y : α} {n : Nat}

theorem Waits.push (waits : q.Waits x n) (low : q.prio y ≤ q.prio x) : (q.push y).Waits x n := by
  obtain ⟨front, back, split, few⟩ := waits
  refine ⟨front, back ++ [y], by simp [Queue.push, split], ?_⟩
  have behind : [y].countP (fun y => q.prio x < q.prio y) = 0 := by simp [low]
  change front.countP (fun y => q.prio x ≤ q.prio y) +
    (back ++ [y]).countP (fun y => q.prio x < q.prio y) ≤ n
  rw [List.countP_append, behind]
  exact few

theorem Waits.pop [DecidableEq α] (waits : q.Waits x n) :
    q.pop.1 = some x ∨ 0 < n ∧ q.pop.2.Waits x (n - 1) := by
  obtain ⟨front, back, split, few⟩ := waits
  have some : q.items ≠ [] := by simp [split]
  obtain ⟨b, first⟩ := exists_first q.prio some
  rw [pop_first first]
  obtain ⟨before, behind, split', above, below⟩ := first
  have off : b ∉ before := fun early => lt_irrefl _ (above b early)
  have rest : q.items.erase b = before ++ behind := by
    rw [split', List.erase_append_right _ off, List.erase_cons_head]
  rw [rest]
  rw [split, List.append_eq_append_iff] at split'
  rcases split' with ⟨as, rfl, tail⟩ | ⟨as, rfl, tail⟩
  · cases as with
    | nil =>
      cases tail
      exact .inl rfl
    | cons y as =>
      obtain ⟨rfl, rfl⟩ := List.cons.inj tail
      have served : q.prio x < q.prio b := above x (by simp)
      simp only [List.append_eq, List.countP_append, List.countP_cons, served, decide_true,
        if_true] at few
      refine .inr ⟨by omega, front, as ++ behind, by simp, ?_⟩
      simp only [List.countP_append]
      omega
  · cases as with
    | nil =>
      cases tail
      exact .inl rfl
    | cons y as =>
      obtain ⟨rfl, rfl⟩ := List.cons.inj tail
      have served : q.prio x ≤ q.prio b := below x (by simp)
      simp only [List.countP_append, List.countP_cons, served, decide_true, if_true] at few
      refine .inr ⟨by omega, before ++ as, back, by simp, ?_⟩
      simp only [List.countP_append]
      omega

theorem pop_prio [DecidableEq α] (q : Queue α β) : q.pop.2.prio = q.prio := by
  rw [Queue.pop]
  split <;> rfl

end Queue

end XinuRpi5.Lib.StableQueue
