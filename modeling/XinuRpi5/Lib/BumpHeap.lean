/- source: none (library)
   digest: Heaps that hand out their cells in order, and what a new block leaves alone. -/

import Mathlib.Tactic.TypeStar

namespace XinuRpi5.Lib.BumpHeap

variable {α : Type*}

structure Heap (α : Type*) where
  cell : Nat → α
  top : Nat

/-- A block of `n` cells behind the others, with these contents. -/
def Heap.take (h : Heap α) (n : Nat) (f : Nat → α) : Heap α where
  cell i := if h.top ≤ i ∧ i < h.top + n then f (i - h.top) else h.cell i
  top := h.top + n

structure Grows (h k : Heap α) : Prop where
  top : h.top ≤ k.top
  old : ∀ i, i < h.top → k.cell i = h.cell i

variable {h k l : Heap α} {n : Nat} {f : Nat → α}

theorem Grows.refl (h : Heap α) : Grows h h := ⟨Nat.le_refl _, fun _ _ => rfl⟩

theorem Grows.trans (first : Grows h k) (later : Grows k l) : Grows h l := by
  refine ⟨Nat.le_trans first.top later.top, fun i inside => ?_⟩
  rw [later.old i (Nat.lt_of_lt_of_le inside first.top), first.old i inside]

theorem Heap.take_old {i : Nat} (inside : i < h.top) : (h.take n f).cell i = h.cell i :=
  if_neg fun new => absurd new.1 (Nat.not_le.mpr inside)

theorem Heap.take_new {i : Nat} (inside : i < n) : (h.take n f).cell (h.top + i) = f i := by
  have here : h.top ≤ h.top + i ∧ h.top + i < h.top + n := by omega
  have back : h.top + i - h.top = i := by omega
  calc (h.take n f).cell (h.top + i) = f (h.top + i - h.top) := if_pos here
    _ = f i := by rw [back]

theorem Heap.take_grows (h : Heap α) (n : Nat) (f : Nat → α) : Grows h (h.take n f) :=
  ⟨Nat.le_add_right _ _, fun _ inside => take_old inside⟩

abbrev Block := Nat × Nat

def Apart (a b : Block) : Prop := a.1 + a.2 ≤ b.1 ∨ b.1 + b.2 ≤ a.1

instance (a b : Block) : Decidable (Apart a b) := inferInstanceAs (Decidable (_ ∨ _))

theorem apart_of_below {b : Block} (below : b.1 + b.2 ≤ h.top) (n : Nat) : Apart b (h.top, n) :=
  Or.inl below

end XinuRpi5.Lib.BumpHeap
