/- source: none (library)
   digest: Tables of a fixed number of places, taken in the order of the first free one. -/

import Mathlib.Data.List.FinRange

namespace XinuRpi5.Lib.SlotTable

section Counting

variable {α : Type*}

theorem countP_flip {l : List α} {f g : α → Bool} {a : α} (nodup : l.Nodup) (listed : a ∈ l)
    (before : f a = false) (after : g a = true) (same : ∀ b, b ≠ a → g b = f b) :
    l.countP g = l.countP f + 1 := by
  induction l with
  | nil => exact absurd listed List.not_mem_nil
  | cons b l ih =>
    obtain ⟨fresh, rest⟩ := List.nodup_cons.mp nodup
    rw [List.countP_cons, List.countP_cons]
    by_cases here : b = a
    · subst here
      have equal : l.countP g = l.countP f := by
        apply List.countP_congr
        intro c inside
        rw [same c fun clash => fresh (clash ▸ inside)]
      rw [before, after, equal]
      rfl
    · have inside : a ∈ l := (List.mem_cons.mp listed).resolve_left fun clash => here clash.symm
      rw [ih rest inside, same b here]
      omega

end Counting

section Places

variable {n : Nat} {used : Fin n → Bool} {i : Fin n}

def firstFree (used : Fin n → Bool) : Option (Fin n) :=
  (List.finRange n).find? fun i => !used i

def freeCount (used : Fin n → Bool) : Nat := (List.finRange n).countP fun i => !used i

theorem firstFree_some (found : firstFree used = some i) : used i = false := by
  have chosen := List.find?_some found
  rwa [Bool.not_eq_true'] at chosen

theorem firstFree_none_iff : firstFree used = none ↔ freeCount used = 0 := by
  unfold firstFree freeCount
  rw [List.find?_eq_none, List.countP_eq_zero]

theorem freeCount_take (unused : used i = false) :
    freeCount used = freeCount (Function.update used i true) + 1 := by
  refine countP_flip (List.nodup_finRange n) (List.mem_finRange i) ?_ ?_ fun j other => ?_
  · rw [Function.update_self]
    rfl
  · rw [unused]
    rfl
  · rw [Function.update_of_ne other]

end Places

end XinuRpi5.Lib.SlotTable
