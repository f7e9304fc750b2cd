/- source: none (library)
   digest: Functions of a range that add up over adjacent ranges, and cuts of a range. -/

import Mathlib.Algebra.BigOperators.Intervals

namespace XinuRpi5.Lib.SplitRange

variable {V : Type*} [AddCommMonoid V]

def Additive (f : Int → Int → V) : Prop :=
  ∀ a b c, 0 ≤ a → a ≤ b → b ≤ c → f a b + f b c = f a c

theorem sum_pieces {f : Int → Int → V} (additive : Additive f) {cut : Nat → Int}
    (start : 0 ≤ cut 0) (rises : ∀ k, cut k ≤ cut (k + 1)) (k : Nat) :
    ∑ c ∈ Finset.range (k + 1), f (cut c) (cut (c + 1)) = f (cut 0) (cut (k + 1)) := by
  have above : ∀ k, cut 0 ≤ cut k := by
    intro k
    induction k with
    | zero => exact Int.le_refl _
    | succ k ih => exact Int.le_trans ih (rises k)
  induction k with
  | zero => simp
  | succ k ih =>
    rw [Finset.sum_range_succ, ih]
    exact additive _ _ _ start (above _) (rises _)

/-- The cut of `[0, n)` in front of piece `c` of `parts`. -/
def evenCut (n : Int) (parts c : Nat) : Int := c * n / parts

theorem evenCut_zero (n : Int) (parts : Nat) : evenCut n parts 0 = 0 := by
  simp [evenCut]

theorem evenCut_all (n : Int) {parts : Nat} (some : 0 < parts) : evenCut n parts parts = n := by
  rw [evenCut, Int.mul_ediv_cancel_left]
  omega

theorem evenCut_mono {n : Int} (low : 0 ≤ n) {parts a b : Nat} (some : 0 < parts) (le : a ≤ b) :
    evenCut n parts a ≤ evenCut n parts b := by
  apply Int.ediv_le_ediv (by omega)
  exact Int.mul_le_mul_of_nonneg_right (by omega) low

theorem sum_evenCut {f : Int → Int → V} (additive : Additive f) {n : Int} (low : 0 ≤ n)
    {parts : Nat} (some : 0 < parts) :
    ∑ c ∈ Finset.range parts, f (evenCut n parts c) (evenCut n parts (c + 1)) = f 0 n := by
  have pieces := sum_pieces additive (Int.le_of_eq (evenCut_zero n parts).symm)
    (fun k => evenCut_mono low some (Nat.le_succ k)) (parts - 1)
  rw [Nat.sub_add_cancel some, evenCut_zero, evenCut_all n some] at pieces
  exact pieces

end XinuRpi5.Lib.SplitRange
