/- source: none (library)
   digest: A loop over the set bits of a word, from the lowest. -/

import Mathlib.Algebra.BigOperators.Group.Finset.Basic
import Mathlib.Data.Nat.Find

namespace XinuRpi5.Lib.BitScan

variable {w : Nat}

def bits (x : BitVec w) : Finset Nat := (Finset.range w).filter fun j => x.getLsbD j = true

variable {x : BitVec w}

@[simp] theorem mem_bits {j : Nat} : j ∈ bits x ↔ x.getLsbD j = true := by
  rw [bits, Finset.mem_filter, Finset.mem_range]
  constructor
  · intro h
    exact h.2
  · intro set
    exact ⟨BitVec.lt_of_getLsbD set, set⟩

theorem card_bits_le (x : BitVec w) : (bits x).card ≤ w := by
  calc (bits x).card ≤ (Finset.range w).card := Finset.card_filter_le _ _
    _ = w := Finset.card_range w

theorem exists_bit (nonzero : x ≠ 0) : ∃ j, x.getLsbD j = true := by
  by_contra none
  apply nonzero
  ext j inside
  have clear : x.getLsbD j ≠ true := fun set => none ⟨j, set⟩
  simpa [← BitVec.getLsbD_eq_getElem] using clear

theorem and_neg {l : Nat} (set : x.getLsbD l = true)
    (lowest : ∀ j, j < l → x.getLsbD j ≠ true) : x &&& -x = BitVec.twoPow w l := by
  ext j inside
  rw [← BitVec.getLsbD_eq_getElem, ← BitVec.getLsbD_eq_getElem, BitVec.getLsbD_and,
    BitVec.getLsbD_neg, BitVec.getLsbD_twoPow]
  rcases Nat.lt_trichotomy j l with below | rfl | above
  · have clear : x.getLsbD j = false := by simpa using lowest j below
    have other : ¬ l = j := by omega
    simp [clear, other]
  · have first : ¬ ∃ i, i < j ∧ x.getLsbD i = true := by
      rintro ⟨i, below, bit⟩
      exact lowest i below bit
    simp [set, inside, first]
  · have earlier : ∃ i, i < j ∧ x.getLsbD i = true := ⟨l, above, set⟩
    have other : ¬ l = j := by omega
    cases bit : x.getLsbD j <;> simp [inside, earlier, other]

theorem bits_sub {l : Nat} (set : x.getLsbD l = true) :
    bits (x - BitVec.twoPow w l) = (bits x).erase l := by
  have inside := BitVec.lt_of_getLsbD set
  have apart : x &&& ~~~ BitVec.twoPow w l &&& BitVec.twoPow w l = 0#w := by
    ext j _
    simp
  have whole : (x &&& ~~~ BitVec.twoPow w l) + BitVec.twoPow w l = x := by
    rw [BitVec.add_eq_or_of_and_eq_zero _ _ apart]
    ext j bound
    rcases Nat.decEq l j with other | rfl
    · simp [Ne.symm other]
    · simpa [BitVec.getLsbD_eq_getElem inside] using set
  have rest : x - BitVec.twoPow w l = x &&& ~~~ BitVec.twoPow w l := by
    rw [BitVec.sub_eq_iff_eq_add, whole]
  ext j
  rw [rest, mem_bits, Finset.mem_erase, mem_bits, BitVec.getLsbD_and, BitVec.getLsbD_not,
    BitVec.getLsbD_twoPow]
  constructor
  · intro both
    simp only [Bool.and_eq_true] at both
    refine ⟨?_, both.1⟩
    rintro rfl
    simp [inside] at both
  · rintro ⟨other, bit⟩
    have bound := BitVec.lt_of_getLsbD bit
    simp [bit, bound, Ne.symm other]

section Scan

variable {α : Type*}

/-- Runs `body` on each set bit of a word, from the lowest; `none` when there are more
than `rounds`. -/
def eachBit (body : BitVec w → α → Option α) : (rounds : Nat) → BitVec w → α → Option α
  | 0, _, _ => none
  | rounds + 1, x, a =>
    if x = 0 then some a
    else (body (x &&& -x) a).bind fun a => eachBit body rounds (x - (x &&& -x)) a

theorem eachBit_sum {V : Type*} [AddCommMonoid V] {body : BitVec w → V → Option V}
    {part : Nat → V} {rounds : Nat} {x : BitVec w} {a : V} (enough : (bits x).card < rounds)
    (adds : ∀ l a, l ∈ bits x → body (BitVec.twoPow w l) a = some (a + part l)) :
    eachBit body rounds x a = some (a + ∑ l ∈ bits x, part l) := by
  induction rounds generalizing x a with
  | zero => omega
  | succ rounds ih =>
    rw [eachBit]
    split
    · rename_i zero
      have empty : bits x = ∅ := by
        ext j
        simp [zero]
      rw [empty, Finset.sum_empty, add_zero]
    · rename_i nonzero
      have some_bit := exists_bit nonzero
      have set := Nat.find_spec some_bit
      have member : Nat.find some_bit ∈ bits x := mem_bits.2 set
      have lowest := and_neg set fun j below => Nat.find_min some_bit below
      have rest := bits_sub set
      have fewer : ((bits x).erase (Nat.find some_bit)).card < rounds := by
        rw [Finset.card_erase_of_mem member]
        have positive : 0 < (bits x).card := Finset.card_pos.2 ⟨_, member⟩
        omega
      rw [lowest, adds _ a member, Option.bind_some, ih (by rw [rest]; exact fewer)
        fun l a inside => adds l a (Finset.mem_of_mem_erase (rest ▸ inside)), rest, add_assoc,
        Finset.add_sum_erase _ _ member]

end Scan

end XinuRpi5.Lib.BitScan
