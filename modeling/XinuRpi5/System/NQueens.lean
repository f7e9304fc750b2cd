/- source: system/smpsched.c
   digest: nq counts the ways to complete a board whose first queens its masks stand for. -/

import Mathlib.Algebra.BigOperators.Ring.Finset
import XinuRpi5.Lib.BitScan
import XinuRpi5.Lib.Queens
import XinuRpi5.System.SmpMailbox

namespace XinuRpi5.System.NQueens

open Lib.BitScan Lib.Queens
open SmpMailbox (Long)

abbrev Unsigned := BitVec 32

/-- `none` when the recursion is deeper than `depth`. -/
def nq : (depth : Nat) → (cols d1 d2 all : Unsigned) → Option Long
  | 0, _, _, _, _ => none
  | depth + 1, cols, d1, d2, all =>
    if cols = all then some 1
    else
      let avail := ~~~(cols ||| d1 ||| d2) &&& all
      eachBit
        (fun bit count =>
          (nq depth (cols ||| bit) ((d1 ||| bit) <<< 1) ((d2 ||| bit) >>> 1) all).map (count + ·))
        33 avail 0

/-- The mask `all` of a board of size `n`. -/
def allColumns (n : Int) : Unsigned :=
  if 32 ≤ n then 0xFFFFFFFF else ((1 : Unsigned) <<< n.toNat) - 1

def nqDepth : Nat := 33

section Masks

variable {n : Nat} {p : Placement n} {cols d1 d2 : Unsigned}

/-- The masks of a placement: the columns that it takes, and the squares of the next row
that it attacks on either diagonal. Bits of `d1` beyond the board may be anything. -/
structure Masks (p : Placement n) (cols d1 d2 : Unsigned) : Prop where
  cols : ∀ j, cols.getLsbD j = true ↔ j ∈ p.columns
  d1 : ∀ j, j < n →
    (d1.getLsbD j = true ↔ ∃ i a, p.columns[i]? = some a ∧ a + p.rows = j + i)
  d2 : ∀ j, d2.getLsbD j = true ↔ ∃ i a, p.columns[i]? = some a ∧ a + i = j + p.rows

theorem Masks.empty : Masks (.empty n) 0 0 0 := by
  constructor <;> simp [Placement.empty]

theorem exists_push {c : Nat} (bound : c < n) (free : p.Free c) {line : Nat → Nat → Prop} :
    (∃ i a, (p.push c bound free).columns[i]? = some a ∧ line i a) ↔
      (∃ i a, p.columns[i]? = some a ∧ line i a) ∨ line p.rows c := by
  have queens : ∀ {i a}, (p.push c bound free).columns[i]? = some a ↔
      p.columns[i]? = some a ∨ i = p.rows ∧ a = c := getElem?_concat
  constructor
  · rintro ⟨i, a, queen, through⟩
    rcases queens.1 queen with old | ⟨rfl, rfl⟩
    · exact .inl ⟨i, a, old, through⟩
    · exact .inr through
  · rintro (⟨i, a, old, through⟩ | through)
    · exact ⟨i, a, queens.2 (.inl old), through⟩
    · exact ⟨p.rows, c, queens.2 (.inr ⟨rfl, rfl⟩), through⟩

theorem getLsbD_allColumns (small : n ≤ 32) (j : Nat) :
    (allColumns n).getLsbD j = true ↔ j < n := by
  rw [allColumns]
  split
  · rename_i large
    have full : n = 32 := by omega
    have ones : (0xFFFFFFFF : Unsigned) = BitVec.allOnes 32 := by decide
    rw [full, ones, BitVec.getLsbD_allOnes, decide_eq_true_eq]
  · rename_i smaller
    have less : n < 32 := by omega
    have power : 2 ^ n < 2 ^ 32 := Nat.pow_lt_pow_right (by decide) less
    have value : (((1 : Unsigned) <<< (n : Int).toNat) - 1).toNat = 2 ^ n - 1 := by
      have positive := Nat.two_pow_pos n
      rw [Int.toNat_natCast, BitVec.toNat_sub, BitVec.toNat_shiftLeft]
      have one : (1 : Unsigned).toNat = 1 := rfl
      rw [one, Nat.one_shiftLeft, Nat.mod_eq_of_lt power]
      omega
    rw [BitVec.getLsbD, value, Nat.testBit_two_pow_sub_one, decide_eq_true_eq]

section

variable (h : Masks p cols d1 d2)

include h

/-- The masks that `nq` passes on are those of the board with the new queen. -/
theorem Masks.push (small : n ≤ 32) {c : Nat} (bound : c < n) (free : p.Free c) :
    Masks (p.push c bound free) (cols ||| BitVec.twoPow 32 c)
      ((d1 ||| BitVec.twoPow 32 c) <<< 1) ((d2 ||| BitVec.twoPow 32 c) >>> 1) := by
  have rows : (p.push c bound free).rows = p.rows + 1 := by
    simp [Placement.push, Placement.rows]
  have wide : c < 32 := by omega
  constructor
  · intro j
    rw [BitVec.getLsbD_or, Bool.or_eq_true, h.cols, BitVec.getLsbD_twoPow]
    simp [Placement.push, wide, eq_comm]
  · intro j inside
    rw [exists_push, BitVec.getLsbD_shiftLeft, rows]
    cases j with
    | zero =>
      refine ⟨by simp, ?_⟩
      rintro (⟨i, a, queen, line⟩ | line)
      · have before := p.row_lt queen
        omega
      · omega
    | succ j =>
      have shifted : j + 1 - 1 = j := rfl
      have old : d1.getLsbD j = true ↔
          ∃ i a, p.columns[i]? = some a ∧ a + (p.rows + 1) = j + 1 + i :=
        (h.d1 j (by omega)).trans (exists₂_congr fun i a => and_congr_right fun _ => by omega)
      have new : c + (p.rows + 1) = j + 1 + p.rows ↔ c = j := by omega
      have room : j + 1 < 32 := by omega
      rw [shifted, BitVec.getLsbD_or, BitVec.getLsbD_twoPow, ← old, new]
      simp [room, wide]
  · intro j
    have old : d2.getLsbD (1 + j) = true ↔
        ∃ i a, p.columns[i]? = some a ∧ a + i = j + (p.rows + 1) :=
      (h.d2 (1 + j)).trans (exists₂_congr fun i a => and_congr_right fun _ => by omega)
    have new : c + p.rows = j + (p.rows + 1) ↔ c = 1 + j := by omega
    rw [exists_push, BitVec.getLsbD_ushiftRight, rows, BitVec.getLsbD_or, BitVec.getLsbD_twoPow,
      ← old, new]
    simp only [wide, Bool.and_eq_true, Bool.or_eq_true, decide_eq_true_eq, true_and]

theorem Masks.free_iff {j : Nat} (inside : j < n) :
    p.Free j ↔ (cols ||| d1 ||| d2).getLsbD j = false := by
  rw [← Bool.not_eq_true, BitVec.getLsbD_or, BitVec.getLsbD_or, Bool.or_eq_true, Bool.or_eq_true,
    h.cols, h.d1 j inside, h.d2]
  constructor
  · rintro free ((column | ⟨i, a, queen, line⟩) | ⟨i, a, queen, line⟩)
    · obtain ⟨i, queen⟩ := List.mem_iff_getElem?.1 column
      exact (free i j queen).1 rfl
    · exact (free i a queen).2.2 line
    · exact (free i a queen).2.1 line
  · intro clear i a queen
    refine ⟨?_, ?_, ?_⟩
    · rintro rfl
      exact clear (.inl (.inl (List.mem_iff_getElem?.2 ⟨i, queen⟩)))
    · intro line
      exact clear (.inr ⟨i, a, queen, line⟩)
    · intro line
      exact clear (.inl (.inr ⟨i, a, queen, line⟩))

variable (small : n ≤ 32)

include small

theorem Masks.full_iff :
    cols = allColumns n ↔ p.rows = n := by
  rw [p.full_iff]
  constructor
  · rintro rfl j
    rw [← h.cols, getLsbD_allColumns small]
  · intro every
    apply BitVec.eq_of_getLsbD_eq
    intro j _
    rw [Bool.eq_iff_iff, h.cols, getLsbD_allColumns small, every]

theorem Masks.avail {j : Nat} :
    j ∈ bits (~~~(cols ||| d1 ||| d2) &&& allColumns n) ↔ j < n ∧ p.Free j := by
  rw [mem_bits, BitVec.getLsbD_and, Bool.and_eq_true, getLsbD_allColumns small]
  constructor
  · rintro ⟨clear, inside⟩
    rw [BitVec.getLsbD_not, Bool.and_eq_true, Bool.not_eq_true'] at clear
    exact ⟨inside, (h.free_iff inside).2 clear.2⟩
  · rintro ⟨inside, free⟩
    have wide : j < 32 := by omega
    rw [BitVec.getLsbD_not, (h.free_iff inside).1 free]
    simp [wide, inside]

theorem Masks.sum_avail (room : p.rows < n) :
    ∑ c ∈ bits (~~~(cols ||| d1 ||| d2) &&& allColumns n), completions n (p.columns ++ [c]) =
      completions n p.columns := by
  rw [completions_step room]
  apply Finset.sum_subset
  · intro c member
    exact Finset.mem_range.2 ((h.avail small).1 member).1
  · intro c inside skipped
    apply completions_attacked room
    intro free
    exact skipped ((h.avail small).2 ⟨Finset.mem_range.1 inside, free⟩)

theorem nq_eq {depth : Nat} (deep : n - p.rows < depth) :
    nq depth cols d1 d2 (allColumns n) = some (completions n p.columns : Long) := by
  induction depth generalizing p cols d1 d2 with
  | zero => omega
  | succ depth ih =>
    rw [nq]
    split
    · rename_i full
      rw [completions_full ((h.full_iff small).1 full), Nat.cast_one]
    · rename_i unfinished
      have room : p.rows < n := by
        have other := mt (h.full_iff small).2 unfinished
        have rows := p.rows_le
        omega
      have inner : ∀ c (count : Long), c ∈ bits (~~~(cols ||| d1 ||| d2) &&& allColumns n) →
          (nq depth (cols ||| BitVec.twoPow 32 c) ((d1 ||| BitVec.twoPow 32 c) <<< 1)
            ((d2 ||| BitVec.twoPow 32 c) >>> 1) (allColumns n)).map (count + ·) =
            some (count + (completions n (p.columns ++ [c]) : Long)) := by
        intro c count member
        obtain ⟨inside, free⟩ := (h.avail small).1 member
        have grown : (p.push c inside free).rows = p.rows + 1 := by
          simp [Placement.push, Placement.rows]
        rw [ih (h.push small inside free) (by omega)]
        rfl
      rw [eachBit_sum (Nat.lt_succ_of_le (card_bits_le _)) inner, zero_add, ← Nat.cast_sum,
        h.sum_avail small room]

theorem nq_counts :
    nq nqDepth cols d1 d2 (allColumns n) = some (completions n p.columns : Long) :=
  nq_eq h small (by rw [nqDepth]; omega)

end

theorem toInt_cast {count : Nat} (fits : count < 9223372036854775808) :
    (count : Long).toInt = count := by
  rw [BitVec.natCast_eq_ofNat, BitVec.toInt_ofNat']
  exact Int.bmod_eq_of_le (by omega) (by omega)

end Masks

end XinuRpi5.System.NQueens
