/- source: device/video/avm.c
   digest: The digit-by-digit square root is the integer square root, without overflow. -/

import Mathlib.Tactic.Linarith
import Mathlib.Tactic.Ring

namespace XinuRpi5.Video.AvmRoot

structure Digits where
  v : UInt64
  r : UInt64
  b : UInt64
deriving DecidableEq

theorem toNat_shiftRight_two (b : UInt64) : (b >>> 2).toNat = b.toNat / 4 := by
  simp [Nat.shiftRight_eq_div_pow]

theorem toNat_shiftRight_one (r : UInt64) : (r >>> 1).toNat = r.toNat / 2 := by
  simp [Nat.shiftRight_eq_div_pow]

/-- `while (b > v) b >>= 2`. -/
def scale (v b : UInt64) : UInt64 :=
  if v < b then scale v (b >>> 2) else b
termination_by b.toNat
decreasing_by
  rename_i above
  have large : v.toNat < b.toNat := UInt64.lt_iff_toNat_lt.mp above
  rw [toNat_shiftRight_two]
  omega

def digit (d : Digits) : Digits :=
  if d.r + d.b ≤ d.v then ⟨d.v - (d.r + d.b), (d.r >>> 1) + d.b, d.b >>> 2⟩
  else ⟨d.v, d.r >>> 1, d.b >>> 2⟩

theorem digit_b (d : Digits) : (digit d).b = d.b >>> 2 := by
  simp only [digit]
  split_ifs <;> rfl

/-- `while (b)`. -/
def digits (d : Digits) : Digits :=
  if d.b = 0 then d else digits (digit d)
termination_by d.b.toNat
decreasing_by
  rename_i more
  have positive : d.b.toNat ≠ 0 := fun zero => more (UInt64.toNat_inj.mp zero)
  rw [digit_b, toNat_shiftRight_two]
  omega

def start (v : UInt64) : Digits := ⟨v, 0, scale v ((1 : UInt64) <<< 62)⟩

def aIsqrt (v : UInt64) : UInt64 := (digits (start v)).r

inductive Visits (v : UInt64) : Digits → Prop
  | start : Visits v (start v)
  | digit {d : Digits} : Visits v d → d.b ≠ 0 → Visits v (digit d)

theorem digits_visited {v : UInt64} {d : Digits} (visited : Visits v d) :
    Visits v (digits d) ∧ (digits d).b = 0 := by
  induction d using digits.induct with
  | case1 d done =>
    rw [digits, if_pos done]
    exact ⟨visited, done⟩
  | case2 d more ih =>
    rw [digits, if_neg more]
    exact ih (visited.digit more)

section Invariant

/-- With `m` digits left the digits found are the root's upper ones: `s` is the
partial root, `r` is `s` shifted by what is left, and `d.v` is what its square leaves. -/
structure Partial (v : UInt64) (m s : Nat) (d : Digits) : Prop where
  left : d.b.toNat = if m = 0 then 0 else 2 ^ (m - 1) * 2 ^ (m - 1)
  root : d.r.toNat = s * 2 ^ m
  rest : d.v.toNat + s * s = v.toNat
  close : v.toNat < (s + 2 ^ m) * (s + 2 ^ m)
  room : m ≤ 31 ∨ m = 32 ∧ s = 0

variable {v : UInt64} {m s : Nat} {d : Digits}

theorem Partial.small (known : Partial v m s d) : s < 2 ^ 32 := by
  have word : v.toNat < 2 ^ 64 := v.toNat_lt
  have whole := known.rest
  by_contra large
  have square : 2 ^ 32 * 2 ^ 32 ≤ s * s := Nat.mul_le_mul (by omega) (by omega)
  omega

theorem Partial.fits (known : Partial v (m + 1) s d) :
    s * (2 * 2 ^ m) + 2 ^ m * 2 ^ m < 2 ^ 64 := by
  obtain inside | ⟨last, rfl⟩ := known.room
  · have power : 2 ^ m ≤ 2 ^ 30 := Nat.pow_le_pow_right (by omega) (by omega)
    have root : s * (2 * 2 ^ m) ≤ 2 ^ 32 * (2 * 2 ^ 30) :=
      Nat.mul_le_mul (le_of_lt known.small) (by omega)
    have square : 2 ^ m * 2 ^ m ≤ 2 ^ 30 * 2 ^ 30 := Nat.mul_le_mul power power
    omega
  · obtain rfl : m = 31 := by omega
    norm_num

theorem Partial.more (known : Partial v m s d) (more : d.b ≠ 0) :
    ∃ k, m = k + 1 ∧ d.b.toNat = 2 ^ k * 2 ^ k ∧ d.r.toNat = s * (2 * 2 ^ k) := by
  have positive : d.b.toNat ≠ 0 := fun zero => more (UInt64.toNat_inj.mp zero)
  have left := known.left
  have root := known.root
  cases m with
  | zero => exact absurd left positive
  | succ k => exact ⟨k, rfl, left, by rw [root, pow_succ]; ring⟩

theorem Partial.no_overflow (known : Partial v m s d) (more : d.b ≠ 0) :
    d.r.toNat + d.b.toNat < 2 ^ 64 ∧ (d.r >>> 1).toNat + d.b.toNat < 2 ^ 64 := by
  obtain ⟨k, rfl, left, root⟩ := known.more more
  have fits := known.fits
  rw [toNat_shiftRight_one, left, root]
  omega

/-- The next digit is one exactly when its cost is left. -/
theorem Partial.digit (known : Partial v m s d) (more : d.b ≠ 0) :
    ∃ m' s', Partial v m' s' (digit d) := by
  have word := (known.no_overflow more).1
  have word' := (known.no_overflow more).2
  obtain ⟨k, rfl, left, root⟩ := known.more more
  have sum : (d.r + d.b).toNat = s * (2 * 2 ^ k) + 2 ^ k * 2 ^ k := by
    rw [UInt64.toNat_add, Nat.mod_eq_of_lt word, left, root]
  have half : (d.r >>> 1).toNat = s * 2 ^ k := by
    rw [toNat_shiftRight_one, root, mul_left_comm]
    exact Nat.mul_div_cancel_left _ (by omega)
  have next : (AvmRoot.digit d).b.toNat = if k = 0 then 0 else 2 ^ (k - 1) * 2 ^ (k - 1) := by
    rw [digit_b, toNat_shiftRight_two, left]
    cases k with
    | zero => rfl
    | succ j =>
      have four : 2 ^ (j + 1) * 2 ^ (j + 1) = 4 * (2 ^ j * 2 ^ j) := by ring
      rw [four]
      exact Nat.mul_div_cancel_left _ (by omega)
  have cost : (s + 2 ^ k) * (s + 2 ^ k) = s * s + (s * (2 * 2 ^ k) + 2 ^ k * 2 ^ k) := by ring
  have rest := known.rest
  have room : k ≤ 31 := by
    have := known.room
    omega
  by_cases one : d.r + d.b ≤ d.v
  · have paid : (d.r + d.b).toNat ≤ d.v.toNat := UInt64.le_iff_toNat_le.mp one
    have eq : AvmRoot.digit d = ⟨d.v - (d.r + d.b), (d.r >>> 1) + d.b, d.b >>> 2⟩ := if_pos one
    refine ⟨k, s + 2 ^ k, next, ?_, ?_, ?_, .inl room⟩
    · rw [eq, UInt64.toNat_add, Nat.mod_eq_of_lt word', half, left]
      ring
    · rw [eq, UInt64.toNat_sub_of_le _ _ one, cost]
      omega
    · have close := known.close
      rwa [show s + 2 ^ (k + 1) = s + 2 ^ k + 2 ^ k by ring] at close
  · have unpaid : ¬ (d.r + d.b).toNat ≤ d.v.toNat := fun le =>
      one (UInt64.le_iff_toNat_le.mpr le)
    have eq : AvmRoot.digit d = ⟨d.v, d.r >>> 1, d.b >>> 2⟩ := if_neg one
    refine ⟨k, s, next, ?_, ?_, ?_, .inl room⟩
    · rw [eq, half]
    · rw [eq]
      exact rest
    · rw [cost]
      omega

/-- The first loop ends at the largest power of four in `v`, or at zero. -/
theorem scale_power (v b : UInt64) (k : Nat) (power : b.toNat = 2 ^ k * 2 ^ k)
    (above : v.toNat < 4 * b.toNat) (room : k ≤ 31) :
    ∃ m, Partial v m 0 ⟨v, 0, scale v b⟩ := by
  induction k generalizing b with
  | zero =>
    rw [scale]
    split_ifs with less
    · have zero : v.toNat = 0 := by
        have := UInt64.lt_iff_toNat_lt.mp less
        omega
      have gone : (b >>> 2).toNat = 0 := by
        rw [toNat_shiftRight_two, power]
        rfl
      have stop : ¬ v < b >>> 2 := by
        rw [UInt64.lt_iff_toNat_lt]
        omega
      rw [scale, if_neg stop]
      exact ⟨0, gone, by simp, by simp, by simp [zero], by omega⟩
    · exact ⟨1, by simpa using power, by simp, by simp, by norm_num; omega, by omega⟩
  | succ j ih =>
    have four : 2 ^ (j + 1) * 2 ^ (j + 1) = 4 * (2 ^ j * 2 ^ j) := by ring
    rw [scale]
    split_ifs with less
    · have below := UInt64.lt_iff_toNat_lt.mp less
      have smaller : (b >>> 2).toNat = 2 ^ j * 2 ^ j := by
        rw [toNat_shiftRight_two, power, four]
        exact Nat.mul_div_cancel_left _ (by omega)
      exact ih (b >>> 2) smaller (by omega) (by omega)
    · have close : (0 + 2 ^ (j + 1 + 1)) * (0 + 2 ^ (j + 1 + 1)) = 4 * b.toNat := by
        rw [power]
        ring
      exact ⟨j + 1 + 1, by simpa using power, by simp, by simp, by omega, by omega⟩

theorem visited_partial {v : UInt64} {d : Digits} (visited : Visits v d) :
    ∃ m s, Partial v m s d := by
  induction visited with
  | start =>
    have word : v.toNat < 2 ^ 64 := v.toNat_lt
    have top : ((1 : UInt64) <<< 62).toNat = 2 ^ 31 * 2 ^ 31 := by decide
    obtain ⟨m, known⟩ := scale_power v ((1 : UInt64) <<< 62) 31 top (by omega) le_rfl
    exact ⟨m, 0, known⟩
  | digit _ more ih =>
    obtain ⟨m, s, known⟩ := ih
    exact known.digit more

end Invariant

/-- The loop ends, with the largest root whose square is at most `v`, and no
addition on the way leaves the word. -/
theorem aIsqrt_floor (v : UInt64) :
    (∃ d, Visits v d ∧ d.b = 0 ∧ aIsqrt v = d.r) ∧
    ((aIsqrt v).toNat * (aIsqrt v).toNat ≤ v.toNat ∧
      v.toNat < ((aIsqrt v).toNat + 1) * ((aIsqrt v).toNat + 1)) ∧
    ∀ d, Visits v d → d.b ≠ 0 →
      d.r.toNat + d.b.toNat < 2 ^ 64 ∧ (d.r >>> 1).toNat + d.b.toNat < 2 ^ 64 := by
  obtain ⟨visited, done⟩ := digits_visited (Visits.start (v := v))
  refine ⟨⟨_, visited, done, rfl⟩, ?_, ?_⟩
  · obtain ⟨m, s, known⟩ := visited_partial visited
    have left := known.left
    have none : m = 0 := by
      by_contra some
      rw [done, if_neg some] at left
      have positive : 0 < 2 ^ (m - 1) * 2 ^ (m - 1) := by positivity
      exact absurd left positive.ne
    subst none
    have root : (aIsqrt v).toNat = s := known.root.trans (Nat.mul_one s)
    have rest := known.rest
    rw [root]
    exact ⟨by omega, known.close⟩
  · intro d visited more
    obtain ⟨m, s, known⟩ := visited_partial visited
    exact known.no_overflow more

end XinuRpi5.Video.AvmRoot
