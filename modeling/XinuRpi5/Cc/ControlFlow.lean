/- source: cc/codegen.c
   digest: The control flow of AArch64 words, and the words that the generator writes. -/

import XinuRpi5.Cc.Codegen
import Mathlib.Algebra.Group.Nat.Defs
import Mathlib.Algebra.Group.Int.Defs

namespace XinuRpi5.Cc.ControlFlow

open Codegen

/-- Where control goes behind a word: on, to a distance in words, to either, or out
of the function. A call comes back and goes on. -/
inductive Ctrl where
  | next
  | jump (d : Int)
  | branch (d : Int)
  | stop
  deriving DecidableEq

def topByte (w : Word) : Nat := (w >>> 24).toNat

/-- `b`, then `cbz`, `cbnz` and `b.cond`, then `ret`. -/
def ctrl (w : Word) : Ctrl :=
  if topByte w / 4 = 5 then .jump (w.extractLsb' 0 26).toInt
  else if topByte w ∈ [0x34, 0x35, 0x54, 0xB4, 0xB5] then .branch (w.extractLsb' 5 19).toInt
  else if w &&& 0xFFFFFC1F = 0xD65F0000 then .stop
  else .next

/-- The edges of the control flow graph between positions of the buffer. -/
def Flow (buf : Nat → Word) (i j : Nat) : Prop :=
  match ctrl (buf i) with
  | .next => j = i + 1
  | .jump d => (j : Int) = i + d
  | .branch d => j = i + 1 ∨ (j : Int) = i + d
  | .stop => False

instance (buf : Nat → Word) (i j : Nat) : Decidable (Flow buf i j) := by
  unfold Flow
  split <;> infer_instance

theorem topByte_or (v w : Word) : topByte (v ||| w) = topByte v ||| topByte w := by
  unfold topByte
  rw [BitVec.ushiftRight_or_distrib, BitVec.toNat_or]

theorem topByte_and (v w : Word) : topByte (v &&& w) = topByte v &&& topByte w := by
  unfold topByte
  rw [BitVec.ushiftRight_and_distrib, BitVec.toNat_and]

section Branches

theorem jump_bits (d : Word) :
    (0x14000000 ||| (d &&& 0x03FFFFFF)).extractLsb' 0 26 = d.setWidth 26 := by
  refine BitVec.eq_of_getLsbD_eq fun i inside => ?_
  have base : ∀ i, i < 26 → (0x14000000 : Word).getLsbD i = false ∧
      (0x03FFFFFF : Word).getLsbD i = true := by decide
  obtain ⟨opcode, mask⟩ := base i inside
  rw [BitVec.getLsbD_extractLsb', Nat.zero_add, BitVec.getLsbD_or, BitVec.getLsbD_and, opcode,
    mask, BitVec.getLsbD_setWidth, Bool.false_or, Bool.and_true]

theorem branch_bits {base c : Word} (d : Word) (clear : base.extractLsb' 5 19 = 0)
    (clear' : c.extractLsb' 5 19 = 0) :
    (base ||| ((d &&& 0x7FFFF) <<< 5) ||| c).extractLsb' 5 19 = d.setWidth 19 := by
  have alone (v : BitVec 19) : 0 ||| v ||| 0 = v := by simp
  rw [BitVec.extractLsb'_or, BitVec.extractLsb'_or, clear, clear', alone]
  refine BitVec.eq_of_getLsbD_eq fun i inside => ?_
  have mask : ∀ i, i < 19 → (0x7FFFF : Word).getLsbD i = true := by decide
  have bound : 5 + i < 32 := by omega
  rw [BitVec.getLsbD_extractLsb', BitVec.getLsbD_shiftLeft, BitVec.getLsbD_and,
    BitVec.getLsbD_setWidth, Nat.add_sub_cancel_left, mask i inside, Bool.and_true]
  simp [inside, bound]

variable {d : Int}

theorem jump_toInt (low : -2 ^ 25 ≤ d) (high : d < 2 ^ 25) :
    ((BitVec.ofInt 32 d).setWidth 26).toInt = d := by
  rw [BitVec.toInt_setWidth, BitVec.toNat_ofInt, Int.bmod_def]
  split_ifs
  · omega
  · omega

theorem branch_toInt (low : -2 ^ 18 ≤ d) (high : d < 2 ^ 18) :
    ((BitVec.ofInt 32 d).setWidth 19).toInt = d := by
  rw [BitVec.toInt_setWidth, BitVec.toNat_ofInt, Int.bmod_def]
  split_ifs
  · omega
  · omega

def BrKind.falls : BrKind → Prop
  | .b => False
  | _ => True

/-- The condition of `b.cond` stays out of the other fields. -/
def BrKind.Clear (k : BrKind) : Prop :=
  ∀ cond, k = .bcond cond → topByte cond = 0 ∧ cond.extractLsb' 5 19 = 0

theorem ctrl_jump (low : -2 ^ 18 ≤ d) (high : d < 2 ^ 18) :
    ctrl (0x14000000 ||| (BitVec.ofInt 32 d &&& 0x03FFFFFF)) = .jump d := by
  have top : topByte (0x14000000 ||| (BitVec.ofInt 32 d &&& 0x03FFFFFF)) / 4 = 5 := by
    rw [topByte_or, topByte_and]
    have small : topByte (BitVec.ofInt 32 d) &&& topByte 0x03FFFFFF < 4 :=
      Nat.lt_of_le_of_lt Nat.and_le_right (by decide)
    generalize topByte (BitVec.ofInt 32 d) &&& topByte 0x03FFFFFF = x at small
    have cases : ∀ x, x < 4 → (topByte 0x14000000 ||| x) / 4 = 5 := by decide
    exact cases x small
  unfold ctrl
  rw [if_pos top, jump_bits, jump_toInt (by omega) (by omega)]

theorem ctrl_branch {b c : Word} (low : -2 ^ 18 ≤ d) (high : d < 2 ^ 18)
    (opcode : topByte b ∈ [0x54, 0xB4, 0xB5]) (clear : b.extractLsb' 5 19 = 0)
    (none : topByte c = 0) (clear' : c.extractLsb' 5 19 = 0) :
    ctrl (b ||| ((BitVec.ofInt 32 d &&& 0x7FFFF) <<< 5) ||| c) = .branch d := by
  have field : topByte ((BitVec.ofInt 32 d &&& 0x7FFFF) <<< 5) = 0 := by
    have small : (BitVec.ofInt 32 d &&& 0x7FFFF).toNat ≤ 0x7FFFF := by
      rw [BitVec.toNat_and]
      exact Nat.and_le_right
    unfold topByte
    rw [BitVec.toNat_ushiftRight, BitVec.toNat_shiftLeft, Nat.shiftLeft_eq,
      Nat.shiftRight_eq_div_pow]
    omega
  have top : topByte (b ||| ((BitVec.ofInt 32 d &&& 0x7FFFF) <<< 5) ||| c) = topByte b := by
    rw [topByte_or, topByte_or, field, none, Nat.or_zero, Nat.or_zero]
  have other : ∀ x ∈ [0x54, 0xB4, 0xB5], x / 4 ≠ 5 ∧ x ∈ [0x34, 0x35, 0x54, 0xB4, 0xB5] := by
    decide
  obtain ⟨jump, branch⟩ := other _ opcode
  unfold ctrl
  rw [top, if_neg jump, if_pos branch, branch_bits _ clear clear', branch_toInt low high]

/-- The edges of a resolved branch. -/
theorem flow_resolved {buf : Nat → Word} {labOff : Nat → Nat} {i j l : Nat} {k : BrKind}
    (word : buf i = Fix.resolved labOff ⟨i, l, k⟩) (near : i < 2 ^ 18) (near' : labOff l < 2 ^ 18)
    (cond : ∀ c, k = .bcond c → topByte c = 0 ∧ c.extractLsb' 5 19 = 0) :
    Flow buf i j ↔ j = labOff l ∨ BrKind.falls k ∧ j = i + 1 := by
  have low : -2 ^ 18 ≤ (labOff l : Int) - i := by omega
  have high : (labOff l : Int) - i < 2 ^ 18 := by omega
  unfold Flow
  rw [word]
  cases k with
  | b =>
    have jump : ctrl (Fix.resolved labOff ⟨i, l, .b⟩) = .jump ((labOff l : Int) - i) :=
      ctrl_jump low high
    rw [jump]
    simp only [BrKind.falls, false_and, or_false]
    omega
  | cbz =>
    have jump : ctrl (Fix.resolved labOff ⟨i, l, .cbz⟩) = .branch ((labOff l : Int) - i) := by
      have word := ctrl_branch (b := 0xB4000000) (c := 0#32) low high (by decide) (by decide)
        (by decide) (by decide)
      rwa [BitVec.or_zero] at word
    rw [jump]
    simp only [BrKind.falls, true_and]
    omega
  | cbnz =>
    have jump : ctrl (Fix.resolved labOff ⟨i, l, .cbnz⟩) = .branch ((labOff l : Int) - i) := by
      have word := ctrl_branch (b := 0xB5000000) (c := 0#32) low high (by decide) (by decide)
        (by decide) (by decide)
      rwa [BitVec.or_zero] at word
    rw [jump]
    simp only [BrKind.falls, true_and]
    omega
  | bcond c =>
    obtain ⟨none, clear⟩ := cond c rfl
    have jump : ctrl (Fix.resolved labOff ⟨i, l, .bcond c⟩) = .branch ((labOff l : Int) - i) :=
      ctrl_branch low high (by decide) (by decide) none clear
    rw [jump]
    simp only [BrKind.falls, true_and]
    omega

end Branches

end XinuRpi5.Cc.ControlFlow
