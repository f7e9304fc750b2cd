/- source: cc/codegen.c
   digest: The instruction that adds the offset of a member, and when it does. -/

import Mathlib.Algebra.Group.Nat.Defs
import Mathlib.Logic.Function.Basic
import XinuRpi5.Cc.Codegen

namespace XinuRpi5.Cc.MemberAccess

open Lib.RuledState Codegen

abbrev Regs := Word → BitVec 64

/-- ADD (immediate) on 64-bit registers: bit 22 shifts the immediate by 12. -/
def addImmediate (w : Word) : Option (Word × Word × BitVec 64) :=
  if w &&& 0xFF800000 = 0x91000000 then
    let imm : BitVec 64 := ((w >>> 10) &&& 0xFFF).setWidth 64
    some (w &&& 31, (w >>> 5) &&& 31, if w.getLsbD 22 then imm <<< 12 else imm)
  else none

def stepWord (regs : Regs) (w : Word) : Option Regs :=
  (addImmediate w).map fun i => Function.update regs i.1 (regs i.2.1 + i.2.2)

theorem getLsbD_ones {n i : Nat} (inside : i < 32) :
    (BitVec.ofNat 32 (2 ^ n - 1)).getLsbD i = decide (i < n) := by
  rw [BitVec.getLsbD_ofNat, Nat.testBit_two_pow_sub_one]
  simp [inside]

theorem getLsbD_addImm (off : Int) {i : Nat} (inside : i < 32) :
    (addImm 0 0 off).getLsbD i =
      ((0x91000000 : Word).getLsbD i ||
        (decide (10 ≤ i) && decide (i < 22) && (BitVec.ofInt 32 off).getLsbD (i - 10))) := by
  have low : (0xFFF : Word) = BitVec.ofNat 32 (2 ^ 12 - 1) := rfl
  unfold addImm
  rw [low]
  rcases Nat.lt_or_ge i 10 with less | more
  · have other : ¬ 10 ≤ i := by omega
    simp [less, other, inside]
  · rw [BitVec.getLsbD_or, BitVec.getLsbD_or, BitVec.getLsbD_or, BitVec.getLsbD_shiftLeft,
      BitVec.getLsbD_and, getLsbD_ones (by omega)]
    have bound : decide (i - 10 < 12) = decide (i < 22) := by
      rw [decide_eq_decide]
      omega
    have same : ¬ i < 10 := by omega
    rw [bound]
    simp [inside, same, more, Bool.and_comm]

theorem addImm_and (off : Int) {mask : Word}
    (outside : ∀ i, i < 32 → 10 ≤ i → i < 22 → mask.getLsbD i = false) :
    addImm 0 0 off &&& mask = 0x91000000 &&& mask := by
  apply BitVec.eq_of_getLsbD_eq
  intro i inside
  rw [BitVec.getLsbD_and, BitVec.getLsbD_and, getLsbD_addImm off inside]
  by_cases field : 10 ≤ i ∧ i < 22
  · rw [outside i inside field.1 field.2, Bool.and_false, Bool.and_false]
  · have none : (decide (10 ≤ i) && decide (i < 22)) = false := by simpa using field
    rw [none, Bool.false_and, Bool.or_false]

theorem immediate_addImm (off : Int) :
    (addImm 0 0 off >>> 10) &&& 0xFFF = BitVec.ofInt 32 off &&& 0xFFF := by
  have low : (0xFFF : Word) = BitVec.ofNat 32 (2 ^ 12 - 1) := rfl
  have clear : ∀ i, i < 12 → (0x91000000 : Word).getLsbD (10 + i) = false := by decide
  rw [low]
  apply BitVec.eq_of_getLsbD_eq
  intro i inside
  rw [BitVec.getLsbD_and, BitVec.getLsbD_and, getLsbD_ones inside, BitVec.getLsbD_ushiftRight]
  by_cases field : i < 12
  · rw [getLsbD_addImm off (by omega), clear i field]
    have upper : 10 + i < 22 := by omega
    simp [field, upper]
  · simp [field]

theorem addImmediate_addImm (off : Int) :
    addImmediate (addImm 0 0 off) =
      some (0, 0, (BitVec.ofInt 32 off &&& 0xFFF).setWidth 64) := by
  have kind : addImm 0 0 off &&& 0xFF800000 = 0x91000000 := by
    rw [addImm_and off (by decide)]
    decide
  have target : addImm 0 0 off &&& 31 = 0 := by
    rw [addImm_and off (by decide)]
    decide
  have source : (addImm 0 0 off >>> 5) &&& 31 = 0 := by
    have moved : (addImm 0 0 off >>> 5) &&& (31 : Word) = (addImm 0 0 off &&& 0x3E0) >>> 5 := by
      rw [BitVec.ushiftRight_and_distrib]
      rfl
    rw [moved, addImm_and off (by decide)]
    decide
  have shift : (addImm 0 0 off).getLsbD 22 = false := by
    rw [getLsbD_addImm off (by decide)]
    rfl
  rw [addImmediate, if_pos kind, target, source, shift, immediate_addImm]
  rfl

theorem toNat_immediate (off : Int) :
    (((BitVec.ofInt 32 off &&& 0xFFF).setWidth 64 : BitVec 64).toNat : Int) = off % 4096 := by
  have mask : (0xFFF : Word).toNat = 2 ^ 12 - 1 := rfl
  rw [BitVec.toNat_setWidth, BitVec.toNat_and, mask, Nat.and_two_pow_sub_one_eq_mod,
    BitVec.toNat_ofInt]
  omega

theorem immediate_eq_iff {off : Int} (low : -2147483648 ≤ off) (high : off < 2147483648) :
    (BitVec.ofInt 32 off &&& 0xFFF).setWidth 64 = BitVec.ofInt 64 off ↔
      0 ≤ off ∧ off ≤ 4095 := by
  have value := toNat_immediate off
  constructor
  · intro same
    rw [same, BitVec.toNat_ofInt] at value
    omega
  · rintro ⟨positive, small⟩
    apply BitVec.eq_of_toNat_eq
    rw [BitVec.toNat_ofInt]
    omega

section Access

variable (c : Ctx)

def between (g t : Gen) : List Word := (List.range (t.pos - g.pos)).map fun i => t.buf (g.pos + i)

/-- The code for the address of a member, behind that for the address of its structure, leaves
that address and the offset in x0. -/
def Reaches (off : Int) : Prop :=
  ∀ (c : Ctx) (offsets : List Int) (e : Expr) (ty : Option Ty) (g : Gen) (regs : Regs),
    4 * ((genAddr c offsets e).run g).2.pos + 4 ≤ c.cap →
    ((between ((genAddr c offsets e).run g).2
        ((genAddr c offsets (.member e off ty)).run g).2).foldlM stepWord regs).map (· 0) =
      some (regs 0 + BitVec.ofInt 64 off)

theorem between_genOff {off : Int} {g : Gen} (room : 4 * g.pos + 4 ≤ c.cap) :
    between g ((genOff c off).run g).2 = if off = 0 then [] else [addImm 0 0 off] := by
  unfold genOff
  split
  · simp [between, Prog.run_pure]
  · have fits : ¬ c.cap < 4 * g.pos + 4 := by omega
    simp [between, emit, Prog.change, fits, put]

theorem run_addImm (off : Int) (regs : Regs) :
    (([addImm 0 0 off].foldlM stepWord regs).map (· 0)) =
      some (regs 0 + (BitVec.ofInt 32 off &&& 0xFFF).setWidth 64) := by
  rw [List.foldlM_cons, stepWord, addImmediate_addImm, Option.map_some]
  exact congrArg some (Function.update_self _ _ _)

theorem reaches_iff {off : Int} (low : -2147483648 ≤ off) (high : off < 2147483648) :
    Reaches off ↔ 0 ≤ off ∧ off ≤ 4095 := by
  have code : ∀ (c : Ctx) (offsets : List Int) (e : Expr) (ty : Option Ty) (g : Gen),
      ((genAddr c offsets (.member e off ty)).run g).2 =
        ((genOff c off).run ((genAddr c offsets e).run g).2).2 := by
    intro c offsets e ty g
    rw [genAddr]
    rfl
  constructor
  · intro reaches
    by_cases zero : off = 0
    · omega
    · have room : 4 * ((genAddr ⟨64, 0, [], fun _ => 0⟩ [] (.str 0)).run
          ⟨fun _ => 0, 0, false, fun _ => 0, 0, [], [], none⟩).2.pos + 4 ≤ 64 := by
        rw [genAddr]
        decide
      have right := reaches ⟨64, 0, [], fun _ => 0⟩ [] (.str 0) none
        ⟨fun _ => 0, 0, false, fun _ => 0, 0, [], [], none⟩ (fun _ => 0) room
      rw [code, between_genOff _ room, if_neg zero, run_addImm, Option.some_inj] at right
      exact (immediate_eq_iff low high).1 (by simpa using right)
  · intro small c offsets e ty g regs room
    rw [code, between_genOff c room]
    split
    · rename_i zero
      simp [zero]
    · rw [run_addImm, (immediate_eq_iff low high).2 small]

end Access

end XinuRpi5.Cc.MemberAccess
