/- source: cc/codegen.c
   digest: What the words of a constant and the fields of a resolved branch stand for. -/

import XinuRpi5.Cc.BranchTargets

namespace XinuRpi5.Cc.Encodings

open Codegen ControlFlow Installed BranchTargets

abbrev Regs := BitVec 5 → BitVec 64

def Regs.write (regs : Regs) (rd : BitVec 5) (v : BitVec 64) : Regs :=
  if rd = 31 then regs else Function.update regs rd v

/-- `movz` clears the register around its sixteen bits and `movk` keeps the rest. -/
def moveWide (regs : Regs) (w : Word) : Option Regs :=
  let rd := w.extractLsb' 0 5
  let shift := 16 * (w.extractLsb' 21 2).toNat
  let imm : BitVec 64 := (w.extractLsb' 5 16).setWidth 64 <<< shift
  if w.extractLsb' 23 9 = 0x1A5 then some (regs.write rd imm)
  else if w.extractLsb' 23 9 = 0x1E5 then
    some (regs.write rd (regs rd &&& ~~~((0xFFFF : BitVec 64) <<< shift) ||| imm))
  else none

section Constants

theorem mask_bit : ∀ i, i < 64 → (0xFFFF : BitVec 64).getLsbD i = decide (i < 16) := by decide

theorem part_eq (v : BitVec 64) (k : Nat) :
    part v k = (v.extractLsb' (16 * k) 16).setWidth 32 := by
  refine BitVec.eq_of_getLsbD_eq fun i inside => ?_
  have short : i < 64 := by omega
  rw [part, BitVec.getLsbD_setWidth, BitVec.getLsbD_setWidth, BitVec.getLsbD_and, mask_bit i short,
    BitVec.getLsbD_ushiftRight, BitVec.getLsbD_extractLsb', Bool.and_comm (decide (i < 16))]

def wide (base : Word) (q : BitVec 16) (reg : BitVec 5) : Word :=
  base ||| (q.setWidth 32 <<< 5) ||| reg.setWidth 32

theorem wide_fields (base : Word) (clear : base.extractLsb' 0 21 = 0) (q : BitVec 16)
    (reg : BitVec 5) :
    (wide base q reg).extractLsb' 0 5 = reg ∧ (wide base q reg).extractLsb' 5 16 = q ∧
      (wide base q reg).extractLsb' 21 2 = base.extractLsb' 21 2 ∧
      (wide base q reg).extractLsb' 23 9 = base.extractLsb' 23 9 := by
  have low (i : Nat) (inside : i < 21) : base.getLsbD i = false := by
    have bit := congrArg (fun x : BitVec 21 => x.getLsbD i) clear
    simpa [BitVec.getLsbD_extractLsb', inside] using bit
  have high (i : Nat) (above : 16 ≤ i) : q.getLsbD i = false := BitVec.getLsbD_of_ge q i above
  have high' (i : Nat) (above : 5 ≤ i) : reg.getLsbD i = false := BitVec.getLsbD_of_ge reg i above
  refine ⟨?_, ?_, ?_, ?_⟩ <;> refine BitVec.eq_of_getLsbD_eq fun i inside => ?_ <;>
    simp only [wide, BitVec.getLsbD_extractLsb', BitVec.getLsbD_or, BitVec.getLsbD_shiftLeft,
      BitVec.getLsbD_setWidth, inside]
  · rw [low (0 + i) (by omega)]
    simp [show i < 32 by omega, show i < 5 by omega]
  · rw [low (5 + i) (by omega), high' (5 + i) (by omega)]
    simp [show 5 + i < 32 by omega, show i < 32 by omega]
  · rw [high (21 + i - 5) (by omega), high' (21 + i) (by omega)]
    simp
  · rw [high (23 + i - 5) (by omega), high' (23 + i) (by omega)]
    simp

def Loaded (v x : BitVec 64) (n : Nat) : Prop :=
  ∀ i, i < 64 → x.getLsbD i = (decide (i < n) && v.getLsbD i)

theorem loaded_first (v : BitVec 64) :
    Loaded v ((v.extractLsb' (16 * 0) 16).setWidth 64 <<< (16 * 0)) 16 := by
  intro i inside
  simp [BitVec.getLsbD_extractLsb', inside]

theorem loaded_next {v x : BitVec 64} {k : Nat} (loaded : Loaded v x (16 * k)) :
    Loaded v (x &&& ~~~((0xFFFF : BitVec 64) <<< (16 * k)) |||
      (v.extractLsb' (16 * k) 16).setWidth 64 <<< (16 * k)) (16 * (k + 1)) := by
  intro i inside
  simp only [BitVec.getLsbD_or, BitVec.getLsbD_and, BitVec.getLsbD_not, BitVec.getLsbD_shiftLeft,
    BitVec.getLsbD_setWidth, BitVec.getLsbD_extractLsb', loaded i inside, inside,
    mask_bit (i - 16 * k) (by omega)]
  by_cases below : i < 16 * k
  · simp [below, show i < 16 * (k + 1) by omega]
  · have place : 16 * k + (i - 16 * k) = i := by omega
    by_cases here : i - 16 * k < 16
    · simp [below, here, place, show i < 16 * (k + 1) by omega, show i - 16 * k < 64 by omega]
    · simp [below, here, show ¬ i < 16 * (k + 1) by omega]

theorem loaded_all {v x : BitVec 64} (loaded : Loaded v x (16 * 4)) : x = v := by
  refine BitVec.eq_of_getLsbD_eq fun i inside => ?_
  rw [loaded i inside, decide_eq_true inside, Bool.true_and]

theorem loadimm_wide (reg : BitVec 5) (v : BitVec 64) : loadimm (reg.setWidth 32) v =
    [wide 0xD2800000 (v.extractLsb' (16 * 0) 16) reg,
      wide 0xF2A00000 (v.extractLsb' (16 * 1) 16) reg,
      wide 0xF2C00000 (v.extractLsb' (16 * 2) 16) reg,
      wide 0xF2E00000 (v.extractLsb' (16 * 3) 16) reg] := by
  simp only [loadimm, part_eq]
  rfl

variable {reg : BitVec 5} (general : reg ≠ 31)
include general

theorem movz_wide (q : BitVec 16) (regs : Regs) :
    moveWide regs (wide 0xD2800000 q reg) =
      some (Function.update regs reg (q.setWidth 64 <<< (16 * 0))) := by
  obtain ⟨rd, imm, hw, opcode⟩ := wide_fields 0xD2800000 (by decide) q reg
  simp only [moveWide, rd, imm, hw, opcode]
  rw [if_pos (by decide), Regs.write, if_neg general]
  rfl

theorem movk_wide (base : Word) (clear : base.extractLsb' 0 21 = 0)
    (opcode : base.extractLsb' 23 9 = 0x1E5) (q : BitVec 16) (regs : Regs) :
    moveWide regs (wide base q reg) = some (Function.update regs reg
      (regs reg &&& ~~~((0xFFFF : BitVec 64) <<< (16 * (base.extractLsb' 21 2).toNat)) |||
        q.setWidth 64 <<< (16 * (base.extractLsb' 21 2).toNat))) := by
  obtain ⟨rd, imm, hw, opcode'⟩ := wide_fields base clear q reg
  simp only [moveWide, rd, imm, hw, opcode', opcode]
  rw [if_neg (by decide), if_pos trivial, Regs.write, if_neg general]

theorem loadimm_value (v : BitVec 64) (regs : Regs) :
    (loadimm (reg.setWidth 32) v).foldlM moveWide regs = some (Function.update regs reg v) := by
  have first := loaded_first v
  have second := loaded_next (k := 1) first
  have third := loaded_next (k := 2) second
  have last := loaded_all (loaded_next (k := 3) third)
  rw [loadimm_wide]
  simp only [List.foldlM_cons, List.foldlM_nil, movz_wide general,
    movk_wide general 0xF2A00000 (by decide) (by decide),
    movk_wide general 0xF2C00000 (by decide) (by decide),
    movk_wide general 0xF2E00000 (by decide) (by decide),
    Option.bind_eq_bind, Option.bind_some, Function.update_self, Function.update_idem]
  exact congrArg (fun x => some (Function.update regs reg x)) last

end Constants

/-- `patch_loadimm`, at an offset in words. -/
def patchLoadimm (buf : Nat → Word) (pos : Nat) (reg : Word) (v : BitVec 64) : Nat → Word :=
  let buf := put buf (pos + 0) (0xD2800000 ||| (part v 0 <<< 5) ||| reg)
  let buf := put buf (pos + 1) (0xF2800000 ||| ((1 : Word) <<< 21) ||| (part v 1 <<< 5) ||| reg)
  let buf := put buf (pos + 2) (0xF2800000 ||| ((2 : Word) <<< 21) ||| (part v 2 <<< 5) ||| reg)
  put buf (pos + 3) (0xF2800000 ||| ((3 : Word) <<< 21) ||| (part v 3 <<< 5) ||| reg)

/-- The displacement of a branch in bytes: the field of its kind, sign-extended and
scaled by four. -/
def displacement (kind : BrKind) (w : Word) : Int :=
  4 * match kind with
    | .b => (w.extractLsb' 0 26).toInt
    | _ => (w.extractLsb' 5 19).toInt

theorem resolveAll_last {labOff : Nat → Nat} {buf : Nat → Word} {before after : List Fix} {f : Fix}
    (last : ∀ g ∈ after, g.site ≠ f.site) :
    resolveAll labOff buf (before ++ f :: after) f.site = f.resolved labOff := by
  rw [resolveAll, List.foldl_append, List.foldl_cons]
  exact (resolveAll_other last).trans (if_pos rfl)

theorem resolved_displacement {labOff : Nat → Nat} {f : Fix} (near : 4 * f.site < codeCap)
    (near' : 4 * labOff f.lab ≤ codeCap) (code : ∀ cond, f.kind = .bcond cond → cond.toNat < 16) :
    displacement f.kind (f.resolved labOff) = 4 * (labOff f.lab : Int) - 4 * f.site := by
  have room : codeCap = 2 ^ 18 := rfl
  rw [room] at near near'
  have low : -2 ^ 18 ≤ (labOff f.lab : Int) - f.site := by omega
  have high : (labOff f.lab : Int) - f.site < 2 ^ 18 := by omega
  have alone (w : Word) : w ||| 0 = w := BitVec.or_zero
  obtain ⟨site, lab, kind⟩ := f
  simp only at low high
  cases kind with
  | b =>
    simp only [displacement, Fix.resolved]
    rw [jump_bits, jump_toInt (by omega) (by omega), Int.mul_sub]
  | cbz =>
    simp only [displacement, Fix.resolved]
    rw [← alone (_ ||| _), branch_bits _ (by decide) (by decide), branch_toInt low high,
      Int.mul_sub]
  | cbnz =>
    simp only [displacement, Fix.resolved]
    rw [← alone (_ ||| _), branch_bits _ (by decide) (by decide), branch_toInt low high,
      Int.mul_sub]
  | bcond cond =>
    have clear : cond.extractLsb' 5 19 = 0 := by
      have small := code cond rfl
      apply BitVec.eq_of_toNat_eq
      rw [BitVec.extractLsb'_toNat, Nat.shiftRight_eq_div_pow, Nat.div_eq_of_lt (by omega)]
      rfl
    simp only [displacement, Fix.resolved]
    rw [branch_bits _ (by decide) clear, branch_toInt low high, Int.mul_sub]

/-- The words of a constant load it, are emitted and patched alike, and a branch that
was resolved leads from its site to its label. -/
theorem encodings :
    (∀ reg : BitVec 5, reg ≠ 31 → ∀ v regs,
      (loadimm (reg.setWidth 32) v).foldlM moveWide regs = some (Function.update regs reg v)) ∧
    (∀ c s (reg : BitVec 5) v,
      ((emitAll c (loadimm (reg.setWidth 32) v)).run s).2.oom = false →
        ((emitAll c (loadimm (reg.setWidth 32) v)).run s).2.buf =
          patchLoadimm s.buf s.pos (reg.setWidth 32) v) ∧
    (∀ buf pos (reg : BitVec 5) v, patchLoadimm buf pos (reg.setWidth 32) v =
      store buf pos (loadimm (reg.setWidth 32) v)) ∧
    ∀ s f before after, s.bfx = before ++ f :: after → (∀ g ∈ after, g.site ≠ f.site) →
      4 * f.site < codeCap → 4 * s.labOff f.lab ≤ codeCap →
      (∀ cond, f.kind = .bcond cond → cond.toNat < 16) →
      displacement f.kind ((resolveBranches.run s).2.buf f.site) =
        4 * (s.labOff f.lab : Int) - 4 * f.site := by
  refine ⟨fun reg general => loadimm_value general, ?_, fun _ _ _ _ => rfl, ?_⟩
  · intro c s reg v room
    rw [emitAll_run room]
    rfl
  · intro s f before after listed last near near' code
    rw [resolveBranches_run]
    simp only [listed]
    rw [resolveAll_last last, resolved_displacement near near' code]

def loopBack : Gen :=
  ⟨fun _ => 0, 3, false, fun _ => 1, 1, [⟨2, 0, .bcond cLt⟩], [], none⟩

theorem encodings_loopBack :
    (loadimm ((9 : BitVec 5).setWidth 32) 70000).foldlM moveWide (fun _ => 0) =
        some (Function.update (fun _ => 0) 9 70000) ∧
      ((emitAll ⟨codeCap, 0, [], fun _ => 0⟩ (loadimm ((9 : BitVec 5).setWidth 32) 70000)).run
        loopBack).2.buf = patchLoadimm loopBack.buf loopBack.pos ((9 : BitVec 5).setWidth 32) 70000 ∧
      displacement (.bcond cLt) ((resolveBranches.run loopBack).2.buf 2) = -4 :=
  ⟨encodings.1 9 (by decide) 70000 _, encodings.2.1 _ loopBack 9 70000 rfl,
    encodings.2.2.2 loopBack ⟨2, 0, .bcond cLt⟩ [] [] rfl (by simp) (by decide) (by decide)
      fun cond same => by
        cases same
        decide⟩

end XinuRpi5.Cc.Encodings
