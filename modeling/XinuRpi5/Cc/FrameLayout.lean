/- source: cc/codegen.c
   digest: The places that `assign_offsets` gives to the locals of a function. -/

import XinuRpi5.Cc.Codegen
import Mathlib.Algebra.Ring.Int.Defs

/-!
A byte of a frame is given by its distance from x29: the byte at distance `d` lies `d` bytes
below it.
-/

namespace XinuRpi5.Cc.FrameLayout

open Codegen

theorem alignUp_spec {n a : Int} (pos : 0 < a) (nonneg : 0 ≤ n) :
    n ≤ alignUp n a ∧ alignUp n a < n + a ∧ a ∣ alignUp n a := by
  unfold alignUp
  rw [Int.tdiv_eq_ediv_of_nonneg (by omega)]
  have split := Int.emod_add_mul_ediv (n + a - 1) a
  have low := Int.emod_nonneg (n + a - 1) (Int.ne_of_gt pos)
  have high := Int.emod_lt_of_pos (n + a - 1) pos
  rw [Int.mul_comm] at split
  exact ⟨by omega, by omega, Int.dvd_mul_left _ _⟩

def rounded (size : Int) : Int := (size + 7) / 8 * 8

theorem alignUp_eight {off size : Int} (aligned : 8 ∣ off) (nonneg : 0 ≤ off) (some : 0 ≤ size) :
    alignUp (off + size) 8 = off + rounded size := by
  obtain ⟨low, high, multiple⟩ := alignUp_spec (n := off + size) (a := 8) (by omega) (by omega)
  unfold rounded
  omega

/-- No size is negative, as a size that an `int` cannot hold can be. -/
def Sized (locals : List Ty) : Prop := ∀ ty ∈ locals, 0 ≤ ty.size

def total (locals : List Ty) : Int := (locals.map fun ty => rounded ty.size).sum

theorem Sized.tail {ty : Ty} {rest : List Ty} (sized : Sized (ty :: rest)) : Sized rest :=
  fun x mem => sized x (List.mem_cons_of_mem ty mem)

theorem rounded_spec (size : Int) : size ≤ rounded size ∧ 8 ∣ rounded size := by
  unfold rounded
  omega

theorem total_nonneg {locals : List Ty} (sized : Sized locals) :
    0 ≤ total locals ∧ 8 ∣ total locals := by
  induction locals with
  | nil => exact ⟨Int.le_refl 0, Int.dvd_zero 8⟩
  | cons ty rest ih =>
    have first := rounded_spec ty.size
    have positive := sized ty List.mem_cons_self
    have later := ih sized.tail
    unfold total at later ⊢
    rw [List.map_cons, List.sum_cons]
    omega

theorem offsetsFrom_length (off : Int) (locals : List Ty) :
    (offsetsFrom off locals).1.length = locals.length := by
  induction locals generalizing off with
  | nil => rfl
  | cons ty rest ih =>
    unfold offsetsFrom
    rw [List.length_cons, ih, List.length_cons]

/-- Each local stands below those in front of it in the list. -/
theorem offsetsFrom_spec {off : Int} {locals : List Ty} (sized : Sized locals) (nonneg : 0 ≤ off)
    (aligned : 8 ∣ off) {j : Nat} {ty : Ty} (has : locals[j]? = some ty) :
    ∃ o, (offsetsFrom off locals).1[j]? = some o ∧ off + rounded ty.size ≤ o ∧ 8 ∣ o ∧
      o ≤ off + total locals ∧
      ∀ i o', i < j → (offsetsFrom off locals).1[i]? = some o' → o' + rounded ty.size ≤ o := by
  induction locals generalizing off j with
  | nil => cases has
  | cons first rest ih =>
    have some := sized first List.mem_cons_self
    have step := rounded_spec first.size
    have later := total_nonneg sized.tail
    have sum : total (first :: rest) = rounded first.size + total rest := by
      unfold total
      rw [List.map_cons, List.sum_cons]
    unfold offsetsFrom
    rw [alignUp_eight aligned nonneg some, sum]
    cases j with
    | zero =>
      obtain rfl := Option.some.inj has
      refine ⟨_, rfl, Int.le_refl _, by omega, by omega, ?_⟩
      intro i _ less
      exact absurd less (Nat.not_lt_zero i)
    | succ j =>
      have below : 0 ≤ off + rounded first.size := by omega
      have multiple' : 8 ∣ off + rounded first.size := by omega
      obtain ⟨o, is, low, multiple, high, before⟩ := ih sized.tail below multiple' has
      refine ⟨o, is, by omega, multiple, by omega, ?_⟩
      intro i o' less place
      cases i with
      | zero =>
        obtain rfl := Option.some.inj place
        exact low
      | succ i => exact before i o' (Nat.lt_of_succ_lt_succ less) place

section Slots

variable (locals : List Ty)

def offsetOf (i : Nat) : Int := (assignOffsets locals).1.getD i 0

def InSlot (i : Nat) (size d : Int) : Prop := offsetOf locals i - size < d ∧ d ≤ offsetOf locals i

def Apart (width : Nat → Int) : Prop :=
  ∀ i j, i < j → j < locals.length →
    ∀ d, InSlot locals i (width i) d → ¬ InSlot locals j (width j) d

variable {locals}

theorem offsetOf_spec (sized : Sized locals) {j : Nat} {ty : Ty} (has : locals[j]? = some ty) :
    rounded ty.size ≤ offsetOf locals j ∧ 8 ∣ offsetOf locals j ∧
      offsetOf locals j ≤ total locals ∧
      ∀ i, i < j → offsetOf locals i + rounded ty.size ≤ offsetOf locals j := by
  obtain ⟨o, is, low, multiple, high, before⟩ :=
    offsetsFrom_spec sized (Int.le_refl 0) (Int.dvd_zero 8) has
  have here : offsetOf locals j = o := by
    unfold offsetOf assignOffsets
    rw [List.getD_eq_getElem?_getD, is]
    rfl
  rw [here]
  refine ⟨by omega, multiple, by omega, ?_⟩
  intro i less
  have inside : i < (offsetsFrom 0 locals).1.length := by
    rw [offsetsFrom_length]
    exact Nat.lt_trans less (List.getElem?_eq_some_iff.mp has).1
  have at' : (offsetsFrom 0 locals).1[i]? = some (offsetOf locals i) := by
    unfold offsetOf assignOffsets
    rw [List.getD_eq_getElem?_getD, List.getElem?_eq_getElem inside]
    rfl
  exact before i _ less at'

theorem apart_of_sized (sized : Sized locals) {width : Nat → Int}
    (fits : ∀ j ty, locals[j]? = some ty → width j ≤ rounded ty.size) : Apart locals width := by
  intro i j less inside d first second
  have has : locals[j]? = some (locals.get ⟨j, inside⟩) := List.getElem?_eq_getElem inside
  have place := (offsetOf_spec sized has).2.2.2 i less
  have narrow := fits j _ has
  unfold InSlot at first second
  omega

end Slots

end XinuRpi5.Cc.FrameLayout
