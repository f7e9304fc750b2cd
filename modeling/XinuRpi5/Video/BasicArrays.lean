/- source: device/video/basic.c
   digest: Which DIM statements keep the arrays of a program disjoint and in the pool. -/

import Mathlib.Tactic.Linarith

namespace XinuRpi5.Video.BasicArrays

section Model

def arrPool : Int := 4096

/-- A value of type `int`, which wraps. -/
def int (x : Int) : Int := x.bmod 4294967296

/-- An entry of `varr`. -/
structure Arr where
  base : Int
  d1 : Int
  d2 : Int
  ndim : Nat

structure Arrays (V : Type) where
  varr : Nat → Arr
  arrpool : Int → V
  arrtop : Int

/-- One array of a DIM statement: its slot, which a full table of variables does not
give, and its subscripts as converted to `int`. -/
structure Item where
  slot : Option Nat
  first : Int
  second : Option Int

def Item.d1 (it : Item) : Int := int (it.first + 1)

def Item.d2 (it : Item) : Int := it.second.elim 1 fun e => int (e + 1)

def Item.ndim (it : Item) : Nat := it.second.elim 1 fun _ => 2

variable {V : Type} [Zero V]

def reserve (s : Arrays V) (li : Nat) (d1 d2 : Int) (ndim : Nat) (sz : Int) : Arrays V where
  varr := Function.update s.varr li ⟨s.arrtop, d1, d2, ndim⟩
  arrpool a := if s.arrtop ≤ a ∧ a < s.arrtop + sz then 0 else s.arrpool a
  arrtop := int (s.arrtop + sz)

def dimItem (s : Arrays V) (it : Item) : Option (Arrays V) :=
  let sz := int (it.d1 * it.d2)
  match it.slot with
  | none => none
  | some li =>
    if it.d1 < 1 ∨ it.d2 < 1 ∨ arrPool < int (s.arrtop + sz) then none
    else some (reserve s li it.d1 it.d2 it.ndim sz)

/-- `DIM`: whether all its items pass, and what they leave. -/
def dim (s : Arrays V) : List Item → Bool × Arrays V
  | [] => (true, s)
  | it :: rest =>
    match dimItem s it with
    | none => (false, s)
    | some s' => dim s' rest

/-- `arr_elem` on an array that was not dimensioned. -/
def autoDim (s : Arrays V) (li : Nat) : Arrays V :=
  if (s.varr li).ndim ≠ 0 ∨ arrPool < int (s.arrtop + 11) then s else reserve s li 11 1 1 11

/-- The index in the pool that `arr_elem` returns behind its subscripts. -/
def arrElem (s : Arrays V) (li : Nat) (i1 i2 : Int) : Option Int :=
  let a := s.varr li
  if a.ndim = 0 ∨ i1 < 0 ∨ a.d1 ≤ i1 ∨ i2 < 0 ∨ a.d2 ≤ i2 then none
  else some (int (a.base + i1 * a.d2 + i2))

/-- What a program does to its arrays; an element is opened, then its subscripts are
evaluated, which may open and read others, and then it is read or assigned. -/
inductive Event (V : Type) where
  | dim (items : List Item)
  | opens (li : Nat)
  | assign (li : Nat) (i1 i2 : Int) (v : V)

def step (s : Arrays V) : Event V → Arrays V
  | .dim items => (dim s items).2
  | .opens li => autoDim s li
  | .assign li i1 i2 v =>
    match arrElem s li i1 i2 with
    | none => s
    | some a => { s with arrpool := Function.update s.arrpool a v }

def cleared : Arrays V := ⟨fun _ => ⟨0, 0, 0, 0⟩, fun _ => 0, 0⟩

end Model

section Requirement

variable {V : Type} [Zero V]

def Arr.stop (a : Arr) : Int := a.base + a.d1 * a.d2

/-- Elements lie in the pool and in their array, and arrays lie apart. -/
structure Sound (s : Arrays V) : Prop where
  inside : ∀ li i1 i2 a, arrElem s li i1 i2 = some a →
    (0 ≤ a ∧ a < arrPool) ∧ (s.varr li).base ≤ a ∧ a < (s.varr li).stop
  apart : ∀ li lj, li ≠ lj → (s.varr li).ndim ≠ 0 → (s.varr lj).ndim ≠ 0 →
    (s.varr li).stop ≤ (s.varr lj).base ∨ (s.varr lj).stop ≤ (s.varr li).base

def passed (s : Arrays V) : List Item → List (Arrays V)
  | [] => []
  | it :: rest =>
    match dimItem s it with
    | none => []
    | some s' => s' :: passed s' rest

/-- The arrays are sound after each event and inside a DIM statement, and a DIM statement
that is refused changes nothing. -/
def Good (s : Arrays V) : Event V → Prop
  | .dim items => (∀ t ∈ passed s items, Sound t) ∧ ((dim s items).1 = false → (dim s items).2 = s)
  | e => Sound (step s e)

/-- No item that passes overflows an `int`. -/
def Fits (s : Arrays V) : List Item → Prop
  | [] => True
  | it :: rest =>
    match dimItem s it with
    | none => True
    | some s' => s.arrtop + it.d1 * it.d2 < 2 ^ 31 ∧ Fits s' rest

def AtOnce (s : Arrays V) (items : List Item) : Prop :=
  (dim s items).1 = true ∨ items.head?.bind (dimItem s) = none

def Meets (s : Arrays V) : Event V → Prop
  | .dim items => Fits s items ∧ AtOnce s items
  | _ => True

def Along (P : Arrays V → Event V → Prop) : Arrays V → List (Event V) → Prop
  | _, [] => True
  | s, e :: es => P s e ∧ Along P (step s e) es

end Requirement

section Invariant

variable {V : Type} [Zero V] {s s' : Arrays V}

theorem int_eq {x : Int} (low : -2 ^ 31 ≤ x) (high : x < 2 ^ 31) : int x = x :=
  Int.bmod_eq_of_le (by omega) (by omega)

structure Laid (s : Arrays V) : Prop where
  top : 0 ≤ s.arrtop ∧ s.arrtop ≤ arrPool
  arr : ∀ li, (s.varr li).ndim ≠ 0 → 0 ≤ (s.varr li).base ∧ 1 ≤ (s.varr li).d1 ∧
    1 ≤ (s.varr li).d2 ∧ (s.varr li).stop ≤ s.arrtop
  apart : ∀ li lj, li ≠ lj → (s.varr li).ndim ≠ 0 → (s.varr lj).ndim ≠ 0 →
    (s.varr li).stop ≤ (s.varr lj).base ∨ (s.varr lj).stop ≤ (s.varr li).base

theorem laid_cleared : Laid (cleared : Arrays V) :=
  ⟨⟨le_rfl, show (0 : Int) ≤ 4096 by decide⟩, fun _ some => absurd rfl some, fun _ _ _ some => absurd rfl some⟩

theorem offset_lt {d1 d2 i1 i2 : Int} (low : 0 ≤ i1) (high : i1 < d1) (low' : 0 ≤ i2)
    (high' : i2 < d2) : 0 ≤ i1 * d2 + i2 ∧ i1 * d2 + i2 < d1 * d2 := by
  have row : 0 ≤ i1 * d2 := mul_nonneg low (by omega)
  have rows : (i1 + 1) * d2 ≤ d1 * d2 := mul_le_mul_of_nonneg_right (by omega) (by omega)
  rw [add_mul, one_mul] at rows
  omega

omit [Zero V] in
theorem Laid.sound (laid : Laid s) : Sound s := by
  refine ⟨fun li i1 i2 a elem => ?_, laid.apart⟩
  rw [arrElem] at elem
  simp only [ite_eq_iff, reduceCtorEq, and_false, false_or, not_or, not_lt, not_le] at elem
  obtain ⟨⟨some, low, high, low', high'⟩, eq⟩ := elem
  obtain ⟨positive, -, -, stop⟩ := laid.arr li some
  have place := offset_lt low high low' high'
  have top := laid.top
  have pool : arrPool = 4096 := rfl
  rw [Arr.stop] at stop ⊢
  rw [int_eq (by omega) (by omega)] at eq
  cases eq
  omega

theorem Laid.reserve (laid : Laid s) {li : Nat} {d1 d2 : Int} (ndim : Nat) (rows : 1 ≤ d1)
    (columns : 1 ≤ d2) (room : s.arrtop + d1 * d2 ≤ arrPool) :
    Laid (reserve s li d1 d2 ndim (d1 * d2)) ∧
      s.arrtop < (BasicArrays.reserve s li d1 d2 ndim (d1 * d2)).arrtop := by
  have pool : arrPool = 4096 := rfl
  have size : 1 ≤ d1 * d2 := one_le_mul_of_one_le_of_one_le rows columns
  have top := laid.top
  have top' : (BasicArrays.reserve s li d1 d2 ndim (d1 * d2)).arrtop = s.arrtop + d1 * d2 :=
    int_eq (by omega) (by omega)
  have this : (BasicArrays.reserve s li d1 d2 ndim (d1 * d2)).varr li =
      ⟨s.arrtop, d1, d2, ndim⟩ := Function.update_self _ _ _
  have other {lj : Nat} (apart : lj ≠ li) :
      (BasicArrays.reserve s li d1 d2 ndim (d1 * d2)).varr lj = s.varr lj :=
    Function.update_of_ne apart _ _
  refine ⟨⟨by omega, fun lj some => ?_, fun li' lj apart some some' => ?_⟩, by omega⟩
  · by_cases same : lj = li
    · subst same
      rw [this, top', Arr.stop]
      exact ⟨top.1, rows, columns, le_rfl⟩
    · rw [other same] at some ⊢
      obtain ⟨positive, rows', columns', stop⟩ := laid.arr lj some
      exact ⟨positive, rows', columns', by omega⟩
  · by_cases same : li' = li
    · subst same
      rw [other (Ne.symm apart)] at some' ⊢
      rw [this]
      exact .inr (laid.arr lj some').2.2.2
    · rw [other same] at some ⊢
      by_cases same' : lj = li
      · subst same'
        rw [this]
        exact .inl (laid.arr li' some).2.2.2
      · rw [other same'] at some' ⊢
        exact laid.apart li' lj apart some some'

theorem dimItem_some {it : Item} (passes : dimItem s it = some s') :
    ∃ li, 1 ≤ it.d1 ∧ 1 ≤ it.d2 ∧ int (s.arrtop + int (it.d1 * it.d2)) ≤ arrPool ∧
      s' = reserve s li it.d1 it.d2 it.ndim (int (it.d1 * it.d2)) := by
  rw [dimItem] at passes
  cases slot : it.slot with
  | none => simp [slot] at passes
  | some li =>
    simp only [slot, ite_eq_iff, reduceCtorEq, and_false, false_or, not_or, not_lt] at passes
    obtain ⟨⟨rows, columns, room⟩, eq⟩ := passes
    exact ⟨li, by omega, by omega, room, (Option.some.inj eq).symm⟩

theorem Laid.item (laid : Laid s) {it : Item} (passes : dimItem s it = some s')
    (fits : s.arrtop + it.d1 * it.d2 < 2 ^ 31) : Laid s' ∧ s.arrtop < s'.arrtop := by
  obtain ⟨li, rows, columns, room, rfl⟩ := dimItem_some passes
  have size : 1 ≤ it.d1 * it.d2 := one_le_mul_of_one_le_of_one_le rows columns
  have top := laid.top
  have exact' : int (it.d1 * it.d2) = it.d1 * it.d2 := int_eq (by omega) (by omega)
  rw [exact', int_eq (by omega) (by omega)] at room
  rw [exact']
  exact laid.reserve it.ndim rows columns room

theorem Laid.overflow (laid : Laid s) {it : Item} (passes : dimItem s it = some s')
    (large : 2 ^ 31 ≤ s.arrtop + it.d1 * it.d2) : ¬ Sound s' := by
  obtain ⟨li, rows, columns, -, rfl⟩ := dimItem_some passes
  intro sound
  have pool : arrPool = 4096 := rfl
  have top := laid.top
  have positive : it.d2 ≠ 0 := by omega
  have split : 4096 / it.d2 * it.d2 + 4096 % it.d2 = 4096 := Int.ediv_mul_add_emod _ _
  have low := Int.ediv_nonneg (a := 4096) (b := it.d2) (by omega) (by omega)
  have low' := Int.emod_nonneg 4096 positive
  have high' := Int.emod_lt_of_pos 4096 (show 0 < it.d2 by omega)
  have high : 4096 / it.d2 < it.d1 := Int.ediv_lt_of_lt_mul (by omega) (by omega)
  have ndim : it.ndim ≠ 0 := by
    rw [Item.ndim]
    cases it.second with
    | none => exact Nat.one_ne_zero
    | some e => exact two_ne_zero
  have elem : arrElem (BasicArrays.reserve s li it.d1 it.d2 it.ndim (int (it.d1 * it.d2))) li
      (4096 / it.d2) (4096 % it.d2) = some (int (s.arrtop + 4096 / it.d2 * it.d2 + 4096 % it.d2)) := by
    rw [arrElem]
    simp only [BasicArrays.reserve, Function.update_self]
    rw [if_neg (by omega)]
  obtain ⟨⟨-, below⟩, -⟩ := sound.inside _ _ _ _ elem
  rw [add_assoc, split, int_eq (by omega) (by omega)] at below
  omega

end Invariant

section Runs

variable {V : Type} [Zero V] {s : Arrays V}

section

variable (laid : Laid s)

include laid

theorem Laid.passes_iff (items : List Item) :
    (∀ t ∈ passed s items, Sound t) ↔ Fits s items := by
  induction items generalizing s with
  | nil => exact ⟨fun _ => trivial, fun _ => nofun⟩
  | cons it rest ih =>
    rw [passed, Fits]
    cases passes : dimItem s it with
    | none => exact ⟨fun _ => trivial, fun _ => nofun⟩
    | some s' =>
      simp only [List.forall_mem_cons]
      by_cases fits : s.arrtop + it.d1 * it.d2 < 2 ^ 31
      · obtain ⟨laid', -⟩ := laid.item passes fits
        rw [ih laid']
        exact ⟨fun h => ⟨fits, h.2⟩, fun h => ⟨laid'.sound, h.2⟩⟩
      · exact ⟨fun h => absurd h.1 (laid.overflow passes (by omega)), fun h => absurd h.1 fits⟩

theorem Laid.dim {items : List Item} (fits : Fits s items) :
    Laid (dim s items).2 ∧ s.arrtop ≤ (BasicArrays.dim s items).2.arrtop := by
  induction items generalizing s with
  | nil => exact ⟨laid, le_rfl⟩
  | cons it rest ih =>
    rw [Fits] at fits
    rw [BasicArrays.dim]
    cases passes : dimItem s it with
    | none => exact ⟨laid, le_rfl⟩
    | some s' =>
      simp only [passes] at fits
      obtain ⟨laid', grows⟩ := laid.item passes fits.1
      obtain ⟨laid'', later⟩ := ih laid' fits.2
      exact ⟨laid'', le_trans grows.le later⟩

theorem Laid.atOnce_iff {items : List Item} (fits : Fits s items) :
    ((BasicArrays.dim s items).1 = false → (BasicArrays.dim s items).2 = s) ↔ AtOnce s items := by
  cases items with
  | nil => exact ⟨fun _ => .inl rfl, fun _ => nofun⟩
  | cons it rest =>
    rw [Fits] at fits
    rw [AtOnce, BasicArrays.dim, List.head?_cons, Option.bind_some]
    cases passes : dimItem s it with
    | none => exact ⟨fun _ => .inr rfl, fun _ _ => rfl⟩
    | some s' =>
      simp only [passes] at fits
      obtain ⟨laid', grows⟩ := laid.item passes fits.1
      have later := (laid'.dim fits.2).2
      simp only [reduceCtorEq, or_false]
      constructor
      · intro unchanged
        by_contra refused
        rw [unchanged (by simpa using refused)] at later
        omega
      · intro all refused
        rw [all] at refused
        cases refused

theorem Laid.opens (li : Nat) : Laid (autoDim s li) := by
  rw [autoDim]
  have pool : arrPool = 4096 := rfl
  have top := laid.top
  split_ifs with given
  · exact laid
  · rw [not_or, not_lt, int_eq (by omega) (by omega)] at given
    have ten : (1 : Int) ≤ 11 := by omega
    exact (laid.reserve 1 ten le_rfl (by omega)).1

theorem Laid.assign (li : Nat) (i1 i2 : Int) (v : V) :
    Laid (step s (.assign li i1 i2 v)) := by
  rw [step]
  cases arrElem s li i1 i2 with
  | none => exact laid
  | some a => exact ⟨laid.top, laid.arr, laid.apart⟩

theorem Laid.good_iff (e : Event V) : Good s e ↔ Meets s e := by
  cases e with
  | dim items =>
    rw [Good, Meets, laid.passes_iff]
    exact and_congr_right fun fits => laid.atOnce_iff fits
  | opens li => exact iff_of_true (laid.opens li).sound trivial
  | assign li i1 i2 v => exact iff_of_true (laid.assign li i1 i2 v).sound trivial

theorem Laid.step {e : Event V} (meets : Meets s e) : Laid (step s e) := by
  cases e with
  | dim items => exact (laid.dim meets.1).1
  | opens li => exact laid.opens li
  | assign li i1 i2 v => exact laid.assign li i1 i2 v

end

/-- The arrays of a run are sound, and its refused DIM statements change nothing, exactly
when no DIM item that passes overflows and none is refused behind one that passes. -/
theorem arrays_sound_iff (es : List (Event V)) : Along Good cleared es ↔ Along Meets cleared es := by
  have general : ∀ s : Arrays V, Laid s → (Along Good s es ↔ Along Meets s es) := by
    induction es with
    | nil => exact fun _ _ => Iff.rfl
    | cons e es ih =>
      intro s laid
      rw [Along, Along, laid.good_iff e]
      exact and_congr_right fun meets => ih _ (laid.step meets)
  exact general cleared laid_cleared

end Runs

/-- `DIM A(65535,65535)` passes with the size 0, and `A(0,4096)` lies behind the pool. -/
theorem large_dim_unsound :
    let s : Arrays Int := (dim cleared [⟨some 0, 65535, some 65535⟩]).2
    (dim (cleared : Arrays Int) [⟨some 0, 65535, some 65535⟩]).1 = true ∧
      arrElem s 0 0 4096 = some 4096 ∧
      ¬ Along Good (cleared : Arrays Int) [.dim [⟨some 0, 65535, some 65535⟩]] := by
  have outside : arrElem (dim (cleared : Arrays Int) [⟨some 0, 65535, some 65535⟩]).2 0 0 4096 =
      some 4096 := by decide
  refine ⟨by decide, outside, fun good => ?_⟩
  have sound := good.1.1 _ (List.mem_cons_self (l := []))
  exact absurd (sound.inside _ _ _ _ outside).1.2 (by decide)

end XinuRpi5.Video.BasicArrays
