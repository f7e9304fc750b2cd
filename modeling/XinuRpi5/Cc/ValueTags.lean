/- source: cc/cc.c
   digest: The kinds of tagged words exclude each other, except for the error value. -/

import XinuRpi5.Cc.TaggedWords

namespace XinuRpi5.Cc.ValueTags

open Lib.ReadLog TaggedWords

section Values

/-- An address of an object: aligned to 8, not null and below 2^48. -/
structure Pointer (p : Word) : Prop where
  aligned : p &&& 7 = 0
  nonnull : p ≠ 0
  low : p.toNat < 2 ^ 48

/-- A memory, and which addresses hold its strings, its lists and its boxed numbers. -/
structure Objects (D : Type) where
  mem : Memory D
  isStr : Word → Prop
  isList : Word → Prop
  isDbl : Word → Prop

variable {D : Type} (h : Objects D)

inductive Value : Word → Prop
  | int (n : Word) : Value (vInt n)
  | bool (b : Bool) : Value (vBool b)
  | str (p : Word) (there : h.isStr p) : Value (vStr p)
  | float (p : Word) (there : h.isDbl p) : Value (vFloat p)
  | list (p : Word) (there : h.isList p) : Value (vList p)
  | err : Value vErr

structure Proper : Prop where
  str : ∀ p, h.isStr p → Pointer p
  list : ∀ p, h.isList p → Pointer p
  dbl : ∀ p, h.isDbl p → Pointer p
  items : ∀ p, h.isList p → ∀ w ∈ h.mem.list p, Value h w

def Holds : Ref → Prop
  | .str a => h.isStr a
  | .list a => h.isList a
  | .dbl a => h.isDbl a

def kinds (w : Word) : List Bool :=
  [vIsInt w, vIsBool w, vIsFloat w, vIsList w, vIsErr w, vIsStr w]

def OneKind (w : Word) : Prop := (kinds w).count true = 1

instance (w : Word) : Decidable (OneKind w) := inferInstanceAs (Decidable (_ = _))

structure Safe (fp : Doubles D) (a b : Word) : Prop where
  add : ∀ fuel, Log.Within (Holds h) (vAdd h.mem fp fuel a b)
  eq : Log.Within (Holds h) (vEq h.mem fp a b)
  truthy : Log.Within (Holds h) (vTruthy h.mem fp a) ∧ Log.Within (Holds h) (vTruthy h.mem fp b)
  render : ∀ fuel cap, Log.Within (Holds h) (vRender h.mem fp fuel a cap) ∧
    Log.Within (Holds h) (vRender h.mem fp fuel b cap)

end Values

section Bits

theorem bit_eq (w : Word) (i : Nat) : bit w i = w.getLsbD i := by
  unfold bit
  have low : w >>> i &&& 1 = (BitVec.ofBool ((w >>> i).getLsbD 0)).setWidth 64 :=
    BitVec.and_one_eq_setWidth_ofBool_getLsbD
  rw [low, BitVec.getLsbD_ushiftRight, Nat.add_zero]
  cases w.getLsbD i with
  | false => rfl
  | true => rfl

theorem high_bits (w : Word) : (w >>> 60 &&& 7 = 0) ↔
    w.getLsbD 60 = false ∧ w.getLsbD 61 = false ∧ w.getLsbD 62 = false := by
  have four : ∀ y : BitVec 4, (y.setWidth 64 &&& (7 : Word) = 0) ↔
      y.getLsbD 0 = false ∧ y.getLsbD 1 = false ∧ y.getLsbD 2 = false := by decide
  have top : w >>> 60 = (w.extractLsb' 60 4).setWidth 64 := by
    apply BitVec.eq_of_getLsbD_eq
    intro i _
    rw [BitVec.getLsbD_ushiftRight, BitVec.getLsbD_setWidth, BitVec.getLsbD_extractLsb']
    by_cases small : i < 4
    · simp [small, show i < 64 by omega]
    · simp [small, BitVec.getLsbD_of_ge w (60 + i) (by omega)]
  rw [top, four, BitVec.getLsbD_extractLsb', BitVec.getLsbD_extractLsb',
    BitVec.getLsbD_extractLsb']
  simp

theorem kinds_eq {w : Word} {int err float list bool : Bool} (zero : w.getLsbD 0 = int)
    (b59 : w.getLsbD 59 = err) (b60 : w.getLsbD 60 = float) (b61 : w.getLsbD 61 = list)
    (b62 : w.getLsbD 62 = bool) :
    kinds w = [int, !int && bool, !int && float, !int && list,
      !int && err && decide (float = false ∧ list = false ∧ bool = false),
      !int && decide (w ≠ 0) && !(!int && float) && !(!int && list) && !(!int && bool)] := by
  simp only [kinds, vIsInt, vIsBool, vIsFloat, vIsList, vIsErr, vIsStr, bit_eq, high_bits, zero, b59,
    b60, b61, b62]

variable {p : Word}

theorem pointer_offset {base : Word} {k : Nat} (aligned : (base.toNat + k) % 8 = 0)
    (nonnull : 0 < base.toNat) (low : base.toNat + k < 2 ^ 48) :
    Pointer (base + BitVec.ofNat 64 k) := by
  have value : (base + BitVec.ofNat 64 k).toNat = base.toNat + k := by
    rw [BitVec.toNat_add, BitVec.toNat_ofNat]
    omega
  constructor
  · apply BitVec.eq_of_toNat_eq
    rw [BitVec.toNat_and, value]
    show (base.toNat + k) &&& (2 ^ 3 - 1) = 0
    rw [Nat.and_two_pow_sub_one_eq_mod]
    exact aligned
  · intro null
    rw [null, show (0 : Word).toNat = 0 from rfl] at value
    omega
  · rw [value]
    exact low

theorem tag_bit {k : Nat} (i : Nat) (inside : k < 64) :
    ((1 : Word) <<< k).getLsbD i = decide (i = k) := by
  rw [BitVec.getLsbD_shiftLeft]
  by_cases here : i = k
  · subst here
    simp [inside]
  · by_cases below : i < k
    · simp [below, here]
    · have past : i - k ≠ 0 := by omega
      simp [here, BitVec.getLsbD_one, past]

theorem kinds_int (n : Word) : kinds (vInt n) = [true, false, false, false, false, false] := by
  have odd : (vInt n).getLsbD 0 = true := by
    unfold vInt
    simp
  rw [kinds_eq odd rfl rfl rfl rfl]
  rfl

theorem kinds_bool (b : Bool) : kinds (vBool b) = [false, true, false, false, false, false] := by
  cases b with
  | false => decide
  | true => decide

theorem kinds_err : kinds vErr = [false, false, false, false, true, true] := by decide

variable (pointer : Pointer p)

include pointer

theorem Pointer.even : p.getLsbD 0 = false := by
  have low := congrArg (fun x : Word => x.getLsbD 0) pointer.aligned
  simpa using low

theorem Pointer.high {i : Nat} (above : 48 ≤ i) : p.getLsbD i = false := by
  rw [BitVec.getLsbD, Nat.testBit_lt_two_pow]
  exact Nat.lt_of_lt_of_le pointer.low (Nat.pow_le_pow_right (by omega) above)

theorem kinds_str :
    kinds (vStr p) = [false, false, false, false, false, true] := by
  unfold vStr
  rw [kinds_eq pointer.even (pointer.high (by omega)) (pointer.high (by omega))
    (pointer.high (by omega)) (pointer.high (by omega))]
  simpa using pointer.nonnull

theorem kinds_float :
    kinds (vFloat p) = [false, false, true, false, false, false] := by
  have bits (i : Nat) : (vFloat p).getLsbD i = (p.getLsbD i || decide (i = 60)) := by
    unfold vFloat vFloatTag
    rw [BitVec.getLsbD_or, tag_bit i (by omega)]
  rw [kinds_eq (bits 0) (bits 59) (bits 60) (bits 61) (bits 62), pointer.even,
    pointer.high (by omega), pointer.high (by omega), pointer.high (by omega),
    pointer.high (by omega)]
  simp

theorem kinds_list :
    kinds (vList p) = [false, false, false, true, false, false] := by
  have bits (i : Nat) : (vList p).getLsbD i = (p.getLsbD i || decide (i = 61)) := by
    unfold vList vListTag
    rw [BitVec.getLsbD_or, tag_bit i (by omega)]
  rw [kinds_eq (bits 0) (bits 59) (bits 60) (bits 61) (bits 62), pointer.even,
    pointer.high (by omega), pointer.high (by omega), pointer.high (by omega),
    pointer.high (by omega)]
  simp

theorem vPtr_tagged {k : Nat} (high : 48 ≤ k) (inside : k < 64) :
    vPtr (p ||| (1 : Word) <<< k) = p := by
  have mask : vPtrMask = (BitVec.allOnes 48).setWidth 64 := by decide
  unfold vPtr
  rw [mask]
  apply BitVec.eq_of_getLsbD_eq
  intro i _
  rw [BitVec.getLsbD_and, BitVec.getLsbD_or, tag_bit i inside, BitVec.getLsbD_setWidth,
    BitVec.getLsbD_allOnes]
  by_cases low : i < 48
  · have other : i ≠ k := by omega
    simp [low, other, show i < 64 by omega]
  · simp [low, pointer.high (Nat.not_lt.mp low)]

end Bits

theorem vInt_ofInt (n : Int) : vInt (BitVec.ofInt 64 n) = BitVec.ofInt 64 (2 * n + 1) := by
  have apart : (BitVec.ofInt 64 n <<< 1) &&& (1 : Word) = 0 := by
    apply BitVec.eq_of_getLsbD_eq
    intro i _
    by_cases first : i = 0
    · simp [first]
    · simp [BitVec.getLsbD_one, first]
  unfold vInt
  rw [← BitVec.add_eq_or_of_and_eq_zero _ _ apart, BitVec.shiftLeft_eq_mul_twoPow,
    BitVec.ofInt_add, BitVec.ofInt_mul, BitVec.mul_comm]
  rfl

theorem vIntOf_vInt {n : Int} (low : -2 ^ 62 ≤ n) (high : n < 2 ^ 62) :
    (vIntOf (vInt (BitVec.ofInt 64 n))).toInt = n := by
  have odd : vIsInt (vInt (BitVec.ofInt 64 n)) = true := by
    have kinds := kinds_int (BitVec.ofInt 64 n)
    exact (List.cons.inj kinds).1
  have shifted := vInt_ofInt n
  have value : (BitVec.ofInt 64 (2 * n + 1)).toInt = 2 * n + 1 := by
    rw [BitVec.toInt_ofInt]
    apply Int.bmod_eq_of_le
    all_goals omega
  unfold vIntOf
  rw [if_pos odd, BitVec.toInt_sshiftRight, shifted, value, Int.shiftRight_eq_div_pow]
  omega

section Reading

variable {D : Type} {h : Objects D} {fp : Doubles D} {a b w : Word}

structure Kind (w : Word) (int bool float list err str : Bool) : Prop where
  int : vIsInt w = int
  bool : vIsBool w = bool
  float : vIsFloat w = float
  list : vIsList w = list
  err : vIsErr w = err
  str : vIsStr w = str

theorem Kind.of_kinds {int bool float list err str : Bool}
    (same : kinds w = [int, bool, float, list, err, str]) : Kind w int bool float list err str := by
  unfold kinds at same
  simp only [List.cons.injEq] at same
  obtain ⟨i, b, f, l, e, s, -⟩ := same
  exact ⟨i, b, f, l, e, s⟩

variable {p : Word}

theorem within_readStr (there : h.isStr p) :
    Log.Within (Holds h) (readStr h.mem p) := by
  intro r listed
  rw [List.mem_singleton.mp listed]
  exact there

theorem within_readList (there : h.isList p) :
    Log.Within (Holds h) (readList h.mem p) := by
  intro r listed
  rw [List.mem_singleton.mp listed]
  exact there

theorem within_readDbl (there : h.isDbl p) :
    Log.Within (Holds h) (readDbl h.mem p) := by
  intro r listed
  rw [List.mem_singleton.mp listed]
  exact there

theorem vPtr_float (pointer : Pointer p) : vPtr (vFloat p) = p :=
  vPtr_tagged pointer (by omega) (by omega)

theorem vPtr_list (pointer : Pointer p) : vPtr (vList p) = p :=
  vPtr_tagged pointer (by omega) (by omega)

theorem vToFloat_within (fp : Doubles D) (proper : Proper h) (value : Value h w) :
    Log.Within (Holds h) (vToFloat h.mem fp w) := by
  unfold vToFloat
  cases value with
  | int n =>
    have kind := Kind.of_kinds (kinds_int n)
    simp [kind.int]
  | bool c =>
    have kind := Kind.of_kinds (kinds_bool c)
    simp [kind.int, kind.bool]
  | str p there =>
    have kind := Kind.of_kinds (kinds_str (proper.str p there))
    simp [kind.int, kind.bool, kind.float]
  | float p there =>
    have kind := Kind.of_kinds (kinds_float (proper.dbl p there))
    simp only [kind.int, kind.bool, kind.float, vPtr_float (proper.dbl p there)]
    exact within_readDbl there
  | list p there =>
    have kind := Kind.of_kinds (kinds_list (proper.list p there))
    simp [kind.int, kind.bool, kind.float]
  | err =>
    have kind := Kind.of_kinds kinds_err
    simp [kind.int, kind.bool, kind.float]

theorem vTruthy_within (proper : Proper h) (value : Value h w) :
    Log.Within (Holds h) (vTruthy h.mem fp w) := by
  have float := vToFloat_within fp proper value
  unfold vTruthy
  split_ifs with zero int bool err isFloat list
  · exact Log.within_pure _ _
  · exact Log.within_pure _ _
  · exact Log.within_pure _ _
  · exact Log.within_pure _ _
  · rw [Log.within_bind_of float]
    exact Log.within_pure _ _
  · cases value with
    | list p there =>
      rw [vPtr_list (proper.list p there), Log.within_bind_of (within_readList there)]
      exact Log.within_pure _ _
    | int n => simp [(Kind.of_kinds (kinds_int n)).int] at int
    | bool c => simp [(Kind.of_kinds (kinds_bool c)).bool] at bool
    | str p there => simp [(Kind.of_kinds (kinds_str (proper.str p there))).list] at list
    | float p there => simp [(Kind.of_kinds (kinds_float (proper.dbl p there))).float] at isFloat
    | err => simp [(Kind.of_kinds kinds_err).err] at err
  · cases value with
    | str p there =>
      rw [Log.within_bind_of (within_readStr (p := vStr p) there)]
      exact Log.within_pure _ _
    | int n => simp [(Kind.of_kinds (kinds_int n)).int] at int
    | bool c => simp [(Kind.of_kinds (kinds_bool c)).bool] at bool
    | float p there => simp [(Kind.of_kinds (kinds_float (proper.dbl p there))).float] at isFloat
    | list p there => simp [(Kind.of_kinds (kinds_list (proper.list p there))).list] at list
    | err => simp [(Kind.of_kinds kinds_err).err] at err

theorem renderItems_within {P : Ref → Prop} {render : Word → Log Ref Text} {cap : Nat}
    {items : List Word} (safe : ∀ w ∈ items, Log.Within P (render w)) (first : Bool) (buf : Text) :
    Log.Within P (renderItems render cap first items buf) := by
  induction items generalizing first buf with
  | nil => exact Log.within_pure _ _
  | cons w rest later =>
    unfold renderItems
    split_ifs
    · rw [Log.within_bind_of (safe w (List.mem_cons_self ..))]
      exact later (fun e there => safe e (List.mem_cons_of_mem _ there)) _ _
    · rw [Log.within_bind_of (safe w (List.mem_cons_self ..))]
      exact later (fun e there => safe e (List.mem_cons_of_mem _ there)) _ _
    · exact Log.within_pure _ _

/-- The elements of a list are values, so the rendering is safe at every depth. -/
theorem vRender_within (proper : Proper h) (fuel : Nat) (cap : Nat) (value : Value h w) :
    Log.Within (Holds h) (vRender h.mem fp fuel w cap) := by
  induction fuel generalizing w cap with
  | zero => exact Log.within_pure _ _
  | succ fuel deeper =>
    have float := vToFloat_within fp proper value
    unfold vRender
    cases value with
    | int n =>
      have kind := Kind.of_kinds (kinds_int n)
      simp [kind.list, kind.bool, kind.err, kind.str, kind.float]
    | bool c =>
      have kind := Kind.of_kinds (kinds_bool c)
      simp [kind.list, kind.bool]
    | str p there =>
      have kind := Kind.of_kinds (kinds_str (proper.str p there))
      simp only [kind.list, kind.bool, kind.err, kind.str]
      exact within_readStr there
    | float p there =>
      have kind := Kind.of_kinds (kinds_float (proper.dbl p there))
      simp only [kind.list, kind.bool, kind.err, kind.str, kind.float, Bool.false_eq_true, if_false,
        if_true]
      rw [Log.within_bind_of float]
      exact Log.within_pure _ _
    | list p there =>
      have kind := Kind.of_kinds (kinds_list (proper.list p there))
      simp only [kind.list, if_true]
      rw [vPtr_list (proper.list p there), Log.within_bind_of (within_readList there),
        Log.within_bind_of]
      · exact Log.within_pure _ _
      · apply renderItems_within
        intro e inside
        exact deeper 24 (proper.items p there e inside)
    | err =>
      have kind := Kind.of_kinds kinds_err
      simp [kind.list, kind.bool, kind.err]

theorem vAdd_within (proper : Proper h) (fuel : Nat) (left : Value h a) (right : Value h b) :
    Log.Within (Holds h) (vAdd h.mem fp fuel a b) := by
  unfold vAdd
  split_ifs with text float
  · rw [Log.within_bind_of (vRender_within proper fuel 32 left),
      Log.within_bind_of (vRender_within proper fuel 32 right)]
    exact Log.within_pure _ _
  · rw [Log.within_bind_of (vToFloat_within fp proper left),
      Log.within_bind_of (vToFloat_within fp proper right)]
    exact Log.within_pure _ _
  · exact Log.within_pure _ _

theorem Value.isStr_of (value : Value h w) (proper : Proper h) (sound : w ≠ vErr)
    (text : vIsStr w = true) : h.isStr w := by
  cases value with
  | str p there => exact there
  | int n => simp [(Kind.of_kinds (kinds_int n)).str] at text
  | bool c => simp [(Kind.of_kinds (kinds_bool c)).str] at text
  | float p there => simp [(Kind.of_kinds (kinds_float (proper.dbl p there))).str] at text
  | list p there => simp [(Kind.of_kinds (kinds_list (proper.list p there))).str] at text
  | err => exact absurd rfl sound

theorem vStreq_within (left : h.isStr a) (right : h.isStr b) :
    Log.Within (Holds h) (vStreq h.mem a b) := by
  unfold vStreq
  split_ifs with null
  · exact Log.within_pure _ _
  · rw [Log.within_bind_of (within_readStr left), Log.within_bind_of (within_readStr right)]
    exact Log.within_pure _ _

theorem vEq_within (proper : Proper h) (left : Value h a) (right : Value h b) (soundLeft : a ≠ vErr)
    (soundRight : b ≠ vErr) : Log.Within (Holds h) (vEq h.mem fp a b) := by
  unfold vEq
  split_ifs with both one float
  · rw [Bool.and_eq_true] at both
    have leftThere := left.isStr_of proper soundLeft both.1
    have rightThere := right.isStr_of proper soundRight both.2
    rw [Log.within_bind_of (vStreq_within leftThere rightThere)]
    exact Log.within_pure _ _
  · exact Log.within_pure _ _
  · rw [Log.within_bind_of (vToFloat_within fp proper left),
      Log.within_bind_of (vToFloat_within fp proper right)]
    exact Log.within_pure _ _
  · exact Log.within_pure _ _

end Reading

section Main

variable {D : Type} {h : Objects D} {a b w : Word}

theorem Value.oneKind_iff (value : Value h w) (proper : Proper h) : OneKind w ↔ w ≠ vErr := by
  have error : ¬ OneKind vErr := by
    unfold OneKind
    rw [kinds_err]
    decide
  constructor
  · rintro one rfl
    exact error one
  · intro sound
    unfold OneKind
    cases value with
    | int n => rw [kinds_int]; rfl
    | bool c => rw [kinds_bool]; rfl
    | str p there => rw [kinds_str (proper.str p there)]; rfl
    | float p there => rw [kinds_float (proper.dbl p there)]; rfl
    | list p there => rw [kinds_list (proper.list p there)]; rfl
    | err => exact absurd rfl sound

/-- Integers are given back, and two values have one kind each and are safe to work with just when
neither is the error value. -/
theorem values_unambiguous_iff (proper : Proper h) (fp : Doubles D) (left : Value h a)
    (right : Value h b) :
    (∀ n : Int, -2 ^ 62 ≤ n → n < 2 ^ 62 → (vIntOf (vInt (BitVec.ofInt 64 n))).toInt = n) ∧
      ((OneKind a ∧ OneKind b ∧ Safe h fp a b) ↔ a ≠ vErr ∧ b ≠ vErr) := by
  refine ⟨fun n low high => vIntOf_vInt low high, ?_⟩
  rw [left.oneKind_iff proper, right.oneKind_iff proper]
  constructor
  · rintro ⟨soundLeft, soundRight, -⟩
    exact ⟨soundLeft, soundRight⟩
  · rintro ⟨soundLeft, soundRight⟩
    refine ⟨soundLeft, soundRight, ?_⟩
    exact {
      add := fun fuel => vAdd_within proper fuel left right
      eq := vEq_within proper left right soundLeft soundRight
      truthy := ⟨vTruthy_within proper left, vTruthy_within proper right⟩
      render := fun fuel cap =>
        ⟨vRender_within proper fuel cap left, vRender_within proper fuel cap right⟩ }

def bare : Objects Unit where
  mem := ⟨fun _ => [], fun _ => [], fun _ => ()⟩
  isStr _ := False
  isList _ := False
  isDbl _ := False

def unitDoubles : Doubles Unit := ⟨fun _ => (), (), fun _ _ => (), fun _ _ => true, fun _ _ => []⟩

theorem bare_proper : Proper bare :=
  ⟨fun _ none => none.elim, fun _ none => none.elim, fun _ none => none.elim,
    fun _ none => none.elim⟩

theorem values_unambiguous_five : Safe bare unitDoubles (vInt 5) (vBool true) :=
  ((values_unambiguous_iff bare_proper unitDoubles (.int 5) (.bool true)).2.mpr
    ⟨by decide, by decide⟩).2.2

/-- The error value is an error and a string, and comparing it with itself reads a string at the
address 1 << 59. -/
theorem error_read_as_string : Value bare vErr ∧ ¬ OneKind vErr ∧
    Ref.str vErr ∈ (vEq bare.mem unitDoubles vErr vErr).reads ∧ ¬ Pointer vErr := by
  refine ⟨.err, by decide, by decide, ?_⟩
  intro pointer
  exact absurd pointer.low (by decide)

end Main

end XinuRpi5.Cc.ValueTags
