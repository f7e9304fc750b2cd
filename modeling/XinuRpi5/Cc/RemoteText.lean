/- source: cc/cc.c
   digest: An argument that goes as text to another node, and the value that is read there. -/

import XinuRpi5.Cc.ValueText

namespace XinuRpi5.Cc.RemoteText

open Lib.ReadLog TaggedWords ValueTags ValueText

section Arguments

variable {D : Type}

/-- An integer, a truth value, or a string that reads as none of what else is sent. -/
def Plain : Value → Prop
  | .int _ => True
  | .bool _ => True
  | .str t => readNumber t = none ∧ t ≠ ascii "true" ∧ t ≠ ascii "false" ∧ t ≠ ascii "err"
  | .err => False
  | .list _ => False

/-- The heap for strings stands at proper addresses, and so does the empty literal. -/
structure HeapPlaced (s : State D) : Prop where
  aligned : s.vheap.toNat % 8 = 0
  nonnull : 0 < s.vheap.toNat
  low : s.vheap.toNat + 32768 ≤ 2 ^ 48
  filled : s.vheapLen % 8 = 0
  literal : Represents s.mem 1 (.str []) s.literal

/-- The value arrives: it is not the integer 0, and a string has room in the heap of the
receiver. -/
def Arrives (s : State D) : Value → Prop
  | .int n => n ≠ 0
  | .str t => t = [] ∨ s.vheapLen + (t.length + 1) ≤ 32768
  | _ => True

end Arguments

theorem digit_byte : ∀ d < 10, ¬ ((48 + UInt8.ofNat d : UInt8) < 48 ∨ 57 < 48 + UInt8.ofNat d) ∧
    (48 + UInt8.ofNat d : UInt8).toBitVec.setWidth 64 - 48 = BitVec.ofNat 64 d := by decide

theorem readDigits_map {ds : List Nat} (small : ∀ d ∈ ds, d < 10) (v : Word) (k : Nat) :
    readDigits (ds.map fun d => 48 + UInt8.ofNat d) v k =
      if 0 < k + ds.length then some (ds.foldl (fun v d => v * 10 + BitVec.ofNat 64 d) v)
      else none := by
  induction ds generalizing v k with
  | nil => rfl
  | cons d ds later =>
    have byte := digit_byte d (small d (List.mem_cons_self ..))
    rw [List.map_cons, readDigits, if_neg byte.1, byte.2,
      later (fun e there => small e (List.mem_cons_of_mem _ there)), if_pos (by omega),
      if_pos (by simp), List.foldl_cons]

theorem foldr_ofDigits (ds : List Nat) :
    ds.foldr (fun d v => v * 10 + BitVec.ofNat 64 d) (0 : Word) =
      BitVec.ofNat 64 (Nat.ofDigits 10 ds) := by
  induction ds with
  | nil => rfl
  | cons d ds later =>
    rw [List.foldr_cons, later, Nat.ofDigits_cons, BitVec.ofNat_add, BitVec.ofNat_mul,
      BitVec.add_comm, BitVec.mul_comm]
    rfl

theorem readDigits_digits {u : Nat} (positive : 0 < u) :
    readDigits (digits u).reverse 0 0 = some (BitVec.ofNat 64 u) := by
  have filled : 0 < (Nat.digits 10 u).length :=
    List.length_pos_iff.mpr (Nat.digits_ne_nil_iff_ne_zero.mpr (by omega))
  have small : ∀ d ∈ (Nat.digits 10 u).reverse, d < 10 := fun d there =>
    Nat.digits_lt_base (by decide) (List.mem_reverse.mp there)
  unfold digits
  rw [if_neg (by omega), ← List.map_reverse, readDigits_map small,
    if_pos (by rw [List.length_reverse]; omega), List.foldl_reverse, foldr_ofDigits,
    Nat.ofDigits_digits]

theorem readNumber_unsigned {c : UInt8} {t : Text} (other : c ≠ 45) :
    readNumber (c :: t) = readDigits (c :: t) 0 0 := by
  unfold readNumber
  split
  · rename_i same
    exact absurd (List.cons.inj same).1 other
  · rfl

theorem digits_head {u : Nat} (positive : 0 < u) :
    ∃ d < 10, ∃ t, (digits u).reverse = (48 + UInt8.ofNat d) :: t := by
  unfold digits
  rw [if_neg (by omega), ← List.map_reverse]
  cases cut : (Nat.digits 10 u).reverse with
  | nil =>
    have empty := List.reverse_eq_nil_iff.mp cut
    exact absurd empty (Nat.digits_ne_nil_iff_ne_zero.mpr (by omega))
  | cons d ds =>
    have there : d ∈ Nat.digits 10 u := by
      apply List.mem_reverse.mp
      rw [cut]
      exact List.mem_cons_self ..
    exact ⟨d, Nat.digits_lt_base (by decide) there, _, rfl⟩

theorem readNumber_decimal {n : Int} (nonzero : n ≠ 0) :
    readNumber (decimal n) = some (BitVec.ofInt 64 n) := by
  have read := readDigits_digits (u := n.natAbs) (by omega)
  unfold decimal
  split_ifs with negative
  · show (readDigits (digits n.natAbs).reverse 0 0).map (fun v => -v) = _
    have value : n = -(n.natAbs : Int) := by omega
    rw [read, Option.map_some, value, BitVec.ofInt_neg, BitVec.ofInt_natCast, Int.natAbs_neg,
      Int.natAbs_natCast]
  · obtain ⟨d, small, t, shape⟩ := digits_head (u := n.natAbs) (by omega)
    have other : (48 + UInt8.ofNat d : UInt8) ≠ 45 := by
      have all : ∀ d < 10, (48 + UInt8.ofNat d : UInt8) ≠ 45 := by decide
      exact all d small
    have value : n = (n.natAbs : Int) := by omega
    rw [List.nil_append, shape, readNumber_unsigned other, ← shape, read, value,
      BitVec.ofInt_natCast, Int.natAbs_natCast]

section Parsing

variable {D : Type} {s : State D} {t : Text}

theorem remoteParse_number {v : Word} (number : readNumber t = some v) :
    remoteParse t s = (vInt v, s) := by
  have ne (other : Text) (none : readNumber other = none) : t ≠ other := by
    rintro rfl
    rw [number] at none
    cases none
  unfold remoteParse
  rw [if_neg (ne [] rfl), if_neg (ne _ (by decide)), if_neg (ne _ (by decide)),
    if_neg (ne _ (by decide)), number]

theorem remoteParse_text (plain : Plain (.str t)) (filled : t ≠ []) :
    remoteParse t s = newStr t s := by
  obtain ⟨number, yes, no, error⟩ := plain
  unfold remoteParse
  rw [if_neg filled, if_neg yes, if_neg no, if_neg error, number]

theorem HeapPlaced.pointer (placed : HeapPlaced s) (room : s.vheapLen < 32768) :
    Pointer (s.vheap + BitVec.ofNat 64 s.vheapLen) := by
  obtain ⟨aligned, nonnull, low, filled, -⟩ := placed
  exact pointer_offset (by omega) nonnull (by omega)

theorem newStr_room (room : s.vheapLen + (t.length + 1) ≤ 32768) :
    newStr t s = (s.vheap + BitVec.ofNat 64 s.vheapLen,
      { s with
        mem.str := Function.update s.mem.str (s.vheap + BitVec.ofNat 64 s.vheapLen) t
        vheapLen := s.vheapLen + (t.length + 1 + 7) / 8 * 8 }) := by
  unfold newStr vheapAlloc
  rw [if_pos room]
  rfl

theorem newStr_full (full : ¬ s.vheapLen + (t.length + 1) ≤ 32768) :
    newStr t s = (s.literal, s) := by
  unfold newStr vheapAlloc
  rw [if_neg full]
  rfl

end Parsing

section Main

variable {D : Type} {m : Memory D} {s : State D} {v : Value} {w : Word} {fuel : Nat}

theorem vInt_63_injective {a b : BitVec 63}
    (same : vInt (a.signExtend 64) = vInt (b.signExtend 64)) : a = b := by
  apply BitVec.eq_of_toInt_eq
  rw [← vIntOf_63, same, vIntOf_63]

theorem remoteArgText_value (fp : Doubles D) (sent : Represents m (fuel + 1) v w) (small : Small v)
    (nonzero : w ≠ vInt 0) : (remoteArgText m fp (fuel + 1) w).value = v.plain := by
  unfold remoteArgText
  rw [if_neg nonzero]
  exact (vRender_represents fp sent).1 small 96 (by omega)

/-- What is read at the receiver from the text of an integer, a truth value or a string is what was
sent, exactly if that is not the integer 0 and, as a string, has room there. -/
theorem remote_argument_iff (fp : Doubles D) (sent : Represents m (fuel + 1) v w) (plain : Plain v)
    (placed : HeapPlaced s) :
    Represents (remoteParse (remoteArgText m fp (fuel + 1) w).value s).2.mem 1 v
      (remoteParse (remoteArgText m fp (fuel + 1) w).value s).1 ↔ Arrives s v := by
  have literal := placed.literal
  cases v with
  | int n =>
    have word : w = _ := sent
    subst word
    by_cases zero : n = 0
    · -- the text of the integer 0 is empty, and an even word comes out of it
      subst zero
      have odd := (Kind.of_kinds (kinds_int ((0 : BitVec 63).signExtend 64))).int
      have even : vIsInt s.literal = false := (Kind.of_kinds (kinds_str literal.1)).int
      refine iff_of_false (fun same => ?_) (fun nonzero => nonzero rfl)
      have reads : s.literal = vInt ((0 : BitVec 63).signExtend 64) := same
      rw [reads, odd] at even
      cases even
    · have other : vInt (n.signExtend 64) ≠ vInt 0 := fun same => zero (vInt_63_injective same)
      have nonzero : n.toInt ≠ 0 := fun same => zero (BitVec.eq_of_toInt_eq same)
      rw [remoteArgText_value fp sent trivial other, Value.plain,
        remoteParse_number (readNumber_decimal nonzero)]
      exact iff_of_true rfl zero
  | bool b =>
    have word : w = _ := sent
    subst word
    have other : vBool b ≠ vInt 0 := by
      cases b with
      | true => decide
      | false => decide
    rw [remoteArgText_value fp sent trivial other]
    refine iff_of_true ?_ trivial
    cases b with
    | true => rfl
    | false => rfl
  | str t =>
    have even : vIsInt w = false := (Kind.of_kinds (kinds_str sent.1)).int
    have other : w ≠ vInt 0 := by
      rintro rfl
      exact absurd even (by decide)
    rw [remoteArgText_value fp sent trivial other, Value.plain]
    by_cases filled : t = []
    · subst filled
      exact iff_of_true literal (.inl rfl)
    · rw [remoteParse_text plain filled]
      by_cases room : s.vheapLen + (t.length + 1) ≤ 32768
      · rw [newStr_room room]
        refine iff_of_true ⟨placed.pointer (by omega), ?_⟩ (.inr room)
        exact Function.update_self _ _ _
      · rw [newStr_full room]
        refine iff_of_false ?_ (fun arrives => arrives.elim filled room)
        rintro ⟨-, text⟩
        rw [literal.2] at text
        exact filled text.symm
  | err => exact plain.elim
  | list items => exact plain.elim

end Main

def idle : State Unit where
  mem := {
    str := fun _ => []
    list := fun _ => []
    dbl := fun _ => () }
  vheap := 64
  vheapLen := 0
  literal := 16

theorem idle_placed : HeapPlaced idle :=
  ⟨by decide, by decide, by decide, by decide, ⟨by decide, by decide, by decide⟩, rfl⟩

theorem remote_argument_five : Represents
    (remoteParse (remoteArgText idle.mem unitDoubles 1 (vInt 5)).value idle).2.mem 1 (.int 5)
      (remoteParse (remoteArgText idle.mem unitDoubles 1 (vInt 5)).value idle).1 :=
  (@remote_argument_iff Unit idle.mem idle (.int 5) (vInt 5) 0 unitDoubles rfl trivial
    idle_placed).mpr (show (5 : BitVec 63) ≠ 0 by decide)

/-- The integer 0 arrives as the empty string. -/
theorem zero_arrives_empty :
    (remoteParse (remoteArgText idle.mem unitDoubles 1 (vInt 0)).value idle).1 = 16 ∧
      (16 : Word) ≠ vInt 0 ∧ vIsStr 16 = true := by decide

end XinuRpi5.Cc.RemoteText
