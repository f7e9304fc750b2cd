/- source: cc/cc.c
   digest: What v_print writes, against the text that v_add makes of the same value. -/

import Mathlib.Data.Nat.Digits.Lemmas
import XinuRpi5.Cc.ValueTags

namespace XinuRpi5.Cc.ValueText

open Lib.ReadLog TaggedWords ValueTags

section Plain

inductive Value where
  | int (n : BitVec 63)
  | bool (b : Bool)
  | str (t : Text)
  | err
  | list (items : List Value)

def decimal (n : Int) : Text := (if n < 0 then [45] else []) ++ (digits n.natAbs).reverse

def separator (first : Bool) : Text := if first then [] else [44, 32]

/-- Texts one after the other, with a comma and a space in front of all but the first. -/
def joined {α : Type} (f : α → Text) : Bool → List α → Text
  | _, [] => []
  | first, v :: rest => separator first ++ f v ++ joined f false rest

mutual

def Value.plain : Value → Text
  | .int n => decimal n.toInt
  | .bool b => if b then ascii "true" else ascii "false"
  | .str t => t
  | .err => ascii "err"
  | .list items => [91] ++ plainItems true items ++ [93]

def plainItems : Bool → List Value → Text
  | _, [] => []
  | first, v :: rest => separator first ++ v.plain ++ plainItems false rest

end

/-- A list that a buffer of 24 bytes has room for; other values are not cut. -/
def Small : Value → Prop
  | .list items => (Value.list items).plain.length ≤ 23
  | _ => True

/-- No buffer cuts the value: neither itself nor, in a list, its elements. -/
def Whole : Value → Prop
  | .list items => (Value.list items).plain.length ≤ 31 ∧ ∀ v ∈ items, Small v
  | _ => True

variable {D : Type}

/-- A word stands for a value whose lists are nested less deeply than the bound. -/
def Represents (m : Memory D) : Nat → Value → Word → Prop
  | 0, _, _ => False
  | _ + 1, .int n, w => w = vInt (n.signExtend 64)
  | _ + 1, .bool b, w => w = vBool b
  | _ + 1, .str t, w => Pointer w ∧ m.str w = t
  | _ + 1, .err, w => w = vErr
  | fuel + 1, .list items, w =>
    ∃ p, Pointer p ∧ w = vList p ∧ List.Forall₂ (Represents m fuel) items (m.list p)

def Roomy (s : State D) : Result D → Prop
  | .text t => s.vheapLen + (t.length + 1) ≤ 32768
  | .dbl _ => s.vheapLen + 8 ≤ 32768
  | .word _ => True

end Plain

section Joined

variable {α β : Type}

theorem plainItems_eq (first : Bool) (items : List Value) :
    plainItems first items = joined Value.plain first items := by
  induction items generalizing first with
  | nil => rfl
  | cons v rest later =>
    unfold plainItems joined
    rw [later false]

variable {f : α → Text} {items : List α}

theorem joined_congr {R : α → β → Prop} {g : β → Text} {words : List β}
    (related : List.Forall₂ R items words)
    (same : ∀ v e, v ∈ items → R v e → f v = g e) (first : Bool) :
    joined f first items = joined g first words := by
  induction related generalizing first with
  | nil => rfl
  | cons one _ later =>
    unfold joined
    rw [same _ _ (List.mem_cons_self ..) one,
      later (fun v e there => same v e (List.mem_cons_of_mem _ there)) false]

theorem length_le_joined {v : α} (there : v ∈ items)
    (first : Bool) : (f v).length ≤ (joined f first items).length := by
  induction items generalizing first with
  | nil => cases there
  | cons w rest later =>
    unfold joined
    simp only [List.length_append]
    rcases List.mem_cons.mp there with rfl | there
    · omega
    · have bound := later there false
      omega

theorem joined_length_le {g : α → Text}
    (le : ∀ v ∈ items, (f v).length ≤ (g v).length) (first : Bool) :
    (joined f first items).length ≤ (joined g first items).length := by
  induction items generalizing first with
  | nil => exact Nat.le_refl _
  | cons w rest later =>
    have here := le w (List.mem_cons_self ..)
    have rest := later (fun v there => le v (List.mem_cons_of_mem _ there)) false
    unfold joined
    simp only [List.length_append]
    omega

theorem joined_length_lt {g : α → Text}
    (le : ∀ v ∈ items, (f v).length ≤ (g v).length) {v : α} (there : v ∈ items)
    (lt : (f v).length < (g v).length) (first : Bool) :
    (joined f first items).length < (joined g first items).length := by
  induction items generalizing first with
  | nil => cases there
  | cons w rest later =>
    have here := le w (List.mem_cons_self ..)
    have tail : ∀ v ∈ rest, (f v).length ≤ (g v).length := fun v there =>
      le v (List.mem_cons_of_mem _ there)
    unfold joined
    simp only [List.length_append]
    rcases List.mem_cons.mp there with rfl | there
    · have bound := joined_length_le tail false
      omega
    · have bound := later tail there false
      omega

end Joined

section Items

variable {render : Word → Log Ref Text} {cap : Nat} {words : List Word} {buf : Text}

theorem put_separator (room : buf.length < cap - 2) :
    put (cap - 1) (put (cap - 1) buf 44) 32 = buf ++ [44, 32] := by
  have comma : put (cap - 1) buf 44 = buf ++ [44] := if_pos (by omega)
  rw [comma]
  unfold put
  rw [if_pos (by simp; omega), List.append_assoc]
  rfl

theorem printItems_value (first : Bool) : (printItems render first words).value =
    joined (fun e => (render e).value) first words := by
  induction words generalizing first with
  | nil => rfl
  | cons e rest later =>
    unfold printItems joined
    simp only [Log.value_bind, Log.value_pure, later false]
    rfl

theorem renderItems_full (full : cap - 2 ≤ buf.length) (first : Bool) :
    (renderItems render cap first words buf).value = buf := by
  cases words with
  | nil => rfl
  | cons e rest =>
    unfold renderItems
    rw [if_neg (by omega)]
    rfl

theorem renderItems_cons {e : Word} {rest : List Word} (room : buf.length < cap - 2)
    (first : Bool) :
    (renderItems render cap first (e :: rest) buf).value =
      (let front := buf ++ separator first
       renderItems render cap false rest
         (front ++ (render e).value.take (cap - 2 - front.length))).value := by
  have front : (if first then buf else put (cap - 1) (put (cap - 1) buf 44) 32) =
      buf ++ separator first := by
    rw [put_separator room]
    cases first with
    | true => exact (List.append_nil buf).symm
    | false => rfl
  rw [renderItems, if_pos room]
  simp only [Log.value_bind, front]

theorem renderItems_fit (first : Bool) (room : first = true → buf.length < cap - 2)
    (fits : buf.length + (joined (fun e => (render e).value) first words).length ≤ cap - 2) :
    (renderItems render cap first words buf).value =
      buf ++ joined (fun e => (render e).value) first words := by
  induction words generalizing first buf with
  | nil => exact (List.append_nil buf).symm
  | cons e rest later =>
    unfold joined at fits
    simp only [List.length_append] at fits
    have here : buf.length < cap - 2 := by
      cases first with
      | true => exact room rfl
      | false =>
        have two : (separator false).length = 2 := rfl
        omega
    have rest : (buf ++ separator first ++ (render e).value).length +
        (joined (fun e => (render e).value) false rest).length ≤ cap - 2 := by
      simp only [List.length_append]
      omega
    rw [renderItems_cons here]
    simp only
    rw [List.take_of_length_le (by simp only [List.length_append]; omega),
      later false (fun first => nomatch first) rest, joined]
    simp only [List.append_assoc]

/-- Elements that do not fit fill the buffer up to its last two places. -/
theorem renderItems_cut (first : Bool) (inside : buf.length ≤ cap - 1)
    (cut : cap - 2 < buf.length + (joined (fun e => (render e).value) first words).length) :
    cap - 2 ≤ (renderItems render cap first words buf).value.length ∧
      (renderItems render cap first words buf).value.length ≤ cap - 1 := by
  induction words generalizing first buf with
  | nil =>
    simp only [joined, List.length_nil] at cut
    rw [renderItems_full (by omega)]
    omega
  | cons e rest later =>
    by_cases full : cap - 2 ≤ buf.length
    · rw [renderItems_full full]
      omega
    · unfold joined at cut
      simp only [List.length_append] at cut
      have short : (separator first).length ≤ 2 := by
        cases first with
        | true => exact Nat.zero_le 2
        | false => exact Nat.le_refl 2
      rw [renderItems_cons (by omega)]
      simp only
      have length : (buf ++ separator first ++ (render e).value.take
          (cap - 2 - (buf ++ separator first).length)).length = buf.length +
            (separator first).length + min (cap - 2 - (buf.length + (separator first).length))
              (render e).value.length := by
        simp only [List.length_append, List.length_take]
      by_cases done : cap - 2 ≤ (buf ++ separator first ++ (render e).value.take
          (cap - 2 - (buf ++ separator first).length)).length
      · rw [renderItems_full done]
        omega
      · apply later false
        · omega
        · omega

end Items

section Rendering

variable {D : Type} {m : Memory D} {fp : Doubles D} {v : Value} {w : Word} {fuel cap : Nat}

theorem digits_length {u : Nat} (small : u < 10 ^ 19) : (digits u).length ≤ 19 := by
  unfold digits
  split_ifs with zero
  · decide
  · rw [List.length_map]
    exact (Nat.digits_length_le_iff (by decide) u).mpr small

theorem renderInt_eq {n : Int} (room : (digits n.natAbs).length < cap - 1) :
    renderInt n cap = decimal n := by
  have whole : (digits n.natAbs).take (cap - 1) = digits n.natAbs :=
    List.take_of_length_le (by omega)
  unfold renderInt decimal
  simp only [whole, room, and_true]
  split_ifs with negative
  · rw [List.reverse_append]
    rfl
  · rfl

theorem vIntOf_63 (n : BitVec 63) : (vIntOf (vInt (n.signExtend 64))).toInt = n.toInt := by
  have low := BitVec.le_toInt n
  have high := BitVec.toInt_lt (x := n)
  exact vIntOf_vInt (by omega) (by omega)

theorem vRender_int (room : 24 ≤ cap) (n : BitVec 63) :
    vRender m fp (fuel + 1) (vInt (n.signExtend 64)) cap = pure (decimal n.toInt) := by
  have kind := Kind.of_kinds (kinds_int (n.signExtend 64))
  have low := BitVec.le_toInt n
  have high := BitVec.toInt_lt (x := n)
  have short : (digits n.toInt.natAbs).length ≤ 19 := digits_length (by omega)
  unfold vRender
  simp only [kind.list, kind.bool, kind.err, kind.str, kind.float, Bool.false_eq_true, if_false]
  rw [vIntOf_63, renderInt_eq (by omega)]

theorem vRender_list {p : Word} (pointer : Pointer p) :
    (vRender m fp (fuel + 1) (vList p) cap).value = put (cap - 1)
      (renderItems (fun e => vRender m fp fuel e 24) cap true (m.list p) (put (cap - 1) [] 91)).value
      93 := by
  have kind := Kind.of_kinds (kinds_list pointer)
  rw [vRender]
  simp only [kind.list, if_true, vPtr_list pointer, Log.value_bind, Log.value_pure]
  rfl

/-- The text of a list from the texts of its elements, when nothing is cut. -/
def bracketed (f : Word → Text) (words : List Word) : Text := [91] ++ joined f true words ++ [93]

variable {p : Word}

theorem vRender_list_fit (pointer : Pointer p) (some : 4 ≤ cap)
    (fits : (bracketed (fun e => (vRender m fp fuel e 24).value) (m.list p)).length ≤ cap - 1) :
    (vRender m fp (fuel + 1) (vList p) cap).value =
      bracketed (fun e => (vRender m fp fuel e 24).value) (m.list p) := by
  unfold bracketed at fits
  simp only [List.length_append, List.length_cons, List.length_nil] at fits
  have opened : put (cap - 1) [] 91 = [91] := if_pos (by simp; omega)
  rw [vRender_list pointer, opened, renderItems_fit true (by simp; omega) (by simp; omega)]
  unfold put
  rw [if_pos (by simp; omega)]
  rfl

theorem vRender_list_cut (pointer : Pointer p) (some : 4 ≤ cap)
    (cut : cap - 1 < (bracketed (fun e => (vRender m fp fuel e 24).value) (m.list p)).length) :
    (vRender m fp (fuel + 1) (vList p) cap).value.length = cap - 1 := by
  unfold bracketed at cut
  simp only [List.length_append, List.length_cons, List.length_nil] at cut
  have opened : put (cap - 1) [] 91 = [91] := if_pos (by simp; omega)
  have bounds := @renderItems_cut (fun e => vRender m fp fuel e 24) cap (m.list p) [91] true
    (by simp; omega) (by simp; omega)
  rw [vRender_list pointer, opened]
  unfold put
  split_ifs with room
  · rw [List.length_append, List.length_singleton]
    omega
  · omega

theorem vRender_list_length (fp : Doubles D) (fuel : Nat) (pointer : Pointer p) (some : 4 ≤ cap) :
    (vRender m fp (fuel + 1) (vList p) cap).value.length =
      min (bracketed (fun e => (vRender m fp fuel e 24).value) (m.list p)).length (cap - 1) := by
  by_cases fits : (bracketed (fun e => (vRender m fp fuel e 24).value) (m.list p)).length ≤ cap - 1
  · rw [vRender_list_fit pointer some fits]
    omega
  · rw [vRender_list_cut pointer some (by omega)]
    omega

end Rendering

section Nested

variable {D : Type} {m : Memory D} {fp : Doubles D} {v : Value} {w : Word} {fuel cap : Nat}
variable {items : List Value} {words : List Word}

theorem plain_list : (Value.list items).plain = [91] ++ joined Value.plain true items ++ [93] := by
  rw [Value.plain, plainItems_eq]

theorem large_length (large : ¬ Small v) : 24 ≤ v.plain.length := by
  cases v with
  | list items => exact Nat.lt_of_not_le large
  | int n => exact absurd trivial large
  | bool b => exact absurd trivial large
  | str t => exact absurd trivial large
  | err => exact absurd trivial large

theorem small_items (short : (Value.list items).plain.length ≤ 25) : ∀ v ∈ items, Small v := by
  intro v there
  by_contra large
  have long := large_length large
  have inside := length_le_joined (f := Value.plain) there true
  rw [plain_list] at short
  simp only [List.length_append, List.length_singleton] at short
  omega

section

variable (related : List.Forall₂ (Represents m fuel) items words)

include related

theorem exists_word (there : v ∈ items) :
    ∃ e ∈ words, Represents m fuel v e := by
  induction related with
  | nil => cases there
  | @cons u e _ _ one _ later =>
    rcases List.mem_cons.mp there with rfl | there
    · exact ⟨e, List.mem_cons_self .., one⟩
    · obtain ⟨e, listed, stands⟩ := later there
      exact ⟨e, List.mem_cons_of_mem _ listed, stands⟩

theorem exists_value (listed : w ∈ words) :
    ∃ v ∈ items, Represents m fuel v w := by
  induction related with
  | nil => cases listed
  | @cons v e _ _ one _ later =>
    rcases List.mem_cons.mp listed with rfl | listed
    · exact ⟨v, List.mem_cons_self .., one⟩
    · obtain ⟨v, there, stands⟩ := later listed
      exact ⟨v, List.mem_cons_of_mem _ there, stands⟩

theorem exists_large (cut : ¬ ∀ v ∈ items, Small v) :
    ∃ v, ∃ e ∈ words, ¬ Small v ∧ Represents m fuel v e := by
  simp only [not_forall, exists_prop] at cut
  obtain ⟨v, there, large⟩ := cut
  obtain ⟨e, listed, stands⟩ := exists_word related there
  exact ⟨v, e, listed, large, stands⟩

end

theorem Represents.deeper (shown : Represents m fuel v w) : Represents m (fuel + 1) v w := by
  induction fuel generalizing v w with
  | zero => exact shown.elim
  | succ fuel deeper =>
    cases v with
    | list items =>
      obtain ⟨p, pointer, tagged, related⟩ := shown
      exact ⟨p, pointer, tagged, related.imp fun v e stands => deeper stands⟩
    | int n => exact shown
    | bool b => exact shown
    | str t => exact shown
    | err => exact shown

theorem bracketed_plain {f : Word → Text}
    (related : List.Forall₂ (Represents m fuel) items words)
    (same : ∀ v e, v ∈ items → Represents m fuel v e → f e = v.plain) :
    bracketed f words = (Value.list items).plain := by
  rw [plain_list, joined_congr related (fun v e there stands => (same v e there stands).symm) true]
  rfl

/-- A small value is not cut, and a large one is cut to 23 places where 24 are given and has more
than that where 32 are given. -/
theorem vRender_represents (fp : Doubles D) (shown : Represents m fuel v w) :
    (Small v → ∀ cap, 24 ≤ cap → (vRender m fp fuel w cap).value = v.plain) ∧
      (¬ Small v → (vRender m fp fuel w 24).value.length = 23 ∧
        24 ≤ (vRender m fp fuel w 32).value.length) := by
  induction fuel generalizing v w with
  | zero => exact shown.elim
  | succ fuel deeper =>
    cases v with
    | int n =>
      obtain rfl : w = _ := shown
      refine ⟨fun _ cap room => ?_, fun large => absurd trivial large⟩
      rw [vRender_int room]
      rfl
    | bool b =>
      obtain rfl : w = _ := shown
      refine ⟨fun _ cap room => ?_, fun large => absurd trivial large⟩
      cases b with
      | true => rfl
      | false => rfl
    | str t =>
      obtain ⟨pointer, stored⟩ := shown
      have kind := Kind.of_kinds (kinds_str pointer)
      simp only [vStr] at kind
      refine ⟨fun _ cap room => ?_, fun large => absurd trivial large⟩
      unfold vRender
      simp only [kind.list, kind.bool, kind.err, kind.str, Bool.false_eq_true, if_false, if_true]
      exact stored
    | err =>
      obtain rfl : w = _ := shown
      exact ⟨fun _ cap room => rfl, fun large => absurd trivial large⟩
    | list items =>
      obtain ⟨p, pointer, rfl, related⟩ := shown
      have plain (small : ∀ v ∈ items, Small v) :
          bracketed (fun e => (vRender m fp fuel e 24).value) (m.list p) =
            (Value.list items).plain :=
        bracketed_plain related fun v e there stands =>
          (deeper stands).1 (small v there) 24 (by omega)
      constructor
      · intro small cap room
        have short : (Value.list items).plain.length ≤ 23 := small
        have text := plain (small_items (by omega))
        rw [← text] at short ⊢
        exact vRender_list_fit pointer (by omega) (by omega)
      · intro large
        have long :
            24 ≤ (bracketed (fun e => (vRender m fp fuel e 24).value) (m.list p)).length := by
          by_cases small : ∀ v ∈ items, Small v
          · rw [plain small]
            exact large_length large
          · obtain ⟨v, e, listed, large, stands⟩ := exists_large related small
            have cut := ((deeper stands).2 large).1
            have inside :=
              length_le_joined (f := fun e => (vRender m fp fuel e 24).value) listed true
            unfold bracketed
            simp only [List.length_append, List.length_singleton]
            omega
        rw [vRender_list_length fp fuel pointer (by omega),
          vRender_list_length fp fuel pointer (by omega)]
        omega

theorem vRender_wider (fp : Doubles D) (shown : Represents m fuel v w) :
    (vRender m fp fuel w 24).value.length ≤ (vRender m fp (fuel + 1) w 32).value.length := by
  by_cases small : Small v
  · have text := (vRender_represents fp shown).1 small 24 (by omega)
    have deepText := (vRender_represents fp shown.deeper).1 small 32 (by omega)
    rw [text, deepText]
  · have cut := (vRender_represents fp shown).2 small
    have deepCut := (vRender_represents fp shown.deeper).2 small
    omega

end Nested

section Main

variable {D : Type} {m : Memory D} {fp : Doubles D} {v : Value} {w : Word} {fuel : Nat}

theorem vPrint_list {p : Word} (pointer : Pointer p) :
    (vPrint m fp fuel (vList p)).value =
      bracketed (fun e => (vRender m fp fuel e 32).value) (m.list p) ++ [10] := by
  have kind := Kind.of_kinds (kinds_list pointer)
  unfold vPrint bracketed
  simp only [kind.list, if_true, vPtr_list pointer, Log.value_bind, Log.value_pure,
    printItems_value, List.append_assoc]
  rfl

theorem vPrint_other (other : vIsList w = false) :
    (vPrint m fp fuel w).value = (vRender m fp fuel w 32).value ++ [10] := by
  unfold vPrint
  simp only [other, Bool.false_eq_true, if_false, Log.value_bind, Log.value_pure]

theorem vAdd_empty {empty : Word} (blank : Represents m (fuel + 1) (.str []) empty) (w : Word) :
    (vAdd m fp (fuel + 1) empty w).value = .text (vRender m fp (fuel + 1) w 32).value := by
  have text := (vRender_represents fp blank).1 trivial 32 (by omega)
  obtain ⟨pointer, -⟩ := blank
  have string : vIsStr empty = true := (Kind.of_kinds (kinds_str pointer)).str
  unfold vAdd
  rw [string, Bool.true_or, if_pos rfl, Log.value_bind, Log.value_bind, Log.value_pure, text]
  rfl

/-- What the elements print, each through a buffer of 32 bytes, is the text of the list exactly if
nothing is cut. -/
theorem list_text_iff {items : List Value} {p : Word} (pointer : Pointer p)
    (related : List.Forall₂ (Represents m fuel) items (m.list p)) :
    bracketed (fun e => (vRender m fp (fuel + 1) e 32).value) (m.list p) =
      (vRender m fp (fuel + 1) (vList p) 32).value ↔ Whole (.list items) := by
  have deep : List.Forall₂ (Represents m (fuel + 1)) items (m.list p) :=
    related.imp fun v e stands => stands.deeper
  by_cases small : ∀ v ∈ items, Small v
  · -- every element prints its text, so only the list as a whole can be cut
    have printed : bracketed (fun e => (vRender m fp (fuel + 1) e 32).value) (m.list p) =
        (Value.list items).plain :=
      bracketed_plain deep fun v e there stands =>
        (vRender_represents fp stands).1 (small v there) 32 (by omega)
    have rendered : bracketed (fun e => (vRender m fp fuel e 24).value) (m.list p) =
        (Value.list items).plain :=
      bracketed_plain related fun v e there stands =>
        (vRender_represents fp stands).1 (small v there) 24 (by omega)
    rw [printed]
    constructor
    · intro same
      have length := @vRender_list_length D m 32 p fp fuel pointer (by omega)
      rw [← same] at length
      exact ⟨by omega, small⟩
    · rintro ⟨short, -⟩
      rw [← rendered] at short ⊢
      exact (vRender_list_fit pointer (by omega) (by omega)).symm
  · -- an element that is cut is longer in the print than in the list
    refine ⟨fun same => ?_, fun whole => absurd whole.2 small⟩
    obtain ⟨v, e, listed, large, stands⟩ := exists_large related small
    have wider : ∀ e ∈ m.list p, (vRender m fp fuel e 24).value.length ≤
        (vRender m fp (fuel + 1) e 32).value.length := by
      intro e listed
      obtain ⟨v, -, stands⟩ := exists_value related listed
      exact vRender_wider fp stands
    have cut := (vRender_represents fp stands).2 large
    have deepCut := (vRender_represents fp stands.deeper).2 large
    have longer := joined_length_lt (f := fun e => (vRender m fp fuel e 24).value)
      (g := fun e => (vRender m fp (fuel + 1) e 32).value) wider listed (by omega) true
    have length := @vRender_list_length D m 32 p fp fuel pointer (by omega)
    rw [← same] at length
    unfold bracketed at length
    simp only [List.length_append, List.length_singleton] at length
    omega

theorem box_text {t : Text} {s : State D} (room : Roomy s (.text t)) :
    ((Result.text t).box s).2.mem.str ((Result.text t).box s).1 = t := by
  have alloc : vheapAlloc (t.length + 1) s = (some (s.vheap + BitVec.ofNat 64 s.vheapLen),
      { s with vheapLen := s.vheapLen + (t.length + 1 + 7) / 8 * 8 }) := if_pos room
  show (newStr t s).2.mem.str (newStr t s).1 = t
  unfold newStr
  rw [alloc]
  exact Function.update_self _ _ _

/-- With room in the heap, `v_print` writes the text of the value added to an empty string, and a
newline, exactly if no buffer cuts the value. -/
theorem print_is_concat_iff (s : State D) (empty : Word) (fp : Doubles D)
    (blank : Represents s.mem (fuel + 1) (.str []) empty)
    (shown : Represents s.mem (fuel + 1) v w)
    (room : Roomy s (vAdd s.mem fp (fuel + 1) empty w).value) :
    (vPrint s.mem fp (fuel + 1) w).value =
      (((vAdd s.mem fp (fuel + 1) empty w).value.box s).2.mem.str
        ((vAdd s.mem fp (fuel + 1) empty w).value.box s).1) ++ [10] ↔ Whole v := by
  rw [vAdd_empty blank w] at room ⊢
  rw [box_text room]
  cases v with
  | list items =>
    obtain ⟨p, pointer, rfl, related⟩ := shown
    rw [vPrint_list pointer, List.append_left_inj]
    exact list_text_iff pointer related
  | int n =>
    obtain rfl : w = _ := shown
    rw [vPrint_other (Kind.of_kinds (kinds_int _)).list]
    exact iff_of_true rfl trivial
  | bool b =>
    obtain rfl : w = _ := shown
    rw [vPrint_other (Kind.of_kinds (kinds_bool b)).list]
    exact iff_of_true rfl trivial
  | str t =>
    have other : vIsList w = false := (Kind.of_kinds (kinds_str shown.1)).list
    rw [vPrint_other other]
    exact iff_of_true rfl trivial
  | err =>
    obtain rfl : w = _ := shown
    rw [vPrint_other (Kind.of_kinds kinds_err).list]
    exact iff_of_true rfl trivial

end Main

/-- Two strings, and a list of eight times `true`. -/
def eight : State Unit where
  mem := {
    str := fun _ => []
    list := fun _ => List.replicate 8 (vBool true)
    dbl := fun _ => () }
  vheap := 64
  vheapLen := 0
  literal := 16

theorem print_is_concat_true :
    (vPrint eight.mem unitDoubles 1 (vBool true)).value =
      (((vAdd eight.mem unitDoubles 1 16 (vBool true)).value.box eight).2.mem.str
        ((vAdd eight.mem unitDoubles 1 16 (vBool true)).value.box eight).1) ++ [10] :=
  (@print_is_concat_iff Unit (.bool true) (vBool true) 0 eight 16 unitDoubles
    ⟨⟨by decide, by decide, by decide⟩, rfl⟩ rfl (show 0 + (4 + 1) ≤ 32768 by decide)).mpr trivial

/-- The list of eight times `true` prints 48 characters, and its text ends after 31. -/
theorem long_list_cut :
    (vPrint eight.mem unitDoubles 2 (vList 32)).value.length = 49 ∧
      ((((vAdd eight.mem unitDoubles 2 16 (vList 32)).value.box eight).2.mem.str
        ((vAdd eight.mem unitDoubles 2 16 (vList 32)).value.box eight).1) ++ [10]).length = 32 := by
  decide

end XinuRpi5.Cc.ValueText
