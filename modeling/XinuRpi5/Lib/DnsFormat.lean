/- source: none (library)
   digest: Where names end in a domain name message, and its first address record. -/

import Mathlib.Tactic.Common

/-!
A message is its bytes up to `len`. A name is labels, each behind its length, up to a zero or up
to a pointer, whose first byte has both high bits set. `rounds` bounds the number of labels.
-/

namespace XinuRpi5.Lib.DnsFormat

variable (byte : Nat → Nat) (len : Nat)

def IsPointer (b : Nat) : Prop := b / 64 = 3

instance (b : Nat) : Decidable (IsPointer b) := inferInstanceAs (Decidable (_ = _))

def word (p : Nat) : Nat := byte p * 256 + byte (p + 1)

/-- The place behind the name at `p`; `none` for a name that is cut off. -/
def nameEnd : Nat → Nat → Option Nat
  | 0, _ => none
  | rounds + 1, p =>
    if p < len then
      if byte p = 0 then some (p + 1)
      else if IsPointer (byte p) then some (p + 2)
      else nameEnd rounds (p + byte p + 1)
    else none

/-- No pointer stands in the name at `p`. -/
def Plain : Nat → Nat → Prop
  | 0, _ => True
  | rounds + 1, p =>
    p < len → byte p ≠ 0 → ¬IsPointer (byte p) ∧ Plain rounds (p + byte p + 1)

/-- No pointer stands in the name at `p`, or one that no zero follows. -/
def NoZeroBehind : Nat → Nat → Prop
  | 0, _ => True
  | rounds + 1, p =>
    p < len → byte p ≠ 0 →
      (IsPointer (byte p) → p + 2 < len → byte (p + 2) ≠ 0) ∧
        (¬IsPointer (byte p) → NoZeroBehind rounds (p + byte p + 1))

/-- The name at `p` is not cut off, and a byte follows its pointer. -/
def Complete : Nat → Nat → Prop
  | 0, _ => False
  | rounds + 1, p =>
    p < len ∧ (byte p = 0 ∨ IsPointer (byte p) ∧ p + 2 < len ∨
      ¬IsPointer (byte p) ∧ Complete rounds (p + byte p + 1))

instance decidablePlain : (rounds p : Nat) → Decidable (Plain byte len rounds p)
  | 0, _ => isTrue trivial
  | rounds + 1, p =>
    haveI := decidablePlain rounds (p + byte p + 1)
    inferInstanceAs (Decidable (_ → _ → _ ∧ _))

instance decidableNoZeroBehind : (rounds p : Nat) → Decidable (NoZeroBehind byte len rounds p)
  | 0, _ => isTrue trivial
  | rounds + 1, p =>
    haveI := decidableNoZeroBehind rounds (p + byte p + 1)
    inferInstanceAs (Decidable (_ → _ → (_ → _ → _) ∧ (_ → _)))

theorem nameEnd_behind {rounds p q : Nat} (ends : nameEnd byte len rounds p = some q) : p < q := by
  induction rounds generalizing p with
  | zero => cases ends
  | succ rounds ih =>
    unfold nameEnd at ends
    split_ifs at ends
    · cases ends
      omega
    · cases ends
      omega
    · have := ih ends
      omega

/-- An address record whose fields stand at `q`, behind its name. -/
def Address (q : Nat) : Prop := word byte q = 1 ∧ word byte (q + 8) = 4 ∧ q + 14 ≤ len

instance (q : Nat) : Decidable (Address byte len q) := inferInstanceAs (Decidable (_ ∧ _))

/-- Behind the record whose fields stand at `q`. -/
def recordEnd (q : Nat) : Nat := q + 10 + word byte (q + 8)

/-- Where the bytes of the first address stand among `an` records from `p` on. -/
def firstAddress : Nat → Nat → Option Nat
  | 0, _ => none
  | an + 1, p =>
    match nameEnd byte len len p with
    | none => none
    | some q =>
      if len < q + 10 then none
      else if Address byte len q then some (q + 10)
      else firstAddress an (recordEnd byte q)

/-- The name of each record up to the first address is a lone pointer, or has none. A record is
looked at where 12 bytes are left, the size of one with a pointer for its name and no data. -/
def Direct : Nat → Nat → Prop
  | 0, _ => True
  | an + 1, p => p + 12 ≤ len →
    (IsPointer (byte p) ∨ Plain byte len len p) ∧
      match nameEnd byte len len p with
      | none => True
      | some q => q + 10 ≤ len → ¬Address byte len q → Direct an (recordEnd byte q)

instance decidableDirect : (an p : Nat) → Decidable (Direct byte len an p)
  | 0, _ => isTrue trivial
  | an + 1, p =>
    haveI : Decidable (match nameEnd byte len len p with
        | none => True
        | some q => q + 10 ≤ len → ¬Address byte len q → Direct byte len an (recordEnd byte q)) :=
      match nameEnd byte len len p with
      | none => isTrue trivial
      | some q =>
        haveI := decidableDirect an (recordEnd byte q)
        inferInstanceAs (Decidable (_ → _ → _))
    inferInstanceAs (Decidable (_ → (_ ∨ _) ∧ _))

/-- Behind `qd` questions from `p` on. -/
def questionsEnd : Nat → Nat → Option Nat
  | 0, p => some p
  | qd + 1, p => (nameEnd byte len len p).bind fun q => questionsEnd qd (q + 4)

/-- The first address of a message whose header counts `qd` questions and `an` answers. -/
def answer (qd an : Nat) : Option Nat :=
  (questionsEnd byte len qd 12).bind fun p => firstAddress byte len an p

theorem firstAddress_inside {an p q : Nat} (found : firstAddress byte len an p = some q) :
    q + 4 ≤ len := by
  induction an generalizing p with
  | zero => cases found
  | succ an ih =>
    unfold firstAddress at found
    split at found
    case h_1 => cases found
    case h_2 r _ =>
        split_ifs at found with _ address
        · have bound := address.2.2
          cases found
          omega
        · exact ih found

theorem firstAddress_short {an p : Nat} (short : len < p + 15) :
    firstAddress byte len an p = none := by
  induction an generalizing p with
  | zero => rfl
  | succ an ih =>
    unfold firstAddress
    split
    case h_1 => rfl
    case h_2 q ends =>
        have behind := nameEnd_behind byte len ends
        split_ifs with cut address
        · rfl
        · have := address.2.2
          omega
        · apply ih
          unfold recordEnd
          omega

theorem questionsEnd_behind {qd p q : Nat} (ends : questionsEnd byte len qd p = some q) :
    p ≤ q := by
  induction qd generalizing p with
  | zero => exact Nat.le_of_eq (Option.some.inj ends)
  | succ qd ih =>
    obtain ⟨name, first, rest⟩ := Option.bind_eq_some_iff.mp ends
    have behind := nameEnd_behind byte len first
    have := ih rest
    omega

theorem answer_none (qd : Nat) : answer byte len qd 0 = none := by
  cases places : questionsEnd byte len qd 12 <;> simp [answer, places, firstAddress]

theorem answer_one (an : Nat) :
    answer byte len 1 an =
      (nameEnd byte len len 12).bind fun q => firstAddress byte len an (q + 4) := by
  cases ends : nameEnd byte len len 12 <;> simp [answer, questionsEnd, ends]

end XinuRpi5.Lib.DnsFormat
