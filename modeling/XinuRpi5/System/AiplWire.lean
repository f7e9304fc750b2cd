/- source: system/aipl_remote.c
   digest: A request line that fits its buffer is read back as it was written. -/

import XinuRpi5.System.AiplOnce

namespace XinuRpi5.System.AiplWire

open AiplRemote
open AiplOnce (put_eq decimalText_short decimalText_digit idDigits_decimal
  decimalText_read)

section Texts

def Inline (c : UInt8) : Prop := c ≠ 0 ∧ c ≠ 10 ∧ c ≠ 13

instance (c : UInt8) : Decidable (Inline c) := inferInstanceAs (Decidable (_ ∧ _))

structure Name (t : Text) : Prop where
  nonempty : 1 ≤ t.length
  short : t.length ≤ 39
  inline : ∀ c ∈ t, Inline c
  spaceless : ∀ c ∈ t, c ≠ 32

def fullLine (tag : Text) (id : Nat) (actor meth arg : Text) : Text :=
  tag ++ (decimalText id ++ 32 :: (actor ++ 32 :: (meth ++ 32 :: arg)))

variable {tag actor meth arg : Text} {id : Nat}

theorem length_fullLine (tag : Text) (id : Nat) (actor meth arg : Text) :
    (fullLine tag id actor meth arg).length =
      tag.length + (decimalText id).length + actor.length + meth.length + arg.length + 3 := by
  simp only [fullLine, List.length_append, List.length_cons]
  omega

theorem digit_inline {c : UInt8} (digit : c ∈ decimalText id) : Inline c := by
  obtain ⟨low, _⟩ := decimalText_digit digit
  rw [UInt8.le_iff_toNat_le] at low
  refine ⟨?_, ?_, ?_⟩ <;> rintro rfl <;> revert low <;> decide

theorem fullLine_inline (tagged : ∀ c ∈ tag, Inline c) (called : Name actor) (named : Name meth)
    (plain : ∀ c ∈ arg, Inline c) : ∀ c ∈ fullLine tag id actor meth arg, Inline c := by
  intro c listed
  simp only [fullLine, List.mem_append, List.mem_cons] at listed
  rcases listed with inTag | digit | rfl | inActor | rfl | inMeth | rfl | inArg
  · exact tagged c inTag
  · exact digit_inline digit
  · decide
  · exact called.inline c inActor
  · decide
  · exact named.inline c inMeth
  · decide
  · exact plain c inArg

end Texts

section Encoder

variable {tag actor meth arg : Text} {id : Nat}

theorem buildLine_eq (fits : (fullLine tag id actor meth arg).length + 1 < 288) :
    buildLine tag id actor meth arg = fullLine tag id actor meth arg ++ [10] := by
  have size := length_fullLine tag id actor meth arg
  have tagPut : put 288 [] tag = tag := put_eq (d := []) (by simp; omega)
  have idPut : putNum 288 tag id = tag ++ decimalText id := put_eq (by omega)
  have gap : put 288 (tag ++ decimalText id) (ascii " ") = tag ++ decimalText id ++ [32] :=
    put_eq (s := [32]) (by simp; omega)
  have actorPut : put 288 (tag ++ decimalText id ++ [32]) actor =
      tag ++ decimalText id ++ [32] ++ actor := put_eq (by simp; omega)
  have secondGap : put 288 (tag ++ decimalText id ++ [32] ++ actor) (ascii " ") =
      tag ++ decimalText id ++ [32] ++ actor ++ [32] := put_eq (s := [32]) (by simp; omega)
  have methPut : put 288 (tag ++ decimalText id ++ [32] ++ actor ++ [32]) meth =
      tag ++ decimalText id ++ [32] ++ actor ++ [32] ++ meth := put_eq (by simp; omega)
  have thirdGap : put 288 (tag ++ decimalText id ++ [32] ++ actor ++ [32] ++ meth) (ascii " ") =
      tag ++ decimalText id ++ [32] ++ actor ++ [32] ++ meth ++ [32] :=
    put_eq (s := [32]) (by simp; omega)
  have argPut : put 288 (tag ++ decimalText id ++ [32] ++ actor ++ [32] ++ meth ++ [32]) arg =
      tag ++ decimalText id ++ [32] ++ actor ++ [32] ++ meth ++ [32] ++ arg :=
    put_eq (by simp; omega)
  have ending : put 288 (tag ++ decimalText id ++ [32] ++ actor ++ [32] ++ meth ++ [32] ++ arg)
      (ascii "\n") = tag ++ decimalText id ++ [32] ++ actor ++ [32] ++ meth ++ [32] ++ arg ++ [10] :=
    put_eq (s := [10]) (by simp; omega)
  unfold buildLine
  simp only [tagPut, idPut, gap, actorPut, secondGap, methPut, thirdGap, argPut, ending]
  simp [fullLine]

theorem bufferOf_fullLine (tagged : ∀ c ∈ tag, Inline c) (called : Name actor) (named : Name meth)
    (plain : ∀ c ∈ arg, Inline c) (fits : (fullLine tag id actor meth arg).length + 1 < 288) :
    bufferOf (buildLine tag id actor meth arg) = fullLine tag id actor meth arg := by
  have kept : ∀ c ∈ fullLine tag id actor meth arg, decide (c ≠ 0 ∧ c ≠ 10 ∧ c ≠ 13) = true :=
    fun c listed => decide_eq_true (fullLine_inline tagged called named plain c listed)
  have whole : (fullLine tag id actor meth arg ++ [10]).length ≤ 512 := by
    rw [List.length_append, List.length_singleton]
    omega
  have stop : ([10] : Text).takeWhile (fun c => decide (c ≠ 0 ∧ c ≠ 10 ∧ c ≠ 13)) = [] := rfl
  rw [bufferOf, buildLine_eq fits, List.take_of_length_le whole,
    List.takeWhile_append_of_pos kept, stop, List.append_nil]

end Encoder

theorem word_name {t : Text} (name : Name t) (rest : Text) : word (t ++ 32 :: rest) = (t, rest) := by
  have kept : ∀ c ∈ t, decide (c ≠ 32) = true :=
    fun c listed => decide_eq_true (name.spaceless c listed)
  have stop : (32 :: rest).takeWhile (fun c : UInt8 => decide (c ≠ 32)) = [] := rfl
  have front : ((t ++ 32 :: rest).takeWhile fun c => decide (c ≠ 32)).take 39 = t := by
    rw [List.takeWhile_append_of_pos kept, stop, List.append_nil,
      List.take_of_length_le name.short]
  simp only [word, front, List.drop_left, skipSpace]

theorem parseRequest_fields {actor meth : Text} (id : Nat) (called : Name actor)
    (named : Name meth) (arg : Text) :
    parseRequest (decimalText id ++ 32 :: (actor ++ 32 :: (meth ++ 32 :: arg))) =
      ⟨id, actor, meth, arg⟩ := by
  have number : parseId (decimalText id ++ 32 :: (actor ++ 32 :: (meth ++ 32 :: arg))) = id := by
    rw [parseId, idDigits_decimal]
    exact decimalText_read id
  simp only [parseRequest, number, idDigits_decimal, List.drop_left, skipSpace,
    word_name called, word_name named]

section RoundTrip

variable {actor meth arg : Text} {id : Nat}

/-- What `build_q` writes is read back by `aipl_remote_handle`. -/
theorem buildQ_read_back (called : Name actor) (named : Name meth) (plain : ∀ c ∈ arg, Inline c)
    (fits : (fullLine (ascii "Q ") id actor meth arg).length + 1 < 288)
    {d : Datagram} (payload : d.payload = buildQ id actor meth arg) :
    requestOf d = some (true, ⟨id, actor, meth, arg⟩) := by
  have line : bufferOf d.payload = fullLine (ascii "Q ") id actor meth arg := by
    rw [payload]
    exact bufferOf_fullLine (by decide +kernel) called named plain fits
  rw [← parseRequest_fields id called named arg]
  simp only [requestOf, line]
  rfl

theorem buildQ_read_back_spaces :
    requestOf ⟨⟨10, 0, 0, 1⟩, ⟨10, 0, 0, 2⟩, aiplPort,
        buildQ 1000000 (ascii "echo") (ascii "say") (ascii "  a  b ")⟩ =
      some (true, ⟨1000000, ascii "echo", ascii "say", ascii "  a  b "⟩) := by
  have called : Name (ascii "echo") :=
    ⟨by decide +kernel, by decide +kernel, by decide +kernel, by decide +kernel⟩
  have named : Name (ascii "say") :=
    ⟨by decide +kernel, by decide +kernel, by decide +kernel, by decide +kernel⟩
  exact buildQ_read_back called named (by decide +kernel) (by decide +kernel) rfl

end RoundTrip

end XinuRpi5.System.AiplWire
