/- source: cc/abcl2c.c, cc/parse.c
   digest: Which constants keep their value when they are printed, lexed and parsed. -/

import XinuRpi5.Cc.ExprRoundTrip
import XinuRpi5.Cc.Lex

/-!
A constant of the translator is a word of 64 bits, and its negative wraps. Of a printed constant
the lexer makes one token or two, wherever it stands in the program, and the parser an expression.
-/

namespace XinuRpi5.Cc.ConstantText

open Codegen (Expr)
open Parse (Token Parser Node expr)
open Cc.Lex (Text Tok Lexer isDigit ccLex lexOne number)
open ExprReads (Ends past scope)

/-- `'0' + v % 10`. -/
def digitChar (v : BitVec 64) : UInt8 := ⟨(48 + v.srem 10).setWidth 8⟩

/-- The digits that `op_n` collects, the lowest first. -/
def digits : Nat → BitVec 64 → Text
  | 0, _ => []
  | rounds + 1, v => if v = 0 then [] else digitChar v :: digits rounds (v.sdiv 10)

/-- `op_n`; twenty rounds divide any word down to zero. -/
def opN (v : BitVec 64) : Text :=
  let sign : Text := if v.slt 0 then [45] else []
  let v := if v.slt 0 then -v else v
  sign ++ if v = 0 then [48] else (digits 20 v).reverse

/-- `finit` of a number of type `float`, with the bits of its literal. -/
def floatInit (neg : Bool) (fbits : BitVec 64) : BitVec 64 :=
  if neg then fbits ^^^ 1 <<< 63 else fbits

def word (t : Text) : String := String.ofList (t.map fun c => Char.ofNat c.toNat)

/-- What the parser sees of a token; a literal is known by its address. -/
def tokenOf (address : Text → BitVec 64) : Tok → Token
  | .num val => .num val
  | .str str => .str (address str)
  | .ident text => .ident (word text)
  | .punct text => .punct (word text)
  | .kw text => .kw (word text)
  | .eof => .eof

def value : Expr → Option (BitVec 64)
  | .num val => some val
  | .neg e => (value e).map fun v => -v
  | _ => none

/-- Wherever the text stands in front of something that is no digit, the lexer makes these tokens of
it, each in one turn. -/
def Lexes (t : Text) (toks : List Tok) : Prop :=
  ∀ (rest : Text) (s : Lexer) (turns : Nat), (∀ c ∈ rest.head?, isDigit c = false) →
    s.arena.pos + 64 * toks.length ≤ s.arena.cap →
    ∃ arena, ccLex (turns + toks.length) (t ++ rest) s =
      ccLex turns rest { s with toks := s.toks ++ toks, arena := arena }

/-- In front of something that does not go on with it, the parser makes this expression of the
tokens. -/
def Parses (toks : List Token) (e : Expr) : Prop :=
  ∀ (s : Parser) (rest : List Token) (fuel : Nat), s.tk = toks ++ rest → Ends 0 rest.head? →
    s.arena.pos + 176 * toks.length ≤ s.arena.cap → toks.length + 2 ≤ fuel →
    ∃ log, (expr fuel).run s = (⟨e, .int⟩, past s rest (176 * toks.length) log)

def Denotes (t : Text) (v : BitVec 64) : Prop :=
  ∃ toks e, Lexes t toks ∧ (∀ address, Parses (toks.map (tokenOf address)) e) ∧ value e = some v

section Digits

variable {v : BitVec 64}

variable (small : v.toNat < 2 ^ 63)

include small

theorem srem_small : (v.srem 10).toNat = v.toNat % 10 := by
  have positive : v.msb = false := BitVec.msb_eq_false_iff_two_mul_lt.mpr (by omega)
  rw [BitVec.srem_eq, positive]
  exact BitVec.toNat_umod

theorem sdiv_small : (v.sdiv 10).toNat = v.toNat / 10 := by
  have positive : v.msb = false := BitVec.msb_eq_false_iff_two_mul_lt.mpr (by omega)
  rw [BitVec.sdiv_eq, positive]
  exact BitVec.toNat_udiv

theorem digitChar_value :
    (digitChar v).toNat = 48 + v.toNat % 10 := by
  have digit := srem_small small
  show ((48 + v.srem 10).setWidth 8).toNat = _
  rw [BitVec.toNat_setWidth, BitVec.toNat_add, digit]
  have less := Nat.mod_lt v.toNat (by decide : 10 > 0)
  show (48 + v.toNat % 10) % 2 ^ 64 % 2 ^ 8 = _
  omega

theorem digitChar_isDigit : isDigit (digitChar v) = true := by
  have less := Nat.mod_lt v.toNat (by decide : 10 > 0)
  unfold isDigit
  rw [Bool.and_eq_true, decide_eq_true_iff, decide_eq_true_iff, UInt8.le_iff_toNat_le,
    UInt8.le_iff_toNat_le, digitChar_value small]
  exact ⟨Nat.le_add_right 48 _, by show _ ≤ 57; omega⟩

theorem number_digit {w : BitVec 64} (high : w = v.sdiv 10) (rest : Text) :
    number w (digitChar v :: rest) = number v rest := by
  have step : w * 10 + ((digitChar v).toBitVec.setWidth 64 - 48) = v := by
    have char := digitChar_value small
    have less := Nat.mod_lt v.toNat (by decide : 10 > 0)
    have quotient := sdiv_small small
    have low : ((digitChar v).toBitVec.setWidth 64 - 48).toNat = v.toNat % 10 := by
      rw [BitVec.toNat_sub, BitVec.toNat_setWidth]
      show (2 ^ 64 - 48 + (digitChar v).toNat % 2 ^ 64) % 2 ^ 64 = _
      omega
    apply BitVec.eq_of_toNat_eq
    rw [BitVec.toNat_add, BitVec.toNat_mul, high, quotient, low]
    show (v.toNat / 10 * 10 % 2 ^ 64 + v.toNat % 10) % 2 ^ 64 = _
    omega
  rw [number, if_pos (digitChar_isDigit small), step]

theorem number_digits (rounds : Nat) (rest : Text) (short : v.toNat < 10 ^ rounds) :
    number 0 ((digits rounds v).reverse ++ rest) = number v rest := by
  induction rounds generalizing v rest with
  | zero =>
    have zero : v = 0 := BitVec.eq_of_toNat_eq (by simpa using short)
    rw [zero]
    rfl
  | succ rounds later =>
    unfold digits
    split_ifs with zero
    · rw [zero]
      rfl
    · have quotient := sdiv_small small
      rw [List.reverse_cons, List.append_assoc, List.singleton_append]
      rw [later (v := v.sdiv 10) (by omega) _
        (by rw [quotient, Nat.div_lt_iff_lt_mul (by decide)]; omega)]
      exact number_digit small rfl rest

end Digits

section Lexing

variable {v : BitVec 64}

def plainDigits (v : BitVec 64) : Text := if v = 0 then [48] else (digits 20 v).reverse

theorem number_plainDigits (small : v.toNat < 2 ^ 63) (rest : Text) :
    number 0 (plainDigits v ++ rest) = number v rest := by
  unfold plainDigits
  split_ifs with zero
  · rw [zero]
    rfl
  · exact number_digits small 20 rest (Nat.lt_trans small (by decide))

theorem digits_are_digits (rounds : Nat) (small : v.toNat < 2 ^ 63) :
    ∀ c ∈ digits rounds v, isDigit c = true := by
  induction rounds generalizing v with
  | zero => exact nofun
  | succ rounds later =>
    unfold digits
    split_ifs with zero
    · exact nofun
    · have quotient := sdiv_small small
      intro c listed
      rcases List.mem_cons.mp listed with rfl | behind
      · exact digitChar_isDigit small
      · exact later (by omega) c behind

theorem plainDigits_cons (small : v.toNat < 2 ^ 63) :
    ∃ c t, plainDigits v = c :: t ∧ isDigit c = true := by
  unfold plainDigits
  split_ifs with zero
  · exact ⟨48, [], rfl, rfl⟩
  · have some : (digits 20 v).reverse ≠ [] := by
      unfold digits
      rw [if_neg zero]
      simp
    obtain ⟨c, t, text⟩ := List.exists_cons_of_ne_nil some
    refine ⟨c, t, text, digits_are_digits 20 small c (List.mem_reverse.mp ?_)⟩
    rw [text]
    exact List.mem_cons_self

theorem number_stops (v : BitVec 64) {rest : Text} (ends : ∀ c ∈ rest.head?, isDigit c = false) :
    number v rest = (v, rest) := by
  cases rest with
  | nil => rfl
  | cons c rest =>
    have other : isDigit c = false := ends c rfl
    rw [number, if_neg (by simp [other])]

theorem newTok_room {s : Lexer} (t : Tok) (room : s.arena.pos + 48 ≤ s.arena.cap) :
    s.newTok t = { s with toks := s.toks ++ [t], arena.pos := s.arena.pos + 48 } := by
  have fits : ¬ s.arena.cap < s.arena.pos + (48 + 15) / 16 * 16 := by omega
  unfold Lexer.newTok Lexer.alloc
  rw [if_neg fits]

theorem newTokText_room {s : Lexer} (t : Tok) (room : s.arena.pos + 64 ≤ s.arena.cap) :
    s.newTokText t 1 = { s with toks := s.toks ++ [t], arena.pos := s.arena.pos + 64 } := by
  have fits : ¬ s.arena.cap < s.arena.pos + 48 + (1 + 1 + 15) / 16 * 16 := by omega
  unfold Lexer.newTokText
  rw [newTok_room t (by omega)]
  unfold Lexer.alloc
  rw [if_neg fits]

theorem lexOne_digit {c : UInt8} (digit : isDigit c = true) (s : Lexer) (rest : Text) :
    lexOne s c rest =
      .ok ((number 0 (c :: rest)).2, s.newTok (.num (number 0 (c :: rest)).1)) := by
  have bounds : 48 ≤ c ∧ c ≤ 57 := by
    unfold isDigit at digit
    rwa [Bool.and_eq_true, decide_eq_true_iff, decide_eq_true_iff] at digit
  have low := bounds.1
  rw [UInt8.le_iff_toNat_le] at low
  have other (d : UInt8) (less : d.toNat < 48) : c ≠ d := by
    rintro rfl
    exact absurd low (Nat.not_le.mpr less)
  have space : Cc.Lex.isSpace c = false := by
    unfold Cc.Lex.isSpace
    rw [decide_eq_false (other 32 (by decide)), decide_eq_false (other 9 (by decide)),
      decide_eq_false (other 13 (by decide)), decide_eq_false (other 10 (by decide))]
    rfl
  have slash : c ≠ 47 := other 47 (by decide)
  unfold lexOne
  rw [if_neg (by simp [space]), if_neg (fun both => slash both.1),
    if_neg (fun both => slash both.1), if_pos digit]

theorem lexOne_minus {c : UInt8} (digit : isDigit c = true) (s : Lexer) (rest : Text) :
    lexOne s 45 (c :: rest) = .ok (c :: rest, s.newTokText (.punct [45]) 1) := by
  have other : c ≠ 62 := by
    rintro rfl
    cases digit
  have pairs : Cc.Lex.pairs =
      [[61, 61], [33, 61], [60, 61], [62, 61], [38, 38], [124, 124], [45, 62]] := by
    decide +kernel
  have single : Cc.Lex.pairs.find? (fun t => t.isPrefixOf (45 :: c :: rest)) = none := by
    rw [pairs]
    simp [List.isPrefixOf, other.symm]
  have sign : (45 : UInt8) ∈ Cc.Lex.singles := by decide
  have alone : Cc.Lex.punctuator s 45 (c :: rest) =
      .ok (c :: rest, s.newTokText (.punct [45]) 1) := by
    unfold Cc.Lex.punctuator
    rw [single]
    exact if_pos sign
  exact alone

theorem lexes_plain (small : v.toNat < 2 ^ 63) : Lexes (plainDigits v) [.num v] := by
  intro rest s turns ends room
  rw [List.length_singleton] at room ⊢
  obtain ⟨c, t, text, digit⟩ := plainDigits_cons small
  have read : number 0 (c :: (t ++ rest)) = (v, rest) := by
    rw [← List.cons_append, ← text, number_plainDigits small, number_stops v ends]
  rw [text, List.cons_append, ccLex, lexOne_digit digit, read]
  exact ⟨_, by rw [newTok_room _ (by omega)]⟩

theorem lexes_negative (small : v.toNat < 2 ^ 63) :
    Lexes (45 :: plainDigits v) [.punct [45], .num v] := by
  intro rest s turns ends room
  have length : ([.punct [45], .num v] : List Tok).length = 2 := rfl
  rw [length] at room ⊢
  obtain ⟨c, t, text, digit⟩ := plainDigits_cons small
  have signed : ∃ arena : Parse.Arena, arena.pos + 64 ≤ arena.cap ∧
      ccLex (turns + 2) (45 :: plainDigits v ++ rest) s =
        ccLex (turns + 1) (plainDigits v ++ rest)
          { s with toks := s.toks ++ [.punct [45]], arena := arena } := by
    refine ⟨{ s.arena with pos := s.arena.pos + 64 }, by show s.arena.pos + 64 + 64 ≤ _; omega, ?_⟩
    rw [text, List.cons_append, List.cons_append, ccLex, lexOne_minus digit,
      newTokText_room _ (by omega)]
  obtain ⟨arena, left, first⟩ := signed
  obtain ⟨arena', second⟩ := lexes_plain small rest
    { s with toks := s.toks ++ [.punct [45]], arena := arena } turns ends left
  refine ⟨arena', ?_⟩
  rw [first]
  refine second.trans ?_
  rw [List.append_assoc]
  rfl

end Lexing

section Parsing

variable (v : BitVec 64)

theorem parses_print (t : ExprTrees.Tree) {e : Expr} (typed : ∀ E, t.Typed E)
    (node : ∀ E, t.node E = ⟨e, .int⟩) (cost : t.cost = 176 * (t.print 0).length) :
    Parses (t.print 0) e := by
  intro s rest fuel tokens ends room enough
  rw [← cost] at room ⊢
  obtain ⟨log, parsed⟩ :=
    ExprRoundTrip.assign_good (scope s) fuel t (typed _) enough s rest rfl tokens ends room
  rw [node] at parsed
  exact ⟨log, parsed⟩

theorem parses_plain : Parses [.num v] (.num v) :=
  parses_print (.num v) (fun _ => trivial) (fun _ => rfl) rfl

theorem parses_negative : Parses [.punct "-", .num v] (.neg (.num v)) :=
  parses_print (.neg (.num v)) (fun _ => trivial) (fun _ => rfl) rfl

end Parsing

section Constants

def longMin : BitVec 64 := BitVec.intMin 64

variable {v : BitVec 64}

theorem opN_plain (positive : v.slt 0 = false) : opN v = plainDigits v := by
  unfold opN
  rw [positive]
  rfl

theorem opN_negative (negative : v.slt 0 = true) :
    opN v = 45 :: plainDigits (-v) := by
  unfold opN
  rw [negative]
  rfl

theorem denotes_plain (positive : v.slt 0 = false) : Denotes (opN v) v := by
  have small : v.toNat < 2 ^ 63 := by
    change v.slt 0#64 = false at positive
    rw [BitVec.slt_zero_eq_msb, BitVec.msb_eq_false_iff_two_mul_lt] at positive
    omega
  rw [opN_plain positive]
  exact ⟨[.num v], .num v, lexes_plain small, fun _ => parses_plain v, rfl⟩

theorem denotes_negative (negative : v.slt 0 = true) (other : v ≠ longMin) :
    Denotes (opN v) v := by
  have small : (-v).toNat < 2 ^ 63 := by
    change v.slt 0#64 = true at negative
    rw [BitVec.slt_zero_eq_msb, BitVec.msb_eq_true_iff_two_mul_ge] at negative
    have inside : v.toNat ≠ 2 ^ 63 := fun same => other (BitVec.eq_of_toNat_eq same)
    rw [BitVec.toNat_neg]
    omega
  rw [opN_negative negative]
  refine ⟨[.punct [45], .num (-v)], .neg (.num (-v)), lexes_negative small,
    fun _ => parses_negative (-v), ?_⟩
  exact congrArg some (BitVec.neg_neg (x := v))

theorem floatInit_zero : floatInit true 0 = longMin := by decide

theorem opN_longMin : ∃ t, opN longMin = 45 :: 39 :: 46 :: 46 :: t := ⟨_, rfl⟩

theorem lexOne_sign (s : Lexer) (rest : Text) :
    lexOne s 45 (39 :: rest) = .ok (39 :: rest, s.newTokText (.punct [45]) 1) := rfl

theorem lexOne_quote (s : Lexer) (rest : Text) :
    lexOne s 39 (46 :: 46 :: rest) = .error (.error (s.error "unterminated char literal")) := rfl

theorem not_lexes_longMin (toks : List Tok) : ¬ Lexes (opN longMin) toks := by
  intro lexes
  obtain ⟨t, text⟩ := opN_longMin
  obtain ⟨arena, ends⟩ := lexes [] ⟨[], ⟨0, 64 * toks.length, 0⟩, none⟩ 1 nofun
    (Nat.le_of_eq (Nat.zero_add _))
  rw [text, List.append_nil, Nat.add_comm] at ends
  cases length : toks.length with
  | zero =>
    rw [length, ccLex, ccLex, lexOne_sign] at ends
    cases ends
  | succ k =>
    rw [length, ccLex, ccLex, lexOne_sign] at ends
    simp only at ends
    rw [ccLex, lexOne_quote] at ends
    cases ends

/-- Of all words only one does not keep its value. -/
theorem constant_survives_iff (v : BitVec 64) : Denotes (opN v) v ↔ v ≠ longMin := by
  constructor
  · rintro ⟨toks, e, lexes, -, -⟩ rfl
    exact not_lexes_longMin toks lexes
  · intro other
    cases sign : v.slt 0 with
    | false => exact denotes_plain sign
    | true => exact denotes_negative sign other

/-- The initial value of `float g = -0.0;`. -/
theorem negative_zero_lost : ¬ Denotes (opN (floatInit true 0)) (floatInit true 0) := by
  rintro ⟨toks, e, lexes, -, -⟩
  rw [floatInit_zero] at lexes
  exact not_lexes_longMin toks lexes

end Constants

end XinuRpi5.Cc.ConstantText
