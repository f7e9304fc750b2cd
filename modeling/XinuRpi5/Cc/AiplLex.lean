/- source: cc/abcl2c.c
   digest: The lexer of the AIPL translator and the readers that only skip tokens. -/

import Mathlib.Algebra.Group.Nat.Defs
import Mathlib.Data.List.Basic

/-!
A character stands for one byte, and a pointer into the source for the text that
follows it. A number is kept as it is written; the `long` that the source keeps of it is
`asLong`. A literal with a fraction is kept as its digits in place of the bits of the
`double`. Loops that can read to the end of the source have a budget of rounds; the
translator answers only within it.
-/

namespace XinuRpi5.Cc.AiplLex

abbrev Text := List Char

inductive TokKind where
  | eof
  | id
  | num
  | str
  | punct
  deriving DecidableEq

/-- `tok_t`; `frac` has the digits behind the point when `isflt` is set. -/
structure Tok where
  kind : TokKind
  s : Text
  num : Nat
  frac : Option Text

/-- `L`, `Ts`, `T` and `a2c_err`. -/
structure Lex where
  src : Text
  start : Text
  tok : Tok
  err : Option String

theorem lawful_text : LawfulBEq Text := inferInstance

def tokStr : Nat := 160

def sp (c : Char) : Bool := c = ' ' ∨ c = '\t' ∨ c = '\r' ∨ c = '\n'

def dg (c : Char) : Bool := '0' ≤ c ∧ c ≤ '9'

def al (c : Char) : Bool := 'a' ≤ c ∧ c ≤ 'z' ∨ 'A' ≤ c ∧ c ≤ 'Z' ∨ c = '_'

def an (c : Char) : Bool := al c || dg c

/-- `a2c_fail`: the last message stays. -/
def Lex.fail (l : Lex) (m : String) : Lex := { l with err := some m }

inductive Blank where
  | code
  | line
  | block

def skipBlank : Blank → Text → Text
  | .code, '/' :: '/' :: t => skipBlank .line t
  | .code, '/' :: '*' :: t => skipBlank .block t
  | .code, c :: t => if sp c then skipBlank .code t else c :: t
  | .line, '\n' :: t => skipBlank .code t
  | .line, _ :: t => skipBlank .line t
  | .block, '*' :: '/' :: t => skipBlank .code t
  | .block, _ :: t => skipBlank .block t
  | _, [] => []

/-- The characters of a string literal, whether they were too many, and what
follows the closing quote. -/
def lexString : Text → Text → Bool → Text × Bool × Text
  | [], s, tooLong => (s, tooLong, [])
  | '"' :: t, s, tooLong => (s, tooLong, t)
  | '\\' :: c :: t, s, tooLong =>
    let (s, tooLong) := if s.length < tokStr - 2 then (s ++ ['\\'], tooLong) else (s, true)
    let (s, tooLong) := if s.length < tokStr - 1 then (s ++ [c], tooLong) else (s, true)
    lexString t s tooLong
  | c :: t, s, tooLong =>
    let (s, tooLong) := if s.length < tokStr - 1 then (s ++ [c], tooLong) else (s, true)
    lexString t s tooLong

def number (digits : Text) : Nat := digits.foldl (fun v c => v * 10 + (c.toNat - 48)) 0

/-- The `long` that is left of a number. -/
def asLong (n : Int) : Int := n.bmod 18446744073709551616

theorem asLong_small {n : Nat} (small : n < 2 ^ 63) : asLong n = n :=
  Int.bmod_eq_of_le (by omega) (by omega)

theorem small_of_asLong {n : Nat} (same : asLong n = n) : n < 2 ^ 63 := by
  have less : asLong n < (18446744073709551616 + 1) / 2 := Int.bmod_lt (by decide)
  omega

def isDouble (a b : Char) : Bool :=
  [['=', '='], ['!', '='], ['<', '='], ['>', '='], ['&', '&'], ['|', '|'], ['+', '+'],
    ['-', '>']].contains [a, b]

def Lex.next (l : Lex) : Lex :=
  let src := skipBlank .code l.src
  let l := { l with start := src }
  match src with
  | [] => { l with src := [], tok := ⟨.eof, [], 0, none⟩ }
  | c :: t =>
    if al c then
      let word := (src.takeWhile an).take (tokStr - 1)
      { l with src := src.drop word.length, tok := ⟨.id, word, 0, none⟩ }
    else if dg c then
      let digits := src.takeWhile dg
      match src.drop digits.length with
      | '.' :: rest =>
        let frac := rest.takeWhile dg
        { l with src := rest.drop frac.length, tok := ⟨.num, [], number digits, some frac⟩ }
      | rest => { l with src := rest, tok := ⟨.num, [], number digits, none⟩ }
    else if c = '"' then
      let (s, tooLong, rest) := lexString t [] false
      let l := { l with src := rest, tok := ⟨.str, s, 0, none⟩ }
      if tooLong then l.fail "string literal too long (max 159 bytes)" else l
    else match t with
      | b :: rest =>
        if isDouble c b then { l with src := rest, tok := ⟨.punct, [c, b], 0, none⟩ }
        else { l with src := t, tok := ⟨.punct, [c], 0, none⟩ }
      | [] => { l with src := t, tok := ⟨.punct, [c], 0, none⟩ }

def Lex.goto (l : Lex) (place : Text) : Lex := Lex.next { l with src := place }

/-- `lex_load`: the place and the token of an earlier state. -/
def Lex.load (l saved : Lex) : Lex := { saved with err := l.err }

def Lex.isP (l : Lex) (p : String) : Bool := l.tok.kind = .punct ∧ l.tok.s = p.toList

def Lex.isKw (l : Lex) (k : String) : Bool := l.tok.kind = .id ∧ l.tok.s = k.toList

def Lex.isEof (l : Lex) : Bool := l.tok.kind = .eof

/-- `cpid`: names have at most 47 characters. -/
def Lex.cpid (l : Lex) : Text := l.tok.s.take 47

def lbrace : String := "\x7b"

def rbrace : String := "\x7d"

/-- A do-while loop over at most `rounds` tokens in nested brackets: the depth at its end, and
the lexer there. -/
def skipNested (left right : String) : Nat → Nat → Lex → Nat × Lex
  | 0, depth, l => (depth, l)
  | rounds + 1, depth, l =>
    let depth := if l.isP left then depth + 1 else if l.isP right then depth - 1 else depth
    let l := l.next
    if 0 < depth ∧ ¬ l.isEof then skipNested left right rounds depth l else (depth, l)

/-- `skip_block`; no source has more tokens than characters. -/
def Lex.skipBlock (l : Lex) : Lex := (skipNested lbrace rbrace (l.src.length + 2) 0 l).2

/-- `skip_type`, and whether it succeeded. -/
def Lex.skipType (l : Lex) : Bool × Lex :=
  if l.tok.kind ≠ .id then (false, l.fail "type: expected name")
  else
    let l := l.next
    if l.isP "[" then
      let (depth, l) := skipNested "[" "]" 64 0 l
      if 0 < depth then (false, l.fail "type: unbalanced '['") else (true, l)
    else (true, l)

def skipMethodAnnots : Nat → Lex → Bool × Lex
  | 0, l => (true, l)
  | rounds + 1, l =>
    if l.isEof ∨ l.isP lbrace then (true, l)
    else if l.isP ":" ∨ l.isP "->" then
      let (ok, l) := l.next.skipType
      if ok then skipMethodAnnots rounds l else (false, l)
    else if l.isP "!" then
      let l := l.next
      if ¬ l.isP lbrace then (false, l.fail "effects: expected '\x7b' after '!'")
      else
        let (depth, l) := skipNested lbrace rbrace 128 0 l
        if 0 < depth then (false, l.fail "effects: unbalanced '\x7b'")
        else skipMethodAnnots rounds l
    else if l.isP "@" then
      let l := l.next
      if l.tok.kind ≠ .num then (false, l.fail "'@': expected level")
      else skipMethodAnnots rounds l.next
    else (true, l)

end XinuRpi5.Cc.AiplLex
