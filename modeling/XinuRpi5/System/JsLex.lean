/- source: system/js.c
   digest: The tokens of the JavaScript evaluator. -/

import Mathlib
import XinuRpi5.System.JsStore

/-!
The source is the characters that are left of it. A token keeps the source from its start on
for the look-ahead of the parser.
-/

namespace XinuRpi5.System.JsLex

open JsStore

/-- `T_EOF` to `T_KW`. -/
inductive Kind where
  | eof
  | num
  | str
  | tmpl
  | name
  | punct
  | kw

/-- `js_tk`; `p0` is the source from the token's start on. -/
structure Token where
  k : Kind
  num : Int64
  str : Str
  p0 : Str

def jsIsid0 (c : Char) : Bool :=
  ('a' ≤ c && c ≤ 'z') || ('A' ≤ c && c ≤ 'Z') || c == '_' || c == '$' || 128 ≤ c.toNat

def jsIsdig (c : Char) : Bool := '0' ≤ c && c ≤ '9'

def jsIsid (c : Char) : Bool := jsIsid0 c || jsIsdig c

def isBlank (c : Char) : Bool := c == ' ' || c == '\t' || c == '\r' || c == '\n'

def skipComment : Str → Str
  | [] => []
  | [_] => []
  | '*' :: '/' :: rest => rest
  | _ :: c :: rest => skipComment (c :: rest)

/-- `js_skip`; every round but the last takes a comment away. -/
def skipRounds : Nat → Str → Str
  | 0, src => src
  | rounds + 1, src =>
    match src.dropWhile isBlank with
    | '/' :: '/' :: rest => skipRounds rounds (('/' :: '/' :: rest).dropWhile (· != '\n'))
    | '/' :: '*' :: rest => skipRounds rounds (skipComment rest)
    | src => src

def jsSkip (src : Str) : Str := skipRounds (src.length + 1) src

def unescape (e : Char) : Char :=
  if e = 'n' then '\n' else if e = 't' then '\t' else if e = 'r' then '\r' else e

/-- `if (n < room) buf[n++] = d`. -/
def put (room : Nat) (buf : Str) (d : Char) : Str := if buf.length < room then buf ++ [d] else buf

def stringLoop (q : Char) : Str → Str → Str × Str
  | [], buf => (buf, [])
  | d :: src, buf =>
    if d = q then (buf, d :: src)
    else if d = '\\' then
      match src with
      | e :: src => stringLoop q src (put 8190 buf (unescape e))
      | [] => (put 8190 buf d, [])
    else stringLoop q src (put 8190 buf d)

theorem stringLoop_quote (q : Char) (src buf : Str) :
    stringLoop q (q :: src) buf = (buf, q :: src) := by
  rw [stringLoop.eq_def]
  exact if_pos rfl

theorem stringLoop_char {q c : Char} (other : c ≠ q) (plain : c ≠ '\\') (src buf : Str) :
    stringLoop q (c :: src) buf = stringLoop q src (put 8190 buf c) := by
  rw [stringLoop.eq_def]
  exact (if_neg other).trans (if_neg plain)

theorem stringLoop_escape {q : Char} (other : q ≠ '\\') (e : Char) (src buf : Str) :
    stringLoop q ('\\' :: e :: src) buf = stringLoop q src (put 8190 buf (unescape e)) := by
  rw [stringLoop.eq_def]
  exact (if_neg other.symm).trans (if_pos rfl)

/-- The loop over `${...}`, by its braces. -/
def skipBraces : Nat → Str → Str
  | 0, src => src
  | _ + 1, [] => []
  | depth + 1, c :: src =>
    if c = '{' then skipBraces (depth + 2) src
    else if c = '}' then skipBraces depth src
    else skipBraces (depth + 1) src

/-- The loop over a template up to its end; `rounds` is the number of characters left. -/
def templateLoop : Nat → Str → Str → Str × Str
  | 0, src, buf => (buf, src)
  | rounds + 1, src, buf =>
    match src with
    | [] => (buf, [])
    | '`' :: src => (buf, '`' :: src)
    | '$' :: '{' :: src => templateLoop rounds (skipBraces 1 src) buf
    | c :: src => templateLoop rounds src (put 4094 buf c)

theorem templateLoop_end (rounds : Nat) (src buf : Str) :
    templateLoop (rounds + 1) ('`' :: src) buf = (buf, '`' :: src) := rfl

theorem templateLoop_subst (rounds : Nat) (src buf : Str) :
    templateLoop (rounds + 1) ('$' :: '{' :: src) buf =
      templateLoop rounds (skipBraces 1 src) buf := rfl

theorem templateLoop_char {c : Char} (tick : c ≠ '`') {src : Str}
    (dollar : c ≠ '$' ∨ src.head? ≠ some '{') (rounds : Nat) (buf : Str) :
    templateLoop (rounds + 1) (c :: src) buf = templateLoop rounds src (put 4094 buf c) := by
  rw [templateLoop]
  · exact tick
  · rintro rest rfl rfl
    exact dollar.elim (· rfl) (· rfl)

def cstr (s : Str) : Str := s.takeWhile (· != '\x00')

section Tokens

def jsKw : List Str :=
  ["var".toList, "let".toList, "const".toList, "function".toList, "return".toList, "if".toList,
    "else".toList, "for".toList, "while".toList, "true".toList, "false".toList, "null".toList,
    "undefined".toList, "typeof".toList, "new".toList, "this".toList, "break".toList,
    "continue".toList]

def ops : List Str :=
  [['=', '=', '='], ['!', '=', '='], ['=', '>'], ['=', '='], ['!', '='], ['<', '='], ['>', '='],
    ['&', '&'], ['|', '|'], ['+', '+'], ['-', '-'], ['+', '='], ['-', '=']]

def number (ds : Str) : Int64 :=
  ds.foldl (fun v c => v * 10 + (Int64.ofNat c.toNat - 48)) 0

variable {C H : Type}

/-- `js_next`: the token and the source behind it. -/
def jsNext (src : Str) : StateM (Store C H) (Token × Str) :=
  match jsSkip src with
  | [] => return (⟨.eof, 0, [], []⟩, [])
  | c :: rest =>
    let p0 := c :: rest
    if jsIsdig c then
      return (⟨.num, number (p0.takeWhile jsIsdig), [], p0⟩, p0.dropWhile jsIsdig)
    else if c = '\'' ∨ c = '"' then do
      let text := stringLoop c rest []
      let s ← jsIntern text.1
      return (⟨.str, 0, cstr s, p0⟩, text.2.drop 1)
    else if c = '`' then do
      let text := templateLoop rest.length rest []
      let s ← jsIntern text.1
      return (⟨.tmpl, 0, cstr s, p0⟩, text.2.drop 1)
    else if jsIsid0 c then do
      let s ← jsIntern (p0.takeWhile jsIsid)
      return (⟨if jsKw.contains s then .kw else .name, 0, s, p0⟩, p0.dropWhile jsIsid)
    else do
      let op := (ops.find? fun op => op.isPrefixOf p0).getD [c]
      let s ← jsIntern op
      return (⟨.punct, 0, s, p0⟩, p0.drop op.length)

end Tokens

end XinuRpi5.System.JsLex
