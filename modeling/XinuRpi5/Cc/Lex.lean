/- source: cc/parse.c
   digest: The lexer of the on-device C compiler, and the texts at whose end it looks too far. -/

import XinuRpi5.Cc.Parse

/-!
A text is the characters in front of the NUL, and the cursor is what is left of it; the empty rest
is the NUL. A cursor that was moved over the NUL is `none`, and looking at a character there ends
the run.
-/

namespace XinuRpi5.Cc.Lex

open Parse (Arena)

abbrev Text := List UInt8

def chars (s : String) : Text := s.toList.map fun c => UInt8.ofNat c.toNat

def isSpace (c : UInt8) : Bool := c = 32 || c = 9 || c = 13 || c = 10

def isDigit (c : UInt8) : Bool := 48 ≤ c && c ≤ 57

def isAlpha (c : UInt8) : Bool := (97 ≤ c && c ≤ 122) || (65 ≤ c && c ≤ 90) || c = 95

def isAlnum (c : UInt8) : Bool := isAlpha c || isDigit c

def escaped (c : UInt8) : UInt8 :=
  if c = 110 then 10
  else if c = 116 then 9
  else if c = 114 then 13
  else if c = 48 then 0
  else c

/-- `read_escape`, which takes whatever is there, and a NUL as well. -/
def readEscape : Text → UInt8 × Option Text
  | [] => (escaped 0, none)
  | c :: rest => (escaped c, some rest)

def kwTab : List Text :=
  ["int", "char", "if", "else", "while", "for", "return", "sizeof", "struct", "typedef", "switch",
    "case", "default", "break", "continue"].map chars

/-- `two`. -/
def pairs : List Text := ["==", "!=", "<=", ">=", "&&", "||", "->"].map chars

def singles : Text :=
  [43, 45, 42, 47, 37, 61, 60, 62, 40, 41, 91, 93, 123, 125, 38, 33, 44, 59, 46, 58]

/-- `token_t`. -/
inductive Tok where
  | num (val : BitVec 64)
  | str (str : Text)
  | ident (text : Text)
  | punct (text : Text)
  | kw (text : Text)
  | eof

/-- The tokens that have a place of their own, the arena and the error. -/
structure Lexer where
  toks : List Tok
  arena : Arena
  err : Option String

def Lexer.error (s : Lexer) (msg : String) : Lexer := { s with err := some (s.err.getD msg) }

/-- `cc_alloc`, and whether there was room. -/
def Lexer.alloc (s : Lexer) (n : Nat) : Bool × Lexer :=
  let size := (n + 15) / 16 * 16
  if s.arena.cap < s.arena.pos + size then (false, s.error "compiler arena exhausted")
  else (true, { s with arena.pos := s.arena.pos + size })

/-- `new_tok`, and the token goes behind the others. -/
def Lexer.newTok (s : Lexer) (t : Tok) : Lexer :=
  match s.alloc 48 with
  | (true, s) => { s with toks := s.toks ++ [t] }
  | (false, s) => s

/-- A token with a copy of its characters, `dup_n`. -/
def Lexer.newTokText (s : Lexer) (t : Tok) (n : Nat) : Lexer := ((s.newTok t).alloc (n + 1)).2

inductive Stop where
  | past
  | error (s : Lexer)

def skipLine : Text → Text
  | [] => []
  | c :: rest => if c = 10 then c :: rest else skipLine rest

def skipBlock : Text → Text
  | [] => []
  | 42 :: 47 :: rest => rest
  | _ :: rest => skipBlock rest

def number : BitVec 64 → Text → BitVec 64 × Text
  | v, [] => (v, [])
  | v, c :: rest =>
    if isDigit c then number (v * 10 + (c.toBitVec.setWidth 64 - 48)) rest else (v, c :: rest)

/-- The end of a character literal: its second quote is looked for, and the token is made. -/
def closeQuote (s : Lexer) (c : UInt8) : Option Text → Except Stop (Text × Lexer)
  | none => .error .past
  | some (39 :: rest) => .ok (rest, s.newTok (.num (c.toBitVec.setWidth 64)))
  | some _ => .error (.error (s.error "unterminated char literal"))

def charLiteral (s : Lexer) : Text → Except Stop (Text × Lexer)
  | [] => closeQuote s 0 none
  | 92 :: rest => closeQuote s (readEscape rest).1 (readEscape rest).2
  | c :: rest => closeQuote s c (some rest)

/-- The loop over a string literal, with the number of characters that the buffer still takes. -/
def stringBody : Nat → Text → Text → Option (Text × Text)
  | _, [], buf => some ([], buf)
  | 0, c :: rest, buf => some (c :: rest, buf)
  | room + 1, c :: rest, buf =>
    if c = 34 then some (c :: rest, buf)
    else if c = 92 then
      match readEscape rest with
      | (x, some rest) => stringBody room rest (buf ++ [x])
      | (_, none) => none
    else stringBody room rest (buf ++ [c])

def stringLiteral (s : Lexer) (p : Text) : Except Stop (Text × Lexer) :=
  match stringBody 1023 p [] with
  | none => .error .past
  | some (34 :: rest, buf) => .ok (rest, s.newTokText (.str buf) buf.length)
  | some _ => .error (.error (s.error "unterminated string literal"))

def word (s : Lexer) (t : Text) : Text × Lexer :=
  let text := t.takeWhile isAlnum
  (t.dropWhile isAlnum, s.newTokText (if text ∈ kwTab then .kw text else .ident text) text.length)

def punctuator (s : Lexer) (c : UInt8) (rest : Text) : Except Stop (Text × Lexer) :=
  match pairs.find? fun t => t.isPrefixOf (c :: rest) with
  | some t => .ok (rest.drop 1, s.newTokText (.punct t) 2)
  | none =>
    if c ∈ singles then .ok (rest, s.newTokText (.punct [c]) 1)
    else .error (.error (s.error
      ("unexpected character '" ++ String.singleton (Char.ofNat c.toNat) ++ "'")))

/-- A turn of the loop of `cc_lex`, at a character other than the NUL. -/
def lexOne (s : Lexer) (c : UInt8) (rest : Text) : Except Stop (Text × Lexer) :=
  if isSpace c then .ok (rest, s)
  else if c = 47 ∧ rest.head? = some 47 then .ok (skipLine (c :: rest), s)
  else if c = 47 ∧ rest.head? = some 42 then .ok (skipBlock (rest.drop 1), s)
  else if isDigit c then
    let (v, p) := number 0 (c :: rest)
    .ok (p, s.newTok (.num v))
  else if c = 39 then charLiteral s rest
  else if c = 34 then stringLiteral s rest
  else if isAlpha c then .ok (word s (c :: rest))
  else punctuator s c rest

/-- How a run of `cc_lex` ends: with the list of the tokens, with none, with a look behind the NUL,
or not within the turns that it was given. -/
inductive Result where
  | done (s : Lexer)
  | failed (s : Lexer)
  | past
  | spent

def ccLex : Nat → Text → Lexer → Result
  | 0, _, _ => .spent
  | _ + 1, [], s => .done (s.newTok .eof)
  | turns + 1, c :: rest, s =>
    match lexOne s c rest with
    | .ok (p, s) => ccLex turns p s
    | .error .past => .past
    | .error (.error s) => .failed s

/-- Where in a text a place is: between lexemes, behind a `/` or a `|`, in a comment, behind the `*`
of one, behind the quote of a character literal, its backslash or its character, in a string literal
of so many characters, behind a backslash in it, or behind an error. -/
inductive Place where
  | plain
  | slash
  | bar
  | line
  | block
  | star
  | quote
  | quoteEscape
  | close
  | string (n : Nat)
  | stringEscape (n : Nat)
  | dead
  deriving DecidableEq

def Place.start (c : UInt8) : Place :=
  if isSpace c || isDigit c || isAlpha c then .plain
  else if c = 47 then .slash
  else if c = 39 then .quote
  else if c = 34 then .string 0
  else if c = 124 then .bar
  else if c ∈ singles then .plain
  else .dead

def Place.next : Place → UInt8 → Place
  | .plain, c => start c
  | .slash, c => if c = 47 then .line else if c = 42 then .block else start c
  | .bar, c => if c = 124 then .plain else .dead
  | .line, c => if c = 10 then .plain else .line
  | .block, c => if c = 42 then .star else .block
  | .star, c => if c = 47 then .plain else if c = 42 then .star else .block
  | .quote, c => if c = 92 then .quoteEscape else .close
  | .quoteEscape, _ => .close
  | .close, c => if c = 39 then .plain else .dead
  | .string n, c =>
    if c = 34 then .plain
    else if 1023 ≤ n then .dead
    else if c = 92 then .stringEscape n
    else .string (n + 1)
  | .stringEscape n, _ => .string (n + 1)
  | .dead, _ => .dead

def Place.Blind : Place → Prop
  | .quote => True
  | .quoteEscape => True
  | .stringEscape _ => True
  | _ => False

instance : DecidablePred Place.Blind
  | .quote | .quoteEscape | .stringEscape _ => .isTrue trivial
  | .plain | .slash | .bar | .line | .block | .star | .close | .string _ | .dead => .isFalse id

/-- The text breaks off at a place where a character is taken without a look at it. -/
def CutOff (from' : Place) (t : Text) : Prop := (t.foldl Place.next from').Blind

/-- The lexer looks at nothing behind the NUL, and its list ends in the only `eof`, or the error is
set. -/
def Result.Good : Result → Prop
  | .done s => s.err ≠ none ∨ ∃ front, s.toks = front ++ [.eof] ∧ .eof ∉ front
  | .failed s => s.err ≠ none
  | .past => False
  | .spent => False

section Scanning

variable {c : UInt8} {t rest buf : Text} {n : Nat}

@[simp] theorem cutOff_cons (from' : Place) (c : UInt8) (rest : Text) :
    CutOff from' (c :: rest) ↔ CutOff (from'.next c) rest := Iff.rfl

theorem not_cutOff_dead (t : Text) : ¬ CutOff .dead t := by
  induction t with
  | nil => exact id
  | cons c rest later => exact later

theorem start_plain (skipped : isSpace c || isDigit c || isAlpha c) : Place.start c = .plain :=
  if_pos skipped

theorem skipLine_spec (t : Text) : (skipLine t).length ≤ t.length ∧
    (CutOff .plain (skipLine t) ↔ CutOff .line t) := by
  induction t with
  | nil => exact ⟨Nat.le_refl _, Iff.rfl⟩
  | cons c rest later =>
    unfold skipLine
    split_ifs with newline
    · subst newline
      exact ⟨Nat.le_refl _, Iff.rfl⟩
    · rw [cutOff_cons, show Place.next .line c = .line from if_neg newline]
      exact ⟨Nat.le_succ_of_le later.1, later.2⟩

theorem cutOff_star (t : Text) (open' : t.head? ≠ some 47) :
    CutOff .star t ↔ CutOff .block t := by
  cases t with
  | nil => exact Iff.rfl
  | cons c rest =>
    have other : c ≠ 47 := fun same => open' (congrArg some same)
    have same : Place.next .star c = Place.next .block c := if_neg other
    rw [cutOff_cons, cutOff_cons, same]

theorem skipBlock_spec (t : Text) : (skipBlock t).length ≤ t.length ∧
    (CutOff .plain (skipBlock t) ↔ CutOff .block t) := by
  induction t using skipBlock.induct with
  | case1 => exact ⟨Nat.le_refl _, Iff.rfl⟩
  | case2 rest => exact ⟨by simp only [skipBlock, List.length_cons]; omega, Iff.rfl⟩
  | case3 c rest open' later =>
    have skipped : skipBlock (c :: rest) = skipBlock rest := by
      rw [skipBlock]
      exact open'
    rw [skipped, cutOff_cons]
    refine ⟨Nat.le_succ_of_le later.1, later.2.trans ?_⟩
    by_cases star : c = 42
    · subst star
      refine (cutOff_star rest fun slash => ?_).symm
      obtain ⟨rest, rfl⟩ : ∃ r, rest = 47 :: r := List.head?_eq_some_iff.mp slash
      exact open' rest rfl rfl
    · rw [show Place.next .block c = .block from if_neg star]

theorem number_spec (v : BitVec 64) (t : Text) : (number v t).2.length ≤ t.length ∧
    (CutOff .plain (number v t).2 ↔ CutOff .plain t) := by
  induction t generalizing v with
  | nil => exact ⟨Nat.le_refl _, Iff.rfl⟩
  | cons c rest later =>
    unfold number
    split_ifs with digit
    · rw [cutOff_cons, show Place.next .plain c = .plain from start_plain (by simp [digit])]
      exact ⟨Nat.le_succ_of_le (later _).1, (later _).2⟩
    · exact ⟨Nat.le_refl _, Iff.rfl⟩

theorem word_spec (t : Text) : (t.dropWhile isAlnum).length ≤ t.length ∧
    (CutOff .plain (t.dropWhile isAlnum) ↔ CutOff .plain t) := by
  induction t with
  | nil => exact ⟨Nat.le_refl _, Iff.rfl⟩
  | cons c rest later =>
    rw [List.dropWhile_cons]
    split_ifs with inside
    · have plain : Place.next .plain c = .plain := by
        apply start_plain
        unfold isAlnum at inside
        rw [Bool.or_assoc, Bool.or_comm (isDigit c), inside, Bool.or_true]
      rw [cutOff_cons, plain]
      exact ⟨Nat.le_succ_of_le later.1, later.2⟩
    · exact ⟨Nat.le_refl _, Iff.rfl⟩

/-- What the loop over a string literal tells of the text from a place in it. -/
def Body (n : Nat) (t : Text) : Option (Text × Text) → Prop
  | none => CutOff (.string n) t
  | some (p, _) => p.length ≤ t.length ∧
      if p.head? = some 34 then (CutOff .plain p.tail ↔ CutOff (.string n) t)
      else ¬ CutOff (.string n) t

theorem Body.of {m : Nat} {p : Text} {r : Option (Text × Text)} (body : Body m p r)
    (shorter : p.length ≤ t.length) (same : CutOff (.string n) t ↔ CutOff (.string m) p) :
    Body n t r := by
  cases r with
  | none => exact same.mpr body
  | some r =>
    obtain ⟨le, ends⟩ := body
    refine ⟨Nat.le_trans le shorter, ?_⟩
    rw [same]
    exact ends

theorem next_string (n : Nat) (c : UInt8) : Place.next (.string n) c =
    if c = 34 then .plain
    else if 1023 ≤ n then .dead
    else if c = 92 then .stringEscape n
    else .string (n + 1) := rfl

theorem stringBody_spec (room : Nat) (t buf : Text) (count : n + room = 1023) :
    Body n t (stringBody room t buf) := by
  induction room generalizing n t buf with
  | zero =>
    cases t with
    | nil => exact ⟨Nat.le_refl _, id⟩
    | cons c rest =>
      refine ⟨Nat.le_refl _, ?_⟩
      rw [List.head?_cons, cutOff_cons]
      by_cases closed : c = 34
      · subst closed
        exact Iff.rfl
      · have full : Place.next (.string n) c = .dead := by
          rw [next_string, if_neg closed, if_pos (by omega)]
        rw [if_neg (fun same => closed (Option.some.inj same)), full]
        exact not_cutOff_dead rest
  | succ room later =>
    cases t with
    | nil => exact ⟨Nat.le_refl _, id⟩
    | cons c rest =>
      unfold stringBody
      by_cases closed : c = 34
      · subst closed
        exact ⟨Nat.le_refl _, Iff.rfl⟩
      · have next := next_string n c
        rw [if_neg closed, if_neg (by omega)] at next
        rw [if_neg closed]
        by_cases backslash : c = 92
        · rw [if_pos backslash] at next ⊢
          cases rest with
          | nil =>
            show CutOff (.string n) [c]
            rw [cutOff_cons, next]
            trivial
          | cons d rest =>
            refine Body.of (later rest _ (by omega : n + 1 + room = 1023)) (by simp; omega) ?_
            rw [cutOff_cons, next]
            exact Iff.rfl
        · rw [if_neg backslash] at next ⊢
          refine Body.of (later rest _ (by omega : n + 1 + room = 1023)) (Nat.le_succ _) ?_
          rw [cutOff_cons, next]

end Scanning

section Turns

variable {s : Lexer} {c : UInt8} {rest : Text}

def Turn (s : Lexer) (t : Text) : Except Stop (Text × Lexer) → Prop
  | .ok (p, s') => p.length < t.length ∧ (CutOff .plain p ↔ CutOff .plain t) ∧
      (.eof ∉ s.toks → .eof ∉ s'.toks)
  | .error .past => CutOff .plain t
  | .error (.error s') => ¬ CutOff .plain t ∧ s'.err ≠ none

theorem error_set (s : Lexer) (msg : String) : (s.error msg).err ≠ none := nofun

theorem alloc_toks (s : Lexer) (n : Nat) : (s.alloc n).2.toks = s.toks := by
  unfold Lexer.alloc
  dsimp only
  split_ifs
  · rfl
  · rfl

theorem newTok_cases (s : Lexer) (tok : Tok) :
    (s.newTok tok).toks = s.toks ++ [tok] ∨
      (s.newTok tok).toks = s.toks ∧ (s.newTok tok).err ≠ none := by
  unfold Lexer.newTok
  by_cases full : s.arena.cap < s.arena.pos + (48 + 15) / 16 * 16
  · have none : s.alloc 48 = (false, s.error "compiler arena exhausted") := if_pos full
    rw [none]
    exact .inr ⟨rfl, error_set s _⟩
  · have room : s.alloc 48 = (true, { s with arena.pos := s.arena.pos + (48 + 15) / 16 * 16 }) :=
      if_neg full
    rw [room]
    exact .inl rfl

theorem newTok_toks {tok : Tok} (real : tok ≠ .eof) (before : .eof ∉ s.toks) :
    .eof ∉ (s.newTok tok).toks := by
  rcases newTok_cases s tok with same | ⟨same, -⟩
  · rw [same]
    intro there
    rcases List.mem_append.mp there with there | there
    · exact before there
    · exact real (List.mem_singleton.mp there).symm
  · rw [same]
    exact before

theorem newTokText_toks {tok : Tok} (n : Nat) (real : tok ≠ .eof) (before : .eof ∉ s.toks) :
    .eof ∉ (s.newTokText tok n).toks := by
  unfold Lexer.newTokText
  rw [alloc_toks]
  exact newTok_toks real before

theorem closeQuote_turn (s : Lexer) (c : UInt8) {q t : Text} (before : q.length < t.length)
    (same : CutOff .plain t ↔ CutOff .close q) : Turn s t (closeQuote s c (some q)) := by
  unfold closeQuote
  split
  · rename_i none
    cases none
  · rename_i rest quote
    obtain rfl := Option.some.inj quote
    rw [List.length_cons] at before
    exact ⟨by omega, same.symm, newTok_toks nofun⟩
  · rename_i q' other quote
    obtain rfl := Option.some.inj quote
    refine ⟨fun cut => ?_, error_set s _⟩
    have closing := same.mp cut
    cases q with
    | nil => exact closing
    | cons d rest =>
      have wrong : Place.next .close d = .dead :=
        if_neg fun quote => other rest (by rw [quote])
      rw [cutOff_cons, wrong] at closing
      exact not_cutOff_dead rest closing

theorem charLiteral_turn (s : Lexer) (rest : Text) :
    Turn s (39 :: rest) (charLiteral s rest) := by
  unfold charLiteral
  split
  · trivial
  · rename_i rest
    cases rest with
    | nil => trivial
    | cons d rest => exact closeQuote_turn s _ (by simp only [List.length_cons]; omega) Iff.rfl
  · rename_i c rest other
    have behind : Place.next .quote c = .close := if_neg other
    refine closeQuote_turn s c (by simp only [List.length_cons]; omega) ?_
    rw [cutOff_cons, show Place.next .plain 39 = .quote from rfl, cutOff_cons, behind]

theorem stringLiteral_turn (s : Lexer) (rest : Text) :
    Turn s (34 :: rest) (stringLiteral s rest) := by
  have body := stringBody_spec 1023 rest [] (Nat.zero_add 1023)
  have opens : CutOff .plain (34 :: rest) ↔ CutOff (.string 0) rest := Iff.rfl
  unfold stringLiteral
  split
  · rename_i none
    rw [none] at body
    exact opens.mpr body
  · rename_i p buf found
    rw [found] at body
    obtain ⟨le, same⟩ := body
    rw [if_pos (List.head?_cons ..)] at same
    rw [List.length_cons] at le
    refine ⟨by rw [List.length_cons]; omega, same.trans opens.symm, newTokText_toks _ nofun⟩
  · rename_i r other found
    obtain ⟨p, buf⟩ := r
    rw [found] at body
    obtain ⟨-, ends⟩ := body
    have open' : p.head? ≠ some 34 := by
      intro quote
      obtain ⟨q, rfl⟩ : ∃ q, p = 34 :: q := List.head?_eq_some_iff.mp quote
      exact other q buf rfl
    rw [if_neg open'] at ends
    exact ⟨fun cut => ends (opens.mp cut), error_set s _⟩

theorem word_turn (s : Lexer) (rest : Text) (letter : isAlpha c = true) :
    Turn s (c :: rest) (.ok (word s (c :: rest))) := by
  have inside : isAlnum c = true := by
    unfold isAlnum
    rw [letter, Bool.true_or]
  have spec := word_spec (c :: rest)
  have shorter := (word_spec rest).1
  have step : (c :: rest).dropWhile isAlnum = rest.dropWhile isAlnum := by
    rw [List.dropWhile_cons, if_pos inside]
  refine ⟨?_, spec.2, newTokText_toks _ (by split_ifs; exacts [nofun, nofun])⟩
  show ((c :: rest).dropWhile isAlnum).length < (c :: rest).length
  rw [step, List.length_cons]
  omega

theorem pairs_plain : ∀ t ∈ pairs, ∃ a b, t = [a, b] ∧ (Place.start a).next b = .plain := by
  intro t there
  simp only [pairs, List.map_cons, List.map_nil, List.mem_cons, List.not_mem_nil, or_false] at there
  rcases there with rfl | rfl | rfl | rfl | rfl | rfl | rfl
  all_goals exact ⟨_, _, rfl, by decide⟩

theorem cutOff_slash {t : Text} (line : t.head? ≠ some 47) (block : t.head? ≠ some 42) :
    CutOff .slash t ↔ CutOff .plain t := by
  cases t with
  | nil => exact Iff.rfl
  | cons d rest =>
    have first : d ≠ 47 := fun same => line (congrArg some same)
    have second : d ≠ 42 := fun same => block (congrArg some same)
    have same : Place.next .slash d = Place.next .plain d := by
      show (if d = 47 then Place.line else if d = 42 then Place.block else Place.start d) = _
      rw [if_neg first, if_neg second]
      rfl
    rw [cutOff_cons, cutOff_cons, same]

theorem start_other (word : ¬ (isSpace c || isDigit c || isAlpha c) = true) (quote : c ≠ 39)
    (string : c ≠ 34) : Place.start c =
      if c = 47 then .slash
      else if c = 124 then .bar
      else if c ∈ singles then .plain
      else .dead := by
  unfold Place.start
  rw [if_neg word, if_neg quote, if_neg string]

theorem punctuator_turn (s : Lexer) (word : ¬ (isSpace c || isDigit c || isAlpha c) = true)
    (quote : c ≠ 39) (string : c ≠ 34) (line : ¬ (c = 47 ∧ rest.head? = some 47))
    (block : ¬ (c = 47 ∧ rest.head? = some 42)) :
    Turn s (c :: rest) (punctuator s c rest) := by
  have begins := start_other word quote string
  have opens : CutOff .plain (c :: rest) ↔ CutOff (Place.start c) rest := Iff.rfl
  unfold punctuator
  split
  · rename_i t found
    obtain ⟨a, b, rfl, plain⟩ := pairs_plain t (List.mem_of_find?_eq_some found)
    have front := List.isPrefixOf_iff_prefix.mp
      (List.find?_some (p := fun t : Text => t.isPrefixOf (c :: rest)) found)
    obtain ⟨tail, same⟩ := front
    obtain rfl : a = c := (List.cons.inj same).1
    obtain rfl : b :: tail = rest := (List.cons.inj same).2
    refine ⟨?_, ?_, newTokText_toks _ nofun⟩
    · simp only [List.drop_succ_cons, List.drop_zero, List.length_cons]
      omega
    · rw [opens, cutOff_cons, plain]
      exact Iff.rfl
  · rename_i none
    by_cases single : c ∈ singles
    · rw [if_pos single]
      refine ⟨Nat.lt_succ_self _, ?_, newTokText_toks _ nofun⟩
      rw [opens, begins]
      by_cases slash : c = 47
      · rw [if_pos slash]
        exact (cutOff_slash (fun same => line ⟨slash, same⟩) fun same => block ⟨slash, same⟩).symm
      · have noBar : c ≠ 124 := by
          rintro rfl
          exact absurd single (by decide)
        rw [if_neg slash, if_neg noBar, if_pos single]
    · rw [if_neg single]
      refine ⟨fun cut => ?_, error_set s _⟩
      have noSlash : c ≠ 47 := by
        rintro rfl
        exact single (by decide)
      rw [opens, begins, if_neg noSlash, if_neg single] at cut
      split_ifs at cut with bar
      · cases rest with
        | nil => exact cut
        | cons d rest =>
          by_cases two : d = 124
          · have missing := List.find?_eq_none.mp none (chars "||") (by decide)
            subst bar two
            exact missing rfl
          · rw [cutOff_cons, show Place.next .bar d = .dead from if_neg two] at cut
            exact not_cutOff_dead rest cut
      · exact not_cutOff_dead rest cut

theorem lexOne_turn (s : Lexer) (c : UInt8) (rest : Text) :
    Turn s (c :: rest) (lexOne s c rest) := by
  unfold lexOne
  split_ifs with space line block digit quote string letter
  · refine ⟨Nat.lt_succ_self _, ?_, id⟩
    rw [cutOff_cons, show Place.next .plain c = .plain from start_plain (by simp [space])]
  · obtain ⟨rfl, second⟩ := line
    obtain ⟨rest, rfl⟩ : ∃ r, rest = 47 :: r := List.head?_eq_some_iff.mp second
    have spec := skipLine_spec rest
    have skipped : skipLine (47 :: 47 :: rest) = skipLine rest := rfl
    refine ⟨?_, ?_, id⟩
    · rw [skipped]
      simp only [List.length_cons]
      omega
    · rw [skipped]
      exact spec.2
  · obtain ⟨rfl, second⟩ := block
    obtain ⟨rest, rfl⟩ : ∃ r, rest = 42 :: r := List.head?_eq_some_iff.mp second
    have spec := skipBlock_spec rest
    exact ⟨by simp only [List.drop_succ_cons, List.drop_zero, List.length_cons]; omega, spec.2, id⟩
  · have spec := number_spec 0 (c :: rest)
    have shorter := (number_spec (0 * 10 + (c.toBitVec.setWidth 64 - 48)) rest).1
    have step : (number 0 (c :: rest)).2 =
        (number (0 * 10 + (c.toBitVec.setWidth 64 - 48)) rest).2 := by
      rw [number, if_pos digit]
    refine ⟨?_, spec.2, newTok_toks nofun⟩
    show (number 0 (c :: rest)).2.length < (c :: rest).length
    rw [step, List.length_cons]
    omega
  · subst quote
    exact charLiteral_turn s rest
  · subst string
    exact stringLiteral_turn s rest
  · exact word_turn s rest letter
  · exact punctuator_turn s (by simp [space, digit, letter]) quote string line block

end Turns

/-- The lexer stays in its text and returns its list or the error, exactly if the text does not
break off behind the quote of a character literal or its backslash, or behind a backslash in a
string literal. -/
theorem lex_inside_iff {turns : Nat} {t : Text} (enough : t.length < turns) (arena : Arena) :
    (ccLex turns t ⟨[], arena, none⟩).Good ↔ ¬ (t.foldl Place.next .plain).Blind := by
  have run (s : Lexer) (real : .eof ∉ s.toks) : (ccLex turns t s).Good ↔ ¬ CutOff .plain t := by
    induction turns generalizing t s with
    | zero => exact absurd enough (Nat.not_lt_zero _)
    | succ turns later =>
      cases t with
      | nil =>
        refine iff_of_true ?_ id
        rcases newTok_cases s .eof with last | ⟨-, error⟩
        · exact .inr ⟨s.toks, last, real⟩
        · exact .inl error
      | cons c rest =>
        have turn := lexOne_turn s c rest
        unfold ccLex
        split
        · rename_i p s' next
          rw [next] at turn
          obtain ⟨shorter, same, kept⟩ := turn
          rw [later (by omega) s' (kept real), same]
        · rename_i next
          rw [next] at turn
          exact iff_of_false id (not_not_intro turn)
        · rename_i s' next
          rw [next] at turn
          exact iff_of_true turn.2 turn.1
  exact run ⟨[], arena, none⟩ List.not_mem_nil

/-- `return 'a';` -/
theorem lex_inside_char : (ccLex 12 (chars "return 'a';") ⟨[], ⟨0, 1024, 0⟩, none⟩).Good :=
  (lex_inside_iff (by decide) _).mpr (by decide)

/-- A text that ends in the quote of a character literal. -/
theorem lex_past_quote : ccLex 2 (chars "'") ⟨[], ⟨0, 1024, 0⟩, none⟩ = .past := rfl

end XinuRpi5.Cc.Lex
