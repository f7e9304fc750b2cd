/- source: system/js.c
   digest: What produces strings in the JavaScript evaluator, and the strings of the language. -/

import Mathlib
import XinuRpi5.System.Js
import XinuRpi5.System.JsLex

namespace XinuRpi5.System.JsStrings

open JsStore Js JsLex

inductive Piece where
  | char (c : Char)
  | escape (c : Char)

def Piece.text : Piece → Str
  | .char c => [c]
  | .escape c => ['\\', c]

def Piece.value : Piece → Char
  | .char c => c
  | .escape 'n' => '\n'
  | .escape 't' => '\t'
  | .escape 'r' => '\r'
  | .escape 'b' => '\x08'
  | .escape 'f' => '\x0c'
  | .escape 'v' => '\x0b'
  | .escape c => c

/-- The escapes of the subset: a line feed, a tabulator, a return, and characters for
themselves. Not so the codes (`x`, `u` and digits), the other controls and line ends. -/
def Piece.simple (q : Char) : Piece → Bool
  | .char c => c != q && c != '\\'
  | .escape c => !(c ∈ ['b', 'f', 'v', 'x', 'u', '\n', '\r']) && !jsIsdig c

def literalText (q : Char) (pieces : List Piece) : Str := q :: pieces.flatMap Piece.text ++ [q]

/-- A character of a template, or a substitution with what stands between its braces. -/
inductive Part where
  | char (c : Char)
  | subst (body : Str)

def Part.text : Part → Str
  | .char c => [c]
  | .subst body => ['$', '{'] ++ body ++ ['}']

def Part.value : Part → Str
  | .char c => [c]
  | .subst _ => []

/-- The braces of a text that stands behind `depth` open ones; none of these is closed. -/
def openBraces : Nat → Str → Option Nat
  | depth, [] => some depth
  | depth, c :: rest =>
    if c = '{' then openBraces (depth + 1) rest
    else if c = '}' then if depth = 1 then none else openBraces (depth - 1) rest
    else openBraces depth rest

def Part.evaluated (eval : Str → Str) : Part → Str
  | .char c => [c]
  | .subst body => eval body

/-- Neither the end of the template nor an escape; a dollar stands in front of no brace. -/
def Part.simple : List Part → Bool
  | [] => true
  | .char c :: rest =>
    c != '`' && c != '\\' && c != '\r' && (c != '$' || (rest.flatMap Part.text).head? != some '{') &&
      Part.simple rest
  | .subst body :: rest => openBraces 1 body == some 1 && Part.simple rest

def templateText (parts : List Part) : Str := '`' :: parts.flatMap Part.text ++ ['`']

def decimal (v : Int) : Str :=
  (if v < 0 then ['-'] else []) ++ Nat.toDigits 10 v.natAbs

/-- A value as a string; objects and functions have names of the evaluator's own. -/
def textOf (objs : List Nat) (v : Jsv) : Str :=
  match v.t with
  | .str => v.s
  | .num => decimal v.n.toInt
  | .bool => if v.n ≠ 0 then "true".toList else "false".toList
  | .null => "null".toList
  | .undef => "undefined".toList
  | .fn | .nat => "[function]".toList
  | .obj => if objs[v.o]? = some 1 then "[array]".toList else "[object]".toList

def lowerChar (c : Char) : Char :=
  if 'A' ≤ c ∧ c ≤ 'Z' then Char.ofNat (c.toNat + 32) else c

def upperChar (c : Char) : Char :=
  if 'a' ≤ c ∧ c ≤ 'z' then Char.ofNat (c.toNat - 32) else c

section Producers

variable {H : Type}

/-- `js_nat_lower`, which is also `toUpperCase`. -/
def jsNatLower (self : Jsv) : StateM (Store Code H) Jsv := do
  if self.t ≠ .str then return self
  let s ← get
  if s.strN + self.s.length + 1 ≥ jsStrCap then return self
  set { s with strN := s.strN + self.s.length + 1 }
  return ofStr (self.s.map lowerChar)

/-- What makes strings: a literal or a template in front of the rest of the source, `+` and
`+=` of two values, and the two methods of a string. -/
inductive Producer where
  | literal (q : Char) (pieces : List Piece) (rest : Str)
  | template (parts : List Part) (rest : Str)
  | plus (a b : Jsv)
  | toLowerCase (x : Str)
  | toUpperCase (x : Str)

def Producer.perform : Producer → StateM (Store Code H) Str
  | .literal q pieces rest => do return (← jsNext (literalText q pieces ++ rest)).1.str
  | .template parts rest => do return (← jsNext (templateText parts ++ rest)).1.str
  | .plus a b => do return (← Js.plus a b).s
  | .toLowerCase x => do return (← jsNatLower (ofStr x)).s
  | .toUpperCase x => do return (← jsNatLower (ofStr x)).s

def Producer.meaning (objs : List Nat) : Producer → Str
  | .literal _ pieces _ => pieces.map Piece.value
  | .template parts _ => parts.flatMap Part.value
  | .plus a b => textOf objs a ++ textOf objs b
  | .toLowerCase x => x.map lowerChar
  | .toUpperCase x => x.map upperChar

def Loud (p : Producer) (s : Store Code H) : Prop :=
  (p.perform s).2.err.isSome ∨ (p.perform s).1 = p.meaning s.objs

def converted (a b : Jsv) (s : Store Code H) : Store Code H := (jsTostr b (jsTostr a s).2).2

def Printable (v : Jsv) : Prop := v.t = .num → v.n ≠ Int64.minValue

/-- The texts of the subset that the buffers hold, and the operations for whose result the
region has room. -/
def Plain (s : Store Code H) : Producer → Prop
  | .literal q pieces _ =>
    (q = '\'' ∨ q = '"') ∧ (∀ p ∈ pieces, p.simple q = true) ∧
      (∀ p ∈ pieces, p.value ≠ '\x00') ∧ pieces.length ≤ 8190
  | .template parts _ =>
    Part.simple parts = true ∧ '\x00' ∉ parts.flatMap Part.value ∧
      (parts.flatMap Part.value).length ≤ 4094
  | .plus a b =>
    (a.t = .str ∨ b.t = .str) ∧ Printable a ∧ Printable b ∧
      ((converted a b s).strN + (textOf s.objs a).length + (textOf s.objs b).length + 1 <
          jsStrCap ∨ textOf s.objs b = [])
  | .toLowerCase x => s.strN + x.length + 1 < jsStrCap ∨ ∀ c ∈ x, lowerChar c = c
  | .toUpperCase x => ∀ c ∈ x, lowerChar c = c ∧ upperChar c = c

end Producers

theorem put_room {room : Nat} {buf : Str} (free : buf.length < room) (d : Char) :
    put room buf d = buf ++ [d] := if_pos free

theorem unescape_value {q c : Char} (simple : (Piece.escape c).simple q = true) :
    unescape c = (Piece.escape c).value := by
  unfold unescape
  simp only [Piece.simple, Bool.and_eq_true, Bool.not_eq_true', decide_eq_false_iff_not,
    List.mem_cons, not_or] at simple
  split_ifs with line tab ret
  · subst line
    rfl
  · subst tab
    rfl
  · subst ret
    rfl
  · unfold Piece.value
    split <;> simp_all

theorem stringLoop_pieces {q : Char} (quote : q ≠ '\\') (rest : Str) {pieces : List Piece}
    (simple : ∀ p ∈ pieces, p.simple q = true) {buf : Str}
    (room : buf.length + pieces.length ≤ 8190) :
    stringLoop q (pieces.flatMap Piece.text ++ q :: rest) buf =
      (buf ++ pieces.map Piece.value, q :: rest) := by
  induction pieces generalizing buf with
  | nil =>
    rw [List.flatMap_nil, List.nil_append, stringLoop_quote, List.map_nil, List.append_nil]
  | cons p pieces ih =>
    have first := simple p List.mem_cons_self
    have later : ∀ p ∈ pieces, p.simple q = true := fun p mem =>
      simple p (List.mem_cons_of_mem _ mem)
    rw [List.length_cons] at room
    have step : stringLoop q ((p :: pieces).flatMap Piece.text ++ q :: rest) buf =
        stringLoop q (pieces.flatMap Piece.text ++ q :: rest) (buf ++ [p.value]) := by
      rw [List.flatMap_cons, List.append_assoc]
      cases p with
      | char c =>
        simp only [Piece.simple, Bool.and_eq_true, bne_iff_ne] at first
        rw [Piece.text, List.singleton_append, stringLoop_char first.1 first.2,
          put_room (by omega)]
        rfl
      | escape c =>
        rw [Piece.text, List.cons_append, List.singleton_append, stringLoop_escape quote,
          put_room (by omega), unescape_value first]
    rw [step, ih later (by rw [List.length_append, List.length_singleton]; omega),
      List.append_assoc]
    rfl

theorem skipBraces_closing (rest : Str) : skipBraces 1 (['}'] ++ rest) = rest := by
  rw [List.singleton_append, skipBraces, if_neg (by decide), if_pos rfl, skipBraces]

theorem skipBraces_body {depth e : Nat} {body : Str}
    (opens : openBraces (depth + 1) body = some e) (rest : Str) :
    skipBraces (depth + 1) (body ++ rest) = skipBraces e rest := by
  induction body generalizing depth with
  | nil =>
    obtain rfl := Option.some.inj opens
    rfl
  | cons c body ih =>
    unfold openBraces at opens
    rw [List.cons_append, skipBraces]
    split_ifs at opens ⊢ with opening closing last
    · exact ih opens
    · obtain ⟨d, rfl⟩ : ∃ d, depth = d + 1 := ⟨depth - 1, by omega⟩
      exact ih opens
    · exact ih opens

theorem templateLoop_parts (rest : Str) {parts : List Part} (simple : Part.simple parts = true)
    {buf : Str} {rounds : Nat} (enough : (parts.flatMap Part.text ++ '`' :: rest).length ≤ rounds)
    (room : buf.length + (parts.flatMap Part.value).length ≤ 4094) :
    templateLoop rounds (parts.flatMap Part.text ++ '`' :: rest) buf =
      (buf ++ parts.flatMap Part.value, '`' :: rest) := by
  induction parts generalizing buf rounds with
  | nil =>
    obtain ⟨k, rfl⟩ : ∃ k, rounds = k + 1 := ⟨rounds - 1, by
      simp only [List.flatMap_nil, List.nil_append, List.length_cons] at enough
      omega⟩
    rw [List.flatMap_nil, List.nil_append, templateLoop_end, List.flatMap_nil, List.append_nil]
  | cons part parts ih =>
    rw [List.flatMap_cons, List.append_assoc] at enough ⊢
    rw [List.flatMap_cons, List.length_append] at room
    obtain ⟨k, rfl⟩ : ∃ k, rounds = k + 1 := ⟨rounds - 1, by
      simp only [List.length_append, List.length_cons] at enough
      omega⟩
    cases part with
    | char c =>
      simp only [Part.simple, Bool.and_eq_true, bne_iff_ne] at simple
      obtain ⟨⟨⟨⟨tick, slash⟩, ret⟩, dollar⟩, later⟩ := simple
      simp only [Part.text, List.singleton_append, List.length_cons] at enough
      simp only [Part.value, List.length_singleton] at room
      have step : templateLoop (k + 1) (Part.text (.char c) ++
          (parts.flatMap Part.text ++ '`' :: rest)) buf =
          templateLoop k (parts.flatMap Part.text ++ '`' :: rest) (buf ++ [c]) := by
        rw [Part.text, List.singleton_append, templateLoop_char tick, put_room (by omega)]
        simp only [Bool.or_eq_true, bne_iff_ne, ne_eq] at dollar
        refine dollar.imp_right fun open' => ?_
        generalize parts.flatMap Part.text = texts at open' ⊢
        cases texts with
        | nil => simp
        | cons d ds => exact open'
      rw [step, ih later (by omega) (by rw [List.length_append, List.length_singleton]; omega),
        List.flatMap_cons, ← List.append_assoc]
      rfl
    | subst body =>
      simp only [Part.simple, Bool.and_eq_true, beq_iff_eq] at simple
      simp only [Part.text, List.length_append, List.length_cons] at enough
      have step : templateLoop (k + 1) (Part.text (.subst body) ++
          (parts.flatMap Part.text ++ '`' :: rest)) buf =
          templateLoop k (parts.flatMap Part.text ++ '`' :: rest) buf := by
        rw [Part.text, List.append_assoc, List.append_assoc, List.cons_append,
          List.singleton_append, templateLoop_subst, skipBraces_body simple.1,
          skipBraces_closing]
      rw [step, ih simple.2 (by simp only [List.length_append, List.length_cons]; omega) (by omega),
        List.flatMap_cons]
      rfl

theorem digit_code {d : Nat} (digit : d < 10) : Char.ofNat (48 + d) = Nat.digitChar d := by
  have all : ∀ d < 10, Char.ofNat (48 + d) = Nat.digitChar d := by decide
  exact all d digit

theorem toDigits_last (n : Nat) :
    Nat.toDigits 10 n =
      (if n / 10 = 0 then [] else Nat.toDigits 10 (n / 10)) ++ [Nat.digitChar (n % 10)] := by
  by_cases single : n < 10
  · rw [Nat.toDigits_of_lt_base single, if_pos (Nat.div_eq_of_lt single),
      Nat.mod_eq_of_lt single, List.nil_append]
  · rw [Nat.toDigits_of_base_le (by decide) (by omega), if_neg (by omega)]

/-- The loop takes the decimal digits from the last one on. -/
theorem digits_toDigits {k : Nat} {v : Int64} {n : Nat} (value : v.toInt = n) (small : n < 10 ^ k) :
    digits k v = if n = 0 then [] else (Nat.toDigits 10 n).reverse := by
  induction k generalizing v n with
  | zero =>
    have zero : n = 0 := by simpa using small
    rw [if_pos zero]
    rfl
  | succ k ih =>
    rw [digits]
    by_cases zero : n = 0
    · have none : v = 0 := by
        rw [← Int64.toInt_inj, value, zero]
        rfl
      rw [if_pos none, if_pos zero]
    · have some : v ≠ 0 := by
        rintro rfl
        exact zero (by simpa using value.symm)
      have ten : (10 : Int64).toInt = 10 := rfl
      have quotient : (v / 10).toInt = ((n / 10 : Nat) : Int) := by
        rw [Int64.toInt_div_of_ne_right _ _ (by decide), value, ten]
        rfl
      have remainder : (v % 10).toInt = ((n % 10 : Nat) : Int) := by
        rw [Int64.toInt_mod, value, ten]
        rfl
      have code : (48 + v % 10).toInt.toNat = 48 + n % 10 := by
        have zeroChar : (48 : Int64).toInt = 48 := rfl
        rw [Int64.toInt_add, remainder, zeroChar, Int.bmod_eq_of_le (by omega) (by omega)]
        omega
      rw [if_neg some, if_neg zero, ih quotient (by omega), code,
        digit_code (Nat.mod_lt n (by decide)), toDigits_last n]
      split_ifs
      · rfl
      · rw [List.reverse_append]
        rfl

theorem numText_decimal {v : Int64} (printable : v ≠ Int64.minValue) :
    numText v = decimal v.toInt := by
  have least : -2 ^ 63 ≤ v.toInt := Int64.minValue_le_toInt v
  have most := Int64.toInt_lt v
  have sign : v < 0 ↔ v.toInt < 0 := Int64.lt_iff_toInt_lt
  have size : (if v < 0 then -v else v).toInt = (v.toInt.natAbs : Int) := by
    split_ifs with negative
    · have above : v.toInt ≠ -2 ^ 63 := fun equal => printable (Int64.toInt_inj.mp equal)
      have := sign.mp negative
      rw [Int64.toInt_neg, Int.bmod_eq_of_le (by omega) (by omega)]
      omega
    · have := mt sign.mpr negative
      omega
  have none : (if v < 0 then -v else v) = 0 ↔ v.toInt.natAbs = 0 := by
    rw [← Int64.toInt_inj, size]
    exact Int.natCast_eq_zero
  have written : (if (if v < 0 then -v else v) = 0 then ['0'] else []) ++
      digits 20 (if v < 0 then -v else v) = (Nat.toDigits 10 v.toInt.natAbs).reverse := by
    rw [digits_toDigits size (by omega)]
    by_cases zero : v.toInt.natAbs = 0
    · rw [if_pos (none.mpr zero), if_pos zero, zero]
      rfl
    · rw [if_neg (mt none.mp zero), if_neg zero, List.nil_append]
  change ((_ ++ digits 20 _) ++ _).reverse = decimal v.toInt
  rw [written, List.reverse_append, List.reverse_reverse, decimal]
  simp only [sign]
  split_ifs <;> rfl

section Conversions

variable {H : Type}

variable {x : Str} {s : Store Code H}

theorem jsIntern_loud (x : Str) (s : Store Code H) :
    ((jsIntern x s).2.err.isSome ∨ (jsIntern x s).1 = x ∧ (jsIntern x s).2.objs = s.objs) ∧
      (s.err.isSome → (jsIntern x s).2.err.isSome) := by
  by_cases known : x ∈ s.interned
  · rw [jsIntern_known known]
    exact ⟨.inr ⟨rfl, rfl⟩, id⟩
  by_cases full : s.strN + x.length + 1 ≥ jsStrCap
  · have failed : (jsIntern x s).2.err.isSome := by
      rw [jsIntern_full known full]
      change (if s.err.isSome then s else _).err.isSome
      split_ifs with already
      · exact already
      · rfl
    exact ⟨.inl failed, fun _ => failed⟩
  · rw [jsIntern_new known full]
    exact ⟨.inr ⟨rfl, rfl⟩, id⟩

theorem jsTostr_loud {v : Jsv} (printable : Printable v) (s : Store Code H) :
    ((jsTostr v s).2.err.isSome ∨ (jsTostr v s).1 = textOf s.objs v ∧
      (jsTostr v s).2.objs = s.objs) ∧ (s.err.isSome → (jsTostr v s).2.err.isSome) := by
  obtain ⟨t, n, x, o⟩ := v
  cases t with
  | str => exact ⟨.inr ⟨rfl, rfl⟩, id⟩
  | num =>
    have written : textOf s.objs ⟨.num, n, x, o⟩ = numText n :=
      (numText_decimal (printable rfl)).symm
    rw [written]
    exact jsIntern_loud (numText n) s
  | bool =>
    have written : textOf s.objs ⟨.bool, n, x, o⟩ =
        if n != 0 then "true".toList else "false".toList := by
      simp [textOf]
    rw [written]
    exact jsIntern_loud _ s
  | undef => exact jsIntern_loud _ s
  | null => exact jsIntern_loud _ s
  | fn => exact jsIntern_loud _ s
  | nat => exact jsIntern_loud _ s
  | obj => exact jsIntern_loud _ s

end Conversions

section Loudness

variable {H : Type}

theorem jsStrConcat_eq (x y : Str) (s : Store Code H) :
    jsStrConcat x y s =
      if s.strN + x.length + y.length + 1 ≥ jsStrCap then (x, s)
      else (x ++ y, { s with strN := s.strN + x.length + y.length + 1 }) := by
  by_cases full : s.strN + x.length + y.length + 1 ≥ jsStrCap <;>
    simp [jsStrConcat, full, bind, StateT.bind, get, getThe, MonadStateOf.get, StateT.get, pure,
      StateT.pure, set, MonadStateOf.set, StateT.set]

variable {x : Str} {s : Store Code H}

theorem jsStrConcat_room {y : Str} (room : s.strN + x.length + y.length + 1 < jsStrCap ∨ y = []) :
    (jsStrConcat x y s).1 = x ++ y := by
  rw [jsStrConcat_eq]
  split_ifs with full
  · obtain rfl := room.resolve_left (by omega)
    exact (List.append_nil x).symm
  · rfl

theorem jsStrConcat_err (x y : Str) (s : Store Code H) :
    (jsStrConcat x y s).2.err = s.err := by
  rw [jsStrConcat_eq]
  split_ifs <;> rfl

theorem plus_text {a b : Jsv} (text : a.t = .str ∨ b.t = .str) (s : Store Code H) :
    Js.plus a b s =
      (ofStr (jsStrConcat (jsTostr a s).1 (jsTostr b (jsTostr a s).2).1 (converted a b s)).1,
        (jsStrConcat (jsTostr a s).1 (jsTostr b (jsTostr a s).2).1 (converted a b s)).2) := by
  rw [Js.plus, if_pos text]
  rfl

theorem plus_loud {a b : Jsv} (plain : Plain s (.plus a b)) :
    Loud (.plus a b) s := by
  obtain ⟨text, printsA, printsB, room⟩ := plain
  have done : (Producer.plus a b).perform s = ((Js.plus a b s).1.s, (Js.plus a b s).2) := rfl
  rw [Loud, done, plus_text text]
  rw [jsStrConcat_err]
  obtain ⟨left, -⟩ := jsTostr_loud printsA s
  obtain ⟨right, kept⟩ := jsTostr_loud printsB (jsTostr a s).2
  obtain failed | ⟨x, objs⟩ := left
  · exact .inl (kept failed)
  obtain failed | ⟨y, -⟩ := right
  · exact .inl failed
  rw [objs] at y
  rw [x, y]
  exact .inr (jsStrConcat_room room)

theorem jsNext_literal {q : Char} (quote : q = '\'' ∨ q = '"') (rest : Str) (s : Store Code H) :
    (do return (← jsNext (q :: rest)).1.str : StateM (Store Code H) Str) s =
      (cstr (jsIntern (stringLoop q rest []).1 s).1, (jsIntern (stringLoop q rest []).1 s).2) := by
  obtain rfl | rfl := quote <;> rfl

theorem jsNext_template (rest : Str) (s : Store Code H) :
    (do return (← jsNext ('`' :: rest)).1.str : StateM (Store Code H) Str) s =
      (cstr (jsIntern (templateLoop rest.length rest []).1 s).1,
        (jsIntern (templateLoop rest.length rest []).1 s).2) := rfl

theorem cstr_text (nonzero : '\x00' ∉ x) : cstr x = x := by
  refine List.takeWhile_eq_self_iff.mpr fun c mem => ?_
  rw [bne_iff_ne]
  rintro rfl
  exact nonzero mem

theorem cstr_intern_loud (nonzero : '\x00' ∉ x) (s : Store Code H) :
    (jsIntern x s).2.err.isSome ∨ cstr (jsIntern x s).1 = x := by
  refine (jsIntern_loud x s).1.imp_right fun stored => ?_
  rw [stored.1, cstr_text nonzero]

theorem literal_loud {q : Char} {pieces : List Piece} {rest : Str}
    (plain : Plain s (.literal q pieces rest)) : Loud (.literal q pieces rest) s := by
  obtain ⟨quote, simple, nonzero, room⟩ := plain
  have slash : q ≠ '\\' := by
    obtain rfl | rfl := quote <;> decide
  have scanned : stringLoop q (pieces.flatMap Piece.text ++ q :: rest) [] =
      (pieces.map Piece.value, q :: rest) := by
    rw [stringLoop_pieces slash rest simple (by simpa using room), List.nil_append]
  have source : literalText q pieces ++ rest = q :: (pieces.flatMap Piece.text ++ q :: rest) := by
    simp [literalText]
  rw [Loud, Producer.perform, source, jsNext_literal quote, scanned]
  refine cstr_intern_loud (fun mem => ?_) s
  obtain ⟨p, inside, zero⟩ := List.mem_map.mp mem
  exact nonzero p inside zero

theorem template_loud {parts : List Part} {rest : Str}
    (plain : Plain s (.template parts rest)) : Loud (.template parts rest) s := by
  obtain ⟨simple, nonzero, room⟩ := plain
  have scanned : templateLoop (parts.flatMap Part.text ++ '`' :: rest).length
      (parts.flatMap Part.text ++ '`' :: rest) [] = ([] ++ parts.flatMap Part.value, '`' :: rest) :=
    templateLoop_parts rest simple (Nat.le_refl _) (by simpa using room)
  rw [List.nil_append] at scanned
  have source : templateText parts ++ rest = '`' :: (parts.flatMap Part.text ++ '`' :: rest) := by
    simp [templateText]
  rw [Loud, Producer.perform, source, jsNext_template, scanned]
  exact cstr_intern_loud nonzero s

theorem jsNatLower_eq (x : Str) (s : Store Code H) :
    jsNatLower (ofStr x) s =
      if s.strN + x.length + 1 ≥ jsStrCap then (ofStr x, s)
      else (ofStr (x.map lowerChar), { s with strN := s.strN + x.length + 1 }) := by
  by_cases full : s.strN + x.length + 1 ≥ jsStrCap <;>
    simp [jsNatLower, ofStr, full, bind, StateT.bind, get, getThe, MonadStateOf.get, StateT.get,
      pure, StateT.pure, set, MonadStateOf.set, StateT.set]

theorem jsNatLower_room (room : s.strN + x.length + 1 < jsStrCap ∨ ∀ c ∈ x, lowerChar c = c) :
    (jsNatLower (ofStr x) s).1.s = x.map lowerChar := by
  rw [jsNatLower_eq]
  split_ifs with full
  · have same := room.resolve_left (by omega)
    exact ((List.map_congr_left same).trans (List.map_id x)).symm
  · rfl

/-- What produces a string gives the string of the language or sets the error flag, for the
texts that the buffers hold and where the region has room for the result. -/
theorem producers_loud (p : Producer) (s : Store Code H) (plain : Plain s p) : Loud p s := by
  cases p with
  | literal q pieces rest => exact literal_loud plain
  | template parts rest => exact template_loud plain
  | plus a b => exact plus_loud plain
  | toLowerCase x => exact .inr (jsNatLower_room plain)
  | toUpperCase x =>
    refine .inr ((jsNatLower_room (.inr fun c mem => (plain c mem).1)).trans ?_)
    refine List.map_congr_left fun c mem => ?_
    rw [(plain c mem).1, (plain c mem).2]

def fresh : Store Code Unit := ⟨0, [], none, [], [], [], [], [], ()⟩

theorem producers_loud_four :
    Loud (.literal '"' [.char 'a', .escape '"', .escape 'n'] [';']) fresh ∧
      Loud (.template [.char 'a', .subst ['1'], .char '\n'] []) fresh ∧
      Loud (.plus (ofStr ['a']) (ofNum (-10))) fresh ∧
      Loud (.toLowerCase ['A', '1', 'z']) fresh :=
  ⟨producers_loud (.literal '"' [.char 'a', .escape '"', .escape 'n'] [';']) fresh
      ⟨by decide, by decide, by decide, by decide⟩,
    producers_loud (.template [.char 'a', .subst ['1'], .char '\n'] []) fresh
      ⟨by decide, by decide, by decide⟩,
    producers_loud (.plus (ofStr ['a']) (ofNum (-10))) fresh
      ⟨by decide, by rintro ⟨⟩, by rintro -; decide, by decide⟩,
    producers_loud (.toLowerCase ['A', '1', 'z']) fresh (by left; decide)⟩

/-- A substitution is no part of the string: `a${1}b` is `ab`, and no error is set. -/
theorem substitution_left_out :
    ¬(((Producer.template [.char 'a', .subst ['1'], .char 'b'] []).perform fresh).2.err.isSome ∨
      ((Producer.template [.char 'a', .subst ['1'], .char 'b'] []).perform fresh).1 =
        [Part.char 'a', .subst ['1'], .char 'b'].flatMap (Part.evaluated id)) := by
  decide

end Loudness

end XinuRpi5.System.JsStrings
