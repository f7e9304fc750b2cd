/- source: system/html.c
   digest: Which pages keep their structure when a dictionary replaces the texts of elements. -/

import Mathlib
import XinuRpi5.System.CssSelectors

/-!
A scan works on what is left of the text. Every byte is put only while there is room, so that
a capacity cuts the output.
-/

namespace XinuRpi5.System.HtmlI18n

open XinuRpi5.System.HtmlText XinuRpi5.System.CssSelect

def isAlnum (c : UInt8) : Bool :=
  (0x61 ≤ c && c ≤ 0x7A) || (0x41 ≤ c && c ≤ 0x5A) || (0x30 ≤ c && c ≤ 0x39)

/-- The `alias` names of `tag_id`, with the numbers of their tags. -/
def aliases : List (Bytes × Nat) :=
  [("strong", 11), ("em", 12), ("kbd", 13), ("h5", 5), ("h6", 5), ("aside", 25), ("figure", 6),
    ("figcaption", 1), ("details", 6), ("summary", 1), ("fieldset", 6), ("legend", 1),
    ("address", 1), ("tfoot", 48), ("var", 13), ("samp", 13), ("u", 24), ("s", 24), ("sup", 44),
    ("sub", 44)].map fun a => (ascii a.1, a.2)

def tagId (n : Bytes) : Nat :=
  match tagNames.tail.findIdx? (eqi · n) with
  | some i => i + 1
  | none => ((aliases.find? fun a => eqi a.1 n).map Prod.snd).getD 0

/-- `br`, `hr`, `img`, `input`, `link` and `meta`. -/
def isVoid (t : Nat) : Bool := t ∈ [15, 16, 22, 23, 49, 50]

/-- The loops over `p` and `e`: how many bytes stand in front of the next `>` outside of
quotes, of which `q` is open. -/
def tagEnd : Option UInt8 → Bytes → Nat
  | _, [] => 0
  | some q, c :: t => tagEnd (if c = q then none else some q) t + 1
  | none, c :: t =>
    if c = 0x3E then 0 else tagEnd (if c = 0x22 ∨ c = 0x27 then some c else none) t + 1

/-- `-->`. -/
def arrow : Bytes := [0x2D, 0x2D, 0x3E]

/-- How many bytes stand in front of the next `-->`. -/
def commentEnd : Bytes → Nat
  | [] => 0
  | c :: t => if (c :: t).take 3 = arrow then 0 else commentEnd t + 1

/-- A turn of the loop over `j` behind a `<`: the bytes that it passes, and `depth`. -/
def turn (depth : Nat) (t : Bytes) : Nat × Nat :=
  if t.head? = some 0x2F then ((t.takeWhile (· ≠ 0x3E)).length + 1, depth - 1)
  else if t.take 3 = [0x21, 0x2D, 0x2D] then (commentEnd (t.drop 3) + 6, depth)
  else
    let name := t.takeWhile isAlnum
    let rest := t.dropWhile isAlnum
    let e := tagEnd none rest
    (name.length + e + 1,
      if isVoid (tagId name) ∨ (rest.take e).getLast? = some 0x2F then depth else depth + 1)

def innerEnd (depth : Nat) : Bytes → Option Nat
  | [] => none
  | c :: t =>
    if c ≠ 0x3C then (innerEnd depth t).map (· + 1)
    else if t.head? = some 0x2F ∧ depth = 0 then some 0
    else (innerEnd (turn depth t).2 (t.drop (turn depth t).1)).map (· + ((turn depth t).1 + 1))
termination_by h => h.length

/-- `data-i18n="`. -/
def mark : Bytes := [0x64, 0x61, 0x74, 0x61, 0x2D, 0x69, 0x31, 0x38, 0x6E, 0x3D, 0x22]

def findKey : Bytes → Option Bytes
  | [] => none
  | c :: t =>
    if mark.length < (c :: t).length ∧ eqi mark ((c :: t).take mark.length) then
      some (((((c :: t).drop mark.length).takeWhile (· ≠ 0x22)).take 63).takeWhile (· ≠ 0))
    else findKey t

/-- The key for which a tag is looked up, from its `<` on. -/
def keyOf (tag : Bytes) : Option Bytes :=
  if tag.getLast? = some 0x2F then none else findKey tag

def enStart : Bytes → Option Bytes
  | [] => none
  | c :: t =>
    if 6 < (c :: t).length ∧ (c :: t).take 5 = [0x65, 0x6E, 0x3A, 0x20, 0x7B] then some (c :: t)
    else enStart t

def behindKey (key : Bytes) : Bytes → Option Bytes
  | [] => none
  | c :: t =>
    if key.length + 3 < (c :: t).length ∧
        (c :: t).take (key.length + 2) = 0x27 :: key ++ [0x27] then
      some ((c :: t).drop (key.length + 2))
    else behindKey key t

/-- A string up to its quote, and what is behind it; `escaped` is set behind a backslash. -/
def piece (escaped : Bool) : Bytes → Bytes × Bytes
  | [] => ([], [])
  | c :: t =>
    if escaped = false ∧ c = 0x27 then ([], t)
    else if escaped = false ∧ c = 0x5C ∧ t ≠ [] then piece true t
    else (c :: (piece false t).1, (piece false t).2)

/-- The loop over the strings that are joined; `guard` bounds their number. -/
def pieces : Nat → Bytes → Bytes
  | 0, _ => []
  | _ + 1, [] => []
  | guard + 1, c :: t =>
    if c = 0x27 then
      (piece false t).1 ++ pieces guard ((piece false t).2.dropWhile (· ∈ [0x20, 0x2B, 0x0A, 0x0D]))
    else []

def dictLookup (dict key : Bytes) : Option Bytes := do
  let en ← enStart dict
  let rest ← behindKey key en
  some ((pieces 40 (rest.dropWhile (· ∈ [0x20, 0x3A, 0x0A, 0x0D]))).take 4095)

/-- The loop of `html_i18n_apply`. -/
def applied (dict : Bytes) : Bytes → Bytes
  | [] => []
  | c :: t =>
    if c ≠ 0x3C then c :: applied dict t
    else
      let te := tagEnd none t
      if te = t.length then c :: t
      else
        (c :: t).take (te + 2) ++
          match keyOf (c :: t.take te) with
          | none => applied dict (t.drop (te + 1))
          | some key =>
            match innerEnd 0 (t.drop (te + 1)), dictLookup dict key with
            | some k, some val => val ++ applied dict ((t.drop (te + 1)).drop k)
            | _, _ => applied dict (t.drop (te + 1))
termination_by h => h.length

def htmlI18nApply (dict h : Bytes) (cap : Nat) : Bytes := (applied dict h).take (cap - 1)

section Requirement

/-- No quote and no `>`. -/
def plain (c : UInt8) : Bool := c ∉ [0x22, 0x27, 0x3E]

inductive Value where
  | absent
  | bare (v : Bytes)
  | quoted (q : UInt8) (v : Bytes)

/-- An attribute, with the blanks in front of it and the sign of equality in front of its
value. -/
structure Attr where
  blank : Bytes
  name : Bytes
  equals : Bytes
  value : Value
  apart : blank ≠ [] ∧ blank.all isWs
  unquoted : (blank ++ name ++ equals).all plain
  closed : match value with
    | .absent => True
    | .bare v => v.all plain
    | .quoted q v => (q = 0x22 ∨ q = 0x27) ∧ q ∉ v

def Attr.text (a : Attr) : Bytes :=
  a.blank ++ a.name ++
    match a.value with
    | .absent => []
    | .bare v => a.equals ++ v
    | .quoted q v => a.equals ++ (q :: v ++ [q])

/-- What stands between `<` and `>`. -/
structure Tag where
  name : Bytes
  attrs : List Attr
  last : Bytes
  unquoted : (name ++ last).all plain
  word : name.all fun c => !isWs c && c != 0x2F
  begins : ∃ c rest, name = c :: rest ∧ (isAlnum c ∨ c = 0x21 ∧ rest.head?.any isAlnum)

def Tag.text (t : Tag) : Bytes := t.name ++ t.attrs.flatMap Attr.text ++ t.last

/-- The value of `data-i18n`. -/
def Tag.key (t : Tag) : Option Bytes :=
  (t.attrs.find? fun a => eqi (ascii "data-i18n") a.name).bind fun a =>
    match a.value with
    | .absent => none
    | .bare v => some v
    | .quoted _ v => some v

def voids : List Bytes :=
  ["area", "base", "br", "col", "embed", "hr", "img", "input", "link", "meta", "param", "source",
    "track", "wbr", "!doctype"].map ascii

/-- The tag is one of a void or a self-closing element, or the one in front of a document. -/
def Tag.isEmpty (t : Tag) : Bool := voids.any (eqi · t.name) || t.last.getLast? == some 0x2F

inductive Page where
  | nil
  | byte (c : UInt8) (text : c ≠ 0x3C) (next : Page)
  | comment (body : Bytes)
      (closed : ∀ k < body.length, ((body ++ arrow).drop k).take 3 ≠ arrow)
      (next : Page)
  | empty (tag : Tag) (kind : tag.isEmpty = true) (next : Page)
  | elem (tag : Tag) (kind : tag.isEmpty = false) (inner : Page) (close : Bytes)
      (ends : close.all plain ∧ eqi (close.takeWhile fun c => !isWs c) tag.name) (next : Page)

def commentText (body : Bytes) : Bytes := 0x3C :: 0x21 :: 0x2D :: 0x2D :: (body ++ arrow)

def Page.text : Page → Bytes
  | nil => []
  | byte c _ next => c :: next.text
  | comment body _ next => commentText body ++ next.text
  | empty tag _ next => 0x3C :: tag.text ++ 0x3E :: next.text
  | elem tag _ inner close _ next =>
    0x3C :: tag.text ++ 0x3E :: (inner.text ++ 0x3C :: 0x2F :: close ++ 0x3E :: next.text)

/-- The page with the inner ranges of the outermost elements replaced whose tag has a value. -/
def Page.replaced (value : Tag → Option Bytes) : Page → Bytes
  | nil => []
  | byte c _ next => c :: next.replaced value
  | comment body _ next => commentText body ++ next.replaced value
  | empty tag _ next => 0x3C :: tag.text ++ 0x3E :: next.replaced value
  | elem tag _ inner close _ next =>
    0x3C :: tag.text ++ 0x3E :: (((value tag).getD (inner.replaced value)) ++
      0x3C :: 0x2F :: close ++ 0x3E :: next.replaced value)

def Page.tags : Page → List Tag
  | nil => []
  | byte _ _ next => next.tags
  | comment _ _ next => next.tags
  | empty _ _ next => next.tags
  | elem tag _ inner _ _ next => tag :: (inner.tags ++ next.tags)

/-- A byte of a string, with a backslash in front of it or without. -/
structure Char where
  escaped : Bool
  byte : UInt8
  needed : byte = 0x27 ∨ byte = 0x5C → escaped = true

def Char.value (c : Char) : UInt8 :=
  if c.escaped ∧ c.byte = 0x6E then 0x0A else if c.escaped ∧ c.byte = 0x74 then 0x09 else c.byte

def quoted (s : List Char) : Bytes :=
  0x27 :: s.flatMap (fun c => if c.escaped then [0x5C, c.byte] else [c.byte]) ++ [0x27]

/-- A key and the strings whose concatenation is its value, each with what stands in front of
it. -/
structure Entry where
  blank : Bytes
  key : List Char
  strings : List (Bytes × List Char)
  layout : (blank ++ strings.flatMap Prod.fst).all (· ∈ [0x20, 0x0A, 0x0D, 0x2C, 0x3A, 0x2B])

def Entry.text (e : Entry) : Bytes :=
  e.blank ++ quoted e.key ++ e.strings.flatMap fun s => s.1 ++ quoted s.2

/-- A dictionary with its section `en`. -/
structure Dictionary where
  before : Bytes
  en : List Entry
  behind : Bytes

def Dictionary.text (d : Dictionary) : Bytes :=
  d.before ++ [0x65, 0x6E, 0x3A, 0x20, 0x7B] ++ d.en.flatMap Entry.text ++ 0x7D :: d.behind

def Dictionary.value (d : Dictionary) (key : Bytes) : Option Bytes :=
  (d.en.reverse.find? fun e => e.key.map Char.value == key).map fun e =>
    e.strings.flatMap fun s => s.2.map Char.value

variable (d : Dictionary)

def Tag.due (t : Tag) : Option Bytes := t.key.bind d.value

def found (tag : Bytes) : Option Bytes := (keyOf tag).bind (dictLookup d.text)

/-- Read as tags the text is closed at its end, and no value is found for one. -/
def copied (h : Bytes) : Bool :=
  match h with
  | [] => true
  | c :: t =>
    if c ≠ 0x3C then copied t
    else
      tagEnd none t ≠ t.length ∧ found d (c :: t.take (tagEnd none t)) = none ∧
        copied (t.drop (tagEnd none t + 1))
termination_by h.length

/-- The scan for the end of an element takes the tag for one that needs an end tag. -/
def Tag.opens (t : Tag) : Bool :=
  !(isVoid (tagId (t.text.takeWhile isAlnum)) ||
    (t.text.dropWhile isAlnum).getLast? == some 0x2F)

def Page.Passed : Page → Prop
  | nil => True
  | byte _ _ next => next.Passed
  | comment _ _ next => next.Passed
  | empty tag _ next => tag.opens = false ∧ next.Passed
  | elem tag _ inner _ _ next => tag.opens = true ∧ inner.Passed ∧ next.Passed

/-- Comments are read as tags without harm, nothing is found for an empty element and for
each other one what is due; and the scan passes over what is to be replaced. -/
def Page.Meets : Page → Prop
  | nil => True
  | byte _ _ next => next.Meets
  | comment body _ next => copied d (commentText body) = true ∧ next.Meets
  | empty tag _ next => found d (0x3C :: tag.text) = none ∧ next.Meets
  | elem tag _ inner _ _ next =>
    found d (0x3C :: tag.text) = tag.due d ∧
      (if (tag.due d).isSome then inner.Passed else inner.Meets) ∧ next.Meets

end Requirement

/-- Behind the text no quote is open, and no `>` in it ends a tag. -/
def Closed (a : Bytes) : Prop := ∀ s, tagEnd none (a ++ s) = a.length + tagEnd none s

theorem Closed.nil : Closed [] := fun _ => (Nat.zero_add _).symm

theorem Closed.append {a b : Bytes} (first : Closed a) (second : Closed b) : Closed (a ++ b) := by
  intro s
  rw [List.append_assoc, first, second, List.length_append, Nat.add_assoc]

theorem Closed.plain {a : Bytes} (unquoted : a.all plain = true) : Closed a := by
  induction a with
  | nil => exact Closed.nil
  | cons c a ih =>
    intro s
    rw [List.all_cons, Bool.and_eq_true] at unquoted
    have other : c ≠ 0x22 ∧ c ≠ 0x27 ∧ c ≠ 0x3E := by simpa [HtmlI18n.plain] using unquoted.1
    rw [List.cons_append, tagEnd, if_neg other.2.2, if_neg (not_or.mpr ⟨other.1, other.2.1⟩),
      ih unquoted.2, List.length_cons]
    omega

theorem Closed.quoted {q : UInt8} {v : Bytes} (quote : q = 0x22 ∨ q = 0x27) (closed : q ∉ v) :
    Closed (q :: v ++ [q]) := by
  intro s
  have inner : ∀ v : Bytes, q ∉ v →
      tagEnd (some q) (v ++ [q] ++ s) = v.length + 1 + tagEnd none s := by
    intro v
    induction v with
    | nil =>
      intro _
      rw [List.nil_append, List.singleton_append, tagEnd, if_pos rfl, List.length_nil]
      omega
    | cons c v ih =>
      intro closed
      obtain ⟨other, closed⟩ := not_or.mp (mt List.mem_cons.mpr closed)
      rw [List.cons_append, List.cons_append, tagEnd, if_neg fun same => other same.symm,
        ih closed, List.length_cons]
      omega
  have starts : q ≠ 0x3E := by rcases quote with rfl | rfl <;> decide
  rw [List.cons_append, List.cons_append, tagEnd, if_neg starts, if_pos quote, inner v closed,
    List.length_cons, List.length_append, List.length_singleton]
  omega

theorem Attr.text_closed (a : Attr) : Closed a.text := by
  obtain ⟨blank, name, equals, value, -, unquoted, closed⟩ := a
  rw [List.all_append, Bool.and_eq_true] at unquoted
  have front := Closed.plain unquoted.1
  have sign := Closed.plain unquoted.2
  cases value with
  | absent => exact front.append .nil
  | bare v => exact front.append (sign.append (.plain closed))
  | quoted q v => exact front.append (sign.append (.quoted closed.1 closed.2))

theorem Tag.text_closed (t : Tag) : Closed t.text := by
  have unquoted := t.unquoted
  rw [List.all_append, Bool.and_eq_true] at unquoted
  have attrs : ∀ as : List Attr, Closed (as.flatMap Attr.text) := by
    intro as
    induction as with
    | nil => exact .nil
    | cons a as ih => exact a.text_closed.append ih
  exact ((Closed.plain unquoted.1).append (attrs t.attrs)).append (.plain unquoted.2)

theorem Closed.tagEnd {a : Bytes} (closed : Closed a) (s : Bytes) :
    tagEnd none (a ++ 0x3E :: s) = a.length := by
  rw [closed, HtmlI18n.tagEnd, if_pos rfl, Nat.add_zero]

theorem commentEnd_body {body : Bytes} (s : Bytes)
    (closed : ∀ k < body.length, ((body ++ arrow).drop k).take 3 ≠ arrow) :
    commentEnd (body ++ arrow ++ s) = body.length := by
  induction body with
  | nil => rfl
  | cons c body ih =>
    have later := ih fun k less => closed (k + 1) (Nat.succ_lt_succ less)
    have front : (c :: (body ++ arrow ++ s)).take 3 = (c :: body ++ arrow).take 3 := by
      have long : 3 ≤ (c :: body ++ arrow).length := by simp [arrow]
      exact List.take_append_of_le_length long
    have first := closed 0 (Nat.succ_pos _)
    rw [List.drop_zero, ← front] at first
    rw [List.cons_append, List.cons_append, commentEnd, if_neg first, later, List.length_cons]

theorem alnum_plain {c : UInt8} (alnum : isAlnum c = true) :
    plain c = true ∧ c ≠ 0x2F ∧ c ≠ 0x2D ∧ c ≠ 0x21 := by
  revert c
  apply forall_byte
  decide +kernel

/-- A tag is neither an end tag nor a comment. -/
theorem Tag.begins_text (t : Tag) (s : Bytes) :
    (t.text ++ s).head? ≠ some 0x2F ∧ (t.text ++ s).take 3 ≠ [0x21, 0x2D, 0x2D] := by
  obtain ⟨c, rest, name, begins⟩ := t.begins
  rw [Tag.text, name, List.append_assoc, List.append_assoc, List.cons_append]
  generalize t.attrs.flatMap Attr.text ++ (t.last ++ s) = behind
  rcases begins with alnum | ⟨rfl, alnum⟩
  · obtain ⟨-, slash, -, bang⟩ := alnum_plain alnum
    exact ⟨fun eq => slash (Option.some.inj eq), fun eq => bang (List.cons.inj eq).1⟩
  · refine ⟨by simp, fun eq => ?_⟩
    cases rest with
    | nil => simp at alnum
    | cons d rest =>
      obtain ⟨-, -, dash, -⟩ := alnum_plain alnum
      exact dash (List.cons.inj (List.cons.inj eq).2).1

theorem innerEnd_pass {depth depth' k : Nat} {t : Bytes}
    (more : ¬ (t.head? = some 0x2F ∧ depth = 0)) (passes : turn depth t = (k, depth')) :
    innerEnd depth (0x3C :: t) = (innerEnd depth' (t.drop k)).map (· + (k + 1)) := by
  rw [innerEnd, if_neg (not_not.mpr rfl), if_neg more, passes]

theorem Tag.turn_text (t : Tag) (depth : Nat) (s : Bytes) :
    turn depth (t.text ++ 0x3E :: s) =
      (t.text.length + 1, if t.opens then depth + 1 else depth) := by
  obtain ⟨slash, comment⟩ := t.begins_text (0x3E :: s)
  have stop : isAlnum 0x3E = false := by decide
  have split : t.text.takeWhile isAlnum ++ t.text.dropWhile isAlnum = t.text :=
    List.takeWhile_append_dropWhile
  have name : (t.text ++ 0x3E :: s).takeWhile isAlnum = t.text.takeWhile isAlnum := by
    rw [List.takeWhile_append, List.takeWhile_cons_of_neg (by simp [stop])]
    split_ifs with all
    · rw [List.append_nil, (List.takeWhile_prefix isAlnum).eq_of_length all]
    · rfl
  have rest : (t.text ++ 0x3E :: s).dropWhile isAlnum = t.text.dropWhile isAlnum ++ 0x3E :: s := by
    have whole := @List.takeWhile_append_dropWhile _ isAlnum (t.text ++ 0x3E :: s)
    rw [name] at whole
    refine List.append_cancel_left (whole.trans ?_)
    rw [← List.append_assoc, split]
  have count := congrArg List.length split
  have ends := t.text_closed.tagEnd s
  have letters : (t.text.takeWhile isAlnum).all plain = true :=
    List.all_eq_true.mpr fun c listed => (alnum_plain (List.mem_takeWhile_imp listed)).1
  rw [← split, List.append_assoc, Closed.plain letters, List.length_append] at ends
  rw [List.length_append] at count
  have ends := Nat.add_left_cancel ends
  rw [turn, if_neg slash, if_neg comment]
  simp only [name, rest, ends, List.take_left, count]
  have opens : t.opens = true ↔ ¬ (isVoid (tagId (t.text.takeWhile isAlnum)) = true ∨
      (t.text.dropWhile isAlnum).getLast? = some 0x2F) := by simp [Tag.opens]
  by_cases self : isVoid (tagId (t.text.takeWhile isAlnum)) = true ∨
      (t.text.dropWhile isAlnum).getLast? = some 0x2F
  · rw [if_pos self, if_neg fun opened => opens.mp opened self]
  · rw [if_neg self, if_pos (opens.mpr self)]

theorem innerEnd_tag (t : Tag) (s : Bytes) (depth : Nat) :
    innerEnd depth (0x3C :: (t.text ++ 0x3E :: s)) =
      (innerEnd (if t.opens then depth + 1 else depth) s).map (· + (t.text.length + 2)) := by
  have begins := (t.begins_text (0x3E :: s)).1
  rw [innerEnd_pass (fun more => begins more.1) (t.turn_text depth s), List.drop_length_add_append]
  rfl

theorem innerEnd_comment {body : Bytes} (s : Bytes) (depth : Nat)
    (closed : ∀ k < body.length, ((body ++ arrow).drop k).take 3 ≠ arrow) :
    innerEnd depth (commentText body ++ s) =
      (innerEnd depth s).map (· + (commentText body).length) := by
  have passes : turn depth (0x21 :: 0x2D :: 0x2D :: (body ++ arrow ++ s)) =
      (body.length + 6, depth) := by
    rw [turn, if_neg (by simp), if_pos (by simp)]
    simp only [List.drop_succ_cons, List.drop_zero, commentEnd_body s closed]
  rw [commentText]
  simp only [List.cons_append]
  rw [innerEnd_pass (by simp) passes]
  simp [arrow]

theorem innerEnd_close {close : Bytes} (s : Bytes) (depth : Nat)
    (unquoted : close.all plain = true) :
    innerEnd (depth + 1) (0x3C :: 0x2F :: (close ++ 0x3E :: s)) =
      (innerEnd depth s).map (· + (close.length + 3)) := by
  have whole : (0x2F :: (close ++ 0x3E :: s)).takeWhile (· ≠ 0x3E) = 0x2F :: close := by
    have inside : ∀ c ∈ 0x2F :: close, decide (c ≠ 0x3E) = true := by
      refine List.forall_mem_cons.mpr ⟨rfl, fun c listed => decide_eq_true ?_⟩
      rintro rfl
      exact absurd (List.all_eq_true.mp unquoted _ listed) (by decide)
    rw [← List.cons_append, List.takeWhile_append_of_pos inside,
      List.takeWhile_cons_of_neg (by decide), List.append_nil]
  have passes : turn (depth + 1) (0x2F :: (close ++ 0x3E :: s)) = (close.length + 2, depth) := by
    rw [turn, if_pos (by simp), whole]
    rfl
  rw [innerEnd_pass (by simp) passes]
  simp

theorem innerEnd_page (p : Page) (passed : p.Passed) (depth : Nat) (s : Bytes) :
    innerEnd depth (p.text ++ s) = (innerEnd depth s).map (· + p.text.length) := by
  induction p generalizing depth s with
  | nil => simp [Page.text]
  | byte c text next ih =>
    rw [Page.text, List.cons_append, innerEnd, if_pos text, ih passed, Option.map_map]
    rfl
  | comment body closed next ih =>
    rw [Page.text, List.append_assoc, innerEnd_comment _ _ closed, ih passed, Option.map_map,
      List.length_append]
    exact Option.map_congr fun k _ => by simp only [Function.comp]; omega
  | empty tag kind next ih =>
    obtain ⟨opens, passed⟩ := passed
    simp only [Page.text, List.append_assoc, List.cons_append]
    rw [innerEnd_tag, opens, if_neg Bool.false_ne_true, ih passed, Option.map_map]
    simp only [List.length_cons, List.length_append]
    exact Option.map_congr fun k _ => by simp only [Function.comp]; omega
  | elem tag kind inner close ends next ihInner ih =>
    obtain ⟨opens, within, passed⟩ := passed
    simp only [Page.text, List.append_assoc, List.cons_append]
    rw [innerEnd_tag, opens, if_pos rfl, ihInner within, innerEnd_close _ _ ends.1, ih passed,
      Option.map_map, Option.map_map, Option.map_map]
    simp only [List.length_cons, List.length_append]
    exact Option.map_congr fun k _ => by simp only [Function.comp]; omega

section Pass

variable {d : Dictionary}

theorem findKey_unquoted {tag : Bytes} (unquoted : 0x22 ∉ tag) : findKey tag = none := by
  induction tag with
  | nil => rfl
  | cons c tag ih =>
    rw [findKey, if_neg, ih fun listed => unquoted (List.mem_cons_of_mem c listed)]
    rintro ⟨-, same⟩
    have quote : lower 0x22 ∈ ((c :: tag).take mark.length).map lower := by
      rw [← eq_of_beq same]
      decide
    obtain ⟨b, listed, equal⟩ := List.mem_map.mp quote
    have byte : ∀ b, lower b = lower 0x22 → b = 0x22 := forall_byte (by decide +kernel)
    exact unquoted (byte b equal ▸ List.mem_of_mem_take listed)

theorem applied_none {t : Bytes} (inside : tagEnd none t < t.length)
    (nothing : found d (0x3C :: t.take (tagEnd none t)) = none) :
    applied d.text (0x3C :: t) =
      (0x3C :: t).take (tagEnd none t + 2) ++ applied d.text (t.drop (tagEnd none t + 1)) := by
  rw [applied, if_neg (not_not.mpr rfl)]
  simp only [if_neg (Nat.ne_of_lt inside)]
  rw [found] at nothing
  cases key : keyOf (0x3C :: t.take (tagEnd none t)) with
  | none => rfl
  | some key' =>
    rw [key, Option.bind_some] at nothing
    simp only [nothing]
    cases innerEnd 0 (t.drop (tagEnd none t + 1)) <;> rfl

theorem applied_tag {tag : Bytes} (closed : Closed tag) (nothing : found d (0x3C :: tag) = none)
    (s : Bytes) : applied d.text (0x3C :: (tag ++ 0x3E :: s)) =
      0x3C :: (tag ++ 0x3E :: applied d.text s) := by
  have ends := closed.tagEnd s
  rw [applied_none, ends, List.drop_length_add_append, List.take_succ_cons,
    List.take_length_add_append]
  · simp
  · rw [ends, List.length_append]
    exact Nat.lt_add_of_pos_right (Nat.succ_pos _)
  · rw [ends, List.take_left]
    exact nothing

theorem applied_found {tag s val : Bytes} {k : Nat} (closed : Closed tag)
    (value : found d (0x3C :: tag) = some val) (inner : innerEnd 0 s = some k) :
    applied d.text (0x3C :: (tag ++ 0x3E :: s)) =
      0x3C :: (tag ++ 0x3E :: (val ++ applied d.text (s.drop k))) := by
  have inside : tag.length ≠ (tag ++ 0x3E :: s).length := by simp
  have behind : (tag ++ 0x3E :: s).drop (tag.length + 1) = s := by
    rw [List.drop_length_add_append]
    rfl
  obtain ⟨key, keyed, looked⟩ := Option.bind_eq_some_iff.mp value
  rw [applied, if_neg (not_not.mpr rfl)]
  simp only [closed.tagEnd s, if_neg inside, List.take_left, keyed, behind, inner, looked,
    List.take_succ_cons, List.take_length_add_append]
  simp

theorem tagEnd_append {q : Option UInt8} {t : Bytes} (s : Bytes) (ends : tagEnd q t ≠ t.length) :
    tagEnd q (t ++ s) = tagEnd q t ∧ tagEnd q t < t.length := by
  induction t generalizing q with
  | nil => exact absurd (by cases q <;> rfl) ends
  | cons c t ih =>
    cases q with
    | none =>
      rw [List.cons_append, tagEnd, tagEnd] at *
      by_cases stop : c = 0x3E
      · rw [if_pos stop, if_pos stop]
        exact ⟨rfl, Nat.succ_pos _⟩
      · rw [if_neg stop] at ends ⊢
        rw [if_neg stop]
        obtain ⟨same, less⟩ := ih fun eq => ends (congrArg (· + 1) eq)
        exact ⟨congrArg (· + 1) same, Nat.succ_lt_succ less⟩
    | some q =>
      rw [List.cons_append, tagEnd, tagEnd] at *
      obtain ⟨same, less⟩ := ih fun eq => ends (congrArg (· + 1) eq)
      exact ⟨congrArg (· + 1) same, Nat.succ_lt_succ less⟩

/-- What is read as tags without harm is copied, whatever stands behind it. -/
theorem applied_copied {h : Bytes} (clean : copied d h = true) (s : Bytes) :
    applied d.text (h ++ s) = h ++ applied d.text s := by
  fun_induction copied d h with
  | case1 => rfl
  | case2 c t text ih =>
    rw [List.cons_append, applied, if_pos text, ih clean, List.cons_append]
  | case3 c t text ih =>
    obtain ⟨ends, nothing, clean⟩ := of_decide_eq_true clean
    obtain ⟨same, less⟩ := tagEnd_append s ends
    have front : (t ++ s).take (tagEnd none t) = t.take (tagEnd none t) :=
      List.take_append_of_le_length less.le
    have behind : (t ++ s).drop (tagEnd none t + 1) = t.drop (tagEnd none t + 1) ++ s :=
      List.drop_append_of_le_length less
    rw [not_not.mp text, List.cons_append, applied_none, same, behind, ih clean,
      List.take_succ_cons, List.take_append_of_le_length less, List.cons_append,
      ← List.append_assoc, List.take_append_drop, List.cons_append]
    · rw [same, List.length_append]
      omega
    · rw [same, front, ← not_not.mp text]
      exact nothing

theorem applied_close {close : Bytes} (unquoted : close.all plain = true) (s : Bytes) :
    applied d.text (0x3C :: 0x2F :: (close ++ 0x3E :: s)) =
      0x3C :: 0x2F :: (close ++ 0x3E :: applied d.text s) := by
  have slash : (0x2F :: close).all plain = true := by
    rw [List.all_cons, unquoted]
    rfl
  refine @applied_tag d (0x2F :: close) (.plain slash) ?_ s
  have none' : findKey (0x3C :: 0x2F :: close) = none := by
    refine findKey_unquoted fun listed => ?_
    have plain' := List.all_eq_true.mp slash 0x22 (by simpa using listed)
    exact absurd plain' (by decide)
  rw [found, keyOf, none', ite_self]
  rfl

/-- The pass over a page that meets the conditions puts the values that are due. -/
theorem applied_page {p : Page} (meets : p.Meets d) (s : Bytes) :
    applied d.text (p.text ++ s) = p.replaced (Tag.due d) ++ applied d.text s := by
  induction p generalizing s with
  | nil => rfl
  | byte c text next ih =>
    rw [Page.text, List.cons_append, applied, if_pos text, ih meets]
    rfl
  | comment body closed next ih =>
    rw [Page.text, List.append_assoc, applied_copied meets.1, ih meets.2, Page.replaced,
      List.append_assoc]
  | empty tag kind next ih =>
    simp only [Page.text, Page.replaced, List.append_assoc, List.cons_append]
    rw [applied_tag tag.text_closed meets.1, ih meets.2]
  | elem tag kind inner close ends next ihInner ih =>
    obtain ⟨value, within, meets⟩ := meets
    simp only [Page.text, Page.replaced, List.append_assoc, List.cons_append]
    have behind : applied d.text (0x3C :: 0x2F :: (close ++ 0x3E :: (next.text ++ s))) =
        0x3C :: 0x2F :: (close ++ 0x3E :: (next.replaced (Tag.due d) ++ applied d.text s)) := by
      rw [← ih meets]
      exact applied_close ends.1 _
    cases due : tag.due d with
    | none =>
      rw [due] at value within
      rw [applied_tag tag.text_closed value, ihInner within, behind]
      rfl
    | some val =>
      rw [due] at value within
      have inner' := innerEnd_page inner within 0
        (0x3C :: 0x2F :: (close ++ 0x3E :: (next.text ++ s)))
      rw [innerEnd, if_neg (not_not.mpr rfl), if_pos ⟨rfl, rfl⟩, Option.map_some,
        Nat.zero_add] at inner'
      rw [applied_found tag.text_closed value inner', List.drop_left, behind]
      rfl

end Pass

section Lookup

variable {d : Dictionary} {begins : Bytes → Prop} {a r key : Bytes}

/-- At none of the first `n` places does the text begin so. -/
def Clear (begins : Bytes → Prop) (n : Nat) (s : Bytes) : Prop := ∀ k < n, ¬ begins (s.drop k)

theorem Clear.scan {β : Type} {scan : Bytes → β} (clear : Clear begins a.length (a ++ r))
    (skip : ∀ c t, ¬ begins (c :: t) → scan (c :: t) = scan t) : scan (a ++ r) = scan r := by
  induction a with
  | nil => rfl
  | cons c a ih =>
    have first : ¬ begins (c :: (a ++ r)) := clear 0 (Nat.succ_pos _)
    rw [List.cons_append, skip c _ first]
    exact ih fun k less => clear (k + 1) (Nat.succ_lt_succ less)

def Marked (s : Bytes) : Prop := eqi mark (s.take mark.length) = true

theorem findKey_mark {m v : Bytes} (is : eqi mark m = true) (closed : 0x22 ∉ v)
    (short : v.length ≤ 63) (text : 0 ∉ v) (r : Bytes) :
    findKey (m ++ (v ++ 0x22 :: r)) = some v := by
  have size : m.length = mark.length := (CssSelectors.eqi_length is).symm
  obtain ⟨c, m, rfl⟩ := List.exists_cons_of_length_pos (size ▸ (by decide : 0 < mark.length))
  have all {x : UInt8} (out : x ∉ v) : ∀ c ∈ v, decide (c ≠ x) = true := fun c listed =>
    decide_eq_true fun same => out (same ▸ listed)
  have more : (c :: m).length < (c :: m ++ (v ++ 0x22 :: r)).length := by simp; omega
  rw [List.cons_append, findKey, ← List.cons_append, ← size, List.take_left,
    List.drop_left, if_pos ⟨more, is⟩, List.takeWhile_append_of_pos (all closed),
    List.takeWhile_cons_of_neg (by decide), List.append_nil, List.take_of_length_le short,
    List.takeWhile_eq_self_iff.mpr (all text)]

/-- The first attribute with the name has its value in double quotes, and no mark stands in front
of it. -/
theorem Tag.keyOf_text {t : Tag} {before after : List Attr} {a : Attr} {v : Bytes}
    (attrs : t.attrs = before ++ a :: after)
    (others : ∀ b ∈ before, eqi (ascii "data-i18n") b.name ≠ true)
    (name : eqi (ascii "data-i18n") a.name = true) (equals : a.equals = [0x3D])
    (value : a.value = .quoted 0x22 v) (short : v.length ≤ 63) (text : 0 ∉ v)
    (clear : Clear Marked (0x3C :: t.name ++ before.flatMap Attr.text ++ a.blank).length
      (0x3C :: t.text))
    (ends : (0x3C :: t.text).getLast? ≠ some 0x2F) : keyOf (0x3C :: t.text) = t.key := by
  have closed := a.closed
  rw [value] at closed
  have found : t.attrs.find? (fun a => eqi (ascii "data-i18n") a.name) = some a := by
    rw [attrs, List.find?_append, List.find?_eq_none.mpr others, Option.none_or]
    exact List.find?_cons_of_pos name
  have is : eqi mark (a.name ++ [0x3D, 0x22]) = true := by
    rw [CssSelectors.eqi_iff] at name ⊢
    rw [List.map_append, ← name]
    rfl
  have spelled : 0x3C :: t.text = 0x3C :: t.name ++ before.flatMap Attr.text ++ a.blank ++
      (a.name ++ [0x3D, 0x22] ++ (v ++ 0x22 :: (after.flatMap Attr.text ++ t.last))) := by
    simp [Tag.text, attrs, Attr.text, value, equals]
  rw [keyOf, if_neg ends, Tag.key, found, Option.bind_some, value]
  rw [spelled] at clear ⊢
  have skip (c : UInt8) (t : Bytes) (other : ¬ Marked (c :: t)) :
      findKey (c :: t) = findKey t := if_neg fun ok => other ok.2
  exact (clear.scan skip).trans (findKey_mark is closed.2 short text _)

theorem piece_chars (s : List Char) (r : Bytes) :
    piece false (s.flatMap (fun c => if c.escaped then [0x5C, c.byte] else [c.byte]) ++ 0x27 :: r) =
      (s.map Char.byte, r) := by
  induction s with
  | nil => rw [List.flatMap_nil, List.nil_append, piece, if_pos ⟨rfl, rfl⟩, List.map_nil]
  | cons c s ih =>
    rw [List.flatMap_cons, List.append_assoc]
    cases escaped : c.escaped with
    | true =>
      simp only [if_true, List.cons_append, List.nil_append]
      rw [piece, if_neg (by simp), if_pos (by simp), piece, if_neg (by simp), if_neg (by simp), ih,
        List.map_cons]
    | false =>
      have plain : c.byte ≠ 0x27 ∧ c.byte ≠ 0x5C :=
        not_or.mp fun special => absurd (c.needed special) (by simp [escaped])
      simp only [Bool.false_eq_true, if_false, List.cons_append, List.nil_append]
      rw [piece, if_neg fun ends => plain.1 ends.2, if_neg fun escapes => plain.2 escapes.2.1, ih,
        List.map_cons]

theorem dropWhile_quoted {p : UInt8 → Bool} {blank : Bytes} (blanks : blank.all p = true)
    (quote : p 0x27 = false) (s : List Char) (r : Bytes) :
    (blank ++ quoted s ++ r).dropWhile p = quoted s ++ r := by
  rw [List.append_assoc, List.dropWhile_append_of_pos (List.all_eq_true.mp blanks), quoted,
    List.append_assoc, List.cons_append, List.dropWhile_cons_of_neg (by simp [quote])]

theorem pieces_quoted (guard : Nat) (s : List Char) (r : Bytes) :
    pieces (guard + 1) (quoted s ++ r) =
      s.map Char.byte ++ pieces guard (r.dropWhile (· ∈ [0x20, 0x2B, 0x0A, 0x0D])) := by
  rw [quoted, List.append_assoc, List.cons_append, pieces, if_pos rfl, List.singleton_append,
    piece_chars]

/-- The strings that are joined, up to something else than a string. -/
theorem pieces_joined {guard : Nat} {strings : List (Bytes × List Char)}
    (few : strings.length ≤ guard)
    (joined : ∀ s ∈ strings, s.1.all (· ∈ [0x20, 0x2B, 0x0A, 0x0D]) = true)
    (tail : (r.dropWhile (· ∈ [0x20, 0x2B, 0x0A, 0x0D])).head? ≠ some 0x27) :
    pieces guard ((strings.flatMap (fun s => s.1 ++ quoted s.2) ++ r).dropWhile
      (· ∈ [0x20, 0x2B, 0x0A, 0x0D])) = strings.flatMap fun s => s.2.map Char.byte := by
  induction strings generalizing guard with
  | nil =>
    rw [List.flatMap_nil, List.nil_append]
    cases rest : r.dropWhile (· ∈ [0x20, 0x2B, 0x0A, 0x0D]) with
    | nil => cases guard <;> rfl
    | cons c rest' =>
      rw [rest] at tail
      cases guard with
      | zero => rfl
      | succ guard => exact if_neg fun same => tail (congrArg some same)
  | cons s strings ih =>
    obtain ⟨first, joined⟩ := List.forall_mem_cons.mp joined
    obtain ⟨guard, rfl⟩ := Nat.exists_eq_succ_of_ne_zero (Nat.ne_zero_of_lt few)
    rw [List.flatMap_cons, List.append_assoc, dropWhile_quoted first (by decide), pieces_quoted,
      ih (Nat.le_of_succ_le_succ few) joined]
    rfl

def Opened (s : Bytes) : Prop := s.take 5 = [0x65, 0x6E, 0x3A, 0x20, 0x7B]

def Quoted (key s : Bytes) : Prop := s.take (key.length + 2) = 0x27 :: key ++ [0x27]

theorem behindKey_clear (long : 1 < r.length)
    (clear : Clear (Quoted key) a.length (a ++ (0x27 :: key ++ [0x27] ++ r))) :
    behindKey key (a ++ (0x27 :: key ++ [0x27] ++ r)) = some r := by
  have skip (c : UInt8) (t : Bytes) (other : ¬ Quoted key (c :: t)) :
      behindKey key (c :: t) = behindKey key t := if_neg fun ok => other ok.2
  have size : (0x27 :: key ++ [0x27]).length = key.length + 2 := by simp
  have more : key.length + 3 < (0x27 :: key ++ [0x27] ++ r).length := by
    rw [List.length_append, size]
    omega
  have front : Quoted key (0x27 :: key ++ [0x27] ++ r) := by rw [Quoted, ← size, List.take_left]
  rw [clear.scan skip]
  exact (if_pos ⟨more, front⟩).trans (congrArg some (size ▸ List.drop_left))

/-- With `r` behind the entry, its key and its strings are read as they are meant. -/
structure Entry.Meant (e : Entry) (key r : Bytes) : Prop where
  named : e.key.map Char.value = key
  unescaped : quoted e.key = 0x27 :: key ++ [0x27]
  any : e.strings ≠ []
  few : e.strings.length ≤ 40
  first : ∀ s ∈ e.strings.head?, s.1.all (· ∈ [0x20, 0x3A, 0x0A, 0x0D]) = true
  joined : ∀ s ∈ e.strings.tail, s.1.all (· ∈ [0x20, 0x2B, 0x0A, 0x0D]) = true
  bytes : ∀ s ∈ e.strings, s.2.map Char.byte = s.2.map Char.value
  short : (e.strings.flatMap fun s => s.2.map Char.value).length ≤ 4095
  tail : (r.dropWhile (· ∈ [0x20, 0x2B, 0x0A, 0x0D])).head? ≠ some 0x27

theorem Entry.Meant.pieces {e : Entry} (meant : e.Meant key r) :
    (pieces 40 ((e.strings.flatMap (fun s => s.1 ++ quoted s.2) ++ r).dropWhile
      (· ∈ [0x20, 0x3A, 0x0A, 0x0D]))).take 4095 =
        e.strings.flatMap fun s => s.2.map Char.value := by
  obtain ⟨-, -, any, few, first, joined, bytes, short, tail⟩ := meant
  rw [← List.flatMap_congr bytes] at short ⊢
  obtain ⟨s, strings, is⟩ := List.exists_cons_of_ne_nil any
  rw [is] at few first joined short ⊢
  rw [List.flatMap_cons, List.append_assoc, dropWhile_quoted (first s rfl) (by decide),
    pieces_quoted, pieces_joined (Nat.le_of_succ_le_succ few) joined tail]
  exact List.take_of_length_le short

/-- The last entry with a key gives the value that the section has for it, where nothing in front
looks like the section, or from there on like the key. -/
theorem dictLookup_value {es es' : List Entry} {e : Entry}
    (en : d.en = es ++ e :: es') (others : ∀ e ∈ es', e.key.map Char.value ≠ key)
    (meant : e.Meant key (es'.flatMap Entry.text ++ 0x7D :: d.behind))
    (start : Clear Opened d.before.length d.text)
    (clear : Clear (Quoted key)
      ([0x65, 0x6E, 0x3A, 0x20, 0x7B] ++ es.flatMap Entry.text ++ e.blank).length
      (d.text.drop d.before.length)) : dictLookup d.text key = d.value key := by
  have spelled : d.text = d.before ++ ([0x65, 0x6E, 0x3A, 0x20, 0x7B] ++ es.flatMap Entry.text ++
      e.blank ++ (0x27 :: key ++ [0x27] ++ (e.strings.flatMap (fun s => s.1 ++ quoted s.2) ++
        (es'.flatMap Entry.text ++ 0x7D :: d.behind)))) := by
    simp [Dictionary.text, en, Entry.text, meant.unescaped]
  have due : d.value key = some (e.strings.flatMap fun s => s.2.map Char.value) := by
    have last : es'.reverse.find? (fun e => e.key.map Char.value == key) = none :=
      List.find?_eq_none.mpr fun e listed => by simpa using others e (List.mem_reverse.mp listed)
    rw [Dictionary.value, en, List.reverse_append, List.reverse_cons, List.append_assoc,
      List.find?_append, last, Option.none_or, List.singleton_append,
      List.find?_cons_of_pos (by simp [meant.named])]
    rfl
  have skip (c : UInt8) (t : Bytes) (other : ¬ Opened (c :: t)) :
      enStart (c :: t) = enStart t := if_neg fun ok => other ok.2
  rw [spelled] at start clear ⊢
  rw [List.drop_left] at clear
  have found := behindKey_clear (by
    obtain ⟨s, strings, is⟩ := List.exists_cons_of_ne_nil meant.any
    simp [is, quoted]
    omega) clear
  rw [due, dictLookup, start.scan skip, ← meant.pieces]
  refine (congrArg (· >>= _) (if_pos ⟨by simp; omega, rfl⟩)).trans ?_
  exact (congrArg (· >>= _) found).trans rfl

/-- What is due for a tag is found where its key is read and looked up as it is meant. -/
theorem Tag.found_due {t : Tag} (keyed : keyOf (0x3C :: t.text) = t.key)
    (looked : ∀ key ∈ t.key, dictLookup d.text key = d.value key) :
    found d (0x3C :: t.text) = t.due d := by
  rw [found, keyed, Tag.due]
  exact Option.bind_congr looked

end Lookup

theorem replaced_none {value : Tag → Option Bytes} (p : Page)
    (none' : ∀ t ∈ p.tags, value t = none) : p.replaced value = p.text := by
  induction p with
  | nil => rfl
  | byte c text next ih => rw [Page.replaced, Page.text, ih none']
  | comment body closed next ih => rw [Page.replaced, Page.text, ih none']
  | empty tag kind next ih => rw [Page.replaced, Page.text, ih none']
  | elem tag kind inner close ends next ihInner ih =>
    obtain ⟨own, inside, behind⟩ :=
      (List.forall_mem_cons.trans (and_congr_right fun _ => List.forall_mem_append)).mp none'
    rw [Page.replaced, Page.text, own, Option.getD_none, ihInner inside, ih behind]

/-- A page that meets the conditions comes out with the inner ranges of its outermost elements
with a defined key replaced, and unchanged where no key is defined. -/
theorem i18n_replaces {d : Dictionary} {p : Page} (meets : p.Meets d) :
    (∀ cap, (p.replaced (Tag.due d)).length < cap →
      htmlI18nApply d.text p.text cap = p.replaced (Tag.due d)) ∧
    ((∀ t ∈ p.tags, t.due d = none) → p.replaced (Tag.due d) = p.text) := by
  constructor
  · intro cap room
    have whole := applied_page meets []
    rw [List.append_nil, applied, List.append_nil] at whole
    rw [htmlI18nApply, whole, List.take_of_length_le (by omega)]
  · exact replaced_none p

/-- `<p data-i18n="k">a</p>` and `en: {'k':'b'}`. -/
def paragraph : Page :=
  .elem ⟨ascii "p", [⟨ascii " ", ascii "data-i18n", ascii "=", .quoted 0x22 (ascii "k"), by decide,
      by decide, by decide⟩], [], by decide, by decide, ⟨0x70, [], by decide⟩⟩ (by decide)
    (.byte 0x61 (by decide) .nil) (ascii "p") (by decide) .nil

def letter (c : UInt8) (other : ¬ (c = 0x27 ∨ c = 0x5C)) : Char :=
  ⟨false, c, fun bad => absurd bad other⟩

def dictionary : Dictionary :=
  ⟨[], [⟨[], [letter 0x6B (by decide)], [([0x3A], [letter 0x62 (by decide)])], by decide⟩], []⟩

theorem i18n_replaces_paragraph : htmlI18nApply dictionary.text paragraph.text 100 =
    ascii "<p data-i18n=\"k\">b</p>" :=
  ((i18n_replaces (d := dictionary) (p := paragraph) ⟨by decide, trivial, trivial⟩).1 100
    (by decide)).trans (by decide)

/-- An apostrophe in a comment in front of the paragraph keeps it from being replaced. -/
theorem apostrophe_keeps : ¬ ∀ (d : Dictionary) (p : Page) (cap : Nat),
    (p.replaced (Tag.due d)).length < cap →
      htmlI18nApply d.text p.text cap = p.replaced (Tag.due d) := by
  intro replaces
  have page := replaces dictionary (.comment [0x27] (by decide) paragraph) 100 (by decide)
  rw [htmlI18nApply, Page.text, commentText, List.cons_append, applied, if_neg (by decide)] at page
  exact absurd page (by decide)

end XinuRpi5.System.HtmlI18n
