/- source: system/html.c
   digest: Selectors as CSS has them: their text is read back, and they select what the match accepts. -/

import Mathlib.Data.Prod.Lex
import XinuRpi5.Lib.PathPattern
import XinuRpi5.System.CssSelect

namespace XinuRpi5.System.CssSelectors

open Lib.PathPattern HtmlText CssSelect

def isNameChar (c : UInt8) : Bool := isTagChar c || c == 0x5F || 0x80 ≤ c

inductive Part where
  | cls (name : Bytes)
  | id (name : Bytes)

def Part.name : Part → Bytes
  | .cls name => name
  | .id name => name

def Part.text : Part → Bytes
  | .cls name => 0x2E :: name
  | .id name => 0x23 :: name

inductive Head where
  | nothing
  | any
  | tag (name : Bytes)

def Head.text : Head → Bytes
  | .nothing => []
  | .any => [0x2A]
  | .tag name => name

structure Compound where
  head : Head
  parts : List Part

def Compound.text (c : Compound) : Bytes := c.head.text ++ c.parts.flatMap Part.text

def classesOf (parts : List Part) : List Bytes :=
  parts.filterMap fun
    | .cls name => some name
    | .id _ => none

def idsOf (parts : List Part) : List Bytes :=
  parts.filterMap fun
    | .cls _ => none
    | .id name => some name

def Compound.classes (c : Compound) : List Bytes := classesOf c.parts

def Compound.ids (c : Compound) : List Bytes := idsOf c.parts

/-- A compound of the subset: a known tag, up to three classes, up to one id. -/
structure Compound.Plain (c : Compound) : Prop where
  tag : ∀ name, c.head = .tag name → name ≠ [] ∧ name.all isTagChar = true ∧
    ∃ known ∈ tagNames, eqi known name = true
  names : ∀ p ∈ c.parts, p.name ≠ [] ∧ p.name.all isNameChar = true
  classes : c.classes.length ≤ 3
  ids : c.ids.length ≤ 1
  nonempty : c.text ≠ []

inductive Combinator where
  | descendant (blank : Bytes)
  | child (before after : Bytes)

def Combinator.text : Combinator → Bytes
  | .descendant blank => blank
  | .child before after => before ++ 0x3E :: after

def Combinator.isChild : Combinator → Bool
  | .descendant _ => false
  | .child _ _ => true

def Combinator.Blank : Combinator → Prop
  | .descendant blank => blank.all isWs = true
  | .child before after => before.all isWs = true ∧ after.all isWs = true

def Combinator.Plain (k : Combinator) : Prop := k.Blank ∧ k.text ≠ []

structure Selector where
  first : Compound
  rest : List (Combinator × Compound)

def Selector.text (s : Selector) : Bytes :=
  s.first.text ++ s.rest.flatMap fun kc => kc.1.text ++ kc.2.text

structure Selector.Plain (s : Selector) : Prop where
  first : s.first.Plain
  rest : ∀ kc ∈ s.rest, kc.1.Plain ∧ kc.2.Plain
  short : s.rest.length ≤ 3

def IsWord (v w : Bytes) : Prop :=
  ∃ before after, v = before ++ w ++ after ∧ (∀ c ∈ w, isWs c = false) ∧
    (∀ c ∈ before.getLast?, isWs c = true) ∧ ∀ c ∈ after.head?, isWs c = true

/-- A compound holds of an element; names are compared without their case. -/
def Compound.Holds (c : Compound) (f : Frame) : Prop :=
  (∀ name, c.head = .tag name → eqi (tagNames.getD f.tag []) name = true) ∧
    (∀ name ∈ c.ids, ∃ v, f.id = some v ∧ eqi v name = true) ∧
      ∀ name ∈ c.classes, ∃ v w, f.cls = some v ∧ IsWord v w ∧ eqi w name = true

/-- Some choice of ancestors for the compounds, the last one first, satisfies them and the
combinators. -/
def Chosen : List (Compound × Bool) → List Frame → Prop
  | [], _ => True
  | _ :: _, [] => False
  | (c, child) :: rest, f :: above =>
    c.Holds f ∧ if child then Chosen rest above else ∃ farther, farther <:+ above ∧
      Chosen rest farther

/-- The compounds with the combinators in front of them, the last one first. -/
def Selector.steps (s : Selector) : List (Compound × Bool) :=
  ((s.first, false) :: s.rest.map fun kc => (kc.2, kc.1.isChild)).reverse

def Selector.Selects (s : Selector) (top : Frame) (above : List Frame) : Prop :=
  Chosen s.steps (top :: above)

def Head.count : Head → Nat
  | .tag _ => 1
  | _ => 0

def Selector.compounds (s : Selector) : List Compound := s.first :: s.rest.map Prod.snd

def Selector.ids (s : Selector) : Nat := (s.compounds.map fun c => c.ids.length).sum
def Selector.classes (s : Selector) : Nat := (s.compounds.map fun c => c.classes.length).sum
def Selector.tags (s : Selector) : Nat := (s.compounds.map fun c => c.head.count).sum

def Selector.specificity (s : Selector) : Nat ×ₗ Nat ×ₗ Nat :=
  toLex (s.ids, toLex (s.classes, s.tags))

def Compound.comp (c : Compound) (child : Bool) : Comp :=
  ⟨match c.head with | .tag name => name | _ => [], c.ids.getLast?, c.classes, child⟩

def Selector.comps (s : Selector) : List Comp :=
  s.first.comp false :: s.rest.map fun kc => kc.2.comp kc.1.isChild

theorem nameChar_inside {c : UInt8} (char : isNameChar c = true) :
    endsName c = false ∧ isWs c = false ∧ c ≠ 0x3E ∧ c ≠ 0x2B ∧ c ≠ 0x7E ∧ c ≠ 0x2A := by
  revert c
  apply forall_byte
  decide +kernel

theorem tagChar_nameChar {c : UInt8} (char : isTagChar c = true) : isNameChar c = true := by
  rw [isNameChar, char]
  rfl

theorem takeWhile_name {p : UInt8 → Bool} {l rest : Bytes} (inside : ∀ c ∈ l, p c = true)
    (stops : ∀ c ∈ rest.head?, p c = false) :
    (l ++ rest).takeWhile p = l ∧ (l ++ rest).dropWhile p = rest := by
  rw [List.takeWhile_append_of_pos inside, List.dropWhile_append_of_pos inside]
  cases rest with
  | nil => exact ⟨List.append_nil l, rfl⟩
  | cons c rest =>
    have first : ¬p c = true := by
      rw [stops c rfl]
      decide
    rw [List.takeWhile_cons_of_neg first, List.dropWhile_cons_of_neg first, List.append_nil]
    exact ⟨rfl, rfl⟩

theorem parts_head {parts : List Part} {c : UInt8}
    (first : c ∈ (parts.flatMap Part.text).head?) : c = 0x2E ∨ c = 0x23 := by
  cases parts with
  | nil => cases first
  | cons p parts =>
    cases p with
    | cls name => exact .inl (Option.some.inj first).symm
    | id name => exact .inr (Option.some.inj first).symm

theorem partsLoop_parts {parts : List Part}
    (names : ∀ p ∈ parts, p.name ≠ [] ∧ p.name.all isNameChar = true) {rounds : Nat}
    (enough : (parts.flatMap Part.text).length ≤ rounds) (first : Bool) {c : Comp}
    (room : c.cls.length + (classesOf parts).length ≤ 3) :
    partsLoop rounds first (parts.flatMap Part.text) c =
      some { c with
        id := ((idsOf parts).getLast?).or c.id
        cls := c.cls ++ classesOf parts } := by
  induction parts generalizing rounds first c with
  | nil =>
    have done : { c with id := ((idsOf []).getLast?).or c.id, cls := c.cls ++ classesOf [] } = c := by
      simp [idsOf, classesOf]
    rw [done]
    cases rounds <;> rfl
  | cons p parts ih =>
    obtain ⟨nonempty, chars⟩ := names p List.mem_cons_self
    have later := fun p mem => names p (List.mem_cons_of_mem _ mem)
    obtain ⟨taken, left⟩ := takeWhile_name (p := fun c => !endsName c)
      (fun c mem => by rw [(nameChar_inside (List.all_eq_true.mp chars c mem)).1]; rfl)
      (fun c mem => by obtain rfl | rfl := parts_head mem <;> rfl)
    rw [List.flatMap_cons, List.length_append] at enough
    cases p with
    | cls name =>
      have size : classesOf (.cls name :: parts) = name :: classesOf parts := rfl
      have ids : idsOf (.cls name :: parts) = idsOf parts := rfl
      simp only [Part.text, Part.name, List.length_cons] at enough taken left nonempty
      obtain ⟨k, rfl⟩ : ∃ k, rounds = k + 1 := ⟨rounds - 1, by omega⟩
      rw [size, List.length_cons] at room
      rw [List.flatMap_cons, Part.text, List.cons_append, partsLoop, taken, left, if_pos rfl,
        if_pos ⟨by omega, nonempty⟩, ih later (by omega) false, size, ids]
      · simp
      · simp only [List.length_append, List.length_cons, List.length_nil]
        omega
    | id name =>
      have size : classesOf (.id name :: parts) = classesOf parts := rfl
      have ids : idsOf (.id name :: parts) = name :: idsOf parts := rfl
      simp only [Part.text, Part.name, List.length_cons] at enough taken left nonempty
      obtain ⟨k, rfl⟩ : ∃ k, rounds = k + 1 := ⟨rounds - 1, by omega⟩
      rw [size] at room
      have short : (parts.flatMap Part.text).length ≤ k := by omega
      have next := ih later short false (c := { c with id := some name }) room
      rw [List.flatMap_cons, Part.text, List.cons_append, partsLoop, taken, left,
        if_neg (by decide), if_pos rfl, if_pos nonempty, next, size, ids]
      cases more : (idsOf parts).getLast? with
      | none =>
        rw [List.getLast?_eq_none_iff.mp more]
        rfl
      | some last =>
        rw [List.getLast?_cons, more]
        rfl

variable {c : Compound}

theorem Compound.Plain.parse (plain : c.Plain) :
    parseCompound c.text = some (c.comp false) := by
  have room : (classesOf c.parts).length ≤ 3 := plain.classes
  have stops : ∀ d ∈ (c.parts.flatMap Part.text).head?, isTagChar d = false := by
    intro d mem
    obtain rfl | rfl := parts_head mem <;> rfl
  obtain ⟨head, parts⟩ := c
  cases head with
  | nothing =>
    have read := partsLoop_parts plain.names (Nat.le_succ _)
      (List.takeWhile isTagChar (parts.flatMap Part.text)).isEmpty (c := ⟨[], none, [], false⟩)
      (by simpa using room)
    obtain ⟨taken, left⟩ := takeWhile_name (p := isTagChar) (l := [])
      (fun c mem => (List.not_mem_nil mem).elim) stops
    rw [List.nil_append] at taken left
    have other : (parts.flatMap Part.text).head? ≠ some 0x2A := by
      intro star
      obtain bad | bad := parts_head star <;> cases bad
    rw [parseCompound, Compound.text, Head.text, List.nil_append, if_neg other, left]
    rw [taken] at read ⊢
    rw [read]
    simp [Compound.comp, Compound.ids, Compound.classes]
  | any =>
    have read := partsLoop_parts plain.names (Nat.le_succ _) false (c := ⟨[], none, [], false⟩)
      (by simpa using room)
    have star : (0x2A :: parts.flatMap Part.text).head? = some 0x2A := rfl
    rw [parseCompound, Compound.text, Head.text, List.singleton_append, if_pos star]
    exact read.trans (by simp [Compound.comp, Compound.ids, Compound.classes])
  | tag name =>
    obtain ⟨nonempty, chars, -⟩ := plain.tag name rfl
    obtain ⟨taken, left⟩ := takeWhile_name (List.all_eq_true.mp chars) stops
    have short : (parts.flatMap Part.text).length ≤
        (name ++ parts.flatMap Part.text).length + 1 := by
      rw [List.length_append]
      omega
    have read := partsLoop_parts plain.names short name.isEmpty (c := ⟨name, none, [], false⟩)
      (by simpa using room)
    have other : (name ++ parts.flatMap Part.text).head? ≠ some 0x2A := by
      obtain ⟨d, rest, rfl⟩ := List.exists_cons_of_ne_nil nonempty
      intro star
      obtain rfl := Option.some.inj star
      have char := List.all_eq_true.mp chars 0x2A List.mem_cons_self
      exact absurd char (by decide)
    rw [parseCompound, Compound.text, Head.text, if_neg other, left, taken, read]
    simp [Compound.comp, Compound.ids, Compound.classes]

/-- What the text of a compound is made of ends no word. -/
theorem Compound.Plain.chars (plain : c.Plain) : ∀ d ∈ c.text,
    isWs d = false ∧ d ≠ 0x3E ∧ d ≠ 0x2B ∧ d ≠ 0x7E := by
  intro d mem
  obtain first | part := List.mem_append.mp mem
  · cases kind : c.head with
    | nothing =>
      rw [kind] at first
      cases first
    | any =>
      rw [kind, Head.text, List.mem_singleton] at first
      subst first
      decide
    | tag name =>
      rw [kind] at first
      have char := List.all_eq_true.mp (plain.tag name kind).2.1 d first
      obtain ⟨-, ws, gt, plus, tilde, -⟩ := nameChar_inside (tagChar_nameChar char)
      exact ⟨ws, gt, plus, tilde⟩
  · obtain ⟨p, inside, within⟩ := List.mem_flatMap.mp part
    have name : ∀ d ∈ p.name, isWs d = false ∧ d ≠ 0x3E ∧ d ≠ 0x2B ∧ d ≠ 0x7E := by
      intro d mem
      obtain ⟨-, ws, gt, plus, tilde, -⟩ :=
        nameChar_inside (List.all_eq_true.mp (plain.names p inside).2 d mem)
      exact ⟨ws, gt, plus, tilde⟩
    cases p with
    | cls text =>
      obtain rfl | later := List.mem_cons.mp within
      · decide
      · exact name d later
    | id text =>
      obtain rfl | later := List.mem_cons.mp within
      · decide
      · exact name d later

def Ends (more : Bytes) : Prop := ∀ d ∈ more.head?, isWs d = true ∨ d = 0x3E

theorem Combinator.Plain.ends {k : Combinator} (plain : k.Plain) (more : Bytes) :
    Ends (k.text ++ more) := by
  intro d first
  obtain ⟨blanks, nonempty⟩ := plain
  cases k with
  | descendant blank =>
    obtain ⟨c, blank, rfl⟩ := List.exists_cons_of_ne_nil nonempty
    obtain rfl := Option.some.inj first
    exact .inl (List.all_eq_true.mp blanks c List.mem_cons_self)
  | child before after =>
    cases before with
    | nil => exact .inr (Option.some.inj first).symm
    | cons c before =>
      obtain rfl := Option.some.inj first
      exact .inl (List.all_eq_true.mp blanks.1 c List.mem_cons_self)

theorem dropWhile_blank {blank rest : Bytes} (ws : blank.all isWs = true)
    (stops : ∀ d ∈ rest.head?, isWs d = false) : (blank ++ rest).dropWhile isWs = rest :=
  (takeWhile_name (List.all_eq_true.mp ws) stops).2

/-- A round reads a combinator and the compound behind it. -/
theorem compLoop_compound {k : Combinator} (blanks : k.Blank) (plain : c.Plain) {more : Bytes}
    (ends : Ends more) {comps : List Comp} (room : comps.length < 4) (rounds : Nat) :
    compLoop (rounds + 1) (k.text ++ (c.text ++ more)) comps =
      compLoop rounds more (comps ++ [c.comp k.isChild]) := by
  obtain ⟨d, word, text⟩ := List.exists_cons_of_ne_nil plain.nonempty
  have first := plain.chars d (by rw [text]; exact List.mem_cons_self)
  have begins : (c.text ++ more).head? = some d := by rw [text]; rfl
  have stops : ∀ e ∈ (c.text ++ more).head?, isWs e = false := by
    rw [begins]
    rintro e ⟨⟩
    exact first.1
  -- what `skip` leaves behind the combinator
  have skipped : ((k.text ++ (c.text ++ more)).dropWhile isWs).head? = some 0x3E ↔
      k.isChild = true := by
    cases k with
    | descendant blank =>
      rw [Combinator.text, dropWhile_blank blanks stops, begins]
      exact ⟨fun gt => absurd (Option.some.inj gt) first.2.1, fun no => by cases no⟩
    | child before after =>
      rw [Combinator.text, List.append_assoc, dropWhile_blank blanks.1 (by rintro e ⟨⟩; rfl)]
      exact ⟨fun _ => rfl, fun _ => rfl⟩
  have left : (if k.isChild = true then
      ((k.text ++ (c.text ++ more)).dropWhile isWs).tail.dropWhile isWs
      else (k.text ++ (c.text ++ more)).dropWhile isWs) = c.text ++ more := by
    cases k with
    | descendant blank =>
      have no : ¬(Combinator.descendant blank).isChild = true := Bool.false_ne_true
      rw [if_neg no, Combinator.text, dropWhile_blank blanks stops]
    | child before after =>
      have yes : (Combinator.child before after).isChild = true := rfl
      rw [if_pos yes, Combinator.text, List.append_assoc,
        dropWhile_blank blanks.1 (by rintro e ⟨⟩; rfl)]
      exact dropWhile_blank blanks.2 stops
  have other : ¬((c.text ++ more).head? = some 0x2B ∨ (c.text ++ more).head? = some 0x7E) := by
    rw [begins]
    rintro (plus | tilde)
    · exact first.2.2.1 (Option.some.inj plus)
    · exact first.2.2.2 (Option.some.inj tilde)
  obtain ⟨taken, rest⟩ := takeWhile_name (p := fun c => !isWs c && c != 0x3E)
    (fun e mem => by
      obtain ⟨ws, gt, -⟩ := plain.chars e mem
      rw [ws, bne_iff_ne.mpr gt]
      rfl)
    (fun e mem => by
      obtain ws | rfl := ends e mem
      · rw [ws]
        rfl
      · rfl)
  rw [compLoop]
  simp only [skipped, left]
  rw [if_neg other, taken, rest, if_neg plain.nonempty, if_neg (by omega), plain.parse]
  cases k.isChild <;> rfl

theorem compLoop_rest {rest : List (Combinator × Compound)}
    (plain : ∀ kc ∈ rest, kc.1.Plain ∧ kc.2.Plain) {comps : List Comp}
    (room : comps.length + rest.length ≤ 4) {rounds : Nat} (enough : rest.length < rounds) :
    compLoop rounds (rest.flatMap fun kc => kc.1.text ++ kc.2.text) comps =
      some (comps ++ rest.map fun kc => kc.2.comp kc.1.isChild) := by
  induction rest generalizing comps rounds with
  | nil =>
    obtain ⟨r, rfl⟩ : ∃ r, rounds = r + 1 := ⟨rounds - 1, by omega⟩
    rw [List.map_nil, List.append_nil]
    rfl
  | cons kc rest ih =>
    obtain ⟨r, rfl⟩ : ∃ r, rounds = r + 1 := ⟨rounds - 1, by omega⟩
    obtain ⟨combinator, compound⟩ := plain kc List.mem_cons_self
    have later := fun kc mem => plain kc (List.mem_cons_of_mem _ mem)
    have ends : Ends (rest.flatMap fun kc => kc.1.text ++ kc.2.text) := by
      cases rest with
      | nil =>
        rintro d ⟨⟩
      | cons next rest =>
        rw [List.flatMap_cons, List.append_assoc]
        exact (later next List.mem_cons_self).1.ends _
    rw [List.length_cons] at room enough
    rw [List.flatMap_cons, List.append_assoc,
      compLoop_compound combinator.1 compound ends (by omega) r,
      ih later (by rw [List.length_append, List.length_singleton]; omega) (by omega)]
    simp

theorem Selector.Plain.read {s : Selector} (plain : s.Plain) :
    compLoop (s.text.length + 1) s.text [] = some s.comps := by
  have ends : Ends (s.rest.flatMap fun kc => kc.1.text ++ kc.2.text) := by
    cases list : s.rest with
    | nil =>
      rintro d ⟨⟩
    | cons next rest =>
      rw [List.flatMap_cons, List.append_assoc]
      exact (plain.rest next (by rw [list]; exact List.mem_cons_self)).1.ends _
  have long : s.rest.length < s.text.length := by
    have first := List.length_pos_iff.mpr plain.first.nonempty
    have each : s.rest.length ≤ (s.rest.flatMap fun kc => kc.1.text ++ kc.2.text).length := by
      have all := plain.rest
      generalize s.rest = rest at all ⊢
      induction rest with
      | nil => exact Nat.le_refl 0
      | cons kc rest ih =>
        have some := List.length_pos_iff.mpr (all kc List.mem_cons_self).2.nonempty
        have later := ih fun kc mem => all kc (List.mem_cons_of_mem _ mem)
        rw [List.flatMap_cons, List.length_append, List.length_append, List.length_cons]
        omega
    rw [Selector.text, List.length_append]
    omega
  have read := compLoop_compound (k := .descendant []) rfl plain.first ends
    (by decide : ([] : List Comp).length < 4) s.text.length
  have short := plain.short
  refine read.trans ?_
  rw [compLoop_rest plain.rest (by simpa using by omega) long]
  rfl

theorem isWs_lower (c : UInt8) : isWs (lower c) = isWs c := by
  revert c
  exact forall_byte (by decide +kernel)

theorem eqi_iff {a b : Bytes} : eqi a b = true ↔ a.map lower = b.map lower := beq_iff_eq

theorem startsEqi_iff {name s : Bytes} :
    startsEqi name s = true ↔ eqi (s.take name.length) name = true := by
  rw [eqi_iff]
  induction name generalizing s with
  | nil => simp [startsEqi]
  | cons x name ih =>
    cases s with
    | nil => simp [startsEqi]
    | cons y s =>
      rw [startsEqi, Bool.and_eq_true_iff, ih, beq_iff_eq, List.length_cons,
        List.take_succ_cons, List.map_cons, List.map_cons, List.cons.injEq]
      exact and_congr_left fun _ => eq_comm

theorem eqi_ws {w cls : Bytes} (same : eqi w cls = true) (chars : ∀ c ∈ cls, isWs c = false) :
    ∀ c ∈ w, isWs c = false := by
  intro c mem
  have lowered := List.mem_map_of_mem (f := lower) mem
  rw [eqi_iff.mp same] at lowered
  obtain ⟨d, inside, equal⟩ := List.mem_map.mp lowered
  rw [← isWs_lower c, ← equal, isWs_lower]
  exact chars d inside

theorem eqi_length {a b : Bytes} (same : eqi a b = true) : a.length = b.length := by
  have := congrArg List.length (eqi_iff.mp same)
  rwa [List.length_map, List.length_map] at this

/-- `class_in` finds the words of the attribute. -/
theorem classIn_iff {v cls : Bytes} (chars : ∀ c ∈ cls, isWs c = false) :
    classIn v cls = true ↔ ∃ w, IsWord v w ∧ eqi w cls = true := by
  rw [classIn, List.any_eq_true]
  constructor
  · rintro ⟨i, range, found⟩
    simp only [Bool.and_eq_true, Bool.or_eq_true, beq_iff_eq] at found
    obtain ⟨⟨same, before⟩, after⟩ := found
    have same := startsEqi_iff.mp same
    have size := eqi_length same
    rw [List.length_take, List.length_drop] at size
    refine ⟨(v.drop i).take cls.length, ⟨v.take i, v.drop (i + cls.length), ?_,
      eqi_ws same chars, ?_, ?_⟩, same⟩
    · rw [List.append_assoc, ← List.drop_drop, List.take_append_drop, List.take_append_drop]
    · intro c last
      rw [List.getLast?_take] at last
      split_ifs at last with zero
      · cases last
      have ws := before.resolve_left zero
      cases here : v[i - 1]? with
      | none =>
        rw [here] at ws
        cases ws
      | some d =>
        rw [here] at ws last
        obtain rfl := Option.some.inj last
        exact ws
    · intro c first
      rw [List.head?_drop] at first
      obtain atEnd | ws := after
      · rw [List.getElem?_eq_none (Nat.le_of_eq atEnd.symm)] at first
        cases first
      · rw [first] at ws
        exact ws
  · rintro ⟨w, ⟨before, after, rfl, -, last, first⟩, same⟩
    have size := eqi_length same
    refine ⟨before.length, ?_, ?_⟩
    · simp only [List.mem_range, List.length_append]
      omega
    · simp only [Bool.and_eq_true, Bool.or_eq_true, beq_iff_eq]
      refine ⟨⟨startsEqi_iff.mpr ?_, ?_⟩, ?_⟩
      · rw [List.append_assoc, List.drop_left, ← size, List.take_left]
        exact same
      · by_cases none : before = []
        · exact .inl (List.length_eq_zero_iff.mpr none)
        · right
          have some := List.length_pos_iff.mpr none
          have end' := List.getLast?_eq_some_getLast none
          rw [List.append_assoc, List.getElem?_append_left (by omega),
            ← List.getLast?_eq_getElem?, end']
          exact last _ end'
      · cases after with
        | nil =>
          left
          simp only [List.length_append, List.length_nil]
          omega
        | cons c after =>
          right
          rw [List.getElem?_append_right (by rw [List.length_append]; omega), List.length_append,
            size, Nat.sub_self]
          exact first c rfl

theorem eqi_trans {a b c : Bytes} (first : eqi a b = true) (second : eqi b c = true) :
    eqi a c = true :=
  eqi_iff.mpr ((eqi_iff.mp first).trans (eqi_iff.mp second))

theorem known_plain {name : Bytes} (known : ∃ k ∈ tagNames, eqi k name = true) :
    eqi name (ascii "strong") = false ∧ eqi name (ascii "em") = false := by
  obtain ⟨k, mem, same⟩ := known
  have none : ∀ k ∈ tagNames, eqi k (ascii "strong") = false ∧ eqi k (ascii "em") = false := by
    decide +kernel
  have strong := (none k mem).1
  have em := (none k mem).2
  constructor
  · by_contra found
    rw [eqi_trans same (by simpa using found)] at strong
    cases strong
  · by_contra found
    rw [eqi_trans same (by simpa using found)] at em
    cases em

theorem tag_holds (plain : c.Plain) (child : Bool) (f : Frame) :
    ((c.comp child).tag = [] || (tagNames.getD f.tag [] ≠ [] &&
      eqi (tagNames.getD f.tag []) (c.comp child).tag) ||
        (f.tag = tagB && eqi (c.comp child).tag (ascii "strong")) ||
          (f.tag = tagI && eqi (c.comp child).tag (ascii "em"))) = true ↔
      ∀ name, c.head = .tag name → eqi (tagNames.getD f.tag []) name = true := by
  cases kind : c.head with
  | nothing => simp [Compound.comp, kind]
  | any => simp [Compound.comp, kind]
  | tag name =>
    obtain ⟨nonempty, -, known⟩ := plain.tag name kind
    obtain ⟨strong, em⟩ := known_plain known
    have tag : (c.comp child).tag = name := by simp [Compound.comp, kind]
    rw [tag, strong, em]
    simp only [nonempty, decide_false, Bool.false_or, Bool.and_false, Bool.or_false,
      Bool.and_eq_true, decide_eq_true_eq, Head.tag.injEq, forall_eq']
    refine ⟨And.right, fun same => ⟨fun none => nonempty ?_, same⟩⟩
    rw [none] at same
    exact List.length_eq_zero_iff.mp (eqi_length same).symm

theorem id_holds (plain : c.Plain) (child : Bool) (f : Frame) :
    (match (c.comp child).id with
      | none => true
      | some id => (f.id.map (eqi · id)).getD false) = true ↔
      ∀ name ∈ c.ids, ∃ v, f.id = some v ∧ eqi v name = true := by
  have one := plain.ids
  have id : (c.comp child).id = c.ids.getLast? := rfl
  rw [id]
  generalize c.ids = ids at one ⊢
  match ids with
  | [] => simp
  | [name] =>
    cases f.id with
    | none => simp
    | some v => simp

theorem class_holds (plain : c.Plain) (child : Bool) (f : Frame) :
    ((c.comp child).cls.all fun cls => (f.cls.map (classIn · cls)).getD false) = true ↔
      ∀ name ∈ c.classes, ∃ v w, f.cls = some v ∧ IsWord v w ∧ eqi w name = true := by
  have chars : ∀ name ∈ c.classes, ∀ d ∈ name, isWs d = false := by
    intro name mem d inside
    obtain ⟨p, part, found⟩ := List.mem_filterMap.mp mem
    cases p with
    | id other => cases found
    | cls other =>
      obtain rfl := Option.some.inj found
      exact (nameChar_inside (List.all_eq_true.mp (plain.names _ part).2 d inside)).2.1
  rw [List.all_eq_true]
  refine forall₂_congr fun name mem => ?_
  cases f.cls with
  | none => simp
  | some v =>
    rw [Option.map_some, Option.getD_some, classIn_iff (chars name mem)]
    constructor
    · rintro ⟨w, word, same⟩
      exact ⟨v, w, rfl, word, same⟩
    · rintro ⟨_, w, same, word, equal⟩
      obtain rfl := Option.some.inj same
      exact ⟨w, word, equal⟩

theorem compMatch_holds (plain : c.Plain) (child : Bool) (f : Frame) :
    compMatch (c.comp child) f = true ↔ c.Holds f := by
  rw [compMatch, Bool.and_eq_true_iff, Bool.and_eq_true_iff, and_assoc]
  exact and_congr (tag_holds plain child f)
    (and_congr (id_holds plain child f) (class_holds plain child f))

def steps (comps : List Comp) : List (Step Frame) := comps.map fun c => ⟨compMatch c, c.child⟩

theorem matchLoop_search (child : Bool) (comps : List Comp) (above : List Frame) :
    matchLoop child comps above = search child (steps comps) above := by
  induction comps generalizing child above with
  | nil => cases child <;> rfl
  | cons c comps ih =>
    cases child with
    | true =>
      cases above with
      | nil => rfl
      | cons f above =>
        rw [matchLoop, ih]
        rfl
    | false =>
      rw [matchLoop, steps, List.map_cons, search]
      cases above.dropWhile fun f => !compMatch c f with
      | nil => rfl
      | cons f above => exact ih c.child above

/-- Only a bare `*` stands in front of a combinator of children. -/
def BareParents : List (Compound × Bool) → Prop
  | [] => True
  | [_] => True
  | (_, child) :: (parent, k) :: rest =>
    (child = true → parent = ⟨.any, []⟩) ∧ BareParents ((parent, k) :: rest)

/-- To the left of a combinator of descendants only a bare `*` stands in front of one of
children. The compounds are in the order of `Selector.steps`. -/
def ChildrenLast : List (Compound × Bool) → Prop
  | [] => True
  | (_, child) :: rest => if child then ChildrenLast rest else BareParents rest

def stepsOf (steps : List (Compound × Bool)) : List (Step Frame) :=
  CssSelectors.steps (steps.map fun ck => ck.1.comp ck.2)

theorem BareParents.loose {steps : List (Compound × Bool)} (bare : BareParents steps) :
    Loose (stepsOf steps) := by
  induction steps with
  | nil => trivial
  | cons ck steps ih =>
    obtain ⟨c, child⟩ := ck
    cases steps with
    | nil => trivial
    | cons next steps =>
      obtain ⟨parent, k⟩ := next
      refine ⟨fun adjacent f => ?_, ih bare.2⟩
      have any : parent = ⟨.any, []⟩ := bare.1 adjacent
      subst any
      rfl

theorem ChildrenLast.adjacentFirst {steps : List (Compound × Bool)} (last : ChildrenLast steps) :
    AdjacentFirst (stepsOf steps) := by
  induction steps with
  | nil => trivial
  | cons ck steps ih =>
    obtain ⟨c, child⟩ := ck
    cases child with
    | true => exact ih last
    | false => exact last.loose

theorem found_chosen {steps : List (Compound × Bool)} (plain : ∀ ck ∈ steps, ck.1.Plain)
    (path : List Frame) : Found (stepsOf steps) path ↔ Chosen steps path := by
  induction steps generalizing path with
  | nil => rfl
  | cons ck steps ih =>
    obtain ⟨c, child⟩ := ck
    cases path with
    | nil => rfl
    | cons f above =>
      have next := ih fun ck mem => plain ck (List.mem_cons_of_mem _ mem)
      have here := compMatch_holds (plain (c, child) List.mem_cons_self) child f
      refine and_congr here ?_
      cases child with
      | true => exact next above
      | false => exact exists_congr fun farther => and_congr_right fun _ => next farther

theorem Selector.comps_reverse (s : Selector) :
    s.comps.reverse = s.steps.map fun ck => ck.1.comp ck.2 := by
  rw [Selector.steps, List.map_reverse, List.map_cons, List.map_map]
  rfl

theorem Selector.Plain.steps {s : Selector} (plain : s.Plain) : ∀ ck ∈ s.steps, ck.1.Plain := by
  intro ck mem
  rw [Selector.steps, List.mem_reverse, List.mem_cons] at mem
  obtain rfl | later := mem
  · exact plain.first
  · obtain ⟨kc, inside, rfl⟩ := List.mem_map.mp later
    exact (plain.rest kc inside).2

theorem ruleMatch_selects {s : Selector} (plain : s.Plain) (last : ChildrenLast s.steps)
    (top : Frame) (above : List Frame) :
    ruleMatch s.comps top above = true ↔ s.Selects top above := by
  have whole : ruleMatch s.comps top above = search true (stepsOf s.steps) (top :: above) := by
    rw [ruleMatch, s.comps_reverse, stepsOf]
    cases list : s.steps with
    | nil => exact absurd list (by simp [Selector.steps])
    | cons ck steps => exact congrArg (_ && ·) (matchLoop_search _ _ above)
  rw [whole, search_found last.adjacentFirst, Selector.Selects]
  exact found_chosen plain.steps (top :: above)

theorem comp_weight (plain : c.Plain) (child : Bool) :
    (c.comp child).weight = c.ids.length * 100 + c.classes.length * 10 + c.head.count := by
  have ids : (if (c.comp child).id.isSome then 100 else 0) = c.ids.length * 100 := by
    have one := plain.ids
    change (if c.ids.getLast?.isSome then 100 else 0) = _
    generalize c.ids = ids at one ⊢
    match ids with
    | [] => rfl
    | [_] => rfl
  have tag : (if (c.comp child).tag = [] then 0 else 1) = c.head.count := by
    cases kind : c.head with
    | nothing => simp [Compound.comp, kind, Head.count]
    | any => simp [Compound.comp, kind, Head.count]
    | tag name => simp [Compound.comp, kind, Head.count, (plain.tag name kind).1]
  rw [Comp.weight, ids, tag]
  rfl

theorem comps_weight {s : Selector} (plain : s.Plain) :
    (s.comps.map Comp.weight).sum = s.ids * 100 + s.classes * 10 + s.tags := by
  have rest (list : List (Combinator × Compound)) (all : ∀ kc ∈ list, kc.2.Plain) :
      ((list.map fun kc => kc.2.comp kc.1.isChild).map Comp.weight).sum =
        ((list.map Prod.snd).map fun c => c.ids.length).sum * 100 +
          ((list.map Prod.snd).map fun c => c.classes.length).sum * 10 +
            ((list.map Prod.snd).map fun c => c.head.count).sum := by
    induction list with
    | nil => rfl
    | cons kc list ih =>
      have later := ih fun kc mem => all kc (List.mem_cons_of_mem _ mem)
      simp only [List.map_cons, List.sum_cons, later,
        comp_weight (all kc List.mem_cons_self) kc.1.isChild]
      omega
  have later := rest s.rest fun kc mem => (plain.rest kc mem).2
  simp only [Selector.comps, Selector.ids, Selector.classes, Selector.tags, Selector.compounds,
    List.map_cons, List.sum_cons, later, comp_weight plain.first false]
  omega

end XinuRpi5.System.CssSelectors
