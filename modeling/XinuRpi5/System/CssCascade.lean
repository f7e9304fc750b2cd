/- source: system/html.c
   digest: The cascade: the properties of an element from the rules of a sheet and its attributes. -/

import Mathlib.Algebra.Order.BigOperators.Group.List
import Mathlib.Algebra.Order.Ring.Nat
import Mathlib.Algebra.Group.Action.Defs
import XinuRpi5.System.CssSelectors
import XinuRpi5.System.CssValues

namespace XinuRpi5.System.CssCascade

open HtmlText CssSelect CssSelectors
open CssValues

/-- The value behind an attribute's name; `none` where it is another name that goes on. -/
def attrValue (s : Bytes) : Option Bytes :=
  let s := s.dropWhile (· == 0x20)
  match s with
  | 0x3D :: s =>
    match s.dropWhile (· == 0x20) with
    | c :: s =>
      if c = 0x22 ∨ c = 0x27 then some (s.takeWhile (· != c))
      else some ((c :: s).takeWhile fun c => !isWs c && c != 0x3E && c != 0x2F)
    | [] => some []
  | c :: _ => if isWs c || c == 0x2F || c == 0x3E then some [] else none
  | [] => some []

/-- `attr_find`, behind the character `prev`. -/
def attrFind (key : Bytes) : Option UInt8 → Bytes → Option Bytes
  | _, [] => none
  | prev, c :: s =>
    if startsEqi key (c :: s) ∧ (prev.map isWs).getD true = true then
      match attrValue ((c :: s).drop key.length) with
      | some v => some v
      | none => attrFind key (some c) s
    else attrFind key (some c) s

/-- The bounds of a pass of `compute_props`. -/
def passLo (pass : Nat) : Nat := if pass = 0 then 0 else if pass = 1 then 10 else 100
def passHi (pass : Nat) : Nat := if pass = 0 then 9 else if pass = 1 then 99 else 100000

/-- What the parser of the page knows: the variables of the sheet and the font's size. -/
structure Context where
  vars : List (Bytes × Bytes)
  fbase : Int

def applyRule (ctx : Context) (top : Frame) (above : List Frame) (pass : Nat) (p : Props)
    (r : Rule) : Props :=
  if r.spec < passLo pass || r.spec > passHi pass then p
  else if ruleMatch r.comp top above then applyDecls ctx.vars ctx.fbase r.decl p
  else p

def computeProps (ctx : Context) (rules : List Rule) (top : Frame) (above : List Frame)
    (a : Bytes) : Props :=
  let p := [0, 1, 2].foldl (fun p pass => rules.foldl (applyRule ctx top above pass) p) propsInit
  let p :=
    match attrFind (ascii "style") none a with
    | some v => if v ≠ [] then applyDecls ctx.vars ctx.fbase v p else p
    | none => p
  if (attrFind (ascii "hidden") none a).isSome then { p with display := 1 } else p

/-- The selectors of a style sheet with their blocks, in the order of appearance. -/
abbrev Sheet := List (Selector × Bytes)

def rulesOf (sheet : Sheet) : List Rule :=
  sheet.foldl (fun rules d => addRule rules d.1.text d.2) []

def lastFor (q : Property) : List Setting → Option Setting
  | [] => none
  | s :: settings => (lastFor q settings).or (if s.property = q then some s else none)

def declared (ctx : Context) (q : Property) (block : Bytes) : Option Setting :=
  lastFor q (blockSettings ctx.vars ctx.fbase block)

def styleBlock (a : Bytes) : Bytes := (attrFind (ascii "style") none a).getD []

def Competes (ctx : Context) (sheet : Sheet) (top : Frame) (above : List Frame) (q : Property)
    (i : Nat) (d : Selector × Bytes) : Prop :=
  sheet[i]? = some d ∧ d.1.Selects top above ∧ (declared ctx q d.2).isSome

/-- The value of a property: by the style attribute, or else by the declaration that is last in
the order of specificity and then of appearance. -/
inductive Cascaded (ctx : Context) (sheet : Sheet) (top : Frame) (above : List Frame) (a : Bytes)
    (q : Property) : Option Nat → Prop
  | style {s : Setting} (own : declared ctx q (styleBlock a) = some s) :
      Cascaded ctx sheet top above a q s.value
  | rule {i : Nat} {d : Selector × Bytes} {s : Setting}
      (none' : declared ctx q (styleBlock a) = none)
      (here : Competes ctx sheet top above q i d)
      (setting : declared ctx q d.2 = some s)
      (last : ∀ j e, Competes ctx sheet top above q j e → j ≠ i →
        toLex (e.1.specificity, j) < toLex (d.1.specificity, i)) :
      Cascaded ctx sheet top above a q s.value
  | unset (none' : declared ctx q (styleBlock a) = none)
      (nowhere : ∀ j e, ¬Competes ctx sheet top above q j e) :
      Cascaded ctx sheet top above a q none

def Selector.pass (s : Selector) : Nat :=
  let weight := s.ids * 100 + s.classes * 10 + s.tags
  if weight ≤ 9 then 0 else if weight ≤ 99 then 1 else 2

/-- Of the rules that set the property for the element, the one that the passes come to last is
the last in the order of specificity. -/
def Orderly (ctx : Context) (sheet : Sheet) (top : Frame) (above : List Frame) (q : Property) :
    Prop :=
  ∀ j e, Competes ctx sheet top above q j e →
    (∀ i d, Competes ctx sheet top above q i d → i ≠ j →
      toLex (Selector.pass d.1, i) < toLex (Selector.pass e.1, j)) →
    ∀ i d, Competes ctx sheet top above q i d → i ≠ j →
      toLex (d.1.specificity, i) < toLex (e.1.specificity, j)

theorem lastFor_append (q : Property) (a b : List Setting) :
    lastFor q (a ++ b) = (lastFor q b).or (lastFor q a) := by
  induction a with
  | nil => rw [List.nil_append, lastFor, Option.or_none]
  | cons s a ih => rw [List.cons_append, lastFor, ih, lastFor, Option.or_assoc]

theorem settings_get (q : Property) (settings : List Setting) (p : Props) :
    (settings.foldl Setting.apply p).get q =
      match lastFor q settings with
      | some s => s.value
      | none => p.get q := by
  induction settings generalizing p with
  | nil => rfl
  | cons s settings ih =>
    rw [List.foldl_cons, ih, lastFor]
    cases lastFor q settings with
    | some last => rfl
    | none =>
      rw [Option.none_or, Setting.apply_get]
      split_ifs <;> rfl

theorem lastFor_flatMap_none {α : Type} {q : Property} {f : α → List Setting} {list : List α} :
    lastFor q (list.flatMap f) = none ↔ ∀ x ∈ list, lastFor q (f x) = none := by
  induction list with
  | nil => simp [lastFor]
  | cons x list ih =>
    rw [List.flatMap_cons, lastFor_append, Option.or_eq_none_iff, ih, List.forall_mem_cons,
      and_comm]

theorem lastFor_flatMap {α : Type} {q : Property} {f : α → List Setting} {list : List α}
    {s : Setting} (found : lastFor q (list.flatMap f) = some s) :
    ∃ before x after, list = before ++ x :: after ∧ lastFor q (f x) = some s ∧
      ∀ y ∈ after, lastFor q (f y) = none := by
  induction list with
  | nil => cases found
  | cons x list ih =>
    rw [List.flatMap_cons, lastFor_append] at found
    cases later : lastFor q (list.flatMap f) with
    | some last =>
      rw [later] at found
      obtain rfl := Option.some.inj found
      obtain ⟨before, y, after, rfl, here, none⟩ := ih later
      exact ⟨x :: before, y, after, rfl, here, none⟩
    | none =>
      rw [later, Option.none_or] at found
      exact ⟨[], x, list, rfl, found, lastFor_flatMap_none.mp later⟩

section Rules

def ruleOf (d : Selector × Bytes) : Rule :=
  ⟨d.1.comps, d.1.ids * 100 + d.1.classes * 10 + d.1.tags, d.2⟩

variable {d : Selector × Bytes}

theorem addRule_plain {rules : List Rule} (room : rules.length < htRules)
    (plain : d.1.Plain) : addRule rules d.1.text d.2 = rules ++ [ruleOf d] := by
  rw [addRule, if_neg (Nat.not_le.mpr room), plain.read]
  exact congrArg (fun weight => rules ++ [⟨d.1.comps, weight, d.2⟩]) (comps_weight plain)

theorem rulesOf_plain {sheet : Sheet} (few : sheet.length ≤ htRules)
    (plain : ∀ d ∈ sheet, d.1.Plain) : rulesOf sheet = sheet.map ruleOf := by
  induction sheet using List.reverseRecOn with
  | nil => rfl
  | append_singleton sheet d ih =>
    rw [List.length_append, List.length_singleton] at few
    have before := ih (by omega) fun e mem => plain e (List.mem_append_left [d] mem)
    have room : (sheet.map ruleOf).length < htRules := by
      rw [List.length_map]
      omega
    rw [rulesOf] at before ⊢
    rw [List.foldl_append, before, List.map_append]
    exact addRule_plain room (plain d (List.mem_append_right sheet (List.mem_singleton_self d)))

theorem sum_le_length {α : Type} {bound : Nat} {f : α → Nat} {list : List α}
    (each : ∀ x ∈ list, f x ≤ bound) : (list.map f).sum ≤ list.length * bound := by
  have total := List.sum_le_card_nsmul (list.map f) bound (by simpa using each)
  rwa [List.length_map, smul_eq_mul] at total

theorem Selector.Plain.compounds {s : Selector} (plain : s.Plain) :
    s.compounds.length ≤ 4 ∧ ∀ c ∈ s.compounds, c.Plain := by
  constructor
  · have short := plain.short
    rw [Selector.compounds, List.length_cons, List.length_map]
    omega
  · intro c mem
    obtain rfl | later := List.mem_cons.mp mem
    · exact plain.first
    · obtain ⟨kc, inside, rfl⟩ := List.mem_map.mp later
      exact (plain.rest kc inside).2

theorem count_le (h : Head) : h.count ≤ 1 := by
  cases h with
  | nothing => exact Nat.zero_le 1
  | any => exact Nat.zero_le 1
  | tag name => exact Nat.le_refl 1

theorem ruleOf_spec_le (plain : d.1.Plain) : (ruleOf d).spec ≤ 100000 := by
  obtain ⟨four, each⟩ := Selector.Plain.compounds plain
  have ids : d.1.ids ≤ d.1.compounds.length * 1 := sum_le_length fun c mem => (each c mem).ids
  have classes : d.1.classes ≤ d.1.compounds.length * 3 :=
    sum_le_length fun c mem => (each c mem).classes
  have tags : d.1.tags ≤ d.1.compounds.length * 1 := sum_le_length fun c _ => count_le c.head
  change d.1.ids * 100 + d.1.classes * 10 + d.1.tags ≤ 100000
  omega

theorem pass_iff (plain : d.1.Plain) {pass : Nat} (known : pass < 3) :
    ¬((ruleOf d).spec < passLo pass ∨ (ruleOf d).spec > passHi pass) ↔
      Selector.pass d.1 = pass := by
  have most := ruleOf_spec_le plain
  have weight : Selector.pass d.1 =
      if (ruleOf d).spec ≤ 9 then 0 else if (ruleOf d).spec ≤ 99 then 1 else 2 := rfl
  rw [weight]
  generalize (ruleOf d).spec = spec at most ⊢
  obtain rfl | rfl | rfl : pass = 0 ∨ pass = 1 ∨ pass = 2 := by omega
  · change ¬(spec < 0 ∨ spec > 9) ↔ _
    refine ⟨fun inside => if_pos (by omega), fun is => ?_⟩
    split_ifs at is
    omega
  · change ¬(spec < 10 ∨ spec > 99) ↔ _
    refine ⟨fun inside => ?_, fun is => ?_⟩
    · rw [if_neg (by omega), if_pos (by omega)]
    · split_ifs at is <;> omega
  · change ¬(spec < 100 ∨ spec > 100000) ↔ _
    refine ⟨fun inside => ?_, fun is => ?_⟩
    · rw [if_neg (by omega), if_neg (by omega)]
    · split_ifs at is <;> omega

theorem pass_lt (s : Selector) : Selector.pass s < 3 := by
  unfold Selector.pass
  dsimp only
  split_ifs <;> omega

end Rules

section Passes

variable (ctx : Context) (top : Frame) (above : List Frame)

def ruleSettings (pass : Nat) (r : Rule) : List Setting :=
  if r.spec < passLo pass || r.spec > passHi pass then []
  else if ruleMatch r.comp top above then blockSettings ctx.vars ctx.fbase r.decl
  else []

theorem applyRule_settings (pass : Nat) (p : Props) (r : Rule) :
    applyRule ctx top above pass p r =
      (ruleSettings ctx top above pass r).foldl Setting.apply p := by
  rw [applyRule, ruleSettings]
  split_ifs <;> rfl

/-- The rules in the order in which the passes come to them, with the pass and the place. -/
def entries (sheet : Sheet) : List (Nat × (Selector × Bytes) × Nat) :=
  [0, 1, 2].flatMap fun pass => sheet.zipIdx.map fun di => (pass, di)

def entrySettings (x : Nat × (Selector × Bytes) × Nat) : List Setting :=
  ruleSettings ctx top above x.1 (ruleOf x.2.1)

theorem passes_settings {sheet : Sheet} (p : Props) :
    [0, 1, 2].foldl
        (fun p pass => (sheet.map ruleOf).foldl (applyRule ctx top above pass) p) p =
      ((entries sheet).flatMap (entrySettings ctx top above)).foldl Setting.apply p := by
  have pass (pass : Nat) (p : Props) :
      (sheet.map ruleOf).foldl (applyRule ctx top above pass) p =
        ((sheet.zipIdx.map fun di => (pass, di)).flatMap
          (entrySettings ctx top above)).foldl Setting.apply p := by
    rw [List.foldl_flatMap, List.foldl_map, List.foldl_map]
    conv_lhs => rw [← List.zipIdx_map_fst 0 sheet, List.foldl_map]
    exact List.foldl_ext _ _ _ fun p di _ => applyRule_settings ctx top above pass p (ruleOf di.1)
  rw [entries, List.flatMap_assoc, List.foldl_flatMap]
  exact List.foldl_ext _ _ _ fun p k _ => pass k p

variable {ctx top above} {sheet : Sheet}

theorem mem_entries {x : Nat × (Selector × Bytes) × Nat} :
    x ∈ entries sheet ↔ x.1 < 3 ∧ sheet[x.2.2]? = some x.2.1 := by
  obtain ⟨pass, d, i⟩ := x
  simp only [entries, List.mem_flatMap, List.mem_map, Prod.mk.injEq]
  constructor
  · rintro ⟨k, known, di, mem, rfl, rfl⟩
    refine ⟨?_, List.mem_zipIdx_iff_getElem?.mp mem⟩
    simp only [List.mem_cons, List.not_mem_nil, or_false] at known
    omega
  · rintro ⟨known, here⟩
    refine ⟨pass, ?_, (d, i), List.mem_zipIdx_iff_getElem?.mpr here, rfl, rfl⟩
    simp only [List.mem_cons, List.not_mem_nil, or_false]
    omega

theorem entries_sorted (sheet : Sheet) :
    (entries sheet).Pairwise fun x y => toLex (x.1, x.2.2) < toLex (y.1, y.2.2) := by
  rw [entries, List.pairwise_flatMap]
  constructor
  · intro pass _
    have places : (sheet.zipIdx.map Prod.snd).Pairwise (· < ·) := by
      rw [List.zipIdx_map_snd]
      exact List.pairwise_lt_range'
    rw [List.pairwise_map] at places ⊢
    refine places.imp ?_
    intro x y less
    exact Prod.Lex.toLex_lt_toLex.mpr (.inr ⟨rfl, less⟩)
  · have ranks : [0, 1, 2].Pairwise (· < ·) := by decide
    refine ranks.imp fun less x first y second => ?_
    obtain ⟨_, _, rfl⟩ := List.mem_map.mp first
    obtain ⟨_, _, rfl⟩ := List.mem_map.mp second
    exact Prod.Lex.toLex_lt_toLex.mpr (.inl less)

theorem entrySettings_some {x : Nat × (Selector × Bytes) × Nat} {q : Property} {s : Setting}
    (plain : x.2.1.1.Plain) (last : ChildrenLast x.2.1.1.steps) (known : x.1 < 3) :
    lastFor q (entrySettings ctx top above x) = some s ↔
      Selector.pass x.2.1.1 = x.1 ∧ x.2.1.1.Selects top above ∧
        declared ctx q x.2.1.2 = some s := by
  have pass := pass_iff plain known
  have selects := ruleMatch_selects plain last top above
  rw [entrySettings, ruleSettings, ← pass, ← selects]
  simp only [Bool.or_eq_true, decide_eq_true_eq]
  split_ifs with band accepted
  · exact ⟨fun found => (by cases found), fun h => absurd band h.1⟩
  · exact ⟨fun found => ⟨band, accepted, found⟩, fun h => h.2.2⟩
  · exact ⟨fun found => (by cases found), fun h => absurd h.2.1 accepted⟩

end Passes

section Cascade

variable {ctx : Context} {sheet : Sheet} {top : Frame} {above : List Frame}

/-- The settings behind the last one of the passes, in the order of the cascade. -/
theorem passes_last (plain : ∀ d ∈ sheet, d.1.Plain) (last : ∀ d ∈ sheet, ChildrenLast d.1.steps)
    {q : Property} (orderly : Orderly ctx sheet top above q) {s : Setting}
    (found : lastFor q ((entries sheet).flatMap (entrySettings ctx top above)) = some s) :
    ∃ i d, Competes ctx sheet top above q i d ∧ declared ctx q d.2 = some s ∧
      ∀ j e, Competes ctx sheet top above q j e → j ≠ i →
        toLex (e.1.specificity, j) < toLex (d.1.specificity, i) := by
  obtain ⟨before, ⟨pass, d, i⟩, after, list, here, none⟩ := lastFor_flatMap found
  have entry (x : Nat × (Selector × Bytes) × Nat) (mem : x ∈ entries sheet) (t : Setting) :
      lastFor q (entrySettings ctx top above x) = some t ↔ Selector.pass x.2.1.1 = x.1 ∧
        x.2.1.1.Selects top above ∧ declared ctx q x.2.1.2 = some t := by
    obtain ⟨known, place⟩ := mem_entries.mp mem
    have listed := List.mem_of_getElem? place
    exact entrySettings_some (plain x.2.1 listed) (last x.2.1 listed) known
  have mem : (pass, d, i) ∈ entries sheet := by
    rw [list]
    exact List.mem_append_right before List.mem_cons_self
  obtain ⟨is, selects, sets⟩ := (entry _ mem s).mp here
  change Selector.pass d.1 = pass at is
  subst is
  have self : Competes ctx sheet top above q i d :=
    ⟨(mem_entries.mp mem).2, selects, Option.isSome_iff_exists.mpr ⟨s, sets⟩⟩
  refine ⟨i, d, self, sets, orderly i d self fun j e competes other => ?_⟩
  obtain ⟨place, chosen, some'⟩ := competes
  obtain ⟨t, setting⟩ := Option.isSome_iff_exists.mp some'
  have mem' : (Selector.pass e.1, e, j) ∈ entries sheet :=
    mem_entries.mpr ⟨pass_lt e.1, place⟩
  have makes := (entry _ mem' t).mpr ⟨rfl, chosen, setting⟩
  have sorted := entries_sorted sheet
  rw [list] at mem' sorted
  obtain early | equal | late := by simpa only [List.mem_append, List.mem_cons] using mem'
  · exact (List.pairwise_append.mp sorted).2.2 _ early _ List.mem_cons_self
  · exact absurd (congrArg (fun x => x.2.2) equal) other
  · rw [none _ late] at makes
    cases makes

theorem computeProps_settings (few : sheet.length ≤ htRules) (plain : ∀ d ∈ sheet, d.1.Plain)
    (a : Bytes) :
    computeProps ctx (rulesOf sheet) top above a =
      let p := ((entries sheet).flatMap (entrySettings ctx top above) ++
        blockSettings ctx.vars ctx.fbase (styleBlock a)).foldl Setting.apply propsInit
      if (attrFind (ascii "hidden") none a).isSome then { p with display := 1 } else p := by
  have style (p : Props) :
      (match attrFind (ascii "style") none a with
        | some v => if v ≠ [] then applyDecls ctx.vars ctx.fbase v p else p
        | none => p) =
        (blockSettings ctx.vars ctx.fbase (styleBlock a)).foldl Setting.apply p := by
    rw [styleBlock]
    cases attrFind (ascii "style") none a with
    | none => rfl
    | some v =>
      by_cases empty : v = []
      · subst empty
        rfl
      · exact if_pos empty
  rw [computeProps, rulesOf_plain few plain, passes_settings, List.foldl_append]
  dsimp only
  rw [style]

theorem propsInit_get (q : Property) : propsInit.get q = none := by
  cases q with
  | field f => cases f <;> rfl
  | _ => rfl

theorem hidden_get (p : Props) (q : Property) (hidden : Prop) [Decidable hidden]
    (shown : q = .field .display → ¬hidden) :
    (if hidden then { p with display := 1 } else p).get q = p.get q := by
  split_ifs with is
  · cases q with
    | field f => cases f <;> first | rfl | exact absurd is (shown rfl)
    | _ => rfl
  · rfl

/-- The rules of a sheet match as their selectors select, and a property has the value of the
cascade where the passes keep the order of specificity; `hidden` comes behind everything. -/
theorem computeProps_cascades (ctx : Context) (sheet : Sheet) (top : Frame) (above : List Frame)
    (a : Bytes) (few : sheet.length ≤ htRules) (plain : ∀ d ∈ sheet, d.1.Plain)
    (last : ∀ d ∈ sheet, ChildrenLast d.1.steps) :
    (∀ (i : Nat) (d : Selector × Bytes), sheet[i]? = some d →
      ∃ r, (rulesOf sheet)[i]? = some r ∧
        (ruleMatch r.comp top above = true ↔ d.1.Selects top above)) ∧
    (∀ q, Orderly ctx sheet top above q →
      (q = .field .display → attrFind (ascii "hidden") none a = none) →
        Cascaded ctx sheet top above a q
          ((computeProps ctx (rulesOf sheet) top above a).get q)) ∧
    ((attrFind (ascii "hidden") none a).isSome →
      (computeProps ctx (rulesOf sheet) top above a).get (.field .display) = some 1) := by
  refine ⟨?_, ?_, ?_⟩
  · intro i d here
    have mem := List.mem_of_getElem? here
    refine ⟨ruleOf d, ?_, ruleMatch_selects (plain d mem) (last d mem) top above⟩
    rw [rulesOf_plain few plain, List.getElem?_map, here]
    rfl
  · intro q orderly shown
    have visible : q = .field .display →
        ¬(attrFind (ascii "hidden") none a).isSome = true := by
      intro display
      rw [shown display]
      exact Bool.false_ne_true
    rw [computeProps_settings few plain]
    dsimp only
    rw [hidden_get _ _ _ visible, settings_get, lastFor_append, propsInit_get]
    cases own : lastFor q (blockSettings ctx.vars ctx.fbase (styleBlock a)) with
    | some s => exact .style own
    | none =>
      rw [Option.none_or]
      cases found : lastFor q ((entries sheet).flatMap (entrySettings ctx top above)) with
      | some s =>
        obtain ⟨i, d, here, setting, most⟩ := passes_last plain last orderly found
        exact .rule own here setting most
      | none =>
        refine .unset own fun j e competes => ?_
        obtain ⟨place, chosen, some'⟩ := competes
        obtain ⟨t, setting⟩ := Option.isSome_iff_exists.mp some'
        have mem := List.mem_of_getElem? place
        have makes := (entrySettings_some (x := (Selector.pass e.1, e, j)) (plain e mem)
          (last e mem) (pass_lt e.1)).mpr ⟨rfl, chosen, setting⟩
        rw [lastFor_flatMap_none.mp found _ (mem_entries.mpr ⟨pass_lt e.1, place⟩)] at makes
        cases makes
  · intro hidden
    rw [computeProps_settings few plain]
    dsimp only
    rw [if_pos hidden]
    rfl

/-- A paragraph in an element of the class, with the rule of the class in front of the other. -/
def classRule : Sheet :=
  [(⟨⟨.nothing, [.cls (ascii "x")]⟩, [(.descendant [0x20], ⟨.tag (ascii "p"), []⟩)]⟩,
      ascii "color:#405060"),
    (⟨⟨.tag (ascii "p"), []⟩, []⟩, ascii "color:#102030")]

theorem computeProps_cascades_class :
    Cascaded ⟨[], 16⟩ classRule ⟨1, none, none⟩ [⟨6, none, some (ascii "x y")⟩] [] .color
      (some 0xFF405060) := by
  have tag : (⟨.tag (ascii "p"), []⟩ : Compound).Plain :=
    ⟨fun name is => (by cases is; decide +kernel), fun p mem => (by cases mem), by decide,
      by decide, by decide⟩
  have cls : (⟨.nothing, [.cls (ascii "x")]⟩ : Compound).Plain :=
    ⟨fun name is => (by cases is), by decide, by decide, by decide, by decide⟩
  have plain : ∀ d ∈ classRule, d.1.Plain := by
    intro d mem
    obtain rfl | rfl : d = _ ∨ d = _ := by simpa [classRule] using mem
    · refine ⟨cls, fun kc inside => ?_, by decide⟩
      obtain rfl := List.mem_singleton.mp inside
      exact ⟨⟨rfl, by decide⟩, tag⟩
    · exact ⟨tag, fun kc inside => (by cases inside), by decide⟩
  have last : ∀ d ∈ classRule, ChildrenLast d.1.steps := by
    intro d mem
    obtain rfl | rfl : d = _ ∨ d = _ := by simpa [classRule] using mem
    · trivial
    · trivial
  have orderly : Orderly ⟨[], 16⟩ classRule ⟨1, none, none⟩ [⟨6, none, some (ascii "x y")⟩]
      .color := by
    intro j e there latest i d here other
    have less := latest i d here other
    obtain ⟨there, -⟩ := there
    obtain ⟨here, -⟩ := here
    have first := (List.getElem?_eq_some_iff.mp here).1
    have second := (List.getElem?_eq_some_iff.mp there).1
    change i < 2 at first
    change j < 2 at second
    obtain rfl | rfl : i = 0 ∨ i = 1 := by omega
    all_goals
      obtain rfl | rfl : j = 0 ∨ j = 1 := by omega
      all_goals
        cases here
        cases there
        revert other less
        decide
  have cascaded := (computeProps_cascades ⟨[], 16⟩ classRule ⟨1, none, none⟩
    [⟨6, none, some (ascii "x y")⟩] [] (by decide) plain last).2.1 .color orderly
    (fun other => by cases other)
  have value : (computeProps ⟨[], 16⟩ (rulesOf classRule) ⟨1, none, none⟩
      [⟨6, none, some (ascii "x y")⟩] []).get .color = some 0xFF405060 := by decide +kernel
  rwa [value] at cascaded

/-- `hidden` wins over the style attribute. -/
theorem hidden_over_style :
    ¬Cascaded ⟨[], 16⟩ [] ⟨6, none, none⟩ [] (ascii "style=display:block hidden")
      (.field .display)
      ((computeProps ⟨[], 16⟩ [] ⟨6, none, none⟩ [] (ascii "style=display:block hidden")).get
        (.field .display)) := by
  have value : (computeProps ⟨[], 16⟩ [] ⟨6, none, none⟩ []
      (ascii "style=display:block hidden")).get (.field .display) = some 1 := by decide +kernel
  have own : declared ⟨[], 16⟩ (.field .display) (styleBlock (ascii "style=display:block hidden")) =
      some (.field .display 2) := by decide +kernel
  intro cascaded
  generalize (computeProps ⟨[], 16⟩ [] ⟨6, none, none⟩ []
    (ascii "style=display:block hidden")).get (.field .display) = v at cascaded value
  cases cascaded with
  | style is =>
    rw [own] at is
    obtain rfl := Option.some.inj is
    cases value
  | rule none' =>
    rw [own] at none'
    cases none'
  | unset none' =>
    rw [own] at none'
    cases none'

end Cascade

end XinuRpi5.System.CssCascade
