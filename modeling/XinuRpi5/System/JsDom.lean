/- source: system/js.c
   digest: The page's elements that a script may fill, and the page written out with them. -/

import XinuRpi5.Lib.Splicing
import XinuRpi5.System.JsStore

/-!
An element is a range of the page's text: no tree is built, so an element inside another one
is just a later range.
-/

namespace XinuRpi5.System.JsDom

open JsStore Lib.Splicing

def domMaxnode : Nat := 256

/-- `dom_html` and `dom_html_len`; the comparison of names may look behind the text. -/
structure Page where
  byte : Nat → Char
  len : Nat

/-- An entry of `dom`; the string that `repl` refers to stands for it. -/
structure Node where
  tagOff : Nat
  innerA : Nat
  innerB : Nat
  attrA : Nat
  attrB : Nat
  repl : Option Str

def domEqn (a b : Nat → Char) (n : Nat) : Bool := (List.range n).all fun i => a i == b i

def key : Str :=
  ['d', 'a', 't', 'a', '-', 'i', '1', '8', 'n', '=', '"']

def Page.from (page : Page) (i : Nat) : Nat → Char := fun j => page.byte (i + j)

/-- The loop for `lt`. -/
def tagHead (page : Page) : Nat → Nat
  | 0 => 0
  | lt + 1 => if page.byte (lt + 1) = '<' then lt + 1 else tagHead page lt

/-- The loops for `te` and `gt`, with the number of places left. -/
def scanTo (page : Page) (stop : Char → Bool) : Nat → Nat → Nat
  | 0, p => p
  | left + 1, p => if stop (page.byte p) then p else scanTo page stop left (p + 1)

def nameEnds (c : Char) : Bool := c == ' ' || c == '>' || c == '/'

/-- The loop over same-named tags up to the end tag; `none` is the `inner_b` of -1. -/
def innerEnd (page : Page) (ts size : Nat) : Nat → Nat → Nat → Option Nat
  | 0, _, _ => none
  | left + 1, p, depth =>
    if page.byte p = '<' then
      if page.byte (p + 1) = '/' then
        if domEqn (page.from (p + 2)) (page.from ts) size then
          if depth = 1 then some p else innerEnd page ts size left (p + 1) (depth - 1)
        else innerEnd page ts size left (p + 1) depth
      else if domEqn (page.from (p + 1)) (page.from ts) size then
        innerEnd page ts size left (p + 1) (depth + 1)
      else innerEnd page ts size left (p + 1) depth
    else innerEnd page ts size left (p + 1) depth

/-- The body of the loop of `js_dom_load`; `none` is its `continue`. -/
def nodeAt (page : Page) (i : Nat) : Option Node :=
  if domEqn (page.from i) (key.getD · '\x00') 11 then
    let lt := tagHead page i
    if page.byte lt = '<' then
      let ts := lt + 1
      let te := scanTo page nameEnds (page.len - ts) ts
      let gt := scanTo page (· == '>') (page.len - te) te
      if gt < page.len then
        let innerA := gt + 1
        let innerB := (innerEnd page ts (te - ts) (page.len - 1 - innerA) innerA 1).getD innerA
        some ⟨ts, innerA, innerB, te, gt, none⟩
      else none
    else none
  else none

/-- The next node from place `i` on. -/
def findNode (page : Page) : Nat → Nat → Option Node
  | 0, _ => none
  | left + 1, i => (nodeAt page i).or (findNode page left (i + 1))

/-- The search goes on behind the node's start tag, where it may come upon the same text
again. -/
def loadFrom (page : Page) : Nat → Nat → List Node
  | 0, _ => []
  | room + 1, i =>
    match findNode page (page.len - 11 - i) i with
    | none => []
    | some n => n :: loadFrom page room (n.attrB + 1)

def jsDomLoad (page : Page) : List Node := loadFrom page domMaxnode 0

/-- The assignment of `innerHTML` in `js_host_setmember`, to node `k`. -/
def setInner (dom : List Node) (k : Int) (v : Str) : List Node :=
  if 0 ≤ k ∧ k < dom.length then dom.modify k.toNat fun n => { n with repl := some v } else dom

/-- A loop that copies the page from `p` up to `stop`, with the number of places left. -/
def copyPage (page : Page) (room : Nat) : Nat → Nat → Str → Str
  | 0, _, dst => dst
  | left + 1, p, dst =>
    if dst.length < room then copyPage page room left (p + 1) (dst ++ [page.byte p]) else dst

def copyText (room : Nat) : Str → Str → Str
  | [], dst => dst
  | c :: r, dst => if dst.length < room then copyText room r (dst ++ [c]) else dst

/-- The loops of `js_dom_render`: the text so far and the place in the page. -/
def renderFrom (page : Page) (room : Nat) : List Node → Nat → Str → Str
  | [], p, dst => copyPage page room (page.len - p) p dst
  | n :: dom, p, dst =>
    if dst.length < room then
      match n.repl with
      | none => renderFrom page room dom p dst
      | some r =>
        renderFrom page room dom n.innerB
          (copyText room r (copyPage page room (n.innerA - p) p dst))
    else copyPage page room (page.len - p) p dst

def jsDomRender (page : Page) (dom : List Node) (cap : Nat) : Str :=
  renderFrom page (cap - 1) dom 0 []

section Ranges

theorem tagHead_last (page : Page) {k i : Nat} (head : page.byte k = '<') (le : k ≤ i) :
    k ≤ tagHead page i := by
  induction i with
  | zero => exact le
  | succ i ih =>
    unfold tagHead
    split
    case isTrue => exact le
    case isFalse other =>
        have differs : k ≠ i + 1 := fun same => other (same ▸ head)
        exact ih (by omega)

structure Stops (page : Page) (stop : Char → Bool) (p r : Nat) : Prop where
  behind : p ≤ r
  passed : ∀ k, p ≤ k → k < r → stop (page.byte k) = false
  within : r ≤ max p page.len
  stopped : r < page.len → stop (page.byte r) = true

theorem scanTo_stops (page : Page) (stop : Char → Bool) {left p : Nat} (rest : page.len - p = left) :
    Stops page stop p (scanTo page stop left p) := by
  induction left generalizing p with
  | zero =>
    unfold scanTo
    exact ⟨Nat.le_refl _, fun k _ _ => by omega, by omega, fun _ => by omega⟩
  | succ left ih =>
    unfold scanTo
    split
    case isTrue here => exact ⟨Nat.le_refl _, fun k _ _ => by omega, by omega, fun _ => here⟩
    case isFalse here =>
        have next := ih (p := p + 1) (by omega)
        refine ⟨?_, fun k low high => ?_, ?_, next.stopped⟩
        · exact Nat.le_of_succ_le next.behind
        · rcases Nat.eq_or_lt_of_le low with same | later
          · exact same ▸ Bool.eq_false_iff.mpr here
          · exact next.passed k later high
        · have := next.within
          omega

theorem Stops.mono {page : Page} {stop : Char → Bool} {p q r s : Nat} (early : Stops page stop p r)
    (late : Stops page stop q s) (le : p ≤ q) : r ≤ s := by
  by_contra before
  have start := late.behind
  have limit := early.within
  have passed := early.passed s (by omega) (by omega)
  have stopped := late.stopped (by omega)
  rw [passed] at stopped
  cases stopped

variable {page : Page} {i : Nat} {n : Node}

theorem innerEnd_bounds {ts size left p depth e : Nat}
    (found : innerEnd page ts size left p depth = some e) : p ≤ e ∧ e < p + left := by
  induction left generalizing p depth with
  | zero => cases found
  | succ left ih =>
    unfold innerEnd at found
    have later : ∀ {d : Nat}, innerEnd page ts size left (p + 1) d = some e →
        p ≤ e ∧ e < p + (left + 1) := by
      intro d next
      have := ih next
      omega
    split_ifs at found
    · cases found
      omega
    all_goals exact later found

/-- What `js_dom_load` notes of an element. -/
structure Found (page : Page) (i : Nat) (n : Node) : Prop where
  tag : n.tagOff = tagHead page i + 1
  head : page.byte (tagHead page i) = '<'
  name : Stops page nameEnds n.tagOff n.attrA
  attrs : Stops page (· == '>') n.attrA n.attrB
  inside : n.attrB < page.len
  inner : n.innerA = n.attrB + 1
  range : n.innerA ≤ n.innerB ∧ n.innerB ≤ page.len
  fresh : n.repl = none

theorem nodeAt_found (node : nodeAt page i = some n) :
    Found page i n := by
  unfold nodeAt at node
  simp only at node
  split_ifs at node with _ head inside
  obtain rfl := Option.some.inj node
  refine ⟨rfl, head, scanTo_stops page _ rfl, scanTo_stops page _ rfl, inside, rfl, ?_, rfl⟩
  simp only
  cases ends : innerEnd page _ _ _ _ 1 with
  | none => exact ⟨Nat.le_refl _, inside⟩
  | some e =>
    have bounds := innerEnd_bounds ends
    simp only [Option.getD_some]
    omega

theorem findNode_found {left : Nat}
    (node : findNode page left i = some n) : ∃ j, i ≤ j ∧ Found page j n := by
  induction left generalizing i with
  | zero => cases node
  | succ left ih =>
    unfold findNode at node
    rcases Option.or_eq_some_iff.mp node with here | ⟨_, later⟩
    · exact ⟨i, Nat.le_refl i, nodeAt_found here⟩
    · obtain ⟨j, le, found⟩ := ih later
      exact ⟨j, by omega, found⟩

theorem Found.later {j : Nat} {m : Node} (first : Found page i m)
    (second : Found page j n) (behind : m.tagOff ≤ j) : m.attrB ≤ n.attrB := by
  have heads : tagHead page i ≤ tagHead page j := by
    apply tagHead_last page first.head
    have := first.tag
    omega
  have tags : m.tagOff ≤ n.tagOff := by
    rw [first.tag, second.tag]
    exact Nat.add_le_add_right heads 1
  exact first.attrs.mono second.attrs (first.name.mono second.name tags)

theorem Found.tag_le (found : Found page i n) :
    n.tagOff ≤ n.attrB :=
  Nat.le_trans found.name.behind found.attrs.behind

theorem loadFrom_found {room : Nat} (mem : n ∈ loadFrom page room i) :
    ∃ j, Found page j n := by
  induction room generalizing i with
  | zero => cases mem
  | succ room ih =>
    unfold loadFrom at mem
    split at mem
    case h_1 => cases mem
    case h_2 m node =>
        obtain ⟨j, _, found⟩ := findNode_found node
        rcases List.mem_cons.mp mem with same | mem
        · exact ⟨j, same ▸ found⟩
        · exact ih mem

theorem loadFrom_later {room k : Nat} {m : Node} (first : Found page k m)
    (behind : m.tagOff ≤ i) : ∀ n ∈ loadFrom page room i, m.attrB ≤ n.attrB := by
  induction room generalizing i k m with
  | zero => exact nofun
  | succ room ih =>
    intro n mem
    unfold loadFrom at mem
    split at mem
    case h_1 => cases mem
    case h_2 l node =>
        obtain ⟨j, le, found⟩ := findNode_found node
        have step := first.later found (Nat.le_trans behind le)
        rcases List.mem_cons.mp mem with same | mem
        · exact same ▸ step
        · exact Nat.le_trans step (ih found (Nat.le_succ_of_le found.tag_le) n mem)

theorem loadFrom_sorted (page : Page) (room i : Nat) :
    (loadFrom page room i).Pairwise fun m n => m.innerA ≤ n.innerA := by
  induction room generalizing i with
  | zero => exact List.Pairwise.nil
  | succ room ih =>
    unfold loadFrom
    split
    case h_1 => exact List.Pairwise.nil
    case h_2 m node =>
        obtain ⟨j, _, found⟩ := findNode_found node
        refine List.pairwise_cons.mpr ⟨fun n mem => ?_, ih _⟩
        have later := loadFrom_later found (Nat.le_succ_of_le found.tag_le) n mem
        obtain ⟨k, other⟩ := loadFrom_found mem
        rw [found.inner, other.inner]
        exact Nat.add_le_add_right later 1

end Ranges

/-- The replacements of the assigned elements, in the order of the elements. -/
def assigned (dom : List Node) : List (Patch Char) :=
  dom.filterMap fun n => n.repl.map fun r => ⟨n.innerA, n.innerB, r⟩

def setAll (dom : List Node) (sets : List (Int × Str)) : List Node :=
  sets.foldl (fun dom set => setInner dom set.1 set.2) dom

def ranges (dom : List Node) : List (Nat × Nat) := dom.map fun n => (n.innerA, n.innerB)

theorem ranges_setInner (dom : List Node) (k : Int) (v : Str) :
    ranges (setInner dom k v) = ranges dom := by
  unfold setInner ranges
  split
  · apply List.ext_getElem?
    intro i
    rw [List.getElem?_map, List.getElem?_map, List.getElem?_modify]
    cases dom[i]? <;> simp only [Option.map_none, Option.map_some] <;> split <;> rfl
  · rfl

theorem ranges_setAll (dom : List Node) (sets : List (Int × Str)) :
    ranges (setAll dom sets) = ranges dom := by
  induction sets generalizing dom with
  | nil => rfl
  | cons set sets ih => exact (ih _).trans (ranges_setInner dom set.1 set.2)

theorem assigned_ordered (page : Page) (sets : List (Int × Str)) :
    Ordered page.len (assigned (setAll (jsDomLoad page) sets)) := by
  have same := ranges_setAll (jsDomLoad page) sets
  have sorted : (ranges (jsDomLoad page)).Pairwise fun a b => a.1 ≤ b.1 :=
    List.pairwise_map.mpr (loadFrom_sorted page domMaxnode 0)
  have bounds : ∀ r ∈ ranges (jsDomLoad page), r.1 ≤ r.2 ∧ r.2 ≤ page.len := by
    intro r mem
    obtain ⟨n, node, rfl⟩ := List.mem_map.mp mem
    obtain ⟨j, found⟩ := loadFrom_found node
    exact found.range
  rw [← same] at sorted bounds
  constructor
  · refine List.pairwise_filterMap.mpr ((List.pairwise_map.mp sorted).imp ?_)
    intro m n le a left b right
    obtain ⟨r, _, rfl⟩ := Option.map_eq_some_iff.mp left
    obtain ⟨t, _, rfl⟩ := Option.map_eq_some_iff.mp right
    exact le
  · intro k mem
    obtain ⟨n, node, patch⟩ := List.mem_filterMap.mp mem
    obtain ⟨r, _, rfl⟩ := Option.map_eq_some_iff.mp patch
    exact bounds _ (List.mem_map.mpr ⟨n, node, rfl⟩)

theorem copyText_take {room : Nat} {r dst : Str} (fits : dst.length ≤ room) :
    copyText room r dst = (dst ++ r).take room := by
  induction r generalizing dst with
  | nil => rw [copyText, List.append_nil, List.take_of_length_le fits]
  | cons c r ih =>
    unfold copyText
    split
    case isTrue free =>
        have one : (dst ++ [c]).length ≤ room := by
          rw [List.length_append]
          exact free
        rw [ih one, List.append_assoc, List.singleton_append]
    case isFalse full =>
        have exact_room : room = dst.length := by omega
        rw [exact_room, List.take_left]

theorem take_again (room : Nat) (a b : Str) : (a.take room ++ b).take room = (a ++ b).take room := by
  have left : room - (a.take room).length = room - a.length := by
    rw [List.length_take]
    omega
  rw [List.take_append, List.take_append, List.take_take, Nat.min_self, left]

theorem copyPage_text (page : Page) (room b : Nat) {left p : Nat} (rest : b - p = left)
    (dst : Str) : copyPage page room left p dst = copyText room (slice page.byte p b) dst := by
  induction left generalizing p dst with
  | zero => rw [slice_nil page.byte (by omega)]; rfl
  | succ left ih =>
    rw [slice_cons page.byte (by omega), copyPage, copyText, ih (by omega)]

theorem renderFrom_pass (page : Page) {room : Nat} {dom : List Node} {p : Nat} {dst : Str}
    (fits : dst.length ≤ room) :
    renderFrom page room dom p dst =
      (dst ++ pass page.byte page.len (assigned dom) p).take room := by
  induction dom generalizing p dst with
  | nil => exact (copyPage_text page room page.len rfl dst).trans (copyText_take fits)
  | cons n dom ih =>
    unfold renderFrom
    split
    case isTrue =>
        split
        case h_1 none =>
            have skip : assigned (n :: dom) = assigned dom := by simp [assigned, none]
            rw [ih fits, skip]
        case h_2 r some =>
            have next : assigned (n :: dom) = ⟨n.innerA, n.innerB, r⟩ :: assigned dom := by
              simp [assigned, some]
            rw [copyPage_text page room n.innerA rfl, copyText_take fits,
              copyText_take (List.length_take_le _ _), ih (List.length_take_le _ _), next, Lib.Splicing.pass,
              take_again, List.append_assoc, take_again]
            simp only [List.append_assoc]
    case isFalse full =>
        have exact_room : room = dst.length := by omega
        rw [copyPage_text page room page.len rfl, copyText_take fits, exact_room, List.take_left,
          List.take_left]

theorem jsDomRender_pass (page : Page) (dom : List Node) (cap : Nat) :
    jsDomRender page dom cap =
      (pass page.byte page.len (assigned dom) 0).take (cap - 1) :=
  renderFrom_pass page (Nat.zero_le _)

/-- The page is written out with the outermost assigned elements replaced, exactly where no
element inside another one has a text of its own or ends before the end of the outer one. -/
theorem render_splices_iff (page : Page) (sets : List (Int × Str)) :
    (∀ cap, jsDomRender page (setAll (jsDomLoad page) sets) cap =
      (spliced page.byte page.len (assigned (setAll (jsDomLoad page) sets))).take (cap - 1)) ↔
      Clean page.len (assigned (setAll (jsDomLoad page) sets)) := by
  rw [← pass_eq_spliced_iff page.byte (assigned_ordered page sets)]
  simp only [jsDomRender_pass]
  constructor
  · intro same
    have whole := same (max (pass page.byte page.len
      (assigned (setAll (jsDomLoad page) sets)) 0).length (spliced page.byte page.len
      (assigned (setAll (jsDomLoad page) sets))).length + 1)
    rwa [Nat.add_sub_cancel, List.take_of_length_le (Nat.le_max_left _ _),
      List.take_of_length_le (Nat.le_max_right _ _)] at whole
  · intro same cap
    rw [same]

theorem render_splices_unnested (page : Page) (sets : List (Int × Str)) (cap : Nat)
    (apart : ∀ n, ¬Nested (assigned (setAll (jsDomLoad page) sets)) n) :
    jsDomRender page (setAll (jsDomLoad page) sets) cap =
      (spliced page.byte page.len (assigned (setAll (jsDomLoad page) sets))).take (cap - 1) := by
  have order := assigned_ordered page sets
  rw [jsDomRender_pass,
    (pass_eq_spliced_iff page.byte order).mpr (clean_of_unnested order apart)]

/-- `<p data-i18n="a"><b data-i18n="b">y</b>z</p>`. -/
def nestedPage : Page where
  byte i := ("<p data-i18n=\"a\"><b data-i18n=\"b\">y</b>z</p>".toList).getD i '\x00'
  len := 44

/-- Behind the inner element's text stands what was left of the outer one's. -/
theorem nested_text_returns :
    jsDomRender nestedPage (setAll (jsDomLoad nestedPage) [(0, ['A']), (1, ['B'])]) 100 =
        "<p data-i18n=\"a\">AB</b>z</p>".toList ∧
      (spliced nestedPage.byte nestedPage.len (assigned (setAll (jsDomLoad nestedPage)
        [(0, ['A']), (1, ['B'])]))).take 99 = "<p data-i18n=\"a\">A</p>".toList := by
  decide +kernel

end XinuRpi5.System.JsDom
