/- source: device/video/wm.c
   digest: The intrusive window list plays a stack of distinct windows with one focus. -/

import Mathlib
import XinuRpi5.Lib.LinkedChain
import XinuRpi5.Lib.WhileLoop

namespace XinuRpi5.Video.WindowList

open Lib.LinkedChain Lib.WhileLoop

section Model

structure Area where
  x : Int
  y : Int
  width : Int
  height : Int

/-- `wm_head`, the fields of the windows by their addresses, and the viewport. -/
structure Desktop (ω : Type) where
  head : Option ω
  next : ω → Option ω
  focused : ω → Bool
  area : ω → Area
  vpX : Int
  vpY : Int

variable {ω : Type} [DecidableEq ω]

def Desktop.setNext (d : Desktop ω) (w : ω) (v : Option ω) : Desktop ω :=
  { d with next := Function.update d.next w v }

def Desktop.setFocused (d : Desktop ω) (w : ω) (v : Bool) : Desktop ω :=
  { d with focused := Function.update d.focused w v }

def Desktop.under (d : Desktop ω) (sx sy : Int) (w : ω) : Bool :=
  let dx := sx + d.vpX
  let dy := sy + d.vpY
  let a := d.area w
  decide (a.x ≤ dx ∧ dx < a.x + a.width ∧ a.y ≤ dy ∧ dy < a.y + a.height)

/-- `while (t->next) t = t->next`; a loop that does not end has no result. -/
def last (d : Desktop ω) (t : ω) : Option ω := whileLoop t (fun t => (d.next t).isSome) d.next

/-- `while (p->next && p->next != w) p = p->next`. -/
def before (d : Desktop ω) (w p : ω) : Option ω :=
  whileLoop p (fun p => (d.next p).isSome && d.next p != some w) d.next

def isShownFrom (d : Desktop ω) (w : ω) (p : Option ω) : Option Bool :=
  (whileLoop p (fun p => p.isSome && p != some w) fun p => p.map d.next).map Option.isSome

def wmIsShown (d : Desktop ω) (w : ω) : Option Bool := isShownFrom d w d.head

def unfocusFrom (d : Desktop ω) (p : Option ω) : Option (Desktop ω) :=
  (whileLoop (d, p) (fun s => s.2.isSome) fun s =>
    s.2.map fun a => (s.1.setFocused a false, s.1.next a)).map Prod.fst

def hitFrom (d : Desktop ω) (sx sy : Int) (hit p : Option ω) : Option (Option ω) :=
  (whileLoop (hit, p) (fun s => s.2.isSome) fun s =>
    s.2.map fun a => (if d.under sx sy a then some a else s.1, d.next a)).map Prod.fst

def wmWindowAt (d : Desktop ω) (sx sy : Int) : Option (Option ω) := hitFrom d sx sy none d.head

def unlink (d : Desktop ω) (w : ω) : Option (Desktop ω) :=
  if d.head = some w then some { d with head := d.next w }
  else
    match d.head with
    | none => none
    | some h => do
      let p ← before d w h
      if d.next p = some w then some (d.setNext p (d.next w)) else some d

def append (d : Desktop ω) (w : ω) : Option (Desktop ω) :=
  let d := d.setNext w none
  match d.head with
  | none => some { d with head := some w }
  | some h => do
    let t ← last d h
    some (d.setNext t (some w))

def wmAdd (d : Desktop ω) (w : ω) : Option (Desktop ω) := append d w

def wmShow (d : Desktop ω) (w : ω) : Option (Desktop ω) := do
  let shown ← wmIsShown d w
  let d ← if shown then some d else wmAdd d w
  let d ← unfocusFrom d d.head
  let d := d.setFocused w true
  if d.head = some w ∧ d.next w = none then some d
  else do
    let d ← unlink d w
    append d w

def wmFocusAt (d : Desktop ω) (sx sy : Int) : Option (Option ω × Desktop ω) := do
  match ← hitFrom d sx sy none d.head with
  | none => some (none, d)
  | some hit => do
    let d ← unfocusFrom d d.head
    let d := d.setFocused hit true
    if d.next hit = none then some (some hit, d)
    else do
      let d ← unlink d hit
      let d ← append d hit
      some (some hit, d)

def wmRemove (d : Desktop ω) (w : ω) : Option (Desktop ω) :=
  if d.head = none then some d
  else do
    let d ← unlink d w
    let d := d.setNext w none
    if d.focused w then do
      let d := d.setFocused w false
      match d.head with
      | none => some d
      | some h => do
        let t ← last d h
        some (d.setFocused t true)
    else some d

inductive Event (ω : Type) where
  | add (w : ω)
  | show (w : ω)
  | focusAt (sx sy : Int)
  | remove (w : ω)

def perform (d : Desktop ω) : Event ω → Option (Desktop ω)
  | .add w => wmAdd d w
  | .show w => wmShow d w
  | .focusAt sx sy => (wmFocusAt d sx sy).map Prod.snd
  | .remove w => wmRemove d w

end Model

section Stack

variable {ω : Type} [DecidableEq ω]

/-- The windows from the bottom to the top, and the focused one of them. -/
structure Stack (ω : Type) where
  windows : List ω
  focus : Option ω

def topmost (test : ω → Bool) (l : List ω) : Option ω := l.reverse.find? test

def Stack.raise (s : Stack ω) (w : ω) : Stack ω := ⟨s.windows.erase w ++ [w], some w⟩

def Stack.remove (s : Stack ω) (w : ω) : Stack ω :=
  ⟨s.windows.erase w, if s.focus = some w then (s.windows.erase w).getLast? else s.focus⟩

def Stack.step (under : Int → Int → ω → Bool) (s : Stack ω) : Event ω → Stack ω
  | .add w => { s with windows := s.windows ++ [w] }
  | .show w => s.raise w
  | .focusAt sx sy =>
    match topmost (under sx sy) s.windows with
    | none => s
    | some w => s.raise w
  | .remove w => s.remove w

def Allowed (under : Int → Int → ω → Bool) : Stack ω → List (Event ω) → Prop
  | _, [] => True
  | s, e :: es => (∀ w, e = .add w → w ∉ s.windows) ∧ Allowed under (s.step under e) es

end Stack

section Chains

variable {ω : Type}

/-- The links lead from `p` through the list to the null pointer. -/
def Chain (next : ω → Option ω) (p : Option ω) (l : List ω) : Prop :=
  Seg (fun p a => p = some a) next p l none

theorem functional : Functional (fun (p : Option ω) a => p = some a) none where
  unique := fun _ _ _ left right => Option.some.inj (left.symm.trans right)
  null := fun _ => nofun

variable {next : ω → Option ω} {p : Option ω} {l : List ω}

theorem Chain.nodup (chain : Chain next p l) : l.Nodup := Seg.nodup functional chain

theorem Chain.head_eq (chain : Chain next p l) : p = l.head? := by
  cases l with
  | nil => exact chain
  | cons a l => exact chain.1

theorem Chain.congr {next' : ω → Option ω} (chain : Chain next p l)
    (same : ∀ a ∈ l, next' a = next a) : Chain next' p l :=
  Seg.congr chain (fun _ _ _ node => node) same

theorem Chain.cons {a : ω} (chain : Chain next (some a) l) :
    ∃ rest, l = a :: rest ∧ Chain next (next a) rest := by
  cases l with
  | nil => cases chain
  | cons b rest =>
    obtain ⟨same, onward⟩ := chain
    cases same
    exact ⟨rest, rfl, onward⟩

theorem chain_snoc {w : ω} (part : Seg (fun p a => p = some a) next p l (some w))
    (null : next w = none) : Chain next p (l ++ [w]) :=
  seg_snoc.mpr ⟨some w, part, rfl, null⟩

end Chains

section Loops

variable {ω : Type} {d : Desktop ω} {w z t h : ω} {p : Option ω} {l xs ys : List ω}

theorem last_step (d : Desktop ω) (t : ω) :
    last d t = match d.next t with | none => some t | some u => last d u := by
  cases next : d.next t with
  | none => exact whileLoop_done (by rw [next]; rfl)
  | some u => exact whileLoop_round (by rw [next]; rfl) next

theorem last_eq (chain : Chain d.next (some t) (xs ++ [z])) : last d t = some z := by
  induction xs generalizing t with
  | nil =>
    obtain ⟨same, null⟩ := chain
    obtain rfl : t = z := Option.some.inj same
    rw [last_step, show d.next t = none from null]
  | cons a xs ih =>
    obtain ⟨same, onward⟩ := chain
    obtain rfl : t = a := Option.some.inj same
    obtain ⟨u, next⟩ : ∃ u, d.next t = some u := by
      cases next : d.next t with
      | some u => exact ⟨u, rfl⟩
      | none =>
        rw [next] at onward
        cases xs <;> cases onward.1
    rw [last_step, next]
    exact ih (next ▸ onward)

theorem topmost_cons (test : ω → Bool) (a : ω) (l : List ω) :
    topmost test (a :: l) = (topmost test l).or (if test a then some a else none) := by
  rw [topmost, topmost, List.reverse_cons, List.find?_append]
  congr 1
  simp [List.find?_cons]
  cases test a <;> rfl

theorem hitFrom_some (sx sy : Int) (hit : Option ω) (a : ω) : hitFrom d sx sy hit (some a) =
    hitFrom d sx sy (if d.under sx sy a then some a else hit) (d.next a) :=
  congrArg (Option.map Prod.fst) (whileLoop_round rfl rfl)

theorem hit_eq (sx sy : Int) (hit : Option ω) (chain : Chain d.next p l) :
    hitFrom d sx sy hit p = some ((topmost (d.under sx sy) l).or hit) := by
  induction l generalizing p hit with
  | nil =>
    obtain rfl : p = none := chain
    exact congrArg _ (whileLoop_done rfl)
  | cons a l ih =>
    obtain ⟨rfl, onward⟩ := chain
    rw [hitFrom_some, ih _ onward, topmost_cons, Option.or_assoc]
    cases d.under sx sy a <;> rfl

variable [DecidableEq ω]

theorem before_step (d : Desktop ω) (w p : ω) : before d w p =
    match d.next p with | none => some p | some q => if q = w then some p else before d w q := by
  cases next : d.next p with
  | none => exact whileLoop_done (by rw [next]; rfl)
  | some q =>
    by_cases same : q = w
    · simp only [if_pos same]
      exact whileLoop_done (by simp [next, same])
    · simp only [if_neg same]
      exact whileLoop_round (by simp [next, same]) next

/-- The walk stops in front of the window. -/
theorem before_eq (chain : Chain d.next (some h) (xs ++ z :: w :: ys)) (other : w ∉ xs ++ [z]) :
    before d w h = some z := by
  induction xs generalizing h with
  | nil =>
    obtain ⟨same, onward, -⟩ := chain
    obtain rfl : h = z := Option.some.inj same
    rw [before_step, show d.next h = some w from onward]
    exact if_pos rfl
  | cons a xs ih =>
    obtain ⟨same, onward⟩ := chain
    obtain rfl : h = a := Option.some.inj same
    rw [List.append_eq] at onward
    obtain ⟨u, rest, next⟩ : ∃ u rest, xs ++ z :: w :: ys = u :: rest := by
      cases xs with
      | nil => exact ⟨_, _, rfl⟩
      | cons b xs => exact ⟨_, _, rfl⟩
    have node : d.next h = some u := by
      rw [next] at onward
      exact onward.1
    have apart : u ≠ w := by
      rintro rfl
      cases xs with
      | nil =>
        cases next
        simp at other
      | cons b xs =>
        cases next
        simp at other
    rw [before_step, node]
    simp only [if_neg apart]
    exact ih (node ▸ onward) fun member => other (List.mem_cons_of_mem _ member)

theorem before_none (chain : Chain d.next (some h) l) (other : w ∉ l) :
    ∃ z, before d w h = some z ∧ d.next z = none := by
  induction l generalizing h with
  | nil => cases chain
  | cons a l ih =>
    obtain ⟨same, onward⟩ := chain
    obtain rfl : h = a := Option.some.inj same
    rw [before_step]
    cases node : d.next h with
    | none => exact ⟨h, rfl, node⟩
    | some u =>
      rw [node] at onward
      obtain ⟨rest, rfl, -⟩ := Chain.cons onward
      have apart : u ≠ w := by
        rintro rfl
        simp at other
      simp only [if_neg apart]
      exact ih onward fun member => other (List.mem_cons_of_mem _ member)

theorem isShown_eq (chain : Chain d.next p l) : isShownFrom d w p = some (decide (w ∈ l)) := by
  induction l generalizing p with
  | nil =>
    obtain rfl : p = none := chain
    rw [isShownFrom, whileLoop_done rfl]
    rfl
  | cons a l ih =>
    obtain ⟨rfl, onward⟩ := chain
    by_cases same : a = w
    · rw [isShownFrom, whileLoop_done (by simp [same])]
      simp [same]
    · have round : isShownFrom d w (some a) = isShownFrom d w (d.next a) :=
        congrArg (Option.map Option.isSome) (whileLoop_round (by simp [same]) rfl)
      simp only [round, ih onward, List.mem_cons, Ne.symm same, false_or]

theorem unfocus_eq (chain : Chain d.next p l) :
    unfocusFrom d p = some { d with focused := fun v => !decide (v ∈ l) && d.focused v } := by
  induction l generalizing d p with
  | nil =>
    obtain rfl : p = none := chain
    rw [unfocusFrom, whileLoop_done rfl]
    simp
  | cons a l ih =>
    obtain ⟨rfl, onward⟩ := chain
    have round : unfocusFrom d (some a) = unfocusFrom (d.setFocused a false) (d.next a) :=
      congrArg (Option.map Prod.fst) (whileLoop_round rfl rfl)
    rw [round]
    have behind : Chain (d.setFocused a false).next (d.next a) l := onward
    rw [ih behind]
    congr 2
    funext v
    by_cases same : v = a
    · simp [Desktop.setFocused, same]
    · simp [Desktop.setFocused, same]

end Loops

section Links

variable {ω : Type} [DecidableEq ω] {d : Desktop ω} {w : ω} {l : List ω}

theorem append_eq (chain : Chain d.next d.head l) (other : w ∉ l) :
    ∃ h n, append d w = some { d with head := h, next := n } ∧ Chain n h (l ++ [w]) := by
  have kept : Chain (d.setNext w none).next d.head l :=
    chain.congr fun a listed => Function.update_of_ne (ne_of_mem_of_not_mem listed other) _ _
  have null : (d.setNext w none).next w = none := Function.update_self _ _ _
  rw [append, show (d.setNext w none).head = d.head from rfl]
  obtain rfl | ⟨xs, z, rfl⟩ := List.eq_nil_or_concat l
  · rw [show d.head = none from chain]
    exact ⟨some w, _, rfl, rfl, null⟩
  · rw [List.concat_eq_append] at *
    obtain ⟨h, head⟩ : ∃ h, d.head = some h := by
      rw [chain.head_eq]
      cases xs with
      | nil => exact ⟨z, rfl⟩
      | cons a xs => exact ⟨a, rfl⟩
    rw [head] at kept ⊢
    have ends : last (d.setNext w none) h = some z := last_eq kept
    simp only [ends, Option.bind_eq_bind, Option.bind_some]
    refine ⟨d.head, _, rfl, ?_⟩
    rw [head]
    obtain ⟨r, before, node, -⟩ := seg_snoc.mp kept
    have nodup : (xs ++ [z]).Nodup := kept.nodup
    have apart : w ≠ z := fun same => other (by simp [same])
    have fresh : ∀ a ∈ xs, a ≠ z := by
      intro a listed same
      subst same
      exact (List.nodup_append.mp nodup).2.2 a listed a (by simp) rfl
    apply chain_snoc
    · refine seg_snoc.mpr ⟨r, ?_, node, Function.update_self _ _ _⟩
      exact Seg.congr before (fun _ _ _ node => node) fun a listed =>
        Function.update_of_ne (fresh a listed) _ _
    · exact (Function.update_of_ne apart _ _).trans null

theorem erase_middle {xs ys : List ω} (other : w ∉ xs) : (xs ++ w :: ys).erase w = xs ++ ys := by
  rw [List.erase_append_right _ other, List.erase_cons_head]

/-- Taking a window out closes the list around it, and leaves a list without it alone. -/
theorem unlink_eq (chain : Chain d.next d.head l) (some' : l ≠ []) :
    ∃ h n, unlink d w = some { d with head := h, next := n } ∧ Chain n h (l.erase w) := by
  obtain ⟨h, rest, rfl⟩ := List.exists_cons_of_ne_nil some'
  have head : d.head = some h := chain.1
  rw [unlink, head]
  by_cases first : h = w
  · subst first
    rw [if_pos rfl, List.erase_cons_head]
    exact ⟨d.next h, d.next, rfl, chain.2⟩
  · rw [if_neg fun same => first (Option.some.inj same)]
    by_cases listed : w ∈ h :: rest
    · obtain ⟨front, ys, split, other⟩ := List.eq_append_cons_of_mem listed
      obtain rfl | ⟨xs, z, rfl⟩ := List.eq_nil_or_concat front
      · exact absurd (List.cons.inj split).1 first
      rw [List.concat_eq_append] at *
      have nodup := chain.nodup
      rw [split] at chain nodup ⊢
      rw [List.append_assoc] at chain
      have walk : before d w h = some z := before_eq (head ▸ chain) other
      obtain ⟨r, front, node, link, behind⟩ := seg_append.mp chain
      simp only [walk, Option.bind_eq_bind, Option.bind_some]
      rw [if_pos link, erase_middle other]
      have apart : (xs ++ z :: ys).Nodup := by
        rw [List.append_assoc, List.singleton_append] at nodup
        exact nodup.sublist (by simp)
      obtain ⟨-, tail, between⟩ := List.nodup_append.mp apart
      refine ⟨_, _, rfl, ?_⟩
      rw [List.append_assoc]
      refine seg_append.mpr ⟨r, ?_, node, ?_⟩
      · exact Seg.congr front (fun _ _ _ node => node) fun a member =>
          Function.update_of_ne (between a member z (by simp)) _ _
      · rw [Function.update_self]
        exact Seg.congr behind (fun _ _ _ node => node) fun a member =>
          Function.update_of_ne (ne_of_mem_of_not_mem member (List.nodup_cons.mp tail).1) _ _
    · obtain ⟨z, ends, null⟩ := before_none (head ▸ chain) listed
      simp only [ends, Option.bind_eq_bind, Option.bind_some, null]
      rw [if_neg (by simp), List.erase_of_not_mem listed]
      exact ⟨_, _, rfl, chain⟩

theorem raise_eq (chain : Chain d.next d.head l) (listed : w ∈ l) :
    ∃ h n, (unlink d w >>= fun d => append d w) = some { d with head := h, next := n } ∧
      Chain n h (l.erase w ++ [w]) := by
  obtain ⟨h, n, out, rest⟩ := unlink_eq (w := w) chain (List.ne_nil_of_mem listed)
  have gone : w ∉ l.erase w := fun still => (chain.nodup.mem_erase_iff.mp still).1 rfl
  obtain ⟨h', n', back, whole⟩ :=
    append_eq (d := { d with head := h, next := n }) rest gone
  refine ⟨h', n', ?_, whole⟩
  rw [out]
  exact back

theorem raise_top {p : Option ω} {next : ω → Option ω} (chain : Chain next p l) (listed : w ∈ l)
    (null : next w = none) : l.erase w ++ [w] = l := by
  obtain ⟨front, ys, rfl, other⟩ := List.eq_append_cons_of_mem listed
  obtain ⟨r, -, -, behind⟩ := seg_append.mp chain
  rw [null] at behind
  cases ys with
  | nil => rw [erase_middle other, List.append_nil]
  | cons a ys => cases behind.1

end Links

section Refinement

variable {ω : Type} [DecidableEq ω] {d : Desktop ω} {s : Stack ω} {w : ω}

/-- The links hold the windows of the stack, and the focus bits say which has the focus. -/
structure Represents (d : Desktop ω) (s : Stack ω) : Prop where
  chain : Chain d.next d.head s.windows
  focus : ∀ w, d.focused w = decide (s.focus = some w)
  member : ∀ w, s.focus = some w → w ∈ s.windows

def Leaves (d : Desktop ω) (result : Option (Desktop ω)) (s : Stack ω) : Prop :=
  ∃ d', result = some d' ∧ Represents d' s ∧ d'.under = d.under

def focusOn (d : Desktop ω) (w : ω) : Desktop ω :=
  ({ d with focused := fun _ => false } : Desktop ω).setFocused w true

theorem focusOn_focused (d : Desktop ω) (w v : ω) :
    (focusOn d w).focused v = decide (some w = some v) := by
  by_cases same : v = w
  · simp [focusOn, Desktop.setFocused, same]
  · simp [focusOn, Desktop.setFocused, same, Ne.symm same]

theorem raise_member (s : Stack ω) (w v : ω) (focused : (s.raise w).focus = some v) :
    v ∈ (s.raise w).windows := by
  cases focused
  exact List.mem_append_right _ List.mem_cons_self

omit [DecidableEq ω] in
theorem topmost_mem {test : ω → Bool} {l : List ω} (found : topmost test l = some w) : w ∈ l :=
  List.mem_reverse.mp (List.mem_of_find?_eq_some found)

theorem focus_top {l : List ω} (chain : Chain d.next d.head l) :
    (match d.head with
      | none => some d
      | some h => do
        let t ← last d h
        some (d.setFocused t true)) =
      some (l.getLast?.elim d fun z => d.setFocused z true) := by
  obtain rfl | ⟨xs, z, rfl⟩ := List.eq_nil_or_concat l
  · rw [show d.head = none from chain]
    rfl
  · rw [List.concat_eq_append] at *
    obtain ⟨a, head⟩ : ∃ a, d.head = some a := by
      rw [chain.head_eq]
      cases xs with
      | nil => exact ⟨z, rfl⟩
      | cons a xs => exact ⟨a, rfl⟩
    rw [head] at chain ⊢
    simp only [last_eq chain, Option.bind_eq_bind, Option.bind_some,
      List.getLast?_append_of_ne_nil _ (List.cons_ne_nil z []), List.getLast?_singleton,
      Option.elim_some]

section

variable (rep : Represents d s)

include rep

theorem Represents.add (other : w ∉ s.windows) :
    Leaves d (wmAdd d w) { s with windows := s.windows ++ [w] } := by
  obtain ⟨h, n, done, whole⟩ := append_eq rep.chain other
  refine ⟨_, done, ⟨whole, rep.focus, fun v focused => ?_⟩, rfl⟩
  exact List.mem_append_left _ (rep.member v focused)

theorem Represents.unfocus :
    unfocusFrom d d.head = some { d with focused := fun _ => false } := by
  rw [unfocus_eq rep.chain]
  congr 2
  funext v
  by_cases listed : v ∈ s.windows
  · simp [listed]
  · have idle : s.focus ≠ some v := fun focused => listed (rep.member v focused)
    simp [rep.focus, idle]

theorem Represents.stays (listed : w ∈ s.windows) (null : d.next w = none) :
    Represents (focusOn d w) (s.raise w) where
  chain := by
    rw [Stack.raise, raise_top rep.chain listed null]
    exact rep.chain
  focus := focusOn_focused d w
  member := raise_member s w

theorem Represents.moves (listed : w ∈ s.windows) :
    Leaves d (unlink (focusOn d w) w >>= fun d => append d w) (s.raise w) := by
  obtain ⟨h, n, done, whole⟩ := raise_eq (d := focusOn d w) rep.chain listed
  exact ⟨_, done, ⟨whole, focusOn_focused d w, raise_member s w⟩, rfl⟩

theorem Represents.showListed (listed : w ∈ s.windows) :
    Leaves d (wmShow d w) (s.raise w) := by
  have shown : wmIsShown d w = some true := by
    rw [wmIsShown, isShown_eq rep.chain, decide_eq_true listed]
  simp only [wmShow, shown, Option.bind_eq_bind, Option.bind_some, if_true, rep.unfocus]
  rw [← focusOn]
  split_ifs with top
  · exact ⟨_, rfl, rep.stays listed top.2, rfl⟩
  · exact rep.moves listed

theorem Represents.show (w : ω) : Leaves d (wmShow d w) (s.raise w) := by
  by_cases listed : w ∈ s.windows
  · exact rep.showListed listed
  · obtain ⟨d₁, added, rep₁, same⟩ := rep.add listed
    have shown : wmIsShown d w = some false := by
      rw [wmIsShown, isShown_eq rep.chain, decide_eq_false listed]
    have listed₁ : w ∈ s.windows ++ [w] := List.mem_append_right _ List.mem_cons_self
    obtain ⟨d', done, rep', same'⟩ := rep₁.showListed listed₁
    have shown₁ : wmIsShown d₁ w = some true := by
      rw [wmIsShown, isShown_eq rep₁.chain, decide_eq_true listed₁]
    refine ⟨d', ?_, ?_, same'.trans same⟩
    · rw [← done]
      simp only [wmShow, shown, shown₁, added, Option.bind_eq_bind, Option.bind_some, if_true,
        Bool.false_eq_true, if_false]
    · rw [Stack.raise, List.erase_append_right _ listed, List.erase_cons_head,
        List.append_nil] at rep'
      rwa [Stack.raise, List.erase_of_not_mem listed]

theorem Represents.windowAt (sx sy : Int) :
    wmWindowAt d sx sy = some (topmost (d.under sx sy) s.windows) := by
  rw [wmWindowAt, hit_eq sx sy none rep.chain, Option.or_none]

theorem Represents.focusAt (sx sy : Int) :
    ∃ d', wmFocusAt d sx sy = some (topmost (d.under sx sy) s.windows, d') ∧
      Represents d' (s.step d.under (.focusAt sx sy)) ∧ d'.under = d.under := by
  have hit := rep.windowAt sx sy
  rw [wmWindowAt] at hit
  simp only [wmFocusAt, hit, Option.bind_eq_bind, Option.bind_some, Stack.step]
  cases found : topmost (d.under sx sy) s.windows with
  | none => exact ⟨d, rfl, rep, rfl⟩
  | some w =>
    have listed := topmost_mem found
    simp only [rep.unfocus, Option.bind_some]
    rw [← focusOn]
    split_ifs with top
    · exact ⟨_, rfl, rep.stays listed top, rfl⟩
    · obtain ⟨d', done, rep', same⟩ := rep.moves listed
      refine ⟨d', ?_, rep', same⟩
      cases out : unlink (focusOn d w) w with
      | none =>
        rw [out] at done
        cases done
      | some d₁ =>
        rw [out] at done
        simp only [Option.bind_some, show append d₁ w = some d' from done]

theorem Represents.remove (w : ω) : Leaves d (wmRemove d w) (s.remove w) := by
  rw [wmRemove]
  by_cases empty : d.head = none
  · have none' : s.windows = [] := by
      have head := rep.chain.head_eq
      rw [empty] at head
      exact List.head?_eq_none_iff.mp head.symm
    have idle : s.focus = none := by
      cases focus : s.focus with
      | none => rfl
      | some v => exact absurd (rep.member v focus) (by simp [none'])
    rw [if_pos empty]
    have same : s.remove w = s := by
      cases s
      simp_all [Stack.remove]
    rw [same]
    exact ⟨d, rfl, rep, rfl⟩
  · rw [if_neg empty]
    have some' : s.windows ≠ [] := fun none' => empty (by rw [rep.chain.head_eq, none']; rfl)
    obtain ⟨h, n, out, rest⟩ := unlink_eq (w := w) rep.chain some'
    have gone : w ∉ s.windows.erase w := fun still =>
      (rep.chain.nodup.mem_erase_iff.mp still).1 rfl
    have rest' : Chain (Function.update n w none) h (s.windows.erase w) :=
      rest.congr fun a listed => Function.update_of_ne (ne_of_mem_of_not_mem listed gone) _ _
    simp only [out, Option.bind_eq_bind, Option.bind_some]
    rw [show (({ d with head := h, next := n } : Desktop ω).setNext w none).focused w =
      decide (s.focus = some w) from rep.focus w]
    by_cases had : s.focus = some w
    · have idle (v : ω) : Function.update d.focused w false v = false := by
        by_cases same : v = w
        · rw [same, Function.update_self]
        · rw [Function.update_of_ne same, rep.focus, had]
          simp [Ne.symm same]
      have focus : s.remove w = ⟨s.windows.erase w, (s.windows.erase w).getLast?⟩ := by
        rw [Stack.remove, if_pos had]
      rw [if_pos (decide_eq_true had), focus]
      refine ⟨_, focus_top rest', ?_, ?_⟩
      · cases top : (s.windows.erase w).getLast? with
        | none => exact ⟨rest', idle, nofun⟩
        | some z =>
          refine ⟨rest', fun v => ?_, fun v focused => ?_⟩
          · by_cases same : v = z
            · subst same
              exact (Function.update_self _ _ _).trans (decide_eq_true rfl).symm
            · refine (Function.update_of_ne same _ _).trans ((idle v).trans ?_)
              exact (decide_eq_false fun eq => same (Option.some.inj eq).symm).symm
          · cases focused
            exact List.mem_of_getLast? top
      · cases (s.windows.erase w).getLast? <;> rfl
    · rw [if_neg (by simpa using had), Stack.remove, if_neg had]
      refine ⟨_, rfl, ⟨rest', rep.focus, fun v focused => ?_⟩, rfl⟩
      have apart : v ≠ w := by
        rintro rfl
        exact had focused
      exact rep.chain.nodup.mem_erase_iff.mpr ⟨apart, rep.member v focused⟩

theorem Represents.perform (e : Event ω) (allowed : ∀ w, e = .add w → w ∉ s.windows) :
    Leaves d (perform d e) (s.step d.under e) := by
  cases e with
  | add w => exact rep.add (allowed w rfl)
  | «show» w => exact rep.show w
  | focusAt sx sy =>
    obtain ⟨d', done, rep', same⟩ := rep.focusAt sx sy
    exact ⟨d', by rw [WindowList.perform, done]; rfl, rep', same⟩
  | remove w => exact rep.remove w

theorem Represents.run (es : List (Event ω)) (allowed : Allowed d.under s es) :
    Leaves d (es.foldlM WindowList.perform d) (es.foldl (Stack.step d.under) s) := by
  induction es generalizing d s with
  | nil => exact ⟨d, rfl, rep, rfl⟩
  | cons e es ih =>
    obtain ⟨here, onward⟩ := allowed
    obtain ⟨d₁, done, rep₁, same⟩ := rep.perform e here
    obtain ⟨d', rest, rep', same'⟩ := ih rep₁ (by rwa [same])
    rw [same] at rep' same'
    refine ⟨d', ?_, rep', same'⟩
    rw [List.foldlM_cons, done]
    exact rest

end

/-- Over every sequence of operations the links hold each shown window once, in the
order of the stack, one window at most has the focus, and the next operation does to
the links what its step does to the stack. -/
theorem window_list (d₀ : Desktop ω) (empty : d₀.head = none)
    (unfocused : ∀ w, d₀.focused w = false) (es : List (Event ω))
    (allowed : Allowed d₀.under ⟨[], none⟩ es) :
    ∃ d s, es.foldlM WindowList.perform d₀ = some d ∧
      s = es.foldl (Stack.step d₀.under) ⟨[], none⟩ ∧ Represents d s ∧ s.windows.Nodup ∧
      (∀ w, wmIsShown d w = some (decide (w ∈ s.windows))) ∧
      (∀ a b, d.focused a = true → d.focused b = true → a = b) ∧
      (∀ w, w ∉ s.windows →
        ∃ d', wmAdd d w = some d' ∧ Represents d' ⟨s.windows ++ [w], s.focus⟩) ∧
      (∀ w, ∃ d', wmShow d w = some d' ∧ Represents d' ⟨s.windows.erase w ++ [w], some w⟩) ∧
      (∀ w, ∃ d', wmRemove d w = some d' ∧ Represents d' ⟨s.windows.erase w,
        if s.focus = some w then (s.windows.erase w).getLast? else s.focus⟩) ∧
      ∀ sx sy, wmWindowAt d sx sy = some (topmost (d.under sx sy) s.windows) ∧
        ∃ d', wmFocusAt d sx sy = some (topmost (d.under sx sy) s.windows, d') ∧
          Represents d' (s.step d.under (.focusAt sx sy)) := by
  have start : Represents d₀ (⟨[], none⟩ : Stack ω) := ⟨empty, unfocused, nofun⟩
  obtain ⟨d, done, rep, -⟩ := start.run es allowed
  refine ⟨d, _, done, rfl, rep, rep.chain.nodup, fun w => isShown_eq rep.chain, ?_, ?_, ?_, ?_, ?_⟩
  · intro a b focused focused'
    rw [rep.focus, decide_eq_true_eq] at focused focused'
    exact Option.some.inj (focused.symm.trans focused')
  · intro w other
    obtain ⟨d', added, rep', -⟩ := rep.add other
    exact ⟨d', added, rep'⟩
  · intro w
    obtain ⟨d', shown, rep', -⟩ := rep.show w
    exact ⟨d', shown, rep'⟩
  · intro w
    obtain ⟨d', removed, rep', -⟩ := rep.remove w
    exact ⟨d', removed, rep'⟩
  · intro sx sy
    obtain ⟨d', focused, rep', -⟩ := rep.focusAt sx sy
    exact ⟨rep.windowAt sx sy, d', focused, rep'⟩

end Refinement

theorem window_list_two :
    ∃ d, [Event.add 1, .show 2, .remove 2].foldlM perform
        (⟨none, fun _ => none, fun _ => false, fun _ => ⟨0, 0, 9, 9⟩, 0, 0⟩ : Desktop Nat) = some d ∧
      Represents d ⟨[1], some 1⟩ := by
  obtain ⟨d, s, done, eq, rep, -⟩ := window_list
    (⟨none, fun _ => none, fun _ => false, fun _ => ⟨0, 0, 9, 9⟩, 0, 0⟩ : Desktop Nat) rfl
    (fun _ => rfl) [Event.add 1, .show 2, .remove 2] (by simp [Allowed])
  refine ⟨d, done, ?_⟩
  rw [eq] at rep
  exact rep

end XinuRpi5.Video.WindowList
