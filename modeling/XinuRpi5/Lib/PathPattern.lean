/- source: none (library)
   digest: Patterns along a path: a search without a way back finds them in loose patterns. -/

import Mathlib.Data.List.Infix

namespace XinuRpi5.Lib.PathPattern

/-- A step of a pattern: what holds of an element, and whether the next step is about the very
next element or about any later one. -/
structure Step (α : Type) where
  holds : α → Bool
  adjacent : Bool

variable {α : Type}

def Found : List (Step α) → List α → Prop
  | [], _ => True
  | _ :: _, [] => False
  | s :: steps, x :: path =>
    s.holds x = true ∧
      if s.adjacent then Found steps path else ∃ later, later <:+ path ∧ Found steps later

/-- The search that takes the first element it can for each step and never goes back. -/
def search : Bool → List (Step α) → List α → Bool
  | _, [], _ => true
  | true, _ :: _, [] => false
  | true, s :: steps, x :: path => s.holds x && search s.adjacent steps path
  | false, s :: steps, path =>
    match path.dropWhile fun x => !s.holds x with
    | [] => false
    | _ :: path => search s.adjacent steps path

def Loose : List (Step α) → Prop
  | [] => True
  | [_] => True
  | s :: t :: steps => (s.adjacent = true → ∀ x, t.holds x = true) ∧ Loose (t :: steps)

/-- Adjacent steps come first; behind a step that is not, the pattern is loose. -/
def AdjacentFirst : List (Step α) → Prop
  | [] => True
  | s :: steps => if s.adjacent then AdjacentFirst steps else Loose steps

variable {steps : List (Step α)}

theorem Loose.tail {s : Step α} (loose : Loose (s :: steps)) :
    Loose steps := by
  cases steps with
  | nil => trivial
  | cons t steps => exact loose.2

theorem Loose.adjacentFirst (loose : Loose steps) :
    AdjacentFirst steps := by
  induction steps with
  | nil => trivial
  | cons s steps ih =>
    rw [AdjacentFirst]
    split_ifs
    · exact ih loose.tail
    · exact loose.tail

theorem Loose.earlier {s : Step α} (loose : Loose (s :: steps)) {x : α}
    {path later : List α} (here : s.holds x = true) (suffix : later <:+ x :: path)
    (found : Found (s :: steps) later) : Found (s :: steps) (x :: path) := by
  induction steps generalizing s x path later with
  | nil =>
    refine ⟨here, ?_⟩
    split_ifs
    · trivial
    · exact ⟨path, List.suffix_refl path, trivial⟩
  | cons t steps ih =>
    cases later with
    | nil => exact found.elim
    | cons y rest =>
      obtain same | behind := List.suffix_cons_iff.mp suffix
      · obtain ⟨rfl, rfl⟩ := List.cons_eq_cons.mp same
        exact found
      have within : rest <:+ path := (List.suffix_cons y rest).trans behind
      refine ⟨here, ?_⟩
      have next := found.2
      split_ifs at next ⊢ with near
      · cases path with
        | nil => exact absurd (List.suffix_nil.mp behind) (List.cons_ne_nil y rest)
        | cons z path => exact ih loose.tail (loose.1 near z) within next
      · obtain ⟨later, after, found⟩ := next
        exact ⟨later, after.trans within, found⟩

theorem search_sound {adjacent : Bool} {path : List α} (hit : search adjacent steps path = true) :
    if adjacent then Found steps path else ∃ later, later <:+ path ∧ Found steps later := by
  induction steps generalizing adjacent path with
  | nil =>
    split_ifs
    · trivial
    · exact ⟨path, List.suffix_refl path, trivial⟩
  | cons s steps ih =>
    cases adjacent with
    | true =>
      cases path with
      | nil => cases hit
      | cons x path =>
        obtain ⟨here, rest⟩ := Bool.and_eq_true_iff.mp hit
        exact ⟨here, ih rest⟩
    | false =>
      rw [if_neg Bool.false_ne_true]
      rw [search] at hit
      cases first : path.dropWhile fun x => !s.holds x with
      | nil =>
        rw [first] at hit
        cases hit
      | cons x rest =>
        rw [first] at hit
        have here : s.holds x = true := by
          have stops := List.head?_dropWhile_not (fun x => !s.holds x) path
          rw [first] at stops
          simpa using stops
        refine ⟨x :: rest, ?_, here, ih hit⟩
        rw [← first]
        exact List.dropWhile_suffix _

theorem suffix_dropWhile {p : α → Bool} {y : α} {rest path : List α} (stays : p y = false)
    (suffix : y :: rest <:+ path) : y :: rest <:+ path.dropWhile p := by
  induction path with
  | nil => exact suffix
  | cons x path ih =>
    obtain same | behind := List.suffix_cons_iff.mp suffix
    · obtain ⟨rfl, rfl⟩ := List.cons_eq_cons.mp same
      rw [List.dropWhile_cons_of_neg (by rw [stays]; decide)]
    · by_cases drops : p x = true
      · rw [List.dropWhile_cons_of_pos drops]
        exact ih behind
      · rw [List.dropWhile_cons_of_neg drops]
        exact suffix

/-- The search is right on patterns whose adjacent steps come first. -/
theorem search_iff {adjacent : Bool} {steps : List (Step α)}
    (order : if adjacent then AdjacentFirst steps else Loose steps) (path : List α) :
    search adjacent steps path = true ↔
      if adjacent then Found steps path else ∃ later, later <:+ path ∧ Found steps later := by
  refine ⟨search_sound, fun found => ?_⟩
  induction steps generalizing adjacent path with
  | nil => cases adjacent <;> rfl
  | cons s steps ih =>
    cases adjacent with
    | true =>
      cases path with
      | nil => exact found.elim
      | cons x path =>
        obtain ⟨here, rest⟩ := found
        exact Bool.and_eq_true_iff.mpr ⟨here, ih order path rest⟩
    | false =>
      rw [if_neg Bool.false_ne_true] at order found
      obtain ⟨later, suffix, found⟩ := found
      cases later with
      | nil => exact found.elim
      | cons y rest =>
        have stays : (!s.holds y) = false := by rw [found.1]; rfl
        have kept := suffix_dropWhile (p := fun x => !s.holds x) stays suffix
        rw [search]
        cases first : path.dropWhile fun x => !s.holds x with
        | nil =>
          rw [first] at kept
          exact absurd (List.suffix_nil.mp kept) (List.cons_ne_nil y rest)
        | cons x after =>
          rw [first] at kept
          have here : s.holds x = true := by
            have stops := List.head?_dropWhile_not (fun x => !s.holds x) path
            rw [first] at stops
            simpa using stops
          -- the first element that the step holds of will do as well
          have found := order.earlier here kept found
          refine ih ?_ after found.2
          split_ifs
          · exact order.tail.adjacentFirst
          · exact order.tail

theorem search_found (order : AdjacentFirst steps) (path : List α) :
    search true steps path = true ↔ Found steps path :=
  @search_iff α true steps order path

end XinuRpi5.Lib.PathPattern
