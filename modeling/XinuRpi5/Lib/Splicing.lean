/- source: none (library)
   digest: Ranges of a text replaced by other texts: by one forward pass, and place by place. -/

import Mathlib.Data.List.FinRange

/-!
`pass` copies up to a range, writes its text and goes on behind the range. `spliced` says
what replacing the outermost ranges means, wherever the other ranges lie. With the ranges in
the order of their starts the two differ by what `Clean` excludes.
-/

namespace XinuRpi5.Lib.Splicing

variable {α : Type*}

/-- The text for the range from `start` up to `stop`. -/
structure Patch (α : Type*) where
  start : Nat
  stop : Nat
  text : List α

def Patch.Covers (k : Patch α) (i : Nat) : Prop := k.start ≤ i ∧ i < k.stop

instance (k : Patch α) (i : Nat) : Decidable (k.Covers i) :=
  inferInstanceAs (Decidable (_ ∧ _))

def Patch.Within (k outer : Patch α) : Prop := outer.start ≤ k.start ∧ k.stop ≤ outer.stop

instance (k outer : Patch α) : Decidable (k.Within outer) :=
  inferInstanceAs (Decidable (_ ∧ _))

/-- What a patch writes in front of place `i`. -/
def Patch.textAt (k : Patch α) (i : Nat) : List α := if k.start = i then k.text else []

/-- The places from `a` up to `b`. -/
def slice (src : Nat → α) (a b : Nat) : List α := (List.range' a (b - a)).map src

def pass (src : Nat → α) (len : Nat) : List (Patch α) → Nat → List α
  | [], p => slice src p len
  | k :: ps, p => slice src p k.start ++ k.text ++ pass src len ps k.stop

/-- Patch `n` lies in another one; of equal ranges the first is the outer one. -/
def Nested (ps : List (Patch α)) (n : Fin ps.length) : Prop :=
  ∃ m : Fin ps.length, (ps.get n).Within (ps.get m) ∧
    (m < n ∨ n < m ∧ ¬(ps.get m).Within (ps.get n))

instance (ps : List (Patch α)) (n : Fin ps.length) : Decidable (Nested ps n) :=
  inferInstanceAs (Decidable (∃ _, _))

/-- The texts of the patches that start at `i` and that `keep` keeps. -/
def textsAt (ps : List (Patch α)) (keep : Fin ps.length → Bool) (i : Nat) : List α :=
  (List.finRange ps.length).flatMap fun n =>
    if keep n then (ps.get n).textAt i else []

def outermost (ps : List (Patch α)) (n : Fin ps.length) : Bool := !decide (Nested ps n)

/-- Each place in its order: the texts of the outermost ranges that start there, then the
place itself where no range covers it. -/
def spliced (src : Nat → α) (len : Nat) (ps : List (Patch α)) : List α :=
  (List.range (len + 1)).flatMap fun i =>
    textsAt ps (outermost ps) i ++
      if i < len ∧ ¬∃ k ∈ ps, k.Covers i then [src i] else []

/-- Where the pass goes on behind the last patch that starts at `i` or before. -/
def cursor : List (Patch α) → Nat → Nat → Nat
  | [], _, p => p
  | k :: ps, i, p => if k.start ≤ i then cursor ps i k.stop else p

/-- A nested range has no text and ends where the ranges around it do. -/
structure Clean (len : Nat) (ps : List (Patch α)) : Prop where
  no_text : ∀ n, Nested ps n → (ps.get n).text = []
  no_return : ∀ i < len, (∃ k ∈ ps, k.Covers i) → i < cursor ps i 0

/-- In the order of the starts, within a text of `len` places. -/
structure Ordered (len : Nat) (ps : List (Patch α)) : Prop where
  sorted : ps.Pairwise fun a b => a.start ≤ b.start
  ranges : ∀ k ∈ ps, k.start ≤ k.stop ∧ k.stop ≤ len

theorem slice_nil (src : Nat → α) {a b : Nat} (le : b ≤ a) : slice src a b = [] := by
  have none : b - a = 0 := by omega
  simp [slice, none]

theorem slice_cons (src : Nat → α) {a b : Nat} (lt : a < b) :
    slice src a b = src a :: slice src (a + 1) b := by
  have count : b - a = b - (a + 1) + 1 := by omega
  rw [slice, count, List.range'_succ, List.map_cons, slice]

theorem walk_slice (src : Nat → α) (p b n s : Nat) (low : s ≤ p) (all : b ≤ s + n) :
    ((List.range' s n).flatMap fun i => if p ≤ i ∧ i < b then [src i] else []) = slice src p b := by
  induction n generalizing s p with
  | zero =>
    rw [slice_nil src (by omega)]
    rfl
  | succ n ih =>
    rw [List.range'_succ, List.flatMap_cons]
    by_cases here : p = s
    · subst here
      have next : ((List.range' (p + 1) n).flatMap fun i =>
          if p ≤ i ∧ i < b then [src i] else []) = slice src (p + 1) b := by
        rw [← ih (p + 1) (p + 1) (Nat.le_refl _) (by omega)]
        apply List.flatMap_congr
        intro i mem
        have above := (List.mem_range'_1.mp mem).1
        exact if_congr (by omega) rfl rfl
      rw [next]
      by_cases room : p < b
      · rw [slice_cons src room, if_pos ⟨Nat.le_refl _, room⟩, List.singleton_append]
      · rw [if_neg (by omega), slice_nil src (by omega), slice_nil src (by omega), List.nil_append]
    · rw [if_neg (by omega), List.nil_append]
      exact ih p (s + 1) (by omega) (by omega)

theorem Patch.textAt_start (k : Patch α) : k.textAt k.start = k.text := if_pos rfl

theorem Patch.textAt_other (k : Patch α) {i : Nat} (other : k.start ≠ i) : k.textAt i = [] :=
  if_neg other

/-- The whole text from `s` on, place by place, as the pass from `p` on writes it. -/
def placesFrom (src : Nat → α) (len : Nat) (ps : List (Patch α)) (s p : Nat) : List α :=
  (List.range' s (len + 1 - s)).flatMap fun i =>
    textsAt ps (fun _ => true) i ++ if i < len ∧ cursor ps i p ≤ i then [src i] else []

theorem textsAt_cons (k : Patch α) (ps : List (Patch α)) (i : Nat) :
    textsAt (k :: ps) (fun _ => true) i =
      k.textAt i ++ textsAt ps (fun _ => true) i := by
  simp only [textsAt, if_true, List.length_cons, List.finRange_succ, List.flatMap_cons,
    List.flatMap_map]
  rfl

theorem textsAt_later {ps : List (Patch α)} {i : Nat} (later : ∀ k ∈ ps, i < k.start) :
    textsAt ps (fun _ => true) i = [] := by
  induction ps with
  | nil => rfl
  | cons k ps ih =>
    have here := later k List.mem_cons_self
    rw [textsAt_cons, k.textAt_other (by omega),
      ih fun j mem => later j (List.mem_cons_of_mem k mem)]
    rfl

theorem pass_placesFrom (src : Nat → α) {len : Nat} {ps : List (Patch α)} (order : Ordered len ps)
    {s p : Nat} (low : s ≤ p) (inside : s ≤ len) (behind : ∀ k ∈ ps, s ≤ k.start) :
    pass src len ps p = placesFrom src len ps s p := by
  induction ps generalizing s p with
  | nil =>
    rw [pass, ← walk_slice src p len (len + 1 - s) s low (by omega), placesFrom]
    apply List.flatMap_congr
    intro i _
    have none : textsAt ([] : List (Patch α)) (fun _ => true) i = [] := rfl
    rw [none, cursor, List.nil_append]
    exact if_congr And.comm rfl rfl
  | cons k ps ih =>
    obtain ⟨first, sorted⟩ := List.pairwise_cons.mp order.sorted
    have range := order.ranges k List.mem_cons_self
    have start := behind k List.mem_cons_self
    have rest : Ordered len ps :=
      ⟨sorted, fun j mem => order.ranges j (List.mem_cons_of_mem k mem)⟩
    have tail := ih rest range.1 (by omega : k.start ≤ len) first
    have cut : List.range' s (len + 1 - s) =
        List.range' s (k.start - s) ++ List.range' k.start (len + 1 - k.start) := by
      have count : len + 1 - s = (k.start - s) + (len + 1 - k.start) := by omega
      have next : k.start = s + (k.start - s) := by omega
      rw [count]
      nth_rewrite 4 [next]
      rw [List.range'_append_1]
    -- Up to the range the pass copies what lies behind its place.
    have front : ((List.range' s (k.start - s)).flatMap fun i =>
        textsAt (k :: ps) (fun _ => true) i ++
          if i < len ∧ cursor (k :: ps) i p ≤ i then [src i] else []) =
        slice src p k.start := by
      rw [← walk_slice src p k.start (k.start - s) s low (by omega)]
      apply List.flatMap_congr
      intro i mem
      have bounds := List.mem_range'_1.mp mem
      have before : i < k.start := by omega
      have none : textsAt (k :: ps) (fun _ => true) i = [] := by
        apply textsAt_later
        intro j member
        rcases List.mem_cons.mp member with same | member
        · exact same ▸ before
        · exact Nat.lt_of_lt_of_le before (first j member)
      have stay : cursor (k :: ps) i p = p := if_neg (by omega)
      rw [none, stay, List.nil_append]
      exact if_congr (by omega) rfl rfl
    -- From its start on the cursor is that of the remaining patches.
    have back : ((List.range' k.start (len + 1 - k.start)).flatMap fun i =>
        textsAt (k :: ps) (fun _ => true) i ++
          if i < len ∧ cursor (k :: ps) i p ≤ i then [src i] else []) =
        k.text ++ placesFrom src len ps k.start k.stop := by
      have count : len + 1 - k.start = (len - k.start) + 1 := by omega
      rw [placesFrom, count, List.range'_succ, List.flatMap_cons, List.flatMap_cons,
        textsAt_cons, k.textAt_start, cursor, if_pos (Nat.le_refl _)]
      simp only [List.append_assoc]
      congr 3
      apply List.flatMap_congr
      intro i mem
      have above := (List.mem_range'_1.mp mem).1
      have begun : k.start ≤ i := by omega
      rw [textsAt_cons, k.textAt_other (by omega), cursor, if_pos begun, List.nil_append]
    rw [pass, placesFrom, cut, List.flatMap_append, front, back, tail, List.append_assoc]

theorem sublist_flatMap {β : Type*} {f g : β → List α} (xs : List β)
    (part : ∀ x ∈ xs, (g x).Sublist (f x)) : (xs.flatMap g).Sublist (xs.flatMap f) := by
  induction xs with
  | nil => exact List.nil_sublist _
  | cons x xs ih =>
    rw [List.flatMap_cons, List.flatMap_cons]
    exact (part x List.mem_cons_self).append (ih fun y mem => part y (List.mem_cons_of_mem x mem))

theorem flatMap_eq_iff {β : Type*} {f g : β → List α} (xs : List β)
    (part : ∀ x ∈ xs, (g x).Sublist (f x)) :
    xs.flatMap f = xs.flatMap g ↔ ∀ x ∈ xs, f x = g x := by
  refine ⟨fun same => ?_, List.flatMap_congr⟩
  induction xs with
  | nil => simp
  | cons x xs ih =>
    have here := part x List.mem_cons_self
    have later : ∀ y ∈ xs, (g y).Sublist (f y) := fun y mem => part y (List.mem_cons_of_mem x mem)
    rw [List.flatMap_cons, List.flatMap_cons] at same
    have sizes := congrArg List.length same
    rw [List.length_append, List.length_append] at sizes
    have head_size := here.length_le
    have tail_size := (sublist_flatMap xs later).length_le
    have head : f x = g x := (here.eq_of_length (by omega)).symm
    rw [head, List.append_cancel_left_eq] at same
    intro y mem
    rcases List.mem_cons.mp mem with first | mem
    · exact first ▸ head
    · exact ih later same y mem

theorem uncovered_cursor {ps : List (Patch α)} {i p : Nat} (here : p ≤ i)
    (free : ¬∃ k ∈ ps, k.Covers i) : cursor ps i p ≤ i := by
  induction ps generalizing p with
  | nil => exact here
  | cons k ps ih =>
    unfold cursor
    split
    case isTrue started =>
        apply ih
        · by_contra inside
          exact free ⟨k, List.mem_cons_self, started, by omega⟩
        · rintro ⟨j, mem, covers⟩
          exact free ⟨j, List.mem_cons_of_mem k mem, covers⟩
    case isFalse => exact here

theorem textsAt_part (ps : List (Patch α)) (i : Nat) :
    (textsAt ps (outermost ps) i).Sublist (textsAt ps (fun _ => true) i) ∧
      (textsAt ps (fun _ => true) i = textsAt ps (outermost ps) i ↔
        ∀ n, Nested ps n → (ps.get n).textAt i = []) := by
  have part : ∀ n ∈ List.finRange ps.length,
      List.Sublist (if outermost ps n then (ps.get n).textAt i else [])
        (if true then (ps.get n).textAt i else []) := by
    intro n _
    cases outermost ps n <;> simp
  constructor
  · exact sublist_flatMap _ part
  · unfold textsAt
    rw [flatMap_eq_iff _ part]
    constructor
    · intro same n nested
      have inner : outermost ps n = false := by simp [outermost, nested]
      have here := same n (List.mem_finRange n)
      rwa [inner] at here
    · intro empty n _
      by_cases nested : Nested ps n
      · rw [empty n nested, ite_self, ite_self]
      · have outer : outermost ps n = true := by simp [outermost, nested]
        rw [outer]

/-- The pass replaces the outermost ranges exactly for the clean lists. -/
theorem pass_eq_spliced_iff (src : Nat → α) {len : Nat} {ps : List (Patch α)}
    (order : Ordered len ps) : pass src len ps 0 = spliced src len ps ↔ Clean len ps := by
  rw [pass_placesFrom src order (Nat.le_refl 0) (Nat.zero_le len) fun k _ => Nat.zero_le k.start,
    placesFrom, spliced, Nat.sub_zero, ← List.range_eq_range']
  have byte_part : ∀ i, List.Sublist
      (if i < len ∧ ¬∃ k ∈ ps, k.Covers i then [src i] else [])
      (if i < len ∧ cursor ps i 0 ≤ i then [src i] else []) := by
    intro i
    by_cases kept : i < len ∧ ¬∃ k ∈ ps, k.Covers i
    · rw [if_pos kept, if_pos ⟨kept.1, uncovered_cursor (Nat.zero_le i) kept.2⟩]
    · rw [if_neg kept]
      exact List.nil_sublist _
  rw [flatMap_eq_iff _ fun i _ => (textsAt_part ps i).1.append (byte_part i)]
  constructor
  · intro same
    have split : ∀ i < len + 1,
        textsAt ps (fun _ => true) i = textsAt ps (outermost ps) i ∧
        (if i < len ∧ cursor ps i 0 ≤ i then [src i] else []) =
          (if i < len ∧ ¬∃ k ∈ ps, k.Covers i then [src i] else []) := by
      intro i lt
      have whole := same i (List.mem_range.mpr lt)
      have sizes := congrArg List.length whole
      rw [List.length_append, List.length_append] at sizes
      have texts := (textsAt_part ps i).1.length_le
      have bytes := (byte_part i).length_le
      exact ⟨((textsAt_part ps i).1.eq_of_length (by omega)).symm,
        ((byte_part i).eq_of_length (by omega)).symm⟩
    refine ⟨fun n nested => ?_, fun i lt covered => ?_⟩
    · have range := order.ranges (ps.get n) (List.get_mem ps n)
      rw [← (ps.get n).textAt_start]
      exact (textsAt_part ps _).2.mp (split _ (by omega)).1 n nested
    · by_contra back
      have copied := (split i (by omega)).2
      rw [if_pos ⟨lt, by omega⟩, if_neg fun kept => kept.2 covered] at copied
      cases copied
  · intro clean i _
    have texts : textsAt ps (fun _ => true) i = textsAt ps (outermost ps) i := by
      refine (textsAt_part ps i).2.mpr fun n nested => ?_
      rw [Patch.textAt, clean.no_text n nested, ite_self]
    have kept : (i < len ∧ cursor ps i 0 ≤ i) ↔ (i < len ∧ ¬∃ k ∈ ps, k.Covers i) := by
      constructor
      · rintro ⟨lt, back⟩
        exact ⟨lt, fun covered => Nat.not_lt.mpr back (clean.no_return i lt covered)⟩
      · rintro ⟨lt, free⟩
        exact ⟨lt, uncovered_cursor (Nat.zero_le i) free⟩
    rw [texts]
    exact congrArg _ (if_congr kept rfl rfl)

section Apart

variable {ps : List (Patch α)}

theorem cursor_above {i p : Nat} (inside : i < p)
    (ends : ∀ k ∈ ps, i < k.stop) : i < cursor ps i p := by
  induction ps generalizing p with
  | nil => exact inside
  | cons k ps ih =>
    unfold cursor
    split
    · exact ih (ends k List.mem_cons_self) fun j mem => ends j (List.mem_cons_of_mem k mem)
    · exact inside

theorem covered_cursor {i p : Nat}
    (rising : ps.Pairwise fun a b => a.start ≤ b.start ∧ a.stop < b.stop)
    (covered : ∃ k ∈ ps, k.Covers i) : i < cursor ps i p := by
  induction ps generalizing p with
  | nil => simp at covered
  | cons k ps ih =>
    obtain ⟨first, rising⟩ := List.pairwise_cons.mp rising
    obtain ⟨j, mem, covers⟩ := covered
    rcases List.mem_cons.mp mem with same | mem
    · subst same
      rw [cursor, if_pos covers.1]
      exact cursor_above covers.2 fun l mem => Nat.lt_trans covers.2 (first l mem).2
    · rw [cursor, if_pos (Nat.le_trans (first j mem).1 covers.1)]
      exact ih rising ⟨j, mem, covers⟩

theorem clean_of_unnested {len : Nat} (order : Ordered len ps)
    (apart : ∀ n, ¬Nested ps n) : Clean len ps := by
  refine ⟨fun n nested => absurd nested (apart n), fun i _ covered => covered_cursor ?_ covered⟩
  rw [List.pairwise_iff_getElem]
  intro m n inside_m inside_n before
  have starts := List.pairwise_iff_getElem.mp order.sorted m n inside_m inside_n before
  refine ⟨starts, ?_⟩
  by_contra ends
  exact apart ⟨n, inside_n⟩ ⟨⟨m, inside_m⟩, ⟨starts, Nat.not_lt.mp ends⟩, .inl before⟩

end Apart

end XinuRpi5.Lib.Splicing
