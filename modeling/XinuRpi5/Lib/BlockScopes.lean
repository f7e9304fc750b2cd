/- source: none (library)
   digest: Declarations in nested blocks, and when the latest one is the one that is visible. -/

import Mathlib.Data.List.Nodup
import Mathlib.Data.List.Pairwise

/-!
Blocks are numbered in the order in which they are opened. The open blocks stand innermost
first and the declarations latest first.
-/

namespace XinuRpi5.Lib.BlockScopes

structure Entry (ν δ : Type) where
  name : ν
  decl : δ
  block : Nat

section Lookup

variable {ν δ : Type} [DecidableEq ν]

def latest (entries : List (Entry ν δ)) (x : ν) : Option (Entry ν δ) :=
  entries.find? fun e => e.name = x

/-- The latest declaration of a name in the innermost open block that has one. -/
def visible (blocks : List Nat) (entries : List (Entry ν δ)) (x : ν) : Option (Entry ν δ) :=
  blocks.findSome? fun b => entries.find? fun e => e.name = x ∧ e.block = b

/-- Blocks are opened inside one another, and a block is declared in only while it is
the innermost one. -/
structure Nested (blocks : List Nat) (entries : List (Entry ν δ)) : Prop where
  inner : blocks.Pairwise (· > ·)
  ordered : entries.Pairwise fun e f => e.block ∈ blocks → f.block ∈ blocks → f.block ≤ e.block

variable {blocks : List Nat} {entries : List (Entry ν δ)} {x : ν} {e : Entry ν δ}

theorem latest_name (found : latest entries x = some e) : e.name = x := by
  simpa using List.find?_some found

theorem latest_mem (found : latest entries x = some e) : e ∈ entries :=
  List.mem_of_find?_eq_some found

theorem visible_spec (found : visible blocks entries x = some e) :
    e ∈ entries ∧ e.name = x ∧ e.block ∈ blocks := by
  obtain ⟨b, here, inBlock⟩ := List.exists_of_findSome?_eq_some found
  have both : e.name = x ∧ e.block = b := by simpa using List.find?_some inBlock
  exact ⟨List.mem_of_find?_eq_some inBlock, both.1, both.2 ▸ here⟩

theorem visible_eq_none_iff :
    visible blocks entries x = none ↔ ∀ e ∈ entries, e.name = x → e.block ∉ blocks := by
  unfold visible
  rw [List.findSome?_eq_none_iff]
  constructor
  · intro none e mem named here
    have := List.find?_eq_none.mp (none e.block here) e mem
    exact this (decide_eq_true ⟨named, rfl⟩)
  · intro closed b here
    rw [List.find?_eq_none]
    intro e mem both
    have both := of_decide_eq_true both
    exact closed e mem both.1 (both.2 ▸ here)

end Lookup

section Rules

variable {ν δ : Type} {blocks : List Nat} {entries : List (Entry ν δ)}

theorem Nested.opens (nested : Nested blocks entries) {n : Nat} (fresh : ∀ b ∈ blocks, b < n)
    (above : ∀ e ∈ entries, e.block < n) : Nested (n :: blocks) entries := by
  constructor
  · exact List.pairwise_cons.mpr ⟨fresh, nested.inner⟩
  · refine nested.ordered.imp_of_mem ?_
    intro e f he hf below eOpen fOpen
    have eOld := (List.mem_cons.mp eOpen).resolve_left (Nat.ne_of_lt (above e he))
    have fOld := (List.mem_cons.mp fOpen).resolve_left (Nat.ne_of_lt (above f hf))
    exact below eOld fOld

theorem Nested.closes {b : Nat} (nested : Nested (b :: blocks) entries) :
    Nested blocks entries := by
  constructor
  · exact (List.pairwise_cons.mp nested.inner).2
  · refine nested.ordered.imp ?_
    intro e f below eOpen fOpen
    exact below (List.mem_cons_of_mem b eOpen) (List.mem_cons_of_mem b fOpen)

theorem Nested.declares {b : Nat} (nested : Nested (b :: blocks) entries) (x : ν) (d : δ) :
    Nested (b :: blocks) (⟨x, d, b⟩ :: entries) := by
  refine ⟨nested.inner, List.pairwise_cons.mpr ⟨?_, nested.ordered⟩⟩
  intro f _ _ fOpen
  rcases List.mem_cons.mp fOpen with same | outer
  · exact Nat.le_of_eq same
  · exact Nat.le_of_lt ((List.pairwise_cons.mp nested.inner).1 _ outer)

theorem Nested.forgets (nested : Nested blocks entries) : Nested blocks ([] : List (Entry ν δ)) :=
  ⟨nested.inner, List.Pairwise.nil⟩

theorem Nested.append_outer (nested : Nested blocks entries) {outer : List (Entry ν δ)}
    (outside : ∀ e ∈ outer, e.block = 0) : Nested blocks (entries ++ outer) := by
  refine ⟨nested.inner, List.pairwise_append.mpr ⟨nested.ordered, ?_, ?_⟩⟩
  · refine List.Pairwise.imp_of_mem ?_ (List.pairwise_of_forall (R := fun _ _ => True)
      fun _ _ => trivial)
    intro e f _ hf _ _ _
    exact Nat.le_trans (Nat.le_of_eq (outside f hf)) (Nat.zero_le _)
  · intro e _ f hf _ _
    exact Nat.le_trans (Nat.le_of_eq (outside f hf)) (Nat.zero_le _)

variable [DecidableEq ν]

/-- An open block has no later declaration of a name than a block inside it. -/
theorem Nested.visible_of_open (nested : Nested blocks entries) {x : ν} {e : Entry ν δ}
    (found : latest entries x = some e) (isOpen : e.block ∈ blocks) :
    visible blocks entries x = some e := by
  cases seen : visible blocks entries x with
  | none =>
    exact absurd isOpen (visible_eq_none_iff.mp seen e (latest_mem found) (latest_name found))
  | some f =>
    obtain ⟨before, b, after, split, inBlock, inner⟩ := List.findSome?_eq_some_iff.mp seen
    obtain ⟨named, rfl⟩ : f.name = x ∧ f.block = b := by simpa using List.find?_some inBlock
    obtain ⟨_, late, rest, rfl, others⟩ := List.find?_eq_some_iff_append.mp found
    have same : f.block = e.block := by
      apply Nat.le_antisymm
      · -- the latest declaration stands in front of every other one
        rcases List.mem_append.mp (List.mem_of_find?_eq_some inBlock) with mem | mem
        · have other := others f mem
          exact absurd (decide_eq_true named) (by simpa using other)
        · rcases List.mem_cons.mp mem with rfl | mem
          · exact Nat.le_refl _
          · have ordered := (List.pairwise_append.mp nested.ordered).2.1
            refine (List.pairwise_cons.mp ordered).1 f mem isOpen ?_
            rw [split]
            exact List.mem_append_right before List.mem_cons_self
      · rw [split] at isOpen
        rcases List.mem_append.mp isOpen with earlier | later
        · have none := List.find?_eq_none.mp (inner e.block earlier) e (latest_mem found)
          exact absurd (decide_eq_true ⟨latest_name found, rfl⟩) none
        · rcases List.mem_cons.mp later with same | outer
          · exact Nat.le_of_eq same
          · have decreasing := nested.inner
            rw [split] at decreasing
            exact Nat.le_of_lt
              ((List.pairwise_cons.mp (List.pairwise_append.mp decreasing).2.1).1 _ outer)
    have first' : (late ++ e :: rest).find? (fun g => g.name = x ∧ g.block = f.block) = some e := by
      refine List.find?_eq_some_iff_append.mpr
        ⟨decide_eq_true ⟨latest_name found, same.symm⟩, late, rest, rfl, ?_⟩
      intro g mem
      have other := others g mem
      simp only [Bool.not_eq_true', decide_eq_false_iff_not] at other ⊢
      exact fun both => other both.1
    exact inBlock.symm.trans first'

theorem Nested.visible_iff (nested : Nested blocks entries)
    (distinct : (entries.map Entry.decl).Nodup) {x : ν} {e : Entry ν δ}
    (found : latest entries x = some e) :
    (visible blocks entries x).map Entry.decl = some e.decl ↔ e.block ∈ blocks := by
  constructor
  · intro same
    obtain ⟨f, seen, eq⟩ := Option.map_eq_some_iff.mp same
    obtain ⟨mem, _, here⟩ := visible_spec seen
    have : f = e := List.inj_on_of_nodup_map distinct mem (latest_mem found) eq
    exact this ▸ here
  · intro isOpen
    rw [nested.visible_of_open found isOpen]
    rfl

end Rules

end XinuRpi5.Lib.BlockScopes
