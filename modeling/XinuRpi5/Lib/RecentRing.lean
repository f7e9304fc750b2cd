/- source: none (library)
   digest: A ring of fixed capacity holds the most recent entries of its history. -/

import Mathlib.Data.List.Basic
import Mathlib.Data.Nat.ModEq

namespace XinuRpi5.Lib.RecentRing

/-- The slots below the capacity, and the one that is overwritten next. -/
structure RingBuffer (α : Type*) where
  slots : Nat → Option α
  next : Nat

section Operations

variable {α : Type*} (n : Nat)

def empty : RingBuffer α := ⟨fun _ => none, 0⟩

def store (r : RingBuffer α) (a : α) : RingBuffer α :=
  ⟨fun j => if j = r.next then some a else r.slots j, (r.next + 1) % n⟩

def find (r : RingBuffer α) (p : α → Bool) : Option α :=
  (List.range n).findSome? fun j => (r.slots j).filter p

/-- The last `n` entries of a history, oldest first. -/
def recent (history : List α) : List α := history.drop (history.length - n)

end Operations

variable {α : Type*} {n : Nat} {r : RingBuffer α} {history : List α}

/-- The ring after the entries of `history` were stored in order: entry `i` went
to slot `i % n`. -/
structure Holds (n : Nat) (r : RingBuffer α) (history : List α) : Prop where
  next : r.next = history.length % n
  kept : ∀ i a, history[i]? = some a → history.length ≤ i + n → r.slots (i % n) = some a
  only : ∀ j a, r.slots j = some a →
    ∃ i, history[i]? = some a ∧ history.length ≤ i + n ∧ i % n = j

theorem holds_empty : Holds n (empty : RingBuffer α) [] := by
  refine ⟨by simp [empty], ?_, ?_⟩
  · intro i a found
    simp at found
  · intro j a found
    simp [empty] at found

private theorem slot_ne {i len : Nat} (less : i < len) (near : len < i + n) :
    i % n ≠ len % n := by
  intro same
  have divides : n ∣ len - i := (Nat.modEq_iff_dvd' less.le).mp same
  have := Nat.le_of_dvd (by omega) divides
  omega

theorem Holds.store (h : Holds n r history) (pos : 0 < n) (a : α) :
    Holds n (store n r a) (history ++ [a]) := by
  refine ⟨?_, ?_, ?_⟩
  · simp only [RecentRing.store, h.next, List.length_append, List.length_singleton]
    exact Nat.mod_add_mod _ _ _
  · intro i b found near
    rw [List.length_append, List.length_singleton] at near
    by_cases last : i = history.length
    · subst last
      have same : b = a := by simpa using found.symm
      simp only [RecentRing.store, h.next, same, if_true]
    · have less : i < history.length := by
        have := (List.getElem?_eq_some_iff.mp found).1
        rw [List.length_append, List.length_singleton] at this
        omega
      rw [List.getElem?_append_left less] at found
      have apart : i % n ≠ history.length % n := slot_ne less (by omega)
      simp only [RecentRing.store, h.next, if_neg apart]
      exact h.kept i b found (by omega)
  · intro j b found
    simp only [RecentRing.store, h.next] at found
    rw [List.length_append, List.length_singleton]
    by_cases here : j = history.length % n
    · rw [if_pos here] at found
      refine ⟨history.length, ?_, ?_, here.symm⟩
      · simpa using found
      · omega
    · rw [if_neg here] at found
      obtain ⟨i, old, near, slot⟩ := h.only j b found
      have less := (List.getElem?_eq_some_iff.mp old).1
      refine ⟨i, by rw [List.getElem?_append_left less]; exact old, ?_, slot⟩
      by_contra far
      have wrapped : history.length = i + n := by omega
      apply here
      rw [wrapped, Nat.add_mod_right]
      exact slot.symm

theorem mem_recent {a : α} :
    a ∈ recent n history ↔ ∃ i, history[i]? = some a ∧ history.length ≤ i + n := by
  unfold recent
  rw [List.mem_iff_getElem?]
  constructor
  · rintro ⟨i, found⟩
    rw [List.getElem?_drop] at found
    exact ⟨_, found, by omega⟩
  · rintro ⟨i, found, near⟩
    refine ⟨i - (history.length - n), ?_⟩
    rw [List.getElem?_drop]
    have : history.length - n + (i - (history.length - n)) = i := by omega
    rw [this]
    exact found

theorem find_slot {p : α → Bool} {a : α} (found : find n r p = some a) :
    ∃ j, r.slots j = some a ∧ p a = true := by
  obtain ⟨j, _, hit⟩ := List.exists_of_findSome?_eq_some found
  exact ⟨j, Option.filter_eq_some_iff.mp hit⟩

theorem Holds.find_mem (h : Holds n r history) {p : α → Bool} {a : α}
    (found : find n r p = some a) : a ∈ recent n history ∧ p a = true := by
  obtain ⟨j, slot, test⟩ := find_slot found
  obtain ⟨i, at', near, _⟩ := h.only j a slot
  exact ⟨mem_recent.mpr ⟨i, at', near⟩, test⟩

theorem Holds.find_eq_none (h : Holds n r history) (pos : 0 < n) {p : α → Bool} :
    find n r p = none ↔ ∀ a ∈ recent n history, p a = false := by
  constructor
  · intro none a listed
    obtain ⟨i, at', near⟩ := mem_recent.mp listed
    have slot := h.kept i a at' near
    have miss := List.findSome?_eq_none_iff.mp none (i % n)
      (List.mem_range.mpr (Nat.mod_lt i pos))
    rw [slot] at miss
    simpa [Option.filter] using miss
  · intro none
    rw [find, List.findSome?_eq_none_iff]
    intro j _
    cases slot : r.slots j with
    | none => rfl
    | some a =>
      obtain ⟨i, at', near, _⟩ := h.only j a slot
      simp [Option.filter, none a (mem_recent.mpr ⟨i, at', near⟩)]

end XinuRpi5.Lib.RecentRing
