/- source: none (library)
   digest: Non-attacking queens placed row by row, and the ways to complete a board. -/

import Mathlib.Data.Fintype.CardEmbedding

namespace XinuRpi5.Lib.Queens

/-- Queens in two rows, `i` and `j`, do not attack each other from columns `a` and `b`. -/
def Apart (i a j b : Nat) : Prop := a ≠ b ∧ a + i ≠ b + j ∧ a + j ≠ b + i

instance (i a j b : Nat) : Decidable (Apart i a j b) := inferInstanceAs (Decidable (_ ∧ _ ∧ _))

theorem Apart.symm {i a j b : Nat} (h : Apart i a j b) : Apart j b i a :=
  ⟨h.1.symm, h.2.1.symm, h.2.2.symm⟩

/-- Queens in the first rows of a board, one in each, none of which attacks another. -/
structure Placement (n : Nat) where
  columns : List Nat
  inside : ∀ {i a : Nat}, columns[i]? = some a → a < n
  apart : ∀ {i a j b : Nat}, columns[i]? = some a → columns[j]? = some b → i ≠ j →
    Apart i a j b

variable {n : Nat}

/-- A full board: `q i` is the column of the queen in row `i`. -/
def Solution (q : Fin n → Fin n) : Prop := ∀ i j : Fin n, i ≠ j → Apart i (q i) j (q j)

instance (q : Fin n → Fin n) : Decidable (Solution q) :=
  inferInstanceAs (Decidable (∀ i j : Fin n, i ≠ j → Apart i (q i) j (q j)))

/-- The first rows of `q` are as `columns` has them. -/
def Completes (columns : List Nat) (q : Fin n → Fin n) : Prop :=
  ∀ i : Fin n, ∀ a ∈ columns[(i : Nat)]?, (q i : Nat) = a

instance (columns : List Nat) (q : Fin n → Fin n) : Decidable (Completes columns q) :=
  inferInstanceAs (Decidable (∀ i : Fin n, ∀ a ∈ columns[(i : Nat)]?, (q i : Nat) = a))

def solutions (n : Nat) : Finset (Fin n → Fin n) := Finset.univ.filter Solution

def completions (n : Nat) (columns : List Nat) : Nat :=
  ((solutions n).filter (Completes columns)).card

theorem mem_solutions {q : Fin n → Fin n} : q ∈ solutions n ↔ Solution q := by
  simp [solutions]

theorem getElem?_concat {columns : List Nat} {c i a : Nat} :
    (columns ++ [c])[i]? = some a ↔ columns[i]? = some a ∨ i = columns.length ∧ a = c := by
  rcases Nat.lt_trichotomy i columns.length with less | rfl | more
  · simp [List.getElem?_append_left less, Nat.ne_of_lt less]
  · simp [eq_comm]
  · have past : (columns ++ [c])[i]? = none := List.getElem?_eq_none (by simp; omega)
    have past' : columns[i]? = none := List.getElem?_eq_none (by omega)
    simp [past, past', Nat.ne_of_gt more]

section Placement

variable (p : Placement n)

def Placement.rows : Nat := p.columns.length

/-- A queen in column `c` of the next row is attacked by none that is there. -/
def Placement.Free (c : Nat) : Prop :=
  ∀ i a, p.columns[i]? = some a → Apart i a p.columns.length c

def Placement.empty (n : Nat) : Placement n where
  columns := []
  inside := by simp
  apart := by simp

variable {p}

theorem Placement.row_lt {i a : Nat} (queen : p.columns[i]? = some a) : i < p.rows :=
  (List.getElem?_eq_some_iff.1 queen).1

def Placement.push (p : Placement n) (c : Nat) (bound : c < n) (free : p.Free c) :
    Placement n where
  columns := p.columns ++ [c]
  inside := by
    intro i a queen
    rcases getElem?_concat.1 queen with old | ⟨-, rfl⟩
    · exact p.inside old
    · exact bound
  apart := by
    intro i a j b first second other
    rcases getElem?_concat.1 first with old | ⟨rfl, rfl⟩
    · rcases getElem?_concat.1 second with old' | ⟨rfl, rfl⟩
      · exact p.apart old old' other
      · exact free i a old
    · rcases getElem?_concat.1 second with old' | ⟨rfl, rfl⟩
      · exact (free j b old').symm
      · exact absurd rfl other

theorem Placement.nodup : p.columns.Nodup := by
  rw [List.nodup_iff_getElem?_ne_getElem?]
  intro i j less bound same
  have first := List.getElem?_eq_getElem (Nat.lt_trans less bound)
  have second := List.getElem?_eq_getElem bound
  rw [first, second, Option.some_inj] at same
  exact (p.apart first second (Nat.ne_of_lt less)).1 same

theorem Placement.subset : p.columns.toFinset ⊆ Finset.range n := by
  intro c member
  obtain ⟨i, queen⟩ := List.mem_iff_getElem?.1 (List.mem_toFinset.1 member)
  exact Finset.mem_range.2 (p.inside queen)

theorem Placement.card_columns : p.columns.toFinset.card = p.rows :=
  List.toFinset_card_of_nodup p.nodup

theorem Placement.rows_le : p.rows ≤ n := by
  calc p.rows = p.columns.toFinset.card := p.card_columns.symm
    _ ≤ (Finset.range n).card := Finset.card_le_card p.subset
    _ = n := Finset.card_range n

theorem Placement.full_iff : p.rows = n ↔ ∀ j, j ∈ p.columns ↔ j < n := by
  constructor
  · intro full j
    have every : p.columns.toFinset = Finset.range n :=
      Finset.eq_of_subset_of_card_le p.subset (by rw [p.card_columns, full, Finset.card_range])
    rw [← List.mem_toFinset, every, Finset.mem_range]
  · intro every
    have same : p.columns.toFinset = Finset.range n := by
      ext j
      rw [List.mem_toFinset, every, Finset.mem_range]
    rw [← p.card_columns, same, Finset.card_range]

end Placement

theorem completes_concat {columns : List Nat} {c : Nat} {q : Fin n → Fin n}
    (room : columns.length < n) :
    Completes (columns ++ [c]) q ↔ Completes columns q ∧ (q ⟨columns.length, room⟩ : Nat) = c := by
  constructor
  · intro all
    refine ⟨fun i a queen => all i a ?_, all ⟨columns.length, room⟩ c ?_⟩
    · exact getElem?_concat.2 (.inl queen)
    · exact getElem?_concat.2 (.inr ⟨rfl, rfl⟩)
  · rintro ⟨old, new⟩ i a queen
    rcases getElem?_concat.1 queen with before | ⟨here, rfl⟩
    · exact old i a before
    · rw [← new]
      congr 2
      exact Fin.ext here

theorem completions_step {columns : List Nat} (room : columns.length < n) :
    completions n columns = ∑ c ∈ Finset.range n, completions n (columns ++ [c]) := by
  have split := Finset.card_eq_sum_card_fiberwise
    (s := (solutions n).filter (Completes columns)) (t := Finset.range n)
    (f := fun q => (q ⟨columns.length, room⟩ : Nat))
    fun q _ => Finset.mem_coe.2 (Finset.mem_range.2 (q _).isLt)
  rw [completions, split]
  apply Finset.sum_congr rfl
  intro c _
  rw [completions, Finset.filter_filter]
  congr 1
  ext q
  rw [Finset.mem_filter, Finset.mem_filter, completes_concat room]

theorem completions_attacked {p : Placement n} {c : Nat} (room : p.rows < n)
    (attacked : ¬ p.Free c) : completions n (p.columns ++ [c]) = 0 := by
  rw [completions, Finset.card_eq_zero, Finset.filter_eq_empty_iff]
  intro q solution completes
  apply attacked
  intro i a queen
  have before := p.row_lt queen
  obtain ⟨old, new⟩ := (completes_concat room).1 completes
  have here : (q ⟨i, Nat.lt_trans before room⟩ : Nat) = a := old _ a queen
  have apart := mem_solutions.1 solution ⟨i, Nat.lt_trans before room⟩ ⟨p.rows, room⟩
    fun same => Nat.ne_of_lt before (Fin.mk.inj same)
  rw [← here, ← new]
  exact apart

theorem completions_full {p : Placement n} (full : p.rows = n) :
    completions n p.columns = 1 := by
  have queen : ∀ i : Fin n, ∃ a : Fin n, p.columns[(i : Nat)]? = some (a : Nat) := by
    intro i
    have bound : (i : Nat) < p.columns.length := Nat.lt_of_lt_of_eq i.isLt full.symm
    exact ⟨⟨_, p.inside (List.getElem?_eq_getElem bound)⟩, List.getElem?_eq_getElem bound⟩
  choose q placed using queen
  rw [completions, Finset.card_eq_one]
  refine ⟨q, ?_⟩
  ext r
  rw [Finset.mem_filter, mem_solutions, Finset.mem_singleton]
  constructor
  · rintro ⟨-, completes⟩
    ext i
    exact completes i _ (placed i)
  · rintro rfl
    constructor
    · intro i j other
      exact p.apart (placed i) (placed j) fun same => other (Fin.ext same)
    · intro i a same
      rw [placed i, Option.mem_def, Option.some_inj] at same
      exact same

theorem completions_nil : completions n [] = (solutions n).card := by
  rw [completions, Finset.filter_true_of_mem]
  intro q _ i a none
  simp at none

theorem card_solutions_le : (solutions n).card ≤ n.factorial := by
  have embeds : solutions n ⊆ Finset.univ.image fun e : Fin n ↪ Fin n => (e : Fin n → Fin n) := by
    intro q solution
    have injective : Function.Injective q := by
      intro i j same
      by_contra other
      exact (mem_solutions.1 solution i j other).1 (congrArg Fin.val same)
    exact Finset.mem_image.2 ⟨⟨q, injective⟩, Finset.mem_univ _, rfl⟩
  calc (solutions n).card ≤ _ := Finset.card_le_card embeds
    _ ≤ (Finset.univ : Finset (Fin n ↪ Fin n)).card := Finset.card_image_le
    _ = n.factorial := by
      rw [Finset.card_univ, Fintype.card_embedding_eq, Fintype.card_fin, Nat.descFactorial_self]

end XinuRpi5.Lib.Queens
