/- source: cc/cc.c
   digest: Lists as blocks of one heap, and what the operations on them build. -/

import XinuRpi5.Cc.ValueTags
import XinuRpi5.Lib.BumpHeap

/-!
The heap stands at a fixed address. A block holds the length and the elements. A list whose length
does not fit in an int gets fewer cells than are then written: such a list is counted.
-/

namespace XinuRpi5.Cc.ListHeap

open Lib.ReadLog Lib.BumpHeap TaggedWords ValueTags

section Operations

variable {D σ : Type}

/-- `g_lheap` with `g_lheaplen` and `g_lheap_overflows`, the number of lists that were written past
the cells that they got, the strings and boxed numbers, and the rest of the machine. -/
structure State (D σ : Type) where
  lists : Heap Word
  overflows : Nat
  wild : Nat
  str : Word → Text
  dbl : Word → D
  rest : σ

variable (lheap : Word)

def addr (i : Nat) : Word := lheap + BitVec.ofNat 64 (8 * i)

/-- The cell that `v_list_ptr` leads to. -/
def index (w : Word) : Nat := (vPtr w - lheap).toNat / 8

/-- `v_list_ptr(w)[k]`. -/
def State.item (s : State D σ) (w : Word) (k : Nat) : Word := s.lists.cell (index lheap w + k)

def State.items (s : State D σ) (w : Word) : List Word :=
  (List.range (s.item lheap w 0).toNat).map fun k => s.item lheap w (k + 1)

/-- The memory that `v_truthy` looks into. -/
def State.memory (s : State D σ) : Memory D := ⟨s.str, fun a => s.items lheap a, s.dbl⟩

def toInt32 (n : Int) : Int := (BitVec.ofInt 32 n).toInt

def lheapAlloc (ncells : Int) (s : State D σ) : Option Nat × State D σ :=
  if ncells < 0 ∨ 32768 < s.lists.top + ncells then
    (none, { s with overflows := s.overflows + 1 })
  else (some s.lists.top, { s with lists.top := s.lists.top + ncells.toNat })

def State.write (s : State D σ) (b cells : Nat) (f : Nat → Word) : State D σ :=
  { s with
    lists.cell := fun i => if b ≤ i ∧ i < b + cells then f (i - b) else s.lists.cell i
    wild := if b + cells ≤ s.lists.top then s.wild else s.wild + 1 }

/-- A new block with its contents, as a list; `other` where there is no room. -/
def build (other : Word) (cells : Int) (f : Nat → Word) (s : State D σ) : Word × State D σ :=
  match lheapAlloc (toInt32 cells) s with
  | (some b, s) => (vList (addr lheap b), s.write b cells.toNat f)
  | (none, s) => (other, s)

def vListNew (s : State D σ) : Word × State D σ := build lheap (vInt 0) 1 (fun _ => 0) s

def vListLen (w : Word) (s : State D σ) : Word := vInt (if vIsList w then s.item lheap w 0 else 0)

def vListGet (w iv : Word) (s : State D σ) : Word :=
  if vIsList w then
    let i := (vIntOf iv).toInt
    if 0 ≤ i ∧ i < (s.item lheap w 0).toInt then s.item lheap w (1 + i.toNat) else vInt 0
  else vInt 0

def vListPush (w x : Word) (s : State D σ) : Word × State D σ :=
  let n := if vIsList w then (s.item lheap w 0).toInt else 0
  build lheap w (n + 2) (fun k =>
    if k = 0 then BitVec.ofInt 64 (n + 1) else if k ≤ n.toNat then s.item lheap w k else x) s

def vListSet (w iv x : Word) (s : State D σ) : Word × State D σ :=
  if vIsList w then
    let n := (s.item lheap w 0).toInt
    let i := (vIntOf iv).toInt
    if i < 0 ∨ n ≤ i then (w, s)
    else build lheap w (n + 1) (fun k =>
      if k = 0 then BitVec.ofInt 64 n else if k = 1 + i.toNat then x else s.item lheap w k) s
  else (w, s)

def vListZeros (nv : Word) (s : State D σ) : Word × State D σ :=
  let n := max 0 (vIntOf nv).toInt
  build lheap (vInt 0) (n + 1) (fun k => if k = 0 then BitVec.ofInt 64 n else vInt 0) s

end Operations

section Blocks

variable {D σ : Type}

structure Placed (lheap : Word) : Prop where
  aligned : lheap.toNat % 8 = 0
  nonnull : 0 < lheap.toNat
  low : lheap.toNat + 8 * 32768 ≤ 2 ^ 48

variable (lheap : Word)

/-- A list of the heap: a tagged address of a block that was handed out. -/
def IsList (s : State D σ) (w : Word) : Prop :=
  ∃ i, w = vList (addr lheap i) ∧ i + (s.lists.cell i).toNat < s.lists.top

def Valid (s : State D σ) (w : Word) : Prop := vIsList w = true → IsList lheap s w

/-- The heap has its size, and no cell holds a list that is not there. -/
structure Good (s : State D σ) : Prop where
  size : s.lists.top ≤ 32768
  cells : ∀ i, i < s.lists.top → Valid lheap s (s.lists.cell i)

/-- Nothing that was asked for had no room, and no list was written past its cells. -/
def Quiet (s t : State D σ) : Prop := t.overflows = s.overflows ∧ t.wild = s.wild

variable {lheap : Word} {s t : State D σ} {w x : Word} {i : Nat}

theorem pointer_addr (placed : Placed lheap) (inside : i < 32768) : Pointer (addr lheap i) := by
  obtain ⟨aligned, nonnull, low⟩ := placed
  exact pointer_offset (by omega) nonnull (by omega)

theorem index_addr (placed : Placed lheap) (inside : i < 32768) :
    index lheap (vList (addr lheap i)) = i := by
  unfold index
  rw [vPtr_list (pointer_addr placed inside)]
  unfold addr
  rw [BitVec.add_comm, BitVec.add_sub_cancel, BitVec.toNat_ofNat]
  omega

theorem vIsList_addr (placed : Placed lheap) (inside : i < 32768) :
    vIsList (vList (addr lheap i)) = true :=
  (Kind.of_kinds (kinds_list (pointer_addr placed inside))).list

theorem vIsList_small {n : Nat} (small : n < 2 ^ 61) : vIsList (BitVec.ofNat 64 n) = false := by
  unfold vIsList
  rw [bit_eq (BitVec.ofNat 64 n) 61, BitVec.getLsbD_ofNat, Nat.testBit_lt_two_pow small,
    Bool.and_false, Bool.and_false]

theorem IsList.grows (list : IsList lheap s w) (grows : Grows s.lists t.lists) :
    IsList lheap t w := by
  obtain ⟨i, rfl, inside⟩ := list
  have top := grows.top
  refine ⟨i, rfl, ?_⟩
  rw [grows.old i (by omega)]
  omega

theorem Valid.grows (valid : Valid lheap s x) (grows : Grows s.lists t.lists) :
    Valid lheap t x := fun tagged => (valid tagged).grows grows

section

variable (list : IsList lheap s w) (placed : Placed lheap) (good : Good lheap s)

include list placed good

theorem IsList.items_grows (grows : Grows s.lists t.lists) : t.items lheap w = s.items lheap w := by
  obtain ⟨i, rfl, inside⟩ := list
  have size := good.size
  have item (k : Nat) (near : k ≤ (s.lists.cell i).toNat) :
      t.item lheap (vList (addr lheap i)) k = s.item lheap (vList (addr lheap i)) k := by
    unfold State.item
    rw [index_addr placed (by omega)]
    exact grows.old _ (by omega)
  have length : s.item lheap (vList (addr lheap i)) 0 = s.lists.cell i := by
    unfold State.item
    rw [index_addr placed (by omega)]
    rfl
  unfold State.items
  rw [item 0 (Nat.zero_le _), length]
  apply List.map_congr_left
  intro k below
  exact item (k + 1) (List.mem_range.mp below)

theorem IsList.items_valid :
    ∀ x ∈ s.items lheap w, Valid lheap s x := by
  obtain ⟨i, rfl, inside⟩ := list
  have size := good.size
  intro x listed
  obtain ⟨k, below, rfl⟩ := List.mem_map.mp listed
  rw [List.mem_range] at below
  unfold State.item at below ⊢
  rw [index_addr placed (by omega)] at below ⊢
  exact good.cells _ (by rw [Nat.add_zero] at below; omega)

theorem IsList.length_lt :
    (s.item lheap w 0).toNat < 32768 := by
  obtain ⟨i, rfl, inside⟩ := list
  have size := good.size
  unfold State.item
  rw [index_addr placed (by omega), Nat.add_zero]
  omega

theorem IsList.tagged :
    vIsList w = true := by
  obtain ⟨i, rfl, inside⟩ := list
  have size := good.size
  exact vIsList_addr placed (by omega)

end

theorem items_length (s : State D σ) (w : Word) :
    (s.items lheap w).length = (s.item lheap w 0).toNat := by
  unfold State.items
  rw [List.length_map, List.length_range]

theorem item_toInt (list : IsList lheap s w) (placed : Placed lheap) (good : Good lheap s) :
    (s.item lheap w 0).toInt = (s.items lheap w).length := by
  have small := list.length_lt placed good
  rw [items_length, BitVec.toInt_eq_toNat_of_lt (by omega)]

structure Built (lheap : Word) (s : State D σ) (r : Word) (t : State D σ) (xs : List Word) :
    Prop where
  list : IsList lheap t r
  items : t.items lheap r = xs
  grows : Grows s.lists t.lists
  good : Good lheap t

theorem toInt32_le {n : Int} (nonneg : 0 ≤ n) : toInt32 n ≤ n := by
  unfold toInt32
  rw [BitVec.toInt_ofInt]
  unfold Int.bmod
  dsimp only
  split_ifs
  · omega
  · omega

theorem build_quiet {other : Word} {cells : Int} {f : Nat → Word} (nonneg : 0 ≤ cells)
    (quiet : Quiet s (build lheap other cells f s).2) :
    s.lists.top + cells.toNat ≤ 32768 ∧ build lheap other cells f s =
      (vList (addr lheap s.lists.top), { s with lists := s.lists.take cells.toNat f }) := by
  have le := toInt32_le nonneg
  obtain ⟨overflows, wild⟩ := quiet
  unfold build lheapAlloc at overflows wild ⊢
  by_cases full : toInt32 cells < 0 ∨ 32768 < s.lists.top + toInt32 cells
  · rw [if_pos full] at overflows
    exact absurd overflows (Nat.succ_ne_self _)
  · rw [if_neg full] at wild ⊢
    simp only [State.write] at wild ⊢
    by_cases inside : s.lists.top + cells.toNat ≤ s.lists.top + (toInt32 cells).toNat
    · have same : (toInt32 cells).toNat = cells.toNat := by omega
      rw [if_pos inside, same]
      exact ⟨by omega, rfl⟩
    · rw [if_neg inside] at wild
      exact absurd wild (Nat.succ_ne_self _)

theorem build_built {other : Word} {n : Nat} {f : Nat → Word} (placed : Placed lheap)
    (good : Good lheap s) (quiet : Quiet s (build lheap other (n + 1 : Nat) f s).2)
    (length : f 0 = BitVec.ofNat 64 n) (valid : ∀ k < n, Valid lheap s (f (k + 1))) :
    Built lheap s (build lheap other (n + 1 : Nat) f s).1 (build lheap other (n + 1 : Nat) f s).2
      ((List.range n).map fun k => f (k + 1)) := by
  obtain ⟨room, same⟩ := build_quiet (by omega) quiet
  rw [same]
  rw [Int.toNat_natCast] at room ⊢
  have grows := s.lists.take_grows (n + 1) f
  have inside : s.lists.top < 32768 := by omega
  have new (k : Nat) (below : k < n + 1) :
      (s.lists.take (n + 1) f).cell (s.lists.top + k) = f k := Heap.take_new below
  have small : (BitVec.ofNat 64 n).toNat = n := by
    rw [BitVec.toNat_ofNat]
    omega
  refine ⟨⟨s.lists.top, rfl, ?_⟩, ?_, grows, ?_, ?_⟩
  · have first : (s.lists.take (n + 1) f).cell s.lists.top = f 0 := new 0 (by omega)
    show s.lists.top + ((s.lists.take (n + 1) f).cell s.lists.top).toNat < s.lists.top + (n + 1)
    rw [first, length, small]
    omega
  · unfold State.items State.item
    rw [index_addr placed inside]
    simp only [new 0 (by omega), length, small]
    apply List.map_congr_left
    intro k below
    exact new (k + 1) (Nat.succ_lt_succ (List.mem_range.mp below))
  · exact room
  · -- a cell is old, or the length, or an element
    intro i below
    have below : i < s.lists.top + (n + 1) := below
    by_cases old : i < s.lists.top
    · show Valid lheap _ ((s.lists.take (n + 1) f).cell i)
      rw [grows.old i old]
      exact (good.cells i old).grows grows
    · obtain ⟨k, rfl⟩ : ∃ k, i = s.lists.top + k := ⟨i - s.lists.top, by omega⟩
      show Valid lheap _ ((s.lists.take (n + 1) f).cell (s.lists.top + k))
      rw [new k (by omega)]
      cases k with
      | zero =>
        rw [length]
        intro tagged
        rw [vIsList_small (by omega)] at tagged
        cases tagged
      | succ k => exact (valid k (by omega)).grows grows

end Blocks

section Results

variable {D σ : Type} {lheap : Word} {s : State D σ} {w x iv : Word}

/-- The elements that a list operation finds: none in a word that is no list. -/
def elements (lheap : Word) (s : State D σ) (w : Word) : List Word :=
  if vIsList w then s.items lheap w else []

theorem vListNew_built (placed : Placed lheap) (good : Good lheap s)
    (quiet : Quiet s (vListNew lheap s).2) :
    Built lheap s (vListNew lheap s).1 (vListNew lheap s).2 [] :=
  build_built placed good quiet rfl fun k below => absurd below (Nat.not_lt_zero k)

theorem vListPush_built (placed : Placed lheap) (good : Good lheap s) (list : Valid lheap s w)
    (value : Valid lheap s x) (quiet : Quiet s (vListPush lheap w x s).2) :
    Built lheap s (vListPush lheap w x s).1 (vListPush lheap w x s).2
      (elements lheap s w ++ [x]) := by
  obtain ⟨n, length, elems⟩ : ∃ n : Nat,
      (if vIsList w then (s.item lheap w 0).toInt else 0) = n ∧ elements lheap s w =
        (List.range n).map fun k => s.item lheap w (k + 1) := by
    unfold elements
    split_ifs with tagged
    · refine ⟨_, item_toInt (list tagged) placed good, ?_⟩
      rw [items_length]
      rfl
    · exact ⟨0, rfl, rfl⟩
  have old : ∀ y ∈ elements lheap s w, Valid lheap s y := by
    unfold elements
    split_ifs with tagged
    · exact (list tagged).items_valid placed good
    · intro y none
      cases none
  have cells : (n : Int) + 2 = ((n + 1) + 1 : Nat) := by omega
  unfold vListPush at quiet ⊢
  rw [length] at quiet ⊢
  simp only [cells, Int.toNat_natCast] at quiet ⊢
  have built := build_built placed good quiet (by rw [if_pos rfl]; exact BitVec.ofInt_natCast 64 _)
    (fun k below => ?_)
  · have contents : elements lheap s w ++ [x] = (List.range (n + 1)).map fun k =>
        if k + 1 = 0 then BitVec.ofInt 64 (n + 1)
        else if k + 1 ≤ n then s.item lheap w (k + 1) else x := by
      rw [elems, List.range_succ, List.map_append]
      congr 1
      · apply List.map_congr_left
        intro k below
        rw [if_neg (Nat.succ_ne_zero k), if_pos (Nat.succ_le_of_lt (List.mem_range.mp below))]
      · rw [List.map_singleton, if_neg (Nat.succ_ne_zero n), if_neg (by omega)]
    rw [contents]
    exact built
  · rw [if_neg (Nat.succ_ne_zero k)]
    split_ifs with inside
    · apply old
      rw [elems]
      exact List.mem_map.mpr ⟨k, List.mem_range.mpr (by omega), rfl⟩
    · exact value

theorem vListZeros_built (placed : Placed lheap) (good : Good lheap s) (nv : Word)
    (quiet : Quiet s (vListZeros lheap nv s).2) :
    Built lheap s (vListZeros lheap nv s).1 (vListZeros lheap nv s).2
      (List.replicate (vIntOf nv).toInt.toNat (vInt 0)) := by
  obtain ⟨n, length⟩ : ∃ n : Nat, max 0 (vIntOf nv).toInt = n := ⟨_, (Int.toNat_of_nonneg
    (Int.le_max_left _ _)).symm⟩
  have cells : (n : Int) + 1 = ((n + 1) : Nat) := by omega
  have same : (vIntOf nv).toInt.toNat = n := by omega
  unfold vListZeros at quiet ⊢
  rw [length] at quiet ⊢
  simp only [cells] at quiet ⊢
  have built := build_built placed good quiet (by rw [if_pos rfl]; exact BitVec.ofInt_natCast 64 _)
    (fun k below => by
      rw [if_neg (Nat.succ_ne_zero k)]
      intro tagged
      exact absurd tagged (by decide))
  have contents : List.replicate n (vInt 0) = (List.range n).map fun k =>
      if k + 1 = 0 then BitVec.ofInt 64 n else vInt 0 := by
    simp
  rw [same, contents]
  exact built

variable (list : IsList lheap s w)

include list

section

variable (placed : Placed lheap) (good : Good lheap s)

include placed good

theorem vListSet_outside
    (outside : (vIntOf iv).toInt < 0 ∨ (s.items lheap w).length ≤ (vIntOf iv).toInt) :
    vListSet lheap w iv x s = (w, s) := by
  unfold vListSet
  rw [if_pos (list.tagged placed good), item_toInt list placed good]
  exact if_pos outside

theorem vListSet_built (value : Valid lheap s x) {i : Nat} (here : (vIntOf iv).toInt = i)
    (inside : i < (s.items lheap w).length) (quiet : Quiet s (vListSet lheap w iv x s).2) :
    Built lheap s (vListSet lheap w iv x s).1 (vListSet lheap w iv x s).2
      ((s.items lheap w).set i x) := by
  have tagged : vIsList w = true := list.tagged placed good
  have length := item_toInt list placed good
  have old := list.items_valid placed good
  have elems : s.items lheap w = (List.range (s.items lheap w).length).map fun k =>
      s.item lheap w (k + 1) := by
    rw [items_length]
    rfl
  generalize (s.items lheap w).length = n at *
  have cells : (n : Int) + 1 = ((n + 1) : Nat) := by omega
  unfold vListSet at quiet ⊢
  rw [if_pos tagged, length, here] at quiet ⊢
  simp only [cells, Int.toNat_natCast] at quiet ⊢
  rw [if_neg (by omega)] at quiet ⊢
  have built := build_built placed good quiet (by rw [if_pos rfl]; exact BitVec.ofInt_natCast 64 _)
    (fun k below => ?_)
  · have contents : (s.items lheap w).set i x = (List.range n).map fun k =>
        if k + 1 = 0 then BitVec.ofInt 64 n
        else if k + 1 = 1 + i then x else s.item lheap w (k + 1) := by
      rw [elems]
      apply List.ext_getElem
      · simp
      · intro k _ _
        simp only [List.getElem_set, List.getElem_map, List.getElem_range]
        rw [if_neg (Nat.succ_ne_zero k)]
        by_cases same : i = k
        · rw [if_pos same, if_pos (by omega)]
        · rw [if_neg same, if_neg (by omega)]
    rw [contents]
    exact built
  · rw [if_neg (Nat.succ_ne_zero k)]
    split_ifs
    · exact value
    · apply old
      rw [elems]
      exact List.mem_map.mpr ⟨k, List.mem_range.mpr below, rfl⟩

theorem vListGet_eq :
    vListGet lheap w iv s =
      if (vIntOf iv).toInt < 0 then vInt 0
      else (s.items lheap w)[(vIntOf iv).toInt.toNat]?.getD (vInt 0) := by
  unfold vListGet
  rw [if_pos (list.tagged placed good), item_toInt list placed good]
  dsimp only
  generalize (vIntOf iv).toInt = i
  by_cases negative : i < 0
  · rw [if_pos negative, if_neg (by omega)]
  · rw [if_neg negative]
    by_cases inside : i < (s.items lheap w).length
    · have below : i.toNat < (s.item lheap w 0).toNat := by
        rw [← items_length]
        omega
      rw [if_pos ⟨by omega, inside⟩, Nat.add_comm]
      unfold State.items
      rw [List.getElem?_map, List.getElem?_range below]
      rfl
    · rw [if_neg (by omega), List.getElem?_eq_none (by omega)]
      rfl

theorem vListLen_eq :
    vListLen lheap w s = vInt (BitVec.ofNat 64 (s.items lheap w).length) := by
  unfold vListLen
  rw [if_pos (list.tagged placed good), items_length, BitVec.ofNat_toNat, BitVec.setWidth_eq]

end

end Results

end XinuRpi5.Cc.ListHeap
