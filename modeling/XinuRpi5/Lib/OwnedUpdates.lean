/- source: none (library)
   digest: Updates of single places of a memory, carried out in parts that own different places. -/

import Mathlib.Data.List.Sort

/-!
An update reads and writes one place. A list of updates is cut into the parts of several
owners; each part keeps the order of the list. If every place has one owner, the parts can be
carried out one after the other in any order.
-/

namespace XinuRpi5.Lib.OwnedUpdates

section Updates

variable {κ σ : Type*} [DecidableEq κ]

abbrev Update (κ σ : Type*) := κ × (σ → σ)

def run (ws : List (Update κ σ)) (mem : κ → σ) : κ → σ :=
  ws.foldl (fun mem w => Function.update mem w.1 (w.2 (mem w.1))) mem

def atPlace (ws : List (Update κ σ)) (k : κ) : List (σ → σ) :=
  (ws.filter fun w => w.1 = k).map Prod.snd

theorem run_apply (ws : List (Update κ σ)) (k : κ) : ∀ mem : κ → σ,
    run ws mem k = (atPlace ws k).foldl (fun v f => f v) (mem k) := by
  induction ws with
  | nil => exact fun mem => rfl
  | cons w ws ih =>
    intro mem
    change run ws (Function.update mem w.1 (w.2 (mem w.1))) k = _
    rw [ih]
    unfold atPlace
    by_cases here : w.1 = k
    · rw [List.filter_cons, if_pos (decide_eq_true here), here, Function.update_self]
      rfl
    · rw [List.filter_cons, if_neg (by rwa [decide_eq_true_eq]),
        Function.update_of_ne fun same => here same.symm]

theorem run_append (a b : List (Update κ σ)) (mem : κ → σ) : run (a ++ b) mem = run b (run a mem) :=
  List.foldl_append

variable {β : Type*}

theorem foldl_run (part : β → List (Update κ σ)) (bs : List β) : ∀ mem : κ → σ,
    bs.foldl (fun mem b => run (part b) mem) mem = run (bs.flatMap part) mem := by
  induction bs with
  | nil => exact fun mem => rfl
  | cons b bs ih =>
    intro mem
    rw [List.foldl_cons, ih, List.flatMap_cons, run_append]

theorem atPlace_flatMap {ws : List (Update κ σ)} {owns : β → κ → Bool} (k : κ) (bs : List β) :
    atPlace (bs.flatMap fun b => ws.filter fun w => owns b w.1) k =
      (bs.filter fun b => owns b k).flatMap fun _ => atPlace ws k := by
  induction bs with
  | nil => rfl
  | cons b bs ih =>
    unfold atPlace at ih ⊢
    rw [List.flatMap_cons, List.filter_append, List.map_append, ih, List.filter_filter]
    cases mine : owns b k with
    | true =>
      rw [List.filter_cons, if_pos mine, List.flatMap_cons]
      congr 2
      refine List.filter_congr fun w _ => ?_
      by_cases here : w.1 = k
      · rw [here, mine, Bool.and_true]
      · rw [decide_eq_false here, Bool.false_and]
    | false =>
      rw [List.filter_cons, if_neg (by rw [mine]; exact Bool.false_ne_true)]
      have none : (ws.filter fun w => decide (w.1 = k) && owns b w.1) = [] := by
        refine List.filter_eq_nil_iff.mpr fun w _ both => ?_
        obtain ⟨here, own⟩ := Bool.and_eq_true_iff.mp both
        rw [of_decide_eq_true here, mine] at own
        exact Bool.false_ne_true own
      rw [none]
      rfl

theorem run_parts {ws : List (Update κ σ)} (owns : β → κ → Bool) {part : β → List (Update κ σ)}
    {bs : List β} (parts : ∀ b ∈ bs, part b = ws.filter fun w => owns b w.1)
    (once : ∀ w ∈ ws, bs.countP (fun b => owns b w.1) = 1) (mem : κ → σ) :
    bs.foldl (fun mem b => run (part b) mem) mem = run ws mem := by
  have same : bs.flatMap part = bs.flatMap fun b => ws.filter fun w => owns b w.1 :=
    List.flatMap_congr parts
  rw [foldl_run, same]
  ext k
  rw [run_apply, run_apply, atPlace_flatMap]
  by_cases touched : ∃ w ∈ ws, w.1 = k
  · obtain ⟨w, listed, rfl⟩ := touched
    have one := once w listed
    rw [List.countP_eq_length_filter] at one
    obtain ⟨b, single⟩ := List.length_eq_one_iff.mp one
    rw [single, List.flatMap_singleton]
  · have none : atPlace ws k = [] := by
      unfold atPlace
      rw [List.filter_eq_nil_iff.mpr, List.map_nil]
      intro w listed here
      exact touched ⟨w, listed, of_decide_eq_true here⟩
    rw [none, List.flatMap_eq_nil_iff.mpr fun _ _ => rfl]

end Updates

section Bands

/-- The numbers of a loop from `a` to `b`, both included. -/
def upTo (a b : Int) : List Int := (List.range (b + 1 - a).toNat).map fun k => a + (k : Nat)

theorem mem_upTo {a b x : Int} : x ∈ upTo a b ↔ a ≤ x ∧ x ≤ b := by
  unfold upTo
  rw [List.mem_map]
  constructor
  · rintro ⟨k, inside, rfl⟩
    have less := List.mem_range.mp inside
    omega
  · rintro ⟨low, high⟩
    exact ⟨(x - a).toNat, List.mem_range.mpr (by omega), by omega⟩

theorem sorted_upTo (a b : Int) : (upTo a b).Pairwise (· < ·) := by
  unfold upTo
  refine List.pairwise_map.mpr (List.pairwise_lt_range.imp fun less => ?_)
  omega

theorem filter_upTo {a b c d : Int} {p : Int → Bool}
    (same : ∀ x, c ≤ x ∧ x ≤ d ↔ (a ≤ x ∧ x ≤ b) ∧ p x = true) :
    upTo c d = (upTo a b).filter p := by
  refine (sorted_upTo c d).eq_of_mem_iff ((sorted_upTo a b).filter p) fun x => ?_
  rw [List.mem_filter, mem_upTo, mem_upTo]
  exact same x

/-- Rows from `lo` to before `hi`. -/
structure Band where
  lo : Nat
  hi : Nat

/-- A cut of the first `height` rows: every row is in one band. -/
structure Bands (height : Nat) where
  list : List Band
  inside : ∀ b ∈ list, b.hi ≤ height
  once : ∀ row < height, list.countP (fun b => b.lo ≤ row ∧ row < b.hi) = 1

variable {σ : Type*} {width height : Nat}

/-- The place is in one of the rows from `lo` to before `hi`. -/
def inRows (width : Nat) (lo hi : Int) (i : Int) : Bool := lo * width ≤ i ∧ i < hi * width

def InRow (width : Nat) (y i : Int) : Prop := y * width ≤ i ∧ i < (y + 1) * width

theorem inRows_iff {y i : Int} (row : InRow width y i) {lo hi : Int} :
    inRows width lo hi i = true ↔ lo ≤ y ∧ y < hi := by
  obtain ⟨low, high⟩ := row
  have wide : (0 : Int) < width := by
    rw [Int.add_mul, Int.one_mul] at high
    omega
  unfold inRows
  rw [decide_eq_true_eq]
  constructor
  · rintro ⟨above, below⟩
    have first : lo * width < (y + 1) * width := lt_of_le_of_lt above high
    have last : y * width < hi * width := lt_of_le_of_lt low below
    have less := Int.lt_of_mul_lt_mul_right first wide.le
    have more := Int.lt_of_mul_lt_mul_right last wide.le
    omega
  · rintro ⟨above, below⟩
    constructor
    · exact (Int.mul_le_mul_of_nonneg_right above wide.le).trans low
    · exact lt_of_lt_of_le high (Int.mul_le_mul_of_nonneg_right (by omega) wide.le)

/-- A drawing that for every band makes the updates of a whole drawing which are in its rows. -/
structure Banded (width height : Nat) (draw : Int → Int → List (Update Int σ)) : Prop where
  part : ∀ lo hi : Int, 0 ≤ lo → hi ≤ height →
    draw lo hi = (draw 0 height).filter fun w => inRows width lo hi w.1
  rows : ∀ w ∈ draw 0 height, ∃ y : Int, 0 ≤ y ∧ y < height ∧ InRow width y w.1

theorem Banded.append {f g : Int → Int → List (Update Int σ)} (first : Banded width height f)
    (second : Banded width height g) : Banded width height fun lo hi => f lo hi ++ g lo hi where
  part lo hi low high := by
    rw [List.filter_append, ← first.part lo hi low high, ← second.part lo hi low high]
  rows w listed := (List.mem_append.mp listed).elim (first.rows w) (second.rows w)

theorem Banded.flatMap {ι : Type*} (l : List ι) {f : ι → Int → Int → List (Update Int σ)}
    (each : ∀ a ∈ l, Banded width height (f a)) :
    Banded width height fun lo hi => l.flatMap fun a => f a lo hi where
  part lo hi low high := by
    rw [List.filter_flatMap]
    exact List.flatMap_congr fun a listed => (each a listed).part lo hi low high
  rows w listed := by
    obtain ⟨a, member, drawn⟩ := List.mem_flatMap.mp listed
    exact (each a member).rows w drawn

theorem Banded.none : Banded width height fun _ _ => ([] : List (Update Int σ)) where
  part _ _ _ _ := rfl
  rows _ listed := (List.not_mem_nil listed).elim

/-- A loop over the rows of a shape, from the first to the last one in the band, whose turns stay
in their rows. -/
theorem Banded.rowLoop (shape : Int → Prop) {first last : Int → Int}
    {row : Int → List (Update Int σ)}
    (bounds : ∀ lo hi y : Int, 0 ≤ lo → hi ≤ height →
      (first lo ≤ y ∧ y ≤ last hi ↔ shape y ∧ lo ≤ y ∧ y < hi))
    (stays : ∀ y : Int, ∀ w ∈ row y, InRow width y w.1) :
    Banded width height fun lo hi => (upTo (first lo) (last hi)).flatMap row where
  part lo hi low high := by
    have loop : upTo (first lo) (last hi) =
        (upTo (first 0) (last height)).filter fun y => decide (lo ≤ y ∧ y < hi) := by
      refine filter_upTo fun y => ?_
      rw [bounds lo hi y low high, bounds 0 height y le_rfl le_rfl, decide_eq_true_eq]
      constructor
      · rintro ⟨inside, above, below⟩
        exact ⟨⟨inside, by omega, by omega⟩, above, below⟩
      · rintro ⟨⟨inside, -, -⟩, above, below⟩
        exact ⟨inside, above, below⟩
    rw [loop]
    generalize upTo (first 0) (last height) = ys
    induction ys with
    | nil => rfl
    | cons y ys ih =>
      rw [List.flatMap_cons, List.filter_append, ← ih]
      by_cases here : lo ≤ y ∧ y < hi
      · have all : ((row y).filter fun w => inRows width lo hi w.1) = row y :=
          List.filter_eq_self.mpr fun w listed => (inRows_iff (stays y w listed)).mpr here
        rw [List.filter_cons, if_pos (decide_eq_true here), List.flatMap_cons, all]
      · have none : ((row y).filter fun w => inRows width lo hi w.1) = [] :=
          List.filter_eq_nil_iff.mpr fun w listed inside =>
            here ((inRows_iff (stays y w listed)).mp inside)
        rw [List.filter_cons, if_neg (by rwa [decide_eq_true_eq]), none, List.nil_append]
  rows w listed := by
    obtain ⟨y, inside, drawn⟩ := List.mem_flatMap.mp listed
    have bound := (bounds 0 height y le_rfl le_rfl).mp (mem_upTo.mp inside)
    exact ⟨y, bound.2.1, bound.2.2, stays y w drawn⟩

theorem Banded.run_bands {draw : Int → Int → List (Update Int σ)}
    (banded : Banded width height draw) (bands : Bands height) (mem : Int → σ) :
    bands.list.foldl (fun mem b => run (draw b.lo b.hi) mem) mem = run (draw 0 height) mem := by
  refine run_parts (fun b => inRows width b.lo b.hi) ?_ ?_ mem
  · intro b listed
    exact banded.part b.lo b.hi (Int.natCast_nonneg _) (by exact_mod_cast bands.inside b listed)
  · intro w listed
    obtain ⟨y, low, high, row⟩ := banded.rows w listed
    rw [← bands.once y.toNat (by omega)]
    refine List.countP_congr fun b _ => ?_
    rw [inRows_iff row, decide_eq_true_eq]
    omega

end Bands

end XinuRpi5.Lib.OwnedUpdates
