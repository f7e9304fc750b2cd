/- source: device/video/avm.c
   digest: A frame that is drawn band by band is the frame that is drawn at once. -/

import XinuRpi5.Video.Raster

namespace XinuRpi5.Video.RasterBands

open Lib.OwnedUpdates Raster

section Lines

variable {x0 y0 x1 y1 i j : Int} {p : Pen}

theorem sign_reaches {a b i : Int} : a + sign a b * i = b ↔ i = aAbs (b - a) := by
  unfold sign aAbs
  split_ifs <;> omega

/-- The pen after `i` steps along the columns and `j` along the rows. Twice its error fits in an
`int`. -/
structure Drawn (x0 y0 x1 y1 i j : Int) (p : Pen) : Prop where
  x : p.x = x0 + sign x0 x1 * i
  y : p.y = y0 + sign y0 y1 * j
  low : 0 ≤ i ∧ 0 ≤ j
  high : i ≤ aAbs (x1 - x0) ∧ j ≤ aAbs (y1 - y0)
  err : p.err = (j + 1) * aAbs (x1 - x0) - (i + 1) * aAbs (y1 - y0)
  small : -(2 * aAbs (y1 - y0)) ≤ p.err ∧ p.err ≤ 2 * aAbs (x1 - x0)

theorem Drawn.start : Drawn x0 y0 x1 y1 0 0 ⟨x0, y0, aAbs (x1 - x0) + -aAbs (y1 - y0)⟩ where
  x := by rw [Int.mul_zero, Int.add_zero]
  y := by rw [Int.mul_zero, Int.add_zero]
  low := ⟨Int.le_refl 0, Int.le_refl 0⟩
  high := by
    unfold aAbs
    split_ifs <;> omega
  err := by ring
  small := by
    simp only
    unfold aAbs
    split_ifs <;> omega

theorem Drawn.stops (drawn : Drawn x0 y0 x1 y1 i j p) :
    (p.x = x1 ∧ p.y = y1) ↔ i = aAbs (x1 - x0) ∧ j = aAbs (y1 - y0) := by
  rw [drawn.x, drawn.y, sign_reaches, sign_reaches]

/-- Every turn goes on towards the end, and not beyond it. -/
theorem Drawn.next (drawn : Drawn x0 y0 x1 y1 i j p) (more : ¬ (p.x = x1 ∧ p.y = y1)) :
    ∃ i' j', i + j < i' + j' ∧ Drawn x0 y0 x1 y1 i' j'
      (p.next (aAbs (x1 - x0)) (sign x0 x1) (-aAbs (y1 - y0)) (sign y0 y1)) := by
  rw [drawn.stops] at more
  obtain ⟨x, y, low, high, err, small⟩ := drawn
  generalize across : aAbs (x1 - x0) = dx at *
  generalize down : aAbs (y1 - y0) = h at *
  -- at the last column no step along the columns follows, at the last row none along the rows
  have column : -h ≤ 2 * p.err → i < dx := by
    intro steps
    by_contra reached
    obtain rfl : i = dx := by omega
    have behind : 0 ≤ i * (h - 1 - j) := Int.mul_nonneg (by omega) (by omega)
    have value : p.err = -h - i * (h - 1 - j) := by
      rw [err]
      ring
    omega
  have row : 2 * p.err ≤ dx → j < h := by
    intro steps
    by_contra reached
    obtain rfl : j = h := by omega
    have behind : 0 ≤ j * (dx - 1 - i) := Int.mul_nonneg (by omega) (by omega)
    have value : p.err = dx + j * (dx - 1 - i) := by
      rw [err]
      ring
    omega
  unfold Pen.next
  simp only
  by_cases right : -h ≤ 2 * p.err
  · rw [if_pos right]
    by_cases below : 2 * p.err ≤ dx
    · rw [if_pos below]
      refine ⟨i + 1, j + 1, by omega, ⟨?_, ?_, by omega, ?_, ?_, ?_⟩⟩
      · simp only [x]
        ring
      · simp only [y]
        ring
      · have := column right
        have := row below
        omega
      · simp only [err, across, down]
        ring
      · simp only [across, down]
        omega
    · rw [if_neg below]
      refine ⟨i + 1, j, by omega, ⟨?_, y, by omega, ?_, ?_, ?_⟩⟩
      · simp only [x]
        ring
      · have := column right
        omega
      · simp only [err, across, down]
        ring
      · simp only [across, down]
        omega
  · have below : 2 * p.err ≤ dx := by omega
    rw [if_neg right, if_pos below]
    refine ⟨i, j + 1, by omega, ⟨x, ?_, by omega, ?_, ?_, ?_⟩⟩
    · simp only [y]
      ring
    · have := row below
      omega
    · simp only [err, across, down]
      ring
    · simp only [across, down]
      omega

theorem Drawn.walk (n : Nat) : ∀ {i j : Int} {p : Pen}, Drawn x0 y0 x1 y1 i j p →
    aAbs (x1 - x0) + aAbs (y1 - y0) - (i + j) < n →
    (Raster.walk (aAbs (x1 - x0)) (sign x0 x1) (-aAbs (y1 - y0)) (sign y0 y1) x1 y1 n p).getLast? =
      some (x1, y1) ∧
    ∀ m, n ≤ m → Raster.walk (aAbs (x1 - x0)) (sign x0 x1) (-aAbs (y1 - y0)) (sign y0 y1) x1 y1 m p =
      Raster.walk (aAbs (x1 - x0)) (sign x0 x1) (-aAbs (y1 - y0)) (sign y0 y1) x1 y1 n p := by
  induction n with
  | zero =>
    intro i j p drawn few
    have high := drawn.high
    omega
  | succ n ih =>
    intro i j p drawn few
    by_cases stop : p.x = x1 ∧ p.y = y1
    · obtain ⟨rfl, rfl⟩ := stop
      constructor
      · rw [Raster.walk, if_pos ⟨rfl, rfl⟩]
        rfl
      · intro m enough
        obtain ⟨m, rfl⟩ := Nat.exists_eq_succ_of_ne_zero (by omega : m ≠ 0)
        rw [Raster.walk, Raster.walk, if_pos ⟨rfl, rfl⟩, if_pos ⟨rfl, rfl⟩]
    · obtain ⟨i', j', forward, next⟩ := drawn.next stop
      obtain ⟨last, same⟩ := ih next (by omega)
      constructor
      · rw [Raster.walk, if_neg stop, List.getLast?_cons, last]
        rfl
      · intro m enough
        obtain ⟨m, rfl⟩ := Nat.exists_eq_succ_of_ne_zero (by omega : m ≠ 0)
        rw [Raster.walk, Raster.walk, if_neg stop, if_neg stop, same m (by omega)]

theorem linePoints_end (x0 y0 x1 y1 : Int) :
    (linePoints x0 y0 x1 y1 (turns x0 y0 x1 y1)).getLast? = some (x1, y1) ∧
    ∀ m, turns x0 y0 x1 y1 ≤ m →
      linePoints x0 y0 x1 y1 m = linePoints x0 y0 x1 y1 (turns x0 y0 x1 y1) := by
  refine Drawn.start.walk (turns x0 y0 x1 y1) ?_
  unfold turns
  omega

end Lines

section Bands

variable {width height : Nat} {σ : Type}

theorem inRow_of {y x : Int} (low : 0 ≤ x) (high : x < width) : InRow width y (y * width + x) := by
  constructor
  · omega
  · rw [Int.add_mul, Int.one_mul]
    omega

theorem clearBand_banded (blank : σ) : Banded width height (clearBand width blank) := by
  apply Banded.rowLoop fun _ => True
  · intro lo hi y low high
    rw [true_and]
    omega
  · intro y w listed
    obtain ⟨x, inside, rfl⟩ := List.mem_map.mp listed
    have bounds := mem_upTo.mp inside
    exact inRow_of bounds.1 (by omega)

theorem rowsOf_banded (a c : Corner) {row : Int → List (Update Int σ)}
    (stays : ∀ y : Int, ∀ w ∈ row y, InRow width y w.1) :
    Banded width height fun lo hi => (rowsOf a c lo hi).flatMap row := by
  apply Banded.rowLoop fun y => a.y ≤ y ∧ y ≤ c.y
  · intro lo hi y low high
    split_ifs <;> omega
  · exact stays

theorem triRow_stays (t : Corner × Corner × Corner) (col : UInt32) (yy : Int) :
    ∀ w ∈ triRow t col yy, InRow bw yy w.1 := by
  intro w listed
  unfold triRow at listed
  generalize edges t.1 t.2.1 t.2.2 yy = met at listed
  obtain ⟨left, right⟩ := met
  by_cases out : yy < 0 ∨ bh ≤ yy
  · rw [if_pos out] at listed
    cases listed
  · rw [if_neg out] at listed
    obtain ⟨x, inside, rfl⟩ := List.mem_map.mp listed
    obtain ⟨low, high⟩ := mem_upTo.mp inside
    refine inRow_of ?_ ?_
    · split_ifs at low <;> omega
    · split_ifs at high <;> omega

theorem mtriRow_stays (t : Corner × Corner × Corner) (col : UInt32) (yy : Int) :
    ∀ w ∈ mtriRow width height t col yy, InRow width yy w.1 := by
  intro w listed
  unfold mtriRow at listed
  generalize edges t.1 t.2.1 t.2.2 yy = met at listed
  obtain ⟨⟨xa, za⟩, xb, zb⟩ := met
  by_cases out : yy < 0 ∨ height ≤ yy
  · rw [if_pos out] at listed
    cases listed
  · rw [if_neg out] at listed
    simp only at listed
    by_cases empty : xb - xa < 0
    · rw [if_pos empty] at listed
      cases listed
    · rw [if_neg empty] at listed
      obtain ⟨x, inside, rfl⟩ := List.mem_map.mp listed
      obtain ⟨low, high⟩ := mem_upTo.mp inside
      refine inRow_of ?_ ?_
      · split_ifs at low <;> omega
      · split_ifs at high <;> omega

theorem bufTriBand_banded (x0 y0 x1 y1 x2 y2 : Int) (col : UInt32) :
    Banded bw bh (bufTriBand x0 y0 x1 y1 x2 y2 col) := by
  unfold bufTriBand
  simp only
  split_ifs
  · exact Banded.none
  · exact rowsOf_banded _ _ (triRow_stays _ col)

theorem mtriBand_banded (t : MTri) : Banded width height (mtriBand width height t) := by
  unfold mtriBand
  simp only
  split_ifs
  · exact Banded.none
  · exact rowsOf_banded _ _ (mtriRow_stays _ t.col)

theorem point_banded {c : Prop} [Decidable c] {y : Int} (w : Update Int σ)
    (place : c → InRow width y w.1) : Banded width height fun lo hi =>
      if c ∧ lo ≤ y ∧ y < hi ∧ y < (height : Int) then [w] else [] := by
  refine ⟨fun lo hi low high => ?_, fun u listed => ?_⟩
  · by_cases whole : c ∧ 0 ≤ y ∧ y < height ∧ y < (height : Int)
    · have row := fun lo hi : Int => @inRows_iff width y w.1 (place whole.1) lo hi
      rw [if_pos whole, List.filter_cons]
      by_cases inside : lo ≤ y ∧ y < hi
      · rw [if_pos ⟨whole.1, inside.1, inside.2, whole.2.2.2⟩, if_pos ((row lo hi).mpr inside)]
        rfl
      · rw [if_neg fun all => inside ⟨all.2.1, all.2.2.1⟩, if_neg fun all => inside ((row lo hi).mp all)]
        rfl
    · have out : ¬ (c ∧ lo ≤ y ∧ y < hi ∧ y < (height : Int)) := fun all =>
        whole ⟨all.1, low.trans all.2.1, all.2.2.2, all.2.2.2⟩
      rw [if_neg whole, if_neg out]
      rfl
  · split_ifs at listed with whole
    · rw [List.mem_singleton.mp listed]
      exact ⟨y, whole.2.1, whole.2.2.1, place whole.1⟩
    · cases listed

theorem lineBand_banded (store : σ → σ) (x0 y0 x1 y1 : Int) :
    Banded width height (lineBand width height store x0 y0 x1 y1) :=
  Banded.flatMap _ fun _ _ => point_banded _ fun column => inRow_of column.1 column.2

theorem avmRenderBand_banded (tris : List Tri) (lines : List Line) :
    Banded bw bh (avmRenderBand tris lines) := by
  refine ((clearBand_banded gBg).append ?_).append ?_
  · exact Banded.flatMap tris fun t _ => bufTriBand_banded _ _ _ _ _ _ _
  · exact Banded.flatMap lines fun l _ => lineBand_banded _ _ _ _ _

theorem meshRenderBand_banded (wire : Bool) (segs : List Seg) (tris : List MTri) :
    Banded width height (meshRenderBand width height wire segs tris) := by
  refine ((clearBand_banded _).append ?_).append ?_
  · exact Banded.flatMap segs fun s _ => lineBand_banded _ _ _ _ _
  · cases wire with
    | true =>
      refine Banded.flatMap tris fun t _ => (Banded.append ?_ ?_).append ?_
      · exact lineBand_banded _ _ _ _ _
      · exact lineBand_banded _ _ _ _ _
      · exact lineBand_banded _ _ _ _ _
    | false => exact Banded.flatMap tris fun t _ => mtriBand_banded t

end Bands

/-- The bands of a frame with triangles and lines, whatever is in the buffer before, and those of a
mesh with its depths, drawn one after the other in any order. -/
theorem bands_draw_frame :
    (∀ (tris : List Tri) (lines : List Line) (bands : Bands bh) (buf : Int → UInt32),
      bands.list.foldl (fun buf b => run (avmRenderBand tris lines b.lo b.hi) buf) buf =
        run (avmRenderBand tris lines 0 bh) buf) ∧
    ∀ (rw rh : Nat) (wire : Bool) (segs : List Seg) (tris : List MTri) (bands : Bands rh)
      (buf : Int → Pixel),
      bands.list.foldl (fun buf b => run (meshRenderBand rw rh wire segs tris b.lo b.hi) buf) buf =
        run (meshRenderBand rw rh wire segs tris 0 rh) buf := by
  constructor
  · intro tris lines bands buf
    exact (avmRenderBand_banded tris lines).run_bands bands buf
  · intro rw rh wire segs tris bands buf
    exact (meshRenderBand_banded wire segs tris).run_bands bands buf

end XinuRpi5.Video.RasterBands
