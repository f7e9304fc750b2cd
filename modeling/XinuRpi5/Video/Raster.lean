/- source: device/video/avm.c
   digest: Rasterising the triangles and lines of a frame into a band of its rows. -/

import XinuRpi5.Lib.OwnedUpdates
import XinuRpi5.Video.Avm
import Mathlib.Tactic.Ring

/-!
A function that draws is the list of its stores, in order. A store is to one place of the flat
buffer and depends on nothing but the depth that is there. The sums and products of 16-bit
coordinates fit in `int` and `long`.
-/

namespace XinuRpi5.Video.Raster

open Lib.OwnedUpdates
open Avm (wrapInt)

def bw : Nat := 760

def bh : Nat := 620

def gBg : UInt32 := 0xFF2C3238

/-- `avm_tri_t`. -/
structure Tri where
  x1 : Int16
  y1 : Int16
  x2 : Int16
  y2 : Int16
  x3 : Int16
  y3 : Int16
  col : UInt32

/-- `avm_line_t`. -/
structure Line where
  x1 : Int16
  y1 : Int16
  x2 : Int16
  y2 : Int16
  col : UInt32

/-- `mtri_t`. -/
structure MTri where
  x0 : Int16
  y0 : Int16
  x1 : Int16
  y1 : Int16
  x2 : Int16
  y2 : Int16
  z0 : Int32
  z1 : Int32
  z2 : Int32
  col : UInt32

/-- `gseg_t`. -/
structure Seg where
  x0 : Int16
  y0 : Int16
  x1 : Int16
  y1 : Int16

/-- A place of `rbuf` and `rz`. -/
structure Pixel where
  col : UInt32
  depth : Int

def pal16 (c : UInt32) : UInt32 :=
  [0xFF000000, 0xFF3060FF, 0xFF30D040, 0xFF30D0D0, 0xFFE03030, 0xFFE040E0, 0xFFE0E040, 0xFFF0F0F0,
    0xFF808080, 0xFF80A0FF, 0xFF80FF80, 0xFF80FFFF, 0xFFFF8080, 0xFFFF80FF, 0xFFFFFF80,
    0xFFFFFFFF].getD (c &&& 15).toNat 0

def avmColor (c : UInt32) : UInt32 :=
  if c &&& 0x1000000 ≠ 0 then 0xFF000000 ||| (c &&& 0xFFFFFF) else pal16 c

structure Corner where
  x : Int
  y : Int
  z : Int

def byRow (a b c : Corner) : Corner × Corner × Corner :=
  let (a, b) := if b.y < a.y then (b, a) else (a, b)
  let (a, c) := if c.y < a.y then (c, a) else (a, c)
  let (b, c) := if c.y < b.y then (c, b) else (b, c)
  (a, b, c)

/-- The value at `n` of `d` steps from `a` to `b`, with the division of C. -/
def between (a b n d : Int) : Int := a + ((b - a) * n).tdiv d

/-- Where the long edge and one of the short edges meet a row: the columns, and the depths where
the triangle has some. -/
def edges (a b c : Corner) (yy : Int) : (Int × Int) × (Int × Int) :=
  let left := (between a.x c.x (yy - a.y) (c.y - a.y), between a.z c.z (yy - a.y) (c.y - a.y))
  let right :=
    if yy < b.y ∧ b.y ≠ a.y then
      (between a.x b.x (yy - a.y) (b.y - a.y), between a.z b.z (yy - a.y) (b.y - a.y))
    else if c.y ≠ b.y then
      (between b.x c.x (yy - b.y) (c.y - b.y), between b.z c.z (yy - b.y) (c.y - b.y))
    else (b.x, b.z)
  if right.1 < left.1 then (right, left) else (left, right)

/-- The turns of the row loop of a triangle, from its first row or that of the band on. -/
def rowsOf (a c : Corner) (ylo yhi : Int) : List Int :=
  upTo (if a.y < ylo then ylo else a.y) (if yhi ≤ c.y then yhi - 1 else c.y)

def triRow (t : Corner × Corner × Corner) (col : UInt32) (yy : Int) : List (Update Int UInt32) :=
  if yy < 0 ∨ bh ≤ yy then []
  else
    let (left, right) := edges t.1 t.2.1 t.2.2 yy
    (upTo (if left.1 < 0 then 0 else left.1) (if bw ≤ right.1 then bw - 1 else right.1)).map
      fun xx => (yy * bw + xx, fun _ => col)

def bufTriBand (x0 y0 x1 y1 x2 y2 : Int) (col : UInt32) (ylo yhi : Int) :
    List (Update Int UInt32) :=
  let t := byRow ⟨x0, y0, 0⟩ ⟨x1, y1, 0⟩ ⟨x2, y2, 0⟩
  if t.2.2.y = t.1.y then [] else (rowsOf t.1 t.2.2 ylo yhi).flatMap (triRow t col)

def plot (z : Int) (col : UInt32) (p : Pixel) : Pixel :=
  if p.depth < z then ⟨col, wrapInt z⟩ else p

def mtriRow (rw rh : Nat) (t : Corner × Corner × Corner) (col : UInt32) (yy : Int) :
    List (Update Int Pixel) :=
  if yy < 0 ∨ rh ≤ yy then []
  else
    let ((xa, za), (xb, zb)) := edges t.1 t.2.1 t.2.2 yy
    let span := xb - xa
    if span < 0 then []
    else
      (upTo (if xa < 0 then 0 else xa) (if rw ≤ xb then rw - 1 else xb)).map fun xx =>
        (yy * rw + xx, plot (if span ≠ 0 then za + ((zb - za) * (xx - xa)).tdiv span else za) col)

def mtriBand (rw rh : Nat) (t : MTri) (ylo yhi : Int) : List (Update Int Pixel) :=
  let s := byRow ⟨t.x0.toInt, t.y0.toInt, t.z0.toInt⟩ ⟨t.x1.toInt, t.y1.toInt, t.z1.toInt⟩
    ⟨t.x2.toInt, t.y2.toInt, t.z2.toInt⟩
  if s.2.2.y = s.1.y then [] else (rowsOf s.1 s.2.2 ylo yhi).flatMap (mtriRow rw rh s t.col)

section Lines

/-- The point of the loop, and `err`. -/
structure Pen where
  x : Int
  y : Int
  err : Int

def Pen.next (dx sx dy sy : Int) (p : Pen) : Pen :=
  let e2 := 2 * p.err
  let p := if dy ≤ e2 then { p with err := p.err + dy, x := p.x + sx } else p
  if e2 ≤ dx then { p with err := p.err + dx, y := p.y + sy } else p

/-- The points of the loop, which ends at (`x1`, `y1`). -/
def walk (dx sx dy sy x1 y1 : Int) : Nat → Pen → List (Int × Int)
  | 0, _ => []
  | n + 1, p => (p.x, p.y) ::
      if p.x = x1 ∧ p.y = y1 then [] else walk dx sx dy sy x1 y1 n (p.next dx sx dy sy)

def aAbs (v : Int) : Int := if v < 0 then -v else v

def sign (a b : Int) : Int := if a < b then 1 else -1

def turns (x0 y0 x1 y1 : Int) : Nat := (aAbs (x1 - x0) + aAbs (y1 - y0)).toNat + 1

def linePoints (x0 y0 x1 y1 : Int) (n : Nat) : List (Int × Int) :=
  walk (aAbs (x1 - x0)) (sign x0 x1) (-aAbs (y1 - y0)) (sign y0 y1) x1 y1 n
    ⟨x0, y0, aAbs (x1 - x0) + -aAbs (y1 - y0)⟩

variable {σ : Type}

/-- The loop of a line in a buffer of `w` columns and `h` rows. -/
def lineBand (w h : Nat) (store : σ → σ) (x0 y0 x1 y1 ylo yhi : Int) : List (Update Int σ) :=
  (linePoints x0 y0 x1 y1 (turns x0 y0 x1 y1)).flatMap fun p : Int × Int =>
    if (0 ≤ p.1 ∧ p.1 < (w : Int)) ∧ ylo ≤ p.2 ∧ p.2 < yhi ∧ p.2 < (h : Int) then [(p.2 * w + p.1, store)] else []

def bufLineBand (x0 y0 x1 y1 : Int) (col : UInt32) (ylo yhi : Int) : List (Update Int UInt32) :=
  lineBand bw bh (fun _ => col) x0 y0 x1 y1 ylo yhi

def mlineBand (rw rh : Nat) (x0 y0 x1 y1 : Int) (col : UInt32) (ylo yhi : Int) :
    List (Update Int Pixel) :=
  lineBand rw rh (fun p => { p with col := col }) x0 y0 x1 y1 ylo yhi

end Lines

def clearBand {σ : Type} (w : Nat) (blank : σ) (lo hi : Int) : List (Update Int σ) :=
  (upTo lo (hi - 1)).flatMap fun yy => (upTo 0 (w - 1)).map fun x => (yy * w + x, fun _ => blank)

def avmRenderBand (tris : List Tri) (lines : List Line) (lo hi : Int) : List (Update Int UInt32) :=
  clearBand bw gBg lo hi ++
  (tris.flatMap fun t => bufTriBand t.x1.toInt t.y1.toInt t.x2.toInt t.y2.toInt t.x3.toInt
    t.y3.toInt (avmColor t.col) lo hi) ++
  lines.flatMap fun l => bufLineBand l.x1.toInt l.y1.toInt l.x2.toInt l.y2.toInt
    (avmColor l.col) lo hi

def wireBand (rw rh : Nat) (t : MTri) (lo hi : Int) : List (Update Int Pixel) :=
  mlineBand rw rh t.x0.toInt t.y0.toInt t.x1.toInt t.y1.toInt t.col lo hi ++
  mlineBand rw rh t.x1.toInt t.y1.toInt t.x2.toInt t.y2.toInt t.col lo hi ++
  mlineBand rw rh t.x2.toInt t.y2.toInt t.x0.toInt t.y0.toInt t.col lo hi

def meshRenderBand (rw rh : Nat) (wire : Bool) (segs : List Seg) (tris : List MTri) (lo hi : Int) :
    List (Update Int Pixel) :=
  clearBand rw ⟨gBg, -0x40000000⟩ lo hi ++
  (segs.flatMap fun s =>
    mlineBand rw rh s.x0.toInt s.y0.toInt s.x1.toInt s.y1.toInt 0xFF384848 lo hi) ++
  if wire then tris.flatMap fun t => wireBand rw rh t lo hi
  else tris.flatMap fun t => mtriBand rw rh t lo hi

end XinuRpi5.Video.Raster
