/- source: system/html.c
   digest: Laying text out: words, runs and lines. -/

import XinuRpi5.System.HtmlText

/-!
A text op has its string with it; what stands in the pool is never written again. `dropped`
counts the words and pieces that found the op table or the pool full.
-/

namespace XinuRpi5.System.HtmlLayout

open HtmlText

def htMaxops : Nat := 8000
def htPool : Nat := 98304
def fh : Int := 16
def aw : Int := 8
def jw : Int := 16
def lineGap : Int := 3

/-- `ST_BOLD`, `ST_UPPER` and `ST_NOWRAP` of the style's flags. -/
def stBold : Nat := 1
def stUpper : Nat := 16
def stNowrap : Nat := 32

structure Style where
  flags : Nat
  color : Nat
  bg : Nat
  scale : Nat
  align : Nat

/-- `ht_op`; `text` is what `off` and `len` say. -/
structure Op where
  x : Int
  y : Int
  w : Int
  h : Int
  text : Bytes
  link : Nat
  kind : Nat
  scale : Nat
  flags : Nat
  color : Nat
  bg : Nat

/-- The state of the walk over a page, as far as text is concerned. -/
structure Layout where
  width : Int
  curX : Int
  curY : Int
  lineStart : Nat
  lineH : Int
  gap : Int
  indent : Int
  rinset : Int
  pendSpace : Bool
  anyLine : Bool
  cur : Style
  curLink : Nat
  ops : List Op
  npool : Nat
  dropped : Nat

/-- What `html_layout` begins with. -/
def start (widthPx : Int) : Layout where
  width := if widthPx < 96 then 96 else widthPx
  curX := 0
  curY := 0
  lineStart := 0
  lineH := 0
  gap := 0
  indent := 0
  rinset := 0
  pendSpace := false
  anyLine := false
  cur := { flags := 0, color := 0xFFE8EEF8, bg := 0, scale := 1, align := 0 }
  curLink := 0
  ops := []
  npool := 0
  dropped := 0

def rightEnd (line : List Op) : Int :=
  line.foldl (fun right o => if o.x + o.w > right then o.x + o.w else right) 0

/-- How far `flush_line` moves the ops to the right. -/
def lineShift (l : Layout) (line : List Op) : Int :=
  let avail := l.width - l.rinset - rightEnd line
  let shift := if l.cur.align = 1 then Int.tdiv avail 2 else avail
  if l.cur.align ≠ 0 ∧ shift > 0 then shift else 0

def Op.moved (shift y lineH : Int) (o : Op) : Op :=
  { o with x := o.x + shift, y := if o.kind = 0 ∧ o.h < lineH then y + (lineH - o.h) else y }

def flushLine (l : Layout) : Layout :=
  if l.ops.length = l.lineStart then l
  else
    let line := l.ops.drop l.lineStart
    let curY := if l.anyLine then l.curY + l.gap else l.curY
    { l with
      gap := 0
      anyLine := true
      ops := l.ops.take l.lineStart ++ line.map (Op.moved (lineShift l line) curY l.lineH)
      curY := curY + (l.lineH + lineGap)
      lineStart := l.ops.length
      curX := l.indent
      lineH := 0
      pendSpace := false }

def newline (l : Layout) : Layout := { flushLine l with curX := (flushLine l).indent }

def Layout.bold (l : Layout) : Bool := l.cur.flags &&& stBold ≠ 0

def Layout.upper (l : Layout) : Bool := l.cur.flags &&& stUpper ≠ 0

def charW (cp scale : Nat) (bold : Bool) : Int :=
  (if cp < 0x80 then aw else jw) * scale + (if bold then 1 else 0)

/-- `run_w`; every round takes a character. -/
def runW (scale : Nat) (bold : Bool) : Nat → Bytes → Int
  | 0, _ => 0
  | rounds + 1, s =>
    if s = [] then 0
    else
      let (cp, l) := utf8Get s
      charW cp scale bold + runW scale bold rounds (s.drop l)

def takeLoop (l : Layout) : Nat → Bytes → Nat → Int → Nat × Int
  | 0, _, take, tw => (take, tw)
  | rounds + 1, s, take, tw =>
    if take < s.length then
      let (cp, len) := utf8Get (s.drop take)
      let cw := charW cp l.cur.scale l.bold
      if take > 0 ∧ l.curX + tw + cw > l.width - l.rinset then (take, tw)
      else takeLoop l rounds s (take + len) (tw + cw)
    else (take, tw)

def upperByte (c : UInt8) : UInt8 := if 0x61 ≤ c ∧ c ≤ 0x7A then c - 32 else c

def putPiece (l : Layout) (piece : Bytes) (tw : Int) : Layout :=
  { l with
    ops := l.ops ++ [{
      x := l.curX, y := 0, w := tw, h := fh * l.cur.scale
      text := if l.upper then piece.map upperByte else piece
      link := l.curLink, kind := 0, scale := l.cur.scale, flags := l.cur.flags
      color := l.cur.color, bg := l.cur.bg }]
    npool := l.npool + piece.length + 1
    curX := l.curX + tw
    lineH := if fh * l.cur.scale > l.lineH then fh * l.cur.scale else l.lineH }

/-- The loop of `put_run` over the pieces of a word. -/
def pieces : Nat → Bytes → Layout → Layout
  | 0, _, l => l
  | guard + 1, s, l =>
    if s = [] then l
    else
      let (take, tw) := takeLoop l s.length s 0 0
      if l.ops.length ≥ htMaxops ∨ l.npool + take + 1 ≥ htPool then
        { l with dropped := l.dropped + 1 }
      else
        let l := putPiece l (s.take take) tw
        let s := s.drop take
        pieces guard s (if s = [] then l else newline l)

/-- The place for a word: behind what stands on the line, or on a line of its own. -/
def place (l : Layout) (w : Int) : Layout :=
  let sw := aw * l.cur.scale + (if l.bold then 1 else 0)
  let l :=
    if l.curX > l.indent ∧ l.curX + (if l.pendSpace then sw else 0) + w > l.width - l.rinset ∧
        l.cur.flags &&& stNowrap = 0 then newline l
    else if l.pendSpace ∧ l.curX > l.indent then { l with curX := l.curX + sw }
    else l
  { l with pendSpace := false }

def putRun (s : Bytes) (l : Layout) : Layout :=
  if s = [] then l
  else if l.ops.length ≥ htMaxops ∨ l.npool + s.length + 1 ≥ htPool then
    { l with dropped := l.dropped + 1 }
  else pieces 512 s (place l (runW l.cur.scale l.bold s.length s))

/-- `kinsoku_tail`: characters that begin no line. -/
def kinsokuTail (cp : Nat) : Bool :=
  cp ∈ [0x3001, 0x3002, 0xFF0C, 0xFF0E, 0xFF09, 0x300D, 0x300F, 0x3011, 0x3015,
    0x3009, 0x300B, 0x2019, 0x201D, 0x309D, 0x309E, 0x3005, 0x30FC, 0x30FB,
    0xFF1A, 0xFF1B, 0xFF01, 0xFF1F, 0xFF5D, 0xFF3D,
    0x3041, 0x3043, 0x3045, 0x3047, 0x3049, 0x3063, 0x3083, 0x3085, 0x3087, 0x308E,
    0x30A1, 0x30A3, 0x30A5, 0x30A7, 0x30A9, 0x30C3, 0x30E3, 0x30E5, 0x30E7, 0x30EE]

/-- `kinsoku_head`: characters that end no line. -/
def kinsokuHead (cp : Nat) : Bool :=
  cp ∈ [0xFF08, 0x300C, 0x300E, 0x3010, 0x3014, 0x3008, 0x300A, 0x2018, 0x201C, 0xFF5B, 0xFF3B]

/-- The locals of `put_text`; `wl` is the length of `wbuf`. -/
structure Word where
  wbuf : Bytes
  glue : Bool

def flushWord (p : Word × Layout) : Word × Layout :=
  if p.1.wbuf = [] then p else ({ p.1 with wbuf := [] }, putRun p.1.wbuf p.2)

/-- A character of the font: a word of its own, but for the rules about brackets and marks. -/
def putWide (cp : Nat) (p : Word × Layout) : Word × Layout :=
  let tmp := utf8 cp
  let p := if p.1.wbuf.length + tmp.length ≥ 511 then flushWord p else p
  let p := if ¬(kinsokuTail cp || p.1.glue) then flushWord p else p
  (⟨p.1.wbuf ++ tmp, kinsokuHead cp⟩, p.2)

def putNarrow (keepWs : Bool) (p : Word × Layout) (ch : UInt8) : Word × Layout :=
  if keepWs ∧ ch = 0x0A then
    let p := flushWord p
    ({ p.1 with glue := false }, newline p.2)
  else if isWs ch then
    let (word, l) := flushWord p
    ({ word with glue := false },
      if keepWs then
        { l with
          curX := l.curX + aw * l.cur.scale
          lineH := if fh * l.cur.scale > l.lineH then fh * l.cur.scale else l.lineH }
      else { l with pendSpace := true })
  else
    let ch := if ch < 0x20 then 0x3F else ch
    let p := if p.1.wbuf.length < 508 then p else flushWord p
    (⟨p.1.wbuf ++ [ch], false⟩, p.2)

/-- A round of the loop of `put_text`. -/
def putChar (font : Font) (keepWs : Bool) (p : Word × Layout) (cp : Nat) : Word × Layout :=
  let cp := if cp = 0x3000 then 0x20 else cp
  if cp ≥ 0x80 ∧ (jpIndex font cp).isSome then putWide cp p
  else (cpToAscii cp).foldl (putNarrow keepWs) p

def putText (font : Font) (s : Bytes) (keepWs : Bool) (l : Layout) : Layout :=
  (flushWord ((readChars entity s.length s).foldl (putChar font keepWs) (⟨[], false⟩, l))).2

end XinuRpi5.System.HtmlLayout
