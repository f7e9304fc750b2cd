/- source: system/html.c
   digest: Layout loses no text: the ops hold the characters of the source, whole and within the line. -/

import Mathlib
import XinuRpi5.System.HtmlLayout

namespace XinuRpi5.System.HtmlKeepsText

open HtmlText HtmlLayout

def capital (cp : Nat) : Nat := if 0x61 ≤ cp ∧ cp ≤ 0x7A then cp - 0x20 else cp

/-- Characters as the bytes of an op, in capitals where the style says so. -/
def encode (upper : Bool) (cps : List Nat) : Bytes :=
  cps.flatMap fun cp => utf8 (if upper then capital cp else cp)

instance (font : Font) (cp : Nat) : Decidable (font.Has cp) :=
  inferInstanceAs (Decidable (0x80 ≤ cp ∧ cp ≤ 0xFFFF ∧ cp ∈ font.jpUni))

def visible (ch : UInt8) : List Nat :=
  if isWs ch then [] else if ch < 0x20 then [0x3F] else [ch.toNat]

/-- What is shown for a character: its glyph or else its substitute, without white space. The
wide blank is a blank. -/
def shown (font : Font) (cp : Nat) : List Nat :=
  let cp := if cp = 0x3000 then 0x20 else cp
  if font.Has cp then [cp] else (cpToAscii cp).flatMap visible

/-- The test of `html_draw`, on a page of the width. -/
def tooWide (width : Int) (o : Op) : Bool := o.x + o.w > width

def widths (scale : Nat) (bold : Bool) (cps : List Nat) : Int :=
  (cps.map fun cp => charW cp scale bold).sum

theorem charW_nonneg (cp scale : Nat) (bold : Bool) : 0 ≤ charW cp scale bold := by
  unfold charW aw jw
  split_ifs <;> omega

theorem charW_le_wide (cp scale : Nat) (bold : Bool) :
    charW cp scale bold ≤ charW 0x80 scale bold := by
  unfold charW aw jw
  split_ifs <;> omega

theorem widths_cons (scale : Nat) (bold : Bool) (cp : Nat) (cps : List Nat) :
    widths scale bold (cp :: cps) = charW cp scale bold + widths scale bold cps :=
  List.sum_cons

theorem widths_nonneg (scale : Nat) (bold : Bool) (cps : List Nat) :
    0 ≤ widths scale bold cps := by
  induction cps with
  | nil => exact Int.le_refl 0
  | cons cp cps ih =>
    have := charW_nonneg cp scale bold
    rw [widths_cons]
    omega

theorem utf8_ne_nil (cp : Nat) : utf8 cp ≠ [] := by
  unfold utf8
  split_ifs <;> exact List.cons_ne_nil _ _

theorem utf8_length_pos (cp : Nat) : 0 < (utf8 cp).length :=
  List.length_pos_iff.mpr (utf8_ne_nil cp)

theorem runW_widths {scale : Nat} {bold : Bool} {cps : List Nat}
    (small : ∀ cp ∈ cps, cp < 0x10000) {rounds : Nat}
    (enough : (cps.flatMap utf8).length ≤ rounds) :
    runW scale bold rounds (cps.flatMap utf8) = widths scale bold cps := by
  induction cps generalizing rounds with
  | nil => cases rounds <;> rfl
  | cons cp cps ih =>
    have taken := utf8_length_pos cp
    rw [List.flatMap_cons, List.length_append] at enough
    obtain ⟨k, rfl⟩ : ∃ k, rounds = k + 1 := ⟨rounds - 1, by omega⟩
    rw [List.flatMap_cons, runW, if_neg (by simp [utf8_ne_nil]),
      utf8Get_utf8 (small cp List.mem_cons_self)]
    simp only
    rw [List.drop_left, ih (fun c mem => small c (List.mem_cons_of_mem _ mem)) (by omega),
      widths_cons]

def limit (l : Layout) : Int := l.width - l.rinset

/-- From within a word, `takeLoop` takes whole characters and stops before the one that
passes the limit. -/
theorem takeLoop_behind {l : Layout} (done : Bytes) {cps : List Nat}
    (small : ∀ cp ∈ cps, cp < 0x10000) {rounds : Nat}
    (enough : (cps.flatMap utf8).length ≤ rounds) {tw : Int} (some : 0 < done.length)
    (fits : l.curX + tw ≤ limit l) :
    ∃ a b, cps = a ++ b ∧
      takeLoop l rounds (done ++ cps.flatMap utf8) done.length tw =
        ((done ++ a.flatMap utf8).length, tw + widths l.cur.scale l.bold a) ∧
      l.curX + tw + widths l.cur.scale l.bold a ≤ limit l := by
  induction cps generalizing rounds tw done with
  | nil =>
    refine ⟨[], [], rfl, ?_, by simpa [widths] using fits⟩
    cases rounds <;> simp [takeLoop, widths]
  | cons cp cps ih =>
    have taken := utf8_length_pos cp
    rw [List.flatMap_cons, List.length_append] at enough
    obtain ⟨k, rfl⟩ : ∃ k, rounds = k + 1 := ⟨rounds - 1, by omega⟩
    rw [List.flatMap_cons, takeLoop, if_pos (by simp only [List.length_append]; omega),
      List.drop_left, utf8Get_utf8 (small cp List.mem_cons_self)]
    simp only
    split_ifs with full
    · exact ⟨[], cp :: cps, rfl, by simp [widths], by simpa [widths] using fits⟩
    · have room : l.curX + (tw + charW cp l.cur.scale l.bold) ≤ limit l := by
        unfold limit
        omega
      have later : (cps.flatMap utf8).length ≤ k := by omega
      have begun : 0 < (done ++ utf8 cp).length := by
        rw [List.length_append]
        omega
      obtain ⟨a, b, split, result, inside⟩ := ih (done ++ utf8 cp)
        (fun c mem => small c (List.mem_cons_of_mem _ mem)) later begun room
      rw [List.append_assoc, List.length_append] at result
      refine ⟨cp :: a, b, by rw [split]; rfl, ?_, ?_⟩
      · rw [result, List.flatMap_cons, List.append_assoc, widths_cons, Int.add_assoc]
      · rw [widths_cons]
        omega

theorem takeLoop_piece {l : Layout} {cp : Nat} {cps : List Nat}
    (small : ∀ c ∈ cp :: cps, c < 0x10000)
    (fits : l.curX + charW cp l.cur.scale l.bold ≤ limit l) :
    ∃ a b, cp :: cps = a ++ b ∧ a ≠ [] ∧
      takeLoop l ((cp :: cps).flatMap utf8).length ((cp :: cps).flatMap utf8) 0 0 =
        ((a.flatMap utf8).length, widths l.cur.scale l.bold a) ∧
      l.curX + widths l.cur.scale l.bold a ≤ limit l := by
  have taken := utf8_length_pos cp
  obtain ⟨k, size⟩ : ∃ k, ((cp :: cps).flatMap utf8).length = k + 1 :=
    ⟨((cp :: cps).flatMap utf8).length - 1, by
      rw [List.flatMap_cons, List.length_append]
      omega⟩
  have later : (cps.flatMap utf8).length ≤ k := by
    rw [List.flatMap_cons, List.length_append] at size
    omega
  obtain ⟨a, b, split, result, inside⟩ := takeLoop_behind (utf8 cp)
    (fun c mem => small c (List.mem_cons_of_mem _ mem)) later taken fits
  refine ⟨cp :: a, b, by rw [split]; rfl, List.cons_ne_nil _ _, ?_, ?_⟩
  · rw [size, takeLoop, if_pos (by omega), List.drop_zero, List.flatMap_cons,
      utf8Get_utf8 (small cp List.mem_cons_self)]
    simp only [Nat.lt_irrefl, gt_iff_lt, false_and, if_false, Nat.zero_add, Int.zero_add]
    rw [result, List.flatMap_cons, widths_cons]
  · rw [widths_cons]
    omega

def Inside (l : Layout) (o : Op) : Prop := 0 ≤ o.x ∧ o.x + o.w ≤ limit l

theorem rightEnd_ge {line : List Op} {o : Op} (mem : o ∈ line) : o.x + o.w ≤ rightEnd line := by
  have fold (line : List Op) (right : Int) :
      right ≤ line.foldl (fun right o => if o.x + o.w > right then o.x + o.w else right) right ∧
        ∀ o ∈ line, o.x + o.w ≤
          line.foldl (fun right o => if o.x + o.w > right then o.x + o.w else right) right := by
    induction line generalizing right with
    | nil => exact ⟨Int.le_refl right, fun o mem => (List.not_mem_nil mem).elim⟩
    | cons first line ih =>
      obtain ⟨kept, rest⟩ := ih (if first.x + first.w > right then first.x + first.w else right)
      rw [List.foldl_cons]
      have least : right ≤ (if first.x + first.w > right then first.x + first.w else right) ∧
          first.x + first.w ≤
            (if first.x + first.w > right then first.x + first.w else right) := by
        split_ifs <;> omega
      refine ⟨Int.le_trans least.1 kept, fun o mem => ?_⟩
      obtain rfl | later := List.mem_cons.mp mem
      · exact Int.le_trans least.2 kept
      · exact rest o later
  exact (fold line 0).2 o mem

theorem lineShift_room {l : Layout} {line : List Op} {o : Op} (mem : o ∈ line)
    (inside : Inside l o) :
    0 ≤ lineShift l line ∧ o.x + lineShift l line + o.w ≤ limit l := by
  have right := rightEnd_ge mem
  unfold Inside limit at inside
  unfold lineShift limit
  by_cases middle : l.cur.align = 1
  · simp only [middle, if_true]
    split_ifs with moves
    · have room : 0 ≤ l.width - l.rinset - rightEnd line := by
        by_contra past
        have := Int.tdiv_le_tdiv (by decide : (0 : Int) < 2)
          (by omega : l.width - l.rinset - rightEnd line ≤ 0)
        rw [Int.zero_tdiv] at this
        omega
      have half := Int.tdiv_le_self 2 room
      omega
    · omega
  · simp only [if_neg middle]
    split_ifs with moves <;> omega

theorem moved_text (shift y lineH : Int) (o : Op) : (o.moved shift y lineH).text = o.text := rfl

theorem flushLine_ops {l : Layout} (some : l.ops.length ≠ l.lineStart) :
    ∃ y, (flushLine l).ops = l.ops.take l.lineStart ++
      (l.ops.drop l.lineStart).map
        (Op.moved (lineShift l (l.ops.drop l.lineStart)) y l.lineH) := by
  rw [flushLine, if_neg some]
  exact ⟨_, rfl⟩

theorem flushLine_none {l : Layout} (none : l.ops.length = l.lineStart) : flushLine l = l :=
  if_pos none

theorem flushLine_texts (l : Layout) : (flushLine l).ops.map Op.text = l.ops.map Op.text := by
  by_cases none : l.ops.length = l.lineStart
  · rw [flushLine_none none]
  · obtain ⟨y, ops⟩ := flushLine_ops none
    rw [ops, List.map_append, List.map_map]
    simp only [Function.comp_def, moved_text]
    rw [← List.map_append, List.take_append_drop]

theorem flushLine_inside {l : Layout} {first : Nat}
    (inside : ∀ i o, first ≤ i → l.ops[i]? = some o → Inside l o) (i : Nat) (o : Op)
    (late : first ≤ i) (op : (flushLine l).ops[i]? = some o) : Inside l o := by
  by_cases none : l.ops.length = l.lineStart
  · rw [flushLine_none none] at op
    exact inside i o late op
  · obtain ⟨y, ops⟩ := flushLine_ops none
    rw [ops, List.getElem?_append, List.length_take] at op
    split_ifs at op with before
    · rw [List.getElem?_take_of_lt (by omega)] at op
      exact inside i o late op
    · rw [List.getElem?_map, List.getElem?_drop] at op
      obtain ⟨old, found, rfl⟩ := Option.map_eq_some_iff.mp op
      have onLine : old ∈ l.ops.drop l.lineStart := by
        refine List.mem_iff_getElem?.mpr ⟨i - min l.lineStart l.ops.length, ?_⟩
        rw [List.getElem?_drop]
        exact found
      have size := (List.getElem?_eq_some_iff.mp found).1
      have was := inside _ old (by omega) found
      obtain ⟨shift, room⟩ := lineShift_room onLine was
      have right : 0 ≤ old.x + lineShift l (l.ops.drop l.lineStart) := Int.add_nonneg was.1 shift
      exact ⟨right, room⟩

theorem flushLine_frame (l : Layout) :
    (flushLine l).width = l.width ∧ (flushLine l).rinset = l.rinset ∧
      (flushLine l).indent = l.indent ∧ (flushLine l).cur = l.cur ∧
        (flushLine l).dropped = l.dropped := by
  by_cases none : l.ops.length = l.lineStart
  · rw [flushLine_none none]
    exact ⟨rfl, rfl, rfl, rfl, rfl⟩
  · rw [flushLine, if_neg none]
    exact ⟨rfl, rfl, rfl, rfl, rfl⟩

section Invariant

/-- A state to put text in: what `html_layout` begins with and every writer of the variables
keeps, and room for a character of the font. -/
structure Ready (l : Layout) : Prop where
  indent : 0 ≤ l.indent
  curX : 0 ≤ l.curX
  wraps : l.cur.flags &&& stNowrap = 0
  fits : l.indent + charW 0x80 l.cur.scale l.bold ≤ limit l

/-- Behind the ops of the state `from'` stand ops with the characters `written`, each within
its line. -/
structure Good (from' l : Layout) (written : List Nat) : Prop where
  frame : l.width = from'.width ∧ l.rinset = from'.rinset ∧ l.indent = from'.indent ∧
    l.cur = from'.cur
  curX : 0 ≤ l.curX
  inside : ∀ i o, from'.ops.length ≤ i → l.ops[i]? = some o → Inside from' o
  texts : ∃ parts : List (List Nat),
    l.ops.map Op.text = from'.ops.map Op.text ++ parts.map (encode from'.upper) ∧
      parts.flatten = written

def Written (from' l : Layout) (written : List Nat) : Prop :=
  from'.dropped ≤ l.dropped ∧ (l.dropped = from'.dropped → Good from' l written)

variable {from' l : Layout} {written : List Nat}

theorem Good.limit_eq (good : Good from' l written) : limit l = limit from' := by
  rw [limit, limit, good.frame.1, good.frame.2.1]

theorem Good.bold_eq (good : Good from' l written) : l.bold = from'.bold := by
  rw [Layout.bold, Layout.bold, good.frame.2.2.2]

theorem Good.flushLine (ready : Ready from') (good : Good from' l written) :
    Good from' (flushLine l) written ∧ 0 ≤ (HtmlLayout.flushLine l).indent := by
  obtain ⟨width, rinset, indent, cur⟩ := good.frame
  obtain ⟨width', rinset', indent', cur', -⟩ := flushLine_frame l
  have inside : ∀ i o, from'.ops.length ≤ i → l.ops[i]? = some o → Inside l o := by
    intro i o late op
    have was := good.inside i o late op
    rw [Inside] at was ⊢
    rw [good.limit_eq]
    exact was
  refine ⟨⟨⟨width'.trans width, rinset'.trans rinset, indent'.trans indent, cur'.trans cur⟩,
    ?_, ?_, ?_⟩, ?_⟩
  · by_cases none : l.ops.length = l.lineStart
    · rw [flushLine_none none]
      exact good.curX
    · rw [HtmlLayout.flushLine, if_neg none]
      change 0 ≤ l.indent
      rw [indent]
      exact ready.indent
  · intro i o late op
    have kept := flushLine_inside inside i o late op
    rw [Inside] at kept ⊢
    rw [← good.limit_eq]
    exact kept
  · rw [flushLine_texts]
    exact good.texts
  · rw [indent', indent]
    exact ready.indent

theorem Good.newline (ready : Ready from') (good : Good from' l written) :
    Good from' (newline l) written := by
  obtain ⟨flushed, indent⟩ := good.flushLine ready
  exact ⟨flushed.frame, indent, flushed.inside, flushed.texts⟩

theorem newline_dropped (l : Layout) : (newline l).dropped = l.dropped :=
  (flushLine_frame l).2.2.2.2

theorem newline_curX (l : Layout) : (newline l).curX = (newline l).indent := rfl

/-- A word begins at the indent or in front of it, or else it fits behind what there is. -/
theorem Good.place (ready : Ready from') (good : Good from' l written) (w : Int) :
    Good from' (place l w) written ∧ (HtmlLayout.place l w).dropped = l.dropped ∧
      ((HtmlLayout.place l w).curX ≤ from'.indent ∨
        (HtmlLayout.place l w).curX + w ≤ limit from') := by
  have wraps : l.cur.flags &&& stNowrap = 0 := by
    rw [good.frame.2.2.2]
    exact ready.wraps
  have limits : l.width - l.rinset = limit from' := good.limit_eq
  have indents := good.frame.2.2.1
  let sw := aw * l.cur.scale + (if l.bold then 1 else 0)
  have blank : 0 ≤ sw := by
    have : 0 ≤ charW 0x20 l.cur.scale l.bold := charW_nonneg _ _ _
    exact this
  let blankHere := if l.pendSpace then sw else 0
  by_cases past : l.curX > l.indent ∧ l.curX + blankHere + w > l.width - l.rinset ∧
      l.cur.flags &&& stNowrap = 0
  · have placed : HtmlLayout.place l w = { HtmlLayout.newline l with pendSpace := false } := by
      rw [HtmlLayout.place]
      exact congrArg (fun l : Layout => { l with pendSpace := false }) (if_pos past)
    obtain ⟨frame, curX, inside, texts⟩ := good.newline ready
    rw [placed]
    refine ⟨⟨frame, curX, inside, texts⟩, newline_dropped l, .inl ?_⟩
    exact Int.le_of_eq ((newline_curX l).trans frame.2.2.1)
  by_cases pending : l.pendSpace ∧ l.curX > l.indent
  · have placed : HtmlLayout.place l w = { l with curX := l.curX + sw, pendSpace := false } := by
      rw [HtmlLayout.place]
      exact congrArg (fun l : Layout => { l with pendSpace := false })
        ((if_neg past).trans (if_pos pending))
    have here : blankHere = sw := if_pos pending.1
    have room : l.curX + sw + w ≤ limit from' := by
      by_contra full
      exact past ⟨pending.2, by omega, wraps⟩
    rw [placed]
    exact ⟨⟨good.frame, Int.add_nonneg good.curX blank, good.inside, good.texts⟩, rfl, .inr room⟩
  · have placed : HtmlLayout.place l w = { l with pendSpace := false } := by
      rw [HtmlLayout.place]
      exact congrArg (fun l : Layout => { l with pendSpace := false })
        ((if_neg past).trans (if_neg pending))
    rw [placed]
    refine ⟨⟨good.frame, good.curX, good.inside, good.texts⟩, rfl, ?_⟩
    change l.curX ≤ from'.indent ∨ l.curX + w ≤ limit from'
    by_cases front : l.curX ≤ from'.indent
    · exact .inl front
    · right
      have none : blankHere = 0 := if_neg fun pends => pending ⟨pends, by omega⟩
      by_contra full
      exact past ⟨by omega, by omega, wraps⟩

theorem utf8_capital {cp : Nat} (small : cp < 0x10000) :
    (utf8 cp).map upperByte = utf8 (capital cp) := by
  have letters : ∀ cp < 0x80, (utf8 cp).map upperByte = utf8 (capital cp) := by decide
  have others : ∀ d < 64, upperByte (UInt8.ofNat (0x80 ||| d)) = UInt8.ofNat (0x80 ||| d) := by
    decide
  have twos : ∀ d < 32, upperByte (UInt8.ofNat (0xC0 ||| d)) = UInt8.ofNat (0xC0 ||| d) := by
    decide
  have threes : ∀ d < 16, upperByte (UInt8.ofNat (0xE0 ||| d)) = UInt8.ofNat (0xE0 ||| d) := by
    decide
  by_cases one : cp < 0x80
  · exact letters cp one
  · have same : capital cp = cp := if_neg (by omega)
    have high : cp >>> 6 = cp / 64 := Nat.shiftRight_eq_div_pow cp 6
    have top : cp >>> 12 = cp / 4096 := Nat.shiftRight_eq_div_pow cp 12
    rw [same, utf8, if_neg one, high, top, low_six, low_six]
    split_ifs
    · rw [List.map_cons, List.map_cons, twos _ (by omega), others _ (by omega), List.map_nil]
    · rw [List.map_cons, List.map_cons, List.map_cons, threes _ (by omega), others _ (by omega),
        others _ (by omega), List.map_nil]

theorem encode_text {upper : Bool} {cps : List Nat} (small : ∀ cp ∈ cps, cp < 0x10000) :
    (if upper then (cps.flatMap utf8).map upperByte else cps.flatMap utf8) = encode upper cps := by
  cases upper with
  | false => rfl
  | true =>
    simp only [if_true, encode]
    rw [List.map_flatMap]
    exact List.flatMap_congr fun cp mem => utf8_capital (small cp mem)

theorem Good.putPiece (good : Good from' l written) {cps : List Nat}
    (small : ∀ cp ∈ cps, cp < 0x10000)
    (fits : l.curX + widths l.cur.scale l.bold cps ≤ limit from') :
    Good from' (putPiece l (cps.flatMap utf8) (widths l.cur.scale l.bold cps))
      (written ++ cps) := by
  have width := widths_nonneg l.cur.scale l.bold cps
  obtain ⟨parts, texts, flat⟩ := good.texts
  refine ⟨good.frame, Int.add_nonneg good.curX width, ?_, parts ++ [cps], ?_, ?_⟩
  · intro i o late op
    by_cases old : i < l.ops.length
    · exact good.inside i o late ((List.getElem?_append_left old).symm.trans op)
    · have last := (List.getElem?_append_right (by omega)).symm.trans op
      rw [List.getElem?_singleton] at last
      by_cases first : i - l.ops.length = 0
      · rw [if_pos first] at last
        obtain rfl := Option.some.inj last
        exact ⟨good.curX, fits⟩
      · rw [if_neg first] at last
        cases last
  · have upper : l.upper = from'.upper := by
      rw [Layout.upper, Layout.upper, good.frame.2.2.2]
    change (l.ops ++ [_]).map Op.text = _
    rw [List.map_append, texts, List.map_append, List.append_assoc]
    simp only [List.map_cons, List.map_nil, ← encode_text small, upper]
  · rw [List.flatten_append, flat]
    simp

theorem pieces_dropped (guard : Nat) (s : Bytes) (l : Layout) :
    l.dropped ≤ (pieces guard s l).dropped := by
  induction guard generalizing s l with
  | zero => exact Nat.le_refl _
  | succ guard ih =>
    rw [pieces]
    simp only
    split_ifs
    · exact Nat.le_refl _
    · exact Nat.le_succ _
    · refine Nat.le_trans ?_ (ih _ _)
      exact Nat.le_refl l.dropped
    · refine Nat.le_trans ?_ (ih _ _)
      rw [newline_dropped]
      exact Nat.le_refl l.dropped

theorem pieces_step {s : Bytes} {l : Layout} {take : Nat} {tw : Int} (some : s ≠ [])
    (result : takeLoop l s.length s 0 0 = (take, tw)) (guard : Nat) :
    pieces (guard + 1) s l =
      if l.ops.length ≥ htMaxops ∨ l.npool + take + 1 ≥ htPool then
        { l with dropped := l.dropped + 1 }
      else
        pieces guard (s.drop take)
          (if s.drop take = [] then putPiece l (s.take take) tw
            else newline (putPiece l (s.take take) tw)) := by
  rw [pieces, if_neg some]
  simp only [result]

/-- The loop over a word: every round but the first starts at the indent. -/
theorem Good.pieces (ready : Ready from') {guard : Nat} {cps : List Nat} {l : Layout}
    {written : List Nat} (good : Good from' l written) (small : ∀ cp ∈ cps, cp < 0x10000)
    (enough : (cps.flatMap utf8).length ≤ guard)
    (start : l.curX ≤ from'.indent ∨ l.curX + widths l.cur.scale l.bold cps ≤ limit from')
    (kept : (pieces guard (cps.flatMap utf8) l).dropped = l.dropped) :
    Good from' (pieces guard (cps.flatMap utf8) l) (written ++ cps) := by
  induction guard generalizing cps l written with
  | zero =>
    obtain rfl : cps = [] := by
      cases cps with
      | nil => rfl
      | cons cp cps =>
        have := utf8_length_pos cp
        rw [List.flatMap_cons, List.length_append] at enough
        omega
    rw [List.append_nil]
    exact good
  | succ guard ih =>
    cases cps with
    | nil =>
      rw [List.append_nil]
      exact good
    | cons cp cps =>
      have fits : l.curX + charW cp l.cur.scale l.bold ≤ limit l := by
        rw [good.limit_eq]
        obtain front | whole := start
        · have wide := charW_le_wide cp l.cur.scale l.bold
          have ready := ready.fits
          rw [← good.frame.2.2.2, ← good.bold_eq] at ready
          omega
        · have rest := widths_nonneg l.cur.scale l.bold cps
          rw [widths_cons] at whole
          omega
      obtain ⟨a, b, split, some, result, inside⟩ := takeLoop_piece small fits
      have nonempty : (cp :: cps).flatMap utf8 ≠ [] := by
        rw [List.flatMap_cons]
        exact List.append_ne_nil_of_left_ne_nil (utf8_ne_nil cp) _
      rw [pieces_step nonempty result] at kept ⊢
      by_cases full : l.ops.length ≥ htMaxops ∨
          l.npool + (a.flatMap utf8).length + 1 ≥ htPool
      · rw [if_pos full] at kept
        exact absurd kept (Nat.succ_ne_self l.dropped)
      rw [if_neg full] at kept ⊢
      rw [split, List.flatMap_append, List.take_left, List.drop_left] at kept ⊢
      rw [split] at small enough
      have put := good.putPiece (fun c mem => small c (List.mem_append_left _ mem))
        (by rw [← good.limit_eq]; exact inside)
      have later : (b.flatMap utf8).length ≤ guard := by
        obtain ⟨c, a, rfl⟩ := List.exists_cons_of_ne_nil some
        have := utf8_length_pos c
        rw [List.flatMap_append, List.length_append, List.flatMap_cons,
          List.length_append] at enough
        omega
      rw [← List.append_assoc]
      by_cases last : b.flatMap utf8 = []
      · rw [if_pos last] at kept ⊢
        cases b with
        | nil =>
          rw [List.append_nil]
          cases guard <;> exact put
        | cons c b =>
          rw [List.flatMap_cons, List.append_eq_nil_iff] at last
          exact absurd last.1 (utf8_ne_nil c)
      · rw [if_neg last] at kept ⊢
        have below := put.newline ready
        refine ih below (fun c mem => small c (List.mem_append_right _ mem)) later (.inl ?_) ?_
        · exact Int.le_of_eq ((newline_curX _).trans below.frame.2.2.1)
        · exact kept.trans (newline_dropped (HtmlLayout.putPiece l _ _)).symm

theorem place_dropped (l : Layout) (w : Int) : (place l w).dropped = l.dropped := by
  simp only [place]
  split_ifs
  all_goals first | rfl | exact newline_dropped l

theorem putRun_dropped (s : Bytes) (l : Layout) : l.dropped ≤ (putRun s l).dropped := by
  rw [putRun]
  split_ifs
  · exact Nat.le_refl l.dropped
  · exact Nat.le_succ l.dropped
  · refine Nat.le_trans ?_ (pieces_dropped _ _ _)
    rw [place_dropped]

theorem flatMap_utf8_eq_nil {cps : List Nat} : cps.flatMap utf8 = [] ↔ cps = [] := by
  constructor
  · intro none
    cases cps with
    | nil => rfl
    | cons cp cps =>
      rw [List.flatMap_cons, List.append_eq_nil_iff] at none
      exact absurd none.1 (utf8_ne_nil cp)
  · rintro rfl
    rfl

theorem Written.putRun (ready : Ready from') {cps : List Nat} (known : Written from' l written)
    (small : ∀ cp ∈ cps, cp < 0x10000) (short : (cps.flatMap utf8).length ≤ 512) :
    Written from' (putRun (cps.flatMap utf8) l) (written ++ cps) := by
  obtain ⟨least, good⟩ := known
  have most := putRun_dropped (cps.flatMap utf8) l
  refine ⟨Nat.le_trans least most, fun kept => ?_⟩
  have good := good (by omega)
  have same : (HtmlLayout.putRun (cps.flatMap utf8) l).dropped = l.dropped := by omega
  rw [HtmlLayout.putRun] at same ⊢
  split_ifs at same ⊢ with none full
  · rw [flatMap_utf8_eq_nil.mp none, List.append_nil]
    exact good
  · exact absurd same (Nat.succ_ne_self l.dropped)
  · rw [runW_widths small (Nat.le_refl _)] at same ⊢
    obtain ⟨placed, dropped, start⟩ := good.place ready (widths l.cur.scale l.bold cps)
    refine placed.pieces ready small short ?_ (same.trans dropped.symm)
    rw [placed.frame.2.2.2, placed.bold_eq, ← good.frame.2.2.2, ← good.bold_eq]
    exact start

theorem Written.newline (ready : Ready from') (known : Written from' l written) :
    Written from' (newline l) written := by
  rw [Written, newline_dropped]
  exact ⟨known.1, fun same => (known.2 same).newline ready⟩

end Invariant

section Text

variable {from' : Layout} {p : Word × Layout} {read : List Nat}

/-- The word in the buffer is behind what is written: together they are the characters so
far. -/
def Reading (from' : Layout) (p : Word × Layout) (read : List Nat) : Prop :=
  ∃ written pend, written ++ pend = read ∧ p.1.wbuf = pend.flatMap utf8 ∧
    p.1.wbuf.length ≤ 510 ∧ (∀ cp ∈ pend, cp < 0x10000) ∧ Written from' p.2 written

theorem Reading.flushWord (ready : Ready from') (reading : Reading from' p read) :
    (flushWord p).1.wbuf = [] ∧ Written from' (flushWord p).2 read := by
  obtain ⟨written, pend, rfl, buffer, short, small, known⟩ := reading
  rw [HtmlLayout.flushWord]
  split_ifs with none
  · obtain rfl := flatMap_utf8_eq_nil.mp (buffer.symm.trans none)
    rw [List.append_nil]
    exact ⟨none, known⟩
  · refine ⟨rfl, ?_⟩
    rw [buffer] at short ⊢
    exact known.putRun ready small (by omega)

theorem reading_of_written (empty : p.1.wbuf = []) (known : Written from' p.2 read) :
    Reading from' p read :=
  ⟨read, [], List.append_nil read, empty, by rw [empty]; exact Nat.zero_le _,
    fun _ mem => (List.not_mem_nil mem).elim, known⟩

theorem Reading.flushed (ready : Ready from') (reading : Reading from' p read) :
    Reading from' (HtmlLayout.flushWord p) read :=
  reading_of_written (reading.flushWord ready).1 (reading.flushWord ready).2

theorem Reading.append (reading : Reading from' p read) {cp : Nat} (small : cp < 0x10000)
    (room : p.1.wbuf.length + (utf8 cp).length ≤ 510) (glue : Bool) :
    Reading from' (⟨p.1.wbuf ++ utf8 cp, glue⟩, p.2) (read ++ [cp]) := by
  obtain ⟨written, pend, rfl, buffer, short, smalls, known⟩ := reading
  refine ⟨written, pend ++ [cp], (List.append_assoc _ _ _).symm, ?_, ?_, ?_, known⟩
  · rw [List.flatMap_append, buffer]
    simp
  · rw [List.length_append]
    exact room
  · intro c mem
    obtain before | last := List.mem_append.mp mem
    · exact smalls c before
    · rw [List.mem_singleton.mp last]
      exact small

theorem utf8_length_le (cp : Nat) : (utf8 cp).length ≤ 3 := by
  rw [utf8]
  split_ifs
  · exact Nat.le_of_ble_eq_true rfl
  · exact Nat.le_of_ble_eq_true rfl
  · exact Nat.le_refl 3

theorem Reading.putWide (ready : Ready from') (reading : Reading from' p read) {cp : Nat}
    (small : cp < 0x10000) :
    Reading from' (putWide cp p) (read ++ [cp]) := by
  have three := utf8_length_le cp
  -- the first flush makes room, the second one keeps it
  have first : Reading from' (if p.1.wbuf.length + (utf8 cp).length ≥ 511 then
      HtmlLayout.flushWord p else p) read ∧ (if p.1.wbuf.length + (utf8 cp).length ≥ 511 then
        HtmlLayout.flushWord p else p).1.wbuf.length + (utf8 cp).length ≤ 510 := by
    split_ifs with full
    · refine ⟨reading.flushed ready, ?_⟩
      rw [(reading.flushWord ready).1, List.length_nil]
      omega
    · exact ⟨reading, by omega⟩
  rw [HtmlLayout.putWide]
  generalize (if p.1.wbuf.length + (utf8 cp).length ≥ 511 then
    HtmlLayout.flushWord p else p) = q at first ⊢
  obtain ⟨reading, room⟩ := first
  split_ifs with joins
  · exact reading.append small room (kinsokuHead cp)
  · refine (reading.flushed ready).append small ?_ (kinsokuHead cp)
    rw [(reading.flushWord ready).1, List.length_nil]
    omega

theorem Written.space {l : Layout} {written : List Nat} (known : Written from' l written)
    (keepWs : Bool) :
    Written from' (if keepWs then
      { l with
        curX := l.curX + aw * l.cur.scale
        lineH := if fh * l.cur.scale > l.lineH then fh * l.cur.scale else l.lineH }
      else { l with pendSpace := true }) written := by
  cases keepWs with
  | false =>
    refine ⟨known.1, fun same => ?_⟩
    have good := known.2 same
    exact ⟨good.frame, good.curX, good.inside, good.texts⟩
  | true =>
    refine ⟨known.1, fun same => ?_⟩
    have good := known.2 same
    have blank : 0 ≤ aw * (l.cur.scale : Int) := Int.mul_nonneg (by decide) (by omega)
    exact ⟨good.frame, Int.add_nonneg good.curX blank, good.inside, good.texts⟩

theorem utf8_byte {ch : UInt8} (low : ch < 0x80) : utf8 ch.toNat = [ch] := by
  have small : ch.toNat < 0x80 := UInt8.lt_iff_toNat_lt.mp low
  rw [utf8, if_pos small, UInt8.ofNat_toNat]

theorem Reading.putNarrow (ready : Ready from') (reading : Reading from' p read) (keepWs : Bool)
    {ch : UInt8} (low : ch < 0x80) :
    Reading from' (putNarrow keepWs p ch) (read ++ visible ch) := by
  obtain ⟨empty, known⟩ := reading.flushWord ready
  rw [HtmlLayout.putNarrow, visible]
  by_cases line : keepWs = true ∧ ch = 0x0A
  · obtain ⟨rfl, rfl⟩ := line
    rw [if_pos ⟨rfl, rfl⟩, if_pos (by decide), List.append_nil]
    exact reading_of_written empty (known.newline ready)
  rw [if_neg line]
  by_cases blank : isWs ch = true
  · rw [if_pos blank, if_pos blank, List.append_nil]
    exact reading_of_written empty (known.space keepWs)
  rw [if_neg blank, if_neg blank]
  obtain ⟨d, shownAs, value, lowD⟩ : ∃ d, (if ch < 0x20 then (0x3F : UInt8) else ch) = d ∧
      (if ch < 0x20 then [0x3F] else [ch.toNat]) = [d.toNat] ∧ d < 0x80 := by
    split_ifs
    · exact ⟨0x3F, rfl, rfl, by decide⟩
    · exact ⟨ch, rfl, rfl, low⟩
  simp only [shownAs, value]
  have small : d.toNat < 0x10000 := by
    have := UInt8.toNat_lt d
    omega
  rw [← utf8_byte lowD]
  split_ifs with room
  · refine reading.append small ?_ false
    rw [utf8_byte lowD, List.length_singleton]
    omega
  · refine (reading.flushed ready).append small ?_ false
    rw [empty, utf8_byte lowD, List.length_singleton]
    exact Nat.le_of_ble_eq_true rfl

theorem Reading.narrows (ready : Ready from') (keepWs : Bool) {chs : Bytes}
    (low : ∀ ch ∈ chs, ch < 0x80) (reading : Reading from' p read) :
    Reading from' (chs.foldl (HtmlLayout.putNarrow keepWs) p) (read ++ chs.flatMap visible) := by
  induction chs generalizing p read with
  | nil =>
    rw [List.flatMap_nil, List.append_nil]
    exact reading
  | cons ch chs ih =>
    rw [List.foldl_cons, List.flatMap_cons, ← List.append_assoc]
    exact ih (fun c mem => low c (List.mem_cons_of_mem _ mem))
      (reading.putNarrow ready keepWs (low ch List.mem_cons_self))

theorem low_of_all {x : Bytes} (low : x.all (· < 0x80) = true) : ∀ ch ∈ x, ch < 0x80 :=
  fun ch mem => of_decide_eq_true (List.all_eq_true.mp low ch mem)

theorem low_ite {b : Prop} [Decidable b] {x y : Bytes} (left : x.all (· < 0x80) = true)
    (right : ∀ ch ∈ y, ch < 0x80) : ∀ ch ∈ (if b then x else y), ch < 0x80 := by
  split_ifs
  · exact low_of_all left
  · exact right

theorem cpToAscii_low (cp : Nat) : ∀ ch ∈ cpToAscii cp, ch < 0x80 := by
  rw [cpToAscii]
  by_cases one : cp < 0x80
  · rw [if_pos one]
    intro ch mem
    rw [List.mem_singleton.mp mem, UInt8.lt_iff_toNat_lt, UInt8.toNat_ofNat']
    change cp % 256 < 128
    omega
  rw [if_neg one]
  repeat refine low_ite (by decide) ?_
  by_cases circled : 0x2460 ≤ cp ∧ cp ≤ 0x2473
  · rw [if_pos circled]
    have numbers : ∀ n ≤ 20, (ascii "(" ++
        (if n ≥ 10 then [UInt8.ofNat (0x30 + n / 10)] else []) ++
          [UInt8.ofNat (0x30 + n % 10)] ++ ascii ")").all (· < 0x80) = true := by decide
    exact low_of_all (numbers (cp - 0x2460 + 1) (by omega))
  · rw [if_neg circled]
    exact low_of_all (by decide)

theorem Reading.putChar (ready : Ready from') (font : Font) (keepWs : Bool)
    (reading : Reading from' p read) (cp : Nat) :
    Reading from' (putChar font keepWs p cp) (read ++ shown font cp) := by
  rw [HtmlLayout.putChar, shown]
  generalize (if cp = 0x3000 then 0x20 else cp) = cp
  by_cases glyph : font.Has cp
  · have found := (jpIndex_isSome_iff font cp).mpr glyph
    rw [if_pos ⟨glyph.1, found⟩, if_pos glyph]
    refine reading.putWide ready ?_
    have := glyph.2.1
    omega
  · rw [if_neg fun both => glyph ((jpIndex_isSome_iff font cp).mp both.2), if_neg glyph]
    exact reading.narrows ready keepWs (cpToAscii_low cp)

theorem Reading.chars (ready : Ready from') (font : Font) (keepWs : Bool) (cps : List Nat)
    (reading : Reading from' p read) :
    Reading from' (cps.foldl (HtmlLayout.putChar font keepWs) p)
      (read ++ cps.flatMap (shown font)) := by
  induction cps generalizing p read with
  | nil =>
    rw [List.flatMap_nil, List.append_nil]
    exact reading
  | cons cp cps ih =>
    rw [List.foldl_cons, List.flatMap_cons, ← List.append_assoc]
    exact ih (reading.putChar ready font keepWs cp)

theorem putText_written {l : Layout} (ready : Ready l) (font : Font) (s : Bytes) (keepWs : Bool) :
    Written l (putText font s keepWs l)
      ((readChars entity s.length s).flatMap (shown font)) := by
  have none : ∀ i o, l.ops.length ≤ i → l.ops[i]? = some o → Inside l o := by
    intro i o late op
    rw [List.getElem?_eq_none late] at op
    cases op
  have nothing : Written l l [] :=
    ⟨Nat.le_refl _, fun _ => ⟨⟨rfl, rfl, rfl, rfl⟩, ready.curX, none, [],
      (List.append_nil _).symm, rfl⟩⟩
  have start : Reading l (⟨[], false⟩, l) [] := reading_of_written rfl nothing
  exact ((start.chars ready font keepWs _).flushWord ready).2

theorem readChars_decode {s : Bytes} (arrow : ¬ascii "&rArr;" <:+: s) :
    readChars entity s.length s = decode s := by
  rw [decode]
  generalize s.length = rounds
  induction rounds generalizing s with
  | zero => rfl
  | succ rounds ih =>
    cases s with
    | nil => rfl
    | cons c s =>
      have later (n : Nat) : ¬ascii "&rArr;" <:+: (c :: s).drop n := fun within =>
        arrow (within.trans (List.drop_suffix n (c :: s)).isInfix)
      rw [readChars, readChars]
      by_cases amp : c = 0x26
      · have other : ¬ascii "rArr;" <+: s := by
          rintro ⟨rest, rfl⟩
          refine arrow ⟨[], rest, ?_⟩
          rw [amp]
          rfl
        rw [if_pos amp, if_pos amp, entity_reference other]
        cases reference s with
        | none => exact congrArg _ (ih (later 1))
        | some found => exact congrArg _ (ih (later (found.2 + 1)))
      · have next : readChars entity rounds s = readChars reference rounds s := ih (later 1)
        simp only [if_neg amp, next, ih (later (utf8Get (c :: s)).2)]

/-- Layout loses no text. Where nothing finds the table or the pool full, the new ops have the
characters of the text in their order, each op whole ones, and none lies outside its line once
that is flushed. -/
theorem putText_loses_nothing (font : Font) (s : Bytes) (keepWs : Bool) {l : Layout}
    (ready : Ready l) (rinset : 0 ≤ l.rinset)
    (kept : (putText font s keepWs l).dropped = l.dropped) (arrow : ¬ascii "&rArr;" <:+: s) :
    (∃ parts : List (List Nat),
      (flushLine (putText font s keepWs l)).ops.map Op.text =
        l.ops.map Op.text ++ parts.map (encode l.upper) ∧
      parts.flatten = (decode s).flatMap (shown font)) ∧
    ∀ o ∈ (flushLine (putText font s keepWs l)).ops.drop l.ops.length,
      0 ≤ o.x ∧ o.x + o.w ≤ l.width - l.rinset ∧ tooWide l.width o = false := by
  have good := (putText_written ready font s keepWs).2 kept
  rw [readChars_decode arrow] at good
  have flushed := (good.flushLine ready).1
  refine ⟨flushed.texts, fun o mem => ?_⟩
  obtain ⟨i, op⟩ := List.mem_iff_getElem?.mp mem
  rw [List.getElem?_drop] at op
  obtain ⟨left, right⟩ := flushed.inside _ o (Nat.le_add_right _ _) op
  rw [limit] at right
  refine ⟨left, right, decide_eq_false ?_⟩
  omega

def kana : Font := ⟨#[0x3042, 0x3044], by decide⟩

theorem start_ready (widthPx : Int) : Ready (start widthPx) := by
  refine ⟨Int.le_refl 0, Int.le_refl 0, Nat.zero_and stNowrap, ?_⟩
  have bold : (start widthPx).bold = false := decide_eq_false fun some => some (Nat.zero_and stBold)
  have wide : charW 0x80 (start widthPx).cur.scale (start widthPx).bold = 16 := by
    rw [bold]
    rfl
  rw [wide]
  change 0 + 16 ≤ (if widthPx < 96 then 96 else widthPx) - 0
  split_ifs <;> omega

theorem putText_loses_nothing_kana :
    ∃ parts : List (List Nat),
      (flushLine (putText kana (ascii "a&lt;b " ++ utf8 0x3042) false (start 96))).ops.map Op.text =
        parts.map (encode false) ∧
      parts.flatten = (decode (ascii "a&lt;b " ++ utf8 0x3042)).flatMap (shown kana) :=
  (putText_loses_nothing kana (ascii "a&lt;b " ++ utf8 0x3042) false (start_ready 96)
    (Int.le_refl 0) (by decide +kernel) (by decide +kernel)).1

/-- A style with `text-transform: uppercase` shows other characters than the source has. -/
theorem capitals_shown :
    let l := { start 96 with cur := { (start 96).cur with flags := stUpper } }
    Ready l ∧ (putText kana (ascii "a") false l).dropped = l.dropped ∧
      (putText kana (ascii "a") false l).ops.flatMap Op.text ≠
        ((decode (ascii "a")).flatMap (shown kana)).flatMap utf8 :=
  ⟨⟨by decide, by decide, by decide, by decide⟩, by decide +kernel, by decide +kernel⟩

end Text

end XinuRpi5.System.HtmlKeepsText
