/- source: system/html.c
   digest: The characters of a page: UTF-8, references, the font and its substitutes. -/

import Mathlib.Data.Nat.Bitwise

/-!
The font's table is a parameter: it is generated, sorted and has 6877 entries.
-/

namespace XinuRpi5.System.HtmlText

abbrev Bytes := List UInt8

def ascii (s : String) : Bytes := s.toList.map fun c => UInt8.ofNat c.toNat

theorem forall_byte {P : UInt8 → Prop} (all : ∀ n < 256, P (UInt8.ofNat n)) (c : UInt8) : P c := by
  have byte := all c.toNat c.toNat_lt
  rwa [UInt8.ofNat_toNat] at byte

def lead (c : UInt8) : Option (Nat × Nat) :=
  if c &&& 0xE0 = 0xC0 then some ((c &&& 0x1F).toNat, 1)
  else if c &&& 0xF0 = 0xE0 then some ((c &&& 0x0F).toNat, 2)
  else if c &&& 0xF8 = 0xF0 then some ((c &&& 0x07).toNat, 3)
  else none

/-- `utf8_get`: the character in front and its length. -/
def utf8Get (s : Bytes) : Nat × Nat :=
  let c := s.headD 0
  if c < 0x80 then (c.toNat, 1)
  else
    match lead c with
    | none => ('?'.toNat, 1)
    | some (v, ext) =>
      if ext ≥ s.length then ('?'.toNat, 1)
      else
        let tail := s.tail.take ext
        if tail.all fun b => b &&& 0xC0 = 0x80 then
          (tail.foldl (fun v b => v <<< 6 ||| (b &&& 0x3F).toNat) v, ext + 1)
        else ('?'.toNat, 1)

/-- What `put_text` writes for a character of the font, and for one of ASCII. -/
def utf8 (cp : Nat) : Bytes :=
  if cp < 0x80 then [UInt8.ofNat cp]
  else if cp < 0x800 then [UInt8.ofNat (0xC0 ||| cp >>> 6), UInt8.ofNat (0x80 ||| cp &&& 0x3F)]
  else
    [UInt8.ofNat (0xE0 ||| cp >>> 12), UInt8.ofNat (0x80 ||| cp >>> 6 &&& 0x3F),
      UInt8.ofNat (0x80 ||| cp &&& 0x3F)]

theorem tail_byte {m : Nat} (small : m < 64) :
    UInt8.ofNat (0x80 ||| m) &&& 0xC0 = 0x80 ∧ (UInt8.ofNat (0x80 ||| m) &&& 0x3F).toNat = m := by
  have all : ∀ m < 64, UInt8.ofNat (0x80 ||| m) &&& 0xC0 = 0x80 ∧
      (UInt8.ofNat (0x80 ||| m) &&& 0x3F).toNat = m := by decide
  exact all m small

theorem two_head {d : Nat} (small : d < 32) :
    ¬UInt8.ofNat (0xC0 ||| d) < 0x80 ∧ UInt8.ofNat (0xC0 ||| d) &&& 0xE0 = 0xC0 ∧
      (UInt8.ofNat (0xC0 ||| d) &&& 0x1F).toNat = d := by
  have all : ∀ d < 32, ¬UInt8.ofNat (0xC0 ||| d) < 0x80 ∧
      UInt8.ofNat (0xC0 ||| d) &&& 0xE0 = 0xC0 ∧
        (UInt8.ofNat (0xC0 ||| d) &&& 0x1F).toNat = d := by decide
  exact all d small

theorem three_head {d : Nat} (small : d < 16) :
    ¬UInt8.ofNat (0xE0 ||| d) < 0x80 ∧ ¬UInt8.ofNat (0xE0 ||| d) &&& 0xE0 = 0xC0 ∧
      UInt8.ofNat (0xE0 ||| d) &&& 0xF0 = 0xE0 ∧
        (UInt8.ofNat (0xE0 ||| d) &&& 0x0F).toNat = d := by
  have all : ∀ d < 16, ¬UInt8.ofNat (0xE0 ||| d) < 0x80 ∧
      ¬UInt8.ofNat (0xE0 ||| d) &&& 0xE0 = 0xC0 ∧
        UInt8.ofNat (0xE0 ||| d) &&& 0xF0 = 0xE0 ∧
          (UInt8.ofNat (0xE0 ||| d) &&& 0x0F).toNat = d := by decide
  exact all d small

theorem low_six (n : Nat) : n &&& 0x3F = n % 64 := Nat.and_two_pow_sub_one_eq_mod n 6

theorem join_six {d m : Nat} (small : m < 64) : d <<< 6 ||| m = d * 64 + m := by
  rw [← Nat.shiftLeft_add_eq_or_of_lt (by omega : m < 2 ^ 6), Nat.shiftLeft_eq]

/-- What is written is read back. -/
theorem utf8Get_utf8 {cp : Nat} (small : cp < 0x10000) (rest : Bytes) :
    utf8Get (utf8 cp ++ rest) = (cp, (utf8 cp).length) := by
  by_cases one : cp < 0x80
  · have byte : UInt8.ofNat cp < 0x80 ∧ (UInt8.ofNat cp).toNat = cp := by
      have value : (UInt8.ofNat cp).toNat = cp := by
        rw [UInt8.toNat_ofNat']
        omega
      refine ⟨?_, value⟩
      rw [UInt8.lt_iff_toNat_lt, value]
      exact one
    rw [utf8, if_pos one, List.singleton_append]
    simp [utf8Get, byte]
  · have high : cp >>> 6 = cp / 64 := Nat.shiftRight_eq_div_pow cp 6
    obtain ⟨last, lastValue⟩ := tail_byte (Nat.mod_lt cp (by decide : 64 > 0))
    by_cases two : cp < 0x800
    · obtain ⟨wide, kind, value⟩ := two_head (by omega : cp / 64 < 32)
      rw [utf8, if_neg one, if_pos two, high, low_six]
      simp only [utf8Get, lead, List.cons_append, List.nil_append, List.headD_cons, if_neg wide,
        if_pos kind, List.length_cons, List.tail_cons, List.take_succ_cons, List.take_zero,
        List.all_cons, List.all_nil, last, decide_true, Bool.and_true, if_true, List.foldl_cons,
        List.foldl_nil, value, lastValue, join_six (Nat.mod_lt cp (by decide : 64 > 0))]
      rw [if_neg (by omega)]
      simp only [Prod.mk.injEq, List.length_nil, and_true]
      omega
    · have top : cp >>> 12 = cp / 4096 := Nat.shiftRight_eq_div_pow cp 12
      have middle : cp / 64 % 64 < 64 := Nat.mod_lt _ (by decide)
      obtain ⟨next, nextValue⟩ := tail_byte middle
      obtain ⟨wide, other, kind, value⟩ := three_head (by omega : cp / 4096 < 16)
      rw [utf8, if_neg one, if_neg two, top, high, low_six, low_six]
      simp only [utf8Get, lead, List.cons_append, List.nil_append, List.headD_cons, if_neg wide,
        if_neg other, if_pos kind, List.length_cons, List.tail_cons, List.take_succ_cons,
        List.take_zero, List.all_cons, List.all_nil, last, next, decide_true, Bool.and_true,
        if_true, List.foldl_cons, List.foldl_nil, value, lastValue, nextValue, join_six middle,
        join_six (Nat.mod_lt cp (by decide : 64 > 0))]
      rw [if_neg (by omega)]
      simp only [Prod.mk.injEq, List.length_nil, and_true]
      omega

/-- `jp_uni`: the characters of the font in their order. -/
structure Font where
  jpUni : Array Nat
  sorted : jpUni.toList.Pairwise (· < ·)

theorem Font.ascends (font : Font) {i j : Nat} (less : i < j) (inside : j < font.jpUni.size) :
    font.jpUni[i] < font.jpUni[j] :=
  List.pairwise_iff_getElem.mp font.sorted i j (by simpa using Nat.lt_trans less inside)
    (by simpa using inside) less

/-- The search of `jp_index` between `lo` and `hi`. -/
def searchRounds (uni : Array Nat) (cp : Nat) : Nat → Int → Int → Option Nat
  | 0, _, _ => none
  | rounds + 1, lo, hi =>
    if lo ≤ hi then
      let m := (lo + hi) / 2
      if uni[m.toNat]? = some cp then some m.toNat
      else if (uni[m.toNat]?.getD 0) < cp then searchRounds uni cp rounds (m + 1) hi
      else searchRounds uni cp rounds lo (m - 1)
    else none

def jpIndex (font : Font) (cp : Nat) : Option Nat :=
  if cp < 0x80 ∨ cp > 0xFFFF then none
  else searchRounds font.jpUni cp font.jpUni.size 0 (font.jpUni.size - 1)

def Font.Has (font : Font) (cp : Nat) : Prop := 0x80 ≤ cp ∧ cp ≤ 0xFFFF ∧ cp ∈ font.jpUni

theorem searchRounds_isSome_iff (font : Font) {cp rounds : Nat} {lo hi : Int} (start : 0 ≤ lo)
    (stop : hi < font.jpUni.size) (enough : hi - lo < rounds) :
    (searchRounds font.jpUni cp rounds lo hi).isSome ↔
      ∃ i : Nat, lo ≤ i ∧ i ≤ hi ∧ font.jpUni[i]? = some cp := by
  induction rounds generalizing lo hi with
  | zero =>
    refine ⟨fun found => (Bool.false_ne_true found).elim, ?_⟩
    rintro ⟨i, low, high, -⟩
    omega
  | succ rounds ih =>
    rw [searchRounds]
    split_ifs with open'
    · obtain ⟨m, middle⟩ : ∃ m : Nat, (lo + hi) / 2 = m := ⟨((lo + hi) / 2).toNat, by omega⟩
      have inside : m < font.jpUni.size := by omega
      simp only [middle, Int.toNat_natCast, Array.getElem?_eq_getElem inside, Option.getD_some,
        Option.some.injEq]
      split_ifs with here below
      · refine ⟨fun _ => ⟨m, by omega, by omega, ?_⟩, fun _ => rfl⟩
        rw [Array.getElem?_eq_getElem inside, here]
      · rw [ih (by omega) stop (by omega)]
        constructor
        · rintro ⟨i, low, high, found⟩
          exact ⟨i, by omega, high, found⟩
        · rintro ⟨i, low, high, found⟩
          refine ⟨i, ?_, high, found⟩
          -- the table ascends, so what stands at or before the middle is smaller still
          obtain ⟨size, value⟩ := Array.getElem?_eq_some_iff.mp found
          by_contra before
          obtain equal | less := Nat.eq_or_lt_of_le (by omega : i ≤ m)
          · subst equal
            exact here value
          · have := font.ascends less inside
            omega
      · rw [ih start (by omega) (by omega)]
        constructor
        · rintro ⟨i, low, high, found⟩
          exact ⟨i, low, by omega, found⟩
        · rintro ⟨i, low, high, found⟩
          refine ⟨i, low, ?_, found⟩
          obtain ⟨size, value⟩ := Array.getElem?_eq_some_iff.mp found
          by_contra behind
          obtain equal | less := Nat.eq_or_lt_of_le (by omega : m ≤ i)
          · subst equal
            exact here value
          · have := font.ascends less size
            omega
    · refine ⟨fun found => (Bool.false_ne_true found).elim, ?_⟩
      rintro ⟨i, low, high, -⟩
      omega

theorem jpIndex_isSome_iff (font : Font) (cp : Nat) :
    (jpIndex font cp).isSome ↔ font.Has cp := by
  rw [jpIndex, Font.Has]
  split_ifs with outside
  · refine ⟨fun found => (Bool.false_ne_true found).elim, ?_⟩
    rintro ⟨low, high, -⟩
    omega
  · rw [searchRounds_isSome_iff font (by omega) (by omega) (by omega)]
    constructor
    · rintro ⟨i, -, -, found⟩
      exact ⟨by omega, by omega, Array.mem_of_getElem? found⟩
    · rintro ⟨-, -, mem⟩
      obtain ⟨i, found⟩ := Array.getElem?_of_mem mem
      obtain ⟨size, -⟩ := Array.getElem?_eq_some_iff.mp found
      exact ⟨i, by omega, by omega, found⟩

def lower (c : UInt8) : UInt8 := if 0x41 ≤ c ∧ c ≤ 0x5A then c + 32 else c

/-- `h_eqi`: the first characters are the name's but for their case. -/
def startsEqi : Bytes → Bytes → Bool
  | [], _ => true
  | _ :: _, [] => false
  | x :: name, y :: s => lower x == lower y && startsEqi name s

/-- The table of `entity`. -/
def et : List (Bytes × Nat) :=
  [(ascii "amp", 0x26), (ascii "lt", 0x3C), (ascii "gt", 0x3E), (ascii "quot", 0x22),
    (ascii "apos", 0x27), (ascii "nbsp", 0xA0), (ascii "copy", 0xA9), (ascii "mdash", 0x2014),
    (ascii "ndash", 0x2013), (ascii "hellip", 0x2026), (ascii "rarr", 0x2192),
    (ascii "larr", 0x2190), (ascii "harr", 0x2194), (ascii "times", 0xD7), (ascii "middot", 0xB7),
    (ascii "bull", 0x2022), (ascii "laquo", 0xAB), (ascii "raquo", 0xBB), (ascii "lsquo", 0x2018),
    (ascii "rsquo", 0x2019), (ascii "ldquo", 0x201C), (ascii "rdquo", 0x201D), (ascii "tau", 0x3C4),
    (ascii "lambda", 0x3BB), (ascii "alpha", 0x3B1), (ascii "beta", 0x3B2), (ascii "pi", 0x3C0),
    (ascii "le", 0x2264), (ascii "ge", 0x2265), (ascii "ne", 0x2260), (ascii "rArr", 0x21D2),
    (ascii "check", 0x2713), (ascii "deg", 0xB0), (ascii "plusmn", 0xB1), (ascii "divide", 0xF7),
    (ascii "infin", 0x221E)]

def digitValue (hex : Bool) (c : UInt8) : Option Nat :=
  if 0x30 ≤ c ∧ c ≤ 0x39 then some (c.toNat - 0x30)
  else if hex ∧ 0x61 ≤ c ∧ c ≤ 0x66 then some (c.toNat - 0x61 + 10)
  else if hex ∧ 0x41 ≤ c ∧ c ≤ 0x46 then some (c.toNat - 0x41 + 10)
  else none

def numericLoop (hex : Bool) : Nat → Bytes → Nat → Nat × Nat
  | 0, _, v => (v, 0)
  | _ + 1, [], v => (v, 0)
  | room + 1, c :: s, v =>
    match digitValue hex c with
    | none => (v, 0)
    | some d =>
      let (value, count) := numericLoop hex room s (v * (if hex then 16 else 10) + d)
      (value, count + 1)

/-- A numeric reference behind its `#`: the character and the length with the `#`. -/
def numeric (s : Bytes) : Option (Nat × Nat) :=
  let hex := s.head? = some 0x78 ∨ s.head? = some 0x58
  let first := if hex then 2 else 1
  let (v, d) := numericLoop (decide hex) (10 - first) (s.drop (first - 1)) 0
  if d = 0 then none
  else
    let i := first + d
    some (v, if s[i - 1]? = some 0x3B then i + 1 else i)

/-- The test of `entity` on one row of the table; the last comparison has the one of the
lengths in it. -/
def caseless (s name : Bytes) : Bool :=
  s.head? == name.head? && startsEqi name s && s[name.length]? == some 0x3B

/-- `entity`: the character of a reference behind its `&` and the reference's length. -/
def entity (s : Bytes) : Option (Nat × Nat) :=
  if s.head? = some 0x23 then numeric s.tail
  else (et.find? fun row => caseless s row.1).map fun row => (row.2, row.1.length + 1)

def exact (s name : Bytes) : Bool := (name ++ [0x3B]).isPrefixOf s

/-- What a reference stands for: the character of just this name, or else the first one whose
name differs in the case of letters behind the first. -/
def reference (s : Bytes) : Option (Nat × Nat) :=
  if s.head? = some 0x23 then numeric s.tail
  else
    ((et.find? fun row => exact s row.1).or (et.find? fun row => caseless s row.1)).map
      fun row => (row.2, row.1.length + 1)

theorem et_own {row : Bytes × Nat} (known : row ∈ et) (own : row.1 ≠ ascii "rArr")
    (rest : Bytes) : (et.find? fun other => caseless (row.1 ++ 0x3B :: rest) other.1) = some row := by
  revert known
  simp only [et, List.mem_cons, List.not_mem_nil, or_false]
  rintro (rfl | rfl | rfl | rfl | rfl | rfl | rfl | rfl | rfl | rfl | rfl | rfl | rfl | rfl | rfl |
    rfl | rfl | rfl | rfl | rfl | rfl | rfl | rfl | rfl | rfl | rfl | rfl | rfl | rfl | rfl | rfl |
    rfl | rfl | rfl | rfl | rfl)
  all_goals first | rfl | exact (own rfl).elim

theorem entity_reference {s : Bytes} (other : ¬ascii "rArr;" <+: s) : entity s = reference s := by
  rw [entity, reference]
  split_ifs
  · rfl
  · cases named : et.find? fun row => exact s row.1 with
    | none => rfl
    | some row =>
      have written : exact s row.1 = true := by simpa using List.find?_some named
      obtain ⟨rest, text⟩ := List.isPrefixOf_iff_prefix.mp written
      rw [List.append_assoc, List.singleton_append] at text
      have own : row.1 ≠ ascii "rArr" := by
        intro same
        rw [same] at text
        exact other ⟨rest, text⟩
      rw [← text, et_own (List.mem_of_find?_eq_some named) own]
      rfl

def cpToAscii (cp : Nat) : Bytes :=
  if cp < 0x80 then [UInt8.ofNat cp]
  else if cp = 0xA0 then ascii " "
  else if cp = 0xA9 then ascii "(c)"
  else if cp = 0xAB then ascii "<<"
  else if cp = 0xBB then ascii ">>"
  else if cp ∈ [0xB7, 0x2022] then ascii "*"
  else if cp ∈ [0x2013, 0x2014, 0x2015, 0x2212] then ascii "-"
  else if cp ∈ [0x2018, 0x2019, 0x2032] then ascii "'"
  else if cp ∈ [0x201C, 0x201D] then ascii "\""
  else if cp = 0x2026 then ascii "..."
  else if cp = 0x2192 then ascii "->"
  else if cp = 0x2190 then ascii "<-"
  else if cp ∈ [0x2194, 0x21C6, 0x21C4] then ascii "<->"
  else if cp = 0x21D2 then ascii "=>"
  else if cp ∈ [0x2713, 0x2714] then ascii "v"
  else if cp ∈ [0x2717, 0x2718] then ascii "x"
  else if 0x2460 ≤ cp ∧ cp ≤ 0x2473 then
    let n := cp - 0x2460 + 1
    ascii "(" ++ (if n ≥ 10 then [UInt8.ofNat (0x30 + n / 10)] else []) ++
      [UInt8.ofNat (0x30 + n % 10)] ++ ascii ")"
  else ascii "."

/-- The white space of `put_text`. -/
def isWs (ch : UInt8) : Bool := ch ∈ [0x20, 0x09, 0x0A, 0x0D, 0x0C]

/-- The reading part of the loop of `put_text`: the characters of the source, without the two
that have no width. The references are read by `ref`. -/
def readChars (ref : Bytes → Option (Nat × Nat)) : Nat → Bytes → List Nat
  | 0, _ => []
  | _ + 1, [] => []
  | rounds + 1, c :: s =>
    if c = 0x26 then
      match ref s with
      | some (cp, used) => cp :: readChars ref rounds (s.drop used)
      | none => 0x26 :: readChars ref rounds s
    else if c ≥ 0x80 then
      let (cp, used) := utf8Get (c :: s)
      if cp = 0x200B ∨ cp = 0xFEFF then readChars ref rounds ((c :: s).drop used)
      else cp :: readChars ref rounds ((c :: s).drop used)
    else c.toNat :: readChars ref rounds s

def decode (s : Bytes) : List Nat := readChars reference s.length s

end XinuRpi5.System.HtmlText
