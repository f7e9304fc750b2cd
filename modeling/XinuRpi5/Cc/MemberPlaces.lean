/- source: cc/parse.c, cc/codegen.c
   digest: Which structures have their members apart, aligned and within reach. -/

import XinuRpi5.Cc.StructLayout

/-!
A member takes up the bytes of its elements, by the layouts that its structures have in the
end. While a structure is read, its own type and those around it have no size yet.
-/

namespace XinuRpi5.Cc.MemberPlaces

open Parse MemberAccess StructLayout

/-- The bytes that a value takes up; those of the elements of an array lie side by side. -/
def extent (layouts : List Layout) : CType → Int
  | .array base len _ => extent layouts base * len
  | ty => ty.size layouts

/-- A `char`, or an array of them. -/
def chars : CType → Bool
  | .char => true
  | .array base _ _ => chars base
  | _ => false

def Apart (layouts : List Layout) (a b : Member) : Prop :=
  ∀ x, ¬ (a.offset ≤ x ∧ x < a.offset + extent layouts a.ty ∧
    b.offset ≤ x ∧ x < b.offset + extent layouts b.ty)

/-- The members lie apart inside the structure, all but characters on multiples of 8, and the
code that accesses a member finds it. -/
structure Sound (layouts : List Layout) (l : Layout) : Prop where
  inside : ∀ m ∈ l.members, 0 ≤ m.offset ∧ 0 ≤ extent layouts m.ty ∧
    m.offset + extent layouts m.ty ≤ l.size
  apart : l.members.Pairwise (Apart layouts)
  aligned : ∀ m ∈ l.members, chars m.ty = false → 8 ∣ m.offset
  reached : ∀ m ∈ l.members, Reaches m.offset

/-- The place behind `off` for a member of a size. -/
def place (off size : Int) : Int := if 8 ≤ size then (off + 7) / 8 * 8 else off

/-- Members of these types fit behind `off`: each has had its size when it was declared, begins
in the first 4096 bytes and, where it is neither characters nor as long as 8 bytes, on a
multiple of 8; and the structure ends within an `int`. -/
def Fits (before layouts : List Layout) : (off : Int) → List CType → Prop
  | off, [] => off ≤ 2147483640
  | off, ty :: rest =>
    (0 ≤ ty.size before ∧ extent layouts ty = ty.size before) ∧
      place off (ty.size before) ≤ 4095 ∧
      (ty.size before < 8 → chars ty = false → 8 ∣ place off (ty.size before)) ∧
      Fits before layouts (place off (ty.size before) + ty.size before) rest

section Arithmetic

theorem toInt_of_range {x : Int} (low : -2147483648 ≤ x) (high : x < 2147483648) : toInt x = x := by
  rw [toInt]
  exact Int.bmod_eq_of_le (by omega) (by omega)

theorem toInt_range (x : Int) : -2147483648 ≤ toInt x ∧ toInt x < 2147483648 := by
  have low := Int.le_bmod (x := x) (m := 2 ^ 32) (by decide)
  have high := Int.bmod_lt (x := x) (m := 2 ^ 32) (by decide)
  rw [toInt]
  omega

theorem pAlignUp_le (n : Int) : pAlignUp n 8 ≤ 2147483640 := by
  obtain ⟨low, high⟩ := toInt_range (n + 8 - 1)
  rw [pAlignUp]
  generalize toInt (n + 8 - 1) = y at low high
  rcases Int.le_total 0 y with positive | negative
  · rw [Int.tdiv_eq_ediv_of_nonneg positive, toInt_of_range (by omega) (by omega)]
    omega
  · obtain ⟨z, rfl⟩ : ∃ z, y = -z := ⟨-y, by omega⟩
    rw [Int.neg_tdiv, Int.tdiv_eq_ediv_of_nonneg (by omega), toInt_of_range (by omega) (by omega)]
    omega

theorem pAlignUp_one {n : Int} (low : 0 ≤ n) (high : n ≤ 2147483640) : pAlignUp n 1 = n := by
  have same : n + 1 - 1 = n := by omega
  have inner := toInt_of_range (x := n) (by omega) (by omega)
  rw [pAlignUp, same, inner, Int.tdiv_one, Int.mul_one, inner]

theorem pAlignUp_eight {n : Int} (low : 0 ≤ n) (high : n ≤ 2147483640) :
    pAlignUp n 8 = (n + 7) / 8 * 8 := by
  have same : n + 8 - 1 = n + 7 := by omega
  have inner := toInt_of_range (x := n + 7) (by omega) (by omega)
  rw [pAlignUp, same, inner, Int.tdiv_eq_ediv_of_nonneg (by omega),
    toInt_of_range (by omega) (by omega)]

variable {off size : Int}

theorem pAlignUp_eq (low : 0 ≤ off) (high : off ≤ 2147483640) :
    pAlignUp off (if 8 ≤ size then 8 else 1) = place off size := by
  unfold place
  split
  · exact pAlignUp_eight low high
  · exact pAlignUp_one low high

theorem place_range {off size : Int} (high : off ≤ 2147483640) :
    off ≤ place off size ∧ place off size ≤ 2147483640 := by
  unfold place
  split <;> omega

theorem place_aligned (large : 8 ≤ size) : 8 ∣ place off size := by
  rw [place, if_pos large]
  omega

theorem place_multiple (multiple : 8 ∣ off) : place off size = off := by
  unfold place
  split <;> omega

end Arithmetic

section Exact

variable {before layouts : List Layout}

/-- How the size of a type when it is declared and its extent in the end are related: they are
the same, but for an array that does not fit in an `int` and for structures without a size. -/
def Related (before layouts : List Layout) (ty : CType) : Prop :=
  ty.size before = extent layouts ty ∨ ty.size before = toInt (extent layouts ty) ∨
    ty.size before = 0 ∧ chars ty = false

theorem Related.exact {ty : CType} (related : Related before layouts ty)
    (low : 0 ≤ extent layouts ty) (high : extent layouts ty ≤ 2147483640) :
    ty.size before = extent layouts ty ∨ ty.size before = 0 ∧ chars ty = false := by
  rcases related with same | cut | none
  · exact .inl same
  · rw [toInt_of_range (by omega) (by omega)] at cut
    exact .inl cut
  · exact .inr none

variable {ms : List Member} {off last : Int}

theorem last_of_blocked {size : Int}
    (laid : Laid before off ms last) (low : 0 ≤ off) (multiple : 8 ∣ off)
    (bound : off ≤ 2147483640)
    (related : ∀ m ∈ ms, Related before layouts m.ty)
    (inside : ∀ m ∈ ms, 0 ≤ m.offset ∧ 0 ≤ extent layouts m.ty ∧
      m.offset + extent layouts m.ty ≤ size)
    (most : size ≤ 2147483640)
    (free : ∀ m ∈ ms, ¬ (m.offset ≤ off ∧ off < m.offset + extent layouts m.ty)) :
    last = off := by
  induction ms generalizing off with
  | nil => exact laid
  | cons m ms ih =>
    obtain ⟨start, some, within⟩ := inside m List.mem_cons_self
    have blocked := free m List.mem_cons_self
    have offset := laid.1
    rw [pAlignUp_eq low bound, place_multiple multiple] at offset
    have empty : m.ty.size before = 0 := by
      rcases (related m List.mem_cons_self).exact some (by omega) with same | none
      · omega
      · exact none.1
    have rest := laid.2
    rw [offset, empty, Int.add_zero, toInt_of_range (by omega) (by omega)] at rest
    exact ih rest low multiple bound (fun x member => related x (List.mem_cons_of_mem _ member))
      (fun x member => inside x (List.mem_cons_of_mem _ member))
      fun x member => free x (List.mem_cons_of_mem _ member)

/-- Members that lie as they should are of types that fit. -/
theorem fits_of_sound (laid : Laid before off ms last)
    (low : 0 ≤ off) (high : off ≤ 2147483640) (related : ∀ m ∈ ms, Related before layouts m.ty)
    (sound : Sound layouts ⟨pAlignUp last 8, ms⟩) : Fits before layouts off (ms.map Member.ty) := by
  induction ms generalizing off with
  | nil => exact high
  | cons m ms ih =>
    obtain ⟨start, some, within⟩ := sound.inside m List.mem_cons_self
    have most := pAlignUp_le last
    have offset := laid.1
    rw [pAlignUp_eq low high] at offset
    have within : m.offset + extent layouts m.ty ≤ pAlignUp last 8 := within
    have reach := (reaches_iff (by omega) (by omega)).1 (sound.reached m List.mem_cons_self)
    have aligned := sound.aligned m List.mem_cons_self
    have apart := List.pairwise_cons.1 sound.apart
    have exact : m.ty.size before = extent layouts m.ty := by
      rcases (related m List.mem_cons_self).exact some (by omega) with same | ⟨empty, none⟩
      · exact same
      by_contra other
      -- the member has bytes, and everything behind it begins at the same place
      have multiple := aligned none
      have behind := laid.2
      rw [empty, Int.add_zero, toInt_of_range (by omega) (by omega)] at behind
      have last_eq := last_of_blocked behind start multiple (by omega)
        (fun x member => related x (List.mem_cons_of_mem _ member))
        (fun x member => sound.inside x (List.mem_cons_of_mem _ member)) most
        fun x member share => apart.1 x member m.offset
          ⟨by omega, by omega, share.1, share.2⟩
      rw [last_eq, pAlignUp_eight start (by omega)] at within
      omega
    have rest := laid.2
    rw [exact, toInt_of_range (by omega) (by omega)] at rest
    rw [List.map_cons, Fits, ← offset, exact]
    refine ⟨⟨some, rfl⟩, reach.2, fun _ => aligned, ?_⟩
    exact ih rest (by omega) (by omega) (fun x member => related x (List.mem_cons_of_mem _ member))
      ⟨fun x member => sound.inside x (List.mem_cons_of_mem _ member), apart.2,
        fun x member => sound.aligned x (List.mem_cons_of_mem _ member),
        fun x member => sound.reached x (List.mem_cons_of_mem _ member)⟩

theorem Fits.high {tys : List CType} (fits : Fits before layouts off tys) :
    off ≤ 2147483640 := by
  cases tys with
  | nil => exact fits
  | cons ty rest =>
    have near := fits.2.1
    unfold place at near
    split at near <;> omega

/-- Members of types that fit lie one behind the other, and end within an `int`. -/
theorem sound_of_fits (laid : Laid before off ms last)
    (low : 0 ≤ off) (fits : Fits before layouts off (ms.map Member.ty)) :
    off ≤ last ∧ last ≤ 2147483640 ∧
      (∀ m ∈ ms, off ≤ m.offset ∧ 0 ≤ extent layouts m.ty ∧
        m.offset + extent layouts m.ty ≤ last) ∧
      ms.Pairwise (fun a b => a.offset + extent layouts a.ty ≤ b.offset) ∧
      (∀ m ∈ ms, chars m.ty = false → 8 ∣ m.offset) ∧ ∀ m ∈ ms, Reaches m.offset := by
  induction ms generalizing off with
  | nil =>
    obtain rfl : last = off := laid
    exact ⟨Int.le_refl _, fits, by simp, .nil, by simp, by simp⟩
  | cons m ms ih =>
    obtain ⟨⟨some, exact⟩, near, aligned, rest⟩ := fits
    have high : off ≤ 2147483640 := by
      unfold place at near
      split at near <;> omega
    obtain ⟨above, -⟩ := @place_range off (m.ty.size before) high
    have offset := laid.1
    rw [pAlignUp_eq low high] at offset
    rw [← offset] at near aligned rest above
    have behind := laid.2
    rw [toInt_of_range (by omega) (by have := rest.high; omega)] at behind
    obtain ⟨le, bound, inside, apart, multiple, reached⟩ := ih behind (by omega) rest
    refine ⟨by omega, bound, ?_, ?_, ?_, ?_⟩
    · intro x member
      rcases List.mem_cons.1 member with rfl | later
      · exact ⟨above, by omega, by omega⟩
      · have within := inside x later
        exact ⟨by omega, within.2.1, within.2.2⟩
    · refine List.pairwise_cons.2 ⟨fun x member => ?_, apart⟩
      have within := inside x member
      omega
    · intro x member
      rcases List.mem_cons.1 member with rfl | later
      · intro other
        by_cases large : 8 ≤ x.ty.size before
        · rw [offset]
          exact place_aligned large
        · exact aligned (by omega) other
      · exact multiple x later
    · intro x member
      rcases List.mem_cons.1 member with rfl | later
      · exact (reaches_iff (by omega) (by omega)).2 ⟨by omega, near⟩
      · exact reached x later

theorem sound_iff_fits (laid : Laid before 0 ms last)
    (related : ∀ m ∈ ms, Related before layouts m.ty) :
    Sound layouts ⟨pAlignUp last 8, ms⟩ ↔ Fits before layouts 0 (ms.map Member.ty) := by
  constructor
  · exact fits_of_sound laid (Int.le_refl 0) (by decide) related
  · intro fits
    obtain ⟨low, high, inside, apart, aligned, reached⟩ :=
      sound_of_fits laid (Int.le_refl 0) fits
    have size : last ≤ pAlignUp last 8 := by
      rw [pAlignUp_eight low high]
      omega
    refine ⟨fun m member => ?_, apart.imp ?_, aligned, reached⟩
    · have within := inside m member
      exact ⟨within.1, within.2.1, Int.le_trans within.2.2 size⟩
    · intro a b before x share
      omega

end Exact

section Declarations

variable {s t : Parser} {id : Nat} {layouts : List Layout} {ty : CType}

/-- The layouts at some time behind a declaration: a structure type that is still open, which
was empty when the declaration began, can have got its members. -/
def Later (s t : Parser) (layouts : List Layout) : Prop :=
  ∀ j, j < t.layouts.length → s.layouts[j]? ≠ some ⟨0, []⟩ → layouts[j]? = t.layouts[j]?

theorem size_opened_self (inside : id < t.layouts.length) :
    (CType.struct id).size (opened t.layouts id) = 0 := by
  rw [CType.size, opened, List.getElem?_set_self inside]
  rfl

theorem plain_related (kept : s.layouts <+: t.layouts) (inside : id < t.layouts.length)
    (later : Later s t layouts)
    (plain : Plain (opened t.layouts id).length ty) :
    ty.size (opened t.layouts id) = extent layouts ty ∨
      ty.size (opened t.layouts id) = 0 ∧ chars ty = false := by
  cases ty with
  | struct j =>
    have bound : j < t.layouts.length := by simpa [opened, Plain] using plain
    by_cases self : j = id
    · rw [self]
      exact .inr ⟨size_opened_self inside, rfl⟩
    have same : (opened t.layouts id)[j]? = t.layouts[j]? :=
      List.getElem?_set_ne (Ne.symm self)
    by_cases blank : s.layouts[j]? = some ⟨0, []⟩
    · right
      obtain ⟨before, -⟩ := List.getElem?_eq_some_iff.1 blank
      obtain ⟨more, grown⟩ := kept
      have there : t.layouts[j]? = some ⟨0, []⟩ := by
        rw [← grown, List.getElem?_append_left before, blank]
      rw [CType.size, same, there]
      exact ⟨rfl, rfl⟩
    · left
      change _ = (CType.struct j).size layouts
      rw [CType.size, CType.size, same, later j bound blank]
  | array base len size => exact plain.elim
  | _ => exact .inl rfl

theorem made_related (kept : s.layouts <+: t.layouts) (inside : id < t.layouts.length)
    (later : Later s t layouts)
    (made : Made (opened t.layouts id) ty) : Related (opened t.layouts id) layouts ty := by
  cases ty with
  | array base len size =>
    rcases plain_related kept inside later made.1 with same | ⟨none, other⟩
    · refine .inr (.inl ?_)
      rw [extent, ← same, CType.size]
      exact made.2
    · refine .inr (.inr ⟨?_, other⟩)
      rw [CType.size, made.2, none, Int.zero_mul]
      rfl
  | struct j =>
    have plain : Plain (opened t.layouts id).length (.struct j) := made
    rcases plain_related kept inside later plain with same | none
    · exact .inl same
    · exact .inr (.inr none)
  | _ => exact .inl rfl

/-- A structure that is declared has its members apart, aligned and within reach exactly when
their types fit. -/
theorem members_placed_iff {fuel : Nat} (known : Known s)
    (declared : (structDecl fuel).run s = (.struct id, t)) (new : s.layouts.length ≤ id)
    (later : Later s t layouts) :
    ∃ l, layouts[id]? = some l ∧
      (Sound layouts l ↔ Fits (opened t.layouts id) layouts 0 (l.members.map Member.ty)) := by
  have reads := structDecl_reads fuel known
  have type : ((structDecl fuel).run s).1 = .struct id := congrArg Prod.fst declared
  have state : ((structDecl fuel).run s).2 = t := congrArg Prod.snd declared
  obtain ⟨-, ms, last, filled⟩ := reads.declared id type new
  have kept := reads.reads.1.layouts
  rw [state] at filled kept
  obtain ⟨inside, -⟩ := List.getElem?_eq_some_iff.1 filled.layout
  have fresh : s.layouts[id]? ≠ some ⟨0, []⟩ := by
    rw [List.getElem?_eq_none new]
    exact nofun
  refine ⟨⟨pAlignUp last 8, ms⟩, (later id inside fresh).trans filled.layout, ?_⟩
  exact sound_iff_fits filled.laid fun m member =>
    made_related kept inside later (filled.made m member)

/-- `A { members }`, behind `struct`. -/
def named (members : List Token) : List Token :=
  [.ident "A", .punct "\x7b"] ++ members ++ [.punct "\x7d", .punct ";", .eof]

def reading (members : List Token) : Parser := start ⟨0x80000, 2 ^ 21, 4096⟩ (named members)

theorem known_start (arena : Arena) (toks : List Token) : Known (start arena toks) := by
  constructor <;> exact nofun

/-- `char c; int x;` -/
def charAndInt : List Token :=
  [.kw "char", .ident "c", .punct ";", .kw "int", .ident "x", .punct ";"]

theorem members_placed_iff_two : ∃ t l,
    (structDecl 8).run (reading charAndInt) = (.struct 0, t) ∧ t.layouts[0]? = some l ∧
      Sound t.layouts l := by
  have run : ((structDecl 8).run (reading charAndInt)).2.layouts =
      [⟨16, [⟨"c", .char, 0⟩, ⟨"x", .int, 8⟩]⟩] := by decide +kernel
  have type : ((structDecl 8).run (reading charAndInt)).1 = .struct 0 := by decide +kernel
  generalize read : (structDecl 8).run (reading charAndInt) = r at run type
  have declared := read.trans (Prod.ext type rfl : r = (.struct 0, r.2))
  obtain ⟨l, found, iff⟩ := members_placed_iff (known_start _ _) declared (Nat.zero_le 0)
    fun _ _ _ => rfl
  refine ⟨r.2, l, Prod.ext type rfl, found, iff.2 ?_⟩
  rw [run] at found ⊢
  obtain rfl := Option.some.inj found
  simp [Fits, extent, CType.size, place, chars]

/-- `int a[512]; int x;` -/
def arrayAndInt : List Token :=
  [.kw "int", .ident "a", .punct "[", .num 512, .punct "]", .punct ";", .kw "int", .ident "x",
    .punct ";"]

/-- The offset of `x` is 4096, and the code adds nothing. -/
theorem member_out_of_reach : ∃ t l,
    (structDecl 8).run (reading arrayAndInt) = (.struct 0, t) ∧
    t.err = none ∧ t.fault = false ∧ t.spent = false ∧
    t.layouts[0]? = some l ∧ ¬ Sound t.layouts l := by
  have run : ((structDecl 8).run (reading arrayAndInt)).2.layouts =
      [⟨4104, [⟨"a", .array .int 512 4096, 0⟩, ⟨"x", .int, 4096⟩]⟩] := by decide +kernel
  have calm : ((structDecl 8).run (reading arrayAndInt)).1 = .struct 0 ∧
      ((structDecl 8).run (reading arrayAndInt)).2.err = none ∧
      ((structDecl 8).run (reading arrayAndInt)).2.fault = false ∧
      ((structDecl 8).run (reading arrayAndInt)).2.spent = false := by decide +kernel
  generalize (structDecl 8).run (reading arrayAndInt) = r at run calm
  refine ⟨r.2, _, Prod.ext calm.1 rfl, calm.2.1, calm.2.2.1, calm.2.2.2, by rw [run]; rfl, ?_⟩
  intro sound
  have reach := sound.reached ⟨"x", .int, 4096⟩ (by simp)
  have small := ((reaches_iff (by decide) (by decide)).1 reach).2
  exact absurd small (by decide)

end Declarations

end XinuRpi5.Cc.MemberPlaces
