/- source: cc/parse.c
   digest: Where struct_decl puts the members of a structure. -/

import XinuRpi5.Cc.MemberAccess
import XinuRpi5.Cc.Parse

namespace XinuRpi5.Cc.StructLayout

open Lib.RuledState Parse MemberAccess

section Types

/-- A type that `declspec` can give when there are `n` structure types; it is no array. -/
def Plain (n : Nat) : CType → Prop
  | .int | .char | .ptr _ => True
  | .struct id => id < n
  | .array _ _ _ => False

/-- The type of a member: an array has the size that its elements had at the time. -/
def Made (layouts : List Layout) : CType → Prop
  | .array base len size => Plain layouts.length base ∧ size = toInt (base.size layouts * len)
  | ty => Plain layouts.length ty

variable {layouts later : List Layout} {ty : CType}

theorem Plain.mono {n m : Nat} (plain : Plain n ty) (le : n ≤ m) : Plain m ty := by
  cases ty with
  | struct id => exact Nat.lt_of_lt_of_le plain le
  | array base len size => exact plain.elim
  | _ => trivial

theorem Plain.made (plain : Plain layouts.length ty) : Made layouts ty := by
  cases ty with
  | array base len size => exact plain.elim
  | _ => exact plain

theorem Plain.size_eq (plain : Plain layouts.length ty) (grows : layouts <+: later) :
    ty.size later = ty.size layouts := by
  cases ty with
  | struct id =>
    have same : later[id]? = layouts[id]? := by
      obtain ⟨more, rfl⟩ := grows
      exact List.getElem?_append_left plain
    rw [CType.size, CType.size, same]
  | array base len size => exact plain.elim
  | _ => rfl

theorem Made.size_eq (made : Made layouts ty) (grows : layouts <+: later) :
    ty.size later = ty.size layouts := by
  cases ty with
  | array base len size => rfl
  | _ => exact Plain.size_eq made grows

theorem Made.mono (made : Made layouts ty) (grows : layouts <+: later) : Made later ty := by
  cases ty with
  | array base len size =>
    exact ⟨made.1.mono grows.length_le, by rw [made.2, made.1.size_eq grows]⟩
  | struct id => exact Nat.lt_of_lt_of_le made grows.length_le
  | _ => trivial

end Types

section Keeps

structure Known (s : Parser) : Prop where
  structs : ∀ x ∈ s.structs, x.2 < s.layouts.length
  typedefs : ∀ x ∈ s.typedefs, Plain s.layouts.length x.2

/-- The structure types that are there keep their layouts, and the registries stay sound. -/
structure Declares (s t : Parser) : Prop where
  layouts : s.layouts <+: t.layouts
  known : Known s → Known t

variable {α β : Type} {s t u : Parser}

theorem Declares.refl (s : Parser) : Declares s s := ⟨List.prefix_refl _, id⟩

theorem Declares.trans (first : Declares s t) (second : Declares t u) : Declares s u :=
  ⟨first.layouts.trans second.layouts, second.known ∘ first.known⟩

structure Quiet (s t : Parser) : Prop where
  layouts : t.layouts = s.layouts
  structs : t.structs = s.structs
  typedefs : t.typedefs = s.typedefs

def QuietProg (p : P α) : Prop := ∀ s, Quiet s (p.run s).2

theorem Quiet.declares (h : Quiet s t) : Declares s t := by
  refine ⟨h.layouts ▸ List.prefix_refl _, fun known => ⟨?_, ?_⟩⟩
  · rw [h.structs, h.layouts]
    exact known.structs
  · rw [h.typedefs, h.layouts]
    exact known.typedefs

theorem QuietProg.bind {p : P α} {f : α → P β} (first : QuietProg p)
    (rest : ∀ a, QuietProg (f a)) : QuietProg (p >>= f) := by
  intro s
  have one := first s
  have two := rest (p.run s).1 (p.run s).2
  exact ⟨two.layouts.trans one.layouts, two.structs.trans one.structs,
    two.typedefs.trans one.typedefs⟩

theorem quiet_pure (a : α) : QuietProg (pure a : P α) := fun _ => ⟨rfl, rfl, rfl⟩

theorem quiet_gets (f : Parser → α) : QuietProg (Prog.gets f : P α) := fun _ => ⟨rfl, rfl, rfl⟩

theorem quiet_peek : QuietProg peek := by
  intro s
  unfold peek reads Prog.act
  dsimp only
  split <;> exact ⟨rfl, rfl, rfl⟩

theorem quiet_advance : QuietProg advance := by
  intro s
  unfold advance reads Prog.act
  dsimp only
  split <;> exact ⟨rfl, rfl, rfl⟩

theorem quiet_ccError (msg : String) : QuietProg (ccError msg) := fun _ => ⟨rfl, rfl, rfl⟩

theorem quiet_spend : QuietProg (does .spend) := fun _ => ⟨rfl, rfl, rfl⟩

theorem quiet_ccAlloc (n : Nat) : QuietProg (ccAlloc n) := by
  intro s
  change Quiet s (s.alloc n)
  unfold Parser.alloc
  dsimp only
  split <;> exact ⟨rfl, rfl, rfl⟩

theorem quiet_ite {c : Prop} [Decidable c] {p q : P α} (yes : QuietProg p) (no : QuietProg q) :
    QuietProg (if c then p else q) := by
  split
  · exact yes
  · exact no

theorem quiet_expect (w : String) : QuietProg (expect w) :=
  (quiet_gets _).bind fun _ => quiet_ite quiet_advance (quiet_ccError _)

theorem quiet_consume (w : String) : QuietProg (consume w) :=
  (quiet_gets _).bind fun _ => quiet_ite (quiet_advance.bind fun _ => quiet_pure _) (quiet_pure _)

theorem quiet_tyPtrTo (base : CType) : QuietProg (tyPtrTo base) :=
  (quiet_ccAlloc _).bind fun _ => quiet_pure _

theorem quiet_tyArrayOf (base : CType) (len : Int) : QuietProg (tyArrayOf base len) :=
  (quiet_ccAlloc _).bind fun _ => (quiet_gets _).bind fun _ => quiet_pure _

theorem quiet_arrayLength : QuietProg arrayLength := by
  have rest : ∀ len : Int, QuietProg (do advance; expect "]"; return len : P Int) := fun len =>
    quiet_advance.bind fun _ => (quiet_expect _).bind fun _ => quiet_pure len
  refine quiet_peek.bind fun t => ?_
  dsimp only
  split
  · exact rest _
  · exact (quiet_ccError _).bind fun _ => rest _

theorem quiet_spent (a : α) : QuietProg (spent a) := quiet_spend.bind fun _ => quiet_pure _

theorem quiet_stars (fuel : Nat) (ty : CType) : QuietProg (stars fuel ty) := by
  induction fuel generalizing ty with
  | zero => exact quiet_spent ty
  | succ fuel ih =>
    exact (quiet_gets _).bind fun _ =>
      quiet_ite (quiet_advance.bind fun _ => (quiet_tyPtrTo ty).bind ih) (quiet_pure ty)

end Keeps

section Members

/-- The members of a structure lie one behind the other from `off` on, by the sizes in a table
of layouts; `last` is behind them. -/
def Laid (layouts : List Layout) : (off : Int) → List Member → (last : Int) → Prop
  | off, [], last => last = off
  | off, m :: ms, last =>
    m.offset = pAlignUp off (if 8 ≤ m.ty.size layouts then 8 else 1) ∧
      Laid layouts (toInt (m.offset + m.ty.size layouts)) ms last

variable {α : Type} {s t : Parser}

def ReadsType (p : P CType) (s : Parser) : Prop :=
  Declares s (p.run s).2 ∧ Plain (p.run s).2.layouts.length (p.run s).1

variable {p : P α} {off : Int}

theorem ReadsType.after {f : α → P CType} (first : Declares s (p.run s).2)
    (rest : ReadsType (f (p.run s).1) (p.run s).2) : ReadsType (p >>= f) s :=
  ⟨first.trans rest.1, rest.2⟩

def ReadsMembers (off : Int) (p : P (List Member × Int)) (s : Parser) : Prop :=
  Declares s (p.run s).2 ∧ (∀ m ∈ (p.run s).1.1, Made (p.run s).2.layouts m.ty) ∧
    Laid (p.run s).2.layouts off (p.run s).1.1 (p.run s).1.2

theorem ReadsMembers.after {f : α → P (List Member × Int)}
    (first : Declares s (p.run s).2) (rest : ReadsMembers off (f (p.run s).1) (p.run s).2) :
    ReadsMembers off (p >>= f) s :=
  ⟨first.trans rest.1, rest.2⟩

theorem readsMembers_none (off : Int) (s : Parser) :
    ReadsMembers off (pure ([], off) : P (List Member × Int)) s :=
  ⟨.refl s, by simp [Prog.run_pure], rfl⟩

theorem stars_plain {n : Nat} {ty : CType} (plain : Plain n ty) (fuel : Nat) (s : Parser) :
    Plain n ((stars fuel ty).run s).1 := by
  induction fuel generalizing ty s with
  | zero => exact plain
  | succ fuel ih =>
    rw [stars, Prog.run_bind]
    split
    · exact @ih (.ptr ty) trivial _
    · exact plain

theorem readsType_stars {ty : CType} (plain : Plain s.layouts.length ty) (fuel : Nat) :
    ReadsType (stars fuel ty) s := by
  have quiet := quiet_stars fuel ty s
  refine ⟨quiet.declares, ?_⟩
  rw [quiet.layouts]
  exact stars_plain plain fuel s

theorem readsType_pure {ty : CType} (plain : Plain s.layouts.length ty) :
    ReadsType (pure ty) s := ⟨.refl s, plain⟩

theorem QuietProg.declares (quiet : QuietProg p) (s : Parser) :
    Declares s (p.run s).2 := (quiet s).declares

theorem Known.findTypedef (known : Known s) {name : String} {ty : CType}
    (found : s.findTypedef name = some ty) : Plain s.layouts.length ty := by
  obtain ⟨x, first, rfl⟩ := Option.map_eq_some_iff.1 found
  exact known.typedefs x (List.mem_of_find?_eq_some first)

theorem Known.findStruct (known : Known s) {name : String} {id : Nat}
    (found : s.findStruct name = some id) : id < s.layouts.length := by
  obtain ⟨x, first, rfl⟩ := Option.map_eq_some_iff.1 found
  exact known.structs x (List.mem_of_find?_eq_some first)

theorem declspecWith_reads {structDecl : P CType}
    (ok : ∀ s, Known s → ReadsType structDecl s) (fuel : Nat) (known : Known s) :
    ReadsType (declspecWith structDecl fuel) s := by
  unfold declspecWith
  have first := (quiet_consume "int").declares s
  refine .after first ?_
  split
  · exact @readsType_stars _ .int trivial fuel
  have second := (quiet_consume "char").declares ((consume "int").run s).2
  refine .after second ?_
  split
  · exact @readsType_stars _ .char trivial fuel
  have third := (quiet_consume "struct").declares
    ((consume "char").run ((consume "int").run s).2).2
  refine .after third ?_
  have known' := third.known (second.known (first.known known))
  split
  · have inner := ok _ known'
    exact .after inner.1 (readsType_stars inner.2 fuel)
  refine .after (quiet_peek.declares _) ?_
  have known'' := (quiet_peek.declares _).known known'
  split
  · refine .after (.refl _) ?_
    rw [Prog.run_gets]
    split
    · rename_i ty found
      have plain := known''.findTypedef found
      refine .after (p := does _) (Quiet.declares ⟨rfl, rfl, rfl⟩)
        (.after (quiet_advance.declares _) ?_)
      refine readsType_stars ?_ fuel
      rw [(quiet_advance _).layouts]
      exact plain
    · exact .after ((quiet_ccError _).declares _) (readsType_pure trivial)
  · exact .after ((quiet_ccError _).declares _) (readsType_pure trivial)

theorem Quiet.knows (quiet : Quiet s t) (known : Known s) : Known t := quiet.declares.known known

theorem ReadsMembers.quiet {f : α → P (List Member × Int)}
    (quiet : QuietProg p) (rest : ∀ a t, Quiet s t → ReadsMembers off (f a) t) :
    ReadsMembers off (p >>= f) s :=
  .after (quiet.declares s) (rest _ _ (quiet s))

theorem ReadsMembers.cons {off size : Int} {m : Member} {p : P (List Member × Int)}
    (made : Made s.layouts m.ty) (own : m.ty.size s.layouts = size)
    (offset : m.offset = pAlignUp off (if 8 ≤ size then 8 else 1))
    (rest : ReadsMembers (toInt (m.offset + size)) p s) :
    ReadsMembers off (do let (ms, last) ← p; return (m :: ms, last)) s := by
  have kept := made.size_eq rest.1.layouts
  refine ⟨rest.1, ?_, ?_, ?_⟩
  · intro other member
    rcases List.mem_cons.1 member with rfl | later
    · exact made.mono rest.1.layouts
    · exact rest.2.1 other later
  · exact offset.trans (by rw [← own, ← kept]; rfl)
  · have laid := rest.2.2
    rw [← own, ← kept] at laid
    exact laid

theorem readsMembers_one {size : Int} {m : Member} (made : Made s.layouts m.ty)
    (own : m.ty.size s.layouts = size)
    (offset : m.offset = pAlignUp off (if 8 ≤ size then 8 else 1)) :
    ReadsMembers off (pure ([m], toInt (m.offset + size)) : P (List Member × Int)) s :=
  ReadsMembers.cons made own offset (readsMembers_none _ s)

theorem member_reads {declspec : P CType} {fuel : Nat} {mty : CType} {mname : String}
    (more : ∀ off s, Known s → ReadsMembers off (members declspec fuel off) s) (known : Known s)
    (made : Made s.layouts mty) :
    ReadsMembers off (do
      expect ";"
      let size ← sizeOf mty
      let off := pAlignUp off (if 8 ≤ size then 8 else 1)
      ccAlloc 32
      let m : Member := ⟨mname, mty, off⟩
      let off := toInt (off + size)
      if ← failed then return ([m], off)
      else
        let (rest, last) ← members declspec fuel off
        return (m :: rest, last)) s := by
  refine .quiet (quiet_expect ";") fun _ t quiet => ?_
  have known' := quiet.knows known
  rw [← quiet.layouts] at made
  refine .after (.refl t) (.quiet (quiet_ccAlloc 32) fun _ u alloc => ?_)
  have alloc : Quiet t u := alloc
  have known'' := alloc.knows known'
  have own : mty.size u.layouts = mty.size t.layouts := by rw [alloc.layouts]
  rw [← alloc.layouts] at made
  refine .quiet (quiet_gets _) fun full v same => ?_
  rw [← same.layouts] at made own
  split
  · exact readsMembers_one made own rfl
  · exact .cons made own rfl (more _ v (same.knows known''))

theorem array_made {base : CType} (plain : Plain s.layouts.length base) (len : Int) :
    Made s.layouts (((tyArrayOf base len).run s).1) := by
  have same := (quiet_ccAlloc 32 s).layouts
  refine ⟨plain, ?_⟩
  change toInt (base.size (s.alloc 32).layouts * len) = _
  rw [show (s.alloc 32).layouts = s.layouts from same]

theorem members_reads {declspec : P CType} (ok : ∀ s, Known s → ReadsType declspec s)
    (fuel : Nat) (off : Int) (known : Known s) :
    ReadsMembers off (members declspec fuel off) s := by
  induction fuel generalizing off s with
  | zero => exact .quiet quiet_spend fun _ t _ => readsMembers_none off t
  | succ fuel ih =>
    unfold members
    refine .quiet (quiet_gets _) fun _ t first => ?_
    split
    · exact readsMembers_none off t
    refine .quiet quiet_peek fun _ u second => ?_
    split
    · exact readsMembers_none off u
    have inner := ok u (second.knows (first.knows known))
    refine .after inner.1 ?_
    have known' := inner.1.known (second.knows (first.knows known))
    have plain := inner.2
    generalize (declspec.run u).2 = v at known' plain ⊢
    generalize (declspec.run u).1 = base at plain ⊢
    refine .quiet quiet_peek fun word w third => ?_
    rw [← third.layouts] at plain
    split
    · rename_i name
      refine .quiet quiet_advance fun _ x fourth => ?_
      rw [← fourth.layouts] at plain
      refine .quiet (quiet_consume "[") fun _ y fifth => ?_
      rw [← fifth.layouts] at plain
      have known'' := fifth.knows (fourth.knows (third.knows known'))
      split
      · refine .quiet quiet_arrayLength fun len z sixth => ?_
        rw [← sixth.layouts] at plain
        have seventh := quiet_tyArrayOf base len z
        have made := array_made plain len
        rw [← seventh.layouts] at made
        refine .after seventh.declares ?_
        exact member_reads (fun off s known => ih off known)
          (seventh.knows (sixth.knows known'')) made
      · refine .after (.refl y) ?_
        exact member_reads (fun off s known => ih off known) known'' plain.made
    · exact .quiet (quiet_ccError _) fun _ t _ => readsMembers_none off t

end Members

section Structures

variable {α : Type} {s t : Parser}

/-- The table as it is while the members of a structure are read: its own layout is empty. -/
def opened (layouts : List Layout) (id : Nat) : List Layout := layouts.set id ⟨0, []⟩

structure Filled (id : Nat) (t : Parser) (ms : List Member) (last : Int) : Prop where
  layout : t.layouts[id]? = some ⟨pAlignUp last 8, ms⟩
  made : ∀ m ∈ ms, Made (opened t.layouts id) m.ty
  laid : Laid (opened t.layouts id) 0 ms last

structure ReadsStruct (p : P CType) (s : Parser) : Prop where
  reads : ReadsType p s
  declared : ∀ id, (p.run s).1 = .struct id → s.layouts.length ≤ id →
    id = s.layouts.length ∧ ∃ ms last, Filled id (p.run s).2 ms last

theorem ReadsStruct.quiet {p : P α} {f : α → P CType} (quiet : QuietProg p)
    (rest : ∀ a t, Quiet s t → ReadsStruct (f a) t) : ReadsStruct (p >>= f) s := by
  have first := quiet s
  have later := rest (p.run s).1 (p.run s).2 first
  refine ⟨.after first.declares later.reads, fun id struct new => ?_⟩
  rw [← first.layouts] at new ⊢
  exact later.declared id struct new

theorem ReadsStruct.gets {g : Parser → α} {f : α → P CType} (rest : ReadsStruct (f (g s)) s) :
    ReadsStruct (Prog.gets g >>= f) s := ⟨rest.reads, rest.declared⟩

theorem readsStruct_pure {ty : CType} (plain : Plain s.layouts.length ty) :
    ReadsStruct (pure ty) s := by
  refine ⟨readsType_pure plain, ?_⟩
  rintro id rfl new
  exact absurd plain (Nat.not_lt_of_le new)

theorem set_blank {table : List Layout} {before : List Layout} {l : Layout}
    (grown : before ++ [⟨0, []⟩] <+: table) :
    opened (table.set before.length l) before.length = table := by
  obtain ⟨more, rfl⟩ := grown
  rw [opened, List.set_set, List.append_assoc, List.set_append_right _ _ (Nat.le_refl _),
    Nat.sub_self]
  rfl

theorem newStruct_known (known : Known s) (tag : Option String) :
    Known (s.act (.newStruct tag)) := by
  constructor
  · intro x member
    rw [Parser.act, Parser.newStruct, List.length_append]
    rcases List.mem_append.1 member with own | old
    · cases tag with
      | none => cases own
      | some name =>
        rw [List.mem_singleton.1 own]
        exact Nat.lt_succ_self _
    · exact Nat.lt_succ_of_lt (known.structs x old)
  · intro x member
    exact (known.typedefs x member).mono (by simp [Parser.act, Parser.newStruct])

theorem setLayout_fills {u : Parser} {ms : List Member} {last : Int} (known : Known u)
    (grown : s.layouts ++ [⟨0, []⟩] <+: u.layouts) (made : ∀ m ∈ ms, Made u.layouts m.ty)
    (laid : Laid u.layouts 0 ms last) :
    Declares s (u.act (.setLayout s.layouts.length ⟨pAlignUp last 8, ms⟩)) ∧
      s.layouts.length <
        (u.act (.setLayout s.layouts.length ⟨pAlignUp last 8, ms⟩)).layouts.length ∧
      Filled s.layouts.length (u.act (.setLayout s.layouts.length ⟨pAlignUp last 8, ms⟩)) ms
        last := by
  have inside : s.layouts.length < u.layouts.length := by
    have length := grown.length_le
    rw [List.length_append, List.length_singleton] at length
    exact length
  have blank := set_blank (l := ⟨pAlignUp last 8, ms⟩) grown
  refine ⟨⟨?_, fun _ => ⟨?_, ?_⟩⟩, ?_, ?_, ?_, ?_⟩
  · obtain ⟨more, same⟩ := (List.prefix_append _ _).trans grown
    rw [Parser.act, ← same, List.set_append_right _ _ (Nat.le_refl _)]
    exact List.prefix_append _ _
  · rw [Parser.act, List.length_set]
    exact known.structs
  · rw [Parser.act, List.length_set]
    exact known.typedefs
  · rw [Parser.act, List.length_set]
    exact inside
  · exact List.getElem?_set_self inside
  · exact blank.symm ▸ made
  · exact blank.symm ▸ laid

theorem body_reads {declspec : P CType} (ok : ∀ s, Known s → ReadsType declspec s) (fuel : Nat)
    (tag : Option String) {id : Nat} (own : id = s.layouts.length) (known : Known s) :
    ReadsStruct (do
      does (.newStruct tag)
      let (ms, off) ← members declspec fuel 0
      expect "\x7d"
      does (.setLayout id ⟨pAlignUp off 8, ms⟩)
      return .struct id) s := by
  subst own
  obtain ⟨declares, made, laid⟩ := members_reads ok fuel 0 (newStruct_known known tag)
  have brace := quiet_expect "\x7d" ((members declspec fuel 0).run (s.act (.newStruct tag))).2
  rw [← brace.layouts] at made laid
  have grown := declares.layouts
  rw [← brace.layouts] at grown
  have fills := setLayout_fills (brace.knows (declares.known (newStruct_known known tag))) grown
    made laid
  refine ⟨⟨fills.1, fills.2.1⟩, fun id same _ => ?_⟩
  obtain rfl : s.layouts.length = id := CType.struct.inj same
  exact ⟨rfl, _, _, fills.2.2⟩

theorem structRest_reads {declspec : P CType} (ok : ∀ s, Known s → ReadsType declspec s)
    (fuel : Nat) (tag : Option String) (known : Known s) :
    ReadsStruct (structRest declspec fuel tag) s := by
  refine .quiet (quiet_gets _) fun _ t first => ?_
  have known' := first.knows known
  split
  · refine .quiet quiet_advance fun _ u second => .quiet (quiet_ccAlloc 32) fun _ v third => ?_
    have known'' := third.knows (second.knows known')
    refine .gets ?_
    dsimp only
    split
    · exact .quiet (quiet_ccAlloc 24) fun _ w fourth =>
        body_reads ok fuel tag (by rw [fourth.layouts]) (fourth.knows known'')
    · exact body_reads ok fuel tag rfl known''
  · split
    · exact .quiet (quiet_ccError _) fun _ t _ => readsStruct_pure trivial
    · refine .gets ?_
      split
      · rename_i id found
        have plain : Plain t.layouts.length (.struct id) := known'.findStruct found
        exact .quiet (fun _ => ⟨rfl, rfl, rfl⟩) fun _ u second =>
          readsStruct_pure (second.layouts ▸ plain)
      · exact .quiet (quiet_ccError _) fun _ t _ => readsStruct_pure trivial

theorem structDecl_reads (fuel : Nat) (known : Known s) : ReadsStruct (structDecl fuel) s := by
  induction fuel generalizing s with
  | zero => exact .quiet quiet_spend fun _ t _ => readsStruct_pure trivial
  | succ fuel ih =>
    have inner : ∀ s, Known s → ReadsType (declspecWith (structDecl fuel) fuel) s :=
      fun s known => declspecWith_reads (fun s known => (ih known).reads) fuel known
    rw [structDecl_eq]
    refine .quiet quiet_peek fun _ t first => ?_
    have known' := first.knows known
    split
    · exact .quiet quiet_advance fun _ u second =>
        structRest_reads inner fuel _ (second.knows known')
    · exact structRest_reads inner fuel none known'

end Structures

end XinuRpi5.Cc.StructLayout
