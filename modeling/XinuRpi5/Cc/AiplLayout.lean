/- source: cc/abcl2c.c
   digest: When the field indices of the translated program fit the array of struct Obj. -/

import XinuRpi5.Cc.AiplEmit

namespace XinuRpi5.Cc.AiplLayout

open AiplLex AiplStructure AiplScan AiplExpr
open AiplEmit Lib.RuledState

def arrayLength (out : List Piece) : Option Nat :=
  out.findSome? fun
    | .length n => some n
    | _ => none

def InBounds (out : List Piece) : Prop :=
  ∀ k, .index k ∈ out → ∃ n, arrayLength out = some n ∧ k < n

/-- The fields that a class declares get different indices, and none gets the
index of the hidden field. -/
def Apart (rounds : Nat) (src : Text) : Prop :=
  ∀ ci c c', (parsed rounds src).2.cls[ci]? = some c → (scanned rounds src).cls[ci]? = some c' →
    c.fields.Pairwise (fun f g => fieldIdx c' f.name ≠ fieldIdx c' g.name) ∧
      ∀ k, (scanned rounds src).selField ci = some k → ∀ f ∈ c.fields, fieldIdx c' f.name ≠ some k

def Narrow (cls : List AiplStructure.Class) (c : AiplStructure.Class) : Prop :=
  c.fields = [] ∨ ∃ d ∈ cls, c.fields.length < d.fields.length

def Room (rounds : Nat) (src : Text) : Prop :=
  ∀ ci c, (parsed rounds src).2.cls[ci]? = some c →
    (∃ sp ∈ (scanned rounds src).sel, sp.cls = ci) → Narrow (parsed rounds src).2.cls c

/-- The fields of a class have different names, as far as they are kept. -/
def Named47 (rounds : Nat) (src : Text) : Prop :=
  ∀ c ∈ (parsed rounds src).2.cls, (c.fields.map Field.name).Nodup

/-- A select has code of its own: it has a timeout, or it waits for a method of its
class. -/
def Live (rounds : Nat) (src : Text) (ci : Nat) : Prop :=
  ∃ sp ∈ (scanned rounds src).sel, sp.cls = ci ∧ (sp.tbody.isSome ∨
    ∃ c m case, (scanned rounds src).cls[ci]? = some c ∧ m ∈ c.methods ∧ case ∈ sp.cases ∧
      case.mid = (methIdIn (scanned rounds src).mname m.name).1)

section States

variable (rounds : Nat) (src : Text)

theorem parsed_declared : Declared (parsed rounds src).2 := by
  refine (parseStructure rounds).keeps (start src)
    ⟨?_, Nat.one_pos, ?_, ?_, ⟨.nil, ?_⟩, rfl, rfl, rfl⟩
  · intro c listed
    cases listed
  · intro n less
    exact .inl (Nat.lt_one_iff.mp less)
  · intro c listed
    cases listed
  · intro c listed
    cases listed

theorem narrow_iff {s : St} (declared : Declared s) (c : AiplStructure.Class) :
    Narrow s.cls c ↔ c.fields.length < s.maxf := by
  constructor
  · rintro (empty | ⟨d, listed, wider⟩)
    · rw [empty]
      exact declared.pos
    · exact Nat.lt_of_lt_of_le wider (declared.width d listed)
  · intro less
    exact (declared.tight _ less).imp_left List.eq_nil_of_length_eq_zero

theorem head_emitted : Emitted (parsed rounds src).2 (headed rounds src) := emitHead.keeps _

theorem scan_extends : Extends (headed rounds src) (scanned rounds src) :=
  (scanPasses rounds).keeps _

theorem rest_emitted : Emitted (scanned rounds src) (finished rounds src) :=
  (emitRest rounds).keeps _

theorem scanned_class (ci : Nat) :
    (scanned rounds src).selField ci = none ∧
        (scanned rounds src).cls[ci]? = (parsed rounds src).2.cls[ci]? ∨
      ∃ c, (parsed rounds src).2.cls[ci]? = some c ∧
        (scanned rounds src).selField ci = some c.fields.length ∧
        (scanned rounds src).cls[ci]? = some (hide c) ∧
        ∃ sp ∈ (scanned rounds src).sel, sp.cls = ci := by
  have head := head_emitted rounds src
  have clean := (parsed_declared rounds src).selField
  rcases (scan_extends rounds src).classes ci with ⟨field, cls⟩ | ⟨_, c, was, field, cls⟩
  · refine .inl ⟨?_, ?_⟩
    · rw [field, head.selField, clean]
    · rw [cls, head.cls]
  · refine .inr ⟨c, ?_, field, cls⟩
    rw [← head.cls]
    exact was

theorem scanned_placed : Placed (scanned rounds src) := by
  apply (scan_extends rounds src).placed
  intro n sp here
  rw [(head_emitted rounds src).sel, (parsed_declared rounds src).sel] at here
  cases here

theorem scanned_selOk : SelOk (scanned rounds src) := by
  intro ci k field
  rcases scanned_class rounds src ci with ⟨none, _⟩ | ⟨c, _, is, cls, _⟩
  · rw [none] at field
    cases field
  · obtain rfl := Option.some.inj (is.symm.trans field)
    refine ⟨hide c, List.mem_of_getElem? cls, ?_⟩
    rw [hide, List.length_append]
    exact Nat.lt_succ_self _

theorem struct_out (s : St) : ∃ a b c, (emitStruct.run s).2.out =
    s.out ++ [.str a] ++ [.str b] ++ [.length s.maxf] ++ [.str c] := ⟨_, _, _, rfl⟩

theorem finished_length :
    arrayLength (finished rounds src).out = some (parsed rounds src).2.maxf := by
  obtain ⟨code, head, _⟩ := (emitRuntime.keeps (emitStruct.run (parsed rounds src).2).2).out
  obtain ⟨rest, final, _⟩ := (rest_emitted rounds src).out
  obtain ⟨a, b, c, begins⟩ := struct_out (parsed rounds src).2
  have out : (finished rounds src).out =
      (emitStruct.run (parsed rounds src).2).2.out ++ code ++ rest := by
    rw [final, (scan_extends rounds src).out]
    exact congrArg (· ++ rest) head
  rw [out, begins, (parsed_declared rounds src).out]
  rfl

theorem finished_index {k : Nat} (emitted : .index k ∈ (finished rounds src).out) :
    InLayout (parsed rounds src).2.cls k ∨ InLayout (scanned rounds src).cls k := by
  obtain ⟨code, head, early⟩ := (head_emitted rounds src).out
  obtain ⟨rest, final, late⟩ := (rest_emitted rounds src).out
  have declared := parsed_declared rounds src
  rw [final, (scan_extends rounds src).out, head, declared.out] at emitted
  rcases List.mem_append.mp emitted with before | after
  · refine .inl (early ?_ k before)
    intro ci j field
    rw [declared.selField] at field
    cases field
  · exact .inr (late (scanned_selOk rounds src) k after)

theorem inBounds_of_room (room : Room rounds src) : InBounds (finished rounds src).out := by
  intro k emitted
  refine ⟨_, finished_length rounds src, ?_⟩
  have width := (parsed_declared rounds src).width
  rcases finished_index rounds src emitted with ⟨c, listed, inside⟩ | ⟨c', listed, inside⟩
  · exact Nat.lt_of_lt_of_le inside (width c listed)
  · obtain ⟨ci, is⟩ := List.mem_iff_getElem?.mp listed
    rcases scanned_class rounds src ci with ⟨_, same⟩ | ⟨c, was, field, hidden, used⟩
    · rw [same] at is
      exact Nat.lt_of_lt_of_le inside (width c' (List.mem_of_getElem? is))
    · obtain rfl := Option.some.inj (hidden.symm.trans is)
      have less := (narrow_iff (parsed_declared rounds src) c).mp (room ci c was used)
      rw [hide, List.length_append, List.length_singleton] at inside
      omega

end States

section Names

theorem fieldIdx_hide {c : AiplStructure.Class} {f : Field} (listed : f ∈ c.fields) :
    fieldIdx (hide c) f.name = fieldIdx c f.name ∧
      ∃ i, i < c.fields.length ∧ fieldIdx c f.name = some i := by
  have found : ∃ i, fieldIdx c f.name = some i := by
    cases is : fieldIdx c f.name with
    | some i => exact ⟨i, rfl⟩
    | none =>
      have missing := List.findIdx?_eq_none_iff.mp is f listed
      simp at missing
  obtain ⟨i, is⟩ := found
  obtain ⟨inside, _⟩ := List.findIdx?_eq_some_iff_getElem.mp is
  refine ⟨?_, i, inside, is⟩
  rw [fieldIdx, hide, List.findIdx?_append]
  rw [fieldIdx] at is
  rw [is, fieldIdx, is]
  rfl

theorem fieldIdx_inj {c : AiplStructure.Class} {f g : Field} (listed : f ∈ c.fields) :
    fieldIdx c f.name = fieldIdx c g.name ↔ f.name = g.name := by
  constructor
  · intro same
    obtain ⟨_, i, _, is⟩ := fieldIdx_hide listed
    rw [is] at same
    obtain ⟨_, first, _⟩ := List.findIdx?_eq_some_iff_getElem.mp is
    obtain ⟨_, second, _⟩ := List.findIdx?_eq_some_iff_getElem.mp same.symm
    rw [decide_eq_true_iff] at first second
    exact first.symm.trans second
  · intro same
    rw [same]

variable (rounds : Nat) (src : Text)

theorem scanned_fieldIdx {ci : Nat} {c c' : AiplStructure.Class}
    (was : (parsed rounds src).2.cls[ci]? = some c) (is : (scanned rounds src).cls[ci]? = some c')
    {f : Field} (listed : f ∈ c.fields) : fieldIdx c' f.name = fieldIdx c f.name := by
  rcases scanned_class rounds src ci with ⟨_, same⟩ | ⟨d, was', _, hidden, _⟩
  · rw [same, was] at is
    rw [Option.some.inj is]
  · obtain rfl := Option.some.inj (was.symm.trans was')
    obtain rfl := Option.some.inj (hidden.symm.trans is)
    exact (fieldIdx_hide listed).1

theorem apart_iff : Apart rounds src ↔ Named47 rounds src := by
  constructor
  · intro apart c listed
    obtain ⟨ci, was⟩ := List.mem_iff_getElem?.mp listed
    have some : ∃ c', (scanned rounds src).cls[ci]? = some c' := by
      rcases scanned_class rounds src ci with ⟨_, same⟩ | ⟨d, _, _, hidden, _⟩
      · exact ⟨c, same.trans was⟩
      · exact ⟨_, hidden⟩
    obtain ⟨c', is⟩ := some
    rw [List.Nodup, List.pairwise_map]
    refine (apart ci c c' was is).1.imp fun {f g} differs same => differs ?_
    rw [same]
  · intro named ci c c' was is
    have nodup := named c (List.mem_of_getElem? was)
    rw [List.Nodup, List.pairwise_map] at nodup
    refine ⟨?_, fun k field f listed => ?_⟩
    · refine nodup.imp_of_mem fun {f g} hf hg differs same => differs ?_
      rw [scanned_fieldIdx rounds src was is hf, scanned_fieldIdx rounds src was is hg] at same
      exact (fieldIdx_inj hf).mp same
    · rw [scanned_fieldIdx rounds src was is listed]
      obtain ⟨_, i, inside, found⟩ := fieldIdx_hide listed
      rw [found]
      rcases scanned_class rounds src ci with ⟨none, _⟩ | ⟨d, was', field', _⟩
      · rw [none] at field
        cases field
      · obtain rfl := Option.some.inj (was.symm.trans was')
        obtain rfl := Option.some.inj (field'.symm.trans field)
        intro same
        have := Option.some.inj same
        omega

end Names

section Emission

variable {s t : St} {q : Piece} {α β : Type}

theorem Emitted_mem (emitted : Emitted s t) (listed : q ∈ s.out) : q ∈ t.out := by
  obtain ⟨new, out, _⟩ := emitted.out
  rw [out]
  exact List.mem_append_left new listed

variable {p : Prog emits α} {f : α → Prog emits β}

theorem bind_first (puts : q ∈ (p.run s).2.out) :
    q ∈ ((p >>= f).run s).2.out :=
  Emitted_mem ((f (p.run s).1).keeps (p.run s).2) puts

theorem bind_then
    (puts : q ∈ ((f (p.run s).1).run (p.run s).2).2.out) : q ∈ ((p >>= f).run s).2.out := puts

theorem bind_later
    (puts : ∀ a t, Emitted s t → q ∈ ((f a).run t).2.out) : q ∈ ((p >>= f).run s).2.out :=
  puts (p.run s).1 (p.run s).2 (p.keeps s)

theorem each_puts {l : List α} {f : α → Prog emits Unit} {x : α} (listed : x ∈ l)
    (puts : ∀ t, Emitted s t → q ∈ ((f x).run t).2.out) :
    q ∈ ((Prog.each l f).run s).2.out := by
  induction l generalizing s with
  | nil => cases listed
  | cons a l ih =>
    rcases List.mem_cons.mp listed with rfl | later
    · exact bind_first (puts s (emits.refl s))
    · refine bind_then (ih later fun t after => puts t ?_)
      exact ((f a).keeps s).trans after

theorem opSelField_puts {ci k : Nat} (field : s.selField ci = some k) :
    .index k ∈ ((opSelField ci).run s).2.out := by
  simp [opSelField, Prog.change, field]

end Emission

section Converse

variable {rounds : Nat} {src : Text} {m : Method} {c : AiplStructure.Class}

variable {t s : St}

theorem methId_stable (after : Emitted (scanned rounds src) t) {ci : Nat}
    (is : (scanned rounds src).cls[ci]? = some c) (listed : m ∈ c.methods) :
    (methIdIn t.mname m.name).1 = (methIdIn (scanned rounds src).mname m.name).1 := by
  have declared : ∃ d ∈ (parsed rounds src).2.cls, m ∈ d.methods := by
    rcases scanned_class rounds src ci with ⟨_, same⟩ | ⟨d, was, _, hidden, _⟩
    · exact ⟨c, List.mem_of_getElem? (same.symm.trans is), listed⟩
    · obtain rfl := Option.some.inj (hidden.symm.trans is)
      exact ⟨d, List.mem_of_getElem? was, listed⟩
  obtain ⟨d, member, inside⟩ := declared
  obtain ⟨names, head, _⟩ := (head_emitted rounds src).mname
  have early : Named (headed rounds src).mname m.name := by
    rw [head]
    rcases (parsed_declared rounds src).named d member m inside with known | full
    · exact .inl (List.mem_append_left names known)
    · exact .inr (Nat.le_trans full (by simp))
  have named := (scan_extends rounds src).named _ early
  obtain ⟨new, grown, full⟩ := after.mname
  rw [grown]
  exact named.stable full

variable {ci k : Nat} {sp : Sel}

theorem mem_methodsOf {cls : List AiplStructure.Class} (is : cls[ci]? = some c)
    (listed : m ∈ c.methods) :
    ∃ mi, (ci, mi, m) ∈ methodsOf cls := by
  obtain ⟨mi, at'⟩ := List.mem_iff_getElem?.mp listed
  refine ⟨mi, List.mem_flatMap.mpr ⟨(c, ci), ?_, List.mem_map.mpr ⟨(m, mi), ?_, rfl⟩⟩⟩
  · exact List.mem_zipIdx_iff_getElem?.mpr is
  · exact List.mem_zipIdx_iff_getElem?.mpr at'

theorem selIntercept_some {sel : List Sel} {case : Case} (listed : sp ∈ sel)
    (member : case ∈ sp.cases) : ∃ x, selIntercept sel sp.cls case.mid = some x := by
  cases is : selIntercept sel sp.cls case.mid with
  | some x => exact ⟨x, rfl⟩
  | none =>
    have missing := List.findSome?_eq_none_iff.mp is sp listed
    rw [if_pos rfl, Option.map_eq_none_iff, List.find?_eq_none] at missing
    exact absurd (missing case member) (by simp)

theorem emitSweep_puts (field : s.selField sp.cls = some k) :
    .index k ∈ ((emitSweep sp).run s).2.out := by
  unfold emitSweep
  refine bind_then (bind_then (bind_then (bind_first ?_)))
  exact opSelField_puts field

theorem emitIntercept_puts (field : s.selField ci = some k) (m : Method)
    (sp : Sel) (case : Case) : .index k ∈ ((emitIntercept rounds ci m sp case).run s).2.out := by
  unfold emitIntercept
  refine bind_then (bind_first ?_)
  exact opSelField_puts field

theorem emitTimeouts_puts (listed : sp ∈ s.sel)
    (timeout : sp.tbody.isSome) (field : s.selField sp.cls = some k) :
    .index k ∈ ((emitTimeouts rounds).run s).2.out := by
  obtain ⟨body, is⟩ := Option.isSome_iff_exists.mp timeout
  have member : (sp, body) ∈ withTimeout s.sel :=
    List.mem_filterMap.mpr ⟨sp, listed, by rw [is]; rfl⟩
  have some : withTimeout s.sel ≠ [] := List.ne_nil_of_mem member
  unfold emitTimeouts
  refine bind_then ?_
  change Piece.index k ∈ (Prog.run (if withTimeout s.sel ≠ [] then _ else _) s).2.out
  rw [if_pos some]
  refine bind_then (bind_then (bind_first (each_puts member fun t after => ?_)))
  refine emitSweep_puts ?_
  have before : Emitted s _ :=
    (Prog.each (withTimeout s.sel) fun x => emitTimeout rounds x.1 x.2).keeps s
  rw [after.selField]
  exact (congrFun before.selField sp.cls).trans field

theorem emitPending_run {mi : Nat} {x : Sel × Case}
    (found : selIntercept t.sel ci (methIdIn t.mname m.name).1 = some x) :
    (emitPending rounds ci mi m).run t =
      (setContext (some ci) mi m.params).run
        ((emitIntercept rounds ci m x.1 x.2).run ((methIdAgain m.name).run t).2).2 := by
  have choice : selIntercept ((methIdAgain m.name).run t).2.sel ci
      ((methIdAgain m.name).run t).1 = some x := by
    rw [((methIdAgain m.name).keeps t).sel]
    exact found
  simp only [emitPending, Prog.run_bind, Prog.run_gets, choice]

/-- A select of the class waits for the method `m`, and `k` is its field. -/
structure Awaits (rounds : Nat) (src : Text) (ci k : Nat) (m : Method) : Prop where
  field : (scanned rounds src).selField ci = some k
  own : ∃ c, (scanned rounds src).cls[ci]? = some c ∧ m ∈ c.methods
  sel : ∃ sp ∈ (scanned rounds src).sel, sp.cls = ci ∧
    ∃ case ∈ sp.cases, case.mid = (methIdIn (scanned rounds src).mname m.name).1

section

variable (after : Emitted (scanned rounds src) t)

include after

theorem emitPending_puts {ci mi k : Nat} (awaits : Awaits rounds src ci k m) :
    .index k ∈ ((emitPending rounds ci mi m).run t).2.out := by
  obtain ⟨c, is, method⟩ := awaits.own
  obtain ⟨sp, listed, cls, case, member, mid⟩ := awaits.sel
  obtain ⟨x, found⟩ := selIntercept_some listed member
  rw [cls, mid, ← methId_stable after is method, ← after.sel] at found
  rw [emitPending_run found]
  refine Emitted_mem ((setContext (some ci) mi m.params).keeps _) ?_
  refine emitIntercept_puts ?_ m x.1 x.2
  rw [((methIdAgain m.name).keeps t).selField, after.selField]
  exact awaits.field

theorem emitMethod_puts {ci mi k : Nat} (name : Text) (awaits : Awaits rounds src ci k m) :
    .index k ∈ ((emitMethod rounds name ci mi m).run t).2.out := by
  unfold emitMethod
  refine bind_later fun _ a ha => bind_later fun _ b hb => bind_later fun _ c hc => ?_
  refine bind_later fun _ d hd => bind_later fun _ e he => bind_later fun _ f hf => ?_
  refine bind_later fun _ g hg => bind_first (emitPending_puts ?_ awaits)
  exact after.trans (ha.trans (hb.trans (hc.trans (hd.trans (he.trans (hf.trans hg))))))

theorem emitClasses_puts {ci k : Nat} (awaits : Awaits rounds src ci k m) :
    .index k ∈ ((emitClasses rounds).run t).2.out := by
  obtain ⟨c, is, method⟩ := awaits.own
  obtain ⟨mi, place⟩ := mem_methodsOf is method
  rw [← after.cls] at place
  unfold emitClasses
  rw [Prog.run_bind, Prog.run_gets]
  refine each_puts place fun u later => ?_
  rw [Prog.run_bind]
  exact emitMethod_puts (after.trans later) _ awaits

end

theorem live_index (field : (scanned rounds src).selField ci = some k)
    (live : Live rounds src ci) : .index k ∈ (finished rounds src).out := by
  unfold finished emitRest
  refine bind_later fun _ t vars => ?_
  obtain ⟨sp, listed, cls, timeout | ⟨c, m, case, is, method, member, mid⟩⟩ := live
  · refine bind_later fun _ u methods => bind_first (emitTimeouts_puts ?_ timeout ?_)
    · rw [methods.sel, vars.sel]
      exact listed
    · rw [methods.selField, vars.selField, cls]
      exact field
  · exact bind_first (emitClasses_puts vars
      ⟨field, ⟨c, is, method⟩, sp, listed, cls, case, member, mid⟩)

theorem narrow_of_inBounds (inside : InBounds (finished rounds src).out) {ci : Nat}
    (was : (parsed rounds src).2.cls[ci]? = some c)
    (given : (scanned rounds src).selField ci ≠ none) (live : Live rounds src ci) :
    Narrow (parsed rounds src).2.cls c := by
  rcases scanned_class rounds src ci with ⟨none, _⟩ | ⟨d, was', field, _, _⟩
  · exact absurd none given
  · obtain rfl := Option.some.inj (was.symm.trans was')
    obtain ⟨n, length, less⟩ := inside _ (live_index field live)
    rw [finished_length] at length
    obtain rfl := Option.some.inj length
    exact (narrow_iff (parsed_declared rounds src) c).mpr less

theorem abcl2c_out {out : List Piece} (accepted : abcl2c rounds src = some out) :
    out = (finished rounds src).out := by
  unfold abcl2c at accepted
  split_ifs at accepted
  exact (Option.some.inj accepted).symm

/-- The layout of an accepted program is sound when its classes with a select are
narrow and their fields have different names, and only then, for the selects that
have code of their own. -/
theorem layout_sound {out : List Piece} (accepted : abcl2c rounds src = some out) :
    (Room rounds src ∧ Named47 rounds src → InBounds out ∧ Apart rounds src) ∧
      (InBounds out ∧ Apart rounds src → Named47 rounds src ∧
        ∀ ci c, (parsed rounds src).2.cls[ci]? = some c →
          (scanned rounds src).selField ci ≠ none → Live rounds src ci →
            Narrow (parsed rounds src).2.cls c) := by
  rw [abcl2c_out accepted]
  refine ⟨fun ⟨room, named⟩ => ?_, fun ⟨inside, apart⟩ => ?_⟩
  · exact ⟨inBounds_of_room rounds src room, (apart_iff rounds src).mpr named⟩
  · refine ⟨(apart_iff rounds src).mp apart, fun ci c was given live => ?_⟩
    exact narrow_of_inBounds inside was given live

end Converse

def besideWider : Text :=
  "class W\x7bvar x;var y;\x7d".toList ++
    "class A\x7bvar z;method m(k)\x7b\x7d".toList ++
    "method g()\x7bselect\x7bcase m(k)\x7bz=k;\x7d\x7d\x7d\x7d".toList

theorem layout_sound_besideWider :
    ∃ out, abcl2c 30 besideWider = some out ∧ InBounds out ∧ Apart 30 besideWider := by
  have accepted : (abcl2c 30 besideWider).isSome := by decide +kernel
  obtain ⟨out, is⟩ := Option.isSome_iff_exists.mp accepted
  refine ⟨out, is, (layout_sound is).1 ⟨?_, ?_⟩⟩
  · rintro ci c was ⟨sp, listed, rfl⟩
    have second : ∀ sp ∈ (scanned 30 besideWider).sel, sp.cls = 1 := by decide +kernel
    rw [second sp listed] at was
    have one : ∀ c ∈ (parsed 30 besideWider).2.cls[1]?.toList, c.fields.length = 1 := by
      decide +kernel
    have two : ∃ d ∈ (parsed 30 besideWider).2.cls, 1 < d.fields.length := by decide +kernel
    refine .inr ?_
    rw [one c (by rw [was]; exact List.mem_singleton_self c)]
    exact two
  · unfold Named47
    decide +kernel

def widestSelects : Text :=
  "class A\x7bvar x;method job(k)\x7b\x7d".toList ++
    "method go()\x7bselect\x7bcase job(k)\x7bx=k;\x7d\x7d\x7d\x7d".toList

/-- The array has one element, and the pending select is kept in the second. -/
theorem widest_select_outside :
    ∃ out, abcl2c 30 widestSelects = some out ∧ arrayLength out = some 1 ∧ .index 1 ∈ out ∧
      ¬ InBounds out := by
  have accepted : (abcl2c 30 widestSelects).isSome := by decide +kernel
  obtain ⟨out, is⟩ := Option.isSome_iff_exists.mp accepted
  have length : (abcl2c 30 widestSelects).bind arrayLength = some 1 := by decide +kernel
  have emitted : ∀ out ∈ (abcl2c 30 widestSelects).toList, .index 1 ∈ out := by decide +kernel
  have index : .index 1 ∈ out := emitted out (by rw [is]; exact List.mem_singleton_self out)
  rw [is] at length
  refine ⟨out, is, length, index, fun inside => ?_⟩
  obtain ⟨n, is, less⟩ := inside 1 index
  obtain rfl := Option.some.inj (length.symm.trans is)
  exact Nat.lt_irrefl 1 less

end XinuRpi5.Cc.AiplLayout
