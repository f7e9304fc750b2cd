/- source: cc/codegen.c
   digest: Which programs keep the code generator inside its buffer and its label stacks. -/

import XinuRpi5.Cc.CodeRoom
import XinuRpi5.Cc.Installed

namespace XinuRpi5.Cc.CodeBounds

open Lib.RuledState Codegen LoopStacks CodeRoom
open Installed (resolveAll resolveAll_other patchCalls_at setting)

theorem or_ne_zero {a : Word} (some : a ≠ 0) (b : Word) : a ||| b ≠ 0 := by
  intro zero
  exact some (BitVec.or_eq_zero_iff.mp zero).1

theorem resolved_ne_zero (labOff : Nat → Nat) (f : Fix) : f.resolved labOff ≠ 0 := by
  unfold Fix.resolved
  cases f.kind with
  | b => exact or_ne_zero (by decide) _
  | cbz => exact or_ne_zero (by decide) _
  | cbnz => exact or_ne_zero (by decide) _
  | bcond cond => exact or_ne_zero (or_ne_zero (by decide) _) _

theorem resolveAll_ne_zero {labOff : Nat → Nat} {buf : Nat → Word} {fs : List Fix} {i : Nat}
    (noted : i ∈ fs.map Fix.site) : resolveAll labOff buf fs i ≠ 0 := by
  induction fs generalizing buf with
  | nil => cases noted
  | cons f fs later =>
    by_cases again : i ∈ fs.map Fix.site
    · exact later again
    · have last : f.site = i := by
        rcases List.mem_cons.mp noted with same | again'
        · exact same.symm
        · exact absurd again' again
      have alone : ∀ g ∈ fs, g.site ≠ i := by
        rintro g listed rfl
        exact again (List.mem_map_of_mem listed)
      have stays : resolveAll labOff buf (f :: fs) i = put buf f.site (f.resolved labOff) i :=
        resolveAll_other alone
      rw [stays, show put buf f.site (f.resolved labOff) i = f.resolved labOff from
        if_pos last.symm]
      exact resolved_ne_zero labOff f

section Functions

variable {c : Ctx} {q : Nat} {s : Stacks}

/-- The generator stands at a place in front of the end, without errors, and the addresses to be
filled in are in front of it. -/
structure Ready (c : Ctx) (q : Nat) (s : Stacks) : Prop where
  fine : s.gen.err = none
  room : s.gen.oom = false
  pos : s.gen.pos = q
  front : 4 * q ≤ c.cap
  calls : ∀ e ∈ s.gen.cfx, e.1 + 4 ≤ q

structure Generated (c : Ctx) (q : Nat) (s t : Stacks) (lines : List Line) (failed : Bool) :
    Prop where
  err : t.gen.err.isSome = failed
  here : At c.cap (q + size lines) (track t.gen)
  calls : ∀ e ∈ t.gen.cfx, e.1 + 4 ≤ q + size lines
  used : t.used = s.used ++ uses lines
  sites : t.gen.bfx.map Fix.site = ((branches q lines).take maxBfx).map (min · (c.cap / 4))
  kept : ∀ i, c.cap < 4 * i + 4 → i ∉ t.gen.bfx.map Fix.site → t.gen.buf i = s.gen.buf i
  written : ∀ i ∈ t.gen.bfx.map Fix.site, t.gen.buf i ≠ 0

def resolve (s : Stacks) : Stacks :=
  { s with gen := { s.gen with buf := resolveAll s.gen.labOff s.gen.buf s.gen.bfx } }

theorem wrapped_last (p : Step Unit) (s : Stacks) :
    ((clear >>= fun _ => p >>= fun _ => code resolveBranches) s).2 =
      resolve (p (clear s).2).2 := rfl

theorem genFunc_last (fn : Func) (s : Stacks) :
    (genFunc c fn s).2 = resolve (genBody c fn (clear s).2).2 :=
  wrapped_last (genBody c fn) s

theorem genFunc_generated (fn : Func) (ready : Ready c q s) :
    Generated c q s (genFunc c fn s).2 (listing c fn).1 (listing c fn).2.failed := by
  have moved := genBody_moved c fn ready.fine
  rw [genFunc_last]
  generalize (genBody c fn (clear s).2).2 = u at moved
  have start : At c.cap q (track (clear s).2.gen) := by
    have front := ready.front
    refine ⟨?_, ?_⟩
    · show s.gen.pos = _
      rw [ready.pos]
      omega
    · show s.gen.oom = _
      rw [ready.room, eq_comm, decide_eq_false_iff_not]
      omega
  have tracked := moved.agrees.track
  refine ⟨congrArg Draft.failed moved.agrees.draft, ?_, ?_, moved.used, ?_, ?_, ?_⟩
  · show At c.cap _ (track u.gen)
    rw [tracked]
    exact start.along _
  · intro e listed
    have noted : e.1 ∈ (track u.gen).calls := List.mem_map_of_mem listed
    rw [tracked] at noted
    rcases start.calls (listing c fn).1 e.1 noted with old | new
    · obtain ⟨e', listed', same⟩ := List.mem_map.mp old
      have front := ready.calls e' listed'
      omega
    · exact new
  · show (track u.gen).sites = _
    rw [tracked, start.sites (Nat.zero_le _)]
    rfl
  · intro i past apart
    refine (resolveAll_other fun f listed same => apart ?_).trans (moved.agrees.beyond i past)
    exact same ▸ List.mem_map_of_mem listed
  · exact fun i noted => resolveAll_ne_zero noted

variable {fn : Func}

variable {t : Stacks}

theorem Generated.goes_on (made : Generated c q s t (listing c fn).1 (listing c fn).2.failed) :
    (t.gen.err.isSome ∨ t.gen.oom) ↔ ¬ Fits c q fn := by
  have full := made.here.oom
  rw [made.err, show t.gen.oom = _ from full, decide_eq_true_eq]
  unfold Fits
  rw [not_and_or, Bool.not_eq_false]
  have same : c.cap / 4 < q + size (listing c fn).1 ↔
      ¬ 4 * (q + size (listing c fn).1) ≤ c.cap := by omega
  rw [same]

theorem Generated.ready
    (made : Generated c q s t (listing c fn).1 (listing c fn).2.failed) (fits : Fits c q fn) :
    Ready c (q + size (listing c fn).1) t := by
  have stands := made.goes_on.not_left.mpr fits
  obtain ⟨fine, room⟩ := not_or.mp stands
  have front := fits.2
  refine ⟨Option.not_isSome_iff_eq_none.mp fine, Bool.not_eq_true _ ▸ room, ?_, front, made.calls⟩
  have place : t.gen.pos = _ := made.here.pos
  omega

theorem Generated.kept_inside {lines : List Line} {failed : Bool}
    (made : Generated c q s t lines failed)
    (room : ∀ p ∈ (branches q lines).take maxBfx, 4 * p + 4 ≤ c.cap) {i : Nat}
    (past : c.cap < 4 * i + 4) : t.gen.buf i = s.gen.buf i := by
  refine made.kept i past fun noted => ?_
  rw [made.sites] at noted
  obtain ⟨p, listed, rfl⟩ := List.mem_map.mp noted
  have front := room p listed
  omega

theorem Generated.written_outside {lines : List Line} {failed : Bool}
    (made : Generated c q s t lines failed) {p : Nat} (listed : p ∈ (branches q lines).take maxBfx)
    (past : c.cap < 4 * p + 4) : t.gen.buf (c.cap / 4) ≠ 0 := by
  refine made.written _ ?_
  rw [made.sites]
  refine List.mem_map.mpr ⟨p, listed, ?_⟩
  show min p (c.cap / 4) = _
  omega

end Functions

section Runs

theorem branches_front {q p : Nat} {lines : List Line} (listed : p ∈ branches q lines) :
    p + 1 ≤ q + size lines := by
  induction lines generalizing q with
  | nil => cases listed
  | cons x lines later =>
    have cut : q + size (x :: lines) = q + x.words + size lines := (Nat.add_assoc _ _ _).symm
    rw [cut]
    cases x with
    | word => exact later listed
    | call => exact later listed
    | use i => exact later listed
    | branch =>
      rcases List.mem_cons.mp listed with rfl | behind
      · show p + 1 ≤ p + 1 + size lines
        omega
      · exact later behind

variable {c : Ctx} {q : Nat} {s : Stacks}

theorem genFuncs_stop {fn : Func} (rest : List Func)
    (stop : (genFunc c fn s).2.gen.err.isSome ∨ (genFunc c fn s).2.gen.oom) :
    genFuncs c (fn :: rest) s = (none, (genFunc c fn s).2) := by
  rw [LoopStacks.genFuncs]
  exact if_pos stop

theorem genFuncs_next {fn : Func} (rest : List Func)
    (next : ¬ ((genFunc c fn s).2.gen.err.isSome ∨ (genFunc c fn s).2.gen.oom)) :
    genFuncs c (fn :: rest) s =
      ((genFuncs c rest (genFunc c fn s).2).1.map (s.gen.pos :: ·),
        (genFuncs c rest (genFunc c fn s).2).2) := by
  rw [LoopStacks.genFuncs]
  exact if_neg next

theorem genFuncs_cases (fn : Func) (rest : List Func) (ready : Ready c q s) :
    ∃ t, Generated c q s t (listing c fn).1 (listing c fn).2.failed ∧
      (¬ Fits c q fn ∧ genFuncs c (fn :: rest) s = (none, t) ∨
        Fits c q fn ∧ Ready c (q + size (listing c fn).1) t ∧
          genFuncs c (fn :: rest) s =
            ((genFuncs c rest t).1.map (q :: ·), (genFuncs c rest t).2)) := by
  have made := genFunc_generated fn ready
  refine ⟨_, made, ?_⟩
  by_cases fits : Fits c q fn
  · have next := genFuncs_next rest (made.goes_on.not_left.mpr fits)
    rw [ready.pos] at next
    exact .inr ⟨fits, made.ready fits, next⟩
  · exact .inl ⟨fits, genFuncs_stop rest (made.goes_on.mpr fits)⟩

variable {funcs : List Func}

variable (ready : Ready c q s)

include ready

theorem genFuncs_fails (long : ¬ AllFit c q funcs) :
    (genFuncs c funcs s).1 = none := by
  induction funcs generalizing q s with
  | nil => exact absurd trivial long
  | cons fn rest later =>
    obtain ⟨t, made, ⟨_, stop⟩ | ⟨fits, ready', next⟩⟩ := genFuncs_cases fn rest ready
    · rw [stop]
    · have behind : ¬ AllFit c (q + size (listing c fn).1) rest := fun fit => long ⟨fits, fit⟩
      rw [next, later ready' behind]
      rfl

theorem genFuncs_ready {offs : List Nat} (done : (genFuncs c funcs s).1 = some offs) :
    ∃ q', Ready c q' (genFuncs c funcs s).2 := by
  induction funcs generalizing q s offs with
  | nil => exact ⟨q, ready⟩
  | cons fn rest later =>
    obtain ⟨t, made, ⟨_, stop⟩ | ⟨fits, ready', next⟩⟩ := genFuncs_cases fn rest ready
    · rw [stop] at done
      cases done
    · rw [next] at done ⊢
      obtain ⟨offs', done', _⟩ := Option.map_eq_some_iff.mp done
      exact later ready' done'

theorem genFuncs_used {d : Nat} (noted : d ∈ s.used) :
    d ∈ (genFuncs c funcs s).2.used := by
  induction funcs generalizing q s with
  | nil => exact noted
  | cons fn rest later =>
    obtain ⟨t, made, ⟨_, stop⟩ | ⟨fits, ready', next⟩⟩ := genFuncs_cases fn rest ready
    · rw [stop, made.used]
      exact List.mem_append_left _ noted
    · rw [next]
      refine later ready' ?_
      rw [made.used]
      exact List.mem_append_left _ noted

theorem genFuncs_inside (inside : AllInside c q funcs) :
    (∀ i, c.cap < 4 * i + 4 → (genFuncs c funcs s).2.gen.buf i = s.gen.buf i) ∧
      ∀ d ∈ (genFuncs c funcs s).2.used, d ∈ s.used ∨ d < 64 := by
  induction funcs generalizing q s with
  | nil => exact ⟨fun _ _ => rfl, fun d noted => .inl noted⟩
  | cons fn rest later =>
    obtain ⟨first, behind⟩ := inside
    obtain ⟨t, made, cases⟩ := genFuncs_cases fn rest ready
    have kept : ∀ i, c.cap < 4 * i + 4 → t.gen.buf i = s.gen.buf i := fun i past =>
      made.kept_inside first.room past
    have used : ∀ d ∈ t.used, d ∈ s.used ∨ d < 64 := by
      intro d noted
      rw [made.used] at noted
      exact (List.mem_append.mp noted).imp id (first.depth d)
    rcases cases with ⟨_, stop⟩ | ⟨fits, ready', next⟩
    · rw [stop]
      exact ⟨kept, used⟩
    · rw [next]
      obtain ⟨kept', used'⟩ := later ready' (behind fits)
      exact ⟨fun i past => (kept' i past).trans (kept i past),
        fun d noted => (used' d noted).elim (used d) .inr⟩

/-- What does not stay inside uses a place behind the stacks, or fails with a word behind the
capacity. -/
theorem genFuncs_outside (outside : ¬ AllInside c q funcs) :
    (∃ d ∈ (genFuncs c funcs s).2.used, 64 ≤ d) ∨
      (genFuncs c funcs s).1 = none ∧ (genFuncs c funcs s).2.gen.buf (c.cap / 4) ≠ 0 := by
  induction funcs generalizing q s with
  | nil => exact absurd trivial outside
  | cons fn rest later =>
    obtain ⟨t, made, cases⟩ := genFuncs_cases fn rest ready
    by_cases deep : ∀ i ∈ uses (listing c fn).1, i < 64
    · by_cases room : ∀ p ∈ (branches q (listing c fn).1).take maxBfx, 4 * p + 4 ≤ c.cap
      · -- this function stays inside, so it fits and a later one does not stay
        have fits : Fits c q fn := by
          by_contra large
          exact outside ⟨⟨deep, room⟩, fun fits => absurd fits large⟩
        rcases cases with ⟨large, _⟩ | ⟨_, ready', next⟩
        · exact absurd fits large
        · have behind : ¬ AllInside c (q + size (listing c fn).1) rest :=
            fun rest' => outside ⟨⟨deep, room⟩, fun _ => rest'⟩
          rw [next]
          rcases later ready' behind with used | ⟨stops, written⟩
          · exact .inl used
          · refine .inr ⟨?_, written⟩
            rw [stops]
            rfl
      · -- a branch behind the capacity is a word behind it too, and the loop ends here
        simp only [not_forall, Nat.not_le, exists_prop] at room
        obtain ⟨p, listed, past⟩ := room
        rcases cases with ⟨_, stop⟩ | ⟨fits, _⟩
        · rw [stop]
          exact .inr ⟨rfl, made.written_outside listed past⟩
        · have front := branches_front (List.mem_of_mem_take listed)
          have room := fits.2
          omega
    · simp only [not_forall, Nat.not_lt, exists_prop] at deep
      obtain ⟨d, noted, high⟩ := deep
      have used : d ∈ t.used := by
        rw [made.used]
        exact List.mem_append_right _ noted
      refine .inl ⟨d, ?_, high⟩
      rcases cases with ⟨_, stop⟩ | ⟨_, ready', next⟩
      · rw [stop]
        exact used
      · rw [next]
        exact genFuncs_used ready' used

end Runs

section Bounds

variable (cap : Nat) (base : BitVec 64) (resolve : String → BitVec 64) (labOff : Nat → Nat)
  (brkLab contLab : Nat → Nat) (funcs : List Func) {s : Stacks}

/-- Nothing is written at or behind the capacity, only the 64 places of the stacks are used, and
code that does not fit is reported. -/
structure StaysInside : Prop where
  buffer : ∀ buf i, cap < 4 * i + 4 →
    (ccCodegen cap base resolve labOff brkLab contLab funcs buf).buf i = buf i
  depth : ∀ buf, ∀ d ∈ (ccCodegen cap base resolve labOff brkLab contLab funcs buf).used, d < 64
  reported : ¬ AllFit (setting cap base resolve funcs) 0 funcs → ∀ buf,
    (ccCodegen cap base resolve labOff brkLab contLab funcs buf).result = none

def initial (buf : Nat → Word) : Stacks :=
  ⟨⟨buf, 0, false, labOff, 0, [], [], none⟩, brkLab, 0, contLab, 0, []⟩

theorem initial_ready (buf : Nat → Word) :
    Ready (setting cap base resolve funcs) 0 (initial labOff brkLab contLab buf) :=
  ⟨rfl, rfl, rfl, Nat.zero_le _, nofun⟩

theorem patchCalls_beyond {c : Ctx} {q : Nat} (ready : Ready c q s) (offs : List Nat) {i : Nat}
    (past : c.cap < 4 * i + 4) :
    patchCalls c offs s.gen i = s.gen.buf i := by
  rcases patchCalls_at (c := c) offs s.gen i with ⟨same, _⟩ | ⟨e, listed, low, high, _⟩
  · exact same
  · have front := ready.calls e listed
    have room := ready.front
    omega

variable {cap base resolve labOff brkLab contLab funcs} in
theorem ccCodegen_failed {buf : Nat → Word}
    (fails : LoopStacks.genFuncs (setting cap base resolve funcs) funcs
      (initial labOff brkLab contLab buf) = (none, s)) :
    ccCodegen cap base resolve labOff brkLab contLab funcs buf = ⟨s.gen.buf, s.used, none⟩ := by
  unfold setting initial at fails
  simp only [LoopStacks.ccCodegen, fails]

variable {cap base resolve labOff brkLab contLab funcs} in
theorem ccCodegen_done {buf : Nat → Word} {offs : List Nat}
    (done : LoopStacks.genFuncs (setting cap base resolve funcs) funcs
      (initial labOff brkLab contLab buf) = (some offs, s)) :
    ccCodegen cap base resolve labOff brkLab contLab funcs buf =
      ⟨patchCalls (setting cap base resolve funcs) offs s.gen, s.used,
        ((setting cap base resolve funcs).funcs.findIdx? (· = "main")).map fun i =>
          (s.gen.pos, offs.getD i 0)⟩ := by
  unfold setting initial at done
  simp only [LoopStacks.ccCodegen, done, setting]

theorem ccCodegen_buf (buf : Nat → Word) {i : Nat} (past : cap < 4 * i + 4) :
    (ccCodegen cap base resolve labOff brkLab contLab funcs buf).buf i =
      (LoopStacks.genFuncs (setting cap base resolve funcs) funcs
        (initial labOff brkLab contLab buf)).2.gen.buf i := by
  rcases run : LoopStacks.genFuncs (setting cap base resolve funcs) funcs
    (initial labOff brkLab contLab buf) with ⟨_ | offs, s⟩
  · rw [ccCodegen_failed run]
  · obtain ⟨q, ready⟩ : ∃ q, Ready (setting cap base resolve funcs) q s := by
      have behind :=
        genFuncs_ready (initial_ready cap base resolve labOff brkLab contLab funcs buf)
          (congrArg Prod.fst run)
      rwa [run] at behind
    rw [ccCodegen_done run]
    exact patchCalls_beyond ready offs past

theorem ccCodegen_used (buf : Nat → Word) :
    (ccCodegen cap base resolve labOff brkLab contLab funcs buf).used =
      (LoopStacks.genFuncs (setting cap base resolve funcs) funcs
        (initial labOff brkLab contLab buf)).2.used := by
  rcases run : LoopStacks.genFuncs (setting cap base resolve funcs) funcs
    (initial labOff brkLab contLab buf) with ⟨_ | offs, s⟩
  · rw [ccCodegen_failed run]
  · rw [ccCodegen_done run]

theorem ccCodegen_reported (long : ¬ AllFit (setting cap base resolve funcs) 0 funcs)
    (buf : Nat → Word) :
    (ccCodegen cap base resolve labOff brkLab contLab funcs buf).result = none := by
  have fails := genFuncs_fails (initial_ready cap base resolve labOff brkLab contLab funcs buf) long
  rw [ccCodegen_failed (Prod.ext fails rfl)]

theorem leaves_of_outside (outside : ¬ AllInside (setting cap base resolve funcs) 0 funcs) :
    ¬ StaysInside cap base resolve labOff brkLab contLab funcs := by
  intro stays
  have ready := initial_ready cap base resolve labOff brkLab contLab funcs fun _ => 0
  rcases genFuncs_outside ready outside with ⟨d, noted, high⟩ | ⟨_, written⟩
  · rw [← ccCodegen_used] at noted
    exact absurd (stays.depth _ d noted) (Nat.not_lt.mpr high)
  · have past : cap < 4 * (cap / 4) + 4 := by omega
    have same := ccCodegen_buf cap base resolve labOff brkLab contLab funcs (fun _ => 0) past
    rw [stays.buffer _ _ past] at same
    exact written same.symm

/-- The generator stays inside its buffers exactly where every function it comes to does. -/
theorem stays_inside_iff :
    StaysInside cap base resolve labOff brkLab contLab funcs ↔
      AllInside (setting cap base resolve funcs) 0 funcs := by
  refine ⟨fun stays => ?_, fun inside => ?_⟩
  · by_contra outside
    exact leaves_of_outside cap base resolve labOff brkLab contLab funcs outside stays
  · have ready := initial_ready cap base resolve labOff brkLab contLab funcs
    refine ⟨fun buf i past => ?_, fun buf d noted => ?_, fun long buf => ?_⟩
    · rw [ccCodegen_buf cap base resolve labOff brkLab contLab funcs buf past]
      exact (genFuncs_inside (ready buf) inside).1 i past
    · rw [ccCodegen_used] at noted
      rcases (genFuncs_inside (ready buf) inside).2 d noted with none | low
      · cases none
      · exact low
    · exact ccCodegen_reported cap base resolve labOff brkLab contLab funcs long buf

/-- `while (1)` so many times, and an empty statement. -/
def loops : Nat → Stmt
  | 0 => .null
  | n + 1 => .wloop (.num 1) (loops n)

/-- `main` with 65 loops inside each other. -/
def deep : Func := ⟨"main", [], [], .block [loops 65]⟩

/-- `int main() { return 0; }`. -/
def small : Func := ⟨"main", [], [], .block [.ret (.num 0)]⟩

/-- The innermost of 65 loops has its label behind the stacks, and the branch of a `return` that is
not in front of the capacity is patched at the capacity. -/
theorem stays_inside_fails :
    ¬ StaysInside (256 * 1024) 0x80000 (fun _ => 0) (fun _ => 0) (fun _ => 0) (fun _ => 0) [deep] ∧
      ¬ StaysInside 16 0x80000 (fun _ => 0) (fun _ => 0) (fun _ => 0) (fun _ => 0) [small] := by
  constructor
  · apply leaves_of_outside
    rintro ⟨⟨depth, _⟩, _⟩
    have last : 64 ∈ uses (listing (setting (256 * 1024) 0x80000 (fun _ => 0) [deep]) deep).1 := by
      decide +kernel
    exact absurd (depth 64 last) (by decide)
  · apply leaves_of_outside
    rintro ⟨⟨_, room⟩, _⟩
    have first : 6 ∈ (branches 0
        (listing (setting 16 0x80000 (fun _ => 0) [small]) small).1).take maxBfx := by
      decide +kernel
    exact absurd (room 6 first) (by decide)

end Bounds

end XinuRpi5.Cc.CodeBounds
