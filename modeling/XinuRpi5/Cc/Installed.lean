/- source: cc/codegen.c
   digest: What the buffer holds where a listing was written and its branches were resolved. -/

import XinuRpi5.Cc.Assembly
import Mathlib.Data.List.Basic

namespace XinuRpi5.Cc.Installed

open Lib.RuledState Codegen Assembly

section Content

variable (c : Ctx)

def itemWords : Item → List Word
  | .word w => [w]
  | .br k _ => [k.word]
  | .lab _ => []
  | .fn _ => loadimm x9 0
  | .tick _ => loadimm x9 c.tick ++ [blr x9, BrKind.word .cbz]

def raw (l : List Item) : List Word := l.flatMap (itemWords c)

def size : Item → Nat
  | .word _ => 1
  | .br _ _ => 1
  | .lab _ => 0
  | .fn _ => 4
  | .tick _ => 6

def width : List Item → Nat
  | [] => 0
  | x :: l => size x + width l

@[simp] theorem width_append (l m : List Item) : width (l ++ m) = width l + width m := by
  induction l with
  | nil => exact (Nat.zero_add _).symm
  | cons x l ih =>
    rw [List.cons_append, width, width, ih, Nat.add_assoc]

theorem itemWords_length (x : Item) : (itemWords c x).length = size x := by
  cases x with
  | _ => rfl

theorem raw_length (l : List Item) : (raw c l).length = width l := by
  induction l with
  | nil => rfl
  | cons x l ih =>
    rw [raw, List.flatMap_cons, List.length_append, itemWords_length, width]
    exact congrArg (size x + ·) ih

/-- The entries of `bfx` for a listing at a place. -/
def fixes : Nat → List Item → List Fix
  | _, [] => []
  | p, .br k l :: rest => ⟨p, l, k⟩ :: fixes (p + 1) rest
  | p, .tick l :: rest => ⟨p + 5, l, .cbz⟩ :: fixes (p + 6) rest
  | p, x :: rest => fixes (p + size x) rest

/-- The entries of `cfx`. -/
def calls : Nat → List Item → List (Nat × Nat)
  | _, [] => []
  | p, .fn i :: rest => (p, i) :: calls (p + 4) rest
  | p, x :: rest => calls (p + size x) rest

def relabel : (Nat → Nat) → Nat → List Item → Nat → Nat
  | labOff, _, [] => labOff
  | labOff, p, .lab l :: rest =>
    relabel (if l < maxLab then fun k => if k = l then p else labOff k else labOff) p rest
  | labOff, p, x :: rest => relabel labOff (p + size x) rest

def store (buf : Nat → Word) (p : Nat) : List Word → Nat → Word
  | [] => buf
  | w :: rest => store (put buf p w) (p + 1) rest

theorem store_append (buf : Nat → Word) (p : Nat) (l m : List Word) :
    store buf p (l ++ m) = store (store buf p l) (p + l.length) m := by
  induction l generalizing buf p with
  | nil => rfl
  | cons w l ih =>
    rw [List.cons_append, store, ih, store, List.length_cons, Nat.add_assoc, Nat.add_comm 1]

theorem store_before {buf : Nat → Word} {p i : Nat} (l : List Word) (before : i < p) :
    store buf p l i = buf i := by
  induction l generalizing buf p with
  | nil => rfl
  | cons w l ih =>
    rw [store, ih (Nat.lt_succ_of_lt before)]
    exact if_neg (Nat.ne_of_lt before)

theorem store_at {buf : Nat → Word} {p j : Nat} {l : List Word} {w : Word} (is : l[j]? = some w) :
    store buf p l (p + j) = w := by
  induction l generalizing buf p j with
  | nil => cases is
  | cons v l ih =>
    cases j with
    | zero =>
      change store (put buf p v) (p + 1) l p = w
      rw [store_before l (Nat.lt_add_one p)]
      exact (if_pos rfl).trans (Option.some.inj is)
    | succ j =>
      rw [store, show p + (j + 1) = p + 1 + j by omega]
      exact ih is

end Content

section Written

variable {c : Ctx}

variable {s : Gen}

theorem emit_run {w : Word} (room : ((emit c w).run s).2.oom = false) :
    ((emit c w).run s).2 = { s with buf := put s.buf s.pos w, pos := s.pos + 1 } := by
  change (if c.cap < 4 * s.pos + 4 then { s with oom := true } else _).oom = false at room
  change (if c.cap < 4 * s.pos + 4 then _ else _) = _
  split_ifs at room ⊢
  · rfl

theorem emitAll_run {l : List Word} (room : ((emitAll c l).run s).2.oom = false) :
    ((emitAll c l).run s).2 =
      { s with buf := store s.buf s.pos l, pos := s.pos + l.length } := by
  induction l generalizing s with
  | nil => rfl
  | cons w l ih =>
    change ((emitAll c l).run ((emit c w).run s).2).2.oom = false at room
    change ((emitAll c l).run ((emit c w).run s).2).2 = _
    have first := emit_run (((emitAll c l).keeps _).oom room)
    rw [ih room, first, List.length_cons, ← Nat.add_assoc, Nat.add_right_comm]
    rfl

theorem noteBranch_run (k : BrKind) (l : Nat) {s : Gen} (few : s.bfx.length ≤ maxBfx) :
    ((noteBranch k l).run s).2 =
      { s with bfx := (s.bfx ++ [Codegen.Fix.mk s.pos l k]).take maxBfx } := by
  change (if s.bfx.length < maxBfx then _ else _) = _
  split_ifs with less
  · rw [List.take_of_length_le]
    rw [List.length_append]
    exact less
  · rw [List.take_append_of_le_length (Nat.not_lt.mp less), List.take_of_length_le few]

theorem noteCall_run (fn : Nat) {s : Gen} (few : s.cfx.length ≤ maxCfx) :
    ((noteCall fn).run s).2 = { s with cfx := (s.cfx ++ [(s.pos, fn)]).take maxCfx } := by
  change (if s.cfx.length < maxCfx then _ else _) = _
  split_ifs with less
  · rw [List.take_of_length_le]
    rw [List.length_append]
    exact less
  · rw [List.take_append_of_le_length (Nat.not_lt.mp less), List.take_of_length_le few]

theorem emitBranch_run {k : BrKind} {l : Nat}
    (room : ((emitBranch c k l).run s).2.oom = false) (few : s.bfx.length ≤ maxBfx) :
    ((emitBranch c k l).run s).2 =
      { s with
        buf := put s.buf s.pos k.word
        pos := s.pos + 1
        bfx := (s.bfx ++ [Codegen.Fix.mk s.pos l k]).take maxBfx } := by
  change ((emit c k.word).run ((noteBranch k l).run s).2).2.oom = false at room
  change ((emit c k.word).run ((noteBranch k l).run s).2).2 = _
  rw [emit_run room, noteBranch_run k l few]

def Fits (c : Ctx) (s : Gen) : Prop := 4 * s.pos ≤ c.cap

theorem emit_fits {w : Word} (room : ((emit c w).run s).2.oom = false) :
    Fits c ((emit c w).run s).2 := by
  rw [emit_run room]
  change (if c.cap < 4 * s.pos + 4 then { s with oom := true } else _).oom = false at room
  unfold Fits
  split_ifs at room with full
  change 4 * (s.pos + 1) ≤ c.cap
  omega

theorem emitAll_fits {l : List Word} (fits : Fits c s)
    (room : ((emitAll c l).run s).2.oom = false) : Fits c ((emitAll c l).run s).2 := by
  induction l generalizing s with
  | nil => exact fits
  | cons w l ih => exact ih (emit_fits (((emitAll c l).keeps _).oom room)) room

theorem writeItem_fits {x : Item} (fits : Fits c s)
    (room : ((writeItem c x).run s).2.oom = false) : Fits c ((writeItem c x).run s).2 := by
  cases x with
  | word w => exact emit_fits room
  | br k l => exact emit_fits (s := ((noteBranch k l).run s).2) room
  | lab l =>
    have same : ((place l).run s).2.pos = s.pos := by
      change (if l < maxLab then _ else _ : Gen).pos = s.pos
      split_ifs
      · rfl
      · rfl
    change 4 * ((place l).run s).2.pos ≤ c.cap
    rw [same]
    exact fits
  | fn i =>
    have same : ((noteCall i).run s).2.pos = s.pos := by
      change (if s.cfx.length < maxCfx then _ else _ : Gen).pos = s.pos
      split_ifs
      · rfl
      · rfl
    refine emitAll_fits (l := loadimm x9 0) (s := ((noteCall i).run s).2) ?_ room
    unfold Fits
    rw [same]
    exact fits
  | tick l =>
    exact emit_fits (s := ((noteBranch .cbz l).run ((emit c (blr x9)).run
      ((emitAll c (loadimm x9 c.tick)).run s).2).2).2) room

theorem written_fits {l : List Item} (fits : Fits c s)
    (room : (written c l s).oom = false) : Fits c (written c l s) := by
  induction l generalizing s with
  | nil => exact fits
  | cons x l ih =>
    rw [written_cons] at room ⊢
    exact ih (writeItem_fits fits (((write c l).keeps _).oom room)) room

def after (c : Ctx) (l : List Item) (s : Gen) : Gen :=
  { s with
    buf := store s.buf s.pos (raw c l)
    pos := s.pos + width l
    labOff := relabel s.labOff s.pos l
    bfx := (s.bfx ++ fixes s.pos l).take maxBfx
    cfx := (s.cfx ++ calls s.pos l).take maxCfx }

theorem writeItem_run {x : Item} (few : s.bfx.length ≤ maxBfx)
    (few' : s.cfx.length ≤ maxCfx) (room : ((writeItem c x).run s).2.oom = false) :
    ((writeItem c x).run s).2 = after c [x] s := by
  have bfx : (s.bfx ++ []).take maxBfx = s.bfx := by
    rw [List.append_nil, List.take_of_length_le few]
  have cfx : (s.cfx ++ []).take maxCfx = s.cfx := by
    rw [List.append_nil, List.take_of_length_le few']
  cases x with
  | word w =>
    change ((emit c w).run s).2.oom = false at room
    change ((emit c w).run s).2 = _
    rw [emit_run room]
    simp only [after, fixes, calls, bfx, cfx]
    rfl
  | br k l =>
    change ((emitBranch c k l).run s).2.oom = false at room
    change ((emitBranch c k l).run s).2 = _
    rw [emitBranch_run room few]
    simp only [after, fixes, calls, cfx]
    rfl
  | lab l =>
    change (if l < maxLab then _ else _) = _
    simp only [after, fixes, calls, bfx, cfx, relabel]
    split_ifs
    · rfl
    · rfl
  | fn i =>
    change ((emitAll c (loadimm x9 0)).run ((noteCall i).run s).2).2.oom = false at room
    change ((emitAll c (loadimm x9 0)).run ((noteCall i).run s).2).2 = _
    rw [emitAll_run room, noteCall_run i few']
    simp only [after, fixes, calls, bfx]
    rfl
  | tick l =>
    change ((emitBranch c .cbz l).run ((emit c (blr x9)).run
      ((emitAll c (loadimm x9 c.tick)).run s).2).2).2.oom = false at room
    change ((emitBranch c .cbz l).run ((emit c (blr x9)).run
      ((emitAll c (loadimm x9 c.tick)).run s).2).2).2 = _
    have second := ((emitBranch c .cbz l).keeps _).oom room
    have first := ((emit c (blr x9)).keeps _).oom second
    rw [emitAll_run first] at second room ⊢
    rw [emit_run second] at room ⊢
    rw [emitBranch_run room few]
    simp only [after, fixes, calls, cfx]
    rfl

theorem fixes_cons (p : Nat) (x : Item) (l : List Item) :
    fixes p (x :: l) = fixes p [x] ++ fixes (p + size x) l := by
  cases x with
  | _ => rfl

theorem calls_cons (p : Nat) (x : Item) (l : List Item) :
    calls p (x :: l) = calls p [x] ++ calls (p + size x) l := by
  cases x with
  | _ => rfl

theorem relabel_cons (labOff : Nat → Nat) (p : Nat) (x : Item) (l : List Item) :
    relabel labOff p (x :: l) = relabel (relabel labOff p [x]) (p + size x) l := by
  cases x with
  | _ => rfl

theorem take_append_take {α : Type} (l m : List α) (n : Nat) :
    (l.take n ++ m).take n = (l ++ m).take n := by
  rw [List.take_append, List.take_append, List.take_take, Nat.min_self, List.length_take]
  congr 2
  omega

theorem written_eq {l : List Item} (few : s.bfx.length ≤ maxBfx)
    (few' : s.cfx.length ≤ maxCfx) (room : (written c l s).oom = false) :
    written c l s = after c l s := by
  induction l generalizing s with
  | nil =>
    simp only [after, fixes, calls, List.append_nil, List.take_of_length_le few,
      List.take_of_length_le few']
    rfl
  | cons x l ih =>
    rw [written_cons] at room ⊢
    have first := writeItem_run few few' (((write c l).keeps _).oom room)
    rw [first] at room ⊢
    rw [ih (List.length_take_le _ _) (List.length_take_le _ _) room]
    simp only [after, width, Nat.add_zero, take_append_take, List.append_assoc]
    rw [fixes_cons _ x l, calls_cons _ x l, relabel_cons _ _ x l]
    have content : raw c (x :: l) = raw c [x] ++ raw c l := by
      simp [raw]
    rw [content, store_append, raw_length, Nat.add_assoc s.pos]
    rfl

end Written

section Lines

/-- The line that starts at a position of a listing placed at `p`. -/
def At (p : Nat) (l : List Item) (i : Nat) (x : Item) : Prop :=
  ∃ before rest, l = before ++ x :: rest ∧ i = p + width before

theorem At.head (p : Nat) (x : Item) (l : List Item) : At p (x :: l) p x := ⟨[], l, rfl, rfl⟩

variable {p i : Nat} {x y : Item} {l : List Item}

theorem At.tail (found : At (p + size y) l i x) :
    At p (y :: l) i x := by
  obtain ⟨before, rest, rfl, rfl⟩ := found
  exact ⟨y :: before, rest, rfl, by rw [width, Nat.add_assoc]⟩

theorem At.cases (found : At p (y :: l) i x) :
    x = y ∧ i = p ∨ At (p + size y) l i x := by
  obtain ⟨before, rest, is, rfl⟩ := found
  cases before with
  | nil =>
    obtain ⟨rfl, rfl⟩ := List.cons.inj is
    exact .inl ⟨rfl, rfl⟩
  | cons z before =>
    obtain ⟨rfl, rfl⟩ := List.cons.inj is
    exact .inr ⟨before, rest, rfl, by rw [width, Nat.add_assoc]⟩

theorem At.range (found : At p l i x) :
    p ≤ i ∧ i + size x ≤ p + width l := by
  obtain ⟨before, rest, rfl, rfl⟩ := found
  rw [width_append, width]
  omega

theorem At.unique {j n : Nat} (first : At p l i x)
    (second : At p l j y) (inside : i ≤ n ∧ n < i + size x) (inside' : j ≤ n ∧ n < j + size y) :
    i = j ∧ x = y := by
  induction l generalizing p with
  | nil =>
    obtain ⟨before, rest, is, _⟩ := first
    exact absurd is (by simp)
  | cons z l ih =>
    rcases first.cases with ⟨rfl, rfl⟩ | later
    · rcases second.cases with ⟨rfl, rfl⟩ | later'
      · exact ⟨rfl, rfl⟩
      · have := later'.range
        omega
    · rcases second.cases with ⟨rfl, rfl⟩ | later'
      · have := later.range
        omega
      · exact ih later later'

/-- The entry of `bfx` that a line makes at a position. -/
def fixOf (i : Nat) : Item → Option Fix
  | .br k l => some ⟨i, l, k⟩
  | .tick l => some ⟨i + 5, l, .cbz⟩
  | _ => none

theorem mem_fixes {f : Fix} :
    f ∈ fixes p l ↔ ∃ i x, At p l i x ∧ fixOf i x = some f := by
  induction l generalizing p with
  | nil =>
    constructor
    · intro listed
      cases listed
    · rintro ⟨i, x, ⟨before, rest, is, _⟩, _⟩
      exact absurd is (by simp)
  | cons y l ih =>
    rw [fixes_cons, List.mem_append, ih]
    constructor
    · rintro (here | ⟨i, x, found, is⟩)
      · refine ⟨p, y, .head p y l, ?_⟩
        cases y with
        | br k l => rw [List.mem_singleton.mp here]; rfl
        | tick l => rw [List.mem_singleton.mp here]; rfl
        | word w => cases here
        | lab l => cases here
        | fn i => cases here
      · exact ⟨i, x, found.tail, is⟩
    · rintro ⟨i, x, found, is⟩
      rcases found.cases with ⟨rfl, rfl⟩ | later
      · refine .inl ?_
        cases x with
        | br k l => exact List.mem_singleton.mpr (Option.some.inj is).symm
        | tick l => exact List.mem_singleton.mpr (Option.some.inj is).symm
        | word w => cases is
        | lab l => cases is
        | fn i => cases is
      · exact .inr ⟨i, x, later, is⟩

theorem fix_range {f : Fix} (is : fixOf i x = some f) :
    i ≤ f.site ∧ f.site < i + size x := by
  cases x with
  | br k l =>
    obtain rfl := Option.some.inj is
    exact ⟨Nat.le_refl i, Nat.lt_add_one i⟩
  | tick l =>
    obtain rfl := Option.some.inj is
    exact ⟨Nat.le_add_right i 5, Nat.lt_add_one (i + 5)⟩
  | word w => cases is
  | lab l => cases is
  | fn j => cases is

theorem fixes_sorted (p : Nat) (l : List Item) :
    (fixes p l).Pairwise fun f g => f.site < g.site := by
  induction l generalizing p with
  | nil => exact List.Pairwise.nil
  | cons y l ih =>
    rw [fixes_cons, List.pairwise_append]
    refine ⟨?_, ih _, fun f here g later => ?_⟩
    · cases y with
      | br k l => exact List.pairwise_singleton _ _
      | tick l => exact List.pairwise_singleton _ _
      | word w => exact List.Pairwise.nil
      | lab l => exact List.Pairwise.nil
      | fn i => exact List.Pairwise.nil
    · obtain ⟨i, x, found, is⟩ := mem_fixes.mp here
      obtain ⟨j, z, found', is'⟩ := mem_fixes.mp later
      have range := found.range
      have range' := found'.range
      have site := fix_range is
      have site' := fix_range is'
      rw [width, width] at range
      omega

theorem mem_calls {fn : Nat} (listed : (i, fn) ∈ calls p l) :
    At p l i (.fn fn) := by
  induction l generalizing p with
  | nil => cases listed
  | cons y l ih =>
    rw [calls_cons, List.mem_append] at listed
    rcases listed with here | later
    · cases y with
      | fn j =>
        obtain ⟨rfl, rfl⟩ := Prod.mk.inj (List.mem_singleton.mp here)
        exact .head _ _ l
      | word w => cases here
      | lab l => cases here
      | br k l => cases here
      | tick l => cases here
    · exact (ih later).tail

end Lines

section Resolving

def resolveAll (labOff : Nat → Nat) (buf : Nat → Word) (fs : List Fix) : Nat → Word :=
  fs.foldl (fun buf f => put buf f.site (f.resolved labOff)) buf

theorem resolveAll_other {labOff : Nat → Nat} {buf : Nat → Word} {fs : List Fix} {i : Nat}
    (other : ∀ f ∈ fs, f.site ≠ i) : resolveAll labOff buf fs i = buf i := by
  induction fs generalizing buf with
  | nil => rfl
  | cons f fs ih =>
    refine (ih fun g listed => other g (List.mem_cons_of_mem f listed)).trans ?_
    exact if_neg fun same => other f List.mem_cons_self same.symm

theorem resolveAll_site {labOff : Nat → Nat} {buf : Nat → Word} {fs : List Fix} {f : Fix}
    (sorted : fs.Pairwise fun f g => f.site < g.site) (listed : f ∈ fs) :
    resolveAll labOff buf fs f.site = f.resolved labOff := by
  induction fs generalizing buf with
  | nil => cases listed
  | cons g fs ih =>
    obtain ⟨later, sorted⟩ := List.pairwise_cons.mp sorted
    rcases List.mem_cons.mp listed with rfl | member
    · refine (resolveAll_other fun g listed => Nat.ne_of_gt (later g listed)).trans ?_
      exact if_pos rfl
    · exact ih sorted member

variable (c : Ctx)

def fresh (s : Gen) : Gen := { s with nlab := 0, bfx := [] }

theorem resolveBranches_run (s : Gen) :
    (resolveBranches.run s).2 = { s with buf := resolveAll s.labOff s.buf s.bfx } := rfl

theorem wrapped_run (p : Prog sticky Unit) (s : Gen) :
    ((startFunc >>= fun _ => p >>= fun _ => resolveBranches).run s).2 =
      (resolveBranches.run (p.run (fresh s)).2).2 := rfl

theorem genFunc_state (fn : Func) (s : Gen) : ((genFunc c fn).run s).2 =
    (resolveBranches.run ((genBody c fn).run (fresh s)).2).2 := by
  exact wrapped_run (genBody c fn) s

variable {fn : Func} {s : Gen}

theorem genBody_state (fine : ((genBody c fn).run (fresh s)).2.err = none) :
    ((genBody c fn).run (fresh s)).2 =
      withLabels (written c (funcItems c fn) (fresh s)) (1 + stmtLabels fn.body) := by
  have listing := (genBody_writes c fn (fresh s) fine).2
  have labels : (fresh s).nlab = 0 := rfl
  rw [labels, Nat.zero_add] at listing
  exact listing

def finished (c : Ctx) (fn : Func) (s : Gen) : Gen :=
  { s with
    buf := resolveAll (relabel s.labOff s.pos (funcItems c fn))
      (store s.buf s.pos (raw c (funcItems c fn))) ((fixes s.pos (funcItems c fn)).take maxBfx)
    pos := s.pos + width (funcItems c fn)
    labOff := relabel s.labOff s.pos (funcItems c fn)
    nlab := 1 + stmtLabels fn.body
    bfx := (fixes s.pos (funcItems c fn)).take maxBfx
    cfx := (s.cfx ++ calls s.pos (funcItems c fn)).take maxCfx }

theorem genFunc_run (few : s.cfx.length ≤ maxCfx)
    (fine : ((genFunc c fn).run s).2.err = none) (room : ((genFunc c fn).run s).2.oom = false) :
    ((genFunc c fn).run s).2 = finished c fn s := by
  rw [genFunc_state, resolveBranches_run] at fine room ⊢
  have listing := genBody_state c fine
  generalize ((genBody c fn).run (fresh s)).2 = t at listing room
  subst listing
  have state := written_eq (l := funcItems c fn) (s := fresh s) (Nat.zero_le _) few room
  rw [state]
  rfl

theorem genFunc_fits (fits : Fits c s)
    (fine : ((genFunc c fn).run s).2.err = none) (room : ((genFunc c fn).run s).2.oom = false) :
    Fits c ((genFunc c fn).run s).2 := by
  rw [genFunc_state, resolveBranches_run] at fine room ⊢
  have listing := genBody_state c fine
  generalize ((genBody c fn).run (fresh s)).2 = t at listing room
  subst listing
  exact written_fits (s := fresh s) fits room

end Resolving

section Functions

structure Compiled (c : Ctx) (buf : Nat → Word) (labAt : Nat → Nat) (p : Nat) (l : List Item) :
    Prop where
  word : ∀ i w, At p l i (.word w) → buf i = w
  tick : ∀ i e, At p l i (.tick e) → ∀ j w, (loadimm x9 c.tick ++ [blr x9])[j]? = some w →
    buf (i + j) = w
  fn : ∀ i n, At p l i (.fn n) → ∀ j, j < 4 → ∃ v, buf (i + j) ∈ loadimm x9 v
  fix : ∀ f ∈ (fixes p l).take maxBfx, buf f.site = f.resolved labAt
  left : ∀ f ∈ (fixes p l).drop maxBfx, buf f.site = f.kind.word
  lab : ∀ i k, At p l i (.lab k) → labAt k = i

variable {c : Ctx}

variable {p i k : Nat} {l : List Item}

theorem raw_at {j : Nat} {x : Item} {w : Word} (found : At p l i x)
    (is : (itemWords c x)[j]? = some w) : ∃ k, (raw c l)[k]? = some w ∧ i + j = p + k := by
  obtain ⟨before, rest, rfl, rfl⟩ := found
  refine ⟨width before + j, ?_, Nat.add_assoc _ _ _⟩
  have content : raw c (before ++ x :: rest) =
      raw c before ++ (itemWords c x ++ raw c rest) := by
    simp [raw]
  have inside : j < (itemWords c x).length := (List.getElem?_eq_some_iff.mp is).1
  rw [content, ← raw_length c before, List.getElem?_append_right (Nat.le_add_right _ _),
    Nat.add_sub_cancel_left, List.getElem?_append_left inside]
  exact is

theorem relabel_other {labOff : Nat → Nat}
    (none : places k l = 0) : relabel labOff p l k = labOff k := by
  induction l generalizing labOff p with
  | nil => rfl
  | cons x l ih =>
    rw [places_cons] at none
    rw [relabel_cons, ih (by omega)]
    cases x with
    | lab m =>
      have other : m ≠ k := by
        rintro rfl
        simp at none
      simp only [relabel]
      split_ifs
      · exact if_neg fun same => other same.symm
      · rfl
    | word w => rfl
    | br kind m => rfl
    | fn m => rfl
    | tick m => rfl

theorem places_pos (found : At p l i (.lab k)) :
    0 < places k l := by
  obtain ⟨before, rest, rfl, _⟩ := found
  rw [places_append, places_cons, if_pos rfl]
  omega

theorem relabel_at {labOff : Nat → Nat}
    (once : places k l ≤ 1) (fits : k < maxLab) (found : At p l i (.lab k)) :
    relabel labOff p l k = i := by
  induction l generalizing labOff p with
  | nil =>
    obtain ⟨before, rest, is, _⟩ := found
    exact absurd is (by simp)
  | cons x l ih =>
    rw [relabel_cons]
    rw [places_cons] at once
    rcases found.cases with ⟨rfl, rfl⟩ | later
    · have none : places k l = 0 := by
        rw [if_pos rfl] at once
        omega
      rw [relabel_other none]
      simp only [relabel, if_pos fits, if_true]
    · have pos := places_pos later
      exact ih (by omega) later

variable (fn : Func) (s : Gen)

theorem finished_line {j : Nat} {x : Item} {w : Word}
    (found : At s.pos (funcItems c fn) i x) (is : (itemWords c x)[j]? = some w)
    (apart : ∀ f, fixOf i x = some f → f.site ≠ i + j) : (finished c fn s).buf (i + j) = w := by
  have inside : j < size x := by
    rw [← itemWords_length c x]
    exact (List.getElem?_eq_some_iff.mp is).1
  refine (resolveAll_other fun f listed same => ?_).trans ?_
  · obtain ⟨i', x', found', is'⟩ := mem_fixes.mp (List.mem_of_mem_take listed)
    have range := fix_range is'
    obtain ⟨rfl, rfl⟩ := found.unique found' (n := f.site) (by omega) range
    exact apart f is' same
  · obtain ⟨k, word, place⟩ := raw_at found is
    rw [place]
    exact store_at word

theorem finished_left {f : Fix} (listed : f ∈ (fixes s.pos (funcItems c fn)).drop maxBfx) :
    (finished c fn s).buf f.site = f.kind.word := by
  have sorted := fixes_sorted s.pos (funcItems c fn)
  rw [← List.take_append_drop maxBfx (fixes s.pos (funcItems c fn)), List.pairwise_append]
    at sorted
  refine (resolveAll_other fun g early => Nat.ne_of_lt (sorted.2.2 g early f listed)).trans ?_
  obtain ⟨i, x, found, is⟩ := mem_fixes.mp (List.mem_of_mem_drop listed)
  have content : ∃ j, f.site = i + j ∧ (itemWords c x)[j]? = some f.kind.word := by
    cases x with
    | br k l =>
      obtain rfl := Option.some.inj is
      exact ⟨0, rfl, rfl⟩
    | tick l =>
      obtain rfl := Option.some.inj is
      exact ⟨5, rfl, rfl⟩
    | word w => cases is
    | lab l => cases is
    | fn n => cases is
  obtain ⟨j, site, word⟩ := content
  obtain ⟨k, word', place⟩ := raw_at found word
  rw [site, place]
  exact store_at word'

theorem finished_compiled (closed : fn.body.cases = [])
    (few : (finished c fn s).nlab ≤ maxLab) :
    Compiled c (finished c fn s).buf (finished c fn s).labOff s.pos (funcItems c fn) where
  word i w found := finished_line fn s (j := 0) found rfl fun f is => by cases is
  tick i e found j w is := by
    have early : j < 5 := (List.getElem?_eq_some_iff.mp is).1
    refine finished_line fn s found ?_ fun f site => ?_
    · have longer : itemWords c (.tick e) =
          (loadimm x9 c.tick ++ [blr x9]) ++ [BrKind.word .cbz] := rfl
      rw [longer, List.getElem?_append_left early]
      exact is
    · obtain rfl := Option.some.inj site
      change i + 5 ≠ i + j
      omega
  fn i n found j inside := by
    refine ⟨0, ?_⟩
    have word : (itemWords c (.fn n))[j]? = some ((loadimm x9 0).get ⟨j, inside⟩) :=
      List.getElem?_eq_getElem inside
    rw [finished_line fn s found word fun f site => by cases site]
    exact List.getElem_mem inside
  fix f listed := resolveAll_site ((fixes_sorted _ _).sublist (List.take_sublist _ _)) listed
  left f listed := finished_left fn s listed
  lab i k found := by
    have range := func_places c k closed
    have once : places k (funcItems c fn) ≤ 1 := by
      unfold among at range
      split_ifs at range
      · exact range
      · omega
    refine relabel_at once ?_ found
    have placed := places_pos found
    unfold among at range
    split_ifs at range with inside
    · change 1 + stmtLabels fn.body ≤ maxLab at few
      omega
    · omega

end Functions

section Program

variable {c : Ctx}

def listing (c : Ctx) (funcs : List Func) : List Item := funcs.flatMap (funcItems c)

theorem listing_cons (fn : Func) (rest : List Func) :
    listing c (fn :: rest) = funcItems c fn ++ listing c rest := List.flatMap_cons

def starts (c : Ctx) : Nat → List Func → List Nat
  | _, [] => []
  | p, fn :: rest => p :: starts c (p + width (funcItems c fn)) rest

variable {buf : Nat → Word} {p i : Nat} {l : List Item} {funcs : List Func} {x : Item}

theorem Compiled.congr {buf' : Nat → Word} {labAt : Nat → Nat}
    (same : ∀ i, p ≤ i → i < p + width l → buf' i = buf i) (compiled : Compiled c buf labAt p l) :
    Compiled c buf' labAt p l := by
  have inside {i j : Nat} {x : Item} (found : At p l i x) (less : j < size x) :
      buf' (i + j) = buf (i + j) := by
    have range := found.range
    exact same _ (by omega) (by omega)
  have site {f : Fix} (listed : f ∈ fixes p l) : buf' f.site = buf f.site := by
    obtain ⟨i, x, found, is⟩ := mem_fixes.mp listed
    have range := found.range
    have near := fix_range is
    exact same _ (by omega) (by omega)
  refine ⟨fun i w found => ?_, fun i e found j w is => ?_, fun i n found j less => ?_,
    fun f listed => ?_, fun f listed => ?_, compiled.lab⟩
  · rw [← compiled.word i w found]
    exact inside (j := 0) found Nat.one_pos
  · have early : j < 5 := (List.getElem?_eq_some_iff.mp is).1
    rw [inside found (show j < 6 by omega)]
    exact compiled.tick i e found j w is
  · rw [inside found less]
    exact compiled.fn i n found j less
  · rw [site (List.mem_of_mem_take listed)]
    exact compiled.fix f listed
  · rw [site (List.mem_of_mem_drop listed)]
    exact compiled.left f listed

variable {fn : Func} {s : Gen}

theorem finished_before (before : i < s.pos) :
    (finished c fn s).buf i = s.buf i := by
  refine (resolveAll_other fun f listed same => ?_).trans (store_before _ before)
  obtain ⟨j, x, found, is⟩ := mem_fixes.mp (List.mem_of_mem_take listed)
  have range := found.range
  have near := fix_range is
  omega

theorem calls_append (p : Nat) (l m : List Item) :
    calls p (l ++ m) = calls p l ++ calls (p + width l) m := by
  induction l generalizing p with
  | nil => rfl
  | cons x l ih =>
    rw [List.cons_append, calls_cons, ih, calls_cons p x l, List.append_assoc, width,
      Nat.add_assoc]

structure Generated (c : Ctx) (funcs : List Func) (s last : Gen) (offs : List Nat) : Prop where
  starts : offs = starts c s.pos funcs
  pos : last.pos = s.pos + width (listing c funcs)
  fits : Fits c last
  before : ∀ i, i < s.pos → last.buf i = s.buf i
  calls : last.cfx = (s.cfx ++ calls s.pos (listing c funcs)).take maxCfx
  code : ∀ (k : Nat) (fn : Func) (p : Nat), funcs[k]? = some fn → offs[k]? = some p →
    ∃ labAt, Compiled c last.buf labAt p (funcItems c fn)

theorem genFuncs_generated {last : Gen} {offs : List Nat}
    (closed : ∀ fn ∈ funcs, fn.body.cases = []) (few : s.cfx.length ≤ maxCfx)
    (labels : s.nlab ≤ maxLab) (fits : Fits c s)
    (run : genFuncs c funcs s = some (offs, last)) : Generated c funcs s last offs := by
  induction funcs generalizing s offs with
  | nil =>
    obtain ⟨rfl, rfl⟩ := Prod.mk.inj (Option.some.inj run)
    refine ⟨rfl, rfl, fits, fun _ _ => rfl, ?_, fun k fn p is => by simp at is⟩
    rw [listing, List.flatMap_nil, Installed.calls, List.append_nil, List.take_of_length_le few]
  | cons fn rest ih =>
    rw [genFuncs] at run
    dsimp only at run
    split_ifs at run with bad
    have fine' : ((genFunc c fn).run s).2.err = none := by
      cases is : ((genFunc c fn).run s).2.err with
      | none => rfl
      | some msg => exact absurd (.inl (by rw [is]; rfl)) bad
    have room : ((genFunc c fn).run s).2.oom = false := by
      cases is : ((genFunc c fn).run s).2.oom with
      | false => rfl
      | true => exact absurd (.inr is) bad
    have labels' := ((genFunc c fn).keeps s).labels labels
    have fits' := genFunc_fits c fits fine' room
    rw [genFunc_run c few fine' room] at run labels' fits'
    obtain ⟨⟨offs', last'⟩, others, is⟩ := Option.map_eq_some_iff.mp run
    obtain ⟨rfl, rfl⟩ := Prod.mk.inj is
    have later := ih (fun g listed => closed g (List.mem_cons_of_mem fn listed))
      (List.length_take_le _ _) labels' fits' others
    refine ⟨?_, ?_, later.fits, fun i before => ?_, ?_, fun k g p has place => ?_⟩
    · rw [later.starts]
      rfl
    · rw [later.pos, listing_cons, width_append]
      exact Nat.add_assoc _ _ _
    · rw [later.before i (Nat.lt_of_lt_of_le before (Nat.le_add_right _ _))]
      exact finished_before before
    · rw [later.calls, listing_cons, calls_append, ← List.append_assoc]
      exact take_append_take _ _ _
    · cases k with
      | zero =>
        obtain rfl := Option.some.inj has
        obtain rfl := Option.some.inj place
        refine ⟨_, (finished_compiled fn s (closed fn List.mem_cons_self) labels').congr ?_⟩
        intro i _ inside
        exact later.before i inside
      | succ k => exact later.code k g p has place

theorem At.append_left {m : List Item} (found : At p l i x) :
    At p (l ++ m) i x := by
  obtain ⟨before, rest, rfl, rfl⟩ := found
  exact ⟨before, rest ++ m, by simp, rfl⟩

theorem At.append_right {m : List Item} (found : At (p + width l) m i x) :
    At p (l ++ m) i x := by
  obtain ⟨before, rest, rfl, rfl⟩ := found
  exact ⟨l ++ before, rest, by simp, by simp [Nat.add_assoc]⟩

theorem At.listing {q k : Nat} (has : funcs[k]? = some fn) (place : (starts c q funcs)[k]? = some p)
    (found : At p (funcItems c fn) i x) : At q (Installed.listing c funcs) i x := by
  induction funcs generalizing q k with
  | nil => simp at has
  | cons g rest ih =>
    cases k with
    | zero =>
      obtain rfl := Option.some.inj has
      obtain rfl := Option.some.inj place
      exact found.append_left
    | succ k => exact At.append_right (ih has place)

theorem patchCall_other {site : Nat} {v : BitVec 64}
    (other : i < site ∨ site + 4 ≤ i) : patchCall buf site v i = buf i := by
  simp only [patchCall, loadimm, List.zipIdx_cons, List.zipIdx_nil, List.foldl_cons,
    List.foldl_nil, put]
  have apart : i ≠ site + 0 ∧ i ≠ site + (0 + 1) ∧ i ≠ site + (0 + 1 + 1) ∧
      i ≠ site + (0 + 1 + 1 + 1) := by omega
  rw [if_neg apart.2.2.2, if_neg apart.2.2.1, if_neg apart.2.1, if_neg apart.1]

theorem patchCall_inside {site j : Nat} {v : BitVec 64} (inside : j < 4) :
    patchCall buf site v (site + j) ∈ loadimm x9 v := by
  have cases : j = 0 ∨ j = 1 ∨ j = 2 ∨ j = 3 := by omega
  rcases cases with rfl | rfl | rfl | rfl
  all_goals simp [patchCall, loadimm, put]

theorem patchCalls_at (offs : List Nat) (s : Gen) (i : Nat) :
    patchCalls c offs s i = s.buf i ∧ (∀ e ∈ s.cfx, i < e.1 ∨ e.1 + 4 ≤ i) ∨
      ∃ e ∈ s.cfx, e.1 ≤ i ∧ i < e.1 + 4 ∧ ∃ v, patchCalls c offs s i ∈ loadimm x9 v := by
  unfold patchCalls
  generalize s.buf = buf
  induction s.cfx generalizing buf with
  | nil => exact .inl ⟨rfl, fun e listed => by cases listed⟩
  | cons e rest ih =>
    obtain ⟨site, n⟩ := e
    rw [List.foldl_cons]
    rcases ih (patchCall buf site _) with ⟨same, apart⟩ | ⟨e, listed, within⟩
    · by_cases inside : site ≤ i ∧ i < site + 4
      · refine .inr ⟨(site, n), List.mem_cons_self, inside.1, inside.2,
          c.base + BitVec.ofNat 64 (4 * offs.getD n 0), ?_⟩
        obtain ⟨j, rfl⟩ := Nat.exists_eq_add_of_le inside.1
        rw [same]
        exact patchCall_inside (by omega)
      · refine .inl ⟨same.trans (patchCall_other (by omega)), fun f listed => ?_⟩
        rcases List.mem_cons.mp listed with rfl | later
        · change i < site ∨ site + 4 ≤ i
          omega
        · exact apart f later
    · exact .inr ⟨e, List.mem_cons_of_mem _ listed, within⟩

/-- The calls of functions of the program are patched, and nothing else. -/
theorem Compiled.patched {last : Gen} {offs : List Nat} {k : Nat} {labAt : Nat → Nat}
    (compiled : Compiled c last.buf labAt p (funcItems c fn))
    (gen : Generated c funcs s last offs) (none : s.cfx = [])
    (has : funcs[k]? = some fn) (place : offs[k]? = some p) :
    Compiled c (patchCalls c offs last) labAt p (funcItems c fn) := by
  rw [gen.starts] at place
  -- a patched word belongs to a call, and a line is a line of the whole program
  have same {i j : Nat} {x : Item} (found : At p (funcItems c fn) i x) (less : j < size x)
      (other : ∀ n, x ≠ .fn n) : patchCalls c offs last (i + j) = last.buf (i + j) := by
    rcases patchCalls_at (c := c) offs last (i + j) with ⟨is, _⟩ | ⟨e, listed, low, high, _⟩
    · exact is
    · rw [gen.calls, none, List.nil_append] at listed
      have call := mem_calls (List.mem_of_mem_take listed)
      obtain ⟨_, rfl⟩ := (found.listing has place).unique call (n := i + j) (by omega)
        ⟨low, high⟩
      exact absurd rfl (other e.2)
  have site {f : Fix} (listed : f ∈ fixes p (funcItems c fn)) :
      patchCalls c offs last f.site = last.buf f.site := by
    obtain ⟨i, x, found, is⟩ := mem_fixes.mp listed
    have near := fix_range is
    obtain ⟨j, site⟩ := Nat.exists_eq_add_of_le near.1
    rw [site]
    refine same found (by omega) fun n fn => ?_
    rw [fn] at is
    cases is
  refine ⟨fun i w found => ?_, fun i e found j w is => ?_, fun i n found j less => ?_,
    fun f listed => ?_, fun f listed => ?_, compiled.lab⟩
  · rw [← compiled.word i w found]
    exact same (j := 0) found Nat.one_pos fun n => by simp
  · have early : j < 5 := (List.getElem?_eq_some_iff.mp is).1
    rw [same found (show j < 6 by omega) fun n => by simp]
    exact compiled.tick i e found j w is
  · rcases patchCalls_at (c := c) offs last (i + j) with ⟨is, _⟩ | ⟨e, _, _, _, v, word⟩
    · rw [is]
      exact compiled.fn i n found j less
    · exact ⟨v, word⟩
  · rw [site (List.mem_of_mem_take listed)]
    exact compiled.fix f listed
  · rw [site (List.mem_of_mem_drop listed)]
    exact compiled.left f listed

/-- The setting of `cc_codegen`. -/
def setting (cap : Nat) (base : BitVec 64) (resolve : String → BitVec 64) (funcs : List Func) :
    Ctx :=
  ⟨cap, base, funcs.map Func.name, resolve⟩

theorem ccCodegen_some {cap : Nat} {base : BitVec 64} {resolve : String → BitVec 64}
    {labOff : Nat → Nat} {out : Output}
    :
    ccCodegen cap base resolve buf labOff funcs = some out ↔
      ∃ offs last i, genFuncs (setting cap base resolve funcs) funcs
          ⟨buf, 0, false, labOff, 0, [], [], none⟩ = some (offs, last) ∧
        (setting cap base resolve funcs).funcs.findIdx? (· = "main") = some i ∧
        out = ⟨patchCalls (setting cap base resolve funcs) offs last, last.pos, offs,
          offs.getD i 0⟩ := by
  unfold ccCodegen setting
  constructor
  · intro accepted
    dsimp only at accepted
    split at accepted
    · cases accepted
    · next offs last run =>
      split at accepted
      · cases accepted
      · next i main => exact ⟨offs, last, i, run, main, (Option.some.inj accepted).symm⟩
  · rintro ⟨offs, last, i, run, main, rfl⟩
    dsimp only
    rw [run]
    dsimp only
    rw [main]

theorem ccCodegen_compiled {cap : Nat} {base : BitVec 64} {resolve : String → BitVec 64}
    {labOff : Nat → Nat} {out : Output}
    (closed : ∀ fn ∈ funcs, fn.body.cases = [])
    (accepted : ccCodegen cap base resolve buf labOff funcs = some out) :
    out.offs = starts (setting cap base resolve funcs) 0 funcs ∧
      out.len = width (listing (setting cap base resolve funcs) funcs) ∧ 4 * out.len ≤ cap ∧
      ∀ (k : Nat) (fn : Func) (p : Nat), funcs[k]? = some fn → out.offs[k]? = some p →
        ∃ labAt, Compiled (setting cap base resolve funcs) out.buf labAt p
          (funcItems (setting cap base resolve funcs) fn) := by
  obtain ⟨offs, last, i, run, _, rfl⟩ := ccCodegen_some.mp accepted
  have gen : Generated (setting cap base resolve funcs) funcs
      ⟨buf, 0, false, labOff, 0, [], [], none⟩ last offs :=
    genFuncs_generated closed (Nat.zero_le _) (Nat.zero_le _) (Nat.zero_le _) run
  refine ⟨gen.starts, ?_, gen.fits, fun k fn p has place => ?_⟩
  · exact gen.pos.trans (Nat.zero_add _)
  · obtain ⟨labAt, compiled⟩ := gen.code k fn p has place
    exact ⟨labAt, compiled.patched gen rfl has place⟩

end Program

end XinuRpi5.Cc.Installed
