/- source: cc/codegen.c
   digest: What a program asks of the code buffer and of the label stacks. -/

import Mathlib.Algebra.GroupWithZero.Nat
import XinuRpi5.Cc.Assembly
import XinuRpi5.Cc.LoopStacks

/-!
A script is the shape of the code for a piece of the program: how many words and branches it has,
which labels it takes, where an error stops it, and which places of the label stacks it uses. It
does not look at a buffer.
-/

namespace XinuRpi5.Cc.CodeRoom

open Lib.RuledState Codegen LoopStacks

section Scripts

/-- A word, a branch, the four words of an address that is filled in later, and the use of a place
of a label stack. -/
inductive Line where
  | word
  | branch
  | call
  | use (i : Nat)

def Line.words : Line → Nat
  | .word => 1
  | .branch => 1
  | .call => 4
  | .use _ => 0

inductive Script where
  | nothing
  | line (l : Line)
  | label
  | fail
  | unlessFailed (p : Script)
  | seq (p q : Script)

def Script.all : List Script → Script
  | [] => .nothing
  | [p] => p
  | p :: q :: rest => .seq p (.all (q :: rest))

def Script.words : Nat → Script
  | 0 => .nothing
  | n + 1 => .seq (.line .word) (.words n)

structure Draft where
  labels : Nat
  failed : Bool

def Script.lines : Script → Draft → List Line × Draft
  | .nothing, d => ([], d)
  | .line l, d => ([l], d)
  | .label, d =>
    if maxLab ≤ d.labels then ([], { d with failed := true })
    else ([], { d with labels := d.labels + 1 })
  | .fail, d => ([], { d with failed := true })
  | .unlessFailed p, d => if d.failed then ([], d) else p.lines d
  | .seq p q, d =>
    let (l, d) := p.lines d
    let (m, d) := q.lines d
    (l ++ m, d)

variable (c : Ctx) (offsets : List Int)

def varScript : VarRef → Script
  | .glob _ => .words 4
  | .loc i => if offsets.getD i 0 ≤ 0xFFF then .line .word else .seq (.words 4) (.line .word)

def offScript (off : Int) : Script := if off = 0 then .nothing else .line .word

def loadScript : Option Ty → Script
  | some ty => if ty.kind = .array then .nothing else .line .word
  | none => .line .word

def targetScript (funcname : String) : Script :=
  match c.funcs.findIdx? (· = funcname) with
  | some _ => .seq (.line .call) (.line .word)
  | none => if c.resolve funcname = 0 then .fail else .seq (.words 4) (.line .word)

def budgetScript : Script :=
  if c.tick = 0 then .nothing else .all [.words 4, .line .word, .line .branch]

mutual

def addrScript : Expr → Script
  | .var v _ => varScript offsets v
  | .deref e _ => exprScript e
  | .member e off _ => .seq (addrScript e) (offScript off)
  | .str _ => .words 4
  | _ => .fail

def exprScript : Expr → Script
  | .num _ => .unlessFailed (.words 4)
  | .str _ => .unlessFailed (.words 4)
  | .var v ty => .unlessFailed (.seq (varScript offsets v) (loadScript ty))
  | .assign lhs rhs => .unlessFailed <|
    .all [addrScript lhs, .line .word, exprScript rhs, .line .word, .line .word]
  | .deref e ty => .unlessFailed (.seq (exprScript e) (loadScript ty))
  | .member e off ty => .unlessFailed (.all [addrScript e, offScript off, loadScript ty])
  | .addr e => .unlessFailed (addrScript e)
  | .neg e => .unlessFailed (.seq (exprScript e) (.line .word))
  | .not e => .unlessFailed (.all [exprScript e, .line .word, .line .word])
  | .logand l r => .unlessFailed <|
    .all [.label, .label, exprScript l, .line .branch, exprScript r, .line .branch, .line .word,
      .line .branch, .line .word]
  | .logor l r => .unlessFailed <|
    .all [.label, .label, exprScript l, .line .word, .line .branch, exprScript r, .line .branch,
      .line .word, .line .branch, .line .word]
  | .bin op l r => .unlessFailed <|
    .all [exprScript r, .line .word, exprScript l, .line .word, .words (opWords op).length]
  | .call funcname args => .unlessFailed <|
    .all [if 8 < args.length then .fail else .nothing, argsScript args 8,
      .words (min args.length 8), targetScript c funcname]

def argsScript : List Expr → Nat → Script
  | arg :: rest, left + 1 => .all [exprScript arg, .line .word, argsScript rest left]
  | _, _ => .nothing

end

def casesScript : List (Option (BitVec 64)) → Script
  | [] => .nothing
  | none :: rest => .seq .label (casesScript rest)
  | some _ :: rest => .all [.label, .words 4, .line .word, .line .branch, casesScript rest]

def condScript : Option Expr → Script
  | some cond => .seq (exprScript c offsets cond) (.line .branch)
  | none => .nothing

def incScript : Option Expr → Script
  | some inc => exprScript c offsets inc
  | none => .nothing

mutual

/-- The script of a statement in `b` loops and switches, `k` of them loops. -/
def stmtScript (b k : Nat) : Stmt → Script
  | .null => .nothing
  | .expr e => .unlessFailed (exprScript c offsets e)
  | .ret e => .unlessFailed (.seq (exprScript c offsets e) (.line .branch))
  | .ite cond yes no => .unlessFailed <|
    .all [.label, .label, exprScript c offsets cond, .line .branch, stmtScript b k yes,
      .line .branch, stmtScript b k no]
  | .wloop cond body => .unlessFailed <|
    .all [.label, .label, exprScript c offsets cond, .line .branch, .line (.use b), .line (.use k),
      stmtScript (b + 1) (k + 1) body, budgetScript c, .line .branch]
  | .floop init cond inc body => .unlessFailed <|
    .all [.label, .label, .label, stmtScript b k init, condScript c offsets cond, .line (.use b),
      .line (.use k), stmtScript (b + 1) (k + 1) body, incScript c offsets inc, budgetScript c,
      .line .branch]
  | .switch cond body => .unlessFailed <|
    .all [.label, exprScript c offsets cond, casesScript body.cases.reverse, .line .branch,
      .line (.use b), stmtScript (b + 1) k body]
  | .case _ body => .unlessFailed (stmtScript b k body)
  | .brk => .unlessFailed (if 0 < b then .seq (.line (.use (b - 1))) (.line .branch) else .fail)
  | .cont => .unlessFailed (if 0 < k then .seq (.line (.use (k - 1))) (.line .branch) else .fail)
  | .block body => .unlessFailed (stmtsScript b k body)

def stmtsScript (b k : Nat) : List Stmt → Script
  | [] => .nothing
  | s :: rest => .seq (stmtScript b k s) (stmtsScript b k rest)

end

def frameScript (frame : Int) : Script :=
  if 0 < frame then
    if frame ≤ 0xFFF then .line .word else .seq (.words 4) (.line .word)
  else .nothing

def paramScript (offset : Int) : Script :=
  if offset ≤ 0xFFF then .all [.line .word, .line .word]
  else .all [.words 4, .line .word, .line .word]

def paramsScript : List Nat → Script
  | [] => .nothing
  | v :: rest => .seq (paramScript (offsets.getD v 0)) (paramsScript rest)

def entryScript (fn : Func) : Script :=
  .all [.line .word, .line .word, frameScript (assignOffsets fn.locals).2,
    paramsScript (assignOffsets fn.locals).1 fn.params]

def exitScript : Script := .all [.line .word, .line .word, .line .word, .line .word]

def funcScript (fn : Func) : Script :=
  .all [.label, entryScript fn, stmtScript c (assignOffsets fn.locals).1 0 0 fn.body, exitScript]

end Scripts

def size (l : List Line) : Nat := (l.map Line.words).sum

def branches : Nat → List Line → List Nat
  | _, [] => []
  | pos, .branch :: rest => pos :: branches (pos + 1) rest
  | pos, l :: rest => branches (pos + l.words) rest

def uses : List Line → List Nat
  | [] => []
  | .use i :: rest => i :: uses rest
  | _ :: rest => uses rest

def listing (c : Ctx) (fn : Func) : List Line × Draft := (funcScript c fn).lines ⟨0, false⟩

/-- A function that stands at a place: at most 64 loops and switches inside each other, and each of
the branches that are noted, the first 2048, in front of the end of the buffer. -/
structure Inside (c : Ctx) (pos : Nat) (fn : Func) : Prop where
  depth : ∀ i ∈ uses (listing c fn).1, i < 64
  room : ∀ p ∈ (branches pos (listing c fn).1).take maxBfx, 4 * p + 4 ≤ c.cap

def Fits (c : Ctx) (pos : Nat) (fn : Func) : Prop :=
  (listing c fn).2.failed = false ∧ 4 * (pos + size (listing c fn).1) ≤ c.cap

/-- Every function that is generated stays inside: those up to the first that fails. -/
def AllInside (c : Ctx) : Nat → List Func → Prop
  | _, [] => True
  | pos, fn :: rest =>
    Inside c pos fn ∧ (Fits c pos fn → AllInside c (pos + size (listing c fn).1) rest)

def AllFit (c : Ctx) : Nat → List Func → Prop
  | _, [] => True
  | pos, fn :: rest => Fits c pos fn ∧ AllFit c (pos + size (listing c fn).1) rest

section Following

/-- What the lines change of the generator: the place, the overflow, and the sites that are
noted. -/
structure Track where
  pos : Nat
  oom : Bool
  sites : List Nat
  calls : List Nat

def Track.word (cap : Nat) (t : Track) : Track :=
  if cap < 4 * t.pos + 4 then { t with oom := true } else { t with pos := t.pos + 1 }

def Track.note (t : Track) : Track :=
  { t with sites := if t.sites.length < maxBfx then t.sites ++ [t.pos] else t.sites }

def Track.noteCall (t : Track) : Track :=
  { t with calls := if t.calls.length < maxCfx then t.calls ++ [t.pos] else t.calls }

def Track.step (cap : Nat) (t : Track) : Line → Track
  | .word => t.word cap
  | .branch => t.note.word cap
  | .call => (((t.noteCall.word cap).word cap).word cap).word cap
  | .use _ => t

def follow (cap : Nat) (l : List Line) (t : Track) : Track := l.foldl (Track.step cap) t

def track (g : Gen) : Track := ⟨g.pos, g.oom, g.bfx.map Fix.site, g.cfx.map Prod.fst⟩

def draft (g : Gen) : Draft := ⟨g.nlab, g.err.isSome⟩

/-- The generator has done what the lines say, and written nothing behind the capacity. -/
structure Agrees (cap : Nat) (g h : Gen) (r : List Line × Draft) : Prop where
  draft : draft h = r.2
  track : track h = follow cap r.1 (track g)
  beyond : ∀ i, cap < 4 * i + 4 → h.buf i = g.buf i

variable {c : Ctx} {α β : Type}

theorem Agrees.nothing (cap : Nat) (g : Gen) : Agrees cap g g ([], CodeRoom.draft g) :=
  ⟨rfl, rfl, fun _ _ => rfl⟩

theorem Agrees.append {cap : Nat} {g h k : Gen} {l m : List Line} {d e : Draft}
    (first : Agrees cap g h (l, d)) (rest : Agrees cap h k (m, e)) :
    Agrees cap g k (l ++ m, e) := by
  refine ⟨rest.draft, ?_, fun i past => (rest.beyond i past).trans (first.beyond i past)⟩
  rw [rest.track, first.track]
  exact List.foldl_append.symm

/-- A program does what the script says, and the script uses no label stack. -/
def Follows (c : Ctx) (p : Prog sticky α) (sc : Script) : Prop :=
  ∀ g, Agrees c.cap g (p.run g).2 (sc.lines (draft g)) ∧ uses (sc.lines (draft g)).1 = []

theorem uses_append (l m : List Line) : uses (l ++ m) = uses l ++ uses m := by
  induction l with
  | nil => rfl
  | cons x l later =>
    cases x with
    | word => exact later
    | branch => exact later
    | call => exact later
    | use i => exact congrArg (i :: ·) later

variable {p : Prog sticky α}

theorem Follows.bind {q : α → Prog sticky β} {sc sc' : Script}
    (first : Follows c p sc) (rest : ∀ a, Follows c (q a) sc') :
    Follows c (p >>= q) (.seq sc sc') := by
  intro g
  obtain ⟨one, plain⟩ := first g
  obtain ⟨two, plain'⟩ := rest (p.run g).1 (p.run g).2
  rw [one.draft] at two plain'
  refine ⟨Agrees.append one two, ?_⟩
  show uses (_ ++ _) = []
  rw [uses_append, plain, plain']
  rfl

theorem Follows.nothing (a : α) : Follows c (pure a) .nothing :=
  fun g => ⟨Agrees.nothing _ g, rfl⟩

theorem Follows.skip {q : Prog sticky β} {sc : Script}
    (silent : Follows c p .nothing) (rest : Follows c q sc) : Follows c (p >>= fun _ => q) sc :=
  fun g => (silent.bind fun _ => rest) g

theorem Follows.ends {q : α → Prog sticky β} {sc : Script}
    (first : Follows c p sc) (silent : ∀ a, Follows c (q a) .nothing) :
    Follows c (p >>= q) sc := by
  intro g
  have both := (first.bind silent) g
  have same : (Script.seq sc .nothing).lines (draft g) = sc.lines (draft g) := by
    show ((sc.lines (draft g)).1 ++ [], (sc.lines (draft g)).2) = _
    rw [List.append_nil]
  rw [same] at both
  exact both

theorem Follows.place (l : Nat) : Follows c (place l) .nothing := by
  intro g
  show Agrees c.cap g (if l < maxLab then _ else g) _ ∧ _
  split_ifs
  · exact ⟨⟨rfl, rfl, fun _ _ => rfl⟩, rfl⟩
  · exact ⟨Agrees.nothing _ g, rfl⟩

theorem emit_agrees (w : Word) (g : Gen) :
    Agrees c.cap g ((emit c w).run g).2 ([.word], draft g) := by
  show Agrees c.cap g (if c.cap < 4 * g.pos + 4 then _ else _) _
  by_cases full : c.cap < 4 * g.pos + 4
  · rw [if_pos full]
    refine ⟨rfl, ?_, fun _ _ => rfl⟩
    exact (if_pos full).symm
  · rw [if_neg full]
    refine ⟨rfl, (if_neg full).symm, fun i past => ?_⟩
    have other : i ≠ g.pos := by
      rintro rfl
      exact full past
    exact if_neg other

theorem Follows.word (w : Word) : Follows c (emit c w) (.line .word) :=
  fun g => ⟨emit_agrees w g, rfl⟩

theorem Follows.words (l : List Word) : Follows c (emitAll c l) (.words l.length) := by
  induction l with
  | nil => exact Follows.nothing ()
  | cons w l later => exact (Follows.word w).bind fun _ => later

theorem Follows.branch (k : BrKind) (l : Nat) :
    Follows c (emitBranch c k l) (.line .branch) := by
  intro g
  have emitted := emit_agrees (c := c) k.word ((noteBranch k l).run g).2
  refine ⟨⟨emitted.draft.trans ?_, emitted.track.trans ?_, fun i past => ?_⟩, rfl⟩
  · show draft (if g.bfx.length < maxBfx then _ else g) = draft g
    split_ifs
    · rfl
    · rfl
  · have noted : track ((noteBranch k l).run g).2 = (track g).note := by
      show track (if g.bfx.length < maxBfx then _ else g) = _
      unfold Track.note
      simp only [track, List.length_map]
      split_ifs
      · simp
      · rfl
    rw [noted]
    rfl
  · refine (emitted.beyond i past).trans ?_
    show (if g.bfx.length < maxBfx then _ else g : Gen).buf i = g.buf i
    split_ifs
    · rfl
    · rfl

theorem Follows.call (fn : Nat) :
    Follows c (noteCall fn >>= fun _ => emitAll c (loadimm x9 0)) (.line .call) := by
  intro g
  have emitted := (Follows.words (c := c) (loadimm x9 0) ((noteCall fn).run g).2).1
  refine ⟨⟨emitted.draft.trans ?_, emitted.track.trans ?_, fun i past => ?_⟩, rfl⟩
  · show draft (if g.cfx.length < maxCfx then _ else g) = draft g
    split_ifs
    · rfl
    · rfl
  · have noted : track ((noteCall fn).run g).2 = (track g).noteCall := by
      show track (if g.cfx.length < maxCfx then _ else g) = _
      unfold Track.noteCall
      simp only [track, List.length_map]
      split_ifs
      · simp
      · rfl
    rw [noted]
    rfl
  · refine (emitted.beyond i past).trans ?_
    show (if g.cfx.length < maxCfx then _ else g : Gen).buf i = g.buf i
    split_ifs
    · rfl
    · rfl

theorem Follows.label : Follows c newlabel .label := by
  intro g
  rw [Assembly.newlabel_run]
  unfold Script.lines
  by_cases full : maxLab ≤ g.nlab
  · have same : maxLab ≤ (draft g).labels := full
    rw [if_pos full, if_pos same]
    exact ⟨⟨rfl, rfl, fun _ _ => rfl⟩, rfl⟩
  · have same : ¬ maxLab ≤ (draft g).labels := full
    rw [if_neg full, if_neg same]
    exact ⟨⟨rfl, rfl, fun _ _ => rfl⟩, rfl⟩

theorem Follows.fail (msg : String) : Follows c (ccError msg) .fail :=
  fun _ => ⟨⟨rfl, rfl, fun _ _ => rfl⟩, rfl⟩

theorem Follows.unlessFailed {p : Prog sticky Unit} {sc : Script} (inner : Follows c p sc) :
    Follows c (Codegen.unlessFailed p) (.unlessFailed sc) := by
  intro g
  show Agrees c.cap g (Prog.run (if g.err.isSome then pure () else p) g).2
    (if g.err.isSome then _ else _) ∧ uses (Prod.fst (if g.err.isSome then _ else _)) = []
  split_ifs
  · exact ⟨Agrees.nothing _ g, rfl⟩
  · exact inner g

end Following

section Expressions

variable (c : Ctx) (offsets : List Int)

theorem genVar_follows (v : VarRef) : Follows c (genVar c offsets v) (varScript offsets v) := by
  cases v with
  | glob gaddr => exact .words _
  | loc i =>
    unfold genVar varScript
    dsimp only
    split_ifs
    · exact .word _
    · exact (Follows.words _).bind fun _ => .word _

theorem genOff_follows (off : Int) : Follows c (genOff c off) (offScript off) := by
  unfold genOff offScript
  split_ifs
  · exact .nothing ()
  · exact .word _

theorem genLoad_follows (ty : Option Ty) : Follows c (genLoad c ty) (loadScript ty) := by
  cases ty with
  | none => exact .word _
  | some ty =>
    unfold genLoad loadScript
    dsimp only
    split_ifs
    · exact .nothing ()
    · exact .word _
    · exact .word _

theorem genStore_follows (ty : Option Ty) : Follows c (genStore c ty) (.line .word) := by
  cases ty with
  | none => exact .word _
  | some ty =>
    unfold genStore
    dsimp only
    split_ifs
    · exact .word _
    · exact .word _

theorem genTarget_follows (funcname : String) :
    Follows c (genTarget c funcname) (targetScript c funcname) := by
  unfold genTarget targetScript
  cases c.funcs.findIdx? (· = funcname) with
  | some fn =>
    intro g
    exact ((Follows.call fn).bind fun _ => .word (blr x9)) g
  | none =>
    dsimp only
    split_ifs
    · exact .fail _
    · exact (Follows.words _).bind fun _ => .word _

theorem emitBudgetCheck_follows (l : Nat) :
    Follows c (emitBudgetCheck c l) (budgetScript c) := by
  unfold emitBudgetCheck budgetScript
  split_ifs
  · exact .nothing ()
  · exact (Follows.words _).bind fun _ => (Follows.word _).bind fun _ => .branch _ _

theorem popWords_length (n : Nat) : (popWords n).length = n := by
  induction n with
  | zero => rfl
  | succ n later => exact congrArg (· + 1) later

mutual

theorem genAddr_follows : ∀ e : Expr, Follows c (genAddr c offsets e) (addrScript c offsets e)
  | .var v _ => genVar_follows c offsets v
  | .deref e _ => genExpr_follows e
  | .member e off _ => (genAddr_follows e).bind fun _ => genOff_follows c off
  | .str _ => Follows.words _
  | .num _ => Follows.fail _
  | .assign _ _ => Follows.fail _
  | .addr _ => Follows.fail _
  | .neg _ => Follows.fail _
  | .not _ => Follows.fail _
  | .logand _ _ => Follows.fail _
  | .logor _ _ => Follows.fail _
  | .bin _ _ _ => Follows.fail _
  | .call _ _ => Follows.fail _

theorem genExpr_follows : ∀ e : Expr, Follows c (genExpr c offsets e) (exprScript c offsets e)
  | .num _ => Follows.unlessFailed (Follows.words _)
  | .str _ => Follows.unlessFailed (Follows.words _)
  | .var v ty =>
    Follows.unlessFailed ((genVar_follows c offsets v).bind fun _ => genLoad_follows c ty)
  | .assign lhs rhs =>
    Follows.unlessFailed ((genAddr_follows lhs).bind fun _ => (Follows.word _).bind fun _ =>
      (genExpr_follows rhs).bind fun _ => (Follows.word _).bind fun _ => genStore_follows c lhs.ty)
  | .deref e ty => Follows.unlessFailed ((genExpr_follows e).bind fun _ => genLoad_follows c ty)
  | .member e off ty =>
    Follows.unlessFailed ((genAddr_follows e).bind fun _ => (genOff_follows c off).bind fun _ =>
      genLoad_follows c ty)
  | .addr e => Follows.unlessFailed (genAddr_follows e)
  | .neg e => Follows.unlessFailed ((genExpr_follows e).bind fun _ => Follows.word _)
  | .not e =>
    Follows.unlessFailed ((genExpr_follows e).bind fun _ => (Follows.word _).bind fun _ =>
      Follows.word _)
  | .logand l r =>
    Follows.unlessFailed (Follows.label.bind fun _ => Follows.label.bind fun _ =>
      (genExpr_follows l).bind fun _ => (Follows.branch _ _).bind fun _ =>
      (genExpr_follows r).bind fun _ => (Follows.branch _ _).bind fun _ =>
      (Follows.word _).bind fun _ => (Follows.branch _ _).bind fun _ =>
      (Follows.place _).skip ((Follows.word _).ends fun _ => Follows.place _))
  | .logor l r =>
    Follows.unlessFailed (Follows.label.bind fun _ => Follows.label.bind fun _ =>
      (genExpr_follows l).bind fun _ => (Follows.word _).bind fun _ =>
      (Follows.branch _ _).bind fun _ => (genExpr_follows r).bind fun _ =>
      (Follows.branch _ _).bind fun _ => (Follows.word _).bind fun _ =>
      (Follows.branch _ _).bind fun _ =>
      (Follows.place _).skip ((Follows.word _).ends fun _ => Follows.place _))
  | .bin _ l r =>
    Follows.unlessFailed ((genExpr_follows r).bind fun _ => (Follows.word _).bind fun _ =>
      (genExpr_follows l).bind fun _ => (Follows.word _).bind fun _ => Follows.words _)
  | .call funcname args => by
    have pops := Follows.words (c := c) (popWords (min args.length 8))
    rw [popWords_length] at pops
    have rest := (genArgs_follows args 8).bind fun _ => pops.bind fun _ =>
      genTarget_follows c funcname
    refine Follows.unlessFailed
      (?_ : Follows c _ (.seq (if 8 < args.length then .fail else .nothing) _))
    split_ifs
    · exact (Follows.fail _).bind fun _ => rest
    · exact (Follows.nothing ()).bind fun _ => rest

theorem genArgs_follows : ∀ (args : List Expr) (left : Nat),
    Follows c (genArgs c offsets args left) (argsScript c offsets args left)
  | [], _ => Follows.nothing ()
  | _ :: _, 0 => Follows.nothing ()
  | arg :: rest, left + 1 =>
    (genExpr_follows arg).bind fun _ => (Follows.word _).bind fun _ => genArgs_follows rest left

end

theorem genCases_follows (cases : List (Option (BitVec 64))) :
    Follows c (genCases c cases) (casesScript cases) := by
  induction cases with
  | nil => exact .nothing _
  | cons val rest later =>
    cases val with
    | none =>
      exact Follows.label.bind fun _ => later.ends fun _ => .nothing _
    | some val =>
      exact Follows.label.bind fun _ => (Follows.words _).bind fun _ =>
        (Follows.word _).bind fun _ => (Follows.branch _ _).bind fun _ => later.ends fun _ => .nothing _

theorem genCond_follows (lend : Nat) (cond : Option Expr) :
    Follows c (genCond c offsets lend cond) (condScript c offsets cond) := by
  cases cond with
  | none => exact .nothing ()
  | some cond => exact (genExpr_follows c offsets cond).bind fun _ => .branch _ _

theorem genInc_follows (inc : Option Expr) :
    Follows c (genInc c offsets inc) (incScript c offsets inc) := by
  cases inc with
  | none => exact .nothing ()
  | some inc => exact genExpr_follows c offsets inc

end Expressions

section Statements

/-- The generator with its stacks has done what the lines say, and the stacks are so high. -/
structure Moved (cap : Nat) (s t : Stacks) (r : List Line × Draft) (b k : Nat) : Prop where
  agrees : Agrees cap s.gen t.gen r
  used : t.used = s.used ++ uses r.1
  brk : t.brkTop = b
  cont : t.contTop = k

/-- From stacks of one height a program does what the script says, and leaves another. -/
def Moves {α : Type} (c : Ctx) (b k : Nat) (p : Step α) (sc : Script) (b' k' : Nat) : Prop :=
  ∀ s : Stacks, s.brkTop = b → s.contTop = k →
    Moved c.cap s (p s).2 (sc.lines (draft s.gen)) b' k'

variable {c : Ctx} {α β : Type} {b k b' k' b'' k'' : Nat} {sc sc' : Script}

theorem Moves.code {p : Prog sticky α} (follows : Follows c p sc) :
    Moves c b k (LoopStacks.code p) sc b k := by
  intro s brk cont
  obtain ⟨agrees, plain⟩ := follows s.gen
  refine ⟨agrees, ?_, brk, cont⟩
  rw [plain]
  exact (List.append_nil _).symm

theorem Moves.bind {p : Step α} {q : α → Step β} (first : Moves c b k p sc b' k')
    (rest : ∀ a, Moves c b' k' (q a) sc' b'' k'') :
    Moves c b k (p >>= q) (.seq sc sc') b'' k'' := by
  intro s brk cont
  have one := first s brk cont
  have two := rest (p s).1 (p s).2 one.brk one.cont
  rw [one.agrees.draft] at two
  refine ⟨Agrees.append one.agrees two.agrees, ?_, two.brk, two.cont⟩
  show (q (p s).1 (p s).2).2.used = s.used ++ uses (_ ++ _)
  rw [two.used, one.used, uses_append, List.append_assoc]

theorem Moves.skip {p : Step α} {q : Step β} (silent : Moves c b k p .nothing b' k')
    (rest : Moves c b' k' q sc b'' k'') : Moves c b k (p >>= fun _ => q) sc b'' k'' :=
  fun s brk cont => (silent.bind fun _ => rest) s brk cont

theorem Moves.ends {p : Step α} {q : α → Step β} (first : Moves c b k p sc b' k')
    (silent : ∀ a, Moves c b' k' (q a) .nothing b'' k'') : Moves c b k (p >>= q) sc b'' k'' := by
  intro s brk cont
  have both := (first.bind silent) s brk cont
  have same : (Script.seq sc .nothing).lines (draft s.gen) = sc.lines (draft s.gen) := by
    show ((sc.lines (draft s.gen)).1 ++ [], (sc.lines (draft s.gen)).2) = _
    rw [List.append_nil]
  rw [same] at both
  exact both

theorem Moves.place (l : Nat) : Moves c b k (LoopStacks.code (Codegen.place l)) .nothing b k :=
  .code (.place l)

theorem Moves.unlessFailed {p : Step Unit} (inner : Moves c b k p sc b k) :
    Moves c b k (LoopStacks.unlessFailed p) (.unlessFailed sc) b k := by
  intro s brk cont
  show Moved c.cap s ((if s.gen.err.isSome then pure () else p : Step Unit) s).2
    (if s.gen.err.isSome then _ else _) b k
  split_ifs
  · exact ⟨Agrees.nothing _ _, (List.append_nil _).symm, brk, cont⟩
  · exact inner s brk cont

theorem Moves.pushBrk (l : Nat) :
    Moves c b k (LoopStacks.pushBrk l) (.line (.use b)) (b + 1) k := by
  rintro s rfl cont
  exact ⟨⟨rfl, rfl, fun _ _ => rfl⟩, rfl, rfl, cont⟩

theorem Moves.pushCont (l : Nat) :
    Moves c b k (LoopStacks.pushCont l) (.line (.use k)) b (k + 1) := by
  rintro s brk rfl
  exact ⟨⟨rfl, rfl, fun _ _ => rfl⟩, rfl, brk, rfl⟩

theorem Moves.popBrk : Moves c (b + 1) k LoopStacks.popBrk .nothing b k := by
  intro s brk cont
  refine ⟨⟨rfl, rfl, fun _ _ => rfl⟩, (List.append_nil _).symm, ?_, cont⟩
  show s.brkTop - 1 = b
  omega

theorem Moves.popCont : Moves c b (k + 1) LoopStacks.popCont .nothing b k := by
  intro s brk cont
  refine ⟨⟨rfl, rfl, fun _ _ => rfl⟩, (List.append_nil _).symm, brk, ?_⟩
  show s.contTop - 1 = k
  omega

theorem Moves.lastBrk : Moves c b k LoopStacks.lastBrk (.line (.use (b - 1))) b k := by
  rintro s rfl cont
  exact ⟨⟨rfl, rfl, fun _ _ => rfl⟩, rfl, rfl, cont⟩

theorem Moves.lastCont : Moves c b k LoopStacks.lastCont (.line (.use (k - 1))) b k := by
  rintro s brk rfl
  exact ⟨⟨rfl, rfl, fun _ _ => rfl⟩, rfl, brk, rfl⟩

variable (c) (offsets : List Int) (lret : Nat)

theorem genBrk_moves (labels : List Nat) :
    Moves c b k (genStmt c offsets lret labels .brk) (stmtScript c offsets b k .brk) b k := by
  refine Moves.unlessFailed ?_
  rintro s rfl cont
  show Moved c.cap s ((if 0 < s.brkTop then _ else _ : Step Unit) s).2
    ((if 0 < s.brkTop then _ else _ : Script).lines _) _ _
  split_ifs
  · exact (Moves.lastBrk.bind fun _ => .code (.branch _ _)) s rfl cont
  · exact (Moves.code (.fail _)) s rfl cont

theorem genCont_moves (labels : List Nat) :
    Moves c b k (genStmt c offsets lret labels .cont) (stmtScript c offsets b k .cont) b k := by
  refine Moves.unlessFailed ?_
  rintro s brk rfl
  show Moved c.cap s ((if 0 < s.contTop then _ else _ : Step Unit) s).2
    ((if 0 < s.contTop then _ else _ : Script).lines _) _ _
  split_ifs
  · exact (Moves.lastCont.bind fun _ => .code (.branch _ _)) s brk rfl
  · exact (Moves.code (.fail _)) s brk rfl

mutual

theorem genStmt_moves (b k : Nat) (labels : List Nat) : ∀ st : Stmt,
    Moves c b k (genStmt c offsets lret labels st) (stmtScript c offsets b k st) b k
  | .null => fun _ brk cont => ⟨Agrees.nothing _ _, (List.append_nil _).symm, brk, cont⟩
  | .expr e => Moves.unlessFailed (Moves.code (genExpr_follows c offsets e))
  | .ret e =>
    Moves.unlessFailed ((Moves.code (genExpr_follows c offsets e)).bind fun _ =>
      Moves.code (.branch _ _))
  | .ite cond yes no =>
    Moves.unlessFailed ((Moves.code .label).bind fun _ => (Moves.code .label).bind fun _ =>
      (Moves.code (genExpr_follows c offsets cond)).bind fun _ =>
      (Moves.code (.branch _ _)).bind fun _ => (genStmt_moves b k labels yes).bind fun _ =>
      (Moves.code (.branch _ _)).bind fun _ =>
      (Moves.place _).skip ((genStmt_moves b k _ no).ends fun _ => Moves.place _))
  | .wloop cond body =>
    Moves.unlessFailed ((Moves.code .label).bind fun _ => (Moves.code .label).bind fun _ =>
      (Moves.place _).skip ((Moves.code (genExpr_follows c offsets cond)).bind fun _ =>
      (Moves.code (.branch _ _)).bind fun _ => (Moves.pushBrk _).bind fun _ =>
      (Moves.pushCont _).bind fun _ => (genStmt_moves (b + 1) (k + 1) labels body).bind fun _ =>
      Moves.popBrk.skip (Moves.popCont.skip
      ((Moves.code (emitBudgetCheck_follows c _)).bind fun _ =>
      (Moves.code (.branch _ _)).ends fun _ => Moves.place _))))
  | .floop init cond inc body =>
    Moves.unlessFailed ((Moves.code .label).bind fun _ => (Moves.code .label).bind fun _ =>
      (Moves.code .label).bind fun _ => (genStmt_moves b k labels init).bind fun _ =>
      (Moves.place _).skip ((Moves.code (genCond_follows c offsets _ cond)).bind fun _ =>
      (Moves.pushBrk _).bind fun _ => (Moves.pushCont _).bind fun _ =>
      (genStmt_moves (b + 1) (k + 1) _ body).bind fun _ => Moves.popBrk.skip (Moves.popCont.skip
      ((Moves.place _).skip ((Moves.code (genInc_follows c offsets inc)).bind fun _ =>
      (Moves.code (emitBudgetCheck_follows c _)).bind fun _ =>
      (Moves.code (.branch _ _)).ends fun _ => Moves.place _)))))
  | .switch cond body =>
    Moves.unlessFailed ((Moves.code .label).bind fun _ =>
      (Moves.code (genExpr_follows c offsets cond)).bind fun _ =>
      (Moves.code (genCases_follows c body.cases.reverse)).bind fun found =>
      (Moves.code (.branch _ _)).bind fun _ => (Moves.pushBrk _).bind fun _ =>
      (genStmt_moves (b + 1) k found.1 body).ends fun _ => Moves.popBrk.skip (Moves.place _))
  | .case _ body => Moves.unlessFailed ((Moves.place _).skip (genStmt_moves b k _ body))
  | .brk => genBrk_moves c offsets lret labels
  | .cont => genCont_moves c offsets lret labels
  | .block body => Moves.unlessFailed (genStmts_moves b k labels body)

theorem genStmts_moves (b k : Nat) (labels : List Nat) : ∀ body : List Stmt,
    Moves c b k (genStmts c offsets lret labels body) (stmtsScript c offsets b k body) b k
  | [] => fun _ brk cont => ⟨Agrees.nothing _ _, (List.append_nil _).symm, brk, cont⟩
  | st :: rest =>
    (genStmt_moves b k labels st).bind fun _ => genStmts_moves b k _ rest

end

end Statements

section Functions

variable (c : Ctx)

theorem genFrame_follows (frame : Int) : Follows c (genFrame c frame) (frameScript frame) := by
  unfold genFrame frameScript
  split_ifs
  · exact .word _
  · exact (Follows.words _).bind fun _ => .word _
  · exact .nothing ()

theorem genParam_follows (offset size : Int) (i : Nat) :
    Follows c (genParam c offset size i) (paramScript offset) := by
  unfold genParam paramScript
  split_ifs
  · exact (Follows.word _).bind fun _ => .word _
  · exact (Follows.words _).bind fun _ => (Follows.word _).bind fun _ => .word _
  · exact (Follows.word _).bind fun _ => .word _
  · exact (Follows.words _).bind fun _ => (Follows.word _).bind fun _ => .word _

theorem genParams_follows (offsets : List Int) (sizes : Nat → Int) (params : List Nat) (n : Nat) :
    Follows c (.each (params.zipIdx n) fun x => genParam c (offsets.getD x.1 0) (sizes x.1) x.2)
      (paramsScript offsets params) := by
  induction params generalizing n with
  | nil => exact .nothing ()
  | cons v rest later => exact (genParam_follows c _ _ _).bind fun _ => later (n + 1)

theorem genEntry_follows (fn : Func) : Follows c (genEntry c fn) (entryScript fn) :=
  (Follows.word _).bind fun _ => (Follows.word _).bind fun _ => (genFrame_follows c _).bind fun _ =>
    genParams_follows c _ (fun v => fn.locals[v]?.elim 8 fun ty => ty.size) fn.params 0

theorem genExit_follows (lret : Nat) : Follows c (genExit c lret) exitScript :=
  (Follows.word _).bind fun _ => (Follows.place _).skip
    ((Follows.word _).bind fun _ => (Follows.word _).bind fun _ => .word _)

theorem genBody_moves (fn : Func) : Moves c 0 0 (genBody c fn) (funcScript c fn) 0 0 :=
  (Moves.code .label).bind fun lret => (Moves.code (genEntry_follows c fn)).bind fun _ =>
    (genStmt_moves c _ lret 0 0 [] fn.body).bind fun _ => Moves.code (genExit_follows c lret)

theorem genBody_moved (fn : Func) {s : Stacks} (fine : s.gen.err = none) :
    Moved c.cap (clear s).2 (genBody c fn (clear s).2).2 (listing c fn) 0 0 := by
  have moved := genBody_moves c fn (clear s).2 rfl rfl
  have fresh : draft (clear s).2.gen = ⟨0, false⟩ := by
    show (⟨0, s.gen.err.isSome⟩ : Draft) = _
    rw [fine]
    rfl
  rw [fresh] at moved
  exact moved

end Functions

section Places

variable {cap q : Nat} {t : Track}

/-- A track whose lines would stand at a place if the buffer had no end. -/
structure At (cap q : Nat) (t : Track) : Prop where
  pos : t.pos = min q (cap / 4)
  oom : t.oom = decide (cap / 4 < q)

theorem At.word (here : At cap q t) : At cap (q + 1) (t.word cap) := by
  obtain ⟨pos, oom⟩ := here
  unfold Track.word
  split_ifs with full
  · refine ⟨?_, ?_⟩
    · show t.pos = _
      omega
    · show true = _
      rw [eq_comm, decide_eq_true_eq]
      omega
  · refine ⟨?_, ?_⟩
    · show t.pos + 1 = _
      omega
    · show t.oom = _
      rw [oom, decide_eq_decide]
      omega

theorem At.step (here : At cap q t) (l : Line) : At cap (q + l.words) (t.step cap l) := by
  cases l with
  | word => exact here.word
  | branch =>
    have noted : At cap q t.note := ⟨here.pos, here.oom⟩
    exact noted.word
  | call =>
    have noted : At cap q t.noteCall := ⟨here.pos, here.oom⟩
    exact noted.word.word.word.word
  | use i => exact here

theorem Track.word_sites (t : Track) :
    (t.word cap).sites = t.sites ∧ (t.word cap).calls = t.calls := by
  unfold Track.word
  split_ifs
  · exact ⟨rfl, rfl⟩
  · exact ⟨rfl, rfl⟩

theorem Track.call_sites (t : Track) :
    (t.step cap .call).sites = t.sites ∧ (t.step cap .call).calls = t.noteCall.calls := by
  obtain ⟨sites, calls⟩ := @Track.word_sites cap t.noteCall
  obtain ⟨sites₂, calls₂⟩ := @Track.word_sites cap (t.noteCall.word cap)
  obtain ⟨sites₃, calls₃⟩ := @Track.word_sites cap ((t.noteCall.word cap).word cap)
  obtain ⟨sites₄, calls₄⟩ := @Track.word_sites cap (((t.noteCall.word cap).word cap).word cap)
  constructor
  · exact sites₄.trans (sites₃.trans (sites₂.trans sites))
  · exact calls₄.trans (calls₃.trans (calls₂.trans calls))

theorem At.along (here : At cap q t) (l : List Line) :
    At cap (q + size l) (follow cap l t) := by
  induction l generalizing q t with
  | nil => exact here
  | cons x l later =>
    have rest := later (here.step x)
    rw [Nat.add_assoc] at rest
    exact rest

/-- The sites that are noted are the places of the first branches, and the end of the buffer for
those that would stand behind it. -/
theorem At.sites (here : At cap q t) (few : t.sites.length ≤ maxBfx) (l : List Line) :
    (follow cap l t).sites = t.sites ++
      ((branches q l).take (maxBfx - t.sites.length)).map (min · (cap / 4)) := by
  induction l generalizing q t with
  | nil =>
    show t.sites = t.sites ++ (List.take _ []).map _
    rw [List.take_nil, List.map_nil, List.append_nil]
  | cons x l later =>
    have next := here.step x
    show (follow cap l (t.step cap x)).sites = _
    cases x with
    | word =>
      have same : (t.step cap .word).sites = t.sites := (Track.word_sites t).1
      rw [later next (by rw [same]; exact few), same]
      rfl
    | use i => exact later next few
    | call =>
      have same : (t.step cap .call).sites = t.sites := (Track.call_sites t).1
      rw [later next (by rw [same]; exact few), same]
      rfl
    | branch =>
      have same : (t.step cap .branch).sites =
          if t.sites.length < maxBfx then t.sites ++ [t.pos] else t.sites :=
        (Track.word_sites t.note).1
      rw [branches]
      by_cases room : t.sites.length < maxBfx
      · rw [if_pos room, here.pos] at same
        have length : (t.step cap .branch).sites.length = t.sites.length + 1 := by
          rw [same, List.length_append, List.length_singleton]
        obtain ⟨left, more⟩ : ∃ left, maxBfx - t.sites.length = left + 1 :=
          ⟨maxBfx - t.sites.length - 1, by omega⟩
        have rest : maxBfx - (t.sites.length + 1) = left := by omega
        rw [later next (by omega), length, rest, same, more, List.take_succ_cons, List.map_cons,
          List.append_assoc]
        rfl
      · rw [if_neg room] at same
        have none : maxBfx - t.sites.length = 0 := by omega
        rw [later next (by rw [same]; exact few), same, none]
        rfl

/-- The addresses that are filled in later stand in front of the place behind the lines. -/
theorem At.calls (here : At cap q t) (l : List Line) :
    ∀ x ∈ (follow cap l t).calls, x ∈ t.calls ∨ x + 4 ≤ q + size l := by
  induction l generalizing q t with
  | nil => exact fun x listed => .inl listed
  | cons y l later =>
    intro x listed
    have cut : q + size (y :: l) = q + y.words + size l := (Nat.add_assoc _ _ _).symm
    rw [cut]
    rcases later (here.step y) x listed with old | front
    · cases y with
      | word =>
        rw [show (t.step cap .word).calls = t.calls from (Track.word_sites t).2] at old
        exact .inl old
      | branch =>
        rw [show (t.step cap .branch).calls = t.calls from (Track.word_sites t.note).2] at old
        exact .inl old
      | use i => exact .inl old
      | call =>
        rw [(Track.call_sites t).2] at old
        unfold Track.noteCall at old
        simp only at old
        have place := here.pos
        split_ifs at old
        · rcases List.mem_append.mp old with old | new
          · exact .inl old
          · right
            rw [List.mem_singleton.mp new]
            show t.pos + 4 ≤ q + 4 + size l
            omega
        · exact .inl old
    · exact .inr front

end Places

end XinuRpi5.Cc.CodeRoom
