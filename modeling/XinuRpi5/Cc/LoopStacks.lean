/- source: cc/codegen.c
   digest: The code generator with its stacks of break and continue labels, up to its last write. -/

import XinuRpi5.Cc.Codegen

/-!
The stacks are arrays with a top, and every place of them that is assigned or looked up is noted.
What stands behind the 64 places of an array is not modelled: a run that comes there goes on as if
the arrays were longer. The buffer is kept also where the generator reports a failure.
-/

namespace XinuRpi5.Cc.LoopStacks

open Lib.RuledState Codegen

/-- The static variables of the generator with `brk_lab`, `brk_top`, `cont_lab` and `cont_top`, and
the places of the two arrays that were used. -/
structure Stacks where
  gen : Gen
  brkLab : Nat → Nat
  brkTop : Nat
  contLab : Nat → Nat
  contTop : Nat
  used : List Nat

abbrev Step := StateM Stacks

def code {α : Type} (p : Prog sticky α) : Step α :=
  fun s => ((p.run s.gen).1, { s with gen := (p.run s.gen).2 })

def unlessFailed (p : Step Unit) : Step Unit := do
  if ← code failed then pure () else p

/-- `brk_lab[brk_top++] = l`. -/
def pushBrk (l : Nat) : Step Unit := fun s => ((), { s with
  brkLab := fun i => if i = s.brkTop then l else s.brkLab i
  brkTop := s.brkTop + 1
  used := s.used ++ [s.brkTop] })

def popBrk : Step Unit := fun s => ((), { s with brkTop := s.brkTop - 1 })

/-- `cont_lab[cont_top++] = l`. -/
def pushCont (l : Nat) : Step Unit := fun s => ((), { s with
  contLab := fun i => if i = s.contTop then l else s.contLab i
  contTop := s.contTop + 1
  used := s.used ++ [s.contTop] })

def popCont : Step Unit := fun s => ((), { s with contTop := s.contTop - 1 })

/-- `brk_lab[brk_top - 1]`. -/
def lastBrk : Step Nat := fun s =>
  (s.brkLab (s.brkTop - 1), { s with used := s.used ++ [s.brkTop - 1] })

/-- `cont_lab[cont_top - 1]`. -/
def lastCont : Step Nat := fun s =>
  (s.contLab (s.contTop - 1), { s with used := s.used ++ [s.contTop - 1] })

section Generator

variable (c : Ctx) (offsets : List Int) (lret : Nat)

mutual

/-- `gen_stmt`; `labels` holds `clabel` of the cases that belong to the switch around the statement,
in source order. -/
def genStmt (labels : List Nat) : Stmt → Step Unit
  | .null => pure ()
  | .expr e => unlessFailed (code (genExpr c offsets e))
  | .ret e => unlessFailed do
    code (genExpr c offsets e)
    code (emitBranch c .b lret)
  | .ite cond yes no => unlessFailed do
    let lelse ← code newlabel
    let lend ← code newlabel
    code (genExpr c offsets cond)
    code (emitBranch c .cbz lelse)
    genStmt labels yes
    code (emitBranch c .b lend)
    code (place lelse)
    genStmt (labels.drop yes.cases.length) no
    code (place lend)
  | .wloop cond body => unlessFailed do
    let lbegin ← code newlabel
    let lend ← code newlabel
    code (place lbegin)
    code (genExpr c offsets cond)
    code (emitBranch c .cbz lend)
    pushBrk lend
    pushCont lbegin
    genStmt labels body
    popBrk
    popCont
    code (emitBudgetCheck c lend)
    code (emitBranch c .b lbegin)
    code (place lend)
  | .floop init cond inc body => unlessFailed do
    let lbegin ← code newlabel
    let lcont ← code newlabel
    let lend ← code newlabel
    genStmt labels init
    code (place lbegin)
    code (genCond c offsets lend cond)
    pushBrk lend
    pushCont lcont
    genStmt (labels.drop init.cases.length) body
    popBrk
    popCont
    code (place lcont)
    code (genInc c offsets inc)
    code (emitBudgetCheck c lend)
    code (emitBranch c .b lbegin)
    code (place lend)
  | .switch cond body => unlessFailed do
    let lend ← code newlabel
    code (genExpr c offsets cond)
    let (clabels, defcase) ← code (genCases c body.cases.reverse)
    code (emitBranch c .b (defcase.getD lend))
    -- continue is not captured by switch
    pushBrk lend
    genStmt clabels body
    popBrk
    code (place lend)
  | .case _ body => unlessFailed do
    code (place (labels.headD 0))
    genStmt (labels.drop 1) body
  | .brk => unlessFailed do
    if 0 < (← get).brkTop then
      let l ← lastBrk
      code (emitBranch c .b l)
    else code (ccError "break outside loop/switch")
  | .cont => unlessFailed do
    if 0 < (← get).contTop then
      let l ← lastCont
      code (emitBranch c .b l)
    else code (ccError "continue outside loop")
  | .block body => unlessFailed (genStmts labels body)

def genStmts (labels : List Nat) : List Stmt → Step Unit
  | [] => pure ()
  | s :: rest => do
    genStmt labels s
    genStmts (labels.drop s.cases.length) rest

end

/-- What `gen_func` emits in front of the body. -/
def genEntry (fn : Func) : Prog sticky Unit := do
  emit c prologueStp
  emit c movFpSp
  genFrame c (assignOffsets fn.locals).2
  .each fn.params.zipIdx fun (v, i) =>
    genParam c ((assignOffsets fn.locals).1.getD v 0)
      (fn.locals[v]?.elim 8 fun ty => ty.size) i

/-- What `gen_func` emits behind the body. -/
def genExit (lret : Nat) : Prog sticky Unit := do
  -- a function that falls off its end returns 0
  emit c (movImmSmall 0 0)
  place lret
  emit c movSpFp
  emit c epilogueLdp
  emit c ret

/-- `nlab = 0; nbfx = 0; brk_top = 0; cont_top = 0`. -/
def clear : Step Unit := fun s =>
  ((), { s with gen := (startFunc.run s.gen).2, brkTop := 0, contTop := 0 })

/-- What `gen_func` does between its initialisation and `resolve_branches`. -/
def genBody (fn : Func) : Step Unit := do
  let lret ← code newlabel
  code (genEntry c fn)
  genStmt c (assignOffsets fn.locals).1 lret [] fn.body
  code (genExit c lret)

def genFunc (fn : Func) : Step Unit := do
  clear
  genBody c fn
  code resolveBranches

/-- The loop of `cc_codegen` over the functions, with `code_off` of each where none fails. -/
def genFuncs : List Func → Stacks → Option (List Nat) × Stacks
  | [], s => (some [], s)
  | fn :: rest, s =>
    let s' := (genFunc c fn s).2
    if s'.gen.err.isSome ∨ s'.gen.oom then (none, s')
    else
      let (offs, t) := genFuncs rest s'
      (offs.map (s.gen.pos :: ·), t)

/-- What a run of `cc_codegen` leaves behind: the buffer, the places of the stacks that were used,
and the length in words with the entry, which a failure does not give. -/
structure Outcome where
  buf : Nat → Word
  used : List Nat
  result : Option (Nat × Nat)

/-- `cc_codegen`, with what the buffer and the tables held before. -/
def ccCodegen (cap : Nat) (base : BitVec 64) (resolve : String → BitVec 64) (labOff : Nat → Nat)
    (brkLab contLab : Nat → Nat) (funcs : List Func) (buf : Nat → Word) : Outcome :=
  let c : Ctx := ⟨cap, base, funcs.map Func.name, resolve⟩
  let gen : Gen := ⟨buf, 0, false, labOff, 0, [], [], none⟩
  match genFuncs c funcs ⟨gen, brkLab, 0, contLab, 0, []⟩ with
  | (none, s) => ⟨s.gen.buf, s.used, none⟩
  | (some offs, s) =>
    ⟨patchCalls c offs s.gen, s.used,
      (c.funcs.findIdx? (· = "main")).map fun i => (s.gen.pos, offs.getD i 0)⟩

end Generator

end XinuRpi5.Cc.LoopStacks
