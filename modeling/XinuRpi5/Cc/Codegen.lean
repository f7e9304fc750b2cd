/- source: cc/codegen.c, cc/ccpriv.h
   digest: The code generator of the on-device C compiler, from the syntax tree to words. -/

import Mathlib.Tactic.SplitIfs
import XinuRpi5.Lib.RuledState

namespace XinuRpi5.Cc.Codegen

open Lib.RuledState

section Tree

inductive TyKind where
  | int
  | char
  | ptr
  | array
  | struct
  deriving DecidableEq

/-- `type_t`, as far as the generator reads it. -/
structure Ty where
  kind : TyKind
  size : Int
  deriving DecidableEq

/-- `var_t`: a global is given by its address, a local by its place in
`fn->locals`. -/
inductive VarRef where
  | glob (gaddr : BitVec 64)
  | loc (i : Nat)

inductive BinOp where
  | add
  | sub
  | mul
  | div
  | mod
  | eq
  | ne
  | lt
  | le

/-- The expressions of `node_t`; `ty` is the type where it is read. -/
inductive Expr where
  | num (val : BitVec 64)
  | str (addr : BitVec 64)
  | var (v : VarRef) (ty : Option Ty)
  | assign (lhs rhs : Expr)
  | deref (e : Expr) (ty : Option Ty)
  | member (e : Expr) (off : Int) (ty : Option Ty)
  | addr (e : Expr)
  | neg (e : Expr)
  | not (e : Expr)
  | logand (l r : Expr)
  | logor (l r : Expr)
  | bin (op : BinOp) (l r : Expr)
  | call (funcname : String) (args : List Expr)

/-- `n->ty` of an expression that can be assigned. -/
def Expr.ty : Expr → Option Ty
  | .var _ ty => ty
  | .deref _ ty => ty
  | .member _ _ ty => ty
  | .str _ => some ⟨.ptr, 8⟩
  | _ => none

/-- The statements of `node_t`; `null` is the null pointer, and a case without a
value is `default`. -/
inductive Stmt where
  | null
  | expr (e : Expr)
  | ret (e : Expr)
  | ite (cond : Expr) (yes no : Stmt)
  | wloop (cond : Expr) (body : Stmt)
  | floop (init : Stmt) (cond inc : Option Expr) (body : Stmt)
  | switch (cond : Expr) (body : Stmt)
  | case (val : Option (BitVec 64)) (body : Stmt)
  | brk
  | cont
  | block (body : List Stmt)

mutual

/-- The cases of a statement that belong to the switch around it, in source
order; `n->cases` of that switch is the reverse of it. -/
def Stmt.cases : Stmt → List (Option (BitVec 64))
  | .ite _ yes no => yes.cases ++ no.cases
  | .wloop _ body => body.cases
  | .floop init _ _ body => init.cases ++ body.cases
  | .case val body => val :: body.cases
  | .block body => casesOf body
  | _ => []

def casesOf : List Stmt → List (Option (BitVec 64))
  | [] => []
  | s :: rest => s.cases ++ casesOf rest

end

/-- `func_t`; `params` are the places of the parameters in `locals`. -/
structure Func where
  name : String
  params : List Nat
  locals : List Ty
  body : Stmt

end Tree

abbrev Word := BitVec 32

def x9 : Word := 9

def x29 : Word := 29

def sp : Word := 31

def xzr : Word := 31

def push : Word := 0xF81F0FE0

def pop (r : Word) : Word := 0xF84107E0 ||| r

def addRrr (d n m : Word) : Word := 0x8B000000 ||| (m <<< 16) ||| (n <<< 5) ||| d

def subRrr (d n m : Word) : Word := 0xCB000000 ||| (m <<< 16) ||| (n <<< 5) ||| d

def mulRrr (d n m : Word) : Word :=
  0x9B000000 ||| (m <<< 16) ||| ((0x1F : Word) <<< 10) ||| (n <<< 5) ||| d

def sdiv (d n m : Word) : Word := 0x9AC00C00 ||| (m <<< 16) ||| (n <<< 5) ||| d

def msub (d n m a : Word) : Word :=
  0x9B008000 ||| (m <<< 16) ||| (a <<< 10) ||| (n <<< 5) ||| d

def addImm (d n : Word) (imm : Int) : Word :=
  0x91000000 ||| ((BitVec.ofInt 32 imm &&& 0xFFF) <<< 10) ||| (n <<< 5) ||| d

def subImm (d n : Word) (imm : Int) : Word :=
  0xD1000000 ||| ((BitVec.ofInt 32 imm &&& 0xFFF) <<< 10) ||| (n <<< 5) ||| d

def cmpRr (n m : Word) : Word := 0xEB000000 ||| (m <<< 16) ||| (n <<< 5) ||| 0x1F

def cmp0 (n : Word) : Word := 0xF100001F ||| (n <<< 5)

def cEq : Word := 0

def cNe : Word := 1

def cLt : Word := 11

def cLe : Word := 13

def cset (d cond : Word) : Word := 0x9A9F07E0 ||| ((cond ^^^ 1) <<< 12) ||| d

def ldr (t n : Word) : Word := 0xF9400000 ||| (n <<< 5) ||| t

def str (t n : Word) : Word := 0xF9000000 ||| (n <<< 5) ||| t

def ldrb (t n : Word) : Word := 0x39400000 ||| (n <<< 5) ||| t

def strb (t n : Word) : Word := 0x39000000 ||| (n <<< 5) ||| t

def movImmSmall (d v : Word) : Word := 0xD2800000 ||| ((v &&& 0xFFFF) <<< 5) ||| d

def blr (n : Word) : Word := 0xD63F0000 ||| (n <<< 5)

def ret : Word := 0xD65F03C0

def prologueStp : Word := 0xA9BF7BFD

def movFpSp : Word := 0x910003FD

def movSpFp : Word := 0x910003BF

def epilogueLdp : Word := 0xA8C17BFD

def part (v : BitVec 64) (k : Nat) : Word := (v >>> (16 * k) &&& 0xFFFF).setWidth 32

/-- `emit_loadimm` and `patch_loadimm`. -/
def loadimm (reg : Word) (v : BitVec 64) : List Word :=
  [0xD2800000 ||| (part v 0 <<< 5) ||| reg,
    0xF2800000 ||| ((1 : Word) <<< 21) ||| (part v 1 <<< 5) ||| reg,
    0xF2800000 ||| ((2 : Word) <<< 21) ||| (part v 2 <<< 5) ||| reg,
    0xF2800000 ||| ((3 : Word) <<< 21) ||| (part v 3 <<< 5) ||| reg]

section Emission

inductive BrKind where
  | b
  | cbz
  | cbnz
  | bcond (cond : Word)
  deriving DecidableEq

def BrKind.word : BrKind → Word
  | .b => 0x14000000
  | .cbz => 0xB4000000
  | .cbnz => 0xB5000000
  | .bcond _ => 0x54000000

/-- An element of `bfx`; sites are counted in words. -/
structure Fix where
  site : Nat
  lab : Nat
  kind : BrKind

def maxLab : Nat := 2048

def maxBfx : Nat := 2048

def maxCfx : Nat := 2048

/-- The static variables of the generator; `pos` is `g_pos` and the sites are
offsets in words, `cfx` pairs a site with the number of the function. -/
structure Gen where
  buf : Nat → Word
  pos : Nat
  oom : Bool
  labOff : Nat → Nat
  nlab : Nat
  bfx : List Fix
  cfx : List (Nat × Nat)
  err : Option String

/-- The capacity of the buffer, its address, the names of the functions of the
program, and `cc_resolve_extern`. -/
structure Ctx where
  cap : Nat
  base : BitVec 64
  funcs : List String
  resolve : String → BitVec 64

/-- `g_tickaddr`. -/
def Ctx.tick (c : Ctx) : BitVec 64 := c.resolve "__cc_tick"

/-- An error and a full buffer stay, and there are never more labels than places. -/
structure Sticky (s t : Gen) : Prop where
  err : t.err = none → s.err = none
  oom : t.oom = false → s.oom = false
  labels : s.nlab ≤ maxLab → t.nlab ≤ maxLab

def sticky : Rule Gen :=
  ⟨Sticky, fun _ => ⟨id, id, id⟩,
    fun h k => ⟨h.err ∘ k.err, h.oom ∘ k.oom, k.labels ∘ h.labels⟩⟩

def failed : Prog sticky Bool := .gets fun s => s.err.isSome

/-- `cc_error`: the first message is kept. -/
def ccError (msg : String) : Prog sticky Unit :=
  .change (fun s => { s with err := some (s.err.getD msg) }) fun _ => ⟨nofun, id, id⟩

/-- The start of `gen_expr` and `gen_stmt`. -/
def unlessFailed (p : Prog sticky Unit) : Prog sticky Unit := do
  if ← failed then pure () else p

def put (buf : Nat → Word) (pos : Nat) (w : Word) : Nat → Word :=
  fun i => if i = pos then w else buf i

variable (c : Ctx)

def emit (w : Word) : Prog sticky Unit :=
  .change (fun s =>
    if c.cap < 4 * s.pos + 4 then { s with oom := true }
    else { s with buf := put s.buf s.pos w, pos := s.pos + 1 }) fun s => by
      split_ifs
      · exact ⟨id, nofun, id⟩
      · exact ⟨id, id, id⟩

def emitAll (l : List Word) : Prog sticky Unit := .each l (emit c)

def newlabel : Prog sticky Nat :=
  .act (fun s =>
    if maxLab ≤ s.nlab then (0, { s with err := some (s.err.getD "too many labels") })
    else (s.nlab, { s with nlab := s.nlab + 1 })) fun s => by
      split_ifs with full
      · exact ⟨nofun, id, id⟩
      · exact ⟨id, id, fun _ => Nat.not_le.mp full⟩

def place (l : Nat) : Prog sticky Unit :=
  .change (fun s =>
    if l < maxLab then { s with labOff := fun k => if k = l then s.pos else s.labOff k } else s)
    fun s => by
      split_ifs
      · exact ⟨id, id, id⟩
      · exact ⟨id, id, id⟩

/-- The entry of `bfx` for a branch at the current place. -/
def noteBranch (k : BrKind) (l : Nat) : Prog sticky Unit :=
  .change (fun s =>
    if s.bfx.length < maxBfx then { s with bfx := s.bfx ++ [⟨s.pos, l, k⟩] } else s)
    fun s => by
      split_ifs
      · exact ⟨id, id, id⟩
      · exact ⟨id, id, id⟩

/-- `emit_b`, `emit_cbz`, `emit_bcond` and the same for `cbnz`. -/
def emitBranch (k : BrKind) (l : Nat) : Prog sticky Unit := do
  noteBranch k l
  emit c k.word

/-- The entry of `cfx` for a call at the current place. -/
def noteCall (fn : Nat) : Prog sticky Unit :=
  .change (fun s =>
    if s.cfx.length < maxCfx then { s with cfx := s.cfx ++ [(s.pos, fn)] } else s)
    fun s => by
      split_ifs
      · exact ⟨id, id, id⟩
      · exact ⟨id, id, id⟩

def emitBudgetCheck (exitLabel : Nat) : Prog sticky Unit := do
  if c.tick = 0 then pure ()
  else
    emitAll c (loadimm x9 c.tick)
    emit c (blr x9)
    emitBranch c .cbz exitLabel

end Emission

section Expressions

variable (c : Ctx) (offsets : List Int)

/-- `gen_addr` of a variable. -/
def genVar : VarRef → Prog sticky Unit
  | .glob gaddr => emitAll c (loadimm 0 gaddr)
  | .loc i =>
    if offsets.getD i 0 ≤ 0xFFF then emit c (subImm 0 x29 (offsets.getD i 0))
    else do
      emitAll c (loadimm x9 (BitVec.ofInt 64 (offsets.getD i 0)))
      emit c (subRrr 0 x29 x9)

def genOff (off : Int) : Prog sticky Unit :=
  if off = 0 then pure () else emit c (addImm 0 0 off)

def genLoad : Option Ty → Prog sticky Unit
  | some ty =>
    if ty.kind = .array then pure ()
    else if ty.size = 1 then emit c (ldrb 0 0)
    else emit c (ldr 0 0)
  | none => emit c (ldr 0 0)

def genStore : Option Ty → Prog sticky Unit
  | some ty => if ty.size = 1 then emit c (strb 0 1) else emit c (str 0 1)
  | none => emit c (str 0 1)

def opWords : BinOp → List Word
  | .add => [addRrr 0 0 1]
  | .sub => [subRrr 0 0 1]
  | .mul => [mulRrr 0 0 1]
  | .div => [sdiv 0 0 1]
  | .mod => [sdiv 2 0 1, msub 0 2 1 0]
  | .eq => [cmpRr 0 1, cset 0 cEq]
  | .ne => [cmpRr 0 1, cset 0 cNe]
  | .lt => [cmpRr 0 1, cset 0 cLt]
  | .le => [cmpRr 0 1, cset 0 cLe]

def popWords : Nat → List Word
  | 0 => []
  | n + 1 => pop n :: popWords n

/-- The call behind its arguments: a function of the program is patched later. -/
def genTarget (funcname : String) : Prog sticky Unit :=
  match c.funcs.findIdx? (· = funcname) with
  | some fn => do
    noteCall fn
    emitAll c (loadimm x9 0)
    emit c (blr x9)
  | none => do
    let addr := c.resolve funcname
    if addr = 0 then ccError "call to undefined function"
    else
      emitAll c (loadimm x9 addr)
      emit c (blr x9)

mutual

def genAddr : Expr → Prog sticky Unit
  | .var v _ => genVar c offsets v
  | .deref e _ => genExpr e
  | .member e off _ => do
    genAddr e
    genOff c off
  | .str addr => emitAll c (loadimm 0 addr)
  | _ => ccError "not an lvalue"

def genExpr : Expr → Prog sticky Unit
  | .num val => unlessFailed (emitAll c (loadimm 0 val))
  | .str addr => unlessFailed (emitAll c (loadimm 0 addr))
  | .var v ty => unlessFailed do
    genVar c offsets v
    genLoad c ty
  | .assign lhs rhs => unlessFailed do
    genAddr lhs
    emit c push
    genExpr rhs
    emit c (pop 1)
    genStore c lhs.ty
  | .deref e ty => unlessFailed do
    genExpr e
    genLoad c ty
  | .member e off ty => unlessFailed do
    genAddr e
    genOff c off
    genLoad c ty
  | .addr e => unlessFailed (genAddr e)
  | .neg e => unlessFailed do
    genExpr e
    emit c (subRrr 0 xzr 0)
  | .not e => unlessFailed do
    genExpr e
    emit c (cmp0 0)
    emit c (cset 0 cEq)
  | .logand l r => unlessFailed do
    let lfalse ← newlabel
    let lend ← newlabel
    genExpr l
    emitBranch c .cbz lfalse
    genExpr r
    emitBranch c .cbz lfalse
    emit c (movImmSmall 0 1)
    emitBranch c .b lend
    place lfalse
    emit c (movImmSmall 0 0)
    place lend
  | .logor l r => unlessFailed do
    let ltrue ← newlabel
    let lend ← newlabel
    genExpr l
    emit c (cmp0 0)
    emitBranch c .cbnz ltrue
    genExpr r
    emitBranch c .cbnz ltrue
    emit c (movImmSmall 0 0)
    emitBranch c .b lend
    place ltrue
    emit c (movImmSmall 0 1)
    place lend
  | .bin op l r => unlessFailed do
    genExpr r
    emit c push
    genExpr l
    emit c (pop 1)
    emitAll c (opWords op)
  | .call funcname args => unlessFailed do
    if 8 < args.length then ccError "too many call arguments (max 8)"
    genArgs args 8
    emitAll c (popWords (min args.length 8))
    genTarget c funcname

def genArgs : List Expr → Nat → Prog sticky Unit
  | arg :: rest, left + 1 => do
    genExpr arg
    emit c push
    genArgs rest left
  | _, _ => pure ()

end

end Expressions

section Statements

/-- `cur_lret` and the stacks `brk_lab` and `cont_lab`, the top first. -/
structure Targets where
  lret : Nat
  brk : List Nat
  cont : List Nat

variable (c : Ctx) (offsets : List Int)

/-- The comparisons of a switch in the order of `n->cases`, with the labels of
the cases in source order and the label of `defcase`. -/
def genCases : List (Option (BitVec 64)) → Prog sticky (List Nat × Option Nat)
  | [] => return ([], none)
  | none :: rest => do
    let l ← newlabel
    let (labels, last) ← genCases rest
    return (labels ++ [l], some (last.getD l))
  | some val :: rest => do
    let l ← newlabel
    emitAll c (loadimm 1 val)
    emit c (cmpRr 0 1)
    emitBranch c (.bcond cEq) l
    let (labels, last) ← genCases rest
    return (labels ++ [l], last)

/-- The condition of a `for` loop. -/
def genCond (lend : Nat) : Option Expr → Prog sticky Unit
  | some cond => do
    genExpr c offsets cond
    emitBranch c .cbz lend
  | none => pure ()

def genInc : Option Expr → Prog sticky Unit
  | some inc => genExpr c offsets inc
  | none => pure ()

mutual

/-- `gen_stmt`; `labels` holds `clabel` of the cases that belong to the switch
around the statement, in source order. -/
def genStmt (t : Targets) (labels : List Nat) : Stmt → Prog sticky Unit
  | .null => pure ()
  | .expr e => unlessFailed (genExpr c offsets e)
  | .ret e => unlessFailed do
    genExpr c offsets e
    emitBranch c .b t.lret
  | .ite cond yes no => unlessFailed do
    let lelse ← newlabel
    let lend ← newlabel
    genExpr c offsets cond
    emitBranch c .cbz lelse
    genStmt t labels yes
    emitBranch c .b lend
    place lelse
    genStmt t (labels.drop yes.cases.length) no
    place lend
  | .wloop cond body => unlessFailed do
    let lbegin ← newlabel
    let lend ← newlabel
    place lbegin
    genExpr c offsets cond
    emitBranch c .cbz lend
    genStmt { t with brk := lend :: t.brk, cont := lbegin :: t.cont } labels body
    emitBudgetCheck c lend
    emitBranch c .b lbegin
    place lend
  | .floop init cond inc body => unlessFailed do
    let lbegin ← newlabel
    let lcont ← newlabel
    let lend ← newlabel
    genStmt t labels init
    place lbegin
    genCond c offsets lend cond
    genStmt { t with brk := lend :: t.brk, cont := lcont :: t.cont }
      (labels.drop init.cases.length) body
    place lcont
    genInc c offsets inc
    emitBudgetCheck c lend
    emitBranch c .b lbegin
    place lend
  | .switch cond body => unlessFailed do
    let lend ← newlabel
    genExpr c offsets cond
    let (clabels, defcase) ← genCases c body.cases.reverse
    emitBranch c .b (defcase.getD lend)
    -- continue is not captured by switch
    genStmt { t with brk := lend :: t.brk } clabels body
    place lend
  | .case _ body => unlessFailed do
    place (labels.headD 0)
    genStmt t (labels.drop 1) body
  | .brk => unlessFailed do
    match t.brk with
    | l :: _ => emitBranch c .b l
    | [] => ccError "break outside loop/switch"
  | .cont => unlessFailed do
    match t.cont with
    | l :: _ => emitBranch c .b l
    | [] => ccError "continue outside loop"
  | .block body => unlessFailed (genStmts t labels body)

def genStmts (t : Targets) (labels : List Nat) : List Stmt → Prog sticky Unit
  | [] => pure ()
  | s :: rest => do
    genStmt t labels s
    genStmts t (labels.drop s.cases.length) rest

end

end Statements

section Functions

def alignUp (n a : Int) : Int := Int.tdiv (n + a - 1) a * a

/-- The loop of `assign_offsets` behind an offset. -/
def offsetsFrom : Int → List Ty → List Int × Int
  | off, [] => ([], alignUp off 16)
  | off, ty :: rest =>
    let next := alignUp (off + ty.size) 8
    let (offs, frame) := offsetsFrom next rest
    (next :: offs, frame)

/-- `assign_offsets`: the offsets of the locals, and the size of the frame. -/
def assignOffsets (locals : List Ty) : List Int × Int := offsetsFrom 0 locals

variable (c : Ctx)

def genFrame (frame : Int) : Prog sticky Unit :=
  if 0 < frame then
    if frame ≤ 0xFFF then emit c (subImm sp sp frame)
    else do
      emitAll c (loadimm x9 (BitVec.ofInt 64 frame))
      emit c (subRrr sp sp x9)
  else pure ()

def genParam (offset size : Int) (i : Nat) : Prog sticky Unit := do
  if offset ≤ 0xFFF then emit c (subImm x9 x29 offset)
  else
    emitAll c (loadimm x9 (BitVec.ofInt 64 offset))
    emit c (subRrr x9 x29 x9)
  if size = 1 then emit c (strb i x9) else emit c (str i x9)

def Fix.resolved (labOff : Nat → Nat) (f : Fix) : Word :=
  let delta := BitVec.ofInt 32 ((labOff f.lab : Int) - f.site)
  match f.kind with
  | .b => 0x14000000 ||| (delta &&& 0x03FFFFFF)
  | .cbz => 0xB4000000 ||| ((delta &&& 0x7FFFF) <<< 5)
  | .cbnz => 0xB5000000 ||| ((delta &&& 0x7FFFF) <<< 5)
  | .bcond cond => 0x54000000 ||| ((delta &&& 0x7FFFF) <<< 5) ||| cond

def resolveBranches : Prog sticky Unit :=
  .change (fun s =>
    { s with buf := s.bfx.foldl (fun buf f => put buf f.site (f.resolved s.labOff)) s.buf })
    fun _ => ⟨id, id, id⟩

def startFunc : Prog sticky Unit :=
  .change (fun s => { s with nlab := 0, bfx := [] }) fun _ => ⟨id, id, fun _ => Nat.zero_le _⟩

/-- `gen_func` between its initialisation and `resolve_branches`. -/
def genBody (fn : Func) : Prog sticky Unit := do
  let (offsets, frame) := assignOffsets fn.locals
  let lret ← newlabel
  emit c prologueStp
  emit c movFpSp
  genFrame c frame
  .each fn.params.zipIdx fun (v, i) =>
    genParam c (offsets.getD v 0) (fn.locals[v]?.elim 8 fun ty => ty.size) i
  genStmt c offsets ⟨lret, [], []⟩ [] fn.body
  -- a function that falls off its end returns 0
  emit c (movImmSmall 0 0)
  place lret
  emit c movSpFp
  emit c epilogueLdp
  emit c ret

def genFunc (fn : Func) : Prog sticky Unit := do
  startFunc
  genBody c fn
  resolveBranches

/-- The loop of `cc_codegen` over the functions, with `code_off` of each. -/
def genFuncs : List Func → Gen → Option (List Nat × Gen)
  | [], s => some ([], s)
  | fn :: rest, s =>
    let s' := ((genFunc c fn).run s).2
    if s'.err.isSome ∨ s'.oom then none
    else (genFuncs rest s').map fun (offs, last) => (s.pos :: offs, last)

/-- `patch_loadimm` at a call. -/
def patchCall (buf : Nat → Word) (site : Nat) (v : BitVec 64) : Nat → Word :=
  (loadimm x9 v).zipIdx.foldl (fun buf (w, i) => put buf (site + i) w) buf

def patchCalls (offs : List Nat) (s : Gen) : Nat → Word :=
  s.cfx.foldl (fun buf (site, fn) =>
    patchCall buf site (c.base + BitVec.ofNat 64 (4 * offs.getD fn 0))) s.buf

/-- What `cc_codegen` leaves behind: the buffer, its length in words, `code_off`
of the functions and that of `main`. -/
structure Output where
  buf : Nat → Word
  len : Nat
  offs : List Nat
  entry : Nat

/-- `cc_codegen`, with what the buffer and the table of labels held before. -/
def ccCodegen (cap : Nat) (base : BitVec 64) (resolve : String → BitVec 64) (buf : Nat → Word)
    (labOff : Nat → Nat) (funcs : List Func) : Option Output :=
  let c : Ctx := ⟨cap, base, funcs.map Func.name, resolve⟩
  match genFuncs c funcs ⟨buf, 0, false, labOff, 0, [], [], none⟩ with
  | none => none
  | some (offs, s) =>
    match c.funcs.findIdx? (· = "main") with
    | none => none
    | some i => some ⟨patchCalls c offs s, s.pos, offs, offs.getD i 0⟩

end Functions

end XinuRpi5.Cc.Codegen
