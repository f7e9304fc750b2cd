/- source: cc/codegen.c
   digest: The generated code as a listing with labels, and that the generator writes it. -/

import XinuRpi5.Cc.Codegen

namespace XinuRpi5.Cc.Assembly

open Lib.RuledState Codegen

section Listing

/-- A line of the listing: a complete word, a branch, the place of a label, the
address of a function of the program in x9, or the budget check with its exit. -/
inductive Item where
  | word (w : Word)
  | br (k : BrKind) (l : Nat)
  | lab (l : Nat)
  | fn (i : Nat)
  | tick (l : Nat)
  deriving DecidableEq

def words (l : List Word) : List Item := l.map .word

variable (c : Ctx) (offsets : List Int)

/-- The check is left out when there is no `__cc_tick`. -/
def budget (exitLabel : Nat) : List Item := if c.tick = 0 then [] else [.tick exitLabel]

def varItems : VarRef → List Item
  | .glob gaddr => words (loadimm 0 gaddr)
  | .loc i =>
    if offsets.getD i 0 ≤ 0xFFF then [.word (subImm 0 x29 (offsets.getD i 0))]
    else words (loadimm x9 (BitVec.ofInt 64 (offsets.getD i 0))) ++ [.word (subRrr 0 x29 x9)]

def offItems (off : Int) : List Item := if off = 0 then [] else [.word (addImm 0 0 off)]

def loadItems : Option Ty → List Item
  | some ty =>
    if ty.kind = .array then []
    else if ty.size = 1 then [.word (ldrb 0 0)]
    else [.word (ldr 0 0)]
  | none => [.word (ldr 0 0)]

def storeItems : Option Ty → List Item
  | some ty => if ty.size = 1 then [.word (strb 0 1)] else [.word (str 0 1)]
  | none => [.word (str 0 1)]

def targetItems (funcname : String) : List Item :=
  match c.funcs.findIdx? (· = funcname) with
  | some fn => [.fn fn, .word (blr x9)]
  | none => words (loadimm x9 (c.resolve funcname)) ++ [.word (blr x9)]

mutual

def exprLabels : Expr → Nat
  | .assign lhs rhs => exprLabels lhs + exprLabels rhs
  | .deref e _ => exprLabels e
  | .member e _ _ => exprLabels e
  | .addr e => exprLabels e
  | .neg e => exprLabels e
  | .not e => exprLabels e
  | .logand l r => 2 + (exprLabels l + exprLabels r)
  | .logor l r => 2 + (exprLabels l + exprLabels r)
  | .bin _ l r => exprLabels r + exprLabels l
  | .call _ args => argsLabels args
  | _ => 0

def argsLabels : List Expr → Nat
  | [] => 0
  | arg :: rest => exprLabels arg + argsLabels rest

end

mutual

/-- The listing of `gen_addr`, with the number of the next label. -/
def addrItems : Expr → Nat → List Item
  | .var v _, _ => varItems offsets v
  | .deref e _, n => exprItems e n
  | .member e off _, n => addrItems e n ++ offItems off
  | .str addr, _ => words (loadimm 0 addr)
  | _, _ => []

/-- The listing of `gen_expr`. -/
def exprItems : Expr → Nat → List Item
  | .num val, _ => words (loadimm 0 val)
  | .str addr, _ => words (loadimm 0 addr)
  | .var v ty, _ => varItems offsets v ++ loadItems ty
  | .assign lhs rhs, n =>
    addrItems lhs n ++ [.word push] ++ exprItems rhs (n + exprLabels lhs) ++ [.word (pop 1)] ++
      storeItems lhs.ty
  | .deref e ty, n => exprItems e n ++ loadItems ty
  | .member e off ty, n => addrItems e n ++ offItems off ++ loadItems ty
  | .addr e, n => addrItems e n
  | .neg e, n => exprItems e n ++ [.word (subRrr 0 xzr 0)]
  | .not e, n => exprItems e n ++ [.word (cmp0 0), .word (cset 0 cEq)]
  | .logand l r, n =>
    exprItems l (n + 2) ++ [.br .cbz n] ++ exprItems r (n + 2 + exprLabels l) ++
      [.br .cbz n, .word (movImmSmall 0 1), .br .b (n + 1), .lab n, .word (movImmSmall 0 0),
        .lab (n + 1)]
  | .logor l r, n =>
    exprItems l (n + 2) ++ [.word (cmp0 0), .br .cbnz n] ++
      exprItems r (n + 2 + exprLabels l) ++
      [.br .cbnz n, .word (movImmSmall 0 0), .br .b (n + 1), .lab n, .word (movImmSmall 0 1),
        .lab (n + 1)]
  | .bin op l r, n =>
    exprItems r n ++ [.word push] ++ exprItems l (n + exprLabels r) ++ [.word (pop 1)] ++
      words (opWords op)
  | .call funcname args, n =>
    argsItems args n ++ words (popWords (min args.length 8)) ++ targetItems c funcname

def argsItems : List Expr → Nat → List Item
  | [], _ => []
  | arg :: rest, n => exprItems arg n ++ [.word push] ++ argsItems rest (n + exprLabels arg)

end

/-- The comparisons of a switch, in the order of `n->cases`. -/
def dispatch : List (Option (BitVec 64)) → Nat → List Item
  | [], _ => []
  | none :: rest, n => dispatch rest (n + 1)
  | some val :: rest, n =>
    words (loadimm 1 val) ++ [.word (cmpRr 0 1), .br (.bcond cEq) n] ++ dispatch rest (n + 1)

def caseLabels : List (Option (BitVec 64)) → Nat → List Nat
  | [], _ => []
  | _ :: rest, n => caseLabels rest (n + 1) ++ [n]

/-- The label of `defcase`. -/
def defLabel : List (Option (BitVec 64)) → Nat → Option Nat
  | [], _ => none
  | none :: rest, n => some ((defLabel rest (n + 1)).getD n)
  | some _ :: rest, n => defLabel rest (n + 1)

def condItems (lend : Nat) : Option Expr → Nat → List Item
  | some cond, n => exprItems c offsets cond n ++ [.br .cbz lend]
  | none, _ => []

def incItems : Option Expr → Nat → List Item
  | some inc, n => exprItems c offsets inc n
  | none, _ => []

def optLabels : Option Expr → Nat
  | some e => exprLabels e
  | none => 0

mutual

def stmtLabels : Stmt → Nat
  | .expr e => exprLabels e
  | .ret e => exprLabels e
  | .ite cond yes no => 2 + (exprLabels cond + (stmtLabels yes + stmtLabels no))
  | .wloop cond body => 2 + (exprLabels cond + stmtLabels body)
  | .floop init cond inc body =>
    3 + (stmtLabels init + (optLabels cond + (stmtLabels body + optLabels inc)))
  | .switch cond body => 1 + (exprLabels cond + (body.cases.length + stmtLabels body))
  | .case _ body => stmtLabels body
  | .block body => stmtsLabels body
  | _ => 0

def stmtsLabels : List Stmt → Nat
  | [] => 0
  | s :: rest => stmtLabels s + stmtsLabels rest

end

mutual

/-- The listing of `gen_stmt`. -/
def stmtItems (t : Targets) (labels : List Nat) : Stmt → Nat → List Item
  | .null, _ => []
  | .expr e, n => exprItems c offsets e n
  | .ret e, n => exprItems c offsets e n ++ [.br .b t.lret]
  | .ite cond yes no, n =>
    exprItems c offsets cond (n + 2) ++ [.br .cbz n] ++
      stmtItems t labels yes (n + 2 + exprLabels cond) ++ [.br .b (n + 1), .lab n] ++
      stmtItems t (labels.drop yes.cases.length) no
        (n + 2 + exprLabels cond + stmtLabels yes) ++ [.lab (n + 1)]
  | .wloop cond body, n =>
    [.lab n] ++ exprItems c offsets cond (n + 2) ++ [.br .cbz (n + 1)] ++
      stmtItems { t with brk := (n + 1) :: t.brk, cont := n :: t.cont } labels body
        (n + 2 + exprLabels cond) ++
      budget c (n + 1) ++ [.br .b n, .lab (n + 1)]
  | .floop init cond inc body, n =>
    stmtItems t labels init (n + 3) ++ [.lab n] ++
      condItems c offsets (n + 2) cond (n + 3 + stmtLabels init) ++
      stmtItems { t with brk := (n + 2) :: t.brk, cont := (n + 1) :: t.cont }
        (labels.drop init.cases.length) body (n + 3 + stmtLabels init + optLabels cond) ++
      [.lab (n + 1)] ++
      incItems c offsets inc (n + 3 + stmtLabels init + optLabels cond + stmtLabels body) ++
      budget c (n + 2) ++ [.br .b n, .lab (n + 2)]
  | .switch cond body, n =>
    exprItems c offsets cond (n + 1) ++ dispatch body.cases.reverse (n + 1 + exprLabels cond) ++
      [.br .b ((defLabel body.cases.reverse (n + 1 + exprLabels cond)).getD n)] ++
      stmtItems { t with brk := n :: t.brk }
        (caseLabels body.cases.reverse (n + 1 + exprLabels cond)) body
        (n + 1 + exprLabels cond + body.cases.length) ++ [.lab n]
  | .case _ body, n => [.lab (labels.headD 0)] ++ stmtItems t (labels.drop 1) body n
  | .brk, _ => [.br .b (t.brk.headD 0)]
  | .cont, _ => [.br .b (t.cont.headD 0)]
  | .block body, n => stmtsItems t labels body n

def stmtsItems (t : Targets) (labels : List Nat) : List Stmt → Nat → List Item
  | [], _ => []
  | s :: rest, n =>
    stmtItems t labels s n ++ stmtsItems t (labels.drop s.cases.length) rest (n + stmtLabels s)

end

def frameItems (frame : Int) : List Item :=
  if 0 < frame then
    if frame ≤ 0xFFF then [.word (subImm sp sp frame)]
    else words (loadimm x9 (BitVec.ofInt 64 frame)) ++ [.word (subRrr sp sp x9)]
  else []

def paramItems (offset size : Int) (i : Nat) : List Item :=
  (if offset ≤ 0xFFF then [.word (subImm x9 x29 offset)]
    else words (loadimm x9 (BitVec.ofInt 64 offset)) ++ [.word (subRrr x9 x29 x9)]) ++
    if size = 1 then [.word (strb i x9)] else [.word (str i x9)]

def entryItems (fn : Func) : List Item :=
  [.word prologueStp, .word movFpSp] ++ frameItems (assignOffsets fn.locals).2 ++
    fn.params.zipIdx.flatMap fun x => paramItems ((assignOffsets fn.locals).1.getD x.1 0)
      (fn.locals[x.1]?.elim 8 fun ty => ty.size) x.2

/-- The listing of a function; label 0 is `cur_lret`. -/
def funcItems (fn : Func) : List Item :=
  entryItems fn ++ stmtItems c (assignOffsets fn.locals).1 ⟨0, [], []⟩ [] fn.body 1 ++
    [.word (movImmSmall 0 0), .lab 0, .word movSpFp, .word epilogueLdp, .word ret]

end Listing

section Plain

variable {l m : List Item} (offsets : List Int)

/-- Code without labels, branches and calls. -/
def Plain (l : List Item) : Prop := ∃ w, l = words w

theorem plain_words (w : List Word) : Plain (words w) := ⟨w, rfl⟩

theorem plain_word (w : Word) : Plain [.word w] := ⟨[w], rfl⟩

theorem Plain.append (first : Plain l) (second : Plain m) : Plain (l ++ m) := by
  obtain ⟨v, rfl⟩ := first
  obtain ⟨w, rfl⟩ := second
  exact ⟨v ++ w, List.map_append.symm⟩

theorem plain_var (v : VarRef) : Plain (varItems offsets v) := by
  cases v with
  | glob gaddr => exact plain_words _
  | loc i =>
    simp only [varItems]
    split_ifs
    · exact plain_word _
    · exact (plain_words _).append (plain_word _)

theorem plain_off (off : Int) : Plain (offItems off) := by
  unfold offItems
  split_ifs
  · exact plain_words []
  · exact plain_word _

theorem plain_load (ty : Option Ty) : Plain (loadItems ty) := by
  cases ty with
  | none => exact plain_word _
  | some ty =>
    simp only [loadItems]
    split_ifs
    · exact plain_words []
    · exact plain_word _
    · exact plain_word _

theorem plain_store (ty : Option Ty) : Plain (storeItems ty) := by
  cases ty with
  | none => exact plain_word _
  | some ty =>
    simp only [storeItems]
    split_ifs
    · exact plain_word _
    · exact plain_word _

theorem plain_frame (size : Int) : Plain (frameItems size) := by
  unfold frameItems
  split_ifs
  · exact plain_word _
  · exact (plain_words _).append (plain_word _)
  · exact plain_words []

theorem plain_param (offset size : Int) (i : Nat) : Plain (paramItems offset size i) := by
  unfold paramItems
  split_ifs
  · exact (plain_word _).append (plain_word _)
  · exact (plain_word _).append (plain_word _)
  · exact ((plain_words _).append (plain_word _)).append (plain_word _)
  · exact ((plain_words _).append (plain_word _)).append (plain_word _)

theorem plain_entry (fn : Func) : Plain (entryItems fn) := by
  have params (l : List (Nat × Nat)) (f : Nat × Nat → List Item) (each : ∀ x, Plain (f x)) :
      Plain (l.flatMap f) := by
    induction l with
    | nil => exact plain_words []
    | cons x l ih =>
      rw [List.flatMap_cons]
      exact (each x).append ih
  exact ((plain_words [_, _]).append (plain_frame _)).append
    (params _ _ fun x => plain_param _ _ _)

end Plain

section Writing

variable (c : Ctx)

def writeItem : Item → Prog sticky Unit
  | .word w => emit c w
  | .br k l => emitBranch c k l
  | .lab l => place l
  | .fn i => do
    noteCall i
    emitAll c (loadimm x9 0)
  | .tick l => do
    emitAll c (loadimm x9 c.tick)
    emit c (blr x9)
    emitBranch c .cbz l

def write (l : List Item) : Prog sticky Unit := .each l (writeItem c)

def written (l : List Item) (s : Gen) : Gen := ((write c l).run s).2

variable {c}

theorem written_cons (x : Item) (l : List Item) (s : Gen) :
    written c (x :: l) s = written c l ((writeItem c x).run s).2 := rfl

theorem written_append (l m : List Item) (s : Gen) :
    written c (l ++ m) s = written c m (written c l s) := by
  induction l generalizing s with
  | nil => rfl
  | cons x l ih => exact ih _

def withLabels (s : Gen) (n : Nat) : Gen := { s with nlab := n }

theorem emit_withLabels (w : Word) (s : Gen) (n : Nat) :
    ((emit c w).run (withLabels s n)).2 = withLabels ((emit c w).run s).2 n := by
  change (if c.cap < 4 * s.pos + 4 then _ else _) =
    withLabels (if c.cap < 4 * s.pos + 4 then _ else _) n
  split_ifs
  · rfl
  · rfl

theorem emitAll_withLabels (l : List Word) (s : Gen) (n : Nat) :
    ((emitAll c l).run (withLabels s n)).2 = withLabels ((emitAll c l).run s).2 n := by
  induction l generalizing s with
  | nil => rfl
  | cons w l ih =>
    change ((emitAll c l).run ((emit c w).run (withLabels s n)).2).2 = _
    rw [emit_withLabels]
    exact ih _

theorem emitBranch_withLabels (k : BrKind) (l : Nat) (s : Gen) (n : Nat) :
    ((emitBranch c k l).run (withLabels s n)).2 = withLabels ((emitBranch c k l).run s).2 n := by
  change ((emit c k.word).run ((noteBranch k l).run (withLabels s n)).2).2 = _
  have note : ((noteBranch k l).run (withLabels s n)).2 =
      withLabels ((noteBranch k l).run s).2 n := by
    change (if s.bfx.length < maxBfx then _ else _) =
      withLabels (if s.bfx.length < maxBfx then _ else _) n
    split_ifs
    · rfl
    · rfl
  rw [note]
  exact emit_withLabels _ _ n

theorem writeItem_withLabels (x : Item) (s : Gen) (n : Nat) :
    ((writeItem c x).run (withLabels s n)).2 = withLabels ((writeItem c x).run s).2 n := by
  cases x with
  | word w => exact emit_withLabels w s n
  | br k l => exact emitBranch_withLabels k l s n
  | lab l =>
    change (if l < maxLab then _ else _) = withLabels (if l < maxLab then _ else _) n
    split_ifs
    · rfl
    · rfl
  | fn i =>
    change ((emitAll c (loadimm x9 0)).run ((noteCall i).run (withLabels s n)).2).2 = _
    have note : ((noteCall i).run (withLabels s n)).2 = withLabels ((noteCall i).run s).2 n := by
      change (if s.cfx.length < maxCfx then _ else _) =
        withLabels (if s.cfx.length < maxCfx then _ else _) n
      split_ifs
      · rfl
      · rfl
    rw [note]
    exact emitAll_withLabels _ _ n
  | tick l =>
    change ((emitBranch c .cbz l).run ((emit c (blr x9)).run
      ((emitAll c (loadimm x9 c.tick)).run (withLabels s n)).2).2).2 = _
    rw [emitAll_withLabels, emit_withLabels]
    exact emitBranch_withLabels _ _ _ n

theorem written_withLabels (l : List Item) (s : Gen) (n : Nat) :
    written c l (withLabels s n) = withLabels (written c l s) n := by
  induction l generalizing s with
  | nil => rfl
  | cons x l ih =>
    rw [written_cons, written_cons, writeItem_withLabels]
    exact ih _

theorem written_labels (l : List Item) (s : Gen) :
    withLabels (written c l s) s.nlab = written c l s :=
  (written_withLabels l s s.nlab).symm

variable (c)

/-- Without an error a program writes a listing that depends on the next label
alone, takes so many labels and gives a value that depends on the next label too. -/
def Lists {α : Type} (p : Prog sticky α) (r : Nat → α) (f : Nat → List Item) (k : Nat) : Prop :=
  ∀ s, (p.run s).2.err = none →
    (p.run s).1 = r s.nlab ∧ (p.run s).2 = withLabels (written c (f s.nlab) s) (s.nlab + k)

def Writes (p : Prog sticky Unit) (f : Nat → List Item) (k : Nat) : Prop :=
  Lists c p (fun _ => ()) f k

variable {c} {α β : Type}

variable {r : Nat → α} {f g : Nat → List Item} {k : Nat} {p : Prog sticky Unit}

theorem Lists.bind {p : Prog sticky α} {q : α → Prog sticky β} {r' : α → Nat → β}
    {g : α → Nat → List Item} {k' : Nat}
    (first : Lists c p r f k)
    (second : ∀ a, Lists c (q a) (r' a) (g a) k') :
    Lists c (p >>= q) (fun n => r' (r n) (n + k)) (fun n => f n ++ g (r n) (n + k)) (k + k') := by
  intro s fine
  change ((q (p.run s).1).run (p.run s).2).2.err = none at fine
  obtain ⟨value, state⟩ := first s (((q (p.run s).1).keeps _).err fine)
  obtain ⟨value', state'⟩ := second _ _ fine
  change ((q (p.run s).1).run (p.run s).2).1 = _ ∧ ((q (p.run s).1).run (p.run s).2).2 = _
  have next : (p.run s).2.nlab = s.nlab + k := by rw [state]; rfl
  rw [next, value] at value' state'
  refine ⟨by rw [value]; exact value', ?_⟩
  rw [value, state', state, written_withLabels, written_append, Nat.add_assoc]
  rfl

theorem Lists.value (a : α) : Lists c (pure a) (fun _ => a) (fun _ => []) 0 :=
  fun _ _ => ⟨rfl, rfl⟩

theorem Lists.congr {p : Prog sticky α} {r' : Nat → α} {j : Nat}
    (lists : Lists c p r f k) (value : ∀ n, r n = r' n) (items : ∀ n, f n = g n) (labels : k = j) :
    Lists c p r' g j := by
  obtain rfl := funext value
  obtain rfl := funext items
  obtain rfl := labels
  exact lists

theorem newlabel_run (s : Gen) : newlabel.run s =
    if maxLab ≤ s.nlab then (0, { s with err := some (s.err.getD "too many labels") })
    else (s.nlab, withLabels s (s.nlab + 1)) := rfl

theorem Lists.label {q : Nat → Prog sticky α} {r : Nat → Nat → α} {g : Nat → Nat → List Item}
    (rest : ∀ l, Lists c (q l) (r l) (g l) k) :
    Lists c (newlabel >>= q) (fun n => r n (n + 1)) (fun n => g n (n + 1)) (1 + k) := by
  have new : Lists c newlabel (fun n => n) (fun _ => []) 1 := by
    intro s fine
    rw [newlabel_run] at fine ⊢
    split_ifs at fine ⊢
    exact ⟨rfl, rfl⟩
  exact new.bind rest

theorem Writes.seq {q : Prog sticky α} {k' : Nat}
    (first : Writes c p f k) (second : Lists c q r g k') :
    Lists c (p >>= fun _ => q) (fun n => r (n + k)) (fun n => f n ++ g (n + k)) (k + k') :=
  first.bind fun _ => second

theorem Writes.congr {j : Nat}
    (lists : Writes c p f k) (items : ∀ n, f n = g n) (labels : k = j) : Writes c p g j :=
  Lists.congr lists (fun _ => rfl) items labels

theorem Writes.nothing : Writes c (pure ()) (fun _ => []) 0 := Lists.value ()

theorem Writes.line (x : Item) : Writes c (writeItem c x) (fun _ => [x]) 0 :=
  fun s _ => ⟨rfl, (written_labels [x] s).symm⟩

theorem Writes.word (w : Word) : Writes c (emit c w) (fun _ => [.word w]) 0 := Writes.line (.word w)

theorem Writes.all (l : List Word) : Writes c (emitAll c l) (fun _ => words l) 0 := by
  induction l with
  | nil => exact .nothing
  | cons w l ih => exact (Writes.word w).seq ih

theorem Writes.branch (k : BrKind) (l : Nat) :
    Writes c (emitBranch c k l) (fun _ => [.br k l]) 0 :=
  Writes.line (.br k l)

theorem Writes.place (l : Nat) : Writes c (place l) (fun _ => [.lab l]) 0 := Writes.line (.lab l)

theorem Writes.guard (lists : Writes c p f k) : Writes c (unlessFailed p) f k := by
  intro s fine
  have clean := (unlessFailed p).keeps s |>.err fine
  have same : (unlessFailed p).run s = p.run s := by
    change Prog.run (if s.err.isSome then pure () else p) s = p.run s
    rw [clean]
    rfl
  rw [same] at fine ⊢
  exact lists s fine

theorem Writes.error (msg : String) (f : Nat → List Item) (k : Nat) :
    Writes c (ccError msg) f k :=
  fun _ fine => nomatch fine

theorem Lists.failed {q : Unit → Prog sticky α} (msg : String) (r : Nat → α)
    (f : Nat → List Item) (k : Nat) : Lists c (ccError msg >>= q) r f k := by
  intro s fine
  have before := ((q ()).keeps ((ccError msg).run s).2).err fine
  cases before

theorem Writes.budget (l : Nat) : Writes c (emitBudgetCheck c l) (fun _ => budget c l) 0 := by
  unfold emitBudgetCheck Assembly.budget
  split_ifs
  · exact .nothing
  · exact Writes.line (.tick l)

end Writing

section Refinement

variable (c : Ctx) (offsets : List Int)

theorem genVar_writes (v : VarRef) :
    Writes c (genVar c offsets v) (fun _ => varItems offsets v) 0 := by
  cases v with
  | glob gaddr => exact .all _
  | loc i =>
    simp only [genVar, varItems]
    split_ifs
    · exact .word _
    · exact (Writes.all _).seq (Writes.word _)

theorem genOff_writes (off : Int) : Writes c (genOff c off) (fun _ => offItems off) 0 := by
  unfold genOff offItems
  split_ifs
  · exact .nothing
  · exact .word _

theorem genLoad_writes (ty : Option Ty) : Writes c (genLoad c ty) (fun _ => loadItems ty) 0 := by
  cases ty with
  | none => exact .word _
  | some ty =>
    simp only [genLoad, loadItems]
    split_ifs
    · exact .nothing
    · exact .word _
    · exact .word _

theorem genStore_writes (ty : Option Ty) : Writes c (genStore c ty) (fun _ => storeItems ty) 0 := by
  cases ty with
  | none => exact .word _
  | some ty =>
    simp only [genStore, storeItems]
    split_ifs
    · exact .word _
    · exact .word _

theorem genTarget_writes (funcname : String) :
    Writes c (genTarget c funcname) (fun _ => targetItems c funcname) 0 := by
  unfold genTarget targetItems
  cases c.funcs.findIdx? (· = funcname) with
  | some fn => exact (Writes.line (.fn fn)).seq (Writes.word _)
  | none =>
    dsimp only
    split_ifs
    · exact .error _ _ _
    · exact (Writes.all _).seq (Writes.word _)

mutual

theorem genAddr_writes : ∀ e : Expr,
    Writes c (genAddr c offsets e) (addrItems c offsets e) (exprLabels e)
  | .var v _ => genVar_writes c offsets v
  | .deref e _ => genExpr_writes e
  | .member e off _ => (genAddr_writes e).seq (genOff_writes c off)
  | .str _ => Writes.all _
  | .num _ => Writes.error _ _ _
  | .assign _ _ => Writes.error _ _ _
  | .addr _ => Writes.error _ _ _
  | .neg _ => Writes.error _ _ _
  | .not _ => Writes.error _ _ _
  | .logand _ _ => Writes.error _ _ _
  | .logor _ _ => Writes.error _ _ _
  | .bin _ _ _ => Writes.error _ _ _
  | .call _ _ => Writes.error _ _ _

theorem genExpr_writes : ∀ e : Expr,
    Writes c (genExpr c offsets e) (exprItems c offsets e) (exprLabels e)
  | .num _ => Writes.guard (Writes.all _)
  | .str _ => Writes.guard (Writes.all _)
  | .var v ty => Writes.guard ((genVar_writes c offsets v).seq (genLoad_writes c ty))
  | .assign lhs rhs => by
    refine Writes.guard (Writes.congr ((genAddr_writes lhs).seq ((Writes.word _).seq
      ((genExpr_writes rhs).seq ((Writes.word _).seq (genStore_writes c lhs.ty)))))
      (fun n => ?_) ?_)
    · simp [exprItems]
    · simp [exprLabels]
  | .deref e ty => Writes.guard ((genExpr_writes e).seq (genLoad_writes c ty))
  | .member e off ty => by
    refine Writes.guard (Writes.congr ((genAddr_writes e).seq ((genOff_writes c off).seq
      (genLoad_writes c ty))) (fun n => ?_) ?_)
    · simp [exprItems]
    · simp [exprLabels]
  | .addr e => Writes.guard (genAddr_writes e)
  | .neg e => Writes.guard ((genExpr_writes e).seq (Writes.word _))
  | .not e => Writes.guard ((genExpr_writes e).seq ((Writes.word _).seq (Writes.word _)))
  | .logand l r => by
    refine Writes.guard (Writes.congr (Lists.label fun lfalse => Lists.label fun lend =>
      (genExpr_writes l).seq ((Writes.branch _ _).seq ((genExpr_writes r).seq
      ((Writes.branch _ _).seq ((Writes.word _).seq ((Writes.branch _ _).seq
      ((Writes.place _).seq ((Writes.word _).seq (Writes.place _))))))))) (fun n => ?_) ?_)
    · simp [exprItems]
    · simp [exprLabels]; omega
  | .logor l r => by
    refine Writes.guard (Writes.congr (Lists.label fun ltrue => Lists.label fun lend =>
      (genExpr_writes l).seq ((Writes.word _).seq ((Writes.branch _ _).seq
      ((genExpr_writes r).seq ((Writes.branch _ _).seq ((Writes.word _).seq
      ((Writes.branch _ _).seq ((Writes.place _).seq ((Writes.word _).seq
      (Writes.place _)))))))))) (fun n => ?_) ?_)
    · simp [exprItems]
    · simp [exprLabels]; omega
  | .bin op l r => by
    refine Writes.guard (Writes.congr ((genExpr_writes r).seq ((Writes.word _).seq
      ((genExpr_writes l).seq ((Writes.word _).seq (Writes.all _))))) (fun n => ?_) ?_)
    · simp [exprItems]
    · simp [exprLabels]
  | .call funcname args => by
    by_cases many : 8 < args.length
    · refine Writes.guard ?_
      rw [if_pos many]
      exact Lists.failed _ _ _ _
    · refine Writes.guard ?_
      rw [if_neg many]
      refine Writes.congr (Writes.nothing.seq ((genArgs_writes args 8 (by omega)).seq
        ((Writes.all _).seq (genTarget_writes c funcname)))) (fun n => ?_) ?_
      · simp [exprItems]
      · simp [exprLabels]

theorem genArgs_writes : ∀ (args : List Expr) (left : Nat), args.length ≤ left →
    Writes c (genArgs c offsets args left) (argsItems c offsets args) (argsLabels args)
  | [], _, _ => Writes.nothing
  | arg :: rest, left + 1, few => by
    refine Writes.congr ((genExpr_writes arg).seq ((Writes.word _).seq
      (genArgs_writes rest left (Nat.le_of_succ_le_succ few)))) (fun n => ?_) ?_
    · simp [argsItems]
    · simp [argsLabels]

end

theorem genCases_lists (cases : List (Option (BitVec 64))) :
    Lists c (genCases c cases) (fun n => (caseLabels cases n, defLabel cases n))
      (dispatch cases) cases.length := by
  induction cases with
  | nil => exact Lists.value _
  | cons val rest ih =>
    cases val with
    | none =>
      refine Lists.congr (Lists.label fun l => ih.bind fun x => Lists.value _) (fun n => rfl)
        (fun n => ?_) ?_
      · simp [dispatch]
      · simp [Nat.add_comm]
    | some val =>
      refine Lists.congr (Lists.label fun l => (Writes.all _).seq ((Writes.word _).seq
        ((Writes.branch _ _).seq (ih.bind fun x => Lists.value _)))) (fun n => rfl)
        (fun n => ?_) ?_
      · simp [dispatch]
      · simp [Nat.add_comm]

theorem genCond_writes (lend : Nat) (cond : Option Expr) :
    Writes c (genCond c offsets lend cond) (condItems c offsets lend cond) (optLabels cond) := by
  cases cond with
  | none => exact .nothing
  | some cond => exact (genExpr_writes c offsets cond).seq (Writes.branch _ _)

theorem genInc_writes (inc : Option Expr) :
    Writes c (genInc c offsets inc) (incItems c offsets inc) (optLabels inc) := by
  cases inc with
  | none => exact .nothing
  | some inc => exact genExpr_writes c offsets inc

mutual

theorem genStmt_writes (t : Targets) (labels : List Nat) : ∀ s : Stmt,
    Writes c (genStmt c offsets t labels s) (stmtItems c offsets t labels s) (stmtLabels s)
  | .null => Writes.nothing
  | .expr e => Writes.guard (genExpr_writes c offsets e)
  | .ret e => Writes.guard ((genExpr_writes c offsets e).seq (Writes.branch _ _))
  | .ite cond yes no => by
    refine Writes.guard (Writes.congr (Lists.label fun lelse => Lists.label fun lend =>
      (genExpr_writes c offsets cond).seq ((Writes.branch _ _).seq
      ((genStmt_writes t labels yes).seq ((Writes.branch _ _).seq ((Writes.place _).seq
      ((genStmt_writes t _ no).seq (Writes.place _))))))) (fun n => ?_) ?_)
    · simp [stmtItems]
    · simp [stmtLabels]; omega
  | .wloop cond body => by
    refine Writes.guard (Writes.congr (Lists.label fun lbegin => Lists.label fun lend =>
      (Writes.place _).seq ((genExpr_writes c offsets cond).seq ((Writes.branch _ _).seq
      ((genStmt_writes _ labels body).seq ((Writes.budget _).seq ((Writes.branch _ _).seq
      (Writes.place _))))))) (fun n => ?_) ?_)
    · simp [stmtItems]
    · simp [stmtLabels]; omega
  | .floop init cond inc body => by
    refine Writes.guard (Writes.congr (Lists.label fun lbegin => Lists.label fun lcont =>
      Lists.label fun lend => (genStmt_writes t labels init).seq ((Writes.place _).seq
      ((genCond_writes c offsets _ cond).seq ((genStmt_writes _ _ body).seq
      ((Writes.place _).seq ((genInc_writes c offsets inc).seq ((Writes.budget _).seq
      ((Writes.branch _ _).seq (Writes.place _))))))))) (fun n => ?_) ?_)
    · simp [stmtItems]
    · simp [stmtLabels]; omega
  | .switch cond body => by
    refine Writes.guard (Writes.congr (Lists.label fun lend => (genExpr_writes c offsets cond).seq
      ((genCases_lists c body.cases.reverse).bind fun x => (Writes.branch _ _).seq
      ((genStmt_writes _ x.1 body).seq (Writes.place _)))) (fun n => ?_) ?_)
    · simp [stmtItems]
    · simp [stmtLabels]
  | .case _ body => by
    refine Writes.guard (Writes.congr ((Writes.place _).seq (genStmt_writes t _ body))
      (fun n => ?_) ?_)
    · simp [stmtItems]
    · simp [stmtLabels]
  | .brk => by
    cases found : t.brk with
    | nil =>
      refine Writes.guard ?_
      rw [found]
      exact .error _ _ _
    | cons l rest =>
      refine Writes.guard ?_
      rw [found]
      exact (Writes.branch _ _).congr (fun n => by simp [stmtItems, found]) rfl
  | .cont => by
    cases found : t.cont with
    | nil =>
      refine Writes.guard ?_
      rw [found]
      exact .error _ _ _
    | cons l rest =>
      refine Writes.guard ?_
      rw [found]
      exact (Writes.branch _ _).congr (fun n => by simp [stmtItems, found]) rfl
  | .block body => Writes.guard (genStmts_writes t labels body)

theorem genStmts_writes (t : Targets) (labels : List Nat) : ∀ body : List Stmt,
    Writes c (genStmts c offsets t labels body) (stmtsItems c offsets t labels body)
      (stmtsLabels body)
  | [] => Writes.nothing
  | s :: rest => (genStmt_writes t labels s).seq (genStmts_writes t _ rest)

end

theorem genFrame_writes (frame : Int) :
    Writes c (genFrame c frame) (fun _ => frameItems frame) 0 := by
  unfold genFrame frameItems
  split_ifs
  · exact .word _
  · exact (Writes.all _).seq (Writes.word _)
  · exact .nothing

theorem genParam_writes (offset size : Int) (i : Nat) :
    Writes c (genParam c offset size i) (fun _ => paramItems offset size i) 0 := by
  unfold genParam paramItems
  split_ifs
  · exact (Writes.word _).seq (Writes.word _)
  · exact (Writes.all _).seq ((Writes.word _).seq (Writes.word _)) |> fun h =>
      Writes.congr h (fun _ => (List.append_assoc _ _ _).symm) rfl
  · exact (Writes.word _).seq (Writes.word _)
  · exact (Writes.all _).seq ((Writes.word _).seq (Writes.word _)) |> fun h =>
      Writes.congr h (fun _ => (List.append_assoc _ _ _).symm) rfl

theorem each_writes {α : Type} (l : List α) {p : α → Prog sticky Unit} {f : α → List Item}
    (each : ∀ x, Writes c (p x) (fun _ => f x) 0) :
    Writes c (.each l p) (fun _ => l.flatMap f) 0 := by
  induction l with
  | nil => exact .nothing
  | cons x l ih => exact Writes.congr ((each x).seq ih) (fun _ => List.flatMap_cons.symm) rfl

theorem genParams_writes (offsets : List Int) (locals : List Ty) (params : List (Nat × Nat)) :
    Writes c (.each params fun x =>
        genParam c (offsets.getD x.1 0) (locals[x.1]?.elim 8 fun ty => ty.size) x.2)
      (fun _ => params.flatMap fun x =>
        paramItems (offsets.getD x.1 0) (locals[x.1]?.elim 8 fun ty => ty.size) x.2) 0 :=
  each_writes c params fun x => genParam_writes c _ _ x.2

theorem genBody_writes (fn : Func) :
    Writes c (genBody c fn) (fun n => entryItems fn ++
      stmtItems c (assignOffsets fn.locals).1 ⟨n, [], []⟩ [] fn.body (n + 1) ++
      [.word (movImmSmall 0 0), .lab n, .word movSpFp, .word epilogueLdp, .word ret])
      (1 + stmtLabels fn.body) := by
  unfold genBody entryItems
  generalize assignOffsets fn.locals = layout
  obtain ⟨offsets, frame⟩ := layout
  dsimp only
  have exit (lret : Nat) : Writes c (do
      emit c (movImmSmall 0 0)
      place lret
      emit c movSpFp
      emit c epilogueLdp
      emit c ret) (fun _ => [.word (movImmSmall 0 0), .lab lret, .word movSpFp,
        .word epilogueLdp, .word ret]) 0 :=
    (Writes.word _).seq ((Writes.place _).seq ((Writes.word _).seq ((Writes.word _).seq
      (Writes.word _))))
  have params := genParams_writes c offsets fn.locals fn.params.zipIdx
  have rest (lret : Nat) := params.seq ((genStmt_writes c offsets ⟨lret, [], []⟩ [] fn.body).seq
    (exit lret))
  have all := Lists.label fun lret => (Writes.word prologueStp).seq ((Writes.word movFpSp).seq
    ((genFrame_writes c frame).seq (rest lret)))
  refine Writes.congr all (fun n => ?_) ?_
  · simp
  · simp

end Refinement

section Labels

variable (c : Ctx) (offsets : List Int)

def places (k : Nat) (l : List Item) : Nat := l.countP fun x => x = .lab k

def among (n count k : Nat) : Nat := if n ≤ k ∧ k < n + count then 1 else 0

theorem among_add (n a b k : Nat) : among n (a + b) k = among n a k + among (n + a) b k := by
  unfold among
  split_ifs
  all_goals omega

theorem among_one (n k : Nat) : among n 1 k = if n = k then 1 else 0 := by
  unfold among
  split_ifs
  all_goals omega

theorem among_two (n k : Nat) :
    among n 2 k = (if n = k then 1 else 0) + if n + 1 = k then 1 else 0 := by
  rw [among_add n 1 1, among_one, among_one]

@[simp] theorem places_append (k : Nat) (l m : List Item) :
    places k (l ++ m) = places k l + places k m := List.countP_append

@[simp] theorem places_nil (k : Nat) : places k [] = 0 := rfl

@[simp] theorem places_words (k : Nat) (l : List Word) : places k (words l) = 0 := by
  simp [places, words]

theorem places_cons (k : Nat) (x : Item) (l : List Item) :
    places k (x :: l) = places k l + if x = .lab k then 1 else 0 := by
  simp [places, List.countP_cons]

attribute [local simp] places_cons among_add addrItems exprItems argsItems stmtItems stmtsItems
  exprLabels argsLabels stmtLabels stmtsLabels

theorem places_budget (k e : Nat) : places k (budget c e) = 0 := by
  unfold budget
  split_ifs
  · rfl
  · simp

theorem Plain.places {l : List Item} (plain : Plain l) (k : Nat) : places k l = 0 := by
  obtain ⟨w, rfl⟩ := plain
  exact places_words k w

theorem places_target (k : Nat) (funcname : String) : places k (targetItems c funcname) = 0 := by
  unfold targetItems
  cases c.funcs.findIdx? (· = funcname) with
  | none => simp
  | some fn => simp

mutual

theorem addr_places (k : Nat) : ∀ (e : Expr) (n : Nat),
    places k (addrItems c offsets e n) ≤ among n (exprLabels e) k
  | .var v _, n => by simp [(plain_var offsets v).places]
  | .deref e _, n => by
    rw [addrItems, exprLabels]
    exact expr_places k e n
  | .member e off _, n => by
    rw [addrItems, exprLabels, places_append, (plain_off off).places]
    exact addr_places k e n
  | .str _, n | .num _, n | .assign _ _, n | .addr _, n | .neg _, n | .not _, n
  | .logand _ _, n | .logor _ _, n | .bin _ _ _, n | .call _ _, n => by simp

theorem expr_places (k : Nat) : ∀ (e : Expr) (n : Nat),
    places k (exprItems c offsets e n) ≤ among n (exprLabels e) k
  | .num _, n => by simp
  | .str _, n => by simp
  | .var v ty, n => by
    simp [(plain_var offsets v).places, (plain_load ty).places]
  | .assign lhs rhs, n => by
    have left := addr_places k lhs n
    have right := expr_places k rhs (n + exprLabels lhs)
    simp [(plain_store _).places]
    omega
  | .deref e ty, n => by
    have inner := expr_places k e n
    simpa [(plain_load ty).places] using inner
  | .member e off ty, n => by
    have inner := addr_places k e n
    simpa [(plain_load ty).places, (plain_off off).places] using inner
  | .addr e, n => by
    rw [exprItems, exprLabels]
    exact addr_places k e n
  | .neg e, n => by
    have inner := expr_places k e n
    simpa using inner
  | .not e, n => by
    have inner := expr_places k e n
    simpa using inner
  | .logand l r, n => by
    have left := expr_places k l (n + 2)
    have right := expr_places k r (n + 2 + exprLabels l)
    simp
    have own := among_two n k
    omega
  | .logor l r, n => by
    have left := expr_places k l (n + 2)
    have right := expr_places k r (n + 2 + exprLabels l)
    simp
    have own := among_two n k
    omega
  | .bin op l r, n => by
    have left := expr_places k l (n + exprLabels r)
    have right := expr_places k r n
    simp
    omega
  | .call funcname args, n => by
    have inner := args_places k args n
    simpa [places_target] using inner

theorem args_places (k : Nat) : ∀ (args : List Expr) (n : Nat),
    places k (argsItems c offsets args n) ≤ among n (argsLabels args) k
  | [], n => by simp
  | arg :: rest, n => by
    have first := expr_places k arg n
    have others := args_places k rest (n + exprLabels arg)
    simp
    omega

end

theorem places_dispatch (k : Nat) (cases : List (Option (BitVec 64))) (n : Nat) :
    places k (dispatch cases n) = 0 := by
  induction cases generalizing n with
  | nil => rfl
  | cons val rest ih =>
    cases val with
    | none => exact ih (n + 1)
    | some val => simp [dispatch, ih]

theorem places_cond (k lend : Nat) (cond : Option Expr) (n : Nat) :
    places k (condItems c offsets lend cond n) ≤ among n (optLabels cond) k := by
  cases cond with
  | none => simp [condItems]
  | some cond => simpa [condItems, optLabels] using expr_places c offsets k cond n

theorem places_inc (k : Nat) (inc : Option Expr) (n : Nat) :
    places k (incItems c offsets inc n) ≤ among n (optLabels inc) k := by
  cases inc with
  | none => simp [incItems]
  | some inc => exact expr_places c offsets k inc n

theorem caseLabels_eq (cases : List (Option (BitVec 64))) (n : Nat) :
    caseLabels cases n = (List.range' n cases.length).reverse := by
  induction cases generalizing n with
  | nil => rfl
  | cons val rest ih =>
    rw [caseLabels, ih, List.length_cons, List.range'_succ, List.reverse_cons]

theorem caseLabels_count (k : Nat) (cases : List (Option (BitVec 64))) (n : Nat) :
    (caseLabels cases n).count k = among n cases.length k := by
  induction cases generalizing n with
  | nil => simp [caseLabels, among]
  | cons val rest ih =>
    rw [caseLabels, List.count_append, ih, List.length_cons, Nat.add_comm rest.length, among_add,
      among_one, List.count_singleton, Nat.add_comm]
    simp

theorem count_take_succ (k m : Nat) {labels : List Nat} (enough : m < labels.length) :
    (labels.take (1 + m)).count k =
      (if labels.headD 0 = k then 1 else 0) + ((labels.drop 1).take m).count k := by
  cases labels with
  | nil => cases enough
  | cons l labels =>
    rw [Nat.add_comm 1, List.take_succ_cons, List.count_cons]
    simp [Nat.add_comm]

theorem count_take_add (k a b : Nat) (labels : List Nat) :
    (labels.take (a + b)).count k =
      (labels.take a).count k + ((labels.drop a).take b).count k := by
  rw [List.take_add, List.count_append]

mutual

theorem stmt_places (k : Nat) : ∀ (s : Stmt) (t : Targets) (labels : List Nat) (n : Nat),
    s.cases.length ≤ labels.length → places k (stmtItems c offsets t labels s n) ≤
      (labels.take s.cases.length).count k + among n (stmtLabels s) k
  | .null, t, labels, n, _ => by simp
  | .expr e, t, labels, n, _ => by
    have inner := expr_places c offsets k e n
    simp
    omega
  | .ret e, t, labels, n, _ => by
    have inner := expr_places c offsets k e n
    simp
    omega
  | .ite cond yes no, t, labels, n, enough => by
    rw [Stmt.cases, List.length_append] at enough
    have inner := expr_places c offsets k cond (n + 2)
    have first := stmt_places k yes t labels (n + 2 + exprLabels cond) (by omega)
    have second := stmt_places k no t (labels.drop yes.cases.length)
      (n + 2 + exprLabels cond + stmtLabels yes) (by rw [List.length_drop]; omega)
    have own := among_two n k
    simp [Stmt.cases, count_take_add]
    omega
  | .wloop cond body, t, labels, n, enough => by
    rw [Stmt.cases] at enough
    have inner := expr_places c offsets k cond (n + 2)
    have loop := stmt_places k body { t with brk := (n + 1) :: t.brk, cont := n :: t.cont } labels
      (n + 2 + exprLabels cond) enough
    have own := among_two n k
    simp [Stmt.cases, places_budget]
    omega
  | .floop init cond inc body, t, labels, n, enough => by
    rw [Stmt.cases, List.length_append] at enough
    have first := stmt_places k init t labels (n + 3) (by omega)
    have test := places_cond c offsets k (n + 2) cond
      (n + 3 + stmtLabels init)
    have loop := stmt_places k body
      { t with brk := (n + 2) :: t.brk, cont := (n + 1) :: t.cont }
      (labels.drop init.cases.length) (n + 3 + stmtLabels init + optLabels cond)
      (by rw [List.length_drop]; omega)
    have step := places_inc c offsets k inc
      (n + 3 + stmtLabels init + optLabels cond + stmtLabels body)
    have own : among n 3 k = ((if n = k then 1 else 0) + if n + 1 = k then 1 else 0) +
        if n + 2 = k then 1 else 0 := by
      rw [among_add n 2 1, among_two, among_one]
    simp [Stmt.cases, places_budget, count_take_add]
    omega
  | .switch cond body, t, labels, n, _ => by
    have inner := expr_places c offsets k cond (n + 1)
    have length : (caseLabels body.cases.reverse (n + 1 + exprLabels cond)).length =
        body.cases.length := by
      simp [caseLabels_eq]
    have arms := stmt_places k body { t with brk := n :: t.brk }
      (caseLabels body.cases.reverse (n + 1 + exprLabels cond))
      (n + 1 + exprLabels cond + body.cases.length) (Nat.le_of_eq length.symm)
    rw [List.take_of_length_le (Nat.le_of_eq length), caseLabels_count, List.length_reverse]
      at arms
    have own := among_one n k
    simp [Stmt.cases, places_dispatch]
    omega
  | .case val body, t, labels, n, enough => by
    rw [Stmt.cases, List.length_cons] at enough
    have inner := stmt_places k body t (labels.drop 1) n (by rw [List.length_drop]; omega)
    have count := count_take_succ k body.cases.length enough
    rw [stmtItems, stmtLabels, Stmt.cases, List.length_cons, Nat.add_comm body.cases.length, count]
    simp only [places_append, places_cons, places_nil, Item.lab.injEq]
    omega
  | .brk, t, labels, n, _ => by simp
  | .cont, t, labels, n, _ => by simp
  | .block body, t, labels, n, enough => by
    rw [Stmt.cases] at enough
    rw [stmtItems, stmtLabels, Stmt.cases]
    exact stmts_places k body t labels n enough

theorem stmts_places (k : Nat) : ∀ (body : List Stmt) (t : Targets) (labels : List Nat) (n : Nat),
    (casesOf body).length ≤ labels.length → places k (stmtsItems c offsets t labels body n) ≤
      (labels.take (casesOf body).length).count k + among n (stmtsLabels body) k
  | [], t, labels, n, _ => by simp
  | s :: rest, t, labels, n, enough => by
    rw [casesOf, List.length_append] at enough
    have first := stmt_places k s t labels n (by omega)
    have others := stmts_places k rest t (labels.drop s.cases.length) (n + stmtLabels s)
      (by rw [List.length_drop]; omega)
    simp [casesOf, count_take_add]
    omega

end

theorem func_places (k : Nat) {fn : Func} (closed : fn.body.cases = []) :
    places k (funcItems c fn) ≤ among 0 (1 + stmtLabels fn.body) k := by
  have body := stmt_places c (assignOffsets fn.locals).1 k fn.body ⟨0, [], []⟩
    [] 1 (by rw [closed]; exact Nat.le_refl 0)
  have own := among_one 0 k
  rw [closed] at body
  simp only [funcItems, places_append, (plain_entry fn).places, places_cons, places_nil,
    among_add] at body ⊢
  simp at body ⊢
  omega

end Labels

end XinuRpi5.Cc.Assembly
