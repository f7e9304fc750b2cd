/- source: cc/codegen.c
   digest: Branches lead to their labels and calls to their functions, unless a table is full. -/

import XinuRpi5.Cc.ControlFlow
import XinuRpi5.Cc.Installed
import Mathlib.Algebra.GroupWithZero.Nat

namespace XinuRpi5.Cc.BranchTargets

open Lib.RuledState Codegen Assembly ControlFlow
  Installed

section Settled

def goes : Item → Option (BrKind × Nat)
  | .br k l => some (k, l)
  | .tick l => some (.cbz, l)
  | _ => none

/-- Every branch of a listing goes to a label of the listing or to one of `out`, and every
call to one of `n` functions. -/
structure Settled (n : Nat) (out : Nat → Prop) (l : List Item) : Prop where
  branch : ∀ x ∈ l, ∀ k b, goes x = some (k, b) → BrKind.Clear k ∧ (.lab b ∈ l ∨ out b)
  call : ∀ i, .fn i ∈ l → i < n

variable {n : Nat} {out out' : Nat → Prop} {l m : List Item}

theorem Settled.nil : Settled n out [] :=
  ⟨fun _ listed => absurd listed List.not_mem_nil, fun _ listed => absurd listed List.not_mem_nil⟩

theorem Settled.append (first : Settled n out l) (second : Settled n out m) :
    Settled n out (l ++ m) := by
  constructor
  · intro x listed k b leads
    rcases List.mem_append.mp listed with left | right
    · obtain ⟨clear, place⟩ := first.branch x left k b leads
      exact ⟨clear, place.imp_left (List.mem_append_left m)⟩
    · obtain ⟨clear, place⟩ := second.branch x right k b leads
      exact ⟨clear, place.imp_left (List.mem_append_right l)⟩
  · intro i listed
    rcases List.mem_append.mp listed with left | right
    · exact first.call i left
    · exact second.call i right

theorem Settled.close (settled : Settled n out l) (placed : ∀ b, out b → .lab b ∈ l ∨ out' b) :
    Settled n out' l := by
  constructor
  · intro x listed k b leads
    obtain ⟨clear, place⟩ := settled.branch x listed k b leads
    exact ⟨clear, place.elim Or.inl (placed b)⟩
  · exact settled.call

theorem Settled.close_two {x y : Nat} (settled : Settled n (fun b => out b ∨ b = x ∨ b = y) l)
    (first : .lab x ∈ l) (second : .lab y ∈ l) : Settled n out l := by
  refine settled.close fun b is => ?_
  rcases is with is | rfl | rfl
  · exact Or.inr is
  · exact Or.inl first
  · exact Or.inl second

theorem Settled.mono (settled : Settled n out l) (more : ∀ b, out b → out' b) :
    Settled n out' l := settled.close fun b is => Or.inr (more b is)

theorem Settled.words (w : List Word) : Settled n out (words w) := by
  constructor
  · intro x listed k b leads
    obtain ⟨w, _, rfl⟩ := List.mem_map.mp listed
    cases leads
  · intro i listed
    obtain ⟨w, _, same⟩ := List.mem_map.mp listed
    cases same

theorem Settled.plain (plain : Plain l) : Settled n out l := by
  obtain ⟨w, rfl⟩ := plain
  exact Settled.words w

theorem Settled.word (w : Word) : Settled n out [.word w] := Settled.words [w]

theorem Settled.lab (b : Nat) : Settled n out [.lab b] := by
  constructor
  · intro x listed k b leads
    rw [List.mem_singleton.mp listed] at leads
    cases leads
  · intro i listed
    cases List.mem_singleton.mp listed

theorem Settled.br {k : BrKind} {b : Nat} (clear : BrKind.Clear k) (is : out b) :
    Settled n out [.br k b] := by
  constructor
  · intro x listed k' b' leads
    rw [List.mem_singleton.mp listed] at leads
    obtain ⟨rfl, rfl⟩ := Prod.mk.inj (Option.some.inj leads)
    exact ⟨clear, Or.inr is⟩
  · intro i listed
    cases List.mem_singleton.mp listed

theorem clear_b : BrKind.Clear .b := fun cond is => by cases is

theorem clear_cbz : BrKind.Clear .cbz := fun cond is => by cases is

theorem clear_cbnz : BrKind.Clear .cbnz := fun cond is => by cases is

theorem clear_eq : BrKind.Clear (.bcond cEq) := by
  intro cond is
  obtain rfl := BrKind.bcond.inj is
  decide

/-- Two operands, each with a test that leads to the shorter end. -/
theorem settled_short {k : BrKind} {w a b : List Item} (clear : BrKind.Clear k) (plain : Plain w)
    {m : Nat} (x y : Word) (first : Settled n out a) (second : Settled n out b) :
    Settled n out (a ++ (w ++ [.br k m]) ++ b ++
      [.br k m, .word x, .br .b (m + 1), .lab m, .word y, .lab (m + 1)]) := by
  have inner {l : List Item} (settled : Settled n out l) :
      Settled n (fun b => out b ∨ b = m ∨ b = m + 1) l := settled.mono fun _ => Or.inl
  have test : Settled n (fun b => out b ∨ b = m ∨ b = m + 1) [.br k m] :=
    Settled.br clear (Or.inr (Or.inl rfl))
  have skip : Settled n (fun b => out b ∨ b = m ∨ b = m + 1) [.br .b (m + 1)] :=
    Settled.br clear_b (Or.inr (Or.inr rfl))
  have own := (((inner first).append ((Settled.plain plain).append test)).append
    (inner second)).append ((((test.append (Settled.word x)).append skip).append
      (Settled.lab m)).append ((Settled.word y).append (Settled.lab (m + 1))))
  exact own.close_two (by simp) (by simp)

variable (c : Ctx) (offsets : List Int)

theorem settled_budget {e : Nat} (is : out e) : Settled n out (budget c e) := by
  unfold budget
  split_ifs
  · exact Settled.nil
  · constructor
    · intro x listed k b leads
      rw [List.mem_singleton.mp listed] at leads
      obtain ⟨rfl, rfl⟩ := Prod.mk.inj (Option.some.inj leads)
      exact ⟨clear_cbz, Or.inr is⟩
    · intro i listed
      cases List.mem_singleton.mp listed

theorem settled_target (name : String) : Settled c.funcs.length out (targetItems c name) := by
  unfold targetItems
  cases found : c.funcs.findIdx? (· = name) with
  | none => exact (Settled.words _).append (Settled.word _)
  | some i =>
    constructor
    · intro x listed k b leads
      simp only [List.mem_cons, List.not_mem_nil, or_false] at listed
      rcases listed with rfl | rfl
      · cases leads
      · cases leads
    · intro j listed
      simp only [List.mem_cons, Item.fn.injEq, reduceCtorEq, List.not_mem_nil, or_false] at listed
      rw [listed]
      exact (List.findIdx?_eq_some_iff_getElem.mp found).1

mutual

theorem addr_settled : ∀ (e : Expr) (m : Nat),
    Settled c.funcs.length out (addrItems c offsets e m)
  | .var v _, m => by
    rw [addrItems]
    exact Settled.plain (plain_var offsets v)
  | .deref e _, m => by
    rw [addrItems]
    exact expr_settled e m
  | .member e off _, m => by
    rw [addrItems]
    exact (addr_settled e m).append (Settled.plain (plain_off off))
  | .str _, m => by
    rw [addrItems]
    exact Settled.words _
  | .num _, m | .assign _ _, m | .addr _, m | .neg _, m | .not _, m | .logand _ _, m
  | .logor _ _, m | .bin _ _ _, m | .call _ _, m => by simpa [addrItems] using Settled.nil

theorem expr_settled : ∀ (e : Expr) (m : Nat),
    Settled c.funcs.length out (exprItems c offsets e m)
  | .num _, m => by
    rw [exprItems]
    exact Settled.words _
  | .str _, m => by
    rw [exprItems]
    exact Settled.words _
  | .var v ty, m => by
    rw [exprItems]
    exact (Settled.plain (plain_var offsets v)).append (Settled.plain (plain_load ty))
  | .assign lhs rhs, m => by
    rw [exprItems]
    exact ((((addr_settled lhs m).append (Settled.word _)).append
      (expr_settled rhs (m + exprLabels lhs))).append (Settled.word _)).append
      (Settled.plain (plain_store lhs.ty))
  | .deref e ty, m => by
    rw [exprItems]
    exact (expr_settled e m).append (Settled.plain (plain_load ty))
  | .member e off ty, m => by
    rw [exprItems]
    exact ((addr_settled e m).append (Settled.plain (plain_off off))).append
      (Settled.plain (plain_load ty))
  | .addr e, m => by
    rw [exprItems]
    exact addr_settled e m
  | .neg e, m => by
    rw [exprItems]
    exact (expr_settled e m).append (Settled.word _)
  | .not e, m => by
    rw [exprItems]
    exact (expr_settled e m).append (Settled.words [_, _])
  | .logand l r, m => by
    rw [exprItems]
    exact settled_short clear_cbz (plain_words []) _ _ (expr_settled l (m + 2))
      (expr_settled r (m + 2 + exprLabels l))
  | .logor l r, m => by
    rw [exprItems]
    exact settled_short clear_cbnz (plain_word (cmp0 0)) _ _ (expr_settled l (m + 2))
      (expr_settled r (m + 2 + exprLabels l))
  | .bin op l r, m => by
    rw [exprItems]
    exact ((((expr_settled r m).append (Settled.word _)).append
      (expr_settled l (m + exprLabels r))).append (Settled.word _)).append (Settled.words _)
  | .call name args, m => by
    rw [exprItems]
    exact ((args_settled args m).append (Settled.words _)).append (settled_target c name)

theorem args_settled : ∀ (args : List Expr) (m : Nat),
    Settled c.funcs.length out (argsItems c offsets args m)
  | [], m => by simpa [argsItems] using Settled.nil
  | arg :: rest, m => by
    rw [argsItems]
    exact ((expr_settled arg m).append (Settled.word _)).append
      (args_settled rest (m + exprLabels arg))

end

theorem mem_caseLabels {cases : List (Option (BitVec 64))} {m b : Nat} :
    b ∈ caseLabels cases m ↔ m ≤ b ∧ b < m + cases.length := by
  rw [caseLabels_eq, List.mem_reverse, List.mem_range'_1]

theorem settled_dispatch (cases : List (Option (BitVec 64))) (m : Nat)
    (is : ∀ b, m ≤ b → b < m + cases.length → out b) : Settled n out (dispatch cases m) := by
  induction cases generalizing m with
  | nil => exact Settled.nil
  | cons val rest ih =>
    have later := ih (m + 1) fun b low high => is b (by omega) (by rw [List.length_cons]; omega)
    cases val with
    | none => exact later
    | some val =>
      rw [dispatch]
      have own : out m := is m (Nat.le_refl m) (by rw [List.length_cons]; omega)
      exact ((Settled.words _).append ((Settled.word _).append (Settled.br clear_eq own))).append
        later

theorem defLabel_mem {cases : List (Option (BitVec 64))} {m b : Nat}
    (is : defLabel cases m = some b) : b ∈ caseLabels cases m := by
  induction cases generalizing m b with
  | nil => cases is
  | cons val rest ih =>
    rw [caseLabels, List.mem_append, List.mem_singleton]
    cases val with
    | none =>
      rw [defLabel] at is
      cases last : defLabel rest (m + 1) with
      | none =>
        rw [last] at is
        exact Or.inr (Option.some.inj is).symm
      | some l =>
        rw [last] at is
        obtain rfl := Option.some.inj is
        exact Or.inl (ih last)
    | some val => exact Or.inl (ih is)

theorem settled_cond {lend : Nat} (is : out lend) (cond : Option Expr) (m : Nat) :
    Settled c.funcs.length out (condItems c offsets lend cond m) := by
  cases cond with
  | none => exact Settled.nil
  | some cond => exact (expr_settled c offsets cond m).append (Settled.br clear_cbz is)

theorem settled_inc (inc : Option Expr) (m : Nat) :
    Settled c.funcs.length out (incItems c offsets inc m) := by
  cases inc with
  | none => exact Settled.nil
  | some inc => exact expr_settled c offsets inc m

end Settled

section Statements

variable (c : Ctx) (offsets : List Int)

mutual

/-- The labels of the cases in a statement are placed in its code. -/
theorem stmt_cases : ∀ (s : Stmt) (t : Targets) (labels : List Nat) (m : Nat),
    s.cases.length ≤ labels.length →
    ∀ b ∈ labels.take s.cases.length, .lab b ∈ stmtItems c offsets t labels s m
  | .null, t, labels, m, _, b, listed => by cases listed
  | .expr e, t, labels, m, _, b, listed => by cases listed
  | .ret e, t, labels, m, _, b, listed => by cases listed
  | .switch cond body, t, labels, m, _, b, listed => by cases listed
  | .brk, t, labels, m, _, b, listed => by cases listed
  | .cont, t, labels, m, _, b, listed => by cases listed
  | .ite cond yes no, t, labels, m, enough, b, listed => by
    rw [Stmt.cases, List.length_append] at enough listed
    rw [List.take_add, List.mem_append] at listed
    simp only [stmtItems, List.mem_append]
    rcases listed with first | second
    · have place := stmt_cases yes t labels (m + 2 + exprLabels cond) (by omega) b first
      exact Or.inl (Or.inl (Or.inl (Or.inr place)))
    · have place := stmt_cases no t (labels.drop yes.cases.length)
        (m + 2 + exprLabels cond + stmtLabels yes) (by rw [List.length_drop]; omega) b second
      exact Or.inl (Or.inr place)
  | .wloop cond body, t, labels, m, enough, b, listed => by
    have place := stmt_cases body { t with brk := (m + 1) :: t.brk, cont := m :: t.cont } labels
      (m + 2 + exprLabels cond) enough b listed
    simp only [stmtItems, List.mem_append]
    exact Or.inl (Or.inl (Or.inr place))
  | .floop init cond inc body, t, labels, m, enough, b, listed => by
    rw [Stmt.cases, List.length_append] at enough listed
    rw [List.take_add, List.mem_append] at listed
    simp only [stmtItems, List.mem_append]
    rcases listed with first | second
    · have place := stmt_cases init t labels (m + 3) (by omega) b first
      exact Or.inl (Or.inl (Or.inl (Or.inl (Or.inl (Or.inl (Or.inl place))))))
    · have place := stmt_cases body
        { t with brk := (m + 2) :: t.brk, cont := (m + 1) :: t.cont }
        (labels.drop init.cases.length) (m + 3 + stmtLabels init + optLabels cond)
        (by rw [List.length_drop]; omega) b second
      exact Or.inl (Or.inl (Or.inl (Or.inl (Or.inr place))))
  | .case val body, t, labels, m, enough, b, listed => by
    rw [Stmt.cases, List.length_cons] at enough listed
    simp only [stmtItems, List.mem_append, List.mem_singleton]
    cases labels with
    | nil => cases enough
    | cons l labels =>
      rw [List.take_succ_cons, List.mem_cons] at listed
      rcases listed with rfl | later
      · exact Or.inl rfl
      · exact Or.inr (stmt_cases body t labels m (Nat.le_of_succ_le_succ enough) b later)
  | .block body, t, labels, m, enough, b, listed => by
    rw [stmtItems]
    exact stmts_cases body t labels m enough b listed

theorem stmts_cases : ∀ (body : List Stmt) (t : Targets) (labels : List Nat) (m : Nat),
    (casesOf body).length ≤ labels.length →
    ∀ b ∈ labels.take (casesOf body).length, .lab b ∈ stmtsItems c offsets t labels body m
  | [], t, labels, m, _, b, listed => by cases listed
  | s :: rest, t, labels, m, enough, b, listed => by
    rw [casesOf, List.length_append] at enough listed
    rw [List.take_add, List.mem_append] at listed
    rw [stmtsItems, List.mem_append]
    rcases listed with first | second
    · exact Or.inl (stmt_cases s t labels m (by omega) b first)
    · exact Or.inr (stmts_cases rest t (labels.drop s.cases.length) (m + stmtLabels s)
        (by rw [List.length_drop]; omega) b second)

end

def Outer (t : Targets) (b : Nat) : Prop := b = 0 ∨ b = t.lret ∨ b ∈ t.brk ∨ b ∈ t.cont

theorem headD_outer {t : Targets} {stack : List Nat} (of : ∀ b ∈ stack, Outer t b) :
    Outer t (stack.headD 0) := by
  cases stack with
  | nil => exact Or.inl rfl
  | cons b stack => exact of b List.mem_cons_self

theorem Outer.of_loop {t : Targets} {e k b : Nat}
    (is : Outer { t with brk := e :: t.brk, cont := k :: t.cont } b) :
    Outer t b ∨ b = k ∨ b = e := by
  rcases is with zero | lret | brk | cont
  · exact Or.inl (Or.inl zero)
  · exact Or.inl (Or.inr (Or.inl lret))
  · rcases List.mem_cons.mp brk with own | brk
    · exact Or.inr (Or.inr own)
    · exact Or.inl (Or.inr (Or.inr (Or.inl brk)))
  · rcases List.mem_cons.mp cont with own | cont
    · exact Or.inr (Or.inl own)
    · exact Or.inl (Or.inr (Or.inr (Or.inr cont)))

theorem Outer.of_switch {t : Targets} {e b : Nat} (is : Outer { t with brk := e :: t.brk } b) :
    Outer t b ∨ b = e := by
  rcases is with zero | lret | brk | cont
  · exact Or.inl (Or.inl zero)
  · exact Or.inl (Or.inr (Or.inl lret))
  · rcases List.mem_cons.mp brk with own | brk
    · exact Or.inr own
    · exact Or.inl (Or.inr (Or.inr (Or.inl brk)))
  · exact Or.inl (Or.inr (Or.inr (Or.inr cont)))

mutual

theorem stmt_settled : ∀ (s : Stmt) (t : Targets) (labels : List Nat) (m : Nat),
    Settled c.funcs.length (Outer t) (stmtItems c offsets t labels s m)
  | .null, t, labels, m => by
    rw [stmtItems]
    exact Settled.nil
  | .expr e, t, labels, m => by
    rw [stmtItems]
    exact expr_settled c offsets e m
  | .ret e, t, labels, m => by
    rw [stmtItems]
    exact (expr_settled c offsets e m).append (Settled.br clear_b (Or.inr (Or.inl rfl)))
  | .ite cond yes no, t, labels, m => by
    rw [stmtItems]
    have wide : ∀ b, Outer t b → Outer t b ∨ b = m ∨ b = m + 1 := fun _ => Or.inl
    have own := ((((expr_settled c offsets cond (m + 2)).append
      (Settled.br clear_cbz (Or.inr (Or.inl rfl)))).append
      ((stmt_settled yes t labels (m + 2 + exprLabels cond)).mono wide)).append
      ((Settled.br clear_b (Or.inr (Or.inr rfl))).append (Settled.lab m))).append
      (((stmt_settled no t (labels.drop yes.cases.length)
        (m + 2 + exprLabels cond + stmtLabels yes)).mono wide).append (Settled.lab (m + 1)))
    rw [← List.append_assoc] at own
    exact own.close_two (by simp) (by simp)
  | .wloop cond body, t, labels, m => by
    rw [stmtItems]
    have loop : Settled c.funcs.length (fun b => Outer t b ∨ b = m ∨ b = m + 1) _ :=
      (stmt_settled body { t with brk := (m + 1) :: t.brk, cont := m :: t.cont } labels
        (m + 2 + exprLabels cond)).mono fun _ => Outer.of_loop
    have own := ((((Settled.lab m).append (expr_settled c offsets cond (m + 2))).append
      (Settled.br clear_cbz (Or.inr (Or.inr rfl)))).append loop).append
      (settled_budget c (Or.inr (Or.inr rfl)))
    have whole := own.append ((Settled.br clear_b (Or.inr (Or.inl rfl))).append
      (Settled.lab (m + 1)))
    exact whole.close_two (by simp) (by simp)
  | .floop init cond inc body, t, labels, m => by
    rw [stmtItems]
    have loop : Settled c.funcs.length (fun b => Outer t b ∨ b = m ∨ b = m + 1 ∨ b = m + 2) _ :=
      (stmt_settled body { t with brk := (m + 2) :: t.brk, cont := (m + 1) :: t.cont }
        (labels.drop init.cases.length) (m + 3 + stmtLabels init + optLabels cond)).mono
        fun _ is => is.of_loop.imp_right Or.inr
    have begun := ((((stmt_settled init t labels (m + 3)).mono fun _ => Or.inl).append
      (Settled.lab m)).append (settled_cond c offsets (Or.inr (Or.inr (Or.inr rfl))) cond
        (m + 3 + stmtLabels init))).append loop
    have own := ((begun.append (Settled.lab (m + 1))).append
      (settled_inc c offsets inc
        (m + 3 + stmtLabels init + optLabels cond + stmtLabels body))).append
      (settled_budget c (Or.inr (Or.inr (Or.inr rfl))))
    have whole := own.append ((Settled.br clear_b (Or.inr (Or.inl rfl))).append
      (Settled.lab (m + 2)))
    refine whole.close fun b is => ?_
    rcases is with is | rfl | rfl | rfl
    · exact Or.inr is
    · exact Or.inl (by simp)
    · exact Or.inl (by simp)
    · exact Or.inl (by simp)
  | .switch cond body, t, labels, m => by
    rw [stmtItems]
    have length : body.cases.length =
        (caseLabels body.cases.reverse (m + 1 + exprLabels cond)).length := by
      simp [caseLabels_eq]
    have placed := stmt_cases c offsets body { t with brk := m :: t.brk }
      (caseLabels body.cases.reverse (m + 1 + exprLabels cond))
      (m + 1 + exprLabels cond + body.cases.length) (Nat.le_of_eq length)
    rw [List.take_of_length_le (Nat.le_of_eq length.symm)] at placed
    have arms : Settled c.funcs.length (fun b => Outer t b ∨ b = m ∨
        b ∈ caseLabels body.cases.reverse (m + 1 + exprLabels cond)) _ :=
      (stmt_settled body { t with brk := m :: t.brk }
        (caseLabels body.cases.reverse (m + 1 + exprLabels cond))
        (m + 1 + exprLabels cond + body.cases.length)).mono
        fun _ is => is.of_switch.imp_right Or.inl
    have tests : Settled c.funcs.length (fun b => Outer t b ∨ b = m ∨
        b ∈ caseLabels body.cases.reverse (m + 1 + exprLabels cond)) _ :=
      settled_dispatch body.cases.reverse (m + 1 + exprLabels cond) fun b low high =>
        Or.inr (Or.inr (mem_caseLabels.mpr ⟨low, high⟩))
    have begun := (expr_settled c offsets cond (m + 1)).append tests
    have other : Outer t ((defLabel body.cases.reverse (m + 1 + exprLabels cond)).getD m) ∨
        (defLabel body.cases.reverse (m + 1 + exprLabels cond)).getD m = m ∨
        (defLabel body.cases.reverse (m + 1 + exprLabels cond)).getD m ∈
          caseLabels body.cases.reverse (m + 1 + exprLabels cond) := by
      cases last : defLabel body.cases.reverse (m + 1 + exprLabels cond) with
      | none => exact Or.inr (Or.inl rfl)
      | some l => exact Or.inr (Or.inr (defLabel_mem last))
    have whole := ((begun.append (Settled.br clear_b other)).append arms).append (Settled.lab m)
    refine whole.close fun b is => ?_
    rcases is with is | rfl | is
    · exact Or.inr is
    · exact Or.inl (by simp)
    · have place := placed b is
      exact Or.inl (by simp [place])
  | .case _ body, t, labels, m => by
    rw [stmtItems]
    exact (Settled.lab _).append (stmt_settled body t (labels.drop 1) m)
  | .brk, t, labels, m => by
    rw [stmtItems]
    exact Settled.br clear_b (headD_outer fun b listed => Or.inr (Or.inr (Or.inl listed)))
  | .cont, t, labels, m => by
    rw [stmtItems]
    exact Settled.br clear_b (headD_outer fun b listed => Or.inr (Or.inr (Or.inr listed)))
  | .block body, t, labels, m => by
    rw [stmtItems]
    exact stmts_settled body t labels m

theorem stmts_settled : ∀ (body : List Stmt) (t : Targets) (labels : List Nat) (m : Nat),
    Settled c.funcs.length (Outer t) (stmtsItems c offsets t labels body m)
  | [], t, labels, m => by
    rw [stmtsItems]
    exact Settled.nil
  | s :: rest, t, labels, m => by
    rw [stmtsItems]
    exact (stmt_settled s t labels m).append
      (stmts_settled rest t (labels.drop s.cases.length) (m + stmtLabels s))

end

/-- Every branch of a function goes to a label of the function. -/
theorem func_settled (fn : Func) :
    Settled c.funcs.length (fun _ => False) (funcItems c fn) := by
  have entry : Settled c.funcs.length (Outer ⟨0, [], []⟩) (entryItems fn) :=
    Settled.plain (plain_entry fn)
  have body := stmt_settled c (assignOffsets fn.locals).1 fn.body ⟨0, [], []⟩ [] 1
  have last : Settled c.funcs.length (Outer ⟨0, [], []⟩)
      ([.word (movImmSmall 0 0)] ++ ([.lab 0] ++ words [movSpFp, epilogueLdp, ret])) :=
    (Settled.word _).append ((Settled.lab 0).append (Settled.words _))
  refine ((entry.append body).append last).close fun b is => Or.inl ?_
  have zero : b = 0 := by
    rcases is with zero | zero | none | none
    · exact zero
    · exact zero
    · cases none
    · cases none
  rw [zero]
  exact List.mem_append_right _ (by simp)

end Statements

section Tables

mutual

/-- How deep loops and switches are nested: the places of `brk_lab` that are used. -/
def nesting : Stmt → Nat
  | .ite _ yes no => max (nesting yes) (nesting no)
  | .wloop _ body => 1 + nesting body
  | .floop init _ _ body => max (nesting init) (1 + nesting body)
  | .switch _ body => 1 + nesting body
  | .case _ body => nesting body
  | .block body => nestingOf body
  | _ => 0

def nestingOf : List Stmt → Nat
  | [] => 0
  | s :: rest => max (nesting s) (nestingOf rest)

end

def loopDepth : Nat := 64

def codeCap : Nat := 256 * 1024

section Cost

variable (c : Ctx) (b f : Nat)

mutual

/-- The branches of an address, each counted `b`, and the calls, each counted `f`. -/
def addrCost : Expr → Nat
  | .deref e _ => exprCost e
  | .member e _ _ => addrCost e
  | _ => 0

def exprCost : Expr → Nat
  | .assign lhs rhs => addrCost lhs + exprCost rhs
  | .deref e _ => exprCost e
  | .member e _ _ => addrCost e
  | .addr e => addrCost e
  | .neg e => exprCost e
  | .not e => exprCost e
  | .logand l r => exprCost l + exprCost r + 3 * b
  | .logor l r => exprCost l + exprCost r + 3 * b
  | .bin _ l r => exprCost r + exprCost l
  | .call name args => argsCost args + if name ∈ c.funcs then f else 0
  | _ => 0

def argsCost : List Expr → Nat
  | [] => 0
  | arg :: rest => exprCost arg + argsCost rest

end

def tickCost : Nat := if c.tick = 0 then 0 else b

mutual

def stmtCost : Stmt → Nat
  | .expr e => exprCost c b f e
  | .ret e => exprCost c b f e + b
  | .ite cond yes no => exprCost c b f cond + stmtCost yes + stmtCost no + 2 * b
  | .wloop cond body => exprCost c b f cond + stmtCost body + tickCost c b + 2 * b
  | .floop init cond inc body =>
    stmtCost init + cond.elim 0 (fun e => exprCost c b f e + b) + stmtCost body +
      inc.elim 0 (exprCost c b f) + tickCost c b + b
  | .switch cond body =>
    exprCost c b f cond + body.cases.countP Option.isSome * b + stmtCost body + b
  | .case _ body => stmtCost body
  | .brk => b
  | .cont => b
  | .block body => stmtsCost body
  | .null => 0

def stmtsCost : List Stmt → Nat
  | [] => 0
  | s :: rest => stmtCost s + stmtsCost rest

end

def branchCount (fn : Func) : Nat := stmtCost c 1 0 fn.body

def callCount (funcs : List Func) : Nat := (funcs.map fun fn => stmtCost c 0 1 fn.body).sum

def lineCost : Item → Nat
  | .br _ _ => b
  | .tick _ => b
  | .fn _ => f
  | _ => 0

def cost (l : List Item) : Nat := (l.map (lineCost b f)).sum

variable {c b f}

@[simp] theorem cost_nil : cost b f [] = 0 := rfl

@[simp] theorem cost_cons (x : Item) (l : List Item) :
    cost b f (x :: l) = lineCost b f x + cost b f l := List.sum_cons

@[simp] theorem cost_append (l m : List Item) : cost b f (l ++ m) = cost b f l + cost b f m := by
  rw [cost, List.map_append, List.sum_append]
  rfl

@[simp] theorem cost_words (l : List Word) : cost b f (words l) = 0 := by
  induction l with
  | nil => rfl
  | cons w l ih => exact (Nat.zero_add _).trans ih

@[simp] theorem lineCost_word (w : Word) : lineCost b f (.word w) = 0 := rfl

@[simp] theorem lineCost_lab (k : Nat) : lineCost b f (.lab k) = 0 := rfl

@[simp] theorem lineCost_br (k : BrKind) (l : Nat) : lineCost b f (.br k l) = b := rfl

@[simp] theorem lineCost_fn (i : Nat) : lineCost b f (.fn i) = f := rfl

theorem cost_budget (e : Nat) : cost b f (budget c e) = tickCost c b := by
  unfold budget tickCost
  split_ifs
  · rfl
  · rfl

variable (offsets : List Int)

theorem cost_plain {l : List Item} (plain : Plain l) : cost b f l = 0 := by
  obtain ⟨w, rfl⟩ := plain
  exact cost_words w

attribute [local simp] addrItems exprItems argsItems stmtItems stmtsItems addrCost exprCost argsCost
  stmtCost stmtsCost

theorem cost_target (name : String) :
    cost b f (targetItems c name) = if name ∈ c.funcs then f else 0 := by
  unfold targetItems
  cases found : c.funcs.findIdx? (· = name) with
  | none =>
    have absent : name ∉ c.funcs := by
      intro listed
      have none := List.findIdx?_eq_none_iff.mp found name listed
      simp at none
    rw [if_neg absent]
    simp
  | some i =>
    obtain ⟨inside, same, _⟩ := List.findIdx?_eq_some_iff_getElem.mp found
    have listed : name ∈ c.funcs := by
      rw [← of_decide_eq_true same]
      exact List.getElem_mem inside
    rw [if_pos listed]
    simp

mutual

theorem addr_cost : ∀ (e : Expr) (m : Nat), cost b f (addrItems c offsets e m) = addrCost c b f e
  | .var v _, m => by simp [cost_plain (plain_var offsets v)]
  | .deref e _, m => by rw [addrItems, addrCost, expr_cost e m]
  | .member e off _, m => by
    simp [addr_cost e m, cost_plain (plain_off off)]
  | .str _, m | .num _, m | .assign _ _, m | .addr _, m | .neg _, m | .not _, m
  | .logand _ _, m | .logor _ _, m | .bin _ _ _, m | .call _ _, m => by simp

theorem expr_cost : ∀ (e : Expr) (m : Nat), cost b f (exprItems c offsets e m) = exprCost c b f e
  | .num _, m => by simp
  | .str _, m => by simp
  | .var v ty, m => by
    simp [cost_plain (plain_var offsets v), cost_plain (plain_load ty)]
  | .assign lhs rhs, m => by
    simp [addr_cost lhs m, expr_cost rhs (m + exprLabels lhs), cost_plain (plain_store _)]
  | .deref e ty, m => by
    simp [expr_cost e m, cost_plain (plain_load ty)]
  | .member e off ty, m => by
    simp [addr_cost e m, cost_plain (plain_off off), cost_plain (plain_load ty)]
  | .addr e, m => by rw [exprItems, exprCost, addr_cost e m]
  | .neg e, m => by simp [expr_cost e m]
  | .not e, m => by simp [expr_cost e m]
  | .logand l r, m => by
    have left := expr_cost l (m + 2)
    have right := expr_cost r (m + 2 + exprLabels l)
    simp [left, right]
    omega
  | .logor l r, m => by
    have left := expr_cost l (m + 2)
    have right := expr_cost r (m + 2 + exprLabels l)
    simp [left, right]
    omega
  | .bin op l r, m => by
    simp [expr_cost r m, expr_cost l (m + exprLabels r)]
  | .call name args, m => by
    simp [args_cost args m, cost_target]

theorem args_cost : ∀ (args : List Expr) (m : Nat),
    cost b f (argsItems c offsets args m) = argsCost c b f args
  | [], m => by simp
  | arg :: rest, m => by
    simp [expr_cost arg m, args_cost rest (m + exprLabels arg)]

end

theorem cost_dispatch (cases : List (Option (BitVec 64))) (m : Nat) :
    cost b f (dispatch cases m) = cases.countP Option.isSome * b := by
  induction cases generalizing m with
  | nil => exact (Nat.zero_mul b).symm
  | cons val rest ih =>
    cases val with
    | none => exact ih (m + 1)
    | some val =>
      simp [dispatch, ih, Nat.succ_mul]
      omega

theorem cost_cond (lend : Nat) (cond : Option Expr) (m : Nat) :
    cost b f (condItems c offsets lend cond m) = cond.elim 0 (fun e => exprCost c b f e + b) := by
  cases cond with
  | none => rfl
  | some cond => simp [condItems, expr_cost]

theorem cost_inc (inc : Option Expr) (m : Nat) :
    cost b f (incItems c offsets inc m) = inc.elim 0 (exprCost c b f) := by
  cases inc with
  | none => rfl
  | some inc => simp [incItems, expr_cost]

mutual

theorem stmt_cost : ∀ (s : Stmt) (t : Targets) (labels : List Nat) (m : Nat),
    cost b f (stmtItems c offsets t labels s m) = stmtCost c b f s
  | .null, t, labels, m => by simp
  | .expr e, t, labels, m => by rw [stmtItems, stmtCost, expr_cost]
  | .ret e, t, labels, m => by simp [expr_cost]
  | .ite cond yes no, t, labels, m => by
    simp [expr_cost, stmt_cost yes, stmt_cost no]
    omega
  | .wloop cond body, t, labels, m => by
    simp [expr_cost, stmt_cost body, cost_budget]
    omega
  | .floop init cond inc body, t, labels, m => by
    simp [stmt_cost init, stmt_cost body, cost_budget, cost_cond, cost_inc]
    omega
  | .switch cond body, t, labels, m => by
    simp [expr_cost, stmt_cost body, cost_dispatch, List.countP_reverse]
    omega
  | .case _ body, t, labels, m => by simp [stmt_cost body]
  | .brk, t, labels, m => by simp
  | .cont, t, labels, m => by simp
  | .block body, t, labels, m => by rw [stmtItems, stmtCost, stmts_cost body]

theorem stmts_cost : ∀ (body : List Stmt) (t : Targets) (labels : List Nat) (m : Nat),
    cost b f (stmtsItems c offsets t labels body m) = stmtsCost c b f body
  | [], t, labels, m => by simp
  | s :: rest, t, labels, m => by
    simp [stmt_cost s, stmts_cost rest]

end

theorem func_cost (fn : Func) : cost b f (funcItems c fn) = stmtCost c b f fn.body := by
  simp [funcItems, cost_plain (plain_entry fn), stmt_cost]

theorem listing_cost (funcs : List Func) :
    cost b f (listing c funcs) = (funcs.map fun fn => stmtCost c b f fn.body).sum := by
  induction funcs with
  | nil => rfl
  | cons fn rest ih =>
    rw [listing_cons, cost_append, func_cost, ih, List.map_cons, List.sum_cons]

theorem fixes_length (p : Nat) (l : List Item) : (fixes p l).length = cost 1 0 l := by
  induction l generalizing p with
  | nil => rfl
  | cons x l ih =>
    rw [fixes_cons, List.length_append, ih, cost_cons]
    cases x with
    | _ => rfl

theorem calls_length (p : Nat) (l : List Item) : (calls p l).length = cost 0 1 l := by
  induction l generalizing p with
  | nil => rfl
  | cons x l ih =>
    rw [calls_cons, List.length_append, ih, cost_cons]
    cases x with
    | _ => rfl

end Cost

variable (c : Ctx)

structure TablesHold (funcs : List Func) : Prop where
  labels : ∀ fn ∈ funcs, 1 + stmtLabels fn.body ≤ maxLab
  depth : ∀ fn ∈ funcs, nesting fn.body ≤ loopDepth
  branches : ∀ fn ∈ funcs, ∀ p, (fixes p (funcItems c fn)).length ≤ maxBfx
  calls : (calls 0 (listing c funcs)).length ≤ maxCfx

/-- The programs with few branches and calls, and with shallow loops. -/
structure Narrow (funcs : List Func) : Prop where
  depth : ∀ fn ∈ funcs, nesting fn.body ≤ loopDepth
  branches : ∀ fn ∈ funcs, branchCount c fn ≤ maxBfx
  calls : callCount c funcs ≤ maxCfx

variable {c}

theorem genFuncs_labels {funcs : List Func} {s last : Gen} {offs : List Nat}
    (few : s.cfx.length ≤ maxCfx) (labels : s.nlab ≤ maxLab)
    (run : genFuncs c funcs s = some (offs, last)) :
    ∀ fn ∈ funcs, 1 + stmtLabels fn.body ≤ maxLab := by
  induction funcs generalizing s offs last with
  | nil =>
    intro fn listed
    cases listed
  | cons fn rest ih =>
    rw [genFuncs] at run
    dsimp only at run
    split_ifs at run with bad
    obtain ⟨error, oom⟩ := not_or.mp bad
    have fine := Option.not_isSome_iff_eq_none.mp error
    have room := Bool.eq_false_iff.mpr oom
    have labels' := ((genFunc c fn).keeps s).labels labels
    rw [genFunc_run c few fine room] at run labels'
    obtain ⟨⟨offs', last'⟩, others, _⟩ := Option.map_eq_some_iff.mp run
    intro g listed
    rcases List.mem_cons.mp listed with rfl | later
    · exact labels'
    · exact ih (List.length_take_le _ _) labels' others g later

end Tables

section Calls

variable {c : Ctx}

theorem calls_mem {p i fn : Nat} {l : List Item} (found : At p l i (.fn fn)) :
    (i, fn) ∈ calls p l := by
  obtain ⟨before, rest, rfl, rfl⟩ := found
  rw [calls_append, calls_cons]
  exact List.mem_append_right _ (List.mem_append_left _ (List.mem_singleton.mpr rfl))

theorem calls_sorted (p : Nat) (l : List Item) :
    (calls p l).Pairwise fun a b => a.1 + 4 ≤ b.1 := by
  induction l generalizing p with
  | nil => exact List.Pairwise.nil
  | cons x l ih =>
    rw [calls_cons, List.pairwise_append]
    refine ⟨?_, ih _, fun a here b later => ?_⟩
    · cases x with
      | fn i => exact List.pairwise_singleton _ _
      | word w => exact List.Pairwise.nil
      | br k l => exact List.Pairwise.nil
      | lab l => exact List.Pairwise.nil
      | tick l => exact List.Pairwise.nil
    · have first := (mem_calls (show (a.1, a.2) ∈ _ from here)).range
      have second := (mem_calls (show (b.1, b.2) ∈ _ from later)).range
      rw [width, width] at first
      change _ ∧ a.1 + 4 ≤ _ at first
      omega

theorem patchCall_at {buf : Nat → Word} {site j : Nat} {v : BitVec 64} (inside : j < 4) :
    some (patchCall buf site v (site + j)) = (loadimm x9 v)[j]? := by
  have cases : j = 0 ∨ j = 1 ∨ j = 2 ∨ j = 3 := by omega
  rcases cases with rfl | rfl | rfl | rfl
  all_goals simp [patchCall, loadimm, put]

theorem patchCalls_site {offs : List Nat} {s : Gen} {site fn j : Nat}
    (sorted : s.cfx.Pairwise fun a b => a.1 + 4 ≤ b.1) (listed : (site, fn) ∈ s.cfx)
    (inside : j < 4) : some (patchCalls c offs s (site + j)) =
      (loadimm x9 (c.base + BitVec.ofNat 64 (4 * offs.getD fn 0)))[j]? := by
  unfold patchCalls
  generalize s.buf = buf
  generalize s.cfx = l at sorted listed ⊢
  induction l generalizing buf with
  | nil => cases listed
  | cons e rest ih =>
    rw [List.foldl_cons]
    rw [List.pairwise_cons] at sorted
    rcases List.mem_cons.mp listed with rfl | later
    · have apart (l : List (Nat × Nat)) (behind : ∀ a ∈ l, site + 4 ≤ a.1) (buf : Nat → Word) :
          l.foldl (fun buf e =>
            patchCall buf e.1 (c.base + BitVec.ofNat 64 (4 * offs.getD e.2 0))) buf (site + j) =
            buf (site + j) := by
        induction l generalizing buf with
        | nil => rfl
        | cons a l ih =>
          rw [List.foldl_cons, ih fun b there => behind b (List.mem_cons_of_mem a there)]
          have less := behind a List.mem_cons_self
          exact patchCall_other (Or.inl (by omega))
      exact (congrArg some (apart rest sorted.1 _)).trans (patchCall_at inside)
    · exact ih _ sorted.2 later

end Calls

section Resolution

variable {cap : Nat} {base : BitVec 64} {resolve : String → BitVec 64} {buf : Nat → Word}
variable {labOff : Nat → Nat} {funcs : List Func} {out : Output}

theorem At.of_mem {p : Nat} {x : Item} {l : List Item} (listed : x ∈ l) : ∃ i, At p l i x := by
  obtain ⟨before, rest, rfl⟩ := List.append_of_mem listed
  exact ⟨p + width before, before, rest, rfl, rfl⟩

theorem starts_length (c : Ctx) (p : Nat) (funcs : List Func) :
    (starts c p funcs).length = funcs.length := by
  induction funcs generalizing p with
  | nil => rfl
  | cons fn rest ih => exact congrArg (· + 1) (ih _)

theorem setting_funcs_length : (setting cap base resolve funcs).funcs.length = funcs.length :=
  List.length_map Func.name

theorem ccCodegen_generated (closed : ∀ fn ∈ funcs, fn.body.cases = [])
    (accepted : ccCodegen cap base resolve buf labOff funcs = some out) :
    ∃ last : Gen, out.buf = patchCalls (setting cap base resolve funcs) out.offs last ∧
      last.cfx = (calls 0 (listing (setting cap base resolve funcs) funcs)).take maxCfx ∧
      ∀ fn ∈ funcs, 1 + stmtLabels fn.body ≤ maxLab := by
  obtain ⟨offs, last, i, run, _, rfl⟩ := ccCodegen_some.mp accepted
  have gen : Generated (setting cap base resolve funcs) funcs
      ⟨buf, 0, false, labOff, 0, [], [], none⟩ last offs :=
    genFuncs_generated closed (Nat.zero_le _) (Nat.zero_le _) (Nat.zero_le _) run
  exact ⟨last, rfl, gen.calls, genFuncs_labels (Nat.zero_le _) (Nat.zero_le _) run⟩

/-- Branches lead to their labels, and calls load the addresses of their functions. -/
structure Resolved (c : Ctx) (funcs : List Func) (out : Output) : Prop where
  branch : ∀ (k : Nat) (fn : Func) (p : Nat), funcs[k]? = some fn → out.offs[k]? = some p →
    ∀ i x f, At p (funcItems c fn) i x → fixOf i x = some f →
      ∃ t, At p (funcItems c fn) t (.lab f.lab) ∧
        ∀ j, Flow out.buf f.site j ↔ j = t ∨ BrKind.falls f.kind ∧ j = f.site + 1
  call : ∀ i n, At 0 (listing c funcs) i (.fn n) → ∃ q, out.offs[n]? = some q ∧
    ∀ j, j < 4 → some (out.buf (i + j)) = (loadimm x9 (c.base + BitVec.ofNat 64 (4 * q)))[j]?

theorem branch_resolved (closed : ∀ fn ∈ funcs, fn.body.cases = [])
    (accepted : ccCodegen codeCap base resolve buf labOff funcs = some out)
    {k p : Nat} {fn : Func} (has : funcs[k]? = some fn) (place : out.offs[k]? = some p)
    (few : branchCount (setting codeCap base resolve funcs) fn ≤ maxBfx) {i : Nat} {x : Item}
    {f : Fix} (found : At p (funcItems (setting codeCap base resolve funcs) fn) i x)
    (is : fixOf i x = some f) :
    ∃ t, At p (funcItems (setting codeCap base resolve funcs) fn) t (.lab f.lab) ∧
      ∀ j, Flow out.buf f.site j ↔ j = t ∨ BrKind.falls f.kind ∧ j = f.site + 1 := by
  generalize is' : setting codeCap base resolve funcs = c at few found ⊢
  obtain ⟨offs, len, fits, code⟩ := ccCodegen_compiled closed accepted
  rw [is'] at offs len code
  obtain ⟨labAt, compiled⟩ := code k fn p has place
  have goesTo : ∃ kind b, goes x = some (kind, b) ∧ f.lab = b ∧ f.kind = kind := by
    cases x with
    | br kind b =>
      obtain rfl := Option.some.inj is
      exact ⟨kind, b, rfl, rfl, rfl⟩
    | tick b =>
      obtain rfl := Option.some.inj is
      exact ⟨.cbz, b, rfl, rfl, rfl⟩
    | word w => cases is
    | lab l => cases is
    | fn n => cases is
  obtain ⟨kind, b, leads, rfl, rfl⟩ := goesTo
  obtain ⟨before, rest, split, start⟩ := id found
  have listed : x ∈ funcItems c fn := by
    rw [split]
    exact List.mem_append_right _ List.mem_cons_self
  obtain ⟨clear, inside | none⟩ := (func_settled c fn).branch x listed f.kind f.lab leads
  · obtain ⟨t, target⟩ := At.of_mem (p := p) inside
    refine ⟨t, target, fun j => ?_⟩
    have all : (fixes p (funcItems c fn)).take maxBfx = fixes p (funcItems c fn) := by
      refine List.take_of_length_le ?_
      rw [fixes_length, func_cost]
      exact few
    have entry : f ∈ (fixes p (funcItems c fn)).take maxBfx := by
      rw [all]
      exact mem_fixes.mpr ⟨i, x, found, is⟩
    have word := compiled.fix f entry
    have at_t := compiled.lab t f.lab target
    have short : out.len < 2 ^ 18 := by
      unfold codeCap at fits
      omega
    rw [offs] at place
    have site := (found.listing has place).range
    have lab := (target.listing has place).range
    have near := fix_range is
    rw [← at_t]
    exact flow_resolved word (by omega) (by omega) clear
  · exact absurd none id

theorem call_resolved (closed : ∀ fn ∈ funcs, fn.body.cases = [])
    (accepted : ccCodegen cap base resolve buf labOff funcs = some out)
    (few : callCount (setting cap base resolve funcs) funcs ≤ maxCfx) {i n : Nat}
    (found : At 0 (listing (setting cap base resolve funcs) funcs) i (.fn n)) :
    ∃ q, out.offs[n]? = some q ∧ ∀ j, j < 4 → some (out.buf (i + j)) =
      (loadimm x9 ((setting cap base resolve funcs).base + BitVec.ofNat 64 (4 * q)))[j]? := by
  obtain ⟨last, content, record, _⟩ := ccCodegen_generated closed accepted
  obtain ⟨offs, _⟩ := ccCodegen_compiled closed accepted
  have all : last.cfx = calls 0 (listing (setting cap base resolve funcs) funcs) := by
    rw [record, List.take_of_length_le]
    rw [calls_length, listing_cost]
    exact few
  have own : n < out.offs.length := by
    obtain ⟨before, rest, split, _⟩ := id found
    have listed : .fn n ∈ listing (setting cap base resolve funcs) funcs := by
      rw [split]
      exact List.mem_append_right _ List.mem_cons_self
    obtain ⟨fn, _, inside⟩ := List.mem_flatMap.mp listed
    have less := (func_settled _ fn).call n inside
    rwa [setting_funcs_length, ← starts_length (setting cap base resolve funcs) 0 funcs, ← offs]
      at less
  refine ⟨_, List.getElem?_eq_getElem own, fun j less => ?_⟩
  have sorted : last.cfx.Pairwise fun a b => a.1 + 4 ≤ b.1 := by
    rw [all]
    exact calls_sorted 0 _
  have entry : (i, n) ∈ last.cfx := by
    rw [all]
    exact calls_mem found
  rw [content, patchCalls_site sorted entry less, List.getD_eq_getElem?_getD,
    List.getElem?_eq_getElem own]
  rfl

/-- The calls of an accepted program are patched and its branches lead to their labels with
no table full, exactly when it has few branches in each function, few calls, and shallow
loops. -/
theorem resolved_iff (closed : ∀ fn ∈ funcs, fn.body.cases = [])
    (accepted : ccCodegen codeCap base resolve buf labOff funcs = some out) :
    Resolved (setting codeCap base resolve funcs) funcs out ∧
      TablesHold (setting codeCap base resolve funcs) funcs ↔
    Narrow (setting codeCap base resolve funcs) funcs := by
  constructor
  · rintro ⟨_, hold⟩
    refine ⟨hold.depth, fun fn listed => ?_, ?_⟩
    · have short := hold.branches fn listed 0
      rwa [fixes_length, func_cost] at short
    · have short := hold.calls
      rwa [calls_length, listing_cost] at short
  · intro narrow
    refine ⟨⟨fun k fn p has place i x f found is => ?_, fun i n found => ?_⟩, ⟨?_, narrow.depth,
      fun fn listed p => ?_, ?_⟩⟩
    · exact branch_resolved closed accepted has place
        (narrow.branches fn (List.mem_of_getElem? has)) found is
    · exact call_resolved closed accepted narrow.calls found
    · obtain ⟨_, _, _, labels⟩ := ccCodegen_generated closed accepted
      exact labels
    · rw [fixes_length, func_cost]
      exact narrow.branches fn listed
    · rw [calls_length, listing_cost]
      exact narrow.calls

/-- `int main() { if (1) main(); }`. -/
def again : Func := ⟨"main", [], [], .ite (.num 1) (.expr (.call "main" [])) .null⟩

theorem resolved_again : ∃ out,
    ccCodegen codeCap 0x80000 (fun _ => 0) (fun _ => 0) (fun _ => 0) [again] = some out ∧
      (Resolved (setting codeCap 0x80000 (fun _ => 0) [again]) [again] out ∧
        TablesHold (setting codeCap 0x80000 (fun _ => 0) [again]) [again] ↔
      Narrow (setting codeCap 0x80000 (fun _ => 0) [again]) [again]) := by
  have runs : (ccCodegen codeCap 0x80000 (fun _ => 0) (fun _ => 0) (fun _ => 0)
      [again]).isSome = true := by decide +kernel
  obtain ⟨out, accepted⟩ := Option.isSome_iff_exists.mp runs
  refine ⟨out, accepted, resolved_iff ?_ accepted⟩
  intro fn listed
  rw [List.mem_singleton.mp listed]
  rfl

end Resolution

section Returns

variable {c : Ctx} {offsets : List Int} {k : Nat} {s : Gen}

/-- There is no error yet, and room for `k` more words. -/
structure Good (c : Ctx) (k : Nat) (s : Gen) : Prop where
  err : s.err = none
  oom : s.oom = false
  room : 4 * (s.pos + k) ≤ c.cap

theorem Good.emit (good : Good c (k + 1) s) (w : Word) :
    Good c k ((Codegen.emit c w).run s).2 := by
  have room := good.room
  have fits : ¬ c.cap < 4 * s.pos + 4 := by omega
  change Good c k (if c.cap < 4 * s.pos + 4 then _ else _)
  rw [if_neg fits]
  refine ⟨good.err, good.oom, ?_⟩
  change 4 * (s.pos + 1 + k) ≤ c.cap
  omega

theorem Good.emitAll (l : List Word) (good : Good c (k + l.length) s) :
    Good c k ((Codegen.emitAll c l).run s).2 := by
  induction l generalizing s with
  | nil => exact good
  | cons w l ih => exact ih (Good.emit (k := k + l.length) good w)

theorem Good.emitBranch (good : Good c (k + 1) s) (kind : BrKind) (l : Nat) :
    Good c k ((Codegen.emitBranch c kind l).run s).2 := by
  refine Good.emit (s := ((noteBranch kind l).run s).2) ?_ kind.word
  change Good c (k + 1) (if s.bfx.length < maxBfx then _ else _)
  split_ifs
  · exact ⟨good.err, good.oom, good.room⟩
  · exact good

theorem unlessFailed_run (p : Prog sticky Unit) (fine : s.err = none) :
    (unlessFailed p).run s = p.run s := by
  change (if s.err.isSome = true then pure () else p : Prog sticky Unit).run s = p.run s
  rw [if_neg (by simp [fine])]

theorem loadimm_length (reg : Word) (v : BitVec 64) : (loadimm reg v).length = 4 := rfl

theorem Good.ret (good : Good c (k + 5) s) (t : Targets) (labels : List Nat) :
    Good c k ((genStmt c offsets t labels (.ret (.num 0))).run s).2 := by
  have value : Good c (k + 1) ((genExpr c offsets (.num 0)).run s).2 := by
    change Good c (k + 1) ((unlessFailed (Codegen.emitAll c (loadimm 0 0))).run s).2
    rw [unlessFailed_run _ good.err]
    refine Good.emitAll (k := k + 1) (loadimm 0 0) ?_
    rw [loadimm_length]
    exact good
  change Good c k ((unlessFailed do
    genExpr c offsets (.num 0)
    Codegen.emitBranch c .b t.lret).run s).2
  rw [unlessFailed_run _ good.err]
  exact value.emitBranch .b t.lret

theorem Good.rets (n : Nat) (good : Good c (k + 5 * n) s) (t : Targets) (labels : List Nat) :
    Good c k ((genStmts c offsets t labels (List.replicate n (.ret (.num 0)))).run s).2 := by
  induction n generalizing s labels with
  | zero => exact good
  | succ n ih => exact ih (Good.ret (k := k + 5 * n) good t labels) _

/-- `int main() { return 0; return 0; .. }`. -/
def returns (n : Nat) : Func := ⟨"main", [], [], .block (List.replicate n (.ret (.num 0)))⟩

theorem Good.func (n : Nat) (good : Good c (5 * n + 6) s) :
    Good c 0 ((genFunc c (returns n)).run s).2 := by
  have start : Good c (5 * n + 6) (newlabel.run (fresh s)).2 :=
    ⟨good.err, good.oom, good.room⟩
  have entry := (Good.emit (k := 5 * n + 5) start prologueStp).emit (k := 5 * n + 4) movFpSp
  have body {u : Gen} (open_ : Good c (5 * n + 4) u) :
      Good c 4 ((genStmt c [] ⟨0, [], []⟩ [] (returns n).body).run u).2 := by
    change Good c 4 ((unlessFailed (genStmts c [] ⟨0, [], []⟩ []
      (List.replicate n (.ret (.num 0))))).run u).2
    rw [unlessFailed_run _ open_.err]
    exact Good.rets (k := 4) n (by rwa [Nat.add_comm]) _ _
  have tail {u : Gen} (open_ : Good c 4 u) : Good c 0 ((Codegen.emit c Codegen.ret).run
      ((Codegen.emit c epilogueLdp).run ((Codegen.emit c movSpFp).run
        ((place 0).run ((Codegen.emit c (movImmSmall 0 0)).run u).2).2).2).2).2 := by
    have zero := Good.emit (k := 3) open_ (movImmSmall 0 0)
    have placed : Good c 3 ((place 0).run ((Codegen.emit c (movImmSmall 0 0)).run u).2).2 :=
      ⟨zero.err, zero.oom, zero.room⟩
    exact ((placed.emit (k := 2) movSpFp).emit (k := 1) epilogueLdp).emit (k := 0) Codegen.ret
  have last := tail (body entry)
  rw [genFunc_state, resolveBranches_run]
  have offsets : assignOffsets (returns n).locals = ([], 0) := by
    simp [assignOffsets, returns, offsetsFrom, alignUp]
  have run : (genBody c (returns n)).run (fresh s) = (Codegen.emit c Codegen.ret).run
      ((Codegen.emit c epilogueLdp).run ((Codegen.emit c movSpFp).run ((place 0).run
        ((Codegen.emit c (movImmSmall 0 0)).run
          ((genStmt c [] ⟨0, [], []⟩ [] (returns n).body).run
            ((Codegen.emit c movFpSp).run ((Codegen.emit c prologueStp).run
              (newlabel.run (fresh s)).2).2).2).2).2).2).2).2 := by
    have start : newlabel.run (fresh s) = (0, { fresh s with nlab := 1 }) := rfl
    have frame : genFrame c 0 = pure () := rfl
    have params : (returns n).params.zipIdx = [] := rfl
    simp only [genBody, offsets, frame, params, Prog.each, Prog.run_bind, Prog.run_pure, start]
  rw [run]
  exact ⟨last.err, last.oom, last.room⟩

theorem returns_accepted {n cap : Nat} {base : BitVec 64} {resolve : String → BitVec 64}
    {buf : Nat → Word} {labOff : Nat → Nat} (room : 4 * (5 * n + 6) ≤ cap) :
    ∃ out, ccCodegen cap base resolve buf labOff [returns n] = some out ∧ out.offs = [0] := by
  let c := setting cap base resolve [returns n]
  let s₀ : Gen := ⟨buf, 0, false, labOff, 0, [], [], none⟩
  have good : Good c (5 * n + 6) s₀ := ⟨rfl, rfl, by rw [Nat.zero_add]; exact room⟩
  have done := Good.func n good
  have fine : ¬ (((genFunc c (returns n)).run s₀).2.err.isSome = true ∨
      ((genFunc c (returns n)).run s₀).2.oom = true) := by
    rw [done.err, done.oom]
    decide
  have whole : genFuncs c [returns n] s₀ = some ([0], ((genFunc c (returns n)).run s₀).2) :=
    if_neg fine
  have main : c.funcs.findIdx? (· = "main") = some 0 := rfl
  exact ⟨_, ccCodegen_some.mpr ⟨_, _, _, whole, main, rfl⟩, rfl⟩

theorem fixes_append (p : Nat) (l m : List Item) :
    fixes p (l ++ m) = fixes p l ++ fixes (p + width l) m := by
  induction l generalizing p with
  | nil => rfl
  | cons x l ih =>
    rw [List.cons_append, fixes_cons, ih, fixes_cons p x l, List.append_assoc, width,
      Nat.add_assoc]

theorem rets_cost (c : Ctx) (b f n : Nat) :
    stmtsCost c b f (List.replicate n (.ret (.num 0))) = n * b := by
  induction n with
  | zero => simp [stmtsCost]
  | succ n ih =>
    rw [List.replicate_succ, stmtsCost, ih, stmtCost, Nat.succ_mul]
    simp [exprCost, Nat.add_comm]

theorem rets_goes {t : Targets} {labels : List Nat} {n m : Nat} {x : Item} {kind : BrKind} {b : Nat}
    (listed : x ∈ stmtsItems c offsets t labels (List.replicate n (.ret (.num 0))) m)
    (leads : goes x = some (kind, b)) : x = .br .b t.lret := by
  induction n generalizing labels m with
  | zero => cases listed
  | succ n ih =>
    rw [List.replicate_succ, stmtsItems, List.mem_append] at listed
    rcases listed with here | later
    · rw [stmtItems, List.mem_append] at here
      rcases here with value | branch
      · simp only [exprItems, words, List.mem_map] at value
        obtain ⟨w, _, rfl⟩ := value
        cases leads
      · exact List.mem_singleton.mp branch
    · exact ih later

theorem returns_closed (n : Nat) : (returns n).body.cases = [] := by
  change casesOf (List.replicate n (.ret (.num 0))) = []
  induction n with
  | zero => rfl
  | succ n ih => exact ih

def bodyItems (c : Ctx) (n : Nat) : List Item :=
  entryItems (returns n) ++ stmtItems c [] ⟨0, [], []⟩ [] (returns n).body 1 ++
    [.word (movImmSmall 0 0)]

theorem returns_items (c : Ctx) (n : Nat) : funcItems c (returns n) =
    bodyItems c n ++ .lab 0 :: words [movSpFp, epilogueLdp, Codegen.ret] := by
  rw [bodyItems, List.append_assoc]
  rfl

theorem returns_fix {n : Nat} {f : Fix} (listed : f ∈ fixes 0 (funcItems c (returns n))) :
    f.kind = .b ∧ f.lab = 0 ∧ f.site < width (bodyItems c n) := by
  rw [returns_items, fixes_append] at listed
  rcases List.mem_append.mp listed with early | late
  · obtain ⟨i, x, found, is⟩ := mem_fixes.mp early
    have range := found.range
    have entry : x ∉ entryItems (returns n) := by
      intro own
      simp only [entryItems, returns, assignOffsets, offsetsFrom, alignUp] at own
      simp at own
      rcases own with rfl | rfl | frame
      · cases is
      · cases is
      · cases frame
    have branch : x = .br .b 0 := by
      obtain ⟨before, rest, split, _⟩ := found
      have own : x ∈ bodyItems c n := by
        rw [split]
        exact List.mem_append_right _ List.mem_cons_self
      rcases List.mem_append.mp own with own | value
      · rcases List.mem_append.mp own with own | own
        · exact absurd own entry
        · rw [returns, stmtItems] at own
          cases x with
          | br kind l => exact rets_goes own rfl
          | tick l => exact rets_goes own rfl
          | word w => cases is
          | lab l => cases is
          | fn n => cases is
      · rw [List.mem_singleton.mp value] at is
        cases is
    have one : size (.br .b 0) = 1 := rfl
    rw [branch] at is
    rw [branch, one] at range
    obtain rfl := Option.some.inj is
    refine ⟨rfl, rfl, ?_⟩
    change i < _
    omega
  · cases late

/-- The last of 2049 returns stays a branch to itself. -/
theorem last_return_stays : ∃ out,
    ccCodegen codeCap 0x80000 (fun _ => 0) (fun _ => 0) (fun _ => 0) [returns 2049] = some out ∧
      ¬ Resolved (setting codeCap 0x80000 (fun _ => 0) [returns 2049]) [returns 2049] out := by
  obtain ⟨out, accepted, offs⟩ := @returns_accepted 2049 codeCap 0x80000 (fun _ => 0) (fun _ => 0)
    (fun _ => 0) (by decide)
  refine ⟨out, accepted, fun resolved => ?_⟩
  have closed : ∀ fn ∈ [returns 2049], fn.body.cases = [] := by
    intro fn listed
    rw [List.mem_singleton.mp listed]
    exact returns_closed 2049
  obtain ⟨_, _, _, code⟩ := ccCodegen_compiled closed accepted
  generalize setting codeCap 0x80000 (fun _ => 0) [returns 2049] = c at resolved code
  obtain ⟨labAt, compiled⟩ := code 0 (returns 2049) 0 rfl (by rw [offs]; rfl)
  have many : (fixes 0 (funcItems c (returns 2049))).length = 2049 := by
    rw [fixes_length, func_cost, returns, stmtCost, rets_cost, Nat.mul_one]
  have some_left : (fixes 0 (funcItems c (returns 2049))).drop maxBfx ≠ [] := by
    rw [ne_eq, List.drop_eq_nil_iff, many]
    decide
  obtain ⟨f, listed⟩ := List.exists_mem_of_ne_nil _ some_left
  have word := compiled.left f listed
  obtain ⟨kind, lab, early⟩ := returns_fix (List.mem_of_mem_drop listed)
  obtain ⟨i, x, found, is⟩ := mem_fixes.mp (List.mem_of_mem_drop listed)
  obtain ⟨t, target, flows⟩ :=
    resolved.branch 0 (returns 2049) 0 rfl (by rw [offs]; rfl) i x f found is
  have place : At 0 (funcItems c (returns 2049)) (width (bodyItems c 2049)) (.lab 0) :=
    ⟨bodyItems c 2049, _, returns_items c 2049, (Nat.zero_add _).symm⟩
  rw [lab] at target
  have behind : t = width (bodyItems c 2049) :=
    (compiled.lab t 0 target).symm.trans (compiled.lab _ 0 place)
  have itself : Flow out.buf f.site f.site := by
    have jump : ctrl BrKind.b.word = .jump 0 := by decide
    unfold ControlFlow.Flow
    rw [word, kind, jump]
    exact (Int.add_zero _).symm
  rcases (flows f.site).mp itself with same | ⟨falls, _⟩
  · omega
  · rw [kind] at falls
    exact falls

end Returns

end XinuRpi5.Cc.BranchTargets
