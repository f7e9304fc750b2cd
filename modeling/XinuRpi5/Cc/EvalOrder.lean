/- source: cc/abcl2c.c, cc/codegen.c
   digest: The order in which AIPL expressions and their C code are evaluated. -/

import XinuRpi5.Cc.AiplExpr

/-!
A call has a name for the function of the generated program that performs it, and slots
for the arguments of that function: operands, operands as plain numbers, and constants. The
values, the functions and the state are arbitrary; `eff` says which functions can change or
read the state, and `shared` which variables can change during a call.
-/

namespace XinuRpi5.Cc.EvalOrder

open AiplLex AiplStructure AiplExpr

/-- A variable of the C program: `self`, `g_obj[self].f[k]` or `v_x`. -/
inductive Var where
  | self
  | field (k : Nat)
  | name (x : Text)

/-- The C expressions that `emit_node` writes; `val` is a function of the value runtime. -/
inductive CExpr where
  | num (n : Int)
  | txt (t : Text)
  | var (x : Var)
  | val (f : String) (args : List CExpr)
  | app (f : Text) (args : List CExpr)

inductive Const where
  | int (n : Nat)
  | bool (n : Nat)
  | str (t : Text)
  | raw (n : Nat)
  | self

inductive Slot where
  | arg
  | num
  | const (c : Const)

/-- What performs a call; `wrap` is set when the result is a plain number. -/
structure Callee where
  fn : Text
  slots : List Slot
  wrap : Bool

/-- `lit` is an integer as it is written. -/
inductive Expr where
  | lit (n : Nat)
  | const (c : Const)
  | var (x : Var)
  | call (c : Callee) (args : List Expr)
  | un (op : Op) (a : Expr)
  | bin (op : Op) (a b : Expr)

/-- The arguments of a function; a missing operand is zero, and those that are left over are
dropped. -/
def fill {α : Type} (const : Const → α) (num : α → α) : List Slot → List α → List α
  | [], _ => []
  | .const c :: slots, xs => const c :: fill const num slots xs
  | .arg :: slots, x :: xs => x :: fill const num slots xs
  | .arg :: slots, [] => const (.int 0) :: fill const num slots []
  | .num :: slots, x :: xs => num x :: fill const num slots xs
  | .num :: slots, [] => num (const (.int 0)) :: fill const num slots []

def arity : List Slot → Nat
  | [] => 0
  | .const _ :: slots => arity slots
  | _ :: slots => arity slots + 1

section Lowering

def Const.code : Const → CExpr
  | .int n => .val "v_int" [.num n]
  | .bool n => .val "v_bool" [.num n]
  | .str t => .val "v_str" [.txt t]
  | .raw n => .num n
  | .self => .var .self

def Callee.code (c : Callee) (args : List CExpr) : CExpr :=
  let inner := CExpr.app c.fn (fill Const.code (fun x => .val "v_int_of" [x]) c.slots args)
  if c.wrap then .val "v_int" [inner] else inner

mutual

def lower : Expr → CExpr
  | .lit n => .val "v_int" [.num (asLong n)]
  | .const c => c.code
  | .var .self => .val "v_int" [.var .self]
  | .var x => .var x
  | .call c args => c.code (lowers args)
  | .un op a =>
    if op = .not then .val "v_not" [lower a] else .val "v_sub" [Const.code (.int 0), lower a]
  | .bin op a b =>
    .val (callName op).1 (if (callName op).2 then [lower b, lower a] else [lower a, lower b])

def lowers : List Expr → List CExpr
  | [] => []
  | e :: es => lower e :: lowers es

end

end Lowering

section Evaluation

/-- What the parts of an expression mean: values `V` and a state `σ`. -/
structure Runtime (V σ : Type) where
  num : Int → V
  txt : Text → V
  val : String → List V → V
  fn : Text → List V → V
  call : Text → List V → σ → V × σ
  self : V
  loc : Text → V
  read : Var → σ → V

variable {V σ : Type} (eff shared : Text → Bool) (rt : Runtime V σ)

def Runtime.var (x : Var) (s : σ) : V :=
  match x with
  | .self => rt.self
  | .field k => rt.read (.field k) s
  | .name y => if shared y then rt.read (.name y) s else rt.loc y

def Runtime.perform (f : Text) (vs : List V) (s : σ) : V × σ :=
  if eff f then rt.call f vs s else (rt.fn f vs, s)

mutual

/-- `gen_expr` and `gen_call`: the arguments of a call from left to right, then the call. -/
def evalC : CExpr → σ → V × σ
  | .num n, s => (rt.num n, s)
  | .txt t, s => (rt.txt t, s)
  | .var x, s => (rt.var shared x s, s)
  | .val f args, s => (rt.val f (evalCs args s).1, (evalCs args s).2)
  | .app f args, s => rt.perform eff f (evalCs args s).1 (evalCs args s).2

def evalCs : List CExpr → σ → List V × σ
  | [], s => ([], s)
  | e :: es, s => ((evalC e s).1 :: (evalCs es (evalC e s).2).1, (evalCs es (evalC e s).2).2)

end

def Runtime.const : Const → V
  | .int n => rt.val "v_int" [rt.num n]
  | .bool n => rt.val "v_bool" [rt.num n]
  | .str t => rt.val "v_str" [rt.txt t]
  | .raw n => rt.num n
  | .self => rt.self

def Runtime.args (slots : List Slot) (vs : List V) : List V :=
  fill rt.const (fun v => rt.val "v_int_of" [v]) slots vs

/-- What an operator means in terms of the value runtime: `a > b` is `b < a`. -/
def Runtime.binary (op : Op) (a b : V) : V :=
  rt.val (callName op).1 (if (callName op).2 then [b, a] else [a, b])

def Runtime.unary (op : Op) (a : V) : V :=
  if op = .not then rt.val "v_not" [a] else rt.val "v_sub" [rt.const (.int 0), a]

variable (unary : Op → V → V) (binary : Op → V → V → V)

mutual

/-- The meaning of an AIPL expression: its operands from left to right. -/
def eval : Expr → σ → V × σ
  | .lit n, s => (rt.val "v_int" [rt.num n], s)
  | .const c, s => (rt.const c, s)
  | .var .self, s => (rt.val "v_int" [rt.self], s)
  | .var x, s => (rt.var shared x s, s)
  | .call c args, s =>
    let r := rt.perform eff c.fn (rt.args c.slots (evals args s).1) (evals args s).2
    (if c.wrap then rt.val "v_int" [r.1] else r.1, r.2)
  | .un op a, s => (unary op (eval a s).1, (eval a s).2)
  | .bin op a b, s =>
    (binary op (eval a s).1 (eval b (eval a s).2).1, (eval b (eval a s).2).2)

def evals : List Expr → σ → List V × σ
  | [], s => ([], s)
  | e :: es, s => ((eval e s).1 :: (evals es (eval e s).2).1, (evals es (eval e s).2).2)

end

end Evaluation

section Conditions

variable (eff shared : Text → Bool)

mutual

def calls : Expr → Nat
  | .lit _ => 0
  | .const _ => 0
  | .var _ => 0
  | .call c args => callsOf args + if eff c.fn then 1 else 0
  | .un _ a => calls a
  | .bin _ a b => calls a + calls b

def callsOf : List Expr → Nat
  | [] => 0
  | e :: es => calls e + callsOf es

end

mutual

/-- The value does not depend on the state, and the state does not change. -/
def Fixed : Expr → Prop
  | .lit _ => True
  | .const _ => True
  | .var .self => True
  | .var (.field _) => False
  | .var (.name x) => shared x = false
  | .call c args => eff c.fn = false ∧ FixedUpTo (arity c.slots) args
  | .un _ a => Fixed a
  | .bin _ a b => Fixed a ∧ Fixed b

/-- The operands that have slots are fixed, and no other one has a call. -/
def FixedUpTo : Nat → List Expr → Prop
  | _, [] => True
  | 0, e :: es => calls eff e = 0 ∧ FixedUpTo 0 es
  | n + 1, e :: es => Fixed e ∧ FixedUpTo n es

end

def Apart (a b : Expr) : Prop :=
  calls eff a = 0 ∧ calls eff b = 0 ∨ Fixed eff shared a ∨ Fixed eff shared b

mutual

/-- No literal is too long, no operand with a call is dropped, and the operands of `>` and `>=`
can change places. -/
def Clean : Expr → Prop
  | .lit n => n < 2 ^ 63
  | .const _ => True
  | .var _ => True
  | .call c args => CleanUpTo (arity c.slots) args
  | .un _ a => Clean a
  | .bin op a b => Clean a ∧ Clean b ∧ ((callName op).2 = true → Apart eff shared a b)

def CleanUpTo : Nat → List Expr → Prop
  | _, [] => True
  | 0, e :: es => calls eff e = 0 ∧ CleanUpTo 0 es
  | n + 1, e :: es => Clean e ∧ CleanUpTo n es

end

/-- For every runtime the C code gives the value of the expression and leaves its state. -/
def Preserved (e : Expr) : Prop :=
  ∀ (V σ : Type) (rt : Runtime V σ) (s : σ),
    evalC eff shared rt (lower e) s = eval eff shared rt rt.unary rt.binary e s

end Conditions

section Slots

variable {α : Type} {const : Const → α} {num : α → α}

theorem fill_take (slots : List Slot) (xs : List α) :
    fill const num slots (xs.take (arity slots)) = fill const num slots xs := by
  induction slots generalizing xs with
  | nil => rfl
  | cons slot slots ih =>
    cases slot with
    | const c => exact congrArg (List.cons _) (ih xs)
    | arg =>
      cases xs with
      | nil => rfl
      | cons x xs => exact congrArg (List.cons _) (ih xs)
    | num =>
      cases xs with
      | nil => rfl
      | cons x xs => exact congrArg (List.cons _) (ih xs)

theorem lowers_take (n : Nat) (es : List Expr) : lowers (es.take n) = (lowers es).take n := by
  induction es generalizing n with
  | nil => cases n <;> rfl
  | cons e es ih =>
    cases n with
    | zero => rfl
    | succ n => exact congrArg (List.cons _) (ih n)

end Slots

section Sound

variable {V σ : Type} {eff shared : Text → Bool} (rt : Runtime V σ)
variable (unary : Op → V → V) (binary : Op → V → V → V)

mutual

theorem eval_quiet (e : Expr) (quiet : calls eff e = 0) (s : σ) :
    (eval eff shared rt unary binary e s).2 = s := by
  match e with
  | .lit _ => rfl
  | .const _ => rfl
  | .var .self => rfl
  | .var (.field _) => rfl
  | .var (.name _) => rfl
  | .call c args =>
    obtain ⟨operands, plain⟩ := Nat.add_eq_zero_iff.mp quiet
    have silent : eff c.fn = false := by
      by_contra loud
      rw [Bool.not_eq_false] at loud
      rw [loud] at plain
      cases plain
    change (rt.perform eff c.fn _ _).2 = s
    unfold Runtime.perform
    rw [silent]
    exact evals_quiet args operands s
  | .un op a => exact eval_quiet a quiet s
  | .bin op a b =>
    obtain ⟨left, right⟩ := Nat.add_eq_zero_iff.mp quiet
    change (eval eff shared rt unary binary b (eval eff shared rt unary binary a s).2).2 = s
    rw [eval_quiet a left s, eval_quiet b right s]

theorem evals_quiet (es : List Expr) (quiet : callsOf eff es = 0) (s : σ) :
    (evals eff shared rt unary binary es s).2 = s := by
  match es with
  | [] => rfl
  | e :: es =>
    obtain ⟨head, tail⟩ := Nat.add_eq_zero_iff.mp quiet
    change (evals eff shared rt unary binary es (eval eff shared rt unary binary e s).2).2 = s
    rw [eval_quiet e head s, evals_quiet es tail s]

end

mutual

theorem eval_fixed (e : Expr) (fixed : Fixed eff shared e) (s t : σ) :
    (eval eff shared rt unary binary e s).1 = (eval eff shared rt unary binary e t).1 ∧
      (eval eff shared rt unary binary e s).2 = s := by
  match e with
  | .lit _ => exact ⟨rfl, rfl⟩
  | .const _ => exact ⟨rfl, rfl⟩
  | .var .self => exact ⟨rfl, rfl⟩
  | .var (.name x) =>
    have own : shared x = false := fixed
    refine ⟨?_, rfl⟩
    simp only [eval, Runtime.var, own, Bool.false_eq_true, if_false]
  | .call c args =>
    obtain ⟨silent, operands⟩ := fixed
    obtain ⟨same, stays⟩ := evals_fixed (arity c.slots) args operands s t
    simp only [eval, Runtime.perform, silent, Bool.false_eq_true, if_false, Runtime.args]
    refine ⟨?_, stays⟩
    rw [← fill_take c.slots, same, fill_take]
  | .un op a =>
    obtain ⟨same, stays⟩ := eval_fixed a fixed s t
    exact ⟨congrArg (unary op) same, stays⟩
  | .bin op a b =>
    obtain ⟨left, right⟩ := fixed
    obtain ⟨sameA, staysA⟩ := eval_fixed a left s t
    obtain ⟨sameB, staysB⟩ := eval_fixed b right s t
    obtain ⟨_, staysT⟩ := eval_fixed a left t s
    simp only [eval]
    rw [staysA, staysT, sameA, sameB]
    exact ⟨rfl, staysB⟩

theorem evals_fixed (n : Nat) (es : List Expr) (fixed : FixedUpTo eff shared n es) (s t : σ) :
    (evals eff shared rt unary binary es s).1.take n =
        (evals eff shared rt unary binary es t).1.take n ∧
      (evals eff shared rt unary binary es s).2 = s := by
  match n, es with
  | n, [] => exact ⟨rfl, rfl⟩
  | 0, e :: es =>
    obtain ⟨head, tail⟩ := fixed
    obtain ⟨_, stays⟩ := evals_fixed 0 es tail s t
    refine ⟨rfl, ?_⟩
    simp only [evals]
    rw [eval_quiet rt unary binary e head s]
    exact stays
  | n + 1, e :: es =>
    obtain ⟨head, tail⟩ := fixed
    obtain ⟨same, stays⟩ := eval_fixed e head s t
    obtain ⟨_, staysT⟩ := eval_fixed e head t s
    obtain ⟨rest, staysRest⟩ := evals_fixed n es tail s t
    simp only [evals, List.take_succ_cons]
    rw [stays, staysT, same, rest]
    exact ⟨rfl, staysRest⟩

end

theorem eval_code (c : Const) (s : σ) : evalC eff shared rt c.code s = (rt.const c, s) := by
  cases c with
  | int n => rfl
  | bool n => rfl
  | str t => rfl
  | raw n => rfl
  | self => rfl

theorem evalCs_fill (slots : List Slot) (xs : List CExpr) (s : σ) :
    evalCs eff shared rt (fill Const.code (fun x => .val "v_int_of" [x]) slots xs) s =
      (rt.args slots (evalCs eff shared rt (xs.take (arity slots)) s).1,
        (evalCs eff shared rt (xs.take (arity slots)) s).2) := by
  induction slots generalizing xs s with
  | nil => rfl
  | cons slot slots ih =>
    cases slot with
    | const c =>
      simp only [fill, evalCs, eval_code, ih, arity, Runtime.args]
    | arg =>
      cases xs with
      | nil => simp only [fill, evalCs, eval_code, ih, List.take_nil, Runtime.args]
      | cons x xs =>
        simp only [fill, evalCs, ih, arity, List.take_succ_cons, Runtime.args]
    | num =>
      cases xs with
      | nil => simp only [fill, evalCs, evalC, eval_code, ih, List.take_nil, Runtime.args]
      | cons x xs =>
        simp only [fill, evalCs, evalC, ih, arity, List.take_succ_cons, Runtime.args]

mutual

/-- The code of a clean expression does what the expression means. -/
theorem eval_lower (e : Expr) (clean : Clean eff shared e) (s : σ) :
    evalC eff shared rt (lower e) s = eval eff shared rt rt.unary rt.binary e s := by
  match e with
  | .lit n =>
    have same : asLong n = n := asLong_small clean
    simp only [lower, eval, evalC, evalCs, same]
  | .const c => exact eval_code rt c s
  | .var .self => rfl
  | .var (.field _) => rfl
  | .var (.name _) => rfl
  | .call c args =>
    have operands := evals_lower (arity c.slots) args clean s
    have inner : evalC eff shared rt
        (.app c.fn (fill Const.code (fun x => .val "v_int_of" [x]) c.slots (lowers args))) s =
        rt.perform eff c.fn (rt.args c.slots (evals eff shared rt rt.unary rt.binary args s).1)
          (evals eff shared rt rt.unary rt.binary args s).2 := by
      simp only [evalC]
      rw [evalCs_fill, ← lowers_take, operands]
      simp only [Runtime.args, fill_take]
    simp only [lower, Callee.code, eval]
    cases c.wrap with
    | false => exact inner
    | true =>
      simp only [if_true, evalC, evalCs] at inner ⊢
      rw [inner]
  | .un op a =>
    have operand := eval_lower a clean s
    simp only [lower, eval, Runtime.unary]
    by_cases negation : op = .not
    · rw [if_pos negation, if_pos negation]
      simp only [evalC, evalCs, operand]
    · rw [if_neg negation, if_neg negation]
      simp only [evalC, evalCs, eval_code, operand]
  | .bin op a b =>
    obtain ⟨left, right, apart⟩ := clean
    have first := eval_lower a left
    have second := eval_lower b right
    simp only [lower, eval, Runtime.binary]
    cases swap : (callName op).2 with
    | false => simp only [evalC, evalCs, first, second, Bool.false_eq_true, if_false]
    | true =>
      simp only [evalC, evalCs, first, second, if_true]
      rcases apart swap with ⟨quiet, quiet'⟩ | fixed | fixed
      · rw [eval_quiet rt rt.unary rt.binary a quiet, eval_quiet rt rt.unary rt.binary b quiet',
          eval_quiet rt rt.unary rt.binary a quiet, eval_quiet rt rt.unary rt.binary b quiet']
      · obtain ⟨_, stays⟩ := eval_fixed rt rt.unary rt.binary a fixed s s
        obtain ⟨same, stays'⟩ := eval_fixed rt rt.unary rt.binary a fixed
          (eval eff shared rt rt.unary rt.binary b s).2 s
        rw [stays, stays', same]
      · obtain ⟨_, stays⟩ := eval_fixed rt rt.unary rt.binary b fixed s s
        obtain ⟨same, stays'⟩ := eval_fixed rt rt.unary rt.binary b fixed
          (eval eff shared rt rt.unary rt.binary a s).2 s
        rw [stays, stays', same]

theorem evals_lower (n : Nat) (es : List Expr) (clean : CleanUpTo eff shared n es) (s : σ) :
    evalCs eff shared rt (lowers (es.take n)) s =
      ((evals eff shared rt rt.unary rt.binary es s).1.take n,
        (evals eff shared rt rt.unary rt.binary es s).2) := by
  match n, es with
  | 0, [] => rfl
  | n + 1, [] => rfl
  | 0, e :: es =>
    obtain ⟨head, tail⟩ := clean
    have rest := evals_lower 0 es tail s
    simp only [List.take_zero, lowers, evalCs, evals] at rest ⊢
    rw [eval_quiet rt rt.unary rt.binary e head s]
    exact rest
  | n + 1, e :: es =>
    obtain ⟨head, tail⟩ := clean
    have first := eval_lower e head s
    have rest := evals_lower n es tail (eval eff shared rt rt.unary rt.binary e s).2
    simp only [List.take_succ_cons, lowers, evalCs, evals]
    rw [first, rest]

end

end Sound

section Quiet

variable {eff shared : Text → Bool}

mutual

theorem calls_of_fixed (e : Expr) (fixed : Fixed eff shared e) : calls eff e = 0 := by
  match e with
  | .lit _ => rfl
  | .const _ => rfl
  | .var _ => rfl
  | .call c args =>
    obtain ⟨silent, operands⟩ := fixed
    simp only [calls, silent, Bool.false_eq_true, if_false]
    exact callsOf_fixed (arity c.slots) args operands
  | .un _ a => exact calls_of_fixed a fixed
  | .bin _ a b => exact Nat.add_eq_zero_iff.mpr ⟨calls_of_fixed a fixed.1, calls_of_fixed b fixed.2⟩

theorem callsOf_fixed (n : Nat) (es : List Expr) (fixed : FixedUpTo eff shared n es) :
    callsOf eff es = 0 := by
  match n, es with
  | n, [] => rfl
  | 0, e :: es => exact Nat.add_eq_zero_iff.mpr ⟨fixed.1, callsOf_fixed 0 es fixed.2⟩
  | n + 1, e :: es =>
    exact Nat.add_eq_zero_iff.mpr ⟨calls_of_fixed e fixed.1, callsOf_fixed n es fixed.2⟩

end

theorem fixedUpTo_zero (es : List Expr) (quiet : callsOf eff es = 0) :
    FixedUpTo eff shared 0 es := by
  induction es with
  | nil => trivial
  | cons e es ih =>
    obtain ⟨head, tail⟩ := Nat.add_eq_zero_iff.mp quiet
    exact ⟨head, ih tail⟩

end Quiet

section Free

/-- Values that record how they came about; the state is the number of calls before. -/
inductive Term where
  | num (n : Int)
  | txt (t : Text)
  | self
  | loc (x : Text)
  | read (x : Var) (n : Nat)
  | val (f : String) (ts : List Term)
  | fn (f : Text) (ts : List Term)
  | result (n : Nat) (f : Text) (ts : List Term)

def free : Runtime Term Nat where
  num := .num
  txt := .txt
  val := .val
  fn := .fn
  call f ts n := (.result n f ts, n + 1)
  self := .self
  loc := .loc
  read := .read

variable (eff shared : Text → Bool)

mutual

def made : Expr → Nat
  | .lit _ => 0
  | .const _ => 0
  | .var _ => 0
  | .call c args => madeUpTo (arity c.slots) args + if eff c.fn then 1 else 0
  | .un _ a => made a
  | .bin _ a b => made a + made b

def madeUpTo : Nat → List Expr → Nat
  | _, [] => 0
  | 0, _ :: _ => 0
  | n + 1, e :: es => made e + madeUpTo n es

end

variable {eff shared : Text → Bool}

mutual

theorem made_le (e : Expr) : made eff e ≤ calls eff e := by
  match e with
  | .lit _ => exact Nat.le_refl _
  | .const _ => exact Nat.le_refl _
  | .var _ => exact Nat.le_refl _
  | .call c args => exact Nat.add_le_add_right (madeUpTo_le (arity c.slots) args) _
  | .un _ a => exact made_le a
  | .bin _ a b => exact Nat.add_le_add (made_le a) (made_le b)

theorem madeUpTo_le (n : Nat) (es : List Expr) : madeUpTo eff n es ≤ callsOf eff es := by
  match n, es with
  | n, [] => cases n <;> exact Nat.le_refl _
  | 0, _ :: _ => exact Nat.zero_le _
  | n + 1, e :: es => exact Nat.add_le_add (made_le e) (madeUpTo_le n es)

end

mutual

theorem eval_free (e : Expr) (n : Nat) :
    (eval eff shared free free.unary free.binary e n).2 = n + calls eff e := by
  match e with
  | .lit _ => rfl
  | .const _ => rfl
  | .var .self => rfl
  | .var (.field _) => rfl
  | .var (.name _) => rfl
  | .call c args =>
    have operands := evals_free args n
    simp only [eval, Runtime.perform, calls]
    split
    · change (evals eff shared free free.unary free.binary args n).2 + 1 = _
      rw [operands, Nat.add_assoc]
    · simp only [operands, Nat.add_zero]
  | .un op a => exact eval_free a n
  | .bin op a b =>
    simp only [eval, calls]
    rw [eval_free a n, eval_free b (n + calls eff a), Nat.add_assoc]

theorem evals_free (es : List Expr) (n : Nat) :
    (evals eff shared free free.unary free.binary es n).2 = n + callsOf eff es := by
  match es with
  | [] => rfl
  | e :: es =>
    simp only [evals, callsOf]
    rw [eval_free e n, evals_free es (n + calls eff e), Nat.add_assoc]

end

theorem evals_length (es : List Expr) (n : Nat) :
    (evals eff shared free free.unary free.binary es n).1.length = es.length := by
  induction es generalizing n with
  | nil => rfl
  | cons e es ih => exact congrArg Nat.succ (ih _)

theorem evalCs_length (es : List Expr) (n : Nat) :
    (evalCs eff shared free (lowers es) n).1.length = es.length := by
  induction es generalizing n with
  | nil => rfl
  | cons e es ih => exact congrArg Nat.succ (ih _)

mutual

theorem evalC_free (e : Expr) (n : Nat) :
    (evalC eff shared free (lower e) n).2 = n + made eff e := by
  match e with
  | .lit _ => rfl
  | .const c => rw [lower, eval_code]; rfl
  | .var .self => rfl
  | .var (.field _) => rfl
  | .var (.name _) => rfl
  | .call c args =>
    have operands := evalCs_free (arity c.slots) args n
    have inner : (evalC eff shared free
        (.app c.fn (fill Const.code (fun x => .val "v_int_of" [x]) c.slots (lowers args))) n).2 =
        n + made eff (.call c args) := by
      simp only [evalC, Runtime.perform, made]
      rw [evalCs_fill, ← lowers_take]
      split
      · change (evalCs eff shared free (lowers (args.take (arity c.slots))) n).2 + 1 = _
        rw [operands, Nat.add_assoc]
      · simp only [operands, Nat.add_zero]
    simp only [lower, Callee.code]
    cases c.wrap with
    | false => exact inner
    | true => exact inner
  | .un op a =>
    have operand := evalC_free a n
    simp only [lower]
    split
    · exact operand
    · simp only [evalC, evalCs, eval_code]
      exact operand
  | .bin op a b =>
    simp only [lower, made]
    split
    · simp only [evalC, evalCs]
      rw [evalC_free b n, evalC_free a, Nat.add_assoc, Nat.add_comm (made eff b)]
    · simp only [evalC, evalCs]
      rw [evalC_free a n, evalC_free b, Nat.add_assoc]

theorem evalCs_free (k : Nat) (es : List Expr) (n : Nat) :
    (evalCs eff shared free (lowers (es.take k)) n).2 = n + madeUpTo eff k es := by
  match k, es with
  | 0, [] => rfl
  | k + 1, [] => rfl
  | 0, _ :: _ => rfl
  | k + 1, e :: es =>
    simp only [List.take_succ_cons, lowers, evalCs, madeUpTo]
    rw [evalC_free e n, evalCs_free k es, Nat.add_assoc]

end

/-- The operands are seen in the arguments. -/
theorem args_inj (slots : List Slot) {xs ys : List Term} (length : xs.length = ys.length)
    (same : free.args slots xs = free.args slots ys) :
    xs.take (arity slots) = ys.take (arity slots) := by
  unfold Runtime.args at same
  induction slots generalizing xs ys with
  | nil => rfl
  | cons slot slots ih =>
    cases slot with
    | const c => exact ih length (List.cons.inj same).2
    | arg | num =>
      cases xs with
      | nil =>
        obtain rfl := List.length_eq_zero_iff.mp length.symm
        rfl
      | cons x xs =>
        cases ys with
        | nil => cases length
        | cons y ys =>
          obtain ⟨head, tail⟩ := List.cons.inj same
          have rest := ih (Nat.succ.inj length) tail
          have inner : x = y := by
            first
            | exact head
            | exact (List.cons.inj (Term.val.inj head).2).1
          simp only [arity, List.take_succ_cons, inner, rest]

mutual

/-- When the code makes all calls and the values look alike, the expression is clean, and it
was evaluated after as many calls or is fixed. -/
theorem clean_of_same (e : Expr) (all : made eff e = calls eff e) (n m : Nat)
    (same : (eval eff shared free free.unary free.binary e n).1 =
      (evalC eff shared free (lower e) m).1) :
    Clean eff shared e ∧ (n = m ∨ Fixed eff shared e) := by
  match e with
  | .lit k =>
    have whole : (k : Int) = asLong k :=
      Term.num.inj (List.cons.inj (Term.val.inj same).2).1
    exact ⟨small_of_asLong whole.symm, .inr trivial⟩
  | .const _ => exact ⟨trivial, .inr trivial⟩
  | .var .self => exact ⟨trivial, .inr trivial⟩
  | .var (.field k) => exact ⟨trivial, .inl (Term.read.inj same).2⟩
  | .var (.name x) =>
    refine ⟨trivial, ?_⟩
    cases own : shared x with
    | false => exact .inr own
    | true =>
      simp only [eval, lower, evalC, Runtime.var, own, if_true] at same
      exact .inl (Term.read.inj same).2
  | .call c args =>
    have operands : madeUpTo eff (arity c.slots) args = callsOf eff args :=
      Nat.add_right_cancel all
    have inner : (free.perform eff c.fn
          (free.args c.slots (evals eff shared free free.unary free.binary args n).1)
          (evals eff shared free free.unary free.binary args n).2).1 =
        (free.perform eff c.fn
          (free.args c.slots (evalCs eff shared free (lowers (args.take (arity c.slots))) m).1)
          (evalCs eff shared free (lowers (args.take (arity c.slots))) m).2).1 := by
      simp only [eval, lower, Callee.code] at same
      cases wrapped : c.wrap with
      | false =>
        rw [wrapped] at same
        simp only [Bool.false_eq_true, if_false, evalC] at same
        rw [evalCs_fill, ← lowers_take] at same
        exact same
      | true =>
        rw [wrapped] at same
        simp only [if_true, evalC, evalCs] at same
        rw [evalCs_fill, ← lowers_take] at same
        exact (List.cons.inj (Term.val.inj same).2).1
    have seen : free.args c.slots (evals eff shared free free.unary free.binary args n).1 =
          free.args c.slots
            (evalCs eff shared free (lowers (args.take (arity c.slots))) m).1 →
        CleanUpTo eff shared (arity c.slots) args ∧
          (n = m ∨ FixedUpTo eff shared (arity c.slots) args) := by
      intro alike
      apply clean_of_same_list (arity c.slots) args operands n m
      have taken : free.args c.slots
          ((evals eff shared free free.unary free.binary args n).1.take (arity c.slots)) =
          free.args c.slots
            (evalCs eff shared free (lowers (args.take (arity c.slots))) m).1 := by
        rw [← alike]
        exact fill_take _ _
      have length : ((evals eff shared free free.unary free.binary args n).1.take
            (arity c.slots)).length =
          (evalCs eff shared free (lowers (args.take (arity c.slots))) m).1.length := by
        rw [List.length_take, evals_length, evalCs_length, List.length_take]
      have equal := args_inj c.slots length taken
      rw [List.take_take, Nat.min_self] at equal
      rw [equal]
      refine List.take_of_length_le ?_
      rw [evalCs_length, List.length_take]
      exact Nat.min_le_left _ _
    unfold Runtime.perform at inner
    cases loud : eff c.fn with
    | false =>
      rw [loud] at inner
      simp only [Bool.false_eq_true, if_false] at inner
      obtain ⟨clean, either⟩ := seen (Term.fn.inj inner).2
      exact ⟨clean, either.imp_right fun fixed => ⟨loud, fixed⟩⟩
    | true =>
      rw [loud] at inner
      simp only [if_true] at inner
      obtain ⟨before, _, alike⟩ := Term.result.inj inner
      rw [evals_free, evalCs_free, operands] at before
      exact ⟨(seen alike).1, .inl (Nat.add_right_cancel before)⟩
  | .un op a =>
    refine clean_of_same a all n m ?_
    simp only [eval, lower, Runtime.unary] at same
    by_cases negation : op = .not
    · rw [if_pos negation, if_pos negation] at same
      simp only [evalC, evalCs] at same
      exact (List.cons.inj (Term.val.inj same).2).1
    · rw [if_neg negation, if_neg negation] at same
      simp only [evalC, evalCs, eval_code] at same
      exact (List.cons.inj (List.cons.inj (Term.val.inj same).2).2).1
  | .bin op a b =>
    have both : made eff a + made eff b = calls eff a + calls eff b := all
    have left : made eff a ≤ calls eff a := made_le a
    have right : made eff b ≤ calls eff b := made_le b
    have allA : made eff a = calls eff a := by omega
    have allB : made eff b = calls eff b := by omega
    simp only [eval, lower, Runtime.binary] at same
    cases swap : (callName op).2 with
    | false =>
      rw [swap] at same
      simp only [Bool.false_eq_true, if_false, evalC, evalCs] at same
      obtain ⟨first, rest⟩ := List.cons.inj (Term.val.inj same).2
      obtain ⟨second, _⟩ := List.cons.inj rest
      rw [eval_free, evalC_free, allA] at second
      obtain ⟨cleanA, eitherA⟩ := clean_of_same a allA n m first
      obtain ⟨cleanB, eitherB⟩ := clean_of_same b allB _ _ second
      refine ⟨⟨cleanA, cleanB, fun is => ?_⟩, ?_⟩
      · rw [swap] at is
        cases is
      · rcases eitherA with here | fixedA
        · exact .inl here
        · exact (eitherB.imp Nat.add_right_cancel fun fixedB => ⟨fixedA, fixedB⟩)
    | true =>
      rw [swap] at same
      simp only [if_true, evalC, evalCs] at same
      obtain ⟨second, rest⟩ := List.cons.inj (Term.val.inj same).2
      obtain ⟨first, _⟩ := List.cons.inj rest
      rw [eval_free] at second
      rw [evalC_free, allB] at first
      obtain ⟨cleanA, eitherA⟩ := clean_of_same a allA _ _ first
      obtain ⟨cleanB, eitherB⟩ := clean_of_same b allB _ _ second
      rcases eitherA with early | fixedA
      · rcases eitherB with late | fixedB
        · have quietA : calls eff a = 0 := by omega
          have quietB : calls eff b = 0 := by omega
          exact ⟨⟨cleanA, cleanB, fun _ => .inl ⟨quietA, quietB⟩⟩, .inl (by omega)⟩
        · have quietB := calls_of_fixed b fixedB
          exact ⟨⟨cleanA, cleanB, fun _ => .inr (.inr fixedB)⟩, .inl (by omega)⟩
      · have quietA := calls_of_fixed a fixedA
        refine ⟨⟨cleanA, cleanB, fun _ => .inr (.inl fixedA)⟩, ?_⟩
        rcases eitherB with late | fixedB
        · exact .inl (by omega)
        · exact .inr ⟨fixedA, fixedB⟩

theorem clean_of_same_list (k : Nat) (es : List Expr)
    (all : madeUpTo eff k es = callsOf eff es) (n m : Nat)
    (same : (evals eff shared free free.unary free.binary es n).1.take k =
      (evalCs eff shared free (lowers (es.take k)) m).1) :
    CleanUpTo eff shared k es ∧ (n = m ∨ FixedUpTo eff shared k es) := by
  match k, es with
  | 0, [] => exact ⟨trivial, .inr trivial⟩
  | k + 1, [] => exact ⟨trivial, .inr trivial⟩
  | 0, e :: es =>
    have none : 0 = calls eff e + callsOf eff es := all
    obtain ⟨head, tail⟩ := Nat.add_eq_zero_iff.mp none.symm
    have rest : madeUpTo eff 0 es = callsOf eff es := by
      rw [tail]
      cases es <;> rfl
    obtain ⟨clean, _⟩ := clean_of_same_list 0 es rest n n rfl
    exact ⟨⟨head, clean⟩, .inr ⟨head, fixedUpTo_zero es tail⟩⟩
  | k + 1, e :: es =>
    have both : made eff e + madeUpTo eff k es = calls eff e + callsOf eff es := all
    have left : made eff e ≤ calls eff e := made_le e
    have right : madeUpTo eff k es ≤ callsOf eff es := madeUpTo_le k es
    have allHead : made eff e = calls eff e := by omega
    have allTail : madeUpTo eff k es = callsOf eff es := by omega
    simp only [evals, List.take_succ_cons, lowers, evalCs] at same
    obtain ⟨first, rest⟩ := List.cons.inj same
    rw [eval_free, evalC_free, allHead] at rest
    obtain ⟨clean, either⟩ := clean_of_same e allHead n m first
    obtain ⟨cleans, eithers⟩ := clean_of_same_list k es allTail _ _ rest
    refine ⟨⟨clean, cleans⟩, ?_⟩
    rcases either with here | fixed
    · exact .inl here
    · exact eithers.imp Nat.add_right_cancel fun fixeds => ⟨fixed, fixeds⟩

end

theorem preserved_iff (e : Expr) : Preserved eff shared e ↔ Clean eff shared e := by
  constructor
  · intro preserved
    have agree := preserved Term Nat free 0
    have count := congrArg Prod.snd agree
    rw [eval_free, evalC_free, Nat.zero_add, Nat.zero_add] at count
    exact (clean_of_same e count 0 0 (congrArg Prod.fst agree).symm).1
  · intro clean V σ rt s
    exact eval_lower rt e clean s

end Free

end XinuRpi5.Cc.EvalOrder
