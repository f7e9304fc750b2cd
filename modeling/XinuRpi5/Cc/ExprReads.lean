/- source: cc/parse.c
   digest: What the expression parser does with some tokens, and its loops over operators. -/

import XinuRpi5.Cc.ExprTrees

/-!
What is read is said with the node that comes of it, the bytes it takes, and the tokens that may
come next: an operator that the function would go on with may not.
-/

namespace XinuRpi5.Cc.ExprReads

open Lib.RuledState Codegen Scoping Parse
open ExprTrees

section Reading

def scope (s : Parser) : Scope := ⟨s.curLocals ++ s.globals, s.layouts, s.typedefs⟩

/-- The parser behind some tokens, which took some bytes and left a log. -/
def past (s : Parser) (rest : List Token) (cost : Nat) (log : List Event) : Parser :=
  { s with tk := rest, arena := { s.arena with pos := s.arena.pos + cost }, log := log }

def looks (t : Option Token) (w : String) : Bool := isPunct t w || isKw t w

/-- In a scope a program reads the tokens, takes the bytes and goes on as another one, whatever
comes next of what may. -/
def Leads {α : Type} (E : Scope) (p r : P α) (toks : List Token) (cost : Nat)
    (next : Option Token → Prop) : Prop :=
  ∀ s rest, scope s = E → s.tk = toks ++ rest → next rest.head? →
    s.arena.pos + cost ≤ s.arena.cap → ∃ log, p.run s = r.run (past s rest cost log)

abbrev Yields {α : Type} (E : Scope) (p : P α) (toks : List Token) (a : α) (cost : Nat)
    (next : Option Token → Prop) : Prop :=
  Leads E p (pure a) toks cost next

def anything (_ : Option Token) : Prop := True

variable {E : Scope} {α β : Type}

theorem past_past (s : Parser) (l m : List Token) (c d : Nat) (x y : List Event) :
    past (past s l c x) m d y = past s m (c + d) y := by
  unfold past
  rw [Nat.add_assoc]

variable {s : Parser} {l toks' : List Token} {next next' : Option Token → Prop} {c' : Nat}
  {q : α → P β} {r : P β} {t : Token}

theorem past_same (same : s.tk = l) : past s l 0 s.log = s := by
  rw [← same]
  rfl

variable {p : P α} {toks : List Token} {c : Nat} {a : α}

theorem Leads.narrow {r : P α} (leads : Leads E p r toks c next) (less : ∀ t, next' t → next t) :
    Leads E p r toks c next' :=
  fun s l inside tokens fine room => leads s l inside tokens (less _ fine) room

theorem Leads.trans {q r : P α} (first : Leads E p q toks c next)
    (rest : Leads E q r toks' c' next')
    (meets : ∀ l : List Token, next' l.head? → next (toks' ++ l).head?) :
    Leads E p r (toks ++ toks') (c + c') next' := by
  intro s l inside tokens fine room
  rw [List.append_assoc] at tokens
  obtain ⟨log, one⟩ := first s (toks' ++ l) inside tokens (meets l fine) (by omega)
  have room' : s.arena.pos + c + c' ≤ s.arena.cap := by omega
  obtain ⟨log', two⟩ := rest (past s (toks' ++ l) c log) l inside rfl fine room'
  refine ⟨log', ?_⟩
  rw [one, two, past_past]

theorem Leads.refl (p : P α) : Leads E p p [] 0 anything := by
  intro s l _ tokens _ _
  refine ⟨s.log, ?_⟩
  rw [past_same (show s.tk = l from tokens)]

theorem Leads.then
    (first : Yields E p toks a c next) (q : α → P β) : Leads E (p >>= q) (q a) toks c next := by
  intro s l inside tokens fine room
  obtain ⟨log, one⟩ := first s l inside tokens fine room
  refine ⟨log, ?_⟩
  rw [Prog.run_bind, one]
  rfl

theorem Leads.bind (first : Yields E p toks a c next)
    (rest : Leads E (q a) r toks' c' next')
    (meets : ∀ l : List Token, next' l.head? → next (toks' ++ l).head?) :
    Leads E (p >>= q) r (toks ++ toks') (c + c') next' :=
  (first.then q).trans rest meets

theorem Leads.step (first : Yields E p toks a 0 next)
    (rest : Leads E (q a) r toks' c next')
    (meets : ∀ l : List Token, next' l.head? → next (toks' ++ l).head?) :
    Leads E (p >>= q) r (toks ++ toks') c next' := by
  have both := first.bind rest meets
  rw [Nat.zero_add] at both
  exact both

theorem Leads.free {p : P α} {q : α → P β} {r : P β} {toks toks' : List Token} {a : α} {c : Nat}
    {next next' : Option Token → Prop} (first : Yields E p toks a c next)
    (rest : Leads E (q a) r toks' 0 next')
    (meets : ∀ l : List Token, next' l.head? → next (toks' ++ l).head?) :
    Leads E (p >>= q) r (toks ++ toks') c next' :=
  first.bind rest meets

theorem Leads.silent (first : Yields E p [] a 0 next)
    (rest : Leads E (q a) r toks c next')
    (meets : ∀ l : List Token, next' l.head? → next (toks ++ l).head?) :
    Leads E (p >>= q) r toks c next' :=
  first.step rest meets

theorem Leads.ends (first : Yields E p toks a c next)
    (rest : Leads E (q a) r [] c' anything) : Leads E (p >>= q) r toks (c + c') next := by
  have both := first.bind (rest.narrow fun _ _ => trivial) fun l fine => fine
  rw [List.append_nil] at both
  exact both

theorem Leads.last (first : Yields E p toks a c next)
    (rest : Leads E (q a) r [] 0 anything) : Leads E (p >>= q) r toks c next :=
  first.ends rest

theorem Yields.pure (a : α) : Yields E (pure a) [] a 0 anything := Leads.refl _

theorem Leads.give (first : Yields E p toks a c next) (f : α → β) :
    Yields E (p >>= fun x => Pure.pure (f x)) toks (f a) c next :=
  first.then fun x => Pure.pure (f x)

theorem Yields.gets {f : Parser → α} (known : ∀ s, scope s = E → f s = a) :
    Yields E (.gets f) [] a 0 anything := by
  intro s l inside tokens _ _
  refine ⟨s.log, ?_⟩
  rw [Prog.run_gets, known s inside]
  exact congrArg (Prod.mk a) (past_same tokens).symm

theorem peek_run (tokens : s.tk = t :: l) :
    peek.run s = (t, s) := by
  simp only [peek, reads, Prog.act, tokens, List.foldl_nil]

theorem advance_run (tokens : s.tk = t :: l) :
    advance.run s = ((), { s with tk := l }) := by
  simp only [advance, reads, Prog.act, tokens, List.foldl_cons, List.foldl_nil]
  rw [Parser.act, tokens, List.tail_cons]

theorem Yields.advance (t : Token) : Yields E advance [t] () 0 anything := by
  intro s l _ tokens _ _
  refine ⟨s.log, ?_⟩
  rw [advance_run tokens]
  rfl

theorem Yields.peek (t : Token) : Yields E peek [] t 0 (· = some t) := by
  intro s l _ tokens fine _
  change s.tk = l at tokens
  refine ⟨s.log, ?_⟩
  obtain ⟨l', rfl⟩ := List.head?_eq_some_iff.mp fine
  rw [past_same tokens, peek_run tokens]
  rfl

theorem Yields.lookingAny (w : String) (b : Bool) :
    Yields E (lookingAny w) [] b 0 (looks · w = b) := by
  intro s l _ tokens fine _
  change s.tk = l at tokens
  refine ⟨s.log, ?_⟩
  rw [past_same tokens]
  show (looks s.tk.head? w, s) = (b, s)
  rw [tokens, fine]

theorem Yields.looking (w : String) (b : Bool) :
    Yields E (looking w) [] b 0 (isPunct · w = b) := by
  intro s l _ tokens fine _
  change s.tk = l at tokens
  refine ⟨s.log, ?_⟩
  rw [past_same tokens]
  show (isPunct s.tk.head? w, s) = (b, s)
  rw [tokens, fine]

theorem Yields.consumed {w : String} (sees : looks (some t) w = true) :
    Yields E (consume w) [t] true 0 anything :=
  (Yields.lookingAny w true).silent ((Yields.advance t).give fun _ => true) fun _ _ => sees

theorem Yields.unconsumed (w : String) : Yields E (consume w) [] false 0 (looks · w = false) :=
  (Yields.lookingAny w false).silent ((Yields.pure false).narrow fun _ _ => trivial)
    fun _ fine => fine

theorem Yields.passes {w : String} {q : Bool → P α} {a : α} {c : Nat} {next : Option Token → Prop}
    (other : looks (some t) w = false) (rest : Yields E (q false) (t :: toks) a c next) :
    Yields E (consume w >>= q) (t :: toks) a c next :=
  (Yields.unconsumed w).silent rest fun _ _ => other

theorem Yields.expected {w : String} (sees : looks (some t) w = true) :
    Yields E (expect w) [t] () 0 anything :=
  (Yields.lookingAny w true).silent (Yields.advance t) fun _ _ => sees

theorem Yields.alloc (n : Nat) : Yields E (ccAlloc n) [] () ((n + 15) / 16 * 16) anything := by
  intro s l _ tokens _ room
  refine ⟨s.log, ?_⟩
  show ((), if s.arena.cap < s.arena.pos + (n + 15) / 16 * 16 then _ else _) = _
  rw [if_neg (Nat.not_lt.mpr room), ← past_same tokens]
  rfl

theorem Yields.calls (name : String) : Yields E (does (.calls name)) [] () 0 anything := by
  intro s l _ tokens _ _
  refine ⟨.calls name :: s.log, ?_⟩
  show ((), { s with log := .calls name :: s.log }) = _
  rw [← past_same tokens]
  rfl

theorem Yields.uses (name : String) : Yields E (does (.uses name)) [] () 0 anything := by
  intro s l _ tokens _ _
  refine ⟨((s.findVar name).map fun v : Var => Event.uses name v.num).toList ++ s.log, ?_⟩
  show ((), { s with
    log := ((s.findVar name).map fun v : Var => Event.uses name v.num).toList ++ s.log }) = _
  conv_lhs => rw [← past_same tokens]
  rfl

end Reading

section Levels

/-- The operators of a level; a level of 9 ends where there is no call. -/
def operators : Nat → List String
  | 0 => ["="]
  | 1 => ["||"]
  | 2 => ["&&"]
  | 3 => ["==", "!="]
  | 4 => ["<", "<=", ">", ">="]
  | 5 => ["+", "-"]
  | 6 => ["*", "/", "%"]
  | 8 => ["[", ".", "->"]
  | 9 => ["("]
  | _ => []

def Ends (p : Nat) (t : Option Token) : Prop :=
  ∀ q < 10, p ≤ q → ∀ w ∈ operators q, looks t w = false

instance (p : Nat) (t : Option Token) : Decidable (Ends p t) :=
  inferInstanceAs (Decidable (∀ q < 10, p ≤ q → ∀ w ∈ operators q, looks t w = false))

theorem Ends.mono {p q : Nat} {t : Option Token} (ends : Ends p t) (le : p ≤ q) : Ends q t :=
  fun r small above => ends r small (Nat.le_trans le above)

def infixes : Nat → List InfixOp
  | 1 => [.or]
  | 2 => [.and]
  | 3 => [.eq, .ne]
  | 4 => [.lt, .le, .gt, .ge]
  | 5 => [.add, .sub]
  | 6 => [.mul, .div, .mod]
  | _ => []

theorem infixes_self (o : InfixOp) : o ∈ infixes o.level := by cases o <;> decide

theorem level_bounds (o : InfixOp) : 1 ≤ o.level ∧ o.level ≤ 6 := by cases o <;> decide

theorem infixes_text {p : Nat} (low : 1 ≤ p) (high : p ≤ 6) :
    ∀ o ∈ infixes p, o.text ∈ operators p := by
  have cases : p = 1 ∨ p = 2 ∨ p = 3 ∨ p = 4 ∨ p = 5 ∨ p = 6 := by omega
  rcases cases with rfl | rfl | rfl | rfl | rfl | rfl
  all_goals decide

theorem infix_ends (o : InfixOp) : Ends (o.level + 1) (some (.punct o.text)) := by
  cases o <;> decide

def makeOp : InfixOp → Node → Node → P Node
  | .or, l, r => newBinary .logor l r
  | .and, l, r => newBinary .logand l r
  | .eq, l, r => newBinary (.bin .eq) l r
  | .ne, l, r => newBinary (.bin .ne) l r
  | .lt, l, r => newBinary (.bin .lt) l r
  | .le, l, r => newBinary (.bin .le) l r
  | .gt, l, r => newBinary (.bin .lt) r l
  | .ge, l, r => newBinary (.bin .le) r l
  | .add, l, r => newAdd l r
  | .sub, l, r => newSub l r
  | .mul, l, r => newBinary (.bin .mul) l r
  | .div, l, r => newBinary (.bin .div) l r
  | .mod, l, r => newBinary (.bin .mod) l r

def tryOps (operand : P Node) : List InfixOp → Node → P (Option Node)
  | [], _ => return none
  | o :: rest, l => do
    if ← consume o.text then return some (← makeOp o l (← operand))
    else tryOps operand rest l

def level (A : P Node) (f : Nat) : Nat → P Node
  | 1 => logor A f
  | 2 => logand A f
  | 3 => equality A f
  | 4 => relational A f
  | 5 => addExpr A f
  | 6 => mul A f
  | _ => unary A f

theorem level_eq (A : P Node) (f : Nat) {p : Nat} (low : 1 ≤ p) (high : p ≤ 6) :
    level A f p = level A f (p + 1) >>= chain (tryOps (level A f (p + 1)) (infixes p)) f := by
  have cases : p = 1 ∨ p = 2 ∨ p = 3 ∨ p = 4 ∨ p = 5 ∨ p = 6 := by omega
  rcases cases with rfl | rfl | rfl | rfl | rfl | rfl
  all_goals rfl

variable {E : Scope}

theorem Yields.newNode : Yields E newNode [] () 176 anything := Yields.alloc 168

theorem Yields.newNum (val : BitVec 64) : Yields E (newNum val) [] ⟨.num val, .int⟩ 176 anything :=
  Yields.newNode.give fun _ => _

theorem Yields.typeOf (ty : CType) :
    Yields E (typeOf ty) [] (some (ty.ty E.layouts)) 0 anything :=
  .gets fun s inside => by rw [← inside]; rfl

theorem Yields.sizeOf (ty : CType) : Yields E (sizeOf ty) [] (ty.size E.layouts) 0 anything :=
  .gets fun s inside => by rw [← inside]; rfl

theorem Yields.tyPtrTo (ty : CType) : Yields E (tyPtrTo ty) [] (.ptr ty) 32 anything :=
  (Yields.alloc 32).give fun _ => _

theorem Yields.newBinary (k : Expr → Expr → Expr) (l r : Node) :
    Yields E (newBinary k l r) [] ⟨k l.e r.e, .int⟩ 176 anything :=
  Yields.newNode.give fun _ => _

theorem Yields.makeOp (o : InfixOp) {l r : Node}
    (plain : o.level = 5 → tyIsPtrlike l.ty = false ∧ tyIsPtrlike r.ty = false) :
    Yields E (makeOp o l r) [] ⟨o.build l.e r.e, .int⟩ 176 anything := by
  cases o with
  | add =>
    obtain ⟨left, right⟩ := plain rfl
    show Yields E (if _ then _ else _) _ _ _ _
    rw [if_pos ⟨by rw [left]; decide, by rw [right]; decide⟩]
    exact .newBinary _ l r
  | sub =>
    obtain ⟨left, right⟩ := plain rfl
    show Yields E (if _ then _ else _) _ _ _ _
    rw [if_pos ⟨by rw [left]; decide, by rw [right]; decide⟩]
    exact .newBinary _ l r
  | or => exact .newBinary _ l r
  | and => exact .newBinary _ l r
  | eq => exact .newBinary _ l r
  | ne => exact .newBinary _ l r
  | lt => exact .newBinary _ l r
  | le => exact .newBinary _ l r
  | gt => exact .newBinary _ r l
  | ge => exact .newBinary _ r l
  | mul => exact .newBinary _ l r
  | div => exact .newBinary _ l r
  | mod => exact .newBinary _ l r

theorem looks_punct (v w : String) : looks (some (.punct v)) w = decide (v = w) := by
  unfold looks isPunct isKw
  simp

theorem text_injective {o o' : InfixOp} (same : o.text = o'.text) : o = o' := by
  cases o <;> cases o' <;> first | rfl | exact absurd same (by decide)

theorem Yields.tryOps {operand : P Node} {o : InfixOp} {ops : List InfixOp} {l r : Node}
    {toks : List Token} {c : Nat} {next : Option Token → Prop} (listed : o ∈ ops)
    (plain : o.level = 5 → tyIsPtrlike l.ty = false ∧ tyIsPtrlike r.ty = false)
    (operand_yields : Yields E operand toks r c next) :
    Yields E (tryOps operand ops l) (.punct o.text :: toks) (some ⟨o.build l.e r.e, .int⟩)
      (c + 176) next := by
  induction ops with
  | nil => cases listed
  | cons o' rest later =>
    by_cases same : o = o'
    · subst same
      have sees : looks (some (.punct o.text)) o.text = true := by
        rw [looks_punct, decide_eq_true rfl]
      exact (Yields.consumed sees).step
        (operand_yields.ends ((Yields.makeOp o plain).give some)) fun _ _ => trivial
    · have other : looks (some (.punct o.text)) o'.text = false := by
        rw [looks_punct, decide_eq_false fun text => same (text_injective text)]
      have behind : o ∈ rest := (List.mem_cons.mp listed).resolve_left same
      exact (Yields.unconsumed o'.text).silent (later behind) fun _ _ => other

theorem Yields.tryNone (operand : P Node) (ops : List InfixOp) (l : Node) :
    Yields E (ExprReads.tryOps operand ops l) [] none 0
      (fun t => ∀ o ∈ ops, looks t o.text = false) := by
  induction ops with
  | nil => exact (Yields.pure none).narrow fun _ _ => trivial
  | cons o rest later =>
    exact (Yields.unconsumed o.text).silent
      (later.narrow fun _ fine o listed => fine o (List.mem_cons_of_mem _ listed))
      fun _ fine => fine o List.mem_cons_self

end Levels

section Spines

variable {E : Scope} {A : P Node} {f p : Nat} {toks : List Token} {a : Node} {c : Nat}

def loop (A : P Node) (f p : Nat) : Nat → Node → P Node :=
  chain (tryOps (level A f (p + 1)) (infixes p))

theorem loop_turn (p g : Nat) (n : Node) :
    loop A f p (g + 1) n = (tryOps (level A f (p + 1)) (infixes p) n >>= fun found =>
      found.elim (pure n) (loop A f p g)) := by
  unfold loop
  rw [chain]
  congr 1
  funext found
  cases found with
  | none => rfl
  | some n => rfl

theorem loop_ends (low : 1 ≤ p) (high : p ≤ 6) (g : Nat) (n : Node) :
    Yields E (loop A f p (g + 1) n) [] n 0 (Ends p) := by
  refine (Yields.tryNone (level A f (p + 1)) (infixes p) n).silent
    ((Yields.pure n).narrow fun _ _ => trivial) fun _ fine o listed => ?_
  exact fine p (by omega) (Nat.le_refl p) _ (infixes_text low high o listed)

/-- The function of a level has read the tokens and stands in its loop, where an operator of the
level may still come. -/
def Spine (E : Scope) (A : P Node) (f p : Nat) (toks : List Token) (a : Node) (c : Nat) : Prop :=
  ∃ k, 2 * k + 1 ≤ toks.length ∧
    Leads E (level A f p) (loop A f p (f - k) a) toks c (Ends (p + 1))

theorem Spine.operand (low : 1 ≤ p) (high : p ≤ 6) (filled : 1 ≤ toks.length)
    (yields : Yields E (level A f (p + 1)) toks a c (Ends (p + 1))) : Spine E A f p toks a c := by
  refine ⟨0, filled, ?_⟩
  rw [level_eq A f low high]
  exact yields.then _

theorem Spine.more {o : InfixOp} {toks' : List Token} {b : Node} {c' : Nat}
    (left : Spine E A f o.level toks a c) (long : toks.length ≤ f) (filled : 1 ≤ toks'.length)
    (plain : o.level = 5 → tyIsPtrlike a.ty = false ∧ tyIsPtrlike b.ty = false)
    (right : Yields E (level A f (o.level + 1)) toks' b c' (Ends (o.level + 1))) :
    Spine E A f o.level (toks ++ .punct o.text :: toks') ⟨o.build a.e b.e, .int⟩
      (c + (c' + 176)) := by
  obtain ⟨k, few, stands⟩ := left
  obtain ⟨g, more⟩ : ∃ g, f - k = g + 1 := ⟨f - k - 1, by omega⟩
  rw [more] at stands
  refine ⟨k + 1, ?_, ?_⟩
  · rw [List.length_append, List.length_cons]
    omega
  · have behind : f - (k + 1) = g := by omega
    rw [behind]
    have turn := (Yields.tryOps (infixes_self o) plain right).then fun found =>
      found.elim (pure a) (loop A f o.level g)
    rw [← loop_turn] at turn
    exact stands.trans turn fun _ _ => infix_ends o

theorem Spine.yields (low : 1 ≤ p) (high : p ≤ 6) (long : toks.length ≤ f)
    (spine : Spine E A f p toks a c) : Yields E (level A f p) toks a c (Ends p) := by
  obtain ⟨k, few, stands⟩ := spine
  obtain ⟨g, more⟩ : ∃ g, f - k = g + 1 := ⟨f - k - 1, by omega⟩
  rw [more] at stands
  have whole := stands.trans (loop_ends low high g a) fun _ fine => fine.mono (Nat.le_succ p)
  rw [List.append_nil] at whole
  exact whole

theorem Yields.lower {q : Nat} (high : q ≤ 7) (filled : 1 ≤ toks.length) (long : toks.length ≤ f)
    (yields : Yields E (level A f q) toks a c (Ends q)) (low : 1 ≤ p) (le : p ≤ q) :
    Yields E (level A f p) toks a c (Ends p) := by
  obtain ⟨d, rfl⟩ := Nat.exists_eq_add_of_le le
  clear le
  induction d generalizing p with
  | zero => exact yields
  | succ d later =>
    have next : Yields E (level A f (p + 1)) toks a c (Ends (p + 1)) := by
      have same : p + (d + 1) = p + 1 + d := by omega
      rw [same] at high yields
      exact later (Nat.le_add_left 1 p) high yields
    exact (Spine.operand low (by omega) filled next).yields low (by omega) long

theorem Spine.below {p q : Nat} (low : 1 ≤ p) (less : p < q) (high : q ≤ 7)
    (filled : 1 ≤ toks.length) (long : toks.length ≤ f)
    (yields : Yields E (level A f q) toks a c (Ends q)) : Spine E A f p toks a c :=
  .operand low (by omega) filled (Yields.lower high filled long yields (by omega) less)

end Spines

end XinuRpi5.Cc.ExprReads
