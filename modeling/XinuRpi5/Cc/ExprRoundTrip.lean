/- source: cc/parse.c
   digest: An expression that is printed and parsed again is the same expression. -/

import XinuRpi5.Cc.ExprOperands

namespace XinuRpi5.Cc.ExprRoundTrip

open Lib.RuledState Codegen Parse
open ExprTrees ExprReads ExprOperands

section RoundTrip

variable {E : Scope} {A : P Node} {f : Nat} {toks : List Token} {a : Node} {c : Nat}

theorem parens_post (good : Good E A f) {t : Tree} (typed : t.Typed E) :
    Postfixes E A f (parens (t.print 0)) (t.node E) t.cost := by
  have length := parens_length (t.print 0)
  refine Postfixes.primary (by omega) fun g long le => ?_
  exact (primary_paren (good t typed (by omega))).narrow fun _ _ => trivial

/-- How the parser reads an expression: as an operand of operators behind it, in front of it, and of
those between operands. -/
structure Parsed (E : Scope) (A : P Node) (f : Nat) (t : Tree) : Prop where
  behind : Postfixes E A f (t.print 8) (t.node E) t.cost
  front : ∀ g, (t.print 7).length + 1 ≤ g → g ≤ f →
    Yields E (unary A g) (t.print 7) (t.node E) t.cost (Ends 7)
  between : ∀ p, 1 ≤ p → p ≤ 6 → (t.print p).length + 1 ≤ f →
    Spine E A f p (t.print p) (t.node E) t.cost

variable {t : Tree}

theorem Parsed.of_post (same : ∀ p, t.print p = t.print 8)
    (post : Postfixes E A f (t.print 8) (t.node E) t.cost) : Parsed E A f t := by
  have starts := print_plain t
  refine ⟨post, fun g long le => ?_, fun p low high long => ?_⟩
  · rw [same 7] at long ⊢
    exact post.unary starts long le
  · rw [same p] at long ⊢
    exact Spine.below (q := 7) low (by omega) (by decide) starts.some (by omega)
      (post.unary starts long (Nat.le_refl f))

theorem Parsed.of_unary (good : Good E A f) (typed : t.Typed E)
    (wrapped : t.print 8 = parens (t.print 0)) (same : ∀ p ≤ 7, t.print p = t.print 7)
    (front : ∀ g, (t.print 7).length + 1 ≤ g → g ≤ f →
      Yields E (unary A g) (t.print 7) (t.node E) t.cost (Ends 7)) : Parsed E A f t := by
  refine ⟨?_, front, fun p low high long => ?_⟩
  · rw [wrapped]
    exact parens_post good typed
  · rw [same p (by omega)] at long ⊢
    exact Spine.below (q := 7) low (by omega) (by decide) (print_begins t 7).some (by omega)
      (front f long (Nat.le_refl f))

theorem Parsed.of_level (good : Good E A f) (typed : t.Typed E) {q : Nat} (high : q ≤ 6)
    (wrapped : ∀ p, q < p → t.print p = parens (t.print 0))
    (same : ∀ p ≤ q, t.print p = t.print q)
    (spine : 1 ≤ q → (t.print q).length + 1 ≤ f → Spine E A f q (t.print q) (t.node E) t.cost) :
    Parsed E A f t := by
  have starts : Starts plain (parens (t.print 0)) := ⟨.punct "(", _, rfl, rfl⟩
  have post := parens_post good typed
  refine ⟨?_, fun g long le => ?_, fun p low below long => ?_⟩
  · rw [wrapped 8 (by omega)]
    exact post
  · rw [wrapped 7 (by omega)] at long ⊢
    exact post.unary starts long le
  · rcases Nat.lt_trichotomy p q with less | rfl | more
    · rw [same p (Nat.le_of_lt less)] at long ⊢
      have own := (spine (by omega) long).yields (by omega) high (by omega)
      exact Spine.below low less (by omega) (print_begins t q).some (by omega) own
    · exact spine low long
    · rw [wrapped p more] at long ⊢
      exact Spine.below (q := 7) low (by omega) (by decide) starts.some (by omega)
        (post.unary starts long (Nat.le_refl f))

theorem Parsed.level (parsed : Parsed E A f t) {p : Nat} (low : 1 ≤ p) (high : p ≤ 7)
    (long : (t.print p).length + 1 ≤ f) :
    Yields E (level A f p) (t.print p) (t.node E) t.cost (Ends p) := by
  rcases Nat.lt_or_ge p 7 with less | same
  · exact (parsed.between p low (by omega) long).yields low (by omega) (by omega)
  · obtain rfl : p = 7 := by omega
    exact parsed.front f long (Nat.le_refl f)

theorem prefix_parsed (good : Good E A f) (typed : t.Typed E) {x : Token} {e : Tree}
    (print : ∀ p, t.print p = parensIf (7 < p) (x :: e.print 7))
    (operand : ∀ g, (e.print 7).length + 1 ≤ g → g ≤ f →
      Yields E (unary A (g + 1)) (x :: e.print 7) (t.node E) t.cost (Ends 7)) :
    Parsed E A f t := by
  have low (p : Nat) (le : p ≤ 7) : t.print p = x :: e.print 7 := by
    rw [print, decide_eq_false (Nat.not_lt.mpr le)]
    rfl
  have wrapped : t.print 8 = parens (t.print 0) := by
    rw [low 0 (by decide), print 8]
    rfl
  refine Parsed.of_unary good typed wrapped (fun p le => ?_) fun g long le => ?_
  · rw [low p le, low 7 (Nat.le_refl 7)]
  · rw [low 7 (Nat.le_refl 7)] at long ⊢
    rw [List.length_cons] at long
    obtain ⟨h, rfl⟩ : ∃ h, g = h + 1 := ⟨g - 1, by omega⟩
    exact operand h (by omega) (by omega)

theorem op_parsed (good : Good E A f) {o : InfixOp} {l r : Tree}
    (typed : (Tree.op o l r).Typed E) (left : Parsed E A f l) (right : Parsed E A f r) :
    Parsed E A f (.op o l r) := by
  have bounds := level_bounds o
  have plain := typed.2.2
  have low (p : Nat) (le : p ≤ o.level) : (Tree.op o l r).print p =
      l.print o.level ++ .punct o.text :: r.print (o.level + 1) := by
    show parensIf _ _ = _
    rw [decide_eq_false (Nat.not_lt.mpr le)]
    rfl
  refine Parsed.of_level good typed bounds.2 (fun p more => ?_) (fun p le => ?_) fun _ long => ?_
  · rw [low 0 (Nat.zero_le _)]
    show parensIf _ _ = _
    rw [decide_eq_true more]
    rfl
  · rw [low p le, low o.level (Nat.le_refl _)]
  · rw [low o.level (Nat.le_refl _)] at long ⊢
    rw [List.length_append, List.length_cons] at long
    exact Spine.more (left.between o.level bounds.1 bounds.2 (by omega)) (by omega)
      (print_begins r _).some plain (right.level (by omega) (by omega) (by omega))

theorem assign_parsed (good : Good E A f) {l r : Tree} (typed : (Tree.assign l r).Typed E) :
    Parsed E A f (.assign l r) := by
  refine Parsed.of_level good typed (Nat.zero_le 6) (fun p more => ?_) (fun p le => ?_) nofun
  · show parensIf _ _ = _
    rw [decide_eq_true more]
    rfl
  · rw [Nat.le_zero.mp le]

theorem var_parsed {name : String} (typed : (Tree.var name).Typed E) :
    Parsed E A f (.var name) := by
  obtain ⟨v, found⟩ := Option.isSome_iff_exists.mp typed
  refine Parsed.of_post (fun _ => rfl) (Postfixes.primary (Nat.le_refl 1) fun g _ _ => ?_)
  have node : (Tree.var name).node E = ⟨.var v.ref (some (v.ty.ty E.layouts)), v.ty⟩ := by
    simp only [ExprTrees.Tree.node, found]
  rw [node]
  exact primary_var found

theorem call_parsed (good : Good E A f) {name : String} {args : List Tree}
    (typed : (Tree.call name args).Typed E) : Parsed E A f (.call name args) := by
  refine Parsed.of_post (fun p => ?_) ?_
  · rw [print_call, print_call]
  · rw [print_call]
    refine Postfixes.primary (by rw [List.length_cons]; omega) fun g long le => ?_
    rw [List.length_cons, parens_length] at long
    exact (primary_call good name typed (by omega) le).narrow fun _ _ => trivial

theorem index_parsed (good : Good E A f) {e i : Tree} (typed : (Tree.index e i).Typed E)
    (left : Parsed E A f e) : Parsed E A f (.index e i) := by
  obtain ⟨_, inner, pointer, number⟩ := typed
  refine Parsed.of_post (fun _ => rfl) ?_
  show Postfixes E A f (e.print 8 ++ .punct "[" :: (i.print 0 ++ [.punct "]"])) _ _
  refine left.behind.more ?_ ?_ ?_
  · rw [List.length_cons, List.length_append]
    exact Nat.succ_le_succ (Nat.le_add_left 1 _)
  · exact fun _ => (by decide : Ends 9 (some (.punct "[")))
  · intro g long
    rw [List.length_cons, List.length_append, List.length_singleton] at long
    exact (postfix_index g pointer number (good i inner (by omega))).narrow fun _ _ => trivial

theorem parsed (good : Good E A f) : ∀ t : Tree, t.Typed E → Parsed E A f t
  | .num val, _ => .of_post (fun _ => rfl) (.primary (Nat.le_refl 1) fun _ _ _ =>
    (primary_num val).narrow fun _ _ => trivial)
  | .str addr, _ => .of_post (fun _ => rfl) (.primary (Nat.le_refl 1) fun _ _ _ =>
    (primary_str addr).narrow fun _ _ => trivial)
  | .var _, typed => var_parsed typed
  | .call _ _, typed => call_parsed good typed
  | .index e _, typed => index_parsed good typed (parsed good e typed.1)
  | .member e name, typed => .of_post (fun _ => rfl)
      ((parsed good e typed.1).behind.more (Nat.le_refl 2)
        (fun _ => (by decide : Ends 9 (some (.punct ".")))) fun g _ =>
        (postfix_member g typed.2).narrow fun _ _ => trivial)
  | .arrow e name, typed => .of_post (fun _ => rfl)
      ((parsed good e typed.1).behind.more (Nat.le_refl 2)
        (fun _ => (by decide : Ends 9 (some (.punct "->")))) fun g _ =>
        (postfix_arrow g typed.2.1 typed.2.2).narrow fun _ _ => trivial)
  | .plus e, typed => prefix_parsed good typed (fun _ => rfl) fun g long le =>
    unary_plus ((parsed good e typed).front g long le)
  | .neg e, typed => prefix_parsed good typed (fun _ => rfl) fun g long le =>
    unary_neg ((parsed good e typed).front g long le)
  | .not e, typed => prefix_parsed good typed (fun _ => rfl) fun g long le =>
    unary_not ((parsed good e typed).front g long le)
  | .deref e, typed => prefix_parsed good typed (fun _ => rfl) fun g long le =>
    unary_deref ((parsed good e typed.1).front g long le) typed.2
  | .addr e, typed => prefix_parsed good typed (fun _ => rfl) fun g long le =>
    unary_addr ((parsed good e typed).front g long le)
  | .sizeof e, typed => prefix_parsed good typed (fun _ => rfl) fun g long le =>
    unary_sizeof typed.2 ((parsed good e typed.1).front g long le)
  | .op _ l r, typed => op_parsed good typed (parsed good l typed.1) (parsed good r typed.2.1)
  | .assign _ _, typed => assign_parsed good typed

end RoundTrip

section Expressions

variable {E : Scope} {f : Nat}

theorem print_zero (t : Tree) : (∃ l r, t = .assign l r) ∨ t.print 0 = t.print 1 := by
  cases t with
  | assign l r => exact .inl ⟨l, r, rfl⟩
  | op o l r =>
    have bounds := level_bounds o
    right
    show parensIf _ _ = parensIf _ _
    rw [decide_eq_false (Nat.not_lt.mpr (Nat.zero_le _)), decide_eq_false (Nat.not_lt.mpr bounds.1)]
  | call name args =>
    right
    rw [print_call, print_call]
  | _ => exact .inr rfl

theorem assign_yields (good : Good E (assign f) f) {t : Tree} (typed : t.Typed E)
    (long : (t.print 0).length + 1 ≤ f) :
    Yields E (assign (f + 1)) (t.print 0) (t.node E) t.cost (Ends 0) := by
  rcases print_zero t with ⟨l, r, rfl⟩ | same
  · have tokens : (Tree.assign l r).print 0 = l.print 7 ++ .punct "=" :: r.print 0 := rfl
    rw [tokens] at long ⊢
    rw [List.length_append, List.length_cons] at long
    have operand := (parsed good l typed.1).level (by decide) (Nat.le_refl 7) (by omega)
    refine Leads.bind (Yields.lower (Nat.le_refl 7) (print_begins l 7).some (by omega) operand
      (Nat.le_refl 1) (by decide)) ?_ ?_
    · refine (Yields.consumed (t := .punct "=") (by decide)).step ?_ fun _ _ => trivial
      refine Yields.newNode.bind ?_ fun _ _ => trivial
      exact (good r typed.2 (by omega)).give _
    · exact fun _ _ => (by decide : Ends 1 (some (.punct "=")))
  · rw [same] at long ⊢
    have operand := (parsed good t typed).level (Nat.le_refl 1) (by decide) long
    have whole : Yields E (assign (f + 1)) (t.print 1 ++ []) (t.node E) t.cost (Ends 0) := by
      refine Leads.free operand ?_ fun _ ends => ends.mono (by decide)
      refine (Yields.unconsumed "=").silent ((Yields.pure _).narrow fun _ _ => trivial) ?_
      exact fun _ ends => ends 0 (by decide) (by decide) "=" (by decide)
    rw [List.append_nil] at whole
    exact whole

theorem assign_good (E : Scope) (f : Nat) : Good E (assign f) f := by
  induction f with
  | zero => exact fun _ _ long => absurd long (by omega)
  | succ f good => exact fun t typed long => assign_yields good typed (by omega)

/-- An expression that is printed with as few parentheses as C allows is parsed as the node of the
same expression; nothing is left but what stands behind it. -/
theorem expr_print (t : Tree) (s : Parser) (rest : List Token) (fuel : Nat)
    (typed : t.Typed (scope s)) (tokens : s.tk = t.print 0 ++ rest) (ends : Ends 0 rest.head?)
    (room : s.arena.pos + t.cost ≤ s.arena.cap) (enough : (t.print 0).length + 2 ≤ fuel) :
    ∃ log, (expr fuel).run s = (t.node (scope s), past s rest t.cost log) :=
  assign_good (scope s) fuel t typed enough s rest rfl tokens ends room

/-- The parser with a scope of two variables, in front of an expression and a semicolon. -/
def inFront (t : Tree) : Parser :=
  { start ⟨0, t.cost, 0⟩ (t.print 0 ++ [.punct ";"]) with
    curLocals := [⟨"a", .int, .loc 0, 0⟩, ⟨"b", .int, .loc 1, 1⟩] }

/-- `a - (b - 1) > 2` -/
def difference : Tree := .op .gt (.op .sub (.var "a") (.op .sub (.var "b") (.num 1))) (.num 2)

theorem expr_print_difference : ∃ log, (expr 11).run (inFront difference) =
    (⟨.bin .lt (.num 2) (.bin .sub (.var (.loc 0) (some ⟨.int, 8⟩))
      (.bin .sub (.var (.loc 1) (some ⟨.int, 8⟩)) (.num 1))), .int⟩,
      past (inFront difference) [.punct ";"] 1232 log) :=
  expr_print difference (inFront difference) [.punct ";"] 11
    ⟨⟨rfl, ⟨rfl, trivial, fun _ => ⟨rfl, rfl⟩⟩, fun _ => ⟨rfl, rfl⟩⟩, trivial, nofun⟩ rfl
    (by decide) (by decide) (by decide)

def parseAgain (t : Tree) : Node := ((expr ((t.print 0).length + 2)).run (inFront t)).1

/-- A `+` in front of an operand leaves no node, so that no reading of the nodes gives back the
expressions up to the direction of `>` and `>=`. -/
theorem plus_is_dropped : ¬ ∃ back : Node → Tree, ∀ t : Tree, t.Typed (scope (inFront t)) →
    back (parseAgain t) = t.swapped := by
  rintro ⟨back, gives⟩
  have same : parseAgain (.plus (.num 1)) = parseAgain (.num 1) := rfl
  have one := gives (.num 1) trivial
  have plus := gives (.plus (.num 1)) trivial
  rw [same, one] at plus
  cases plus

end Expressions

end XinuRpi5.Cc.ExprRoundTrip
