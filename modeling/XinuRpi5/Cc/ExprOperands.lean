/- source: cc/parse.c
   digest: Operands with the operators in front of them and behind them, printed and read. -/

import XinuRpi5.Cc.ExprReads

namespace XinuRpi5.Cc.ExprOperands

open Lib.RuledState Codegen Parse
open ExprTrees ExprReads

section Beginnings

def begins (name : Option String) : Token → Prop
  | .num _ => True
  | .str _ => True
  | .ident x => x ∈ name
  | .punct w => w ∈ ["(", "+", "-", "!", "*", "&"]
  | .kw w => w = "sizeof"
  | .eof => False

/-- What the first token of an operand without operators in front of it can be. -/
def plain : Token → Prop
  | .num _ => True
  | .str _ => True
  | .ident _ => True
  | .punct w => w = "("
  | _ => False

def Starts (kind : Token → Prop) (l : List Token) : Prop := ∃ x rest, l = x :: rest ∧ kind x

variable {kind : Token → Prop} {l : List Token}

theorem Starts.append (starts : Starts kind l)
    (m : List Token) : Starts kind (l ++ m) := by
  obtain ⟨x, rest, rfl, is⟩ := starts
  exact ⟨x, rest ++ m, rfl, is⟩

theorem Starts.head (starts : Starts kind l)
    (m : List Token) : ∃ x, (l ++ m).head? = some x ∧ kind x := by
  obtain ⟨x, rest, rfl, is⟩ := starts
  exact ⟨x, rfl, is⟩

theorem Starts.some (starts : Starts kind l) :
    1 ≤ l.length := by
  obtain ⟨x, rest, rfl, _⟩ := starts
  exact Nat.le_add_left 1 _

theorem starts_parensIf {name : Option String} (starts : Starts (begins name) l)
    (b : Bool) : Starts (begins name) (parensIf b l) := by
  cases b with
  | false => exact starts
  | true => exact ⟨.punct "(", l ++ [.punct ")"], rfl, List.mem_cons_self⟩

theorem starts_prefix (name : Option String) {x : Token} (l : List Token) (b : Bool)
    (is : begins name x) : Starts (begins name) (parensIf b (x :: l)) :=
  starts_parensIf ⟨x, l, rfl, is⟩ b

theorem print_begins : ∀ (t : Tree) (p : Nat), Starts (begins t.first) (t.print p)
  | .num val, _ => ⟨.num val, [], rfl, trivial⟩
  | .str addr, _ => ⟨.str addr, [], rfl, trivial⟩
  | .var name, _ => ⟨.ident name, [], rfl, rfl⟩
  | .call name [], _ => ⟨.ident name, _, rfl, rfl⟩
  | .call name (_ :: _), _ => ⟨.ident name, _, rfl, rfl⟩
  | .index e _, _ => (print_begins e 8).append _
  | .member e _, _ => (print_begins e 8).append _
  | .arrow e _, _ => (print_begins e 8).append _
  | .plus _, _ => starts_prefix none _ _ (by decide : "+" ∈ _)
  | .neg _, _ => starts_prefix none _ _ (by decide : "-" ∈ _)
  | .not _, _ => starts_prefix none _ _ (by decide : "!" ∈ _)
  | .deref _, _ => starts_prefix none _ _ (by decide : "*" ∈ _)
  | .addr _, _ => starts_prefix none _ _ (by decide : "&" ∈ _)
  | .sizeof _, _ => starts_prefix none _ _ (rfl : "sizeof" = "sizeof")
  | .op _ l _, _ => starts_parensIf ((print_begins l _).append _) _
  | .assign l _, _ => starts_parensIf ((print_begins l 7).append _) _

theorem print_plain : ∀ t : Tree, Starts plain (t.print 8)
  | .num val => ⟨.num val, [], rfl, trivial⟩
  | .str addr => ⟨.str addr, [], rfl, trivial⟩
  | .var name => ⟨.ident name, [], rfl, trivial⟩
  | .call name [] => ⟨.ident name, _, rfl, trivial⟩
  | .call name (_ :: _) => ⟨.ident name, _, rfl, trivial⟩
  | .index e _ => (print_plain e).append _
  | .member e _ => (print_plain e).append _
  | .arrow e _ => (print_plain e).append _
  | .plus _ => ⟨.punct "(", _, rfl, rfl⟩
  | .neg _ => ⟨.punct "(", _, rfl, rfl⟩
  | .not _ => ⟨.punct "(", _, rfl, rfl⟩
  | .deref _ => ⟨.punct "(", _, rfl, rfl⟩
  | .addr _ => ⟨.punct "(", _, rfl, rfl⟩
  | .sizeof _ => ⟨.punct "(", _, rfl, rfl⟩
  | .op o l r => by
    have above : o.level < 8 := Nat.lt_of_le_of_lt (level_bounds o).2 (by decide)
    refine ⟨.punct "(", l.print o.level ++ .punct o.text :: r.print (o.level + 1) ++ [.punct ")"],
      ?_, rfl⟩
    show parensIf _ _ = _
    rw [decide_eq_true above]
    rfl
  | .assign _ _ => ⟨.punct "(", _, rfl, rfl⟩

end Beginnings

section Primary

variable {E : Scope} {A : P Node} {f g : Nat} {toks : List Token} {a : Node} {c : Nat}

theorem parens_length (l : List Token) : (parens l).length = l.length + 2 := by
  show (_ :: (l ++ [_])).length = _
  rw [List.length_cons, List.length_append, List.length_singleton]

theorem primary_paren (inner : Yields E A toks a c (Ends 0)) :
    Yields E (primary A g) (parens toks) a c anything := by
  refine (Yields.consumed (t := .punct "(") (by decide)).step ?_ fun _ _ => trivial
  refine Leads.free inner ?_ ?_
  · exact (Yields.expected (t := .punct ")") (by decide)).give fun _ => a
  · exact fun _ _ => (by decide : Ends 0 (some (.punct ")")))

theorem primary_num (val : BitVec 64) :
    Yields E (primary A g) [.num val] ⟨.num val, .int⟩ 176 anything := by
  refine Yields.passes rfl ?_
  refine (Yields.peek (.num val)).silent ?_ fun _ _ => rfl
  refine (Yields.newNum val).free ?_ fun _ _ => trivial
  exact (Yields.advance (.num val)).give _

theorem primary_str (addr : BitVec 64) :
    Yields E (primary A g) [.str addr] ⟨.str addr, .ptr .char⟩ (176 + 32) anything := by
  refine Yields.passes rfl ?_
  refine (Yields.peek (.str addr)).silent ?_ fun _ _ => rfl
  refine Yields.newNode.bind ?_ fun _ _ => trivial
  refine (Yields.tyPtrTo .char).free ?_ fun _ _ => trivial
  exact (Yields.advance (.str addr)).give _

theorem primary_var {name : String} {v : Var} (found : E.findVar name = some v) :
    Yields E (primary A g) [.ident name] ⟨.var v.ref (some (v.ty.ty E.layouts)), v.ty⟩ 176
      (Ends 9) := by
  have none : ∀ t, Ends 9 t → looks t "(" = false := fun t ends =>
    ends 9 (by decide) (by decide) "(" (by decide)
  refine Yields.passes rfl ?_
  refine (Yields.peek (.ident name)).silent ?_ fun _ _ => rfl
  refine (Yields.advance (.ident name)).step ?_ fun _ _ => trivial
  refine (Yields.unconsumed "(").silent ?_ fun _ => none _
  have known : ∀ s, scope s = E → s.findVar name = some v := fun s inside => by
    rw [← found, ← inside]
    rfl
  refine Leads.narrow ?_ fun _ _ => trivial
  refine (Yields.gets known).silent ?_ fun _ _ => trivial
  refine (Yields.uses name).silent ?_ fun _ _ => trivial
  refine Yields.newNode.free ?_ fun _ _ => trivial
  exact (Yields.typeOf v.ty).give _

def Good (E : Scope) (A : P Node) (f : Nat) : Prop :=
  ∀ t : Tree, t.Typed E → (t.print 0).length + 2 ≤ f →
    Yields E A (t.print 0) (t.node E) t.cost (Ends 0)

def isClosing (t : Option Token) : Prop := t = some (.punct ")")

theorem closing_ends {t : Option Token} (closing : isClosing t) : Ends 0 t := by
  rw [closing]
  decide

theorem more_ends (rest : List Tree) {l : List Token} (closing : isClosing l.head?) :
    Ends 0 (printMore rest ++ l).head? := by
  cases rest with
  | nil => exact closing_ends closing
  | cons arg rest => exact (by decide : Ends 0 (some (.punct ",")))

theorem moreArgs_yields (good : Good E A f) : ∀ (rest : List Tree) (g : Nat), ArgsTyped E rest →
    (printMore rest).length + 1 ≤ g → g ≤ f →
    Yields E (moreArgs A g) (printMore rest) (argNodes E rest) (argsCost rest) isClosing
  | [], g + 1, _, _, _ => by
    refine (Yields.unconsumed ",").silent ((Yields.pure []).narrow fun _ _ => trivial) ?_
    intro l closing
    show looks l.head? "," = false
    rw [closing]
    decide
  | arg :: rest, g + 1, ⟨typed, later⟩, long, le => by
    have length : (printMore (arg :: rest)).length =
        (arg.print 0).length + (printMore rest).length + 1 := by
      show (_ :: (arg.print 0 ++ printMore rest)).length = _
      rw [List.length_cons, List.length_append]
    refine (Yields.consumed (t := .punct ",") (by decide)).step ?_ fun _ _ => trivial
    refine (good arg typed (by omega)).bind ?_ fun _ => more_ends rest
    exact (moreArgs_yields good rest g later (by omega) (by omega)).give _

def printArgs : List Tree → List Token
  | [] => []
  | arg :: rest => arg.print 0 ++ printMore rest

theorem print_call (name : String) (args : List Tree) (p : Nat) :
    (Tree.call name args).print p = .ident name :: parens (printArgs args) := by
  cases args with
  | nil => rfl
  | cons arg rest => rfl

theorem arguments_lead (good : Good E A f) {args : List Tree} (typed : ArgsTyped E args)
    (long : (printArgs args).length + 2 ≤ g) (le : g ≤ f) (q : List Expr → P Node) :
    Leads E (looking ")" >>= fun none => if none then q [] else
        A >>= fun arg => moreArgs A g >>= fun rest => q (arg.e :: rest))
      (q (argNodes E args)) (printArgs args) (argsCost args) isClosing := by
  cases args with
  | nil =>
    refine (Yields.looking ")" true).silent ((Leads.refl (q [])).narrow fun _ _ => trivial) ?_
    intro l closing
    show isPunct l.head? ")" = true
    rw [closing]
    decide
  | cons arg rest =>
    obtain ⟨first, later⟩ := typed
    have length : (printArgs (arg :: rest)).length =
        (arg.print 0).length + (printMore rest).length := List.length_append
    refine (Yields.looking ")" false).silent ?_ fun l _ => ?_
    · refine (good arg first (by omega)).bind ?_ fun _ => more_ends rest
      exact (moreArgs_yields good rest g later (by omega) le).then _
    · show isPunct (arg.print 0 ++ printMore rest ++ l).head? ")" = false
      obtain ⟨x, head, is⟩ := ((print_begins arg 0).append (printMore rest)).head l
      rw [head]
      apply decide_eq_false
      rintro ⟨⟩
      have listed : ")" ∈ ["(", "+", "-", "!", "*", "&"] := is
      exact absurd listed (by decide)

theorem primary_call (good : Good E A f) (name : String) {args : List Tree}
    (typed : ArgsTyped E args) (long : (printArgs args).length + 2 ≤ g) (le : g ≤ f) :
    Yields E (primary A g) (.ident name :: parens (printArgs args))
      ⟨.call name (argNodes E args), .int⟩ (176 + argsCost args) anything := by
  refine Yields.passes rfl ?_
  refine (Yields.peek (.ident name)).silent ?_ fun _ _ => rfl
  refine (Yields.advance (.ident name)).step ?_ fun _ _ => trivial
  refine (Yields.consumed (t := .punct "(") (by decide)).step ?_ fun _ _ => trivial
  refine Yields.newNode.bind ?_ fun _ _ => trivial
  refine (Yields.calls name).silent ?_ fun _ _ => trivial
  let close (args : List Expr) : P Node := do
    expect ")"
    return ⟨.call name args, .int⟩
  have closed : Yields E (close (argNodes E args)) [.punct ")"]
      ⟨.call name (argNodes E args), .int⟩ 0 anything :=
    (Yields.expected (t := .punct ")") (by decide)).give _
  exact (arguments_lead good typed long le close).trans closed fun _ _ => rfl

end Primary

section Postfix

variable {E : Scope} {A : P Node} {f g : Nat} {toks : List Token} {a : Node} {c : Nat}

/-- The operators behind an operand are read up to some place, where more may come. -/
def Postfixes (E : Scope) (A : P Node) (f : Nat) (toks : List Token) (a : Node) (c : Nat) : Prop :=
  ∀ g, toks.length ≤ g → g ≤ f → ∃ k, 2 * k + 1 ≤ toks.length ∧
    Leads E (postfixExpr A g) (postfixFrom A (g - k) a) toks c (Ends 9)

theorem Postfixes.primary (filled : 1 ≤ toks.length)
    (yields : ∀ g, toks.length ≤ g → g ≤ f → Yields E (primary A g) toks a c (Ends 9)) :
    Postfixes E A f toks a c :=
  fun g long le => ⟨0, filled, (yields g long le).then _⟩

theorem Postfixes.more {toks' : List Token} {b : Node} {c' : Nat}
    (left : Postfixes E A f toks a c) (filled : 2 ≤ toks'.length)
    (meets : ∀ l, Ends 9 (toks' ++ l).head?)
    (turn : ∀ g, toks'.length ≤ f →
      Leads E (postfixFrom A (g + 1) a) (postfixFrom A g b) toks' c' (Ends 9)) :
    Postfixes E A f (toks ++ toks') b (c + c') := by
  intro g long le
  rw [List.length_append] at long
  obtain ⟨k, few, stands⟩ := left g (by omega) le
  obtain ⟨h, more⟩ : ∃ h, g - k = h + 1 := ⟨g - k - 1, by omega⟩
  rw [more] at stands
  refine ⟨k + 1, ?_, ?_⟩
  · rw [List.length_append]
    omega
  · have behind : g - (k + 1) = h := by omega
    rw [behind]
    exact stands.trans (turn h (by omega)) fun l _ => meets l

theorem punct_of_looks {t : Option Token} {w : String} (none : looks t w = false) :
    isPunct t w = false := (Bool.or_eq_false_iff.mp none).1

theorem postfixFrom_ends (g : Nat) (n : Node) :
    Yields E (postfixFrom A (g + 1) n) [] n 0 (Ends 8) := by
  have none {t : Option Token} (ends : Ends 8 t) (w : String) (listed : w ∈ operators 8) :
      isPunct t w = false := punct_of_looks (ends 8 (by decide) (by decide) w listed)
  refine (Yields.looking "[" false).silent ?_ fun _ ends => none ends "[" (by decide)
  refine (Yields.looking "." false).silent ?_ fun _ ends => none ends "." (by decide)
  refine (Yields.looking "->" false).silent ?_ fun _ ends => none ends "->" (by decide)
  exact (Yields.pure n).narrow fun _ _ => trivial

theorem Postfixes.yields (left : Postfixes E A f toks a c) (long : toks.length ≤ g)
    (le : g ≤ f) : Yields E (postfixExpr A g) toks a c (Ends 8) := by
  obtain ⟨k, few, stands⟩ := left g long le
  obtain ⟨h, more⟩ : ∃ h, g - k = h + 1 := ⟨g - k - 1, by omega⟩
  rw [more] at stands
  have whole := stands.trans (postfixFrom_ends h a) fun _ ends => ends.mono (by decide)
  rw [List.append_nil] at whole
  exact whole

theorem newDeref_yields (e : Expr) (ty : CType) :
    Yields E (newDeref e ty) [] (derefNode E e ty) 176 anything := by
  refine Yields.newNode.free ?_ fun _ _ => trivial
  exact (Yields.typeOf ty).give _

theorem newMember_yields (e : Expr) (m : Member) :
    Yields E (newMember e m) [] (memberNode E e (some m)) 176 anything := by
  refine Yields.newNode.free ?_ fun _ _ => trivial
  exact (Yields.typeOf m.ty).give _

theorem pointer_base {ty : CType} (pointer : tyIsPtrlike ty = true) :
    ty.base = some (CType.target ty) := by
  cases ty with
  | ptr base => rfl
  | array base _ _ => rfl
  | int => exact absurd pointer (by decide)
  | char => exact absurd pointer (by decide)
  | struct id => exact absurd pointer (by simp [tyIsPtrlike, CType.kind])

theorem scale_yields (r : Node) (sz : Int) :
    Yields E (scale r sz) [] ⟨.bin .mul r.e (.num (BitVec.ofInt 64 sz)), .int⟩ (176 + 176)
      anything :=
  (Yields.newNum _).bind (Yields.newBinary (.bin .mul) r _) fun _ _ => trivial

theorem newAdd_index {l r : Node} (pointer : tyIsPtrlike l.ty = true)
    (number : tyIsPtrlike r.ty = false) :
    Yields E (newAdd l r) []
      ⟨.bin .add l.e (.bin .mul r.e
        (.num (BitVec.ofInt 64 ((CType.target l.ty).size E.layouts)))), .ptr (CType.target l.ty)⟩
      (176 + 176 + (176 + 32)) anything := by
  have stride : Yields E (stride l.ty) [] ((CType.target l.ty).size E.layouts) 0 anything := by
    unfold Parse.stride
    rw [pointer_base pointer]
    exact .sizeOf _
  unfold newAdd
  rw [pointer, number]
  refine stride.silent ?_ fun _ _ => trivial
  refine (scale_yields r _).bind ?_ fun _ _ => trivial
  refine (Yields.newBinary (.bin .add) l _).bind ?_ fun _ _ => trivial
  exact (Yields.tyPtrTo (CType.target l.ty)).give _

variable {n : Node} {name : String}

theorem postfix_index {i : Node} (h : Nat) (pointer : tyIsPtrlike n.ty = true)
    (number : tyIsPtrlike i.ty = false) (inner : Yields E A toks i c (Ends 0)) :
    Leads E (postfixFrom A (h + 1) n)
      (postfixFrom A h (derefNode E (.bin .add n.e (.bin .mul i.e
        (.num (BitVec.ofInt 64 ((CType.target n.ty).size E.layouts))))) (CType.target n.ty)))
      (.punct "[" :: (toks ++ [.punct "]"])) (c + (176 + 176 + (176 + 32) + 176)) anything := by
  refine (Yields.looking "[" true).silent ?_ fun _ _ => rfl
  refine (Yields.advance (.punct "[")).step ?_ fun _ _ => trivial
  refine Leads.bind inner ?_ ?_
  · refine (Yields.expected (t := .punct "]") (by decide)).step ?_ fun _ _ => trivial
    refine (newAdd_index pointer number).bind ?_ fun _ _ => trivial
    exact (newDeref_yields _ (CType.target n.ty)).then _
  · exact fun _ _ => (by decide : Ends 0 (some (.punct "]")))

theorem memberOf_yields {ty : CType} {m : Member}
    (found : E.findMember ty name = some m) (notName notFound : String) :
    Yields E (memberOf (some ty) notName notFound) [.ident name] (some m) 0 anything := by
  have known : ∀ s, scope s = E → ((some ty).bind fun ty => s.findMember ty name) = some m := by
    rintro s rfl
    exact found
  refine (Yields.peek (.ident name)).silent ?_ fun _ _ => rfl
  refine (Yields.gets known).silent ?_ fun _ _ => trivial
  exact (Yields.advance (.ident name)).give fun _ => some m

theorem postfix_member (h : Nat)
    (found : (E.findMember n.ty name).isSome) :
    Leads E (postfixFrom A (h + 1) n)
      (postfixFrom A h (memberNode E n.e (E.findMember n.ty name)))
      [.punct ".", .ident name] 176 anything := by
  obtain ⟨m, is⟩ := Option.isSome_iff_exists.mp found
  rw [is]
  refine (Yields.looking "[" false).silent ?_ fun _ _ => rfl
  refine (Yields.looking "." true).silent ?_ fun _ _ => rfl
  refine (Yields.advance (.punct ".")).step ?_ fun _ _ => trivial
  refine (memberOf_yields is _ _).step ?_ fun _ _ => trivial
  exact (newMember_yields n.e m).then _

theorem postfix_arrow (h : Nat) (pointer : n.ty.kind = .ptr)
    (found : (E.findMember (CType.target n.ty) name).isSome) :
    Leads E (postfixFrom A (h + 1) n)
      (postfixFrom A h (memberNode E (derefNode E n.e (CType.target n.ty)).e
        (E.findMember (CType.target n.ty) name)))
      [.punct "->", .ident name] (176 + 176) anything := by
  obtain ⟨m, is⟩ := Option.isSome_iff_exists.mp found
  have base : n.ty.base = some (CType.target n.ty) :=
    pointer_base (by unfold tyIsPtrlike; rw [pointer]; rfl)
  rw [is]
  refine (Yields.looking "[" false).silent ?_ fun _ _ => rfl
  refine (Yields.looking "." false).silent ?_ fun _ _ => rfl
  refine (Yields.looking "->" true).silent ?_ fun _ _ => rfl
  refine (Yields.advance (.punct "->")).step ?_ fun _ _ => trivial
  rw [if_pos pointer, base]
  refine (memberOf_yields is _ _).step ?_ fun _ _ => trivial
  refine (newDeref_yields n.e (CType.target n.ty)).bind ?_ fun _ _ => trivial
  exact (newMember_yields _ m).then _

end Postfix

section Unary

variable {E : Scope} {A : P Node} {f g : Nat} {toks : List Token} {a : Node} {c : Nat}
  {next : Option Token → Prop}

theorem unary_operand (starts : Starts plain toks)
    (operand : Yields E (postfixExpr A g) toks a c (Ends 8)) :
    Yields E (unary A (g + 1)) toks a c (Ends 7) := by
  have none (w : String) (is : w ≠ "(") (l : List Token) : looks (toks ++ l).head? w = false := by
    obtain ⟨x, head, kind⟩ := starts.head l
    rw [head]
    cases x with
    | num val => rfl
    | str addr => rfl
    | ident name => rfl
    | kw name => exact kind.elim
    | eof => exact kind.elim
    | punct v =>
      have paren : v = "(" := kind
      rw [looks_punct, paren]
      exact decide_eq_false fun same => is same.symm
  refine (Yields.unconsumed "sizeof").silent ?_ fun l _ => none "sizeof" (by decide) l
  refine (Yields.unconsumed "+").silent ?_ fun l _ => none "+" (by decide) l
  refine (Yields.unconsumed "-").silent ?_ fun l _ => none "-" (by decide) l
  refine (Yields.unconsumed "!").silent ?_ fun l _ => none "!" (by decide) l
  refine (Yields.unconsumed "*").silent ?_ fun l _ => none "*" (by decide) l
  refine (Yields.unconsumed "&").silent ?_ fun l _ => none "&" (by decide) l
  exact operand.narrow fun _ ends => ends.mono (by decide)

section

variable (operand : Yields E (unary A g) toks a c next)

include operand

theorem unary_plus :
    Yields E (unary A (g + 1)) (.punct "+" :: toks) a c next := by
  refine Yields.passes rfl ?_
  refine (Yields.consumed (t := .punct "+") (by decide)).step ?_ fun _ _ => trivial
  exact operand

theorem unary_neg :
    Yields E (unary A (g + 1)) (.punct "-" :: toks) ⟨.neg a.e, .int⟩ (176 + c) next := by
  refine Yields.passes rfl ?_
  refine Yields.passes rfl ?_
  refine (Yields.consumed (t := .punct "-") (by decide)).step ?_ fun _ _ => trivial
  refine Yields.newNode.bind ?_ fun _ _ => trivial
  exact operand.give _

theorem unary_not :
    Yields E (unary A (g + 1)) (.punct "!" :: toks) ⟨.not a.e, .int⟩ (176 + c) next := by
  refine Yields.passes rfl ?_
  refine Yields.passes rfl ?_
  refine Yields.passes rfl ?_
  refine (Yields.consumed (t := .punct "!") (by decide)).step ?_ fun _ _ => trivial
  refine Yields.newNode.bind ?_ fun _ _ => trivial
  exact operand.give _

theorem unary_deref (pointer : tyIsPtrlike a.ty = true) :
    Yields E (unary A (g + 1)) (.punct "*" :: toks) (derefNode E a.e (CType.target a.ty)) (176 + c)
      next := by
  refine Yields.passes rfl ?_
  refine Yields.passes rfl ?_
  refine Yields.passes rfl ?_
  refine Yields.passes rfl ?_
  refine (Yields.consumed (t := .punct "*") (by decide)).step ?_ fun _ _ => trivial
  refine Yields.newNode.bind ?_ fun _ _ => trivial
  refine operand.last ?_
  rw [if_pos pointer]
  exact (Yields.typeOf (CType.target a.ty)).give _

theorem unary_addr :
    Yields E (unary A (g + 1)) (.punct "&" :: toks) ⟨.addr a.e, .ptr a.ty⟩ (176 + (c + 32))
      next := by
  refine Yields.passes rfl ?_
  refine Yields.passes rfl ?_
  refine Yields.passes rfl ?_
  refine Yields.passes rfl ?_
  refine Yields.passes rfl ?_
  refine (Yields.consumed (t := .punct "&") (by decide)).step ?_ fun _ _ => trivial
  refine Yields.newNode.bind ?_ fun _ _ => trivial
  refine operand.ends ?_
  exact (Yields.tyPtrTo a.ty).give _

end

theorem Postfixes.unary (post : Postfixes E A f toks a c) (starts : Starts plain toks) {g : Nat}
    (long : toks.length + 1 ≤ g) (le : g ≤ f) : Yields E (unary A g) toks a c (Ends 7) := by
  obtain ⟨h, rfl⟩ : ∃ h, g = h + 1 := ⟨g - 1, by omega⟩
  exact unary_operand starts (post.yields (by omega) (by omega))

end Unary

section Sizeof

variable {E : Scope} {A : P Node} {f g : Nat} {toks : List Token} {a : Node} {c : Nat}
  {next : Option Token → Prop}

def typeLike (E : Scope) (t : Option Token) : Bool :=
  isKw t "int" || isKw t "char" || isKw t "struct" ||
    match t with
    | some (.ident text) => (E.findTypedef text).isSome
    | _ => false

/-- Tokens behind `sizeof` that are taken for a type in parentheses. -/
def typeBehind (E : Scope) (l : List Token) : Bool :=
  isPunct l.head? "(" && typeLike E l.tail.head?

variable {name : Option String}

section

variable (free : ∀ x ∈ name, E.findTypedef x = none)

include free

theorem begins_value {x : Token} (is : begins name x) : typeLike E (some x) = false := by
  cases x with
  | num val => rfl
  | str addr => rfl
  | ident y =>
    show (E.findTypedef y).isSome = false
    rw [free y is]
    rfl
  | punct w => rfl
  | kw w =>
    obtain rfl : w = "sizeof" := is
    rfl
  | eof => rfl

theorem parens_value {body : List Token} (starts : Starts (begins name) body) (l : List Token) :
    typeBehind E (parens body ++ l) = false := by
  obtain ⟨x, rest, rfl, is⟩ := starts
  show (_ && typeLike E (some x)) = false
  rw [begins_value free is, Bool.and_false]

theorem parensIf_value {body : List Token} (starts : Starts (begins name) body) (b : Bool)
    (l : List Token) (value : typeBehind E (body ++ l) = false) :
    typeBehind E (parensIf b body ++ l) = false := by
  cases b with
  | false => exact value
  | true => exact parens_value free starts l

end

/-- An expression is not taken for a type. -/
theorem print_value : ∀ (t : Tree) (p : Nat) (l : List Token),
    (∀ x ∈ t.first, E.findTypedef x = none) → typeBehind E (t.print p ++ l) = false
  | .num _, _, _, _ => rfl
  | .str _, _, _, _ => rfl
  | .var _, _, _, _ => rfl
  | .call _ [], _, _, _ => rfl
  | .call _ (_ :: _), _, _, _ => rfl
  | .index e i, _, l, free => by
    show typeBehind E (e.print 8 ++ _ ++ l) = false
    rw [List.append_assoc]
    exact print_value e 8 _ free
  | .member e _, _, l, free => by
    show typeBehind E (e.print 8 ++ _ ++ l) = false
    rw [List.append_assoc]
    exact print_value e 8 _ free
  | .arrow e _, _, l, free => by
    show typeBehind E (e.print 8 ++ _ ++ l) = false
    rw [List.append_assoc]
    exact print_value e 8 _ free
  | .plus e, p, l, free =>
    parensIf_value free ⟨.punct "+", e.print 7, rfl, (by decide : "+" ∈ _)⟩ _ l rfl
  | .neg e, p, l, free =>
    parensIf_value free ⟨.punct "-", e.print 7, rfl, (by decide : "-" ∈ _)⟩ _ l rfl
  | .not e, p, l, free =>
    parensIf_value free ⟨.punct "!", e.print 7, rfl, (by decide : "!" ∈ _)⟩ _ l rfl
  | .deref e, p, l, free =>
    parensIf_value free ⟨.punct "*", e.print 7, rfl, (by decide : "*" ∈ _)⟩ _ l rfl
  | .addr e, p, l, free =>
    parensIf_value free ⟨.punct "&", e.print 7, rfl, (by decide : "&" ∈ _)⟩ _ l rfl
  | .sizeof e, p, l, free => parensIf_value free ⟨.kw "sizeof", e.print 7, rfl, rfl⟩ _ l rfl
  | .op o x y, p, l, free => by
    refine parensIf_value free ((print_begins x o.level).append _) _ l ?_
    rw [List.append_assoc]
    exact print_value x o.level _ free
  | .assign x y, p, l, free => by
    refine parensIf_value free ((print_begins x 7).append _) _ l ?_
    rw [List.append_assoc]
    exact print_value x 7 _ free

theorem Leads.look {α : Type} {f : Parser → Bool} {b : Bool} {q : Bool → P α} {r : P α}
    (known : ∀ s l, scope s = E → s.tk = toks ++ l → f s = b)
    (rest : Leads E (q b) r toks c next) : Leads E (.gets f >>= q) r toks c next := by
  intro s l inside tokens fine room
  obtain ⟨log, leads⟩ := rest s l inside tokens fine room
  refine ⟨log, ?_⟩
  rw [Prog.run_bind, Prog.run_gets, known s l inside tokens, leads]

theorem unary_sizeof {e : Tree} (free : ∀ x ∈ e.first, E.findTypedef x = none)
    (operand : Yields E (unary A g) (e.print 7) a c next) :
    Yields E (unary A (g + 1)) (.kw "sizeof" :: e.print 7)
      ⟨.num (BitVec.ofInt 64 (a.ty.size E.layouts)), .int⟩ (c + 176) next := by
  refine (Yields.consumed (t := .kw "sizeof") (by decide)).step ?_ fun _ _ => trivial
  have value : ∀ s l, scope s = E → s.tk = e.print 7 ++ l →
      (isPunct s.tk.head? "(" && looksLikeType s s.tk.tail.head?) = false := by
    rintro s l rfl tokens
    rw [tokens]
    exact print_value e 7 l free
  refine Leads.look value ?_
  refine operand.ends ?_
  refine (Yields.sizeOf a.ty).silent ?_ fun _ _ => trivial
  exact Yields.newNum _

end Sizeof

end XinuRpi5.Cc.ExprOperands
