/- source: cc/parse.c
   digest: Expressions as trees, their text with as few parentheses as C allows, and their nodes. -/

import XinuRpi5.Cc.Parse

/-!
Levels of precedence are counted as the functions of the parser call each other: 0 is an
assignment, 1 to 6 are the operators with two operands, 7 are the operators in front of an operand,
8 those behind one, and 9 is what needs no operator.
-/

namespace XinuRpi5.Cc.ExprTrees

open Lib.RuledState Codegen Parse

inductive InfixOp where
  | or
  | and
  | eq
  | ne
  | lt
  | le
  | gt
  | ge
  | add
  | sub
  | mul
  | div
  | mod
  deriving DecidableEq

def InfixOp.text : InfixOp → String
  | .or => "||"
  | .and => "&&"
  | .eq => "=="
  | .ne => "!="
  | .lt => "<"
  | .le => "<="
  | .gt => ">"
  | .ge => ">="
  | .add => "+"
  | .sub => "-"
  | .mul => "*"
  | .div => "/"
  | .mod => "%"

def InfixOp.level : InfixOp → Nat
  | .or => 1
  | .and => 2
  | .eq => 3
  | .ne => 3
  | .lt => 4
  | .le => 4
  | .gt => 4
  | .ge => 4
  | .add => 5
  | .sub => 5
  | .mul => 6
  | .div => 6
  | .mod => 6

/-- The node of an operator between integers; `>` and `>=` have none of their own. -/
def InfixOp.build : InfixOp → Expr → Expr → Expr
  | .or, l, r => .logor l r
  | .and, l, r => .logand l r
  | .eq, l, r => .bin .eq l r
  | .ne, l, r => .bin .ne l r
  | .lt, l, r => .bin .lt l r
  | .le, l, r => .bin .le l r
  | .gt, l, r => .bin .lt r l
  | .ge, l, r => .bin .le r l
  | .add, l, r => .bin .add l r
  | .sub, l, r => .bin .sub l r
  | .mul, l, r => .bin .mul l r
  | .div, l, r => .bin .div l r
  | .mod, l, r => .bin .mod l r

section Trees

inductive Tree where
  | num (val : BitVec 64)
  | str (addr : BitVec 64)
  | var (name : String)
  | call (name : String) (args : List Tree)
  | index (e i : Tree)
  | member (e : Tree) (name : String)
  | arrow (e : Tree) (name : String)
  | plus (e : Tree)
  | neg (e : Tree)
  | not (e : Tree)
  | deref (e : Tree)
  | addr (e : Tree)
  | sizeof (e : Tree)
  | op (o : InfixOp) (l r : Tree)
  | assign (l r : Tree)

def parens (l : List Token) : List Token := .punct "(" :: (l ++ [.punct ")"])

def parensIf (b : Bool) (l : List Token) : List Token := if b then parens l else l

mutual

/-- The tokens of an expression where one of at least level `p` must stand. -/
def Tree.print : Tree → Nat → List Token
  | .num val, _ => [.num val]
  | .str addr, _ => [.str addr]
  | .var name, _ => [.ident name]
  | .call name [], _ => .ident name :: parens []
  | .call name (arg :: rest), _ => .ident name :: parens (arg.print 0 ++ printMore rest)
  | .index e i, _ => e.print 8 ++ .punct "[" :: (i.print 0 ++ [.punct "]"])
  | .member e name, _ => e.print 8 ++ [.punct ".", .ident name]
  | .arrow e name, _ => e.print 8 ++ [.punct "->", .ident name]
  | .plus e, p => parensIf (7 < p) (.punct "+" :: e.print 7)
  | .neg e, p => parensIf (7 < p) (.punct "-" :: e.print 7)
  | .not e, p => parensIf (7 < p) (.punct "!" :: e.print 7)
  | .deref e, p => parensIf (7 < p) (.punct "*" :: e.print 7)
  | .addr e, p => parensIf (7 < p) (.punct "&" :: e.print 7)
  | .sizeof e, p => parensIf (7 < p) (.kw "sizeof" :: e.print 7)
  -- the left operand may be of the same level, the right one not
  | .op o l r, p =>
    parensIf (o.level < p) (l.print o.level ++ .punct o.text :: r.print (o.level + 1))
  -- what is assigned to is an operand with operators in front of it
  | .assign l r, p => parensIf (0 < p) (l.print 7 ++ .punct "=" :: r.print 0)

def printMore : List Tree → List Token
  | [] => []
  | arg :: rest => .punct "," :: (arg.print 0 ++ printMore rest)

end

mutual

/-- The same expression with `>` and `>=` the other way round. -/
def Tree.swapped : Tree → Tree
  | .num val => .num val
  | .str addr => .str addr
  | .var name => .var name
  | .call name args => .call name (swappedArgs args)
  | .index e i => .index e.swapped i.swapped
  | .member e name => .member e.swapped name
  | .arrow e name => .arrow e.swapped name
  | .plus e => .plus e.swapped
  | .neg e => .neg e.swapped
  | .not e => .not e.swapped
  | .deref e => .deref e.swapped
  | .addr e => .addr e.swapped
  | .sizeof e => .sizeof e.swapped
  | .op .gt l r => .op .lt r.swapped l.swapped
  | .op .ge l r => .op .le r.swapped l.swapped
  | .op o l r => .op o l.swapped r.swapped
  | .assign l r => .assign l.swapped r.swapped

def swappedArgs : List Tree → List Tree
  | [] => []
  | arg :: rest => arg.swapped :: swappedArgs rest

end

end Trees

section Nodes

/-- What an expression is read with: the variables in scope, the layouts of the structure types and
the names of types. -/
structure Scope where
  vars : List Var
  layouts : List Layout
  typedefs : List (String × CType)

def Scope.findVar (E : Scope) (name : String) : Option Var := E.vars.find? fun v => v.name = name

def Scope.findTypedef (E : Scope) (name : String) : Option CType :=
  (E.typedefs.find? fun p => p.1 = name).map Prod.snd

def Scope.findMember (E : Scope) (ty : CType) (name : String) : Option Member :=
  match ty with
  | .struct id => ((E.layouts[id]?).elim [] Layout.members).find? fun m => m.name = name
  | _ => none

variable (E : Scope)

def derefNode (e : Expr) (ty : CType) : Node := ⟨.deref e (some (ty.ty E.layouts)), ty⟩

def memberNode (e : Expr) (m : Option Member) : Node :=
  match m with
  | some m => ⟨.member e m.offset (some (m.ty.ty E.layouts)), m.ty⟩
  | none => ⟨e, .int⟩

def CType.target (ty : CType) : CType := ty.base.getD .int

mutual

/-- The node of an expression: an operator has the nodes of its operands below it. -/
def Tree.node : Tree → Node
  | .num val => ⟨.num val, .int⟩
  | .str addr => ⟨.str addr, .ptr .char⟩
  | .var name =>
    match E.findVar name with
    | some v => ⟨.var v.ref (some (v.ty.ty E.layouts)), v.ty⟩
    | none => ⟨.num 0, .int⟩
  | .call name args => ⟨.call name (argNodes args), .int⟩
  -- e[i] is *(e + i), with i in bytes
  | .index e i =>
    let size := (CType.target e.node.ty).size E.layouts
    derefNode E (.bin .add e.node.e (.bin .mul i.node.e (.num (BitVec.ofInt 64 size))))
      (CType.target e.node.ty)
  | .member e name => memberNode E e.node.e (E.findMember e.node.ty name)
  -- e->name is (*e).name
  | .arrow e name =>
    memberNode E (derefNode E e.node.e (CType.target e.node.ty)).e
      (E.findMember (CType.target e.node.ty) name)
  | .plus e => e.node
  | .neg e => ⟨.neg e.node.e, .int⟩
  | .not e => ⟨.not e.node.e, .int⟩
  | .deref e => derefNode E e.node.e (CType.target e.node.ty)
  | .addr e => ⟨.addr e.node.e, .ptr e.node.ty⟩
  | .sizeof e => ⟨.num (BitVec.ofInt 64 (e.node.ty.size E.layouts)), .int⟩
  | .op o l r => ⟨o.build l.node.e r.node.e, .int⟩
  | .assign l r => ⟨.assign l.node.e r.node.e, l.node.ty⟩

def argNodes : List Tree → List Expr
  | [] => []
  | arg :: rest => arg.node.e :: argNodes rest

end

def Tree.first : Tree → Option String
  | .var name => some name
  | .call name _ => some name
  | .index e _ => e.first
  | .member e _ => e.first
  | .arrow e _ => e.first
  | .op _ l _ => l.first
  | .assign l _ => l.first
  | _ => none

mutual

/-- The variables are declared, there is no arithmetic on pointers but for `e[i]`, what is
dereferenced is a pointer or an array, the members exist, and what stands behind `sizeof` does not
begin with the name of a type. -/
def Tree.Typed : Tree → Prop
  | .num _ => True
  | .str _ => True
  | .var name => (E.findVar name).isSome
  | .call _ args => ArgsTyped args
  | .index e i =>
    e.Typed ∧ i.Typed ∧ tyIsPtrlike (e.node E).ty = true ∧ tyIsPtrlike (i.node E).ty = false
  | .member e name => e.Typed ∧ (E.findMember (e.node E).ty name).isSome
  | .arrow e name =>
    e.Typed ∧ (e.node E).ty.kind = .ptr ∧
      (E.findMember (CType.target (e.node E).ty) name).isSome
  | .plus e => e.Typed
  | .neg e => e.Typed
  | .not e => e.Typed
  | .deref e => e.Typed ∧ tyIsPtrlike (e.node E).ty = true
  | .addr e => e.Typed
  | .sizeof e => e.Typed ∧ ∀ name ∈ e.first, E.findTypedef name = none
  | .op o l r =>
    l.Typed ∧ r.Typed ∧ (o.level = 5 →
      tyIsPtrlike (l.node E).ty = false ∧ tyIsPtrlike (r.node E).ty = false)
  | .assign l r => l.Typed ∧ r.Typed

def ArgsTyped : List Tree → Prop
  | [] => True
  | arg :: rest => arg.Typed ∧ ArgsTyped rest

end

mutual

/-- The bytes of the arena that the nodes and types of an expression take. -/
def Tree.cost : Tree → Nat
  | .num _ => 176
  | .str _ => 208
  | .var _ => 176
  | .call _ args => 176 + argsCost args
  | .index e i => e.cost + (i.cost + 736)
  | .member e _ => e.cost + 176
  | .arrow e _ => e.cost + 352
  | .plus e => e.cost
  | .neg e => 176 + e.cost
  | .not e => 176 + e.cost
  | .deref e => 176 + e.cost
  | .addr e => 176 + (e.cost + 32)
  | .sizeof e => e.cost + 176
  | .op _ l r => l.cost + (r.cost + 176)
  | .assign l r => l.cost + (176 + r.cost)

def argsCost : List Tree → Nat
  | [] => 0
  | arg :: rest => arg.cost + argsCost rest

end

end Nodes

end XinuRpi5.Cc.ExprTrees
