/- source: cc/parse.c, cc/ccpriv.h, cc/cc.c
   digest: The parser of the on-device C compiler, from tokens to the syntax tree. -/

import XinuRpi5.Cc.Codegen
import XinuRpi5.Cc.Scoping
import Mathlib.Algebra.Group.Nat.Defs

/-!
The functions of the parser are programs on its static variables, and go on behind an error as
the code does. The list of tokens ends with `eof`, and an empty list is the null pointer. The
recursion is bounded by a number that a run may exhaust; such a run gives no program. What the
parser declares and binds is also written to a log, which the code does not have.
-/

namespace XinuRpi5.Cc.Parse

open Lib.RuledState Codegen Scoping

/-- `token_t`. -/
inductive Token where
  | num (val : BitVec 64)
  | str (addr : BitVec 64)
  | ident (text : String)
  | punct (text : String)
  | kw (text : String)
  | eof
  deriving DecidableEq

/-- A value as a C `int`. -/
def toInt (n : Int) : Int := n.bmod (2 ^ 32)

/-- `type_t`; a structure type is the number of its members in the table of layouts. -/
inductive CType where
  | int
  | char
  | ptr (base : CType)
  | array (base : CType) (arraylen size : Int)
  | struct (id : Nat)
  deriving DecidableEq

/-- `member_t`. -/
structure Member where
  name : String
  ty : CType
  offset : Int
  deriving DecidableEq

/-- The fields of a structure type that are filled in behind its last member. -/
structure Layout where
  size : Int
  members : List Member
  deriving DecidableEq

def CType.kind : CType → TyKind
  | .int => .int
  | .char => .char
  | .ptr _ => .ptr
  | .array _ _ _ => .array
  | .struct _ => .struct

def CType.size (layouts : List Layout) : CType → Int
  | .int => 8
  | .char => 1
  | .ptr _ => 8
  | .array _ _ size => size
  | .struct id => (layouts[id]?).elim 0 Layout.size

def CType.base : CType → Option CType
  | .ptr base => some base
  | .array base _ _ => some base
  | _ => none

def tyIsPtrlike (ty : CType) : Bool := ty.kind = .ptr ∨ ty.kind = .array

def CType.ty (layouts : List Layout) (ty : CType) : Ty := ⟨ty.kind, ty.size layouts⟩

/-- `var_t`. A local is the number of locals declared before it in the function; `num` tells
the variables of the program apart, as their addresses do. -/
structure Var where
  name : String
  ty : CType
  ref : VarRef
  num : Nat

/-- `func_t` as the parser leaves it. -/
structure Fn where
  name : String
  ret : CType
  params : List Var
  locals : List Var
  body : Stmt

structure Init where
  gaddr : BitVec 64
  byte : Bool
  val : BitVec 64

/-- `g_arena`, `g_acap` and `g_apos`. -/
structure Arena where
  base : BitVec 64
  cap : Nat
  pos : Nat

/-- The static variables of the parser, the error, and the layouts of the structure types.
`fault` is set where a null pointer is read, `spent` where the bound on the recursion is
reached. -/
structure Parser where
  tk : List Token
  curLocals : List Var
  globals : List Var
  structs : List (String × Nat)
  layouts : List Layout
  typedefs : List (String × CType)
  inSwitch : Bool
  funcs : List Fn
  inits : List Init
  numVars : Nat
  arena : Arena
  err : Option String
  fault : Bool
  spent : Bool
  log : List Event

/-- `cc_alloc`, with the size rounded up. -/
def Parser.alloc (s : Parser) (n : Nat) : Parser :=
  let size := (n + 15) / 16 * 16
  if s.arena.cap < s.arena.pos + size then
    { s with err := some (s.err.getD "compiler arena exhausted") }
  else { s with arena.pos := s.arena.pos + size }

def Parser.newLocal (s : Parser) (name : String) (ty : CType) : Parser :=
  { s with
    curLocals := ⟨name, ty, .loc s.curLocals.length, s.numVars⟩ :: s.curLocals
    numVars := s.numVars + 1
    log := .declare name s.numVars :: s.log }

/-- `new_global`, with the address of its storage. -/
def Parser.newGlobal (s : Parser) (name : String) (ty : CType) (gaddr : BitVec 64) : Parser :=
  { s with
    globals := ⟨name, ty, .glob gaddr, s.numVars⟩ :: s.globals
    numVars := s.numVars + 1
    log := .declareGlobal name s.numVars :: s.log }

/-- A structure type without members; `register_struct` when it has a tag. -/
def Parser.newStruct (s : Parser) (tag : Option String) : Parser :=
  { s with
    layouts := s.layouts ++ [⟨0, []⟩]
    structs := (tag.map fun x => (x, s.layouts.length)).toList ++ s.structs
    log := (tag.map fun x => Event.declareTag x s.layouts.length).toList ++ s.log }

def Parser.findVar (s : Parser) (name : String) : Option Var :=
  (s.curLocals ++ s.globals).find? fun v => v.name = name

def Parser.findStruct (s : Parser) (name : String) : Option Nat :=
  (s.structs.find? fun p => p.1 = name).map Prod.snd

def Parser.findTypedef (s : Parser) (name : String) : Option CType :=
  (s.typedefs.find? fun p => p.1 = name).map Prod.snd

def Parser.findMember (s : Parser) (ty : CType) (name : String) : Option Member :=
  match ty with
  | .struct id => ((s.layouts[id]?).elim [] Layout.members).find? fun m => m.name = name
  | _ => none

inductive Act where
  | advance
  | fault
  | spend
  | error (msg : String)
  | alloc (n : Nat)
  | inSwitch (b : Bool)
  | newStruct (tag : Option String)
  | setLayout (id : Nat) (layout : Layout)
  | newTypedef (name : String) (ty : CType)
  | newLocal (name : String) (ty : CType)
  | newGlobal (name : String) (ty : CType) (gaddr : BitVec 64)
  | init (init : Init)
  | opens
  | closes
  | enter
  | uses (name : String)
  | usesTag (name : String)
  | usesType (name : String)
  | calls (name : String)
  | addFunc (name : String) (ret : CType) (params : List Var) (body : Stmt)

def Parser.act (s : Parser) : Act → Parser
  | .advance => { s with tk := s.tk.tail }
  | .fault => { s with fault := true }
  | .spend => { s with spent := true }
  | .error msg => { s with err := some (s.err.getD msg) }
  | .alloc n => s.alloc n
  | .inSwitch b => { s with inSwitch := b }
  | .newStruct tag => s.newStruct tag
  | .setLayout id layout => { s with layouts := s.layouts.set id layout }
  | .newTypedef name ty => { s with typedefs := (name, ty) :: s.typedefs }
  | .newLocal name ty => s.newLocal name ty
  | .newGlobal name ty gaddr => s.newGlobal name ty gaddr
  | .init init => { s with inits := init :: s.inits }
  | .opens => { s with log := .opens :: s.log }
  | .closes => { s with log := .closes :: s.log }
  | .enter => { s with curLocals := [], log := .enter :: s.log }
  | .uses name => { s with log := ((s.findVar name).map fun v => .uses name v.num).toList ++ s.log }
  | .usesTag name => { s with log := ((s.findStruct name).map (.usesTag name)).toList ++ s.log }
  | .usesType name => { s with log := .usesType name :: s.log }
  | .calls name => { s with log := .calls name :: s.log }
  | .addFunc name ret params body =>
    { s with funcs := s.funcs ++ [⟨name, ret, params, s.curLocals, body⟩] }

def accesses : Rule Parser where
  rel s t := ∃ acts : List Act, acts.foldl Parser.act s = t
  refl _ := ⟨[], rfl⟩
  trans := by
    rintro s t u ⟨first, rfl⟩ ⟨later, rfl⟩
    exact ⟨first ++ later, List.foldl_append⟩

abbrev P := Prog accesses

def reads {α : Type} (f : Parser → α × List Act) : P α :=
  .act (fun s => ((f s).1, (f s).2.foldl Parser.act s)) fun s => ⟨(f s).2, rfl⟩

def does (a : Act) : P Unit := reads fun _ => ((), [a])

/-- `tk`, where a field of it is read. -/
def peek : P Token := reads fun s =>
  match s.tk with
  | [] => (.eof, [.fault])
  | t :: _ => (t, [])

/-- `tk = tk->next`. -/
def advance : P Unit := reads fun s =>
  match s.tk with
  | [] => ((), [.fault])
  | _ :: _ => ((), [.advance])

/-- `is_punct` of a token that may be the null pointer. -/
def isPunct (t : Option Token) (w : String) : Bool := t = some (.punct w)

def isKw (t : Option Token) (w : String) : Bool := t = some (.kw w)

def looking (w : String) : P Bool := .gets fun s => isPunct s.tk.head? w

def lookingAny (w : String) : P Bool := .gets fun s => isPunct s.tk.head? w || isKw s.tk.head? w

def ccError (msg : String) : P Unit := does (.error msg)

def failed : P Bool := .gets fun s => s.err.isSome

def expect (w : String) : P Unit := do
  if ← lookingAny w then advance else ccError "expected token"

def consume (w : String) : P Bool := do
  if ← lookingAny w then
    advance
    return true
  else return false

def ccAlloc (n : Nat) : P Unit := does (.alloc n)

def spent {α : Type} (a : α) : P α := do
  does .spend
  return a

def inBlock {α : Type} (p : P α) : P α := do
  does .opens
  let a ← p
  does .closes
  return a

/-- `l->ty->size`. -/
def sizeOf (ty : CType) : P Int := .gets fun s => ty.size s.layouts

def tyPtrTo (base : CType) : P CType := do
  ccAlloc 32
  return .ptr base

def tyArrayOf (base : CType) (len : Int) : P CType := do
  ccAlloc 32
  return .array base len (toInt ((← sizeOf base) * len))

def pAlignUp (n a : Int) : Int := toInt (Int.tdiv (toInt (n + a - 1)) a * a)

/-- The length of an array behind the bracket; an error does not end the declaration. -/
def arrayLength : P Int := do
  let len ← match ← peek with
    | .num val => pure (toInt val.toInt)
    | _ => do
      ccError "array length must be a constant"
      pure 0
  advance
  expect "]"
  return len

/-- The stars of `declspec`. -/
def stars : Nat → CType → P CType
  | 0, ty => spent ty
  | fuel + 1, ty => do
    if ← looking "*" then
      advance
      stars fuel (← tyPtrTo ty)
    else return ty

/-- `declspec`, with `struct_decl` for what stands behind `struct`. -/
def declspecWith (structDecl : P CType) (fuel : Nat) : P CType := do
  if ← consume "int" then stars fuel .int
  else if ← consume "char" then stars fuel .char
  else if ← consume "struct" then stars fuel (← structDecl)
  else
    match ← peek with
    | .ident name =>
      match ← Prog.gets (fun s => s.findTypedef name) with
      | some ty => do
        does (.usesType name)
        advance
        stars fuel ty
      | none => do
        ccError "expected type"
        return .int
    | _ => do
      ccError "expected type"
      return .int

/-- The members of a structure behind an offset, and the offset behind them. -/
def members (declspec : P CType) : Nat → Int → P (List Member × Int)
  | 0, off => spent ([], off)
  | fuel + 1, off => do
    if ← looking "\x7d" then return ([], off)
    else if (← peek) = .eof then return ([], off)
    else
      let mty ← declspec
      match ← peek with
      | .ident mname => do
        advance
        let mty ← if ← consume "[" then tyArrayOf mty (← arrayLength) else pure mty
        expect ";"
        let size ← sizeOf mty
        let off := pAlignUp off (if 8 ≤ size then 8 else 1)
        ccAlloc 32
        let m : Member := ⟨mname, mty, off⟩
        let off := toInt (off + size)
        if ← failed then return ([m], off)
        else
          let (rest, last) ← members declspec fuel off
          return (m :: rest, last)
      | _ => do
        ccError "expected member name"
        return ([], off)

/-- `struct_decl`, behind `struct`. -/
def structDecl : Nat → P CType
  | 0 => spent .int
  | fuel + 1 => do
    let tag ← match ← peek with
      | .ident name => do
        advance
        pure (some name)
      | _ => pure none
    if ← looking "\x7b" then
      advance
      ccAlloc 32
      let id ← Prog.gets fun s => s.layouts.length
      if tag.isSome then ccAlloc 24
      does (.newStruct tag)
      let (ms, off) ← members (declspecWith (structDecl fuel) fuel) fuel 0
      expect "\x7d"
      does (.setLayout id ⟨pAlignUp off 8, ms⟩)
      return .struct id
    else
      match tag with
      | none => do
        ccError "anonymous struct without a body"
        return .int
      | some name => do
        match ← Prog.gets (fun s => s.findStruct name) with
        | some id => do
          does (.usesTag name)
          return .struct id
        | none => do
          ccError "unknown struct tag"
          return .int

/-- `struct_decl` behind its tag. -/
def structRest (declspec : P CType) (fuel : Nat) (tag : Option String) : P CType := do
  if ← looking "\x7b" then
    advance
    ccAlloc 32
    let id ← Prog.gets fun s => s.layouts.length
    if tag.isSome then ccAlloc 24
    does (.newStruct tag)
    let (ms, off) ← members declspec fuel 0
    expect "\x7d"
    does (.setLayout id ⟨pAlignUp off 8, ms⟩)
    return .struct id
  else
    match tag with
    | none => do
      ccError "anonymous struct without a body"
      return .int
    | some name => do
      match ← Prog.gets (fun s => s.findStruct name) with
      | some id => do
        does (.usesTag name)
        return .struct id
      | none => do
        ccError "unknown struct tag"
        return .int

theorem structDecl_eq (fuel : Nat) : structDecl (fuel + 1) = peek >>= fun
    | .ident name =>
      advance >>= fun _ => structRest (declspecWith (structDecl fuel) fuel) fuel (some name)
    | _ => structRest (declspecWith (structDecl fuel) fuel) fuel none := rfl

def declspec (fuel : Nat) : P CType := declspecWith (structDecl fuel) fuel

def looksLikeType (s : Parser) (t : Option Token) : Bool :=
  isKw t "int" || isKw t "char" || isKw t "struct" ||
    match t with
    | some (.ident text) => (s.findTypedef text).isSome
    | _ => false

structure Node where
  e : Expr
  ty : CType

def newNode : P Unit := ccAlloc 168

def newNum (val : BitVec 64) : P Node := do
  newNode
  return ⟨.num val, .int⟩

def newBinary (k : Expr → Expr → Expr) (l r : Node) : P Node := do
  newNode
  return ⟨k l.e r.e, .int⟩

def stride (ty : CType) : P Int :=
  match ty.base with
  | some base => sizeOf base
  | none => return 1

def scale (r : Node) (sz : Int) : P Node := do
  newBinary (.bin .mul) r (← newNum (BitVec.ofInt 64 sz))

/-- A node with the type of a pointer to what `l` points to. -/
def asPointer (l n : Node) : P Node := do
  return ⟨n.e, ← tyPtrTo (l.ty.base.getD .int)⟩

def newAdd (l r : Node) : P Node := do
  if ¬ tyIsPtrlike l.ty ∧ ¬ tyIsPtrlike r.ty then newBinary (.bin .add) l r
  else if tyIsPtrlike l.ty ∧ tyIsPtrlike r.ty then
    ccError "pointer + pointer"
    return l
  else
    let (l, r) := if tyIsPtrlike l.ty then (l, r) else (r, l)
    let scaled ← scale r (← stride l.ty)
    asPointer l (← newBinary (.bin .add) l scaled)

def newSub (l r : Node) : P Node := do
  if ¬ tyIsPtrlike l.ty ∧ ¬ tyIsPtrlike r.ty then newBinary (.bin .sub) l r
  else if tyIsPtrlike l.ty ∧ ¬ tyIsPtrlike r.ty then
    let scaled ← scale r (← stride l.ty)
    asPointer l (← newBinary (.bin .sub) l scaled)
  else if tyIsPtrlike l.ty ∧ tyIsPtrlike r.ty then
    let sz ← stride l.ty
    let d ← newBinary (.bin .sub) l r
    newBinary (.bin .div) d (← newNum (BitVec.ofInt 64 sz))
  else
    ccError "int - pointer"
    return l

def typeOf (ty : CType) : P (Option Ty) := .gets fun s => some (ty.ty s.layouts)

def newDeref (lhs : Expr) (ty : CType) : P Node := do
  newNode
  return ⟨.deref lhs (← typeOf ty), ty⟩

def newMember (lhs : Expr) (m : Member) : P Node := do
  newNode
  return ⟨.member lhs m.offset (← typeOf m.ty), m.ty⟩

def moreArgs (assign : P Node) : Nat → P (List Expr)
  | 0 => spent []
  | fuel + 1 => do
    if ← consume "," then
      let arg ← assign
      return arg.e :: (← moreArgs assign fuel)
    else return []

def primary (assign : P Node) (fuel : Nat) : P Node := do
  if ← consume "(" then
    let n ← assign
    expect ")"
    return n
  else
    match ← peek with
    | .num val => do
      let n ← newNum val
      advance
      return n
    | .str addr => do
      newNode
      let ty ← tyPtrTo .char
      advance
      return ⟨.str addr, ty⟩
    | .ident name => do
      advance
      if ← consume "(" then
        newNode
        does (.calls name)
        let args ← if ← looking ")" then pure [] else do
          let arg ← assign
          pure (arg.e :: (← moreArgs assign fuel))
        expect ")"
        return ⟨.call name args, .int⟩
      else
        match ← Prog.gets (fun s => s.findVar name) with
        | some v => do
          does (.uses name)
          newNode
          return ⟨.var v.ref (← typeOf v.ty), v.ty⟩
        | none => do
          ccError "undefined variable"
          newNum 0
    | _ => do
      ccError "expected expression"
      newNum 0

/-- A member behind `.` or `->`, of the type that is searched. -/
def memberOf (ty : Option CType) (notName notFound : String) : P (Option Member) := do
  match ← peek with
  | .ident name => do
    let m ← Prog.gets fun s => ty.bind fun ty => s.findMember ty name
    advance
    if m.isNone then ccError notFound
    return m
  | _ => do
    ccError notName
    return none

/-- The loop of `postfix`, which is `postfixExpr` here. -/
def postfixFrom (assign : P Node) : Nat → Node → P Node
  | 0, n => spent n
  | fuel + 1, n => do
    if ← looking "[" then
      advance
      let idx ← assign
      expect "]"
      let add ← newAdd n idx
      postfixFrom assign fuel (← newDeref add.e (add.ty.base.getD .int))
    else if ← looking "." then
      advance
      match ← memberOf (some n.ty) "expected member name after '.'" "no such struct member" with
      | some m => do postfixFrom assign fuel (← newMember n.e m)
      | none => return n
    else if ← looking "->" then
      advance
      let st := if n.ty.kind = .ptr then n.ty.base else none
      match ← memberOf st "expected member name after '->'" "no such struct member (->)" with
      | some m => do
        let deref ← newDeref n.e (st.getD .int)
        postfixFrom assign fuel (← newMember deref.e m)
      | none => return n
    else return n

def postfixExpr (assign : P Node) (fuel : Nat) : P Node := do
  postfixFrom assign fuel (← primary assign fuel)

def unary (assign : P Node) : Nat → P Node
  | 0 => spent ⟨.num 0, .int⟩
  | fuel + 1 => do
    if ← consume "sizeof" then
      if ← Prog.gets fun s => isPunct s.tk.head? "(" && looksLikeType s (s.tk.tail.head?) then
        advance
        let ty ← declspec fuel
        expect ")"
        newNum (BitVec.ofInt 64 (← sizeOf ty))
      else
        let e ← unary assign fuel
        newNum (BitVec.ofInt 64 (← sizeOf e.ty))
    else if ← consume "+" then unary assign fuel
    else if ← consume "-" then
      newNode
      let n ← unary assign fuel
      return ⟨.neg n.e, .int⟩
    else if ← consume "!" then
      newNode
      let n ← unary assign fuel
      return ⟨.not n.e, .int⟩
    else if ← consume "*" then
      newNode
      let n ← unary assign fuel
      if tyIsPtrlike n.ty then
        let ty := n.ty.base.getD .int
        return ⟨.deref n.e (← typeOf ty), ty⟩
      else
        ccError "dereference of non-pointer"
        return ⟨.deref n.e (← typeOf .int), .int⟩
    else if ← consume "&" then
      newNode
      let n ← unary assign fuel
      return ⟨.addr n.e, ← tyPtrTo n.ty⟩
    else postfixExpr assign fuel

/-- The loop of the binary operators of one precedence; `step` reads one more operand. -/
def chain (step : Node → P (Option Node)) : Nat → Node → P Node
  | 0, n => spent n
  | fuel + 1, n => do
    match ← step n with
    | some n => chain step fuel n
    | none => return n

def mul (assign : P Node) (fuel : Nat) : P Node := do
  let unary := unary assign fuel
  chain (fun n => do
    if ← consume "*" then return some (← newBinary (.bin .mul) n (← unary))
    else if ← consume "/" then return some (← newBinary (.bin .div) n (← unary))
    else if ← consume "%" then return some (← newBinary (.bin .mod) n (← unary))
    else return none) fuel (← unary)

def addExpr (assign : P Node) (fuel : Nat) : P Node := do
  let mul := mul assign fuel
  chain (fun n => do
    if ← consume "+" then return some (← newAdd n (← mul))
    else if ← consume "-" then return some (← newSub n (← mul))
    else return none) fuel (← mul)

def relational (assign : P Node) (fuel : Nat) : P Node := do
  let addExpr := addExpr assign fuel
  chain (fun n => do
    if ← consume "<" then return some (← newBinary (.bin .lt) n (← addExpr))
    else if ← consume "<=" then return some (← newBinary (.bin .le) n (← addExpr))
    -- a > b is b < a
    else if ← consume ">" then return some (← newBinary (.bin .lt) (← addExpr) n)
    else if ← consume ">=" then return some (← newBinary (.bin .le) (← addExpr) n)
    else return none) fuel (← addExpr)

def equality (assign : P Node) (fuel : Nat) : P Node := do
  let relational := relational assign fuel
  chain (fun n => do
    if ← consume "==" then return some (← newBinary (.bin .eq) n (← relational))
    else if ← consume "!=" then return some (← newBinary (.bin .ne) n (← relational))
    else return none) fuel (← relational)

def logand (assign : P Node) (fuel : Nat) : P Node := do
  let equality := equality assign fuel
  chain (fun n => do
    if ← consume "&&" then return some (← newBinary .logand n (← equality))
    else return none) fuel (← equality)

def logor (assign : P Node) (fuel : Nat) : P Node := do
  let logand := logand assign fuel
  chain (fun n => do
    if ← consume "||" then return some (← newBinary .logor n (← logand))
    else return none) fuel (← logand)

def assign : Nat → P Node
  | 0 => spent ⟨.num 0, .int⟩
  | fuel + 1 => do
    let n ← logor (assign fuel) fuel
    if ← consume "=" then
      newNode
      let r ← assign fuel
      return ⟨.assign n.e r.e, n.ty⟩
    else return n

def expr (fuel : Nat) : P Node := assign fuel

def exprStmt (fuel : Nat) : P Stmt := do
  newNode
  let n ← expr fuel
  expect ";"
  return .expr n.e

/-- A declarator with its initializer, and whether another one can follow. -/
def declarator (base : CType) (fuel : Nat) : P (Option (List Stmt)) := do
  match ← peek with
  | .ident name => do
    advance
    let ty ← if ← consume "[" then tyArrayOf base (← arrayLength) else pure base
    ccAlloc 40
    let ref ← Prog.gets fun s => VarRef.loc s.curLocals.length
    does (.newLocal name ty)
    if ← consume "=" then
      newNode
      let lhs := Expr.var ref (← typeOf ty)
      newNode
      let rhs ← assign fuel
      newNode
      return some [.expr (.assign lhs rhs.e)]
    else return some []
  | _ => do
    ccError "expected identifier in declaration"
    return none

/-- The loop of `declaration`, with the initializers as statements. -/
def declarators (base : CType) (fuel : Nat) : Nat → P (List Stmt)
  | 0 => spent []
  | more + 1 => do
    match ← declarator base fuel with
    | some init =>
      if ← failed then return init
      else if ← consume "," then return init ++ (← declarators base fuel more)
      else return init
    | none => return []

def declaration (fuel : Nat) : P Stmt := do
  let base ← declspec fuel
  newNode
  let inits ← declarators base fuel fuel
  expect ";"
  return .block inits

def stmts (stmt : P Stmt) (fuel : Nat) : Nat → P (List Stmt)
  | 0 => spent []
  | more + 1 => do
    if ← looking "\x7d" then return []
    else if (← peek) = .eof then return []
    else
      let s ← if ← Prog.gets fun s => looksLikeType s s.tk.head? then declaration fuel else stmt
      if ← failed then return [s] else return s :: (← stmts stmt fuel more)

/-- The constant of a `case` or of a global, with its sign. -/
def constant (msg : String) : P (BitVec 64) := do
  let neg ← looking "-"
  if neg then advance
  match ← peek with
  | .num val => do
    advance
    return if neg then -val else val
  | _ => do
    ccError msg
    return 0

def optionalExpr (fuel : Nat) (stop : String) : P (Option Expr) := do
  if ← looking stop then return none else return some (← expr fuel).e

def condition (fuel : Nat) : P Node := do
  expect "("
  let n ← expr fuel
  expect ")"
  return n

def stmt : Nat → P Stmt
  | 0 => spent .null
  | fuel + 1 => do
    if ← consume "return" then
      newNode
      let n ← expr fuel
      expect ";"
      return .ret n.e
    else if ← consume "if" then inBlock do
      newNode
      let cond ← condition fuel
      let yes ← inBlock (stmt fuel)
      let no ← if ← consume "else" then inBlock (stmt fuel) else pure .null
      return .ite cond.e yes no
    else if ← consume "while" then inBlock do
      newNode
      let cond ← condition fuel
      return .wloop cond.e (← inBlock (stmt fuel))
    else if ← consume "for" then inBlock do
      newNode
      expect "("
      let init ← if ← consume ";" then pure Stmt.null else do
        newNode
        let n ← expr fuel
        expect ";"
        pure (.expr n.e)
      let cond ← optionalExpr fuel ";"
      expect ";"
      let inc ← optionalExpr fuel ")"
      expect ")"
      return .floop init cond inc (← inBlock (stmt fuel))
    else if ← consume "switch" then inBlock do
      newNode
      let cond ← condition fuel
      let prev ← Prog.gets fun s => s.inSwitch
      does (.inSwitch true)
      let body ← inBlock (stmt fuel)
      does (.inSwitch prev)
      return .switch cond.e body
    else if ← consume "case" then
      if ¬ (← Prog.gets fun s => s.inSwitch) then ccError "case outside switch"
      let val ← constant "case label must be an integer constant"
      expect ":"
      newNode
      return .case (some val) (← stmt fuel)
    else if ← consume "default" then
      if ¬ (← Prog.gets fun s => s.inSwitch) then ccError "default outside switch"
      expect ":"
      newNode
      return .case none (← stmt fuel)
    else if ← consume "break" then
      expect ";"
      newNode
      return .brk
    else if ← consume "continue" then
      expect ";"
      newNode
      return .cont
    else if ← looking "\x7b" then inBlock do
      advance
      newNode
      let body ← stmts (stmt fuel) fuel fuel
      expect "\x7d"
      return .block body
    else exprStmt fuel

def params (fuel : Nat) : Nat → P (List Var)
  | 0 => spent []
  | more + 1 => do
    let ty ← declspec fuel
    match ← peek with
    | .ident name => do
      advance
      ccAlloc 40
      let v ← Prog.gets fun s => Var.mk name ty (.loc s.curLocals.length) s.numVars
      does (.newLocal name ty)
      if ← consume "," then return v :: (← params fuel more) else return [v]
    | _ => do
      ccError "expected parameter name"
      return []

/-- `function_rest`; the function is also put behind the others, as `cc_parse` does when
nothing has failed. -/
def functionRest (fuel : Nat) (ret : CType) (name : String) : P Unit := do
  ccAlloc 120
  does .enter
  expect "("
  let ps ← if ← looking ")" then pure [] else params fuel fuel
  expect ")"
  if 8 < ps.length then ccError "too many parameters (max 8)"
  if ← looking "\x7b" then
    let body ← stmt fuel
    does (.addFunc name ret (ps.take 8) body)
  else ccError "expected function body"
  does .closes

def globalDecl (base : CType) (name : String) : P Unit := do
  let ty ← if ← consume "[" then tyArrayOf base (← arrayLength) else pure base
  let size ← sizeOf ty
  ccAlloc 40
  let gaddr ← Prog.gets fun s => s.arena.base + BitVec.ofNat 64 s.arena.pos
  ccAlloc (BitVec.ofInt 64 (if size < 8 then 8 else size)).toNat
  does (.newGlobal name ty gaddr)
  if ← consume "=" then
    let val ← constant "global initializer must be an integer constant"
    does (.init ⟨gaddr, size = 1, val⟩)
  expect ";"

/-- The loop of `cc_parse`. -/
def program (fuel : Nat) : Nat → P Unit
  | 0 => spent ()
  | more + 1 => do
    if ← Prog.gets fun s => s.tk.head?.elim true fun t => t = .eof then return ()
    else if ← consume "typedef" then
      let ty ← declspec fuel
      match ← peek with
      | .ident name => do
        ccAlloc 24
        does (.newTypedef name ty)
        advance
        expect ";"
        program fuel more
      | _ => ccError "expected typedef name"
    else
      let base ← declspec fuel
      if ← consume ";" then program fuel more
      else
        match ← peek with
        | .ident name => do
          advance
          if ← looking "(" then functionRest fuel base name else globalDecl base name
          if ← failed then return () else program fuel more
        | _ => ccError "expected identifier at top level"

/-- The variables at the start of `cc_parse`; the arena holds the tokens. -/
def start (arena : Arena) (toks : List Token) : Parser :=
  { tk := toks, curLocals := [], globals := [], structs := [], layouts := [], typedefs := [],
    inSwitch := false, funcs := [], inits := [], numVars := 0, arena := arena, err := none,
    fault := false, spent := false, log := [] }

/-- `cc_parse` of a program that it accepts: what it leaves behind without an error. -/
def ccParse (fuel : Nat) (arena : Arena) (toks : List Token) : Option Parser :=
  let s := ((program fuel fuel).run (start arena toks)).2
  if s.err.isSome ∨ s.fault ∨ s.spent then none else some s

end XinuRpi5.Cc.Parse
