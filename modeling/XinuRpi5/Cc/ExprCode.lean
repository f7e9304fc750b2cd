/- source: cc/abcl2c.c
   digest: The C text of an AIPL expression, and when it does what the expression means. -/

import XinuRpi5.Cc.Values

namespace XinuRpi5.Cc.ExprCode

open AiplLex AiplStructure AiplExpr EvalOrder
open Values Lib.NameTable Lib.RuledState

section Trees

variable (s : St)

/-- What `emit_ident` makes of a name. -/
def identVar (name : Text) : Var :=
  if name = "self".toList then .self
  else match fieldHere name s with
    | some k => .field k
    | none => .name name

/-- The number of `init`, when the class has one. -/
def initIn (ci : Nat) : Option Nat :=
  match s.cls[ci]? with
  | some c =>
    if c.methods.any fun m => m.name = "init".toList then
      some (methIdIn s.mname "init".toList).1
    else none
  | none => none

def filled : List Slot := [.arg, .arg, .arg, .arg]

/-- A new object with the arguments of its `init`. -/
def spawned (ci : Nat) (im : Option Nat) (wrap : Bool) (args : List Expr) : Expr :=
  match im with
  | some im =>
    .call ⟨"__new_init".toList, .arg :: .const (.raw im) :: filled, wrap⟩
      (.call ⟨"g_spawn".toList, [.const (.raw ci)], false⟩ [] :: args)
  | none => .call ⟨"g_spawn".toList, [.const (.raw ci)], wrap⟩ []

def message (fn : String) (mid : Nat) (target : Expr) (args : List Expr) : Expr :=
  .call ⟨fn.toList, .num :: .const (.raw mid) :: filled, false⟩ (target :: args)

def remote (host actor : Expr) (name : Text) (args : List Expr) (ms : Nat) : Expr :=
  .call ⟨"cc_remote_call".toList,
    [.arg, .arg, .const (.str name), .arg, .const (.int ms)], false⟩ (host :: actor :: args)

def toObject (sub : Nat → Option Expr) (e : Node) : Option Expr := do
  let target := s.nd.getD e.a (blank .nil)
  let args ← e.args.mapM sub
  if target.k = .remote then
    if 1 < args.length ∨ s.mname.length ≤ e.mid then none
    else
      let host ← sub (target.args.getD 0 0)
      let actor ← sub (target.args.getD 1 0)
      return remote host actor (s.mname.getD e.mid []) args 2000
  else return message "__now" e.mid (← sub e.a) args

def ownFunction (mi : Nat) : Text :=
  let c := s.cc.bind fun ci => s.cls[ci]?
  "m_".toList ++ (c.elim [] fun c => c.name) ++ "_".toList ++
    (c.elim [] fun c => (c.methods[mi]?).elim [] fun m => m.name)

/-- The expression that a node stands for; `none` for what has a fraction, a deadline or no
code. -/
def exprOf (sub : Nat → Option Expr) (e : Node) : Option Expr :=
  match e.k with
  | .nil => some (.const (.int 0))
  | .int => some (.lit e.num)
  | .bool => some (.const (.bool e.num))
  | .flt => none
  | .str => some (.const (.str e.s))
  | .id => some (.var (identVar s e.s))
  | .new => do
    let args ← e.args.mapM sub
    if e.args ≠ [] ∧ (initIn s e.ci).isNone then none
    else return spawned e.ci (initIn s e.ci) true args
  | .rt => do
    let args ← e.args.mapM sub
    return .call ⟨e.s2.toList, List.replicate args.length .arg, false⟩ args
  | .selfcall => do
    return .call ⟨ownFunction s e.mid, .const .self :: filled, false⟩ (← e.args.mapM sub)
  | .print => do return .call ⟨"v_print".toList, [.arg], false⟩ (← e.args.mapM sub)
  | .aicall => do
    let args ← e.args.mapM sub
    let slot := if args = [] then Slot.const (.str []) else .arg
    return .call ⟨"v_ai_call".toList, [slot], false⟩ args
  | .remote | .awaitdl | .nowdl => none
  | .now => toObject s sub e
  | .wait => do return .call ⟨"cc_wait".toList, [.arg], false⟩ (← e.args.mapM sub)
  | .spawn =>
    some (.call ⟨"cc_web_expose".toList, [.const (.str e.s), .arg], false⟩
      [spawned e.ci (initIn s e.ci) false []])
  | .web =>
    if e.num = 0 then do
      return .call ⟨"cc_web_listen".toList, [.arg], false⟩ (← e.args.mapM sub)
    else
      match e.args with
      | [path, actor] => do
        let name := (s.nd.getD actor (blank .nil)).s
        return .call ⟨"cc_web_expose".toList, [.arg, .num], false⟩ [← sub path, .var (.name name)]
      | _ => none
  | .fut => do return message "cc_future" e.mid (← sub e.a) (← e.args.mapM sub)
  | .await => do return .call ⟨"cc_await".toList, [.arg], false⟩ [← sub e.a]
  | .un => do return .un e.op (← sub e.a)
  | .bin => do return .bin e.op (← sub e.a) (← sub (e.b.getD 0))

def exprAt : Nat → Nat → Option Expr
  | 0, _ => none
  | depth + 1, i =>
    if i = 0 ∨ maxNode ≤ i then none
    else exprOf s (exprAt depth) (s.nd.getD i (blank .nil))

end Trees

section Text

/-- What `op_n` writes: the smallest `long` stays negative, and its digits come out below '0'. -/
def opText (n : Int) : Text :=
  if n = -9223372036854775808 then
    '-' :: "9223372036854775808".toList.map fun c => Char.ofNat (96 - c.toNat)
  else (toString n).toList

theorem opText_zero : opText 0 = ['0'] := rfl

def varText : Var → Text
  | .self => "self".toList
  | .field k => "g_obj[self].f[".toList ++ opText k ++ "]".toList
  | .name x => "v_".toList ++ x

theorem varText_self : varText .self = "self".toList := rfl

theorem varText_name (x : Text) : varText (.name x) = "v_".toList ++ x := rfl

def quoted (t : Text) : Text := "\"".toList ++ t ++ "\"".toList

def applied (f args : Text) : Text := f ++ "(".toList ++ args ++ ")".toList

def comma : Text := ", ".toList

mutual

def text : CExpr → Text
  | .num n => opText n
  | .txt t => quoted t
  | .var x => varText x
  | .val f args => applied f.toList (texts args)
  | .app f args => applied f (texts args)

def texts : List CExpr → Text
  | [] => []
  | e :: es => text e ++ moreTexts es

def moreTexts : List CExpr → Text
  | [] => []
  | e :: es => comma ++ text e ++ moreTexts es

end

def pieceText : Piece → Text
  | .str s => s.toList
  | .name t => t
  | .num n => opText n
  | .float _ _ _ => []
  | .length n => opText n
  | .index k => opText k

def render (out : List Piece) : Text := out.flatMap pieceText

theorem render_append (out new : List Piece) : render (out ++ new) = render out ++ render new :=
  List.flatMap_append

end Text

section Writing

structure Same (s t : St) : Prop where
  nd : t.nd = s.nd
  cls : t.cls = s.cls
  cc : t.cc = s.cc
  locals : t.locals = s.locals
  err : t.lex.err = s.lex.err
  number : (methIdIn t.mname "init".toList).1 = (methIdIn s.mname "init".toList).1
  names : s.mname <+: t.mname

theorem Same.refl (s : St) : Same s s :=
  ⟨rfl, rfl, rfl, rfl, rfl, rfl, List.prefix_refl _⟩

theorem Same.fieldHere {s t : St} (same : Same s t) (name : Text) :
    fieldHere name t = fieldHere name s := by
  unfold AiplExpr.fieldHere
  rw [same.locals, same.cc, same.cls]

/-- From every such state the program writes the text and changes nothing else. -/
def Writes (s : St) (p : Prog emits Unit) (t : Text) : Prop :=
  ∀ u, Same s u → Same s (p.run u).2 ∧
    ∃ new, (p.run u).2.out = u.out ++ new ∧ render new = t

variable {s : St} {α : Type}

theorem writes_pure : Writes s (pure ()) [] :=
  fun _ same => ⟨same, [], (List.append_nil _).symm, rfl⟩

theorem Writes.bind {p q : Prog emits Unit} {a b : Text} (first : Writes s p a)
    (later : Writes s q b) : Writes s (p >>= fun _ => q) (a ++ b) := by
  intro u same
  obtain ⟨same', new, out, rfl⟩ := first u same
  obtain ⟨last, new', out', rfl⟩ := later (p.run u).2 same'
  refine ⟨last, new ++ new', ?_, render_append new new'⟩
  change (q.run (p.run u).2).2.out = _
  rw [out', out, List.append_assoc]

theorem Writes.cast {p : Prog emits Unit} {a b : Text} (writes : Writes s p a) (same : a = b) :
    Writes s p b := same ▸ writes

theorem writes_gets {f : St → α} {k : α → Prog emits Unit} {t : Text}
    (same : ∀ {u}, Same s u → k (f u) = k (f s)) (later : Writes s (k (f s)) t) :
    Writes s (Prog.gets f >>= k) t := by
  intro u here
  change Same s ((k (f u)).run u).2 ∧ ∃ new, ((k (f u)).run u).2.out = _ ∧ _
  rw [same here]
  exact later u here

theorem writes_emit (p : Piece) (plain : ∀ k, p ≠ .index k) :
    Writes s (emit p plain) (pieceText p) := by
  intro u same
  refine ⟨⟨same.nd, same.cls, same.cc, same.locals, same.err, same.number, same.names⟩, [p], rfl,
    ?_⟩
  exact List.append_nil _

theorem writes_opS (t : String) : Writes s (opS t) t.toList := writes_emit _ _

theorem writes_opName (t : Text) : Writes s (opName t) t := writes_emit _ _

theorem writes_opN (n : Int) : Writes s (opN n) (opText n) := writes_emit _ _

theorem writes_opField {name : Text} {k : Nat} (found : fieldHere name s = some k) :
    Writes s (opField name) (opText k) := by
  intro u same
  have here : fieldHere name u = some k := (same.fieldHere name).trans found
  have run : ((opField name).run u).2 = { u with out := u.out ++ [.index k] } := by
    simp only [opField, Prog.change, here]
  rw [run]
  refine ⟨⟨same.nd, same.cls, same.cc, same.locals, same.err, same.number, same.names⟩, [_], rfl,
    ?_⟩
  exact List.append_nil _

theorem writes_ident (name : Text) :
    Writes s (emitIdent name) (text (lower (.var (identVar s name)))) := by
  unfold emitIdent identVar
  by_cases own : name = "self".toList
  · rw [if_pos own, if_pos own]
    exact writes_opS _
  · rw [if_neg own, if_neg own]
    refine writes_gets (fun same => by rw [same.fieldHere name]) ?_
    cases found : fieldHere name s with
    | none =>
      refine ((writes_opS _).bind (writes_opName name)).cast ?_
      rfl
    | some k =>
      refine ((writes_opS _).bind ((writes_opField found).bind (writes_opS _))).cast ?_
      exact (List.append_assoc _ _ _).symm

theorem writes_initOf {ci : Nat} {k : Option Nat → Prog emits Unit} {t : Text}
    (later : Writes s (k (initIn s ci)) t) : Writes s (initOf ci >>= k) t := by
  intro u same
  have run : ((initOf ci).run u).1 = initIn s ci ∧ Same s ((initOf ci).run u).2 ∧
      ((initOf ci).run u).2.out = u.out := by
    unfold initOf initIn
    rw [Prog.run_bind, Prog.run_gets, same.cls]
    cases s.cls[ci]? with
    | none => exact ⟨rfl, same, rfl⟩
    | some c =>
      by_cases declared : (c.methods.any fun m => m.name = "init".toList) = true
      · simp only [declared, if_true]
        rw [Prog.run_bind]
        refine ⟨congrArg some same.number, ?_, rfl⟩
        obtain ⟨new, grown, _⟩ := methIdIn_grows u.mname "init".toList
        refine ⟨same.nd, same.cls, same.cc, same.locals, same.err, ?_, ?_⟩
        · exact (congrArg Prod.fst (number_again (by decide))).trans same.number
        · exact same.names.trans ⟨new, grown.symm⟩
      · simp only [declared, if_false, Bool.false_eq_true]
        exact ⟨rfl, same, rfl⟩
  obtain ⟨value, here, out⟩ := run
  have writes := later ((initOf ci).run u).2 here
  change Same s ((k ((initOf ci).run u).1).run ((initOf ci).run u).2).2 ∧
    ∃ new, ((k ((initOf ci).run u).1).run ((initOf ci).run u).2).2.out = _ ∧ _
  rw [value, ← out]
  exact writes

end Writing

attribute [local simp] lower lowers Callee.code Const.code fill applied quoted comma text texts
  moreTexts

section Operands

variable {s : St} {code : Nat → Prog emits Unit} {sub : Nat → Option Expr} {args : List Nat}
variable {es : List Expr}

def Codes (s : St) (code : Nat → Prog emits Unit) (sub : Nat → Option Expr) : Prop :=
  ∀ i e, sub i = some e → Writes s (code i) (text (lower e))

theorem operands_of_mapM (read : args.mapM sub = some es) :
    List.Forall₂ (fun i e => sub i = some e) args es := by
  induction args generalizing es with
  | nil =>
    obtain rfl := Option.some.inj (List.mapM_nil.symm.trans read)
    exact .nil
  | cons i args ih =>
    rw [List.mapM_cons] at read
    obtain ⟨e, first, rest⟩ := Option.bind_eq_some_iff.mp read
    obtain ⟨es', later, equal⟩ := Option.bind_eq_some_iff.mp rest
    obtain rfl := Option.some.inj equal
    exact .cons first (ih later)

/-- A node whose code is made of its operands has expressions for them. -/
theorem operands_cases {f : List Expr → Option Expr} {e : Expr}
    (tree : (args.mapM sub >>= f) = some e) :
    ∃ es, List.Forall₂ (fun i e => sub i = some e) args es ∧ f es = some e := by
  obtain ⟨es, operands, tree⟩ := Option.bind_eq_some_iff.mp tree
  exact ⟨es, operands_of_mapM operands, tree⟩

def operandText (es : List Expr) (k : Nat) : Text :=
  match es[k]? with
  | some e => text (lower e)
  | none => "v_int(0)".toList

theorem writes_operand (codes : Codes s code sub)
    (read : List.Forall₂ (fun i e => sub i = some e) args es) (k : Nat) :
    Writes s (match args[k]? with
      | some e => code e
      | none => opS "v_int(0)") (operandText es k) := by
  unfold operandText
  induction read generalizing k with
  | nil => exact writes_opS _
  | @cons i e args es first _ ih =>
    cases k with
    | zero => exact codes i e first
    | succ k => exact ih k

def filledText (es : List Expr) : Text :=
  comma ++ operandText es 0 ++ (comma ++ operandText es 1 ++
    (comma ++ operandText es 2 ++ (comma ++ operandText es 3)))

theorem writes_filled (codes : Codes s code sub)
    (read : List.Forall₂ (fun i e => sub i = some e) args es) :
    Writes s (emitArgsFilled code args) (filledText es) := by
  have one : ∀ k, Writes s (opS ", " >>= fun _ => match args[k]? with
      | some e => code e
      | none => opS "v_int(0)") (comma ++ operandText es k) :=
    fun k => (writes_opS ", ").bind (writes_operand codes read k)
  refine ((one 0).bind ((one 1).bind ((one 2).bind ((one 3).bind writes_pure)))).cast ?_
  rw [List.append_nil]
  rfl

theorem text_zero : text (Const.code (.int 0)) = "v_int(0)".toList := by
  simp only [Const.code, text, texts, moreTexts]
  rfl

theorem moreTexts_filled (es : List Expr) :
    moreTexts (fill Const.code (fun x => .val "v_int_of" [x]) filled (lowers es)) =
      filledText es := by
  match es with
  | [] => simp only [filled, lowers, fill, moreTexts, filledText, operandText, text_zero,
      List.getElem?_nil, List.append_nil, List.append_assoc]
  | [a] => simp [filled, filledText, operandText, opText_zero]
  | [a, b] => simp [filled, filledText, operandText, opText_zero]
  | [a, b, c] => simp [filled, filledText, operandText, opText_zero]
  | a :: b :: c :: d :: _ => simp [filled, filledText, operandText]

theorem writes_list (codes : Codes s code sub)
    (read : List.Forall₂ (fun i e => sub i = some e) args es) :
    Writes s (emitList code args) (texts (lowers es)) := by
  induction read with
  | nil => exact writes_pure
  | @cons i e args es first rest ih =>
    cases rest with
    | nil => exact (codes i e first).cast (List.append_nil _).symm
    | @cons j f args es second later =>
      refine ((codes i e first).bind ((writes_opS ", ").bind ih)).cast ?_
      change _ = text (lower e) ++ (comma ++ text (lower f) ++ moreTexts (lowers es))
      rw [List.append_assoc]
      rfl

theorem lowers_length (es : List Expr) : (lowers es).length = es.length := by
  induction es with
  | nil => rfl
  | cons e es ih => exact congrArg Nat.succ ih

theorem fill_args (es : List CExpr) :
    fill Const.code (fun x => .val "v_int_of" [x]) (List.replicate es.length .arg) es = es := by
  induction es with
  | nil => rfl
  | cons e es ih => exact congrArg (List.cons e) ih

def firstText (missing : String) : List Expr → Text
  | [] => missing.toList
  | e :: _ => text (lower e)

theorem writes_first (codes : Codes s code sub)
    (read : List.Forall₂ (fun i e => sub i = some e) args es) (missing : String) :
    Writes s (emitFirst code args missing) (firstText missing es) := by
  cases read with
  | nil => exact writes_opS _
  | cons first _ => exact codes _ _ first

theorem writes_wrapped {inner : Prog emits Unit} {t : Text} (fn : String)
    (writes : Writes s inner t) :
    Writes s (emitWrapped fn inner) (fn.toList ++ ("(".toList ++ (t ++ ")".toList))) :=
  (writes_opS fn).bind ((writes_opS "(").bind (writes.bind (writes_opS ")")))

theorem writes_spawn {args : Prog emits Unit} (ci : Nat) (im : Option Nat)
    (writes : Writes s args (filledText es)) :
    Writes s (emitSpawn ci im args) (text (lower (spawned ci im false es))) := by
  unfold emitSpawn
  cases im with
  | some im =>
    refine ((writes_opS _).bind ((writes_opN ci).bind ((writes_opS _).bind ((writes_opN im).bind
      (writes.bind (writes_opS _)))))).cast ?_
    rw [← moreTexts_filled]
    simp [spawned]
  | none =>
    refine ((writes_opS _).bind ((writes_opN ci).bind (writes_opS _))).cast ?_
    simp [spawned]

end Operands

section Kinds

variable {s : St} {code : Nat → Prog emits Unit} {sub : Nat → Option Expr} {node : Node}
variable {es : List Expr} {node : Node}

theorem writes_node {i : Nat} {k : Node → Prog emits Unit} {t : Text}
    (later : Writes s (k (s.nd.getD i (blank .nil))) t) : Writes s (nodeAt i >>= k) t :=
  writes_gets (fun same => by rw [same.nd]) later

theorem writes_mName {mid : Nat} (inside : mid < s.mname.length) :
    Writes s (emitMName mid) (s.mname.getD mid []) := by
  refine writes_gets (fun {u} same => congrArg opName ?_) (writes_opName _)
  obtain ⟨new, longer⟩ := same.names
  rw [← longer, List.getD_eq_getElem?_getD, List.getElem?_append_left inside,
    ← List.getD_eq_getElem?_getD]

theorem text_int (n : Int) : text (.val "v_int" [.num n]) =
    "v_int".toList ++ ("(".toList ++ (opText n ++ ")".toList)) := by
  simp

variable (codes : Codes s code sub)

include codes

theorem writes_call {target : Expr} {es : List Expr} (fn : String) (here : sub node.a = some target)
    (read : List.Forall₂ (fun i e => sub i = some e) node.args es) :
    Writes s (emitCall code fn node)
      (fn.toList ++ ("(v_int_of(".toList ++ (text (lower target) ++ ("), ".toList ++
        (opText node.mid ++ filledText es))))) :=
  (writes_opS fn).bind ((writes_opS _).bind ((codes _ _ here).bind ((writes_opS _).bind
    ((writes_opN node.mid).bind (writes_filled codes read)))))

theorem writes_message {target : Expr} {es : List Expr} (fn : String)
    (here : sub node.a = some target)
    (read : List.Forall₂ (fun i e => sub i = some e) node.args es) :
    Writes s (emitCall code fn node >>= fun _ => opS ")")
      (text (lower (message fn node.mid target es))) := by
  refine ((writes_call codes fn here read).bind (writes_opS _)).cast ?_
  rw [← moreTexts_filled]
  simp [message]

theorem writes_remote {host actor : Expr} (few : es.length ≤ 1) (inside : node.mid < s.mname.length)
    (first : sub ((s.nd.getD node.a (blank .nil)).args.getD 0 0) = some host)
    (second : sub ((s.nd.getD node.a (blank .nil)).args.getD 1 0) = some actor)
    (read : List.Forall₂ (fun i e => sub i = some e) node.args es) :
    Writes s (emitRemoteCall code node 2000 none)
      (text (lower (remote host actor (s.mname.getD node.mid []) es 2000))) := by
  have single : ¬ 1 < node.args.length := by
    rw [read.length_eq]
    exact Nat.not_lt.mpr few
  unfold emitRemoteCall
  refine writes_node ?_
  simp only [if_neg single]
  refine ((writes_opS _).bind ((codes _ _ first).bind ((writes_opS _).bind ((codes _ _ second).bind
    ((writes_opS _).bind ((writes_mName inside).bind ((writes_opS _).bind
      ((writes_first codes read "v_int(0)").bind ((writes_opS _).bind ((writes_opN 2000).bind
        ((writes_opS _).bind writes_pure))))))))))).cast ?_
  match es with
  | [] => simp [remote, opText_zero, firstText]
  | [e] => simp [remote, firstText]
  | _ :: _ :: _ => exact absurd few (by simp)

theorem writes_toObject {e : Expr} (tree : toObject s sub node = some e) :
    Writes s (do
      if (← nodeAt node.a).k = .remote then emitRemoteCall code node 2000 none
      else
        emitCall code "__now" node
        opS ")") (text (lower e)) := by
  unfold toObject at tree
  obtain ⟨es, read, tree⟩ := operands_cases tree
  refine writes_node ?_
  by_cases far : (s.nd.getD node.a (blank .nil)).k = .remote
  · rw [if_pos far] at tree ⊢
    split_ifs at tree with bad
    rw [not_or, Nat.not_lt, Nat.not_le] at bad
    obtain ⟨host, first, tree⟩ := Option.bind_eq_some_iff.mp tree
    obtain ⟨actor, second, tree⟩ := Option.bind_eq_some_iff.mp tree
    obtain rfl := Option.some.inj tree
    exact writes_remote codes bad.1 bad.2 first second read
  · rw [if_neg far] at tree ⊢
    obtain ⟨target, found, tree⟩ := Option.bind_eq_some_iff.mp tree
    obtain rfl := Option.some.inj tree
    exact writes_message codes "__now" found read

theorem writes_one {args : List Nat} (fn : String)
    (read : List.Forall₂ (fun i e => sub i = some e) args es) :
    Writes s (emitWrapped fn (emitFirst code args "v_int(0)"))
      (text (lower (.call ⟨fn.toList, [.arg], false⟩ es))) := by
  refine (writes_wrapped fn (writes_first codes read _)).cast ?_
  cases es with
  | nil => simp [firstText, opText_zero]
  | cons e es => simp [firstText]

theorem writes_kind {e : Expr} (tree : exprOf s sub node = some e) :
    Writes s (emitKind code node) (text (lower e)) := by
  unfold exprOf at tree
  unfold emitKind
  cases kind : node.k
  all_goals rw [kind] at tree
  case nil =>
    obtain rfl := Option.some.inj tree
    exact (writes_opS _).cast text_zero.symm
  case int =>
    obtain rfl := Option.some.inj tree
    refine (writes_wrapped "v_int" (writes_opN (asLong node.num))).cast ?_
    rw [lower]
    exact (text_int (asLong node.num)).symm
  case bool =>
    obtain rfl := Option.some.inj tree
    refine (writes_wrapped "v_bool" (writes_opN node.num)).cast ?_
    simp
  case flt =>
    cases tree
  case str =>
    obtain rfl := Option.some.inj tree
    refine ((writes_opS _).bind ((writes_opName node.s).bind (writes_opS _))).cast ?_
    simp
  case id =>
    obtain rfl := Option.some.inj tree
    exact writes_ident node.s
  case new =>
    obtain ⟨es, read, tree⟩ := operands_cases tree
    refine writes_initOf ?_
    split_ifs at tree with bad
    rw [if_neg bad]
    obtain rfl := Option.some.inj tree
    refine (writes_wrapped "v_int" (writes_spawn node.ci (initIn s node.ci)
      (writes_filled codes read))).cast ?_
    cases initIn s node.ci with
    | none => simp [spawned]
    | some im => simp [spawned]
  case rt =>
    obtain ⟨es, read, tree⟩ := operands_cases tree
    obtain rfl := Option.some.inj tree
    refine (writes_wrapped node.s2 (writes_list codes read)).cast ?_
    have same := fill_args (lowers es)
    rw [lowers_length] at same
    simp [same]
  case selfcall =>
    obtain ⟨es, read, tree⟩ := operands_cases tree
    obtain rfl := Option.some.inj tree
    refine writes_gets (fun same => by rw [same.cc, same.cls]) ?_
    refine ((writes_opS _).bind ((writes_opName _).bind ((writes_opS _).bind ((writes_opName _).bind
      ((writes_opS _).bind ((writes_filled codes read).bind
        (writes_opS _))))))).cast ?_
    rw [← moreTexts_filled]
    simp [varText_self, ownFunction]
  case print =>
    obtain ⟨es, read, tree⟩ := operands_cases tree
    obtain rfl := Option.some.inj tree
    exact writes_one codes "v_print" read
  case aicall =>
    obtain ⟨es, read, tree⟩ := operands_cases tree
    obtain rfl := Option.some.inj tree
    refine (writes_wrapped "v_ai_call" (writes_first codes read _)).cast ?_
    cases es with
    | nil => simp [firstText]
    | cons e es => simp [firstText]
  case remote | awaitdl | nowdl =>
    cases tree
  case now =>
    exact writes_toObject codes tree
  case wait =>
    obtain ⟨es, read, tree⟩ := operands_cases tree
    obtain rfl := Option.some.inj tree
    exact writes_one codes "cc_wait" read
  case spawn =>
    obtain rfl := Option.some.inj tree
    refine writes_initOf ?_
    have zeros : Writes s zeroArgs (filledText []) := (writes_opS _).cast rfl
    refine ((writes_opS _).bind ((writes_opName node.s).bind ((writes_opS _).bind
      ((writes_spawn node.ci (initIn s node.ci) zeros).bind (writes_opS _))))).cast ?_
    simp
  case web =>
    by_cases listen : node.num = 0
    · simp only [listen, if_true, ne_eq, not_true_eq_false, if_false] at tree ⊢
      obtain ⟨es, read, tree⟩ := operands_cases tree
      obtain rfl := Option.some.inj tree
      exact writes_one codes "cc_web_listen" read
    · simp only [listen, if_false, ne_eq, not_false_eq_true, if_true] at tree ⊢
      split at tree
      · next path actor shape =>
        obtain ⟨e', here, tree⟩ := Option.bind_eq_some_iff.mp tree
        obtain rfl := Option.some.inj tree
        rw [shape]
        refine ((writes_opS _).bind ((codes _ _ here).bind ((writes_opS _).bind (writes_node
          ((writes_opName _).bind (writes_opS _)))))).cast ?_
        simp [varText_name]
      · cases tree
  case fut =>
    obtain ⟨target, here, tree⟩ := Option.bind_eq_some_iff.mp tree
    obtain ⟨es, read, tree⟩ := operands_cases tree
    obtain rfl := Option.some.inj tree
    exact writes_message codes "cc_future" here read
  case await =>
    obtain ⟨a, here, tree⟩ := Option.bind_eq_some_iff.mp tree
    obtain rfl := Option.some.inj tree
    refine (writes_wrapped "cc_await" (codes _ _ here)).cast ?_
    simp
  case un =>
    obtain ⟨a, here, tree⟩ := Option.bind_eq_some_iff.mp tree
    obtain rfl := Option.some.inj tree
    by_cases negation : node.op = .not
    · rw [if_pos negation]
      refine (writes_wrapped "v_not" (codes _ _ here)).cast ?_
      simp [negation]
    · rw [if_neg negation]
      refine ((writes_opS _).bind ((codes _ _ here).bind (writes_opS _))).cast ?_
      simp [negation, opText_zero]
  case bin =>
    obtain ⟨a, left, tree⟩ := Option.bind_eq_some_iff.mp tree
    obtain ⟨b, right, tree⟩ := Option.bind_eq_some_iff.mp tree
    obtain rfl := Option.some.inj tree
    cases swap : (callName node.op).2 with
    | false =>
      simp only [swap, Bool.false_eq_true, if_false]
      refine ((writes_opS _).bind ((writes_opS _).bind ((codes _ _ left).bind ((writes_opS _).bind
        ((codes _ _ right).bind (writes_opS _)))))).cast ?_
      simp [swap]
    | true =>
      simp only [swap, if_true]
      refine ((writes_opS _).bind ((writes_opS _).bind ((codes _ _ right).bind ((writes_opS _).bind
        ((codes _ _ left).bind (writes_opS _)))))).cast ?_
      simp [swap]

end Kinds

theorem writes_at (s : St) (sound : s.lex.err = none) (depth : Nat) :
    Codes s (emitNode depth) (exprAt s depth) := by
  induction depth with
  | zero =>
    intro i e tree
    cases tree
  | succ depth ih =>
    intro i e tree
    unfold exprAt at tree
    split_ifs at tree with bad
    rw [not_or] at bad
    refine writes_gets (f := fun s => s.lex.err.isSome) (fun same => by rw [same.err]) ?_
    have goes : ¬ (i = 0 ∨ maxNode ≤ i ∨ s.lex.err.isSome = true) := by
      rw [sound]
      exact fun either => either.elim bad.1 fun rest => rest.elim bad.2 Bool.noConfusion
    rw [if_neg goes]
    exact writes_node (writes_kind ih tree)

def parseAt (src : Text) : Nat × St :=
  (parsers 20 20).expr.run { start src with lex := (start src).lex.next }

def recorder : Runtime Word (List Word) :=
  runtime (fun _ _ => .int 0) (fun _ vs log => (.int log.length, log ++ (vs[1]?).toList)) (.raw 0)
    (fun _ => .int 0) fun _ _ => .int 0

def noCall : Text := "2>x;".toList

def twoCalls : Text := "now a.f()>now b.g();".toList

end XinuRpi5.Cc.ExprCode
