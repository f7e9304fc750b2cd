/- source: cc/parse.c
   digest: The parser ends on every list of tokens, and where it stands at the end of the list. -/

import XinuRpi5.Cc.ExprReads
import XinuRpi5.Lib.Reaching

/-!
Every loop and every recursion of the parser takes a token, or ends with an error. So with as much
fuel as there are tokens, and a little more, no bound on the recursion is reached. The tokens are
counted with the last one, which the parser looks at but does not take; the bound of an array is
the one place where a token is taken that was not looked at.
-/

namespace XinuRpi5.Cc.ParserStops

open Lib.RuledState Lib.Reaching Codegen Scoping
open Parse ExprTrees
open ExprReads (makeOp tryOps level level_eq infixes peek_run advance_run)

inductive BoundAtEof : Site accesses
  | bound {s : Parser} : s.tk = [.eof] → BoundAtEof Int arrayLength s

/-- There is no room in the arena; `cc_alloc` hands out one and the same buffer from then on. -/
inductive FullArena : Site accesses
  | full {n : Nat} {s : Parser} :
    s.arena.cap < s.arena.pos + (n + 15) / 16 * 16 → FullArena Unit (ccAlloc n) s

section Tokens

/-- At most so many tokens are left, the last of them `eof`; no null pointer was read and no bound
on the recursion reached. -/
structure Good (n : Nat) (s : Parser) : Prop where
  ends : ∃ l, s.tk = l ++ [.eof]
  short : s.tk.length ≤ n
  fine : s.fault = false
  bounded : s.spent = false

def Advanced (n : Nat) (s : Parser) : Prop := s.tk.length < n ∨ s.err.isSome

def Seen (n : Nat) (t : Token) (s : Parser) : Prop := Good n s ∧ s.tk.head? = some t

variable {n m : Nat} {s : Parser}

theorem Good.mono (good : Good n s) (le : n ≤ m) : Good m s :=
  ⟨good.ends, Nat.le_trans good.short le, good.fine, good.bounded⟩

theorem Good.some (good : Good n s) : 1 ≤ s.tk.length := by
  obtain ⟨l, is⟩ := good.ends
  rw [is, List.length_append]
  exact Nat.le_add_left 1 _

theorem not_good {m : Nat} (spent : m ≤ 0) (s : Parser) : ¬ Good m s := fun good => by
  have short := good.short
  have filled := good.some
  omega

theorem Good.advanced (good : Good (n - 1) s) : Advanced n s := by
  have short := good.short
  have filled := good.some
  left
  omega

theorem act_advanced (a : Act) (advanced : Advanced n s) : Advanced n (s.act a) := by
  cases a with
  | advance =>
    have shorter : s.tk.tail.length ≤ s.tk.length := by
      rw [List.length_tail]
      exact Nat.sub_le _ 1
    exact advanced.imp (Nat.lt_of_le_of_lt shorter) id
  | error msg => exact .inr rfl
  | alloc k =>
    show Advanced n (if _ then _ else _)
    split_ifs
    · exact .inr rfl
    · exact advanced
  | _ => exact advanced

theorem advanced_stable (n : Nat) (s t : Parser) (rel : accesses.rel s t)
    (advanced : Advanced n s) : Advanced n t := by
  obtain ⟨acts, rfl⟩ := rel
  induction acts generalizing s with
  | nil => exact advanced
  | cons a acts later => exact later (s.act a) (act_advanced a advanced)

theorem act_past (a : Act) (past : s.tk = []) : (s.act a).tk = [] := by
  cases a with
  | advance =>
    show s.tk.tail = []
    rw [past]
    rfl
  | alloc k =>
    show (if _ then _ else _ : Parser).tk = []
    split_ifs
    · exact past
    · exact past
  | _ => exact past

theorem past_stable (s t : Parser) (rel : accesses.rel s t) (past : s.tk = []) : t.tk = [] := by
  obtain ⟨acts, rfl⟩ := rel
  induction acts generalizing s with
  | nil => exact past
  | cons a acts later => exact later (s.act a) (act_past a past)

end Tokens

section Primitives

variable {α β : Type} {m : Nat} {post : α → Parser → Prop}

def Quiet (p : P α) : Prop := ∀ s,
  (p.run s).2.tk = s.tk ∧ (p.run s).2.fault = s.fault ∧ (p.run s).2.spent = s.spent

theorem Quiet.pure (a : α) : Quiet (pure a : P α) := fun _ => ⟨rfl, rfl, rfl⟩

theorem Quiet.gets (f : Parser → α) : Quiet (.gets f) := fun _ => ⟨rfl, rfl, rfl⟩

variable {p : P α}

theorem Quiet.bind {q : α → P β} (first : Quiet p) (rest : ∀ a, Quiet (q a)) :
    Quiet (p >>= q) := by
  intro s
  obtain ⟨tk, fault, spent⟩ := first s
  obtain ⟨tk', fault', spent'⟩ := rest (p.run s).1 (p.run s).2
  exact ⟨tk'.trans tk, fault'.trans fault, spent'.trans spent⟩

theorem Quiet.ite {c : Prop} [Decidable c] {p q : P α} (yes : Quiet p) (no : Quiet q) :
    Quiet (if c then p else q) := by
  split_ifs
  · exact yes
  · exact no

def silent : Act → Prop
  | .advance => False
  | .fault => False
  | .spend => False
  | _ => True

theorem Quiet.does {a : Act} (is : silent a) : Quiet (does a) := by
  intro s
  cases a with
  | advance => exact is.elim
  | fault => exact is.elim
  | spend => exact is.elim
  | alloc k =>
    show (if _ then _ else _ : Parser).tk = _ ∧ (if _ then _ else _ : Parser).fault = _ ∧
      (if _ then _ else _ : Parser).spent = _
    split_ifs
    · exact ⟨rfl, rfl, rfl⟩
    · exact ⟨rfl, rfl, rfl⟩
  | _ => exact ⟨rfl, rfl, rfl⟩

theorem Quiet.error (msg : String) : Quiet (ccError msg) := .does trivial

theorem Quiet.alloc (n : Nat) : Quiet (ccAlloc n) := .does trivial

theorem Good.of_same {n : Nat} {s t : Parser} (good : Good n s)
    (same : t.tk = s.tk ∧ t.fault = s.fault ∧ t.spent = s.spent) : Good n t := by
  obtain ⟨tk, fault, spent⟩ := same
  refine ⟨?_, ?_, fault.trans good.fine, spent.trans good.bounded⟩
  · rw [tk]
    exact good.ends
  · rw [tk]
    exact good.short

abbrev Holds (m : Nat) (p : P α) : Prop := Triple BoundAtEof (Good m) p fun _ => Good m

abbrev Goes (m : Nat) (p : P α) : Prop :=
  Triple BoundAtEof (Good m) p fun _ s => Good m s ∧ Advanced m s

theorem Quiet.holds (quiet : Quiet p) : Holds m p :=
  .same fun s good => good.of_same (quiet s)

theorem Quiet.seen (quiet : Quiet p) (t : Token) :
    Triple BoundAtEof (Seen m t) p fun _ => Seen m t :=
  .same fun s ⟨good, head⟩ => ⟨good.of_same (quiet s), by rw [(quiet s).1]; exact head⟩

theorem Goes.holds (goes : Goes m p) : Holds m p :=
  goes.weaken (fun _ => id) fun _ _ both => both.1

theorem Goes.bind {q : α → P β} (first : Goes m p) (rest : ∀ a, Holds m (q a)) :
    Goes m (p >>= q) :=
  Triple.bind first fun a => (rest a).along (advanced_stable m)

theorem Goes.taken (holds : Holds (m - 1) p) :
    Triple BoundAtEof (Good (m - 1)) p fun _ s => Good m s ∧ Advanced m s :=
  holds.weaken (fun _ => id) fun _ _ good => ⟨good.mono (Nat.sub_le m 1), good.advanced⟩

theorem Holds.fewer (holds : Holds (m - 1) p) :
    Triple BoundAtEof (Good (m - 1)) p fun _ => Good m :=
  holds.weaken (fun _ => id) fun _ _ good => good.mono (Nat.sub_le m 1)

theorem peek_triple : Triple BoundAtEof (Good m) peek fun t => Seen m t := by
  intro s good
  left
  obtain ⟨l, is⟩ := good.ends
  have filled := good.some
  cases tk : s.tk with
  | nil =>
    rw [tk] at filled
    exact absurd filled (by decide)
  | cons t rest =>
    rw [peek_run tk]
    exact ⟨good, congrArg List.head? tk⟩

def Long (m : Nat) (s : Parser) : Prop := Good m s ∧ s.tk ≠ [.eof]

theorem Quiet.long (quiet : Quiet p) : Triple BoundAtEof (Long m) p fun _ => Long m :=
  .same fun s ⟨good, more⟩ => ⟨good.of_same (quiet s), by rw [(quiet s).1]; exact more⟩

theorem advance_long : Triple BoundAtEof (Long m) advance fun _ => Good (m - 1) := by
  rintro s ⟨good, more⟩
  left
  obtain ⟨l, is⟩ := good.ends
  cases l with
  | nil => exact absurd is more
  | cons x l =>
    rw [advance_run is]
    have short := good.short
    rw [is, List.length_append, List.length_cons] at short
    refine ⟨⟨l, rfl⟩, ?_, good.fine, good.bounded⟩
    show (l ++ [Token.eof]).length ≤ m - 1
    rw [List.length_append]
    omega

theorem advance_triple {t : Token} (other : t ≠ .eof) :
    Triple BoundAtEof (Seen m t) advance fun _ => Good (m - 1) := by
  refine advance_long.weaken (fun s ⟨good, head⟩ => ⟨good, fun last => ?_⟩) fun _ _ => id
  rw [last] at head
  exact other (Option.some.inj head).symm

theorem looking_triple (w : String) : Triple BoundAtEof (Good m) (looking w)
    fun b s => if b then Seen m (.punct w) s else Good m s := by
  intro s good
  left
  show if isPunct s.tk.head? w = true then _ else _
  split_ifs with sees
  · exact ⟨good, of_decide_eq_true sees⟩
  · exact good

theorem lookingAny_triple (w : String) : Triple BoundAtEof (Good m) (lookingAny w)
    fun b s => if b then Seen m (.punct w) s ∨ Seen m (.kw w) s else Good m s := by
  intro s good
  left
  show if (isPunct s.tk.head? w || isKw s.tk.head? w) = true then _ else _
  split_ifs with sees
  · rcases (Bool.or_eq_true _ _).mp sees with sees | sees
    · exact .inl ⟨good, of_decide_eq_true sees⟩
    · exact .inr ⟨good, of_decide_eq_true sees⟩
  · exact good

theorem taken_triple (w : String) :
    Triple BoundAtEof (fun s => Seen m (.punct w) s ∨ Seen m (.kw w) s) advance
      fun _ => Good (m - 1) := by
  rintro s (seen | seen)
  · exact advance_triple (by nofun) s seen
  · exact advance_triple (by nofun) s seen

theorem ifConsume {w : String} {yes no : P α}
    (taken : Triple BoundAtEof (Good (m - 1)) yes post)
    (other : Triple BoundAtEof (Good m) no post) :
    Triple BoundAtEof (Good m) (consume w >>= fun b => if b = true then yes else no) post := by
  have consumed : Triple BoundAtEof (Good m) (consume w)
      fun b s => if b then Good (m - 1) s else Good m s := by
    refine (lookingAny_triple w).bind fun b => ?_
    cases b with
    | false => exact Triple.pure fun _ => id
    | true => exact (taken_triple w).bind fun _ => Triple.pure fun _ => id
  refine consumed.bind fun b => ?_
  cases b with
  | false => exact other
  | true => exact taken

theorem ifLooking {w : String} {yes no : P α}
    (seen : Triple BoundAtEof (Seen m (.punct w)) yes post)
    (other : Triple BoundAtEof (Good m) no post) :
    Triple BoundAtEof (Good m) (looking w >>= fun b => if b = true then yes else no) post := by
  refine (looking_triple w).bind fun b => ?_
  cases b with
  | false => exact other
  | true => exact seen

theorem expect_holds (w : String) : Holds m (expect w) := by
  refine (lookingAny_triple w).bind fun b => ?_
  cases b with
  | false => exact (Quiet.error _).holds
  | true => exact (taken_triple w).weaken (fun _ => id) fun _ _ good => good.mono (Nat.sub_le m 1)

theorem arrayLength_holds : Holds m arrayLength := by
  intro s good
  by_cases last : s.tk = [.eof]
  · exact .inr (.here (.bound last))
  · have peeked : Triple BoundAtEof (Long m) peek fun _ => Long m := by
      rintro s ⟨good, more⟩
      obtain ⟨l, is⟩ := good.ends
      left
      cases l with
      | nil => exact absurd is more
      | cons x l =>
        rw [peek_run is]
        exact ⟨good, more⟩
    have behind (len : Int) : Triple BoundAtEof (Long m)
        (advance >>= fun _ => expect "]" >>= fun _ => pure len) fun _ => Good m :=
      advance_long.bind fun _ => (expect_holds "]").bind fun _ =>
        Triple.pure fun _ good => good.mono (Nat.sub_le m 1)
    have long : Triple BoundAtEof (Long m) arrayLength fun _ => Good m := by
      refine peeked.bind fun t => ?_
      cases t with
      | num val => exact behind _
      | _ => exact (Quiet.error _).long.bind fun _ => behind _
    exact long s ⟨good, last⟩

end Primitives

section Types

variable {m : Nat}

theorem Quiet.tyPtrTo (ty : CType) : Quiet (tyPtrTo ty) :=
  (Quiet.alloc 32).bind fun _ => .pure _

theorem Quiet.tyArrayOf (ty : CType) (len : Int) : Quiet (tyArrayOf ty len) :=
  (Quiet.alloc 32).bind fun _ => (Quiet.gets _).bind fun _ => .pure _

theorem Quiet.failed {α : Type} (msg : String) (a : α) :
    Quiet (ccError msg >>= fun _ => Pure.pure a : P α) :=
  (Quiet.error msg).bind fun _ => .pure a

theorem stars_holds (fuel : Nat) (ty : CType) (enough : m ≤ fuel) : Holds m (stars fuel ty) := by
  induction fuel generalizing m ty with
  | zero =>
    exact Triple.never (not_good enough)
  | succ fuel later =>
    refine ifLooking ?_ (Quiet.pure ty).holds
    refine (advance_triple (by nofun)).bind fun _ => ?_
    refine (Quiet.tyPtrTo ty).holds.bind fun ty => ?_
    exact Holds.fewer (later ty (by omega))

theorem declspecWith_holds {structDecl : P CType} {fuel : Nat} (inner : Holds (m - 1) structDecl)
    (enough : m ≤ fuel) : Holds m (declspecWith structDecl fuel) := by
  have fewer : m - 1 ≤ fuel := by omega
  refine ifConsume (Holds.fewer (stars_holds fuel _ fewer)) ?_
  refine ifConsume (Holds.fewer (stars_holds fuel _ fewer)) ?_
  refine ifConsume (Holds.fewer (inner.bind fun ty => stars_holds fuel ty fewer)) ?_
  refine peek_triple.bind fun t => ?_
  cases t with
  | ident name =>
    refine ((Quiet.gets _).seen _).bind fun found => ?_
    cases found with
    | none => exact (Quiet.failed _ _).holds.weaken (fun _ seen => seen.1) fun _ _ => id
    | some ty =>
      refine ((Quiet.does (a := .usesType name) trivial).seen _).bind fun _ => ?_
      refine (advance_triple (by nofun)).bind fun _ => ?_
      exact Holds.fewer (stars_holds fuel ty fewer)
  | _ => exact (Quiet.failed _ _).holds.weaken (fun _ seen => seen.1) fun _ _ => id

theorem bound_holds {α : Type} {base : CType} {q : CType → P α} {n : Nat} {post : α → Parser → Prop}
    (rest : ∀ ty, Triple BoundAtEof (Good n) (q ty) post) :
    Triple BoundAtEof (Good n) (consume "[" >>= fun b =>
      if b = true then arrayLength >>= fun len => tyArrayOf base len >>= q else q base) post := by
  refine ifConsume ?_ (rest base)
  refine Triple.weaken ?_ (fun _ good => good.mono (Nat.sub_le n 1)) fun _ _ => id
  exact arrayLength_holds.bind fun len => (Quiet.tyArrayOf base len).holds.bind rest

theorem inside_holds {α : Type} {a : α} {p : P α} (inner : Holds m p) :
    Holds m (looking "\x7d" >>= fun b =>
      if b = true then pure a else peek >>= fun t => if t = .eof then pure a else p) := by
  refine ifLooking ((Quiet.pure _).holds.weaken (fun _ seen => seen.1) fun _ _ => id) ?_
  refine peek_triple.bind fun t => ?_
  refine Triple.weaken ?_ (fun _ seen => seen.1) fun _ _ => id
  show Holds m (if t = .eof then _ else _)
  split_ifs
  · exact (Quiet.pure _).holds
  · exact inner

theorem members_holds {declspec : P CType} (fuel : Nat) (off : Int)
    (inner : ∀ k ≤ m, Holds k declspec) (enough : m ≤ fuel) :
    Holds m (members declspec fuel off) := by
  induction fuel generalizing m off with
  | zero =>
    exact Triple.never (not_good enough)
  | succ fuel later =>
    have rest (off : Int) : Holds (m - 1) (members declspec fuel off) :=
      later off (fun k le => inner k (by omega)) (by omega)
    refine inside_holds ?_
    refine (inner m (Nat.le_refl m)).bind fun mty => ?_
    refine peek_triple.bind fun t => ?_
    cases t with
    | ident mname =>
      refine (advance_triple (by nofun)).bind fun _ => ?_
      refine bound_holds fun ty => Holds.fewer ?_
      refine (expect_holds ";").bind fun _ => ?_
      refine (Quiet.gets _).holds.bind fun size => ?_
      refine (Quiet.alloc 32).holds.bind fun _ => ?_
      refine (Quiet.gets _).holds.bind fun failed => ?_
      cases failed with
      | true => exact (Quiet.pure _).holds
      | false => exact (rest _).bind fun _ => (Quiet.pure _).holds
    | _ => exact (Quiet.failed _ _).holds.weaken (fun _ seen => seen.1) fun _ _ => id

theorem structRest_holds {fuel : Nat} (tag : Option String)
    (inner : ∀ k ≤ fuel, Holds k (structDecl fuel)) (enough : m ≤ fuel + 1) :
    Holds m (structRest (declspecWith (structDecl fuel) fuel) fuel tag) := by
  refine ifLooking ?_ ?_
  · refine (advance_triple (by nofun)).bind fun _ => ?_
    refine Holds.fewer ((Quiet.alloc 32).holds.bind fun _ => ?_)
    refine (Quiet.gets _).holds.bind fun id => ?_
    have rest : Holds (m - 1) (does (.newStruct tag) >>= fun _ =>
        members (declspecWith (structDecl fuel) fuel) fuel 0 >>= fun x => expect "\x7d" >>= fun _ =>
        does (.setLayout id ⟨pAlignUp x.2 8, x.1⟩) >>= fun _ => pure (CType.struct id)) := by
      refine (Quiet.does (a := .newStruct tag) trivial).holds.bind fun _ => ?_
      refine (members_holds fuel 0 (fun k le => ?_) (by omega)).bind fun x => ?_
      · exact declspecWith_holds (inner (k - 1) (by omega)) (by omega)
      · refine (expect_holds _).bind fun _ => ?_
        exact (Quiet.bind (Quiet.does (a := .setLayout id _) trivial) fun _ => .pure _).holds
    cases tag with
    | none => exact rest
    | some name => exact (Quiet.alloc 24).holds.bind fun _ => rest
  · cases tag with
    | none => exact (Quiet.failed _ _).holds
    | some name =>
      refine (Quiet.gets _).holds.bind fun found => ?_
      cases found with
      | none => exact (Quiet.failed _ _).holds
      | some id =>
        exact (Quiet.bind (Quiet.does (a := .usesTag name) trivial) fun _ => .pure _).holds

theorem structDecl_holds (fuel : Nat) (enough : m ≤ fuel) : Holds m (structDecl fuel) := by
  induction fuel generalizing m with
  | zero =>
    exact Triple.never (not_good enough)
  | succ fuel later =>
    have rest (k : Nat) (le : k ≤ m) (tag : Option String) :
        Holds k (structRest (declspecWith (structDecl fuel) fuel) fuel tag) :=
      structRest_holds tag (fun k le => later le) (by omega)
    rw [structDecl_eq]
    refine peek_triple.bind fun t => ?_
    cases t with
    | ident name =>
      refine (advance_triple (by nofun)).bind fun _ => ?_
      exact Holds.fewer (rest (m - 1) (Nat.sub_le m 1) _)
    | _ => exact (rest m (Nat.le_refl m) _).weaken (fun _ seen => seen.1) fun _ _ => id

theorem declspec_holds (fuel : Nat) (enough : m ≤ fuel) : Holds m (declspec fuel) :=
  declspecWith_holds (structDecl_holds fuel (by omega)) enough

end Types

theorem error_goes {m : Nat} (msg : String) : Goes m (ccError msg) := fun s good =>
  .inl ⟨good.of_same ((Quiet.error msg) s), .inr rfl⟩

theorem failing {α : Type} {m : Nat} (msg : String) {q : Unit → P α} (rest : ∀ u, Holds m (q u)) :
    Goes m (ccError msg >>= q) :=
  (error_goes msg).bind rest

theorem Quiet.newNode : Quiet newNode := Quiet.alloc 168

theorem Quiet.newNum (val : BitVec 64) : Quiet (newNum val) := Quiet.newNode.bind fun _ => .pure _

theorem Quiet.newBinary (k : Expr → Expr → Expr) (l r : Node) : Quiet (newBinary k l r) :=
  Quiet.newNode.bind fun _ => .pure _

theorem Quiet.stride (ty : CType) : Quiet (stride ty) := by
  unfold Parse.stride
  cases ty.base with
  | none => exact .pure 1
  | some base => exact .gets _

theorem Quiet.scale (r : Node) (sz : Int) : Quiet (scale r sz) :=
  (Quiet.newNum _).bind fun _ => .newBinary _ _ _

theorem Quiet.asPointer (l n : Node) : Quiet (asPointer l n) :=
  (Quiet.tyPtrTo _).bind fun _ => .pure _

theorem Quiet.scaled (op : Expr → Expr → Expr) (l r : Node) (ty : CType) :
    Quiet (Parse.stride ty >>= fun sz => Parse.scale r sz >>= fun scaled =>
      Parse.newBinary op l scaled >>= fun n => Parse.asPointer l n) :=
  (Quiet.stride ty).bind fun _ => (Quiet.scale r _).bind fun _ =>
    (Quiet.newBinary op l _).bind fun _ => .asPointer l _

theorem Quiet.newAdd (l r : Node) : Quiet (newAdd l r) := by
  unfold Parse.newAdd
  refine Quiet.ite (.newBinary _ _ _) (.ite (.failed _ _) ?_)
  cases tyIsPtrlike l.ty with
  | true => exact .scaled _ l r l.ty
  | false => exact .scaled _ r l r.ty

theorem Quiet.newSub (l r : Node) : Quiet (newSub l r) := by
  unfold Parse.newSub
  refine Quiet.ite (.newBinary _ _ _) (.ite (.scaled _ l r l.ty) (.ite ?_ (.failed _ _)))
  exact (Quiet.stride l.ty).bind fun _ => (Quiet.newBinary _ l r).bind fun _ =>
    (Quiet.newNum _).bind fun _ => .newBinary _ _ _

theorem Quiet.newDeref (lhs : Expr) (ty : CType) : Quiet (newDeref lhs ty) :=
  Quiet.newNode.bind fun _ => (Quiet.gets _).bind fun _ => .pure _

theorem Quiet.newMember (lhs : Expr) (mem : Member) : Quiet (newMember lhs mem) :=
  Quiet.newNode.bind fun _ => (Quiet.gets _).bind fun _ => .pure _

section Operands

variable {m fuel : Nat} {A : P Node}

theorem moreArgs_holds (fuel : Nat) (inner : ∀ k < m, Holds k A) (enough : m ≤ fuel) :
    Holds m (moreArgs A fuel) := by
  induction fuel generalizing m with
  | zero =>
    exact Triple.never (not_good enough)
  | succ fuel later =>
    rcases Nat.eq_zero_or_pos m with rfl | some
    · exact Triple.never (not_good (Nat.le_refl 0))
    · refine ifConsume (Holds.fewer ?_) (Quiet.pure _).holds
      refine (inner (m - 1) (by omega)).bind fun arg => ?_
      refine (later (fun k less => inner k (by omega)) (by omega)).bind fun rest => ?_
      exact (Quiet.pure _).holds

/-- An operand takes a token, or there is an error. -/
theorem primary_goes (inner : ∀ k < m, Holds k A) (enough : m ≤ fuel) :
    Goes m (primary A fuel) := by
  rcases Nat.eq_zero_or_pos m with rfl | some
  · exact Triple.never (not_good (Nat.le_refl 0))
  have here : Holds (m - 1) A := inner (m - 1) (by omega)
  refine ifConsume (Goes.taken (here.bind fun n => (expect_holds _).bind fun _ =>
    (Quiet.pure n).holds)) ?_
  refine peek_triple.bind fun t => ?_
  have other : Triple BoundAtEof (Seen m t)
      (ccError "expected expression" >>= fun _ => newNum 0)
      fun _ s => Good m s ∧ Advanced m s :=
    (failing _ fun _ => (Quiet.newNum 0).holds).weaken (fun _ seen => seen.1) fun _ _ => id
  cases t with
  | num val =>
    refine ((Quiet.newNum val).seen _).bind fun n => ?_
    refine (advance_triple (by nofun)).bind fun _ => ?_
    exact Goes.taken (Quiet.pure n).holds
  | str addr =>
    refine (Quiet.newNode.seen _).bind fun _ => ?_
    refine ((Quiet.tyPtrTo _).seen _).bind fun ty => ?_
    refine (advance_triple (by nofun)).bind fun _ => ?_
    exact Goes.taken (Quiet.pure _).holds
  | ident name =>
    refine (advance_triple (by nofun)).bind fun _ => Goes.taken ?_
    refine ifConsume (Holds.fewer ?_) ?_
    · refine Quiet.newNode.holds.bind fun _ => ?_
      refine (Quiet.does (a := .calls name) trivial).holds.bind fun _ => ?_
      have closing (args : List Expr) : Holds (m - 1 - 1) (expect ")" >>= fun _ =>
          pure (Node.mk (.call name args) .int)) :=
        (expect_holds ")").bind fun _ => (Quiet.pure _).holds
      refine ifLooking ((closing []).weaken (fun _ seen => seen.1) fun _ _ => id) ?_
      refine (inner _ (by omega)).bind fun arg => ?_
      exact (moreArgs_holds fuel (fun k less => inner k (by omega)) (by omega)).bind fun rest =>
        closing _
    · refine (Quiet.gets _).holds.bind fun found => ?_
      cases found with
      | none => exact ((Quiet.error _).bind fun _ => .newNum 0).holds
      | some v =>
        refine (Quiet.does (a := .uses name) trivial).holds.bind fun _ => ?_
        exact (Quiet.newNode.bind fun _ => (Quiet.gets _).bind fun _ => .pure _).holds
  | punct text => exact other
  | kw text => exact other
  | eof => exact other

theorem memberOf_holds (ty : Option CType) (notName notFound : String) :
    Holds m (memberOf ty notName notFound) := by
  refine peek_triple.bind fun t => ?_
  cases t with
  | ident name =>
    refine ((Quiet.gets _).seen _).bind fun found => ?_
    refine (advance_triple (by nofun)).bind fun _ => Holds.fewer ?_
    cases found with
    | none => exact (Quiet.failed _ _).holds
    | some mem => exact (Quiet.pure _).holds
  | _ => exact (Quiet.failed _ _).holds.weaken (fun _ seen => seen.1) fun _ _ => id

theorem postfixFrom_holds (fuel : Nat) (n : Node) (inner : ∀ k < m, Holds k A)
    (enough : m ≤ fuel) : Holds m (postfixFrom A fuel n) := by
  induction fuel generalizing m n with
  | zero =>
    exact Triple.never (not_good enough)
  | succ fuel later =>
    rcases Nat.eq_zero_or_pos m with rfl | some
    · exact Triple.never (not_good (Nat.le_refl 0))
    have rest (n : Node) : Holds (m - 1) (postfixFrom A fuel n) :=
      later n (fun k less => inner k (by omega)) (by omega)
    refine ifLooking ?_ (ifLooking ?_ (ifLooking ?_ (Quiet.pure n).holds))
    · refine (advance_triple (by nofun)).bind fun _ => Holds.fewer ?_
      refine (inner (m - 1) (by omega)).bind fun idx => ?_
      refine (expect_holds _).bind fun _ => ?_
      refine (Quiet.newAdd n idx).holds.bind fun add => ?_
      exact (Quiet.newDeref _ _).holds.bind rest
    · refine (advance_triple (by nofun)).bind fun _ => Holds.fewer ?_
      refine (memberOf_holds _ _ _).bind fun found => ?_
      cases found with
      | none => exact (Quiet.pure n).holds
      | some mem => exact (Quiet.newMember _ mem).holds.bind rest
    · refine (advance_triple (by nofun)).bind fun _ => Holds.fewer ?_
      refine (memberOf_holds _ _ _).bind fun found => ?_
      cases found with
      | none => exact (Quiet.pure n).holds
      | some mem =>
        exact (Quiet.newDeref _ _).holds.bind fun deref => (Quiet.newMember _ mem).holds.bind rest

theorem postfixExpr_goes (inner : ∀ k < m, Holds k A) (enough : m ≤ fuel) :
    Goes m (postfixExpr A fuel) :=
  (primary_goes inner enough).bind fun n => postfixFrom_holds fuel n inner enough

theorem deref_quiet (n : Node) : Quiet (if tyIsPtrlike n.ty = true then
    typeOf (n.ty.base.getD .int) >>= fun ty => pure (Node.mk (.deref n.e ty) (n.ty.base.getD .int))
    else ccError "dereference of non-pointer" >>= fun _ =>
      typeOf .int >>= fun ty => pure ⟨.deref n.e ty, .int⟩) :=
  .ite ((Quiet.gets _).bind fun _ => .pure _)
    ((Quiet.error _).bind fun _ => (Quiet.gets _).bind fun _ => .pure _)

theorem unary_goes (fuel : Nat) (inner : ∀ k < m, Holds k A) (enough : m + 1 ≤ fuel) :
    Goes m (unary A fuel) := by
  induction fuel generalizing m with
  | zero => exact absurd enough (by omega)
  | succ fuel later =>
    rcases Nat.eq_zero_or_pos m with rfl | some
    · exact Triple.never (not_good (Nat.le_refl 0))
    have operand : Holds (m - 1) (unary A fuel) :=
      (later (fun k less => inner k (by omega)) (by omega)).holds
    refine ifConsume (Goes.taken ?_) ?_
    · refine (Triple.gets _).bind fun isType => ?_
      cases isType with
      | false =>
        refine Triple.weaken ?_ (fun _ both => both.2) fun _ _ => id
        exact operand.bind fun e => ((Quiet.gets _).bind fun _ => .newNum _).holds
      | true =>
        have opens : ∀ s, (true = (isPunct s.tk.head? "(" && looksLikeType s s.tk.tail.head?) ∧
            Good (m - 1) s) → Seen (m - 1) (.punct "(") s := fun s ⟨sees, good⟩ =>
          ⟨good, of_decide_eq_true ((Bool.and_eq_true _ _).mp sees.symm).1⟩
        refine Triple.weaken ?_ opens fun _ _ => id
        refine (advance_triple (by nofun)).bind fun _ => Holds.fewer ?_
        refine (declspec_holds fuel (by omega)).bind fun ty => ?_
        refine (expect_holds _).bind fun _ => ?_
        exact ((Quiet.gets _).bind fun _ => .newNum _).holds
    refine ifConsume (Goes.taken operand) ?_
    refine ifConsume (Goes.taken (Quiet.newNode.holds.bind fun _ => operand.bind fun n =>
      (Quiet.pure _).holds)) ?_
    refine ifConsume (Goes.taken (Quiet.newNode.holds.bind fun _ => operand.bind fun n =>
      (Quiet.pure _).holds)) ?_
    refine ifConsume (Goes.taken (Quiet.newNode.holds.bind fun _ => operand.bind fun n =>
      (deref_quiet n).holds)) ?_
    refine ifConsume (Goes.taken (Quiet.newNode.holds.bind fun _ => operand.bind fun n =>
      ((Quiet.tyPtrTo _).bind fun _ => .pure _).holds)) ?_
    exact postfixExpr_goes inner (by omega)

end Operands

section Expressions

variable {m fuel : Nat} {A : P Node}

theorem Quiet.makeOp (o : InfixOp) (l r : Node) : Quiet (makeOp o l r) := by
  cases o with
  | add => exact .newAdd l r
  | sub => exact .newSub l r
  | gt => exact .newBinary _ r l
  | ge => exact .newBinary _ r l
  | _ => exact .newBinary _ l r

theorem tryOps_triple {operand : P Node} (inner : Holds (m - 1) operand) (ops : List InfixOp)
    (n : Node) : Triple BoundAtEof (Good m) (tryOps operand ops n)
      fun r s => if r.isSome then Good (m - 1) s else Good m s := by
  induction ops with
  | nil => exact Triple.pure fun _ => id
  | cons o rest later =>
    refine ifConsume ?_ later
    refine inner.bind fun r => ?_
    refine (Quiet.makeOp o n r).holds.bind fun made => ?_
    exact Triple.pure fun _ => id

theorem chain_holds {step : Node → P (Option Node)} (fuel : Nat) (n : Node)
    (turn : ∀ k ≤ m, ∀ n, Triple BoundAtEof (Good k) (step n)
      fun r s => if r.isSome then Good (k - 1) s else Good k s) (enough : m ≤ fuel) :
    Holds m (chain step fuel n) := by
  induction fuel generalizing m n with
  | zero =>
    exact Triple.never (not_good enough)
  | succ fuel later =>
    refine (turn m (Nat.le_refl m) n).bind fun r => ?_
    cases r with
    | none => exact Triple.pure fun _ => id
    | some n => exact Holds.fewer (later n (fun k le => turn k (by omega)) (by omega))

theorem level_goes {p : Nat} (d : Nat) (at_ : p + d = 7) (low : 1 ≤ p) (inner : ∀ k < m, Holds k A)
    (enough : m + 1 ≤ fuel) : Goes m (level A fuel p) := by
  induction d generalizing p m with
  | zero =>
    obtain rfl : p = 7 := at_
    exact unary_goes fuel inner enough
  | succ d later =>
    have next (k : Nat) (le : k ≤ m) : Goes k (level A fuel (p + 1)) :=
      later (by omega) (by omega) (fun j less => inner j (by omega)) (by omega)
    rw [level_eq A fuel low (by omega)]
    refine (next m (Nat.le_refl m)).bind fun n => ?_
    exact chain_holds fuel n
      (fun k le => tryOps_triple (next (k - 1) (by omega)).holds (infixes p)) (by omega)

theorem assign_goes (fuel : Nat) (enough : m + 2 ≤ fuel) : Goes m (assign fuel) := by
  induction fuel generalizing m with
  | zero => exact absurd enough (by omega)
  | succ fuel later =>
    rcases Nat.eq_zero_or_pos m with rfl | some
    · exact Triple.never (not_good (Nat.le_refl 0))
    have inner (k : Nat) (less : k < m) : Holds k (assign fuel) := (later (by omega)).holds
    have operand : Goes m (logor (assign fuel) fuel) :=
      level_goes 6 rfl (Nat.le_refl 1) inner (by omega)
    refine operand.bind fun n => ?_
    refine ifConsume (Holds.fewer ?_) (Quiet.pure n).holds
    refine Quiet.newNode.holds.bind fun _ => ?_
    exact (inner (m - 1) (by omega)).bind fun r => (Quiet.pure _).holds

theorem expr_goes (enough : m + 2 ≤ fuel) : Goes m (expr fuel) := assign_goes fuel enough

end Expressions

section Statements

variable {m fuel : Nat}

theorem exprStmt_goes (enough : m + 2 ≤ fuel) : Goes m (exprStmt fuel) := by
  refine Quiet.newNode.holds.bind fun _ => ?_
  refine (expr_goes enough).bind fun n => ?_
  exact (expect_holds ";").bind fun _ => (Quiet.pure _).holds

theorem declarator_triple (base : CType) (enough : m + 2 ≤ fuel) :
    Triple BoundAtEof (Good m) (declarator base fuel)
      fun r s => if r.isSome then Good (m - 1) s else Good m s ∧ Advanced m s := by
  refine peek_triple.bind fun t => ?_
  cases t with
  | ident name =>
    refine (advance_triple (by nofun)).bind fun _ => ?_
    refine bound_holds fun ty => ?_
    refine (Quiet.alloc 40).holds.bind fun _ => ?_
    refine (Quiet.gets _).holds.bind fun ref => ?_
    refine (Quiet.does (a := .newLocal name ty) trivial).holds.bind fun _ => ?_
    refine ifConsume ?_ (Triple.pure fun _ => id)
    refine Triple.weaken ?_ (fun _ good => good.mono (Nat.sub_le _ 1)) fun _ _ => id
    refine Quiet.newNode.holds.bind fun _ => ?_
    refine (Quiet.gets _).holds.bind fun lhs => ?_
    refine Quiet.newNode.holds.bind fun _ => ?_
    refine (assign_goes fuel (by omega)).holds.bind fun rhs => ?_
    refine Quiet.newNode.holds.bind fun _ => ?_
    exact Triple.pure fun _ => id
  | _ =>
    refine Triple.weaken ?_ (fun _ seen => seen.1) fun _ _ => id
    exact (error_goes _).bind fun _ => Triple.pure fun _ => id

theorem declarators_goes (base : CType) (more : Nat) (enough : m ≤ more) (fuelled : m + 2 ≤ fuel) :
    Goes m (declarators base fuel more) := by
  induction more generalizing m with
  | zero =>
    exact Triple.never (not_good enough)
  | succ more later =>
    refine (declarator_triple base fuelled).bind fun r => ?_
    cases r with
    | none => exact Triple.pure fun _ => id
    | some init =>
      refine Goes.taken ?_
      refine (Quiet.gets _).holds.bind fun failed => ?_
      cases failed with
      | true => exact (Quiet.pure _).holds
      | false =>
        refine ifConsume (Holds.fewer ?_) (Quiet.pure _).holds
        exact (later (by omega) (by omega)).holds.bind fun rest => (Quiet.pure _).holds

theorem declaration_goes (enough : m + 2 ≤ fuel) : Goes m (declaration fuel) := by
  refine (declspec_holds fuel (by omega)).bind fun base => ?_
  refine Quiet.newNode.holds.bind fun _ => ?_
  refine (declarators_goes base fuel (by omega) enough).bind fun inits => ?_
  exact (expect_holds ";").bind fun _ => (Quiet.pure _).holds

theorem stmts_holds {stmt : P Stmt} (more : Nat) (inner : ∀ k ≤ m, Goes k stmt) (enough : m ≤ more)
    (fuelled : m + 2 ≤ fuel) : Holds m (stmts stmt fuel more) := by
  induction more generalizing m with
  | zero =>
    exact Triple.never (not_good enough)
  | succ more later =>
    have turn (p : P Stmt) (goes : Goes m p) : Holds m (p >>= fun s => failed >>= fun b =>
        if b = true then pure [s] else stmts stmt fuel more >>= fun rest => pure (s :: rest)) := by
      refine Triple.bind goes fun s => ?_
      refine (Triple.gets fun s : Parser => s.err.isSome).bind fun b => ?_
      cases b with
      | true => exact Triple.pure fun _ both => both.2.1
      | false =>
        have taken : ∀ s, (false = s.err.isSome ∧ Good m s ∧ Advanced m s) → Good (m - 1) s := by
          rintro s ⟨none, good, advanced⟩
          rcases advanced with less | error
          · exact ⟨good.ends, by omega, good.fine, good.bounded⟩
          · rw [error] at none
            cases none
        refine Triple.weaken ?_ taken fun _ _ => id
        refine Holds.fewer ?_
        refine (later (fun k le => inner k (by omega)) (by omega) (by omega)).bind fun rest => ?_
        exact (Quiet.pure _).holds
    refine inside_holds ?_
    refine (Quiet.gets _).holds.bind fun isType => ?_
    cases isType with
    | true => exact turn _ (declaration_goes fuelled)
    | false => exact turn _ (inner m (Nat.le_refl m))

theorem number_holds (msg : String) (neg : Bool) : Holds m (peek >>= fun
    | .num val => advance >>= fun _ => pure (if neg then -val else val)
    | _ => ccError msg >>= fun _ => pure 0) := by
  refine peek_triple.bind fun t => ?_
  cases t with
  | num val =>
    refine (advance_triple (by nofun)).bind fun _ => ?_
    exact Holds.fewer (Quiet.pure _).holds
  | _ => exact (Quiet.failed _ _).holds.weaken (fun _ seen => seen.1) fun _ _ => id

theorem constant_holds (msg : String) : Holds m (constant msg) := by
  refine (looking_triple "-").bind fun neg => ?_
  cases neg with
  | false => exact number_holds msg false
  | true =>
    refine (advance_triple (by nofun)).bind fun _ => ?_
    exact Holds.fewer (number_holds msg true)

theorem optionalExpr_holds (stop : String) (enough : m + 2 ≤ fuel) :
    Holds m (optionalExpr fuel stop) := by
  refine ifLooking ((Quiet.pure _).holds.weaken (fun _ seen => seen.1) fun _ _ => id) ?_
  exact (expr_goes enough).holds.bind fun n => (Quiet.pure _).holds

theorem condition_holds (enough : m + 2 ≤ fuel) : Holds m (condition fuel) := by
  refine (expect_holds _).bind fun _ => ?_
  refine (expr_goes enough).holds.bind fun n => ?_
  exact (expect_holds _).bind fun _ => (Quiet.pure n).holds

theorem inBlock_holds {α : Type} {p : P α} (holds : Holds m p) : Holds m (inBlock p) := by
  refine (Quiet.does (a := .opens) trivial).holds.bind fun _ => ?_
  refine holds.bind fun a => ?_
  exact (Quiet.bind (Quiet.does (a := .closes) trivial) fun _ => .pure a).holds

theorem forRest_holds (init : Stmt) (inner : Holds m (stmt fuel)) (enough : m + 2 ≤ fuel) :
    Holds m (optionalExpr fuel ";" >>= fun cond => expect ";" >>= fun _ =>
      optionalExpr fuel ")" >>= fun inc => expect ")" >>= fun _ =>
      inBlock (stmt fuel) >>= fun body => pure (Stmt.floop init cond inc body)) :=
  (optionalExpr_holds ";" enough).bind fun _ => (expect_holds ";").bind fun _ =>
    (optionalExpr_holds ")" enough).bind fun _ => (expect_holds ")").bind fun _ =>
    (inBlock_holds inner).bind fun _ => (Quiet.pure _).holds

theorem label_holds {α : Type} (label : P α) (make : α → Stmt → Stmt) (msg : String)
    (before : Holds m label) (inner : Holds m (stmt fuel)) :
    Holds m (.gets (fun s => s.inSwitch) >>= fun inside => if ¬ inside = true then
      ccError msg >>= fun _ => label >>= fun val => expect ":" >>= fun _ => newNode >>= fun _ =>
        stmt fuel >>= fun body => pure (make val body)
      else label >>= fun val => expect ":" >>= fun _ => newNode >>= fun _ =>
        stmt fuel >>= fun body => pure (make val body)) := by
  have rest : Holds m (label >>= fun val => expect ":" >>= fun _ => newNode >>= fun _ =>
      stmt fuel >>= fun body => pure (make val body)) :=
    before.bind fun _ => (expect_holds ":").bind fun _ => Quiet.newNode.holds.bind fun _ =>
      inner.bind fun _ => (Quiet.pure _).holds
  refine (Quiet.gets _).holds.bind fun inside => ?_
  cases inside with
  | true => exact rest
  | false => exact (Quiet.error msg).holds.bind fun _ => rest

/-- A statement takes a token, or there is an error. -/
theorem stmt_goes (fuel : Nat) (enough : m + 3 ≤ fuel) : Goes m (stmt fuel) := by
  induction fuel generalizing m with
  | zero => exact absurd enough (by omega)
  | succ fuel later =>
    rcases Nat.eq_zero_or_pos m with rfl | filled
    · exact Triple.never (not_good (Nat.le_refl 0))
    have inner : Holds (m - 1) (stmt fuel) := (later (by omega)).holds
    have inner' : Holds (m - 1 - 1) (stmt fuel) := (later (by omega)).holds
    have body : Holds (m - 1) (inBlock (stmt fuel)) := inBlock_holds inner
    have cond : Holds (m - 1) (condition fuel) := condition_holds (by omega)
    have value : Holds (m - 1) (expr fuel) := (expr_goes (by omega)).holds
    have give {α : Type} (a : α) : Holds (m - 1) (pure a : P α) := (Quiet.pure a).holds
    have node : Holds (m - 1) newNode := Quiet.newNode.holds
    have word (w : String) : Holds (m - 1) (expect w) := expect_holds w
    -- return, if and while
    refine ifConsume (Goes.taken (node.bind fun _ => value.bind fun n => (word _).bind fun _ =>
      give _)) ?_
    refine ifConsume (Goes.taken (inBlock_holds (node.bind fun _ => cond.bind fun n =>
      body.bind fun yes => ?_))) ?_
    · exact ifConsume (Holds.fewer ((inBlock_holds inner').bind fun no => (Quiet.pure _).holds))
        ((give _).bind fun _ => give _)
    refine ifConsume (Goes.taken (inBlock_holds (node.bind fun _ => cond.bind fun n =>
      body.bind fun b => give _))) ?_
    -- for and switch
    refine ifConsume (Goes.taken (inBlock_holds (node.bind fun _ => (word _).bind fun _ => ?_))) ?_
    · refine ifConsume (Holds.fewer ((Quiet.pure _).holds.bind fun init => ?_)) ?_
      · exact forRest_holds init inner' (by omega)
      · refine node.bind fun _ => value.bind fun n => (word _).bind fun _ => ?_
        exact (give _).bind fun init => forRest_holds init inner (by omega)
    refine ifConsume (Goes.taken (inBlock_holds (node.bind fun _ => cond.bind fun n => ?_))) ?_
    · refine (Quiet.gets _).holds.bind fun prev => ?_
      refine (Quiet.does (a := .inSwitch true) trivial).holds.bind fun _ => ?_
      refine body.bind fun b => ?_
      exact (Quiet.bind (Quiet.does (a := .inSwitch prev) trivial) fun _ => .pure _).holds
    -- the labels of a switch
    refine ifConsume (Goes.taken ?_) ?_
    · exact label_holds _ (fun val s => .case (some val) s) _ (constant_holds _) inner
    refine ifConsume (Goes.taken ?_) ?_
    · exact label_holds (pure ()) (fun _ s => .case none s) _ (give ()) inner
    -- break and continue
    refine ifConsume (Goes.taken ((word _).bind fun _ => node.bind fun _ => give _)) ?_
    refine ifConsume (Goes.taken ((word _).bind fun _ => node.bind fun _ => give _)) ?_
    -- a block, and an expression
    refine ifLooking ?_ (exprStmt_goes (by omega))
    refine ((Quiet.does (a := .opens) trivial).seen _).bind fun _ => ?_
    have closing (a : Stmt) : Holds (m - 1) (does .closes >>= fun _ => pure a) :=
      (Quiet.bind (Quiet.does (a := .closes) trivial) fun _ => .pure a).holds
    have block : Triple BoundAtEof (Seen m (.punct "\x7b")) (advance >>= fun _ =>
        newNode >>= fun _ => stmts (stmt fuel) fuel fuel >>= fun body => expect "\x7d" >>= fun _ =>
        pure (Stmt.block body)) fun _ => Good (m - 1) := by
      refine (advance_triple (by nofun)).bind fun _ => ?_
      refine node.bind fun _ => ?_
      refine (stmts_holds fuel (fun k le => later (by omega)) (by omega) (by omega)).bind ?_
      exact fun b => (word _).bind fun _ => give _
    exact block.bind fun a => Goes.taken (closing a)

end Statements

section Programs

variable {m fuel : Nat}

theorem params_holds (more : Nat) (enough : m ≤ more) (fuelled : m ≤ fuel) :
    Holds m (params fuel more) := by
  induction more generalizing m with
  | zero =>
    exact Triple.never (not_good enough)
  | succ more later =>
    refine (declspec_holds fuel fuelled).bind fun ty => ?_
    refine peek_triple.bind fun t => ?_
    cases t with
    | ident name =>
      refine (advance_triple (by nofun)).bind fun _ => Holds.fewer ?_
      refine (Quiet.alloc 40).holds.bind fun _ => ?_
      refine (Quiet.gets _).holds.bind fun v => ?_
      refine (Quiet.does (a := .newLocal name ty) trivial).holds.bind fun _ => ?_
      refine ifConsume (Holds.fewer ?_) (Quiet.pure _).holds
      exact (later (by omega) (by omega)).bind fun rest => (Quiet.pure _).holds
    | _ => exact (Quiet.failed _ _).holds.weaken (fun _ seen => seen.1) fun _ _ => id

theorem functionRest_holds (ret : CType) (name : String) (enough : m + 3 ≤ fuel) :
    Holds m (functionRest fuel ret name) := by
  have closes : Holds m (does .closes) := (Quiet.does (a := .closes) trivial).holds
  have body (ps : List Var) : Holds m (looking "\x7b" >>= fun b => if b = true then
      stmt fuel >>= fun body => does (.addFunc name ret (ps.take 8) body) >>= fun _ => does .closes
      else ccError "expected function body" >>= fun _ => does .closes) := by
    refine ifLooking ?_ ((Quiet.error _).holds.bind fun _ => closes)
    refine Triple.weaken ?_ (fun _ seen => seen.1) fun _ _ => id
    refine (stmt_goes fuel enough).holds.bind fun body => ?_
    exact (Quiet.does (a := .addFunc name ret _ body) trivial).holds.bind fun _ => closes
  have rest (ps : List Var) : Holds m (expect ")" >>= fun _ => if 8 < ps.length then
      ccError "too many parameters (max 8)" >>= fun _ => looking "\x7b" >>= fun b =>
        if b = true then stmt fuel >>= fun body =>
          does (.addFunc name ret (ps.take 8) body) >>= fun _ => does .closes
        else ccError "expected function body" >>= fun _ => does .closes
      else looking "\x7b" >>= fun b => if b = true then stmt fuel >>= fun body =>
          does (.addFunc name ret (ps.take 8) body) >>= fun _ => does .closes
        else ccError "expected function body" >>= fun _ => does .closes) := by
    refine (expect_holds _).bind fun _ => ?_
    split_ifs
    · exact (Quiet.error _).holds.bind fun _ => body ps
    · exact body ps
  refine (Quiet.alloc 120).holds.bind fun _ => ?_
  refine (Quiet.does (a := .enter) trivial).holds.bind fun _ => ?_
  refine (expect_holds _).bind fun _ => ?_
  refine ifLooking ?_ ?_
  · exact ((Quiet.pure _).holds.bind rest).weaken (fun _ seen => seen.1) fun _ _ => id
  · exact (params_holds fuel (by omega) (by omega)).bind rest

theorem globalDecl_holds (base : CType) (name : String) : Holds m (globalDecl base name) := by
  refine bound_holds fun ty => ?_
  refine (Quiet.gets _).holds.bind fun size => ?_
  refine (Quiet.alloc 40).holds.bind fun _ => ?_
  refine (Quiet.gets _).holds.bind fun gaddr => ?_
  refine (Quiet.alloc _).holds.bind fun _ => ?_
  refine (Quiet.does (a := .newGlobal name ty gaddr) trivial).holds.bind fun _ => ?_
  refine ifConsume (Holds.fewer ?_) (expect_holds _)
  refine (constant_holds _).bind fun val => ?_
  refine (Quiet.does (a := .init _) trivial).holds.bind fun _ => ?_
  exact expect_holds _

theorem program_holds (more : Nat) (enough : m ≤ more) (fuelled : m + 3 ≤ fuel) :
    Holds m (program fuel more) := by
  induction more generalizing m with
  | zero =>
    exact Triple.never (not_good enough)
  | succ more later =>
    rcases Nat.eq_zero_or_pos m with rfl | filled
    · exact Triple.never (not_good (Nat.le_refl 0))
    have next : Holds (m - 1) (program fuel more) := later (by omega) (by omega)
    refine (Quiet.gets _).holds.bind fun last => ?_
    cases last with
    | true => exact (Quiet.pure _).holds
    | false =>
      refine ifConsume (Holds.fewer ?_) ?_
      · refine (declspec_holds fuel (by omega)).bind fun ty => ?_
        refine peek_triple.bind fun t => ?_
        cases t with
        | ident name =>
          refine ((Quiet.alloc 24).seen _).bind fun _ => ?_
          refine ((Quiet.does (a := .newTypedef name ty) trivial).seen _).bind fun _ => ?_
          refine (advance_triple (by nofun)).bind fun _ => Holds.fewer ?_
          refine (expect_holds _).bind fun _ => ?_
          exact later (by omega) (by omega)
        | _ => exact (Quiet.error _).holds.weaken (fun _ seen => seen.1) fun _ _ => id
      · refine (declspec_holds fuel (by omega)).bind fun base => ?_
        refine ifConsume (Holds.fewer next) ?_
        refine peek_triple.bind fun t => ?_
        cases t with
        | ident name =>
          refine (advance_triple (by nofun)).bind fun _ => Holds.fewer ?_
          have rest : Holds (m - 1) (failed >>= fun b =>
              if b = true then pure () else program fuel more) := by
            refine (Quiet.gets _).holds.bind fun failed => ?_
            cases failed with
            | true => exact (Quiet.pure _).holds
            | false => exact next
          refine ifLooking ?_ ((globalDecl_holds base name).bind fun _ => rest)
          refine Triple.weaken ?_ (fun _ seen => seen.1) fun _ _ => id
          exact (functionRest_holds base name (by omega)).bind fun _ => rest
        | _ => exact (Quiet.error _).holds.weaken (fun _ seen => seen.1) fun _ _ => id

end Programs

section Runs

/-- A run of `cc_parse` ends, and the parser has neither moved behind the last token nor read a null
pointer there. -/
structure Stays (fuel : Nat) (arena : Arena) (toks : List Token) : Prop where
  ends : ((program fuel fuel).run (start arena toks)).2.spent = false
  fine : ((program fuel fuel).run (start arena toks)).2.fault = false
  inside : ((program fuel fuel).run (start arena toks)).2.tk ≠ []

def Defect (β : Type) (p : P β) (s : Parser) : Prop := BoundAtEof β p s ∨ FullArena β p s

variable {fuel : Nat} {arena : Arena} {toks : List Token}

theorem start_good (ends : ∃ l, toks = l ++ [.eof]) : Good toks.length (start arena toks) :=
  ⟨ends, Nat.le_refl _, rfl, rfl⟩

theorem bound_past : ∀ β (p : P β) s, BoundAtEof β p s → (p.run s).2.tk = [] := by
  rintro _ _ ⟨tk, _⟩ ⟨rfl⟩
  rfl

theorem full_fails : ∀ β (p : P β) s, FullArena β p s → (p.run s).2.err.isSome := by
  rintro _ _ s ⟨full⟩
  show (if _ then _ else _ : Parser).err.isSome
  rw [if_pos full]
  rfl

theorem error_stable (s t : Parser) (rel : accesses.rel s t) (error : s.err.isSome) :
    t.err.isSome :=
  (advanced_stable 0 s t rel (.inr error)).resolve_left (Nat.not_lt_zero _)

theorem not_defect {α : Type} {p : P α} {s : Parser} (inside : (p.run s).2.tk ≠ [])
    (fine : (p.run s).2.err = none) : ¬ Comes Defect p s := by
  intro comes
  have worse : (p.run s).2.tk = [] ∨ (p.run s).2.err.isSome := by
    refine comes.stays (fun s t rel => Or.imp (past_stable s t rel) (error_stable s t rel))
      fun β p s is => ?_
    exact is.imp (bound_past β p s) (full_fails β p s)
  rcases worse with past | error
  · exact inside past
  · rw [fine] at error
    cases error

/-- With as much fuel as there are tokens, and a little more, the parser ends in front of the last
one, unless it comes to the bound of an array there or finds the arena full; and in the first of
these cases it does not. -/
theorem parser_stays (fuel : Nat) (arena : Arena) (toks : List Token)
    (ends : ∃ l, toks = l ++ [.eof]) (enough : toks.length + 3 ≤ fuel) :
    (¬ Comes Defect (program fuel fuel) (start arena toks) → Stays fuel arena toks) ∧
      (Comes BoundAtEof (program fuel fuel) (start arena toks) → ¬ Stays fuel arena toks) := by
  constructor
  · intro clear
    have holds := program_holds fuel (by omega) enough (start arena toks) (start_good ends)
    rcases holds with good | comes
    · refine ⟨good.bounded, good.fine, fun past => ?_⟩
      have filled := good.some
      rw [past] at filled
      exact absurd filled (by decide)
    · exact absurd (comes.mono fun _ _ _ => Or.inl) clear
  · intro comes stays
    exact stays.inside (comes.stays past_stable bound_past)

/-- `int x[2];` -/
def declared : List Token :=
  [.kw "int", .ident "x", .punct "[", .num 2, .punct "]", .punct ";", .eof]

theorem parser_stays_declared : Stays 10 ⟨0, 4096, 0⟩ declared :=
  (parser_stays 10 ⟨0, 4096, 0⟩ declared ⟨declared.dropLast, rfl⟩ (by decide)).1
    (not_defect (by decide +kernel) (by decide +kernel))

/-- `struct S { int a[`, and nothing behind it. -/
def truncated : List Token :=
  [.kw "struct", .ident "S", .punct "\x7b", .kw "int", .ident "a", .punct "[", .eof]

/-- The parser moves behind the last token and reads a null pointer. -/
theorem parser_leaves_truncated : ¬ Stays 10 ⟨0, 4096, 0⟩ truncated := fun stays =>
  absurd stays.fine (by decide +kernel)

end Runs

end XinuRpi5.Cc.ParserStops
