/- source: cc/parse.c
   digest: What a C program declares and uses in reading order, and what its blocks make visible. -/

import Mathlib.Data.List.Perm.Subperm
import XinuRpi5.Lib.BlockScopes

/-!
Variables, structure types and blocks are numbered. The file is block 0; a function has a
block for its parameters, and every compound, selection and iteration statement and every
statement controlled by one of the latter two is a block. A log has its latest event first.
-/

namespace XinuRpi5.Cc.Scoping

open Lib.BlockScopes

/-- What the parser meets: blocks, declarations, and identifiers with what it binds them to. -/
inductive Event where
  | opens
  | closes
  /-- The parameter list of a function begins. -/
  | enter
  | declare (x : String) (d : Nat)
  | declareGlobal (x : String) (d : Nat)
  | declareTag (x : String) (d : Nat)
  | uses (x : String) (d : Nat)
  | usesTag (x : String) (d : Nat)
  | usesType (x : String)
  | calls (x : String)
  deriving DecidableEq

/-- The open blocks, the declarations of the current function and those of the file. -/
structure Scopes where
  next : Nat
  blocks : List Nat
  locals : List (Entry String Nat)
  globals : List (Entry String Nat)
  tags : List (Entry String Nat)

def Scopes.start : Scopes := ⟨1, [0], [], [], []⟩

def Scopes.here (s : Scopes) : Nat := s.blocks.headD 0

def Scopes.opened (s : Scopes) : Scopes :=
  { s with next := s.next + 1, blocks := s.next :: s.blocks }

def Scopes.closed (s : Scopes) : Scopes :=
  match s.blocks with
  | _ :: b :: rest => { s with blocks := b :: rest }
  | _ => s

def Scopes.step (s : Scopes) : Event → Scopes
  | .opens => s.opened
  | .closes => s.closed
  | .enter => { s.opened with locals := [] }
  | .declare x d => { s with locals := ⟨x, d, s.here⟩ :: s.locals }
  | .declareGlobal x d => { s with globals := ⟨x, d, 0⟩ :: s.globals }
  | .declareTag x d => { s with tags := ⟨x, d, s.here⟩ :: s.tags }
  | _ => s

def read : List Event → Scopes
  | [] => .start
  | e :: before => (read before).step e

/-- The variables that have been declared, those of the function first. -/
def Scopes.vars (s : Scopes) : List (Entry String Nat) := s.locals ++ s.globals

section Bindings

/-- The rule of the language: an identifier is bound to the declaration in the innermost
open block that has one. No local variable hides the name of a type or of a function. -/
def Scopes.Right (s : Scopes) : Event → Prop
  | .uses x d => (visible s.blocks s.vars x).map Entry.decl = some d
  | .usesTag x d => (visible s.blocks s.tags x).map Entry.decl = some d
  | .usesType x => visible s.blocks s.locals x = none
  | .calls x => visible s.blocks s.locals x = none
  | _ => True

def Scopes.Latest (s : Scopes) : Event → Prop
  | .uses x d => (latest s.vars x).map Entry.decl = some d
  | .usesTag x d => (latest s.tags x).map Entry.decl = some d
  | _ => True

/-- The block with the latest declaration of the name has not been closed. Where a type is
named or a function called, no open block of the function declares the name. -/
def Scopes.Open (s : Scopes) : Event → Prop
  | .uses x _ => ∀ e, latest s.vars x = some e → e.block ∈ s.blocks
  | .usesTag x _ => ∀ e, latest s.tags x = some e → e.block ∈ s.blocks
  | .usesType x => ∀ e ∈ s.locals, e.name = x → e.block ∉ s.blocks
  | .calls x => ∀ e ∈ s.locals, e.name = x → e.block ∉ s.blocks
  | _ => True

/-- Every event of a log has the property in the scopes that it was met in. -/
def Always (holds : Scopes → Event → Prop) (log : List Event) : Prop :=
  ∀ e before, e :: before <:+ log → holds (read before) e

theorem always_nil (holds : Scopes → Event → Prop) : Always holds [] := by
  intro e before suffix
  exact absurd (List.suffix_nil.mp suffix) (List.cons_ne_nil e before)

theorem always_cons {holds : Scopes → Event → Prop} {e : Event} {log : List Event} :
    Always holds (e :: log) ↔ holds (read log) e ∧ Always holds log := by
  constructor
  · intro always
    exact ⟨always e log (List.suffix_refl _),
      fun f before suffix => always f before (suffix.trans (List.suffix_cons e log))⟩
  · rintro ⟨first, rest⟩ f before suffix
    rcases List.suffix_cons_iff.mp suffix with same | later
    · obtain ⟨rfl, rfl⟩ := List.cons.inj same
      exact first
    · exact rest f before later

end Bindings

section Coherence

structure Scopes.Coherent (s : Scopes) : Prop where
  locals : Nested s.blocks s.locals
  tags : Nested s.blocks s.tags
  globals : ∀ e ∈ s.globals, e.block = 0
  file : 0 ∈ s.blocks
  blocksBelow : ∀ b ∈ s.blocks, b < s.next
  localsBelow : ∀ e ∈ s.locals, e.block < s.next
  tagsBelow : ∀ e ∈ s.tags, e.block < s.next

variable {s : Scopes}

theorem coherent_start : Scopes.start.Coherent where
  locals := ⟨List.pairwise_singleton _ _, List.Pairwise.nil⟩
  tags := ⟨List.pairwise_singleton _ _, List.Pairwise.nil⟩
  globals := nofun
  file := List.mem_singleton_self 0
  blocksBelow := by
    intro b mem
    rw [List.mem_singleton.mp mem]
    exact Nat.one_pos
  localsBelow := nofun
  tagsBelow := nofun

section

variable (coherent : s.Coherent)

include coherent

theorem Scopes.Coherent.here_spec :
    ∃ outer, s.blocks = s.here :: outer := by
  unfold Scopes.here
  cases eq : s.blocks with
  | nil => exact absurd (eq ▸ coherent.file) List.not_mem_nil
  | cons b outer => exact ⟨outer, rfl⟩

theorem Scopes.Coherent.here_below : s.here < s.next := by
  obtain ⟨outer, eq⟩ := coherent.here_spec
  refine coherent.blocksBelow s.here ?_
  rw [eq]
  exact List.mem_cons_self

theorem Scopes.Coherent.opened : s.opened.Coherent where
  locals := coherent.locals.opens coherent.blocksBelow coherent.localsBelow
  tags := coherent.tags.opens coherent.blocksBelow coherent.tagsBelow
  globals := coherent.globals
  file := List.mem_cons_of_mem _ coherent.file
  blocksBelow := by
    intro b mem
    rcases List.mem_cons.mp mem with rfl | old
    · exact Nat.lt_succ_self _
    · exact Nat.lt_succ_of_lt (coherent.blocksBelow b old)
  localsBelow e mem := Nat.lt_succ_of_lt (coherent.localsBelow e mem)
  tagsBelow e mem := Nat.lt_succ_of_lt (coherent.tagsBelow e mem)

theorem Scopes.Coherent.closed : s.closed.Coherent := by
  unfold Scopes.closed
  split
  · rename_i a b rest eq
    have nested := coherent.locals
    have nested' := coherent.tags
    have file := coherent.file
    have below := coherent.blocksBelow
    rw [eq] at nested nested' file below
    refine ⟨nested.closes, nested'.closes, coherent.globals, ?_,
      fun c mem => below c (List.mem_cons_of_mem a mem), coherent.localsBelow, coherent.tagsBelow⟩
    rcases List.mem_cons.mp file with rfl | outer
    · have smaller := (List.pairwise_cons.mp nested.inner).1 b List.mem_cons_self
      exact absurd smaller (Nat.not_lt_zero b)
    · exact outer
  · exact coherent

theorem Scopes.Coherent.declare (x : String) (d : Nat) :
    (s.step (.declare x d)).Coherent where
  locals := by
    obtain ⟨outer, eq⟩ := coherent.here_spec
    have nested := coherent.locals
    show Nested s.blocks (⟨x, d, s.here⟩ :: s.locals)
    rw [eq] at nested ⊢
    exact nested.declares x d
  tags := coherent.tags
  globals := coherent.globals
  file := coherent.file
  blocksBelow := coherent.blocksBelow
  localsBelow := by
    intro e mem
    rcases List.mem_cons.mp mem with rfl | old
    · exact coherent.here_below
    · exact coherent.localsBelow e old
  tagsBelow := coherent.tagsBelow

theorem Scopes.Coherent.declareTag (x : String) (d : Nat) :
    (s.step (.declareTag x d)).Coherent where
  locals := coherent.locals
  tags := by
    obtain ⟨outer, eq⟩ := coherent.here_spec
    have nested := coherent.tags
    show Nested s.blocks (⟨x, d, s.here⟩ :: s.tags)
    rw [eq] at nested ⊢
    exact nested.declares x d
  globals := coherent.globals
  file := coherent.file
  blocksBelow := coherent.blocksBelow
  localsBelow := coherent.localsBelow
  tagsBelow := by
    intro e mem
    rcases List.mem_cons.mp mem with rfl | old
    · exact coherent.here_below
    · exact coherent.tagsBelow e old

theorem Scopes.Coherent.step (e : Event) : (s.step e).Coherent := by
  cases e with
  | opens => exact coherent.opened
  | closes => exact coherent.closed
  | enter =>
    exact ⟨coherent.opened.locals.forgets, coherent.opened.tags, coherent.globals,
      coherent.opened.file, coherent.opened.blocksBelow, nofun, coherent.opened.tagsBelow⟩
  | declare x d => exact coherent.declare x d
  | declareGlobal x d =>
    refine ⟨coherent.locals, coherent.tags, ?_, coherent.file, coherent.blocksBelow,
      coherent.localsBelow, coherent.tagsBelow⟩
    intro e mem
    rcases List.mem_cons.mp mem with rfl | old
    · rfl
    · exact coherent.globals e old
  | declareTag x d => exact coherent.declareTag x d
  | uses x d => exact coherent
  | usesTag x d => exact coherent
  | usesType x => exact coherent
  | calls x => exact coherent

end

theorem coherent_read (log : List Event) : (read log).Coherent := by
  induction log with
  | nil => exact coherent_start
  | cons e before ih => exact ih.step e

theorem Scopes.Coherent.vars (coherent : s.Coherent) : Nested s.blocks s.vars :=
  coherent.locals.append_outer coherent.globals

end Coherence

structure Scopes.Distinct (s : Scopes) : Prop where
  vars : (s.vars.map Entry.decl).Nodup
  tags : (s.tags.map Entry.decl).Nodup

theorem binding_iff {blocks : List Nat} {entries : List (Entry String Nat)} {x : String} {d : Nat}
    (nested : Nested blocks entries) (distinct : (entries.map Entry.decl).Nodup)
    (taken : (latest entries x).map Entry.decl = some d) :
    (visible blocks entries x).map Entry.decl = some d ↔
      ∀ e, latest entries x = some e → e.block ∈ blocks := by
  obtain ⟨e, found, rfl⟩ := Option.map_eq_some_iff.mp taken
  rw [nested.visible_iff distinct found]
  constructor
  · intro isOpen f same
    rw [found] at same
    obtain rfl := Option.some.inj same
    exact isOpen
  · intro isOpen
    exact isOpen e found

theorem Scopes.right_iff {s : Scopes} (coherent : s.Coherent) (distinct : s.Distinct) {e : Event}
    (taken : s.Latest e) : s.Right e ↔ s.Open e := by
  cases e with
  | uses x d => exact binding_iff coherent.vars distinct.vars taken
  | usesTag x d => exact binding_iff coherent.tags distinct.tags taken
  | usesType x => exact visible_eq_none_iff
  | calls x => exact visible_eq_none_iff
  | opens => exact Iff.rfl
  | closes => exact Iff.rfl
  | enter => exact Iff.rfl
  | declare x d => exact Iff.rfl
  | declareGlobal x d => exact Iff.rfl
  | declareTag x d => exact Iff.rfl

def Event.newVar : Event → Option Nat
  | .declare _ d => some d
  | .declareGlobal _ d => some d
  | _ => none

def Event.newTag : Event → Option Nat
  | .declareTag _ d => some d
  | _ => none

theorem closed_same (s : Scopes) :
    s.closed.locals = s.locals ∧ s.closed.globals = s.globals ∧ s.closed.tags = s.tags := by
  unfold Scopes.closed
  split
  · exact ⟨rfl, rfl, rfl⟩
  · exact ⟨rfl, rfl, rfl⟩

theorem vars_subperm (log : List Event) :
    List.Subperm ((read log).vars.map Entry.decl) (log.filterMap Event.newVar) := by
  induction log with
  | nil => exact List.nil_subperm
  | cons e before ih =>
    have same (is : (read before).step e = read before ∨
        ((read before).step e).vars = (read before).vars) (none : e.newVar = none) :
        List.Subperm ((read (e :: before)).vars.map Entry.decl)
          ((e :: before).filterMap Event.newVar) := by
      rw [List.filterMap_cons_none none]
      show List.Subperm (((read before).step e).vars.map Entry.decl) _
      rcases is with eq | eq
      · rw [eq]
        exact ih
      · rw [eq]
        exact ih
    cases e with
    | opens => exact same (.inr rfl) rfl
    | closes =>
      refine same (.inr ?_) rfl
      show (read before).closed.vars = _
      unfold Scopes.vars
      rw [(closed_same _).1, (closed_same _).2.1]
    | enter =>
      have inner : List.Subperm ((read before).globals.map Entry.decl)
          ((read before).vars.map Entry.decl) :=
        ((List.sublist_append_right (read before).locals _).map _).subperm
      exact inner.trans ih
    | declare x d => exact (List.subperm_cons d).mpr ih
    | declareGlobal x d =>
      have moved : List.Perm ((read (.declareGlobal x d :: before)).vars.map Entry.decl)
          (d :: (read before).vars.map Entry.decl) := by
        show List.Perm
          (((read before).locals ++ ⟨x, d, 0⟩ :: (read before).globals).map Entry.decl) _
        exact List.perm_middle.map Entry.decl
      exact moved.subperm.trans ((List.subperm_cons d).mpr ih)
    | declareTag x d => exact same (.inr rfl) rfl
    | uses x d => exact same (.inl rfl) rfl
    | usesTag x d => exact same (.inl rfl) rfl
    | usesType x => exact same (.inl rfl) rfl
    | calls x => exact same (.inl rfl) rfl

theorem tags_eq (log : List Event) :
    (read log).tags.map Entry.decl = log.filterMap Event.newTag := by
  induction log with
  | nil => rfl
  | cons e before ih =>
    cases e with
    | closes =>
      show (read before).closed.tags.map Entry.decl = _
      rw [(closed_same _).2.2]
      exact ih
    | declareTag x d => exact congrArg (d :: ·) ih
    | _ => exact ih

structure Numbered (log : List Event) : Prop where
  vars : (log.filterMap Event.newVar).Nodup
  tags : (log.filterMap Event.newTag).Nodup

theorem Numbered.distinct {log before : List Event} (numbered : Numbered log)
    (suffix : before <:+ log) : (read before).Distinct := by
  constructor
  · obtain ⟨l, perm, sub⟩ := vars_subperm before
    have nodup := numbered.vars.sublist (suffix.filterMap Event.newVar).sublist
    exact perm.nodup (nodup.sublist sub)
  · rw [tags_eq]
    exact numbered.tags.sublist (suffix.filterMap Event.newTag).sublist

theorem always_right_iff {log : List Event} (numbered : Numbered log)
    (taken : Always Scopes.Latest log) :
    Always Scopes.Right log ↔ Always Scopes.Open log := by
  have each (e : Event) (before : List Event) (suffix : e :: before <:+ log) :
      (read before).Right e ↔ (read before).Open e :=
    Scopes.right_iff (coherent_read before)
      (numbered.distinct ((List.suffix_cons e before).trans suffix)) (taken e before suffix)
  exact forall_congr' fun e => forall_congr' fun before => forall_congr' fun suffix =>
    each e before suffix

end XinuRpi5.Cc.Scoping
