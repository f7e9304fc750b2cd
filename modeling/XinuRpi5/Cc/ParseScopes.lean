/- source: cc/parse.c, cc/codegen.c
   digest: The parser takes the latest declaration of a name, which may stand in a closed block. -/

import XinuRpi5.Cc.FrameLayout
import XinuRpi5.Cc.Parse

namespace XinuRpi5.Cc.ParseScopes

open Lib.RuledState Lib.BlockScopes
open Codegen Scoping Parse FrameLayout

section Invariant

/-- The name and the number of a declaration, in the log and in the lists of the parser. -/
def key (e : Entry String Nat) : String × Nat := (e.name, e.decl)

def keyOf (v : Var) : String × Nat := (v.name, v.num)

/-- The lists of the parser are those of the log, nothing in the log has a number that is
given later, and every name is bound to its latest declaration. -/
structure Tracked (s : Parser) : Prop where
  locals : (read s.log).locals.map key = s.curLocals.map keyOf
  globals : (read s.log).globals.map key = s.globals.map keyOf
  tags : (read s.log).tags.map key = s.structs
  numbered : Numbered s.log
  vars : ∀ d ∈ s.log.filterMap Event.newVar, d < s.numVars
  structs : ∀ d ∈ s.log.filterMap Event.newTag, d < s.layouts.length
  taken : Always Scopes.Latest s.log
  funcs : ∀ fn ∈ s.funcs, ∃ before, before <:+ s.log ∧
    (read before).locals.map key = fn.locals.map keyOf

theorem latest_of_keys {entries : List (Entry String Nat)} {pairs : List (String × Nat)}
    (same : entries.map key = pairs) (x : String) :
    (latest entries x).map Entry.decl = (pairs.find? fun p => p.1 = x).map Prod.snd := by
  rw [← same, List.find?_map, Option.map_map]
  rfl

variable {s t : Parser}

theorem fresh_cons {n d : Nat} {l : List Nat} (below : ∀ d ∈ l, d < n) (mem : d ∈ n :: l) :
    d < n + 1 := by
  rcases List.mem_cons.mp mem with rfl | old
  · exact Nat.lt_succ_self _
  · exact Nat.lt_succ_of_lt (below d old)

theorem fresh_nodup {n : Nat} {l : List Nat} (below : ∀ d ∈ l, d < n) (nodup : l.Nodup) :
    (n :: l).Nodup :=
  List.nodup_cons.mpr ⟨fun mem => Nat.lt_irrefl n (below n mem), nodup⟩

section

variable (tracked : Tracked s)

include tracked

theorem Tracked.findVar (x : String) :
    (latest (read s.log).vars x).map Entry.decl = (s.findVar x).map Var.num := by
  have same : (read s.log).vars.map key = (s.curLocals ++ s.globals).map keyOf := by
    unfold Scopes.vars
    rw [List.map_append, List.map_append, tracked.locals, tracked.globals]
  rw [latest_of_keys same, List.find?_map, Option.map_map]
  rfl

theorem Tracked.of_same (log : t.log = s.log) (locals : t.curLocals = s.curLocals)
    (globals : t.globals = s.globals) (structs : t.structs = s.structs)
    (numVars : t.numVars = s.numVars) (layouts : t.layouts.length = s.layouts.length)
    (funcs : t.funcs = s.funcs) : Tracked t := by
  constructor
  · rw [log, locals]
    exact tracked.locals
  · rw [log, globals]
    exact tracked.globals
  · rw [log, structs]
    exact tracked.tags
  · rw [log]
    exact tracked.numbered
  · rw [log, numVars]
    exact tracked.vars
  · rw [log, layouts]
    exact tracked.structs
  · rw [log]
    exact tracked.taken
  · rw [log, funcs]
    exact tracked.funcs

theorem Tracked.event {e : Event} (newVar : e.newVar = none) (newTag : e.newTag = none)
    (locals : ((read s.log).step e).locals = (read s.log).locals)
    (globals : ((read s.log).step e).globals = (read s.log).globals)
    (tags : ((read s.log).step e).tags = (read s.log).tags) (taken : (read s.log).Latest e) :
    Tracked { s with log := e :: s.log } where
  locals := (congrArg _ locals).trans tracked.locals
  globals := (congrArg _ globals).trans tracked.globals
  tags := (congrArg _ tags).trans tracked.tags
  numbered := by
    constructor
    · rw [List.filterMap_cons_none newVar]
      exact tracked.numbered.vars
    · rw [List.filterMap_cons_none newTag]
      exact tracked.numbered.tags
  vars := by
    rw [List.filterMap_cons_none newVar]
    exact tracked.vars
  structs := by
    rw [List.filterMap_cons_none newTag]
    exact tracked.structs
  taken := always_cons.mpr ⟨taken, tracked.taken⟩
  funcs := by
    intro fn mem
    obtain ⟨before, suffix, same⟩ := tracked.funcs fn mem
    exact ⟨before, suffix.trans (List.suffix_cons e s.log), same⟩

theorem older_funcs (e : Event) :
    ∀ fn ∈ s.funcs, ∃ before, before <:+ e :: s.log ∧
      (read before).locals.map key = fn.locals.map keyOf := by
  intro fn mem
  obtain ⟨before, suffix, same⟩ := tracked.funcs fn mem
  exact ⟨before, suffix.trans (List.suffix_cons e s.log), same⟩

theorem Tracked.newLocal (name : String) (ty : CType) :
    Tracked (s.newLocal name ty) where
  locals := congrArg ((name, s.numVars) :: ·) tracked.locals
  globals := tracked.globals
  tags := tracked.tags
  numbered := ⟨fresh_nodup tracked.vars tracked.numbered.vars, tracked.numbered.tags⟩
  vars _ mem := fresh_cons tracked.vars mem
  structs := tracked.structs
  taken := always_cons.mpr ⟨trivial, tracked.taken⟩
  funcs := older_funcs tracked _

theorem Tracked.newGlobal (name : String) (ty : CType) (gaddr : BitVec 64) :
    Tracked (s.newGlobal name ty gaddr) where
  locals := tracked.locals
  globals := congrArg ((name, s.numVars) :: ·) tracked.globals
  tags := tracked.tags
  numbered := ⟨fresh_nodup tracked.vars tracked.numbered.vars, tracked.numbered.tags⟩
  vars _ mem := fresh_cons tracked.vars mem
  structs := tracked.structs
  taken := always_cons.mpr ⟨trivial, tracked.taken⟩
  funcs := older_funcs tracked _

theorem Tracked.newStruct (tag : Option String) :
    Tracked (s.newStruct tag) := by
  let empty : Layout := ⟨0, []⟩
  have longer : (s.layouts ++ [empty]).length = s.layouts.length + 1 := List.length_append
  cases tag with
  | none =>
    have structs : ∀ d ∈ s.log.filterMap Event.newTag, d < (s.layouts ++ [empty]).length := by
      intro d mem
      rw [longer]
      exact Nat.lt_succ_of_lt (tracked.structs d mem)
    exact ⟨tracked.locals, tracked.globals, tracked.tags, tracked.numbered, tracked.vars, structs,
      tracked.taken, tracked.funcs⟩
  | some name =>
    have structs : ∀ d ∈ s.layouts.length :: s.log.filterMap Event.newTag,
        d < (s.layouts ++ [empty]).length := by
      intro d mem
      rw [longer]
      exact fresh_cons tracked.structs mem
    exact ⟨tracked.locals, tracked.globals,
      congrArg ((name, s.layouts.length) :: ·) tracked.tags,
      ⟨tracked.numbered.vars, fresh_nodup tracked.structs tracked.numbered.tags⟩, tracked.vars,
      structs, always_cons.mpr ⟨trivial, tracked.taken⟩, older_funcs tracked _⟩

theorem Tracked.uses (name : String) : Tracked (s.act (.uses name)) := by
  have here := tracked.findVar name
  show Tracked
    { s with log := ((s.findVar name).map fun v : Var => Event.uses name v.num).toList ++ s.log }
  cases found : s.findVar name with
  | none => exact tracked
  | some v =>
    rw [found] at here
    exact tracked.event rfl rfl rfl rfl rfl here

theorem Tracked.usesTag (name : String) :
    Tracked (s.act (.usesTag name)) := by
  have here : (latest (read s.log).tags name).map Entry.decl = s.findStruct name :=
    latest_of_keys tracked.tags name
  show Tracked
    { s with log := ((s.findStruct name).map (Event.usesTag name)).toList ++ s.log }
  cases found : s.findStruct name with
  | none => exact tracked
  | some id =>
    rw [found] at here
    exact tracked.event rfl rfl rfl rfl rfl here

theorem Tracked.act (a : Act) : Tracked (s.act a) := by
  cases a with
  | advance => exact tracked.of_same rfl rfl rfl rfl rfl rfl rfl
  | fault => exact tracked.of_same rfl rfl rfl rfl rfl rfl rfl
  | spend => exact tracked.of_same rfl rfl rfl rfl rfl rfl rfl
  | error msg => exact tracked.of_same rfl rfl rfl rfl rfl rfl rfl
  | alloc n =>
    show Tracked (s.alloc n)
    unfold Parser.alloc
    dsimp only
    split
    · exact tracked.of_same rfl rfl rfl rfl rfl rfl rfl
    · exact tracked.of_same rfl rfl rfl rfl rfl rfl rfl
  | inSwitch b => exact tracked.of_same rfl rfl rfl rfl rfl rfl rfl
  | newStruct tag => exact tracked.newStruct tag
  | setLayout id layout => exact tracked.of_same rfl rfl rfl rfl rfl List.length_set rfl
  | newTypedef name ty => exact tracked.of_same rfl rfl rfl rfl rfl rfl rfl
  | newLocal name ty => exact tracked.newLocal name ty
  | newGlobal name ty gaddr => exact tracked.newGlobal name ty gaddr
  | init init => exact tracked.of_same rfl rfl rfl rfl rfl rfl rfl
  | opens => exact tracked.event rfl rfl rfl rfl rfl trivial
  | closes =>
    obtain ⟨locals, globals, tags⟩ := closed_same (read s.log)
    exact tracked.event rfl rfl locals globals tags trivial
  | enter =>
    exact ⟨rfl, tracked.globals, tracked.tags, ⟨tracked.numbered.vars, tracked.numbered.tags⟩,
      tracked.vars, tracked.structs, always_cons.mpr ⟨trivial, tracked.taken⟩,
      older_funcs tracked _⟩
  | uses name => exact tracked.uses name
  | usesTag name => exact tracked.usesTag name
  | usesType name => exact tracked.event rfl rfl rfl rfl rfl trivial
  | calls name => exact tracked.event rfl rfl rfl rfl rfl trivial
  | addFunc name ret params body =>
    refine ⟨tracked.locals, tracked.globals, tracked.tags, tracked.numbered, tracked.vars,
      tracked.structs, tracked.taken, ?_⟩
    intro fn mem
    rcases List.mem_append.mp mem with old | new
    · exact tracked.funcs fn old
    · rw [List.mem_singleton.mp new]
      exact ⟨s.log, List.suffix_refl _, tracked.locals⟩

theorem Tracked.run {α : Type} (p : P α) : Tracked (p.run s).2 := by
  obtain ⟨acts, eq⟩ := p.keeps s
  rw [← eq]
  clear eq
  induction acts generalizing s with
  | nil => exact tracked
  | cons a acts ih => exact ih (tracked.act a)

end

theorem tracked_start (arena : Arena) (toks : List Token) : Tracked (start arena toks) where
  locals := rfl
  globals := rfl
  tags := rfl
  numbered := ⟨List.nodup_nil, List.nodup_nil⟩
  vars := nofun
  structs := nofun
  taken := always_nil _
  funcs := nofun

theorem ccParse_tracked {fuel : Nat} {arena : Arena} {toks : List Token} {s : Parser}
    (accepted : ccParse fuel arena toks = some s) : Tracked s := by
  have tracked := (tracked_start arena toks).run (program fuel fuel)
  unfold ccParse at accepted
  dsimp only at accepted
  split at accepted
  · cases accepted
  · obtain rfl := Option.some.inj accepted
    exact tracked

end Invariant

/-- The types of `fn->locals`. -/
def types (layouts : List Layout) (fn : Fn) : List Ty := fn.locals.map fun v => v.ty.ty layouts

def sizeAt (locals : List Ty) (i : Nat) : Int := (locals[i]?).elim 0 Ty.size

/-- Every declaration makes a variable of its own, the locals of a function are its
declarations, and no byte of the frame belongs to two of them. -/
structure OwnStorage (s : Parser) : Prop where
  different : (s.log.filterMap Event.newVar).Nodup
  listed : ∀ fn ∈ s.funcs, ∃ before, before <:+ s.log ∧
    (read before).locals.map key = fn.locals.map keyOf
  apart : ∀ fn ∈ s.funcs, Apart (types s.layouts fn) (sizeAt (types s.layouts fn))

/-- The sizes of the locals of a function add up within an `int`. -/
def Fits (s : Parser) : Prop :=
  ∀ fn ∈ s.funcs, Sized (types s.layouts fn) ∧ total (types s.layouts fn) ≤ 2 ^ 31 - 16

theorem ownStorage_of_fits {s : Parser} (tracked : Tracked s) (fits : Fits s) : OwnStorage s where
  different := tracked.numbered.vars
  listed := tracked.funcs
  apart := by
    intro fn mem
    refine apart_of_sized (fits fn mem).1 ?_
    intro j ty has
    unfold sizeAt
    rw [has]
    exact (rounded_spec ty.size).1

/-- Every identifier is bound to the declaration that scoping selects, and every declaration
has storage of its own. -/
structure Lexical (s : Parser) : Prop where
  bound : Always Scopes.Right s.log
  storage : OwnStorage s

/-- The parser binds identifiers by scope exactly in the programs that use no name whose latest
declaration stands in a block that has ended. -/
theorem lexical_scoping_iff {fuel : Nat} {arena : Arena} {toks : List Token} {s : Parser}
    (accepted : ccParse fuel arena toks = some s) :
    (Fits s → (Lexical s ↔ Always Scopes.Open s.log)) ∧
      (Lexical s → Always Scopes.Open s.log) := by
  have tracked := ccParse_tracked accepted
  have bound := always_right_iff tracked.numbered tracked.taken
  refine ⟨fun fits => ⟨fun lexical => bound.mp lexical.bound, fun isOpen => ?_⟩,
    fun lexical => bound.mp lexical.bound⟩
  exact ⟨bound.mpr isOpen, ownStorage_of_fits tracked fits⟩

def kw (text : String) : Token := .kw text

def punct (text : String) : Token := .punct text

def ident (text : String) : Token := .ident text

/-- `int main() { int x = 1; { int x = 2; last } final }` -/
def shadowing (last final : List Token) : List Token :=
  [kw "int", ident "main", punct "(", punct ")", punct "\x7b", kw "int", ident "x", punct "=",
    .num 1, punct ";", punct "\x7b", kw "int", ident "x", punct "=", .num 2, punct ";"] ++ last ++
    [punct "\x7d"] ++ final ++ [punct "\x7d", .eof]

def room : Arena := ⟨0x80000, 2 ^ 21, 4096⟩

theorem inner_use : ∃ s,
    ccParse 32 room (shadowing [ident "x", punct "=", .num 3, punct ";"] []) = some s ∧
      (Lexical s ↔ Always Scopes.Open s.log) := by
  have run : (ccParse 32 room (shadowing [ident "x", punct "=", .num 3, punct ";"] [])).map
      (fun s => s.funcs.map (types s.layouts)) = some [[⟨.int, 8⟩, ⟨.int, 8⟩]] := by
    decide +kernel
  obtain ⟨s, accepted, sizes⟩ := Option.map_eq_some_iff.mp run
  refine ⟨s, accepted, (lexical_scoping_iff accepted).1 ?_⟩
  intro fn mem
  have listed : types s.layouts fn ∈ s.funcs.map (types s.layouts) := List.mem_map_of_mem mem
  rw [sizes] at listed
  rw [List.mem_singleton.mp listed]
  exact ⟨by unfold Sized; decide, by decide⟩

/-- `return x` behind the inner block returns the inner variable. -/
theorem outer_hidden : ∃ s,
    ccParse 32 room (shadowing [] [kw "return", ident "x", punct ";"]) = some s ∧
      ¬ Always Scopes.Right s.log := by
  have run : (ccParse 32 room (shadowing [] [kw "return", ident "x", punct ";"])).map Parser.log =
      some [.closes, .closes, .uses "x" 1, .closes, .declare "x" 1, .opens, .declare "x" 0,
        .opens, .enter] := by
    decide +kernel
  obtain ⟨s, accepted, log⟩ := Option.map_eq_some_iff.mp run
  refine ⟨s, accepted, ?_⟩
  rw [log]
  intro always
  have right := always (.uses "x" 1)
    [.closes, .declare "x" 1, .opens, .declare "x" 0, .opens, .enter] ⟨[.closes, .closes], rfl⟩
  revert right
  unfold Scopes.Right
  decide

end XinuRpi5.Cc.ParseScopes
