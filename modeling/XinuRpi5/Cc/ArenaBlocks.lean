/- source: cc/cc.c, cc/parse.c, cc/ccpriv.h
   digest: The blocks of the compiler's arena, and when the sink holds what is stored into it. -/

import Mathlib.Algebra.Group.Int.Defs
import Mathlib.Algebra.Group.Nat.Defs
import Mathlib.Tactic.SplitIfs
import XinuRpi5.Lib.BumpHeap
import XinuRpi5.Lib.GuardedRuns

/-!
A compilation is the sequence of what it allocates, of the stores into the blocks, and of the
errors that it reports. Addresses in the arena are counted from its start; the sink is memory of
its own.
-/

namespace XinuRpi5.Cc.ArenaBlocks

open Lib.BumpHeap Lib.GuardedRuns

def ccArena : Nat := 2 * 1024 * 1024

/-- The size of `g_panic`. -/
def panicSize : Nat := 64

inductive Object where
  | token
  | text (n : Nat)
  | type
  | member
  | sdef
  | tdef
  | node
  | var
  | storage (size : Int)
  | func
  | source (srclen : Nat)

def Object.size : Object → Nat
  | .token => 48
  | .text n => n + 1
  | .type => 32
  | .member => 32
  | .sdef => 24
  | .tdef => 24
  | .node => 168
  | .var => 40
  | .storage size => if size < 8 then 8 else size.toNat
  | .func => 120
  | .source srclen => srclen + 1

/-- Lengths and sizes are a C `int`. -/
def Object.Fits : Object → Prop
  | .text n => n < 2 ^ 31
  | .storage size => size < 2 ^ 31
  | .source srclen => srclen < 2 ^ 31
  | _ => True

instance (o : Object) : Decidable o.Fits := by
  cases o <;> unfold Object.Fits <;> infer_instance

/-- `g_acap`, the arena with `g_apos`, the blocks handed out so far, and `g_err`. -/
structure State where
  cap : Nat
  arena : Heap UInt8
  blocks : List Block
  err : Bool

def roundUp (n : Nat) : Nat := (n + 15) % 2 ^ 64 / 16 * 16

/-- `cc_alloc`: the place of the block, or none for the sink. -/
def ccAlloc (s : State) (n : Nat) : Option Nat × State :=
  let size := roundUp n
  if s.cap < (s.arena.top + size) % 2 ^ 64 then (none, { s with err := true })
  else
    (some s.arena.top,
      { s with
        arena := s.arena.take size fun _ => 0
        blocks := (s.arena.top, n) :: s.blocks })

inductive Op where
  | alloc (o : Object)
  | store (i : Nat) (b : UInt8)
  | error

def move (s : State) : Op → State
  | .alloc o => (ccAlloc s o.size).2
  | .store i b => { s with arena.cell := fun j => if j = i then b else s.arena.cell j }
  | .error => { s with err := true }

/-- `arena_init`, at the start of a compilation. -/
def start (cap : Nat) (bytes : Nat → UInt8) : State := ⟨min cap ccArena, ⟨bytes, 0⟩, [], false⟩

def Legal (s : State) : Op → Prop
  | .alloc o => o.Fits
  | .store i _ => ∃ b ∈ s.blocks, b.1 ≤ i ∧ i < b.1 + b.2
  | .error => True

/-- The block is zeroed, lies in the arena and is apart from the earlier ones; the sink comes
with the error, and holds the object. The storage of a global counts as a whole: the parser only
stores an initialiser of 8 bytes, but the address is kept for all that the program stores. -/
def Good (s : State) : Op → Prop
  | .alloc o =>
    match ccAlloc s o.size with
    | (some p, s') => (∀ i < o.size, s'.arena.cell (p + i) = 0) ∧ p + o.size ≤ s.cap ∧
        ∀ b ∈ s.blocks, Apart b (p, o.size)
    | (none, s') => s'.err = true ∧ o.size ≤ panicSize
  | _ => True

def Room (s : State) : Op → Prop
  | .alloc o => s.arena.top + roundUp o.size ≤ s.cap ∨ o.size ≤ panicSize
  | _ => True

section Exact

/-- The blocks lie below the place of the next one, which is in the arena. -/
structure Inv (s : State) : Prop where
  cap : s.cap ≤ ccArena
  top : s.arena.top ≤ s.cap
  below : ∀ b ∈ s.blocks, b.1 + b.2 ≤ s.arena.top

variable {s : State} {op : Op} {o : Object}

theorem size_lt (fits : o.Fits) : o.size ≤ 2 ^ 31 := by
  cases o with
  | text n | source n =>
    simp only [Object.Fits, Object.size] at fits ⊢
    omega
  | storage size =>
    simp only [Object.Fits, Object.size] at fits ⊢
    split_ifs
    all_goals omega
  | _ => exact of_decide_eq_true rfl

theorem roundUp_bounds {n : Nat} (small : n ≤ 2 ^ 31) : n ≤ roundUp n ∧ roundUp n < n + 16 := by
  unfold roundUp
  omega

theorem ccAlloc_eq (inv : Inv s) {n : Nat} (small : n ≤ 2 ^ 31) :
    ccAlloc s n = if s.arena.top + roundUp n ≤ s.cap then
      (some s.arena.top, { s with
        arena := s.arena.take (roundUp n) fun _ => 0
        blocks := (s.arena.top, n) :: s.blocks })
    else (none, { s with err := true }) := by
  have cap := inv.cap
  have top := inv.top
  have round := roundUp_bounds small
  unfold ccArena at cap
  have plain : (s.arena.top + roundUp n) % 2 ^ 64 = s.arena.top + roundUp n := by omega
  unfold ccAlloc
  simp only [plain]
  by_cases room : s.arena.top + roundUp n ≤ s.cap
  · rw [if_neg (Nat.not_lt.mpr room), if_pos room]
  · rw [if_pos (Nat.not_le.mp room), if_neg room]

theorem start_inv (cap : Nat) (bytes : Nat → UInt8) : Inv (start cap bytes) :=
  ⟨Nat.min_le_right _ _, Nat.zero_le _, fun _ listed => absurd listed List.not_mem_nil⟩

theorem move_inv (inv : Inv s) (legal : Legal s op) : Inv (move s op) := by
  cases op with
  | alloc o =>
    have round := roundUp_bounds (size_lt legal)
    change Inv (ccAlloc s o.size).2
    rw [ccAlloc_eq inv (size_lt legal)]
    split_ifs with room
    · refine ⟨inv.cap, room, fun b listed => ?_⟩
      change b.1 + b.2 ≤ s.arena.top + roundUp o.size
      rcases List.mem_cons.mp listed with rfl | older
      · change s.arena.top + o.size ≤ _
        omega
      · have below := inv.below b older
        omega
    · exact ⟨inv.cap, inv.top, inv.below⟩
  | store i b => exact ⟨inv.cap, inv.top, inv.below⟩
  | error => exact ⟨inv.cap, inv.top, inv.below⟩

theorem good_iff (inv : Inv s) (legal : Legal s op) : Good s op ↔ Room s op := by
  cases op with
  | alloc o =>
    have round := roundUp_bounds (size_lt legal)
    simp only [Good, Room]
    rw [ccAlloc_eq inv (size_lt legal)]
    split_ifs with room
    · refine iff_of_true ⟨fun i inside => ?_, ?_, fun b listed => ?_⟩ (Or.inl room)
      · change (s.arena.take (roundUp o.size) fun _ => 0).cell (s.arena.top + i) = 0
        exact Heap.take_new (Nat.lt_of_lt_of_le inside round.1)
      · omega
      · exact apart_of_below (inv.below b listed) _
    · exact ⟨fun good => Or.inr good.2, fun small => ⟨rfl, small.resolve_left room⟩⟩
  | store i b => exact Iff.rfl
  | error => exact Iff.rfl

/-- In every compilation each allocation is safe for its caller exactly if each finds room in
the arena, or asks for no more than the sink holds. -/
theorem blocks_safe_iff (cap : Nat) (bytes : Nat → UInt8) (ops : List Op)
    (legal : ∀ k op, ops[k]? = some op → Legal ((ops.take k).foldl move (start cap bytes)) op) :
    (∀ k op, ops[k]? = some op → Good ((ops.take k).foldl move (start cap bytes)) op) ↔
      ∀ k op, ops[k]? = some op → Room ((ops.take k).foldl move (start cap bytes)) op := by
  have exact : ∀ s op, Inv s → Legal s op → (Good s op ↔ Room s op) :=
    fun _ _ inv legal => good_iff inv legal
  have keep : ∀ s op, Inv s → Legal s op → Room s op → Inv (move s op) :=
    fun _ _ inv legal _ => move_inv inv legal
  exact each_iff exact keep ops (start_inv cap bytes) legal

theorem blocks_safe_iff_node :
    (∀ k op, [Op.alloc .token, .store 3 1, .alloc .node][k]? = some op →
      Good (([Op.alloc .token, .store 3 1, .alloc .node].take k).foldl move
        (start ccArena fun _ => 7)) op) ∧
    ∀ k op, [Op.alloc .token, .store 3 1, .alloc .node][k]? = some op →
      Room (([Op.alloc .token, .store 3 1, .alloc .node].take k).foldl move
        (start ccArena fun _ => 7)) op := by
  have legal : ∀ k op, [Op.alloc .token, .store 3 1, .alloc .node][k]? = some op →
      Legal (([Op.alloc .token, .store 3 1, .alloc .node].take k).foldl move
        (start ccArena fun _ => 7)) op := by
    intro k op there
    match k, there with
    | 0, rfl => trivial
    | 1, rfl => exact ⟨(0, 48), List.mem_singleton_self _, by decide, by decide⟩
    | 2, rfl => trivial
  have room : ∀ k op, [Op.alloc .token, .store 3 1, .alloc .node][k]? = some op →
      Room (([Op.alloc .token, .store 3 1, .alloc .node].take k).foldl move
        (start ccArena fun _ => 7)) op := by
    intro k op there
    match k, there with
    | 0, rfl => exact Or.inr (by decide)
    | 1, rfl => trivial
    | 2, rfl => exact Or.inl (by decide)
  exact ⟨(blocks_safe_iff ccArena (fun _ => 7) _ legal).mpr room, room⟩

theorem sunk {n k : Nat} {ops : List Op} (there : ops[k]? = some (.alloc o))
    (full : (ccAlloc ((ops.take k).foldl move s) n).1 = none) (large : panicSize < n)
    (same : o.size = n) : ¬ ∀ k op, ops[k]? = some op → Good ((ops.take k).foldl move s) op := by
  subst same
  intro all
  have good := all k (.alloc o) there
  simp only [Good] at good
  split at good
  · rename_i p s' found
    rw [found] at full
    cases full
  · exact absurd good.2 (Nat.not_le.mpr large)

def spelled (n : Nat) : List Object := [.token, .text n]

/-- What `int a[262000]; int main(){return 1;}` allocates, up to its first function. -/
def largeGlobal : List Object :=
  .source 36 :: [3, 1, 1].flatMap spelled ++ .token :: [1, 1, 3, 4, 1, 1, 1, 6].flatMap spelled ++
    .token :: [1, 1].flatMap spelled ++ [.token, .type, .var, .storage 2096000, .func]

/-- The function of 120 bytes is stored into the sink. -/
theorem func_beyond_sink : ∃ ops : List Op,
    (∀ k op, ops[k]? = some op → Legal ((ops.take k).foldl move (start ccArena fun _ => 0)) op) ∧
    ¬ ∀ k op, ops[k]? = some op → Good ((ops.take k).foldl move (start ccArena fun _ => 0)) op := by
  have there : (largeGlobal.map Op.alloc)[33]? = some (.alloc .func) := by
    simp [largeGlobal, spelled]
  have full : (ccAlloc (((largeGlobal.map Op.alloc).take 33).foldl move
    (start ccArena fun _ => 0)) 120).1 = none := by decide +kernel
  refine ⟨largeGlobal.map .alloc, fun k op there => ?_, sunk there full (by decide) rfl⟩
  obtain ⟨o, listed, rfl⟩ := List.mem_map.mp (List.mem_of_getElem? there)
  have fits : ∀ o ∈ largeGlobal, o.Fits := by decide
  exact fits o listed

end Exact

end XinuRpi5.Cc.ArenaBlocks
