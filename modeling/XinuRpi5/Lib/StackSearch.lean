/- source: none (library)
   digest: Depth-first search with a stack of K places sees the nodes whose places add up below K. -/

import Mathlib.Data.List.Perm.Basic

namespace XinuRpi5.Lib.StackSearch

variable {ν α : Type*}

/-- A list of trees: the first one's root, what is below it, and the other trees. -/
inductive Forest (ν : Type*) where
  | nil
  | cons (node : ν) (below rest : Forest ν)

/-- First-child and next-sibling links that hold a forest from `l` on. -/
def Stored (first next : ν → Option ν) : Option ν → Forest ν → Prop
  | l, .nil => l = none
  | l, .cons n below rest => l = some n ∧ Stored first next (first n) below ∧
    Stored first next (next n) rest

namespace Forest

def roots : Forest ν → List ν
  | nil => []
  | cons n _ rest => n :: rest.roots

def nodes : Forest ν → List ν
  | nil => []
  | cons n below rest => n :: (below.nodes ++ rest.nodes)

/-- The nodes with their numbers among the siblings added up on the way down from `b`. -/
def places : Nat → Forest ν → List (ν × Nat)
  | _, nil => []
  | b, cons n below rest => (n, b) :: (places b below ++ places (b + 1) rest)

/-- The nodes that a stack of `K` places has room for. -/
def kept (K b : Nat) (F : Forest ν) : List ν :=
  ((F.places b).filter fun p => p.2 < K).map Prod.fst

theorem places_nodes (F : Forest ν) (b : Nat) : (F.places b).map Prod.fst = F.nodes := by
  induction F generalizing b with
  | nil => rfl
  | cons n below rest ihBelow ihRest =>
    rw [places, nodes, List.map_cons, List.map_append, ihBelow, ihRest]

theorem le_places {F : Forest ν} {b s : Nat} {n : ν} (placed : (n, s) ∈ F.places b) : b ≤ s := by
  induction F generalizing b with
  | nil => cases placed
  | cons m below rest ihBelow ihRest =>
    rw [places, List.mem_cons, List.mem_append] at placed
    rcases placed with here | under | beside
    · cases here
      exact Nat.le_refl _
    · exact ihBelow under
    · exact Nat.le_of_succ_le (ihRest beside)

theorem kept_full {K b : Nat} (F : Forest ν) (full : K ≤ b) : F.kept K b = [] := by
  rw [kept, List.map_eq_nil_iff, List.filter_eq_nil_iff]
  rintro ⟨n, s⟩ placed
  have low := le_places placed
  rw [decide_eq_true_eq]
  exact Nat.not_lt.mpr (Nat.le_trans full low)

theorem kept_cons {K b : Nat} (n : ν) (below rest : Forest ν) (room : b < K) :
    (cons n below rest).kept K b = n :: (below.kept K b ++ rest.kept K (b + 1)) := by
  simp [kept, places, room]

end Forest

section Links

variable {first next : ν → Option ν}

theorem Stored.below {F : Forest ν} {l : Option ν} {b s : Nat} {p : ν}
    (stored : Stored first next l F) (placed : (p, s) ∈ F.places b) :
    ∃ B, Stored first next (first p) B ∧ B.places s ⊆ F.places b := by
  induction F generalizing l b with
  | nil => cases placed
  | cons n under rest ihUnder ihRest =>
    obtain ⟨_, here, beside⟩ := stored
    rw [Forest.places, List.mem_cons, List.mem_append] at placed
    rcases placed with same | inside | later
    · cases same
      refine ⟨under, here, fun q listed => ?_⟩
      exact List.mem_cons_of_mem _ (List.mem_append_left _ listed)
    · obtain ⟨B, held, part⟩ := ihUnder here inside
      refine ⟨B, held, fun q listed => ?_⟩
      exact List.mem_cons_of_mem _ (List.mem_append_left _ (part listed))
    · obtain ⟨B, held, part⟩ := ihRest beside later
      refine ⟨B, held, fun q listed => ?_⟩
      exact List.mem_cons_of_mem _ (List.mem_append_right _ (part listed))

theorem root_place {F : Forest ν} {b i : Nat} {c : ν} (root : F.roots[i]? = some c) :
    (c, b + i) ∈ F.places b := by
  induction F generalizing b i with
  | nil => cases root
  | cons n under rest _ ihRest =>
    cases i with
    | zero =>
      cases root
      exact List.mem_cons_self
    | succ i =>
      have placed := ihRest (b := b + 1) root
      rw [Nat.add_assoc, Nat.add_comm 1 i] at placed
      exact List.mem_cons_of_mem _ (List.mem_append_right _ placed)

end Links

section Search

variable (first next : ν → Option ν) (visit : α → ν → α) (K : Nat) {F : Forest ν}

def pushFrom : Nat → Option ν → List ν → List ν
  | 0, _, stack => stack
  | _ + 1, none, stack => stack
  | room + 1, some c, stack => pushFrom room (next c) (c :: stack)

/-- Take a node off the stack, visit it and put its children there, until the stack is empty. -/
def search : Nat → List ν → α → Option α
  | _, [], acc => some acc
  | 0, _ :: _, _ => none
  | fuel + 1, n :: stack, acc =>
    search fuel (pushFrom next (K - stack.length) (first n) stack) (visit acc n)

variable {first next visit K}

def pushed (K : Nat) : Forest ν → List (ν × Forest ν) → List (ν × Forest ν)
  | .nil, es => es
  | .cons n below rest, es => if es.length < K then pushed K rest ((n, below) :: es) else es

def ahead (K : Nat) : List (ν × Forest ν) → List ν
  | [] => []
  | (n, below) :: es => n :: (below.kept K es.length ++ ahead K es)

theorem pushFrom_stored {l : Option ν} (stored : Stored first next l F) (es : List (ν × Forest ν)) :
    pushFrom next (K - es.length) l (es.map Prod.fst) = (pushed K F es).map Prod.fst := by
  induction F generalizing l es with
  | nil =>
    obtain rfl : l = none := stored
    cases K - es.length <;> rfl
  | cons n below rest _ ih =>
    obtain ⟨rfl, _, beside⟩ := stored
    rw [pushed]
    split_ifs with room
    · have left : K - es.length = K - (es.length + 1) + 1 := by omega
      rw [left]
      exact ih beside ((n, below) :: es)
    · rw [show K - es.length = 0 by omega]
      rfl

theorem pushed_stored {l : Option ν} (stored : Stored first next l F) {es : List (ν × Forest ν)}
    (held : ∀ e ∈ es, Stored first next (first e.1) e.2) :
    ∀ e ∈ pushed K F es, Stored first next (first e.1) e.2 := by
  induction F generalizing l es with
  | nil => exact held
  | cons n below rest _ ih =>
    rw [pushed]
    split_ifs
    · apply ih stored.2.2
      intro e listed
      rcases List.mem_cons.mp listed with rfl | older
      · exact stored.2.1
      · exact held e older
    · exact held

theorem ahead_pushed (F : Forest ν) (es : List (ν × Forest ν)) :
    (ahead K (pushed K F es)).Perm (F.kept K es.length ++ ahead K es) := by
  induction F generalizing es with
  | nil => exact List.Perm.refl _
  | cons n below rest _ ih =>
    rw [pushed]
    split_ifs with room
    · rw [Forest.kept_cons n below rest room]
      refine (ih ((n, below) :: es)).trans ?_
      rw [List.length_cons, ahead]
      have middle := @List.perm_append_comm _ (rest.kept K (es.length + 1))
        (n :: below.kept K es.length)
      have whole := middle.append_right (ahead K es)
      simpa only [List.append_assoc, List.cons_append] using whole
    · rw [Forest.kept_full _ (by omega)]
      exact List.Perm.refl _

def load : List (ν × Forest ν) → Nat
  | [] => 0
  | (_, below) :: es => below.nodes.length + 1 + load es

theorem load_pushed (F : Forest ν) (es : List (ν × Forest ν)) :
    load (pushed K F es) ≤ F.nodes.length + load es := by
  induction F generalizing es with
  | nil => exact Nat.le_of_eq (Nat.zero_add _).symm
  | cons n below rest _ ih =>
    rw [pushed, Forest.nodes, List.length_cons, List.length_append]
    split_ifs
    · have less := ih ((n, below) :: es)
      rw [load] at less
      omega
    · omega

theorem search_ahead {fuel : Nat} {es : List (ν × Forest ν)} {acc : α}
    (held : ∀ e ∈ es, Stored first next (first e.1) e.2) (enough : load es ≤ fuel) :
    ∃ seen : List ν,
      search first next visit K fuel (es.map Prod.fst) acc = some (seen.foldl visit acc) ∧
      seen.Perm (ahead K es) := by
  induction fuel generalizing es acc with
  | zero =>
    cases es with
    | nil => exact ⟨[], rfl, List.Perm.refl _⟩
    | cons e es =>
      rw [load] at enough
      omega
  | succ fuel ih =>
    cases es with
    | nil => exact ⟨[], rfl, List.Perm.refl _⟩
    | cons e es =>
      obtain ⟨n, below⟩ := e
      have here := held (n, below) List.mem_cons_self
      have others : ∀ e ∈ es, Stored first next (first e.1) e.2 := fun e listed =>
        held e (List.mem_cons_of_mem _ listed)
      have less := load_pushed (K := K) below es
      rw [load] at enough
      obtain ⟨seen, run, same⟩ := @ih (pushed K below es) (visit acc n)
        (pushed_stored here others) (by omega)
      refine ⟨n :: seen, ?_, (same.trans (ahead_pushed below es)).cons n⟩
      have step := pushFrom_stored (K := K) here es
      rw [List.map_cons, search, List.length_map, step, run]
      rfl

theorem search_root {root : ν} (stored : Stored first next (first root) F) {fuel : Nat}
    (enough : F.nodes.length < fuel) (acc : α) :
    ∃ seen : List ν, search first next visit K fuel [root] acc = some (seen.foldl visit acc) ∧
      seen.Perm (root :: F.kept K 0) := by
  have held : ∀ e ∈ [(root, F)], Stored first next (first e.1) e.2 := by
    intro e listed
    obtain rfl := List.mem_singleton.mp listed
    exact stored
  obtain ⟨seen, run, same⟩ := @search_ahead ν α first next visit K fuel [(root, F)] acc held enough
  refine ⟨seen, run, ?_⟩
  rwa [ahead, ahead, List.append_nil] at same

end Search

end XinuRpi5.Lib.StackSearch
