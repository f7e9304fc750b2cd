/- source: fs/vfs.c
   digest: The total of the file sizes leaves out the nodes for which the stack has no room. -/

import Mathlib.Algebra.GroupWithZero.Nat
import XinuRpi5.Lib.StackSearch
import XinuRpi5.Fs.VfsPaths

namespace XinuRpi5.Fs.VfsTotal

open Lib.GuardedRuns Lib.LinkedChain Lib.StackSearch
open Vfs VfsLinks VfsPaths

section Statement

variable (v : Store)

def fileSize (n : Nat) : Nat := if (v.heap n).kind = .file then (v.heap n).size else 0

def sizes (ns : List Nat) : Nat := (ns.map (fileSize v)).sum

/-- The total is the sum over the files that are reachable from the root, and so is the sum
over the visits of `vfs_walk`. -/
def CountsFiles : Prop :=
  ∃ ns : List Nat, ns.Nodup ∧ (∀ n, n ∈ ns ↔ ∃ way, Path v way n) ∧
    vfsTotalFileBytes v = some (sizes v ns) ∧
    ∃ visits, vfsWalk v (some 0) 0 = some visits ∧ sizes v (visits.map Prod.snd) = sizes v ns

/-- `s` is the sum of a node's numbers among its siblings, counted from 0, and of those of the
nodes above it. -/
inductive Place : Nat → Nat → Prop
  | root : Place 0 0
  | down {p s c i : Nat} {cs : List Nat} : Place p s →
      Siblings v.heap (v.heap p).children cs → cs[i]? = some c → Place c (s + i)

end Statement

section Forests

variable {v : Store} {kids : Nat → List Nat} {F : Forest Nat} {l : Option Nat}

abbrev Held (v : Store) (l : Option Nat) (F : Forest Nat) : Prop :=
  Stored (fun n => (v.heap n).children) (fun n => (v.heap n).next) l F

theorem held_roots (held : Held v l F) :
    Siblings v.heap l F.roots := by
  induction F generalizing l with
  | nil => exact held
  | cons n below rest _ ih => exact ⟨held.1, ih held.2.2⟩

theorem held_exists (linked : Linked v kids) {p : Nat} (inside : p < v.used) :
    ∃ F, Held v (v.heap p).children F := by
  generalize size : v.used - p = k
  induction k using Nat.strong_induction_on generalizing p with
  | h k ih =>
    have all : ∀ (cs : List Nat) (l : Option Nat), Siblings v.heap l cs →
        (∀ c ∈ cs, p < c ∧ c < v.used) → ∃ F, Held v l F := by
      intro cs
      induction cs with
      | nil => exact fun l chain _ => ⟨.nil, chain⟩
      | cons c cs ihList =>
        rintro l ⟨rfl, rest⟩ bounds
        obtain ⟨low, high⟩ := bounds c List.mem_cons_self
        obtain ⟨below, here⟩ := ih (v.used - c) (by omega) high rfl
        obtain ⟨others, beside⟩ := ihList _ rest fun d listed =>
          bounds d (List.mem_cons_of_mem c listed)
        exact ⟨.cons c below others, rfl, here, beside⟩
    apply all (kids p) _ (linked.chain p inside)
    intro c listed
    obtain ⟨low, up⟩ := (linked.mem p inside c).mp listed
    exact ⟨linked.older c low p up, low⟩

/-- `n` is above `m` or is it. -/
inductive Above (v : Store) (n : Nat) : Nat → Prop
  | self : Above v n n
  | up {m q : Nat} : (v.heap m).parent = some q → Above v n q → Above v n m

theorem Above.le (linked : Linked v kids) {n m : Nat} (above : Above v n m)
    (inside : m < v.used) : n ≤ m := by
  induction above with
  | self => exact Nat.le_refl n
  | up parent _ ih =>
    have less := linked.older _ inside _ parent
    exact Nat.le_trans (ih (Nat.lt_trans less inside)) (Nat.le_of_lt less)

theorem Above.sibling (linked : Linked v kids) {n n' p m : Nat} (above : Above v n m)
    (above' : Above v n' m) (inside : m < v.used) (parent : (v.heap n).parent = some p)
    (parent' : (v.heap n').parent = some p) : n = n' := by
  have below {a b : Nat} (over' : Above v a b) (low : b < v.used)
      (up : (v.heap b).parent = some p) (top : (v.heap a).parent = some p) : a = b := by
    cases over' with
    | self => rfl
    | up here rest =>
      obtain rfl := Option.some.inj (here.symm.trans up)
      have less := linked.older b low _ here
      have more := rest.le linked (Nat.lt_trans less low)
      have self := linked.older a (by omega) _ top
      omega
  induction above with
  | self => exact (below above' inside parent parent').symm
  | @up m q here rest ih =>
    cases above' with
    | self => exact below (.up here rest) inside parent' parent
    | up here' rest' =>
      obtain rfl := Option.some.inj (here.symm.trans here')
      exact ih rest' (Nat.lt_trans (linked.older m inside q here) inside)

theorem Above.trans {v : Store} {a b c : Nat} (first : Above v a b) (second : Above v b c) :
    Above v a c := by
  induction second with
  | self => exact first
  | up here _ ih => exact .up here ih

theorem held_children (linked : Linked v kids) {p : Nat} (inside : p < v.used)
    (held : Held v (v.heap p).children F) :
    F.roots.Nodup ∧ ∀ c ∈ F.roots, c < v.used ∧ (v.heap c).parent = some p := by
  have chain := held_roots held
  refine ⟨Seg.nodup points_functional chain, fun c listed => ?_⟩
  rw [Seg.unique points_functional chain (linked.chain p inside)] at listed
  exact (linked.mem p inside c).mp listed

theorem held_above (linked : Linked v kids) (held : Held v l F)
    (inside : ∀ c ∈ F.roots, c < v.used) :
    ∀ m ∈ F.nodes, m < v.used ∧ ∃ c ∈ F.roots, Above v c m := by
  induction F generalizing l with
  | nil => exact fun m listed => (List.not_mem_nil listed).elim
  | cons n below rest ihBelow ihRest =>
    obtain ⟨rfl, here, beside⟩ := held
    have low := inside n List.mem_cons_self
    have children := (held_children linked low here).2
    intro m listed
    rw [Forest.nodes, List.mem_cons, List.mem_append] at listed
    rcases listed with rfl | under | later
    · exact ⟨low, m, List.mem_cons_self, .self⟩
    · obtain ⟨bound, c, root, above⟩ := ihBelow here (fun c root => (children c root).1) m under
      have up : Above v n c := .up (children c root).2 .self
      exact ⟨bound, n, List.mem_cons_self, up.trans above⟩
    · obtain ⟨bound, c, root, above⟩ :=
        ihRest beside (fun c root => inside c (List.mem_cons_of_mem n root)) m later
      exact ⟨bound, c, List.mem_cons_of_mem n root, above⟩

/-- No node is in the forest twice. -/
theorem held_nodup (linked : Linked v kids) {p : Nat} (held : Held v l F)
    (children : ∀ c ∈ F.roots, c < v.used ∧ (v.heap c).parent = some p) (once : F.roots.Nodup) :
    F.nodes.Nodup := by
  induction F generalizing l p with
  | nil => exact List.nodup_nil
  | cons n below rest ihBelow ihRest =>
    obtain ⟨rfl, here, beside⟩ := held
    obtain ⟨low, up⟩ := children n List.mem_cons_self
    obtain ⟨onceBelow, childrenBelow⟩ := held_children linked low here
    have childrenRest : ∀ c ∈ rest.roots, c < v.used ∧ (v.heap c).parent = some p :=
      fun c root => children c (List.mem_cons_of_mem n root)
    obtain ⟨other, onceRest⟩ := List.nodup_cons.mp once
    have under := held_above linked here fun c root => (childrenBelow c root).1
    have later := held_above linked beside fun c root => (childrenRest c root).1
    -- what is beside `n` is below another child of `p`
    have apart {m : Nat} (bound : m < v.used) (above : Above v n m) : m ∉ rest.nodes := by
      intro listed
      obtain ⟨_, c, root, above'⟩ := later m listed
      have same := above.sibling linked above' bound up (childrenRest c root).2
      exact other (same ▸ root)
    rw [Forest.nodes, List.nodup_cons, List.mem_append, List.nodup_append]
    refine ⟨?_, ihBelow here childrenBelow onceBelow, ihRest beside childrenRest onceRest, ?_⟩
    · rintro (inBelow | inRest)
      · obtain ⟨_, c, root, above⟩ := under n inBelow
        obtain ⟨bound, parent⟩ := childrenBelow c root
        have less := linked.older c bound n parent
        have more := above.le linked low
        omega
      · exact apart low .self inRest
    · rintro m inBelow m' inRest rfl
      obtain ⟨bound, c, root, above⟩ := under m inBelow
      have down : Above v n c := .up (childrenBelow c root).2 .self
      exact apart bound (down.trans above) inRest

/-- The places in the forest are the places in the tree. -/
theorem place_iff (held : Held v (v.heap 0).children F) {n s : Nat} :
    Place v n s ↔ (n, s) = (0, 0) ∨ (n, s) ∈ F.places 0 := by
  constructor
  · intro place
    induction place with
    | root => exact .inl rfl
    | @down p s c i cs _ chain listed ih =>
      have under : ∃ B, Held v (v.heap p).children B ∧ B.places s ⊆ F.places 0 := by
        rcases ih with same | inside
        · cases same
          exact ⟨F, held, List.Subset.refl _⟩
        · exact held.below inside
      obtain ⟨B, stored, part⟩ := under
      rw [Seg.unique points_functional chain (held_roots stored)] at listed
      exact .inr (part (root_place listed))
  · have all : ∀ (G : Forest Nat) (l : Option Nat) (front : List Nat) (p t : Nat),
        Place v p t → Held v l G → Siblings v.heap (v.heap p).children (front ++ G.roots) →
          ∀ q ∈ G.places (t + front.length), Place v q.1 q.2 := by
      intro G
      induction G with
      | nil => exact fun l front p t _ _ _ q listed => (List.not_mem_nil listed).elim
      | cons c below rest ihBelow ihRest =>
        intro l front p t place stored chain q listed
        have here : Place v c (t + front.length) := by
          apply Place.down place chain
          rw [List.getElem?_append_right (Nat.le_refl _), Nat.sub_self]
          rfl
        rw [Forest.places, List.mem_cons, List.mem_append] at listed
        rcases listed with rfl | under | later
        · exact here
        · exact ihBelow _ [] c _ here stored.2.1 (held_roots stored.2.1) q under
        · have longer : front ++ (Forest.cons c below rest).roots =
              front ++ [c] ++ rest.roots := by
            rw [List.append_assoc]
            rfl
          rw [longer] at chain
          refine ihRest _ (front ++ [c]) p t place stored.2.2 chain q ?_
          rwa [List.length_append, List.length_singleton, ← Nat.add_assoc]
    rintro (same | inside)
    · cases same
      exact .root
    · exact all F _ [] 0 0 .root held (held_roots held) (n, s) inside

theorem path_iff_place {n : Nat} : (∃ way, Path v way n) ↔ ∃ s, Place v n s := by
  constructor
  · rintro ⟨way, path⟩
    induction path with
    | root => exact ⟨0, .root⟩
    | down _ child ih =>
      obtain ⟨s, place⟩ := ih
      obtain ⟨cs, chain, listed⟩ := child
      obtain ⟨i, at_⟩ := List.mem_iff_getElem?.mp listed
      exact ⟨s + i, place.down chain at_⟩
  · rintro ⟨s, place⟩
    induction place with
    | root => exact ⟨[0], .root⟩
    | down _ chain listed ih =>
      obtain ⟨way, path⟩ := ih
      exact ⟨_, path.down ⟨_, chain, List.mem_of_getElem? listed⟩⟩

end Forests

section Total

variable {v : Store} {kids : Nat → List Nat} {F : Forest Nat}

/-- `if (n->kind == VFS_FILE) total += n->size`. -/
def addSize (v : Store) (total n : Nat) : Nat :=
  if (v.heap n).kind = .file then (total + (v.heap n).size) % 18446744073709551616 else total

theorem pushChildren_eq (heap : Nat → Node) (room : Nat) (l : Option Nat) (stack : List Nat) :
    pushChildren heap room l stack = pushFrom (fun n => (heap n).next) room l stack := by
  induction room generalizing l stack with
  | zero => rfl
  | succ room ih =>
    cases l with
    | none => rfl
    | some c => exact ih (heap c).next (c :: stack)

theorem totalFrom_eq (v : Store) (fuel : Nat) (stack : List Nat) (total : Nat) :
    totalFrom v.heap fuel stack total = search (fun n => (v.heap n).children)
      (fun n => (v.heap n).next) (addSize v) 64 fuel stack total := by
  induction fuel generalizing stack total with
  | zero => cases stack <;> rfl
  | succ fuel ih =>
    cases stack with
    | nil => rfl
    | cons n stack =>
      rw [totalFrom, search, pushChildren_eq]
      exact ih _ _

theorem foldl_addSize (seen : List Nat) {total : Nat} (small : total < 18446744073709551616) :
    seen.foldl (addSize v) total = (total + sizes v seen) % 18446744073709551616 := by
  induction seen generalizing total with
  | nil => exact (Nat.mod_eq_of_lt small).symm
  | cons n seen ih =>
    have sum : sizes v (n :: seen) = fileSize v n + sizes v seen := List.sum_cons
    have step : addSize v total n = (total + fileSize v n) % 18446744073709551616 := by
      unfold addSize fileSize
      split_ifs
      · rfl
      · exact (Nat.mod_eq_of_lt small).symm
    rw [List.foldl_cons, step, sum, ih (Nat.mod_lt _ (by decide)), Nat.mod_add_mod, Nat.add_assoc]

theorem sizes_perm {ns ms : List Nat} (same : ns.Perm ms) : sizes v ns = sizes v ms :=
  (same.map (fileSize v)).sum_nat

theorem total_eq (held : Held v (v.heap 0).children F) (enough : F.nodes.length < v.used) :
    vfsTotalFileBytes v = some (sizes v (0 :: F.kept 64 0) % 18446744073709551616) := by
  obtain ⟨seen, run, same⟩ := @search_root Nat Nat _ _ (addSize v) 64 F 0 held v.used enough 0
  rw [vfsTotalFileBytes, totalFrom_eq, run, foldl_addSize seen (by decide), Nat.zero_add,
    sizes_perm same]

theorem walkFrom_held {l : Option Nat} (held : Held v l F) {fuel depth : Nat}
    (enough : F.nodes.length < fuel) :
    ∃ visits, walkFrom v.heap fuel depth l = some visits ∧ visits.map Prod.snd = F.nodes := by
  induction F generalizing l fuel depth with
  | nil =>
    obtain rfl : l = none := held
    cases fuel with
    | zero => cases enough
    | succ fuel => exact ⟨[], rfl, rfl⟩
  | cons n below rest ihBelow ihRest =>
    obtain ⟨rfl, here, beside⟩ := held
    rw [Forest.nodes, List.length_cons, List.length_append] at enough
    cases fuel with
    | zero => cases enough
    | succ fuel =>
      obtain ⟨down, runDown, nodesDown⟩ :=
        @ihBelow _ here fuel (depth + 1) (by omega)
      obtain ⟨on, runOn, nodesOn⟩ := @ihRest _ beside fuel depth (by omega)
      refine ⟨(depth, n) :: (down ++ on), ?_, ?_⟩
      · rw [walkFrom, runDown, Option.bind_eq_bind, Option.bind_some, runOn]
        rfl
      · rw [List.map_cons, List.map_append, nodesDown, nodesOn]
        rfl

theorem sizes_split (F : Forest Nat) : sizes v (0 :: F.nodes) = sizes v (0 :: F.kept 64 0) +
    sizes v (((F.places 0).filter fun p => !(p.2 < 64)).map Prod.fst) := by
  have parts := (List.filter_append_perm (fun p : Nat × Nat => p.2 < 64) (F.places 0)).map Prod.fst
  rw [List.map_append, Forest.places_nodes] at parts
  have sum (n : Nat) (ns : List Nat) : sizes v (n :: ns) = fileSize v n + sizes v ns :=
    List.sum_cons
  rw [sum, sum, ← sizes_perm parts, Nat.add_assoc]
  congr 1
  unfold sizes
  rw [List.map_append, List.sum_append_nat]
  rfl

theorem lost_iff (held : Held v (v.heap 0).children F) :
    sizes v (((F.places 0).filter fun p => !(p.2 < 64)).map Prod.fst) = 0 ↔
      ∀ n s, Place v n s → 64 ≤ s → fileSize v n = 0 := by
  unfold sizes
  rw [List.sum_eq_zero_iff_forall_eq_nat, List.map_map]
  constructor
  · intro empty n s place far
    rcases (place_iff held).mp place with same | placed
    · cases same
      omega
    · have lost : (n, s) ∈ (F.places 0).filter fun p => !(p.2 < 64) := by
        rw [List.mem_filter]
        refine ⟨placed, ?_⟩
        rw [decide_eq_false (by omega)]
        rfl
      exact empty _ (List.mem_map_of_mem lost)
  · intro empty x listed
    obtain ⟨⟨n, s⟩, lost, rfl⟩ := List.mem_map.mp listed
    obtain ⟨placed, far⟩ := List.mem_filter.mp lost
    have high : 64 ≤ s := by simpa using far
    exact empty n s ((place_iff held).mpr (.inr placed)) high

theorem held_root (linked : Linked v kids) (held : Held v (v.heap 0).children F) :
    (0 :: F.nodes).Nodup ∧ ∀ n, n ∈ 0 :: F.nodes ↔ ∃ way, Path v way n := by
  obtain ⟨once, children⟩ := held_children linked linked.root.1 held
  have above := held_above linked held fun c root => (children c root).1
  refine ⟨List.nodup_cons.mpr ⟨?_, held_nodup linked held children once⟩, fun n => ?_⟩
  · intro again
    obtain ⟨_, c, root, over'⟩ := above 0 again
    have least := over'.le linked linked.root.1
    obtain ⟨bound, parent⟩ := children c root
    have less := linked.older c bound 0 parent
    omega
  · rw [path_iff_place, List.mem_cons, ← Forest.places_nodes F 0, List.mem_map]
    constructor
    · rintro (rfl | ⟨⟨m, s⟩, placed, rfl⟩)
      · exact ⟨0, .root⟩
      · exact ⟨s, (place_iff held).mpr (.inr placed)⟩
    · rintro ⟨s, place⟩
      rcases (place_iff held).mp place with same | placed
      · cases same
        exact .inl rfl
      · exact .inr ⟨(n, s), placed, rfl⟩

/-- The total is right exactly if the sizes add up below 2^64 and every file is empty that has
64 or more siblings in front of it, of itself and of the nodes above it. -/
theorem total_file_bytes_iff (linked : Linked v kids) : CountsFiles v ↔
    sizes v (List.range v.used) < 18446744073709551616 ∧
      ∀ n s, Place v n s → 64 ≤ s → fileSize v n = 0 := by
  obtain ⟨F, held⟩ := held_exists linked linked.root.1
  obtain ⟨once, reach⟩ := held_root linked held
  have range : (0 :: F.nodes).Perm (List.range v.used) := by
    rw [List.perm_ext_iff_of_nodup once List.nodup_range]
    intro n
    rw [reach, List.mem_range]
    exact ⟨fun ⟨_, path⟩ => linked.path_used path, linked.path_exists⟩
  have enough : F.nodes.length < v.used := by
    have same := range.length_eq
    rw [List.length_cons, List.length_range] at same
    omega
  have split := sizes_split (v := v) F
  rw [← sizes_perm range, ← lost_iff held]
  constructor
  · rintro ⟨ns, onceNs, reachNs, total, _⟩
    have same : ns.Perm (0 :: F.nodes) := by
      rw [List.perm_ext_iff_of_nodup onceNs once]
      exact fun n => (reachNs n).trans (reach n).symm
    rw [total_eq held enough, sizes_perm same] at total
    have equal := Option.some.inj total
    constructor <;> omega
  · rintro ⟨small, empty⟩
    obtain ⟨visits, walk, nodes⟩ :=
      @walkFrom_held v F _ held (v.used + 1) 1 (by omega)
    refine ⟨0 :: F.nodes, once, reach, ?_, (0, 0) :: visits, ?_, ?_⟩
    · rw [total_eq held enough, split, empty, Nat.add_zero, Nat.mod_eq_of_lt (by omega)]
    · rw [vfsWalk, walk]
      rfl
    · rw [List.map_cons, nodes]

/-- A file of two bytes below the root. -/
theorem total_file_bytes_iff_written : ∃ v, Runs step Valid init v ∧ fileSize v 1 = 2 ∧
    CountsFiles v := by
  have calls : ∃ u v, step init (.createFile (some 0) ['a'] true) = some u ∧ 1 < u.used ∧
      step u (.write (some 1) [65, 66] true) = some v ∧ (v.heap 0).children = some 1 ∧
      (v.heap 1).next = none ∧ (v.heap 1).children = none ∧ fileSize v 1 = 2 ∧
      sizes v (List.range v.used) < 18446744073709551616 :=
    ⟨_, _, rfl, by decide, rfl, rfl, rfl, rfl, rfl, by decide⟩
  obtain ⟨u, v, made, used, written, first, last, leaf, two, small⟩ := calls
  have begun : Runs step Valid init u := by
    refine (Runs.refl init).snoc ?_ made
    rintro p ⟨⟩
    decide
  have run : Runs step Valid init v := by
    refine begun.snoc ?_ written
    rintro f ⟨⟩
    exact used
  have front : ∀ n s, Place v n s → (n = 0 ∨ n = 1) ∧ s = 0 := by
    intro n s place
    induction place with
    | root => exact ⟨.inl rfl, rfl⟩
    | @down p s c i cs _ siblings listed ih =>
      obtain ⟨rfl | rfl, rfl⟩ := ih
      · have chain : Siblings v.heap (v.heap 0).children [1] := ⟨first, last⟩
        rw [Seg.unique points_functional siblings chain] at listed
        cases i with
        | zero => exact ⟨.inr (Option.some.inj listed).symm, rfl⟩
        | succ i => cases listed
      · have chain : Siblings v.heap (v.heap 1).children [] := leaf
        rw [Seg.unique points_functional siblings chain] at listed
        cases listed
  obtain ⟨kids, linked⟩ := runs_linked run
  refine ⟨v, run, two, (total_file_bytes_iff linked).mpr ⟨small, fun n s place far => ?_⟩⟩
  have near := (front n s place).2
  omega

end Total

def wide : Store where
  heap n :=
    if n = 0 then { rootNode with children := some 1 }
    else ⟨Nat.toDigits 10 n, .file, 1, 1, some [7], some 0, none,
      if n < 65 then some (n + 1) else none⟩
  used := 66
  nodeCount := 66

theorem wide_linked : Linked wide fun p => if p = 0 then List.range' 1 65 else [] := by
  have file (n : Nat) (notRoot : n ≠ 0) : wide.heap n = ⟨Nat.toDigits 10 n, .file, 1, 1, some [7],
      some 0, none, if n < 65 then some (n + 1) else none⟩ := if_neg notRoot
  have chain (k : Nat) : ∀ n, n ≠ 0 → n + k = 65 →
      Siblings wide.heap (some n) (List.range' n (k + 1)) := by
    induction k with
    | zero =>
      intro n notRoot last
      refine ⟨rfl, ?_⟩
      change (wide.heap n).next = none
      rw [file n notRoot]
      exact if_neg (by omega)
    | succ k ih =>
      intro n notRoot last
      have on : (wide.heap n).next = some (n + 1) := by
        rw [file n notRoot]
        exact if_pos (by omega)
      refine ⟨rfl, ?_⟩
      change Siblings wide.heap (wide.heap n).next (List.range' (n + 1) (k + 1))
      rw [on]
      exact ih (n + 1) (by omega) (by omega)
  refine ⟨⟨by decide, rfl, rfl⟩, ?_, ?_, ?_, ?_, ?_⟩
  · intro p _
    split_ifs with root
    · rw [root]
      exact chain 64 1 (by decide) rfl
    · rw [file p root]
      rfl
  · intro p _ c
    by_cases top : c = 0
    · subst top
      split_ifs
      · simp [wide, rootNode]
      · simp [wide, rootNode]
    · rw [file c top]
      by_cases root : p = 0
      · simp [root, wide]
        omega
      · simp [root, Ne.symm root]
  · intro c _ top
    exact ⟨0, by rw [file c top]⟩
  · intro c _ p up
    by_cases top : c = 0
    · subst top
      cases up
    · rw [file c top] at up
      cases up
      omega
  · intro p _ other
    by_cases root : p = 0
    · subst root
      exact absurd rfl other
    · exact if_neg root

/-- The last file is left out. -/
theorem total_file_bytes_wide : (∃ kids, Linked wide kids) ∧
    vfsTotalFileBytes wide = some 64 ∧
    (∃ visits, vfsWalk wide (some 0) 0 = some visits ∧
      sizes wide (visits.map Prod.snd) = 65) ∧ ¬ CountsFiles wide := by
  have total : vfsTotalFileBytes wide = some 64 := by decide +kernel
  have walk : ∃ visits, vfsWalk wide (some 0) 0 = some visits ∧
      sizes wide (visits.map Prod.snd) = 65 := ⟨_, rfl, by decide +kernel⟩
  refine ⟨⟨_, wide_linked⟩, total, walk, ?_⟩
  rintro ⟨ns, _, _, total', visits', walk', sum'⟩
  obtain ⟨visits, walk, sum⟩ := walk
  rw [total] at total'
  rw [walk] at walk'
  cases walk'
  rw [sum, ← Option.some.inj total'] at sum'
  cases sum'

end XinuRpi5.Fs.VfsTotal
