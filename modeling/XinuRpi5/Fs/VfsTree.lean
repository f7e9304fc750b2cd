/- source: fs/vfs.c
   digest: The nodes form one tree with different sibling names, as long as no cut name collides. -/

import XinuRpi5.Fs.VfsPaths

namespace XinuRpi5.Fs.VfsTree

open Lib.GuardedRuns Lib.LinkedChain Vfs VfsLinks VfsPaths

structure Tree (v : Store) : Prop where
  /-- Every child list is finite. -/
  lists : ∀ p < v.used, ∃ cs, Siblings v.heap (v.heap p).children cs
  /-- The parent of a node is the directory whose child list holds it. -/
  parent : ∀ p < v.used, ∀ c, Child v p c ↔ c < v.used ∧ (v.heap c).parent = some p
  /-- Each node is reachable from the root in exactly one way. -/
  once : ∀ n < v.used, ∃! way, Path v way n
  /-- Siblings have different names. -/
  names : ∀ p < v.used, ∀ c c', Child v p c → Child v p c' →
    (v.heap c).name = (v.heap c').name → c = c'
  /-- Only directories have children. -/
  dirs : ∀ p < v.used, ∀ c, Child v p c → (v.heap p).kind = .dir
  /-- `vfs_node_count` counts the reachable nodes. -/
  count : ∃ ns : List Nat, ns.Nodup ∧ (∀ n, n ∈ ns ↔ ∃ way, Path v way n) ∧
    v.nodeCount = ns.length

structure Shape (v : Store) (kids : Nat → List Nat) : Prop extends Linked v kids where
  names : ∀ p < v.used, ∀ c ∈ kids p, ∀ c' ∈ kids p,
    (v.heap c).name = (v.heap c').name → c = c'
  count : v.nodeCount = v.used

section Shapes

variable {v v' : Store} {kids kids' : Nat → List Nat} {p : Nat} {kind : Kind} {name : List Char}

theorem Shape.tree (shape : Shape v kids) : Tree v where
  lists p inside := ⟨kids p, shape.chain p inside⟩
  parent p inside c := (shape.child_iff inside).trans (shape.mem p inside c)
  once n inside := by
    obtain ⟨way, path⟩ := shape.path_exists inside
    exact ⟨way, path, fun other path' => shape.path_unique path' path⟩
  names p inside c c' first second same :=
    shape.names p inside c ((shape.child_iff inside).mp first) c'
      ((shape.child_iff inside).mp second) same
  dirs p inside c child := by
    by_contra file
    have listed := (shape.child_iff inside).mp child
    rw [shape.dirs p inside file] at listed
    cases listed
  count := by
    refine ⟨List.range v.used, List.nodup_range, fun n => ?_, ?_⟩
    · rw [List.mem_range]
      exact ⟨shape.path_exists, fun ⟨_, path⟩ => shape.path_used path⟩
    · rw [List.length_range, shape.count]

theorem shape_init : Shape init fun _ => [] := by
  refine ⟨linked_init, fun _ _ c listed => ?_, rfl⟩
  cases listed

/-- A new node keeps the shape when no child has the name that is stored for it. -/
theorem inserted_shape (shape : Shape v kids) (inside : p < v.used)
    (dir : (v.heap p).kind = .dir) (unused : ∀ c ∈ kids p, (v.heap c).name ≠ strCopy name)
    (ins : Inserted v v' (kids p) p kind name) : Shape v' (grow kids p v.used) := by
  have linked := ins.linked shape.toLinked inside dir
  refine ⟨linked, fun q small c first c' second same => ?_, ?_⟩
  · have other : p ≠ v.used := Nat.ne_of_lt inside
    have nameKept : ∀ {q}, q < v.used → (v'.heap q).name = (v.heap q).name :=
      fun small => (ins.kept _ (Nat.ne_of_lt small)).1
    have clash : ∀ d ∈ kids p, (v'.heap d).name ≠ (v'.heap v.used).name := by
      intro d listed
      rw [nameKept ((shape.mem p inside d).mp listed).1, ins.fresh.1]
      exact unused d listed
    by_cases here : q = p
    · have kidsP : grow kids p v.used p = kids p ++ [v.used] := by simp [grow]
      rw [here, kidsP, List.mem_append, List.mem_singleton] at first second
      rcases first with first | rfl
      · rcases second with second | rfl
        · rw [nameKept ((shape.mem p inside c).mp first).1,
            nameKept ((shape.mem p inside c').mp second).1] at same
          exact shape.names p inside c first c' second same
        · exact absurd same (clash c first)
      · rcases second with second | rfl
        · exact absurd same.symm (clash c' second)
        · rfl
    · by_cases self : q = v.used
      · have kidsN : grow kids p v.used v.used = [] := by
          simp [grow, Function.update_of_ne other.symm]
        rw [self, kidsN] at first
        cases first
      · have kidsQ : grow kids p v.used q = kids q := by
          simp [grow, Function.update_of_ne here, Function.update_of_ne self]
        rw [kidsQ] at first second
        have below : q < v.used := by
          rw [ins.used] at small
          omega
        rw [nameKept ((shape.mem q below c).mp first).1,
          nameKept ((shape.mem q below c').mp second).1] at same
        exact shape.names q below c first c' second same
  · rw [ins.count, ins.used, shape.count]

theorem contents_shape (kept : Contents v v') (shape : Shape v kids) : Shape v' kids := by
  refine ⟨kept.linked shape.toLinked, ?_, ?_⟩
  · intro p inside c first c' second equal
    rw [kept.used] at inside
    rw [kept.name, kept.name] at equal
    exact shape.names p inside c first c' second equal
  · rw [kept.used, kept.count, shape.count]

theorem grown_shape {fit : Prop} (grown : Grown fit v kids v' kids') (fits : fit)
    (shape : Shape v kids) : Shape v' kids' := by
  induction grown with
  | refl => exact shape
  | insert inside dir unused ins _ ih =>
    exact ih (inserted_shape shape inside dir (unused fits) ins)
  | write kept _ ih => exact ih (contents_shape kept shape)

end Shapes

/-- In every run whose calls meet the condition, the nodes form one tree in
every state, and every such call returns. -/
theorem runs_tree {v : Store} (run : Runs step (fun v op => Valid v op ∧ Fits v op) init v) :
    Tree v ∧ ∀ op, Valid v op → Fits v op → ∃ v', step v op = some v' := by
  have shaped : ∃ kids, Shape v kids := by
    apply run.invariant (I := fun v => ∃ kids, Shape v kids) ⟨_, shape_init⟩
    rintro s op s' ⟨kids, shape⟩ ⟨valid, fits⟩ next
    obtain ⟨t, kids', equal, grown⟩ := step_grown shape.toLinked valid
    obtain rfl := Option.some.inj (next.symm.trans equal)
    exact ⟨kids', grown_shape grown fits shape⟩
  obtain ⟨kids, shape⟩ := shaped
  refine ⟨shape.tree, fun op valid fits => ?_⟩
  obtain ⟨v', _, equal, _⟩ := step_grown shape.toLinked valid
  exact ⟨v', equal⟩

/-- A directory of one letter, and beside it one whose name is cut to 31 letters. -/
theorem runs_tree_long_name : ∃ v, v.used = 3 ∧ (v.heap 2).name = List.replicate 31 'a' ∧
    Runs step (fun v op => Valid v op ∧ Fits v op) init v ∧ Tree v := by
  have calls : ∃ u v, step init (.mkdir (some 0) ['b'] true) = some u ∧ u.used = 2 ∧
      step u (.mkdir (some 0) (List.replicate 32 'a') true) = some v ∧ v.used = 3 ∧
      (v.heap 2).name = List.replicate 31 'a' ∧ (u.heap 0).children = some 1 ∧
      (u.heap 1).next = none ∧ (u.heap 1).name = ['b'] :=
    ⟨_, _, rfl, rfl, rfl, rfl, rfl, rfl, rfl, rfl⟩
  obtain ⟨u, v, one, usedU, two, used, long, first, last, name⟩ := calls
  have begun : Runs step (fun v op => Valid v op ∧ Fits v op) init u := by
    refine (Runs.refl init).snoc ⟨?_, ?_⟩ one
    · rintro p ⟨⟩
      decide
    · rintro p ⟨⟩ _ _ long
      exact absurd long (by decide)
  have run : Runs step (fun v op => Valid v op ∧ Fits v op) init v := by
    refine begun.snoc ⟨?_, ?_⟩ two
    · rintro p ⟨⟩
      rw [usedU]
      decide
    · rintro p ⟨⟩ _ _ _ c ⟨cs, siblings, listed⟩ same
      have chain : Siblings u.heap (u.heap 0).children [1] := ⟨first, last⟩
      rw [Seg.unique points_functional siblings chain, List.mem_singleton] at listed
      rw [listed, name] at same
      exact absurd same (by decide)
  exact ⟨v, used, long, run, (runs_tree run).1⟩

/-- Making a directory with the same 32-letter name twice: the search compares
the whole name, the stored one has 31 letters, so the root gets two children of
one name. -/
theorem long_name_twice : ∃ v, Runs step Valid init v ∧ ¬ Tree v := by
  have calls : ∃ u v, step init (.mkdir (some 0) (List.replicate 32 'a') true) = some u ∧
      0 < u.used ∧ step u (.mkdir (some 0) (List.replicate 32 'a') true) = some v ∧
      (v.heap 0).children = some 1 ∧ (v.heap 1).next = some 2 ∧ (v.heap 2).next = none ∧
      (v.heap 1).name = (v.heap 2).name ∧ 0 < v.used := ⟨_, _, rfl, by decide, rfl, by decide⟩
  obtain ⟨u, v, one, usedU, two, first, second, last, same, used⟩ := calls
  have run : Runs step Valid init v := by
    refine ((Runs.refl init).snoc ?_ one).snoc ?_ two
    · rintro p ⟨⟩
      decide
    · rintro p ⟨⟩
      exact usedU
  refine ⟨v, run, fun tree => ?_⟩
  have chain : Siblings v.heap (v.heap 0).children [1, 2] := ⟨first, second, last⟩
  have equal := tree.names 0 used 1 2 ⟨_, chain, by simp⟩ ⟨_, chain, by simp⟩ same
  cases equal

end XinuRpi5.Fs.VfsTree
