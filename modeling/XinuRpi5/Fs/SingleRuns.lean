/- source: fs/fat32.c
   digest: When a sequence of fat32_write_file calls keeps the volume consistent. -/

import XinuRpi5.Fs.SingleConsistent

namespace XinuRpi5.Fs.SingleRuns

open Lib.LinkedChain Lib.GuardedRuns Fat32 FatChains
open FatEntries SingleCluster SingleConsistent
open WriteFailure (WellFormed)

structure Call where
  dir : Nat
  name : List UInt8
  data : List UInt8

def after (v : Volume) (call : Call) : Volume := (writeFile v call.dir call.name call.data).1

def Successful (v : Volume) (call : Call) : Prop :=
  Directory v call.dir ∧ (writeFile v call.dir call.name call.data).2 = 0

/-- The name is one that directories list, and the first slot that fits may take it. -/
def Fitting (v : Volume) (call : Call) : Prop :=
  Listable (nameTo83 call.name) ∧ ∀ s, findSlot v call.dir (nameTo83 call.name) = some s →
    Meets v call.dir (nameTo83 call.name) s

section Converse

variable {v v' : Volume} {name data : List UInt8} {c : Nat} {s : Slot} {p : Owner}
  (con : Consistent v) (owns : Owns v p) (isDirectory : IsDirectory v p)
  (stored : Stored v (headOf v p) name data c s v')
  (kept : Kept v v' (headOf v p) (nameTo83 name)) {u : Slot}

include kept

theorem listable_of_kept : Listable (nameTo83 name) := by
  obtain ⟨u, ⟨listed, named⟩, _⟩ := kept.one
  rw [walkDir_eq] at listed
  obtain ⟨front, shown⟩ := List.mem_filter.mp listed
  have live := List.mem_takeWhile_imp front
  have first : byteAt v' u 0 = (nameTo83 name).getD 0 0 := by
    rw [← named]
    rfl
  rw [shows, first, named, decide_eq_true_eq] at shown
  rw [first, decide_eq_true_eq] at live
  exact ⟨live, shown.1, shown.2.2.2.1, shown.2.2.2.2⟩

include con owns stored

theorem slot_of_kept (listed : u ∈ walkDir v' (headOf v p)) (named : rawName v' u = nameTo83 name) :
    u = s := by
  obtain ⟨A, B, _, _, after, _⟩ := walkDir_split con owns stored (listable_of_kept kept)
  have here : s ∈ walkDir v' (headOf v p) := (after s).mpr (Or.inr (Or.inl rfl))
  exact kept.one.unique ⟨listed, named⟩ ⟨here, stored.name_attr.1⟩

theorem tree_of_kept (differs : u ≠ s) : InTree v' u ↔ InTree v u := by
  refine (kept.others u ?_).1
  rintro ⟨listed, named⟩
  exact differs (slot_of_kept con owns stored kept listed named)

theorem single_of_kept (listed : u ∈ walkDir v (headOf v p)) (named : rawName v u = nameTo83 name) :
    u = s := by
  obtain ⟨A, B, _, _, after, before⟩ := walkDir_split con owns stored (listable_of_kept kept)
  by_contra differs
  refine differs (slot_of_kept con owns stored kept ((after u).mpr ?_) ?_)
  · rcases (before u).mp listed with front | ⟨_, ⟨is, _⟩ | back⟩
    · exact Or.inl front
    · exact absurd is differs
    · exact Or.inr (Or.inr back)
  · rw [← named]
    exact (rawName_congr fun i small => slot_kept con owns stored (mem_walkDir_slots listed)
      differs (by omega)).1

/-- An old chain of the slot would be left without an owner. -/
theorem unowned_of_kept (tree : InTree v s) : firstOf v s < 2 := by
  by_contra high
  have owner : Owns v (.entry s) := ⟨tree, Nat.not_lt.mp high⟩
  obtain ⟨cs, some, chain⟩ := con.wellFormed.sound.chains (.entry s) owner
  obtain ⟨d, member⟩ := List.exists_mem_of_ne_nil cs some
  obtain ⟨low, top, next⟩ := chain.mem member
  obtain ⟨apart, _⟩ := chain_after con stored chain
  have used : Allocated v' d := by
    refine ⟨low, stored.shape.total.symm ▸ top, ?_⟩
    rw [stored.next con.wellFormed.copies, if_neg]
    · exact next
    · rintro rfl
      exact apart member
  obtain ⟨o, ⟨owns', ds, chain', member'⟩, _⟩ := kept.owned d used
  have narrow : v'.total ≤ chainEnd := by
    rw [stored.shape.total]
    exact con.wellFormed.narrow
  -- its owner would be the entry, whose chain is the new cluster, or one from before
  have old (before : Owns v o) (differs : o ≠ .entry s) (head : headOf v' o = headOf v o) :
      False := by
    obtain ⟨es, _, chain₀⟩ := con.wellFormed.sound.chains o before
    rw [head] at chain'
    rw [chain'.unique narrow (chain_after con stored chain₀).2] at member'
    exact con.wellFormed.sound.apart o _ es cs before owner differs chain₀ chain d member' member
  cases o with
  | root => exact old trivial (by simp) stored.shape.root
  | entry u =>
    by_cases same : u = s
    · rw [same] at chain'
      rw [chain'.unique narrow (chain_new con stored), List.mem_singleton] at member'
      exact apart (member' ▸ member)
    · have tree' := (tree_of_kept con owns stored kept same).mp owns'.1
      have head : firstOf v' u = firstOf v u :=
        (entry_congr fun i small => tree_kept con stored tree' same (i := i) small).1
      exact old ⟨tree', head ▸ owns'.2⟩ (by simpa using same) head

include isDirectory in
/-- Nothing appears behind a slot that ended the directory. -/
theorem last_of_kept (zero : byteAt v s 0 = 0) {A B : List Slot}
    (split : slotsOf v (headOf v p) = A ++ s :: B)
    (behind : u ∈ B.takeWhile fun t => byteAt v t 0 ≠ 0) : shows v u = false := by
  obtain ⟨A', B', split', nodup, after, before⟩ :=
    walkDir_split con owns stored (listable_of_kept kept)
  have hidden (t : Slot) (listed : t ∈ walkDir v (headOf v p)) : t ∈ A' :=
    List.mem_of_mem_filter (((before t).mp listed).resolve_right fun both => both.1 zero)
  have apart {l m : List Slot} (nodup : (l ++ s :: m).Nodup) : s ∉ l ∧ s ∉ m ∧
      ∀ t ∈ m, t ∉ l := by
    obtain ⟨_, tail, differs⟩ := List.nodup_append.mp nodup
    exact ⟨fun listed => differs s listed s List.mem_cons_self rfl, (List.nodup_cons.mp tail).1,
      fun t back front => differs t front t (List.mem_cons_of_mem s back) rfl⟩
  obtain ⟨_, _, disjoint⟩ := apart nodup
  have lists : A ++ s :: B = A' ++ s :: B' := split.symm.trans split'
  obtain ⟨outA, outB, _⟩ := apart (lists ▸ nodup)
  obtain ⟨rfl, _, rfl⟩ := (List.append_cons_inj_of_notMem outA outB).mp lists
  by_contra shown
  rw [Bool.not_eq_false] at shown
  have inB : u ∈ B := (List.takeWhile_sublist _).subset behind
  have differs : u ≠ s := by
    rintro rfl
    exact outB inB
  have listed : u ∈ walkDir v' (headOf v p) :=
    (after u).mpr (Or.inr (Or.inr (List.mem_filter.mpr ⟨behind, shown⟩)))
  -- the directory is still one of the tree, so that `u` would be a new entry of the tree
  have tree : InTree v' u := by
    cases p with
    | root =>
      refine .root ?_
      rw [stored.shape.root]
      exact listed
    | entry d =>
      have other : d ≠ s := by
        rintro rfl
        exact outA (hidden d (slot_in_tree con owns stored owns.1))
      obtain ⟨first, _, dir⟩ := entry_congr fun i small =>
        tree_kept con stored owns.1 other (i := i) small
      refine .sub ((tree_of_kept con owns stored kept other).mpr owns.1) (dir.trans isDirectory) ?_
      rw [first]
      exact listed
  obtain ⟨o, owns', _, listed'⟩ := tree_dir ((tree_of_kept con owns stored kept differs).mp tree)
  have same := walk_apart con owns' owns (mem_walkDir listed') (mem_slotsOf (split ▸
    List.mem_append_right A (List.mem_cons_of_mem s inB)))
  rw [same] at listed'
  exact disjoint u inB (hidden u listed')

include isDirectory in
theorem meets_of_kept : Meets v (headOf v p) (nameTo83 name) s :=
  ⟨fun _ listed named => single_of_kept con owns stored kept listed named,
    fun listed => unowned_of_kept con owns stored kept (walkDir_tree owns isDirectory listed),
    fun zero _ _ split _ behind => last_of_kept con owns isDirectory stored kept zero split behind⟩

end Converse

section Runs

variable {v : Volume} {call : Call}

theorem Successful.stored (legal : Successful v call) : ∃ p c s, Owns v p ∧ IsDirectory v p ∧
    headOf v p = call.dir ∧ Stored v (headOf v p) call.name call.data c s (after v call) := by
  obtain ⟨⟨p, owns, dir, head⟩, ok⟩ := legal
  have done : writeFile v call.dir call.name call.data = (after v call, 0) := Prod.ext rfl ok
  obtain ⟨c, s, stored⟩ := stored_of_writeFile done
  exact ⟨p, c, s, owns, dir, head, head.symm ▸ stored⟩

theorem kept_iff (con : Consistent v) (legal : Successful v call) :
    Kept v (after v call) call.dir (nameTo83 call.name) ↔ Fitting v call := by
  obtain ⟨p, c, s, owns, dir, head, stored⟩ := legal.stored
  rw [Fitting, ← head, slot_before con owns stored]
  constructor
  · intro kept
    refine ⟨listable_of_kept kept, fun t found => ?_⟩
    obtain rfl := Option.some.inj found
    exact meets_of_kept con owns dir stored kept
  · rintro ⟨listable, meets⟩
    exact kept_after con owns stored listable (meets s rfl) dir

theorem consistent_step (con : Consistent v) (legal : Successful v call) (fits : Fitting v call) :
    Consistent (after v call) := by
  obtain ⟨p, c, s, owns, dir, head, stored⟩ := legal.stored
  rw [Fitting, ← head, slot_before con owns stored] at fits
  exact consistent_after con owns stored fits.1 (fits.2 s rfl) dir

/-- In every sequence of successful calls, each one leaves a single entry with its name, an
owner for each cluster and the other entries as they were, exactly if in the volume that each
call finds, the slot that it takes is not in the way of this. -/
theorem single_cluster_iff (calls : List Call) (con : Consistent v)
    (legal : ∀ k call, calls[k]? = some call → Successful ((calls.take k).foldl after v) call) :
    (∀ k call, calls[k]? = some call → Kept ((calls.take k).foldl after v)
        (after ((calls.take k).foldl after v) call) call.dir (nameTo83 call.name)) ↔
      ∀ k call, calls[k]? = some call → Fitting ((calls.take k).foldl after v) call := by
  have exact (v : Volume) (call : Call) : Consistent v → Successful v call →
      (Kept v (after v call) call.dir (nameTo83 call.name) ↔ Fitting v call) := kept_iff
  have keep (v : Volume) (call : Call) : Consistent v → Successful v call → Fitting v call →
      Consistent (after v call) := consistent_step
  exact each_iff exact keep calls con legal

end Runs

/-- The entry of the file `A`, in cluster 3. -/
private def entryA : List UInt8 := 65 :: List.replicate 10 32 ++ [32] ++ List.replicate 14 0 ++ [3]

/-- A card whose root directory, in cluster 2, holds a deleted entry and then the file `A`. -/
private def reused : Volume where
  sectorsPerCluster := 1
  sectorsPerFat := 1
  numFats := 1
  rootCluster := 2
  fats := fun _ c => if c = 2 ∨ c = 3 then endMark else 0
  bytes := fun c _ i =>
    if c = 2 then if i = 0 then 229 else if i < 32 then 0 else entryA.getD (i - 32) 0 else 0

private def slotA : Slot := ⟨2, 0, 32⟩

private theorem reused_root : walkDir reused 2 = [slotA] := by decide +kernel

private theorem reused_tree {s : Slot} (tree : InTree reused s) : s = slotA := by
  induction tree with
  | root listed =>
    rw [show reused.rootCluster = 2 from rfl, reused_root] at listed
    exact List.mem_singleton.mp listed
  | sub _ dir _ above =>
    rw [above] at dir
    exact absurd dir (by decide +kernel)

private theorem reused_owner {o : Owner} (owns : Owns reused o) :
    o = .root ∧ headOf reused o = 2 ∨ o = .entry slotA ∧ headOf reused o = 3 := by
  cases o with
  | root => exact Or.inl ⟨rfl, rfl⟩
  | entry s =>
    obtain rfl := reused_tree owns.1
    exact Or.inr ⟨rfl, by decide +kernel⟩

private theorem reused_chain {c : Nat} (used : c = 2 ∨ c = 3) : Chain reused c [c] := by
  rcases used with rfl | rfl
  · exact ⟨⟨rfl, by decide, by decide⟩, rfl⟩
  · exact ⟨⟨rfl, by decide, by decide⟩, rfl⟩

private theorem reused_wellFormed : WellFormed reused := by
  have narrow : reused.total ≤ chainEnd := by decide
  have own (o : Owner) (cs : List Nat) (owns : Owns reused o)
      (chain : Chain reused (headOf reused o) cs) : cs = [headOf reused o] :=
    chain.unique narrow (reused_chain ((reused_owner owns).imp And.right And.right))
  refine ⟨by decide, narrow, ⟨fun o owns => ?_, ?_⟩⟩
  · exact ⟨_, List.cons_ne_nil _ _, reused_chain ((reused_owner owns).imp And.right And.right)⟩
  · intro o o' cs cs' owns owns' differs chain chain' c
    rw [own o cs owns chain, own o' cs' owns' chain', List.mem_singleton, List.mem_singleton]
    rcases reused_owner owns with ⟨rfl, is⟩ | ⟨rfl, is⟩ <;>
      rcases reused_owner owns' with ⟨rfl, is'⟩ | ⟨rfl, is'⟩
    · exact absurd rfl differs
    · rw [is, is']
      omega
    · rw [is, is']
      omega
    · exact absurd rfl differs

private theorem reused_consistent : Consistent reused := by
  refine ⟨reused_wellFormed, fun c used => ?_, fun o owns dir u listed u' listed' _ => ?_⟩
  · by_cases two : c = 2
    · exact ⟨.root, [c], trivial, two ▸ reused_chain (Or.inl rfl), List.mem_singleton_self c⟩
    · have three : c = 3 := by
        by_contra other
        exact used.2.2 (if_neg (by simp [two, other]))
      refine ⟨.entry slotA, [c], ⟨.root ?_, by decide +kernel⟩, ?_, List.mem_singleton_self c⟩
      · rw [show reused.rootCluster = 2 from rfl, reused_root]
        exact List.mem_singleton_self slotA
      · rw [three]
        exact reused_chain (Or.inr rfl)
  · exact (reused_tree (walkDir_tree owns dir listed)).trans
      (reused_tree (walkDir_tree owns dir listed')).symm

private theorem reused_directory : Directory reused 2 := ⟨.root, trivial, trivial, rfl⟩

/-- The new file `B` takes the deleted entry. -/
theorem single_cluster_new_file :
    Kept reused (after reused ⟨2, [66], [1]⟩) 2 (nameTo83 [66]) := by
  refine (single_cluster_iff [⟨2, [66], [1]⟩] reused_consistent ?_).mpr ?_ 0 _ rfl
  · intro k call there
    cases k with
    | zero =>
      obtain rfl := Option.some.inj there
      exact ⟨reused_directory, by decide +kernel⟩
    | succ k => cases there
  · intro k call there
    cases k with
    | zero =>
      obtain rfl := Option.some.inj there
      refine ⟨by decide +kernel, fun s found => ?_⟩
      have slot : findSlot reused 2 (nameTo83 [66]) = some ⟨2, 0, 0⟩ := by decide +kernel
      obtain rfl := Option.some.inj (slot.symm.trans found)
      change Meets reused 2 (nameTo83 [66]) ⟨2, 0, 0⟩
      refine ⟨?_, ?_, fun zero => absurd zero (by decide +kernel)⟩
      · rw [reused_root]
        decide +kernel
      · rw [reused_root]
        decide +kernel
    | succ k => cases there

/-- The file `A` is written into the deleted entry before it, and is there twice. -/
theorem file_twice : ¬ ∀ (v : Volume) (calls : List Call), Consistent v →
    (∀ k call, calls[k]? = some call → Successful ((calls.take k).foldl after v) call) →
    ∀ k call, calls[k]? = some call → Kept ((calls.take k).foldl after v)
        (after ((calls.take k).foldl after v) call) call.dir (nameTo83 call.name) := by
  intro all
  have success : Successful reused ⟨2, [65], [1]⟩ := ⟨reused_directory, by decide +kernel⟩
  have kept := all reused [⟨2, [65], [1]⟩] reused_consistent (fun k call there => by
    cases k with
    | zero =>
      obtain rfl := Option.some.inj there
      exact success
    | succ k => cases there) 0 _ rfl
  have fits : Fitting reused ⟨2, [65], [1]⟩ := (kept_iff reused_consistent success).mp kept
  have meets := fits.2 ⟨2, 0, 0⟩ (by decide +kernel)
  exact absurd (meets.single slotA (by decide +kernel) (by decide +kernel)) (by decide)

end XinuRpi5.Fs.SingleRuns
