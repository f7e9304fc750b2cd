/- source: fs/fat32.c
   digest: Cluster chains, the directory tree and what a change of other clusters leaves alone. -/

import XinuRpi5.Fs.Fat32
import XinuRpi5.Lib.LinkedChain

namespace XinuRpi5.Fs.FatChains

open Lib.LinkedChain Fat32

def link (v : Volume) (c : Nat) : Nat := min chainEnd (nextCluster v c)

/-- `c` is a cluster number of the volume. -/
def InRange (v : Volume) (p c : Nat) : Prop := p = c ∧ 2 ≤ c ∧ c < v.total

/-- From `h` the FAT leads through exactly the clusters `cs` to an end mark. -/
def Chain (v : Volume) (h : Nat) (cs : List Nat) : Prop := Seg (InRange v) (link v) h cs chainEnd

section Chains

variable {v v' : Volume} {h : Nat} {cs : List Nat}

theorem chain_functional (narrow : v.total ≤ chainEnd) : Functional (InRange v) chainEnd := by
  refine ⟨?_, ?_⟩
  · rintro p a b ⟨rfl, _⟩ ⟨rfl, _⟩
    rfl
  · rintro a ⟨rfl, _, less⟩
    omega

theorem Chain.unique {ds : List Nat} (narrow : v.total ≤ chainEnd) (hc : Chain v h cs)
    (hd : Chain v h ds) : cs = ds :=
  Seg.unique (chain_functional narrow) hc hd

theorem Chain.mem (hc : Chain v h cs) {c : Nat} (listed : c ∈ cs) :
    2 ≤ c ∧ c < v.total ∧ nextCluster v c ≠ 0 := by
  induction cs generalizing h with
  | nil => exact absurd listed List.not_mem_nil
  | cons d ds ih =>
    obtain ⟨⟨_, low, high⟩, rest⟩ := hc
    rcases List.mem_cons.mp listed with rfl | later
    · refine ⟨low, high, fun zero => ?_⟩
      have free : link v c = 0 := by
        rw [link, zero]
        exact Nat.min_eq_right (Nat.zero_le _)
      rw [free] at rest
      cases ds with
      | nil =>
        have ends : (0 : Nat) = chainEnd := rest
        exact absurd ends (by decide)
      | cons e es =>
        obtain ⟨same, two, _⟩ := rest.1
        omega
    · exact ih rest later

theorem walk_end (rounds : Nat) {c : Nat} (ends : chainEnd ≤ c) : walk rounds v c = [] := by
  cases rounds with
  | zero => rfl
  | succ rounds =>
    rw [walk, if_neg]
    omega

theorem walk_link (rounds c : Nat) : walk rounds v (nextCluster v c) = walk rounds v (link v c) := by
  unfold link
  by_cases ends : chainEnd ≤ nextCluster v c
  · rw [Nat.min_eq_left ends, walk_end rounds ends, walk_end rounds (Nat.le_refl _)]
  · rw [Nat.min_eq_right (by omega)]

theorem Chain.walk (narrow : v.total ≤ chainEnd) (hc : Chain v h cs) (rounds : Nat) :
    walk rounds v h = cs.take rounds := by
  induction cs generalizing h rounds with
  | nil =>
    obtain rfl : h = chainEnd := hc
    rw [walk_end rounds (Nat.le_refl _), List.take_nil]
  | cons c cs ih =>
    obtain ⟨⟨rfl, low, high⟩, rest⟩ := hc
    cases rounds with
    | zero => rfl
    | succ rounds =>
      rw [Fat32.walk, if_pos ⟨low, by omega⟩, walk_link, ih rest, List.take_succ_cons]

theorem Chain.congr (hc : Chain v h cs) (total : v'.total = v.total)
    (same : ∀ c ∈ cs, nextCluster v' c = nextCluster v c) : Chain v' h cs := by
  apply Seg.congr hc
  · rintro c _ p ⟨rfl, low, high⟩
    exact ⟨rfl, low, total ▸ high⟩
  · intro c listed
    rw [link, link, same c listed]

end Chains

section Tree

inductive InTree (v : Volume) : Slot → Prop where
  | root {s : Slot} (listed : s ∈ walkDir v v.rootCluster) : InTree v s
  | sub {d s : Slot} (above : InTree v d) (dir : isDir v d = true)
      (listed : s ∈ walkDir v (firstOf v d)) : InTree v s

inductive Owner where
  | root
  | entry (s : Slot)
  deriving DecidableEq

def headOf (v : Volume) : Owner → Nat
  | .root => v.rootCluster
  | .entry s => firstOf v s

def Owns (v : Volume) : Owner → Prop
  | .root => True
  | .entry s => InTree v s ∧ 2 ≤ firstOf v s

/-- Every owner heads an allocated, end-marked chain, and no two share a cluster. -/
structure Sound (v : Volume) : Prop where
  chains : ∀ o, Owns v o → ∃ cs, cs ≠ [] ∧ Chain v (headOf v o) cs
  apart : ∀ o o' cs cs', Owns v o → Owns v o' → o ≠ o' → Chain v (headOf v o) cs →
    Chain v (headOf v o') cs' → ∀ c ∈ cs, c ∉ cs'

def Allocated (v : Volume) (c : Nat) : Prop := 2 ≤ c ∧ c < v.total ∧ nextCluster v c ≠ 0

def Owned (v : Volume) (c : Nat) : Prop :=
  ∃ o cs, Owns v o ∧ Chain v (headOf v o) cs ∧ c ∈ cs

theorem Owned.allocated {v : Volume} {c : Nat} (owned : Owned v c) : Allocated v c := by
  obtain ⟨_, _, _, chain, listed⟩ := owned
  exact chain.mem listed

def IsDirectory (v : Volume) : Owner → Prop
  | .root => True
  | .entry s => isDir v s = true

variable {v v' : Volume}

structure Agree (v v' : Volume) (keep : Nat → Prop) : Prop where
  sectors : v'.sectorsPerCluster = v.sectorsPerCluster
  total : v'.total = v.total
  root : v'.rootCluster = v.rootCluster
  next : ∀ c, keep c → nextCluster v' c = nextCluster v c
  bytes : ∀ c, keep c → v'.bytes c = v.bytes c

variable {keep : Nat → Prop} (agree : Agree v v' keep)

include agree

theorem Agree.walk {rounds h : Nat} (kept : ∀ c ∈ walk rounds v h, keep c) :
    walk rounds v' h = walk rounds v h := by
  induction rounds generalizing h with
  | zero => rfl
  | succ rounds ih =>
    rw [Fat32.walk] at kept ⊢
    rw [Fat32.walk]
    split_ifs at kept ⊢ with guard
    · have first := agree.next h (kept h List.mem_cons_self)
      rw [first, ih fun c listed => kept c (List.mem_cons_of_mem _ listed)]
    · rfl

variable {s : Slot}

omit agree in
theorem mem_slotsOf {h : Nat} (listed : s ∈ slotsOf v h) :
    s.cluster ∈ walk 1024 v h := by
  obtain ⟨c, visited, rest⟩ := List.mem_flatMap.mp listed
  obtain ⟨_, _, rest⟩ := List.mem_flatMap.mp rest
  obtain ⟨_, _, rfl⟩ := List.mem_map.mp rest
  exact visited

theorem Agree.slotsOf {h : Nat} (kept : ∀ c ∈ Fat32.walk 1024 v h, keep c) :
    slotsOf v' h = slotsOf v h := by
  rw [Fat32.slotsOf, Fat32.slotsOf, agree.walk kept, agree.sectors]

theorem Agree.byteAt (kept : keep s.cluster) : byteAt v' s = byteAt v s := by
  funext i
  rw [Fat32.byteAt, Fat32.byteAt, agree.bytes _ kept]

theorem Agree.entry (kept : keep s.cluster) :
    rawName v' s = rawName v s ∧ attrOf v' s = attrOf v s ∧ firstOf v' s = firstOf v s ∧
      sizeOf v' s = sizeOf v s ∧ isDir v' s = isDir v s := by
  have same := agree.byteAt kept
  refine ⟨?_, ?_, ?_, ?_, ?_⟩
  · rw [rawName, rawName, same]
  · rw [attrOf, attrOf, same]
  · rw [firstOf, firstOf, same]
  · rw [Fat32.sizeOf, Fat32.sizeOf, same]
  · rw [isDir, isDir, attrOf, attrOf, same]

omit agree in
theorem mem_walkDir {h : Nat} (listed : s ∈ walkDir v h) :
    s.cluster ∈ walk 1024 v h :=
  mem_slotsOf (List.takeWhile_sublist _ |>.subset (List.mem_of_mem_filter listed))

theorem Agree.walkDir {h : Nat} (kept : ∀ c ∈ Fat32.walk 1024 v h, keep c) :
    walkDir v' h = walkDir v h := by
  have slots := agree.slotsOf kept
  have inside : ∀ s ∈ Fat32.slotsOf v h, keep s.cluster :=
    fun s listed => kept _ (mem_slotsOf listed)
  rw [Fat32.walkDir, Fat32.walkDir, slots]
  have front : (Fat32.slotsOf v h).takeWhile (fun s => decide (Fat32.byteAt v' s 0 ≠ 0)) =
      (Fat32.slotsOf v h).takeWhile (fun s => decide (Fat32.byteAt v s 0 ≠ 0)) := by
    revert inside
    generalize Fat32.slotsOf v h = slots
    intro inside
    induction slots with
    | nil => rfl
    | cons s slots ih =>
      rw [List.takeWhile_cons, List.takeWhile_cons, agree.byteAt (inside s List.mem_cons_self),
        ih fun t listed => inside t (List.mem_cons_of_mem _ listed)]
  rw [front]
  apply List.filter_congr
  intro s listed
  have here := inside s (List.takeWhile_sublist _ |>.subset listed)
  obtain ⟨name, attr, _⟩ := agree.entry here
  rw [agree.byteAt here, name, attr]

omit agree in
theorem mem_walk_low {rounds h c : Nat} (listed : c ∈ walk rounds v h) : 2 ≤ h := by
  cases rounds with
  | zero => exact absurd listed List.not_mem_nil
  | succ rounds =>
    rw [Fat32.walk] at listed
    split_ifs at listed with guard
    · exact guard.1
    · exact absurd listed List.not_mem_nil

section Directories

variable (narrow : v.total ≤ chainEnd) (sound : Sound v)
  (dirs : ∀ o cs, Owns v o → IsDirectory v o → Chain v (headOf v o) cs → ∀ c ∈ cs, keep c)

include narrow sound dirs

omit agree in
theorem dir_kept {o : Owner} (owns : Owns v o) (dir : IsDirectory v o) :
    ∀ c ∈ walk 1024 v (headOf v o), keep c := by
  obtain ⟨cs, _, chain⟩ := sound.chains o owns
  rw [chain.walk narrow]
  intro c listed
  exact dirs o cs owns dir chain c (List.mem_of_mem_take listed)

theorem Agree.inTree_of {s : Slot} (tree : InTree v s) : InTree v' s ∧ keep s.cluster := by
  induction tree with
  | root listed =>
    have kept : ∀ c ∈ Fat32.walk 1024 v v.rootCluster, keep c :=
      dir_kept narrow sound dirs (o := .root) trivial trivial
    refine ⟨.root ?_, kept _ (mem_walkDir listed)⟩
    rw [agree.root, agree.walkDir kept]
    exact listed
  | @sub d s above dir listed ih =>
    obtain ⟨above', here⟩ := ih
    obtain ⟨_, _, first, _, dir'⟩ := agree.entry here
    have visited := mem_walkDir listed
    have kept : ∀ c ∈ Fat32.walk 1024 v (firstOf v d), keep c :=
      dir_kept narrow sound dirs (o := .entry d) ⟨above, mem_walk_low visited⟩ dir
    refine ⟨.sub above' (dir'.trans dir) ?_, kept _ visited⟩
    rw [first, agree.walkDir kept]
    exact listed

theorem Agree.of_inTree {s : Slot} (tree : InTree v' s) : InTree v s := by
  induction tree with
  | root listed =>
    have kept : ∀ c ∈ Fat32.walk 1024 v v.rootCluster, keep c :=
      dir_kept narrow sound dirs (o := .root) trivial trivial
    rw [agree.root, agree.walkDir kept] at listed
    exact .root listed
  | @sub d s _ dir listed above =>
    have here := (agree.inTree_of narrow sound dirs above).2
    obtain ⟨_, _, first, _, dir'⟩ := agree.entry here
    have visited := mem_walkDir listed
    have low := mem_walk_low visited
    rw [first] at low listed
    have kept : ∀ c ∈ Fat32.walk 1024 v (firstOf v d), keep c :=
      dir_kept narrow sound dirs (o := .entry d) ⟨above, low⟩ (dir'.symm.trans dir)
    rw [agree.walkDir kept] at listed
    exact .sub above (dir'.symm.trans dir) listed

theorem Agree.head_eq {o : Owner} (owns : Owns v o) : headOf v' o = headOf v o := by
  cases o with
  | root => exact agree.root
  | entry s =>
    exact (agree.entry (agree.inTree_of narrow sound dirs owns.1).2).2.2.1

theorem Agree.owns_iff (o : Owner) : Owns v' o ↔ Owns v o := by
  cases o with
  | root => exact Iff.rfl
  | entry s =>
    constructor
    · rintro ⟨tree, low⟩
      have before := agree.of_inTree narrow sound dirs tree
      have first := (agree.entry (agree.inTree_of narrow sound dirs before).2).2.2.1
      exact ⟨before, first ▸ low⟩
    · rintro ⟨tree, low⟩
      obtain ⟨after, here⟩ := agree.inTree_of narrow sound dirs tree
      exact ⟨after, (agree.entry here).2.2.1.symm ▸ low⟩

end Directories

end Tree

end XinuRpi5.Fs.FatChains
