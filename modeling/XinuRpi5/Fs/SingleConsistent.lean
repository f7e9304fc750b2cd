/- source: fs/fat32.c
   digest: What a fat32_write_file call keeps: one entry for a name, one owner for a cluster. -/

import XinuRpi5.Fs.SingleCluster
import XinuRpi5.Lib.GuardedRuns

namespace XinuRpi5.Fs.SingleConsistent

open Lib.LinkedChain Lib.GuardedRuns Fat32 FatChains
open FatAlloc FatEntries SingleCluster
open WriteFailure (WellFormed)

/-- A volume without lost clusters and without two entries of one name in a directory. -/
structure Consistent (v : Volume) : Prop where
  wellFormed : WellFormed v
  owned : ∀ c, Allocated v c → Owned v c
  distinct : ∀ o, Owns v o → IsDirectory v o → ∀ u ∈ walkDir v (headOf v o),
    ∀ u' ∈ walkDir v (headOf v o), rawName v u = rawName v u' → u = u'

/-- `dir` is the first cluster of a directory of the volume. -/
def Directory (v : Volume) (dir : Nat) : Prop :=
  ∃ p, Owns v p ∧ IsDirectory v p ∧ headOf v p = dir

/-- One live entry has the written name, every allocated cluster has exactly one owner, and
the entries with other names are as they were. -/
structure Kept (v v' : Volume) (dir : Nat) (raw : List UInt8) : Prop where
  one : ∃! u, u ∈ walkDir v' dir ∧ rawName v' u = raw
  owned : ∀ c, Allocated v' c → ∃! o, Owns v' o ∧ ∃ cs, Chain v' (headOf v' o) cs ∧ c ∈ cs
  others : ∀ u, ¬ (u ∈ walkDir v' dir ∧ rawName v' u = raw) → (InTree v' u ↔ InTree v u) ∧
    (InTree v u → ∀ i, i < 32 → byteAt v' u i = byteAt v u i)

def Listable (raw : List UInt8) : Prop :=
  raw.getD 0 0 ≠ 0 ∧ raw.getD 0 0 ≠ 229 ∧ format83 raw ≠ [46] ∧ format83 raw ≠ [46, 46]

instance (raw : List UInt8) : Decidable (Listable raw) :=
  inferInstanceAs (Decidable (_ ∧ _ ∧ _ ∧ _))

/-- The slot is the only one that may have the name, it has no cluster, and where it ends
the directory nothing is listed behind it up to the next end mark. -/
structure Meets (v : Volume) (dir : Nat) (raw : List UInt8) (s : Slot) : Prop where
  single : ∀ u ∈ walkDir v dir, rawName v u = raw → u = s
  unowned : s ∈ walkDir v dir → firstOf v s < 2
  last : byteAt v s 0 = 0 → ∀ A B, slotsOf v dir = A ++ s :: B →
    ∀ u ∈ B.takeWhile (fun u => byteAt v u 0 ≠ 0), shows v u = false

section Directories

variable {v : Volume}

theorem tree_dir {u : Slot} (tree : InTree v u) :
    ∃ o, Owns v o ∧ IsDirectory v o ∧ u ∈ walkDir v (headOf v o) := by
  cases tree with
  | root listed => exact ⟨.root, trivial, trivial, listed⟩
  | @sub d _ above dir listed =>
    exact ⟨.entry d, ⟨above, mem_walk_low (mem_walkDir listed)⟩, dir, listed⟩

theorem walkDir_tree {o : Owner} (owns : Owns v o) (dir : IsDirectory v o) {u : Slot}
    (listed : u ∈ walkDir v (headOf v o)) : InTree v u := by
  cases o with
  | root => exact .root listed
  | entry d => exact .sub owns.1 dir listed

theorem mem_walkDir_slots {head : Nat} {u : Slot} (listed : u ∈ walkDir v head) :
    u ∈ slotsOf v head :=
  (List.takeWhile_sublist _).subset (List.mem_of_mem_filter listed)

variable (con : Consistent v) {o p : Owner}

include con

theorem walk_chain (owns : Owns v o) {rounds d : Nat} (visited : d ∈ walk rounds v (headOf v o)) :
    ∃ cs, Chain v (headOf v o) cs ∧ d ∈ cs := by
  obtain ⟨cs, _, chain⟩ := con.wellFormed.sound.chains o owns
  rw [chain.walk con.wellFormed.narrow] at visited
  exact ⟨cs, chain, List.mem_of_mem_take visited⟩

theorem walk_apart (owns : Owns v o) (owns' : Owns v p) {rounds rounds' d : Nat}
    (visited : d ∈ walk rounds v (headOf v o)) (visited' : d ∈ walk rounds' v (headOf v p)) :
    o = p := by
  obtain ⟨cs, chain, listed⟩ := walk_chain con owns visited
  obtain ⟨cs', chain', listed'⟩ := walk_chain con owns' visited'
  by_contra differs
  exact con.wellFormed.sound.apart o p cs cs' owns owns' differs chain chain' d listed listed'

theorem walk_used (owns : Owns v o) {rounds d : Nat} (visited : d ∈ walk rounds v (headOf v o)) :
    nextCluster v d ≠ 0 := by
  obtain ⟨cs, chain, listed⟩ := walk_chain con owns visited
  exact (chain.mem listed).2.2

end Directories

section Call

variable {v v' : Volume} {name data : List UInt8} {c : Nat} {s : Slot} {p : Owner}
  (con : Consistent v) (owns : Owns v p) (isDirectory : IsDirectory v p)
  (stored : Stored v (headOf v p) name data c s v')

include con stored

theorem visited_ne {o : Owner} (owns : Owns v o) {rounds d : Nat}
    (visited : d ∈ walk rounds v (headOf v o)) : d ≠ c := by
  rintro rfl
  exact walk_used con owns visited stored.free.2.2

include owns

theorem slots_filled : slotsOf (fillCluster data c v.sectorsPerCluster 0 (setEntry v c endMark))
    (headOf v p) = slotsOf v (headOf v p) :=
  (stored.agree_filled con.wellFormed.copies).slotsOf fun _ visited =>
    visited_ne con stored owns visited

theorem slots_after : slotsOf v' (headOf v p) = slotsOf v (headOf v p) := by
  rw [stored.result, slotsOf_writeEntry]
  exact slots_filled con owns stored

theorem slot_before : findSlot v (headOf v p) (nameTo83 name) = some s := by
  rw [← stored.slot, findSlot, findSlot, slots_filled con owns stored]
  rw [← List.head?_filter, ← List.head?_filter]
  refine congrArg List.head? (List.filter_congr fun u listed => ?_)
  have agree := stored.agree_filled con.wellFormed.copies
  have kept := visited_ne con stored owns (mem_slotsOf listed)
  rw [takes, takes, agree.byteAt kept, (agree.entry kept).1]

theorem slot_listed : s ∈ slotsOf v (headOf v p) :=
  List.mem_of_find?_eq_some (slot_before con owns stored)

theorem slot_kept {u : Slot} (listed : u ∈ slotsOf v (headOf v p)) (differs : u ≠ s) {i : Nat}
    (small : i < 32) : byteAt v' u i = byteAt v u i := by
  obtain ⟨_, _, j, _, off⟩ := mem_slotsOf_iff.mp listed
  exact stored.byteAt_other off differs (visited_ne con stored owns (mem_slotsOf listed)) small

section Listing

variable (listable : Listable (nameTo83 name))

include listable

omit con owns in
theorem slot_shown : byteAt v' s 0 ≠ 0 ∧ shows v' s = true := by
  obtain ⟨raw, attr⟩ := stored.name_attr
  have byte : byteAt v' s 0 = (nameTo83 name).getD 0 0 := by
    rw [← raw]
    rfl
  obtain ⟨live, kept, dot, dots⟩ := listable
  refine ⟨byte ▸ live, ?_⟩
  rw [shows, byte, raw, attr]
  exact decide_eq_true ⟨kept, by decide, by decide, dot, dots⟩

/-- What the directory lists before and after: the slots up to `s`, the slot, and those from
there to the next end mark, which a slot that ends the directory hides before the call. -/
theorem walkDir_split : ∃ A B, slotsOf v (headOf v p) = A ++ s :: B ∧
    (A ++ s :: B).Nodup ∧
    (∀ u, u ∈ walkDir v' (headOf v p) ↔ u ∈ A.filter (shows v) ∨ u = s ∨
      u ∈ (B.takeWhile fun t => byteAt v t 0 ≠ 0).filter (shows v)) ∧
    ∀ u, u ∈ walkDir v (headOf v p) ↔ u ∈ A.filter (shows v) ∨ byteAt v s 0 ≠ 0 ∧
      (u = s ∧ shows v s = true ∨
        u ∈ (B.takeWhile fun t => byteAt v t 0 ≠ 0).filter (shows v)) := by
  obtain ⟨live, shown⟩ := slot_shown stored listable
  obtain ⟨test, A, B, split, early⟩ :=
    List.find?_eq_some_iff_append.mp (slot_before con owns stored)
  obtain ⟨cs, _, chain⟩ := con.wellFormed.sound.chains p owns
  have nodup := slotsOf_nodup con.wellFormed.narrow chain
  have kept (t : Slot) (listed : t ∈ slotsOf v (headOf v p)) (differs : t ≠ s) (i : Nat)
      (small : i < 12) : byteAt v' t i = byteAt v t i :=
    slot_kept con owns stored listed differs (by omega)
  rw [split] at nodup kept
  obtain ⟨_, behind, apart⟩ := List.nodup_append.mp nodup
  have keptA (t : Slot) (listed : t ∈ A) := kept t (List.mem_append_left _ listed)
    (apart t listed s List.mem_cons_self)
  have keptB (t : Slot) (listed : t ∈ B) := kept t
    (List.mem_append_right _ (List.mem_cons_of_mem s listed)) (by
      rintro rfl
      exact (List.nodup_cons.mp behind).1 listed)
  have passA (t : Slot) (listed : t ∈ A) : decide (byteAt v t 0 ≠ 0) = true := by
    have out := early t listed
    simp only [takes, Bool.not_eq_true', decide_eq_false_iff_not, not_or] at out
    exact decide_eq_true out.1
  have passA' (t : Slot) (listed : t ∈ A) : decide (byteAt v' t 0 ≠ 0) = true := by
    rw [keptA t listed 0 (by decide)]
    exact passA t listed
  have front : A.filter (shows v') = A.filter (shows v) :=
    List.filter_congr fun t listed => shows_congr (keptA t listed)
  have back : (B.takeWhile fun t => byteAt v' t 0 ≠ 0).filter (shows v') =
      (B.takeWhile fun t => byteAt v t 0 ≠ 0).filter (shows v) := by
    rw [takeWhile_congr fun t listed => by rw [keptB t listed 0 (by decide)]]
    exact List.filter_congr fun t listed =>
      shows_congr (keptB t ((List.takeWhile_sublist _).subset listed))
  refine ⟨A, B, split, nodup, fun u => ?_, fun u => ?_⟩
  · rw [walkDir_eq, slots_after con owns stored, split, List.takeWhile_append_of_pos passA',
      List.takeWhile_cons, if_pos (decide_eq_true live), List.filter_append,
      List.filter_cons_of_pos shown, front, back, List.mem_append, List.mem_cons]
  · rw [walkDir_eq, split, List.takeWhile_append_of_pos passA, List.takeWhile_cons,
      List.filter_append, List.mem_append]
    apply or_congr_right
    by_cases zero : byteAt v s 0 = 0
    · rw [if_neg (by simp [zero])]
      simp [zero]
    · rw [if_pos (decide_eq_true zero)]
      by_cases before : shows v s = true
      · rw [List.filter_cons_of_pos before, List.mem_cons]
        tauto
      · rw [List.filter_cons_of_neg before]
        tauto

theorem mem_walkDir_after (last : byteAt v s 0 = 0 → ∀ A B,
      slotsOf v (headOf v p) = A ++ s :: B →
      ∀ u ∈ B.takeWhile (fun u => byteAt v u 0 ≠ 0), shows v u = false) (u : Slot) :
    u ∈ walkDir v' (headOf v p) ↔ u = s ∨ u ∈ walkDir v (headOf v p) := by
  obtain ⟨A, B, split, _, after, before⟩ := walkDir_split con owns stored listable
  rw [after, before]
  by_cases zero : byteAt v s 0 = 0
  · have nothing : u ∉ (B.takeWhile fun t => byteAt v t 0 ≠ 0).filter (shows v) := by
      intro listed
      obtain ⟨listed, shown⟩ := List.mem_filter.mp listed
      rw [last zero A B split u listed] at shown
      cases shown
    tauto
  · tauto

end Listing

theorem walkDir_other {o : Owner} (owns' : Owns v o) (differs : o ≠ p) :
    walkDir v' (headOf v o) = walkDir v (headOf v o) := by
  refine (stored.agree con.wellFormed.copies).walkDir fun d visited => ?_
  refine ⟨visited_ne con stored owns' visited, ?_⟩
  rintro rfl
  exact differs (walk_apart con owns' owns visited (mem_slotsOf (slot_listed con owns stored)))

omit owns in
theorem tree_kept {u : Slot} (tree : InTree v u) (differs : u ≠ s) {i : Nat} (small : i < 32) :
    byteAt v' u i = byteAt v u i := by
  obtain ⟨o, owns', _, listed⟩ := tree_dir tree
  obtain ⟨_, _, j, _, off⟩ := mem_slotsOf_iff.mp (mem_walkDir_slots listed)
  exact stored.byteAt_other off differs (visited_ne con stored owns' (mem_walkDir listed)) small

theorem slot_in_tree (tree : InTree v s) : s ∈ walkDir v (headOf v p) := by
  obtain ⟨o, owns', _, listed⟩ := tree_dir tree
  have same := walk_apart con owns' owns (mem_walkDir listed)
    (mem_slotsOf (slot_listed con owns stored))
  rw [← same]
  exact listed

end Call

section Step

variable {v v' : Volume} {name data : List UInt8} {c : Nat} {s : Slot} {p : Owner}
  (con : Consistent v) (owns : Owns v p) (isDirectory : IsDirectory v p)
  (stored : Stored v (headOf v p) name data c s v')
  (listable : Listable (nameTo83 name)) (meets : Meets v (headOf v p) (nameTo83 name) s) {o : Owner}

include con owns stored listable meets

theorem listed_after (u : Slot) :
    u ∈ walkDir v' (headOf v p) ↔ u = s ∨ u ∈ walkDir v (headOf v p) :=
  mem_walkDir_after con owns stored listable meets.last u

omit listable in
theorem owner_kept {d : Slot} (tree : InTree v d) (low : 2 ≤ firstOf v d) :
    d ≠ s ∧ firstOf v' d = firstOf v d ∧ isDir v' d = isDir v d := by
  have differs : d ≠ s := by
    rintro rfl
    have none := meets.unowned (slot_in_tree con owns stored tree)
    omega
  obtain ⟨first, _, dir⟩ := entry_congr fun i small =>
    tree_kept con stored tree differs (i := i) small
  exact ⟨differs, first, dir⟩

theorem walkDir_dir (owns' : Owns v o) (u : Slot) : u ∈ walkDir v' (headOf v o) ↔
    o = p ∧ u = s ∨ u ∈ walkDir v (headOf v o) := by
  by_cases same : o = p
  · rw [same, listed_after con owns stored listable meets u]
    simp
  · rw [walkDir_other con owns stored owns' same]
    simp [same]

theorem tree_after {u : Slot} (tree : InTree v u) : InTree v' u := by
  induction tree with
  | @root u listed =>
    refine .root ?_
    rw [stored.shape.root]
    exact (walkDir_dir con owns stored listable meets (o := .root) trivial u).mpr (Or.inr listed)
  | @sub d u above dir listed ih =>
    have low := mem_walk_low (mem_walkDir listed)
    obtain ⟨_, first, dir'⟩ := owner_kept con owns stored meets above low
    refine .sub ih (dir'.trans dir) ?_
    rw [first]
    exact (walkDir_dir con owns stored listable meets (o := .entry d) ⟨above, low⟩ u).mpr
      (Or.inr listed)

theorem tree_before {u : Slot} (tree : InTree v' u) : u = s ∨ InTree v u := by
  induction tree with
  | @root u listed =>
    rw [stored.shape.root] at listed
    rcases (walkDir_dir con owns stored listable meets (o := .root) trivial u).mp listed with
      ⟨_, same⟩ | before
    · exact Or.inl same
    · exact Or.inr (.root before)
  | @sub d u above dir listed ih =>
    rcases ih with rfl | before
    · rw [stored.file] at dir
      cases dir
    · have differs : d ≠ s := by
        rintro rfl
        rw [stored.file] at dir
        cases dir
      obtain ⟨first, _, dir'⟩ := entry_congr fun i small =>
        tree_kept con stored before differs (i := i) small
      have low := mem_walk_low (mem_walkDir listed)
      rw [first] at listed low
      rcases (walkDir_dir con owns stored listable meets (o := .entry d) ⟨before, low⟩ u).mp listed
        with ⟨_, same⟩ | there
      · exact Or.inl same
      · exact Or.inr (.sub before (dir'.symm.trans dir) there)

theorem slot_after (isDirectory : IsDirectory v p) : InTree v' s := by
  have here (o : Owner) (same : o = p) : s ∈ walkDir v' (headOf v o) := by
    rw [same]
    exact (listed_after con owns stored listable meets s).mpr (Or.inl rfl)
  cases p with
  | root =>
    refine .root ?_
    rw [stored.shape.root]
    exact here .root rfl
  | entry d =>
    obtain ⟨_, first, dir⟩ := owner_kept con owns stored meets owns.1 owns.2
    refine .sub (tree_after con owns stored listable meets owns.1) (dir.trans isDirectory) ?_
    rw [first]
    exact here (.entry d) rfl

omit listable in
theorem not_owner : ¬ Owns v (.entry s) := by
  rintro ⟨tree, low⟩
  have none := meets.unowned (slot_in_tree con owns stored tree)
  omega

theorem owns_after (isDirectory : IsDirectory v p) (o : Owner) :
    Owns v' o ↔ o = .entry s ∨ Owns v o := by
  have first := stored.first con.wellFormed.narrow
  cases o with
  | root => exact ⟨fun _ => Or.inr trivial, fun _ => trivial⟩
  | entry u =>
    by_cases same : u = s
    · rw [same]
      refine ⟨fun _ => Or.inl rfl, fun _ => ?_⟩
      refine ⟨slot_after con owns stored listable meets isDirectory, ?_⟩
      rw [first]
      exact stored.free.1
    · constructor
      · rintro ⟨tree, low⟩
        rcases tree_before con owns stored listable meets tree with here | before
        · exact absurd here same
        · obtain ⟨kept, _, _⟩ := entry_congr fun i small =>
            tree_kept con stored before same (i := i) small
          exact Or.inr ⟨before, kept ▸ low⟩
      · rintro (here | ⟨before, low⟩)
        · exact absurd (Owner.entry.inj here) same
        · obtain ⟨_, kept, _⟩ := owner_kept con owns stored meets before low
          exact ⟨tree_after con owns stored listable meets before, kept.symm ▸ low⟩

omit listable in
theorem head_after (owns' : Owns v o) : headOf v' o = headOf v o := by
  cases o with
  | root => exact stored.shape.root
  | entry u => exact (owner_kept con owns stored meets owns'.1 owns'.2).2.1

omit owns listable meets in
theorem chain_after {h : Nat} {cs : List Nat} (chain : Chain v h cs) :
    c ∉ cs ∧ Chain v' h cs := by
  have apart : c ∉ cs := fun listed => (chain.mem listed).2.2 stored.free.2.2
  refine ⟨apart, chain.congr stored.shape.total fun d listed => ?_⟩
  rw [stored.next con.wellFormed.copies, if_neg]
  rintro rfl
  exact apart listed

omit owns listable meets in
theorem chain_new : Chain v' (headOf v' (.entry s)) [c] := by
  have first : headOf v' (.entry s) = c := stored.first con.wellFormed.narrow
  rw [first]
  refine ⟨⟨rfl, stored.free.1, ?_⟩, ?_⟩
  · rw [stored.shape.total]
    exact stored.free.2.1
  · change link v' c = chainEnd
    rw [link, stored.next con.wellFormed.copies, if_pos rfl]
    rfl

theorem chain_of (isDirectory : IsDirectory v p) (owns' : Owns v' o) :
    (o = .entry s ∧ Chain v' (headOf v' o) [c]) ∨
      o ≠ .entry s ∧ Owns v o ∧ ∃ cs, cs ≠ [] ∧ c ∉ cs ∧ Chain v (headOf v o) cs ∧
        Chain v' (headOf v' o) cs := by
  rcases (owns_after con owns stored listable meets isDirectory o).mp owns' with rfl | before
  · exact Or.inl ⟨rfl, chain_new con stored⟩
  · obtain ⟨cs, some, chain⟩ := con.wellFormed.sound.chains o before
    obtain ⟨apart, chain'⟩ := chain_after con stored chain
    refine Or.inr ⟨?_, before, cs, some, apart, chain, ?_⟩
    · rintro rfl
      exact not_owner con owns stored meets before
    · rw [head_after con owns stored meets before]
      exact chain'

theorem sound_after (isDirectory : IsDirectory v p) : Sound v' := by
  have narrow : v'.total ≤ chainEnd := by
    rw [stored.shape.total]
    exact con.wellFormed.narrow
  constructor
  · intro o owns'
    rcases chain_of con owns stored listable meets isDirectory owns' with ⟨_, chain⟩ | ⟨_, _, rest⟩
    · exact ⟨[c], List.cons_ne_nil c [], chain⟩
    · obtain ⟨cs, some, _, _, chain⟩ := rest
      exact ⟨cs, some, chain⟩
  · intro o o' cs cs' owns₁ owns₂ differs chain₁ chain₂ d listed
    rcases chain_of con owns stored listable meets isDirectory owns₁ with
      ⟨rfl, new⟩ | ⟨_, before, ds, _, apart, old, kept⟩ <;>
    rcases chain_of con owns stored listable meets isDirectory owns₂ with
      ⟨rfl, new'⟩ | ⟨_, before', ds', _, apart', old', kept'⟩
    · exact absurd rfl differs
    · rw [chain₁.unique narrow new, List.mem_singleton] at listed
      rw [chain₂.unique narrow kept', listed]
      exact apart'
    · rw [chain₁.unique narrow kept] at listed
      rw [chain₂.unique narrow new', List.mem_singleton]
      rintro rfl
      exact apart listed
    · rw [chain₁.unique narrow kept] at listed
      rw [chain₂.unique narrow kept']
      exact con.wellFormed.sound.apart o o' ds ds' before before' differs old old' d listed

theorem owned_after (isDirectory : IsDirectory v p) {d : Nat} (used : Allocated v' d) :
    Owned v' d := by
  obtain ⟨low, high, next⟩ := used
  by_cases new : d = c
  · refine ⟨.entry s, [c], ?_, chain_new con stored, List.mem_singleton.mpr new⟩
    exact (owns_after con owns stored listable meets isDirectory _).mpr (Or.inl rfl)
  · rw [stored.shape.total] at high
    rw [stored.next con.wellFormed.copies, if_neg new] at next
    obtain ⟨o, cs, before, chain, listed⟩ := con.owned d ⟨low, high, next⟩
    refine ⟨o, cs, ?_, ?_, listed⟩
    · exact (owns_after con owns stored listable meets isDirectory o).mpr (Or.inr before)
    · rw [head_after con owns stored meets before]
      exact (chain_after con stored chain).2

theorem single_after {u : Slot} (listed : u ∈ walkDir v' (headOf v p))
    (named : rawName v' u = nameTo83 name) : u = s := by
  rcases (listed_after con owns stored listable meets u).mp listed with same | before
  · exact same
  by_contra differs
  refine differs (meets.single u before ?_)
  rw [← named]
  exact (rawName_congr fun i small => slot_kept con owns stored (mem_walkDir_slots before) differs
    (by omega)).1.symm

theorem distinct_after (isDirectory : IsDirectory v p) (owns' : Owns v' o) (dir : IsDirectory v' o)
    {u u' : Slot} (listed : u ∈ walkDir v' (headOf v' o)) (listed' : u' ∈ walkDir v' (headOf v' o))
    (same : rawName v' u = rawName v' u') : u = u' := by
  rcases (owns_after con owns stored listable meets isDirectory o).mp owns' with rfl | before
  · rw [IsDirectory, stored.file] at dir
    cases dir
  have dir₀ : IsDirectory v o := by
    cases o with
    | root => trivial
    | entry d => exact (owner_kept con owns stored meets before.1 before.2).2.2.symm.trans dir
  rw [head_after con owns stored meets before] at listed listed'
  -- where one of the two is the slot, the directory is the one that was written to
  have here {t : Slot} (there : s ∈ walkDir v' (headOf v o)) (listed : t ∈ walkDir v' (headOf v o))
      (named : rawName v' t = rawName v' s) : t = s := by
    have parent : o = p := by
      rcases (walkDir_dir con owns stored listable meets before s).mp there with ⟨is, _⟩ | old
      · exact is
      · exact walk_apart con before owns (mem_walkDir old)
          (mem_slotsOf (slot_listed con owns stored))
    rw [parent] at listed
    exact single_after con owns stored listable meets listed (named.trans stored.name_attr.1)
  by_cases first : u = s
  · rw [first] at listed same ⊢
    exact (here listed listed' same.symm).symm
  by_cases second : u' = s
  · rw [second] at listed' same ⊢
    exact here listed' listed same
  have old {t : Slot} (differs : t ≠ s) (listed : t ∈ walkDir v' (headOf v o)) :
      t ∈ walkDir v (headOf v o) ∧ rawName v' t = rawName v t := by
    rcases (walkDir_dir con owns stored listable meets before t).mp listed with ⟨_, is⟩ | old
    · exact absurd is differs
    · obtain ⟨_, _, j, _, off⟩ := mem_slotsOf_iff.mp (mem_walkDir_slots old)
      exact ⟨old, (rawName_congr fun i small => stored.byteAt_other off differs
        (visited_ne con stored before (mem_walkDir old)) (by omega)).1⟩
  obtain ⟨old₁, name₁⟩ := old first listed
  obtain ⟨old₂, name₂⟩ := old second listed'
  exact con.distinct o before dir₀ u old₁ u' old₂ (name₁.symm.trans (same.trans name₂))

theorem consistent_after (isDirectory : IsDirectory v p) : Consistent v' := by
  refine ⟨⟨?_, ?_, sound_after con owns stored listable meets isDirectory⟩,
    fun d used => owned_after con owns stored listable meets isDirectory used,
    fun o owns' dir u listed u' listed' same =>
      distinct_after con owns stored listable meets isDirectory owns' dir listed listed' same⟩
  · rw [stored.shape.copies]
    exact con.wellFormed.copies
  · rw [stored.shape.total]
    exact con.wellFormed.narrow

omit con owns stored listable meets in
theorem Consistent.one_owner (con : Consistent v) {d : Nat} (used : Allocated v d) :
    ∃! o, Owns v o ∧ ∃ cs, Chain v (headOf v o) cs ∧ d ∈ cs := by
  obtain ⟨o, cs, owns, chain, listed⟩ := con.owned d used
  refine ⟨o, ⟨owns, cs, chain, listed⟩, ?_⟩
  rintro o' ⟨owns', cs', chain', listed'⟩
  by_contra differs
  exact con.wellFormed.sound.apart o' o cs' cs owns' owns differs chain' chain d listed' listed

theorem kept_after (isDirectory : IsDirectory v p) : Kept v v' (headOf v p) (nameTo83 name) := by
  have listed := (listed_after con owns stored listable meets s).mpr (Or.inl rfl)
  refine ⟨⟨s, ⟨listed, stored.name_attr.1⟩, ?_⟩, fun d used => ?_, fun u other => ?_⟩
  · rintro u ⟨there, named⟩
    exact single_after con owns stored listable meets there named
  · exact (consistent_after con owns stored listable meets isDirectory).one_owner used
  · have differs : u ≠ s := by
      rintro rfl
      exact other ⟨listed, stored.name_attr.1⟩
    constructor
    · constructor
      · intro after
        exact (tree_before con owns stored listable meets after).resolve_left differs
      · exact tree_after con owns stored listable meets
    · intro tree i small
      exact tree_kept con stored tree differs small

end Step

end XinuRpi5.Fs.SingleConsistent
