/- source: fs/fat32.c
   digest: When a successful fat32_write_file_full adds or replaces exactly its file. -/

import Mathlib.Data.List.Find
import XinuRpi5.Fs.FatEntries
import XinuRpi5.Fs.WriteFailure

namespace XinuRpi5.Fs.WriteLaw

open Fat32 FatChains FatAlloc FatEntries
open WriteFailure (WellFormed OwnedByOther freeOld_none)

section Law

/-- The value of `fat32_read_file`, an `int`. -/
def readCount (bytes : List UInt8) : Int := (BitVec.ofNat 32 bytes.length).toInt

def isLabel (v : Volume) (s : Slot) : Bool := (attrOf v s).testBit 3

/-- The write put the file into the slot `s` and changed nothing else that can be
reached from the root directory. -/
structure Written (v v' : Volume) (name data : List UInt8) (s : Slot) : Prop where
  reported : s ∈ walkDir v' v'.rootCluster
  once : (walkDir v' v'.rootCluster).Nodup
  others : (walkDir v' v'.rootCluster).filter (· ≠ s) = (walkDir v v.rootCluster).filter (· ≠ s)
  named : rawName v' s = nameTo83 name ∧ format83 (rawName v' s) = name.map upper
  file : isDir v' s = false
  size : sizeOf v' s = data.length
  content : readFile v' (firstOf v' s) data.length data.length = data ∧
    readCount (readFile v' (firstOf v' s) data.length data.length) = data.length
  kept : ∀ u, u ≠ s → (InTree v' u ↔ InTree v u) ∧
    (InTree v u → (∀ i, i < 32 → byteAt v' u i = byteAt v u i) ∧
      readFile v' (firstOf v u) (sizeOf v u) (sizeOf v u) =
        readFile v (firstOf v u) (sizeOf v u) (sizeOf v u))
  replaced : s ∈ walkDir v v.rootCluster ∧ isDir v s = false ∧ rawName v s = nameTo83 name ∨
    s ∉ walkDir v v.rootCluster ∧ ∀ u ∈ walkDir v v.rootCluster, rawName v u ≠ nameTo83 name
  reserved : ∀ u ∈ slotsOf v v.rootCluster, rawName v u = nameTo83 name →
    (isDir v u = true ∨ isLabel v u = true) → ∀ i, i < 32 → byteAt v' u i = byteAt v u i

/-- A volume that keeps to the FAT rules: its chains are well formed, and in the
root directory the end mark is followed by nothing, long-name pieces have no other
attribute bit, labels have no cluster, and no two entries share a name. -/
structure Conforming (v : Volume) : Prop where
  wellFormed : WellFormed v
  sectors : 0 < v.sectorsPerCluster
  tail : ∀ u ∈ (slotsOf v v.rootCluster).dropWhile (fun u => byteAt v u 0 ≠ 0), byteAt v u 0 = 0
  long : ∀ u ∈ slotsOf v v.rootCluster, attrOf v u % 16 = 15 → attrOf v u = 15
  label : ∀ u ∈ slotsOf v v.rootCluster, attrOf v u ≠ 15 → isLabel v u = true → firstOf v u < 2
  distinct : ∀ u ∈ walkDir v v.rootCluster, ∀ u' ∈ walkDir v v.rootCluster,
    rawName v u = rawName v u' → u = u'

/-- The first entry that carries the name is not a directory or a label, and the
reader gets through the data. -/
def Fits (v : Volume) (name data : List UInt8) : Prop :=
  (∀ s, findEntry v name = some s → isDir v s = false ∧ isLabel v s = false) ∧
    data.length < 2 ^ 31 ∧ data.length ≤ 1048576 * (v.sectorsPerCluster * blockSize)

end Law

/-- The volume `w` after a successful allocation loop for the slot `s`: the data is
in the chain `cs`, which took nothing from the owners other than `s`. -/
structure Stage (v w : Volume) (s : Slot) (data : List UInt8) (first : Nat) (cs : List Nat) :
    Prop where
  shape : SameShape v w
  agree : Agree v w (OwnedByOther v s)
  laid : Laid data w cs 0
  room : data.length ≤ cs.length * (w.sectorsPerCluster * blockSize)
  chain : Chain w first cs
  low : 2 ≤ first ∧ first < w.total
  apart : ∀ c ∈ cs, ¬ OwnedByOther v s c

section Stages

variable {v w : Volume} {s : Slot} {data name : List UInt8} {first : Nat}

theorem other_used {c : Nat} (other : OwnedByOther v s c) :
    2 ≤ c ∧ nextCluster v c ≠ 0 := by
  obtain ⟨_, _, _, _, chain, listed⟩ := other
  obtain ⟨low, _, used⟩ := chain.mem listed
  exact ⟨low, used⟩

theorem stage_of_loop {w₀ : Volume} {rounds : Nat} (wellFormed : WellFormed v)
    (shape : SameShape v w₀) (bytes : w₀.bytes = v.bytes)
    (next : ∀ c, OwnedByOther v s c → nextCluster w₀ c = nextCluster v c)
    (loop : allocLoop data rounds w₀ 2 0 0 0 = (w, some first)) :
    ∃ cs, Stage v w s data first cs := by
  have copies : 0 < w₀.numFats := by
    rw [shape.copies]
    exact wellFormed.copies
  obtain ⟨cs, taken, laid, _, ends, _⟩ :=
    allocLoop_laid copies (Nat.le_refl 2) (by decide) (Nat.zero_le _) loop
  obtain ⟨some, head, room⟩ := ends first rfl
  obtain ⟨c, rest, rfl⟩ := List.exists_cons_of_ne_nil some
  obtain ⟨shape', confined, _⟩ := allocLoop_confined data rounds copies 2 0 0 (Nat.le_refl 2)
    (by decide) (Nat.zero_le _)
  rw [loop] at shape' confined
  rw [Nat.zero_add, ← shape'.sectors] at room
  have total : w.total = w₀.total := shape'.total
  have same : first = c := head
  subst same
  have range : ∀ d ∈ first :: rest, 2 ≤ d ∧ d < w.total := by
    intro d member
    obtain ⟨low, high, _⟩ := mem_frees.mp (taken.subset member)
    exact ⟨low, total ▸ high⟩
  have narrow : w.total ≤ chainEnd := by
    rw [total, shape.total]
    exact wellFormed.narrow
  have busy : ∀ d, OwnedByOther v s d → d ∉ frees w₀ 2 := by
    intro d other free
    have zero := (mem_frees.mp free).2.2
    rw [next d other] at zero
    exact (other_used other).2 zero
  refine ⟨first :: rest, shape.trans shape', ⟨?_, ?_, ?_, ?_, ?_⟩, laid, room,
    laid_chain laid narrow range, range first List.mem_cons_self,
    fun d member other => busy d other (taken.subset member)⟩
  · exact shape'.sectors.trans shape.sectors
  · exact total.trans shape.total
  · exact shape'.root.trans shape.root
  · intro d other
    have low := (other_used other).1
    rw [(confined d (busy d other)).1 (by omega), next d other]
  · intro d other
    rw [(confined d (busy d other)).2, bytes]

theorem stage_of_found {rounds : Nat} (wellFormed : WellFormed v) (found : findEntry v name = some s)
    (tree : 2 ≤ firstOf v s → InTree v s)
    (loop : allocLoop data rounds (freeOld v name) 2 0 0 0 = (w, some first)) :
    ∃ cs, Stage v w s data first cs := by
  by_cases low : 2 ≤ firstOf v s
  · have old : freeOld v name = freeChain 1048576 v (firstOf v s) := by
      unfold freeOld
      rw [found]
      exact if_pos low
    rw [old] at loop
    obtain ⟨cs, _, chain⟩ := wellFormed.sound.chains (.entry s) ⟨tree low, low⟩
    obtain ⟨shape, bytes, freed⟩ := freeChain_spec wellFormed.narrow wellFormed.copies chain 1048576
    refine stage_of_loop wellFormed shape bytes (fun c other => ?_) loop
    obtain ⟨o, ds, owns, differs, chain', listed⟩ := other
    have out : c ∉ cs := wellFormed.sound.apart o (.entry s) ds cs owns ⟨tree low, low⟩ differs
      chain' chain c listed
    rw [freed, if_neg fun early => out (List.mem_of_mem_take early)]
  · have old : freeOld v name = v := by
      apply freeOld_none
      intro t other
      obtain rfl := Option.some.inj (found.symm.trans other)
      omega
    rw [old] at loop
    exact stage_of_loop wellFormed (.refl v) rfl (fun _ _ => rfl) loop

end Stages

section After

variable {v w : Volume} {s : Slot} {data name : List UInt8} {first : Nat} {cs : List Nat}
  {new : Bool} (wellFormed : WellFormed v) (stage : Stage v w s data first cs)
  (listed : s ∈ slotsOf v v.rootCluster)

section Clusters

include wellFormed

theorem walk_other {o : Owner} (owns : Owns v o) (differs : o ≠ .entry s) (rounds : Nat) :
    ∀ c ∈ walk rounds v (headOf v o), OwnedByOther v s c := by
  obtain ⟨ds, _, chain⟩ := wellFormed.sound.chains o owns
  rw [chain.walk wellFormed.narrow]
  exact fun c member => ⟨o, ds, owns, differs, chain, List.mem_of_mem_take member⟩

theorem root_other : ∀ c ∈ walk 1024 v v.rootCluster, OwnedByOther v s c :=
  walk_other wellFormed (o := .root) trivial (by simp) 1024

theorem root_apart {o : Owner} (owns : Owns v o) (differs : o ≠ .root) (rounds : Nat) {u : Slot}
    (member : u ∈ slotsOf v v.rootCluster) {c : Nat} (visited : c ∈ walk rounds v (headOf v o)) :
    c ≠ u.cluster := by
  obtain ⟨ds, _, chain⟩ := wellFormed.sound.chains o owns
  obtain ⟨rs, _, rootChain⟩ := wellFormed.sound.chains .root trivial
  have inRoot : u.cluster ∈ rs := by
    have here := mem_slotsOf member
    rw [show v.rootCluster = headOf v .root from rfl, rootChain.walk wellFormed.narrow] at here
    exact List.mem_of_mem_take here
  rw [chain.walk wellFormed.narrow] at visited
  rintro rfl
  exact wellFormed.sound.apart o .root ds rs owns trivial differs chain rootChain _
    (List.mem_of_mem_take visited) inRoot

include listed in
theorem walk_clear {o : Owner} (owns : Owns v o) (notRoot : o ≠ .root) (differs : o ≠ .entry s)
    (rounds : Nat) :
    ∀ c ∈ walk rounds v (headOf v o), OwnedByOther v s c ∧ c ≠ s.cluster := fun c visited =>
  ⟨walk_other wellFormed owns differs rounds c visited,
    root_apart wellFormed owns notRoot rounds listed visited⟩

end Clusters

include stage

theorem Stage.agree_after :
    Agree v (writeEntry w s new name first data.length)
      (fun c => OwnedByOther v s c ∧ c ≠ s.cluster) := by
  refine ⟨stage.agree.sectors, stage.agree.total, stage.agree.root,
    fun c kept => stage.agree.next c kept.1, fun c kept => ?_⟩
  rw [← stage.agree.bytes c kept.1]
  funext t i
  exact bytes_writeEntry fun same => absurd same kept.2

include wellFormed

theorem Stage.root_bytes {u : Slot} (member : u ∈ slotsOf v v.rootCluster) :
    byteAt w u = byteAt v u :=
  stage.agree.byteAt (root_other wellFormed _ (mem_slotsOf member))

theorem Stage.root_slots : slotsOf w w.rootCluster = slotsOf v v.rootCluster := by
  rw [stage.agree.root]
  exact stage.agree.slotsOf (root_other wellFormed)

theorem Stage.slots_after :
    slotsOf (writeEntry w s new name first data.length) w.rootCluster =
      slotsOf v v.rootCluster := by
  rw [slotsOf_writeEntry, stage.root_slots wellFormed]

include listed

theorem Stage.root_after {u : Slot} (member : u ∈ slotsOf v v.rootCluster) (differs : u ≠ s)
    {i : Nat} (small : i < 32) :
    byteAt (writeEntry w s new name first data.length) u i = byteAt v u i := by
  obtain ⟨_, _, j, _, uOff⟩ := mem_slotsOf_iff.mp member
  obtain ⟨_, _, k, _, sOff⟩ := mem_slotsOf_iff.mp listed
  rw [byteAt_writeEntry_other uOff sOff differs small, stage.root_bytes wellFormed member]

theorem Stage.read_after :
    readFile (writeEntry w s new name first data.length) first data.length data.length =
      data.take (1048576 * (v.sectorsPerCluster * blockSize)) := by
  have narrow : w.total ≤ chainEnd := by
    rw [stage.shape.total]
    exact wellFormed.narrow
  have own : OwnedByOther v s s.cluster := root_other wellFormed _ (mem_slotsOf listed)
  have blocks : ∀ c ∈ cs.take 1048576,
      clusterBytes (writeEntry w s new name first data.length) c = clusterBytes w c := by
    intro c member
    have away : c ≠ s.cluster := by
      rintro rfl
      exact stage.apart _ (List.mem_of_mem_take member) own
    have bytes : (writeEntry w s new name first data.length).bytes c = w.bytes c := by
      funext t i
      exact bytes_writeEntry fun same => absurd same away
    rw [clusterBytes, clusterBytes, bytes]
    rfl
  have read := laid_whole stage.laid stage.room 1048576
  rw [stage.shape.sectors] at read
  rw [readFile, if_neg (by have := stage.low.1; omega), walk_writeEntry, stage.chain.walk narrow,
    Nat.min_self, List.flatMap_congr blocks, read]

section Tree

variable (plain : InTree v s → isDir v s = false)

include plain

variable {u : Slot}

theorem Stage.bytes_after (tree : InTree v u) (differs : u ≠ s) {i : Nat}
    (small : i < 32) :
    byteAt (writeEntry w s new name first data.length) u i = byteAt v u i := by
  cases tree with
  | root member =>
    exact stage.root_after wellFormed listed
      (List.takeWhile_sublist _ |>.subset (List.mem_of_mem_filter member)) differs small
  | @sub d _ above dir member =>
    have other : d ≠ s := by
      rintro rfl
      rw [plain above] at dir
      cases dir
    have visited := mem_walkDir member
    have kept := walk_clear wellFormed listed (o := .entry d) ⟨above, mem_walk_low visited⟩
      (by simp) (by simpa using other) 1024 _ visited
    rw [stage.agree_after.byteAt kept]

theorem Stage.listing_after {d : Slot} (tree : InTree v d) (dir : isDir v d = true) :
    walkDir (writeEntry w s new name first data.length) (firstOf v d) =
      walkDir v (firstOf v d) := by
  have other : d ≠ s := by
    rintro rfl
    rw [plain tree] at dir
    cases dir
  apply stage.agree_after.walkDir
  intro c visited
  exact walk_clear wellFormed listed (o := .entry d) ⟨tree, mem_walk_low visited⟩ (by simp)
    (by simpa using other) 1024 c visited

omit plain in
theorem Stage.content_after (tree : InTree v u) (differs : u ≠ s) :
    readFile (writeEntry w s new name first data.length) (firstOf v u) (sizeOf v u) (sizeOf v u) =
      readFile v (firstOf v u) (sizeOf v u) (sizeOf v u) := by
  unfold readFile
  split_ifs with none
  · rfl
  · have kept : ∀ c ∈ walk 1048576 v (firstOf v u), OwnedByOther v s c ∧ c ≠ s.cluster :=
      walk_clear wellFormed listed (o := .entry u) ⟨tree, Nat.not_lt.mp none⟩ (by simp)
        (by simpa using differs) 1048576
    have agree : Agree v (writeEntry w s new name first data.length) _ := stage.agree_after
    have blocks : ∀ c ∈ walk 1048576 v (firstOf v u),
        clusterBytes (writeEntry w s new name first data.length) c = clusterBytes v c := by
      intro c visited
      rw [clusterBytes, clusterBytes, agree.bytes c (kept c visited), agree.sectors]
    rw [agree.walk kept, List.flatMap_congr blocks]

variable (file : isDir (writeEntry w s new name first data.length) s = false)
  (others : ∀ u, u ≠ s → (u ∈ walkDir (writeEntry w s new name first data.length) w.rootCluster ↔
    u ∈ walkDir v v.rootCluster))

include others

theorem Stage.tree_after (tree : InTree v u) (differs : u ≠ s) :
    InTree (writeEntry w s new name first data.length) u := by
  induction tree with
  | root member => exact .root ((others _ differs).mpr member)
  | @sub d u above dir member ih =>
    have other : d ≠ s := by
      rintro rfl
      rw [plain above] at dir
      cases dir
    have kept : ∀ i, i < 32 →
        byteAt (writeEntry w s new name first data.length) d i = byteAt v d i :=
      fun i small => stage.bytes_after wellFormed listed plain above other small
    obtain ⟨head, _, dir'⟩ := entry_congr kept
    refine .sub (ih other) (dir'.trans dir) ?_
    rw [head, stage.listing_after wellFormed listed plain above dir]
    exact member

include file

theorem Stage.tree_before
    (tree : InTree (writeEntry w s new name first data.length) u) (differs : u ≠ s) :
    InTree v u := by
  induction tree with
  | root member => exact .root ((others _ differs).mp member)
  | @sub d u above dir member ih =>
    have other : d ≠ s := by
      rintro rfl
      rw [file] at dir
      cases dir
    have before := ih other
    have kept : ∀ i, i < 32 →
        byteAt (writeEntry w s new name first data.length) d i = byteAt v d i :=
      fun i small => stage.bytes_after wellFormed listed plain before other small
    obtain ⟨head, _, dir'⟩ := entry_congr kept
    rw [dir'] at dir
    rw [head, stage.listing_after wellFormed listed plain before dir] at member
    exact .sub before dir member

end Tree

end After

section Listing

variable {v w : Volume} {s : Slot} {data : List UInt8} {first : Nat} {cs : List Nat}

theorem Stage.replaced_listing (name : List UInt8) (wellFormed : WellFormed v)
    (stage : Stage v w s data first cs) (listed : s ∈ slotsOf v v.rootCluster) :
    (∀ u ∈ slotsOf v v.rootCluster, ∀ i, i < 12 →
      byteAt (writeEntry w s false name first data.length) u i = byteAt v u i) ∧
    walkDir (writeEntry w s false name first data.length) w.rootCluster =
      walkDir v v.rootCluster := by
  have front : ∀ u ∈ slotsOf v v.rootCluster, ∀ i, i < 12 →
      byteAt (writeEntry w s false name first data.length) u i = byteAt v u i := by
    intro u member i small
    by_cases same : u = s
    · rw [same, writeEntry_kept small, stage.root_bytes wellFormed listed]
    · exact stage.root_after wellFormed listed member same (by omega)
  exact ⟨front, walkDir_congr (stage.slots_after wellFormed) front⟩

/-- A slot that is free or ends the directory shows the new entry. -/
theorem new_listing {v v' : Volume} {L : List Slot} (nodup : L.Nodup)
    (found : L.find? (fun u => byteAt v u 0 = 0 ∨ byteAt v u 0 = 229) = some s)
    (tail : ∀ u ∈ L.dropWhile (fun u => byteAt v u 0 ≠ 0), byteAt v u 0 = 0)
    (same : ∀ u ∈ L, u ≠ s → ∀ i, i < 12 → byteAt v' u i = byteAt v u i)
    (live : byteAt v' s 0 ≠ 0) (shown : shows v' s = true) :
    s ∈ (L.takeWhile fun u => byteAt v' u 0 ≠ 0).filter (shows v') ∧
      s ∉ (L.takeWhile fun u => byteAt v u 0 ≠ 0).filter (shows v) ∧
      ((L.takeWhile fun u => byteAt v' u 0 ≠ 0).filter (shows v')).filter (· ≠ s) =
        ((L.takeWhile fun u => byteAt v u 0 ≠ 0).filter (shows v)).filter (· ≠ s) := by
  obtain ⟨test, A, B, rfl, early⟩ := List.find?_eq_some_iff_append.mp found
  have free : byteAt v s 0 = 0 ∨ byteAt v s 0 = 229 := by simpa using test
  have before : ∀ u ∈ A, byteAt v u 0 ≠ 0 := by
    intro u member zero
    have := early u member
    simp [zero] at this
  obtain ⟨_, sB, apart⟩ := List.nodup_append.mp nodup
  have notA : ∀ u ∈ A, u ≠ s := fun u member => apart u member s List.mem_cons_self
  have notB : ∀ u ∈ B, u ≠ s := fun u member same' =>
    (List.nodup_cons.mp sB).1 (same' ▸ member)
  have sameA : ∀ u ∈ A, ∀ i, i < 12 → byteAt v' u i = byteAt v u i := fun u member =>
    same u (List.mem_append_left _ member) (notA u member)
  have sameB : ∀ u ∈ B, ∀ i, i < 12 → byteAt v' u i = byteAt v u i := fun u member =>
    same u (List.mem_append_right _ (List.mem_cons_of_mem s member)) (notB u member)
  have passA : ∀ u ∈ A, decide (byteAt v u 0 ≠ 0) = true := fun u member =>
    decide_eq_true (before u member)
  -- In front of the slot and behind it the two listings agree.
  obtain ⟨X, hX⟩ : ∃ X, A.filter (shows v) = X := ⟨_, rfl⟩
  obtain ⟨Y, hY⟩ : ∃ Y, (B.takeWhile fun u => byteAt v u 0 ≠ 0).filter (shows v) = Y := ⟨_, rfl⟩
  have after : ((A ++ s :: B).takeWhile fun u => byteAt v' u 0 ≠ 0).filter (shows v') =
      X ++ s :: Y := by
    have passA' : ∀ u ∈ A, decide (byteAt v' u 0 ≠ 0) = true := by
      intro u member
      rw [sameA u member 0 (by decide)]
      exact passA u member
    have rest : (B.takeWhile fun u => decide (byteAt v' u 0 ≠ 0)) =
        B.takeWhile fun u => decide (byteAt v u 0 ≠ 0) := by
      apply takeWhile_congr
      intro u member
      rw [sameB u member 0 (by decide)]
    rw [List.takeWhile_append_of_pos passA', List.takeWhile_cons, if_pos (decide_eq_true live),
      List.filter_append, List.filter_cons_of_pos shown, rest, ← hX, ← hY]
    congr 1
    · exact List.filter_congr fun u member => shows_congr (sameA u member)
    · refine congrArg _ (List.filter_congr fun u member => ?_)
      exact shows_congr (sameB u (List.takeWhile_sublist _ |>.subset member))
  have was : ((A ++ s :: B).takeWhile fun u => byteAt v u 0 ≠ 0).filter (shows v) = X ++ Y := by
    rw [List.takeWhile_append_of_pos passA, List.filter_append, hX, ← hY]
    congr 1
    rcases free with zero | deleted
    · have stop : decide (byteAt v s 0 ≠ 0) ≠ true := by simp [zero]
      rw [List.takeWhile_cons, if_neg stop]
      have closed : (B.takeWhile fun u => decide (byteAt v u 0 ≠ 0)) = [] := by
        cases B with
        | nil => rfl
        | cons u B =>
          rw [List.dropWhile_append_of_pos passA, List.dropWhile_cons, if_neg stop] at tail
          have nothing := tail u (by simp)
          simp [nothing]
      rw [closed]
    · have hidden : ¬ shows v s = true := by simp [shows, deleted]
      rw [List.takeWhile_cons, if_pos (by simp [deleted]), List.filter_cons_of_neg hidden]
  have notX : s ∉ X := by
    rw [← hX]
    exact fun member => notA s (List.mem_of_mem_filter member) rfl
  have notY : s ∉ Y := by
    rw [← hY]
    exact fun member => notB s (List.takeWhile_sublist _ |>.subset
      (List.mem_of_mem_filter member)) rfl
  rw [after, was]
  refine ⟨by simp, by simp [notX, notY], ?_⟩
  rw [List.filter_append, List.filter_append, List.filter_cons_of_neg (by simp)]

end Listing

theorem readCount_eq {bytes : List UInt8} (short : bytes.length < 2 ^ 32) :
    readCount bytes = bytes.length ↔ bytes.length < 2 ^ 31 := by
  rw [readCount, BitVec.toInt_eq_toNat_cond, BitVec.toNat_ofNat, Nat.mod_eq_of_lt short]
  split_ifs <;> omega

theorem walk_length (v : Volume) (rounds head : Nat) : (walk rounds v head).length ≤ rounds := by
  induction rounds generalizing head with
  | zero => exact Nat.le_refl 0
  | succ rounds ih =>
    rw [walk]
    split_ifs
    · rw [List.length_cons]
      exact Nat.succ_le_succ (ih _)
    · exact Nat.zero_le _

theorem readFile_length (v : Volume) (first size maxlen : Nat) :
    (readFile v first size maxlen).length ≤ 1048576 * (v.sectorsPerCluster * blockSize) := by
  unfold readFile
  split_ifs
  · exact Nat.zero_le _
  · refine Nat.le_trans (List.length_take_le' _ _) ?_
    rw [clusters_length]
    exact Nat.mul_le_mul_right _ (walk_length v _ _)

section Results

variable {v v' : Volume} {name base ext data : List UInt8} {s : Slot} {w : Volume}

theorem writeFileFull_ok (ok : writeFileFull v name data = (v', 0)) :
    ∃ w first, allocLoop data (v.total + 1) (freeOld v name) 2 0 0 0 = (w, some first) ∧
      ((∃ s, findEntry v name = some s ∧ v' = writeEntry w s false name first data.length) ∨
        findEntry v name = none ∧ ∃ s, (slotsOf w w.rootCluster).find?
          (fun u => byteAt w u 0 = 0 ∨ byteAt w u 0 = 229) = some s ∧
            v' = writeEntry w s true name first data.length) := by
  unfold writeFileFull at ok
  rcases loop : allocLoop data (v.total + 1) (freeOld v name) 2 0 0 0 with ⟨w, _ | first⟩
  · rw [loop] at ok
    exact absurd (Prod.mk.inj ok).2 (by decide)
  · rw [loop] at ok
    refine ⟨w, first, rfl, ?_⟩
    cases found : findEntry v name with
    | some s =>
      rw [found] at ok
      exact .inl ⟨s, rfl, (Prod.mk.inj ok).1.symm⟩
    | none =>
      rw [found] at ok
      simp only at ok
      split at ok
      · exact absurd (Prod.mk.inj ok).2 (by decide)
      · next s free => exact .inr ⟨rfl, s, free, (Prod.mk.inj ok).1.symm⟩

theorem rawName_first {u : Slot} (is83 : Is83 name base ext) (raw : rawName v u = nameTo83 name) :
    byteAt v u 0 ≠ 0 ∧ byteAt v u 0 ≠ 229 := by
  have first := is83.first_byte
  rw [← raw] at first
  exact first

theorem listed_of_named (conforming : Conforming v) (is83 : Is83 name base ext)
    (listed : s ∈ slotsOf v v.rootCluster) (raw : rawName v s = nameTo83 name)
    (plain : isLabel v s = false) : s ∈ walkDir v v.rootCluster := by
  obtain ⟨live, kept⟩ := rawName_first is83 raw
  have split := List.takeWhile_append_dropWhile (p := fun u => decide (byteAt v u 0 ≠ 0))
    (l := slotsOf v v.rootCluster)
  rw [← split] at listed
  rcases List.mem_append.mp listed with front | back
  · refine List.mem_filter.mpr ⟨front, ?_⟩
    obtain ⟨dot, dots⟩ := is83.not_dots
    have short : attrOf v s % 16 ≠ 15 := by
      intro long
      have bit : (attrOf v s).testBit 3 = false := plain
      rw [conforming.long s (List.takeWhile_sublist _ |>.subset front) long] at bit
      exact absurd bit (by decide)
    have bit : ¬ (attrOf v s).testBit 3 = true := by
      rw [show (attrOf v s).testBit 3 = false from plain]
      decide
    rw [raw]
    exact decide_eq_true ⟨kept, short, bit, dot, dots⟩
  · exact absurd (conforming.tail s back) live

theorem findEntry_spec (found : findEntry v name = some s) :
    s ∈ slotsOf v v.rootCluster ∧ attrOf v s ≠ 15 ∧ rawName v s = nameTo83 name := by
  have test := List.find?_some found
  exact ⟨List.mem_of_find?_eq_some found, of_decide_eq_true test⟩

theorem findEntry_none (missing : findEntry v name = none) :
    ∀ u ∈ walkDir v v.rootCluster, rawName v u ≠ nameTo83 name := by
  intro u member raw
  have test := List.find?_eq_none.mp missing u
    (List.takeWhile_sublist _ |>.subset (List.mem_of_mem_filter member))
  obtain ⟨_, short, _⟩ := of_decide_eq_true (List.mem_filter.mp member).2
  refine test (decide_eq_true ⟨fun long => short ?_, raw⟩)
  rw [long]

theorem inTree_live {u : Slot} (tree : InTree v u) : byteAt v u 0 ≠ 0 ∧ byteAt v u 0 ≠ 229 := by
  have listed : ∃ h, u ∈ walkDir v h := by
    cases tree with
    | root member => exact ⟨_, member⟩
    | sub _ _ member => exact ⟨_, member⟩
  obtain ⟨h, member⟩ := listed
  obtain ⟨front, test⟩ := List.mem_filter.mp member
  have mark := List.mem_takeWhile_imp front
  exact ⟨of_decide_eq_true mark, (of_decide_eq_true test).1⟩

/-- What holds of every written slot, once its listing is known. -/
theorem Stage.written {first : Nat} {cs : List Nat} {new : Bool} (wellFormed : WellFormed v)
    (stage : Stage v w s data first cs) (listed : s ∈ slotsOf v v.rootCluster)
    (is83 : Is83 name base ext) (size : data.length < 2 ^ 31)
    (budget : data.length ≤ 1048576 * (v.sectorsPerCluster * blockSize))
    (plain : InTree v s → isDir v s = false)
    (reported : s ∈ walkDir (writeEntry w s new name first data.length) w.rootCluster)
    (others : (walkDir (writeEntry w s new name first data.length) w.rootCluster).filter (· ≠ s) =
      (walkDir v v.rootCluster).filter (· ≠ s))
    (raw : rawName (writeEntry w s new name first data.length) s = nameTo83 name)
    (file : isDir (writeEntry w s new name first data.length) s = false)
    (replaced : s ∈ walkDir v v.rootCluster ∧ isDir v s = false ∧ rawName v s = nameTo83 name ∨
      s ∉ walkDir v v.rootCluster ∧ ∀ u ∈ walkDir v v.rootCluster, rawName v u ≠ nameTo83 name)
    (unreserved : rawName v s = nameTo83 name → isDir v s = false ∧ isLabel v s = false) :
    Written v (writeEntry w s new name first data.length) name data s := by
  have narrow := wellFormed.narrow
  have high := stage.low.2
  rw [stage.shape.total] at high
  have number : chainEnd < 2 ^ 32 := by decide
  have head : firstOf (writeEntry w s new name first data.length) s = first :=
    writeEntry_first (by omega)
  have read : readFile (writeEntry w s new name first data.length) first data.length data.length =
      data := by
    rw [stage.read_after wellFormed listed, List.take_of_length_le budget]
  have each : ∀ u, u ≠ s → (u ∈ walkDir (writeEntry w s new name first data.length) w.rootCluster ↔
      u ∈ walkDir v v.rootCluster) := by
    intro u differs
    have both := congrArg (u ∈ ·) others
    simpa [List.mem_filter, differs] using both
  obtain ⟨rs, _, rootChain⟩ := wellFormed.sound.chains .root trivial
  refine ⟨reported, ?_, others, ⟨raw, by rw [raw]; exact is83.shown⟩, file,
    writeEntry_size (by omega), ?_, fun u differs => ⟨⟨?_, ?_⟩, fun tree => ⟨?_, ?_⟩⟩, replaced, ?_⟩
  · have slots := slotsOf_nodup narrow rootChain
    have same : slotsOf (writeEntry w s new name first data.length) w.rootCluster =
        slotsOf v v.rootCluster := stage.slots_after wellFormed
    rw [show headOf v .root = v.rootCluster from rfl, ← same] at slots
    exact ((List.takeWhile_sublist _).nodup slots).filter _
  · rw [head, read]
    exact ⟨rfl, (readCount_eq (by omega)).mpr size⟩
  · exact fun tree => stage.tree_before wellFormed listed plain file each tree differs
  · exact fun tree => stage.tree_after wellFormed listed plain each tree differs
  · exact fun i small => stage.bytes_after wellFormed listed plain tree differs small
  · exact stage.content_after wellFormed listed tree differs
  · intro u member same reserved i small
    refine stage.root_after wellFormed listed member ?_ small
    rintro rfl
    obtain ⟨notDir, notLabel⟩ := unreserved same
    rw [notDir, notLabel] at reserved
    simp at reserved

theorem Conforming.stage_found (conforming : Conforming v) (is83 : Is83 name base ext)
    {first rounds : Nat} (found : findEntry v name = some s)
    (loop : allocLoop data rounds (freeOld v name) 2 0 0 0 = (w, some first)) :
    ∃ cs, Stage v w s data first cs := by
  obtain ⟨listed, short, raw⟩ := findEntry_spec found
  refine stage_of_found conforming.wellFormed found (fun low => ?_) loop
  refine .root (listed_of_named conforming is83 listed raw ?_)
  cases label : isLabel v s with
  | false => rfl
  | true =>
    have := conforming.label s listed short label
    omega

theorem Conforming.slot (conforming : Conforming v) (is83 : Is83 name base ext)
    (ok : writeFileFull v name data = (v', 0)) :
    ∃ w first s cs, Stage v w s data first cs ∧ s ∈ slotsOf v v.rootCluster ∧
      (findEntry v name = some s ∧ v' = writeEntry w s false name first data.length ∨
        findEntry v name = none ∧ (slotsOf v v.rootCluster).find?
          (fun u => byteAt v u 0 = 0 ∨ byteAt v u 0 = 229) = some s ∧
            v' = writeEntry w s true name first data.length) := by
  obtain ⟨w, first, loop, ⟨s, found, result⟩ | ⟨missing, s, free, result⟩⟩ := writeFileFull_ok ok
  · obtain ⟨cs, stage⟩ := conforming.stage_found is83 found loop
    exact ⟨w, first, s, cs, stage, (findEntry_spec found).1, .inl ⟨found, result⟩⟩
  · have old : freeOld v name = v := by
      unfold freeOld
      rw [missing]
    rw [old] at loop
    obtain ⟨cs, stage⟩ := stage_of_loop (s := s) conforming.wellFormed
      (.refl v) rfl (fun _ _ => rfl) loop
    have bytes : ∀ u ∈ slotsOf v v.rootCluster, byteAt w u = byteAt v u :=
      fun u member => stage.root_bytes conforming.wellFormed member
    rw [stage.root_slots conforming.wellFormed] at free
    have member := List.mem_of_find?_eq_some free
    refine ⟨w, first, s, cs, stage, member, .inr ⟨missing, ?_, result⟩⟩
    rw [← free]
    apply List.find?_congr
    intro u inRoot
    rw [bytes u inRoot]

theorem Stage.new_entry {first : Nat} {cs : List Nat} (conforming : Conforming v)
    (stage : Stage v w s data first cs) (is83 : Is83 name base ext)
    (listed : s ∈ slotsOf v v.rootCluster)
    (free : (slotsOf v v.rootCluster).find?
      (fun u => byteAt v u 0 = 0 ∨ byteAt v u 0 = 229) = some s) :
    s ∈ walkDir (writeEntry w s true name first data.length) w.rootCluster ∧
      s ∉ walkDir v v.rootCluster ∧
      (walkDir (writeEntry w s true name first data.length) w.rootCluster).filter (· ≠ s) =
        (walkDir v v.rootCluster).filter (· ≠ s) := by
  have wellFormed := conforming.wellFormed
  obtain ⟨rs, _, rootChain⟩ := wellFormed.sound.chains .root trivial
  obtain ⟨raw, attr⟩ := @writeEntry_new w s name first data.length
  obtain ⟨live, kept⟩ := rawName_first is83 raw
  obtain ⟨dot, dots⟩ := is83.not_dots
  have shown : shows (writeEntry w s true name first data.length) s = true := by
    rw [shows, raw, attr]
    exact decide_eq_true ⟨kept, by decide, by decide, dot, dots⟩
  rw [walkDir_eq, walkDir_eq, stage.slots_after wellFormed]
  exact new_listing (slotsOf_nodup wellFormed.narrow rootChain) free conforming.tail
    (fun u member differs i small =>
      stage.root_after wellFormed listed member differs (by omega)) live shown

/-- A write that returns 0 adds or replaces exactly its file, and the file reads
back, if and only if the name does not belong to a directory or a label and the
reader gets through the data. -/
theorem write_read_law_iff (conforming : Conforming v) (is83 : Is83 name base ext)
    (word : data.length < 2 ^ 32) (ok : writeFileFull v name data = (v', 0)) :
    (∃ s, Written v v' name data s) ↔ Fits v name data := by
  have wellFormed := conforming.wellFormed
  obtain ⟨w, first, t, cs, stage, listed, entry⟩ := conforming.slot is83 ok
  constructor
  · rintro ⟨s, written⟩
    have count := written.content.2
    have length := readFile_length v' (firstOf v' s) data.length data.length
    rw [written.content.1] at count length
    have sectors : v'.sectorsPerCluster = v.sectorsPerCluster := by
      rcases entry with ⟨_, rfl⟩ | ⟨_, _, rfl⟩
      · exact stage.shape.sectors
      · exact stage.shape.sectors
    refine ⟨fun u found => ?_, (readCount_eq word).mp count, sectors ▸ length⟩
    obtain ⟨found', rfl⟩ | ⟨missing, _⟩ := entry
    swap
    · rw [missing] at found
      cases found
    obtain rfl := Option.some.inj (found.symm.trans found')
    obtain ⟨_, short, raw⟩ := findEntry_spec found
    obtain ⟨front, listing⟩ := stage.replaced_listing name wellFormed listed
    have label : isLabel v u = false := by
      by_contra label
      have bit : isLabel v u = true := by simpa using label
      have same := (entry_congr (written.reserved u listed raw (.inr bit))).1
      have high := stage.low
      have narrow := wellFormed.narrow
      have number : chainEnd < 2 ^ 32 := by decide
      rw [stage.shape.total] at high
      rw [writeEntry_first (by omega)] at same
      have := conforming.label u listed short bit
      omega
    refine ⟨?_, label⟩
    -- Names and attributes in the root directory stay, so the file is the entry itself.
    have reported : s ∈ walkDir v v.rootCluster := listing ▸ written.reported
    have inRoot : s ∈ slotsOf v v.rootCluster :=
      List.takeWhile_sublist _ |>.subset (List.mem_of_mem_filter reported)
    obtain ⟨sameName, sameAttr⟩ := rawName_congr (front s inRoot)
    have here : s = u := conforming.distinct s reported u
      (listed_of_named conforming is83 listed raw label)
      (by rw [← sameName, written.named.1, raw])
    have file := written.file
    rw [isDir, sameAttr, here] at file
    exact file
  · rintro ⟨unreserved, size, budget⟩
    refine ⟨t, ?_⟩
    obtain ⟨found, rfl⟩ | ⟨missing, free, rfl⟩ := entry
    · obtain ⟨_, short, raw⟩ := findEntry_spec found
      obtain ⟨notDir, notLabel⟩ := unreserved t found
      obtain ⟨front, listing⟩ := stage.replaced_listing name wellFormed listed
      obtain ⟨sameName, sameAttr⟩ := rawName_congr (front t listed)
      have live := listed_of_named conforming is83 listed raw notLabel
      refine stage.written wellFormed listed is83 size budget (fun _ => notDir) ?_ ?_
        (sameName.trans raw) ?_ (.inl ⟨live, notDir, raw⟩) fun _ => ⟨notDir, notLabel⟩
      · rw [listing]
        exact live
      · rw [listing]
      · rw [isDir, sameAttr]
        exact notDir
    · obtain ⟨reported, unlisted, others⟩ := stage.new_entry conforming is83 listed free
      obtain ⟨raw, attr⟩ := @writeEntry_new w t name first data.length
      have unused : byteAt v t 0 = 0 ∨ byteAt v t 0 = 229 := by simpa using List.find?_some free
      refine stage.written wellFormed listed is83 size budget (fun tree => ?_) reported others raw
        ?_ (.inr ⟨unlisted, findEntry_none missing⟩) fun same => ?_
      · obtain ⟨live, kept⟩ := inTree_live tree
        exact absurd unused (by simp [live, kept])
      · rw [isDir, attr]
        decide
      · obtain ⟨live, kept⟩ := rawName_first is83 same
        exact absurd unused (by simp [live, kept])

end Results

/-- The entry of the directory `D`, in cluster 3. -/
private def entryD : List UInt8 := 68 :: List.replicate 10 32 ++ [16] ++ List.replicate 14 0 ++ [3]

/-- A card whose root directory, in cluster 2, holds the empty directory `D`. -/
private def card : Volume where
  sectorsPerCluster := 1
  sectorsPerFat := 1
  numFats := 1
  rootCluster := 2
  fats := fun _ c => if c = 2 ∨ c = 3 then endMark else 0
  bytes := fun c _ i => if c = 2 then entryD.getD i 0 else 0

private def slotD : Slot := ⟨2, 0, 0⟩

private theorem card_root : walkDir card 2 = [slotD] := by decide

private theorem card_tree {s : Slot} (tree : InTree card s) : s = slotD := by
  induction tree with
  | root member =>
    rw [show card.rootCluster = 2 from rfl, card_root] at member
    exact List.mem_singleton.mp member
  | sub _ _ member above =>
    rw [above, show walkDir card (firstOf card slotD) = [] by decide] at member
    cases member

private theorem card_owner {o : Owner} (owns : Owns card o) :
    o = .root ∧ headOf card o = 2 ∨ o = .entry slotD ∧ headOf card o = 3 := by
  cases o with
  | root => exact .inl ⟨rfl, rfl⟩
  | entry s =>
    obtain rfl := card_tree owns.1
    exact .inr ⟨rfl, by decide⟩

private theorem card_chain {c : Nat} (used : c = 2 ∨ c = 3) : Chain card c [c] := by
  rcases used with rfl | rfl
  · exact ⟨⟨rfl, by decide, by decide⟩, rfl⟩
  · exact ⟨⟨rfl, by decide, by decide⟩, rfl⟩

private theorem card_wellFormed : WellFormed card := by
  have narrow : card.total ≤ chainEnd := by decide
  have own : ∀ o cs, Owns card o → Chain card (headOf card o) cs → cs = [headOf card o] := by
    intro o cs owns chain
    refine Chain.unique narrow chain (card_chain ?_)
    exact (card_owner owns).imp And.right And.right
  refine ⟨by decide, narrow,
    ⟨fun o owns => ?_, fun o o' cs cs' owns owns' differs chain chain' c => ?_⟩⟩
  · exact ⟨_, List.cons_ne_nil _ _, card_chain ((card_owner owns).imp And.right And.right)⟩
  · rw [own o cs owns chain, own o' cs' owns' chain', List.mem_singleton, List.mem_singleton]
    rcases card_owner owns with ⟨rfl, is⟩ | ⟨rfl, is⟩ <;>
      rcases card_owner owns' with ⟨rfl, is'⟩ | ⟨rfl, is'⟩
    · exact absurd rfl differs
    · rw [is, is']
      omega
    · rw [is, is']
      omega
    · exact absurd rfl differs

private theorem card_conforming : Conforming card := by
  refine ⟨card_wellFormed, by decide, by decide, by decide, by decide, ?_⟩
  rw [show card.rootCluster = 2 from rfl, card_root]
  intro u member u' member' _
  rw [List.mem_singleton.mp member, List.mem_singleton.mp member']

/-- A new file `B` on the card. -/
theorem write_read_law_iff_new_file :
    (writeFileFull card [66] [1, 2, 3]).2 = 0 ∧
      ∃ s, Written card (writeFileFull card [66] [1, 2, 3]).1 [66] [1, 2, 3] s := by
  have ok : writeFileFull card [66] [1, 2, 3] = ((writeFileFull card [66] [1, 2, 3]).1, 0) := rfl
  have name : Is83 [66] [66] [] :=
    ⟨rfl, by decide, by decide, by decide +kernel, by decide +kernel, by decide +kernel⟩
  refine ⟨rfl, (write_read_law_iff card_conforming name (by decide) ok).mpr ⟨?_, ?_, ?_⟩⟩
  · have none : findEntry card [66] = Option.none := by decide
    intro s found
    rw [none] at found
    cases found
  · decide
  · decide

/-- A file under the name of the directory `D` takes its entry: it stays a
directory and leads to the data. -/
theorem directory_overwritten :
    ∃ v name data, Conforming v ∧ Is83 name name [] ∧ (writeFileFull v name data).2 = 0 ∧
      ¬ ∃ s, Written v (writeFileFull v name data).1 name data s := by
  refine ⟨card, [68], [1, 2, 3], card_conforming,
    ⟨rfl, by decide, by decide, by decide +kernel, by decide +kernel, by decide +kernel⟩, rfl, ?_⟩
  rintro ⟨s, written⟩
  have listing : walkDir (writeFileFull card [68] [1, 2, 3]).1
      (writeFileFull card [68] [1, 2, 3]).1.rootCluster = [slotD] := by decide +kernel
  have reported := written.reported
  rw [listing] at reported
  have file := written.file
  rw [List.mem_singleton.mp reported] at file
  exact absurd file (by decide +kernel)

end XinuRpi5.Fs.WriteLaw
