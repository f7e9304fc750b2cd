/- source: fs/fat32.c
   digest: fat32_write_file by clusters, and what a successful call leaves behind. -/

import XinuRpi5.Fs.FatEntries
import XinuRpi5.Fs.WriteFailure

namespace XinuRpi5.Fs.SingleCluster

open Lib.LinkedChain Fat32 FatChains FatAlloc
open FatEntries
open WriteFailure (WellFormed)

/-- The loop that fills the sectors of the new cluster, with zeros behind the data. -/
def fillCluster (data : List UInt8) (c : Nat) : Nat → Nat → Volume → Volume
  | 0, _, v => v
  | left + 1, s, v =>
    fillCluster data c left (s + 1) (writeSector v c s fun i => data.getD (blockSize * s + i) 0)

def takes (v : Volume) (raw : List UInt8) (s : Slot) : Bool :=
  byteAt v s 0 = 0 ∨ byteAt v s 0 = 229 ∨ rawName v s = raw

def findSlot (v : Volume) (dir : Nat) (raw : List UInt8) : Option Slot :=
  (slotsOf v dir).find? (takes v raw)

def writeFile (v : Volume) (dir : Nat) (name data : List UInt8) : Volume × Int :=
  if v.sectorsPerCluster * blockSize < data.length then (v, -1)
  else
    let c := scanFreeFrom v 0
    if c < 2 then (v, -1)
    else
      let w := fillCluster data c v.sectorsPerCluster 0 (setEntry v c endMark)
      match findSlot w dir (nameTo83 name) with
      | some s => (writeEntry w s true name c data.length, 0)
      | none => (w, -1)

section Filling

variable {data : List UInt8} {c left s : Nat} {v : Volume}

theorem fillCluster_shape : SameShape v (fillCluster data c left s v) ∧
    (fillCluster data c left s v).fats = v.fats ∧
    ∀ d, d ≠ c → (fillCluster data c left s v).bytes d = v.bytes d := by
  induction left generalizing s v with
  | zero => exact ⟨.refl v, rfl, fun _ _ => rfl⟩
  | succ left ih =>
    obtain ⟨shape, fats, others⟩ := @ih (s + 1)
      (writeSector v c s fun i => data.getD (blockSize * s + i) 0)
    refine ⟨⟨shape.sectors, shape.fat, shape.copies, shape.root⟩, fats, fun d other => ?_⟩
    rw [fillCluster, others d other]
    funext t
    exact if_neg fun same => other same.1

end Filling

/-- The result `v'` of a successful call: the cluster `c` was free, and the slot `s` of the
directory was the first to fit. -/
structure Stored (v : Volume) (dir : Nat) (name data : List UInt8) (c : Nat) (s : Slot)
    (v' : Volume) : Prop where
  free : 2 ≤ c ∧ c < v.total ∧ nextCluster v c = 0
  slot : findSlot (fillCluster data c v.sectorsPerCluster 0 (setEntry v c endMark)) dir
    (nameTo83 name) = some s
  result : v' = writeEntry (fillCluster data c v.sectorsPerCluster 0 (setEntry v c endMark)) s true
    name c data.length

section Results

variable {v v' : Volume} {dir : Nat} {name data : List UInt8} {c : Nat} {s : Slot}

theorem stored_of_writeFile (ok : writeFile v dir name data = (v', 0)) :
    ∃ c s, Stored v dir name data c s v' := by
  unfold writeFile at ok
  by_cases long : v.sectorsPerCluster * blockSize < data.length
  · rw [if_pos long] at ok
    cases (Prod.mk.inj ok).2
  rw [if_neg long] at ok
  dsimp only at ok
  by_cases none : scanFreeFrom v 0 < 2
  · rw [if_pos none] at ok
    cases (Prod.mk.inj ok).2
  rw [if_neg none] at ok
  have free : 2 ≤ scanFreeFrom v 0 ∧ scanFreeFrom v 0 < v.total ∧
      nextCluster v (scanFreeFrom v 0) = 0 := by
    have start : scanFreeFrom v 0 = scanFreeFrom v 2 := rfl
    rw [start] at none ⊢
    rw [scanFreeFrom_eq (Nat.le_refl 2)] at none ⊢
    cases list : frees v 2 with
    | nil =>
      rw [list] at none
      exact absurd (by decide : (0 : Nat) < 2) none
    | cons c rest =>
      have listed : c ∈ frees v 2 := by
        rw [list]
        exact List.mem_cons_self
      exact mem_frees.mp listed
  generalize scanFreeFrom v 0 = c at ok free
  cases found : findSlot (fillCluster data c v.sectorsPerCluster 0 (setEntry v c endMark)) dir
    (nameTo83 name) with
  | none =>
    rw [found] at ok
    cases (Prod.mk.inj ok).2
  | some s =>
    rw [found] at ok
    exact ⟨c, s, free, found, (Prod.mk.inj ok).1.symm⟩

end Results

section Stored

variable {v v' : Volume} {dir : Nat} {name data : List UInt8} {c : Nat} {s : Slot}
  (stored : Stored v dir name data c s v')

include stored

theorem Stored.shape : SameShape v v' := by
  rw [stored.result]
  exact ⟨fillCluster_shape.1.sectors, fillCluster_shape.1.fat, fillCluster_shape.1.copies,
    fillCluster_shape.1.root⟩

theorem Stored.next (copies : 0 < v.numFats) (d : Nat) :
    nextCluster v' d = if d = c then endMark else nextCluster v d := by
  rw [stored.result, ← nextCluster_setEntry copies]
  change (fillCluster data c v.sectorsPerCluster 0 (setEntry v c endMark)).fats 0 d = _
  rw [fillCluster_shape.2.1]
  rfl

theorem Stored.agree_filled (copies : 0 < v.numFats) : Agree v
    (fillCluster data c v.sectorsPerCluster 0 (setEntry v c endMark)) (· ≠ c) := by
  refine ⟨fillCluster_shape.1.sectors, fillCluster_shape.1.total, fillCluster_shape.1.root,
    fun d other => ?_, fun d other => fillCluster_shape.2.2 d other⟩
  have next := stored.next copies d
  rw [if_neg other, stored.result] at next
  exact next

theorem Stored.agree (copies : 0 < v.numFats) : Agree v v' fun d => d ≠ c ∧ d ≠ s.cluster := by
  have before := stored.agree_filled copies
  rw [stored.result]
  refine ⟨before.sectors, before.total, before.root, fun d other => before.next d other.1,
    fun d other => ?_⟩
  rw [← before.bytes d other.1]
  funext t i
  exact bytes_writeEntry fun same => absurd same other.2

theorem Stored.first (narrow : v.total ≤ chainEnd) : firstOf v' s = c := by
  have less := stored.free.2.1
  unfold chainEnd at narrow
  rw [stored.result]
  exact writeEntry_first (by omega)

theorem Stored.name_attr : rawName v' s = nameTo83 name ∧ attrOf v' s = 32 := by
  rw [stored.result]
  exact writeEntry_new

theorem Stored.file : isDir v' s = false := by
  rw [isDir, stored.name_attr.2]
  decide

theorem Stored.byteAt_other {u : Slot} {j : Nat} (off : u.off = 32 * j) (differs : u ≠ s)
    (away : u.cluster ≠ c) {i : Nat} (small : i < 32) : byteAt v' u i = byteAt v u i := by
  obtain ⟨_, _, k, _, sOff⟩ := mem_slotsOf_iff.mp (List.mem_of_find?_eq_some stored.slot)
  rw [stored.result, byteAt_writeEntry_other off sOff differs small]
  exact congrFun (congrFun (fillCluster_shape.2.2 _ away) u.sector) _

end Stored

end XinuRpi5.Fs.SingleCluster
