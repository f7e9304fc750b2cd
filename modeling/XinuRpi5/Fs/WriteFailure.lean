/- source: fs/fat32.c
   digest: What a failed fat32_write_file_full leaves behind. -/

import XinuRpi5.Fs.FatAlloc

namespace XinuRpi5.Fs.WriteFailure

open Lib.LinkedChain
open Fat32 FatChains FatAlloc

structure WellFormed (v : Volume) : Prop where
  copies : 0 < v.numFats
  narrow : v.total ≤ chainEnd
  sound : Sound v

/-- The volume after a failed write: it is sound, every entry is still there and
reads as before, and no cluster lost its owner. -/
structure FailureSafe (v v' : Volume) : Prop where
  sound : Sound v'
  kept : ∀ s, InTree v s → InTree v' s ∧ (∀ i, i < 32 → byteAt v' s i = byteAt v s i) ∧
    readFile v' (firstOf v s) (sizeOf v s) (sizeOf v s) =
      readFile v (firstOf v s) (sizeOf v s) (sizeOf v s)
  noLeak : ∀ c, Allocated v' c → ¬ Owned v' c → Allocated v c ∧ ¬ Owned v c

def NothingDone (v : Volume) (name : List UInt8) : Prop :=
  (∀ s, findEntry v name = some s → firstOf v s < 2) ∧
    ∀ c, 2 ≤ c → c < v.total → nextCluster v c ≠ 0

/-- The name has a chain, and if it is a plain file then the new data starts with
its old contents. -/
def Coincides (v : Volume) (name data : List UInt8) : Prop :=
  ∃ s, findEntry v name = some s ∧ 2 ≤ firstOf v s ∧
    (s ∈ walkDir v v.rootCluster → isDir v s = false →
      readFile v (firstOf v s) (sizeOf v s) (sizeOf v s) <+: data)

section Failure

variable {v : Volume} {name data : List UInt8} {v' : Volume}

theorem failureSafe_refl (h : WellFormed v) : FailureSafe v v :=
  ⟨h.sound, fun _ tree => ⟨tree, fun _ _ => rfl, rfl⟩, fun _ allocated orphan => ⟨allocated, orphan⟩⟩

theorem freeOld_none (nothing : ∀ s, findEntry v name = some s → firstOf v s < 2) :
    freeOld v name = v := by
  unfold freeOld
  cases found : findEntry v name with
  | none => rfl
  | some s =>
    have low := nothing s found
    exact if_neg (by omega)

theorem frees_nil (full : ∀ c, 2 ≤ c → c < v.total → nextCluster v c ≠ 0) : frees v 2 = [] := by
  rw [List.eq_nil_iff_forall_not_mem]
  intro c listed
  obtain ⟨low, high, free⟩ := mem_frees.mp listed
  exact full c low high free

theorem writeFileFull_full (nothing : NothingDone v name) :
    writeFileFull v name data = (v, -1) := by
  unfold writeFileFull
  rw [freeOld_none nothing.1, allocLoop_stop (Nat.le_refl 2) (frees_nil nothing.2)]

theorem writeFileFull_failed (failed : writeFileFull v name data = (v', -1)) :
    v' = (allocLoop data (v.total + 1) (freeOld v name) 2 0 0 0).1 ∧
      ((∃ s, findEntry v name = some s) →
        allocLoop data (v.total + 1) (freeOld v name) 2 0 0 0 = (v', none)) := by
  unfold writeFileFull at failed
  rcases result : allocLoop data (v.total + 1) (freeOld v name) 2 0 0 0 with ⟨w, first⟩
  rw [result] at failed
  cases first with
  | none =>
    obtain ⟨rfl, _⟩ := Prod.mk.inj failed
    exact ⟨rfl, fun _ => rfl⟩
  | some first =>
    simp only at failed
    cases found : findEntry v name with
    | some s =>
      rw [found] at failed
      exact absurd (Prod.mk.inj failed).2 (by decide)
    | none =>
      rw [found] at failed
      simp only at failed
      split at failed
      · obtain ⟨rfl, _⟩ := Prod.mk.inj failed
        exact ⟨rfl, fun ⟨s, is⟩ => absurd is (Option.some_ne_none s).symm⟩
      · exact absurd (Prod.mk.inj failed).2 (by decide)

theorem not_owned_of_agree (h : WellFormed v) (agree : Agree v v' (Owned v)) {c : Nat}
    (before : ¬ Owned v c) : ¬ Owned v' c := by
  have dirs : ∀ o cs, Owns v o → IsDirectory v o → Chain v (headOf v o) cs →
      ∀ c ∈ cs, Owned v c := fun o cs owns _ chain c listed => ⟨o, cs, owns, chain, listed⟩
  rintro ⟨o, cs, owns', chain', listed⟩
  have owns := (agree.owns_iff h.narrow h.sound dirs o).mp owns'
  rw [agree.head_eq h.narrow h.sound dirs owns] at chain'
  obtain ⟨ds, _, chain⟩ := h.sound.chains o owns
  have after : Chain v' (headOf v o) ds :=
    chain.congr agree.total fun d member => agree.next d ⟨o, ds, owns, chain, member⟩
  have same := Chain.unique (agree.total ▸ h.narrow) chain' after
  exact before ⟨o, ds, owns, chain, same ▸ listed⟩

theorem leaks {c : Nat} {rest : List Nat} (h : WellFormed v)
    (nothing : ∀ s, findEntry v name = some s → firstOf v s < 2) (list : frees v 2 = c :: rest)
    (result : v' = (allocLoop data (v.total + 1) (freeOld v name) 2 0 0 0).1) :
    ¬ FailureSafe v v' := by
  rw [freeOld_none nothing] at result
  obtain ⟨shape, apart, _, taken⟩ := allocLoop_confined data (v.total + 1) h.copies 2 0 0
    (Nat.le_refl 2) (by decide) (Nat.zero_le _)
  rw [← result] at shape apart taken
  have inFree : ∀ d, Owned v d → d ∉ frees v 2 := fun d owned listed =>
    owned.allocated.2.2 (mem_frees.mp listed).2.2
  have agree : Agree v v' (Owned v) := by
    refine ⟨shape.sectors, shape.total, shape.root, fun d owned => ?_, fun d owned => ?_⟩
    · have low := owned.allocated.1
      exact (apart d (inFree d owned)).1 (by omega)
    · exact (apart d (inFree d owned)).2
  obtain ⟨low, high, free⟩ := mem_frees.mp (list ▸ List.mem_cons_self : c ∈ frees v 2)
  intro safe
  have allocated : Allocated v' c := by
    refine ⟨low, by rw [shape.total]; exact high, taken (Nat.succ_pos _) c ?_⟩
    rw [list]
    rfl
  have orphan : ¬ Owned v' c :=
    not_owned_of_agree h agree fun owned => owned.allocated.2.2 free
  exact (safe.noLeak c allocated orphan).1.2.2 free

theorem frees_length (a : Nat) : (frees v a).length < v.total + 1 := by
  have bound := List.length_filter_le (fun c => decide (nextCluster v c = 0))
    (List.range' a (v.total - a))
  rw [List.length_range'] at bound
  unfold frees
  omega

/-- The situation after a failed write to an existing plain file: `cs` is its old
chain, `w` the volume with this chain freed, and `v'` the result. -/
structure Overwritten (data : List UInt8) (v : Volume) (s : Slot) (cs : List Nat)
    (w v' : Volume) : Prop where
  wellFormed : WellFormed v
  tree : InTree v s
  low : 2 ≤ firstOf v s
  plain : isDir v s = false
  chain : Chain v (firstOf v s) cs
  shape : SameShape v w
  bytes : w.bytes = v.bytes
  freed : ∀ d, nextCluster w d = if d ∈ cs.take 1048576 then 0 else nextCluster v d
  failed : allocLoop data (v.total + 1) w 2 0 0 0 = (v', none)

def OwnedByOther (v : Volume) (s : Slot) (c : Nat) : Prop :=
  ∃ o ds, Owns v o ∧ o ≠ .entry s ∧ Chain v (headOf v o) ds ∧ c ∈ ds

section Overwritten

variable {s : Slot} {cs : List Nat} {w v' : Volume} (h : Overwritten data v s cs w v')

include h

theorem Overwritten.copies : 0 < w.numFats := by
  rw [h.shape.copies]
  exact h.wellFormed.copies

theorem Overwritten.confined : SameShape w v' ∧ ∀ d, d ∉ frees w 2 →
    (d ≠ 0 → nextCluster v' d = nextCluster w d) ∧ v'.bytes d = w.bytes d := by
  obtain ⟨shape, apart, _⟩ := allocLoop_confined data (v.total + 1) h.copies 2 0 0
    (Nat.le_refl 2) (by decide) (Nat.zero_le _)
  rw [h.failed] at shape apart
  exact ⟨shape, apart⟩

theorem Overwritten.laid : Laid data v' (frees w 2) 0 ∧ (frees w 2 ≠ [] →
    0 + (frees w 2).length * (v'.sectorsPerCluster * blockSize) < data.length) := by
  have room : (frees w 2).length < v.total + 1 := by
    rw [← h.shape.total]
    exact frees_length 2
  obtain ⟨cs, _, laid, _, _, fails⟩ :=
    allocLoop_laid h.copies (Nat.le_refl 2) (by decide) (Nat.zero_le _) h.failed
  obtain ⟨rfl, short⟩ := fails rfl room
  rw [h.confined.1.sectors]
  exact ⟨laid, short⟩

theorem Overwritten.total : v'.total = v.total := h.confined.1.total.trans h.shape.total

theorem Overwritten.range {d : Nat} (listed : d ∈ frees w 2) : 2 ≤ d ∧ d < v'.total := by
  obtain ⟨low, high, _⟩ := mem_frees.mp listed
  rw [h.confined.1.total]
  exact ⟨low, high⟩

theorem Overwritten.first_free : firstOf v s ∈ frees w 2 := by
  have chain := h.chain
  have member : firstOf v s ∈ cs.take 1048576 ∧ firstOf v s < v.total := by
    cases cs with
    | nil =>
      obtain ⟨ds, some, other⟩ := h.wellFormed.sound.chains (.entry s) ⟨h.tree, h.low⟩
      exact absurd (Chain.unique h.wellFormed.narrow other chain) some
    | cons c cs =>
      obtain ⟨⟨same, _, high⟩, _⟩ := chain
      rw [same]
      exact ⟨by simp, high⟩
  refine mem_frees.mpr ⟨h.low, by rw [h.shape.total]; exact member.2, ?_⟩
  rw [h.freed, if_pos member.1]

theorem Overwritten.other {c : Nat} (other : OwnedByOther v s c) :
    c ∉ frees w 2 ∧ nextCluster w c = nextCluster v c := by
  obtain ⟨o, ds, owns, differs, chain, listed⟩ := other
  have out : c ∉ cs := h.wellFormed.sound.apart o (.entry s) ds cs owns ⟨h.tree, h.low⟩ differs
    chain h.chain c listed
  have kept : nextCluster w c = nextCluster v c := by
    rw [h.freed, if_neg fun early => out (List.mem_of_mem_take early)]
  refine ⟨fun free => ?_, kept⟩
  have zero := (mem_frees.mp free).2.2
  rw [kept] at zero
  exact (chain.mem listed).2.2 zero

theorem Overwritten.agree : Agree v v' (OwnedByOther v s) := by
  obtain ⟨shape, apart⟩ := h.confined
  refine ⟨shape.sectors.trans h.shape.sectors, h.total, shape.root.trans h.shape.root,
    fun c other => ?_, fun c other => ?_⟩
  · obtain ⟨out, kept⟩ := h.other other
    have low : 2 ≤ c := by
      obtain ⟨_, _, _, _, chain, listed⟩ := other
      exact (chain.mem listed).1
    rw [(apart c out).1 (by omega), kept]
  · rw [(apart c (h.other other).1).2, h.bytes]

theorem Overwritten.dirs : ∀ o ds, Owns v o → IsDirectory v o → Chain v (headOf v o) ds →
    ∀ c ∈ ds, OwnedByOther v s c := by
  intro o ds owns dir chain c listed
  refine ⟨o, ds, owns, ?_, chain, listed⟩
  rintro rfl
  have plain := h.plain
  rw [show isDir v s = true from dir] at plain
  exact Bool.noConfusion plain

theorem Overwritten.orphan {front behind : List Nat} {a : Nat}
    (split : frees w 2 = a :: front ++ firstOf v s :: behind) : ¬ Owned v' a := by
  have narrow : v'.total ≤ chainEnd := by
    rw [h.total]
    exact h.wellFormed.narrow
  have listed : a ∈ frees w 2 := by
    rw [split]
    exact List.mem_cons_self
  rintro ⟨o, ds, owns', chain', member⟩
  have owns := (h.agree.owns_iff h.wellFormed.narrow h.wellFormed.sound h.dirs o).mp owns'
  rw [h.agree.head_eq h.wellFormed.narrow h.wellFormed.sound h.dirs owns] at chain'
  by_cases entry : o = .entry s
  · subst entry
    have laid := h.laid.1
    rw [split] at laid
    obtain ⟨later, tail⟩ := laid_drop laid
    have own := laid_chain tail narrow fun d inside => h.range (by
      rw [split]
      exact List.mem_append_right _ inside)
    rw [Chain.unique narrow chain' own] at member
    have sorted := frees_sorted (v := w) 2
    rw [split, List.cons_append] at sorted
    have less := (List.pairwise_cons.mp sorted).1 a (List.mem_append_right _ member)
    omega
  · obtain ⟨es, _, chain⟩ := h.wellFormed.sound.chains o owns
    have after : Chain v' (headOf v o) es :=
      chain.congr h.total fun d inside => h.agree.next d ⟨o, es, owns, entry, chain, inside⟩
    rw [Chain.unique narrow chain' after] at member
    exact (h.other ⟨o, es, owns, entry, chain, member⟩).1 listed

/-- If the result is safe, the old contents start the new data. -/
theorem Overwritten.coincides (safe : FailureSafe v v') :
    readFile v (firstOf v s) (sizeOf v s) (sizeOf v s) <+: data := by
  have narrow : v'.total ≤ chainEnd := by
    rw [h.total]
    exact h.wellFormed.narrow
  obtain ⟨front, behind, split⟩ := List.append_of_mem h.first_free
  obtain ⟨laid, short⟩ := h.laid
  cases front with
  | nil =>
    rw [List.nil_append] at split
    have chain : Chain v' (firstOf v s) (frees w 2) := by
      have linked := laid
      rw [split] at linked ⊢
      exact laid_chain linked narrow fun d inside => h.range (split ▸ inside)
    rw [← (safe.kept s h.tree).2.2, readFile, if_neg (by have := h.low; omega),
      chain.walk narrow]
    exact (List.take_prefix _ _).trans (laid_piece laid short 1048576)
  | cons a front =>
    have listed : a ∈ frees w 2 := by
      rw [split]
      exact List.mem_cons_self
    have allocated : Allocated v' a := by
      obtain ⟨low, high⟩ := h.range listed
      refine ⟨low, high, ?_⟩
      rw [split, List.cons_append] at laid
      have chain := laid_chain laid narrow fun d inside => h.range (by
        rw [split]
        exact inside)
      exact (chain.mem List.mem_cons_self).2.2
    obtain ⟨before, alone⟩ := safe.noLeak a allocated (h.orphan split)
    have free := (mem_frees.mp listed).2.2
    rw [h.freed] at free
    split_ifs at free with early
    · exact absurd ⟨.entry s, cs, ⟨h.tree, h.low⟩, h.chain, List.mem_of_mem_take early⟩ alone
    · exact absurd free before.2.2

end Overwritten

/-- A failed write is safe if nothing was freed or allocated before it failed, and
only then, unless the new data starts with what the file held. -/
theorem failed_write_safe {v' : Volume} (h : WellFormed v)
    (failed : writeFileFull v name data = (v', -1)) :
    (NothingDone v name → FailureSafe v v') ∧
      (FailureSafe v v' → NothingDone v name ∨ Coincides v name data) := by
  constructor
  · intro nothing
    rw [writeFileFull_full nothing] at failed
    obtain ⟨rfl, _⟩ := Prod.mk.inj failed
    exact failureSafe_refl h
  intro safe
  obtain ⟨result, failedLoop⟩ := writeFileFull_failed failed
  by_cases nothing : ∀ s, findEntry v name = some s → firstOf v s < 2
  · refine .inl ⟨nothing, fun c low high free => ?_⟩
    have listed : c ∈ frees v 2 := mem_frees.mpr ⟨low, high, free⟩
    cases list : frees v 2 with
    | nil =>
      rw [list] at listed
      exact absurd listed List.not_mem_nil
    | cons d rest => exact leaks h nothing list result safe
  · push Not at nothing
    obtain ⟨s, found, low⟩ := nothing
    refine .inr ⟨s, found, low, fun live plain => ?_⟩
    have tree : InTree v s := .root live
    obtain ⟨cs, _, chain⟩ := h.sound.chains (.entry s) ⟨tree, low⟩
    obtain ⟨shape, bytes, freed⟩ := freeChain_spec h.narrow h.copies chain 1048576
    have old : freeOld v name = freeChain 1048576 v (firstOf v s) := by
      unfold freeOld
      rw [found]
      exact if_pos low
    have loop := failedLoop ⟨s, found⟩
    rw [old] at loop
    have overwritten : Overwritten data v s cs (freeChain 1048576 v (firstOf v s)) v' :=
      ⟨h, tree, low, plain, chain, shape, bytes, freed, loop⟩
    exact overwritten.coincides safe

end Failure

/-- The entry of the file `A`: one byte, in cluster 3. -/
private def entryA : List UInt8 :=
  65 :: List.replicate 10 32 ++ [32] ++ List.replicate 14 0 ++ [3, 0, 1]

/-- A card without a free cluster whose root directory, in cluster 2, holds `A`. -/
private def fullCard : Volume where
  sectorsPerCluster := 1
  sectorsPerFat := 1
  numFats := 1
  rootCluster := 2
  fats := fun _ _ => endMark
  bytes := fun c _ i => if c = 2 then entryA.getD i 0 else if i = 0 then 120 else 0

private def slotA : Slot := ⟨2, 0, 0⟩

private theorem fullCard_tree {s : Slot} (tree : InTree fullCard s) : s = slotA := by
  have listing : walkDir fullCard 2 = [slotA] := by decide
  induction tree with
  | root listed =>
    rw [show fullCard.rootCluster = 2 from rfl, listing] at listed
    exact List.mem_singleton.mp listed
  | sub _ dir _ above =>
    rw [above] at dir
    exact absurd dir (by decide)

private theorem fullCard_chain {h : Nat} {cs : List Nat} (low : 2 ≤ h) (high : h < 128) :
    Chain fullCard h cs ↔ cs = [h] := by
  have own : Chain fullCard h [h] := ⟨⟨rfl, low, high⟩, rfl⟩
  constructor
  · exact fun chain => Chain.unique (by decide) chain own
  · rintro rfl
    exact own

private theorem fullCard_wellFormed : WellFormed fullCard := by
  have head : ∀ o, Owns fullCard o → headOf fullCard o = 2 ∧ o = .root ∨
      headOf fullCard o = 3 ∧ o = .entry slotA := by
    intro o owns
    cases o with
    | root => exact .inl ⟨rfl, rfl⟩
    | entry s =>
      obtain rfl := fullCard_tree owns.1
      exact .inr ⟨by decide, rfl⟩
  refine ⟨by decide, by decide, ⟨fun o owns => ?_, ?_⟩⟩
  · rcases head o owns with ⟨is, _⟩ | ⟨is, _⟩
    · rw [is]
      exact ⟨[2], by decide, (fullCard_chain (by decide) (by decide)).mpr rfl⟩
    · rw [is]
      exact ⟨[3], by decide, (fullCard_chain (by decide) (by decide)).mpr rfl⟩
  · intro o o' cs cs' owns owns' differs chain chain' c listed listed'
    rcases head o owns with ⟨is, rfl⟩ | ⟨is, rfl⟩ <;> rcases head o' owns' with ⟨is', rfl⟩ | ⟨is', rfl⟩
    · exact differs rfl
    · rw [is, fullCard_chain (by decide) (by decide)] at chain
      rw [is', fullCard_chain (by decide) (by decide)] at chain'
      rw [chain, List.mem_singleton] at listed
      rw [chain', List.mem_singleton] at listed'
      omega
    · rw [is, fullCard_chain (by decide) (by decide)] at chain
      rw [is', fullCard_chain (by decide) (by decide)] at chain'
      rw [chain, List.mem_singleton] at listed
      rw [chain', List.mem_singleton] at listed'
      omega
    · exact differs rfl

/-- A new file `B` on the full card. -/
theorem failed_write_safe_new_file :
    (writeFileFull fullCard [66] [1, 2, 3]).2 = -1 ∧
      FailureSafe fullCard (writeFileFull fullCard [66] [1, 2, 3]).1 := by
  have nothing : NothingDone fullCard [66] := by
    refine ⟨fun s found => ?_, fun c _ _ => (by decide : endMark ≠ 0)⟩
    have none : findEntry fullCard [66] = Option.none := by decide
    rw [none] at found
    exact absurd found.symm (Option.some_ne_none s)
  have failed : writeFileFull fullCard [66] [1, 2, 3] = (fullCard, -1) := writeFileFull_full nothing
  rw [failed]
  exact ⟨rfl, (failed_write_safe fullCard_wellFormed failed).1 nothing⟩

/-- `A` is replaced by 600 bytes: its cluster is freed, taken again and
overwritten, and the second one is missing. The entry still says one byte in
cluster 3, but that byte is no longer the old one. -/
theorem replaced_file_overwritten :
    ∃ v name data, WellFormed v ∧ (writeFileFull v name data).2 = -1 ∧
      ¬ FailureSafe v (writeFileFull v name data).1 := by
  refine ⟨fullCard, [65], List.replicate 600 121, fullCard_wellFormed, by decide +kernel, ?_⟩
  intro safe
  have tree : InTree fullCard slotA := .root (by decide)
  have reads := (safe.kept slotA tree).2.2
  exact absurd reads (by decide +kernel)

end XinuRpi5.Fs.WriteFailure
