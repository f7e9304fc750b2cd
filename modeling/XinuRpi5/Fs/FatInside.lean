/- source: fs/fat32.c
   digest: Which volumes the FAT32 writers do not write beyond. -/

import XinuRpi5.Fs.FatSectorRuns

namespace XinuRpi5.Fs.FatInside

open Lib.BlockIo FatSectors FatSectorRuns
open Fat32 (blockSize endMark chainEnd byteOf nameTo83)

section Volume

def count (b : Boot) : Nat :=
  (b.totalSectors - b.reservedSectors - b.numFats * b.sectorsPerFat) / b.sectorsPerCluster

structure WellFormed (b : Boot) : Prop where
  bytes : b.bytesPerSector = blockSize
  sectors : 0 < b.sectorsPerCluster
  copies : 0 < b.numFats
  room : b.reservedSectors + b.numFats * b.sectorsPerFat ≤ b.totalSectors
  entries : count b + 2 ≤ total b.fs
  root : 2 ≤ b.rootCluster ∧ b.rootCluster ≤ count b + 1

def Inside (b : Boot) (lba : Nat) : Prop :=
  (∃ f, f < b.numFats ∧ ∃ i, i < b.sectorsPerFat ∧
    lba = b.fs.fatLba + f * b.sectorsPerFat + i) ∨
  ∃ c, 2 ≤ c ∧ c ≤ count b + 1 ∧ ∃ s, s < b.sectorsPerCluster ∧ lba = clusterToLba b.fs c + s

variable {b : Boot}

variable (wf : WellFormed b)

include wf

theorem inside_iff (lba : Nat) : Inside b lba ↔
    b.fs.fatLba ≤ lba ∧ lba < b.fs.dataLba + count b * b.sectorsPerCluster := by
  have data : b.fs.dataLba = b.fs.fatLba + b.numFats * b.sectorsPerFat := rfl
  have sectors := wf.sectors
  have copies := wf.copies
  constructor
  · rintro (⟨f, copy, i, less, rfl⟩ | ⟨c, low, high, s, less, rfl⟩)
    · have before : (f + 1) * b.sectorsPerFat ≤ b.numFats * b.sectorsPerFat :=
        Nat.mul_le_mul_right _ copy
      rw [Nat.succ_mul] at before
      omega
    · have before : (c - 2 + 1) * b.sectorsPerCluster ≤ count b * b.sectorsPerCluster :=
        Nat.mul_le_mul_right _ (by omega)
      have place : clusterToLba b.fs c = b.fs.dataLba + (c - 2) * b.sectorsPerCluster := rfl
      rw [Nat.succ_mul] at before
      omega
  · rintro ⟨low, high⟩
    by_cases fat : lba < b.fs.dataLba
    · have spf : 0 < b.sectorsPerFat := by
        rcases Nat.eq_zero_or_pos b.sectorsPerFat with none | some
        · rw [data, none, Nat.mul_zero] at fat
          omega
        · exact some
      refine Or.inl ⟨(lba - b.fs.fatLba) / b.sectorsPerFat, ?_,
        (lba - b.fs.fatLba) % b.sectorsPerFat, Nat.mod_lt _ spf, ?_⟩
      · rw [Nat.div_lt_iff_lt_mul spf]
        omega
      · have parts := Nat.div_add_mod (lba - b.fs.fatLba) b.sectorsPerFat
        rw [Nat.mul_comm] at parts
        omega
    · refine Or.inr ⟨(lba - b.fs.dataLba) / b.sectorsPerCluster + 2,
        Nat.le_add_left 2 _, ?_,
        (lba - b.fs.dataLba) % b.sectorsPerCluster, Nat.mod_lt _ sectors, ?_⟩
      · have less : (lba - b.fs.dataLba) / b.sectorsPerCluster < count b := by
          rw [Nat.div_lt_iff_lt_mul sectors]
          omega
        omega
      · have parts := Nat.div_add_mod (lba - b.fs.dataLba) b.sectorsPerCluster
        have place : clusterToLba b.fs ((lba - b.fs.dataLba) / b.sectorsPerCluster + 2) =
            b.fs.dataLba + (lba - b.fs.dataLba) / b.sectorsPerCluster * b.sectorsPerCluster := by
          rw [clusterToLba, Nat.add_sub_cancel]
          rfl
        rw [Nat.mul_comm] at parts
        omega

theorem inside_cluster {c s : Nat} (low : 2 ≤ c) (less : s < b.sectorsPerCluster) :
    Inside b (clusterToLba b.fs c + s) ↔ c ≤ count b + 1 := by
  have place : clusterToLba b.fs c = b.fs.dataLba + (c - 2) * b.sectorsPerCluster := rfl
  have data : b.fs.dataLba = b.fs.fatLba + b.numFats * b.sectorsPerFat := rfl
  rw [inside_iff wf]
  constructor
  · rintro ⟨_, high⟩
    have bound : (c - 2) * b.sectorsPerCluster < count b * b.sectorsPerCluster := by omega
    have less' := Nat.lt_of_mul_lt_mul_right bound
    omega
  · intro high
    have before : (c - 2 + 1) * b.sectorsPerCluster ≤ count b * b.sectorsPerCluster :=
      Nat.mul_le_mul_right _ (by omega)
    rw [Nat.succ_mul] at before
    omega

theorem inside_entries (c : Nat) :
    (∀ f, f < b.numFats → Inside b (entrySector b.fs f c)) ↔
      c * 4 / blockSize < b.sectorsPerFat + count b * b.sectorsPerCluster := by
  have data : b.fs.dataLba = b.fs.fatLba + b.numFats * b.sectorsPerFat := rfl
  have copies := wf.copies
  have sector (f : Nat) : entrySector b.fs f c =
      b.fs.fatLba + f * b.sectorsPerFat + c * 4 / blockSize := rfl
  generalize c * 4 / blockSize = q at sector ⊢
  constructor
  · intro all
    have last := (inside_iff wf _).mp (all (b.numFats - 1) (by omega))
    rw [sector] at last
    have copy : (b.numFats - 1) * b.sectorsPerFat + b.sectorsPerFat =
        b.numFats * b.sectorsPerFat := by
      rw [← Nat.succ_mul]
      congr 1
      omega
    omega
  · intro short f copy
    rw [inside_iff wf, sector]
    have before : (f + 1) * b.sectorsPerFat ≤ b.numFats * b.sectorsPerFat :=
      Nat.mul_le_mul_right _ copy
    rw [Nat.succ_mul] at before
    omega

theorem inside_entry {c : Nat} (inFat : c < total b.fs) :
    ∀ f, f < b.numFats → Inside b (entrySector b.fs f c) := by
  refine (inside_entries wf c).mpr ?_
  change c < b.sectorsPerFat * (blockSize / 4) at inFat
  unfold blockSize at inFat ⊢
  omega

theorem set_entry_iff (c v : Nat) (d : Disk Block) :
    Confined (Inside b) (setEntry b.fs c v) d ↔
      c * 4 / blockSize < b.sectorsPerFat + count b * b.sectorsPerCluster := by
  rw [← inside_entries wf]
  constructor
  · intro safe
    exact (calm_setEntry.mp safe.calm).1
  · intro inside
    exact (@setEntry_safe b.fs _ d (fun _ => True) c v inside (fun _ _ _ => trivial) trivial).mono
      fun _ _ _ => trivial

end Volume

section OneCluster

variable {b : Boot} (wf : WellFormed b) {d : Disk Block} {data name : List UInt8} {dir : Nat}

def storedOne (b : Boot) (data : List UInt8) (c : Nat) (d : Disk Block) : Disk Block :=
  filled data (clusterToLba b.fs c) b.sectorsPerCluster 0 (putAll b.fs c endMark d)

/-- No cluster beyond the last is free, and the slot for the entry is not in one. -/
def FileInside (b : Boot) (d : Disk Block) (dir : Nat) (name data : List UInt8) : Prop :=
  data.length ≤ b.sectorsPerCluster * blockSize → ∀ c, Free b.fs (2 ^ 32) d 0 c →
    c ≤ count b + 1 ∧ ∀ slot,
      first b.fs (takes (nameTo83 name)) (storedOne b data c d) 1024 dir = some slot →
        slot.cluster ≤ count b + 1

include wf

theorem write_file_safe (cond : FileInside b d dir name data) :
    Confined (Inside b) (writeFile b.fs data dir name) d := by
  unfold Confined writeFile
  split_ifs with long
  · trivial
  have cond := cond (Nat.not_lt.mp long)
  rw [safe_bind]
  refine (scanFreeFrom_safe 0).mono fun newc e found => ?_
  obtain ⟨rfl, found⟩ := found
  split_ifs with low
  · trivial
  have free : Free b.fs (2 ^ 32) e 0 newc := by
    rcases found with rfl | free
    · exact absurd (by decide) low
    · exact free
  obtain ⟨high, slots⟩ := cond newc free
  have two : 2 ≤ newc := Nat.not_lt.mp low
  rw [safe_bind]
  refine (@setEntry_safe b.fs _ e (fun _ => True) newc endMark
    (inside_entry wf (by have := wf.entries; omega)) (fun _ _ _ => trivial) trivial).mono ?_
  intro ok e₁ marked
  split_ifs with done
  · have is := marked.2 done
    subst is
    rw [safe_bind]
    refine (fillCluster_safe fun t _ less => (inside_cluster wf two ?_).mpr high).mono ?_
    · rwa [Nat.zero_add] at less
    intro ok' e₂ full
    split_ifs with done'
    · have is := full done'
      subst is
      rw [safe_bind]
      refine (search_safe 1024 dir).mono fun r e₃ hit => ?_
      obtain ⟨rfl, hit, _⟩ := hit
      match r, hit with
      | .error (), _ => trivial
      | .ok none, _ => trivial
      | .ok (some slot), hit =>
        have is := hit slot rfl
        have place := first_place is
        dsimp only
        rw [safe_bind, safe_write]
        refine ⟨(inside_cluster wf place.1 place.2).mpr (slots slot is), trivial, trivial, trivial⟩
    · trivial
  · trivial

theorem write_file_cond (safe : Confined (Inside b) (writeFile b.fs data dir name) d) :
    FileInside b d dir name data := by
  intro short c free
  unfold Confined writeFile at safe
  have fits : ¬ b.fs.sectorsPerCluster * blockSize < data.length := Nat.not_lt.mpr short
  rw [if_neg fits, safe_bind] at safe
  have two : 2 ≤ c := by
    have := free.1
    omega
  have found := scanFreeFrom_may safe free
  rw [if_neg (Nat.not_lt.mpr two), safe_bind] at found
  have marked := (calm_setEntry.mp found.calm).2
  rw [if_pos rfl, safe_bind] at marked
  obtain ⟨here, full⟩ := calm_fillCluster.mp marked.calm
  refine ⟨(inside_cluster wf two wf.sectors).mp (here 0 wf.sectors), fun slot is => ?_⟩
  rw [if_pos rfl, safe_bind] at full
  have hit := calm_search.mp full.calm
  change first b.fs (takes (nameTo83 name)) (filled data (clusterToLba b.fs c)
    b.fs.sectorsPerCluster 0 (putAll b.fs c endMark d)) 1024 dir = some slot at is
  rw [is] at hit
  dsimp only at hit
  rw [safe_bind, safe_write] at hit
  have place := first_place is
  exact (inside_cluster wf place.1 place.2).mp hit.1

/-- The run without failing transfers keeps inside exactly where the first free cluster, and
with it marked and filled the slot for the entry, lie inside. -/
theorem write_file_calm : Calm (Inside b) (writeFile b.fs data dir name) d (fun _ _ => True) ↔
    (data.length ≤ b.sectorsPerCluster * blockSize → ∀ c, firstFree b.fs d 0 = some c →
      c ≤ count b + 1 ∧ ∀ slot,
        first b.fs (takes (nameTo83 name)) (storedOne b data c d) 1024 dir = some slot →
          slot.cluster ≤ count b + 1) := by
  have ended (n : Int) (e : Disk Block) : Calm (Inside b) (pure n) e fun _ _ => True :=
    (calm_pure n _).mpr trivial
  unfold writeFile
  split_ifs with long
  · exact iff_of_true (ended _ _) fun short => absurd long (Nat.not_lt.mpr short)
  have short : data.length ≤ b.sectorsPerCluster * blockSize := Nat.not_lt.mp long
  rw [calm_bind, calm_scanFreeFrom, imp_iff_right short]
  cases free : firstFree b.fs d 0 with
  | none => exact iff_of_true (ended _ _) (by simp)
  | some newc =>
    have two : 2 ≤ newc := (List.mem_range'_1.mp (List.mem_of_find?_eq_some free)).1
    rw [Option.getD_some, if_neg (Nat.not_lt.mpr two), calm_bind, calm_setEntry, if_pos rfl,
      calm_bind, calm_fillCluster, if_pos rfl, calm_bind, calm_search]
    have sectors : (∀ t, t < b.fs.sectorsPerCluster → Inside b (clusterToLba b.fs newc + t)) ↔
        newc ≤ count b + 1 :=
      ⟨fun all => (inside_cluster wf two wf.sectors).mp (all 0 wf.sectors),
        fun high t less => (inside_cluster wf two less).mpr high⟩
    have entries (high : newc ≤ count b + 1) :
        ∀ f, f < b.fs.numFats → Inside b (entrySector b.fs f newc) :=
      inside_entry wf (by have := wf.entries; omega)
    rw [sectors, ← and_assoc, and_iff_right_of_imp entries]
    simp only [Option.some.injEq, forall_eq']
    refine and_congr_right fun _ => ?_
    change _ ↔ ∀ slot, first b.fs _ (filled data (clusterToLba b.fs newc) b.fs.sectorsPerCluster 0
      (putAll b.fs newc endMark d)) 1024 dir = some slot → _
    cases is : first b.fs (takes (nameTo83 name)) (filled data (clusterToLba b.fs newc)
        b.fs.sectorsPerCluster 0 (putAll b.fs newc endMark d)) 1024 dir with
    | none => exact iff_of_true (ended _ _) (by simp)
    | some slot =>
      have place := first_place is
      dsimp only
      rw [calm_bind, calm_write, if_pos rfl, and_iff_left (ended _ _),
        inside_cluster wf place.1 place.2]
      exact ⟨fun high other same => Option.some.inj same ▸ high, fun all => all slot rfl⟩

end OneCluster

section Allocation

variable {b : Boot} {d : Disk Block} {data : List UInt8}

/-- The card with a cluster marked as the last and linked behind `prev`. -/
def linked (b : Boot) (prev c : Nat) (d : Disk Block) : Disk Block :=
  if prev = 0 then putAll b.fs c endMark d else putAll b.fs prev c (putAll b.fs c endMark d)

/-- The card with the data stored from an offset on in clusters of its own. -/
def stored (b : Boot) (data : List UInt8) : Nat → Nat → List Nat → Disk Block → Disk Block
  | _, _, [], d => d
  | prev, done, c :: cs, d =>
    let r := filledUntil data (clusterToLba b.fs c) b.sectorsPerCluster 0 done (linked b prev c d)
    stored b data c r.1 cs r.2

def needed (b : Boot) (len done : Nat) : Nat :=
  (len - done - 1) / (b.sectorsPerCluster * blockSize) + 1

structure Series (P : Nat → Prop) (cs : List Nat) : Prop where
  sorted : cs.Pairwise (· < ·)
  all : ∀ c ∈ cs, P c

variable {prev c done cursor rounds f : Nat} {Q : Option Nat → Disk Block → Prop}

theorem linkIn_may {Q : Bool → Disk Block → Prop}
    (safe : Safe (Inside b) (linkIn b.fs prev c) (putAll b.fs c endMark d) Q) :
    Q true (linked b prev c d) := by
  unfold linkIn at safe
  unfold linked
  split_ifs at safe ⊢
  · exact safe
  · exact (calm_setEntry.mp safe.calm).2

variable (wf : WellFormed b)

include wf

theorem entry_round {c' : Nat} (inFat : c' < total b.fs) (other : c' ≠ c)
    (other' : prev = 0 ∨ c' ≠ prev) :
    entry b.fs (filledUntil data (clusterToLba b.fs c) b.sectorsPerCluster 0 done
      (linked b prev c d)).2 c' = entry b.fs d c' := by
  have before : b.fs.fatLba + c' * 4 / blockSize < clusterToLba b.fs c := by
    have copies : 1 * b.sectorsPerFat ≤ b.numFats * b.sectorsPerFat :=
      Nat.mul_le_mul_right _ wf.copies
    have data : b.fs.dataLba = b.fs.fatLba + b.numFats * b.sectorsPerFat := rfl
    have behind : b.fs.dataLba ≤ clusterToLba b.fs c := Nat.le_add_right _ _
    change c' < b.sectorsPerFat * (blockSize / 4) at inFat
    unfold blockSize at inFat ⊢
    omega
  have same : entry b.fs (linked b prev c d) c' = entry b.fs d c' := by
    unfold linked
    split_ifs with fresh
    · rw [entry_putAll b.fs wf.copies inFat, if_neg other]
    · rw [entry_putAll b.fs wf.copies inFat, if_neg (other'.resolve_left fresh),
        entry_putAll b.fs wf.copies inFat, if_neg other]
  rw [← same]
  unfold entry
  rw [filledUntil_before before]

theorem free_round {c' bound : Nat} (behind : prev < c) (low : cursor ≤ c) :
    Free b.fs bound (filledUntil data (clusterToLba b.fs c) b.sectorsPerCluster 0 done
      (linked b prev c d)).2 (c + 1) c' ↔ Free b.fs bound d cursor c' ∧ c < c' := by
  constructor
  · intro free
    have later := free.1
    have inFat := free.2.1
    have entries := free.2.2
    rw [entry_round wf (by omega) (by omega) (Or.inr (by omega))] at entries
    exact ⟨⟨by omega, inFat, entries⟩, by omega⟩
  · rintro ⟨free, later⟩
    have inFat := free.2.1
    have old := free.1
    refine ⟨by omega, inFat, ?_⟩
    rw [entry_round wf (by omega) (by omega) (Or.inr (by omega))]
    exact free.2.2

theorem needed_round {len : Nat} (more : done + b.sectorsPerCluster * blockSize < len) :
    needed b len done = needed b len (done + b.sectorsPerCluster * blockSize) + 1 := by
  have positive : 0 < b.sectorsPerCluster * blockSize := Nat.mul_pos wf.sectors (by decide)
  unfold needed
  generalize b.sectorsPerCluster * blockSize = B at more positive ⊢
  have rest : len - done - 1 = len - (done + B) - 1 + B := by omega
  rw [rest, Nat.add_div_right _ positive]

theorem needed_last {len : Nat}
    (full : len ≤ done + b.sectorsPerCluster * blockSize) : needed b len done = 1 := by
  have positive : 0 < b.sectorsPerCluster * blockSize := Nat.mul_pos wf.sectors (by decide)
  unfold needed
  rw [Nat.div_eq_of_lt (by omega)]

theorem round_done {base done : Nat} (start : done ≤ data.length) :
    (filledUntil data base b.sectorsPerCluster 0 done d).1 =
      min (done + b.sectorsPerCluster * blockSize) data.length := by
  rw [filledUntil_done start, if_neg (Nat.ne_of_gt wf.sectors)]

theorem linkIn_safe (behind : prev < total b.fs) :
    Safe (Inside b) (linkIn b.fs prev c) (putAll b.fs c endMark d) fun ok e =>
      ok = true → e = linked b prev c d := by
  unfold linkIn linked
  split_ifs
  · exact fun _ => rfl
  · exact (@setEntry_safe b.fs _ _ (fun _ => True) prev c (inside_entry wf behind)
      (fun _ _ _ => trivial) trivial).mono fun _ _ set done => set.2 done

/-- As long as no cluster beyond the last is free, the allocation only writes inside, and
leaves the data in clusters of its own. -/
theorem allocLoop_safe
    (low : ∀ c, Free b.fs (2 ^ 31) d cursor c → c ≤ count b + 1) (behind : prev < max 2 cursor)
    (prevIn : prev < total b.fs) (start : done ≤ data.length) :
    Safe (Inside b) (allocLoop b.fs data rounds cursor prev f done) d fun r e => r.isSome →
      ∃ cs, Series (Free b.fs (2 ^ 31) d cursor) cs ∧ cs.length = needed b data.length done ∧
        e = stored b data prev done cs d := by
  induction rounds generalizing cursor prev f done d with
  | zero => exact nofun
  | succ rounds ih =>
    rw [allocLoop, safe_bind]
    refine (scanFreeFrom_safe cursor).mono fun c e found => ?_
    obtain ⟨rfl, found⟩ := found
    by_cases out : c < 2 ∨ 2 ^ 31 ≤ c
    · rw [if_pos out]
      exact nofun
    rw [if_neg out]
    have free : Free b.fs (2 ^ 31) e cursor c := by
      rcases found with rfl | free
      · exact absurd (Or.inl (by decide)) out
      · exact ⟨free.1, by have := free.2.1; omega, free.2.2⟩
    have high := low c free
    have least := free.1
    have inFat : c < total b.fs := by
      have := free.2.1
      omega
    have prior : cursor ≤ c := by omega
    rw [safe_bind]
    refine (@setEntry_safe b.fs _ e (fun _ => True) c endMark (inside_entry wf inFat)
      (fun _ _ _ => trivial) trivial).mono ?_
    intro ok e₁ marked
    cases ok with
    | false => exact nofun
    | true =>
      obtain rfl := marked.2 rfl
      rw [if_pos rfl, safe_bind]
      refine (linkIn_safe wf prevIn).mono fun ok₂ e₂ link => ?_
      cases ok₂ with
      | false => exact nofun
      | true =>
        obtain rfl := link rfl
        rw [if_pos rfl]
        dsimp only
        generalize (if prev = 0 then c else f) = f'
        rw [safe_bind]
        refine (fillUntil_safe fun t _ less => (inside_cluster wf (by omega) ?_).mpr high).mono ?_
        · rwa [Nat.zero_add] at less
        intro r e₃ fill
        match r, fill with
        | none, _ => exact nofun
        | some done', fill =>
          obtain ⟨done₃, card⟩ := Prod.mk.inj (fill done' rfl)
          have reached := done₃.trans (round_done wf start)
          dsimp only
          split_ifs with more
          · have whole : done' = done + b.sectorsPerCluster * blockSize := by omega
            have split (c' : Nat) : Free b.fs (2 ^ 31) e₃ (c + 1) c' →
                Free b.fs (2 ^ 31) e cursor c' ∧ c < c' := by
              rw [card]
              exact (free_round wf (by omega) prior).mp
            refine (ih (fun c' free' => low c' (split c' free').1) (by omega) inFat
              (by omega)).mono fun r e₄ last isSome => ?_
            obtain ⟨cs, series, length, rfl⟩ := last isSome
            refine ⟨c :: cs, ⟨List.pairwise_cons.mpr ⟨fun c' listed => ?_, series.sorted⟩,
              fun c' listed => ?_⟩, ?_, ?_⟩
            · exact (split c' (series.all c' listed)).2
            · rcases List.mem_cons.mp listed with rfl | listed
              · exact free
              · exact (split c' (series.all c' listed)).1
            · rw [List.length_cons, length, whole, ← needed_round wf (by omega)]
            · rw [card, done₃]
              rfl
          · intro _
            have last : needed b data.length done = 1 := needed_last wf (by omega)
            refine ⟨[c], ⟨List.pairwise_singleton _ _, fun c' listed => ?_⟩, last.symm, card⟩
            rw [List.mem_singleton.mp listed]
            exact free

omit wf in
theorem round_may (safe : Safe (Inside b) (allocLoop b.fs data (rounds + 1) cursor prev f done) d Q)
    (free : Free b.fs (2 ^ 31) d cursor c) :
    ∃ R, Safe (Inside b) (fillUntil data (clusterToLba b.fs c) b.fs.sectorsPerCluster 0 done)
        (linked b prev c d) R ∧
      ∀ n d', R (some n) d' → Safe (Inside b)
        (if n < data.length then
          allocLoop b.fs data rounds (c + 1) c (if prev = 0 then c else f) n
        else return some (if prev = 0 then c else f)) d' Q := by
  have least := free.1
  have bound := free.2.1
  rw [allocLoop, safe_bind] at safe
  have found := scanFreeFrom_may safe ⟨free.1, by omega, free.2.2⟩
  rw [if_neg (by omega), safe_bind] at found
  have marked := (calm_setEntry.mp found.calm).2
  rw [if_pos rfl, safe_bind] at marked
  have link := linkIn_may marked
  rw [if_pos rfl] at link
  dsimp only at link
  rw [safe_bind] at link
  exact ⟨_, link, fun n d' going => going⟩

theorem allocLoop_may_take
    (safe : Safe (Inside b) (allocLoop b.fs data (rounds + 1) cursor 0 f done) d Q)
    (free : Free b.fs (2 ^ 31) d cursor c) : c ≤ count b + 1 := by
  have least := free.1
  obtain ⟨_, link, _⟩ := round_may safe free
  exact (inside_cluster wf (by omega) wf.sectors).mp ((fillUntil_may link).2 wf.sectors)

/-- It may succeed with any series of free clusters that is long enough. -/
theorem allocLoop_may {cs : List Nat}
    (safe : Safe (Inside b) (allocLoop b.fs data rounds cursor prev f done) d Q)
    (series : Series (Free b.fs (2 ^ 31) d cursor) cs)
    (length : cs.length = needed b data.length done) (fuel : cs.length ≤ rounds)
    (behind : prev < max 2 cursor) (start : done ≤ data.length) :
    ∃ f, Q (some f) (stored b data prev done cs d) := by
  induction rounds generalizing cursor prev f done d cs with
  | zero =>
    rw [length] at fuel
    exact absurd fuel (Nat.not_succ_le_zero _)
  | succ rounds ih =>
    cases cs with
    | nil =>
      unfold needed at length
      cases length
    | cons c cs =>
      have free := series.all c List.mem_cons_self
      have least := free.1
      have bound := free.2.1
      obtain ⟨R, link, going⟩ := round_may safe free
      have fill := going _ _ (fillUntil_may link).1
      generalize (if prev = 0 then c else f) = f' at fill
      have reached := @round_done b (linked b prev c d) data wf (clusterToLba b.fs c) done start
      have prior : cursor ≤ c := by omega
      change Safe _ (if (filledUntil data (clusterToLba b.fs c) b.sectorsPerCluster 0 done
        (linked b prev c d)).1 < data.length then _ else _) _ _ at fill
      rw [stored]
      split_ifs at fill with more
      · have whole : done + b.sectorsPerCluster * blockSize < data.length := by omega
        have next := needed_round wf whole
        rw [List.length_cons] at length fuel
        obtain ⟨sorted, later⟩ := List.pairwise_cons.mp series.sorted
        refine ih fill ⟨later, fun c' listed => ?_⟩ ?_ (by omega) (by omega) (by omega)
        · exact (free_round wf (by omega) prior).mpr
            ⟨series.all c' (List.mem_cons_of_mem c listed), sorted c' listed⟩
        · rw [reached, Nat.min_eq_left (Nat.le_of_lt whole)]
          omega
      · have last : needed b data.length done = 1 := needed_last wf (by omega)
        rw [last, List.length_cons] at length
        have none : cs = [] := List.eq_nil_of_length_eq_zero (by omega)
        rw [none]
        exact ⟨_, fill⟩

end Allocation

section ManyClusters

variable {b : Boot} {d : Disk Block} {data name : List UInt8}

def oldChain (b : Boot) (d : Disk Block) (slot : Found) : List Nat :=
  walk b.fs d 1048576 (firstOf slot.block slot.off)

/-- No cluster beyond the last is free or becomes free, the entries of the old chain lie
inside, and so does the slot, if there is room for the data. -/
structure FullInside (b : Boot) (d : Disk Block) (name data : List UInt8) : Prop where
  free : ∀ c, Free b.fs (2 ^ 31) d 2 c → c ≤ count b + 1
  chain : ∀ slot, first b.fs (named (nameTo83 name)) d 1024 b.rootCluster = some slot →
    ∀ c ∈ oldChain b d slot, c ≤ count b + 1 ∨
      total b.fs ≤ c ∧ c * 4 / blockSize < b.sectorsPerFat + count b * b.sectorsPerCluster
  old : ∀ slot, first b.fs (named (nameTo83 name)) d 1024 b.rootCluster = some slot →
    ∀ cs, Series (fun c => Free b.fs (2 ^ 31) d 2 c ∨ c ∈ oldChain b d slot ∧ c < total b.fs) cs →
      cs.length = needed b data.length 0 → slot.cluster ≤ count b + 1
  new : first b.fs (named (nameTo83 name)) d 1 b.rootCluster = none →
    ∀ cs, Series (Free b.fs (2 ^ 31) d 2) cs → cs.length = needed b data.length 0 →
      ∀ slot, first b.fs unused (stored b data 0 0 cs d) 1024 b.rootCluster = some slot →
        slot.cluster ≤ count b + 1

variable {I : Nat → Prop} {slot : Found} {raw : List UInt8}

theorem findSlot_safe (fits : Block → Nat → Bool) :
    Safe I (findSlot b.fs fits) d fun r e => e = d ∧
      (∀ slot, r = .ok (some slot) → first b.fs fits d 1024 b.rootCluster = some slot) ∧
      (r = .ok none → first b.fs fits d 1 b.rootCluster = none) := by
  unfold findSlot
  rw [safe_bind]
  refine (search_safe 1024 b.rootCluster).mono fun r e hit => ?_
  obtain ⟨rfl, found, missed⟩ := hit
  match r, found, missed with
  | .error (), _, _ => exact ⟨rfl, nofun, nofun⟩
  | .ok none, _, missed => exact ⟨rfl, nofun, missed⟩
  | .ok (some slot), found, _ =>
    dsimp only
    rw [safe_bind, safe_nextCluster]
    exact ⟨⟨rfl, found, nofun⟩, ⟨rfl, found, nofun⟩⟩

section

variable {fits : Block → Nat → Bool} {Q : Except Unit (Option Found) → Disk Block → Prop}
  (safe : Safe I (findSlot b.fs fits) d Q)

include safe

theorem findSlot_may (is : first b.fs fits d 1024 b.rootCluster = some slot) :
    Q (.ok (some slot)) d := by
  unfold findSlot at safe
  rw [safe_bind] at safe
  have hit := calm_search.mp safe.calm
  change first b.fs fits d 1024 b.fs.rootCluster = some slot at is
  rw [is] at hit
  dsimp only at hit
  rw [safe_bind, safe_nextCluster] at hit
  exact hit.2

theorem findSlot_may_miss (miss : first b.fs fits d 1 b.rootCluster = none) : Q (.ok none) d := by
  unfold findSlot at safe
  rw [safe_bind] at safe
  have missed := @search_may_miss b.fs fits d 1023 _ I _ safe miss
  exact missed

end

theorem needed_fuel : needed b data.length 0 ≤ data.length + 1 := by
  unfold needed
  have small := Nat.div_le_self (data.length - 0 - 1) (b.sectorsPerCluster * blockSize)
  omega

theorem missing_reached (safe : Confined (Inside b) (writeFileFull b.fs data name) d)
    (miss : first b.fs (named (nameTo83 name)) d 1 b.rootCluster = none) :
    Confined (Inside b) (do
      match ← allocLoop b.fs data (data.length + 1) 2 0 0 0 with
      | none => return -1
      | some f =>
        match ← findSlot b.fs unused with
        | .ok (some slot) => writeSlot b.fs data slot true (nameTo83 name) f
        | _ => return -1) d := by
  unfold Confined writeFileFull at safe
  rw [safe_bind] at safe
  exact findSlot_may_miss safe miss

variable (wf : WellFormed b)

include wf

theorem writeSlot_safe {new : Bool} {f : Nat}
    (place : 2 ≤ slot.cluster ∧ slot.sector < b.sectorsPerCluster)
    (high : slot.cluster ≤ count b + 1) :
    Confined (Inside b) (writeSlot b.fs data slot new raw f) d := by
  unfold Confined writeSlot
  rw [safe_bind, safe_read]
  dsimp only
  rw [safe_bind, safe_write]
  exact ⟨trivial, (inside_cluster wf place.1 place.2).mpr high, trivial, trivial, trivial⟩

theorem writeSlot_may {new : Bool} {f : Nat} {Q : Int → Disk Block → Prop}
    (place : 2 ≤ slot.cluster ∧ slot.sector < b.sectorsPerCluster)
    (safe : Safe (Inside b) (writeSlot b.fs data slot new raw f) d Q) :
    slot.cluster ≤ count b + 1 := by
  unfold writeSlot at safe
  rw [safe_bind, safe_read] at safe
  have written := safe.2
  dsimp only at written
  rw [safe_bind, safe_write] at written
  exact (inside_cluster wf place.1 place.2).mp written.1

theorem replace_safe {e : Disk Block}
    (cond : FullInside b d name data) (freed : Freed b.fs (oldChain b d slot) d e)
    (is : first b.fs (named (nameTo83 name)) d 1024 b.rootCluster = some slot) :
    Confined (Inside b) (do
      match ← allocLoop b.fs data (data.length + 1) 2 0 0 0 with
      | none => return -1
      | some f => writeSlot b.fs data slot false raw f) e := by
  have avail (c : Nat) (free : Free b.fs (2 ^ 31) e 2 c) :
      Free b.fs (2 ^ 31) d 2 c ∨ c ∈ oldChain b d slot ∧ c < total b.fs := by
    obtain ⟨low, high, zero⟩ := free
    rcases freed.own c (by omega) with same | listed
    · exact Or.inl ⟨low, high, by rw [← same]; exact zero⟩
    · exact Or.inr ⟨listed, by omega⟩
  have low (c : Nat) (free : Free b.fs (2 ^ 31) e 2 c) : c ≤ count b + 1 := by
    rcases avail c free with before | ⟨listed, inFat⟩
    · exact cond.free c before
    · rcases cond.chain slot is c listed with high | ⟨beyond, _⟩
      · exact high
      · omega
  have entries := wf.entries
  unfold Confined
  rw [safe_bind]
  refine (allocLoop_safe wf low (by decide) (by omega) (Nat.zero_le _)).mono ?_
  intro r e₁ taken
  match r, taken with
  | none, _ => trivial
  | some f, taken =>
    obtain ⟨cs, series, length, _⟩ := taken rfl
    refine writeSlot_safe wf (first_place is) (cond.old slot is cs ?_ length)
    exact ⟨series.sorted, fun c listed => avail c (series.all c listed)⟩

theorem write_full_safe (cond : FullInside b d name data) :
    Confined (Inside b) (writeFileFull b.fs data name) d := by
  have entries := wf.entries
  unfold Confined writeFileFull
  rw [safe_bind]
  refine (findSlot_safe _).mono fun r e hit => ?_
  obtain ⟨rfl, found, missed⟩ := hit
  match r, found, missed with
  | .error (), _, _ => trivial
  | .ok (some slot), found, _ =>
    have is := found slot rfl
    have start := @Freed.refl b.fs (oldChain b e slot) e
    dsimp only
    split_ifs with chained
    · rw [safe_bind]
      refine (freeChain_safe (fun c listed => ?_) (fun x listed => listed) start).mono ?_
      · refine (inside_entries wf c).mpr ?_
        rcases cond.chain slot is c listed with high | ⟨_, inside⟩
        · have inFat : c < b.sectorsPerFat * (blockSize / 4) := by
            change c < total b.fs
            omega
          unfold blockSize at inFat ⊢
          omega
        · exact inside
      · intro _ e₁ freed
        exact replace_safe wf cond freed is
    · exact replace_safe wf cond start is
  | .ok none, _, missed =>
    have miss := missed rfl
    dsimp only
    rw [safe_bind]
    refine (allocLoop_safe wf cond.free (by decide) (by omega) (Nat.zero_le _)).mono ?_
    intro r e₁ taken
    match r, taken with
    | none, _ => trivial
    | some f, taken =>
      obtain ⟨cs, series, length, rfl⟩ := taken rfl
      dsimp only
      rw [safe_bind]
      refine (findSlot_safe unused).mono fun r e₂ hit => ?_
      obtain ⟨rfl, found, _⟩ := hit
      match r, found with
      | .error (), _ => trivial
      | .ok none, _ => trivial
      | .ok (some slot), found =>
        have is := found slot rfl
        exact writeSlot_safe wf (first_place is) (cond.new miss cs series length slot is)

theorem replace_may {e : Disk Block} {cs : List Nat} (safe : Confined (Inside b) (do
      match ← allocLoop b.fs data (data.length + 1) 2 0 0 0 with
      | none => return -1
      | some f => writeSlot b.fs data slot false raw f) e)
    (is : first b.fs (named (nameTo83 name)) d 1024 b.rootCluster = some slot)
    (series : Series (Free b.fs (2 ^ 31) e 2) cs) (length : cs.length = needed b data.length 0) :
    slot.cluster ≤ count b + 1 := by
  unfold Confined at safe
  rw [safe_bind] at safe
  obtain ⟨f, taken⟩ := allocLoop_may wf safe series length
    (by rw [length]; exact needed_fuel) (by decide) (Nat.zero_le _)
  exact writeSlot_may wf (first_place is) taken

theorem freed_reached (safe : Confined (Inside b) (writeFileFull b.fs data name) d)
    (is : first b.fs (named (nameTo83 name)) d 1024 b.rootCluster = some slot) :
    (∃ e, Confined (Inside b) (do
      match ← allocLoop b.fs data (data.length + 1) 2 0 0 0 with
      | none => return -1
      | some f => writeSlot b.fs data slot false (nameTo83 name) f) e ∧
      ∀ x, entry b.fs e x = if x ∈ oldChain b d slot then 0 else entry b.fs d x) ∧
    ∀ c ∈ oldChain b d slot, ∀ f, f < b.numFats → Inside b (entrySector b.fs f c) := by
  unfold Confined writeFileFull at safe
  rw [safe_bind] at safe
  have hit := findSlot_may safe is
  dsimp only at hit
  split_ifs at hit with chained
  · rw [safe_bind] at hit
    exact ⟨freeChain_may_free wf.copies hit, fun c listed f copy =>
      freeChain_may_write hit listed copy⟩
  · have empty : oldChain b d slot = [] := walk_out fun range => chained range.1
    rw [empty]
    refine ⟨⟨d, hit, fun x => (if_neg List.not_mem_nil).symm⟩, fun c listed => ?_⟩
    cases listed

theorem write_full_cond (safe : Confined (Inside b) (writeFileFull b.fs data name) d) :
    FullInside b d name data := by
  have avail {slot : Found} {e : Disk Block} {c : Nat}
      (entries : ∀ x, entry b.fs e x = if x ∈ oldChain b d slot then 0 else entry b.fs d x)
      (was : Free b.fs (2 ^ 31) d 2 c ∨ c ∈ oldChain b d slot ∧ c < total b.fs) :
      Free b.fs (2 ^ 31) e 2 c := by
    rcases was with ⟨low, high, zero⟩ | ⟨listed, inFat⟩
    · refine ⟨low, high, ?_⟩
      rw [entries, zero]
      split_ifs
      · rfl
      · rfl
    · have range := mem_walk listed
      refine ⟨by omega, ?_, by rw [entries, if_pos listed]⟩
      have short := range.2
      unfold chainEnd at short
      omega
  constructor
  · intro c free
    cases is : first b.fs (named (nameTo83 name)) d 1024 b.rootCluster with
    | some slot =>
      obtain ⟨⟨e, reached, entries⟩, _⟩ := freed_reached wf safe is
      unfold Confined at reached
      rw [safe_bind] at reached
      exact allocLoop_may_take wf reached (avail entries (Or.inl free))
    | none =>
      have miss : first b.fs (named (nameTo83 name)) d 1 b.rootCluster = none := by
        rw [first] at is ⊢
        split_ifs at is ⊢
        · cases here : firstSector b.fs (named (nameTo83 name)) d b.rootCluster
            b.fs.sectorsPerCluster 0 with
          | some slot =>
            rw [here] at is
            cases is
          | none => rfl
        · rfl
      have reached := missing_reached safe miss
      unfold Confined at reached
      rw [safe_bind] at reached
      exact allocLoop_may_take wf reached free
  · intro slot is c listed
    obtain ⟨⟨e, reached, entries⟩, inside⟩ := freed_reached wf safe is
    rcases Nat.lt_or_ge c (total b.fs) with inFat | beyond
    · unfold Confined at reached
      rw [safe_bind] at reached
      exact Or.inl (allocLoop_may_take wf reached (avail entries (Or.inr ⟨listed, inFat⟩)))
    · exact Or.inr ⟨beyond, (inside_entries wf c).mp (inside c listed)⟩
  · intro slot is cs series length
    obtain ⟨⟨e, reached, entries⟩, _⟩ := freed_reached wf safe is
    refine replace_may wf reached is ⟨series.sorted, fun c listed => ?_⟩ length
    exact avail entries (series.all c listed)
  · intro miss cs series length slot is
    have reached := missing_reached safe miss
    unfold Confined at reached
    rw [safe_bind] at reached
    obtain ⟨f, taken⟩ := allocLoop_may wf reached series length
      (by rw [length]; exact needed_fuel) (by decide) (Nat.zero_le _)
    dsimp only at taken
    rw [safe_bind] at taken
    exact writeSlot_may wf (first_place is) (findSlot_may taken is)

end ManyClusters

section Claim

variable {b : Boot}

/-- The writers keep inside the FAT copies and the data clusters, whatever transfers fail,
exactly when the FAT, the directory and the old chain only name clusters of the volume. -/
theorem writes_inside (wf : WellFormed b) (d : Disk Block) :
    (∀ c v, Confined (Inside b) (setEntry b.fs c v) d ↔
      c * 4 / blockSize < b.sectorsPerFat + count b * b.sectorsPerCluster) ∧
    (∀ dir name data, Confined (Inside b) (writeFile b.fs data dir name) d ↔
      FileInside b d dir name data) ∧
    ∀ name data, Confined (Inside b) (writeFileFull b.fs data name) d ↔
      FullInside b d name data := by
  refine ⟨fun c v => set_entry_iff wf c v d, fun dir name data => ?_, fun name data => ?_⟩
  · exact ⟨write_file_cond wf, write_file_safe wf⟩
  · exact ⟨write_full_cond wf, write_full_safe wf⟩

def fullBoot : Boot := ⟨512, 1, 1, 1, 1, 2, 4, 1⟩

def fullCard : Disk Block := fun lba i =>
  if lba = 2 ∧ i < 16 then (if i % 4 = 3 then 0x0F else 0xFF) else 0

theorem fullBoot_wellFormed : WellFormed fullBoot := by
  refine ⟨rfl, by decide, by decide, by decide, by decide, by decide⟩

theorem writes_inside_full :
    (∀ c v, Confined (Inside fullBoot) (setEntry fullBoot.fs c v) fullCard ↔
      c * 4 / blockSize < fullBoot.sectorsPerFat + count fullBoot * fullBoot.sectorsPerCluster) ∧
    (∀ dir name data, Confined (Inside fullBoot) (writeFile fullBoot.fs data dir name) fullCard ↔
      FileInside fullBoot fullCard dir name data) ∧
    ∀ name data, Confined (Inside fullBoot) (writeFileFull fullBoot.fs data name) fullCard ↔
      FullInside fullBoot fullCard name data :=
  writes_inside fullBoot_wellFormed fullCard

/-- On the full card both writers store the file behind the partition, no transfer failing. -/
theorem full_card_left : WellFormed fullBoot ∧
    (exec (writeFile fullBoot.fs [66] 2 [65]) fullCard).1 = [2, 5, 3] ∧
    (exec (writeFileFull fullBoot.fs [66] [65]) fullCard).1 = [2, 5, 3] ∧
    ¬ Inside fullBoot 5 ∧
    ¬ Confined (Inside fullBoot) (writeFile fullBoot.fs [66] 2 [65]) fullCard ∧
    ¬ Confined (Inside fullBoot) (writeFileFull fullBoot.fs [66] [65]) fullCard := by
  have one : (exec (writeFile fullBoot.fs [66] 2 [65]) fullCard).1 = [2, 5, 3] := by
    decide +kernel
  have many : (exec (writeFileFull fullBoot.fs [66] [65]) fullCard).1 = [2, 5, 3] := by
    decide +kernel
  have outside : ¬ Inside fullBoot 5 := by
    rw [inside_iff fullBoot_wellFormed]
    decide
  refine ⟨fullBoot_wellFormed, one, many, outside, fun safe => ?_, fun safe => ?_⟩
  · exact outside (safe.calm.1 5 (by rw [one]; decide))
  · exact outside (safe.calm.1 5 (by rw [many]; decide))

end Claim

end XinuRpi5.Fs.FatInside
