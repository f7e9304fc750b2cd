/- source: fs/fat32.c
   digest: Reading a file copies the bytes of its chain into the buffer, 2^20 clusters at most. -/

import Mathlib.Data.List.GetD
import XinuRpi5.Fs.FatSectorRuns
import XinuRpi5.Lib.LinkedChain

namespace XinuRpi5.Fs.FatRead

open Lib.BlockIo Lib.LinkedChain
open FatSectors FatSectorRuns
open Fat32 (blockSize endMark chainEnd byteOf)

section Model

/-- The buffer `out` with the counter `done`. -/
@[ext] structure Progress where
  out : Nat → UInt8
  done : Nat

/-- The loop that copies `n` bytes of a sector. -/
def Progress.copy (p : Progress) (n : Nat) (scratch : Nat → UInt8) : Progress :=
  ⟨fun i => if p.done ≤ i ∧ i < p.done + n then scratch (i - p.done) else p.out i, p.done + n⟩

/-- The loop over the sectors of one cluster; a failed read ends the call. -/
def readSectors (want base : Nat) : Nat → Nat → Progress → Card (Except Progress Progress)
  | 0, _, p => return .ok p
  | left + 1, s, p => do
    if p.done < want then
      match ← Io.read (base + s) with
      | none => return .error p
      | some scratch =>
        readSectors want base left (s + 1) (p.copy (min (want - p.done) blockSize) scratch)
    else return .ok p

variable (fs : Mounted)

/-- The loop over the clusters of a file, which `safety` lets run so many times. -/
def readClusters (want : Nat) : Nat → Nat → Progress → Card Progress
  | 0, _, p => return p
  | safety + 1, cur, p => do
    if 2 ≤ cur ∧ cur < chainEnd ∧ p.done < want then
      match ← readSectors want (clusterToLba fs cur) fs.sectorsPerCluster 0 p with
      | .error p => return p
      | .ok p => readClusters want safety (← nextCluster fs cur) p
    else return p

/-- `(int)done`. -/
def asInt (n : Nat) : Int := (n : Int).bmod 4294967296

/-- `fat32_read_file`, with the buffer as it leaves it. -/
def readFile (firstCluster size : Nat) (buf : Nat → UInt8) (maxlen : Nat) :
    Card (Int × (Nat → UInt8)) := do
  if firstCluster < 2 then return (0, buf)
  else
    let p ← readClusters fs (min size maxlen) 1048576 firstCluster ⟨buf, 0⟩
    return (asInt p.done, p.out)

end Model

section Meaning

variable (fs : Mounted) (d : Disk Block)

/-- `cluster_bytes`. -/
def clusterSize : Nat := fs.sectorsPerCluster * blockSize

def clusterBytes (c : Nat) : List UInt8 :=
  (List.range (clusterSize fs)).map fun i =>
    d (clusterToLba fs c + i / blockSize) (i % blockSize)

def fileBytes (cs : List Nat) : List UInt8 := cs.flatMap (clusterBytes fs d)

/-- The first FAT links the clusters from `h` on, the last of them to an end mark. -/
def Chain (h : Nat) (cs : List Nat) : Prop :=
  ∃ q, chainEnd ≤ q ∧
    Seg (fun p c => p = c ∧ 2 ≤ c ∧ c < min (total fs) chainEnd) (entry fs d) h cs q

/-- The clusters that the first FAT leads through, `rounds` of them at most. -/
def visited : Nat → Nat → List Nat
  | 0, _ => []
  | rounds + 1, c => if 2 ≤ c ∧ c < chainEnd then c :: visited rounds (entry fs d c) else []

end Meaning

theorem copy_zero (p : Progress) (b : Nat → UInt8) : p.copy 0 b = p := by
  ext i
  · unfold Progress.copy
    dsimp only
    rw [if_neg (by omega)]
  · rfl

theorem copy_congr (p : Progress) {n : Nat} {a b : Nat → UInt8} (same : ∀ i < n, a i = b i) :
    p.copy n a = p.copy n b := by
  unfold Progress.copy
  congr 1
  ext i
  split_ifs with inside
  · rw [same (i - p.done) (by omega)]
  · rfl

theorem copy_behind (buf : Nat → UInt8) {n i : Nat} {b : Nat → UInt8} (behind : n ≤ i) :
    (Progress.copy ⟨buf, 0⟩ n b).out i = buf i := by
  have outside : ¬ (0 ≤ i ∧ i < 0 + n) := by omega
  exact if_neg outside

theorem copy_copy (p : Progress) (m n : Nat) (a b : Nat → UInt8) :
    (p.copy m a).copy n b = p.copy (m + n) fun i => if i < m then a i else b (i - m) := by
  unfold Progress.copy
  dsimp only
  congr 1
  · ext i
    by_cases second : p.done + m ≤ i ∧ i < p.done + m + n
    · rw [if_pos second, if_pos (by omega), if_neg (by omega), Nat.sub_sub]
    · rw [if_neg second]
      by_cases head : p.done ≤ i ∧ i < p.done + m
      · rw [if_pos head, if_pos (by omega), if_pos (by omega)]
      · rw [if_neg head, if_neg (by omega)]
  · omega

section Runs

variable {fs : Mounted} {d : Disk Block} {want : Nat}

theorem exec_readSectors (base left s : Nat) (p : Progress) :
    exec (readSectors want base left s p) d =
      ([], .ok (p.copy (min (want - p.done) (left * blockSize)) fun i =>
        d (base + s + i / blockSize) (i % blockSize)), d) := by
  induction left generalizing s p with
  | zero =>
    rw [Nat.zero_mul, Nat.min_zero, copy_zero]
    rfl
  | succ left ih =>
    rw [readSectors]
    split_ifs with more
    · change exec (readSectors want base left (s + 1)
        (p.copy (min (want - p.done) blockSize) (d (base + s)))) d = _
      rw [ih, copy_copy]
      have sizes : min (want - p.done) blockSize +
          min (want - (p.done + min (want - p.done) blockSize)) (left * blockSize) =
            min (want - p.done) ((left + 1) * blockSize) := by
        rw [Nat.succ_mul]
        omega
      change ([], Except.ok (p.copy (min (want - p.done) blockSize +
        min (want - (p.done + min (want - p.done) blockSize)) (left * blockSize)) _), d) = _
      rw [sizes]
      congr 3
      apply copy_congr
      intro i less
      -- a sector that is not copied whole is the last one
      unfold blockSize at less ⊢
      split_ifs with first
      · rw [Nat.div_eq_of_lt (by omega), Nat.mod_eq_of_lt (by omega), Nat.add_zero]
      · have whole : min (want - p.done) 512 = 512 := by omega
        rw [whole, show base + (s + 1) + (i - 512) / 512 = base + s + i / 512 by omega,
          show (i - 512) % 512 = i % 512 by omega]
    · have full : min (want - p.done) ((left + 1) * blockSize) = 0 := by omega
      rw [full, copy_zero]
      rfl

theorem length_clusterBytes (c : Nat) : (clusterBytes fs d c).length = clusterSize fs := by
  rw [clusterBytes, List.length_map, List.length_range]

theorem clusterBytes_getD {c i : Nat} (inside : i < clusterSize fs) :
    (clusterBytes fs d c).getD i 0 = d (clusterToLba fs c + i / blockSize) (i % blockSize) := by
  rw [clusterBytes, List.getD_eq_getElem?_getD, List.getElem?_map, List.getElem?_range inside]
  rfl

theorem length_fileBytes (cs : List Nat) :
    (fileBytes fs d cs).length = cs.length * clusterSize fs := by
  induction cs with
  | nil => exact (Nat.zero_mul _).symm
  | cons c cs ih =>
    change (clusterBytes fs d c ++ fileBytes fs d cs).length = _
    rw [List.length_append, ih, length_clusterBytes, List.length_cons, Nat.succ_mul, Nat.add_comm]

/-- The loop copies what the visited clusters hold. -/
theorem exec_readClusters (safety cur : Nat) (p : Progress) :
    exec (readClusters fs want safety cur p) d =
      ([], p.copy (min (want - p.done) (fileBytes fs d (visited fs d safety cur)).length)
        fun i => (fileBytes fs d (visited fs d safety cur)).getD i 0, d) := by
  induction safety generalizing cur p with
  | zero =>
    change ([], p, d) = ([], p.copy (min (want - p.done) 0) _, d)
    rw [Nat.min_zero, copy_zero]
  | succ safety ih =>
    rw [readClusters]
    by_cases more : 2 ≤ cur ∧ cur < chainEnd ∧ p.done < want
    · have list : fileBytes fs d (visited fs d (safety + 1) cur) =
          clusterBytes fs d cur ++ fileBytes fs d (visited fs d safety (entry fs d cur)) := by
        rw [visited, if_pos ⟨more.1, more.2.1⟩]
        rfl
      rw [if_pos more, exec_bind, exec_readSectors]
      dsimp only
      rw [exec_bind]
      change exec (readClusters fs want safety (entry fs d cur) _) d = _
      rw [ih, copy_copy, list]
      have sizes : min (want - p.done) (fs.sectorsPerCluster * blockSize) +
          min (want - (p.done + min (want - p.done) (fs.sectorsPerCluster * blockSize)))
            (fileBytes fs d (visited fs d safety (entry fs d cur))).length =
          min (want - p.done) (clusterBytes fs d cur ++
            fileBytes fs d (visited fs d safety (entry fs d cur))).length := by
        rw [List.length_append, length_clusterBytes, clusterSize]
        omega
      change ([], p.copy (min (want - p.done) (fs.sectorsPerCluster * blockSize) +
        min (want - (p.done + min (want - p.done) (fs.sectorsPerCluster * blockSize))) _) _, d) = _
      rw [sizes]
      congr 2
      apply copy_congr
      intro i less
      rw [List.length_append, length_clusterBytes, clusterSize] at less
      -- a cluster that is not copied whole is the last one
      split_ifs with first
      · rw [List.getD_append _ _ _ _ (by rw [length_clusterBytes, clusterSize]; omega),
          clusterBytes_getD (by unfold clusterSize; omega)]
        rfl
      · have whole : min (want - p.done) (fs.sectorsPerCluster * blockSize) =
            fs.sectorsPerCluster * blockSize := by omega
        rw [List.getD_append_right _ _ _ _ (by rw [length_clusterBytes, clusterSize]; omega),
          length_clusterBytes, whole, clusterSize]
    · rw [if_neg more]
      have nothing : min (want - p.done)
          (fileBytes fs d (visited fs d (safety + 1) cur)).length = 0 := by
        rw [visited]
        split_ifs with range
        · omega
        · exact Nat.min_zero _
      rw [nothing, copy_zero]
      rfl

theorem visited_chain {safety h q : Nat} {cs : List Nat} (last : chainEnd ≤ q)
    (seg : Seg (fun p c => p = c ∧ 2 ≤ c ∧ c < min (total fs) chainEnd) (entry fs d) h cs q) :
    visited fs d safety h = cs.take safety := by
  induction safety generalizing h cs with
  | zero => rfl
  | succ safety ih =>
    cases cs with
    | nil =>
      obtain rfl : h = q := seg
      rw [visited, if_neg (by omega)]
      rfl
    | cons c cs =>
      obtain ⟨⟨rfl, low, high⟩, rest⟩ := seg
      rw [visited, if_pos ⟨low, by omega⟩, ih rest]
      rfl

theorem length_visited (safety h : Nat) : (visited fs d safety h).length ≤ safety := by
  induction safety generalizing h with
  | zero => exact Nat.le_refl 0
  | succ safety ih =>
    rw [visited]
    split_ifs
    · exact Nat.succ_le_succ (ih _)
    · exact Nat.zero_le _

theorem exec_readFile {first size maxlen : Nat} {buf : Nat → UInt8} (low : 2 ≤ first) :
    exec (readFile fs first size buf maxlen) d =
      let p := Progress.copy ⟨buf, 0⟩
        (min (min size maxlen) (fileBytes fs d (visited fs d 1048576 first)).length)
        fun i => (fileBytes fs d (visited fs d 1048576 first)).getD i 0
      ([], (asInt p.done, p.out), d) := by
  rw [readFile, if_neg (by omega), exec_bind, exec_readClusters]
  rfl

end Runs

section Law

variable {fs : Mounted} {d : Disk Block}

theorem asInt_of_lt {n : Nat} (small : n < 2147483648) : asInt n = n :=
  Int.bmod_eq_of_le (by omega) (by omega)

theorem map_range_getD {α : Type} (l : List α) (a : α) {n : Nat} (inside : n ≤ l.length) :
    (List.range n).map (fun i => l.getD i a) = l.take n := by
  apply List.ext_getElem
  · rw [List.length_map, List.length_range, List.length_take, Nat.min_eq_left inside]
  · intro i left right
    rw [List.length_map, List.length_range] at left
    rw [List.getElem_map, List.getElem_range, List.getElem_take]
    exact List.getD_eq_getElem _ _ (by omega)

theorem map_range_copy (buf : Nat → UInt8) (l : List UInt8) {n : Nat} (inside : n ≤ l.length) :
    (List.range n).map (Progress.copy ⟨buf, 0⟩ n fun i => l.getD i 0).out = l.take n := by
  rw [← map_range_getD l 0 inside]
  apply List.map_congr_left
  intro i listed
  have less := List.mem_range.mp listed
  change (if 0 ≤ i ∧ i < 0 + n then l.getD (i - 0) 0 else buf i) = _
  rw [if_pos (by omega), Nat.sub_zero]

/-- Without device errors `fat32_read_file` ends after 2^20 clusters at most, leaves the card
alone and writes `done` bytes of the buffer, no more than asked for. From a chain that is
long enough these are the first bytes of its clusters. -/
theorem read_file_bytes (fs : Mounted) (d : Disk Block) (first size maxlen : Nat)
    (buf : Nat → UInt8) :
    ∃ (ret : Int) (out : Nat → UInt8) (done : Nat),
      exec (readFile fs first size buf maxlen) d = ([], (ret, out), d) ∧
      (done < 2147483648 → ret = done) ∧ done ≤ min size maxlen ∧
      (∀ i, done ≤ i → out i = buf i) ∧
      ∀ cs, Chain fs d first cs → size ≤ cs.length * clusterSize fs →
        done = min (min size maxlen) (1048576 * clusterSize fs) ∧
          (List.range done).map out = (fileBytes fs d cs).take done := by
  by_cases low : 2 ≤ first
  · refine ⟨_, _, min (min size maxlen) (fileBytes fs d (visited fs d 1048576 first)).length,
      exec_readFile low, ?_, Nat.min_le_left _ _, ?_, ?_⟩
    · intro small
      dsimp only [Progress.copy]
      rw [Nat.zero_add]
      exact asInt_of_lt small
    · exact fun i behind => copy_behind buf behind
    · rintro cs ⟨q, last, seg⟩ enough
      have split : fileBytes fs d cs =
          fileBytes fs d (cs.take 1048576) ++ fileBytes fs d (cs.drop 1048576) := by
        rw [fileBytes, fileBytes, fileBytes, ← List.flatMap_append, List.take_append_drop]
      rw [visited_chain last seg]
      constructor
      · rw [length_fileBytes, List.length_take, ← Nat.mul_min_mul_right]
        omega
      · rw [map_range_copy buf _ (Nat.min_le_right _ _), split,
          List.take_append_of_le_length (Nat.min_le_right _ _)]
  · refine ⟨0, buf, 0, ?_, fun _ => rfl, Nat.zero_le _, fun _ _ => rfl, ?_⟩
    · rw [readFile, if_pos (by omega)]
      rfl
    · rintro cs ⟨q, last, seg⟩ enough
      cases cs with
      | nil =>
        obtain rfl : first = q := seg
        unfold chainEnd at last
        omega
      | cons c cs =>
        obtain ⟨rfl, big, _⟩ := seg.1
        omega

end Law

def longLink (c : Nat) : Nat := if c = 1048578 then endMark else c + 1

def longFs : Mounted := ⟨1, 32, 1, 8193, 2, 0, 32, 8225⟩

def longCard : Disk Block := fun l i =>
  if 8225 ≤ l then 7 else byteOf (longLink ((l - 32) * 128 + i / 4)) (i % 4)

def longChain : List Nat := List.range' 2 1048577

theorem le32_byteOf {b : Block} {off v : Nat} (bytes : ∀ k < 4, b (off + k) = byteOf v k) :
    le32 b off = v % 2 ^ 32 := by
  have byte (k : Nat) : (byteOf v k).toNat = v / 256 ^ k % 256 := by
    rw [byteOf, UInt8.toNat_ofNat']
  have zero := bytes 0 (by omega)
  rw [Nat.add_zero] at zero
  unfold le32
  rw [zero, bytes 1 (by omega), bytes 2 (by omega), bytes 3 (by omega), byte, byte, byte, byte]
  omega

theorem entry_long {c : Nat} (inside : c ≤ 1048578) : entry longFs longCard c = longLink c := by
  have small : longLink c < 2 ^ 28 := by
    unfold longLink endMark
    split_ifs <;> omega
  have bytes (k : Nat) (less : k < 4) :
      longCard (32 + c * 4 / 512) (c * 4 % 512 + k) = byteOf (longLink c) k := by
    unfold longCard
    rw [if_neg (by omega), show (32 + c * 4 / 512 - 32) * 128 + (c * 4 % 512 + k) / 4 = c by omega,
      show (c * 4 % 512 + k) % 4 = k by omega]
  change le32 (longCard (32 + c * 4 / 512)) (c * 4 % 512) % 2 ^ 28 = longLink c
  rw [le32_byteOf bytes]
  omega

theorem long_chain : Chain longFs longCard 2 longChain := by
  have run (n : Nat) : ∀ h, 2 ≤ h → h + n = 1048578 →
      Seg (fun p c => p = c ∧ 2 ≤ c ∧ c < min (total longFs) chainEnd) (entry longFs longCard) h
        (List.range' h (n + 1)) endMark := by
    induction n with
    | zero =>
      intro h low last
      obtain rfl : h = 1048578 := last
      refine ⟨⟨rfl, low, by decide⟩, ?_⟩
      exact entry_long (Nat.le_refl _)
    | succ n ih =>
      intro h low last
      have room : h < min (total longFs) chainEnd := by
        have wide : min (total longFs) chainEnd = 1048704 := by decide
        omega
      refine ⟨⟨rfl, low, room⟩, ?_⟩
      rw [entry_long (by omega), longLink, if_neg (by omega)]
      exact ih (h + 1) (by omega) (by omega)
  exact ⟨endMark, by decide, run 1048576 2 (Nat.le_refl 2) rfl⟩

theorem long_bytes {b : UInt8} (listed : b ∈ fileBytes longFs longCard longChain) : b = 7 := by
  obtain ⟨c, _, inCluster⟩ := List.mem_flatMap.mp listed
  obtain ⟨i, _, rfl⟩ := List.mem_map.mp inCluster
  have data : 8225 ≤ clusterToLba longFs c + i / blockSize := by
    change 8225 ≤ 8225 + (c - 2) * 1 + i / 512
    omega
  exact if_pos data

/-- The chain is well formed and just long enough for 2^29 + 512 bytes, and the last 512 of
them are not read. -/
theorem read_file_stops : Chain longFs longCard 2 longChain ∧
    longChain.length * clusterSize longFs = 536871424 ∧
    ∃ (ret : Int) (out : Nat → UInt8),
      exec (readFile longFs 2 536871424 (fun _ => 0) 536871424) longCard =
        ([], (ret, out), longCard) ∧
      (List.range 536871424).map out ≠
        (fileBytes longFs longCard longChain).take 536871424 := by
  refine ⟨long_chain, ?_, _, _, exec_readFile (Nat.le_refl 2), ?_⟩
  · rw [longChain, List.length_range']
    rfl
  · intro same
    have short : (fileBytes longFs longCard (visited longFs longCard 1048576 2)).length ≤
        536870912 := by
      have clusters := @length_visited longFs longCard 1048576 2
      have sector : clusterSize longFs = 512 := rfl
      have bytes := @length_fileBytes longFs longCard (visited longFs longCard 1048576 2)
      rw [sector] at bytes
      omega
    have kept : (0 : UInt8) ∈ (fileBytes longFs longCard longChain).take 536871424 := by
      rw [← same, List.mem_map]
      refine ⟨536870912, List.mem_range.mpr (by omega), ?_⟩
      exact copy_behind _ (le_trans (Nat.min_le_right _ _) short)
    have other := long_bytes (List.mem_of_mem_take kept)
    exact absurd other (by decide)

end XinuRpi5.Fs.FatRead
