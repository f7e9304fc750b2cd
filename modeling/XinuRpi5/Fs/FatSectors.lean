/- source: fs/fat32.c, include/fat32.h
   digest: The writers of FAT32 on the sectors of a card whose transfers may fail. -/

import XinuRpi5.Fs.Fat32
import XinuRpi5.Lib.BlockIo

namespace XinuRpi5.Fs.FatSectors

open Lib.BlockIo
open Fat32 (blockSize endMark chainEnd byteOf nameTo83)

abbrev Block := Nat → UInt8

abbrev Card := Io Block

def le32 (b : Block) (i : Nat) : Nat :=
  (b i).toNat + (b (i + 1)).toNat * 2 ^ 8 + (b (i + 2)).toNat * 2 ^ 16 +
    (b (i + 3)).toNat * 2 ^ 24

/-- `fat32_t`. -/
structure Mounted where
  sectorsPerCluster : Nat
  reservedSectors : Nat
  numFats : Nat
  sectorsPerFat : Nat
  rootCluster : Nat
  partLba : Nat
  fatLba : Nat
  dataLba : Nat

/-- The boot sector, with the total sector count that the mount does not read. -/
structure Boot where
  bytesPerSector : Nat
  sectorsPerCluster : Nat
  reservedSectors : Nat
  numFats : Nat
  sectorsPerFat : Nat
  rootCluster : Nat
  totalSectors : Nat
  partLba : Nat

def Boot.fs (b : Boot) : Mounted where
  sectorsPerCluster := b.sectorsPerCluster
  reservedSectors := b.reservedSectors
  numFats := b.numFats
  sectorsPerFat := b.sectorsPerFat
  rootCluster := b.rootCluster
  partLba := b.partLba
  fatLba := b.partLba + b.reservedSectors
  dataLba := b.partLba + b.reservedSectors + b.numFats * b.sectorsPerFat

section Entries

variable (fs : Mounted)

def clusterToLba (cluster : Nat) : Nat := fs.dataLba + (cluster - 2) * fs.sectorsPerCluster

def total : Nat := fs.sectorsPerFat * (blockSize / 4)

def nextCluster (cluster : Nat) : Card Nat := do
  match ← Io.read (fs.fatLba + cluster * 4 / blockSize) with
  | none => return endMark
  | some scratch => return le32 scratch (cluster * 4 % blockSize) % 2 ^ 28

def putEntry (b : Block) (off value : Nat) : Block := fun i =>
  if i = off then byteOf value 0
  else if i = off + 1 then byteOf value 1
  else if i = off + 2 then byteOf value 2
  else if i = off + 3 then byteOf value 3 % 16 + b i / 16 * 16
  else b i

/-- The loop of `fat_set_entry` from copy `f` on. -/
def setEntryFrom (cluster value : Nat) : Nat → Nat → Card Bool
  | 0, _ => return true
  | left + 1, f => do
    let sec := fs.fatLba + f * fs.sectorsPerFat + cluster * 4 / blockSize
    match ← Io.read sec with
    | none => return false
    | some scratch =>
      if ← Io.write sec (putEntry scratch (cluster * 4 % blockSize) value) then
        setEntryFrom cluster value left (f + 1)
      else return false

def setEntry (cluster value : Nat) : Card Bool := setEntryFrom fs cluster value fs.numFats 0

def scanFree : Nat → Nat → Card Nat
  | 0, _ => return 0
  | left + 1, c => do
    if (← nextCluster fs c) = 0 then return c
    else scanFree left (c + 1)

/-- `fat_find_free` and `fat_scan_free_from`. The counter has 32 bits: in a longer FAT it
begins anew and finds no cluster that it has not seen. -/
def scanFreeFrom (start : Nat) : Card Nat :=
  scanFree fs (min (total fs) (2 ^ 32) - max 2 start) (max 2 start)

end Entries

section Slots

variable (fs : Mounted)

structure Found where
  cluster : Nat
  sector : Nat
  off : Nat
  block : Block

def slotIn (fits : Block → Nat → Bool) (b : Block) : Option Nat :=
  ((List.range (blockSize / 32)).map (32 * ·)).find? fun off => fits b off

/-- The loop over the sectors of a directory cluster; a failed read ends the search. -/
def searchSectors (fits : Block → Nat → Bool) (cluster : Nat) :
    Nat → Nat → Card (Except Unit (Option Found))
  | 0, _ => return .ok none
  | left + 1, s => do
    match ← Io.read (clusterToLba fs cluster + s) with
    | none => return .error ()
    | some scratch =>
      match slotIn fits scratch with
      | some off => return .ok (some ⟨cluster, s, off, scratch⟩)
      | none => searchSectors fits cluster left (s + 1)

def search (fits : Block → Nat → Bool) : Nat → Nat → Card (Except Unit (Option Found))
  | 0, _ => return .ok none
  | rounds + 1, cur => do
    if 2 ≤ cur ∧ cur < chainEnd then
      match ← searchSectors fs fits cur fs.sectorsPerCluster 0 with
      | .error () => return .error ()
      | .ok (some slot) => return .ok (some slot)
      | .ok none => search fits rounds (← nextCluster fs cur)
    else return .ok none

def rawAt (b : Block) (off : Nat) : List UInt8 := (List.range 11).map fun i => b (off + i)

/-- A slot that `fat32_write_file` takes. -/
def takes (raw : List UInt8) (b : Block) (off : Nat) : Bool :=
  b off = 0 ∨ b off = 0xE5 ∨ rawAt b off = raw

/-- A slot that `fat32_write_file_full` overwrites. -/
def named (raw : List UInt8) (b : Block) (off : Nat) : Bool :=
  b (off + 11) ≠ 0x0F ∧ rawAt b off = raw

def unused (b : Block) (off : Nat) : Bool := b off = 0 ∨ b off = 0xE5

/-- `old_first`. -/
def firstOf (b : Block) (off : Nat) : Nat :=
  (b (off + 21)).toNat * 2 ^ 24 + (b (off + 20)).toNat * 2 ^ 16 + (b (off + 27)).toNat * 2 ^ 8 +
    (b (off + 26)).toNat

def putSlot (b : Block) (off : Nat) (new : Bool) (raw : List UInt8) (first len : Nat) : Block :=
  fun i =>
    if off ≤ i ∧ i < off + 32 then
      if i = off + 20 then byteOf first 2
      else if i = off + 21 then byteOf first 3
      else if i = off + 26 then byteOf first 0
      else if i = off + 27 then byteOf first 1
      else if off + 28 ≤ i then byteOf len (i - (off + 28))
      else if new then
        (if i < off + 11 then raw.getD (i - off) 0 else if i = off + 11 then 0x20 else 0)
      else b i
    else b i

end Slots

section WriteFile

variable (fs : Mounted) (data : List UInt8)

def blockOf (done : Nat) : Block := fun i => data.getD (done + i) 0

/-- The loop of `fat32_write_file` over the sectors of its cluster. -/
def fillCluster (base : Nat) : Nat → Nat → Card Bool
  | 0, _ => return true
  | left + 1, s => do
    if ← Io.write (base + s) (blockOf data (blockSize * s)) then fillCluster base left (s + 1)
    else return false

def writeFile (dirCluster : Nat) (name : List UInt8) : Card Int := do
  if fs.sectorsPerCluster * blockSize < data.length then return -1
  else
    let newc ← scanFreeFrom fs 0
    if newc < 2 then return -1
    else if ← setEntry fs newc endMark then
      if ← fillCluster data (clusterToLba fs newc) fs.sectorsPerCluster 0 then
        match ← search fs (takes (nameTo83 name)) 1024 dirCluster with
        | .ok (some slot) =>
          if ← Io.write (clusterToLba fs slot.cluster + slot.sector)
              (putSlot slot.block slot.off true (nameTo83 name) newc data.length) then return 0
          else return -1
        | _ => return -1
      else return -1
    else return -1

end WriteFile

section WriteFileFull

variable (fs : Mounted) (data : List UInt8)

/-- The loop that frees the old chain; a failed `fat_set_entry` goes unnoticed. -/
def freeChain : Nat → Nat → Card Unit
  | 0, _ => return ()
  | rounds + 1, c => do
    if 2 ≤ c ∧ c < chainEnd then
      let nx ← nextCluster fs c
      let _ ← setEntry fs c 0
      freeChain rounds nx
    else return ()

def fillUntil (base : Nat) : Nat → Nat → Nat → Card (Option Nat)
  | 0, _, done => return some done
  | left + 1, s, done => do
    if ← Io.write (base + s) (blockOf data done) then
      let done := min (done + blockSize) data.length
      if data.length ≤ done then return some done
      else fillUntil base left (s + 1) done
    else return none

/-- The cluster behind `prev` in the new chain. -/
def linkIn (prev c : Nat) : Card Bool := if prev = 0 then return true else setEntry fs prev c

/-- The loop that takes, links and fills clusters, with the first of them. Every round
stores a byte or is the last one, so a budget above the length is never used up. -/
def allocLoop : Nat → Nat → Nat → Nat → Nat → Card (Option Nat)
  | 0, _, _, _, _ => return none
  | rounds + 1, cursor, prev, first, done => do
    let c ← scanFreeFrom fs cursor
    -- `int c` is negative from 2^31 on
    if c < 2 ∨ 2 ^ 31 ≤ c then return none
    else if ← setEntry fs c endMark then
      if ← linkIn fs prev c then
        let first := if prev = 0 then c else first
        match ← fillUntil data (clusterToLba fs c) fs.sectorsPerCluster 0 done with
        | none => return none
        | some done =>
          if done < data.length then allocLoop rounds (c + 1) c first done
          else return some first
      else return none
    else return none

/-- The search that goes on to the next cluster once more behind its slot. -/
def findSlot (fits : Block → Nat → Bool) : Card (Except Unit (Option Found)) := do
  match ← search fs fits 1024 fs.rootCluster with
  | .ok (some slot) =>
    let _ ← nextCluster fs slot.cluster
    return .ok (some slot)
  | r => return r

def writeSlot (slot : Found) (new : Bool) (raw : List UInt8) (first : Nat) : Card Int := do
  let sec := clusterToLba fs slot.cluster + slot.sector
  match ← Io.read sec with
  | none => return -1
  | some scratch =>
    if ← Io.write sec (putSlot scratch slot.off new raw first data.length) then return 0
    else return -1

def writeFileFull (name : List UInt8) : Card Int := do
  match ← findSlot fs (named (nameTo83 name)) with
  | .error () => return -1
  | .ok (some slot) =>
    if 2 ≤ firstOf slot.block slot.off then
      freeChain fs 1048576 (firstOf slot.block slot.off)
    match ← allocLoop fs data (data.length + 1) 2 0 0 0 with
    | none => return -1
    | some first => writeSlot fs data slot false (nameTo83 name) first
  | .ok none =>
    match ← allocLoop fs data (data.length + 1) 2 0 0 0 with
    | none => return -1
    | some first =>
      match ← findSlot fs unused with
      | .ok (some slot) => writeSlot fs data slot true (nameTo83 name) first
      | _ => return -1

end WriteFileFull

end XinuRpi5.Fs.FatSectors
