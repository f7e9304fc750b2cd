/- source: fs/fat32.c
   digest: A mounted FAT32 volume, its directory and file readers, and fat32_write_file_full. -/

import Mathlib.Data.List.Range
import Mathlib.Algebra.Group.Nat.Defs

/-!
A volume is what the mount left in `fat32_t` together with the card's contents:
the entries of each FAT copy by cluster number, without their reserved top bits,
and the bytes of the data area by cluster, sector and offset. Transfers succeed.
Sectors of the FAT and of the data area never overlap, because `data_lba` lies
behind the last copy.
-/

namespace XinuRpi5.Fs.Fat32

def blockSize : Nat := 512

/-- The end mark that the code writes, `0x0FFFFFFF`. -/
def endMark : Nat := 268435455

/-- The first value that ends a chain, `0x0FFFFFF8`. -/
def chainEnd : Nat := 268435448

structure Volume where
  sectorsPerCluster : Nat
  sectorsPerFat : Nat
  numFats : Nat
  rootCluster : Nat
  fats : Nat → Nat → Nat
  bytes : Nat → Nat → Nat → UInt8

namespace Volume

def total (v : Volume) : Nat := v.sectorsPerFat * (blockSize / 4)

end Volume

/-- `fat32_next_cluster` reads the first copy. -/
def nextCluster (v : Volume) (c : Nat) : Nat := v.fats 0 c

/-- `fat_set_entry` writes all copies. -/
def setEntry (v : Volume) (c value : Nat) : Volume :=
  { v with fats := fun f d => if f < v.numFats ∧ d = c then value else v.fats f d }

/-- The clusters that a loop over a chain visits with a budget of rounds. -/
def walk : Nat → Volume → Nat → List Nat
  | 0, _, _ => []
  | rounds + 1, v, c =>
    if 2 ≤ c ∧ c < chainEnd then c :: walk rounds v (nextCluster v c) else []

section Directories

structure Slot where
  cluster : Nat
  sector : Nat
  off : Nat
  deriving DecidableEq

variable (v : Volume)

def byteAt (s : Slot) (i : Nat) : UInt8 := v.bytes s.cluster s.sector (s.off + i)

def rawName (s : Slot) : List UInt8 := (List.range 11).map (byteAt v s)

def attrOf (s : Slot) : Nat := (byteAt v s 11).toNat

def firstOf (s : Slot) : Nat :=
  (byteAt v s 21).toNat * 16777216 + (byteAt v s 20).toNat * 65536 +
    (byteAt v s 27).toNat * 256 + (byteAt v s 26).toNat

def sizeOf (s : Slot) : Nat :=
  (byteAt v s 31).toNat * 16777216 + (byteAt v s 30).toNat * 65536 +
    (byteAt v s 29).toNat * 256 + (byteAt v s 28).toNat

/-- The 32-byte slots of a directory in the order in which the code scans them. -/
def slotsOf (head : Nat) : List Slot :=
  (walk 1024 v head).flatMap fun c =>
    (List.range v.sectorsPerCluster).flatMap fun s =>
      (List.range (blockSize / 32)).map fun k => ⟨c, s, 32 * k⟩

def format83 (raw : List UInt8) : List UInt8 :=
  let base := (raw.take 8).takeWhile (· ≠ 32)
  let ext := (raw.drop 8).takeWhile (· ≠ 32)
  if (raw.drop 8).any (· ≠ 32) then base ++ 46 :: ext else base

/-- The slots that `fat32_walk_dir` hands to its visitor. -/
def walkDir (head : Nat) : List Slot :=
  ((slotsOf v head).takeWhile fun s => byteAt v s 0 ≠ 0).filter fun s =>
    byteAt v s 0 ≠ 229 ∧ attrOf v s % 16 ≠ 15 ∧ ¬ (attrOf v s).testBit 3 ∧
      format83 (rawName v s) ≠ [46] ∧ format83 (rawName v s) ≠ [46, 46]

def isDir (s : Slot) : Bool := (attrOf v s).testBit 4

def clusterBytes (c : Nat) : List UInt8 :=
  (List.range v.sectorsPerCluster).flatMap fun s => (List.range blockSize).map (v.bytes c s)

def readFile (first size maxlen : Nat) : List UInt8 :=
  if first < 2 then []
  else ((walk 1048576 v first).flatMap (clusterBytes v)).take (min size maxlen)

end Directories

def upper (c : UInt8) : UInt8 := if 97 ≤ c ∧ c ≤ 122 then c - 32 else c

def pad (n : Nat) (s : List UInt8) : List UInt8 := s ++ List.replicate (n - s.length) 32

def nameTo83 (name : List UInt8) : List UInt8 :=
  let base := (name.takeWhile (· ≠ 46)).take 8
  let ext := ((name.dropWhile (· ≠ 46)).drop 1).take 3
  pad 8 (base.map upper) ++ pad 3 (ext.map upper)

def freeChain : Nat → Volume → Nat → Volume
  | 0, v, _ => v
  | rounds + 1, v, c =>
    if 2 ≤ c ∧ c < chainEnd then freeChain rounds (setEntry v c 0) (nextCluster v c) else v

def scanFreeFrom (v : Volume) (start : Nat) : Nat :=
  ((List.range' (max 2 start) (v.total - max 2 start)).find? fun c => nextCluster v c = 0).getD 0

def writeSector (v : Volume) (c s : Nat) (block : Nat → UInt8) : Volume :=
  { v with bytes := fun d t => if d = c ∧ t = s then block else v.bytes d t }

def writeSectors (data : List UInt8) (c : Nat) : Nat → Nat → Volume → Nat → Volume × Nat
  | 0, _, v, done => (v, done)
  | left + 1, s, v, done =>
    let v := writeSector v c s fun i => data.getD (done + i) 0
    let done := min (done + blockSize) data.length
    if data.length ≤ done then (v, done) else writeSectors data c left (s + 1) v done

/-- The loop that takes free clusters, links and fills them: the volume, and the
first cluster unless it ran out of free ones. Every round takes a cluster of its
own, so a budget above the number of clusters is never used up. -/
def allocLoop (data : List UInt8) : Nat → Volume → Nat → Nat → Nat → Nat → Volume × Option Nat
  | 0, v, _, _, _, _ => (v, none)
  | rounds + 1, v, cursor, prev, first, done =>
    let c := scanFreeFrom v cursor
    if c < 2 then (v, none)
    else
      let v := setEntry v c endMark
      let v := if prev ≠ 0 then setEntry v prev c else v
      let first := if prev ≠ 0 then first else c
      let (v, done) := writeSectors data c v.sectorsPerCluster 0 v done
      if done < data.length then allocLoop data rounds v (c + 1) c first done
      else (v, some first)

def findEntry (v : Volume) (name : List UInt8) : Option Slot :=
  (slotsOf v v.rootCluster).find? fun s => attrOf v s ≠ 15 ∧ rawName v s = nameTo83 name

def freeOld (v : Volume) (name : List UInt8) : Volume :=
  match findEntry v name with
  | some s => if 2 ≤ firstOf v s then freeChain 1048576 v (firstOf v s) else v
  | none => v

def byteOf (n k : Nat) : UInt8 := UInt8.ofNat (n / 256 ^ k)

def entryBlock (v : Volume) (s : Slot) (new : Bool) (name : List UInt8) (first len : Nat) :
    Nat → UInt8 := fun i =>
  if s.off ≤ i ∧ i < s.off + 32 then
    let k := i - s.off
    if k = 20 then byteOf first 2
    else if k = 21 then byteOf first 3
    else if k = 26 then byteOf first 0
    else if k = 27 then byteOf first 1
    else if 28 ≤ k then byteOf len (k - 28)
    else if new then (if k < 11 then (nameTo83 name).getD k 0 else if k = 11 then 32 else 0)
    else v.bytes s.cluster s.sector i
  else v.bytes s.cluster s.sector i

def writeEntry (v : Volume) (s : Slot) (new : Bool) (name : List UInt8) (first len : Nat) :
    Volume :=
  writeSector v s.cluster s.sector (entryBlock v s new name first len)

def writeFileFull (v : Volume) (name data : List UInt8) : Volume × Int :=
  match allocLoop data (v.total + 1) (freeOld v name) 2 0 0 0 with
  | (w, none) => (w, -1)
  | (w, some first) =>
    match findEntry v name with
    | some s => (writeEntry w s false name first data.length, 0)
    | none =>
      match (slotsOf w w.rootCluster).find? fun s => byteAt w s 0 = 0 ∨ byteAt w s 0 = 229 with
      | none => (w, -1)
      | some s => (writeEntry w s true name first data.length, 0)

end XinuRpi5.Fs.Fat32
