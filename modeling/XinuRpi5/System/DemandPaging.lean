/- source: system/mmu.c
   digest: The demand-paged window: its tables in memory, the fault handler and the table walk. -/

import Mathlib.Logic.Function.Basic
import Mathlib.Tactic.SplitIfs
import XinuRpi5.Lib.Word64
import Mathlib.Algebra.Group.Nat.Defs

/-!
The static arrays of `mmu.c` stand in one memory of 64-bit words. The low 4 GiB are mapped to
themselves, so the addresses that the code uses are physical.
-/

namespace XinuRpi5.System.DemandPaging

open Lib.Word64

section Memory

abbrev Word := BitVec 64

abbrev Mem := Nat → Word

/-- The loop `for (i = 0; i < n; i++) arr[i] = f(i)` over the array at `a`. -/
def fill (mem : Mem) (a : Nat) (f : Nat → Word) : Nat → Mem
  | 0 => mem
  | n + 1 => Function.update (fill mem a f n) (a + 8 * n) (f n)

variable {mem : Mem} {a i n x : Nat} {f : Nat → Word}

theorem fill_at (inside : i < n) : fill mem a f n (a + 8 * i) = f i := by
  induction n with
  | zero => exact absurd inside (Nat.not_lt_zero i)
  | succ n ih =>
    unfold fill
    by_cases last : i = n
    · rw [last, Function.update_self]
    · rw [Function.update_of_ne (by omega), ih (by omega)]

theorem fill_other (outside : x < a ∨ a + 8 * n ≤ x) : fill mem a f n x = mem x := by
  induction n with
  | zero => rfl
  | succ n ih =>
    unfold fill
    rw [Function.update_of_ne (by omega), ih (by omega)]

end Memory

section Tables

def page : Nat := 4096

/-- `NENT` and `ENTRIES`. -/
def nent : Nat := 512

/-- `VMD_BASE`, 32 GiB. -/
def vmdBase : Nat := 0x800000000

/-- `VMD_END`: two times 2 MiB behind it. -/
def vmdEnd : Nat := vmdBase + 2 * 0x200000

def vmdPoolPages : Nat := 512

def descBlock : Word := 0x1

def descTable : Word := 0x3

def descPage : Word := 0x3

def descAf : Word := 0x400

def attrDevice : Word := 0x0

def attrNormal : Word := 0x4

structure Addresses where
  l0 : Nat
  l1Lo : Nat
  l1Hi : Nat
  l2Vmd : Nat
  l3Vmd : Nat
  pool : Nat

def Addresses.arrays (A : Addresses) : List (Nat × Nat) :=
  [(A.l0, page), (A.l1Lo, page), (A.l1Hi, page), (A.l2Vmd, page), (A.l3Vmd, 2 * page),
    (A.pool, vmdPoolPages * page)]

/-- Where the linker put the arrays: aligned, apart, and at addresses that a descriptor holds. -/
structure Layout extends Addresses where
  aligned : ∀ x ∈ toAddresses.arrays, page ∣ x.1
  apart : toAddresses.arrays.Pairwise fun x y => x.1 + x.2 ≤ y.1 ∨ y.1 + y.2 ≤ x.1
  low : ∀ x ∈ toAddresses.arrays, x.1 + x.2 ≤ 2 ^ 48

/-- The memory, `vmd_pool_next` and the counters. -/
structure Vm where
  mem : Mem
  poolNext : Nat
  faults : Nat
  mapped : Nat
  oom : Nat

variable (L : Layout)

/-- The tables that `mmu_init` builds. -/
def mmuInit (mem : Mem) : Mem :=
  let mem := fill (fill (fill mem L.l0 (fun _ => 0) nent) L.l1Lo (fun _ => 0) nent) L.l1Hi
    (fun _ => 0) nent
  let mem := Function.update mem (L.l0 + 8 * 0) (BitVec.ofNat 64 L.l1Lo ||| descTable)
  let mem := Function.update mem (L.l0 + 8 * 2) (BitVec.ofNat 64 L.l1Hi ||| descTable)
  let mem := fill mem L.l1Lo (fun i => BitVec.ofNat 64 (i * 0x40000000) |||
    (if i < 4 then attrNormal else attrDevice) ||| descAf ||| descBlock) nent
  fill mem L.l1Hi (fun i => BitVec.ofNat 64 (0x10000000000 + i * 0x40000000) ||| attrDevice |||
    descAf ||| descBlock) nent

/-- One round of the loop over `l3_vmd`. -/
def emptyLeaves (t : Nat) (mem : Mem) : Mem :=
  Function.update (fill mem (L.l3Vmd + page * t) (fun _ => 0) nent) (L.l2Vmd + 8 * t)
    (BitVec.ofNat 64 (L.l3Vmd + page * t) ||| descTable)

/-- `vm_demand_init`: every leaf is invalid, and the table goes into `l1_lo`. -/
def vmDemandInit (mem : Mem) : Mem :=
  let mem := fill mem L.l2Vmd (fun _ => 0) nent
  let mem := emptyLeaves L 1 (emptyLeaves L 0 mem)
  Function.update mem (L.l1Lo + 8 * (vmdBase / 0x40000000)) (BitVec.ofNat 64 L.l2Vmd ||| descTable)

def pageDesc (pa : Nat) : Word :=
  (BitVec.ofNat 64 pa &&& ~~~(0xFFF : Word)) ||| attrNormal ||| descAf ||| descPage

def vmFault (va : Nat) (s : Vm) : Nat × Vm :=
  if va < vmdBase ∨ vmdEnd ≤ va then (0, s)
  else
    let off := va - vmdBase
    let l2i := off / 2 ^ 21
    let l3i := off / 2 ^ 12 % 512
    if 2 ≤ l2i then (0, s)
    else
      let pte := L.l3Vmd + page * l2i + 8 * l3i
      -- already present
      if s.mem pte &&& 1 ≠ 0 then (1, s)
      else if vmdPoolPages ≤ s.poolNext then (0, { s with oom := add64 s.oom 1 })
      else
        let pa := L.pool + page * s.poolNext
        let mem := fill s.mem pa (fun _ => 0) (page / 8)
        (1, { s with
          mem := Function.update mem pte (pageDesc pa)
          poolNext := s.poolNext + 1
          faults := add64 s.faults 1
          mapped := add64 s.mapped 1 })

end Tables

def outAddr (d : Word) : Nat := (d &&& 0xFFFFFFFFF000).toNat

inductive Entry where
  | table (at_ : Nat)
  | leaf (pa : Nat)
  | fault

/-- What a descriptor of level 0 to 2 says; `span` is what a block of the level covers. -/
def entry (span : Nat) (d : Word) (va : Nat) : Entry :=
  if d &&& 3 = descTable then .table (outAddr d)
  else if d &&& 3 = descBlock ∧ d &&& descAf ≠ 0 then .leaf (outAddr d / span * span + va % span)
  else .fault

def leafEntry (d : Word) (va : Nat) : Option Nat :=
  if d &&& 3 = descPage ∧ d &&& descAf ≠ 0 then some (outAddr d + va % page) else none

def Entry.next (e : Entry) (walk : Nat → Option Nat) : Option Nat :=
  match e with
  | .table t => walk t
  | .leaf pa => some pa
  | .fault => none

/-- The walk of the hardware from `TTBR0`: 48-bit addresses, pages of 4 KiB. -/
def translate (mem : Mem) (root va : Nat) : Option Nat :=
  if 2 ^ 48 ≤ va then none
  -- a block has no place at level 0
  else match entry (2 ^ 39) (mem (root + 8 * (va / 2 ^ 39))) va with
    | .table l1 => (entry (2 ^ 30) (mem (l1 + 8 * (va / 2 ^ 30 % 512))) va).next fun l2 =>
      (entry (2 ^ 21) (mem (l2 + 8 * (va / 2 ^ 21 % 512))) va).next fun l3 =>
        leafEntry (mem (l3 + 8 * (va / 2 ^ 12 % 512))) va
    | _ => none

end XinuRpi5.System.DemandPaging
