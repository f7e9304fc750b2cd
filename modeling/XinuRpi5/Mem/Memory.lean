/- source: mem/memory.c, include/memory.h
   digest: First-fit allocator state, its pointer walks and its word-level effects. -/

import XinuRpi5.Lib.Word64
import Mathlib.Logic.Function.Basic

/-!
The free list lives inside the memory it describes: a free block at address
`a` stores `mnext` in the word at `a` and `mlength` in the word at `a + 8`.
Machine words are natural numbers below `2 ^ 64` and every sum that the code
forms is wrapped. The walks of the code follow stored pointers, so they carry
a step budget; running out of it (`none`) stands for a walk that does not end.
Interrupt masking around the walks has no counterpart here: a call is one
uninterrupted step.
-/

namespace XinuRpi5.Mem.Memory

open Lib.Word64

/-- `MEM_ALIGN`, which is also `sizeof(struct memblk)`. -/
def memAlign : Nat := 16

/-- `ROUNDMB`: the sum wraps before the low bits are cleared. -/
def roundmb (x : Nat) : Nat := add64 x (memAlign - 1) / memAlign * memAlign

def truncmb (x : Nat) : Nat := x / memAlign * memAlign

/-- `struct memblk`. -/
structure Memblk where
  mnext : Nat
  mlength : Nat

/-- The static state of `memory.c` and the memory it manages. -/
structure Heap where
  mem : Nat → Nat
  memlistHead : Memblk
  heapLo : Nat
  heapHi : Nat
  heapTotal : Nat

namespace Heap

def mnext (h : Heap) (blk : Nat) : Nat := h.mem blk

def mlength (h : Heap) (blk : Nat) : Nat := h.mem (blk + 8)

def store (h : Heap) (a v : Nat) : Heap := { h with mem := Function.update h.mem a v }

/-- Assignment through `prev->mnext`, where `none` is `&memlist_head`. -/
def setMnext (h : Heap) (prev : Option Nat) (v : Nat) : Heap :=
  match prev with
  | none => { h with memlistHead := { h.memlistHead with mnext := v } }
  | some p => h.store p v

def setMlength (h : Heap) (blk v : Nat) : Heap := h.store (blk + 8) v

def setFreeBytes (h : Heap) (v : Nat) : Heap :=
  { h with memlistHead := { h.memlistHead with mlength := v } }

/-- One step for each block that fits in the heap, and one for the null at
the end. -/
def walkBudget (h : Heap) : Nat := h.heapTotal / memAlign + 1

end Heap

def memInit (mem : Nat → Nat) (heapStart heapEnd : Nat) : Heap :=
  let heapStart := roundmb heapStart
  let heapEnd := truncmb heapEnd
  let heapTotal := sub64 heapEnd heapStart
  { mem := Function.update (Function.update mem heapStart 0) (heapStart + 8) heapTotal
    memlistHead := ⟨heapStart, heapTotal⟩
    heapLo := heapStart
    heapHi := heapEnd
    heapTotal := heapTotal }

/-- The loop of `getmem`; `nbytes` is already rounded. -/
def getmemWalk (nbytes : Nat) (h : Heap) : Nat → Option Nat → Nat → Option (Nat × Heap)
  | 0, _, _ => none
  | fuel + 1, prev, curr =>
    if curr = 0 then some (0, h)
    else if h.mlength curr < add64 nbytes 16 then
      if nbytes ≤ h.mlength curr then
        -- exact fit: unlink the whole block
        let h' := h.setMnext prev (h.mnext curr)
        some (curr, h'.setFreeBytes (sub64 h'.memlistHead.mlength (h'.mlength curr)))
      else getmemWalk nbytes h fuel (some curr) (h.mnext curr)
    else
      -- split: the tail becomes the free block
      let leftover := add64 curr nbytes
      let h₁ := h.setMnext (some leftover) (h.mnext curr)
      let h₂ := h₁.setMlength leftover (sub64 (h₁.mlength curr) nbytes)
      let h₃ := h₂.setMnext prev leftover
      some (curr, h₃.setFreeBytes (sub64 h₃.memlistHead.mlength nbytes))

def getmem (nbytes : Nat) (h : Heap) : Option (Nat × Heap) :=
  if nbytes = 0 then some (0, h)
  else getmemWalk (roundmb nbytes) h h.walkBudget none h.memlistHead.mnext

/-- The loop of `freemem`: stop at the first free block not below `start`. -/
def freememWalk (h : Heap) (start : Nat) : Nat → Option Nat → Nat → Option (Option Nat × Nat)
  | 0, _, _ => none
  | fuel + 1, prev, curr =>
    if curr ≠ 0 ∧ curr < start then freememWalk h start fuel (some curr) (h.mnext curr)
    else some (prev, curr)

def prevEnd (h : Heap) : Option Nat → Nat
  | none => 0
  | some p => add64 p (h.mlength p)

/-- Coalesce with the predecessor, or link a new header; the second component
is `newblk`. -/
def freememLink (h : Heap) (start nbytes : Nat) (prev : Option Nat) (curr : Nat) : Heap × Nat :=
  match prev with
  | some p =>
    if prevEnd h prev = start then
      (h.setMlength p (add64 (h.mlength p) nbytes), p)
    else
      (((h.setMnext (some start) curr).setMlength start nbytes).setMnext prev start, start)
  | none =>
    (((h.setMnext (some start) curr).setMlength start nbytes).setMnext prev start, start)

def freememAbsorb (h : Heap) (newblk curr : Nat) : Heap :=
  if curr ≠ 0 ∧ add64 newblk (h.mlength newblk) = curr then
    let h' := h.setMlength newblk (add64 (h.mlength newblk) (h.mlength curr))
    h'.setMnext (some newblk) (h'.mnext curr)
  else h

/-- `freemem` after the overlap checks. -/
def freememInsert (h : Heap) (start nbytes : Nat) (prev : Option Nat) (curr : Nat) : Heap :=
  let (h, newblk) := freememLink h start nbytes prev curr
  let h := freememAbsorb h newblk curr
  h.setFreeBytes (add64 h.memlistHead.mlength nbytes)

def freemem (blk nbytes : Nat) (h : Heap) : Option (Int × Heap) :=
  if blk = 0 ∨ nbytes = 0 then some (-1, h)
  else
    let nbytes := roundmb nbytes
    let start := blk
    let stop := add64 start nbytes
    if start < h.heapLo ∨ h.heapHi < stop then some (-1, h)
    else
      (freememWalk h start h.walkBudget none h.memlistHead.mnext).map fun (prev, curr) =>
        if start < prevEnd h prev then (-1, h)
        else if curr ≠ 0 ∧ curr < stop then (-1, h)
        else (0, freememInsert h start nbytes prev curr)

end XinuRpi5.Mem.Memory
