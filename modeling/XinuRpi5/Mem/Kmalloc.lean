/- source: mem/kmalloc.c, mem/memory.c
   digest: Requests of any size to getmem and kmalloc. -/

import XinuRpi5.Mem.HeapRuns

namespace XinuRpi5.Mem.Kmalloc

open Lib.FreeIntervals Lib.LinkedChain Lib.Word64
open Memory StoredFreeList HeapRuns

/-- The heap and the counters of `kmalloc.c`. -/
structure Kmem where
  heap : Heap
  liveBlocks : Nat
  liveBytes : Nat
  totalAllocs : Nat
  totalFrees : Nat
  badFrees : Nat

def kmallocMagic : Nat := 0xC0FFEE5050D15EA5

def kmHeaderBytes : Nat := 32

/-- The fields of `struct km_header` in front of a block. -/
def writeHeader (h : Heap) (blk total : Nat) : Heap :=
  (((h.store blk total).store (blk + 8) kmallocMagic).store (blk + 16) 0).store (blk + 24) 0

def kmalloc (nbytes : Nat) (k : Kmem) : Option (Nat × Kmem) :=
  if nbytes = 0 then some (0, k)
  else
    let total := add64 nbytes kmHeaderBytes
    (getmem total k.heap).map fun (blk, h) =>
      if blk = 0 then (0, { k with heap := h })
      else (add64 blk kmHeaderBytes, { k with
        heap := writeHeader h blk total
        liveBlocks := add64 k.liveBlocks 1
        liveBytes := add64 k.liveBytes total
        totalAllocs := add64 k.totalAllocs 1 })

def kfree (ptr : Nat) (k : Kmem) : Option Kmem :=
  if ptr = 0 then some k
  else
    let blk := sub64 ptr kmHeaderBytes
    if k.heap.mem (add64 blk 8) ≠ kmallocMagic then
      some { k with badFrees := add64 k.badFrees 1 }
    else
      let total := k.heap.mem blk
      -- invalidated first
      (freemem blk total (k.heap.store (add64 blk 8) 0)).map fun (_, h) =>
        { k with
          heap := h
          liveBlocks := if k.liveBlocks ≠ 0 then sub64 k.liveBlocks 1 else k.liveBlocks
          liveBytes := if total ≤ k.liveBytes then sub64 k.liveBytes total else k.liveBytes
          totalFrees := add64 k.totalFrees 1 }

section Requests

/-- At least `nbytes` bytes at `p`, inside the heap and on no free block. -/
def Usable (h' : Heap) (p nbytes : Nat) : Prop :=
  h'.heapLo ≤ p ∧ p + nbytes ≤ h'.heapHi ∧ ∃ bs, FreeList h' bs ∧ Outside p nbytes bs

/-- `getmem` gives 0 with the heap unchanged, or a usable block. -/
def GetSafe (h : Heap) (nbytes : Nat) : Prop :=
  ∃ p h', getmem nbytes h = some (p, h') ∧ (p = 0 ∧ h' = h ∨ p ≠ 0 ∧ Usable h' p nbytes)

/-- The same of `kmalloc`. -/
def KmallocSafe (k : Kmem) (nbytes : Nat) : Prop :=
  ∃ p k', kmalloc nbytes k = some (p, k') ∧
    (p = 0 ∧ k'.heap = k.heap ∨ p ≠ 0 ∧ Usable k'.heap p nbytes)

/-- No block is free, or neither the rounding nor the header of a remainder wraps. -/
def GetOk (bs : List Interval) (nbytes : Nat) : Prop := nbytes ≤ 18446744073709551584 ∨ bs = []

/-- The header is added without a wrap and `getmem` is asked for a size that it can round; or
the sum is 0, or no free block has the size that is asked for. -/
def KmallocOk (bs : List Interval) (nbytes : Nat) : Prop :=
  nbytes ≤ 18446744073709551552 ∨ bs = [] ∨ nbytes = 18446744073709551584 ∨
    18446744073709551584 < nbytes ∧
      ∀ b ∈ bs, b.len < roundmb (add64 nbytes kmHeaderBytes)

structure Granular (h : Heap) : Prop where
  lo : 16 ∣ h.heapLo
  hi : 16 ∣ h.heapHi

variable {h : Heap} {bs : List Interval} {nbytes : Nat}

variable {n p : Nat} {h' : Heap} {b : Interval} {rest : List Interval} {k : Kmem}

theorem getmemWalk_window {fuel curr : Nat} {prev : Option Nat} {h : Heap}
    (run : getmemWalk n h fuel prev curr = some (p, h')) :
    h'.heapLo = h.heapLo ∧ h'.heapHi = h.heapHi := by
  induction fuel generalizing prev curr with
  | zero => cases run
  | succ fuel ih =>
    unfold getmemWalk at run
    split_ifs at run
    · obtain ⟨_, rfl⟩ := Prod.mk.inj (Option.some.inj run)
      exact ⟨rfl, rfl⟩
    · obtain ⟨_, rfl⟩ := Prod.mk.inj (Option.some.inj run)
      constructor <;> simp [Heap.setFreeBytes]
    · exact ih run
    · obtain ⟨_, rfl⟩ := Prod.mk.inj (Option.some.inj run)
      constructor <;> simp [Heap.setFreeBytes, Heap.setMlength, Heap.store]

theorem getmem_window (run : getmem nbytes h = some (p, h')) :
    h'.heapLo = h.heapLo ∧ h'.heapHi = h.heapHi := by
  unfold getmem at run
  split_ifs at run
  · obtain ⟨_, rfl⟩ := Prod.mk.inj (Option.some.inj run)
    exact ⟨rfl, rfl⟩
  · exact getmemWalk_window run

theorem getmem_empty (inv : HeapInv h []) (nbytes : Nat) : getmem nbytes h = some (0, h) := by
  have null : h.memlistHead.mnext = 0 := inv.freeList
  unfold getmem Heap.walkBudget
  rw [null]
  split_ifs
  · rfl
  · rfl

theorem getmem_wraps (inv : HeapInv h (b :: bs)) (word : nbytes < 2 ^ 64)
    (large : 18446744073709551584 < nbytes) : ∃ h', getmem nbytes h = some (b.addr, h') := by
  obtain ⟨⟨here, nonnull, len⟩, _⟩ := inv.freeList
  have positive := inv.separated.2.1
  have granules := (inv.aligned b List.mem_cons_self).2
  have split : ¬ b.len < add64 (roundmb nbytes) 16 := by
    unfold roundmb add64 wrap64 memAlign
    omega
  unfold getmem Heap.walkBudget getmemWalk
  rw [if_neg (by omega), here, if_neg nonnull, len, if_neg split]
  exact ⟨_, rfl⟩

theorem usable_of_given {start : Nat}
    (given : Given h h' bs rest p n) (low : p ≤ start) (high : start + nbytes ≤ p + n) :
    Usable h' start nbytes := by
  have lowP := given.low
  have highP := given.high
  refine ⟨by rw [given.heapLo]; omega, by rw [given.heapHi]; omega, rest, given.inv.freeList, ?_⟩
  rintro x covered ⟨above, below⟩
  exact given.taken.fresh x covered ⟨by omega, by omega⟩

theorem getmem_safe (inv : HeapInv h bs) (ends : Granular h)
    (word : nbytes < 18446744073709551616) : GetSafe h nbytes ↔ GetOk bs nbytes := by
  have lo := inv.lo_pos
  have hi := inv.hi_lt
  constructor
  · rintro ⟨p, h', run, result⟩
    by_contra bad
    unfold GetOk at bad
    rw [not_or] at bad
    obtain ⟨b, bs, rfl⟩ := List.exists_cons_of_ne_nil bad.2
    obtain ⟨h'', run'⟩ := getmem_wraps inv word (by omega)
    obtain ⟨rfl, rfl⟩ := Prod.mk.inj (Option.some.inj (run.symm.trans run'))
    have low := inv.separated.1
    rcases result with ⟨null, _⟩ | ⟨_, lowP, highP, _⟩
    · omega
    · obtain ⟨sameLo, sameHi⟩ := getmem_window run
      have granularLo := ends.lo
      have granularHi := ends.hi
      omega
  · intro ok
    by_cases zero : nbytes = 0
    · exact ⟨0, h, by rw [getmem, if_pos zero], .inl ⟨rfl, rfl⟩⟩
    rcases ok with small | rfl
    · have round := roundmb_bounds (n := nbytes) (by omega)
      rcases getmem_given inv (by omega) small with ⟨_, run⟩ | ⟨_, p, h', rest, run, given⟩
      · exact ⟨0, h, run, .inl ⟨rfl, rfl⟩⟩
      · have low := given.low
        exact ⟨p, h', run, .inr ⟨by omega, usable_of_given given (Nat.le_refl p) (by omega)⟩⟩
    · exact ⟨0, h, getmem_empty inv nbytes, .inl ⟨rfl, rfl⟩⟩

theorem freeList_writeHeader {blk total : Nat} (list : FreeList h bs)
    (off : ∀ a, a = blk ∨ a = blk + 8 ∨ a = blk + 16 ∨ a = blk + 24 → Clear a bs) :
    FreeList (writeHeader h blk total) bs := by
  have first := Stored.store list total (off _ (.inl rfl))
  have second := Stored.store first kmallocMagic (off _ (.inr (.inl rfl)))
  have third := Stored.store second 0 (off _ (.inr (.inr (.inl rfl))))
  exact Stored.store third 0 (off _ (.inr (.inr (.inr rfl))))

theorem given_clear {a : Nat}
    (given : Given h h' bs rest p n) (low : p ≤ a) (high : a + 8 ≤ p + n) : Clear a rest := by
  intro b mem
  have positive := (given.inv.separated.bounds mem).2.1
  have granules := (given.inv.aligned b mem).2
  have start := given.taken.fresh b.addr ⟨b, mem, Nat.le_refl _, by omega⟩
  have second := given.taken.fresh (b.addr + 8) ⟨b, mem, by omega, by omega⟩
  omega

theorem last_mnext (inv : HeapInv h bs) (mem : b ∈ bs)
    (top : 18446744073709551616 ≤ b.addr + 32) : h.mnext b.addr = 0 := by
  obtain ⟨pre, post, rfl⟩ := List.append_of_mem mem
  have bounds := inv.separated.bounds mem
  have granules := (inv.aligned b mem).2
  have hi := inv.hi_lt
  obtain ⟨q, _, _, rest⟩ := seg_append.mp inv.freeList
  cases post with
  | nil => exact rest
  | cons c post =>
    have sorted := (List.pairwise_append.mp inv.separated.pairwise).2.1
    have gap := (List.pairwise_cons.mp sorted).1 c List.mem_cons_self
    have member : c ∈ pre ++ b :: c :: post := by simp
    have boundsC := inv.separated.bounds member
    have granulesC := (inv.aligned c member).2
    omega

theorem kmalloc_taken (pos : nbytes ≠ 0)
    (run : getmem (add64 nbytes kmHeaderBytes) k.heap = some (p, h')) (nonnull : p ≠ 0) :
    ∃ k', kmalloc nbytes k = some (add64 p kmHeaderBytes, k') ∧
      k'.heap = writeHeader h' p (add64 nbytes kmHeaderBytes) := by
  unfold kmalloc
  simp only [if_neg pos, run, Option.map_some, if_neg nonnull]
  exact ⟨_, rfl, rfl⟩

/-- A block for a request of `kmalloc` that wraps is too short, wherever it is. -/
theorem kmalloc_wraps (inv : HeapInv k.heap bs)
    (ends : Granular k.heap) (mem : b ∈ bs) (word : nbytes < 18446744073709551616)
    (large : 18446744073709551552 < nbytes) (asked : add64 nbytes kmHeaderBytes ≠ 0)
    (run : getmem (add64 nbytes kmHeaderBytes) k.heap = some (b.addr, h')) :
    ¬ KmallocSafe k nbytes := by
  have lo := inv.lo_pos
  have hi := inv.hi_lt
  have granularLo := ends.lo
  have granularHi := ends.hi
  have bounds := inv.separated.bounds mem
  have granules := inv.aligned b mem
  obtain ⟨sameLo, sameHi⟩ := getmem_window run
  obtain ⟨k₁, done, heap⟩ := kmalloc_taken (k := k) (by omega) run (by omega)
  rintro ⟨p, k', result, safe⟩
  obtain ⟨rfl, rfl⟩ := Prod.mk.inj (Option.some.inj (done.symm.trans result))
  rw [heap] at safe
  rcases safe with ⟨null, same⟩ | ⟨nonnull, lowP, highP, _⟩
  · have top : 18446744073709551616 ≤ b.addr + 32 := by
      unfold add64 wrap64 kmHeaderBytes at null
      omega
    have before : k.heap.mem b.addr = 0 := last_mnext inv mem top
    have after : (writeHeader h' b.addr (add64 nbytes kmHeaderBytes)).mem b.addr =
        add64 nbytes kmHeaderBytes := by
      simp [writeHeader, Heap.store]
    rw [same, before] at after
    exact asked after.symm
  · have sameLo' : (writeHeader h' b.addr (add64 nbytes kmHeaderBytes)).heapLo = h'.heapLo := rfl
    have sameHi' : (writeHeader h' b.addr (add64 nbytes kmHeaderBytes)).heapHi = h'.heapHi := rfl
    simp only [sameLo', sameHi', sameLo, sameHi] at lowP highP
    unfold add64 wrap64 kmHeaderBytes at nonnull lowP highP
    omega

theorem kmalloc_refused (run : getmem (add64 nbytes kmHeaderBytes) k.heap =
    some (0, k.heap)) : kmalloc nbytes k = some (0, k) := by
  unfold kmalloc
  split_ifs
  · rfl
  · simp only [run, Option.map_some, if_true]

theorem kmalloc_given (inv : HeapInv k.heap bs) (pos : 0 < nbytes)
    (small : nbytes ≤ 18446744073709551552) :
    kmalloc nbytes k = some (0, k) ∨
      ∃ p h' rest k', Given k.heap h' bs rest p (roundmb (nbytes + 32)) ∧
        kmalloc nbytes k = some (p + 32, k') ∧
        k'.heap = writeHeader h' p (nbytes + 32) := by
  have total : add64 nbytes kmHeaderBytes = nbytes + 32 := add64_eq (by unfold kmHeaderBytes; omega)
  have round := roundmb_bounds (n := nbytes + 32) (by omega)
  rcases getmem_given (n := nbytes + 32) inv (by omega) (by omega) with ⟨_, run⟩ | taken
  · exact .inl (kmalloc_refused (total ▸ run))
  · obtain ⟨_, p, h', rest, run, given⟩ := taken
    have low := given.low
    have high := given.high
    have lo := inv.lo_pos
    have hi := inv.hi_lt
    have pointer : add64 p kmHeaderBytes = p + 32 := add64_eq (by unfold kmHeaderBytes; omega)
    obtain ⟨k', done, heap⟩ := kmalloc_taken (k := k) (by omega) (total ▸ run) (by omega)
    rw [pointer] at done
    rw [total] at heap
    exact .inr ⟨p, h', rest, k', given, done, heap⟩

theorem kmalloc_result (inv : HeapInv k.heap bs)
    (word : nbytes < 18446744073709551616) (ok : KmallocOk bs nbytes) :
    kmalloc nbytes k = some (0, k) ∨
      0 < nbytes ∧ nbytes ≤ 18446744073709551552 ∧
        ∃ p h' rest k', Given k.heap h' bs rest p (roundmb (nbytes + 32)) ∧
          kmalloc nbytes k = some (p + 32, k') ∧ k'.heap = writeHeader h' p (nbytes + 32) := by
  by_cases zero : nbytes = 0
  · exact .inl (by rw [kmalloc, if_pos zero])
  rcases ok with small | rfl | rfl | ⟨above, short⟩
  · have pos := Nat.pos_of_ne_zero zero
    exact (kmalloc_given inv pos small).imp_right fun given => ⟨pos, small, given⟩
  · exact .inl (kmalloc_refused (getmem_empty inv _))
  · have none : add64 18446744073709551584 kmHeaderBytes = 0 := by decide
    refine .inl (kmalloc_refused ?_)
    rw [none]
    rfl
  · have asked : add64 nbytes kmHeaderBytes = nbytes + 32 - 18446744073709551616 := by
      unfold add64 wrap64 kmHeaderBytes
      omega
    rcases getmem_given (n := add64 nbytes kmHeaderBytes) inv (by omega) (by omega) with
      ⟨_, run⟩ | ⟨⟨b, mem, long⟩, _⟩
    · exact .inl (kmalloc_refused run)
    · exact absurd (short b mem) (Nat.not_lt.mpr long)

theorem writeHeader_inv {total : Nat} (given : Given h h' bs rest p n) (room : 32 ≤ n) :
    HeapInv (writeHeader h' p total) rest := by
  have list : FreeList (writeHeader h' p total) rest := by
    refine freeList_writeHeader given.inv.freeList ?_
    rintro a (rfl | rfl | rfl | rfl)
    all_goals exact given_clear given (by omega) (by omega)
  exact ⟨list, given.inv.separated, given.inv.aligned, given.inv.freeBytes, given.inv.lo_pos,
    given.inv.lo_le, given.inv.hi_lt, given.inv.total⟩

theorem kmalloc_safe (inv : HeapInv k.heap bs) (ends : Granular k.heap)
    (word : nbytes < 18446744073709551616) : KmallocSafe k nbytes ↔ KmallocOk bs nbytes := by
  constructor
  · intro safe
    by_contra bad
    unfold KmallocOk at bad
    rw [not_or, not_or, not_or, not_and] at bad
    obtain ⟨large, nonempty, other, fits⟩ := bad
    obtain ⟨c, cs, rfl⟩ := List.exists_cons_of_ne_nil nonempty
    have asked : add64 nbytes kmHeaderBytes ≠ 0 := by
      unfold add64 wrap64 kmHeaderBytes
      omega
    have less : add64 nbytes kmHeaderBytes < 18446744073709551616 := by
      unfold add64 wrap64
      omega
    by_cases huge : 18446744073709551584 < add64 nbytes kmHeaderBytes
    · obtain ⟨h', run⟩ := getmem_wraps inv less huge
      exact kmalloc_wraps inv ends List.mem_cons_self word (by omega) asked run safe
    · have above : 18446744073709551584 < nbytes := by
        unfold add64 wrap64 kmHeaderBytes at huge
        omega
      rcases getmem_given inv (Nat.pos_of_ne_zero asked) (Nat.not_lt.mp huge) with
        ⟨short, _⟩ | ⟨_, p, h', rest, run, given⟩
      · exact fits above short
      · obtain ⟨b, mem, rfl⟩ := given.start
        exact kmalloc_wraps inv ends mem word (by omega) asked run safe
  · intro ok
    rcases kmalloc_result inv word ok with done | ⟨pos, small, p, h', rest, k', given, done, heap⟩
    · exact ⟨0, k, done, .inl ⟨rfl, rfl⟩⟩
    · have round := roundmb_bounds (n := nbytes + 32) (by omega)
      have usable : Usable h' (p + 32) nbytes := usable_of_given given (by omega) (by omega)
      refine ⟨p + 32, k', done, .inr ⟨by omega, ?_⟩⟩
      rw [heap]
      refine ⟨usable.1, usable.2.1, rest, (writeHeader_inv given (by omega)).freeList, ?_⟩
      rintro x covered ⟨low, high⟩
      exact given.taken.fresh x covered ⟨by omega, by omega⟩

end Requests

end XinuRpi5.Mem.Kmalloc
