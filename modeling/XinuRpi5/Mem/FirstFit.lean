/- source: mem/memory.c
   digest: getmem is first fit on every reachable heap, and writes into free blocks only. -/

import XinuRpi5.Mem.HeapRuns
import XinuRpi5.Mem.HeapWrites

namespace XinuRpi5.Mem.FirstFit

open Lib.FreeIntervals Lib.GuardedRuns Lib.LinkedChain
open Lib.Word64 Memory StoredFreeList HeapRuns HeapWrites

/-- `getmem` gives the lowest free block that is long enough for the rounded request, leaves
the tail of that block and all others on the list, and writes into no live block. -/
theorem getmem_first_fit {mem : Nat → Nat} {heapStart heapEnd : Nat}
    (region : Region heapStart heapEnd) {s : Session} (run : Reach mem heapStart heapEnd s)
    {n : Nat} (pos : 0 < n) (small : n < 9223372036854775808) :
    ∃ bs p h', FreeList s.heap bs ∧ bs.Pairwise (fun b c => b.addr + b.len < c.addr) ∧
      getmem n s.heap = some (p, h') ∧
      (p ≠ 0 ↔ ∃ b ∈ bs, roundmb n ≤ b.len) ∧
      (p = 0 → h' = s.heap) ∧
      (p ≠ 0 → ∃ pre b post, bs = pre ++ b :: post ∧ (∀ c ∈ pre, c.len < roundmb n) ∧
        roundmb n ≤ b.len ∧ p = b.addr ∧
        FreeList h' (pre ++ remainder (roundmb n) b ++ post)) ∧
      ∀ l ∈ s.live, ∀ a, l.addr ≤ a → a + 8 ≤ l.addr + l.extent →
        h'.mem a = s.heap.mem a := by
  obtain ⟨_, _, bs, inv⟩ := reach_inv region run
  have live {h' : Heap} (only : Only (Header (Covers bs)) s.heap h') : ∀ l ∈ s.live, ∀ a,
      l.addr ≤ a → a + 8 ≤ l.addr + l.extent → h'.mem a = s.heap.mem a := by
    intro l mem a low high
    exact only.outside fun covered => inv.outside l mem a covered ⟨low, by omega⟩
  rcases getmem_spec inv.heap pos (by omega) with ⟨short, same⟩ | ⟨_, pre, b, post, taken, run⟩
  · refine ⟨bs, 0, s.heap, inv.heap.freeList, inv.heap.separated.pairwise, same, ?_, fun _ => rfl,
      fun nonnull => absurd rfl nonnull, live (.refl s.heap)⟩
    constructor
    · intro nonnull
      exact absurd rfl nonnull
    · rintro ⟨b, free, long⟩
      exact absurd (short b free) (Nat.not_lt.mpr long)
  · have holds := taken.holds inv.heap (roundmb_dvd n)
    have only := takes_only taken inv.heap (roundmb_dvd n)
    have member : b ∈ bs := by
      rw [taken.split]
      exact List.mem_append_right pre List.mem_cons_self
    have low := (inv.heap.separated.bounds member).1
    have lo := inv.heap.lo_pos
    have nonnull : b.addr ≠ 0 := by omega
    refine ⟨bs, b.addr, _, inv.heap.freeList, inv.heap.separated.pairwise, run, ?_,
      fun null => absurd null nonnull, fun _ => ?_, live only⟩
    · exact ⟨fun _ => ⟨b, member, taken.long⟩, fun _ => nonnull⟩
    · exact ⟨pre, b, post, taken.split, taken.short, taken.long, rfl, holds.freeList⟩

theorem getmem_first_fit_initial : ∃ bs p h', FreeList (memInit (fun _ => 0) 4096 8192) bs ∧
    getmem 24 (memInit (fun _ => 0) 4096 8192) = some (p, h') ∧
    (p ≠ 0 ↔ ∃ b ∈ bs, roundmb 24 ≤ b.len) := by
  have region : Region 4096 8192 := ⟨by decide, by decide, by decide, by decide⟩
  obtain ⟨bs, p, h', list, _, taken, fits, _⟩ :=
    getmem_first_fit region (Runs.refl _) (n := 24) (by decide) (by decide)
  exact ⟨bs, p, h', list, taken, fits⟩

end XinuRpi5.Mem.FirstFit
