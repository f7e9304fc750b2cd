/- source: mem/memory.c, mem/kmalloc.c
   digest: Runs of the allocator with any arguments that keep its free list, and what the next
   call does. -/

import XinuRpi5.Mem.AnyFree
import XinuRpi5.Mem.Kmalloc

namespace XinuRpi5.Mem.CallRuns

open Lib.FreeIntervals Lib.GuardedRuns Lib.Word64
open Memory StoredFreeList HeapRuns
open AnyFree Kmalloc

section Runs

inductive Call where
  | getmem (nbytes : Nat)
  | freemem (blk nbytes : Nat)
  | kmalloc (nbytes : Nat)
  | kfree (ptr : Nat)
  | store (a v : Nat)

def step (k : Kmem) : Call → Option Kmem
  | .getmem n => (getmem n k.heap).map fun (_, h) => { k with heap := h }
  | .freemem b n => (freemem b n k.heap).map fun (_, h) => { k with heap := h }
  | .kmalloc n => (kmalloc n k).map Prod.snd
  | .kfree p => kfree p k
  | .store a v => some { k with heap := k.heap.store a v }

/-- A value of an `unsigned long`. -/
def Word (x : Nat) : Prop := x < 18446744073709551616

/-- The word at `a` lies in no free block. -/
def OffList (h : Heap) (a : Nat) : Prop :=
  ∃ bs, FreeList h bs ∧ ∀ b ∈ bs, a + 8 ≤ b.addr ∨ b.addr + b.len ≤ a

def FreeMeets (h : Heap) (blk nbytes : Nat) : Prop :=
  Word blk ∧ Word nbytes ∧ ∃ bs, FreeList h bs ∧ FreeOk h bs blk nbytes

/-- Calls that keep the free list; clients do not write to free memory. -/
def Meets (k : Kmem) : Call → Prop
  | .getmem n => Word n ∧ ∃ bs, FreeList k.heap bs ∧ GetOk bs n
  | .freemem b n => FreeMeets k.heap b n
  | .kmalloc n => Word n ∧ ∃ bs, FreeList k.heap bs ∧ KmallocOk bs n
  | .kfree p => p ≠ 0 → k.heap.mem (add64 (sub64 p kmHeaderBytes) 8) = kmallocMagic →
      OffList k.heap (add64 (sub64 p kmHeaderBytes) 8) ∧
        FreeMeets (k.heap.store (add64 (sub64 p kmHeaderBytes) 8) 0) (sub64 p kmHeaderBytes)
          (k.heap.mem (sub64 p kmHeaderBytes))
  | .store a _ => OffList k.heap a

/-- The allocator after `mem_init`. -/
def boot (mem : Nat → Nat) (heapStart heapEnd : Nat) : Kmem :=
  ⟨memInit mem heapStart heapEnd, 0, 0, 0, 0, 0⟩

def Reach (mem : Nat → Nat) (heapStart heapEnd : Nat) (k : Kmem) : Prop :=
  Runs step Meets (boot mem heapStart heapEnd) k

def Sound (h : Heap) : Prop := Granular h ∧ ∃ bs, HeapInv h bs

theorem boot_sound (mem : Nat → Nat) {heapStart heapEnd : Nat} (region : Region heapStart heapEnd) :
    Sound (boot mem heapStart heapEnd).heap := by
  have start := (init_inv mem region).heap
  refine ⟨⟨roundmb_dvd heapStart, ?_⟩, _, start⟩
  exact ⟨heapEnd / 16, by show truncmb heapEnd = _; rw [truncmb, memAlign, Nat.mul_comm]⟩

variable {h h' : Heap} {bs : List Interval}

theorem Sound.same_ends (sound : Sound h) (lo : h'.heapLo = h.heapLo) (hi : h'.heapHi = h.heapHi)
    {bs' : List Interval} (inv : HeapInv h' bs') : Sound h' :=
  ⟨⟨lo ▸ sound.1.lo, hi ▸ sound.1.hi⟩, bs', inv⟩

theorem getmem_sound {n p : Nat} (sound : Sound h) (list : FreeList h bs) (ok : GetOk bs n)
    (run : getmem n h = some (p, h')) : Sound h' := by
  obtain ⟨bs', inv⟩ := sound.2
  obtain rfl := FreeList.unique list inv.freeList
  by_cases zero : n = 0
  · rw [getmem, if_pos zero] at run
    obtain ⟨_, rfl⟩ := Prod.mk.inj (Option.some.inj run)
    exact sound
  rcases ok with small | rfl
  · rcases getmem_given inv (Nat.pos_of_ne_zero zero) small with
      ⟨_, done⟩ | ⟨_, q, h'', rest, done, given⟩
    · obtain ⟨_, rfl⟩ := Prod.mk.inj (Option.some.inj (done.symm.trans run))
      exact sound
    · obtain ⟨_, rfl⟩ := Prod.mk.inj (Option.some.inj (done.symm.trans run))
      exact sound.same_ends given.heapLo given.heapHi given.inv
  · obtain ⟨_, rfl⟩ := Prod.mk.inj (Option.some.inj ((getmem_empty inv n).symm.trans run))
    exact sound

theorem store_sound {a : Nat} (sound : Sound h) (off : OffList h a) (v : Nat) :
    Sound (h.store a v) := by
  obtain ⟨bs, inv⟩ := sound.2
  obtain ⟨bs', list, apart⟩ := off
  obtain rfl := FreeList.unique list inv.freeList
  have clear : Clear a bs' := by
    intro b mem
    have positive := (inv.separated.bounds mem).2.1
    have granules := (inv.aligned b mem).2
    have here := apart b mem
    omega
  exact sound.same_ends rfl rfl ⟨Stored.store inv.freeList v clear, inv.separated, inv.aligned,
    inv.freeBytes, inv.lo_pos, inv.lo_le, inv.hi_lt, inv.total⟩

theorem freemem_sound {b n : Nat} {r : Int} (sound : Sound h) (meets : FreeMeets h b n)
    (run : freemem b n h = some (r, h')) : Sound h' := by
  obtain ⟨bs, inv⟩ := sound.2
  obtain ⟨word, _, bs', list, ok⟩ := meets
  obtain rfl := FreeList.unique list inv.freeList
  obtain ⟨r', h'', done, result⟩ := (freemem_harmless inv word).mpr ok
  obtain ⟨rfl, rfl⟩ := Prod.mk.inj (Option.some.inj (done.symm.trans run))
  rcases result with ⟨_, rfl⟩ | ⟨accepted, cs, read, sep, al, bytes⟩
  · exact sound
  · obtain ⟨lo, hi, total⟩ : h''.heapLo = h.heapLo ∧ h''.heapHi = h.heapHi ∧
        h''.heapTotal = h.heapTotal := by
      rcases freemem_run inv b n with ⟨_, refused⟩ | ⟨_, prev, curr, _, _, _, inserted⟩
      · obtain ⟨_, rfl⟩ := Prod.mk.inj (Option.some.inj (refused.symm.trans run))
        exact ⟨rfl, rfl, rfl⟩
      · obtain ⟨_, rfl⟩ := Prod.mk.inj (Option.some.inj (inserted.symm.trans run))
        exact freememInsert_window h b _ prev curr
    refine sound.same_ends lo hi ⟨read, sep, al, bytes, ?_, ?_, ?_, ?_⟩
    · exact lo ▸ inv.lo_pos
    · rw [lo, hi]
      exact inv.lo_le
    · exact hi ▸ inv.hi_lt
    · rw [total, lo, hi]
      exact inv.total

theorem kmalloc_sound {k k' : Kmem} {n p : Nat} (sound : Sound k.heap) (word : Word n)
    (list : FreeList k.heap bs)
    (ok : KmallocOk bs n) (run : kmalloc n k = some (p, k')) : Sound k'.heap := by
  obtain ⟨bs', inv⟩ := sound.2
  obtain rfl := FreeList.unique list inv.freeList
  rcases kmalloc_result inv word ok with done | ⟨_, small, q, h', rest, k₁, given, done, heap⟩
  · obtain ⟨_, rfl⟩ := Prod.mk.inj (Option.some.inj (done.symm.trans run))
    exact sound
  · obtain ⟨_, rfl⟩ := Prod.mk.inj (Option.some.inj (done.symm.trans run))
    have round := roundmb_bounds (n := n + 32) (by omega)
    rw [heap]
    exact sound.same_ends given.heapLo given.heapHi (writeHeader_inv given (by omega))

/-- A call that meets the condition returns and keeps the list. -/
theorem step_sound {k k' : Kmem} {call : Call} (sound : Sound k.heap) (meets : Meets k call)
    (run : step k call = some k') : Sound k'.heap := by
  cases call with
  | getmem n =>
    obtain ⟨⟨p, h⟩, done, rfl⟩ := Option.map_eq_some_iff.mp run
    obtain ⟨_, bs, list, ok⟩ := meets
    exact getmem_sound sound list ok done
  | freemem b n =>
    obtain ⟨⟨r, h⟩, done, rfl⟩ := Option.map_eq_some_iff.mp run
    exact freemem_sound sound meets done
  | kmalloc n =>
    obtain ⟨⟨p, k₁⟩, done, rfl⟩ := Option.map_eq_some_iff.mp run
    obtain ⟨word, bs, list, ok⟩ := meets
    exact kmalloc_sound sound word list ok done
  | kfree p =>
    have free : kfree p k = some k' := run
    unfold kfree at free
    by_cases null : p = 0
    · rw [if_pos null] at free
      obtain rfl := Option.some.inj free
      exact sound
    rw [if_neg null] at free
    simp only at free
    by_cases magic : k.heap.mem (add64 (sub64 p kmHeaderBytes) 8) = kmallocMagic
    · rw [if_neg (not_not.mpr magic)] at free
      obtain ⟨off, here⟩ := meets null magic
      obtain ⟨⟨r, h⟩, done, rfl⟩ := Option.map_eq_some_iff.mp free
      exact freemem_sound (store_sound sound off 0) here done
    · rw [if_pos magic] at free
      obtain rfl := Option.some.inj free
      exact sound
  | store a v =>
    obtain rfl := Option.some.inj run
    exact store_sound sound meets v

theorem reach_sound {mem : Nat → Nat} {heapStart heapEnd : Nat} (region : Region heapStart heapEnd)
    {k : Kmem} (run : Reach mem heapStart heapEnd k) : Sound k.heap := by
  refine run.invariant (I := fun k => Sound k.heap) (boot_sound mem region) ?_
  intro k call k' sound meets next
  exact step_sound sound meets next

end Runs

section Frees

variable {mem : Nat → Nat} {heapStart heapEnd : Nat}

/-- In every state of such a run, whatever the pointer and the count: `freemem` refuses and
changes nothing or keeps the list sound, exactly if the arguments meet the condition. -/
theorem freemem_harmless_iff (region : Region heapStart heapEnd) {k : Kmem}
    (run : Reach mem heapStart heapEnd k) {blk : Nat} (pointer : Word blk) (nbytes : Nat) :
    Intact k.heap ∧ ∃ bs, FreeList k.heap bs ∧
      (Harmless k.heap blk nbytes ↔ FreeOk k.heap bs blk nbytes) := by
  obtain ⟨bs, inv⟩ := (reach_sound region run).2
  exact ⟨⟨bs, inv.freeList, inv.separated, inv.aligned, inv.freeBytes⟩, bs, inv.freeList,
    freemem_harmless inv pointer⟩

/-- A block that `getmem` has just given goes back. -/
theorem freemem_harmless_taken : ∃ k, Reach (fun _ => 0) 4096 8192 k ∧
    (getmem 64 (boot (fun _ => 0) 4096 8192).heap).map Prod.fst = some 4096 ∧
    step (boot (fun _ => 0) 4096 8192) (.getmem 64) = some k ∧ Harmless k.heap 4096 64 := by
  have region : Region 4096 8192 := ⟨by decide, by decide, by decide, by decide⟩
  have start := (init_inv (fun _ => 0) region).heap
  have taken : ∃ k, step (boot (fun _ => 0) 4096 8192) (.getmem 64) = some k := ⟨_, rfl⟩
  obtain ⟨k, taken⟩ := taken
  have size : Meets (boot (fun _ => 0) 4096 8192) (.getmem 64) :=
    ⟨by show 64 < _; decide, _, start.freeList, .inl (by decide)⟩
  have run : Reach (fun _ => 0) 4096 8192 k := (Runs.refl _).snoc size taken
  obtain ⟨_, bs, _, exact_⟩ :=
    freemem_harmless_iff region run (show Word 4096 by show 4096 < _; decide) 64
  exact ⟨k, run, rfl, taken, exact_.mpr (.inr (.inl ⟨⟨by decide, by decide⟩, by decide⟩))⟩

/-- The free block at the start of the heap, freed with a count that rounds to 0. -/
theorem free_wrapped_count : Reach (fun _ => 0) 4096 8192 (boot (fun _ => 0) 4096 8192) ∧
    ¬ Harmless (boot (fun _ => 0) 4096 8192).heap 4096 18446744073709551615 := by
  refine ⟨Runs.refl _, ?_⟩
  have region : Region 4096 8192 := ⟨by decide, by decide, by decide, by decide⟩
  have inv := (init_inv (fun _ => 0) region).heap
  intro harmless
  have stop : roundmb 18446744073709551615 = 0 := by decide
  rcases (freemem_harmless inv (by decide)).mp harmless with
    (null | none | low | high | ⟨b, mem, hit⟩) | ⟨⟨pos, _⟩, _⟩ | ⟨b, mem, touch, _⟩
  · exact absurd null (by decide)
  · exact absurd none (by decide)
  · exact absurd low (by decide)
  · exact absurd high (by decide)
  · obtain rfl := List.mem_singleton.mp mem
    exact absurd hit (by decide)
  · exact absurd pos (by decide)
  · obtain rfl := List.mem_singleton.mp mem
    exact absurd touch (by decide)

end Frees

section Requests

variable {mem : Nat → Nat} {heapStart heapEnd : Nat}

/-- In every state of such a run: each request gives 0 with the heap unchanged or a usable
block, exactly if it meets the condition. -/
theorem requests_safe_iff (region : Region heapStart heapEnd) {k : Kmem}
    (run : Reach mem heapStart heapEnd k) {nbytes : Nat} (size : Word nbytes) :
    ∃ bs, FreeList k.heap bs ∧ (GetSafe k.heap nbytes ↔ GetOk bs nbytes) ∧
      (KmallocSafe k nbytes ↔ KmallocOk bs nbytes) := by
  obtain ⟨ends, bs, inv⟩ := reach_sound region run
  exact ⟨bs, inv.freeList, getmem_safe inv ends size, kmalloc_safe inv ends size⟩

theorem requests_safe_small : ∃ bs, FreeList (boot (fun _ => 0) 4096 8192).heap bs ∧
    (GetSafe (boot (fun _ => 0) 4096 8192).heap 24 ↔ GetOk bs 24) ∧
      (KmallocSafe (boot (fun _ => 0) 4096 8192) 24 ↔ KmallocOk bs 24) := by
  have region : Region 4096 8192 := ⟨by decide, by decide, by decide, by decide⟩
  have size : Word 24 := by show 24 < _; decide
  exact requests_safe_iff region (Runs.refl _) size

/-- A size that rounds to 0, and one that is 1 with the header of `kmalloc`. -/
theorem huge_requests_succeed :
    Reach (fun _ => 0) 4096 8192 (boot (fun _ => 0) 4096 8192) ∧
      ¬ GetSafe (boot (fun _ => 0) 4096 8192).heap 18446744073709551615 ∧
      ¬ KmallocSafe (boot (fun _ => 0) 4096 8192) 18446744073709551585 := by
  have region : Region 4096 8192 := ⟨by decide, by decide, by decide, by decide⟩
  obtain ⟨ends, _⟩ := boot_sound (fun _ => 0) region
  have inv := (init_inv (fun _ => 0) region).heap
  refine ⟨Runs.refl _, ?_, ?_⟩
  · intro safe
    rcases (getmem_safe inv ends (by decide)).mp safe with small | empty
    · exact absurd small (by decide)
    · exact absurd empty (by simp)
  · intro safe
    rcases (kmalloc_safe inv ends (by decide)).mp safe with small | empty | exact_ | ⟨_, short⟩
    · exact absurd small (by decide)
    · exact absurd empty (by simp)
    · exact absurd exact_ (by decide)
    · exact absurd (short _ List.mem_cons_self) (by decide)

end Requests

end XinuRpi5.Mem.CallRuns
