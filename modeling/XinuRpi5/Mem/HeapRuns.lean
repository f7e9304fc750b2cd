/- source: mem/memory.c, test/host/memtest.c
   digest: The allocator invariant over every run of allocations, frees and client stores. -/

import XinuRpi5.Lib.GuardedRuns
import XinuRpi5.Mem.StoredFreeList

/-!
A session is the heap together with the blocks its clients hold, each with the
size it was requested with. Clients may also store into the blocks they hold:
the headers of the free list share the memory with their data, so the
invariant has to survive these stores as well.
-/

namespace XinuRpi5.Mem.HeapRuns

open Lib.FreeIntervals Lib.GuardedRuns Memory
open Lib.Word64 StoredFreeList

/-- A block handed out by `getmem`: its address and the requested size. -/
structure Live where
  addr : Nat
  nbytes : Nat
  deriving DecidableEq

def Live.extent (l : Live) : Nat := roundmb l.nbytes

structure Session where
  heap : Heap
  live : List Live

inductive Op where
  | getmem (nbytes : Nat)
  | freemem (l : Live)
  | store (a v : Nat)

/-- One call. A block becomes live when `getmem` returns it and stops being
live when `freemem` accepts it. -/
def step (s : Session) : Op → Option Session
  | .getmem n => (getmem n s.heap).map fun (p, h) =>
    ⟨h, if p = 0 then s.live else ⟨p, n⟩ :: s.live⟩
  | .freemem l => (freemem l.addr l.nbytes s.heap).map fun (r, h) =>
    ⟨h, if r = 0 then s.live.erase l else s.live⟩
  | .store a v => some ⟨s.heap.store a v, s.live⟩

/-- What a client may ask for: sizes below `2 ^ 63`, frees of live blocks with
their size, and stores of whole words into live blocks. -/
def Allowed (s : Session) : Op → Prop
  | .getmem n => n < 9223372036854775808
  | .freemem l => l ∈ s.live
  | .store a _ => ∃ l ∈ s.live, l.addr ≤ a ∧ a + 8 ≤ l.addr + l.extent

/-- A region that `mem_init` can manage: not at the null address and with room
for one block after both ends are aligned. -/
structure Region (heapStart heapEnd : Nat) : Prop where
  start_pos : 0 < heapStart
  start_lt : heapStart < 18446744073709551601
  end_lt : heapEnd < 18446744073709551616
  room : roundmb heapStart < truncmb heapEnd

/-- Sessions reached from `mem_init` by allowed calls. -/
def Reach (mem : Nat → Nat) (heapStart heapEnd : Nat) (s : Session) : Prop :=
  Runs step Allowed ⟨memInit mem heapStart heapEnd, []⟩ s

def Apart (l m : Live) : Prop := l.addr + l.extent ≤ m.addr ∨ m.addr + m.extent ≤ l.addr

variable {l : Live} {h : Heap} {bs : List Interval} {s : Session}

theorem Apart.symm {m : Live} (h : Apart l m) : Apart m l := Or.symm h

def liveBytes (live : List Live) : Nat := (live.map Live.extent).sum

/-- The heap invariant together with the books on the live blocks. -/
structure SessionInv (s : Session) (bs : List Interval) : Prop where
  heap : HeapInv s.heap bs
  request : ∀ l ∈ s.live, 0 < l.nbytes ∧ l.nbytes < 9223372036854775808
  inside : ∀ l ∈ s.live, s.heap.heapLo ≤ l.addr ∧ l.addr + l.extent ≤ s.heap.heapHi
  aligned : ∀ l ∈ s.live, 16 ∣ l.addr
  outside : ∀ l ∈ s.live, Outside l.addr l.extent bs
  apart : s.live.Pairwise Apart
  total : totalLen bs + liveBytes s.live = s.heap.heapTotal

theorem extent_bounds (pos : 0 < l.nbytes) (small : l.nbytes < 9223372036854775808) :
    16 ≤ l.extent ∧ l.extent ≤ 9223372036854775808 := by
  have round := roundmb_bounds (n := l.nbytes) (by omega)
  have dvd := roundmb_dvd l.nbytes
  unfold Live.extent
  omega

theorem init_inv (mem : Nat → Nat) {heapStart heapEnd : Nat} (region : Region heapStart heapEnd) :
    SessionInv ⟨memInit mem heapStart heapEnd, []⟩
      [⟨roundmb heapStart, truncmb heapEnd - roundmb heapStart⟩] := by
  have room := region.room
  have round := roundmb_bounds (n := heapStart) region.start_lt
  have pos := region.start_pos
  have dvdLo := roundmb_dvd heapStart
  have dvdHi : 16 ∣ truncmb heapEnd := ⟨heapEnd / 16, by rw [truncmb, memAlign, Nat.mul_comm]⟩
  have hiLt : truncmb heapEnd < 18446744073709551616 := by
    have := region.end_lt
    unfold truncmb memAlign
    omega
  have total : sub64 (truncmb heapEnd) (roundmb heapStart) =
      truncmb heapEnd - roundmb heapStart := sub64_eq hiLt (by omega)
  refine ⟨⟨⟨⟨rfl, ?_, ?_⟩, ?_⟩, ?_, ?_, ?_, ?_, ?_, ?_, ?_⟩, by simp, by simp, by simp, by simp,
    List.Pairwise.nil, ?_⟩
  · simp only
    omega
  · simp [memInit, Heap.mlength, total]
  · change (memInit mem heapStart heapEnd).mnext (roundmb heapStart) = 0
    simp [memInit, Heap.mnext]
  · exact ⟨le_rfl, by simp only; omega, by simp only [memInit]; omega, trivial⟩
  · exact aligned_cons.mpr ⟨⟨dvdLo, Nat.dvd_sub dvdHi dvdLo⟩, aligned_nil⟩
  · simp [memInit, total]
  · simp only [memInit]
    omega
  · simp only [memInit]
    omega
  · exact hiLt
  · exact total
  · simp [memInit, liveBytes, total]

theorem Holds.inv {h' : Heap} {cs : List Interval} {v : Nat} (inv : HeapInv h bs)
    (holds : Holds h h' cs v) (sep : Separated h.heapLo h.heapHi cs) (al : Aligned 16 cs)
    (bytes : v = totalLen cs) : HeapInv h' cs where
  freeList := holds.freeList
  separated := by rw [holds.heapLo, holds.heapHi]; exact sep
  aligned := al
  freeBytes := holds.freeBytes.trans bytes
  lo_pos := by rw [holds.heapLo]; exact inv.lo_pos
  lo_le := by rw [holds.heapLo, holds.heapHi]; exact inv.lo_le
  hi_lt := by rw [holds.heapHi]; exact inv.hi_lt
  total := by rw [holds.heapTotal, holds.heapLo, holds.heapHi]; exact inv.total

theorem HeapInv.totalLen_lt (inv : HeapInv h bs) :
    totalLen bs ≤ h.heapTotal := by
  have lo := inv.lo_le
  have total := inv.total
  cases bs with
  | nil => simp
  | cons b bs =>
    have count := inv.separated.totalLen_le (by omega)
    simp only [List.length_cons] at count
    omega

/-- A block of `n` bytes at `p` was taken off the free list. -/
structure Given (h h' : Heap) (bs rest : List Interval) (p n : Nat) : Prop where
  taken : Taken h.heapLo h.heapHi n bs p rest
  inv : HeapInv h' rest
  heapLo : h'.heapLo = h.heapLo
  heapHi : h'.heapHi = h.heapHi
  heapTotal : h'.heapTotal = h.heapTotal
  aligned : 16 ∣ p
  low : h.heapLo ≤ p
  high : p + n ≤ h.heapHi
  start : ∃ b ∈ bs, b.addr = p

/-- `getmem` finds no block and changes nothing, or it takes one. -/
theorem getmem_given {n : Nat} (inv : HeapInv h bs) (pos : 0 < n)
    (small : n ≤ 18446744073709551584) :
    (∀ b ∈ bs, b.len < roundmb n) ∧ getmem n h = some (0, h) ∨
      (∃ b ∈ bs, roundmb n ≤ b.len) ∧
        ∃ p h' rest, getmem n h = some (p, h') ∧ Given h h' bs rest p (roundmb n) := by
  rcases getmem_spec inv pos small with missed | ⟨prev, pre, b, post, takes, run⟩
  · exact .inl missed
  · have holds := takes.holds inv (roundmb_dvd n)
    have member : b ∈ bs := by
      rw [takes.split]
      exact List.mem_append_right pre List.mem_cons_self
    have fit : firstFit (roundmb n) bs =
        some (b.addr, pre ++ remainder (roundmb n) b ++ post) := by
      rw [takes.split, firstFit_append takes.short, firstFit_first takes.long]
      exact congrArg (fun l => some (b.addr, l)) (List.append_assoc _ _ _).symm
    generalize pre ++ remainder (roundmb n) b ++ post = rest at holds fit
    have round := roundmb_bounds (n := n) (by omega)
    have taken := firstFit_taken inv.separated (by omega) fit
    have al := firstFit_aligned inv.aligned (roundmb_dvd n) fit
    have covered : ∀ x, b.addr ≤ x ∧ x < b.addr + roundmb n → Covers bs x :=
      fun x hx => (taken.covers x).mpr (.inr hx)
    have lowP := inv.separated.covers_bounds (covered b.addr ⟨le_rfl, by omega⟩)
    have highP := inv.separated.covers_bounds
      (covered (b.addr + roundmb n - 1) ⟨by omega, by omega⟩)
    have sum := taken.total
    have whole := HeapInv.totalLen_lt inv
    have bytes : sub64 h.memlistHead.mlength (roundmb n) = totalLen rest := by
      have hi := inv.hi_lt
      have total := inv.total
      rw [inv.freeBytes, sub64_eq (by omega) (by omega)]
      omega
    exact .inr ⟨⟨b, member, takes.long⟩, b.addr, _, rest, run, taken,
      Holds.inv inv holds taken.separated al.2 bytes, holds.heapLo, holds.heapHi, holds.heapTotal,
      al.1, lowP.1, by omega, b, member, rfl⟩

/-- The ends of the heap are fixed by `mem_init`. -/
def SameWindow (s s' : Session) : Prop :=
  s'.heap.heapLo = s.heap.heapLo ∧ s'.heap.heapHi = s.heap.heapHi

section

variable (inv : SessionInv s bs)

include inv

theorem getmem_inv {n : Nat} (small : n < 9223372036854775808) :
    ∃ s' bs', step s (.getmem n) = some s' ∧ SameWindow s s' ∧ SessionInv s' bs' := by
  by_cases zero : n = 0
  · exact ⟨s, bs, by simp [step, getmem, zero], ⟨rfl, rfl⟩, inv⟩
  have pos : 0 < n := by omega
  rcases getmem_given inv.heap pos (by omega) with ⟨_, run⟩ | ⟨_, p, h', rest, run, given⟩
  · exact ⟨s, bs, by simp [step, run], ⟨rfl, rfl⟩, inv⟩
  have lo := inv.heap.lo_pos
  have low := given.low
  have high := given.high
  have round := roundmb_bounds (n := n) (by omega)
  have sum := given.taken.total
  refine ⟨⟨h', ⟨p, n⟩ :: s.live⟩, rest, ?_, ⟨given.heapLo, given.heapHi⟩, ?_⟩
  · have nonnull : p ≠ 0 := by omega
    simp [step, run, nonnull]
  · refine ⟨given.inv, ?_, ?_, ?_, ?_, ?_, ?_⟩
    · intro l hl
      rcases List.mem_cons.mp hl with rfl | old
      · exact ⟨pos, small⟩
      · exact inv.request l old
    · intro l hl
      rw [given.heapLo, given.heapHi]
      rcases List.mem_cons.mp hl with rfl | old
      · unfold Live.extent
        simp only
        omega
      · exact inv.inside l old
    · intro l hl
      rcases List.mem_cons.mp hl with rfl | old
      · exact given.aligned
      · exact inv.aligned l old
    · intro l hl
      rcases List.mem_cons.mp hl with rfl | old
      · exact given.taken.fresh
      · intro x hx
        exact inv.outside l old x ((given.taken.covers x).mpr (.inl hx))
    · refine List.pairwise_cons.mpr ⟨?_, inv.apart⟩
      intro l hl
      have request := inv.request l hl
      have extent := extent_bounds request.1 request.2
      have covered : ∀ x, p ≤ x ∧ x < p + roundmb n → Covers bs x :=
        fun x hx => (given.taken.covers x).mpr (.inr hx)
      by_contra overlap
      unfold Apart Live.extent at overlap
      simp only at overlap
      unfold Live.extent at extent
      have hit := inv.outside l hl (max p l.addr) (covered _ (by omega))
      unfold Live.extent at hit
      omega
    · have books := inv.total
      rw [given.heapTotal]
      simp only [liveBytes, List.map_cons, List.sum_cons, Live.extent] at books ⊢
      omega

theorem freemem_inv (hl : l ∈ s.live) :
    ∃ s' bs', step s (.freemem l) = some s' ∧ s'.live = s.live.erase l ∧ SameWindow s s' ∧
      SessionInv s' bs' := by
  have request := inv.request l hl
  have inside := inv.inside l hl
  have extent := extent_bounds request.1 request.2
  obtain ⟨h', run, holds⟩ := freemem_spec inv.heap request.1 request.2 inside.1 inside.2
    (inv.outside l hl)
  have perm := List.perm_cons_erase hl
  have apart := (perm.pairwise_iff fun {a b} h => Apart.symm h).mp inv.apart
  obtain ⟨apartL, apartRest⟩ := List.pairwise_cons.mp apart
  have books : totalLen bs + (l.extent + liveBytes (s.live.erase l)) = s.heap.heapTotal := by
    have sum : liveBytes s.live = l.extent + liveBytes (s.live.erase l) := by
      have := (perm.map Live.extent).sum_eq
      simpa [liveBytes] using this
    rw [← sum]
    exact inv.total
  have bytes : add64 s.heap.memlistHead.mlength (roundmb l.nbytes) =
      totalLen (release l.addr (roundmb l.nbytes) bs) := by
    have hi := inv.heap.hi_lt
    have total := inv.heap.total
    rw [inv.heap.freeBytes, release_totalLen]
    apply add64_eq
    unfold Live.extent at books
    omega
  refine ⟨⟨h', s.live.erase l⟩, release l.addr (roundmb l.nbytes) bs, ?_, rfl,
    ⟨holds.heapLo, holds.heapHi⟩, ?_⟩
  · simp [step, run]
  · have sep := release_separated inv.heap.separated (inv.outside l hl) (by omega)
      inside.1 inside.2
    have al := release_aligned inv.heap.aligned (inv.aligned l hl) (roundmb_dvd l.nbytes)
    have old : ∀ m ∈ s.live.erase l, m ∈ s.live := fun m hm => List.mem_of_mem_erase hm
    refine ⟨Holds.inv inv.heap holds sep al bytes, fun m hm => inv.request m (old m hm), ?_,
      fun m hm => inv.aligned m (old m hm), ?_, apartRest, ?_⟩
    · intro m hm
      rw [holds.heapLo, holds.heapHi]
      exact inv.inside m (old m hm)
    · intro m hm x hx
      rcases (release_covers _ _ _ _).mp hx with free | freed
      · exact inv.outside m (old m hm) x free
      · have gap := apartL m hm
        unfold Apart Live.extent at gap
        unfold Live.extent
        omega
    · rw [holds.heapTotal, release_totalLen, ← books]
      exact Nat.add_assoc _ _ _

theorem store_inv {a v : Nat} (within : ∃ l ∈ s.live, l.addr ≤ a ∧ a + 8 ≤ l.addr + l.extent) :
    SessionInv ⟨s.heap.store a v, s.live⟩ bs := by
  obtain ⟨l, hl, low, high⟩ := within
  have off : Clear a bs := by
    intro b hb
    have len := (inv.heap.separated.bounds hb).2.1
    have dvd := (inv.heap.aligned b hb).2
    have apart := (inv.outside l hl).apart hb len (by omega)
    omega
  refine ⟨⟨?_, inv.heap.separated, inv.heap.aligned, inv.heap.freeBytes, inv.heap.lo_pos,
    inv.heap.lo_le, inv.heap.hi_lt, inv.heap.total⟩, inv.request, inv.inside, inv.aligned,
    inv.outside, inv.apart, inv.total⟩
  exact Stored.store inv.heap.freeList v off

theorem step_inv {op : Op} (allowed : Allowed s op) :
    ∃ s' bs', step s op = some s' ∧ (∀ l, op = .freemem l → s'.live = s.live.erase l) ∧
      SameWindow s s' ∧ SessionInv s' bs' := by
  cases op with
  | getmem n =>
    obtain ⟨s', bs', run, window, inv'⟩ := getmem_inv inv allowed
    exact ⟨s', bs', run, by simp, window, inv'⟩
  | freemem l =>
    obtain ⟨s', bs', run, live, window, inv'⟩ := freemem_inv inv allowed
    refine ⟨s', bs', run, ?_, window, inv'⟩
    rintro m ⟨rfl⟩
    exact live
  | store a v => exact ⟨_, bs, rfl, by simp, ⟨rfl, rfl⟩, store_inv inv allowed⟩

end

theorem reach_inv {mem : Nat → Nat} {heapStart heapEnd : Nat} (region : Region heapStart heapEnd)
    {s : Session} (run : Reach mem heapStart heapEnd s) :
    s.heap.heapLo = roundmb heapStart ∧ s.heap.heapHi = truncmb heapEnd ∧
      ∃ bs, SessionInv s bs := by
  apply run.invariant (I := fun s => s.heap.heapLo = roundmb heapStart ∧
    s.heap.heapHi = truncmb heapEnd ∧ ∃ bs, SessionInv s bs)
  · exact ⟨rfl, rfl, _, init_inv mem region⟩
  · rintro s op s' ⟨lo, hi, bs, inv⟩ allowed next
    obtain ⟨s'', bs', run', _, window, inv'⟩ := step_inv inv allowed
    obtain rfl := Option.some.inj (next.symm.trans run')
    exact ⟨window.1.trans lo, window.2.trans hi, bs', inv'⟩

/-- In every reachable session the free list is ordered, aligned, inside the
heap and fully coalesced, the cached free count is its total length, the live
blocks are disjoint from each other and from it, no byte is lost, a drained
heap is one block again, and every allowed call returns. -/
theorem reach_heap_invariant {mem : Nat → Nat} {heapStart heapEnd : Nat}
    (region : Region heapStart heapEnd) {s : Session} (run : Reach mem heapStart heapEnd s) :
    ∃ bs, FreeList s.heap bs ∧
      bs.Pairwise (fun b c => b.addr + b.len < c.addr) ∧
      (∀ b ∈ bs, 16 ∣ b.addr ∧ 16 ∣ b.len ∧ 0 < b.len ∧
        s.heap.heapLo ≤ b.addr ∧ b.addr + b.len ≤ s.heap.heapHi) ∧
      s.heap.memlistHead.mlength = totalLen bs ∧
      s.live.Pairwise Apart ∧
      (∀ l ∈ s.live, ∀ b ∈ bs, l.addr + l.extent ≤ b.addr ∨ b.addr + b.len ≤ l.addr) ∧
      totalLen bs + liveBytes s.live = truncmb heapEnd - roundmb heapStart ∧
      (s.live = [] → bs = [⟨roundmb heapStart, truncmb heapEnd - roundmb heapStart⟩]) ∧
      ∀ op, Allowed s op → ∃ s', step s op = some s' ∧
        ∀ l, op = .freemem l → s'.live = s.live.erase l := by
  obtain ⟨lo, hi, bs, inv⟩ := reach_inv region run
  have room := region.room
  have total : s.heap.heapTotal = truncmb heapEnd - roundmb heapStart := by
    rw [inv.heap.total, lo, hi]
  refine ⟨bs, inv.heap.freeList, inv.heap.separated.pairwise, ?_, inv.heap.freeBytes, inv.apart,
    ?_, inv.total.trans total, ?_, ?_⟩
  · intro b hb
    have bounds := inv.heap.separated.bounds hb
    have dvd := inv.heap.aligned b hb
    exact ⟨dvd.1, dvd.2, bounds.2.1, bounds.1, bounds.2.2⟩
  · intro l hl b hb
    have request := inv.request l hl
    have extent := extent_bounds request.1 request.2
    have len := (inv.heap.separated.bounds hb).2.1
    exact ((inv.outside l hl).apart hb len (by omega)).symm
  · intro drained
    have books := inv.total
    rw [drained, total, ← lo, ← hi] at books
    rw [← lo, ← hi]
    exact inv.heap.separated.eq_single (by omega) (by simpa [liveBytes] using books)
  · intro op allowed
    obtain ⟨s', _, next, freed, _⟩ := step_inv inv allowed
    exact ⟨s', next, freed⟩

theorem reach_heap_invariant_one_block :
    ∃ (s : Session) (bs : List Interval), s.live = [⟨4096, 24⟩] ∧ FreeList s.heap bs ∧
      totalLen bs + liveBytes s.live = truncmb 8192 - roundmb 4096 := by
  have region : Region 4096 8192 := ⟨by decide, by decide, by decide, by decide⟩
  have start : Reach (fun _ => 0) 4096 8192 ⟨memInit (fun _ => 0) 4096 8192, []⟩ := Runs.refl _
  have allowed : Allowed ⟨memInit (fun _ => 0) 4096 8192, []⟩ (.getmem 24) := by
    change 24 < 9223372036854775808
    decide
  obtain ⟨bs, free, _, _, _, _, _, _, _, total⟩ := reach_heap_invariant region start
  obtain ⟨s', next, _⟩ := total (.getmem 24) allowed
  have live : s'.live = [⟨4096, 24⟩] := by
    have shape : (step ⟨memInit (fun _ => 0) 4096 8192, []⟩ (.getmem 24)).map Session.live =
        some [⟨4096, 24⟩] := by rfl
    rw [next] at shape
    exact Option.some.inj shape
  obtain ⟨bs', free', _, _, _, _, _, books, _⟩ :=
    reach_heap_invariant region (start.snoc allowed next)
  exact ⟨s', bs', live, free', books⟩

end XinuRpi5.Mem.HeapRuns
