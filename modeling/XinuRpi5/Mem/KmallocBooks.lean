/- source: mem/kmalloc.c
   digest: The live counters and the rejection of double frees over every run. -/

import XinuRpi5.Mem.HeapWrites
import XinuRpi5.Mem.Kmalloc
import Mathlib.Data.List.Pairwise

/-!
A run consists of calls of `kmalloc` and `kfree` and of stores of clients into the payload of
blocks that are not yet freed. A client does not forge a header: it never stores
`KMALLOC_MAGIC` where a pointer that it was given once had it.
-/

namespace XinuRpi5.Mem.KmallocBooks

open Lib.FreeIntervals Lib.GuardedRuns Lib.Word64
open Memory StoredFreeList HeapRuns
open HeapWrites Kmalloc

/-- The allocator, the blocks that are not yet freed, each with its header and its
header-inclusive size, and every pointer that was returned. -/
structure Books where
  km : Kmem
  live : List Live
  given : List Nat

inductive Call where
  | kmalloc (nbytes : Nat)
  | kfree (ptr : Nat)
  | store (a v : Nat)

def ptrOf (l : Live) : Nat := l.addr + kmHeaderBytes

def kmallocStep (s : Books) (nbytes : Nat) : Option Books :=
  (kmalloc nbytes s.km).map fun (p, k) =>
    if p = 0 then { s with km := k }
    else ⟨k, ⟨p - kmHeaderBytes, nbytes + kmHeaderBytes⟩ :: s.live, p :: s.given⟩

def step (s : Books) : Call → Option Books
  | .kmalloc nbytes => kmallocStep s nbytes
  | .kfree ptr => (kfree ptr s.km).map fun k =>
    match s.live.find? fun l => ptrOf l = ptr with
    | some l => { s with km := k, live := s.live.erase l }
    | none => { s with km := k }
  | .store a v => some { s with km := { s.km with heap := s.km.heap.store a v } }

/-- Sizes below `2 ^ 62`, pointers that were returned, and stores into payloads. -/
def Allowed (s : Books) : Call → Prop
  | .kmalloc nbytes => nbytes < 4611686018427387904
  | .kfree ptr => ptr = 0 ∨ ptr ∈ s.given
  | .store a v => (∃ l ∈ s.live, ptrOf l ≤ a ∧ a + 8 ≤ l.addr + l.extent) ∧
      (v = kmallocMagic → a + 24 ∉ s.given)

/-- No call of `kmalloc` in between. -/
def AllowedFree (s : Books) (c : Call) : Prop := Allowed s c ∧ ∀ nbytes, c ≠ .kmalloc nbytes

/-- `mem_init`, with the counters as they are loaded. -/
def start (mem : Nat → Nat) (heapStart heapEnd : Nat) : Books :=
  ⟨⟨memInit mem heapStart heapEnd, 0, 0, 0, 0, 0⟩, [], []⟩

def liveTotal (live : List Live) : Nat := (live.map Live.nbytes).sum

/-- What the words in front of the payloads hold, and the counters. -/
structure BooksInv (s : Books) (bs : List Interval) : Prop where
  session : SessionInv ⟨s.km.heap, s.live⟩ bs
  payload : ∀ l ∈ s.live, kmHeaderBytes < l.nbytes
  header : ∀ l ∈ s.live, s.km.heap.mem l.addr = l.nbytes ∧
    s.km.heap.mem (l.addr + 8) = kmallocMagic
  listed : ∀ l ∈ s.live, ptrOf l ∈ s.given
  returned : ∀ p ∈ s.given, ∃ blk, 16 ∣ blk ∧ 0 < blk ∧ p = blk + kmHeaderBytes ∧
    p < 18446744073709551616 ∧
    ((∀ l ∈ s.live, l.addr ≠ blk) → s.km.heap.mem (blk + 8) ≠ kmallocMagic)
  blocks : s.km.liveBlocks = s.live.length
  bytes : s.km.liveBytes = liveTotal s.live

theorem start_inv (mem : Nat → Nat) {heapStart heapEnd : Nat} (region : Region heapStart heapEnd) :
    BooksInv (start mem heapStart heapEnd)
      [⟨roundmb heapStart, truncmb heapEnd - roundmb heapStart⟩] where
  session := init_inv mem region
  payload _ listed := absurd listed List.not_mem_nil
  header _ listed := absurd listed List.not_mem_nil
  listed _ listed := absurd listed List.not_mem_nil
  returned _ listed := absurd listed List.not_mem_nil
  blocks := rfl
  bytes := rfl

theorem live_bounds {h : Heap} {live : List Live} {bs : List Interval}
    (session : SessionInv ⟨h, live⟩ bs) :
    live.length ≤ liveTotal live ∧ liveTotal live < 18446744073709551616 := by
  have each : ∀ xs : List Live, (∀ l ∈ xs, l ∈ live) →
      xs.length ≤ liveTotal xs ∧ liveTotal xs ≤ liveBytes xs := by
    intro xs
    induction xs with
    | nil => exact fun _ => ⟨Nat.le_refl _, Nat.le_refl _⟩
    | cons l xs ih =>
      intro inside
      obtain ⟨count, sum⟩ := ih fun m listed => inside m (List.mem_cons_of_mem l listed)
      have request := session.request l (inside l List.mem_cons_self)
      have round := roundmb_bounds (n := l.nbytes) (by omega)
      simp only [liveTotal, liveBytes, List.map_cons, List.sum_cons, List.length_cons,
        Live.extent] at count sum ⊢
      omega
  obtain ⟨count, sum⟩ := each live fun _ listed => listed
  have whole := session.total
  have window := session.heap.total
  have hi := session.heap.hi_lt
  simp only at whole window hi
  omega

theorem keeps_no_magic {zone : Nat → Prop} {h h' : Heap} (only : Only (Header zone) h h')
    {blk : Nat} (dvd : 16 ∣ blk) (was : h.mem (blk + 8) ≠ kmallocMagic) :
    h'.mem (blk + 8) ≠ kmallocMagic := by
  rcases only (blk + 8) with same | ⟨_, here | value⟩
  · rwa [same]
  · omega
  · intro magic
    rw [magic] at value
    revert value
    decide

theorem store_mem (h : Heap) (a v x : Nat) :
    (h.store a v).mem x = if x = a then v else h.mem x := by
  simp [Heap.store, Function.update_apply]

theorem writeHeader_mem (h : Heap) (blk total x : Nat) :
    (writeHeader h blk total).mem x = if x = blk + 24 then 0 else if x = blk + 16 then 0
      else if x = blk + 8 then kmallocMagic else if x = blk then total else h.mem x := by
  unfold writeHeader
  rw [store_mem, store_mem, store_mem, store_mem]

theorem header_outside {h : Heap} {live : List Live} {bs : List Interval}
    (session : SessionInv ⟨h, live⟩ bs) {l : Live} (listed : l ∈ live) :
    ¬ Covers bs l.addr ∧ ¬ Covers bs (l.addr + 8) := by
  have request := session.request l listed
  have extent := extent_bounds request.1 request.2
  have outside := session.outside l listed
  exact ⟨fun free => outside _ free (by omega), fun free => outside _ free (by omega)⟩

theorem extent_large {l : Live} (payload : kmHeaderBytes < l.nbytes)
    (small : l.nbytes < 9223372036854775808) : 48 ≤ l.extent := by
  have round := roundmb_bounds (n := l.nbytes) (by omega)
  have granules := roundmb_dvd l.nbytes
  unfold kmHeaderBytes at payload
  unfold Live.extent
  omega

section Steps

variable {s : Books} {bs : List Interval}

theorem writeHeader_session {h : Heap} {live : List Live} {l : Live} (total : Nat)
    (session : SessionInv ⟨h, live⟩ bs) (listed : l ∈ live) (large : 32 ≤ l.extent) :
    SessionInv ⟨writeHeader h l.addr total, live⟩ bs := by
  have first := store_inv (a := l.addr) (v := total) session ⟨l, listed, by omega, by omega⟩
  have second := store_inv (a := l.addr + 8) (v := kmallocMagic) first
    ⟨l, listed, by omega, by omega⟩
  have third := store_inv (a := l.addr + 16) (v := 0) second ⟨l, listed, by omega, by omega⟩
  exact store_inv (a := l.addr + 24) (v := 0) third ⟨l, listed, by omega, by omega⟩

variable (inv : BooksInv s bs)

include inv

theorem kfree_finds {l : Live} (listed : l ∈ s.live) :
    ptrOf l ≠ 0 ∧ sub64 (ptrOf l) kmHeaderBytes = l.addr ∧ add64 l.addr 8 = l.addr + 8 := by
  have inside := inv.session.inside l listed
  have request := inv.session.request l listed
  have large := extent_large (inv.payload l listed) request.2
  have hi := inv.session.heap.hi_lt
  simp only at inside hi
  refine ⟨by unfold ptrOf kmHeaderBytes; omega, ?_, add64_eq (by omega)⟩
  unfold ptrOf
  rw [sub64_eq (by unfold kmHeaderBytes; omega) (by omega)]
  omega

theorem kfree_refused {p : Nat} (given : p ∈ s.given) (stale : ∀ l ∈ s.live, ptrOf l ≠ p) :
    kfree p s.km = some { s.km with badFrees := add64 s.km.badFrees 1 } := by
  obtain ⟨blk, dvd, pos, rfl, small, free⟩ := inv.returned p given
  have off : ∀ l ∈ s.live, l.addr ≠ blk := by
    rintro l listed rfl
    exact stale l listed rfl
  have word := free off
  have back : sub64 (blk + kmHeaderBytes) kmHeaderBytes = blk := by
    rw [sub64_eq small (by omega)]
    omega
  have magic : add64 blk 8 = blk + 8 := add64_eq (by unfold kmHeaderBytes at small; omega)
  unfold kfree
  rw [if_neg (by unfold kmHeaderBytes; omega)]
  dsimp only
  rw [back, magic, if_pos word]

/-- A live block is taken back. -/
theorem kfree_live {l : Live} (listed : l ∈ s.live) :
    ∃ k bs', kfree (ptrOf l) s.km = some k ∧
      BooksInv { s with km := k, live := s.live.erase l } bs' := by
  obtain ⟨nonnull, back, magic⟩ := kfree_finds inv listed
  obtain ⟨size, word⟩ := inv.header l listed
  have request := inv.session.request l listed
  have large := extent_large (inv.payload l listed) request.2
  have perm := List.perm_cons_erase listed
  obtain ⟨apart, _⟩ := List.pairwise_cons.mp
    ((perm.pairwise_iff fun {a b} h => Apart.symm h).mp inv.session.apart)
  have within : SessionInv ⟨s.km.heap.store (l.addr + 8) 0, s.live⟩ bs :=
    store_inv inv.session ⟨l, listed, by omega, by omega⟩
  obtain ⟨⟨h', live'⟩, bs', run, rfl, _, session⟩ := freemem_inv within listed
  obtain ⟨⟨r, h''⟩, freed, done⟩ := Option.map_eq_some_iff.mp run
  obtain ⟨rfl, _⟩ := HeapRuns.Session.mk.inj done
  have only := freemem_only within.heap request.1 request.2 (within.aligned l listed) freed
  have count : s.live.length = (s.live.erase l).length + 1 := by
    rw [perm.length_eq, List.length_cons]
  have sum : liveTotal s.live = l.nbytes + liveTotal (s.live.erase l) := by
    have equal := (perm.map Live.nbytes).sum_eq
    simpa [liveTotal] using equal
  have bounds := live_bounds inv.session
  have old : ∀ m ∈ s.live.erase l, m ∈ s.live := fun m there => List.mem_of_mem_erase there
  -- the zone that `freemem` writes in has no header of another block
  have off : ∀ m ∈ s.live.erase l, ∀ x, m.addr ≤ x → x ≤ m.addr + 8 →
      ¬ Freed bs l.addr (roundmb l.nbytes) x := by
    intro m there x low high zone
    have requestM := inv.session.request m (old m there)
    have largeM := extent_large (inv.payload m (old m there)) requestM.2
    have gap := apart m there
    rcases zone with free | inside
    · exact inv.session.outside m (old m there) x free (by omega)
    · unfold Apart Live.extent at gap
      unfold Live.extent at largeM
      omega
  refine ⟨{ s.km with
      heap := h''
      liveBlocks := if s.km.liveBlocks ≠ 0 then sub64 s.km.liveBlocks 1 else s.km.liveBlocks
      liveBytes :=
        if l.nbytes ≤ s.km.liveBytes then sub64 s.km.liveBytes l.nbytes else s.km.liveBytes
      totalFrees := add64 s.km.totalFrees 1 }, bs', ?_,
    ⟨session, fun m there => inv.payload m (old m there), ?_, fun m there => inv.listed m (old m there), ?_, ?_, ?_⟩⟩
  · unfold kfree
    rw [if_neg nonnull]
    dsimp only
    rw [back, magic, if_neg (not_not_intro word), size, freed]
    rfl
  · intro m there
    have gap := apart m there
    have requestM := inv.session.request m (old m there)
    have largeM := extent_large (inv.payload m (old m there)) requestM.2
    obtain ⟨sizeM, wordM⟩ := inv.header m (old m there)
    unfold Apart at gap
    constructor
    · refine (only.outside (off m there _ (Nat.le_refl _) (by omega))).trans ?_
      rw [store_mem, if_neg (by omega)]
      exact sizeM
    · refine (only.outside (off m there _ (by omega) (Nat.le_refl _))).trans ?_
      rw [store_mem, if_neg (by omega)]
      exact wordM
  · intro p given
    obtain ⟨blk, dvd, pos, is, small, free⟩ := inv.returned p given
    refine ⟨blk, dvd, pos, is, small, fun other => keeps_no_magic only dvd ?_⟩
    rw [store_mem]
    split_ifs with here
    · decide
    · apply free
      intro m there same
      rcases List.mem_cons.mp (perm.mem_iff.mp there) with rfl | rest
      · omega
      · exact other m rest same
  · simp only
    rw [inv.blocks, if_pos (by omega), sub64_eq (by omega) (by omega)]
    omega
  · simp only
    rw [inv.bytes, if_pos (by omega), sub64_eq bounds.2 (by omega)]
    omega

theorem kfree_inv {ptr : Nat} (allowed : Allowed s (.kfree ptr)) :
    ∃ s' bs', step s (.kfree ptr) = some s' ∧ BooksInv s' bs' := by
  cases found : s.live.find? fun l => ptrOf l = ptr with
  | some l =>
    have listed := List.mem_of_find?_eq_some found
    obtain rfl : ptrOf l = ptr := by simpa using List.find?_some found
    obtain ⟨k, bs', run, after⟩ := kfree_live inv listed
    refine ⟨_, bs', ?_, after⟩
    simp only [step, run, Option.map_some, found]
  | none =>
    have stale : ∀ l ∈ s.live, ptrOf l ≠ ptr := by simpa using List.find?_eq_none.mp found
    rcases allowed with rfl | given
    · refine ⟨s, bs, ?_, inv⟩
      simp only [step, kfree, if_true, Option.map_some, found]
    · have run := kfree_refused inv given stale
      refine ⟨{ s with km := { s.km with badFrees := add64 s.km.badFrees 1 } }, bs, ?_, ?_⟩
      · simp only [step, run, Option.map_some, found]
      exact ⟨inv.session, inv.payload, inv.header, inv.listed, inv.returned, inv.blocks, inv.bytes⟩

/-- A block that `getmem` gave becomes a live block with its header. -/
theorem kmalloc_takes {nbytes p : Nat} {h' : Heap} {bs' : List Interval} (pos : nbytes ≠ 0)
    (small : nbytes < 4611686018427387904) (nonnull : p ≠ 0)
    (run : getmem (nbytes + kmHeaderBytes) s.km.heap = some (p, h'))
    (session : SessionInv ⟨h', ⟨p, nbytes + kmHeaderBytes⟩ :: s.live⟩ bs') :
    ∃ s', kmallocStep s nbytes = some s' ∧ BooksInv s' bs' := by
  have header : kmHeaderBytes = 32 := rfl
  have only := getmem_only inv.session.heap (by omega) run
  have request := session.request _ List.mem_cons_self
  have round := roundmb_bounds (n := nbytes + kmHeaderBytes) (by omega)
  have inside := session.inside _ List.mem_cons_self
  have granules := session.aligned _ List.mem_cons_self
  have hi := session.heap.hi_lt
  have bounds := live_bounds session
  obtain ⟨apart, _⟩ := List.pairwise_cons.mp session.apart
  have large : 48 ≤ Live.extent ⟨p, nbytes + kmHeaderBytes⟩ :=
    extent_large (by simp only; omega) request.2
  simp only [Live.extent] at inside large
  simp only [liveTotal, List.map_cons, List.sum_cons, List.length_cons] at bounds
  simp only at hi granules
  have total : add64 nbytes kmHeaderBytes = nbytes + kmHeaderBytes := add64_eq (by omega)
  have pointer : add64 p kmHeaderBytes = p + kmHeaderBytes := add64_eq (by omega)
  have done : kmallocStep s nbytes = some ⟨{ s.km with
      heap := writeHeader h' p (nbytes + kmHeaderBytes)
      liveBlocks := add64 s.km.liveBlocks 1
      liveBytes := add64 s.km.liveBytes (nbytes + kmHeaderBytes)
      totalAllocs := add64 s.km.totalAllocs 1 },
      ⟨p, nbytes + kmHeaderBytes⟩ :: s.live, (p + kmHeaderBytes) :: s.given⟩ := by
    have back : p + kmHeaderBytes - kmHeaderBytes = p := by omega
    simp only [kmallocStep, kmalloc, if_neg pos, total, run, Option.map_some, if_neg nonnull,
      pointer, if_neg (show p + kmHeaderBytes ≠ 0 by omega), back]
  have stays : ∀ m ∈ s.live, ∀ x, m.addr ≤ x → x ≤ m.addr + 8 → ¬ Covers bs x →
      (writeHeader h' p (nbytes + kmHeaderBytes)).mem x = s.km.heap.mem x := by
    intro m there x low high off
    have gap := apart m there
    have requestM := inv.session.request m there
    have largeM := extent_large (inv.payload m there) requestM.2
    unfold Apart Live.extent at gap
    unfold Live.extent at largeM
    simp only at gap
    rw [writeHeader_mem, if_neg (by omega), if_neg (by omega), if_neg (by omega),
      if_neg (by omega)]
    exact only.outside off
  refine ⟨_, done, ?_, ?_, ?_, ?_, ?_, ?_, ?_⟩
  · exact writeHeader_session _ session List.mem_cons_self (by simp only [Live.extent]; omega)
  · intro m there
    rcases List.mem_cons.mp there with rfl | old
    · simp only
      omega
    · exact inv.payload m old
  · intro m there
    rcases List.mem_cons.mp there with rfl | old
    · simp only [writeHeader_mem]
      constructor
      · rw [if_neg (by omega), if_neg (by omega), if_neg (by omega), if_pos trivial]
      · rw [if_neg (by omega), if_neg (by omega), if_pos trivial]
    · obtain ⟨size, word⟩ := inv.header m old
      obtain ⟨offSize, offWord⟩ := header_outside inv.session old
      exact ⟨(stays m old _ (Nat.le_refl _) (by omega) offSize).trans size,
        (stays m old _ (by omega) (Nat.le_refl _) offWord).trans word⟩
  · intro m there
    rcases List.mem_cons.mp there with rfl | old
    · exact List.mem_cons_self
    · exact List.mem_cons_of_mem _ (inv.listed m old)
  · intro q given
    rcases List.mem_cons.mp given with rfl | old
    · exact ⟨p, granules, by omega, rfl, by omega, fun other =>
        absurd rfl (other _ List.mem_cons_self)⟩
    · obtain ⟨blk, dvd, low, is, word, free⟩ := inv.returned q old
      refine ⟨blk, dvd, low, is, word, fun other => ?_⟩
      have apart' : p ≠ blk := other _ List.mem_cons_self
      have was := keeps_no_magic only dvd
        (free fun m there => other m (List.mem_cons_of_mem _ there))
      simp only [writeHeader_mem]
      split_ifs
      · decide
      · decide
      · omega
      · omega
      · exact was
  · simp only [List.length_cons]
    rw [inv.blocks, add64_eq (by omega)]
  · simp only [liveTotal, List.map_cons, List.sum_cons]
    rw [inv.bytes, liveTotal, add64_eq (by omega)]
    omega

theorem kmalloc_inv {nbytes : Nat} (small : nbytes < 4611686018427387904) :
    ∃ s' bs', step s (.kmalloc nbytes) = some s' ∧ BooksInv s' bs' := by
  have header : kmHeaderBytes = 32 := rfl
  by_cases zero : nbytes = 0
  · refine ⟨s, bs, ?_, inv⟩
    simp only [step, kmallocStep, kmalloc, if_pos zero, Option.map_some, if_true]
  · have total : add64 nbytes kmHeaderBytes = nbytes + kmHeaderBytes := add64_eq (by omega)
    obtain ⟨⟨h', live'⟩, bs', run, _, session⟩ :=
      getmem_inv (n := nbytes + kmHeaderBytes) inv.session (by omega)
    obtain ⟨⟨p, h''⟩, given, done⟩ := Option.map_eq_some_iff.mp run
    obtain ⟨rfl, rfl⟩ := HeapRuns.Session.mk.inj done
    by_cases null : p = 0
    · have same : h'' = s.km.heap := by
        rcases getmem_given (n := nbytes + kmHeaderBytes) inv.session.heap (by omega)
            (by omega) with ⟨_, refused⟩ | ⟨_, q, _, _, taken, block⟩
        · exact (Prod.mk.inj (Option.some.inj (given.symm.trans refused))).2
        · have low := block.low
          have lo := inv.session.heap.lo_pos
          obtain ⟨rfl, _⟩ := Prod.mk.inj (Option.some.inj (given.symm.trans taken))
          omega
      refine ⟨s, bs, ?_, inv⟩
      simp only at given
      simp only [step, kmallocStep, kmalloc, if_neg zero, total, given, Option.map_some,
        if_pos null, if_true, same]
    · simp only [if_neg null] at session
      obtain ⟨s', next, after⟩ := kmalloc_takes inv zero small null given session
      exact ⟨s', bs', next, after⟩

/-- A store of a client keeps the headers and forges none. -/
theorem client_inv {a v : Nat} (allowed : Allowed s (.store a v)) :
    BooksInv { s with km := { s.km with heap := s.km.heap.store a v } } bs := by
  obtain ⟨⟨l, listed, low, high⟩, honest⟩ := allowed
  have header : kmHeaderBytes = 32 := rfl
  unfold ptrOf at low
  have session : SessionInv ⟨s.km.heap.store a v, s.live⟩ bs :=
    store_inv inv.session ⟨l, listed, by omega, high⟩
  have off : ∀ m ∈ s.live, a ≠ m.addr ∧ a ≠ m.addr + 8 := by
    intro m there
    by_cases same : m = l
    · rw [same]
      omega
    · have symmetric : Std.Symm Apart := ⟨fun _ _ => Apart.symm⟩
      have gap : Apart m l := inv.session.apart.forall there listed same
      have request := inv.session.request m there
      have large := extent_large (inv.payload m there) request.2
      unfold Apart at gap
      omega
  refine ⟨session, inv.payload, ?_, inv.listed, ?_, inv.blocks, inv.bytes⟩
  · intro m there
    obtain ⟨size, word⟩ := inv.header m there
    simp only [store_mem]
    rw [if_neg (Ne.symm (off m there).1), if_neg (Ne.symm (off m there).2)]
    exact ⟨size, word⟩
  · intro p given
    obtain ⟨blk, dvd, pos, is, small, free⟩ := inv.returned p given
    refine ⟨blk, dvd, pos, is, small, fun other => ?_⟩
    simp only [store_mem]
    split_ifs with here
    · intro magic
      refine honest magic ?_
      rw [← here, show blk + 8 + 24 = p by omega]
      exact given
    · exact free other

theorem step_inv {c : Call} (allowed : Allowed s c) :
    ∃ s' bs', step s c = some s' ∧ BooksInv s' bs' := by
  cases c with
  | kmalloc nbytes => exact kmalloc_inv inv allowed
  | kfree ptr => exact kfree_inv inv allowed
  | store a v => exact ⟨_, bs, rfl, client_inv inv allowed⟩

end Steps

section Runs

variable {mem : Nat → Nat} {heapStart heapEnd : Nat}

theorem run_inv {s t : Books} (run : Runs step Allowed s t) (inv : ∃ bs, BooksInv s bs) :
    ∃ bs, BooksInv t bs := by
  apply run.invariant (I := fun s => ∃ bs, BooksInv s bs) inv
  rintro s c s' ⟨bs, inv⟩ allowed next
  obtain ⟨s'', bs', run', inv'⟩ := KmallocBooks.step_inv inv allowed
  obtain rfl := Option.some.inj (next.symm.trans run')
  exact ⟨bs', inv'⟩

structure Gone (ptr : Nat) (s : Books) : Prop where
  inv : ∃ bs, BooksInv s bs
  given : ptr ∈ s.given
  stale : ∀ l ∈ s.live, ptrOf l ≠ ptr

theorem gone_step {s s' : Books} {ptr : Nat} {c : Call} (gone : Gone ptr s)
    (allowed : AllowedFree s c) (next : step s c = some s') : Gone ptr s' := by
  obtain ⟨⟨bs, inv⟩, given, stale⟩ := gone
  obtain ⟨s'', bs', run, inv'⟩ := KmallocBooks.step_inv inv allowed.1
  obtain rfl := Option.some.inj (next.symm.trans run)
  cases c with
  | kmalloc nbytes => exact absurd rfl (allowed.2 nbytes)
  | kfree p =>
    obtain ⟨k, _, rfl⟩ := Option.map_eq_some_iff.mp next
    cases found : s.live.find? fun l => ptrOf l = p with
    | none =>
      simp only [found] at inv' ⊢
      exact ⟨⟨bs', inv'⟩, given, stale⟩
    | some m =>
      simp only [found] at inv' ⊢
      exact ⟨⟨bs', inv'⟩, given, fun o there => stale o (List.mem_of_mem_erase there)⟩
  | store a v =>
    obtain rfl := Option.some.inj next
    exact ⟨⟨bs', inv'⟩, given, stale⟩

theorem gone_first {s s' : Books} {bs : List Interval} (inv : BooksInv s bs) {l : Live}
    (listed : l ∈ s.live) (next : step s (.kfree (ptrOf l)) = some s') : Gone (ptrOf l) s' := by
  obtain ⟨s'', bs', run, inv'⟩ := KmallocBooks.step_inv inv (c := .kfree (ptrOf l))
    (Or.inr (inv.listed l listed))
  obtain rfl := Option.some.inj (next.symm.trans run)
  obtain ⟨k, _, rfl⟩ := Option.map_eq_some_iff.mp next
  cases found : s.live.find? fun m => ptrOf m = ptrOf l with
  | none =>
    have none := List.find?_eq_none.mp found l listed
    exact absurd (decide_eq_true rfl) none
  | some m =>
    have there := List.mem_of_find?_eq_some found
    have same : ptrOf m = ptrOf l := by simpa using List.find?_some found
    simp only [found] at inv' ⊢
    refine ⟨⟨bs', inv'⟩, inv.listed l listed, fun o rest equal => ?_⟩
    obtain ⟨apart, _⟩ := List.pairwise_cons.mp (((List.perm_cons_erase there).pairwise_iff
      fun {a b} h => Apart.symm h).mp inv.session.apart)
    have gap := apart o rest
    have request := inv.session.request m there
    have extent := extent_bounds request.1 request.2
    have requestO := inv.session.request o (List.mem_of_mem_erase rest)
    have extentO := extent_bounds requestO.1 requestO.2
    unfold Apart at gap
    unfold ptrOf at equal same
    omega

/-- In every reachable state the counters are the number of the blocks that are not yet freed
and their header-inclusive bytes, every allowed call returns, and a second `kfree` of a block
before the next allocation only counts one bad free. -/
theorem kmalloc_books (region : Region heapStart heapEnd) {s : Books}
    (run : Runs step Allowed (start mem heapStart heapEnd) s) :
    s.km.liveBlocks = s.live.length ∧ s.km.liveBytes = liveTotal s.live ∧
      (∀ c, Allowed s c → ∃ s', step s c = some s') ∧
      ∀ l ∈ s.live, ∀ s₁ s₂, step s (.kfree (ptrOf l)) = some s₁ → Runs step AllowedFree s₁ s₂ →
        kfree (ptrOf l) s₂.km = some { s₂.km with badFrees := add64 s₂.km.badFrees 1 } := by
  obtain ⟨bs, inv⟩ := run_inv run ⟨_, start_inv mem region⟩
  refine ⟨inv.blocks, inv.bytes, fun c allowed => ?_, fun l listed s₁ s₂ next later => ?_⟩
  · obtain ⟨s', _, next, _⟩ := KmallocBooks.step_inv inv allowed
    exact ⟨s', next⟩
  · have gone : Gone (ptrOf l) s₂ :=
      later.invariant (I := Gone (ptrOf l)) (gone_first inv listed next)
        fun _ _ _ gone allowed next => gone_step gone allowed next
    obtain ⟨bs', inv'⟩ := gone.inv
    exact kfree_refused inv' gone.given gone.stale

theorem kmalloc_books_twice :
    ∃ s s₁ : Books, s.live = [⟨4096, 56⟩] ∧ s.km.liveBlocks = 1 ∧ s.km.liveBytes = 56 ∧
      step s (.kfree 4128) = some s₁ ∧
      kfree 4128 s₁.km = some { s₁.km with badFrees := add64 s₁.km.badFrees 1 } := by
  have region : Region 4096 8192 := ⟨by decide, by decide, by decide, by decide⟩
  have base : Runs step Allowed (start (fun _ => 0) 4096 8192) (start (fun _ => 0) 4096 8192) :=
    Runs.refl _
  have asked : Allowed (start (fun _ => 0) 4096 8192) (.kmalloc 24) := by
    change 24 < 4611686018427387904
    decide
  obtain ⟨s, next⟩ := (kmalloc_books region base).2.2.1 _ asked
  have run := base.snoc asked next
  have shape : (step (start (fun _ => 0) 4096 8192) (.kmalloc 24)).map
      (fun s => (s.live, s.given)) = some ([⟨4096, 56⟩], [4128]) := by rfl
  rw [next] at shape
  obtain ⟨live, given⟩ := Prod.mk.inj (Option.some.inj shape)
  obtain ⟨blocks, bytes, returns, twice⟩ := kmalloc_books region run
  rw [live] at blocks bytes
  have freed : Allowed s (.kfree 4128) := .inr (by rw [given]; exact List.mem_cons_self)
  obtain ⟨s₁, next₁⟩ := returns _ freed
  exact ⟨s, s₁, live, blocks, bytes, next₁,
    twice ⟨4096, 56⟩ (by rw [live]; exact List.mem_cons_self) s₁ s₁ next₁ (Runs.refl _)⟩

end Runs

end XinuRpi5.Mem.KmallocBooks
