/- source: mem/memory.c
   digest: The stored free list represents an interval list; getmem and freemem refine
   first fit and release on it. -/

import XinuRpi5.Lib.FreeIntervals
import XinuRpi5.Lib.LinkedChain
import XinuRpi5.Mem.Memory

namespace XinuRpi5.Mem.StoredFreeList

open Lib.FreeIntervals Lib.LinkedChain Lib.Word64
open Memory

/-- The pointer `p` is a non-null block header with the extent `b`. -/
def IsBlock (h : Heap) (p : Nat) (b : Interval) : Prop :=
  p = b.addr ∧ b.addr ≠ 0 ∧ h.mlength b.addr = b.len

/-- The headers stored from `p` to `q` are those of the interval list. -/
def Stored (h : Heap) (p : Nat) (bs : List Interval) (q : Nat) : Prop :=
  Seg (IsBlock h) (fun b => h.mnext b.addr) p bs q

theorem isBlock_functional (h : Heap) : Functional (IsBlock h) 0 where
  unique := by
    rintro p a b ⟨rfl, _, lenA⟩ ⟨same, _, lenB⟩
    exact Interval.ext same (by rw [← lenA, same, lenB])
  null := by
    rintro a ⟨zero, pos, _⟩
    exact pos zero.symm

/-- The free list of the heap, read from `memlist_head` to the null pointer. -/
def FreeList (h : Heap) (bs : List Interval) : Prop := Stored h h.memlistHead.mnext bs 0

variable {h : Heap} {bs pre post : List Interval} {prev : Option Nat} {n curr : Nat}

theorem FreeList.unique {cs : List Interval} (hb : FreeList h bs)
    (hc : FreeList h cs) : bs = cs := Seg.unique (isBlock_functional h) hb hc

structure HeapInv (h : Heap) (bs : List Interval) : Prop where
  freeList : FreeList h bs
  separated : Separated h.heapLo h.heapHi bs
  aligned : Aligned 16 bs
  freeBytes : h.memlistHead.mlength = totalLen bs
  lo_pos : 0 < h.heapLo
  lo_le : h.heapLo ≤ h.heapHi
  hi_lt : h.heapHi < 18446744073709551616
  total : h.heapTotal = h.heapHi - h.heapLo

/-- `prev` is the walk's predecessor pointer after the blocks of `pre`. -/
def LastOf (pre : List Interval) (prev : Option Nat) : Prop :=
  (pre = [] ∧ prev = none) ∨ ∃ front b, pre = front ++ [b] ∧ prev = some b.addr

theorem lastOf_nil : LastOf [] none := .inl ⟨rfl, rfl⟩

theorem lastOf_snoc (pre : List Interval) (b : Interval) :
    LastOf (pre ++ [b]) (some b.addr) := .inr ⟨pre, b, rfl, rfl⟩

/-- The word at `a` is no header word of the list. -/
def Clear (a : Nat) (bs : List Interval) : Prop := ∀ b ∈ bs, a ≠ b.addr ∧ a ≠ b.addr + 8

section Stores

variable {h : Heap} {bs : List Interval} {p q : Nat}

@[simp] theorem mnext_store (h : Heap) (a v x : Nat) :
    (h.store a v).mnext x = if x = a then v else h.mnext x := by
  simp [Heap.store, Heap.mnext, Function.update_apply]

@[simp] theorem mlength_store (h : Heap) (a v x : Nat) :
    (h.store a v).mlength x = if x + 8 = a then v else h.mlength x := by
  simp [Heap.store, Heap.mlength, Function.update_apply]

theorem Stored.store (st : Stored h p bs q) {a : Nat} (v : Nat) (off : Clear a bs) :
    Stored (h.store a v) p bs q := by
  apply Seg.congr st
  · rintro b hb r ⟨rfl, pos, len⟩
    refine ⟨rfl, pos, ?_⟩
    rw [mlength_store, if_neg (Ne.symm (off b hb).2), len]
  · intro b hb
    rw [mnext_store, if_neg (Ne.symm (off b hb).1)]

theorem Stored.setMnext {pre : List Interval} {prev : Option Nat} (v : Nat)
    (st : Stored h h.memlistHead.mnext pre q) (last : LastOf pre prev)
    (apart : pre.Pairwise fun b c => b.addr + 8 < c.addr) :
    Stored (h.setMnext prev v) (h.setMnext prev v).memlistHead.mnext pre v := by
  rcases last with ⟨rfl, rfl⟩ | ⟨front, b, rfl, rfl⟩
  · rfl
  · obtain ⟨r, before, ⟨rfl, pos, len⟩, _⟩ := seg_snoc.mp st
    obtain ⟨_, _, order⟩ := List.pairwise_append.mp apart
    have off : Clear b.addr front := by
      intro c hc
      have below := order c hc b (List.mem_singleton_self b)
      omega
    refine seg_snoc.mpr ⟨b.addr, Stored.store before v off, ⟨rfl, pos, ?_⟩, ?_⟩
    · change (h.store b.addr v).mlength b.addr = b.len
      rw [mlength_store, if_neg (by omega), len]
    · change (h.store b.addr v).mnext b.addr = v
      rw [mnext_store, if_pos rfl]

theorem Stored.behind {pre post : List Interval} {prev : Option Nat} (v : Nat)
    (st : Stored h p post q) (last : LastOf pre prev)
    (off : ∀ b ∈ pre, Clear b.addr post) : Stored (h.setMnext prev v) p post q := by
  rcases last with ⟨rfl, rfl⟩ | ⟨front, b, rfl, rfl⟩
  · exact st
  · exact st.store v (off b (List.mem_append_right front (List.mem_singleton_self b)))

@[simp] theorem freeBytes_setMnext (h : Heap) (prev : Option Nat) (v : Nat) :
    (h.setMnext prev v).memlistHead.mlength = h.memlistHead.mlength := by
  cases prev <;> rfl

@[simp] theorem heapLo_setMnext (h : Heap) (prev : Option Nat) (v : Nat) :
    (h.setMnext prev v).heapLo = h.heapLo := by cases prev <;> rfl

@[simp] theorem heapHi_setMnext (h : Heap) (prev : Option Nat) (v : Nat) :
    (h.setMnext prev v).heapHi = h.heapHi := by cases prev <;> rfl

@[simp] theorem heapTotal_setMnext (h : Heap) (prev : Option Nat) (v : Nat) :
    (h.setMnext prev v).heapTotal = h.heapTotal := by cases prev <;> rfl

end Stores

/-! Geometry of an aligned separated list, as the header arguments need it. -/

section Geometry

variable {lo hi : Nat} {pre post : List Interval}

theorem pre_apart (sep : Separated lo hi (pre ++ post)) (al : Aligned 16 (pre ++ post)) :
    pre.Pairwise fun b c => b.addr + 8 < c.addr := by
  have pair := (List.pairwise_append.mp sep.pairwise).1
  refine List.Pairwise.imp_of_mem (fun {b c} hb _ gap => ?_) pair
  have len := (sep.bounds (List.mem_append_left post hb)).2.1
  have dvd := (al b (List.mem_append_left post hb)).2
  omega

theorem cut_clear (sep : Separated lo hi (pre ++ post)) :
    ∀ b ∈ pre, Clear b.addr post := by
  intro b hb c hc
  have gap := (List.pairwise_append.mp sep.pairwise).2.2 b hb c hc
  omega

end Geometry

/-- `h'` stores the list `bs` with the given byte count, in the same region. -/
structure Holds (h h' : Heap) (bs : List Interval) (bytes : Nat) : Prop where
  freeList : FreeList h' bs
  freeBytes : h'.memlistHead.mlength = bytes
  heapLo : h'.heapLo = h.heapLo
  heapHi : h'.heapHi = h.heapHi
  heapTotal : h'.heapTotal = h.heapTotal

variable {b : Interval}

private theorem holds_unlink (inv : HeapInv h (pre ++ b :: post)) (last : LastOf pre prev)
    (front : Stored h h.memlistHead.mnext pre b.addr)
    (back : Stored h (h.mnext b.addr) post 0) (v : Nat) :
    Holds h ((h.setMnext prev (h.mnext b.addr)).setFreeBytes v) (pre ++ post) v := by
  have off : ∀ c ∈ pre, Clear c.addr post := by
    intro c hc d hd
    exact cut_clear inv.separated c hc d (List.mem_cons_of_mem b hd)
  refine ⟨?_, rfl, by simp [Heap.setFreeBytes], by simp [Heap.setFreeBytes],
    by simp [Heap.setFreeBytes]⟩
  apply seg_append.mpr
  exact ⟨h.mnext b.addr, front.setMnext _ last (pre_apart inv.separated inv.aligned),
    back.behind _ last off⟩

/-- Splitting the block `b` behind the walked prefix at `n` bytes. -/
private theorem holds_split (inv : HeapInv h (pre ++ b :: post)) (last : LastOf pre prev)
    (front : Stored h h.memlistHead.mnext pre b.addr)
    (back : Stored h (h.mnext b.addr) post 0) (small : n + 16 ≤ b.len) (v : Nat) :
    Holds h (((((h.setMnext (some (b.addr + n)) (h.mnext b.addr)).setMlength
      (b.addr + n) (b.len - n)).setMnext prev (b.addr + n))).setFreeBytes v)
      (pre ++ ⟨b.addr + n, b.len - n⟩ :: post) v := by
  have sep := inv.separated
  have gaps := (List.pairwise_append.mp sep.pairwise)
  have offPre : ∀ k, k = b.addr + n ∨ k = b.addr + n + 8 → Clear k pre := by
    intro k hk c hc
    have gap := gaps.2.2 c hc b List.mem_cons_self
    have len := (sep.bounds (List.mem_append_left (b :: post) hc)).2.1
    have dvd := (inv.aligned c (List.mem_append_left (b :: post) hc)).2
    omega
  have offPost : ∀ k, k = b.addr + n ∨ k = b.addr + n + 8 → Clear k post := by
    intro k hk c hc
    have gap := (List.pairwise_cons.mp gaps.2.1).1 c hc
    omega
  let h₂ := (h.store (b.addr + n) (h.mnext b.addr)).store (b.addr + n + 8) (b.len - n)
  have front₂ : Stored h₂ h₂.memlistHead.mnext pre b.addr :=
    (front.store _ (offPre _ (.inl rfl))).store _ (offPre _ (.inr rfl))
  have back₂ : Stored h₂ (h.mnext b.addr) post 0 :=
    (back.store _ (offPost _ (.inl rfl))).store _ (offPost _ (.inr rfl))
  have node : Stored h₂ (b.addr + n) (⟨b.addr + n, b.len - n⟩ :: post) 0 := by
    refine ⟨⟨rfl, ?_, ?_⟩, ?_⟩
    · have low := (sep.bounds (List.mem_append_right pre List.mem_cons_self)).1
      have pos := inv.lo_pos
      simp only
      omega
    · simp [h₂]
    · change Stored h₂ (h₂.mnext (b.addr + n)) post 0
      have link : h₂.mnext (b.addr + n) = h.mnext b.addr := by simp [h₂]
      rw [link]
      exact back₂
  have off : ∀ c ∈ pre, Clear c.addr (⟨b.addr + n, b.len - n⟩ :: post) := by
    intro c hc d hd
    rcases List.mem_cons.mp hd with rfl | later
    · have gap := gaps.2.2 c hc b List.mem_cons_self
      simp only
      omega
    · exact cut_clear sep c hc d (List.mem_cons_of_mem b later)
  refine ⟨?_, rfl, by simp [Heap.setFreeBytes, Heap.setMlength, Heap.store],
    by simp [Heap.setFreeBytes, Heap.setMlength, Heap.store],
    by simp [Heap.setFreeBytes, Heap.setMlength, Heap.store]⟩
  apply seg_append.mpr
  exact ⟨b.addr + n, front₂.setMnext _ last (pre_apart sep inv.aligned),
    node.behind _ last off⟩

/-- `b` is the first block that has `n` bytes. -/
structure Takes (h : Heap) (bs : List Interval) (n : Nat) (prev : Option Nat)
    (pre : List Interval) (b : Interval) (post : List Interval) : Prop where
  split : bs = pre ++ b :: post
  short : ∀ c ∈ pre, c.len < n
  long : n ≤ b.len
  last : LastOf pre prev
  front : Stored h h.memlistHead.mnext pre b.addr
  back : Stored h b.addr (b :: post) 0

/-- The heap once these bytes are taken. -/
def cut (h : Heap) (prev : Option Nat) (b : Interval) (n : Nat) : Heap :=
  if b.len = n then
    (h.setMnext prev (h.mnext b.addr)).setFreeBytes (sub64 h.memlistHead.mlength n)
  else
    (((h.setMnext (some (b.addr + n)) (h.mnext b.addr)).setMlength (b.addr + n)
      (b.len - n)).setMnext prev (b.addr + n)).setFreeBytes (sub64 h.memlistHead.mlength n)

/-- The walk of `getmem` comes to the end of the list, or takes from the first block that is
long enough. -/
theorem getmemWalk_run {fuel : Nat} (inv : HeapInv h (pre ++ post)) (dvd : 16 ∣ n)
    (pos : 0 < n) (small : n ≤ 18446744073709551584) (last : LastOf pre prev)
    (front : Stored h h.memlistHead.mnext pre curr) (back : Stored h curr post 0)
    (short : ∀ c ∈ pre, c.len < n) (budget : post.length < fuel) :
    (∀ c ∈ pre ++ post, c.len < n) ∧ getmemWalk n h fuel prev curr = some (0, h) ∨
    ∃ prev' pre' b post', Takes h (pre ++ post) n prev' pre' b post' ∧
      getmemWalk n h fuel prev curr = some (b.addr, cut h prev' b n) := by
  induction post generalizing pre prev curr fuel with
  | nil =>
    obtain rfl : curr = 0 := back
    cases fuel with
    | zero => simp at budget
    | succ fuel =>
      rw [List.append_nil]
      exact .inl ⟨short, rfl⟩
  | cons b post ih =>
    obtain ⟨⟨rfl, nonnull, len⟩, rest⟩ := back
    have member : b ∈ pre ++ b :: post := List.mem_append_right pre List.mem_cons_self
    have bounds := inv.separated.bounds member
    have hi := inv.hi_lt
    have dvdLen := (inv.aligned b member).2
    have sum : add64 n 16 = n + 16 := add64_eq (by omega)
    cases fuel with
    | zero => simp at budget
    | succ fuel =>
      unfold getmemWalk
      rw [if_neg nonnull, len, sum]
      by_cases less : b.len < n
      · rw [if_pos (by omega), if_neg (by omega)]
        have invNext : HeapInv h ((pre ++ [b]) ++ post) := by simpa using inv
        have room : post.length < fuel := by simpa using budget
        have walk := ih invNext (lastOf_snoc pre b)
          (seg_snoc.mpr ⟨b.addr, front, ⟨rfl, nonnull, len⟩, rfl⟩) rest
          (List.forall_mem_append.mpr ⟨short, List.forall_mem_singleton.mpr less⟩) room
        rwa [List.append_assoc] at walk
      · refine .inr ⟨prev, pre, b, post,
          ⟨rfl, short, Nat.not_lt.mp less, last, front, ⟨rfl, nonnull, len⟩, rest⟩, ?_⟩
        unfold cut
        by_cases fits : b.len = n
        · have keep : (h.setMnext prev (h.mnext b.addr)).mlength b.addr = b.len := by
            rcases last with ⟨rfl, rfl⟩ | ⟨before, c, rfl, rfl⟩
            · exact len
            · have gap := (List.pairwise_append.mp inv.separated.pairwise).2.2 c
                (by simp) b List.mem_cons_self
              change (h.store c.addr _).mlength b.addr = b.len
              rw [mlength_store, if_neg (by omega), len]
          rw [if_pos (by omega), if_pos (by omega), if_pos fits]
          simp only [keep, freeBytes_setMnext, fits]
        · have cut : add64 b.addr n = b.addr + n := add64_eq (by omega)
          have keep : (h.setMnext (some (b.addr + n)) (h.mnext b.addr)).mlength b.addr =
              b.len := by
            change (h.store (b.addr + n) _).mlength b.addr = b.len
            rw [mlength_store, if_neg (by omega), len]
          rw [if_neg (by omega), if_neg fits]
          simp only [cut, keep]
          rw [sub64_eq (by omega) (by omega), freeBytes_setMnext]
          rfl

theorem Takes.holds (taken : Takes h bs n prev pre b post) (inv : HeapInv h bs) (dvd : 16 ∣ n) :
    Holds h (cut h prev b n) (pre ++ remainder n b ++ post)
      (sub64 h.memlistHead.mlength n) := by
  obtain ⟨rfl, _, long, last, front, _, rest⟩ := taken
  have dvdLen := (inv.aligned b (List.mem_append_right pre List.mem_cons_self)).2
  unfold cut remainder
  split_ifs with fits
  · rw [List.append_nil]
    exact holds_unlink inv last front rest _
  · rw [List.append_assoc]
    exact holds_split inv last front rest (by omega) _

theorem HeapInv.length_lt (inv : HeapInv h bs) :
    bs.length < h.walkBudget := by
  have count := inv.separated.length_le inv.aligned
  have window := inv.separated.totalLen_le (by have := inv.lo_le; omega)
  have total := inv.total
  have low := inv.lo_le
  unfold Heap.walkBudget memAlign
  omega

theorem roundmb_dvd (n : Nat) : 16 ∣ roundmb n := ⟨_, by rw [roundmb, memAlign, Nat.mul_comm]⟩

theorem roundmb_bounds (small : n < 18446744073709551601) :
    n ≤ roundmb n ∧ roundmb n < n + 16 := by
  unfold roundmb add64 wrap64 memAlign
  omega

/-- `getmem` is first fit on the list. -/
theorem getmem_spec (inv : HeapInv h bs) (pos : 0 < n) (small : n ≤ 18446744073709551584) :
    (∀ c ∈ bs, c.len < roundmb n) ∧ getmem n h = some (0, h) ∨
    ∃ prev pre b post, Takes h bs (roundmb n) prev pre b post ∧
      getmem n h = some (b.addr, cut h prev b (roundmb n)) := by
  have bounds := roundmb_bounds (n := n) (by omega)
  have dvd := roundmb_dvd n
  have whole : HeapInv h ([] ++ bs) := inv
  unfold getmem
  rw [if_neg (by omega)]
  exact getmemWalk_run whole dvd (by omega) (by omega) lastOf_nil rfl inv.freeList
    nofun inv.length_lt

/-- The walk stopped between the blocks below `start` and the rest. -/
structure Stopped (h : Heap) (bs : List Interval) (start : Nat) (prev : Option Nat) (curr : Nat)
    (pre post : List Interval) : Prop where
  split : bs = pre ++ post
  last : LastOf pre prev
  front : Stored h h.memlistHead.mnext pre curr
  back : Stored h curr post 0
  below : ∀ b ∈ pre, b.addr < start
  above : ∀ b ∈ post.head?, start ≤ b.addr

theorem freememWalk_spec {start fuel : Nat} (last : LastOf pre prev)
    (front : Stored h h.memlistHead.mnext pre curr) (back : Stored h curr post 0)
    (below : ∀ b ∈ pre, b.addr < start) (budget : post.length < fuel) :
    ∃ pre' post' prev' curr', freememWalk h start fuel prev curr = some (prev', curr') ∧
      Stopped h (pre ++ post) start prev' curr' pre' post' := by
  induction post generalizing pre prev curr fuel with
  | nil =>
    obtain rfl : curr = 0 := back
    cases fuel with
    | zero => simp at budget
    | succ fuel =>
      exact ⟨pre, [], prev, 0, by simp [freememWalk], rfl, last, front, rfl, below, by simp⟩
  | cons b post ih =>
    obtain ⟨⟨rfl, nonnull, len⟩, rest⟩ := back
    cases fuel with
    | zero => simp at budget
    | succ fuel =>
      by_cases lower : b.addr < start
      · unfold freememWalk
        rw [if_pos ⟨nonnull, lower⟩]
        have belowNext : ∀ c ∈ pre ++ [b], c.addr < start := by
          intro c hc
          rcases List.mem_append.mp hc with early | here
          · exact below c early
          · rw [List.mem_singleton.mp here]
            exact lower
        have room : post.length < fuel := by simpa using budget
        have walk := ih (lastOf_snoc pre b)
          (seg_snoc.mpr ⟨b.addr, front, ⟨rfl, nonnull, len⟩, rfl⟩) rest belowNext room
        simpa using walk
      · refine ⟨pre, b :: post, prev, b.addr, ?_, rfl, last, front,
          ⟨⟨rfl, nonnull, len⟩, rest⟩, below, ?_⟩
        · unfold freememWalk
          rw [if_neg (fun both => lower both.2)]
        · intro c hc
          obtain rfl := Option.some.inj hc
          omega

/-- `h'` differs from `h` in stored headers and list links only. -/
structure SameRegion (h h' : Heap) : Prop where
  freeBytes : h'.memlistHead.mlength = h.memlistHead.mlength
  heapLo : h'.heapLo = h.heapLo
  heapHi : h'.heapHi = h.heapHi
  heapTotal : h'.heapTotal = h.heapTotal

theorem sameRegion_setMnext (h : Heap) (prev : Option Nat) (v : Nat) :
    SameRegion h (h.setMnext prev v) := by
  constructor <;> simp

theorem sameRegion_setMlength (h : Heap) (a v : Nat) : SameRegion h (h.setMlength a v) :=
  ⟨rfl, rfl, rfl, rfl⟩

theorem SameRegion.trans {h' h'' : Heap} (first : SameRegion h h')
    (second : SameRegion h' h'') : SameRegion h h'' :=
  ⟨second.freeBytes.trans first.freeBytes, second.heapLo.trans first.heapLo,
    second.heapHi.trans first.heapHi, second.heapTotal.trans first.heapTotal⟩

/-- The second half of `freemem`: the new block absorbs a successor it touches. -/
theorem freememAbsorb_spec {front : List Interval} {x : Interval}
    (list : FreeList h (front ++ x :: post))
    (offFront : Clear x.addr front ∧ Clear (x.addr + 8) front)
    (offPost : Clear x.addr post ∧ Clear (x.addr + 8) post)
    (fits : ∀ c ∈ post.head?, x.addr + x.len + c.len < 18446744073709551616)
    (range : x.addr + x.len < 18446744073709551616) :
    FreeList (freememAbsorb h x.addr (h.mnext x.addr)) (front ++ absorb x post) ∧
      SameRegion h (freememAbsorb h x.addr (h.mnext x.addr)) := by
  obtain ⟨q, before, ⟨rfl, nonnull, len⟩, tail⟩ := seg_append.mp list
  unfold freememAbsorb
  rw [len, add64_eq range]
  cases post with
  | nil =>
    have stop : h.mnext x.addr = 0 := tail
    rw [if_neg (fun both => both.1 stop)]
    exact ⟨list, rfl, rfl, rfl, rfl⟩
  | cons c post =>
    obtain ⟨⟨here, nonnullC, lenC⟩, rest⟩ := tail
    have here' : h.mnext x.addr = c.addr := here
    rw [here']
    by_cases touch : x.addr + x.len = c.addr
    · rw [if_pos ⟨nonnullC, touch⟩, absorb, if_pos touch]
      have sum : add64 x.len (h.mlength c.addr) = x.len + c.len := by
        rw [lenC]
        exact add64_eq (by have := fits c rfl; omega)
      have keep : (h.setMlength x.addr (x.len + c.len)).mnext c.addr = h.mnext c.addr := by
        have := (offPost.2 c List.mem_cons_self).1
        change (h.store (x.addr + 8) _).mnext c.addr = _
        rw [mnext_store, if_neg (Ne.symm this)]
      have offRest : Clear x.addr post ∧ Clear (x.addr + 8) post :=
        ⟨fun d hd => offPost.1 d (List.mem_cons_of_mem c hd),
          fun d hd => offPost.2 d (List.mem_cons_of_mem c hd)⟩
      simp only [sum, keep]
      refine ⟨?_, (sameRegion_setMlength h _ _).trans (sameRegion_setMnext _ _ _)⟩
      apply seg_append.mpr
      refine ⟨x.addr, ?_, ⟨rfl, nonnull, ?_⟩, ?_⟩
      · exact (Stored.store before _ offFront.2).store _ offFront.1
      · simp [Heap.setMlength, Heap.setMnext]
      · change Stored _ (((h.setMlength x.addr (x.len + c.len)).setMnext (some x.addr)
          (h.mnext c.addr)).mnext x.addr) post 0
        have link : ((h.setMlength x.addr (x.len + c.len)).setMnext (some x.addr)
            (h.mnext c.addr)).mnext x.addr = h.mnext c.addr := by simp [Heap.setMnext]
        rw [link]
        exact (Stored.store rest _ offRest.2).store _ offRest.1
    · rw [if_neg (fun both => touch both.2), absorb, if_neg touch]
      exact ⟨list, rfl, rfl, rfl, rfl⟩

theorem freeList_extend {front : List Interval} {v : Nat}
    (list : FreeList h (front ++ b :: post)) (offFront : Clear (b.addr + 8) front)
    (offPost : Clear (b.addr + 8) post) :
    FreeList (h.setMlength b.addr v) (front ++ ⟨b.addr, v⟩ :: post) := by
  obtain ⟨q, before, ⟨rfl, nonnull, len⟩, rest⟩ := seg_append.mp list
  apply seg_append.mpr
  refine ⟨b.addr, Stored.store before _ offFront, ⟨rfl, nonnull, ?_⟩, ?_⟩
  · simp [Heap.setMlength]
  · change Stored _ ((h.setMlength b.addr v).mnext b.addr) post 0
    have link : (h.setMlength b.addr v).mnext b.addr = h.mnext b.addr := by
      simp [Heap.setMlength]
    rw [link]
    exact Stored.store rest _ offPost

/-- The first half of `freemem` when a new header is linked in. -/
private theorem freeList_link {s : Nat} (last : LastOf pre prev)
    (front : Stored h h.memlistHead.mnext pre curr) (back : Stored h curr post 0)
    (apart : pre.Pairwise fun b c => b.addr + 8 < c.addr) (pos : s ≠ 0)
    (off : Clear s (pre ++ post) ∧ Clear (s + 8) (pre ++ post))
    (cut : ∀ b ∈ pre, Clear b.addr (⟨s, n⟩ :: post)) :
    FreeList (((h.setMnext (some s) curr).setMlength s n).setMnext prev s)
      (pre ++ ⟨s, n⟩ :: post) ∧
    (((h.setMnext (some s) curr).setMlength s n).setMnext prev s).mnext s = curr := by
  let h₂ := (h.store s curr).store (s + 8) n
  have offPre : Clear s pre ∧ Clear (s + 8) pre :=
    ⟨fun b hb => off.1 b (List.mem_append_left post hb),
      fun b hb => off.2 b (List.mem_append_left post hb)⟩
  have offPost : Clear s post ∧ Clear (s + 8) post :=
    ⟨fun b hb => off.1 b (List.mem_append_right pre hb),
      fun b hb => off.2 b (List.mem_append_right pre hb)⟩
  have front₂ : Stored h₂ h₂.memlistHead.mnext pre curr :=
    (front.store _ offPre.1).store _ offPre.2
  have link : h₂.mnext s = curr := by simp [h₂]
  have node : Stored h₂ s (⟨s, n⟩ :: post) 0 := by
    refine ⟨⟨rfl, pos, by simp [h₂]⟩, ?_⟩
    change Stored h₂ (h₂.mnext s) post 0
    rw [link]
    exact (back.store _ offPost.1).store _ offPost.2
  constructor
  · apply seg_append.mpr
    exact ⟨s, front₂.setMnext _ last apart, node.behind _ last cut⟩
  · change (h₂.setMnext prev s).mnext s = curr
    rcases last with ⟨rfl, rfl⟩ | ⟨before, b, rfl, rfl⟩
    · exact link
    · have other := (cut b (by simp) ⟨s, n⟩ List.mem_cons_self).1
      change (h₂.store b.addr s).mnext s = curr
      rw [mnext_store, if_neg (Ne.symm other), link]

private theorem outside_clear {s : Nat} (inv : HeapInv h bs) (out : Outside s n bs) (big : 16 ≤ n) :
    Clear s bs ∧ Clear (s + 8) bs := by
  have apart : ∀ b ∈ bs, 16 ≤ b.len ∧ (b.addr + b.len ≤ s ∨ s + n ≤ b.addr) := by
    intro b hb
    have len := (inv.separated.bounds hb).2.1
    have dvd := (inv.aligned b hb).2
    exact ⟨by omega, out.apart hb len (by omega)⟩
  constructor
  · intro b hb
    have := apart b hb
    omega
  · intro b hb
    have := apart b hb
    omega

section Insert

variable {h : Heap} {pre post : List Interval} {prev : Option Nat} {s n curr : Nat}

private theorem end_le_head (inv : HeapInv h (pre ++ post)) (out : Outside s n (pre ++ post))
    (big : 16 ≤ n) (above : ∀ b ∈ post.head?, s ≤ b.addr) :
    ∀ c ∈ post.head?, s + n ≤ c.addr ∧ c.addr + c.len ≤ h.heapHi := by
  intro c hc
  have member : c ∈ pre ++ post := List.mem_append_right pre (List.mem_of_mem_head? hc)
  have bounds := inv.separated.bounds member
  have apart := out.apart member bounds.2.1 (by omega)
  have le := above c hc
  omega

/-- No predecessor touches the block: a new header is linked in. -/
private theorem insert_apart (inv : HeapInv h (pre ++ post)) (out : Outside s n (pre ++ post))
    (big : 16 ≤ n) (low : h.heapLo ≤ s) (high : s + n ≤ h.heapHi) (last : LastOf pre prev)
    (front : Stored h h.memlistHead.mnext pre curr) (back : Stored h curr post 0)
    (below : ∀ b ∈ pre, b.addr < s ∧ b.addr + b.len ≠ s)
    (above : ∀ b ∈ post.head?, s ≤ b.addr) :
    let h₁ := ((h.setMnext (some s) curr).setMlength s n).setMnext prev s
    FreeList (freememAbsorb h₁ s curr) (release s n (pre ++ post)) ∧
      SameRegion h (freememAbsorb h₁ s curr) := by
  intro h₁
  have off := outside_clear inv out big
  have hi := inv.hi_lt
  have cut : ∀ b ∈ pre, Clear b.addr (⟨s, n⟩ :: post) := by
    intro b hb c hc
    rcases List.mem_cons.mp hc with rfl | later
    · have := (below b hb).1
      simp only
      omega
    · exact cut_clear inv.separated b hb c later
  obtain ⟨list, link⟩ := freeList_link (n := n) last front back
    (pre_apart inv.separated inv.aligned) (by have := inv.lo_pos; omega) off cut
  have absorbed := freememAbsorb_spec (h := h₁) list
    ⟨fun b hb => off.1 b (List.mem_append_left post hb),
      fun b hb => off.2 b (List.mem_append_left post hb)⟩
    ⟨fun b hb => off.1 b (List.mem_append_right pre hb),
      fun b hb => off.2 b (List.mem_append_right pre hb)⟩
    (fun c hc => by
      have := end_le_head inv out big above c hc
      simp only
      omega)
    (by simp only; omega)
  rw [link] at absorbed
  rw [release_append below, release_front above]
  refine ⟨absorbed.1, SameRegion.trans ?_ absorbed.2⟩
  exact ((sameRegion_setMnext h _ _).trans (sameRegion_setMlength _ _ _)).trans
    (sameRegion_setMnext _ _ _)

/-- The predecessor `b` touches the block and grows over it. -/
private theorem insert_touch {b : Interval} (inv : HeapInv h (pre ++ b :: post))
    (out : Outside s n (pre ++ b :: post)) (big : 16 ≤ n) (high : s + n ≤ h.heapHi)
    (front : Stored h h.memlistHead.mnext (pre ++ [b]) curr) (touch : b.addr + b.len = s) :
    let h₁ := h.setMlength b.addr (b.len + n)
    FreeList (freememAbsorb h₁ b.addr curr) (release s n (pre ++ b :: post)) ∧
      SameRegion h (freememAbsorb h₁ b.addr curr) := by
  intro h₁
  have sep := inv.separated
  have gaps := List.pairwise_append.mp sep.pairwise
  have hi := inv.hi_lt
  have member : b ∈ pre ++ b :: post := List.mem_append_right pre List.mem_cons_self
  have boundsB := sep.bounds member
  have dvdB := (inv.aligned b member).2
  have offPre : Clear b.addr pre ∧ Clear (b.addr + 8) pre := by
    constructor <;> intro c hc
    · have gap := gaps.2.2 c hc b List.mem_cons_self
      have len := (sep.bounds (List.mem_append_left (b :: post) hc)).2.1
      have dvd := (inv.aligned c (List.mem_append_left (b :: post) hc)).2
      omega
    · have gap := gaps.2.2 c hc b List.mem_cons_self
      omega
  have offPost : Clear b.addr post ∧ Clear (b.addr + 8) post := by
    constructor <;> intro c hc
    · have gap := (List.pairwise_cons.mp gaps.2.1).1 c hc
      omega
    · have gap := (List.pairwise_cons.mp gaps.2.1).1 c hc
      omega
  have linkB : h.mnext b.addr = curr := by
    obtain ⟨r, _, _, stop⟩ := seg_snoc.mp front
    exact stop
  have whole : FreeList h (pre ++ b :: post) := inv.freeList
  have list : FreeList h₁ (pre ++ ⟨b.addr, b.len + n⟩ :: post) :=
    freeList_extend whole offPre.2 offPost.2
  have link : h₁.mnext b.addr = curr := by
    change (h.store (b.addr + 8) _).mnext b.addr = curr
    rw [mnext_store, if_neg (by omega), linkB]
  have absorbed := freememAbsorb_spec (h := h₁) list offPre offPost
    (fun c hc => by
      have inPost := List.mem_of_mem_head? hc
      have gap := (List.pairwise_cons.mp gaps.2.1).1 c inPost
      have memberC : c ∈ pre ++ b :: post :=
        List.mem_append_right pre (List.mem_cons_of_mem b inPost)
      have bounds := sep.bounds memberC
      have apart := out.apart memberC bounds.2.1 (by omega)
      simp only
      omega)
    (by simp only; omega)
  simp only [link] at absorbed
  have below : ∀ c ∈ pre, c.addr < s ∧ c.addr + c.len ≠ s := by
    intro c hc
    have gap := gaps.2.2 c hc b List.mem_cons_self
    omega
  rw [release_append below, release, if_pos (by omega), if_pos touch]
  exact ⟨absorbed.1, (sameRegion_setMlength h _ _).trans absorbed.2⟩

/-- The insertion of `freemem` computes `release` on the stored list. -/
theorem freememInsert_spec (inv : HeapInv h (pre ++ post)) (out : Outside s n (pre ++ post))
    (big : 16 ≤ n) (low : h.heapLo ≤ s) (high : s + n ≤ h.heapHi) (last : LastOf pre prev)
    (front : Stored h h.memlistHead.mnext pre curr) (back : Stored h curr post 0)
    (below : ∀ b ∈ pre, b.addr < s) (above : ∀ b ∈ post.head?, s ≤ b.addr) :
    Holds h (freememInsert h s n prev curr) (release s n (pre ++ post))
      (add64 h.memlistHead.mlength n) := by
  have finish : ∀ h', FreeList h' (release s n (pre ++ post)) ∧ SameRegion h h' →
      Holds h (h'.setFreeBytes (add64 h'.memlistHead.mlength n)) (release s n (pre ++ post))
        (add64 h.memlistHead.mlength n) := by
    rintro h' ⟨list, same⟩
    exact ⟨list, congrArg (fun v => add64 v n) same.freeBytes, same.heapLo, same.heapHi,
      same.heapTotal⟩
  rcases last with ⟨rfl, rfl⟩ | ⟨before, b, rfl, rfl⟩
  · exact finish _ (insert_apart inv out big low high lastOf_nil front back (by simp) above)
  · obtain ⟨r, _, ⟨rfl, _, len⟩, _⟩ := seg_snoc.mp front
    have member : b ∈ before ++ [b] ++ post := by simp
    have bounds := inv.separated.bounds member
    have hi := inv.hi_lt
    have stop : prevEnd h (some b.addr) = b.addr + b.len := by
      rw [prevEnd, len, add64_eq (by omega)]
    by_cases touch : b.addr + b.len = s
    · have grown : add64 (h.mlength b.addr) n = b.len + n := by
        rw [len, add64_eq (by omega)]
      have inv' : HeapInv h (before ++ b :: post) := by simpa using inv
      have out' : Outside s n (before ++ b :: post) := by simpa using out
      have inserted := insert_touch inv' out' big high front touch
      have unfolded : freememInsert h s n (some b.addr) curr =
          (freememAbsorb (h.setMlength b.addr (b.len + n)) b.addr curr).setFreeBytes
            (add64 (freememAbsorb (h.setMlength b.addr (b.len + n)) b.addr
              curr).memlistHead.mlength n) := by
        simp only [freememInsert, freememLink, stop, touch, if_true, grown]
      rw [unfolded]
      exact finish _ (by simpa using inserted)
    · have gaps := List.pairwise_append.mp
        (List.pairwise_append.mp inv.separated.pairwise).1
      have belowAll : ∀ c ∈ before ++ [b], c.addr < s ∧ c.addr + c.len ≠ s := by
        intro c hc
        refine ⟨below c hc, ?_⟩
        rcases List.mem_append.mp hc with early | here
        · have gap := gaps.2.2 c early b (List.mem_singleton_self b)
          have lower := below b (by simp)
          omega
        · rw [List.mem_singleton.mp here]
          exact touch
      have inserted := insert_apart inv out big low high (lastOf_snoc before b) front back
        belowAll above
      have unfolded : freememInsert h s n (some b.addr) curr =
          (freememAbsorb (((h.setMnext (some s) curr).setMlength s n).setMnext (some b.addr) s)
            s curr).setFreeBytes (add64 (freememAbsorb (((h.setMnext (some s) curr).setMlength
              s n).setMnext (some b.addr) s) s curr).memlistHead.mlength n) := by
        simp only [freememInsert, freememLink, stop, touch, if_false]
      rw [unfolded]
      exact finish _ inserted

end Insert

/-- The arguments that the checks of `freemem` turn away. -/
def Refused (h : Heap) (bs : List Interval) (blk nbytes : Nat) : Prop :=
  blk = 0 ∨ nbytes = 0 ∨ blk < h.heapLo ∨ h.heapHi < add64 blk (roundmb nbytes) ∨
    ∃ b ∈ bs, b.addr < blk ∧ blk < b.addr + b.len ∨
      blk ≤ b.addr ∧ b.addr < add64 blk (roundmb nbytes)

section Walk

variable {h : Heap} {bs : List Interval} {blk nbytes : Nat}

variable {pre post : List Interval} {prev : Option Nat} {curr start : Nat}

section

variable (inv : HeapInv h bs) (stopped : Stopped h bs start prev curr pre post)

include inv stopped

theorem prevEnd_eq :
    pre = [] ∧ prev = none ∨
      ∃ before b, pre = before ++ [b] ∧ prev = some b.addr ∧ prevEnd h prev = b.addr + b.len := by
  rcases stopped.last with ⟨rfl, rfl⟩ | ⟨before, b, rfl, rfl⟩
  · exact .inl ⟨rfl, rfl⟩
  · obtain ⟨r, _, ⟨rfl, _, len⟩, _⟩ := seg_snoc.mp stopped.front
    have member : b ∈ bs := by
      rw [stopped.split]
      simp
    have bounds := inv.separated.bounds member
    have high := inv.hi_lt
    refine .inr ⟨before, b, rfl, rfl, ?_⟩
    rw [prevEnd, len, add64_eq (by omega)]

theorem post_above {b : Interval} (mem : b ∈ post) : start ≤ b.addr := by
  cases post with
  | nil => cases mem
  | cons c post =>
    have first := stopped.above c rfl
    rcases List.mem_cons.mp mem with rfl | later
    · exact first
    · have sorted := inv.separated.pairwise
      rw [stopped.split] at sorted
      have gap := (List.pairwise_cons.mp (List.pairwise_append.mp sorted).2.1).1 b later
      omega

/-- The range overlaps no free block exactly if both checks on the neighbours pass. -/
theorem overlap_iff {stop : Nat} :
    (∃ b ∈ bs, b.addr < start ∧ start < b.addr + b.len ∨ start ≤ b.addr ∧ b.addr < stop) ↔
      start < prevEnd h prev ∨ curr ≠ 0 ∧ curr < stop := by
  have sorted := inv.separated.pairwise
  rw [stopped.split] at sorted
  constructor
  · rintro ⟨b, mem, hit⟩
    rw [stopped.split] at mem
    rcases List.mem_append.mp mem with early | late
    · have low := stopped.below b early
      rcases prevEnd_eq inv stopped with ⟨rfl, _⟩ | ⟨before, c, rfl, rfl, ends⟩
      · cases early
      · rw [ends]
        rcases List.mem_append.mp early with first | last
        · have gap := (List.pairwise_append.mp (List.pairwise_append.mp sorted).1).2.2 b first c
            (List.mem_singleton_self c)
          have low' := stopped.below c (List.mem_append_right before (List.mem_singleton_self c))
          omega
        · obtain rfl := List.mem_singleton.mp last
          omega
    · have high := post_above inv stopped late
      cases post with
      | nil => cases late
      | cons c post =>
        obtain ⟨⟨rfl, nonnull, _⟩, _⟩ := stopped.back
        refine .inr ⟨nonnull, ?_⟩
        rcases List.mem_cons.mp late with rfl | later
        · omega
        · have gap := (List.pairwise_cons.mp (List.pairwise_append.mp sorted).2.1).1 b later
          omega
  · rintro (inside | ⟨nonnull, less⟩)
    · rcases prevEnd_eq inv stopped with ⟨rfl, rfl⟩ | ⟨before, c, rfl, rfl, ends⟩
      · exact absurd inside (Nat.not_lt_zero start)
      · rw [ends] at inside
        have member : c ∈ bs := by
          rw [stopped.split]
          simp
        have low := stopped.below c (List.mem_append_right before (List.mem_singleton_self c))
        exact ⟨c, member, .inl ⟨low, inside⟩⟩
    · cases post with
      | nil => exact absurd stopped.back nonnull
      | cons c post =>
        obtain ⟨⟨rfl, _, _⟩, _⟩ := stopped.back
        have member : c ∈ bs := by
          rw [stopped.split]
          simp
        exact ⟨c, member, .inr ⟨stopped.above c rfl, less⟩⟩

end

/-- The call refuses, or it inserts where the walk stopped. -/
theorem freemem_run (inv : HeapInv h bs) (blk nbytes : Nat) :
    Refused h bs blk nbytes ∧ freemem blk nbytes h = some (-1, h) ∨
    ¬ Refused h bs blk nbytes ∧ ∃ prev curr pre post, Stopped h bs blk prev curr pre post ∧
      freemem blk nbytes h = some (0, freememInsert h blk (roundmb nbytes) prev curr) := by
  unfold freemem
  by_cases zero : blk = 0 ∨ nbytes = 0
  · rw [if_pos zero]
    refine .inl ⟨?_, rfl⟩
    rcases zero with null | none
    · exact .inl null
    · exact .inr (.inl none)
  rw [if_neg zero]
  simp only
  by_cases outside : blk < h.heapLo ∨ h.heapHi < add64 blk (roundmb nbytes)
  · rw [if_pos outside]
    refine .inl ⟨?_, rfl⟩
    rcases outside with low | high
    · exact .inr (.inr (.inl low))
    · exact .inr (.inr (.inr (.inl high)))
  rw [if_neg outside]
  have noneBelow : ∀ b ∈ ([] : List Interval), b.addr < blk := nofun
  obtain ⟨pre, post, prev, curr, walk, stopped⟩ :=
    freememWalk_spec lastOf_nil rfl inv.freeList noneBelow inv.length_lt
  have overlap : (∃ b ∈ bs, b.addr < blk ∧ blk < b.addr + b.len ∨
      blk ≤ b.addr ∧ b.addr < add64 blk (roundmb nbytes)) ↔ _ := overlap_iff inv stopped
  rw [walk, Option.map_some]
  simp only
  by_cases before : blk < prevEnd h prev
  · rw [if_pos before]
    exact .inl ⟨.inr (.inr (.inr (.inr (overlap.mpr (.inl before))))), rfl⟩
  rw [if_neg before]
  by_cases behind : curr ≠ 0 ∧ curr < add64 blk (roundmb nbytes)
  · rw [if_pos behind]
    exact .inl ⟨.inr (.inr (.inr (.inr (overlap.mpr (.inr behind))))), rfl⟩
  rw [if_neg behind]
  refine .inr ⟨?_, prev, curr, pre, post, stopped, rfl⟩
  rintro (null | none | low | high | hit)
  · exact zero (.inl null)
  · exact zero (.inr none)
  · exact outside (.inl low)
  · exact outside (.inr high)
  · rcases overlap.mp hit with first | second
    · exact before first
    · exact behind second

end Walk

/-- `freemem` of a block outside the free list succeeds and refines `release`. -/
theorem freemem_spec {p : Nat} (inv : HeapInv h bs)
    (pos : 0 < n) (small : n < 9223372036854775808) (low : h.heapLo ≤ p)
    (high : p + roundmb n ≤ h.heapHi) (out : Outside p (roundmb n) bs) :
    ∃ h', freemem p n h = some (0, h') ∧
      Holds h h' (release p (roundmb n) bs) (add64 h.memlistHead.mlength (roundmb n)) := by
  have round := roundmb_bounds (n := n) (by omega)
  have big : 16 ≤ roundmb n := Nat.le_of_dvd (by omega) (roundmb_dvd n)
  have hi := inv.hi_lt
  have lo := inv.lo_pos
  have stop : add64 p (roundmb n) = p + roundmb n := add64_eq (by omega)
  rcases freemem_run inv p n with ⟨refused, _⟩ | ⟨_, prev, curr, pre, post, stopped, run⟩
  · rcases refused with null | none | below | above | ⟨b, listed, hit⟩
    · omega
    · omega
    · omega
    · omega
    · have bounds := inv.separated.bounds listed
      have apart := out.apart listed bounds.2.1 (by omega)
      omega
  · obtain ⟨rfl, last, front, back, below, above⟩ := stopped
    exact ⟨_, run, freememInsert_spec inv out big low high last front back below above⟩

end XinuRpi5.Mem.StoredFreeList
