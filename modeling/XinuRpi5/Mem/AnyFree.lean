/- source: mem/memory.c, test/host/memtest.c
   digest: What freemem does with any pointer and count, in every state that keeps its list. -/

import XinuRpi5.Mem.HeapRuns

namespace XinuRpi5.Mem.AnyFree

open Lib.FreeIntervals Lib.GuardedRuns Lib.LinkedChain
open Lib.Word64 Memory StoredFreeList HeapRuns

/-- The free list is ordered, aligned, disjoint, coalesced and inside the heap, and its
lengths add up to the free total. -/
def Intact (h : Heap) : Prop :=
  ∃ bs, FreeList h bs ∧ Separated h.heapLo h.heapHi bs ∧ Aligned 16 bs ∧
    h.memlistHead.mlength = totalLen bs

/-- The call returns; it either fails and changes nothing or leaves a sound free list. -/
def Harmless (h : Heap) (blk nbytes : Nat) : Prop :=
  ∃ r h', freemem blk nbytes h = some (r, h') ∧ (r = -1 ∧ h' = h ∨ r = 0 ∧ Intact h')

/-- The rounded count is not 0 and does not lead beyond the address space. -/
def NoWrap (blk n : Nat) : Prop := 0 < n ∧ blk + n < 18446744073709551616

/-- The arguments with which `freemem` does no harm: it refuses them, or the range is a range
and starts aligned, or a free block ends at its start and is longer than what the count takes
back. -/
def FreeOk (h : Heap) (bs : List Interval) (blk nbytes : Nat) : Prop :=
  Refused h bs blk nbytes ∨ NoWrap blk (roundmb nbytes) ∧ 16 ∣ blk ∨
    ∃ b ∈ bs, b.addr + b.len = blk ∧ sub64 0 (roundmb nbytes) < b.len

section Insertion

variable {h : Heap} {bs pre post : List Interval} {prev : Option Nat} {curr s n : Nat}

theorem freememLink_region (h : Heap) (s n : Nat) (prev : Option Nat) (curr : Nat) :
    SameRegion h (freememLink h s n prev curr).1 := by
  have linked (prev : Option Nat) :
      SameRegion h (((h.setMnext (some s) curr).setMlength s n).setMnext prev s) :=
    ((sameRegion_setMnext h _ _).trans (sameRegion_setMlength _ _ _)).trans
      (sameRegion_setMnext _ _ _)
  unfold freememLink
  cases prev with
  | none => exact linked none
  | some p =>
    simp only
    split_ifs
    · exact sameRegion_setMlength h _ _
    · exact linked (some p)

theorem freememAbsorb_region (h : Heap) (newblk curr : Nat) :
    SameRegion h (freememAbsorb h newblk curr) := by
  unfold freememAbsorb
  split_ifs
  · exact (sameRegion_setMlength h _ _).trans (sameRegion_setMnext _ _ _)
  · exact ⟨rfl, rfl, rfl, rfl⟩

theorem freememInsert_window (h : Heap) (s n : Nat) (prev : Option Nat) (curr : Nat) :
    (freememInsert h s n prev curr).heapLo = h.heapLo ∧
      (freememInsert h s n prev curr).heapHi = h.heapHi ∧
      (freememInsert h s n prev curr).heapTotal = h.heapTotal := by
  have same := (freememLink_region h s n prev curr).trans
    (freememAbsorb_region _ (freememLink h s n prev curr).2 curr)
  exact ⟨same.heapLo, same.heapHi, same.heapTotal⟩

theorem start_aligned (al : Aligned 16 bs) (out : Outside s n bs) (pos : 0 < n)
    (kept : Aligned 16 (release s n bs)) : 16 ∣ s := by
  have start : Covers (release s n bs) s :=
    (release_covers s n bs s).mpr (.inr ⟨Nat.le_refl s, by omega⟩)
  obtain ⟨c, mem, low, high⟩ := start
  have ends := kept c mem
  by_contra odd
  have before : Covers (release s n bs) (s - 1) := ⟨c, mem, by omega, by omega⟩
  rcases (release_covers s n bs (s - 1)).mp before with ⟨b, free, lowB, highB⟩ | ⟨_, _⟩
  · have endsB := al b free
    exact out s ⟨b, free, by omega, by omega⟩ ⟨Nat.le_refl s, by omega⟩
  · omega

theorem insert_range (inv : HeapInv h bs) (stopped : Stopped h bs s prev curr pre post)
    (pos : 0 < n) (dvd : 16 ∣ n) (low : h.heapLo ≤ s) (high : s + n ≤ h.heapHi)
    (out : Outside s n bs) : Intact (freememInsert h s n prev curr) ↔ 16 ∣ s := by
  have sep := release_separated inv.separated out pos low high
  have whole := sep.totalLen_le (by omega)
  rw [release_totalLen] at whole
  have lo := inv.lo_pos
  have hi := inv.hi_lt
  have big : 16 ≤ n := Nat.le_of_dvd pos dvd
  obtain ⟨rfl, last, front, back, below, above⟩ := stopped
  have holds := freememInsert_spec inv out big low high last front back below above
  constructor
  · rintro ⟨cs, list, _, al, _⟩
    obtain rfl := FreeList.unique list holds.freeList
    exact start_aligned inv.aligned out pos al
  · intro aligned
    have nonempty : (release s n (pre ++ post)).length ≠ 0 := by
      intro empty
      have total := release_totalLen s n (pre ++ post)
      rw [List.length_eq_zero_iff.mp empty, totalLen_nil] at total
      omega
    refine ⟨_, holds.freeList, ?_, release_aligned inv.aligned aligned dvd, ?_⟩
    · rw [holds.heapLo, holds.heapHi]
      exact sep
    · rw [holds.freeBytes, inv.freeBytes, release_totalLen]
      exact add64_eq (by omega)

section

variable (size : n < 18446744073709551616) (wraps : ¬ NoWrap s n)

include size wraps

theorem wrapped_stop (small : s < 18446744073709551616) : add64 s n + sub64 0 n = s := by
  unfold NoWrap at wraps
  unfold add64 sub64 wrap64
  omega

section

variable {b : Interval} (inv : HeapInv h (pre ++ b :: post))
  (front : Stored h h.memlistHead.mnext (pre ++ [b]) curr) (back : Stored h curr post 0)
  (touch : b.addr + b.len = s)

include inv front back touch

/-- A block that ends at the start gets the wrapped sum as its length. -/
theorem insert_touching :
    FreeList (freememInsert h s n (some b.addr) curr)
        (pre ++ ⟨b.addr, add64 b.len n⟩ :: post) ∧
      freememInsert h s n (some b.addr) curr =
        (h.setMlength b.addr (add64 b.len n)).setFreeBytes (add64 h.memlistHead.mlength n) := by
  obtain ⟨r, _, ⟨rfl, _, len⟩, _⟩ := seg_snoc.mp front
  have member : b ∈ pre ++ b :: post := List.mem_append_right pre List.mem_cons_self
  have bounds := inv.separated.bounds member
  have granules := (inv.aligned b member).2
  have hi := inv.hi_lt
  have gaps := List.pairwise_append.mp inv.separated.pairwise
  have ends : prevEnd h (some b.addr) = s := by
    rw [prevEnd, len, add64_eq (by omega), touch]
  have apart : ¬ (curr ≠ 0 ∧ add64 b.addr (add64 b.len n) = curr) := by
    rintro ⟨nonnull, reaches⟩
    cases post with
    | nil => exact nonnull back
    | cons c post =>
      obtain ⟨⟨rfl, _, _⟩, _⟩ := back
      have gap := (List.pairwise_cons.mp gaps.2.1).1 c List.mem_cons_self
      have stop := wrapped_stop size wraps (by omega)
      have sum : add64 b.addr (add64 b.len n) = add64 s n := by
        unfold add64 wrap64
        omega
      omega
  have offPre : Clear (b.addr + 8) pre := by
    intro c mem
    have gap := gaps.2.2 c mem b List.mem_cons_self
    omega
  have offPost : Clear (b.addr + 8) post := by
    intro c mem
    have gap := (List.pairwise_cons.mp gaps.2.1).1 c mem
    omega
  have list : FreeList (h.setMlength b.addr (add64 b.len n))
      (pre ++ ⟨b.addr, add64 b.len n⟩ :: post) := freeList_extend inv.freeList offPre offPost
  have length : (h.setMlength b.addr (add64 b.len n)).mlength b.addr = add64 b.len n := by
    simp [Heap.setMlength]
  have result : freememInsert h s n (some b.addr) curr =
      (h.setMlength b.addr (add64 b.len n)).setFreeBytes (add64 h.memlistHead.mlength n) := by
    simp only [freememInsert, freememLink, ends, if_true, len, freememAbsorb, length,
      if_neg apart]
    rfl
  rw [result]
  exact ⟨list, rfl⟩

/-- The grown block is one exactly if it is longer than what the count takes back. -/
theorem intact_touching (dvd : 16 ∣ n) :
    Intact (freememInsert h s n (some b.addr) curr) ↔ sub64 0 n < b.len := by
  obtain ⟨list, result⟩ := insert_touching size wraps inv front back touch
  have member : b ∈ pre ++ b :: post := List.mem_append_right pre List.mem_cons_self
  have bounds := inv.separated.bounds member
  have granules := (inv.aligned b member)
  have hi := inv.hi_lt
  have window := inv.separated.totalLen_le (by have := inv.lo_le; omega)
  have total : totalLen (pre ++ b :: post) = totalLen pre + (b.len + totalLen post) := by
    simp [totalLen]
  constructor
  · rintro ⟨cs, read, sep, _, _⟩
    obtain rfl := FreeList.unique read list
    have grown := sep.bounds (List.mem_append_right pre List.mem_cons_self)
    rw [(freememInsert_window h s n _ curr).2.1] at grown
    simp only at grown
    unfold NoWrap at wraps
    unfold sub64 wrap64
    unfold add64 wrap64 at grown
    omega
  · intro longer
    have length : add64 b.len n = b.len - sub64 0 n := by
      unfold sub64 wrap64 at longer ⊢
      unfold add64 wrap64
      omega
    have back' : 16 ∣ sub64 0 n := by
      unfold sub64 wrap64
      omega
    refine ⟨_, list, ?_, ?_, ?_⟩
    · obtain ⟨lowEnd, highEnd, _⟩ := freememInsert_window h s n (some b.addr) curr
      rw [lowEnd, highEnd]
      exact inv.separated.shrink (by omega) (by omega)
    · intro c mem
      rcases List.mem_append.mp mem with early | late
      · exact inv.aligned c (List.mem_append_left _ early)
      · rcases List.mem_cons.mp late with rfl | later
        · exact ⟨granules.1, by simp only; omega⟩
        · exact inv.aligned c (List.mem_append_right pre (List.mem_cons_of_mem b later))
    · have free : totalLen (pre ++ ⟨b.addr, add64 b.len n⟩ :: post) =
          totalLen pre + (add64 b.len n + totalLen post) := by simp [totalLen]
      rw [free, result]
      show add64 h.memlistHead.mlength n = _
      have some : (pre ++ b :: post).length ≠ 0 := by simp
      rw [total] at window
      rw [inv.freeBytes, total, length]
      unfold sub64 wrap64 at longer ⊢
      unfold add64 wrap64
      omega

end

/-- Otherwise a block of the count's own length is linked in at the start. -/
theorem insert_linked (inv : HeapInv h bs) (stopped : Stopped h bs s prev curr pre post)
    (pos : 0 < s) (small : s < 18446744073709551616) (free : ∀ b ∈ pre, b.addr + b.len < s)
    {cs : List Interval} (read : FreeList (freememInsert h s n prev curr) cs) : ⟨s, n⟩ ∈ cs := by
  let h₁ := ((h.setMnext (some s) curr).setMlength s n).setMnext prev s
  have linked : freememLink h s n prev curr = (h₁, s) := by
    rcases prevEnd_eq inv stopped with ⟨_, rfl⟩ | ⟨before, b, rfl, rfl, ends⟩
    · rfl
    · have gap := free b (List.mem_append_right before (List.mem_singleton_self b))
      rw [freememLink, ends, if_neg (by omega)]
  have apart : pre.Pairwise fun b c => b.addr + 8 < c.addr :=
    pre_apart (stopped.split ▸ inv.separated) (stopped.split ▸ inv.aligned)
  have off : Clear s pre ∧ Clear (s + 8) pre := by
    constructor
    · intro b mem
      have member : b ∈ bs := stopped.split ▸ List.mem_append_left post mem
      have gap := free b mem
      have granules := (inv.aligned b member).2
      have some := (inv.separated.bounds member).2.1
      omega
    · intro b mem
      have gap := free b mem
      omega
  have front : Stored h₁ h₁.memlistHead.mnext pre s :=
    Stored.setMnext s ((stopped.front.store curr off.1).store n off.2) stopped.last apart
  have length : h₁.mlength s = n := by
    rcases prevEnd_eq inv stopped with ⟨_, rfl⟩ | ⟨before, b, rfl, rfl, _⟩
    · simp [h₁, Heap.setMnext, Heap.setMlength, Heap.store, Heap.mlength]
    · have gap := free b (List.mem_append_right before (List.mem_singleton_self b))
      have other : s + 8 ≠ b.addr := by omega
      simp [h₁, Heap.setMnext, Heap.setMlength, other]
  have final : Stored (freememAbsorb h₁ s curr) (freememAbsorb h₁ s curr).memlistHead.mnext pre s ∧
      (freememAbsorb h₁ s curr).mlength s = n := by
    unfold freememAbsorb
    split_ifs with reaches
    · have high : s ≤ curr := by
        cases post with
        | nil => exact absurd stopped.back reaches.1
        | cons c post =>
          obtain ⟨⟨rfl, _, _⟩, _⟩ := stopped.back
          exact stopped.above c rfl
      rw [length] at reaches ⊢
      have stop := wrapped_stop size wraps small
      have same : curr = s := by omega
      have none : n = 0 := by
        unfold sub64 wrap64 at stop
        omega
      subst same none
      refine ⟨(front.store _ off.2).store _ off.1, ?_⟩
      simp [Heap.setMnext, Heap.setMlength, length, add64, wrap64]
    · exact ⟨front, length⟩
  have result : freememInsert h s n prev curr = (freememAbsorb h₁ s curr).setFreeBytes
      (add64 (freememAbsorb h₁ s curr).memlistHead.mlength n) := by
    unfold freememInsert
    rw [linked]
  rw [result] at read
  obtain ⟨ys, rfl, rest⟩ := Seg.rest (isBlock_functional _) final.1 read
  cases ys with
  | nil => exact absurd rest (by show s ≠ 0; omega)
  | cons y ys =>
    obtain ⟨⟨here, _, len⟩, _⟩ := rest
    rw [← here] at len
    have block : (⟨s, n⟩ : Interval) = y := Interval.ext here (final.2.symm.trans len)
    rw [block]
    exact List.mem_append_right pre List.mem_cons_self

end

end Insertion

section Calls

variable {h : Heap} {bs : List Interval} {blk nbytes : Nat}

theorem roundmb_lt (nbytes : Nat) : roundmb nbytes < 18446744073709551616 := by
  unfold roundmb add64 wrap64 memAlign
  omega

theorem freeOk_accepted (free : ¬ Refused h bs blk nbytes) :
    FreeOk h bs blk nbytes ↔ NoWrap blk (roundmb nbytes) ∧ 16 ∣ blk ∨
      ∃ b ∈ bs, b.addr + b.len = blk ∧ sub64 0 (roundmb nbytes) < b.len :=
  or_iff_right free

theorem freemem_harmless (inv : HeapInv h bs) (word : blk < 18446744073709551616) :
    Harmless h blk nbytes ↔ FreeOk h bs blk nbytes := by
  have dvd := roundmb_dvd nbytes
  have size := roundmb_lt nbytes
  have lo := inv.lo_pos
  rcases freemem_run inv blk nbytes with
    ⟨refused, run⟩ | ⟨free, prev, curr, pre, post, stopped, run⟩
  · exact ⟨fun _ => .inl refused, fun _ => ⟨-1, h, run, .inl ⟨rfl, rfl⟩⟩⟩
  have intact : Harmless h blk nbytes ↔
      Intact (freememInsert h blk (roundmb nbytes) prev curr) := by
    constructor
    · rintro ⟨r, h', result, ⟨rfl, _⟩ | ⟨rfl, kept⟩⟩
      · cases run.symm.trans result
      · obtain ⟨_, rfl⟩ := Prod.mk.inj (Option.some.inj (run.symm.trans result))
        exact kept
    · intro kept
      exact ⟨0, _, run, .inr ⟨rfl, kept⟩⟩
  rw [intact, freeOk_accepted free]
  have low : h.heapLo ≤ blk := by
    by_contra below
    exact free (.inr (.inr (.inl (Nat.not_le.mp below))))
  have high : add64 blk (roundmb nbytes) ≤ h.heapHi := by
    by_contra above
    exact free (.inr (.inr (.inr (.inl (Nat.not_le.mp above)))))
  have apart : ∀ b ∈ bs, ¬ (b.addr < blk ∧ blk < b.addr + b.len ∨
      blk ≤ b.addr ∧ b.addr < add64 blk (roundmb nbytes)) := fun b mem hit =>
    free (.inr (.inr (.inr (.inr ⟨b, mem, hit⟩))))
  by_cases range : NoWrap blk (roundmb nbytes)
  · have stop : add64 blk (roundmb nbytes) = blk + roundmb nbytes := add64_eq range.2
    rw [stop] at high apart
    have out : Outside blk (roundmb nbytes) bs := by
      rintro x ⟨b, mem, lowB, highB⟩ ⟨lowX, highX⟩
      have hit := apart b mem
      omega
    rw [insert_range inv stopped range.1 dvd low high out]
    constructor
    · intro aligned
      exact .inl ⟨range, aligned⟩
    · rintro (⟨_, aligned⟩ | ⟨b, mem, touch, longer⟩)
      · exact aligned
      · have granules := inv.aligned b mem
        omega
  · by_cases touching : ∃ before b, pre = before ++ [b] ∧ b.addr + b.len = blk
    · obtain ⟨before, b, rfl, touch⟩ := touching
      obtain ⟨split, last, front, back, below, _⟩ := stopped
      have cut : bs = before ++ b :: post := by rw [split, List.append_assoc]; rfl
      subst cut
      have here : prev = some b.addr := by
        rcases last with ⟨empty, _⟩ | ⟨before', c, same, rfl⟩
        · exact absurd empty (by simp)
        · obtain ⟨_, block⟩ := List.append_inj' same rfl
          rw [List.singleton_inj.mp block]
      subst here
      rw [intact_touching size range inv front back touch dvd]
      constructor
      · intro longer
        exact .inr ⟨b, List.mem_append_right before List.mem_cons_self, touch, longer⟩
      · rintro (⟨ranged, _⟩ | ⟨c, mem, touch', longer⟩)
        · exact absurd ranged range
        · have same : c.addr + c.len = b.addr + b.len := touch'.trans touch.symm
          have sorted := List.pairwise_append.mp inv.separated.pairwise
          rcases List.mem_append.mp mem with early | late
          · have gap := sorted.2.2 c early b List.mem_cons_self
            omega
          · rcases List.mem_cons.mp late with rfl | later
            · exact longer
            · have gap := (List.pairwise_cons.mp sorted.2.1).1 c later
              omega
    · have ended : ∀ b ∈ pre, b.addr + b.len < blk := by
        intro b mem
        have member : b ∈ bs := stopped.split ▸ List.mem_append_left post mem
        have below := stopped.below b mem
        have miss := apart b member
        have other : b.addr + b.len ≠ blk := by
          intro touch
          rcases prevEnd_eq inv stopped with ⟨rfl, _⟩ | ⟨before, c, rfl, _, _⟩
          · cases mem
          · have sorted := inv.separated.pairwise
            rw [stopped.split] at sorted
            rcases List.mem_append.mp mem with early | last
            · have gap := (List.pairwise_append.mp (List.pairwise_append.mp sorted).1).2.2 b early
                c (List.mem_singleton_self c)
              have low' := stopped.below c
                (List.mem_append_right before (List.mem_singleton_self c))
              omega
            · obtain rfl := List.mem_singleton.mp last
              exact touching ⟨before, b, rfl, touch⟩
        omega
      constructor
      · rintro ⟨cs, read, sep, _, _⟩
        have linked := insert_linked size range inv stopped (by omega) word ended read
        have bounds := sep.bounds linked
        rw [(freememInsert_window h blk _ prev curr).2.1] at bounds
        have hi := inv.hi_lt
        unfold NoWrap at range
        simp only at bounds
        omega
      · rintro (⟨ranged, _⟩ | ⟨c, mem, touch, _⟩)
        · exact absurd ranged range
        · have split := stopped.split ▸ mem
          rcases List.mem_append.mp split with early | late
          · have gap := ended c early
            omega
          · have above := post_above inv stopped late
            have some := (inv.separated.bounds mem).2.1
            omega

end Calls

end XinuRpi5.Mem.AnyFree
