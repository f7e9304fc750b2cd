/- source: mem/memory.c
   digest: The words that getmem and freemem write, and what they can hold afterwards. -/

import XinuRpi5.Mem.StoredFreeList

namespace XinuRpi5.Mem.HeapWrites

open Lib.FreeIntervals Lib.LinkedChain Lib.Word64
open Memory StoredFreeList

section Changes

def Only (S : Nat → Nat → Prop) (h h' : Heap) : Prop :=
  ∀ x, h'.mem x = h.mem x ∨ S x (h'.mem x)

variable {S : Nat → Nat → Prop} {h h' h'' : Heap}

theorem Only.refl (h : Heap) : Only S h h := fun _ => .inl rfl

theorem Only.trans (first : Only S h h') (second : Only S h' h'') : Only S h h'' := by
  intro x
  rcases second x with same | written
  · rw [same]
    exact first x
  · exact .inr written

variable (only : Only S h h')

include only

theorem Only.store {a v : Nat} (allowed : S a v) :
    Only S h (h'.store a v) := by
  refine only.trans fun x => ?_
  by_cases here : x = a
  · have written : (h'.store a v).mem x = v := by simp [Heap.store, here]
    rw [written, here]
    exact .inr allowed
  · exact .inl (by simp [Heap.store, here])

theorem Only.setFreeBytes {v : Nat} : Only S h (h'.setFreeBytes v) := only

theorem Only.setMlength {a v : Nat} (allowed : S (a + 8) v) :
    Only S h (h'.setMlength a v) := only.store allowed

theorem Only.setMnext {prev : Option Nat} {v : Nat} (allowed : ∀ p, prev = some p → S p v) :
    Only S h (h'.setMnext prev v) := by
  cases prev with
  | none => exact only
  | some p => exact only.store (allowed p rfl)

end Changes

/-- A link on the granule, or a length that is a multiple of it, inside the zone. -/
def Header (zone : Nat → Prop) (x v : Nat) : Prop := zone x ∧ (16 ∣ x ∨ 16 ∣ v)

theorem Only.outside {zone : Nat → Prop} {h h' : Heap} (only : Only (Header zone) h h') {x : Nat}
    (off : ¬ zone x) : h'.mem x = h.mem x :=
  (only x).resolve_right fun written => off written.1

section Words

variable {h : Heap} {bs pre post : List Interval} {n fuel curr : Nat} {prev : Option Nat}
variable {b : Interval}

theorem header_covers (listed : b ∈ bs) (positive : 16 ≤ b.len) :
    Covers bs b.addr ∧ Covers bs (b.addr + 8) :=
  ⟨⟨b, listed, by omega, by omega⟩, ⟨b, listed, by omega, by omega⟩⟩

theorem long_of_mem (inv : HeapInv h bs) (listed : b ∈ bs) : 16 ≤ b.len := by
  have positive := (inv.separated.bounds listed).2.1
  have granules := (inv.aligned b listed).2
  omega

theorem lastOf_mem {p : Nat} (last : LastOf pre prev) (is : prev = some p) :
    ∃ b ∈ pre, p = b.addr := by
  rcases last with ⟨_, rfl⟩ | ⟨front, b, rfl, rfl⟩
  · cases is
  · obtain rfl := Option.some.inj is
    exact ⟨b, List.mem_append_right front (List.mem_singleton_self b), rfl⟩

/-- Taking a block writes headers of the list and of the remainder. -/
theorem takes_only (taken : Takes h bs n prev pre b post) (inv : HeapInv h bs) (dvd : 16 ∣ n) :
    Only (Header (Covers bs)) h (cut h prev b n) := by
  obtain ⟨rfl, _, long, last, _, _, _⟩ := taken
  have member : b ∈ pre ++ b :: post := List.mem_append_right pre List.mem_cons_self
  have granules := inv.aligned b member
  have link : ∀ q v, prev = some q → Header (Covers (pre ++ b :: post)) q v := by
    intro q v is
    obtain ⟨c, listed, rfl⟩ := lastOf_mem last is
    have there : c ∈ pre ++ b :: post := List.mem_append_left _ listed
    exact ⟨(header_covers there (long_of_mem inv there)).1, .inl (inv.aligned c there).1⟩
  unfold cut
  split_ifs with whole
  · exact ((Only.refl h).setMnext fun q is => link q _ is).setFreeBytes
  · have inside : ∀ k, k < b.len → Covers (pre ++ b :: post) (b.addr + k) :=
      fun k less => ⟨b, member, by omega, by omega⟩
    have first : Header (Covers (pre ++ b :: post)) (b.addr + n) (h.mnext b.addr) :=
      ⟨inside n (by omega), .inl (by omega)⟩
    have second : Header (Covers (pre ++ b :: post)) (b.addr + n + 8) (b.len - n) :=
      ⟨inside (n + 8) (by omega), .inr (by omega)⟩
    refine Only.setFreeBytes (Only.setMnext ?_ fun q is => link q _ is)
    refine Only.setMlength (Only.setMnext (Only.refl h) ?_) second
    rintro q ⟨rfl⟩
    exact first

theorem getmem_only {p : Nat} {h' : Heap} (inv : HeapInv h bs) (small : n ≤ 18446744073709551584)
    (run : getmem n h = some (p, h')) : Only (Header (Covers bs)) h h' := by
  rcases Nat.eq_zero_or_pos n with rfl | pos
  · obtain ⟨_, rfl⟩ := Prod.mk.inj (Option.some.inj run)
    exact Only.refl h
  rcases getmem_spec inv pos small with ⟨_, same⟩ | ⟨prev, pre, b, post, taken, run'⟩
  · obtain ⟨_, rfl⟩ := Prod.mk.inj (Option.some.inj (same.symm.trans run))
    exact Only.refl h
  · obtain ⟨_, rfl⟩ := Prod.mk.inj (Option.some.inj (run'.symm.trans run))
    exact takes_only taken inv (roundmb_dvd n)

end Words

section Freeing

variable {h : Heap} {bs pre post : List Interval} {s n curr : Nat} {prev : Option Nat}

def Freed (bs : List Interval) (s n x : Nat) : Prop := Covers bs x ∨ s ≤ x ∧ x < s + n

theorem Only.granular {zone : Nat → Prop} {h h' : Heap} (only : Only (Header zone) h h') {x : Nat}
    (off : ¬ 16 ∣ x) (was : 16 ∣ h.mem x) : 16 ∣ h'.mem x := by
  rcases only x with same | ⟨_, here | value⟩
  · rwa [same]
  · exact absurd here off
  · exact value

theorem freememAbsorb_only {zone : Nat → Prop} {h' : Heap} {x : Nat}
    (only : Only (Header zone) h h') (zoneX : zone x ∧ zone (x + 8)) (dvd : 16 ∣ x)
    (len : 16 ∣ h'.mlength x) (lenC : curr ≠ 0 → 16 ∣ h'.mlength curr) :
    Only (Header zone) h (freememAbsorb h' x curr) := by
  unfold freememAbsorb
  split_ifs with grows
  · have sum : 16 ∣ add64 (h'.mlength x) (h'.mlength curr) := by
      have other := lenC grows.1
      unfold add64 wrap64
      omega
    refine Only.setMnext (Only.setMlength only ⟨zoneX.2, .inr sum⟩) ?_
    rintro q ⟨rfl⟩
    exact ⟨zoneX.1, .inl dvd⟩
  · exact only

/-- What `freemem` writes when the walk stands between `prev` and `curr`. -/
theorem freememInsert_only (inv : HeapInv h (pre ++ post)) (big : 16 ≤ n) (dvdS : 16 ∣ s)
    (dvdN : 16 ∣ n) (last : LastOf pre prev) (front : Stored h h.memlistHead.mnext pre curr)
    (back : Stored h curr post 0) :
    Only (Header (Freed (pre ++ post) s n)) h (freememInsert h s n prev curr) := by
  have zoneS : Freed (pre ++ post) s n s ∧ Freed (pre ++ post) s n (s + 8) :=
    ⟨.inr (by omega), .inr (by omega)⟩
  have lenC : ∀ h', Only (Header (Freed (pre ++ post) s n)) h h' → curr ≠ 0 →
      16 ∣ h'.mlength curr := by
    intro h' only nonnull
    cases post with
    | nil => exact absurd back nonnull
    | cons c post =>
      obtain ⟨⟨rfl, _, len⟩, _⟩ := back
      have granules := inv.aligned c (List.mem_append_right pre List.mem_cons_self)
      refine only.granular (by omega) ?_
      change 16 ∣ h.mlength c.addr
      rw [len]
      exact granules.2
  have linked : ∀ v, Only (Header (Freed (pre ++ post) s n)) h
      (((h.setMnext (some s) curr).setMlength s n).setMnext prev v) := by
    intro v
    refine Only.setMnext (Only.setMlength (Only.setMnext (Only.refl h) ?_) ⟨zoneS.2, .inr dvdN⟩) ?_
    · rintro q ⟨rfl⟩
      exact ⟨zoneS.1, .inl dvdS⟩
    · intro q is
      obtain ⟨c, listed, rfl⟩ := lastOf_mem last is
      have there : c ∈ pre ++ post := List.mem_append_left _ listed
      exact ⟨.inl (header_covers there (long_of_mem inv there)).1, .inl (inv.aligned c there).1⟩
  have lenS : ∀ v, 16 ∣ (((h.setMnext (some s) curr).setMlength s n).setMnext prev v).mlength s := by
    intro v
    have second : ((h.setMnext (some s) curr).setMlength s n).mlength s = n := by
      simp [Heap.setMlength]
    rcases last with ⟨_, rfl⟩ | ⟨before, b, rfl, rfl⟩
    · change 16 ∣ ((h.setMnext (some s) curr).setMlength s n).mlength s
      rw [second]
      exact dvdN
    · have granules := inv.aligned b (by simp)
      change 16 ∣ (((h.setMnext (some s) curr).setMlength s n).store b.addr v).mlength s
      rw [mlength_store, if_neg (by omega), second]
      exact dvdN
  unfold freememInsert
  refine Only.setFreeBytes ?_
  rcases last with ⟨rfl, rfl⟩ | ⟨before, b, rfl, rfl⟩
  · exact freememAbsorb_only (linked s) zoneS dvdS (lenS s) (lenC _ (linked s))
  · obtain ⟨_, _, ⟨rfl, _, stored⟩, _⟩ := seg_snoc.mp front
    have there : b ∈ before ++ [b] ++ post := by simp
    have granules := inv.aligned b there
    have zoneB := header_covers there (long_of_mem inv there)
    by_cases touch : prevEnd h (some b.addr) = s
    · simp only [touch, if_true]
      have len : 16 ∣ add64 (h.mlength b.addr) n := by
        rw [stored]
        unfold add64 wrap64
        omega
      have grown : Only (Header (Freed (before ++ [b] ++ post) s n)) h
          (h.setMlength b.addr (add64 (h.mlength b.addr) n)) :=
        Only.setMlength (Only.refl h) ⟨.inl zoneB.2, .inr len⟩
      have lenB : 16 ∣ (h.setMlength b.addr (add64 (h.mlength b.addr) n)).mlength b.addr := by
        simpa [Heap.setMlength] using len
      exact freememAbsorb_only grown ⟨.inl zoneB.1, .inl zoneB.2⟩ granules.1 lenB
        (lenC _ grown)
    · simp only [touch, if_false]
      exact freememAbsorb_only (linked s) zoneS dvdS (lenS s) (lenC _ (linked s))

theorem freemem_only {r : Int} {h' : Heap} (inv : HeapInv h bs) (pos : 0 < n)
    (small : n < 9223372036854775808) (dvd : 16 ∣ s) (run : freemem s n h = some (r, h')) :
    Only (Header (Freed bs s (roundmb n))) h h' := by
  have round := roundmb_bounds (n := n) (by omega)
  have granules := roundmb_dvd n
  rcases freemem_run inv s n with ⟨_, refuses⟩ | ⟨_, prev, curr, pre, post, stopped, inserts⟩
  · obtain ⟨_, rfl⟩ := Prod.mk.inj (Option.some.inj (refuses.symm.trans run))
    exact Only.refl h
  · obtain ⟨_, rfl⟩ := Prod.mk.inj (Option.some.inj (inserts.symm.trans run))
    obtain ⟨rfl, last, front, back, _, _⟩ := stopped
    exact freememInsert_only inv (by omega) dvd granules last front back

end Freeing

end XinuRpi5.Mem.HeapWrites
