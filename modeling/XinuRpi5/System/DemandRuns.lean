/- source: system/mmu.c
   digest: The demand window over any sequence of faults: which page has which frame. -/

import Mathlib.Data.List.Nodup
import Mathlib.Data.List.Perm.Basic
import Mathlib.Tactic.NormNum
import XinuRpi5.Lib.GuardedRuns
import XinuRpi5.System.DemandPaging

namespace XinuRpi5.System.DemandRuns

open Lib.GuardedRuns Lib.Word64 DemandPaging

section Descriptors

theorem mask_bits : ∀ i, i < 64 →
    (0xFFFFFFFFF000 : Word).getLsbD i = (decide (12 ≤ i) && decide (i < 48)) ∧
      (0xFFF : Word).getLsbD i = decide (i < 12) := by decide

variable {a : Nat} {w : Word}

theorem or_and (x y z : Word) : (x ||| y) &&& z = (x &&& z) ||| (y &&& z) := by
  ext i inside
  simp only [BitVec.getElem_and, BitVec.getElem_or, Bool.and_or_distrib_right]

variable (aligned : page ∣ a) (low : a < 2 ^ 48)

include aligned low

theorem aligned_bits (i : Nat) :
    (BitVec.ofNat 64 a).getLsbD i = true → 12 ≤ i ∧ i < 48 := by
  intro set
  rw [BitVec.getLsbD_ofNat] at set
  obtain ⟨_, bit⟩ := Bool.and_eq_true_iff.mp set
  obtain ⟨q, rfl⟩ := aligned
  constructor
  · have shifted : page = 2 ^ 12 := rfl
    rw [shifted, Nat.testBit_two_pow_mul] at bit
    exact of_decide_eq_true (Bool.and_eq_true_iff.mp bit).1
  · by_contra high
    have power : 2 ^ 48 ≤ 2 ^ i := Nat.pow_le_pow_right (by decide) (by omega)
    have bound : page * q < 2 ^ i := Nat.lt_of_lt_of_le low power
    rw [Nat.testBit_lt_two_pow bound] at bit
    cases bit

theorem field_keeps :
    BitVec.ofNat 64 a &&& 0xFFFFFFFFF000 = BitVec.ofNat 64 a := by
  refine BitVec.eq_of_getLsbD_eq fun i inside => ?_
  rw [BitVec.getLsbD_and, (mask_bits i inside).1]
  cases set : (BitVec.ofNat 64 a).getLsbD i with
  | false => rfl
  | true =>
    obtain ⟨above, below⟩ := aligned_bits aligned low i set
    simp [above, below]

theorem low_clear : BitVec.ofNat 64 a &&& 0xFFF = 0 := by
  refine BitVec.eq_of_getLsbD_eq fun i inside => ?_
  rw [BitVec.getLsbD_and, (mask_bits i inside).2]
  cases set : (BitVec.ofNat 64 a).getLsbD i with
  | false => simp
  | true =>
    obtain ⟨above, _⟩ := aligned_bits aligned low i set
    have other : ¬ i < 12 := by omega
    simp [other]

theorem outAddr_desc (attrs : w &&& 0xFFFFFFFFF000 = 0) :
    outAddr (BitVec.ofNat 64 a ||| w) = a := by
  have both : (BitVec.ofNat 64 a ||| w) &&& 0xFFFFFFFFF000 = BitVec.ofNat 64 a := by
    rw [or_and, field_keeps aligned low, attrs]
    exact BitVec.or_zero
  unfold outAddr
  rw [both, BitVec.toNat_ofNat]
  omega

theorem attrs_desc {v : Word} (small : 0xFFF &&& v = v) :
    (BitVec.ofNat 64 a ||| w) &&& v = w &&& v := by
  have none : BitVec.ofNat 64 a &&& v = 0 := by
    rw [← small, ← BitVec.and_assoc, low_clear aligned low]
    exact BitVec.zero_and
  rw [or_and, none]
  exact BitVec.zero_or

theorem pageDesc_eq :
    pageDesc a = BitVec.ofNat 64 a ||| 0x407 := by
  have kept : BitVec.ofNat 64 a &&& ~~~(0xFFF : Word) = BitVec.ofNat 64 a := by
    refine BitVec.eq_of_getLsbD_eq fun i inside => ?_
    rw [BitVec.getLsbD_and, BitVec.getLsbD_not, (mask_bits i inside).2]
    cases set : (BitVec.ofNat 64 a).getLsbD i with
    | false => rfl
    | true =>
      obtain ⟨above, _⟩ := aligned_bits aligned low i set
      have other : ¬ i < 12 := by omega
      simp [inside, other]
  unfold pageDesc
  rw [kept, BitVec.or_assoc, BitVec.or_assoc]
  rfl

end Descriptors

section Window

variable (L : Layout)

def leaf (s : Vm) (k : Nat) : Word := s.mem (L.l3Vmd + 8 * k)

def Valid (s : Vm) (k : Nat) : Prop := leaf L s k &&& 1 ≠ 0

instance (s : Vm) (k : Nat) : Decidable (Valid L s k) := inferInstanceAs (Decidable (_ ≠ _))

def windowPages : Nat := 1024

def validCount (s : Vm) : Nat := ((List.range windowPages).filter (Valid L s)).length

def InWindow (va : Nat) : Prop := vmdBase ≤ va ∧ va < vmdEnd

instance (va : Nat) : Decidable (InWindow va) := inferInstanceAs (Decidable (_ ∧ _))

def pageOf (va : Nat) : Nat := (va - vmdBase) / page

def frame (i : Nat) : Nat := L.pool + page * i

theorem pageOf_lt {va : Nat} (inside : InWindow va) : pageOf va < windowPages := by
  unfold InWindow vmdEnd vmdBase at inside
  unfold pageOf windowPages page vmdBase
  omega

theorem layout_places :
    (page ∣ L.l0 ∧ page ∣ L.l1Lo ∧ page ∣ L.l2Vmd ∧ page ∣ L.l3Vmd ∧ page ∣ L.pool) ∧
    (L.l0 + page ≤ 2 ^ 48 ∧ L.l1Lo + page ≤ 2 ^ 48 ∧ L.l2Vmd + page ≤ 2 ^ 48 ∧
      L.l3Vmd + 2 * page ≤ 2 ^ 48 ∧ L.pool + vmdPoolPages * page ≤ 2 ^ 48) := by
  have aligned := L.aligned
  have low := L.low
  simp only [Addresses.arrays, List.mem_cons, List.not_mem_nil, or_false, forall_eq_or_imp,
    forall_eq] at aligned low
  obtain ⟨a0, a1, _, a2, a3, a4⟩ := aligned
  obtain ⟨b0, b1, _, b2, b3, b4⟩ := low
  exact ⟨⟨a0, a1, a2, a3, a4⟩, b0, b1, b2, b3, b4⟩

theorem frame_place {i : Nat} (inside : i < vmdPoolPages) :
    page ∣ frame L i ∧ frame L i < 2 ^ 48 := by
  obtain ⟨⟨_, _, _, _, aligned⟩, _, _, _, _, low⟩ := layout_places L
  constructor
  · exact Nat.dvd_add aligned (Nat.dvd_mul_right page i)
  · unfold frame vmdPoolPages page at *
    omega

theorem pageDesc_spec {i : Nat} (inside : i < vmdPoolPages) :
    pageDesc (frame L i) &&& 1 ≠ 0 ∧ pageDesc (frame L i) &&& 3 = descPage ∧
      pageDesc (frame L i) &&& descAf ≠ 0 ∧ outAddr (pageDesc (frame L i)) = frame L i := by
  obtain ⟨aligned, low⟩ := frame_place L inside
  rw [pageDesc_eq aligned low, attrs_desc aligned low (by decide),
    attrs_desc aligned low (by decide), attrs_desc aligned low (by decide),
    outAddr_desc aligned low (by decide)]
  exact ⟨by decide, by decide, by decide, rfl⟩

end Window

section Invariant

variable (L : Layout)

/-- The tables lead to the entries; `pages` are the mapped pages in the order in which they were
first touched, and the entry of each has the frame of its turn. -/
structure Inv (s : Vm) (pages : List Nat) : Prop where
  root : s.mem (L.l0 + 8 * 0) = BitVec.ofNat 64 L.l1Lo ||| descTable
  upper : s.mem (L.l1Lo + 8 * 32) = BitVec.ofNat 64 L.l2Vmd ||| descTable
  middle : ∀ t, t < 2 → s.mem (L.l2Vmd + 8 * t) = BitVec.ofNat 64 (L.l3Vmd + page * t) ||| descTable
  nodup : pages.Nodup
  inside : ∀ k ∈ pages, k < windowPages
  used : s.poolNext = pages.length
  enough : pages.length ≤ vmdPoolPages
  faults : s.faults = pages.length
  mapped : s.mapped = pages.length
  given : ∀ i k, pages[i]? = some k → leaf L s k = pageDesc (frame L i)
  free : ∀ k, k < windowPages → k ∉ pages → leaf L s k = 0

variable {L} {s : Vm} {pages : List Nat}

theorem Inv.valid (inv : Inv L s pages) {k : Nat} (inside : k < windowPages) :
    Valid L s k ↔ k ∈ pages := by
  constructor
  · intro valid
    by_contra other
    unfold Valid at valid
    rw [inv.free k inside other] at valid
    exact valid (by decide)
  · intro mem
    obtain ⟨i, bound, rfl⟩ := List.mem_iff_getElem.mp mem
    have enough := inv.enough
    unfold Valid
    rw [inv.given i _ (List.getElem?_eq_getElem bound)]
    exact (pageDesc_spec L (by omega)).1

theorem Inv.count (inv : Inv L s pages) : validCount L s = pages.length := by
  unfold validCount
  refine List.Perm.length_eq ((List.perm_ext_iff_of_nodup ?_ inv.nodup).mpr fun k => ?_)
  · exact List.nodup_range.filter _
  · rw [List.mem_filter, List.mem_range, decide_eq_true_iff]
    constructor
    · rintro ⟨inside, valid⟩
      exact (inv.valid inside).mp valid
    · intro mem
      exact ⟨inv.inside k mem, (inv.valid (inv.inside k mem)).mpr mem⟩

theorem apart_at {x y : Nat × Nat} (L : Layout) {i j : Nat} (less : i < j)
    (first : L.arrays[i]? = some x) (second : L.arrays[j]? = some y) :
    x.1 + x.2 ≤ y.1 ∨ y.1 + y.2 ≤ x.1 := by
  obtain ⟨boundI, rfl⟩ := List.getElem?_eq_some_iff.mp first
  obtain ⟨boundJ, rfl⟩ := List.getElem?_eq_some_iff.mp second
  exact List.pairwise_iff_getElem.mp L.apart i j boundI boundJ less

theorem layout_apart (L : Layout) :
    ((L.l0 + 4096 ≤ L.l3Vmd ∨ L.l3Vmd + 8192 ≤ L.l0) ∧
      (L.l1Lo + 4096 ≤ L.l3Vmd ∨ L.l3Vmd + 8192 ≤ L.l1Lo) ∧
      (L.l2Vmd + 4096 ≤ L.l3Vmd ∨ L.l3Vmd + 8192 ≤ L.l2Vmd)) ∧
    ((L.l0 + 4096 ≤ L.pool ∨ L.pool + 2097152 ≤ L.l0) ∧
      (L.l1Lo + 4096 ≤ L.pool ∨ L.pool + 2097152 ≤ L.l1Lo) ∧
      (L.l2Vmd + 4096 ≤ L.pool ∨ L.pool + 2097152 ≤ L.l2Vmd) ∧
      (L.l3Vmd + 8192 ≤ L.pool ∨ L.pool + 2097152 ≤ L.l3Vmd)) :=
  ⟨⟨apart_at L (i := 0) (j := 4) (by decide) rfl rfl,
    apart_at L (i := 1) (j := 4) (by decide) rfl rfl,
    apart_at L (i := 3) (j := 4) (by decide) rfl rfl⟩,
    apart_at L (i := 0) (j := 5) (by decide) rfl rfl,
    apart_at L (i := 1) (j := 5) (by decide) rfl rfl,
    apart_at L (i := 3) (j := 5) (by decide) rfl rfl,
    apart_at L (i := 4) (j := 5) (by decide) rfl rfl⟩

theorem layout_upper (L : Layout) :
    (L.l0 + 4096 ≤ L.l1Lo ∨ L.l1Lo + 4096 ≤ L.l0) ∧
      (L.l0 + 4096 ≤ L.l1Hi ∨ L.l1Hi + 4096 ≤ L.l0) ∧
      (L.l0 + 4096 ≤ L.l2Vmd ∨ L.l2Vmd + 4096 ≤ L.l0) ∧
      (L.l1Lo + 4096 ≤ L.l2Vmd ∨ L.l2Vmd + 4096 ≤ L.l1Lo) :=
  ⟨apart_at L (i := 0) (j := 1) (by decide) rfl rfl,
    apart_at L (i := 0) (j := 2) (by decide) rfl rfl,
    apart_at L (i := 0) (j := 3) (by decide) rfl rfl,
    apart_at L (i := 1) (j := 3) (by decide) rfl rfl⟩

/-- What `vm_fault` does to the state when it takes a frame for a page. -/
def mapPage (L : Layout) (k : Nat) (s : Vm) : Vm :=
  { s with
    mem := Function.update (fill s.mem (frame L s.poolNext) (fun _ => 0) 512) (L.l3Vmd + 8 * k)
      (pageDesc (frame L s.poolNext))
    poolNext := s.poolNext + 1
    faults := add64 s.faults 1
    mapped := add64 s.mapped 1 }

/-- What a call can do. -/
theorem vmFault_cases (inv : Inv L s pages) (va : Nat) :
    ¬ InWindow va ∧ vmFault L va s = (0, s) ∨
    InWindow va ∧ pageOf va ∈ pages ∧ vmFault L va s = (1, s) ∨
    InWindow va ∧ pageOf va ∉ pages ∧ vmdPoolPages ≤ s.poolNext ∧
      vmFault L va s = (0, { s with oom := add64 s.oom 1 }) ∨
    InWindow va ∧ pageOf va ∉ pages ∧ s.poolNext < vmdPoolPages ∧
      vmFault L va s = (1, mapPage L (pageOf va) s) := by
  unfold vmFault
  by_cases outside : va < vmdBase ∨ vmdEnd ≤ va
  · rw [if_pos outside]
    refine .inl ⟨?_, rfl⟩
    rintro ⟨low, high⟩
    omega
  have window : InWindow va := ⟨by omega, by omega⟩
  have inside := pageOf_lt window
  have row : ¬ 2 ≤ (va - vmdBase) / 2 ^ 21 := by
    unfold vmdEnd at outside
    omega
  have slot : L.l3Vmd + page * ((va - vmdBase) / 2 ^ 21) + 8 * ((va - vmdBase) / 2 ^ 12 % 512) =
      L.l3Vmd + 8 * pageOf va := by
    unfold pageOf page
    omega
  rw [if_neg outside]
  simp only [slot]
  rw [if_neg row]
  by_cases valid : s.mem (L.l3Vmd + 8 * pageOf va) &&& 1 ≠ 0
  · rw [if_pos valid]
    exact .inr (.inl ⟨window, (inv.valid inside).mp valid, rfl⟩)
  have other : pageOf va ∉ pages := fun mem => valid ((inv.valid inside).mpr mem)
  rw [if_neg valid]
  by_cases full : vmdPoolPages ≤ s.poolNext
  · rw [if_pos full]
    exact .inr (.inr (.inl ⟨window, other, full, rfl⟩))
  · rw [if_neg full]
    exact .inr (.inr (.inr ⟨window, other, Nat.not_le.mp full, rfl⟩))

theorem mapPage_other {k x : Nat} (outside : x < frame L s.poolNext ∨ frame L s.poolNext + 4096 ≤ x)
    (other : x ≠ L.l3Vmd + 8 * k) : (mapPage L k s).mem x = s.mem x := by
  show Function.update (fill s.mem (frame L s.poolNext) (fun _ => 0) 512) (L.l3Vmd + 8 * k)
    (pageDesc (frame L s.poolNext)) x = s.mem x
  rw [Function.update_of_ne other, fill_other outside]

/-- A page that was not mapped gets the next frame. -/
theorem mapPage_inv {k : Nat} (inv : Inv L s pages) (inside : k < windowPages) (other : k ∉ pages)
    (room : s.poolNext < vmdPoolPages) : Inv L (mapPage L k s) (pages ++ [k]) := by
  obtain ⟨⟨apart0, apart1, apart2⟩, pool0, pool1, pool2, pool3⟩ := layout_apart L
  have used := inv.used
  have length : (pages ++ [k]).length = pages.length + 1 := by simp
  have upper {x : Nat} (table : x = L.l0 ∨ x = L.l1Lo ∨ x = L.l2Vmd) {j : Nat} (small : j < 512) :
      (mapPage L k s).mem (x + 8 * j) = s.mem (x + 8 * j) := by
    unfold windowPages at inside
    unfold vmdPoolPages at room
    refine mapPage_other ?_ ?_
    · unfold frame page
      rcases table with rfl | rfl | rfl
      all_goals omega
    · rcases table with rfl | rfl | rfl
      all_goals omega
  have leaves {j : Nat} (bound : j < windowPages) (differs : j ≠ k) :
      leaf L (mapPage L k s) j = leaf L s j := by
    unfold windowPages at bound inside
    unfold vmdPoolPages at room
    refine mapPage_other ?_ (by omega)
    unfold frame page
    omega
  refine ⟨?_, ?_, ?_, ?_, ?_, ?_, ?_, ?_, ?_, ?_, ?_⟩
  · rw [upper (.inl rfl) (by decide)]
    exact inv.root
  · rw [upper (.inr (.inl rfl)) (by decide)]
    exact inv.upper
  · intro t small
    rw [upper (.inr (.inr rfl)) (by omega)]
    exact inv.middle t small
  · refine List.nodup_append.mpr ⟨inv.nodup, List.nodup_singleton k, ?_⟩
    rintro a mem b single rfl
    exact other (List.mem_singleton.mp single ▸ mem)
  · intro j mem
    rcases List.mem_append.mp mem with old | new
    · exact inv.inside j old
    · exact List.mem_singleton.mp new ▸ inside
  · show s.poolNext + 1 = _
    omega
  · omega
  · show add64 s.faults 1 = _
    rw [inv.faults, length]
    unfold vmdPoolPages at room
    exact add64_eq (by omega)
  · show add64 s.mapped 1 = _
    rw [inv.mapped, length]
    unfold vmdPoolPages at room
    exact add64_eq (by omega)
  · intro i j place
    by_cases old : i < pages.length
    · rw [List.getElem?_append_left old] at place
      have mem : j ∈ pages := List.mem_of_getElem? place
      rw [leaves (inv.inside j mem) fun same => other (same ▸ mem)]
      exact inv.given i j place
    · have last : i = pages.length := by
        have bound := (List.getElem?_eq_some_iff.mp place).1
        omega
      rw [last, List.getElem?_append_right (Nat.le_refl _), Nat.sub_self] at place
      obtain rfl := Option.some.inj place
      rw [last, ← used]
      exact Function.update_self _ _ _
  · intro j bound free
    rw [List.mem_append, List.mem_singleton, not_or] at free
    rw [leaves bound free.2]
    exact inv.free j bound free.1

end Invariant

section Start

variable (L : Layout)

/-- The state behind `mmu_init` and `vm_demand_init`. -/
def start (mem : Mem) : Vm := ⟨vmDemandInit L (mmuInit L mem), 0, 0, 0, 0⟩

theorem emptyLeaves_other {t x : Nat} {mem : Mem}
    (leaves : x < L.l3Vmd + page * t ∨ L.l3Vmd + page * t + 4096 ≤ x) (row : x ≠ L.l2Vmd + 8 * t) :
    emptyLeaves L t mem x = mem x := by
  unfold emptyLeaves
  rw [Function.update_of_ne row, fill_other leaves]

theorem emptyLeaves_leaf {t i : Nat} {mem : Mem} (inside : i < 512)
    (row : L.l3Vmd + page * t + 8 * i ≠ L.l2Vmd + 8 * t) :
    emptyLeaves L t mem (L.l3Vmd + page * t + 8 * i) = 0 := by
  unfold emptyLeaves
  rw [Function.update_of_ne row]
  exact fill_at inside

theorem vmDemandInit_other {x : Nat} {mem : Mem} (l2 : x < L.l2Vmd ∨ L.l2Vmd + 4096 ≤ x)
    (l3 : x < L.l3Vmd ∨ L.l3Vmd + 8192 ≤ x) (l1 : x ≠ L.l1Lo + 8 * 32) :
    vmDemandInit L mem x = mem x := by
  show Function.update (emptyLeaves L 1 (emptyLeaves L 0 (fill mem L.l2Vmd (fun _ => 0) 512)))
    (L.l1Lo + 8 * 32) (BitVec.ofNat 64 L.l2Vmd ||| descTable) x = mem x
  rw [Function.update_of_ne l1, emptyLeaves_other L (by unfold page; omega) (by omega),
    emptyLeaves_other L (by unfold page; omega) (by omega), fill_other l2]

theorem mmuInit_root (mem : Mem) :
    mmuInit L mem (L.l0 + 8 * 0) = BitVec.ofNat 64 L.l1Lo ||| descTable := by
  obtain ⟨lower, higher, _⟩ := layout_upper L
  have behind : L.l0 + 8 * 0 ≠ L.l0 + 8 * 2 := by omega
  unfold mmuInit
  rw [fill_other (by unfold nent; omega), fill_other (by unfold nent; omega),
    Function.update_of_ne behind, Function.update_self]

theorem start_inv (mem : Mem) : Inv L (start L mem) [] := by
  obtain ⟨⟨apart0, apart1, apart2⟩, _⟩ := layout_apart L
  obtain ⟨up0, _, up1, up2⟩ := layout_upper L
  have tables : (start L mem).mem = Function.update (emptyLeaves L 1 (emptyLeaves L 0
      (fill (mmuInit L mem) L.l2Vmd (fun _ => 0) 512))) (L.l1Lo + 8 * 32)
      (BitVec.ofNat 64 L.l2Vmd ||| descTable) := rfl
  refine ⟨?_, ?_, ?_, List.nodup_nil, nofun, rfl, Nat.zero_le _, rfl, rfl, nofun, ?_⟩
  · show vmDemandInit L (mmuInit L mem) (L.l0 + 8 * 0) = _
    rw [vmDemandInit_other L (by omega) (by omega) (by omega)]
    exact mmuInit_root L mem
  · rw [tables]
    exact Function.update_self _ _ _
  · intro t small
    rw [tables, Function.update_of_ne (by omega)]
    have row (t : Nat) (mem : Mem) : emptyLeaves L t mem (L.l2Vmd + 8 * t) =
        BitVec.ofNat 64 (L.l3Vmd + page * t) ||| descTable := by
      unfold emptyLeaves
      exact Function.update_self _ _ _
    by_cases last : t = 1
    · rw [last, row]
    · have first : t = 0 := by omega
      rw [first, emptyLeaves_other L (by unfold page; omega) (by omega), row]
  · intro k inside _
    show (start L mem).mem (L.l3Vmd + 8 * k) = 0
    unfold windowPages at inside
    rw [tables, Function.update_of_ne (by omega)]
    by_cases first : k < 512
    · rw [emptyLeaves_other L (by unfold page; omega) (by omega)]
      have leaves (mem : Mem) : emptyLeaves L 0 mem (L.l3Vmd + page * 0 + 8 * k) = 0 :=
        emptyLeaves_leaf L first (by unfold page; omega)
      rw [Nat.mul_zero, Nat.add_zero] at leaves
      exact leaves _
    · have leaves (mem : Mem) : emptyLeaves L 1 mem (L.l3Vmd + page * 1 + 8 * (k - 512)) = 0 :=
        emptyLeaves_leaf L (by omega) (by unfold page; omega)
      have place : L.l3Vmd + page * 1 + 8 * (k - 512) = L.l3Vmd + 8 * k := by
        unfold page
        omega
      rw [place] at leaves
      exact leaves _

end Start

section Translation

variable {L : Layout} {s : Vm} {pages : List Nat}

theorem entry_table {a span va : Nat} (aligned : page ∣ a) (low : a < 2 ^ 48) :
    entry span (BitVec.ofNat 64 a ||| descTable) va = .table a := by
  unfold entry
  rw [attrs_desc aligned low (by decide), if_pos (by decide), outAddr_desc aligned low (by decide)]

theorem translate_window (inv : Inv L s pages) {va : Nat} (window : InWindow va) :
    translate s.mem L.l0 va = leafEntry (leaf L s (pageOf va)) va := by
  obtain ⟨⟨_, aligned1, aligned2, aligned3, _⟩, _, low1, low2, low3, _⟩ := layout_places L
  have root := inv.root
  have upper := inv.upper
  have middle := inv.middle
  unfold InWindow vmdEnd vmdBase at window
  unfold page at low1 low2 low3
  have index0 : va / 2 ^ 39 = 0 := by omega
  have index1 : va / 2 ^ 30 % 512 = 32 := by omega
  have index2 : va / 2 ^ 21 % 512 < 2 := by omega
  have row : page ∣ L.l3Vmd + page * (va / 2 ^ 21 % 512) :=
    Nat.dvd_add aligned3 (Nat.dvd_mul_right _ _)
  have slot : L.l3Vmd + page * (va / 2 ^ 21 % 512) + 8 * (va / 2 ^ 12 % 512) =
      L.l3Vmd + 8 * pageOf va := by
    unfold pageOf vmdBase page
    omega
  unfold DemandPaging.translate
  rw [if_neg (by omega), index0, root, entry_table aligned1 (by omega)]
  simp only
  rw [index1, upper, entry_table aligned2 (by omega)]
  simp only [Entry.next]
  rw [middle _ index2, entry_table row (by unfold page; omega)]
  simp only
  rw [slot]
  rfl

theorem translate_leaf (inv : Inv L s pages) {va : Nat} (window : InWindow va) :
    translate s.mem L.l0 va = if Valid L s (pageOf va) then
      some (outAddr (leaf L s (pageOf va)) + va % page) else none := by
  have inside := pageOf_lt window
  rw [translate_window inv window]
  by_cases mem : pageOf va ∈ pages
  · rw [if_pos ((inv.valid inside).mpr mem)]
    obtain ⟨i, bound, here⟩ := List.mem_iff_getElem.mp mem
    have enough := inv.enough
    have given := inv.given i (pageOf va) (List.getElem?_eq_some_iff.mpr ⟨bound, here⟩)
    obtain ⟨_, kind, af, _⟩ := pageDesc_spec L (i := i) (by omega)
    rw [given]
    exact if_pos ⟨kind, af⟩
  · rw [if_neg fun valid => mem ((inv.valid inside).mp valid), inv.free _ inside mem]
    rfl

end Translation

section Runs

variable (L : Layout)

inductive Op where
  | fault (va : Nat)
  | write (a : Nat) (v : Word)

def step (s : Vm) : Op → Option Vm
  | .fault va => some (vmFault L va s).2
  | .write a v => some { s with mem := Function.update s.mem a v }

def Data (a : Nat) : Prop :=
  ∀ x ∈ [(L.l0, page), (L.l1Lo, page), (L.l2Vmd, page), (L.l3Vmd, 2 * page)],
    a + 8 ≤ x.1 ∨ x.1 + x.2 ≤ a

def Ok (_ : Vm) : Op → Prop
  | .fault va => va < 2 ^ 64
  | .write a _ => Data L a

def Later : Vm → Vm → Prop := Runs (step L) (Ok L)

variable {L} {s t : Vm} {pages : List Nat}

section

variable (inv : Inv L s pages)

include inv

theorem write_inv {a : Nat} {v : Word} (data : Data L a) :
    Inv L { s with mem := Function.update s.mem a v } pages := by
  have apart0 := data (L.l0, page) (by simp)
  have apart1 := data (L.l1Lo, page) (by simp)
  have apart2 := data (L.l2Vmd, page) (by simp)
  have apart3 := data (L.l3Vmd, 2 * page) (by simp)
  unfold page at apart0 apart1 apart2 apart3
  simp only at apart0 apart1 apart2 apart3
  have keep {x : Nat} (other : x ≠ a) : Function.update s.mem a v x = s.mem x := by
    rw [Function.update_of_ne other]
  have leaves {k : Nat} (inside : k < windowPages) :
      leaf L { s with mem := Function.update s.mem a v } k = leaf L s k := by
    unfold windowPages at inside
    exact keep (by omega)
  refine ⟨?_, ?_, ?_, inv.nodup, inv.inside, inv.used, inv.enough, inv.faults, inv.mapped, ?_, ?_⟩
  · exact (keep (by omega)).trans inv.root
  · exact (keep (by omega)).trans inv.upper
  · intro t small
    exact (keep (by omega)).trans (inv.middle t small)
  · intro i k place
    rw [leaves (inv.inside k (List.mem_of_getElem? place))]
    exact inv.given i k place
  · intro k inside other
    rw [leaves inside]
    exact inv.free k inside other

theorem oom_inv (n : Nat) : Inv L { s with oom := n } pages :=
  ⟨inv.root, inv.upper, inv.middle, inv.nodup, inv.inside, inv.used, inv.enough, inv.faults,
    inv.mapped, inv.given, inv.free⟩

theorem step_inv {op : Op} (ok : Ok L s op) (next : step L s op = some t) :
    ∃ more, Inv L t (pages ++ more) := by
  have same {t : Vm} (kept : Inv L t pages) : ∃ more, Inv L t (pages ++ more) :=
    ⟨[], by rwa [List.append_nil]⟩
  cases op with
  | fault va =>
    obtain rfl := Option.some.inj next
    rcases vmFault_cases inv va with
      ⟨_, run⟩ | ⟨_, _, run⟩ | ⟨_, _, _, run⟩ | ⟨window, other, room, run⟩
    · rw [run]
      exact same inv
    · rw [run]
      exact same inv
    · rw [run]
      exact same (oom_inv inv _)
    · rw [run]
      exact ⟨[pageOf va], mapPage_inv inv (pageOf_lt window) other room⟩
  | write a v =>
    obtain rfl := Option.some.inj next
    exact same (write_inv inv ok)

theorem later_inv (run : Later L s t) : ∃ more, Inv L t (pages ++ more) := by
  refine run.invariant (I := fun t => ∃ more, Inv L t (pages ++ more)) ?_ ?_
  · exact ⟨[], by rwa [List.append_nil]⟩
  · rintro u op u' ⟨more, held⟩ ok next
    obtain ⟨rest, kept⟩ := step_inv held ok next
    exact ⟨more ++ rest, by rwa [← List.append_assoc]⟩

theorem later_leaf (run : Later L s t) {k : Nat} (inside : k < windowPages) (valid : Valid L s k) :
    leaf L t k = leaf L s k := by
  obtain ⟨more, held⟩ := later_inv inv run
  obtain ⟨i, bound, here⟩ := List.mem_iff_getElem.mp ((inv.valid inside).mp valid)
  have place : pages[i]? = some k := List.getElem?_eq_some_iff.mpr ⟨bound, here⟩
  rw [inv.given i k place, held.given i k ((List.getElem?_append_left bound).trans place)]

/-- What one fault does: its result, and the frame of a page that it maps. -/
theorem fault_result (va : Nat) :
    ((vmFault L va s).1 = 1 ↔ InWindow va ∧ Valid L (vmFault L va s).2 (pageOf va)) ∧
      ∀ k < windowPages, ¬ Valid L s k → Valid L (vmFault L va s).2 k →
        ∀ j < 512, (vmFault L va s).2.mem (outAddr (leaf L (vmFault L va s).2 k) + 8 * j) = 0 := by
  rcases vmFault_cases inv va with
    ⟨outside, run⟩ | ⟨window, mem, run⟩ | ⟨window, other, _, run⟩ | ⟨window, other, room, run⟩
  · rw [run]
    exact ⟨⟨nofun, fun both => absurd both.1 outside⟩, fun k _ before after => absurd after before⟩
  · rw [run]
    have valid := (inv.valid (pageOf_lt window)).mpr mem
    exact ⟨⟨fun _ => ⟨window, valid⟩, fun _ => rfl⟩, fun k _ before after => absurd after before⟩
  · rw [run]
    have held := oom_inv inv (add64 s.oom 1)
    refine ⟨⟨nofun, fun both => ?_⟩, fun k _ before after => absurd after before⟩
    exact absurd ((held.valid (pageOf_lt window)).mp both.2) other
  · rw [run]
    have held := mapPage_inv inv (pageOf_lt window) other room
    have valid : Valid L (mapPage L (pageOf va) s) (pageOf va) :=
      (held.valid (pageOf_lt window)).mpr (List.mem_append_right pages (List.mem_singleton_self _))
    refine ⟨⟨fun _ => ⟨window, valid⟩, fun _ => rfl⟩, ?_⟩
    intro k inside before after j small
    have mem := (held.valid inside).mp after
    have last : k = pageOf va := by
      rcases List.mem_append.mp mem with old | new
      · exact absurd ((inv.valid inside).mpr old) before
      · exact List.mem_singleton.mp new
    have pool := (layout_apart L).2.2.2.2
    have here : leaf L (mapPage L (pageOf va) s) k = pageDesc (frame L s.poolNext) := by
      rw [last]
      exact Function.update_self _ _ _
    rw [here, (pageDesc_spec L room).2.2.2]
    have apart : frame L s.poolNext + 8 * j ≠ L.l3Vmd + 8 * pageOf va := by
      have bound := pageOf_lt window
      unfold windowPages at bound
      unfold vmdPoolPages at room
      unfold frame page
      omega
    show Function.update (fill s.mem (frame L s.poolNext) (fun _ => 0) 512)
      (L.l3Vmd + 8 * pageOf va) (pageDesc (frame L s.poolNext)) (frame L s.poolNext + 8 * j) = 0
    rw [Function.update_of_ne apart]
    exact fill_at small

end

/-- In every state of every run: distinct pages have distinct frames of the pool, the entries
that are valid stay, the counters tell how many there are, a fault returns 1 exactly for a page
of the window that is mapped then, with a frame of zeros if it is new, and the walk leads from
an address of the window to its own place in the frame of its own page. -/
theorem demand_window (L : Layout) (mem : Mem) {s : Vm} (run : Later L (start L mem) s) :
    (∀ k < windowPages, Valid L s k → page ∣ outAddr (leaf L s k) ∧
      ∃ i < vmdPoolPages, outAddr (leaf L s k) = frame L i) ∧
    (∀ j < windowPages, ∀ k < windowPages, Valid L s j → Valid L s k →
      outAddr (leaf L s j) = outAddr (leaf L s k) → j = k) ∧
    validCount L s = s.mapped ∧ validCount L s = s.poolNext ∧
    (∀ t, Later L s t → ∀ k < windowPages, Valid L s k → leaf L t k = leaf L s k) ∧
    (∀ va < 2 ^ 64,
      ((vmFault L va s).1 = 1 ↔ InWindow va ∧ Valid L (vmFault L va s).2 (pageOf va)) ∧
      ∀ k < windowPages, ¬ Valid L s k → Valid L (vmFault L va s).2 k →
        ∀ j < 512, (vmFault L va s).2.mem (outAddr (leaf L (vmFault L va s).2 k) + 8 * j) = 0) ∧
    ∀ va, InWindow va → translate s.mem L.l0 va = if Valid L s (pageOf va) then
      some (outAddr (leaf L s (pageOf va)) + va % page) else none := by
  obtain ⟨pages, inv⟩ := later_inv (start_inv L mem) run
  rw [List.nil_append] at inv
  have given {k : Nat} (inside : k < windowPages) (valid : Valid L s k) :
      ∃ i, pages[i]? = some k ∧ i < vmdPoolPages ∧ outAddr (leaf L s k) = frame L i := by
    obtain ⟨i, bound, here⟩ := List.mem_iff_getElem.mp ((inv.valid inside).mp valid)
    have place : pages[i]? = some k := List.getElem?_eq_some_iff.mpr ⟨bound, here⟩
    have room : i < vmdPoolPages := Nat.lt_of_lt_of_le bound inv.enough
    refine ⟨i, place, room, ?_⟩
    rw [inv.given i k place, (pageDesc_spec L room).2.2.2]
  refine ⟨?_, ?_, inv.count.trans inv.mapped.symm, inv.count.trans inv.used.symm, ?_, ?_, ?_⟩
  · intro k inside valid
    obtain ⟨i, _, room, address⟩ := given inside valid
    exact ⟨address ▸ (frame_place L room).1, i, room, address⟩
  · intro j insideJ k insideK validJ validK same
    obtain ⟨i, placeJ, _, addressJ⟩ := given insideJ validJ
    obtain ⟨i', placeK, _, addressK⟩ := given insideK validK
    have equal : i = i' := by
      rw [addressJ, addressK] at same
      unfold frame page at same
      omega
    rw [equal, placeK] at placeJ
    exact (Option.some.inj placeJ).symm
  · intro t later k inside valid
    exact later_leaf inv later inside valid
  · intro va _
    exact fault_result inv va
  · intro va window
    exact translate_leaf inv window

theorem demand_window_second : ∃ L : Layout, ∃ s,
    Later L (start L fun _ => 0) s ∧ s.mapped = 1 ∧ validCount L s = s.mapped := by
  have layout : ∃ L : Layout, L.toAddresses = ⟨4096, 8192, 12288, 16384, 20480, 28672⟩ :=
    ⟨⟨⟨4096, 8192, 12288, 16384, 20480, 28672⟩, by decide, by decide, by decide⟩, rfl⟩
  obtain ⟨L, _⟩ := layout
  have inv := start_inv L fun _ => 0
  have other : pageOf (vmdBase + 4096) ∉ ([] : List Nat) := nofun
  have window : InWindow (vmdBase + 4096) := by decide
  have ok : Ok L (start L fun _ => 0) (.fault (vmdBase + 4096)) := by
    show vmdBase + 4096 < 2 ^ 64
    decide
  have run : Later L (start L fun _ => 0) (vmFault L (vmdBase + 4096) (start L fun _ => 0)).2 :=
    Runs.snoc (Runs.refl _) ok rfl
  have mapped : (vmFault L (vmdBase + 4096) (start L fun _ => 0)).2.mapped = 1 := by
    rcases vmFault_cases inv (vmdBase + 4096) with
      ⟨outside, _⟩ | ⟨_, mem, _⟩ | ⟨_, _, full, _⟩ | ⟨_, _, _, result⟩
    · exact absurd window outside
    · exact absurd mem other
    · exact absurd full (Nat.not_le.mpr (by decide : 0 < vmdPoolPages))
    · rw [result]
      rfl
  exact ⟨L, _, run, mapped, (demand_window L _ run).2.2.1⟩

end Runs

end XinuRpi5.System.DemandRuns
