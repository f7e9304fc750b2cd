/- source: fs/fat32.c
   digest: What freeing a chain and the allocation loop of a write do to the volume, and
   what is read back of the chain that it leaves. -/

import Mathlib.Data.List.GetD
import XinuRpi5.Fs.FatChains

namespace XinuRpi5.Fs.FatAlloc

open Lib.LinkedChain Fat32 FatChains

structure SameShape (v w : Volume) : Prop where
  sectors : w.sectorsPerCluster = v.sectorsPerCluster
  fat : w.sectorsPerFat = v.sectorsPerFat
  copies : w.numFats = v.numFats
  root : w.rootCluster = v.rootCluster

theorem SameShape.refl (v : Volume) : SameShape v v := ⟨rfl, rfl, rfl, rfl⟩

theorem SameShape.trans {u v w : Volume} (h : SameShape u v) (k : SameShape v w) :
    SameShape u w :=
  ⟨k.sectors.trans h.sectors, k.fat.trans h.fat, k.copies.trans h.copies, k.root.trans h.root⟩

theorem SameShape.total {v w : Volume} (h : SameShape v w) : w.total = v.total := by
  rw [Volume.total, Volume.total, h.fat]

section Entries

variable {v : Volume}

theorem nextCluster_setEntry (copies : 0 < v.numFats) (c value d : Nat) :
    nextCluster (setEntry v c value) d = if d = c then value else nextCluster v d := by
  unfold nextCluster setEntry
  simp only [copies, true_and]

theorem setEntry_shape (c value : Nat) : SameShape v (setEntry v c value) := ⟨rfl, rfl, rfl, rfl⟩

theorem freeChain_link (rounds c : Nat) (w : Volume) :
    freeChain rounds w (nextCluster v c) = freeChain rounds w (link v c) := by
  unfold link
  by_cases ends : chainEnd ≤ nextCluster v c
  · rw [Nat.min_eq_left ends]
    cases rounds with
    | zero => rfl
    | succ rounds =>
      rw [freeChain, freeChain, if_neg (by omega), if_neg (by omega)]
  · rw [Nat.min_eq_right (by omega)]

theorem freeChain_spec {h : Nat} {cs : List Nat} (narrow : v.total ≤ chainEnd)
    (copies : 0 < v.numFats) (chain : Chain v h cs) (rounds : Nat) :
    SameShape v (freeChain rounds v h) ∧ (freeChain rounds v h).bytes = v.bytes ∧
      ∀ d, nextCluster (freeChain rounds v h) d =
        if d ∈ cs.take rounds then 0 else nextCluster v d := by
  induction rounds generalizing v h cs with
  | zero => exact ⟨.refl v, rfl, fun d => rfl⟩
  | succ rounds ih =>
    cases cs with
    | nil =>
      obtain rfl : h = chainEnd := chain
      rw [freeChain, if_neg (by omega)]
      exact ⟨.refl v, rfl, fun d => rfl⟩
    | cons c cs =>
      have fresh := (List.nodup_cons.mp (Seg.nodup (chain_functional narrow) chain)).1
      obtain ⟨⟨rfl, low, high⟩, rest⟩ := chain
      have apart : ∀ d ∈ cs, nextCluster (setEntry v h 0) d = nextCluster v d := by
        intro d listed
        rw [nextCluster_setEntry copies, if_neg]
        rintro rfl
        exact fresh listed
      have after : Chain (setEntry v h 0) (link v h) cs := Chain.congr rest rfl apart
      obtain ⟨shape, bytes, next⟩ := ih (v := setEntry v h 0) narrow copies after
      rw [freeChain, if_pos ⟨low, by omega⟩, freeChain_link]
      refine ⟨(setEntry_shape h 0).trans shape, bytes, fun d => ?_⟩
      rw [next, nextCluster_setEntry copies, List.take_succ_cons]
      by_cases here : d = h
      · subst here
        simp
      · simp [here]

end Entries

section Free

variable {v w : Volume}

/-- The free clusters from `a` on, in ascending order. -/
def frees (v : Volume) (a : Nat) : List Nat :=
  (List.range' a (v.total - a)).filter fun c => nextCluster v c = 0

theorem scanFreeFrom_eq {a : Nat} (low : 2 ≤ a) :
    scanFreeFrom v a = (frees v a).head?.getD 0 := by
  rw [scanFreeFrom, frees, List.head?_filter, Nat.max_eq_right low]

theorem mem_frees {a c : Nat} :
    c ∈ frees v a ↔ a ≤ c ∧ c < v.total ∧ nextCluster v c = 0 := by
  rw [frees, List.mem_filter, List.mem_range'_1, decide_eq_true_iff]
  constructor
  · rintro ⟨⟨low, high⟩, free⟩
    exact ⟨low, by omega, free⟩
  · rintro ⟨low, high, free⟩
    exact ⟨⟨low, by omega⟩, free⟩

theorem frees_sorted (a : Nat) : (frees v a).Pairwise (· < ·) :=
  List.Pairwise.filter _ List.pairwise_lt_range'

theorem frees_cons {a c : Nat} {rest : List Nat} (list : frees v a = c :: rest) :
    frees v (c + 1) = rest := by
  have sorted := frees_sorted (v := v) a
  rw [list] at sorted
  obtain ⟨above, sortedRest⟩ := List.pairwise_cons.mp sorted
  have low := (mem_frees.mp (list ▸ List.mem_cons_self : c ∈ frees v a)).1
  have same : ∀ d, d ∈ frees v (c + 1) ↔ d ∈ rest := by
    intro d
    rw [mem_frees]
    constructor
    · rintro ⟨more, high, free⟩
      have listed : d ∈ frees v a := mem_frees.mpr ⟨by omega, high, free⟩
      rw [list] at listed
      rcases List.mem_cons.mp listed with rfl | later
      · omega
      · exact later
    · intro later
      have more := above d later
      obtain ⟨_, high, free⟩ :=
        mem_frees.mp (list ▸ List.mem_cons_of_mem c later : d ∈ frees v a)
      exact ⟨more, high, free⟩
  refine List.Perm.eq_of_pairwise ?_ (frees_sorted (c + 1)) sortedRest ?_
  · intro x y _ _ less more
    omega
  · exact (List.perm_ext_iff_of_nodup ((frees_sorted _).imp Nat.ne_of_lt)
      (sortedRest.imp Nat.ne_of_lt)).mpr same

theorem frees_congr {a : Nat} (shape : SameShape v w)
    (same : ∀ d, a ≤ d → nextCluster w d = nextCluster v d) : frees w a = frees v a := by
  unfold frees
  rw [shape.total]
  apply List.filter_congr
  intro d listed
  rw [same d (List.mem_range'_1.mp listed).1]

end Free

section Rounds

variable {v : Volume} {data : List UInt8}

/-- What filling the sectors of a cluster does: other clusters stay, and the sectors hold the
data that reaches them. -/
theorem writeSectors_spec (data : List UInt8) (c left s : Nat) (v : Volume) {done : Nat}
    (inside : done ≤ data.length) :
    let r := writeSectors data c left s v done
    SameShape v r.1 ∧ r.1.fats = v.fats ∧ (∀ d, d ≠ c → r.1.bytes d = v.bytes d) ∧
      (∀ t, t < s → r.1.bytes c t = v.bytes c t) ∧
      r.2 = min (done + left * blockSize) data.length ∧
      ∀ t, s ≤ t → t < s + left → ∀ i, i < blockSize →
        done + (t - s) * blockSize + i < data.length →
          r.1.bytes c t i = data.getD (done + (t - s) * blockSize + i) 0 := by
  induction left generalizing s v done with
  | zero =>
    refine ⟨.refl v, rfl, fun _ _ => rfl, fun _ _ => rfl, ?_, fun t low high => ?_⟩
    · rw [Nat.zero_mul, Nat.add_zero]
      exact (Nat.min_eq_left inside).symm
    · omega
  | succ left ih =>
    have here : ∀ i, (writeSector v c s fun i => data.getD (done + i) 0).bytes c s i =
        data.getD (done + i) 0 := by
      intro i
      simp [writeSector]
    have others : ∀ d, d ≠ c → (writeSector v c s fun i => data.getD (done + i) 0).bytes d =
        v.bytes d := by
      intro d differs
      simp [writeSector, differs]
    have before : ∀ t, t < s → (writeSector v c s fun i => data.getD (done + i) 0).bytes c t =
        v.bytes c t := by
      intro t less
      simp [writeSector, Nat.ne_of_lt less]
    unfold writeSectors
    simp only
    by_cases ended : data.length ≤ min (done + blockSize) data.length
    · rw [if_pos ended]
      have last : data.length ≤ done + blockSize := Nat.le_trans ended (Nat.min_le_left _ _)
      refine ⟨⟨rfl, rfl, rfl, rfl⟩, rfl, others, before, ?_, fun t low high i small room => ?_⟩
      · rw [Nat.succ_mul]
        change min (done + blockSize) data.length = _
        omega
      · have first : t = s := by
          by_contra other
          have : 1 * blockSize ≤ (t - s) * blockSize := Nat.mul_le_mul_right _ (by omega)
          omega
        subst first
        rw [Nat.sub_self, Nat.zero_mul, Nat.add_zero]
        exact here i
    · rw [if_neg ended]
      have step : min (done + blockSize) data.length = done + blockSize := by omega
      rw [step]
      obtain ⟨shape, fats, apart, early, count, blocks⟩ :=
        @ih (s + 1) (writeSector v c s fun i => data.getD (done + i) 0) (done + blockSize)
          (by omega)
      refine ⟨⟨shape.sectors, shape.fat, shape.copies, shape.root⟩, fats, ?_, ?_, ?_, ?_⟩
      · intro d differs
        rw [apart d differs, others d differs]
      · intro t less
        rw [early t (by omega), before t less]
      · rw [count, Nat.succ_mul, Nat.add_assoc, Nat.add_comm blockSize]
      · intro t low high i small room
        by_cases first : t = s
        · subst first
          rw [early t (Nat.lt_succ_self t), here, Nat.sub_self, Nat.zero_mul, Nat.add_zero]
        · have shift : (t - s) * blockSize = blockSize + (t - (s + 1)) * blockSize := by
            have split : t - s = t - (s + 1) + 1 := by omega
            rw [split, Nat.succ_mul, Nat.add_comm]
          rw [shift, ← Nat.add_assoc] at room ⊢
          exact blocks t (by omega) (by omega) i small room

def linkIn (v : Volume) (prev c : Nat) : Volume :=
  if prev ≠ 0 then setEntry (setEntry v c endMark) prev c else setEntry v c endMark

def takeCluster (data : List UInt8) (v : Volume) (prev c done : Nat) : Volume × Nat :=
  writeSectors data c v.sectorsPerCluster 0 (linkIn v prev c) done

variable {rounds cursor prev done : Nat}

theorem allocLoop_stop {first : Nat} (low : 2 ≤ cursor)
    (none : frees v cursor = []) :
    allocLoop data rounds v cursor prev first done = (v, Option.none) := by
  cases rounds with
  | zero => rfl
  | succ rounds =>
    rw [allocLoop]
    simp only [scanFreeFrom_eq low, none]
    rfl

theorem allocLoop_take {first c : Nat} {rest : List Nat}
    (low : 2 ≤ cursor) (list : frees v cursor = c :: rest) :
    allocLoop data (rounds + 1) v cursor prev first done =
      if (takeCluster data v prev c done).2 < data.length then
        allocLoop data rounds (takeCluster data v prev c done).1 (c + 1) c
          (if prev ≠ 0 then first else c) (takeCluster data v prev c done).2
      else ((takeCluster data v prev c done).1, some (if prev ≠ 0 then first else c)) := by
  have above := (mem_frees.mp (list ▸ List.mem_cons_self : c ∈ frees v cursor)).1
  have scanned : scanFreeFrom v cursor = c := by
    rw [scanFreeFrom_eq low, list]
    rfl
  have shape : (linkIn v prev c).sectorsPerCluster = v.sectorsPerCluster := by
    unfold linkIn
    split_ifs <;> rfl
  rw [allocLoop]
  simp only [scanned]
  rw [if_neg (by omega)]
  unfold takeCluster
  rw [← shape]
  rfl

/-- A round changes the entries of its cluster and of the one before, and the
bytes of its cluster. -/
structure Taken (data : List UInt8) (v : Volume) (prev c done : Nat) (r : Volume × Nat) :
    Prop where
  shape : SameShape v r.1
  next : ∀ d, nextCluster r.1 d =
    if prev ≠ 0 ∧ d = prev then c else if d = c then endMark else nextCluster v d
  bytes : ∀ d, d ≠ c → r.1.bytes d = v.bytes d
  count : r.2 = min (done + v.sectorsPerCluster * blockSize) data.length
  blocks : ∀ s, s < v.sectorsPerCluster → ∀ i, i < blockSize →
    done + s * blockSize + i < data.length →
      r.1.bytes c s i = data.getD (done + s * blockSize + i) 0

theorem takeCluster_taken (copies : 0 < v.numFats) (prev c : Nat) (inside : done ≤ data.length) :
    Taken data v prev c done (takeCluster data v prev c done) := by
  have linked : SameShape v (linkIn v prev c) ∧ (linkIn v prev c).bytes = v.bytes ∧
      ∀ d, nextCluster (linkIn v prev c) d =
        if prev ≠ 0 ∧ d = prev then c else if d = c then endMark else nextCluster v d := by
    unfold linkIn
    by_cases some : prev ≠ 0
    · rw [if_pos some]
      refine ⟨⟨rfl, rfl, rfl, rfl⟩, rfl, fun d => ?_⟩
      rw [nextCluster_setEntry (v := setEntry v c endMark) copies, nextCluster_setEntry copies]
      simp only [some, ne_eq, not_false_eq_true, true_and]
    · rw [if_neg some]
      refine ⟨⟨rfl, rfl, rfl, rfl⟩, rfl, fun d => ?_⟩
      rw [nextCluster_setEntry copies]
      simp only [some, false_and, if_false]
  obtain ⟨shape, bytes, next⟩ := linked
  obtain ⟨shape', fats, apart, _, count, blocks⟩ :=
    writeSectors_spec data c v.sectorsPerCluster 0 (linkIn v prev c) inside
  refine ⟨shape.trans shape', fun d => ?_, fun d differs => ?_, count, fun s small i => ?_⟩
  · rw [← next]
    exact congrFun (congrFun fats 0) d
  · rw [← bytes]
    exact apart d differs
  · exact blocks s (Nat.zero_le s) (by omega) i

theorem Taken.frees {c : Nat} {rest : List Nat} {r : Volume × Nat}
    (taken : Taken data v prev c done r) (list : frees v cursor = c :: rest)
    (behind : prev < cursor) : FatAlloc.frees r.1 (c + 1) = rest := by
  have above := (mem_frees.mp (list ▸ List.mem_cons_self : c ∈ FatAlloc.frees v cursor)).1
  rw [← frees_cons list]
  apply frees_congr taken.shape
  intro d more
  rw [taken.next, if_neg (by omega), if_neg (by omega)]

/-- Whatever the outcome of the loop, only clusters that were free and the last
one before them change, and the first free one is taken. -/
theorem allocLoop_confined (data : List UInt8) (rounds : Nat) (copies : 0 < v.numFats)
    (cursor prev first : Nat) {done : Nat} (low : 2 ≤ cursor) (behind : prev < cursor)
    (inside : done ≤ data.length) :
    let w := (allocLoop data rounds v cursor prev first done).1
    SameShape v w ∧
      (∀ d, d ∉ FatAlloc.frees v cursor →
        (d ≠ prev → nextCluster w d = nextCluster v d) ∧ w.bytes d = v.bytes d) ∧
      (nextCluster v prev ≠ 0 → nextCluster w prev ≠ 0) ∧
      (0 < rounds → ∀ c, (FatAlloc.frees v cursor).head? = some c → nextCluster w c ≠ 0) := by
  induction rounds generalizing v cursor prev first done with
  | zero =>
    refine ⟨.refl v, fun _ _ => ⟨fun _ => rfl, rfl⟩, fun kept => kept, fun none => ?_⟩
    omega
  | succ rounds ih =>
    rcases list : FatAlloc.frees v cursor with _ | ⟨c, rest⟩
    · rw [allocLoop_stop low list]
      refine ⟨.refl v, fun _ _ => ⟨fun _ => rfl, rfl⟩, fun kept => kept, fun _ c head => ?_⟩
      exact absurd head (by simp)
    have taken := takeCluster_taken copies prev c inside
    have above := (mem_frees.mp (list ▸ List.mem_cons_self : c ∈ FatAlloc.frees v cursor)).1
    have prevNext : nextCluster v prev ≠ 0 →
        nextCluster (takeCluster data v prev c done).1 prev ≠ 0 := by
      intro kept
      rw [taken.next]
      split_ifs with both same
      · omega
      · decide
      · exact kept
    have marked : nextCluster (takeCluster data v prev c done).1 c ≠ 0 := by
      rw [taken.next, if_neg (by omega), if_pos rfl]
      decide
    have local' : ∀ d, d ∉ c :: rest →
        (d ≠ prev → nextCluster (takeCluster data v prev c done).1 d = nextCluster v d) ∧
          (takeCluster data v prev c done).1.bytes d = v.bytes d := by
      intro d out
      have differs : d ≠ c := fun same => out (same ▸ List.mem_cons_self)
      refine ⟨fun apart => ?_, taken.bytes d differs⟩
      rw [taken.next, if_neg fun both => apart both.2, if_neg differs]
    rw [allocLoop_take low list]
    by_cases more : (takeCluster data v prev c done).2 < data.length
    · rw [if_pos more]
      have copies' : 0 < (takeCluster data v prev c done).1.numFats := by
        rw [taken.shape.copies]
        exact copies
      obtain ⟨shape, apart, last, _⟩ := ih copies' (c + 1) c (if prev ≠ 0 then first else c)
        (by omega) (Nat.lt_succ_self c) (Nat.le_of_lt more)
      rw [taken.frees list behind] at apart
      refine ⟨taken.shape.trans shape, fun d out => ?_, fun kept => ?_, fun _ d head => ?_⟩
      · have differs : d ≠ c := fun same => out (same ▸ List.mem_cons_self)
        obtain ⟨next, bytes⟩ := apart d fun later => out (List.mem_cons_of_mem c later)
        obtain ⟨next', bytes'⟩ := local' d out
        exact ⟨fun other => (next differs).trans (next' other), bytes.trans bytes'⟩
      · have out : prev ∉ rest := by
          intro listed
          have := (mem_frees.mp (list ▸ List.mem_cons_of_mem c listed :
            prev ∈ FatAlloc.frees v cursor)).1
          omega
        rw [(apart prev out).1 (by omega)]
        exact prevNext kept
      · obtain rfl : c = d := by simpa using head
        exact last marked
    · rw [if_neg more]
      refine ⟨taken.shape, local', prevNext, fun _ d head => ?_⟩
      obtain rfl : c = d := by simpa using head
      exact marked

/-- The clusters are linked in this order, end there, and hold the data that reaches them from
an offset on. -/
def Laid (data : List UInt8) (w : Volume) : List Nat → Nat → Prop
  | [], _ => True
  | c :: rest, done =>
    nextCluster w c = rest.headD endMark ∧
      (∀ s, s < w.sectorsPerCluster → ∀ i, i < blockSize →
        done + s * blockSize + i < data.length →
          w.bytes c s i = data.getD (done + s * blockSize + i) 0) ∧
      Laid data w rest (done + w.sectorsPerCluster * blockSize)

/-- The loop takes the first free clusters: as many as the data needs if it succeeds, and all of
them if it runs out of clusters. -/
theorem allocLoop_laid (copies : 0 < v.numFats) {cursor prev first done : Nat}
    (low : 2 ≤ cursor) (behind : prev < cursor) (inside : done ≤ data.length) {w : Volume}
    {r : Option Nat} (run : allocLoop data rounds v cursor prev first done = (w, r)) :
    ∃ cs, cs <+: FatAlloc.frees v cursor ∧ Laid data w cs done ∧
      (prev ≠ 0 → nextCluster w prev = cs.headD (nextCluster v prev)) ∧
      (∀ head, r = some head → cs ≠ [] ∧ (head = if prev ≠ 0 then first else cs.headD 0) ∧
        data.length ≤ done + cs.length * (v.sectorsPerCluster * blockSize)) ∧
      (r = none → (FatAlloc.frees v cursor).length < rounds → cs = FatAlloc.frees v cursor ∧
        (cs ≠ [] → done + cs.length * (v.sectorsPerCluster * blockSize) < data.length)) := by
  induction rounds generalizing v cursor prev first done with
  | zero =>
    obtain ⟨rfl, rfl⟩ := Prod.mk.inj run
    refine ⟨[], List.nil_prefix, trivial, fun _ => rfl, nofun, fun _ room => ?_⟩
    omega
  | succ rounds ih =>
    rcases list : FatAlloc.frees v cursor with _ | ⟨c, free⟩
    · rw [allocLoop_stop low list] at run
      obtain ⟨rfl, rfl⟩ := Prod.mk.inj run
      exact ⟨[], List.nil_prefix, trivial, fun _ => rfl, nofun,
        fun _ _ => ⟨rfl, fun some => absurd rfl some⟩⟩
    have taken := takeCluster_taken copies prev c inside
    have above := (mem_frees.mp (list ▸ List.mem_cons_self : c ∈ FatAlloc.frees v cursor)).1
    rw [allocLoop_take low list] at run
    by_cases more : (takeCluster data v prev c done).2 < data.length
    · rw [if_pos more] at run
      have copies' : 0 < (takeCluster data v prev c done).1.numFats := by
        rw [taken.shape.copies]
        exact copies
      obtain ⟨cs, front, laid, link, ends, fails⟩ :=
        ih copies' (by omega) (Nat.lt_succ_self c) (Nat.le_of_lt more) run
      obtain ⟨shape, apart, _⟩ := allocLoop_confined data rounds copies' (c + 1) c
        (if prev ≠ 0 then first else c) (by omega) (Nat.lt_succ_self c) (Nat.le_of_lt more)
      rw [run] at shape apart
      rw [taken.frees list behind] at front apart fails
      have count : (takeCluster data v prev c done).2 =
          done + v.sectorsPerCluster * blockSize := by
        have bounded := taken.count
        omega
      rw [count, taken.shape.sectors] at ends fails
      have sectors : w.sectorsPerCluster = v.sectorsPerCluster :=
        shape.sectors.trans taken.shape.sectors
      have sorted := frees_sorted (v := v) cursor
      rw [list] at sorted
      have fresh : ∀ d, d ≤ c → d ∉ free := by
        intro d less listed
        have := (List.pairwise_cons.mp sorted).1 d listed
        omega
      have length : done + (c :: cs).length * (v.sectorsPerCluster * blockSize) =
          done + v.sectorsPerCluster * blockSize +
            cs.length * (v.sectorsPerCluster * blockSize) := by
        rw [List.length_cons, Nat.succ_mul]
        omega
      refine ⟨c :: cs, List.cons_prefix_cons.mpr ⟨rfl, front⟩, ⟨?_, ?_, ?_⟩, fun some => ?_,
        fun head is => ⟨List.cons_ne_nil c cs, ?_, ?_⟩, fun is room => ?_⟩
      · rw [link (by omega), taken.next, if_neg (by omega), if_pos rfl]
      · rw [sectors, (apart c (fresh c (Nat.le_refl c))).2]
        exact taken.blocks
      · rw [sectors, ← count]
        exact laid
      · rw [(apart prev (fresh prev (by omega))).1 (by omega), taken.next, if_pos ⟨some, rfl⟩]
        rfl
      · rw [(ends head is).2.1, if_pos (by omega)]
        rfl
      · rw [length]
        exact (ends head is).2.2
      · rw [List.length_cons] at room
        obtain ⟨rfl, short⟩ := fails is (by omega)
        refine ⟨rfl, fun _ => ?_⟩
        rw [length]
        by_cases some : cs = []
        · subst some
          rw [List.length_nil, Nat.zero_mul, Nat.add_zero, ← count]
          exact more
        · exact short some
    · rw [if_neg more] at run
      obtain ⟨rfl, rfl⟩ := Prod.mk.inj run
      refine ⟨[c], List.cons_prefix_cons.mpr ⟨rfl, List.nil_prefix⟩, ⟨?_, ?_, trivial⟩,
        fun some => ?_, fun head is => ⟨List.cons_ne_nil c [], ?_, ?_⟩, nofun⟩
      · rw [taken.next, if_neg (by omega), if_pos rfl]
        rfl
      · rw [taken.shape.sectors]
        exact taken.blocks
      · rw [taken.next, if_pos ⟨some, rfl⟩]
        rfl
      · exact (Option.some.inj is).symm
      · have bounded := taken.count
        rw [List.length_singleton, Nat.one_mul]
        omega

end Rounds

section Reading

variable {data : List UInt8} {w : Volume} {cs : List Nat} {done : Nat}

theorem laid_drop {front : List Nat} (laid : Laid data w (front ++ cs) done) :
    ∃ later, Laid data w cs later := by
  induction front generalizing done with
  | nil => exact ⟨done, laid⟩
  | cons c front ih => exact ih laid.2.2

theorem laid_chain {c : Nat} (laid : Laid data w (c :: cs) done)
    (narrow : w.total ≤ chainEnd) (range : ∀ d ∈ c :: cs, 2 ≤ d ∧ d < w.total) :
    Chain w c (c :: cs) := by
  induction cs generalizing c done with
  | nil =>
    refine ⟨⟨rfl, range c List.mem_cons_self⟩, ?_⟩
    change min chainEnd (nextCluster w c) = chainEnd
    rw [laid.1]
    rfl
  | cons d rest ih =>
    refine ⟨⟨rfl, range c List.mem_cons_self⟩, ?_⟩
    have step : link w c = d := by
      have high := (range d (List.mem_cons_of_mem c List.mem_cons_self)).2
      rw [link, laid.1]
      exact Nat.min_eq_right (by change d ≤ chainEnd; omega)
    rw [step]
    exact ih laid.2.2 fun e listed => range e (List.mem_cons_of_mem c listed)

theorem blocks_eq (n : Nat) (f : Nat → Nat → UInt8) :
    ((List.range n).flatMap fun s => (List.range blockSize).map (f s)) =
      (List.range (n * blockSize)).map fun p => f (p / blockSize) (p % blockSize) := by
  induction n with
  | zero => simp
  | succ n ih =>
    rw [List.range_succ, List.flatMap_append, ih, List.flatMap_singleton, Nat.succ_mul,
      List.range_add, List.map_append, List.map_map]
    refine congrArg _ (List.map_congr_left fun i listed => ?_)
    have small : i < blockSize := List.mem_range.mp listed
    have quotient : (n * blockSize + i) / blockSize = n := by
      rw [Nat.add_comm, Nat.add_mul_div_right _ _ (by decide), Nat.div_eq_of_lt small, Nat.zero_add]
    have remainder : (n * blockSize + i) % blockSize = i := by
      rw [Nat.add_comm, Nat.add_mul_mod_self_right, Nat.mod_eq_of_lt small]
    simp only [Function.comp, quotient, remainder]

theorem clusterBytes_length (c : Nat) :
    (clusterBytes w c).length = w.sectorsPerCluster * blockSize := by
  rw [clusterBytes, blocks_eq, List.length_map, List.length_range]

theorem clusters_length (cs : List Nat) : (cs.flatMap (clusterBytes w)).length =
    cs.length * (w.sectorsPerCluster * blockSize) := by
  induction cs with
  | nil => simp
  | cons c cs ih =>
    rw [List.flatMap_cons, List.length_append, ih, clusterBytes_length, List.length_cons,
      Nat.succ_mul, Nat.add_comm]

/-- Reading these clusters gives as much of the data as fits in them. -/
theorem laid_read (laid : Laid data w cs done) (m : Nat) :
    ((cs.take m).flatMap (clusterBytes w)).take (data.length - done) =
      (data.drop done).take ((cs.take m).length * (w.sectorsPerCluster * blockSize)) := by
  induction cs generalizing done m with
  | nil => simp
  | cons c rest ih =>
    cases m with
    | zero => simp
    | succ m =>
      obtain ⟨_, blocks, later⟩ := laid
      have first : (clusterBytes w c).take (data.length - done) =
          (data.drop done).take (w.sectorsPerCluster * blockSize) := by
        apply List.ext_getElem
        · rw [List.length_take, clusterBytes_length, List.length_take, List.length_drop]
          exact Nat.min_comm _ _
        · intro p short _
          rw [List.length_take, clusterBytes_length] at short
          have decompose := Nat.div_add_mod p blockSize
          rw [Nat.mul_comm] at decompose
          have sector : p / blockSize < w.sectorsPerCluster :=
            Nat.div_lt_of_lt_mul (by rw [Nat.mul_comm]; omega)
          have byte := blocks (p / blockSize) sector (p % blockSize)
            (Nat.mod_lt p (by decide)) (by omega)
          have place : done + p / blockSize * blockSize + p % blockSize = done + p := by omega
          rw [place, List.getD_eq_getElem _ _ (by omega)] at byte
          simp only [clusterBytes, blocks_eq, List.getElem_take, List.getElem_map,
            List.getElem_range, List.getElem_drop]
          exact byte
      have tail := ih later m
      rw [Nat.sub_add_eq] at tail
      rw [List.take_succ_cons, List.flatMap_cons, List.take_append, clusterBytes_length, first,
        tail, List.length_cons, Nat.succ_mul, Nat.add_comm (_ * _), List.take_add, List.drop_drop]

theorem laid_piece (laid : Laid data w cs done)
    (room : cs ≠ [] → done + cs.length * (w.sectorsPerCluster * blockSize) < data.length)
    (m : Nat) : (cs.take m).flatMap (clusterBytes w) <+: data.drop done := by
  by_cases some : cs = []
  · subst some
    rw [List.take_nil]
    exact List.nil_prefix
  · have fits := room some
    have part : (cs.take m).length * (w.sectorsPerCluster * blockSize) ≤
        cs.length * (w.sectorsPerCluster * blockSize) :=
      Nat.mul_le_mul_right _ (List.length_take_le' m cs)
    have read := laid_read laid m
    rw [List.take_of_length_le (by rw [clusters_length]; omega)] at read
    rw [read]
    exact List.take_prefix _ _

theorem laid_whole (laid : Laid data w cs 0)
    (room : data.length ≤ cs.length * (w.sectorsPerCluster * blockSize)) (m : Nat) :
    ((cs.take m).flatMap (clusterBytes w)).take data.length =
      data.take (m * (w.sectorsPerCluster * blockSize)) := by
  have read := laid_read laid m
  rw [Nat.sub_zero, List.drop_zero] at read
  rw [read, List.length_take]
  rcases Nat.le_total m cs.length with less | more
  · rw [Nat.min_eq_left less]
  · have larger : cs.length * (w.sectorsPerCluster * blockSize) ≤
        m * (w.sectorsPerCluster * blockSize) := Nat.mul_le_mul_right _ more
    rw [Nat.min_eq_right more, List.take_of_length_le room,
      List.take_of_length_le (Nat.le_trans room larger)]

end Reading

end XinuRpi5.Fs.FatAlloc
