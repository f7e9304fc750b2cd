/- source: fs/fat32.c
   digest: What each step of the FAT32 writers can do to the card, and what it may do. -/

import XinuRpi5.Fs.FatSectors

namespace XinuRpi5.Fs.FatSectorRuns

open Lib.BlockIo FatSectors
open Fat32 (blockSize endMark chainEnd byteOf nameTo83)

section Entries

variable (fs : Mounted)

/-- The entry of a cluster as the first copy has it, or what stands where a longer first
copy would have it. -/
def entry (d : Disk Block) (c : Nat) : Nat :=
  le32 (d (fs.fatLba + c * 4 / blockSize)) (c * 4 % blockSize) % 2 ^ 28

/-- The sector of an entry in copy `f`. -/
def entrySector (f c : Nat) : Nat := fs.fatLba + f * fs.sectorsPerFat + c * 4 / blockSize

/-- The card with an entry set in copy `f`. -/
def put (c v f : Nat) (d : Disk Block) : Disk Block :=
  Function.update d (entrySector fs f c)
    (putEntry (d (entrySector fs f c)) (c * 4 % blockSize) v)

/-- The card with an entry set in the copies from `f` on. -/
def putFrom (c v : Nat) : Nat → Nat → Disk Block → Disk Block
  | 0, _, d => d
  | left + 1, f, d => putFrom c v left (f + 1) (put fs c v f d)

def putAll (c v : Nat) (d : Disk Block) : Disk Block := putFrom fs c v fs.numFats 0 d

theorem le32_putEntry (b : Block) (off v : Nat) : le32 (putEntry b off v) off % 2 ^ 28 =
    v % 2 ^ 28 := by
  have bytes (k : Nat) : (byteOf v k).toNat = v / 256 ^ k % 256 := by
    rw [byteOf, UInt8.toNat_ofNat']
  have at0 : putEntry b off v off = byteOf v 0 := if_pos rfl
  have at1 : putEntry b off v (off + 1) = byteOf v 1 := by simp [putEntry]
  have at2 : putEntry b off v (off + 2) = byteOf v 2 := by simp [putEntry]
  have at3 : (putEntry b off v (off + 3)).toNat =
      v / 256 ^ 3 % 16 + (b (off + 3)).toNat / 16 * 16 := by
    have small := (b (off + 3)).toNat_lt
    simp [putEntry, byteOf]
    omega
  unfold le32
  rw [at3, at0, at1, at2, bytes, bytes, bytes]
  omega

theorem le32_putEntry_other (b : Block) {off off' v : Nat}
    (apart : off' + 4 ≤ off ∨ off + 4 ≤ off') : le32 (putEntry b off v) off' = le32 b off' := by
  have same (i : Nat) (inside : i < 4) : putEntry b off v (off' + i) = b (off' + i) := by
    unfold putEntry
    rw [if_neg (by omega), if_neg (by omega), if_neg (by omega), if_neg (by omega)]
  have zero := same 0 (by omega)
  rw [Nat.add_zero] at zero
  unfold le32
  rw [zero, same 1 (by omega), same 2 (by omega), same 3 (by omega)]

theorem entry_put (c v f c' : Nat) (d : Disk Block) : entry fs (put fs c v f d) c' =
    if c' = c + f * total fs then v % 2 ^ 28 else entry fs d c' := by
  have sectors : c' = c + f * total fs ↔
      c' * 4 / blockSize = f * fs.sectorsPerFat + c * 4 / blockSize ∧
        c' * 4 % blockSize = c * 4 % blockSize := by
    unfold total blockSize
    rw [← Nat.mul_assoc]
    omega
  unfold entry put entrySector
  split_ifs with same
  · obtain ⟨sector, off⟩ := sectors.mp same
    rw [sector, ← Nat.add_assoc, Function.update_self, off]
    exact le32_putEntry _ _ _
  · by_cases sector : c' * 4 / blockSize = f * fs.sectorsPerFat + c * 4 / blockSize
    · have apart : c' * 4 % blockSize ≠ c * 4 % blockSize := fun off =>
        same (sectors.mpr ⟨sector, off⟩)
      rw [sector, ← Nat.add_assoc, Function.update_self, le32_putEntry_other]
      unfold blockSize at apart ⊢
      omega
    · rw [Function.update_of_ne (by omega)]

variable {c v left f : Nat} {Q : Bool → Disk Block → Prop}

theorem entry_putFrom_later {c' : Nat} {d : Disk Block} (later : 0 < f)
    (inside : c' < total fs) : entry fs (putFrom fs c v left f d) c' = entry fs d c' := by
  induction left generalizing f d with
  | zero => rfl
  | succ left ih =>
    have other : c' ≠ c + f * total fs := by
      have := Nat.le_mul_of_pos_left (total fs) later
      omega
    rw [putFrom, ih (Nat.succ_pos f), entry_put, if_neg other]

theorem entry_putAll {c' : Nat} {d : Disk Block} (copies : 0 < fs.numFats)
    (inside : c' < total fs) :
    entry fs (putAll fs c v d) c' = if c' = c then v % 2 ^ 28 else entry fs d c' := by
  unfold putAll
  obtain ⟨n, numFats⟩ := Nat.exists_eq_succ_of_ne_zero (Nat.ne_of_gt copies)
  rw [numFats, putFrom, entry_putFrom_later fs (Nat.succ_pos 0) inside, entry_put, Nat.zero_mul,
    Nat.add_zero]

variable {fs} {I : Nat → Prop} {d : Disk Block}

@[simp] theorem safe_nextCluster (c : Nat) (Q : Nat → Disk Block → Prop) :
    Safe I (nextCluster fs c) d Q ↔ Q endMark d ∧ Q (entry fs d c) d := by
  unfold nextCluster
  rw [safe_bind, safe_read]
  exact Iff.rfl

theorem exec_nextCluster (c : Nat) : exec (nextCluster fs c) d = ([], entry fs d c, d) := rfl

theorem setEntryFrom_safe {P : Disk Block → Prop}
    (inside : ∀ g, f ≤ g → g < f + left → I (entrySector fs g c))
    (keeps : ∀ g e, P e → P (put fs c v g e)) (start : P d) :
    Safe I (setEntryFrom fs c v left f) d fun ok e =>
      P e ∧ (ok = true → e = putFrom fs c v left f d) := by
  induction left generalizing f d with
  | zero => exact ⟨start, fun _ => rfl⟩
  | succ left ih =>
    have next := ih (f := f + 1) (fun g low high => inside g (by omega) (by omega))
      (keeps f d start)
    rw [setEntryFrom, safe_bind, safe_read]
    refine ⟨⟨start, nofun⟩, ?_⟩
    rw [safe_bind, safe_write]
    refine ⟨inside f (Nat.le_refl f) (by omega), ?_, ⟨start, nofun⟩, ⟨keeps f d start, nofun⟩⟩
    exact next

theorem exec_setEntryFrom : exec (setEntryFrom fs c v left f) d =
    ((List.range' f left).map (entrySector fs · c), true, putFrom fs c v left f d) := by
  induction left generalizing f d with
  | zero => rfl
  | succ left ih =>
    have step : exec (setEntryFrom fs c v (left + 1) f) d =
        (entrySector fs f c :: (exec (setEntryFrom fs c v left (f + 1)) (put fs c v f d)).1,
          (exec (setEntryFrom fs c v left (f + 1)) (put fs c v f d)).2) := rfl
    rw [step, ih]
    rfl

theorem calm_setEntry : Calm I (setEntry fs c v) d Q ↔
    (∀ f, f < fs.numFats → I (entrySector fs f c)) ∧ Q true (putAll fs c v d) := by
  rw [calm_of_exec (p := setEntry fs c v) exec_setEntryFrom, List.forall_mem_map]
  simp only [List.mem_range'_1, Nat.zero_le, true_and, Nat.zero_add]
  exact Iff.rfl

theorem setEntryFrom_may_fail (some : 0 < left) (safe : Safe I (setEntryFrom fs c v left f) d Q) :
    Q false d := by
  obtain ⟨n, rfl⟩ := Nat.exists_eq_succ_of_ne_zero (Nat.ne_of_gt some)
  rw [setEntryFrom, safe_bind, safe_read] at safe
  exact safe.1

theorem setEntry_may_first (copies : 0 < fs.numFats)
    (safe : Safe I (setEntry fs c v) d Q) : ∃ ok, Q ok (put fs c v 0 d) := by
  unfold setEntry at safe
  obtain ⟨n, numFats⟩ := Nat.exists_eq_succ_of_ne_zero (Nat.ne_of_gt copies)
  rw [numFats, setEntryFrom, safe_bind, safe_read] at safe
  obtain ⟨_, safe⟩ := safe
  rw [safe_bind, safe_write] at safe
  obtain ⟨_, done, _⟩ := safe
  cases n with
  | zero => exact ⟨true, done⟩
  | succ n => exact ⟨false, setEntryFrom_may_fail (Nat.succ_pos n) done⟩

theorem setEntry_safe {P : Disk Block → Prop} {c v : Nat}
    (inside : ∀ f, f < fs.numFats → I (entrySector fs f c))
    (keeps : ∀ g e, P e → P (put fs c v g e)) (start : P d) :
    Safe I (setEntry fs c v) d fun ok e => P e ∧ (ok = true → e = putAll fs c v d) :=
  setEntryFrom_safe (fun g _ high => inside g (by omega)) keeps start

end Entries

section Scanning

variable {fs : Mounted} {I : Nat → Prop} {d : Disk Block} {Q : Nat → Disk Block → Prop}

theorem scanFree_safe (left c : Nat) :
    Safe I (scanFree fs left c) d fun r e =>
      e = d ∧ (r = 0 ∨ c ≤ r ∧ r < c + left ∧ entry fs d r = 0) := by
  induction left generalizing c with
  | zero => exact ⟨rfl, Or.inl rfl⟩
  | succ left ih =>
    have later : Safe I (scanFree fs left (c + 1)) d fun r e =>
        e = d ∧ (r = 0 ∨ c ≤ r ∧ r < c + (left + 1) ∧ entry fs d r = 0) := by
      refine (ih (c + 1)).mono fun r e found => ⟨found.1, found.2.imp_right fun found => ?_⟩
      exact ⟨by omega, by omega, found.2.2⟩
    rw [scanFree, safe_bind, safe_nextCluster]
    constructor
    · exact later
    · split_ifs with free
      · exact ⟨rfl, Or.inr ⟨Nat.le_refl c, by omega, free⟩⟩
      · exact later

theorem scanFree_may {left c r : Nat} (safe : Safe I (scanFree fs left c) d Q) (low : c ≤ r)
    (high : r < c + left) (free : entry fs d r = 0) : Q r d := by
  induction left generalizing c with
  | zero => omega
  | succ left ih =>
    rw [scanFree, safe_bind, safe_nextCluster] at safe
    rcases Nat.eq_or_lt_of_le low with rfl | later
    · have here := safe.2
      rw [if_pos free] at here
      exact here
    · exact ih safe.1 later (by omega)

/-- A free cluster that a scan from `start` can find, below a bound on the numbers. -/
def Free (fs : Mounted) (bound : Nat) (d : Disk Block) (start c : Nat) : Prop :=
  max 2 start ≤ c ∧ c < min (total fs) bound ∧ entry fs d c = 0

theorem scanFreeFrom_safe (start : Nat) : Safe I (scanFreeFrom fs start) d fun r e =>
    e = d ∧ (r = 0 ∨ Free fs (2 ^ 32) d start r) := by
  refine (scanFree_safe _ _).mono fun r e found => ⟨found.1, found.2.imp_right fun found => ?_⟩
  exact ⟨found.1, by omega, found.2.2⟩

theorem scanFreeFrom_may {start r : Nat} (safe : Safe I (scanFreeFrom fs start) d Q)
    (free : Free fs (2 ^ 32) d start r) : Q r d :=
  scanFree_may safe free.1 (by have := free.2.1; have := free.1; omega) free.2.2

/-- The first free cluster from `start` on. -/
def firstFree (fs : Mounted) (d : Disk Block) (start : Nat) : Option Nat :=
  (List.range' (max 2 start) (min (total fs) (2 ^ 32) - max 2 start)).find? (entry fs d · = 0)

theorem exec_scanFree (left c : Nat) : exec (scanFree fs left c) d =
    ([], ((List.range' c left).find? (entry fs d · = 0)).getD 0, d) := by
  induction left generalizing c with
  | zero => rfl
  | succ left ih =>
    rw [scanFree, exec_bind, exec_nextCluster, List.range'_succ]
    by_cases free : entry fs d c = 0
    · rw [List.find?_cons_of_pos (by simpa using free), if_pos free]
      rfl
    · rw [List.find?_cons_of_neg (by simpa using free), if_neg free, ih]
      rfl

theorem calm_scanFreeFrom {start : Nat} :
    Calm I (scanFreeFrom fs start) d Q ↔ Q ((firstFree fs d start).getD 0) d :=
  (calm_of_exec (p := scanFreeFrom fs start) (exec_scanFree _ _)).trans
    (and_iff_right fun _ listed => (List.not_mem_nil listed).elim)

end Scanning

section Searching

variable (fs : Mounted) (fits : Block → Nat → Bool) (d : Disk Block) {rounds cur : Nat}

def firstSector (cluster : Nat) : Nat → Nat → Option Found
  | 0, _ => none
  | left + 1, s =>
    match slotIn fits (d (clusterToLba fs cluster + s)) with
    | some off => some ⟨cluster, s, off, d (clusterToLba fs cluster + s)⟩
    | none => firstSector cluster left (s + 1)

def first : Nat → Nat → Option Found
  | 0, _ => none
  | rounds + 1, cur =>
    if 2 ≤ cur ∧ cur < chainEnd then
      match firstSector fs fits d cur fs.sectorsPerCluster 0 with
      | some slot => some slot
      | none => first rounds (entry fs d cur)
    else none

variable {fs fits d} {I : Nat → Prop}

theorem firstSector_place {cluster left s : Nat} {slot : Found}
    (found : firstSector fs fits d cluster left s = some slot) :
    slot.cluster = cluster ∧ slot.sector < s + left := by
  induction left generalizing s with
  | zero => cases found
  | succ left ih =>
    rw [firstSector] at found
    cases here : slotIn fits (d (clusterToLba fs cluster + s)) with
    | some off =>
      rw [here] at found
      obtain rfl := Option.some.inj found
      exact ⟨rfl, by change s < s + (left + 1); omega⟩
    | none =>
      rw [here] at found
      obtain ⟨same, less⟩ := ih found
      exact ⟨same, by omega⟩

theorem first_place {slot : Found} (found : first fs fits d rounds cur = some slot) :
    2 ≤ slot.cluster ∧ slot.sector < fs.sectorsPerCluster := by
  induction rounds generalizing cur with
  | zero => cases found
  | succ rounds ih =>
    rw [first] at found
    split_ifs at found with range
    cases here : firstSector fs fits d cur fs.sectorsPerCluster 0 with
    | some slot' =>
      rw [here] at found
      obtain rfl := Option.some.inj found
      obtain ⟨same, less⟩ := firstSector_place here
      rw [same]
      exact ⟨range.1, by omega⟩
    | none =>
      rw [here] at found
      exact ih found

theorem searchSectors_safe (cluster left s : Nat) :
    Safe I (searchSectors fs fits cluster left s) d fun r e => e = d ∧
      ∀ o, r = .ok o → o = firstSector fs fits d cluster left s := by
  induction left generalizing s with
  | zero =>
    refine ⟨rfl, fun o is => ?_⟩
    exact (Except.ok.inj is).symm
  | succ left ih =>
    rw [searchSectors, safe_bind, safe_read]
    refine ⟨⟨rfl, nofun⟩, ?_⟩
    dsimp only
    rw [firstSector]
    cases slotIn fits (d (clusterToLba fs cluster + s)) with
    | some off =>
      refine ⟨rfl, fun o is => ?_⟩
      exact (Except.ok.inj is).symm
    | none => exact ih (s + 1)

theorem exec_searchSectors (cluster left s : Nat) :
    exec (searchSectors fs fits cluster left s) d =
      ([], .ok (firstSector fs fits d cluster left s), d) := by
  induction left generalizing s with
  | zero => rfl
  | succ left ih =>
    have step : exec (searchSectors fs fits cluster (left + 1) s) d =
        exec (match slotIn fits (d (clusterToLba fs cluster + s)) with
          | some off => return .ok (some ⟨cluster, s, off, d (clusterToLba fs cluster + s)⟩)
          | none => searchSectors fs fits cluster left (s + 1)) d := rfl
    rw [step, firstSector]
    cases slotIn fits (d (clusterToLba fs cluster + s)) with
    | some off => rfl
    | none => exact ih (s + 1)

/-- A search finds the first slot, or fails, or misses it behind the first cluster. -/
theorem search_safe (rounds cur : Nat) :
    Safe I (search fs fits rounds cur) d fun r e => e = d ∧
      (∀ slot, r = .ok (some slot) → first fs fits d rounds cur = some slot) ∧
      (r = .ok none → first fs fits d (min rounds 1) cur = none) := by
  induction rounds generalizing cur with
  | zero => exact ⟨rfl, nofun, fun _ => rfl⟩
  | succ rounds ih =>
    rw [search, show min (rounds + 1) 1 = 1 by omega]
    split_ifs with range
    · rw [safe_bind]
      refine (searchSectors_safe cur fs.sectorsPerCluster 0).mono fun r e sectors => ?_
      obtain ⟨rfl, found⟩ := sectors
      match r, found with
      | .error (), _ => exact ⟨rfl, nofun, nofun⟩
      | .ok (some slot), found =>
        have is := found _ rfl
        refine ⟨rfl, fun slot' same => ?_, nofun⟩
        rw [first, if_pos range, ← is]
        exact Except.ok.inj same
      | .ok none, found =>
        have is := found _ rfl
        have alone : first fs fits e 1 cur = none := by
          rw [first, if_pos range, ← is]
          rfl
        dsimp only
        rw [safe_bind, safe_nextCluster]
        constructor
        · refine (ih endMark).mono fun r e' later => ⟨later.1, fun slot same => ?_, fun _ => alone⟩
          have nothing := later.2.1 slot same
          cases rounds with
          | zero => cases nothing
          | succ rounds => cases nothing
        · refine (ih _).mono fun r e' later => ⟨later.1, fun slot same => ?_, fun _ => alone⟩
          rw [first, if_pos range, ← is]
          exact later.2.1 slot same
    · refine ⟨rfl, nofun, fun _ => ?_⟩
      rw [first, if_neg range]

/-- Where no transfer fails a search finds the first slot. -/
theorem exec_search (rounds cur : Nat) :
    exec (search fs fits rounds cur) d = ([], .ok (first fs fits d rounds cur), d) := by
  induction rounds generalizing cur with
  | zero => rfl
  | succ rounds ih =>
    rw [search, first]
    split_ifs with range
    · rw [exec_bind, exec_searchSectors]
      cases firstSector fs fits d cur fs.sectorsPerCluster 0 with
      | some slot => rfl
      | none => exact ih (entry fs d cur)
    · rfl

theorem calm_search {Q : Except Unit (Option Found) → Disk Block → Prop} :
    Calm I (search fs fits rounds cur) d Q ↔ Q (.ok (first fs fits d rounds cur)) d := by
  rw [calm_of_exec (exec_search rounds cur)]
  exact and_iff_right fun lba listed => (List.not_mem_nil listed).elim

theorem search_may_miss {Q : Except Unit (Option Found) → Disk Block → Prop}
    (safe : Safe I (search fs fits (rounds + 1) cur) d Q) (miss : first fs fits d 1 cur = none) :
    Q (.ok none) d := by
  rw [search] at safe
  rw [first] at miss
  split_ifs at safe miss with range
  · rw [safe_bind] at safe
    have sectors := ((calm_of_exec (exec_searchSectors _ _ _)).mp safe.calm).2
    cases found : firstSector fs fits d cur fs.sectorsPerCluster 0 with
    | some slot =>
      rw [found] at miss
      cases miss
    | none =>
      rw [found] at sectors
      dsimp only at sectors
      rw [safe_bind, safe_nextCluster] at sectors
      have ended := sectors.1
      cases rounds with
      | zero => exact ended
      | succ rounds => exact ended
  · exact safe

end Searching

section Freeing

variable (fs : Mounted)

/-- The clusters that a loop over a chain visits with a budget of rounds. -/
def walk (d : Disk Block) : Nat → Nat → List Nat
  | 0, _ => []
  | rounds + 1, c =>
    if 2 ≤ c ∧ c < chainEnd then c :: walk d rounds (entry fs d c) else []

variable {fs} {I : Nat → Prop} {d e : Disk Block}

variable {rounds c : Nat}

theorem walk_out (out : ¬ (2 ≤ c ∧ c < chainEnd)) : walk fs d rounds c = [] := by
  cases rounds with
  | zero => rfl
  | succ rounds => rw [walk, if_neg out]

theorem mem_walk {x : Nat} (listed : x ∈ walk fs d rounds c) :
    2 ≤ x ∧ x < chainEnd := by
  induction rounds generalizing c with
  | zero => cases listed
  | succ rounds ih =>
    rw [walk] at listed
    split_ifs at listed with range
    · rcases List.mem_cons.mp listed with rfl | later
      · exact range
      · exact ih later
    · cases listed

theorem walk_congr (same : ∀ x ∈ walk fs d rounds c, entry fs e x = entry fs d x) :
    walk fs e rounds c = walk fs d rounds c := by
  induction rounds generalizing c with
  | zero => rfl
  | succ rounds ih =>
    rw [walk] at same ⊢
    rw [walk]
    split_ifs at same ⊢ with range
    · rw [same c List.mem_cons_self, ih fun x later => same x (List.mem_cons_of_mem c later)]
    · rfl

/-- The entries while a chain is freed: some are zero, in the FAT only those of the chain. -/
structure Freed (fs : Mounted) (W : List Nat) (d e : Disk Block) : Prop where
  zero : ∀ c, entry fs e c = entry fs d c ∨ entry fs e c = 0
  own : ∀ c, c < total fs → entry fs e c = entry fs d c ∨ c ∈ W

theorem Freed.refl (W : List Nat) (d : Disk Block) : Freed fs W d d :=
  ⟨fun _ => Or.inl rfl, fun _ _ => Or.inl rfl⟩

theorem Freed.put {W : List Nat} (freed : Freed fs W d e) (listed : c ∈ W) (f : Nat) :
    Freed fs W d (put fs c 0 f e) := by
  constructor
  · intro c'
    rw [entry_put]
    split_ifs
    · exact Or.inr rfl
    · exact freed.zero c'
  · intro c' inside
    rw [entry_put]
    split_ifs with same
    · cases f with
      | zero =>
        rw [Nat.zero_mul, Nat.add_zero] at same
        rw [same]
        exact Or.inr listed
      | succ f =>
        rw [Nat.succ_mul] at same
        omega
    · exact freed.own c' inside

/-- Freeing a chain only writes sectors of its entries, and frees no other cluster. -/
theorem freeChain_safe {W : List Nat}
    (inside : ∀ c ∈ W, ∀ f, f < fs.numFats → I (entrySector fs f c))
    (sub : ∀ x ∈ walk fs d rounds c, x ∈ W) (freed : Freed fs W d e) :
    Safe I (freeChain fs rounds c) e fun _ e' => Freed fs W d e' := by
  induction rounds generalizing c e with
  | zero => exact freed
  | succ rounds ih =>
    rw [freeChain]
    rw [walk] at sub
    split_ifs at sub ⊢ with range
    · have here : c ∈ W := sub c List.mem_cons_self
      have step (nx : Nat) (rest : ∀ x ∈ walk fs d rounds nx, x ∈ W) :
          Safe I (setEntry fs c 0 >>= fun _ => freeChain fs rounds nx) e fun _ e' =>
            Freed fs W d e' := by
        rw [safe_bind]
        refine (setEntry_safe (inside c here) (fun g e' now => now.put here g) freed).mono ?_
        intro ok e' now
        exact ih rest now.1
      have none (nx : Nat) (out : ¬ (2 ≤ nx ∧ nx < chainEnd)) :
          ∀ x ∈ walk fs d rounds nx, x ∈ W := by
        rw [walk_out out]
        intro x listed
        cases listed
      rw [safe_bind, safe_nextCluster]
      refine ⟨step endMark (none endMark (by decide)), step _ ?_⟩
      rcases freed.zero c with same | zero
      · rw [same]
        exact fun x later => sub x (List.mem_cons_of_mem c later)
      · rw [zero]
        exact none 0 (by decide)
    · exact freed

theorem freeChain_may_write {Q : Unit → Disk Block → Prop} {x f : Nat}
    (safe : Safe I (freeChain fs rounds c) d Q) (listed : x ∈ walk fs d rounds c)
    (copy : f < fs.numFats) : I (entrySector fs f x) := by
  induction rounds generalizing c with
  | zero => cases listed
  | succ rounds ih =>
    rw [freeChain] at safe
    rw [walk] at listed
    split_ifs at safe listed with range
    · rw [safe_bind, safe_nextCluster] at safe
      have here := safe.2
      rw [safe_bind] at here
      rcases List.mem_cons.mp listed with rfl | later
      · exact (calm_setEntry.mp here.calm).1 f copy
      · exact ih (setEntryFrom_may_fail (by omega) here) later
    · cases listed

/-- It may also free, in the first copy, exactly the clusters of the chain. -/
theorem freeChain_may_free {Q : Unit → Disk Block → Prop}
    (copies : 0 < fs.numFats) (safe : Safe I (freeChain fs rounds c) d Q) :
    ∃ e, Q () e ∧ ∀ x, entry fs e x = if x ∈ walk fs d rounds c then 0 else entry fs d x := by
  induction rounds generalizing c d with
  | zero => exact ⟨d, safe, fun x => (if_neg (List.not_mem_nil)).symm⟩
  | succ rounds ih =>
    rw [freeChain] at safe
    rw [walk]
    split_ifs at safe ⊢ with range
    · rw [safe_bind, safe_nextCluster] at safe
      have here := safe.2
      rw [safe_bind] at here
      -- the entry of a cluster is set when the chain comes to it for the last time
      by_cases again : c ∈ walk fs d rounds (entry fs d c)
      · obtain ⟨e, last, entries⟩ := ih (setEntryFrom_may_fail copies here)
        refine ⟨e, last, fun x => ?_⟩
        rw [entries]
        by_cases same : x = c
        · rw [same, if_pos again, if_pos List.mem_cons_self]
        · simp [same]
      · obtain ⟨ok, later⟩ := setEntry_may_first copies here
        have others : ∀ x ∈ walk fs d rounds (entry fs d c),
            entry fs (put fs c 0 0 d) x = entry fs d x := by
          intro x listed
          have other : x ≠ c + 0 * total fs := by
            rintro rfl
            rw [Nat.zero_mul, Nat.add_zero] at listed
            exact again listed
          rw [entry_put, if_neg other]
        obtain ⟨e, last, entries⟩ := ih later
        refine ⟨e, last, fun x => ?_⟩
        rw [entries, walk_congr others, entry_put, Nat.zero_mul, Nat.add_zero]
        by_cases same : x = c
        · rw [same, if_neg again, if_pos rfl, if_pos List.mem_cons_self, Nat.zero_mod]
        · simp [same]
    · refine ⟨d, safe, fun x => ?_⟩
      rw [if_neg List.not_mem_nil]

end Freeing

section Filling

variable (fs : Mounted) (data : List UInt8)

def filled (base : Nat) : Nat → Nat → Disk Block → Disk Block
  | 0, _, d => d
  | left + 1, s, d =>
    filled base left (s + 1) (Function.update d (base + s) (blockOf data (blockSize * s)))

/-- The same until the data is used up, with the offset that is reached. -/
def filledUntil (base : Nat) : Nat → Nat → Nat → Disk Block → Nat × Disk Block
  | 0, _, done, d => (done, d)
  | left + 1, s, done, d =>
    let d := Function.update d (base + s) (blockOf data done)
    let done := min (done + blockSize) data.length
    if data.length ≤ done then (done, d) else filledUntil base left (s + 1) done d

variable {fs data} {I : Nat → Prop} {d : Disk Block}

variable {base left s done : Nat}

theorem fillCluster_safe (inside : ∀ t, s ≤ t → t < s + left → I (base + t)) :
    Safe I (fillCluster data base left s) d fun ok e =>
      ok = true → e = filled data base left s d := by
  induction left generalizing s d with
  | zero => exact fun _ => rfl
  | succ left ih =>
    rw [fillCluster, safe_bind, safe_write]
    refine ⟨inside s (Nat.le_refl s) (by omega), ?_, nofun, nofun⟩
    exact ih fun t low high => inside t (by omega) (by omega)

theorem exec_fillCluster : exec (fillCluster data base left s) d =
    ((List.range' s left).map (base + ·), true, filled data base left s d) := by
  induction left generalizing s d with
  | zero => rfl
  | succ left ih =>
    rw [fillCluster, exec_bind]
    exact congrArg (fun r => ((base + s) :: r.1, r.2)) (ih (s := s + 1))

theorem calm_fillCluster {Q : Bool → Disk Block → Prop} :
    Calm I (fillCluster data base left 0) d Q ↔
      (∀ t, t < left → I (base + t)) ∧ Q true (filled data base left 0 d) := by
  rw [calm_of_exec exec_fillCluster, List.forall_mem_map]
  simp only [List.mem_range'_1, Nat.zero_le, true_and, Nat.zero_add]

theorem fillUntil_safe (inside : ∀ t, s ≤ t → t < s + left → I (base + t)) :
    Safe I (fillUntil data base left s done) d fun r e =>
      ∀ done', r = some done' → (done', e) = filledUntil data base left s done d := by
  induction left generalizing s done d with
  | zero =>
    intro done' is
    rw [Option.some.inj is]
    rfl
  | succ left ih =>
    rw [fillUntil, safe_bind, safe_write]
    refine ⟨inside s (Nat.le_refl s) (by omega), ?_, nofun, nofun⟩
    rw [filledUntil]
    dsimp only
    rw [if_pos rfl]
    split_ifs
    · intro done' is
      rw [Option.some.inj is]
    · exact ih fun t low high => inside t (by omega) (by omega)

theorem fillUntil_may {Q : Option Nat → Disk Block → Prop}
    (safe : Safe I (fillUntil data base left s done) d Q) :
    Q (some (filledUntil data base left s done d).1) (filledUntil data base left s done d).2 ∧
      (0 < left → I (base + s)) := by
  induction left generalizing s done d with
  | zero => exact ⟨safe, nofun⟩
  | succ left ih =>
    rw [fillUntil, safe_bind, safe_write] at safe
    refine ⟨?_, fun _ => safe.1⟩
    have here := safe.2.1
    rw [filledUntil]
    dsimp only at here ⊢
    rw [if_pos rfl] at here
    split_ifs at here ⊢
    · exact here
    · exact (ih here).1

theorem filledUntil_done (start : done ≤ data.length) :
    (filledUntil data base left s done d).1 =
      if left = 0 then done else min (done + left * blockSize) data.length := by
  induction left generalizing s done d with
  | zero => rfl
  | succ left ih =>
    rw [filledUntil]
    rw [if_neg (Nat.succ_ne_zero left)]
    split_ifs with full
    · rw [Nat.succ_mul]
      unfold blockSize at full ⊢
      change min (done + 512) data.length = _
      omega
    · rw [ih (by omega), Nat.succ_mul]
      unfold blockSize at full ⊢
      split_ifs with last
      · omega
      · omega

theorem filledUntil_before {l : Nat} (before : l < base) :
    (filledUntil data base left s done d).2 l = d l := by
  induction left generalizing s done d with
  | zero => rfl
  | succ left ih =>
    rw [filledUntil]
    have other : l ≠ base + s := by omega
    split_ifs
    · exact Function.update_of_ne other _ _
    · exact ih.trans (Function.update_of_ne other _ _)

end Filling

end XinuRpi5.Fs.FatSectorRuns
