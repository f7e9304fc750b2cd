/- source: system/smpsched.c
   digest: smpsched_nqueens shares the first row between processes and adds up their counts. -/

import XinuRpi5.System.NQueens
import XinuRpi5.System.SmpSchedExact

/-!
The processes are readied once their ranges are set; any core may run them, in any order,
before or after the caller computes its own range. A process reads and writes the entries
of its own pid alone, so its body is one step. The measurements (`sm_loop`, `sm_ran`,
`sm_stkuse`, the times, the pids that processes saw) are not modelled.
-/

namespace XinuRpi5.System.NQueensTasks

open Lib.BitScan Lib.Queens Lib.SplitRange
open NQueens
open SmpMailbox (Long long smpNcores)
open SmpExact (long_of_range)
open SmpSched (int)
open SmpSchedExact (int_of_range)

def smMaxtask : Nat := 6

/-- The variables that the caller and its processes share, and `sm_busy`. -/
structure Shared where
  busy : Bool
  verify : Bool
  n : Int
  lo : Nat → Int
  hi : Nat → Int
  res : Nat → Long
  res2 : Nat → Long
  hits : Nat → Nat
  mismatch : Nat
  double : Nat
  done : Nat

/-- The loop over the columns from `c` on, with `t` counted so far. -/
def columnsFrom (all : Unsigned) : (columns : Nat) → (c : Nat) → (t : Long) → Option Long
  | 0, _, t => some t
  | columns + 1, c, t =>
    let bit := (1 : Unsigned) <<< c
    (nq nqDepth bit (bit <<< 1) (bit >>> 1) all).bind fun r =>
      columnsFrom all columns (c + 1) (t + r)

def nqRange (n lo hi : Int) : Option Long :=
  columnsFrom (allColumns n) (hi - lo).toNat lo.toNat 0

/-- The end of `sm_task`, under the lock of the scheduler. -/
def Shared.count (s : Shared) (pid : Nat) : Shared :=
  { s with
    done := s.done + 1
    hits := Function.update s.hits pid (s.hits pid + 1)
    double := if 1 < s.hits pid + 1 then s.double + 1 else s.double }

def smTask (s : Shared) (pid : Nat) : Option Shared :=
  (nqRange s.n (s.lo pid) (s.hi pid)).bind fun t =>
    let s := { s with res := Function.update s.res pid t }
    if s.verify then
      (nqRange s.n (s.lo pid) (s.hi pid)).map fun t2 =>
        { s with
          res2 := Function.update s.res2 pid t2
          mismatch := if t2 = t then s.mismatch else s.mismatch + 1 }.count pid
    else some (s.count pid)

def runTasks : List Nat → Shared → Option Shared
  | [], s => some s
  | pid :: pids, s => (smTask s pid).bind (runTasks pids)

def clampSize (n : Int) : Int := if n < 1 ∨ 16 < n then 13 else n

/-- `ntasks` after its clamps. -/
def clampTasks (n ntasks : Int) : Int :=
  let k := if ntasks < 1 then (smpNcores : Int) else ntasks
  let k := if (smMaxtask : Int) < k then (smMaxtask : Int) else k
  if n < k then n else k

/-- The bound in front of range `t`. -/
def cut (n ndiv : Int) (t : Nat) : Int := int ((long (t * n)).tdiv ndiv)

def wantProc (mode ndiv : Int) : Int := if mode = 1 ∧ 1 < ndiv then ndiv - 1 else ndiv

/-- The loop that creates the processes: `create t` is what `proc_create_static_susp` returns
for the `t`-th, and `pids` are those that are there. -/
def createTasks (n ndiv : Int) (create : Nat → Option Nat) :
    (left : Nat) → (pids : List Nat) → Shared → List Nat × Shared
  | 0, pids, s => (pids, s)
  | left + 1, pids, s =>
    match create pids.length with
    | none => (pids, s)
    | some pid =>
      createTasks n ndiv create left (pids ++ [pid])
        { s with
          lo := Function.update s.lo pid (cut n ndiv pids.length)
          hi := Function.update s.hi pid (cut n ndiv (pids.length + 1))
          res := Function.update s.res pid 0
          hits := Function.update s.hits pid 0 }

/-- A call when its processes are created: `n` and `ndiv` are the clamped arguments. -/
structure Created where
  n : Int
  ndiv : Int
  pids : List Nat
  shared : Shared

def create (mode n ntasks : Int) (create : Nat → Option Nat) (s : Shared) : Created :=
  let n := clampSize n
  let ndiv := clampTasks n ntasks
  let created := createTasks n ndiv create (wantProc mode ndiv).toNat []
    { s with busy := true, n := n, done := 0, double := 0, mismatch := 0 }
  ⟨n, ndiv, created.1, created.2⟩

namespace Created

/-- The first column of the caller's own range, which ends at `n`. -/
def inlineLo (c : Created) : Int := cut c.n c.ndiv c.pids.length

def ranges (c : Created) : List (Int × Int) :=
  c.pids.map (fun pid => (c.shared.lo pid, c.shared.hi pid)) ++ [(c.inlineLo, c.n)]

def inlineStep (c : Created) (s : Shared) : Option (Long × Shared) :=
  if c.inlineLo < c.n then
    (nqRange c.n c.inlineLo c.n).map fun t => (t, { s with done := s.done + 1 })
  else some (0, s)

def target (c : Created) : Nat := c.pids.length + if c.inlineLo < c.n then 1 else 0

/-- The rest of the call, when the processes of `before` finish before the caller's own
range and those of `after` after it; `none` when the caller still waits. -/
def finish (c : Created) (before after : List Nat) : Option (Long × Shared) :=
  (runTasks before c.shared).bind fun s =>
    (c.inlineStep s).bind fun own =>
      (runTasks after own.2).bind fun s =>
        if s.done < c.target then none
        else
          some (c.pids.foldl (fun total pid => total + s.res pid) own.1, { s with busy := false })

end Created

def smpschedNqueens (mode n ntasks : Int) (made : Nat → Option Nat) (before after : List Nat)
    (s : Shared) : Option (Long × Shared) :=
  if s.busy then some (-1, s) else (create mode n ntasks made s).finish before after

section Range

variable {n : Nat}

/-- The boards with a first queen in the columns from `lo` to `hi`. -/
def firstRow (n : Nat) (lo hi : Int) : Long :=
  ∑ c ∈ Finset.Ico lo.toNat hi.toNat, (completions n [c] : Long)

theorem firstRow_additive (n : Nat) : Additive (firstRow n) := by
  intro a b c low left right
  exact Finset.sum_Ico_consecutive _ (by omega) (by omega)

theorem firstRow_all (some : 0 < n) : firstRow n 0 n = ((solutions n).card : Long) := by
  rw [firstRow, ← Nat.cast_sum, ← completions_nil, completions_step (by simpa using some)]
  simp

theorem nq_first (small : n ≤ 32) {c : Nat} (inside : c < n) :
    nq nqDepth ((1 : Unsigned) <<< c) ((1 : Unsigned) <<< c <<< 1) ((1 : Unsigned) <<< c >>> 1)
      (allColumns n) = some (completions n [c] : Long) := by
  have free : (Placement.empty n).Free c := by simp [Placement.Free, Placement.empty]
  have masks := Masks.empty.push small inside free
  have only : (0 : Unsigned) ||| BitVec.twoPow 32 c = BitVec.twoPow 32 c := BitVec.zero_or
  rw [only] at masks
  exact nq_counts masks small

theorem columnsFrom_eq (small : n ≤ 32) {columns c : Nat} {t : Long} (inside : c + columns ≤ n) :
    columnsFrom (allColumns n) columns c t =
      some (t + ∑ j ∈ Finset.Ico c (c + columns), (completions n [j] : Long)) := by
  induction columns generalizing c t with
  | zero => simp [columnsFrom]
  | succ columns ih =>
    have rest : c + (columns + 1) = c + 1 + columns := by omega
    have first : c < c + 1 + columns := by omega
    rw [columnsFrom, nq_first small (by omega), Option.bind_some, ih (by omega), add_assoc, rest,
      Finset.sum_eq_sum_Ico_succ_bot first]

theorem nqRange_eq (small : n ≤ 32) {lo hi : Int} (low : 0 ≤ lo) (high : hi ≤ n) :
    nqRange n lo hi = some (firstRow n lo hi) := by
  rcases Int.le_total lo hi with le | empty
  · have last : lo.toNat + (hi - lo).toNat = hi.toNat := by omega
    rw [nqRange, columnsFrom_eq small (by omega), zero_add, last, firstRow]
  · have none : (hi - lo).toNat = 0 := by omega
    rw [nqRange, none, columnsFrom, firstRow, Finset.Ico_eq_empty_of_le (by omega),
      Finset.sum_empty]

end Range

theorem clampSize_range (n : Int) : 1 ≤ clampSize n ∧ clampSize n ≤ 16 := by
  rw [clampSize]
  split <;> omega

theorem clampTasks_range {n : Int} (some : 1 ≤ n) (ntasks : Int) :
    1 ≤ clampTasks n ntasks ∧ clampTasks n ntasks ≤ 6 := by
  rw [clampTasks, smpNcores, smMaxtask]
  split <;> omega

theorem wantProc_le {mode ndiv : Int} : wantProc mode ndiv ≤ ndiv := by
  rw [wantProc]
  split <;> omega

theorem cut_eq {n : Int} {ndiv t : Nat} (low : 1 ≤ n) (high : n ≤ 16) (few : t ≤ 6)
    (inside : t ≤ ndiv) (some : 1 ≤ ndiv) : cut n ndiv t = evenCut n ndiv t := by
  have lower : 0 ≤ (t : Int) * n := Int.mul_nonneg (by omega) (by omega)
  have upper : (t : Int) * n ≤ 6 * n := Int.mul_le_mul_of_nonneg_right (by omega) (by omega)
  have positive : 0 ≤ evenCut n ndiv t := Int.ediv_nonneg lower (by omega)
  have least : evenCut n ndiv t ≤ n := by
    calc evenCut n ndiv t ≤ evenCut n ndiv ndiv := evenCut_mono (by omega) some inside
      _ = n := evenCut_all n some
  rw [cut, long_of_range lower (by omega), Int.tdiv_eq_ediv_of_nonneg lower]
  exact int_of_range positive (by rw [evenCut] at least; omega)

section Creation

/-- No process is created under the pid of another: the slots of those that wait are taken. -/
def Distinct (made : Nat → Option Nat) : Prop :=
  ∀ t u pid, made t = some pid → made u = some pid → t = u

structure Laid (n ndiv : Int) (made : Nat → Option Nat) (start : Shared) (pids : List Nat)
    (s : Shared) : Prop where
  made : ∀ t pid, pids[t]? = some pid → made t = some pid
  lo : ∀ t pid, pids[t]? = some pid → s.lo pid = cut n ndiv t
  hi : ∀ t pid, pids[t]? = some pid → s.hi pid = cut n ndiv (t + 1)
  n : s.n = start.n
  done : s.done = start.done
  mismatch : s.mismatch = start.mismatch

variable {n ndiv : Int} {made : Nat → Option Nat} {start s : Shared} {pids : List Nat}

theorem Laid.none : Laid n ndiv made s [] s := by
  constructor <;> simp

theorem Laid.nodup (h : Laid n ndiv made start pids s) (distinct : Distinct made) :
    pids.Nodup := by
  rw [List.nodup_iff_getElem?_ne_getElem?]
  intro t u less bound same
  have first := List.getElem?_eq_getElem (Nat.lt_trans less bound)
  have second := List.getElem?_eq_getElem bound
  rw [first, second, Option.some_inj] at same
  have pid := h.made _ _ first
  rw [same] at pid
  exact absurd (distinct _ _ _ pid (h.made _ _ second)) (Nat.ne_of_lt less)

theorem createTasks_laid (distinct : Distinct made) {left : Nat}
    (h : Laid n ndiv made start pids s) :
    Laid n ndiv made start (createTasks n ndiv made left pids s).1
      (createTasks n ndiv made left pids s).2 := by
  induction left generalizing pids s with
  | zero => exact h
  | succ left ih =>
    rw [createTasks]
    split
    · exact h
    · rename_i pid new
      have fresh : ∀ {t other : Nat}, pids[t]? = some other → other ≠ pid := by
        rintro t other queued rfl
        have here := distinct _ _ _ (h.made _ _ queued) new
        have bound := (List.getElem?_eq_some_iff.1 queued).1
        omega
      apply ih
      refine ⟨?_, ?_, ?_, h.n, h.done, h.mismatch⟩
      · intro t other queued
        rcases getElem?_concat.1 queued with old | ⟨rfl, rfl⟩
        · exact h.made t other old
        · exact new
      · intro t other queued
        rcases getElem?_concat.1 queued with old | ⟨rfl, rfl⟩
        · simpa [fresh old] using h.lo t other old
        · simp
      · intro t other queued
        rcases getElem?_concat.1 queued with old | ⟨rfl, rfl⟩
        · simpa [fresh old] using h.hi t other old
        · simp

theorem createTasks_length {left : Nat} :
    (createTasks n ndiv made left pids s).1.length ≤ pids.length + left := by
  induction left generalizing pids s with
  | zero => exact Nat.le_refl _
  | succ left ih =>
    rw [createTasks]
    split
    · exact Nat.le_add_right _ _
    · rename_i pid _
      have grown : (pids ++ [pid]).length = pids.length + 1 := by simp
      exact Nat.le_trans ih (by omega)

end Creation

section Calls

structure Sound (c : Created) : Prop where
  low : 1 ≤ c.n
  high : c.n ≤ 16
  parts : 1 ≤ c.ndiv
  few : c.ndiv ≤ 6
  inside : (c.pids.length : Int) ≤ c.ndiv
  nodup : c.pids.Nodup
  lo : ∀ t pid, c.pids[t]? = some pid → c.shared.lo pid = cut c.n c.ndiv t
  hi : ∀ t pid, c.pids[t]? = some pid → c.shared.hi pid = cut c.n c.ndiv (t + 1)
  size : c.shared.n = c.n
  done : c.shared.done = 0
  mismatch : c.shared.mismatch = 0

theorem create_sound {mode n ntasks : Int} {made : Nat → Option Nat} {s : Shared}
    (distinct : Distinct made) : Sound (create mode n ntasks made s) := by
  have size := clampSize_range n
  have tasks := clampTasks_range size.1 ntasks
  have all : Laid _ _ made { s with
      busy := true, n := clampSize n, done := 0, double := 0, mismatch := 0 }
      (create mode n ntasks made s).pids (create mode n ntasks made s).shared :=
    createTasks_laid distinct .none
  refine ⟨size.1, size.2, tasks.1, tasks.2, ?_, all.nodup distinct, all.lo, all.hi, all.n,
    all.done, all.mismatch⟩
  have want : wantProc mode (clampTasks (clampSize n) ntasks) ≤ clampTasks (clampSize n) ntasks :=
    wantProc_le
  have length : (create mode n ntasks made s).pids.length ≤
      0 + (wantProc mode (clampTasks (clampSize n) ntasks)).toNat := createTasks_length
  have same : (create mode n ntasks made s).ndiv = clampTasks (clampSize n) ntasks := rfl
  omega

variable {c : Created}

variable (h : Sound c)

include h

theorem Sound.cut_eq {t : Nat} (inside : t ≤ c.ndiv) :
    cut c.n c.ndiv t = evenCut c.n c.ndiv.toNat t := by
  have parts := h.parts
  have few := h.few
  have whole : ((c.ndiv.toNat : Nat) : Int) = c.ndiv := Int.toNat_of_nonneg (by omega)
  have even := @NQueensTasks.cut_eq c.n c.ndiv.toNat t h.low h.high (by omega) (by omega)
    (by omega)
  rwa [whole] at even

theorem Sound.cut_mono {t u : Nat} (le : t ≤ u) (inside : u ≤ c.ndiv) :
    cut c.n c.ndiv t ≤ cut c.n c.ndiv u := by
  have low := h.low
  have parts := h.parts
  rw [h.cut_eq (by omega), h.cut_eq inside]
  exact evenCut_mono (by omega) (by omega) le

theorem Sound.cut_zero : cut c.n c.ndiv 0 = 0 := by
  have parts := h.parts
  rw [h.cut_eq (by omega), evenCut_zero]

theorem Sound.cut_all : cut c.n c.ndiv c.ndiv.toNat = c.n := by
  have parts := h.parts
  rw [h.cut_eq (by omega), evenCut_all _ (by omega)]

theorem Sound.cut_range {t : Nat} (inside : t ≤ c.ndiv) :
    0 ≤ cut c.n c.ndiv t ∧ cut c.n c.ndiv t ≤ c.n := by
  constructor
  · calc 0 = cut c.n c.ndiv 0 := h.cut_zero.symm
      _ ≤ cut c.n c.ndiv t := h.cut_mono (Nat.zero_le _) inside
  · calc cut c.n c.ndiv t ≤ cut c.n c.ndiv c.ndiv.toNat := h.cut_mono (by omega) (by omega)
      _ = c.n := h.cut_all

theorem Sound.range {pid : Nat} (member : pid ∈ c.pids) :
    0 ≤ c.shared.lo pid ∧ c.shared.hi pid ≤ c.n := by
  obtain ⟨t, created⟩ := List.mem_iff_getElem?.1 member
  have bound := (List.getElem?_eq_some_iff.1 created).1
  have inside := h.inside
  rw [h.lo t pid created, h.hi t pid created]
  exact ⟨(h.cut_range (by omega)).1, (h.cut_range (by omega)).2⟩

/-- What adds up over adjacent ranges comes to the whole first row, wherever the creation
of processes ended. -/
theorem Sound.sum_ranges {V : Type*} [AddCommMonoid V] {f : Int → Int → V} (additive : Additive f) :
    (c.ranges.map fun r => f r.1 r.2).sum = f 0 c.n := by
  have inside := h.inside
  have cuts : c.pids.map (fun pid => f (c.shared.lo pid) (c.shared.hi pid)) =
      (List.range c.pids.length).map
        fun t => f (cut c.n c.ndiv t) (cut c.n c.ndiv (t + 1)) := by
    apply List.ext_getElem (by simp)
    intro t first second
    have bound : t < c.pids.length := by simpa using first
    have created := List.getElem?_eq_getElem bound
    rw [List.getElem_map, List.getElem_map, List.getElem_range, h.lo t _ created,
      h.hi t _ created]
  have even : ∀ m, m ≤ c.pids.length →
      ((List.range m).map fun t => f (cut c.n c.ndiv t) (cut c.n c.ndiv (t + 1))).sum +
        f (cut c.n c.ndiv m) c.n = f 0 c.n := by
    intro m le
    induction m with
    | zero => simp [h.cut_zero]
    | succ m ih =>
      have rest := additive (cut c.n c.ndiv m) (cut c.n c.ndiv (m + 1)) c.n
      rw [List.range_succ, List.map_append, List.sum_append, List.map_singleton,
        List.sum_singleton, add_assoc, rest]
      · exact ih (by omega)
      · exact (h.cut_range (by omega)).1
      · exact h.cut_mono (Nat.le_succ m) (by omega)
      · exact (h.cut_range (by omega)).2
  rw [Created.ranges, List.map_append, List.sum_append, List.map_map, List.map_singleton,
    List.sum_singleton]
  have whole := even _ (Nat.le_refl _)
  rw [← cuts] at whole
  exact whole

theorem Sound.covers (x : Int) :
    c.ranges.countP (fun r => r.1 ≤ x ∧ x < r.2) = if 0 ≤ x ∧ x < c.n then 1 else 0 := by
  have additive : Additive fun lo hi => if lo ≤ x ∧ x < hi then (1 : Nat) else 0 := by
    intro lo mid hi _ _ _
    dsimp only
    split <;> split <;> split <;> omega
  have sum := h.sum_ranges additive
  rw [List.sum_map_ite] at sum
  simpa [List.countP_eq_length_filter] using sum

end Calls

section Runs

/-- What the processes of `pids` do between `s` and `s'` as they finish; `value` is what each
writes. -/
structure Ran (value : Nat → Long) (pids : List Nat) (s s' : Shared) : Prop where
  n : s'.n = s.n
  lo : s'.lo = s.lo
  hi : s'.hi = s.hi
  res : ∀ pid ∈ pids, s'.res pid = value pid
  others : ∀ pid, pid ∉ pids → s'.res pid = s.res pid
  done : s'.done = s.done + pids.length
  mismatch : s'.mismatch = s.mismatch

variable {n : Nat} {s : Shared} {pids : List Nat}

/-- What a process with its range in `s` is to count. -/
def part (n : Nat) (s : Shared) (pid : Nat) : Long := firstRow n (s.lo pid) (s.hi pid)

theorem smTask_ran (small : n ≤ 32) (size : s.n = n) {pid : Nat} (low : 0 ≤ s.lo pid)
    (high : s.hi pid ≤ n) : ∃ s', smTask s pid = some s' ∧ Ran (part n s) [pid] s s' := by
  rw [smTask, size, nqRange_eq small low high, Option.bind_some]
  dsimp only
  split
  · rw [nqRange_eq small low high, Option.map_some]
    refine ⟨_, rfl, ?_⟩
    constructor <;> simp +contextual [Shared.count, part, size]
  · refine ⟨_, rfl, ?_⟩
    constructor <;> simp +contextual [Shared.count, part, size]

theorem runTasks_ran (small : n ≤ 32) (size : s.n = n)
    (inside : ∀ pid ∈ pids, 0 ≤ s.lo pid ∧ s.hi pid ≤ n) :
    ∃ s', runTasks pids s = some s' ∧ Ran (part n s) pids s s' := by
  induction pids generalizing s with
  | nil =>
    refine ⟨s, rfl, ?_⟩
    constructor <;> simp
  | cons pid pids ih =>
    obtain ⟨low, high⟩ := inside pid List.mem_cons_self
    obtain ⟨mid, first, one⟩ := smTask_ran small size low high
    have same : part n mid = part n s := by
      funext other
      rw [part, one.lo, one.hi, part]
    obtain ⟨s', rest, more⟩ := ih (one.n.trans size) fun other member => by
      rw [one.lo, one.hi]
      exact inside other (List.mem_cons_of_mem pid member)
    rw [same] at more
    refine ⟨s', by rw [runTasks, first, Option.bind_some, rest], ?_⟩
    refine ⟨more.n.trans one.n, more.lo.trans one.lo, more.hi.trans one.hi, ?_, ?_, ?_,
      more.mismatch.trans one.mismatch⟩
    · intro other member
      rcases List.mem_cons.1 member with rfl | later
      · by_cases again : other ∈ pids
        · exact more.res other again
        · rw [more.others other again, one.res other (List.mem_singleton_self other)]
      · exact more.res other later
    · intro other missing
      rw [List.mem_cons, not_or] at missing
      rw [more.others other missing.2, one.others other (by simpa using missing.1)]
    · rw [more.done, one.done, List.length_singleton, List.length_cons]
      omega

theorem foldl_add (value : Nat → Long) (total : Long) :
    pids.foldl (fun total pid => total + value pid) total = total + (pids.map value).sum := by
  induction pids generalizing total with
  | nil => simp
  | cons pid pids ih => rw [List.foldl_cons, ih, List.map_cons, List.sum_cons, add_assoc]

variable {c : Created} {before after : List Nat}

theorem target_le_iff (once : (before ++ after).Nodup)
    (known : ∀ pid ∈ before ++ after, pid ∈ pids) (nodup : pids.Nodup) :
    pids.length ≤ (before ++ after).length ↔ ∀ pid ∈ pids, pid ∈ before ++ after := by
  constructor
  · intro enough pid member
    have same := (List.subperm_of_subset once known).perm_of_length_le enough
    exact same.mem_iff.2 member
  · intro all
    exact (List.subperm_of_subset nodup all).length_le

theorem Sound.finish (h : Sound c) (once : (before ++ after).Nodup)
    (known : ∀ pid ∈ before ++ after, pid ∈ c.pids) :
    (c.finish before after).map (·.1) =
      if ∀ pid ∈ c.pids, pid ∈ before ++ after then some (firstRow c.n.toNat 0 c.n) else none := by
  have low := h.low
  have high := h.high
  have whole : ((c.n.toNat : Nat) : Int) = c.n := Int.toNat_of_nonneg (by omega)
  have small : c.n.toNat ≤ 32 := by omega
  have size : c.shared.n = c.n.toNat := by rw [h.size, whole]
  obtain ⟨s, ran, first⟩ := runTasks_ran small size fun pid member => by
    rw [whole]
    exact h.range (known pid (List.mem_append_left after member))
  have own : c.inlineStep s = some (firstRow c.n.toNat c.inlineLo c.n,
      { s with done := s.done + if c.inlineLo < c.n then 1 else 0 }) := by
    rw [Created.inlineStep]
    have counted := nqRange_eq small (h.cut_range h.inside).1 (Int.le_of_eq whole.symm)
    rw [whole] at counted
    split
    · rw [Created.inlineLo, counted, Option.map_some]
    · rw [firstRow, Finset.Ico_eq_empty_of_le (by omega), Finset.sum_empty, Nat.add_zero]
  have same : part c.n.toNat { s with
      done := s.done + if c.inlineLo < c.n then 1 else 0 } = part c.n.toNat c.shared := by
    funext pid
    rw [part, part, first.lo, first.hi]
  obtain ⟨s', ran', second⟩ := @runTasks_ran c.n.toNat { s with
      done := s.done + if c.inlineLo < c.n then 1 else 0 } after small (first.n.trans size)
    fun pid member => by
      rw [first.lo, first.hi, whole]
      exact h.range (known pid (List.mem_append_right before member))
  have counted : s'.done = s.done + (if c.inlineLo < c.n then 1 else 0) + after.length :=
    second.done
  rw [same] at second
  have done : s'.done < c.target ↔ ¬ ∀ pid ∈ c.pids, pid ∈ before ++ after := by
    rw [← target_le_iff once known h.nodup, counted, first.done, h.done, Created.target,
      List.length_append]
    omega
  rw [Created.finish, ran, Option.bind_some, own, Option.bind_some, ran', Option.bind_some]
  by_cases all : ∀ pid ∈ c.pids, pid ∈ before ++ after
  · have finished : ∀ pid ∈ c.pids, s'.res pid = part c.n.toNat c.shared pid := by
      intro pid member
      by_cases late : pid ∈ after
      · exact second.res pid late
      · have early : pid ∈ before := by
          rcases List.mem_append.1 (all pid member) with early | now
          · exact early
          · exact absurd now late
        rw [second.others pid late]
        exact first.res pid early
    have total := h.sum_ranges (firstRow_additive c.n.toNat)
    rw [Created.ranges, List.map_append, List.sum_append, List.map_map, List.map_singleton,
      List.sum_singleton] at total
    rw [if_neg fun less => done.1 less all, if_pos all, Option.map_some, foldl_add,
      List.map_congr_left finished, add_comm]
    exact congrArg some total
  · rw [if_pos (done.2 all), if_neg all, Option.map_none]

theorem card_solutions_fits (small : n ≤ 16) : (solutions n).card < 9223372036854775808 := by
  calc (solutions n).card ≤ n.factorial := card_solutions_le
    _ ≤ (16).factorial := Nat.factorial_le small
    _ < 9223372036854775808 := by decide

/-- `nq` counts the ways to complete a board of up to 32 columns, given the masks of the
queens in its first rows. The ranges of a call of `smpsched_nqueens` cover each column once,
wherever the creation of processes ended, and the call returns the number of solutions once
its processes have all finished, in any order. -/
theorem queens_counted :
    (∀ {n : Nat} {p : Placement n} {cols d1 d2 : Unsigned}, n ≤ 32 → Masks p cols d1 d2 →
      nq nqDepth cols d1 d2 (allColumns n) = some (completions n p.columns : Long) ∧
      (completions n p.columns < 9223372036854775808 →
        (completions n p.columns : Long).toInt = completions n p.columns)) ∧
    ∀ {mode n ntasks : Int} {made : Nat → Option Nat} {s : Shared}, Distinct made →
      (∀ x, (create mode n ntasks made s).ranges.countP (fun r => r.1 ≤ x ∧ x < r.2) =
        if 0 ≤ x ∧ x < clampSize n then 1 else 0) ∧
      ∀ {before after : List Nat}, s.busy = false → (before ++ after).Nodup →
        (∀ pid ∈ before ++ after, pid ∈ (create mode n ntasks made s).pids) →
        (smpschedNqueens mode n ntasks made before after s).map (fun r => r.1.toInt) =
          if ∀ pid ∈ (create mode n ntasks made s).pids, pid ∈ before ++ after then
            some ((solutions (clampSize n).toNat).card : Int)
          else none := by
  refine ⟨fun small masks => ⟨nq_counts masks small, toInt_cast⟩, fun distinct => ?_⟩
  refine ⟨fun x => (create_sound distinct).covers x, fun idle once known => ?_⟩
  rename_i mode n ntasks made s before after
  have sound := @create_sound mode n ntasks made s distinct
  have finish := sound.finish once known
  obtain ⟨low, high⟩ := clampSize_range n
  have total : firstRow (clampSize n).toNat 0 (clampSize n) =
      ((solutions (clampSize n).toNat).card : Long) := by
    have all := firstRow_all (n := (clampSize n).toNat) (by omega)
    rwa [Int.toNat_of_nonneg (by omega)] at all
  have fits := card_solutions_fits (n := (clampSize n).toNat) (by omega)
  rw [smpschedNqueens, idle]
  calc _ = (((create mode n ntasks made s).finish before after).map (·.1)).map BitVec.toInt := by
        rw [Option.map_map]
        rfl
    _ = _ := by
      rw [finish]
      split
      · exact congrArg some ((congrArg BitVec.toInt total).trans (toInt_cast fits))
      · rfl

def sharedInit : Shared where
  busy := false
  verify := false
  n := 0
  lo := fun _ => 0
  hi := fun _ => 0
  res := fun _ => 0
  res2 := fun _ => 0
  hits := fun _ => 0
  mismatch := 0
  double := 0
  done := 0

theorem queens_counted_four :
    nq nqDepth 0 0 0 (allColumns 4) = some (completions 4 [] : Long) ∧
    (smpschedNqueens 0 4 3 (fun t => if t = 0 then some 3 else none) [] [3] sharedInit).map
      (fun r => r.1.toInt) = some ((solutions 4).card : Int) := by
  have distinct : Distinct fun t => if t = 0 then some 3 else none := by
    intro t u pid first second
    by_cases zero : t = 0 <;> by_cases zero' : u = 0 <;> simp_all
  constructor
  · exact (queens_counted.1 (by decide) Masks.empty).1
  · rw [(queens_counted.2 distinct).2 rfl (by decide) (by decide)]
    exact if_pos (by decide)

end Runs

end XinuRpi5.System.NQueensTasks
