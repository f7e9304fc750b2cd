/- source: system/smpsched.c
   digest: A call of smpsched_parallel hangs or returns its function over the whole range. -/

import XinuRpi5.Lib.SlotTable
import XinuRpi5.System.SmpSched
import XinuRpi5.System.SmpExact

namespace XinuRpi5.System.SmpSchedExact

open Lib.GuardedRuns Lib.SplitRange
open Lib.SlotTable (countP_flip)
open SmpMailbox (RangeFn Long long)
open SmpExact (long_of_range)
open SmpSched

section Calls

structure Sound (k : Call) : Prop where
  additive : Additive k.fn
  low : 1 ≤ k.n
  high : k.n < 2147483648
  some : 1 ≤ k.units
  few : k.units ≤ 4
  each : (k.units : Int) ≤ k.n
  spawn : k.spawn ≤ k.units

variable {k : Call}

theorem int_of_range {x : Int} (low : 0 ≤ x) (high : x < 2147483648) : int x = x := by
  have reduced : x % 4294967296 = x := Int.emod_eq_of_lt low (by omega)
  rw [int, Int.bmod_eq_emod_of_lt, Nat.cast_ofNat, reduced]
  rw [Nat.cast_ofNat, reduced]
  omega

theorem Sound.cut (h : Sound k) {t : Nat} (inside : t ≤ k.units) :
    cut k t = evenCut k.n k.units t := by
  have low : 0 ≤ k.n := Int.le_trans (by decide) h.low
  have few := h.few
  have high := h.high
  have lower : 0 ≤ (t : Int) * k.n := Int.mul_nonneg (by omega) low
  have upper : (t : Int) * k.n ≤ 4 * k.n := Int.mul_le_mul_of_nonneg_right (by omega) low
  rw [SmpSched.cut, long_of_range lower (by omega), evenCut, Int.tdiv_eq_ediv_of_nonneg lower]

theorem Sound.cut_range (h : Sound k) {t : Nat} (inside : t ≤ k.units) :
    0 ≤ SmpSched.cut k t ∧ SmpSched.cut k t ≤ k.n := by
  have low : 0 ≤ k.n := Int.le_trans (by decide) h.low
  rw [h.cut inside]
  constructor
  · rw [← evenCut_zero k.n k.units]
    exact evenCut_mono low h.some (Nat.zero_le t)
  · calc evenCut k.n k.units t ≤ evenCut k.n k.units k.units := evenCut_mono low h.some inside
      _ = k.n := evenCut_all k.n h.some

theorem Sound.int_cut (h : Sound k) {t : Nat} (inside : t ≤ k.units) :
    int (SmpSched.cut k t) = SmpSched.cut k t := by
  obtain ⟨low, high⟩ := h.cut_range inside
  have bound := h.high
  exact int_of_range low (by omega)

/-- What unit `t` comes to. -/
def part (k : Call) (t : Nat) : Long := k.fn (SmpSched.cut k t) (SmpSched.cut k (t + 1))

/-- What the caller runs itself when `m` units were created. -/
def rest (k : Call) (m : Nat) : Long :=
  if SmpSched.cut k m < k.n then k.fn (SmpSched.cut k m) k.n else 0

theorem Sound.total (h : Sound k) {m : Nat} (inside : m ≤ k.units) :
    rest k m + ∑ t ∈ Finset.range m, part k t = k.fn 0 k.n := by
  have low : 0 ≤ k.n := Int.le_trans (by decide) h.low
  have pieces : ∀ t ∈ Finset.range m, part k t =
      k.fn (evenCut k.n k.units t) (evenCut k.n k.units (t + 1)) := by
    intro t below
    have bound := Finset.mem_range.mp below
    rw [part, h.cut (by omega), h.cut (by omega)]
  rw [Finset.sum_congr rfl pieces]
  rcases Nat.eq_zero_or_pos m with rfl | some
  · have start : SmpSched.cut k 0 = 0 := by rw [h.cut (Nat.zero_le _), evenCut_zero]
    rw [Finset.sum_range_zero, add_zero, rest, start, if_pos (by have := h.low; omega)]
  · have sum := sum_pieces h.additive (Int.le_of_eq (evenCut_zero k.n k.units).symm)
      (fun t => evenCut_mono low h.some (Nat.le_succ t)) (m - 1)
    rw [Nat.sub_add_cancel some, evenCut_zero] at sum
    rw [sum, rest, h.cut inside]
    have bounds := h.cut_range inside
    rw [h.cut inside] at bounds
    split_ifs with below
    · rw [add_comm]
      exact h.additive _ _ _ (Int.le_refl 0) bounds.1 bounds.2
    · rw [zero_add, Int.le_antisymm bounds.2 (Int.not_lt.mp below)]

end Calls

section States

def finished : Task → Bool
  | .free | .counted => true
  | _ => false

/-- What unit `t` has read and computed so far. -/
def Faithful (k : Call) (t : Nat) (res : Long) : Task → Prop
  | .suspended | .ready => True
  | .readLo fn => fn = k.fn
  | .readHi fn lo => fn = k.fn ∧ lo = cut k t
  | .compute fn lo hi => fn = k.fn ∧ lo = cut k t ∧ hi = cut k (t + 1)
  | .writeRes r => r = part k t
  | .count | .countWrite _ | .counted | .free => res = part k t

structure UnitOk (s : Sched) (t pid : Nat) : Prop where
  lo : s.lo pid = cut s.call t
  hi : s.hi pid = cut s.call (t + 1)
  faithful : Faithful s.call t (s.res pid) (s.task pid)

inductive Stage (s : Sched) : Prop where
  | idle (at' : s.driver = .idle)
  | setFn (at' : s.driver = .setFn) (sound : Sound s.call) (none : s.pids = [])
  | setDone (at' : s.driver = .setDone) (sound : Sound s.call) (none : s.pids = [])
      (fn : s.fn = s.call.fn)
  | create (at' : s.driver = .create) (sound : Sound s.call) (few : s.pids.length ≤ s.call.spawn)
      (fn : s.fn = s.call.fn) (asleep : ∀ p ∈ s.pids, s.task p = .suspended)
  | readying (t : Nat) (at' : s.driver = .readying t) (sound : Sound s.call)
      (few : s.pids.length ≤ s.call.spawn)
      (asleep : ∀ i p, t ≤ i → s.pids[i]? = some p → s.task p = .suspended)
  | own (at' : s.driver = .own) (sound : Sound s.call) (few : s.pids.length ≤ s.call.spawn)
  | wait (at' : s.driver = .wait) (sound : Sound s.call) (few : s.pids.length ≤ s.call.spawn)
      (total : s.total = rest s.call s.pids.length)
  | sum (t : Nat) (at' : s.driver = .sum t) (sound : Sound s.call)
      (few : s.pids.length ≤ s.call.spawn) (inside : t ≤ s.pids.length)
      (right : s.hung = true ∨ ((∀ p ∈ s.pids, finished (s.task p) = true) ∧
        s.total = rest s.call s.pids.length + ∑ i ∈ Finset.range t, part s.call i))

structure SchedOk (s : Sched) : Prop where
  nodup : s.pids.Nodup
  /-- A unit that has not counted itself belongs to the last call. -/
  owned : ∀ q, finished (s.task q) = false → q ∈ s.pids
  locked : ∀ q v, s.task q = .countWrite v → s.lock = some q ∧ v = s.done
  counting : s.driver ≠ .setFn → s.driver ≠ .setDone →
    s.done = s.pids.countP fun p => finished (s.task p)
  fn : s.pids ≠ [] → s.fn = s.call.fn
  units : ∀ t p, s.pids[t]? = some p → UnitOk s t p
  stage : Stage s
  exact : ∀ r ∈ s.returned, r.hung = true ∨ r.value = r.fn 0 r.n

/-- The condition on a step: a call on the parallel path finds no unit of an earlier call
that has not counted itself, and no process is created on a stack in use. -/
def Meets (s : Sched) : Event → Prop
  | .call fn n nunits on _ _ => Additive fn ∧ 1 ≤ n ∧ n < 2147483648 ∧
      (s.driver = .idle → ¬ Serial n nunits on → ∀ q, finished (s.task q) = true)
  | .create (some _) => StackFree s
  | _ => True

theorem schedOk_init : SchedOk schedInit where
  nodup := List.nodup_nil
  owned := fun _ open' => absurd open' (by simp [schedInit, finished])
  locked := fun _ _ at' => absurd at' (by simp [schedInit])
  counting := fun _ _ => rfl
  fn := fun some => absurd rfl some
  units := fun _ _ listed => absurd listed (by simp [schedInit])
  stage := .idle rfl
  exact := fun _ listed => absurd listed List.not_mem_nil

variable {s s' : Sched}

@[simp] theorem setTask_task (s : Sched) (pid : Nat) (task : Task) :
    (s.setTask pid task).task pid = task := if_pos rfl

theorem setTask_of_ne (s : Sched) {pid q : Nat} (task : Task) (other : q ≠ pid) :
    (s.setTask pid task).task q = s.task q := if_neg other

structure UnitMove (s s' : Sched) (pid : Nat) : Prop where
  others : ∀ q, q ≠ pid → s'.task q = s.task q ∧ s'.res q = s.res q
  same : s'.pids = s.pids ∧ s'.call = s.call ∧ s'.fn = s.fn ∧ s'.lo = s.lo ∧ s'.hi = s.hi
  driver : s'.driver = s.driver ∧ s'.total = s.total ∧ s'.hung = s.hung ∧
    s'.returned = s.returned
  active : s.task pid ≠ .suspended
  faithful : ∀ t, s.fn = s.call.fn → UnitOk s t pid →
    Faithful s.call t (s'.res pid) (s'.task pid)
  done : finished (s.task pid) = true → finished (s'.task pid) = true
  kept : finished (s'.task pid) = finished (s.task pid) → s'.done = s.done
  counted : finished (s'.task pid) ≠ finished (s.task pid) →
    ∃ v, s.task pid = .countWrite v ∧ s'.done = v + 1

variable {pid : Nat} {task : Task}

theorem UnitOk.at_task {t : Nat} (unit : UnitOk s t pid)
    (at' : s.task pid = task) : Faithful s.call t (s.res pid) task :=
  at' ▸ unit.faithful

theorem setTask_move {old : Task} (at' : s.task pid = old) (active : old ≠ .suspended)
    (same : finished task = finished old) (faithful : ∀ t, s.fn = s.call.fn → UnitOk s t pid →
      Faithful s.call t (s.res pid) old → Faithful s.call t (s.res pid) task) :
    UnitMove s (s.setTask pid task) pid := by
  subst at'
  have here := setTask_task s pid task
  refine ⟨fun q other => ⟨setTask_of_ne s task other, rfl⟩, ⟨rfl, rfl, rfl, rfl, rfl⟩,
    ⟨rfl, rfl, rfl, rfl⟩, active, ?_, ?_, fun _ => rfl, ?_⟩
  · rw [here]
    exact fun t fn unit => faithful t fn unit unit.faithful
  · rw [here, same]
    exact id
  · rw [here]
    exact fun differs => absurd same differs

theorem taskStep_move (step : taskStep s pid = some s') : UnitMove s s' pid := by
  unfold taskStep at step
  cases at' : s.task pid with
  | free | suspended =>
    rw [at'] at step
    exact absurd step.symm (Option.some_ne_none s')
  | ready =>
    rw [at'] at step
    obtain rfl := Option.some.inj step
    exact setTask_move at' (by simp) rfl fun t fn _ _ => fn
  | readLo fn =>
    rw [at'] at step
    obtain rfl := Option.some.inj step
    exact setTask_move at' (by simp) rfl fun t _ unit before => ⟨before, unit.lo⟩
  | readHi fn lo =>
    rw [at'] at step
    obtain rfl := Option.some.inj step
    exact setTask_move at' (by simp) rfl fun t _ unit before => ⟨before.1, before.2, unit.hi⟩
  | compute fn lo hi =>
    rw [at'] at step
    obtain rfl := Option.some.inj step
    refine setTask_move at' (by simp) rfl fun t _ unit before => ?_
    obtain ⟨rfl, rfl, rfl⟩ := before
    rfl
  | writeRes r =>
    rw [at'] at step
    obtain rfl := Option.some.inj step
    refine ⟨fun q other => ⟨setTask_of_ne _ _ other, if_neg other⟩, ⟨rfl, rfl, rfl, rfl, rfl⟩,
      ⟨rfl, rfl, rfl, rfl⟩, by rw [at']; simp, ?_, ?_, fun _ => rfl, ?_⟩
    · intro t _ unit
      have before := unit.at_task at'
      rw [setTask_task]
      exact (if_pos rfl).trans before
    · rw [at']
      exact fun done => absurd done (by simp [finished])
    · rw [at', setTask_task]
      exact fun differs => absurd rfl differs
  | count =>
    rw [at'] at step
    simp only at step
    split at step
    · obtain rfl := Option.some.inj step
      refine ⟨fun q other => ⟨setTask_of_ne _ _ other, rfl⟩, ⟨rfl, rfl, rfl, rfl, rfl⟩,
        ⟨rfl, rfl, rfl, rfl⟩, by rw [at']; simp, ?_, ?_, fun _ => rfl, ?_⟩
      · intro t _ unit
        have before := unit.at_task at'
        rw [setTask_task]
        exact before
      · rw [at']
        exact fun done => absurd done (by simp [finished])
      · rw [at', setTask_task]
        exact fun differs => absurd rfl differs
    · obtain rfl := Option.some.inj step
      exact ⟨fun _ _ => ⟨rfl, rfl⟩, ⟨rfl, rfl, rfl, rfl, rfl⟩, ⟨rfl, rfl, rfl, rfl⟩,
        by rw [at']; simp, fun t _ unit => unit.faithful, id, fun _ => rfl,
        fun differs => absurd rfl differs⟩
  | countWrite v =>
    rw [at'] at step
    obtain rfl := Option.some.inj step
    refine ⟨fun q other => ⟨setTask_of_ne _ _ other, rfl⟩, ⟨rfl, rfl, rfl, rfl, rfl⟩,
      ⟨rfl, rfl, rfl, rfl⟩, by rw [at']; simp, ?_, ?_, ?_, fun _ => ⟨v, at', rfl⟩⟩
    · intro t _ unit
      have before := unit.at_task at'
      rw [setTask_task]
      exact before
    · rw [at']
      exact fun done => absurd done (by simp [finished])
    · rw [at', setTask_task]
      exact fun same => absurd same (by simp [finished])
  | counted =>
    rw [at'] at step
    obtain rfl := Option.some.inj step
    exact setTask_move at' (by simp) rfl fun t _ _ before => before

theorem not_countWrite (atEnd : finished task = true) (v : Nat) :
    task ≠ .countWrite v := by
  rintro rfl
  exact absurd atEnd (by simp [finished])

theorem clampUnits_range {n nunits : Int} (low : 1 ≤ n) (high : n < 2147483648) :
    1 ≤ clampUnits n nunits ∧ clampUnits n nunits ≤ 4 ∧ clampUnits n nunits ≤ n := by
  have same : int n = n := int_of_range (by omega) high
  simp only [clampUnits, spMaxunit, same]
  split_ifs <;> omega

variable (h : SchedOk s)

include h

/-- The lock is with the unit that is about to write the count. -/
theorem locked_task {pid : Nat} (step : taskStep s pid = some s') (q v : Nat)
    (holds : s'.task q = .countWrite v) : s'.lock = some q ∧ v = s'.done := by
  unfold taskStep at step
  cases at' : s.task pid with
  | free | suspended =>
    rw [at'] at step
    exact absurd step.symm (Option.some_ne_none s')
  | ready | readLo | readHi | compute | writeRes | counted =>
    rw [at'] at step
    obtain rfl := Option.some.inj step
    by_cases here : q = pid
    · subst here
      rw [setTask_task] at holds
      exact absurd holds (by simp)
    · rw [setTask_of_ne _ _ here] at holds
      exact h.locked q v holds
  | count =>
    rw [at'] at step
    simp only at step
    split at step
    next free =>
      obtain rfl := Option.some.inj step
      by_cases here : q = pid
      · subst here
        rw [setTask_task] at holds
        exact ⟨rfl, (Task.countWrite.inj holds).symm⟩
      · rw [setTask_of_ne _ _ here] at holds
        rw [(h.locked q v holds).1] at free
        exact absurd free (Option.some_ne_none q)
    next =>
      obtain rfl := Option.some.inj step
      exact h.locked q v holds
  | countWrite w =>
    rw [at'] at step
    obtain rfl := Option.some.inj step
    by_cases here : q = pid
    · subst here
      rw [setTask_task] at holds
      exact absurd holds (by simp)
    · rw [setTask_of_ne _ _ here] at holds
      have mine := (h.locked pid w at').1
      rw [(h.locked q v holds).1] at mine
      exact absurd (Option.some.inj mine) here

/-- Steps of the units keep the state sound. -/
theorem SchedOk.unit {pid : Nat} (move : UnitMove s s' pid)
    (locked : ∀ q v, s'.task q = .countWrite v → s'.lock = some q ∧ v = s'.done) :
    SchedOk s' := by
  obtain ⟨pids, call, fn, lo, hi⟩ := move.same
  obtain ⟨driver, total, hung, returned⟩ := move.driver
  have asleep : ∀ p, s.task p = .suspended → s'.task p = .suspended := by
    intro p sleeps
    have other : p ≠ pid := by
      rintro rfl
      exact move.active sleeps
    rw [(move.others p other).1, sleeps]
  have stays : ∀ p, finished (s.task p) = true → finished (s'.task p) = true := by
    intro p atEnd
    by_cases here : p = pid
    · subst here
      exact move.done atEnd
    · rw [(move.others p here).1]
      exact atEnd
  refine ⟨?_, ?_, locked, ?_, ?_, ?_, ?_, ?_⟩
  · rw [pids]
    exact h.nodup
  · intro q open'
    rw [pids]
    apply h.owned q
    by_contra atEnd
    rw [stays q (Bool.eq_true_of_not_eq_false atEnd)] at open'
    exact absurd open' (by decide)
  · rw [driver, pids]
    intro notFn notDone
    have before := h.counting notFn notDone
    by_cases same : finished (s'.task pid) = finished (s.task pid)
    · rw [move.kept same, before]
      apply List.countP_congr
      intro p _
      by_cases here : p = pid
      · rw [here, same]
      · rw [(move.others p here).1]
    · obtain ⟨v, holds, count⟩ := move.counted same
      have open' : finished (s.task pid) = false := by rw [holds]; rfl
      have atEnd : finished (s'.task pid) = true := by
        rw [open'] at same
        exact Bool.eq_true_of_not_eq_false same
      rw [count, (h.locked pid v holds).2, before]
      exact (countP_flip h.nodup (h.owned pid open') open' atEnd fun p other => by
        rw [(move.others p other).1]).symm
  · rw [pids, fn, call]
    exact h.fn
  · intro t p listed
    rw [pids] at listed
    have unit := h.units t p listed
    have some : s.pids ≠ [] := fun none => by simp [none] at listed
    refine ⟨?_, ?_, ?_⟩
    · rw [lo, call]
      exact unit.lo
    · rw [hi, call]
      exact unit.hi
    · rw [call]
      by_cases here : p = pid
      · subst here
        exact move.faithful t (h.fn some) unit
      · rw [(move.others p here).1, (move.others p here).2]
        exact unit.faithful
  · cases h.stage with
    | idle at' => exact .idle (driver.trans at')
    | setFn at' sound none => exact .setFn (driver.trans at') (call ▸ sound) (pids.trans none)
    | setDone at' sound none set =>
      exact .setDone (driver.trans at') (call ▸ sound) (pids.trans none) (by rw [fn, call, set])
    | create at' sound few set sleep =>
      refine .create (driver.trans at') (call ▸ sound) (by rw [pids, call]; exact few)
        (by rw [fn, call, set]) ?_
      rw [pids]
      exact fun p listed => asleep p (sleep p listed)
    | readying t at' sound few sleep =>
      refine .readying t (driver.trans at') (call ▸ sound) (by rw [pids, call]; exact few) ?_
      rw [pids]
      exact fun i p below listed => asleep p (sleep i p below listed)
    | own at' sound few =>
      exact .own (driver.trans at') (call ▸ sound) (by rw [pids, call]; exact few)
    | wait at' sound few value =>
      exact .wait (driver.trans at') (call ▸ sound) (by rw [pids, call]; exact few)
        (by rw [total, call, pids, value])
    | sum t at' sound few inside right =>
      refine .sum t (driver.trans at') (call ▸ sound) (by rw [pids, call]; exact few)
        (by rw [pids]; exact inside) ?_
      rw [hung, pids, total, call]
      exact right.imp_right fun right => ⟨fun p listed => stays p (right.1 p listed), right.2⟩
  · rw [returned]
    exact h.exact

theorem SchedOk.drive {driver : Driver} {total : Long} {hung : Bool} {returned : List Return}
    (running : s.driver ≠ .setFn ∧ s.driver ≠ .setDone)
    (stage : Stage { s with driver := driver, total := total, hung := hung, returned := returned })
    (exact : ∀ r ∈ returned, r.hung = true ∨ r.value = r.fn 0 r.n) :
    SchedOk { s with driver := driver, total := total, hung := hung, returned := returned } :=
  ⟨h.nodup, h.owned, h.locked, fun _ _ => h.counting running.1 running.2, h.fn,
    fun t p listed => ⟨(h.units t p listed).lo, (h.units t p listed).hi,
      (h.units t p listed).faithful⟩, stage, exact⟩

theorem SchedOk.log {r : Return} (right : r.hung = true ∨ r.value = r.fn 0 r.n) :
    SchedOk (s.log r) := by
  refine ⟨h.nodup, h.owned, h.locked, h.counting, h.fn,
    fun t p listed => ⟨(h.units t p listed).lo, (h.units t p listed).hi,
      (h.units t p listed).faithful⟩, ?_, ?_⟩
  · cases h.stage with
    | idle at' => exact .idle at'
    | setFn at' sound none => exact .setFn at' sound none
    | setDone at' sound none fn => exact .setDone at' sound none fn
    | create at' sound few fn asleep => exact .create at' sound few fn asleep
    | readying t at' sound few asleep => exact .readying t at' sound few asleep
    | own at' sound few => exact .own at' sound few
    | wait at' sound few total => exact .wait at' sound few total
    | sum t at' sound few inside right => exact .sum t at' sound few inside right
  · intro r' listed
    rcases List.mem_cons.mp listed with rfl | earlier
    · exact right
    · exact h.exact r' earlier

/-- A process is created for the next unit. -/
theorem SchedOk.created {p : Nat} (at' : s.driver = .create) (inside : s.pids.length < s.call.spawn)
    (free : s.task p = .free) (step : createStep s (some p) = some s') : SchedOk s' := by
  cases h.stage with
  | create _ sound few fn asleep =>
    unfold createStep at step
    simp only [if_pos (And.intro at' inside), free] at step
    obtain rfl := Option.some.inj step
    have fresh : p ∉ s.pids := by
      intro listed
      rw [asleep p listed] at free
      exact absurd free (by simp)
    have running : s.driver ≠ .setFn ∧ s.driver ≠ .setDone := by rw [at']; simp
    have others : ∀ q ∈ s.pids, q ≠ p := fun q listed clash => fresh (clash ▸ listed)
    have spawn := sound.spawn
    refine ⟨?_, ?_, ?_, ?_, fun _ => fn, ?_, .create at' sound ?_ fn ?_, h.exact⟩
    · exact List.nodup_append_comm.mp (List.nodup_cons.mpr ⟨fresh, h.nodup⟩)
    · intro q open'
      by_cases here : q = p
      · exact List.mem_append_right _ (List.mem_singleton.mpr here)
      · have same := setTask_of_ne s .suspended here
        exact List.mem_append_left _ (h.owned q (same ▸ open'))
    · intro q v holds
      by_cases here : q = p
      · subst here
        have asleep' := setTask_task s q .suspended
        exact absurd (asleep'.symm.trans holds) (by simp)
      · exact h.locked q v ((setTask_of_ne s .suspended here).symm.trans holds)
    · intro _ _
      have same : s.pids.countP (fun q => finished ((s.setTask p .suspended).task q)) =
          s.pids.countP fun q => finished (s.task q) := by
        apply List.countP_congr
        intro q listed
        rw [setTask_of_ne s .suspended (others q listed)]
      have last : finished ((s.setTask p .suspended).task p) = false := by
        rw [setTask_task]
        rfl
      change s.done = (s.pids ++ [p]).countP fun q => finished ((s.setTask p .suspended).task q)
      rw [List.countP_append, same, List.countP_singleton, if_neg (by rw [last]; decide)]
      exact h.counting running.1 running.2
    · intro t q listed
      rcases Nat.lt_or_ge t s.pids.length with below | beyond
      · have old : s.pids[t]? = some q := by
          rw [← List.getElem?_append_left below]
          exact listed
        have differs := others q (List.mem_of_getElem? old)
        have unit := h.units t q old
        refine ⟨(if_neg differs).trans unit.lo, (if_neg differs).trans unit.hi, ?_⟩
        change Faithful s.call t (if q = p then 0 else s.res q) ((s.setTask p .suspended).task q)
        rw [if_neg differs, setTask_of_ne s .suspended differs]
        exact unit.faithful
      · have new : [p][t - s.pids.length]? = some q := by
          rw [← List.getElem?_append_right beyond]
          exact listed
        obtain ⟨index, rfl⟩ := List.getElem?_eq_some_iff.mp new
        have last : t = s.pids.length := by
          simp only [List.length_singleton] at index
          omega
        subst last
        have here : [p][s.pids.length - s.pids.length] = p := by simp
        rw [here]
        refine ⟨(if_pos rfl).trans (sound.int_cut (by omega)),
          (if_pos rfl).trans (sound.int_cut (by omega)), ?_⟩
        change Faithful s.call _ _ ((s.setTask p .suspended).task p)
        rw [setTask_task]
        trivial
    · change (s.pids ++ [p]).length ≤ s.call.spawn
      rw [List.length_append, List.length_singleton]
      exact inside
    · intro q listed
      change (s.setTask p .suspended).task q = .suspended
      rcases List.mem_append.mp listed with old | new
      · rw [setTask_of_ne s .suspended (others q old)]
        exact asleep q old
      · rw [List.mem_singleton.mp new, setTask_task]
  | idle at'' | setFn at'' | setDone at'' | readying _ at'' | own at'' | wait at'' | sum _ at'' =>
    rw [at'] at at''
    exact absurd at'' (by simp)

theorem SchedOk.createStep {pid : Option Nat} (step : SmpSched.createStep s pid = some s') :
    SchedOk s' := by
  by_cases at' : s.driver = .create
  · have running : s.driver ≠ .setFn ∧ s.driver ≠ .setDone := by rw [at']; simp
    have ready : SchedOk (s.goto (.readying 0)) := by
      cases h.stage with
      | create _ sound few fn asleep =>
        exact h.drive running (.readying 0 rfl sound few fun i p _ listed =>
          asleep p (List.mem_of_getElem? listed)) h.exact
      | idle at'' | setFn at'' | setDone at'' | readying _ at'' | own at'' | wait at''
      | sum _ at'' =>
        rw [at'] at at''
        exact absurd at'' (by simp)
    by_cases inside : s.pids.length < s.call.spawn
    · cases pid with
      | none =>
        simp only [SmpSched.createStep, if_pos (And.intro at' inside)] at step
        obtain rfl := Option.some.inj step
        exact ready
      | some p =>
        cases free : s.task p with
        | free => exact h.created at' inside free step
        | _ =>
          simp only [SmpSched.createStep, if_pos (And.intro at' inside), free] at step
          exact absurd step.symm (Option.some_ne_none s')
    · have skip : ¬ (s.driver = .create ∧ s.pids.length < s.call.spawn) := fun both =>
        inside both.2
      simp only [SmpSched.createStep, if_neg skip, if_pos at'] at step
      obtain rfl := Option.some.inj step
      exact ready
  · have skip : ¬ (s.driver = .create ∧ s.pids.length < s.call.spawn) := fun both => at' both.1
    simp only [SmpSched.createStep, if_neg skip, if_neg at'] at step
    exact absurd step.symm (Option.some_ne_none s')

theorem SchedOk.all_finished (none : s.pids = []) (q : Nat) :
    finished (s.task q) = true := by
  by_contra open'
  have listed := h.owned q (Bool.eq_false_iff.mpr open')
  rw [none] at listed
  exact absurd listed List.not_mem_nil

/-- A unit is readied. -/
theorem SchedOk.readied {t p : Nat} (at' : s.driver = .readying t) (sound : Sound s.call)
    (few : s.pids.length ≤ s.call.spawn)
    (asleep : ∀ i p, t ≤ i → s.pids[i]? = some p → s.task p = .suspended)
    (listed : s.pids[t]? = some p) :
    SchedOk ((s.setTask p .ready).goto (.readying (t + 1))) := by
  have sleeps := asleep t p (Nat.le_refl t) listed
  have inside : p ∈ s.pids := List.mem_of_getElem? listed
  have running : s.driver ≠ .setFn ∧ s.driver ≠ .setDone := by rw [at']; simp
  have here := setTask_task s p .ready
  have same : ∀ q, finished ((s.setTask p .ready).task q) = finished (s.task q) := by
    intro q
    by_cases own : q = p
    · rw [own, here, sleeps]
      rfl
    · rw [setTask_of_ne s .ready own]
  refine ⟨h.nodup, ?_, ?_, ?_, h.fn, ?_, .readying (t + 1) rfl sound few ?_, h.exact⟩
  · intro q open'
    exact h.owned q ((same q).symm.trans open')
  · intro q v holds
    by_cases own : q = p
    · subst own
      exact absurd (here.symm.trans holds) (by simp)
    · exact h.locked q v ((setTask_of_ne s .ready own).symm.trans holds)
  · intro _ _
    refine (h.counting running.1 running.2).trans (List.countP_congr fun q _ => ?_)
    exact Bool.eq_iff_iff.mp (same q).symm
  · intro i q unit
    obtain ⟨lo, hi, faithful⟩ := h.units i q unit
    refine ⟨lo, hi, ?_⟩
    change Faithful s.call i (s.res q) ((s.setTask p .ready).task q)
    by_cases own : q = p
    · subst own
      rw [here]
      trivial
    · rw [setTask_of_ne s .ready own]
      exact faithful
  · intro i q later unit
    have differs : q ≠ p := by
      rintro rfl
      obtain ⟨bound, _⟩ := List.getElem?_eq_some_iff.mp listed
      have clash := (List.getElem?_inj bound h.nodup).mp (listed.trans unit.symm)
      omega
    exact (setTask_of_ne s .ready differs).trans (asleep i q (by omega) unit)

/-- The caller's steps keep the state sound. -/
theorem SchedOk.driverStep (step : SmpSched.driverStep s = some s') :
    SchedOk s' := by
  unfold SmpSched.driverStep at step
  cases h.stage with
  | idle at' | create at' =>
    rw [at'] at step
    exact absurd step.symm (Option.some_ne_none s')
  | setFn at' sound none =>
    rw [at'] at step
    obtain rfl := Option.some.inj step
    refine ⟨h.nodup, h.owned, h.locked, fun _ notDone => absurd rfl notDone, fun _ => rfl,
      fun t p listed => ?_, .setDone rfl sound none rfl, h.exact⟩
    exact ⟨(h.units t p listed).lo, (h.units t p listed).hi, (h.units t p listed).faithful⟩
  | setDone at' sound none fn =>
    rw [at'] at step
    obtain rfl := Option.some.inj step
    refine ⟨h.nodup, h.owned, fun q v holds => ?_, fun _ _ => ?_, h.fn, fun t p listed => ?_,
      .create rfl sound ?_ fn ?_, h.exact⟩
    · exact absurd holds (not_countWrite (h.all_finished none q) v)
    · exact (congrArg (List.countP _) none).symm
    · exact ⟨(h.units t p listed).lo, (h.units t p listed).hi, (h.units t p listed).faithful⟩
    · exact (congrArg List.length none).trans_le (Nat.zero_le _)
    · intro p listed
      exact absurd (none ▸ listed) List.not_mem_nil
  | readying t at' sound few asleep =>
    have running : s.driver ≠ .setFn ∧ s.driver ≠ .setDone := by rw [at']; simp
    rw [at'] at step
    simp only at step
    split at step
    next p listed =>
      obtain rfl := Option.some.inj step
      exact h.readied at' sound few asleep listed
    next =>
      obtain rfl := Option.some.inj step
      exact h.drive running (.own rfl sound few) h.exact
  | own at' sound few =>
    have running : s.driver ≠ .setFn ∧ s.driver ≠ .setDone := by rw [at']; simp
    rw [at'] at step
    obtain rfl := Option.some.inj step
    exact h.drive running (.wait rfl sound few rfl) h.exact
  | wait at' sound few total =>
    have running : s.driver ≠ .setFn ∧ s.driver ≠ .setDone := by rw [at']; simp
    rw [at'] at step
    simp only at step
    split_ifs at step with below
    · obtain rfl := Option.some.inj step
      exact h
    · obtain rfl := Option.some.inj step
      have counts := h.counting running.1 running.2
      have most := List.countP_le_length (p := fun p => finished (s.task p)) (l := s.pids)
      have all : ∀ p ∈ s.pids, finished (s.task p) = true :=
        List.countP_eq_length.mp (by omega)
      refine h.drive running (.sum 0 rfl sound few (Nat.zero_le _) (.inr ⟨all, ?_⟩)) h.exact
      rw [Finset.sum_range_zero, add_zero]
      exact total
  | sum t at' sound few inside right =>
    have running : s.driver ≠ .setFn ∧ s.driver ≠ .setDone := by rw [at']; simp
    rw [at'] at step
    simp only at step
    split at step
    next p listed =>
      obtain rfl := Option.some.inj step
      obtain ⟨below, _⟩ := List.getElem?_eq_some_iff.mp listed
      refine h.drive running (.sum (t + 1) rfl sound few below ?_) h.exact
      rcases right with hung | ⟨all, total⟩
      · exact .inl hung
      · refine .inr ⟨all, ?_⟩
        have unit := (h.units t p listed).faithful
        have atEnd := all p (List.mem_of_getElem? listed)
        have value : s.res p = part s.call t := by
          cases task : s.task p with
          | free | counted =>
            rw [task] at unit
            exact unit
          | _ =>
            rw [task] at atEnd
            exact absurd atEnd (by simp [finished])
        change s.total + s.res p = _
        rw [total, value, Finset.sum_range_succ, add_assoc]
    next ended =>
      obtain rfl := Option.some.inj step
      refine h.drive running (.idle rfl) ?_
      intro r listed
      rcases List.mem_cons.mp listed with rfl | earlier
      · rcases right with hung | ⟨_, total⟩
        · exact .inl hung
        · right
          have all : t = s.pids.length := by
            have beyond := List.getElem?_eq_none_iff.mp ended
            omega
          have spawn := sound.spawn
          change s.total = s.call.fn 0 s.call.n
          rw [total, all]
          exact sound.total (by omega)
      · exact h.exact r earlier

theorem SchedOk.call {fn : RangeFn} {n nunits : Int} {on noinline genOn : Bool}
    (meets : Meets s (.call fn n nunits on noinline genOn)) :
    SchedOk (callStep s fn n nunits on noinline genOn) := by
  obtain ⟨additive, low, high, quiet⟩ := meets
  unfold callStep
  rw [if_neg (by omega)]
  by_cases nested : s.driver ≠ .idle
  · rw [if_pos nested]
    exact h.log (.inr rfl)
  by_cases serial : Serial n nunits on
  · rw [if_neg nested, if_pos serial]
    exact h.log (.inr rfl)
  rw [if_neg nested, if_neg serial]
  have all := quiet (not_not.mp nested) serial
  obtain ⟨some, few, each⟩ := @clampUnits_range n nunits low high
  have units : (((clampUnits n nunits).toNat : Nat) : Int) = clampUnits n nunits := by omega
  refine ⟨List.nodup_nil, ?_, ?_, fun notFn _ => absurd rfl notFn, fun some => absurd rfl some,
    fun t p listed => absurd listed (by simp), .setFn rfl ?_ rfl, h.exact⟩
  · intro q open'
    exact absurd (open'.symm.trans (all q)) (by decide)
  · intro q v holds
    exact absurd holds (not_countWrite (all q) v)
  · refine ⟨additive, low, high, by simp only; omega, by simp only; omega,
      by simp only; omega, ?_⟩
    simp only
    split_ifs <;> omega

theorem schedOk_step {e : Event} (meets : Meets s e) (step : SmpSched.step s e = some s') :
    SchedOk s' := by
  cases e with
  | call fn n nunits on noinline genOn =>
    obtain rfl := Option.some.inj step
    exact h.call meets
  | driver => exact h.driverStep step
  | create pid => exact h.createStep step
  | task pid => exact h.unit (taskStep_move step) (locked_task h step)
  | timeout =>
    simp only [SmpSched.step] at step
    split_ifs at step with late
    obtain rfl := Option.some.inj step
    have running : s.driver ≠ .setFn ∧ s.driver ≠ .setDone := by rw [late.1]; simp
    cases h.stage with
    | wait at' sound few total =>
      exact h.drive running (.sum 0 rfl sound few (Nat.zero_le _) (.inl rfl)) h.exact
    | idle at' | setFn at' | setDone at' | create at' | readying _ at' | own at' | sum _ at' =>
      rw [late.1] at at'
      exact absurd at' (by simp)

end States

section Progress

def remaining (s : Sched) : Nat :=
  match s.driver with
  | .idle => 0
  | .setFn => 21
  | .setDone => 20
  | .create => 19
  | .readying t => 8 + s.pids.length + (s.pids.length - t)
  | .own => 7 + s.pids.length
  | .wait => 6 + s.pids.length
  | .sum t => 1 + s.pids.length - t

variable {s : Sched}

/-- Inside a call the caller always has a step that brings its return nearer. -/
theorem SchedOk.goes_on (h : SchedOk s) (busy : s.driver ≠ .idle) :
    ∃ e s', (e = .driver ∨ e = .create none ∨ e = .timeout) ∧ step s e = some s' ∧
      remaining s' < remaining s := by
  cases h.stage with
  | idle at' => exact absurd at' busy
  | setFn at' | setDone at' =>
    refine ⟨.driver, _, .inl rfl, by rw [step, SmpSched.driverStep, at'], ?_⟩
    simp [remaining, at', Sched.goto]
  | create at' sound few =>
    have spawn := sound.spawn
    have limit := sound.few
    refine ⟨.create none, s.goto (.readying 0), .inr (.inl rfl), ?_, ?_⟩
    · simp only [step, SmpSched.createStep]
      split_ifs <;> rfl
    · simp only [remaining, at', Sched.goto]
      omega
  | readying t at' =>
    cases listed : s.pids[t]? with
    | some p =>
      obtain ⟨bound, _⟩ := List.getElem?_eq_some_iff.mp listed
      refine ⟨.driver, _, .inl rfl, by
        simp only [step, SmpSched.driverStep, at', listed]
        rfl, ?_⟩
      simp only [remaining, at', Sched.goto, Sched.setTask]
      omega
    | none =>
      refine ⟨.driver, _, .inl rfl, by
        simp only [step, SmpSched.driverStep, at', listed]
        rfl, ?_⟩
      simp only [remaining, at', Sched.goto]
      omega
  | own at' =>
    refine ⟨.driver, _, .inl rfl, by rw [step, SmpSched.driverStep, at'], ?_⟩
    simp only [remaining, at', Sched.goto]
    omega
  | wait at' =>
    by_cases below : s.done < s.pids.length
    · refine ⟨.timeout, _, .inr (.inr rfl), by simp only [step]; rw [if_pos ⟨at', below⟩], ?_⟩
      simp only [remaining, at', Sched.goto]
      omega
    · refine ⟨.driver, _, .inl rfl, by
        simp only [step, SmpSched.driverStep, at']
        rw [if_neg below], ?_⟩
      simp only [remaining, at', Sched.goto]
      omega
  | sum t at' sound few inside =>
    cases listed : s.pids[t]? with
    | some p =>
      obtain ⟨bound, _⟩ := List.getElem?_eq_some_iff.mp listed
      refine ⟨.driver, _, .inl rfl, by
        simp only [step, SmpSched.driverStep, at', listed]
        rfl, ?_⟩
      simp only [remaining, at', Sched.goto]
      omega
    | none =>
      refine ⟨.driver, _, .inl rfl, by
        simp only [step, SmpSched.driverStep, at', listed]
        rfl, ?_⟩
      simp only [remaining, at', Sched.goto, Sched.log]
      omega

end Progress

/-- In every run whose steps meet the condition a call that has returned has hung or gave
its function over the whole range, every unit that has not counted itself belongs to the
last call, and a call that has not returned can go on to its end. -/
theorem sched_parallel_exact {s : Sched} (run : Runs step Meets schedInit s) :
    (∀ r ∈ s.returned, r.hung = true ∨ r.value = r.fn 0 r.n) ∧
      (∀ q, finished (s.task q) = false → q ∈ s.pids) ∧
      (s.driver ≠ .idle → ∃ e s', (e = .driver ∨ e = .create none ∨ e = .timeout) ∧
        step s e = some s' ∧ remaining s' < remaining s) := by
  have ok : SchedOk s := run.invariant schedOk_init fun _ _ _ ok meets moves =>
    schedOk_step ok meets moves
  exact ⟨ok.exact, ok.owned, ok.goes_on⟩

private def span : RangeFn := fun lo hi => BitVec.ofInt 64 (hi - lo)

private theorem span_additive : Additive span := by
  intro a b c _ _ _
  rw [span, span, span, ← BitVec.ofInt_add]
  congr 1
  omega

private def callOf (n : Int) : Event := .call span n 2 true true true

private def readies : List Event :=
  [.create none, .driver, .driver, .driver, .driver]

private def works (p : Nat) : List Event := List.replicate 7 (.task p)

private def collects : List Event := [.driver, .driver, .driver, .driver]

private def plain : Event → Bool
  | .call .. | .create (some _) => false
  | _ => true

private theorem plain_meets (s : Sched) (e : Event) (passes : plain e = true) : Meets s e := by
  cases e with
  | call => exact absurd passes Bool.false_ne_true
  | create pid =>
    cases pid with
    | none => trivial
    | some p => exact absurd passes Bool.false_ne_true
  | driver | timeout | task => trivial

private def follow (events : List Event) (s : Sched) : Option Sched :=
  events.foldlM (fun s e => if plain e then step s e else none) s

theorem sched_parallel_exact_one_call :
    ∃ s, Runs step Meets schedInit s ∧
      s.returned.map (fun r => (r.value, r.hung)) = [(2#64, false)] ∧
      ∀ r ∈ s.returned, r.hung = true ∨ r.value = r.fn 0 r.n := by
  have ends : ∃ s₁ s₂ s₃ s₄ s, step schedInit (callOf 2) = some s₁ ∧
      follow [.driver, .driver] s₁ = some s₂ ∧ step s₂ (.create (some 1)) = some s₃ ∧
      step s₃ (.create (some 2)) = some s₄ ∧
      follow (readies ++ works 2 ++ works 1 ++ collects) s₄ = some s ∧
      (∀ q, s₂.task q = .free) ∧ (∀ q, q ≠ 1 → s₃.task q = .free) ∧
      s₃.stack 1 ≠ (s₃.call.gen, s₃.pids.length) ∧
      s.returned.map (fun r => (r.value, r.hung)) = [(2#64, false)] :=
    ⟨_, _, _, _, _, rfl, rfl, rfl, rfl, rfl, fun _ => rfl, fun q other => if_neg other,
      by decide, by decide⟩
  obtain ⟨s₁, s₂, s₃, s₄, s, call, starts, one, two, later, free₂, free₃, apart, results⟩ := ends
  have meets : Meets schedInit (callOf 2) :=
    ⟨span_additive, by decide, by decide, fun _ _ _ => rfl⟩
  have stack₂ : Meets s₂ (.create (some 1)) := fun q => .inl (free₂ q)
  have stack₃ : Meets s₃ (.create (some 2)) := by
    intro q
    by_cases here : q = 1
    · subst here
      exact .inr apart
    · exact .inl (free₃ q here)
  have first : Runs step Meets schedInit s₁ := (Runs.refl schedInit).snoc meets call
  have second := first.trans (Runs.of_checked (fun _ => plain) plain_meets _ starts)
  have run := ((second.snoc stack₂ one).snoc stack₃ two).trans
    (Runs.of_checked (fun _ => plain) plain_meets _ later)
  exact ⟨s, run, results, (sched_parallel_exact run).1⟩

/-- A range function that adds up and a range of the kind that is meant. -/
def Intended : Event → Prop
  | .call fn n _ _ _ _ => Additive fn ∧ 1 ≤ n ∧ n < 2147483648
  | _ => True

/-- The two units of a call that timed out count themselves in the next call. -/
private def leftOver : List Event :=
  [callOf 2, .driver, .driver, .create (some 1), .create (some 2)] ++ readies ++
    [.timeout, .driver, .driver, .driver] ++
    [callOf 4, .driver, .driver, .create (some 3), .create (some 4)] ++ readies ++
    works 1 ++ works 2 ++ collects

theorem left_over_units_counted :
    ¬ ∀ s, Runs step (fun _ e => Intended e) schedInit s →
      ∀ r ∈ s.returned, r.hung = true ∨ r.value = r.fn 0 r.n := by
  intro claimed
  have ends : ∃ s r, leftOver.foldlM step schedInit = some s ∧ s.returned.head? = some r ∧
      r.hung = false ∧ r.value = 0#64 ∧ r.fn 0 r.n = 4#64 :=
    ⟨_, _, rfl, rfl, by decide, by decide, by decide⟩
  obtain ⟨s, r, run, head, calm, value, whole⟩ := ends
  have intended : ∀ s : Sched, ∀ e ∈ leftOver, Intended e := by
    intro _ e listed
    cases e with
    | call fn n nunits on noinline genOn =>
      simp [leftOver, readies, works, collects, callOf] at listed
      rcases listed with ⟨rfl, rfl, _⟩ | ⟨rfl, rfl, _⟩
      · exact ⟨span_additive, by decide, by decide⟩
      · exact ⟨span_additive, by decide, by decide⟩
    | driver | create | timeout | task => trivial
  rcases claimed s (Runs.of_steps leftOver intended run) r (List.mem_of_mem_head? head) with
    hung | exact
  · rw [calm] at hung
    exact absurd hung (by decide)
  · rw [value, whole] at exact
    exact absurd exact (by decide)

end XinuRpi5.System.SmpSchedExact
