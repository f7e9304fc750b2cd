/- source: system/smp.c
   digest: Every call of smp_parallel_sum returns its function over the whole range. -/

import Mathlib.Tactic.Abel
import XinuRpi5.Lib.GuardedRuns
import XinuRpi5.System.SmpMailbox

namespace XinuRpi5.System.SmpExact

open Lib.GuardedRuns Lib.SplitRange SmpMailbox

section Workers

def job : Worker → Option Nat
  | .readFn last | .readLo last _ | .readHi last _ _ | .compute last _ _ _ | .writeRes last _
  | .writeDone last => some last
  | _ => none

/-- The worker is not busy with an earlier job than the one in its mailbox. -/
def UpToDate (b : Mailbox) (w : Worker) : Prop := ∀ last, job w = some last → last = b.seq

/-- What a worker that is busy with the job in its mailbox has read of it. -/
def Faithful (b : Mailbox) : Worker → Prop
  | .readLo last fn => last = b.seq → fn = b.fn
  | .readHi last fn lo => last = b.seq → fn = b.fn ∧ lo = b.lo
  | .compute last fn lo hi => last = b.seq → fn = b.fn ∧ lo = b.lo ∧ hi = b.hi
  | .writeRes last r => last = b.seq → r = b.value
  | .writeDone last => last = b.seq → b.res = b.value
  | _ => True

/-- A mailbox and its worker; `filling` says that core 0 is writing a new job. -/
structure BoxOk (b : Mailbox) (w : Worker) (filling : Prop) : Prop where
  finished : b.done ≤ b.seq
  behind : ∀ last, job w = some last → b.done ≤ last ∧ last ≤ b.seq
  faithful : ¬ filling → Faithful b w
  result : ¬ filling → b.done = b.seq → b.res = b.value

inductive Turn (b : Mailbox) : Worker → Mailbox → Worker → Prop where
  | sleep (last : Nat) : Turn b (.idle last) b (.idle last)
  | wake (last : Nat) : Turn b (.idle last) b .woken
  | latch : Turn b .woken b (.readFn b.seq)
  | fn (last : Nat) : Turn b (.readFn last) b (.readLo last b.fn)
  | lo (last : Nat) (fn : RangeFn) : Turn b (.readLo last fn) b (.readHi last fn b.lo)
  | hi (last : Nat) (fn : RangeFn) (lo : Int) :
      Turn b (.readHi last fn lo) b (.compute last fn lo b.hi)
  | compute (last : Nat) (fn : RangeFn) (lo hi : Int) :
      Turn b (.compute last fn lo hi) b (.writeRes last (fn lo hi))
  | res (last : Nat) (r : Long) : Turn b (.writeRes last r) { b with res := r } (.writeDone last)
  | done (last : Nat) : Turn b (.writeDone last) { b with done := last } (.idle last)

variable {b b' : Mailbox} {w w' : Worker} {filling : Prop}

theorem Turn.fields (turn : Turn b w b' w') :
    b'.fn = b.fn ∧ b'.lo = b.lo ∧ b'.hi = b.hi ∧ b'.seq = b.seq := by
  cases turn <;> exact ⟨rfl, rfl, rfl, rfl⟩

theorem BoxOk.turn (h : BoxOk b w filling) (turn : Turn b w b' w') : BoxOk b' w' filling := by
  obtain ⟨finished, behind, faithful, result⟩ := h
  cases turn with
  | sleep | wake => exact ⟨finished, fun _ busy => by simp [job] at busy, fun _ => trivial, result⟩
  | latch =>
    refine ⟨finished, fun last busy => ?_, fun _ => trivial, result⟩
    obtain rfl := Option.some.inj busy
    exact ⟨finished, Nat.le_refl _⟩
  | fn last => exact ⟨finished, behind, fun _ _ => rfl, result⟩
  | lo last fn => exact ⟨finished, behind, fun calm now => ⟨faithful calm now, rfl⟩, result⟩
  | hi last fn lo =>
    refine ⟨finished, behind, fun calm now => ?_, result⟩
    obtain ⟨sameFn, sameLo⟩ := faithful calm now
    exact ⟨sameFn, sameLo, rfl⟩
  | compute last fn lo hi =>
    refine ⟨finished, behind, fun calm now => ?_, result⟩
    obtain ⟨rfl, rfl, rfl⟩ := faithful calm now
    rfl
  | res last r =>
    refine ⟨finished, behind, fun calm now => faithful calm now, fun calm all => ?_⟩
    obtain ⟨low, high⟩ := behind last rfl
    exact faithful calm (Nat.le_antisymm high (all ▸ low))
  | done last =>
    refine ⟨(behind last rfl).2, fun _ busy => by simp [job] at busy, fun _ => trivial, ?_⟩
    exact fun calm now => faithful calm now

theorem UpToDate.turn (h : UpToDate b w) (turn : Turn b w b' w') : UpToDate b' w' := by
  cases turn with
  | sleep | wake | done => exact fun _ busy => by simp [job] at busy
  | latch => exact fun last busy => (Option.some.inj busy).symm
  | fn | lo | hi | compute | res => exact h

theorem Turn.res_value (turn : Turn b w b' w') (ok : BoxOk b w filling) (calm : ¬ filling)
    (fresh : UpToDate b w) (right : b.res = b.value) : b'.res = b'.value := by
  cases turn with
  | res last r => exact ok.faithful calm (fresh last rfl)
  | _ => exact right

theorem BoxOk.upToDate (ok : BoxOk b w filling) (all : b.done = b.seq) : UpToDate b w := by
  intro last busy
  obtain ⟨low, high⟩ := ok.behind last busy
  omega

theorem BoxOk.post (ok : BoxOk b w filling) {next : Prop} :
    BoxOk { b with seq := b.seq + 1 } w next := by
  have older : ∀ last, job w = some last → last ≠ b.seq + 1 := fun last busy =>
    Nat.ne_of_lt (Nat.lt_succ_of_le (ok.behind last busy).2)
  refine ⟨Nat.le_succ_of_le ok.finished, fun last busy => ?_, fun _ => ?_, fun _ all => ?_⟩
  · exact ⟨(ok.behind last busy).1, Nat.le_succ_of_le (ok.behind last busy).2⟩
  · cases w with
    | readLo | readHi | compute | writeRes | writeDone => exact fun now => absurd now (older _ rfl)
    | _ => trivial
  · have finished := ok.finished
    have now : b.done = b.seq + 1 := all
    omega

end Workers

section Calls

/-- A call of the kind that is meant: an additive function and a range whose bounds are
computed without overflow. -/
structure Sound (k : Call) : Prop where
  additive : Additive k.fn
  low : 0 ≤ k.n
  some : 1 ≤ k.cores
  fits : k.cores * k.n < 9223372036854775808

variable {k : Call}

theorem long_of_range {x : Int} (low : 0 ≤ x) (high : x < 9223372036854775808) : long x = x := by
  have reduced : x % 18446744073709551616 = x := Int.emod_eq_of_lt low (by omega)
  rw [long, Int.bmod_eq_emod_of_lt, Nat.cast_ofNat, reduced]
  rw [Nat.cast_ofNat, reduced]
  omega

theorem Sound.bound (h : Sound k) {c : Nat} (inside : c ≤ k.cores) :
    (long (c * k.n)).tdiv k.cores = evenCut k.n k.cores c := by
  have low : 0 ≤ (c : Int) * k.n := Int.mul_nonneg (by omega) h.low
  have high : (c : Int) * k.n ≤ k.cores * k.n := Int.mul_le_mul_of_nonneg_right (by omega) h.low
  have fits := h.fits
  rw [long_of_range low (by omega), evenCut, Int.tdiv_eq_ediv_of_nonneg low]

theorem Sound.part (h : Sound k) {c : Nat} (inside : c < k.cores) :
    k.part c = k.fn (evenCut k.n k.cores c) (evenCut k.n k.cores (c + 1)) := by
  have next : (long ((c + 1) * k.n)).tdiv k.cores = evenCut k.n k.cores (c + 1) := by
    exact_mod_cast h.bound inside
  rw [Call.part, Call.lo, Call.hi, h.bound (Nat.le_of_lt inside), next]

theorem Sound.own (h : Sound k) : k.own = k.part 0 := by
  have start : evenCut k.n k.cores 0 = 0 := evenCut_zero _ _
  rw [h.part h.some, Call.own, start]
  congr 1
  split_ifs with one
  · rw [one, evenCut_all k.n Nat.one_pos]
  · rw [evenCut, Int.tdiv_eq_ediv_of_nonneg h.low]
    simp

theorem Sound.total (h : Sound k) :
    k.own + ∑ d ∈ Finset.Ico 1 k.cores, k.part d = k.fn 0 k.n := by
  have pieces := sum_evenCut h.additive h.low h.some
  rw [h.own, ← pieces, Finset.range_eq_Ico, Finset.sum_eq_sum_Ico_succ_bot h.some,
    h.part h.some]
  congr 1
  apply Finset.sum_congr rfl
  intro d inside
  exact h.part (Finset.mem_Ico.mp inside).2

/-- What the workers `a` to `b - 1` that are online contribute. -/
def sent (k : Call) (a b : Nat) : Long :=
  ∑ d ∈ Finset.Ico a b, if k.online d then k.part d else 0

theorem sent_first {a b : Nat} (below : a < b) :
    sent k a b = (if k.online a then k.part a else 0) + sent k (a + 1) b :=
  Finset.sum_eq_sum_Ico_succ_bot below _

theorem sent_last {a b : Nat} (below : a ≤ b) :
    sent k a (b + 1) = sent k a b + if k.online b then k.part b else 0 :=
  Finset.sum_Ico_succ_top below _

end Calls

section States

/-- Core 0 has begun to write a new job for core `c` and has not posted it yet. -/
def Filling (c : Nat) : Main → Prop
  | .setLo d | .setHi d | .bump d => d = c
  | _ => False

/-- The mailbox of core `c` holds its chunk of the call. -/
structure Filled (k : Call) (b : Mailbox) (c : Nat) : Prop where
  fn : b.fn = k.fn
  lo : b.lo = k.lo c
  hi : b.hi = k.hi c

/-- Core 0 is about to hand out the chunk of core `c`. -/
inductive Handing (s : Smp) (c : Nat) : Prop where
  | post (main : s.main = .post c)
  | setFn (main : s.main = .setFn c) (inside : c < s.call.cores) (up : s.call.online c = true)
  | setLo (main : s.main = .setLo c) (inside : c < s.call.cores) (up : s.call.online c = true)
      (fn : (s.box c).fn = s.call.fn)
  | setHi (main : s.main = .setHi c) (inside : c < s.call.cores) (up : s.call.online c = true)
      (fn : (s.box c).fn = s.call.fn) (lo : (s.box c).lo = s.call.lo c)
  | bump (main : s.main = .bump c) (inside : c < s.call.cores) (up : s.call.online c = true)
      (filled : Filled s.call (s.box c) c)

/-- Core 0 is about to collect the chunk of core `c`. -/
inductive Bringing (s : Smp) (c : Nat) : Prop where
  | collect (main : s.main = .collect c)
  | wait (main : s.main = .wait c) (inside : c < s.call.cores) (up : s.call.online c = true)
  | takeOver (main : s.main = .takeOver c) (inside : c < s.call.cores)
      (up : s.call.online c = true) (fresh : UpToDate (s.box c) (s.worker c))
  | read (main : s.main = .read c) (inside : c < s.call.cores) (up : s.call.online c = true)
      (fresh : UpToDate (s.box c) (s.worker c)) (right : (s.box c).res = (s.box c).value)

/-- The chunks in front of `c` are handed out. -/
def HandedOut (s : Smp) (c : Nat) : Prop :=
  ∀ d, 1 ≤ d → d < c → s.call.online d = true → Filled s.call (s.box d) d

/-- How far the call is, and what is still to be added to its total. -/
inductive Stage (s : Smp) : Prop where
  | idle (main : s.main = .idle)
  | handing (c : Nat) (at' : Handing s c) (sound : Sound s.call) (low : 1 ≤ c)
      (high : c ≤ s.call.cores) (filled : HandedOut s c)
      (owed : s.total + (s.call.own + sent s.call 1 c +
        ∑ d ∈ Finset.Ico c s.call.cores, s.call.part d) = s.call.fn 0 s.call.n)
  | own (main : s.main = .own) (sound : Sound s.call) (filled : HandedOut s s.call.cores)
      (owed : s.total + (s.call.own + sent s.call 1 s.call.cores) = s.call.fn 0 s.call.n)
  | bringing (c : Nat) (at' : Bringing s c) (sound : Sound s.call) (low : 1 ≤ c)
      (high : c ≤ s.call.cores) (filled : HandedOut s s.call.cores)
      (owed : s.total + sent s.call c s.call.cores = s.call.fn 0 s.call.n)

structure SmpOk (s : Smp) : Prop where
  box : ∀ c, BoxOk (s.box c) (s.worker c) (Filling c s.main)
  stage : Stage s
  exact : ∀ r ∈ s.returned, r.2 = r.1.fn 0 r.1.n

/-- The condition on a step: a call is of the kind that is meant, the job counter does
not overflow, and core 0 gives up on a worker only when that one is not busy with an
earlier job. -/
def Meets (s : Smp) : Event → Prop
  | .call fn n ncores online => Additive fn ∧ 0 ≤ n ∧
      (mkCall fn n ncores online).cores * n < 9223372036854775808
  | .main => ∀ c, s.main = .bump c → (s.box c).seq < 2147483647
  | .giveUp => ∀ c, s.main = .wait c → UpToDate (s.box c) (s.worker c)
  | _ => True

theorem smpOk_init : SmpOk smpInit :=
  ⟨fun _ => ⟨Nat.le_refl _, fun _ busy => by simp [smpInit, job] at busy, fun _ => trivial,
    fun _ _ => rfl⟩, .idle rfl, fun _ listed => absurd listed List.not_mem_nil⟩

variable {s s' : Smp} {c : Nat}

section Fields

variable (s c) (b : Mailbox) (w : Worker)

@[simp] theorem setBox_box : (s.setBox c b).box c = b := if_pos rfl

@[simp] theorem setWorker_worker : (s.setWorker c w).worker c = w := if_pos rfl

variable {c} {d : Nat} (other : d ≠ c)
include other

theorem setBox_of_ne : (s.setBox c b).box d = s.box d := if_neg other

theorem setWorker_of_ne : (s.setWorker c w).worker d = s.worker d := if_neg other

end Fields

/-- A step of a worker, on its mailbox. -/
theorem workerStep_turn (step : workerStep s c = some s') :
    ∃ b w, Turn (s.box c) (s.worker c) b w ∧ s' = (s.setBox c b).setWorker c w := by
  have same : s.setBox c (s.box c) = s := by
    unfold Smp.setBox
    congr 1
    funext d
    split_ifs with here
    · rw [here]
    · rfl
  have keep : s.setWorker c (s.worker c) = s := by
    unfold Smp.setWorker
    congr 1
    funext d
    split_ifs with here
    · rw [here]
    · rfl
  unfold workerStep at step
  split at step
  next => exact absurd step.symm (Option.some_ne_none s')
  next last here =>
    split_ifs at step with old
    · obtain rfl := Option.some.inj step
      exact ⟨s.box c, s.worker c, by rw [here]; exact .sleep last, by rw [same, keep]⟩
    · obtain rfl := Option.some.inj step
      exact ⟨_, _, by rw [here]; exact .wake last, by rw [same]⟩
  next here =>
    obtain rfl := Option.some.inj step
    exact ⟨_, _, by rw [here]; exact .latch, by rw [same]⟩
  next last here =>
    obtain rfl := Option.some.inj step
    exact ⟨_, _, by rw [here]; exact .fn last, by rw [same]⟩
  next last fn here =>
    obtain rfl := Option.some.inj step
    exact ⟨_, _, by rw [here]; exact .lo last fn, by rw [same]⟩
  next last fn lo here =>
    obtain rfl := Option.some.inj step
    exact ⟨_, _, by rw [here]; exact .hi last fn lo, by rw [same]⟩
  next last fn lo hi here =>
    obtain rfl := Option.some.inj step
    exact ⟨_, _, by rw [here]; exact .compute last fn lo hi, by rw [same]⟩
  next last r here =>
    obtain rfl := Option.some.inj step
    exact ⟨_, _, by rw [here]; exact .res last r, rfl⟩
  next last here =>
    obtain rfl := Option.some.inj step
    exact ⟨_, _, by rw [here]; exact .done last, rfl⟩

/-- A worker changes its own mailbox and state, and neither the job nor its number. -/
structure WorkerMove (s s' : Smp) (c : Nat) : Prop where
  others : ∀ d, d ≠ c → s'.box d = s.box d ∧ s'.worker d = s.worker d
  fields : (s'.box c).fn = (s.box c).fn ∧ (s'.box c).lo = (s.box c).lo ∧
    (s'.box c).hi = (s.box c).hi
  rest : s'.main = s.main ∧ s'.call = s.call ∧ s'.total = s.total ∧ s'.returned = s.returned
  box : ∀ filling, BoxOk (s.box c) (s.worker c) filling → BoxOk (s'.box c) (s'.worker c) filling
  fresh : UpToDate (s.box c) (s.worker c) → UpToDate (s'.box c) (s'.worker c)
  right : ∀ filling, BoxOk (s.box c) (s.worker c) filling → ¬ filling →
    UpToDate (s.box c) (s.worker c) → (s.box c).res = (s.box c).value →
    (s'.box c).res = (s'.box c).value

theorem workerStep_move (step : workerStep s c = some s') : WorkerMove s s' c := by
  obtain ⟨b, w, turn, rfl⟩ := workerStep_turn step
  have box : ((s.setBox c b).setWorker c w).box c = b := setBox_box s c b
  have worker : ((s.setBox c b).setWorker c w).worker c = w := setWorker_worker _ c w
  refine ⟨?_, ?_, ⟨rfl, rfl, rfl, rfl⟩, ?_, ?_, ?_⟩
  · intro d other
    exact ⟨setBox_of_ne s b other, setWorker_of_ne _ w other⟩
  · rw [box]
    exact ⟨turn.fields.1, turn.fields.2.1, turn.fields.2.2.1⟩
  · rw [box, worker]
    exact fun filling ok => ok.turn turn
  · rw [box, worker]
    exact fun fresh => fresh.turn turn
  · rw [box]
    exact fun filling ok calm fresh right => turn.res_value ok calm fresh right

theorem join_move (s : Smp) (c last : Nat) :
    WorkerMove s (s.setWorker c (.idle last)) c := by
  have idle : (s.setWorker c (.idle last)).worker c = .idle last := setWorker_worker s c _
  refine ⟨?_, ⟨rfl, rfl, rfl⟩, ⟨rfl, rfl, rfl, rfl⟩, ?_, ?_, ?_⟩
  · intro d other
    exact ⟨rfl, setWorker_of_ne s _ other⟩
  · intro filling ok
    rw [idle]
    exact ⟨ok.finished, fun _ busy => by simp [job] at busy, fun _ => trivial, ok.result⟩
  · intro _
    rw [idle]
    exact fun _ busy => by simp [job] at busy
  · exact fun _ _ _ _ right => right

theorem WorkerMove.job (move : WorkerMove s s' c) (d : Nat) :
    (s'.box d).fn = (s.box d).fn ∧ (s'.box d).lo = (s.box d).lo ∧
      (s'.box d).hi = (s.box d).hi := by
  by_cases here : d = c
  · exact here ▸ move.fields
  · rw [(move.others d here).1]
    exact ⟨rfl, rfl, rfl⟩

theorem WorkerMove.filled (move : WorkerMove s s' c) {d : Nat}
    (h : Filled s.call (s.box d) d) : Filled s'.call (s'.box d) d := by
  obtain ⟨fn, lo, hi⟩ := move.job d
  rw [move.rest.2.1]
  exact ⟨fn.trans h.fn, lo.trans h.lo, hi.trans h.hi⟩

variable {e : Nat}

theorem HandedOut.worker (h : HandedOut s e) (move : WorkerMove s s' c) :
    HandedOut s' e := by
  intro d low high up
  rw [move.rest.2.1] at up
  exact move.filled (h d low high up)

theorem Handing.worker (h : Handing s e) (move : WorkerMove s s' c) :
    Handing s' e := by
  obtain ⟨main, call, _, _⟩ := move.rest
  obtain ⟨fn, lo, _⟩ := move.job e
  cases h with
  | post at' => exact .post (main.trans at')
  | setFn at' inside up => exact .setFn (main.trans at') (call ▸ inside) (call ▸ up)
  | setLo at' inside up sameFn =>
    exact .setLo (main.trans at') (call ▸ inside) (call ▸ up) (by rw [fn, call, sameFn])
  | setHi at' inside up sameFn sameLo =>
    exact .setHi (main.trans at') (call ▸ inside) (call ▸ up) (by rw [fn, call, sameFn])
      (by rw [lo, call, sameLo])
  | bump at' inside up filled =>
    exact .bump (main.trans at') (call ▸ inside) (call ▸ up) (move.filled filled)

theorem Bringing.worker (h : Bringing s e) (move : WorkerMove s s' c)
    (boxes : ∀ d, BoxOk (s.box d) (s.worker d) (Filling d s.main)) : Bringing s' e := by
  obtain ⟨main, call, _, _⟩ := move.rest
  have keeps : UpToDate (s.box e) (s.worker e) → UpToDate (s'.box e) (s'.worker e) := by
    intro fresh
    by_cases here : e = c
    · subst here
      exact move.fresh fresh
    · rw [(move.others e here).1, (move.others e here).2]
      exact fresh
  cases h with
  | collect at' => exact .collect (main.trans at')
  | wait at' inside up => exact .wait (main.trans at') (call ▸ inside) (call ▸ up)
  | takeOver at' inside up fresh =>
    exact .takeOver (main.trans at') (call ▸ inside) (call ▸ up) (keeps fresh)
  | read at' inside up fresh right =>
    refine .read (main.trans at') (call ▸ inside) (call ▸ up) (keeps fresh) ?_
    by_cases here : e = c
    · subst here
      exact move.right _ (boxes e) (by rw [at']; exact id) fresh right
    · rw [(move.others e here).1]
      exact right

/-- Steps of the workers keep the state sound. -/
theorem SmpOk.worker (h : SmpOk s) (move : WorkerMove s s' c) : SmpOk s' := by
  obtain ⟨main, call, total, returned⟩ := move.rest
  refine ⟨fun d => ?_, ?_, ?_⟩
  · rw [main]
    by_cases here : d = c
    · subst here
      exact move.box _ (h.box d)
    · rw [(move.others d here).1, (move.others d here).2]
      exact h.box d
  · cases h.stage with
    | idle at' => exact .idle (main.trans at')
    | handing e at' sound low high filled owed =>
      refine .handing e (at'.worker move) ?_ low ?_ (filled.worker move) ?_
      all_goals rw [call]
      · exact sound
      · exact high
      · rw [total]
        exact owed
    | own at' sound filled owed =>
      refine .own (main.trans at') ?_ ?_ ?_
      all_goals rw [call]
      · exact sound
      · exact filled.worker move
      · rw [total]
        exact owed
    | bringing e at' sound low high filled owed =>
      refine .bringing e (at'.worker move h.box) ?_ low ?_ ?_ ?_
      all_goals rw [call]
      · exact sound
      · exact high
      · exact filled.worker move
      · rw [total]
        exact owed
  · rw [returned]
    exact h.exact

theorem BoxOk.weaken {b : Mailbox} {w : Worker} {filling filling' : Prop} (h : BoxOk b w filling)
    (weaker : filling → filling') : BoxOk b w filling' :=
  ⟨h.finished, h.behind, fun calm => h.faithful fun now => calm (weaker now),
    fun calm => h.result fun now => calm (weaker now)⟩

theorem boxes_goto (h : SmpOk s) (box : s'.box = s.box) (worker : s'.worker = s.worker)
    (before : ∀ d, ¬ Filling d s.main) (d : Nat) :
    BoxOk (s'.box d) (s'.worker d) (Filling d s'.main) := by
  rw [box, worker]
  exact (h.box d).weaken fun now => absurd now (before d)

theorem boxes_fill (h : SmpOk s) {b : Mailbox} {next : Main} (seq : b.seq = (s.box c).seq)
    (done : b.done = (s.box c).done) (now : Filling c next)
    (only : ∀ d, Filling d s.main → d = c) (d : Nat) :
    BoxOk (((s.setBox c b).goto next).box d) (((s.setBox c b).goto next).worker d)
      (Filling d ((s.setBox c b).goto next).main) := by
  by_cases here : d = c
  · subst here
    have box : ((s.setBox d b).goto next).box d = b := setBox_box s d b
    rw [box]
    refine ⟨?_, ?_, fun calm => absurd now calm, fun calm => absurd now calm⟩
    · rw [seq, done]
      exact (h.box d).finished
    · rw [seq, done]
      exact (h.box d).behind
  · have box : ((s.setBox c b).goto next).box d = s.box d := setBox_of_ne s b here
    rw [box]
    exact (h.box d).weaken fun filling => absurd (only d filling) here

theorem HandedOut.setBox {b : Mailbox} {next : Main} (h : HandedOut s e)
    (above : e ≤ c) : HandedOut ((s.setBox c b).goto next) e := by
  intro d low high up
  have box : ((s.setBox c b).goto next).box d = s.box d := setBox_of_ne s b (by omega)
  rw [box]
  exact h d low high up

theorem long_regroup (total own sent part rest : Long) :
    total + (own + sent + (part + rest)) = total + part + (own + sent + rest) := by
  abel

section

variable (h : SmpOk s) {c : Nat} (sound : Sound s.call) (low : 1 ≤ c) (high : c ≤ s.call.cores)
  (step : mainStep s = some s')

include h sound low high step

/-- Core 0 hands out the chunks. -/
theorem SmpOk.handing (meets : Meets s .main) (at' : Handing s c) (filled : HandedOut s c)
    (owed : s.total + (s.call.own + sent s.call 1 c +
        ∑ d ∈ Finset.Ico c s.call.cores, s.call.part d) = s.call.fn 0 s.call.n) :
    SmpOk s' := by
  unfold mainStep at step
  cases at' with
  | post main =>
    rw [main] at step
    have before : ∀ d, ¬ Filling d s.main := fun d => by rw [main]; exact id
    simp only at step
    split_ifs at step with inside up
    · obtain rfl := Option.some.inj step
      exact ⟨boxes_goto h rfl rfl before,
        .handing c (.setFn rfl inside up) sound low high filled owed, h.exact⟩
    · obtain rfl := Option.some.inj step
      refine ⟨boxes_goto h rfl rfl before,
        .handing (c + 1) (.post rfl) sound (by omega) inside ?_ ?_, h.exact⟩
      · intro d one below online
        rcases Nat.lt_or_eq_of_le (Nat.le_of_lt_succ below) with earlier | rfl
        · exact filled d one earlier online
        · exact absurd online up
      · have last := sent_last (k := s.call) low
        rw [if_neg up, add_zero] at last
        rw [Finset.sum_eq_sum_Ico_succ_bot inside, long_regroup, ← last] at owed
        exact owed
    · obtain rfl := Option.some.inj step
      have all : c = s.call.cores := by omega
      subst all
      rw [Finset.Ico_self, Finset.sum_empty, add_zero] at owed
      exact ⟨boxes_goto h rfl rfl before, .own rfl sound filled owed, h.exact⟩
  | setFn main inside up =>
    rw [main] at step
    obtain rfl := Option.some.inj step
    refine ⟨boxes_fill h rfl rfl rfl fun d now => ?_,
      .handing c (.setLo rfl inside up ?_) sound low high (filled.setBox (Nat.le_refl c)) owed,
      h.exact⟩
    · rw [main] at now
      exact now.elim
    · exact congrArg Mailbox.fn (setBox_box s c _)
  | setLo main inside up fn =>
    rw [main] at step
    obtain rfl := Option.some.inj step
    refine ⟨boxes_fill h rfl rfl rfl fun d now => ?_,
      .handing c (.setHi rfl inside up ?_ ?_) sound low high (filled.setBox (Nat.le_refl c)) owed,
      h.exact⟩
    · rw [main] at now
      exact Eq.symm now
    · exact (congrArg Mailbox.fn (setBox_box s c _)).trans fn
    · exact congrArg Mailbox.lo (setBox_box s c _)
  | setHi main inside up fn lo =>
    rw [main] at step
    obtain rfl := Option.some.inj step
    refine ⟨boxes_fill h rfl rfl rfl fun d now => ?_,
      .handing c (.bump rfl inside up ⟨?_, ?_, ?_⟩) sound low high
        (filled.setBox (Nat.le_refl c)) owed, h.exact⟩
    · rw [main] at now
      exact Eq.symm now
    · exact (congrArg Mailbox.fn (setBox_box s c _)).trans fn
    · exact (congrArg Mailbox.lo (setBox_box s c _)).trans lo
    · exact congrArg Mailbox.hi (setBox_box s c _)
  | bump main inside up full =>
    rw [main] at step
    obtain rfl := Option.some.inj step
    have small := meets c main
    have next : ((s.box c).seq + 1) % 4294967296 = (s.box c).seq + 1 :=
      Nat.mod_eq_of_lt (by omega)
    rw [next]
    refine ⟨fun d => ?_, .handing (c + 1) (.post rfl) sound (by omega) inside ?_ ?_, h.exact⟩
    · by_cases here : d = c
      · subst here
        have box := setBox_box s d { s.box d with seq := (s.box d).seq + 1 }
        change BoxOk ((s.setBox d _).box d) (s.worker d) False
        rw [box]
        exact (h.box d).post
      · have box := setBox_of_ne s { s.box c with seq := (s.box c).seq + 1 } here
        change BoxOk ((s.setBox c _).box d) (s.worker d) False
        rw [box]
        refine (h.box d).weaken fun now => ?_
        rw [main] at now
        exact here now.symm
    · intro d one below online
      rcases Nat.lt_or_eq_of_le (Nat.le_of_lt_succ below) with earlier | rfl
      · exact filled.setBox (Nat.le_refl c) d one earlier online
      · have box := setBox_box s d { s.box d with seq := (s.box d).seq + 1 }
        change Filled s.call ((s.setBox d _).box d) d
        rw [box]
        exact ⟨full.fn, full.lo, full.hi⟩
    · have last := sent_last (k := s.call) low
      rw [if_pos up] at last
      have regroup : s.call.own + sent s.call 1 (c + 1) +
          ∑ d ∈ Finset.Ico (c + 1) s.call.cores, s.call.part d =
          s.call.own + sent s.call 1 c + ∑ d ∈ Finset.Ico c s.call.cores, s.call.part d := by
        rw [last, Finset.sum_eq_sum_Ico_succ_bot inside]
        abel
      exact (congrArg (s.total + ·) regroup).trans owed

/-- Core 0 collects the chunks. -/
theorem SmpOk.bringing (at' : Bringing s c) (filled : HandedOut s s.call.cores)
    (owed : s.total + sent s.call c s.call.cores = s.call.fn 0 s.call.n) : SmpOk s' := by
  unfold mainStep at step
  cases at' with
  | collect main =>
    rw [main] at step
    have before : ∀ d, ¬ Filling d s.main := fun d => by rw [main]; exact id
    simp only at step
    split_ifs at step with inside up
    · obtain rfl := Option.some.inj step
      exact ⟨boxes_goto h rfl rfl before,
        .bringing c (.wait rfl inside up) sound low high filled owed, h.exact⟩
    · obtain rfl := Option.some.inj step
      rw [sent_first inside, if_neg up, zero_add] at owed
      exact ⟨boxes_goto h rfl rfl before,
        .bringing (c + 1) (.collect rfl) sound (by omega) inside filled owed, h.exact⟩
    · obtain rfl := Option.some.inj step
      have all : c = s.call.cores := by omega
      rw [all, sent, Finset.Ico_self, Finset.sum_empty, add_zero] at owed
      refine ⟨boxes_goto h rfl rfl before, .idle rfl, ?_⟩
      intro r listed
      rcases List.mem_cons.mp listed with rfl | earlier
      · exact owed
      · exact h.exact r earlier
  | wait main inside up =>
    rw [main] at step
    simp only at step
    split_ifs at step with all
    · obtain rfl := Option.some.inj step
      have calm : ¬ Filling c s.main := by rw [main]; exact id
      have before : ∀ d, ¬ Filling d s.main := fun d => by rw [main]; exact id
      exact ⟨boxes_goto h rfl rfl before, .bringing c (.read rfl inside up
        ((h.box c).upToDate all) ((h.box c).result calm all)) sound low high filled owed, h.exact⟩
    · obtain rfl := Option.some.inj step
      exact h
  | takeOver main inside up fresh =>
    rw [main] at step
    obtain rfl := Option.some.inj step
    obtain ⟨fn, lo, hi⟩ := filled c low inside up
    have calm : ∀ d, ¬ Filling d s.main := fun d => by rw [main]; exact id
    have value : s.call.part c = (s.box c).value := by rw [Mailbox.value, fn, lo, hi, Call.part]
    have box : (((s.setBox c { s.box c with res := s.call.part c }).goto (.read c)).box c) =
        { s.box c with res := s.call.part c } := setBox_box s c _
    refine ⟨fun d => ?_, .bringing c (.read rfl inside up ?_ ?_) sound low high ?_ owed, h.exact⟩
    · by_cases here : d = c
      · subst here
        rw [box]
        refine ⟨(h.box d).finished, (h.box d).behind, fun _ => ?_, fun _ _ => value⟩
        have faithful := (h.box d).faithful (calm d)
        change Faithful _ (s.worker d)
        cases busy : s.worker d with
        | writeDone last => exact fun _ => value
        | _ =>
          rw [busy] at faithful
          exact faithful
      · have other := setBox_of_ne s { s.box c with res := s.call.part c } here
        change BoxOk ((s.setBox c _).box d) (s.worker d) False
        rw [other]
        exact (h.box d).weaken (calm d)
    · rw [box]
      exact fresh
    · rw [box]
      exact value
    · intro d one below online
      by_cases here : d = c
      · subst here
        change Filled s.call ((s.setBox d _).box d) d
        rw [setBox_box]
        exact ⟨fn, lo, hi⟩
      · change Filled s.call ((s.setBox c _).box d) d
        rw [setBox_of_ne s _ here]
        exact filled d one below online
  | read main inside up fresh right =>
    rw [main] at step
    obtain rfl := Option.some.inj step
    have before : ∀ d, ¬ Filling d s.main := fun d => by rw [main]; exact id
    obtain ⟨fn, lo, hi⟩ := filled c low inside up
    have value : (s.box c).res = s.call.part c := by
      rw [right, Mailbox.value, fn, lo, hi, Call.part]
    refine ⟨boxes_goto h rfl rfl before,
      .bringing (c + 1) (.collect rfl) sound (by omega) inside filled ?_, h.exact⟩
    rw [sent_first inside, if_pos up, ← add_assoc, ← value] at owed
    exact owed

end

theorem mkCall_sound {fn : RangeFn} {n ncores : Int} {online : Nat → Bool} (additive : Additive fn)
    (low : 0 ≤ n) (fits : (mkCall fn n ncores online).cores * n < 9223372036854775808) :
    Sound (mkCall fn n ncores online) := by
  have same : (mkCall fn n ncores online).n = n := if_neg (by omega)
  refine ⟨additive, ?_, ?_, ?_⟩
  · rw [same]
    exact low
  · simp only [mkCall, smpNcores]
    split_ifs <;> omega
  · rw [same]
    exact fits

/-- Every step that meets the condition keeps the state sound. -/
theorem smpOk_step (h : SmpOk s) {e : Event} (meets : Meets s e) (step : step s e = some s') :
    SmpOk s' := by
  cases e with
  | call fn n ncores online =>
    obtain ⟨additive, low, fits⟩ := meets
    have sound := mkCall_sound additive low fits
    unfold SmpMailbox.step at step
    cases main : s.main with
    | idle =>
      rw [main] at step
      obtain rfl := Option.some.inj step
      have before : ∀ d, ¬ Filling d s.main := fun d => by rw [main]; exact id
      refine ⟨boxes_goto h rfl rfl before, .handing 1 (.post rfl) sound (Nat.le_refl 1) sound.some
        (fun d one below => absurd below (by omega)) ?_, h.exact⟩
      have nothing : sent (mkCall fn n ncores online) 1 1 = 0 := by
        rw [sent, Finset.Ico_self, Finset.sum_empty]
      change 0 + (_ + sent (mkCall fn n ncores online) 1 1 + _) = _
      rw [nothing, add_zero, zero_add]
      exact sound.total
    | _ =>
      rw [main] at step
      exact absurd step.symm (Option.some_ne_none s')
  | main =>
    have moves : mainStep s = some s' := step
    cases h.stage with
    | idle main =>
      rw [mainStep, main] at moves
      exact absurd moves.symm (Option.some_ne_none s')
    | handing c at' sound low high filled owed =>
      exact h.handing sound low high moves meets at' filled owed
    | own main sound filled owed =>
      rw [mainStep, main] at moves
      obtain rfl := Option.some.inj moves
      have before : ∀ d, ¬ Filling d s.main := fun d => by rw [main]; exact id
      rw [← add_assoc] at owed
      exact ⟨boxes_goto h rfl rfl before, .bringing 1 (.collect rfl) sound (Nat.le_refl 1)
        sound.some filled owed, h.exact⟩
    | bringing c at' sound low high filled owed =>
      exact h.bringing sound low high moves at' filled owed
  | giveUp =>
    unfold SmpMailbox.step at step
    cases h.stage with
    | bringing c at' sound low high filled owed =>
      cases at' with
      | wait main inside up =>
        simp only [main] at step
        split_ifs at step
        obtain rfl := Option.some.inj step
        have before : ∀ d, ¬ Filling d s.main := fun d => by rw [main]; exact id
        exact ⟨boxes_goto h rfl rfl before, .bringing c
          (.takeOver rfl inside up (meets c main)) sound low high filled owed, h.exact⟩
      | collect main | takeOver main | read main =>
        simp only [main] at step
        exact absurd step.symm (Option.some_ne_none s')
    | handing c at' =>
      cases at' with
      | post main | setFn main | setLo main | setHi main | bump main =>
        simp only [main] at step
        exact absurd step.symm (Option.some_ne_none s')
    | idle main | own main =>
      simp only [main] at step
      exact absurd step.symm (Option.some_ne_none s')
  | worker c => exact h.worker (workerStep_move step)
  | join c last =>
    unfold SmpMailbox.step at step
    simp only at step
    split at step
    all_goals
      first
        | exact absurd step.symm (Option.some_ne_none s')
        | (obtain rfl := Option.some.inj step; exact h.worker (join_move s c last))

end States

section Progress

def remaining (s : Smp) : Nat :=
  let n := s.call.cores
  match s.main with
  | .idle => 0
  | .post c => 4 * n + 3 + 5 * (n - c)
  | .setFn c => 4 * n + 2 + 5 * (n - c)
  | .setLo c => 4 * n + 1 + 5 * (n - c)
  | .setHi c => 4 * n + 5 * (n - c)
  | .bump c => 4 * n + 5 * (n - c) - 1
  | .own => 4 * n + 2
  | .collect c => 4 * (n - c) + 1
  | .wait c => 4 * (n - c)
  | .takeOver c => 4 * (n - c) - 1
  | .read c => 4 * (n - c) - 2

variable {s : Smp}

theorem main_goes_on (busy : s.main ≠ .idle)
    (nearer : ∀ s', mainStep s = some s' → remaining s' < remaining s) :
    ∃ e s', (e = .main ∨ e = .giveUp) ∧ step s e = some s' ∧ remaining s' < remaining s := by
  have moves : ∃ s', mainStep s = some s' := by
    unfold mainStep
    cases at' : s.main with
    | idle => exact absurd at' busy
    | post | collect | wait =>
      simp only
      split_ifs <;> exact ⟨_, rfl⟩
    | _ => exact ⟨_, rfl⟩
  obtain ⟨s', moves⟩ := moves
  exact ⟨.main, s', .inl rfl, moves, nearer s' moves⟩

/-- Inside a call core 0 always has a step that brings its return nearer. -/
theorem SmpOk.goes_on (h : SmpOk s) (busy : s.main ≠ .idle) :
    ∃ e s', (e = .main ∨ e = .giveUp) ∧ step s e = some s' ∧ remaining s' < remaining s := by
  cases h.stage with
  | idle main => exact absurd main busy
  | own main sound filled owed =>
    have some := sound.some
    refine main_goes_on busy fun s' moves => ?_
    simp only [mainStep, main] at moves
    obtain rfl := Option.some.inj moves
    simp only [remaining, main, Smp.goto, Smp.add]
    omega
  | handing c at' sound low high filled owed =>
    cases at' with
    | post main =>
      refine main_goes_on busy fun s' moves => ?_
      simp only [mainStep, main] at moves
      split_ifs at moves
      all_goals
        obtain rfl := Option.some.inj moves
        simp only [remaining, main, Smp.goto, Smp.add]
        omega
    | setFn main inside | setLo main inside | setHi main inside | bump main inside =>
      refine main_goes_on busy fun s' moves => ?_
      simp only [mainStep, main] at moves
      obtain rfl := Option.some.inj moves
      simp only [remaining, main, Smp.goto, Smp.setBox]
      omega
  | bringing c at' sound low high filled owed =>
    cases at' with
    | collect main =>
      refine main_goes_on busy fun s' moves => ?_
      simp only [mainStep, main] at moves
      split_ifs at moves
      all_goals
        obtain rfl := Option.some.inj moves
        simp only [remaining, main, Smp.goto]
        omega
    | wait main inside =>
      by_cases all : (s.box c).done = (s.box c).seq
      · refine main_goes_on busy fun s' moves => ?_
        simp only [mainStep, main, if_pos all] at moves
        obtain rfl := Option.some.inj moves
        simp only [remaining, main, Smp.goto]
        omega
      · refine ⟨.giveUp, _, .inr rfl, by
            simp only [step, main]
            rw [if_neg all], ?_⟩
        simp only [remaining, main, Smp.goto]
        omega
    | takeOver main inside | read main inside =>
      refine main_goes_on busy fun s' moves => ?_
      simp only [mainStep, main] at moves
      obtain rfl := Option.some.inj moves
      simp only [remaining, main, Smp.goto, Smp.setBox, Smp.add]
      omega

end Progress

/-- In every run whose steps meet the condition every call that has returned gave its
function over the whole range, and a call that has not returned can go on to its end. -/
theorem parallel_sum_exact {s : Smp} (run : Runs step Meets smpInit s) :
    (∀ k v, (k, v) ∈ s.returned → v = k.fn 0 k.n) ∧
      (s.main ≠ .idle → ∃ e s', (e = .main ∨ e = .giveUp) ∧ step s e = some s' ∧
        remaining s' < remaining s) := by
  have ok : SmpOk s := run.invariant smpOk_init fun _ _ _ ok meets moves => smpOk_step ok meets moves
  exact ⟨fun k v listed => ok.exact (k, v) listed, ok.goes_on⟩

private def length : RangeFn := fun lo hi => BitVec.ofInt 64 (hi - lo)

private theorem length_additive : Additive length := by
  intro a b c _ _ _
  rw [length, length, length, ← BitVec.ofInt_add]
  congr 1
  omega

private def two : Event := .call length 2 2 fun _ => true

private def four : Event := .call length 4 2 fun _ => true

private def computed : List Event := List.replicate 6 (.worker 1)

private def oneCall : List Event :=
  [.main, .main, .main, .main, .main, .main, .main, .join 1 0] ++ computed ++
    [.worker 1, .worker 1, .main, .main, .main, .main]

private def plain (s : Smp) : Event → Bool
  | .main =>
    match s.main with
    | .bump c => (s.box c).seq < 2147483647
    | _ => true
  | .call .. | .giveUp => false
  | _ => true

private theorem plain_meets (s : Smp) (e : Event) (passes : plain s e = true) : Meets s e := by
  cases e with
  | main =>
    intro c here
    simpa [plain, here] using passes
  | call | giveUp => exact absurd passes Bool.false_ne_true
  | worker | join => trivial

theorem parallel_sum_exact_one_call :
    ∃ s, Runs step Meets smpInit s ∧ s.returned.map Prod.snd = [2#64] ∧
      ∀ k v, (k, v) ∈ s.returned → v = k.fn 0 k.n := by
  have ends : ∃ s₁ s, step smpInit two = some s₁ ∧
      oneCall.foldlM (fun s e => if plain s e then step s e else none) s₁ = some s ∧
      s.returned.map Prod.snd = [2#64] := ⟨_, _, rfl, rfl, by decide⟩
  obtain ⟨s₁, s, first, later, results⟩ := ends
  have meets : Meets smpInit two := ⟨length_additive, by decide, by decide⟩
  have start : Runs step Meets smpInit s₁ := (Runs.refl smpInit).snoc meets first
  have run : Runs step Meets smpInit s :=
    start.trans (Runs.of_checked plain plain_meets oneCall later)
  exact ⟨s, run, results, (parallel_sum_exact run).1⟩

def Intended : Event → Prop
  | .call fn n _ _ => Additive fn ∧ 0 ≤ n
  | _ => True

/-- The worker of the first call writes its result between the two accesses of core 0 to
the result of the second. -/
private def lateResult : List Event :=
  [two, .main, .main, .main, .main, .main, .join 1 0] ++ computed ++
    [.main, .main, .main, .giveUp, .main, .main, .main] ++
    [four, .main, .main, .main, .main, .main, .main, .main, .main, .giveUp, .main, .worker 1,
      .main, .main]

theorem late_result_counted :
    ¬ ∀ s, Runs step (fun _ e => Intended e) smpInit s →
      ∀ k v, (k, v) ∈ s.returned → v = k.fn 0 k.n := by
  intro claimed
  have ends : ∃ s k, lateResult.foldlM step smpInit = some s ∧
      s.returned.head? = some (k, 3#64) ∧ k.fn 0 k.n = 4#64 := ⟨_, _, rfl, rfl, by decide⟩
  obtain ⟨s, k, run, head, value⟩ := ends
  have intended : ∀ s : Smp, ∀ e ∈ lateResult, Intended e := by
    intro _ e listed
    simp only [lateResult, computed, List.mem_append, List.mem_cons, List.mem_replicate,
      List.not_mem_nil] at listed
    cases e with
    | call fn n ncores online =>
      simp [two, four] at listed
      rcases listed with ⟨rfl, rfl, _⟩ | ⟨rfl, rfl, _⟩
      · exact ⟨length_additive, by decide⟩
      · exact ⟨length_additive, by decide⟩
    | main | giveUp | worker | join => trivial
  have exact := claimed s (Runs.of_steps lateResult intended run) k 3#64
    (List.mem_of_mem_head? head)
  rw [value] at exact
  exact absurd exact (by decide)

end XinuRpi5.System.SmpExact
