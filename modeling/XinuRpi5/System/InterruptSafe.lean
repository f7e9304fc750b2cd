/- source: system/proc.c, system/spinlock.c
   digest: What holds at every point of the interrupted call, and that the condition is enough. -/

import XinuRpi5.System.InterruptHandlers

namespace XinuRpi5.System.InterruptSafe

open Lib.LinkedChain Lib.Word64 Proc
open ReadyList Transitions Interrupt
open InterruptHandlers

/-- The interrupted `ready_push` has read the head or the tail and not yet stored
all that depends on it. -/
def Window : Point → Prop
  | .empty _ | .emptyTail _ | .append _ _ | .tail _ => True
  | _ => False

/-- The interrupted code will push `p`, and `p` does not look ready yet. -/
def Pending (job : Job) : Point → Pid → Prop
  | .start, p => job = .ready p.val ∧ p ≠ nullproc
  | .found q, p => job.refused = false ∧ q = p
  | .locking q, p | .spinning q _, p => job.isReady = true ∧ q = p
  | .marking q, p => q = p
  | _, _ => False

/-- The process that the interrupted call makes ready when it returns `v`. -/
def Target (job : Job) (v : Option Int) (q : Pid) : Prop :=
  match job with
  | .ready pid => pid = q.val ∧ q ≠ nullproc
  | _ => v = some q.val

def Readied (s s' : Sched) (q : Pid) : Prop :=
  (s.proctab q).state ≠ .ready ∧ (s'.proctab q).state = .ready

/-- The interrupted code, left alone from here on, returns `v` in state `m`. -/
def Finishes (kind : LockKind) (job : Job) (a : Mach × Point) (m : Mach) (v : Option Int) : Prop :=
  ∃ k, (advance kind job)^[k] a = (m, .returned v)

/-- The call is interrupted after `n` accesses and resumed: the handler does not
wait for the interrupted code, two creations return different pids, and every
process that either made ready is on the list exactly once. -/
def Harmless (kind : LockKind) (job : Job) (m : Mach) (h : Handler) (n : Nat) : Prop :=
  let cut := (advance kind job)^[n] (m, .start)
  ∃ m2 r m3 v, handle kind cut.1 h = some (m2, r) ∧ Finishes kind job (m2, cut.2) m3 v ∧
    (∀ i j : Int, v = some i → r = some j → 0 ≤ i → 0 ≤ j → i ≠ j) ∧
    ∃ zs, LinksTo m3.sched m3.sched.readyHead zs none ∧
      ∀ q, Target job v q ∨ Readied cut.1.sched m2.sched q → zs.count q = 1

/-- The condition on the point and the state that the handler meets. -/
structure Safe (kind : LockKind) (job : Job) (s : Sched) (pt : Point) (h : Handler) : Prop where
  lock : kind = .ticket → Holds pt → ¬ Locks s h
  window : Window pt → wakes s h = []
  pending : ∀ p, Pending job pt p → p ∉ wakes s h

/-- The lock is free, and so is what a `proc_ready` call names to be readied. -/
structure Legit (job : Job) (m : Mach) : Prop where
  bound : m.lock.nowServing < 2 ^ 32
  quiet : m.lock.nextTicket = m.lock.nowServing
  asleep : ∀ p : Pid, job = .ready p.val → p ≠ nullproc → (m.sched.proctab p).state ≠ .ready

/-- A `proc_ready` call named this process. -/
def Names (job : Job) (p : Pid) : Prop := ∀ pid, job = .ready pid → pid = p.val ∧ p ≠ nullproc

/-- The process that is about to be pushed: marked ready, not yet on the list. -/
structure Armed (s : Sched) (xs : List Pid) (p : Pid) : Prop where
  queue : Queue s xs
  off : p ∉ xs
  ready : (s.proctab p).state = .ready

/-- `ready_push` has cleared the link of the new process. -/
structure Primed (s : Sched) (xs : List Pid) (p : Pid) : Prop extends Armed s xs p where
  next : (s.proctab p).next = none

/-- The state of the table at each point, `xs` being what is listed apart from
the interrupted call. -/
def Stand (job : Job) (xs : List Pid) (s : Sched) : Point → Prop
  | .start => Queue s xs ∧
      ∀ p : Pid, job = .ready p.val → p ≠ nullproc → (s.proctab p).state ≠ .ready
  | .scan _ => Queue s xs ∧ job.isReady = false
  | .found p => Queue s xs ∧ job.isReady = false ∧
      (job.refused = false → (s.proctab p).state = .free)
  | .filling p _ => Armed s xs p ∧ job.isReady = false
  | .locking p | .spinning p _ => Names job p ∧ Queue s xs ∧ p ∉ xs ∧
      (job.isReady = false → (s.proctab p).state = .ready)
  | .marking p => Names job p ∧ Queue s xs ∧ p ∉ xs
  | .linking p => Names job p ∧ Armed s xs p
  | .testing p => Names job p ∧ Primed s xs p
  | .empty p => Names job p ∧ Primed s xs p ∧ s.readyHead = none
  | .emptyTail p => Names job p ∧ ∃ s0, Primed s0 xs p ∧ s0.readyHead = none ∧
      s = { s0 with readyTail := some p }
  | .full p => Names job p ∧ Primed s xs p ∧ s.readyHead ≠ none
  | .append p t => Names job p ∧ Primed s xs p ∧ s.readyHead ≠ none ∧ s.readyTail = some t
  | .tail p => Names job p ∧ ∃ s0 t, Primed s0 xs p ∧ s0.readyHead ≠ none ∧
      s0.readyTail = some t ∧ s = s0.setNext t (some p)
  | .unlocking p => Names job p ∧ ∃ ys, Queue s ys ∧ xs ⊆ ys ∧ p ∈ ys ∧ p ∉ xs
  | .returned v => ∃ ys, Queue s ys ∧ xs ⊆ ys ∧
      (∀ q, Target job v q ∨ v = some (q.val : Int) → q ∈ ys) ∧
      ∀ q : Pid, v = some (q.val : Int) → q ∉ xs

section Steps

variable {kind : LockKind} {job : Job} {s : Sched} {xs : List Pid} {p : Pid}

theorem names_of_create (create : job.isReady = false) : Names job p := by
  rintro pid rfl
  cases create

theorem Armed.set {e : Procent} (armed : Armed s xs p) (ready : e.state = .ready) :
    Armed (s.set p e) xs p := by
  refine ⟨armed.queue.set armed.off, armed.off, ?_⟩
  rw [proctab_set, if_pos rfl]
  exact ready

theorem state_fill (job : Job) (old : Procent) (k : Nat) : (job.fill old k).state = old.state := by
  unfold Job.fill
  split <;> rfl

theorem setNext_self (same : (s.proctab p).next = none) : s.setNext p none = s := by
  have entry : { s.proctab p with next := none } = s.proctab p := by rw [← same]
  simp only [Sched.setNext, Sched.set, entry, Function.update_eq_self]

section

variable (primed : Primed s xs p)

include primed

theorem Primed.head_some (some : s.readyHead ≠ none) : xs ≠ [] :=
  fun empty => some (head_none primed.queue.linked empty)

theorem Primed.pushed : Queue (readyPush s p) (xs ++ [p]) := by
  refine ⟨readyPush_linked primed.queue.linked primed.off, fun q listed => ?_⟩
  rw [(readyPush_frame s p).state q]
  rcases List.mem_append.mp listed with old | new
  · exact primed.queue.ready q old
  · rw [List.mem_singleton.mp new]
    exact primed.ready

theorem Primed.push_empty (head : s.readyHead = none) :
    readyPush s p = { s with readyHead := some p, readyTail := some p } := by
  have same := setNext_self primed.next
  simp only [readyPush, same, head]

theorem Primed.push_full {t : Pid} (head : s.readyHead ≠ none) (tail : s.readyTail = some t) :
    readyPush s p = { s.setNext t (some p) with readyTail := some p } := by
  have same := setNext_self primed.next
  obtain ⟨a, first⟩ := Option.ne_none_iff_exists'.mp head
  simp only [readyPush, same, first, tail]

theorem Primed.unlocking (names : Names job p) :
    Stand job xs (readyPush s p) (.unlocking p) :=
  ⟨names, xs ++ [p], primed.pushed, List.subset_append_left xs [p], by simp, primed.off⟩

end

theorem stand_failed (queue : Queue s xs) (create : job.isReady = false) :
    Stand job xs s (.returned (some (-1))) := by
  have never : ∀ q : Pid, (some (-1) : Option Int) ≠ some (q.val : Int) := by
    intro q equal
    have number : (-1 : Int) = q.val := Option.some.inj equal
    omega
  refine ⟨xs, queue, List.Subset.refl xs, ?_, fun q equal => absurd equal (never q)⟩
  rintro q (target | equal)
  · cases job with
    | ready pid => cases create
    | create stksize stk name => exact absurd target (never q)
    | createStatic stk stksize name => exact absurd target (never q)
  · exact absurd equal (never q)

theorem target_result {q : Pid} (names : Names job p)
    (target : Target job (job.result p) q ∨ job.result p = some (q.val : Int)) : q = p := by
  have created : (some (p.val : Int) : Option Int) = some (q.val : Int) → q = p := by
    intro equal
    have number : (p.val : Int) = q.val := Option.some.inj equal
    exact Fin.ext (by omega)
  cases job with
  | ready pid =>
    rcases target with ⟨named, _⟩ | nothing
    · have number := (names pid rfl).1
      exact Fin.ext (by omega)
    · cases nothing
  | create stksize stk name => exact created (target.elim id id)
  | createStatic stk stksize name => exact created (target.elim id id)

theorem target_self (names : Names job p) : Target job (job.result p) p := by
  cases job with
  | ready pid => exact names pid rfl
  | create stksize stk name => rfl
  | createStatic stk stksize name => rfl

theorem stand_advance {m : Mach} {pt : Point} (stand : Stand job xs m.sched pt) :
    Stand job xs (advance kind job (m, pt)).1.sched (advance kind job (m, pt)).2 := by
  cases pt with
  | start =>
    obtain ⟨queue, asleep⟩ := stand
    cases job with
    | create stksize stk name => exact ⟨queue, rfl⟩
    | createStatic stk stksize name => exact ⟨queue, rfl⟩
    | ready pid =>
      simp only [advance]
      split_ifs with outside
      · refine ⟨xs, queue, List.Subset.refl xs, ?_, ?_⟩
        · rintro q (⟨named, other⟩ | nothing)
          · have positive : 0 < q.val := Nat.pos_of_ne_zero fun zero => other (Fin.ext zero)
            have small := q.isLt
            omega
          · cases nothing
        · rintro q ⟨⟩
      · have number : (pid.toNat : Int) = pid := Int.toNat_of_nonneg (by omega)
        have other : (⟨pid.toNat, by omega⟩ : Pid) ≠ nullproc := by
          intro same
          have zero : pid.toNat = 0 := congrArg Fin.val same
          omega
        have named : Job.ready pid = .ready (⟨pid.toNat, by omega⟩ : Pid).val := by
          rw [number]
        refine ⟨?_, queue, ?_, fun create => by cases create⟩
        · rintro _ ⟨⟩
          exact ⟨number.symm, other⟩
        · exact fun listed => asleep _ named other (queue.ready _ listed)
  | scan i =>
    obtain ⟨queue, create⟩ := stand
    simp only [advance]
    split_ifs with inside free
    · exact ⟨queue, create, fun _ => free⟩
    · exact ⟨queue, create⟩
    · exact stand_failed queue create
  | found p =>
    obtain ⟨queue, create, free⟩ := stand
    simp only [advance]
    split_ifs with refused
    · exact stand_failed queue create
    · have off := queue.off_of_state (free (by simpa using refused)) ProcState.noConfusion
      refine ⟨⟨queue.set off, off, ?_⟩, create⟩
      exact (state_setState m.sched p p .ready).trans (if_pos rfl)
  | filling p k =>
    obtain ⟨armed, create⟩ := stand
    have filled : Armed (m.sched.set p (job.fill (m.sched.proctab p) k)) xs p := by
      apply armed.set
      rw [state_fill]
      exact armed.ready
    simp only [advance]
    split_ifs with more
    · exact ⟨filled, create⟩
    · exact ⟨names_of_create create, filled.queue, filled.off, fun _ => filled.ready⟩
  | locking p => exact stand
  | spinning p mine =>
    obtain ⟨names, queue, off, ready⟩ := stand
    simp only [advance]
    split_ifs with turn isReady
    · exact ⟨names, queue, off⟩
    · exact ⟨names, queue, off, ready (by simpa using isReady)⟩
    · exact ⟨names, queue, off, ready⟩
  | marking p =>
    obtain ⟨names, queue, off⟩ := stand
    refine ⟨names, queue.set off, off, ?_⟩
    exact (state_setState m.sched p p .ready).trans (if_pos rfl)
  | linking p =>
    obtain ⟨names, armed⟩ := stand
    refine ⟨names, armed.set armed.ready, ?_⟩
    exact (next_setNext m.sched p p none).trans (if_pos rfl)
  | testing p =>
    obtain ⟨names, primed⟩ := stand
    simp only [advance]
    split_ifs with head
    · exact ⟨names, primed, head⟩
    · exact ⟨names, primed, head⟩
  | empty p =>
    obtain ⟨names, primed, head⟩ := stand
    exact ⟨names, m.sched, primed, head, rfl⟩
  | emptyTail p =>
    obtain ⟨names, s0, primed, head, equal⟩ := stand
    have whole : { m.sched with readyHead := some p } = readyPush s0 p := by
      rw [primed.push_empty head, equal]
    simp only [advance, whole]
    exact primed.unlocking names
  | full p =>
    obtain ⟨names, primed, head⟩ := stand
    have last := primed.queue.linked.tail (primed.head_some head)
    obtain ⟨t, tail⟩ : ∃ t, m.sched.readyTail = some t := by
      rw [last]
      exact ⟨_, List.getLast?_eq_some_getLast (primed.head_some head)⟩
    simp only [advance, tail]
    exact ⟨names, primed, head, tail⟩
  | append p t =>
    obtain ⟨names, primed, head, tail⟩ := stand
    exact ⟨names, m.sched, t, primed, head, tail, rfl⟩
  | tail p =>
    obtain ⟨names, s0, t, primed, head, tail, equal⟩ := stand
    have whole : { m.sched with readyTail := some p } = readyPush s0 p := by
      rw [primed.push_full head tail, equal]
    simp only [advance, whole]
    exact primed.unlocking names
  | unlocking p =>
    obtain ⟨names, ys, queue, sub, listed, off⟩ := stand
    refine ⟨ys, queue, sub, fun q target => ?_, fun q equal => ?_⟩
    · rw [target_result names target]
      exact listed
    · rw [target_result names (.inr equal)]
      exact off
  | returned v => exact stand

end Steps

def remaining : Point → Nat
  | .start => 40
  | .scan i => 19 + (16 - i)
  | .found _ => 18
  | .filling _ k => 12 + (5 - k)
  | .locking _ => 11
  | .spinning _ _ => 10
  | .marking _ => 9
  | .linking _ => 8
  | .testing _ => 7
  | .empty _ | .full _ => 6
  | .emptyTail _ | .append _ _ => 5
  | .tail _ => 4
  | .unlocking _ => 3
  | .returned _ => 0

section Runs

variable {kind : LockKind} {job : Job} {xs : List Pid} {m : Mach} {pt : Point}

theorem remaining_advance (lock : LockAt kind pt m.lock) (going : remaining pt ≠ 0) :
    remaining (advance kind job (m, pt)).2 < remaining pt := by
  cases pt with
  | start =>
    simp only [advance]
    split
    · split_ifs <;> simp [remaining]
    · simp [remaining]
  | scan i =>
    simp only [advance]
    split_ifs
    all_goals simp only [remaining]; omega
  | found p =>
    simp only [advance]
    split_ifs <;> simp [remaining]
  | filling p k =>
    simp only [advance]
    split_ifs
    all_goals simp only [remaining]; omega
  | spinning p mine =>
    have turn : Turn m.lock mine kind := by
      cases kind with
      | none => trivial
      | bakery => trivial
      | ticket => exact lock.turn rfl p mine rfl
    simp only [advance, if_pos turn]
    split_ifs <;> simp [remaining]
  | testing p =>
    simp only [advance]
    split_ifs <;> simp [remaining]
  | full p =>
    simp only [advance]
    split <;> simp [remaining]
  | returned v => exact absurd rfl going
  | _ => simp [advance, remaining]

structure Good (kind : LockKind) (job : Job) (xs : List Pid) (a : Mach × Point) : Prop where
  lock : LockAt kind a.2 a.1.lock
  stand : Stand job xs a.1.sched a.2

variable {a : Mach × Point}

theorem Good.advance (good : Good kind job xs a) :
    Good kind job xs (advance kind job a) :=
  ⟨advance_lockAt good.lock, stand_advance good.stand⟩

theorem Good.iterate (good : Good kind job xs a) (n : Nat) :
    Good kind job xs ((Interrupt.advance kind job)^[n] a) := by
  induction n generalizing a with
  | zero => exact good
  | succ n ih => exact ih good.advance

theorem Good.finishes (good : Good kind job xs a) :
    ∃ m v, Finishes kind job a m v ∧ Stand job xs m.sched (.returned v) := by
  obtain ⟨m, pt⟩ := a
  generalize bound : remaining pt = n
  induction n using Nat.strong_induction_on generalizing m pt with
  | h n ih =>
    by_cases done : n = 0
    · cases pt with
      | returned v => exact ⟨m, v, ⟨0, rfl⟩, good.stand⟩
      | _ => simp only [remaining] at bound; omega
    · have less := @remaining_advance kind job m pt good.lock (bound ▸ done)
      obtain ⟨m', v, ⟨k, run⟩, stand⟩ := ih _ (bound ▸ less) _ _ good.advance rfl
      exact ⟨m', v, ⟨k + 1, run⟩, stand⟩

end Runs

section Interrupted

variable {kind : LockKind} {job : Job} {xs : List Pid} {m m2 : Mach} {pt : Point}
  {h : Handler} {r : Option Int}

/-- The handler keeps what holds at the point, with the woken processes added
to the list. -/
theorem handle_stand (safe : Safe kind job m.sched pt h) (stand : Stand job xs m.sched pt)
    (run : handle kind m h = some (m2, r)) :
    Stand job (xs ++ wakes m.sched h) m2.sched pt := by
  have quiet : wakes m.sched h = [] → Stand job (xs ++ wakes m.sched h) m2.sched pt := by
    intro none
    rw [(handle_spec run).idle none, none, List.append_nil]
    exact stand
  have kept : ∀ q ys, Queue m.sched ys → q ∉ wakes m.sched h →
      (m2.sched.proctab q).state = (m.sched.proctab q).state := by
    intro q ys queue off
    rw [(handle_queue run queue).state q, if_neg off]
  have grown : ∀ ys, Queue m.sched ys → Queue m2.sched (ys ++ wakes m.sched h) :=
    fun ys queue => (handle_queue run queue).queue queue
  have apart : ∀ q, (m.sched.proctab q).state = .ready → q ∉ wakes m.sched h :=
    fun q ready woken => wakes_notReady woken ready
  have armedOn : ∀ p, Armed m.sched xs p → Armed m2.sched (xs ++ wakes m.sched h) p := by
    intro p armed
    have off := apart p armed.ready
    refine ⟨grown xs armed.queue, ?_, ?_⟩
    · rw [List.mem_append, not_or]
      exact ⟨armed.off, off⟩
    · rw [kept p xs armed.queue off]
      exact armed.ready
  have primedOn : ∀ p, Primed m.sched xs p → Primed m2.sched (xs ++ wakes m.sched h) p := by
    intro p primed
    refine ⟨armedOn p primed.toArmed, ?_⟩
    rw [(handle_queue run primed.queue).next p primed.off (apart p primed.ready)]
    exact primed.next
  have locked : ∀ p, (job.isReady = true → p ∉ wakes m.sched h) →
      Stand job xs m.sched (.locking p) →
      Stand job (xs ++ wakes m.sched h) m2.sched (.locking p) := by
    rintro p pending ⟨names, queue, off, ready⟩
    have away : p ∉ wakes m.sched h := by
      cases isReady : job.isReady with
      | true => exact pending isReady
      | false => exact apart p (ready isReady)
    refine ⟨names, grown xs queue, ?_, fun create => ?_⟩
    · rw [List.mem_append, not_or]
      exact ⟨off, away⟩
    · rw [kept p xs queue away]
      exact ready create
  have both : ∀ {ys}, xs ⊆ ys → xs ++ wakes m.sched h ⊆ ys ++ wakes m.sched h := by
    intro ys sub
    exact List.append_subset.mpr ⟨List.Subset.trans sub (List.subset_append_left ys _),
      List.subset_append_right ys _⟩
  cases pt with
  | start =>
    obtain ⟨queue, asleep⟩ := stand
    refine ⟨grown xs queue, fun p named other => ?_⟩
    rw [kept p xs queue (safe.pending p ⟨named, other⟩)]
    exact asleep p named other
  | scan i =>
    obtain ⟨queue, create⟩ := stand
    exact ⟨grown xs queue, create⟩
  | found p =>
    obtain ⟨queue, create, free⟩ := stand
    refine ⟨grown xs queue, create, fun goes => ?_⟩
    rw [kept p xs queue (safe.pending p ⟨goes, rfl⟩)]
    exact free goes
  | filling p k =>
    obtain ⟨armed, create⟩ := stand
    exact ⟨armedOn p armed, create⟩
  | locking p => exact locked p (fun ready => safe.pending p ⟨ready, rfl⟩) stand
  | spinning p mine => exact locked p (fun ready => safe.pending p ⟨ready, rfl⟩) stand
  | marking p =>
    obtain ⟨names, queue, off⟩ := stand
    refine ⟨names, grown xs queue, ?_⟩
    rw [List.mem_append, not_or]
    exact ⟨off, safe.pending p rfl⟩
  | linking p =>
    obtain ⟨names, armed⟩ := stand
    exact ⟨names, armedOn p armed⟩
  | testing p =>
    obtain ⟨names, primed⟩ := stand
    exact ⟨names, primedOn p primed⟩
  | empty p => exact quiet (safe.window trivial)
  | emptyTail p => exact quiet (safe.window trivial)
  | full p =>
    obtain ⟨names, primed, head⟩ := stand
    refine ⟨names, primedOn p primed, fun none => ?_⟩
    have some : xs ++ wakes m.sched h ≠ [] := by
      rw [Ne, List.append_eq_nil_iff, not_and_or]
      exact .inl (primed.head_some head)
    exact some ((grown xs primed.queue).empty none)
  | append p t => exact quiet (safe.window trivial)
  | tail p => exact quiet (safe.window trivial)
  | unlocking p =>
    obtain ⟨names, ys, queue, sub, listed, off⟩ := stand
    refine ⟨names, _, grown ys queue, both sub, List.mem_append_left _ listed, ?_⟩
    rw [List.mem_append, not_or]
    exact ⟨off, apart p (queue.ready p listed)⟩
  | returned v =>
    obtain ⟨ys, queue, sub, targets, fresh⟩ := stand
    refine ⟨_, grown ys queue, both sub, fun q target => ?_, fun q equal => ?_⟩
    · exact List.mem_append_left _ (targets q target)
    · rw [List.mem_append, not_or]
      exact ⟨fresh q equal, apart q (queue.ready q (targets q (.inr equal)))⟩

theorem harmless_of_safe {n : Nat} (good : Good kind job xs (m, .start))
    (safe : Safe kind job ((advance kind job)^[n] (m, .start)).1.sched
      ((advance kind job)^[n] (m, .start)).2 h) : Harmless kind job m h n := by
  have cut := good.iterate n
  unfold Harmless
  generalize (advance kind job)^[n] (m, .start) = a at cut safe
  obtain ⟨m1, pt⟩ := a
  obtain ⟨m2, r, run⟩ := handle_returns cut.lock safe.lock
  have resumed : Good kind job (xs ++ wakes m1.sched h) (m2, pt) :=
    ⟨handle_lockAt cut.lock run, handle_stand safe cut.stand run⟩
  obtain ⟨m3, v, finishes, ys, queue, sub, targets, fresh⟩ := resumed.finishes
  have woken : wakes m1.sched h ⊆ ys :=
    fun q listed => sub (List.mem_append_right xs listed)
  refine ⟨m2, r, m3, v, run, finishes, ?_, ys, queue.linked.chain, fun q made => ?_⟩
  · rintro i j returned created first second rfl
    obtain ⟨w, listed, rfl⟩ := (handle_spec run).pid i created second
    exact fresh w returned (List.mem_append_right xs listed)
  · apply List.count_eq_one_of_mem queue.linked.nodup
    rcases made with target | ⟨before, after⟩
    · exact targets q (.inl target)
    · rw [(handle_spec run).state q] at after
      split_ifs at after with listed
      · exact woken listed
      · exact absurd after before

end Interrupted

section Finishing

variable {kind : LockKind} {job : Job} {m m3 : Mach} {v : Option Int} {p : Pid}

private theorem iterate_returned (k : Nat) :
    (advance kind job)^[k] (m, .returned v) = (m, .returned v) := by
  induction k with
  | zero => rfl
  | succ k ih => exact ih

theorem Finishes.next {a : Mach × Point} (finishes : Finishes kind job a m3 v) :
    Finishes kind job (advance kind job a) m3 v := by
  obtain ⟨k, run⟩ := finishes
  cases k with
  | zero =>
    obtain rfl : a = (m3, .returned v) := run
    exact ⟨0, rfl⟩
  | succ k => exact ⟨k, run⟩

theorem Finishes.returned {w : Option Int} (finishes : Finishes kind job (m, .returned w) m3 v) :
    m3 = m ∧ v = w := by
  obtain ⟨k, run⟩ := finishes
  rw [iterate_returned] at run
  obtain ⟨rfl, equal⟩ := Prod.mk.inj run
  exact ⟨rfl, (Point.returned.inj equal).symm⟩

theorem Finishes.unlocking (finishes : Finishes kind job (m, .unlocking p) m3 v) :
    m3.sched = m.sched ∧ v = job.result p := by
  obtain ⟨rfl, rfl⟩ := finishes.next.returned
  exact ⟨rfl, rfl⟩

theorem Finishes.linking (finishes : Finishes kind job (m, .linking p) m3 v) :
    m3.sched = readyPush m.sched p := by
  have tested := finishes.next.next
  simp only [advance] at tested
  have head : (m.sched.setNext p none).readyHead = m.sched.readyHead := rfl
  have tail : (m.sched.setNext p none).readyTail = m.sched.readyTail := rfl
  cases first : m.sched.readyHead with
  | none =>
    rw [head, first, if_pos rfl] at tested
    rw [tested.next.next.unlocking.1]
    simp only [readyPush, head, first]
  | some a =>
    rw [head, first, if_neg (by simp)] at tested
    have read := tested.next
    simp only [advance, tail] at read
    cases last : m.sched.readyTail with
    | none =>
      rw [last] at read
      rw [read.next.unlocking.1]
      simp only [readyPush, head, first, tail, last]
    | some t =>
      rw [last] at read
      rw [read.next.next.unlocking.1]
      simp only [readyPush, head, first, tail, last]

theorem Finishes.marking (finishes : Finishes kind job (m, .marking p) m3 v) :
    m3.sched = readyPush (m.sched.setState p .ready) p :=
  finishes.next.linking

theorem Finishes.spun {mine : Nat} (finishes : Finishes kind job (m, .spinning p mine) m3 v) :
    Finishes kind job (m, if job.isReady then .marking p else .linking p) m3 v := by
  by_cases turn : Turn m.lock mine kind
  · have on := finishes.next
    simp only [advance, if_pos turn] at on
    exact on
  · obtain ⟨k, run⟩ := finishes
    have stuck : (advance kind job)^[k] (m, .spinning p mine) = (m, .spinning p mine) := by
      apply Function.iterate_fixed
      simp only [advance, if_neg turn]
    rw [stuck] at run
    cases run

theorem Finishes.spinning {mine : Nat} (ready : job.isReady = true)
    (finishes : Finishes kind job (m, .spinning p mine) m3 v) :
    m3.sched = readyPush (m.sched.setState p .ready) p := by
  have on := finishes.spun
  rw [if_pos ready] at on
  exact on.marking

theorem Finishes.locking (ready : job.isReady = true)
    (finishes : Finishes kind job (m, .locking p) m3 v) :
    m3.sched = readyPush (m.sched.setState p .ready) p := by
  have spinning := finishes.next
  simp only [advance] at spinning
  have pushed := Finishes.spinning ready spinning
  exact pushed

theorem advance_start (other : p ≠ nullproc) :
    advance kind (.ready p.val) (m, .start) = (m, .locking p) := by
  have positive : 0 < p.val := Nat.pos_of_ne_zero fun zero => other (Fin.ext zero)
  have inside : ¬ ((p.val : Int) ≤ 0 ∨ 16 ≤ (p.val : Int)) := by
    have small := p.isLt
    omega
  simp only [advance, dif_neg inside]
  rfl

def Carries (p : Pid) : Point → Prop
  | .filling q _ | .locking q | .spinning q _ | .marking q | .linking q | .testing q | .empty q
  | .emptyTail q | .full q | .append q _ | .tail q | .unlocking q => q = p
  | _ => False

theorem carries_advance {pt : Point} (carries : Carries p pt) :
    Carries p (advance kind job (m, pt)).2 ∨
      (advance kind job (m, pt)).2 = .returned (job.result p) := by
  cases pt with
  | start => exact carries.elim
  | scan i => exact carries.elim
  | found q => exact carries.elim
  | returned w => exact carries.elim
  | unlocking q =>
    obtain rfl : q = p := carries
    exact .inr rfl
  | filling q k =>
    simp only [advance]
    split_ifs
    · exact .inl carries
    · exact .inl carries
  | spinning q mine =>
    simp only [advance]
    split_ifs
    · exact .inl carries
    · exact .inl carries
    · exact .inl carries
  | testing q =>
    simp only [advance]
    split_ifs
    · exact .inl carries
    · exact .inl carries
  | full q =>
    simp only [advance]
    split
    · exact .inl carries
    · exact .inl carries
  | _ => exact .inl carries

theorem Finishes.result {a : Mach × Point} (finishes : Finishes kind job a m3 v)
    (carries : Carries p a.2) : v = job.result p := by
  obtain ⟨k, run⟩ := finishes
  induction k generalizing a with
  | zero =>
    obtain rfl : a = (m3, .returned v) := run
    exact carries.elim
  | succ k ih =>
    rcases carries_advance carries with on | atEnd
    · exact ih on run
    · have rest : Finishes kind job ((advance kind job a).1, .returned (job.result p)) m3 v := by
        rw [← atEnd]
        exact ⟨k, run⟩
      exact rest.returned.2

end Finishing

end XinuRpi5.System.InterruptSafe
