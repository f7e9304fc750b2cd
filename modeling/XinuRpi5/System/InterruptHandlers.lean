/- source: system/proc.c, system/spinlock.c
   digest: What the interrupting tick or creation does to the ready list and to the lock. -/

import XinuRpi5.System.Interrupt
import XinuRpi5.System.Transitions

namespace XinuRpi5.System.InterruptHandlers

open Lib.LinkedChain Lib.Word64 Proc
open ReadyList Transitions Interrupt

/-- The processes that the handler makes ready, in the order of its pushes. -/
def wakes (s : Sched) : Handler → List Pid
  | .tick now => (List.finRange 16).filter fun q => Due s now q
  | .create stk stksize _ => if stk = 0 ∨ stksize < 1024 then [] else (allocSlot s).toList

def Locks (s : Sched) : Handler → Prop
  | .tick _ => True
  | .create stk stksize name => wakes s (.create stk stksize name) ≠ []

/-- The interrupted code stands between `SCHED_LOCK` and `SCHED_UNLOCK`. -/
def Holds : Point → Prop
  | .spinning _ _ | .marking _ | .linking _ | .testing _ | .empty _ | .emptyTail _ | .full _
  | .append _ _ | .tail _ | .unlocking _ => True
  | _ => False

structure Queue (s : Sched) (xs : List Pid) : Prop where
  linked : Linked s xs
  ready : ∀ q ∈ xs, (s.proctab q).state = .ready

section Queues

variable {s : Sched} {xs : List Pid} {p : Pid}

theorem Queue.off_of_state {st : ProcState} (queue : Queue s xs)
    (state : (s.proctab p).state = st) (other : st ≠ .ready) : p ∉ xs := by
  intro listed
  exact other (state.symm.trans (queue.ready p listed))

theorem Queue.set {e : Procent} (queue : Queue s xs) (off : p ∉ xs) : Queue (s.set p e) xs := by
  have apart : ∀ q ∈ xs, q ≠ p := by
    rintro q listed rfl
    exact off listed
  refine ⟨queue.linked.congr rfl rfl fun q listed => ?_, fun q listed => ?_⟩
  · rw [proctab_set, if_neg (apart q listed)]
  · rw [proctab_set, if_neg (apart q listed)]
    exact queue.ready q listed

theorem Queue.empty (queue : Queue s xs) (head : s.readyHead = none) : xs = [] := by
  cases xs with
  | nil => rfl
  | cons a as =>
    have chain := queue.linked.chain
    rw [head] at chain
    exact (points_functional.null a chain.1).elim

end Queues

/-- What pushing the processes `ws` changes. -/
structure Pushed (s s' : Sched) (xs ws : List Pid) : Prop where
  linked : Linked s' (xs ++ ws)
  state : ∀ q, (s'.proctab q).state = if q ∈ ws then .ready else (s.proctab q).state
  next : ∀ q, q ∉ xs → q ∉ ws → (s'.proctab q).next = (s.proctab q).next

variable {s : Sched} {xs : List Pid} {p : Pid}

theorem Pushed.queue {s' : Sched} {ws : List Pid} (queue : Queue s xs)
    (pushed : Pushed s s' xs ws) : Queue s' (xs ++ ws) := by
  refine ⟨pushed.linked, fun q listed => ?_⟩
  rw [pushed.state q]
  split_ifs with woken
  · rfl
  · exact queue.ready q ((List.mem_append.mp listed).resolve_right woken)

/-- The list up to its last process, which the tail pointer names; where that
process points does not matter to the next push. -/
structure Ended (s : Sched) (xs : List Pid) : Prop where
  chain : ∃ m, LinksTo s s.readyHead xs m
  nodup : xs.Nodup
  nonempty : xs ≠ []
  tail : s.readyTail = xs.getLast?

theorem next_readyPush {q : Pid}
    (tail : xs ≠ [] → s.readyTail = xs.getLast?) (head : xs = [] → s.readyHead = none)
    (other : q ≠ p) (off : q ∉ xs) :
    ((readyPush s p).proctab q).next = (s.proctab q).next := by
  have kept : ((s.setNext p none).proctab q).next = (s.proctab q).next := by
    rw [next_setNext, if_neg other]
  unfold readyPush
  simp only
  split
  · exact kept
  · next first t hd tl =>
    have here : t ∈ xs := by
      by_cases none : xs = []
      · have empty : s.readyHead = some first := hd
        rw [head none] at empty
        cases empty
      · have last : s.readyTail = some t := tl
        rw [tail none] at last
        exact List.mem_of_getLast? last
    have apart : q ≠ t := by
      rintro rfl
      exact off here
    change (((s.setNext p none).setNext t (some p)).proctab q).next = _
    rw [next_setNext, if_neg apart]
    exact kept
  · exact kept

theorem head_none (linked : Linked s xs) (empty : xs = []) :
    s.readyHead = none := by
  have chain := linked.chain
  rw [empty] at chain
  exact chain

theorem push_entry {e : Procent} (linked : Linked s xs)
    (off : p ∉ xs) (ready : e.state = .ready) :
    Pushed s (readyPush (s.set p e) p) xs [p] := by
  have before : Linked (s.set p e) xs := by
    refine linked.congr rfl rfl fun q listed => ?_
    rw [proctab_set, if_neg]
    rintro rfl
    exact off listed
  have frame := readyPush_frame (s.set p e) p
  refine ⟨readyPush_linked before off, fun q => ?_, fun q away other => ?_⟩
  · rw [frame.state q, proctab_set]
    simp only [List.mem_singleton]
    split_ifs
    · exact ready
    · rfl
  · have apart : q ≠ p := fun same => other (List.mem_singleton.mpr same)
    rw [next_readyPush before.tail (head_none before) apart away, proctab_set, if_neg apart]

/-- The first push repairs a list that is only known up to its last process. -/
theorem Ended.push {e : Procent} (ended : Ended s xs)
    (off : p ∉ xs) (ready : e.state = .ready) :
    Pushed s (readyPush (s.set p e) p) xs [p] := by
  obtain ⟨front, t, rfl⟩ := (List.eq_nil_or_concat xs).resolve_left ended.nonempty
  rw [List.concat_eq_append] at *
  have tail : s.readyTail = some t := by simpa using ended.tail
  have once : t ∉ front := by
    intro again
    exact (List.nodup_append.mp ended.nodup).2.2 t again t (by simp) rfl
  have other : p ≠ t := by
    rintro rfl
    exact off (by simp)
  obtain ⟨m, chain⟩ := ended.chain
  obtain ⟨a, head⟩ : ∃ a, s.readyHead = some a := by
    cases front with
    | nil => exact ⟨t, chain.1⟩
    | cons a _ => exact ⟨a, chain.1⟩
  have mended : Linked (s.setNext t none) (front ++ [t]) :=
    ⟨chain.redirect once none, fun _ => by simpa [Sched.setNext, Sched.set] using tail⟩
  have pushed := push_entry (e := e) mended off ready
  have same : readyPush ((s.setNext t none).set p e) p = readyPush (s.set p e) p := by
    have table : ((((s.setNext t none).set p e).setNext p none).setNext t (some p)).proctab =
        (((s.set p e).setNext p none).setNext t (some p)).proctab := by
      funext q
      by_cases last : q = t
      · simp [last, Sched.setNext, Sched.set, other.symm]
      · simp [last, Sched.setNext, Sched.set, Function.update_apply]
    have left : readyPush ((s.setNext t none).set p e) p =
        { ((((s.setNext t none).set p e).setNext p none).setNext t (some p)) with
          readyTail := some p } := by
      simp [readyPush, Sched.setNext, Sched.set, head, tail]
    have right : readyPush (s.set p e) p =
        { (((s.set p e).setNext p none).setNext t (some p)) with readyTail := some p } := by
      simp [readyPush, Sched.setNext, Sched.set, head, tail]
    simp only [left, right, table]
    rfl
  rw [same] at pushed
  refine ⟨pushed.linked, fun q => ?_, fun q away apart => ?_⟩
  · rw [pushed.state q, (frame_setNext s t none).state q]
  · have notLast : q ≠ t := by
      rintro rfl
      exact away (by simp)
    rw [pushed.next q away apart, next_setNext, if_neg notLast]

theorem Pushed.trans {t u : Sched} {ws vs : List Pid} (first : Pushed s t xs ws)
    (second : Pushed t u (xs ++ ws) vs) : Pushed s u xs (ws ++ vs) := by
  refine ⟨by simpa using second.linked, fun q => ?_, fun q away other => ?_⟩
  · rw [second.state q, first.state q]
    by_cases late : q ∈ vs
    · simp [late]
    · simp [late]
  · rw [List.mem_append, not_or] at other
    have off : q ∉ xs ++ ws := by
      rw [List.mem_append, not_or]
      exact ⟨away, other.1⟩
    rw [second.next q off other.2, first.next q away other.1]

theorem Queue.pushed_nil (queue : Queue s xs) : Pushed s s xs [] := by
  refine ⟨by simpa using queue.linked, fun q => ?_, fun _ _ _ => rfl⟩
  simp

def Pushable (s : Sched) (xs : List Pid) : Prop :=
  ∀ (p : Pid) (e : Procent), p ∉ xs → e.state = .ready →
    Pushed s (readyPush (s.set p e) p) xs [p]

theorem Queue.pushable (queue : Queue s xs) : Pushable s xs :=
  fun _ _ off ready => push_entry queue.linked off ready

theorem Ended.pushable (ended : Ended s xs) : Pushable s xs :=
  fun _ _ off ready => ended.push off ready

section Handlers

variable {s : Sched} {xs : List Pid}

variable {now : Nat} {i : Pid} {is : List Pid}

private theorem wakeOne_due (pushable : Pushable s xs)
    (ready : ∀ q ∈ xs, (s.proctab q).state = .ready) (due : Due s now i) :
    Pushed s (wakeOne now s i) xs [i] := by
  have off : i ∉ xs := by
    intro listed
    have both := (ready i listed).symm.trans due.1
    cases both
  have pushed := pushable i { s.proctab i with state := .ready } off rfl
  have run : wakeOne now s i =
      { readyPush (s.setState i .ready) i with reschedPending := true } := if_pos due
  rw [run]
  exact ⟨⟨pushed.linked.chain, pushed.linked.tail⟩, pushed.state, pushed.next⟩

private theorem wakeOne_asleep (awake : ¬ Due s now i) :
    wakeOne now s i = s := by
  unfold wakeOne
  exact if_neg awake

private theorem due_wakeOne {q : Pid} (other : q ≠ i) :
    Due (wakeOne now s i) now q ↔ Due s now q := by
  unfold wakeOne
  split_ifs with due
  · have frame := readyPush_frame (s.setState i .ready) i
    have state : ((readyPush (s.setState i .ready) i).proctab q).state = (s.proctab q).state := by
      rw [frame.state q, state_setState, if_neg other]
    have wake : ((readyPush (s.setState i .ready) i).proctab q).wakeAtUs =
        (s.proctab q).wakeAtUs := by
      rw [frame.wakeAtUs q, wakeAtUs_setState]
    unfold Due
    simp only [state, wake]
  · rfl

private theorem wake_none (awake : ∀ i ∈ is, ¬ Due s now i) :
    is.foldl (wakeOne now) s = s := by
  induction is with
  | nil => rfl
  | cons i is ih =>
    rw [List.foldl_cons, wakeOne_asleep (awake i List.mem_cons_self)]
    exact ih fun q listed => awake q (List.mem_cons_of_mem i listed)

private theorem filter_wakeOne (fresh : i ∉ is) :
    is.filter (fun q => Due (wakeOne now s i) now q) = is.filter fun q => Due s now q := by
  apply List.filter_congr
  intro q listed
  have other : q ≠ i := by
    rintro rfl
    exact fresh listed
  simp only [due_wakeOne other]

private theorem wake_state (nodup : is.Nodup) (q : Pid) :
    ((is.foldl (wakeOne now) s).proctab q).state =
      if q ∈ is.filter (fun q => Due s now q) then .ready else (s.proctab q).state := by
  induction is generalizing s with
  | nil => rfl
  | cons i is ih =>
    obtain ⟨fresh, rest⟩ := List.nodup_cons.mp nodup
    rw [List.foldl_cons, ih rest, filter_wakeOne fresh]
    by_cases due : Due s now i
    · have frame := readyPush_frame (s.setState i .ready) i
      have run : wakeOne now s i =
          { readyPush (s.setState i .ready) i with reschedPending := true } := if_pos due
      have state : ((wakeOne now s i).proctab q).state =
          if q = i then .ready else (s.proctab q).state := by
        rw [run]
        exact (frame.state q).trans (state_setState s i q .ready)
      rw [state, List.filter_cons_of_pos (by simpa using due)]
      by_cases later : q ∈ is.filter (fun q => Due s now q)
      · simp only [later, List.mem_cons, or_true, if_true]
      · simp only [later, List.mem_cons, or_false, if_false]
    · rw [wakeOne_asleep due, List.filter_cons_of_neg (by simpa using due)]

/-- The loop of the tick pushes the due sleepers in table order. -/
private theorem wake_pushed (nodup : is.Nodup)
    (pushable : Pushable s xs) (ready : ∀ q ∈ xs, (s.proctab q).state = .ready)
    (some : is.filter (fun q => Due s now q) ≠ []) :
    Pushed s (is.foldl (wakeOne now) s) xs (is.filter fun q => Due s now q) := by
  induction is generalizing s xs with
  | nil => exact absurd rfl some
  | cons i is ih =>
    obtain ⟨fresh, rest⟩ := List.nodup_cons.mp nodup
    by_cases due : Due s now i
    · have first := wakeOne_due pushable ready due
      have queue : Queue (wakeOne now s i) (xs ++ [i]) := by
        refine ⟨first.linked, fun q listed => ?_⟩
        rw [first.state q]
        split_ifs with woken
        · rfl
        · exact ready q ((List.mem_append.mp listed).resolve_right woken)
      have same : is.filter (fun q => Due (wakeOne now s i) now q) =
          is.filter fun q => Due s now q := filter_wakeOne fresh
      have later : Pushed (wakeOne now s i) (is.foldl (wakeOne now) (wakeOne now s i)) (xs ++ [i])
          (is.filter fun q => Due s now q) := by
        by_cases done : is.filter (fun q => Due s now q) = []
        · have awake : ∀ j ∈ is, ¬ Due (wakeOne now s i) now j := by
            rw [← same] at done
            intro j listed
            simpa using List.filter_eq_nil_iff.mp done j listed
          rw [wake_none awake, done]
          exact queue.pushed_nil
        · have more := ih rest queue.pushable queue.ready (by rw [same]; exact done)
          rw [same] at more
          exact more
      rw [List.filter_cons_of_pos (by simpa using due)]
      exact first.trans later
    · rw [List.filter_cons_of_neg (by simpa using due)] at some ⊢
      rw [List.foldl_cons, wakeOne_asleep due]
      exact ih rest pushable ready some

/-- A handler that gets through pushes the processes of `wakes`, and a pid it
returns is one of them. -/
structure Handled (m m2 : Mach) (r : Option Int) (h : Handler) : Prop where
  state : ∀ q, (m2.sched.proctab q).state =
    if q ∈ wakes m.sched h then .ready else (m.sched.proctab q).state
  idle : wakes m.sched h = [] → m2.sched = m.sched
  pushed : ∀ xs, Pushable m.sched xs → (∀ q ∈ xs, (m.sched.proctab q).state = .ready) →
    wakes m.sched h ≠ [] → Pushed m.sched m2.sched xs (wakes m.sched h)
  pid : ∀ j : Int, r = some j → 0 ≤ j → ∃ w ∈ wakes m.sched h, j = w.val

variable {kind : LockKind} {m m2 : Mach} {r : Option Int} {h : Handler}

private theorem handled_tick
    (run : handle kind m (.tick now) = some (m2, r)) : Handled m m2 r (.tick now) := by
  simp only [handle, Option.map_eq_some_iff, Prod.mk.injEq] at run
  obtain ⟨l, _, rfl, rfl⟩ := run
  have nodup := List.nodup_finRange 16
  refine ⟨fun q => ?_, fun none => ?_, fun xs pushable ready some => ?_, ?_⟩
  · simp only [wakes, procTimerTick]
    rw [wake_state nodup q]
    exact if_congr Iff.rfl rfl rfl
  · simp only [wakes, procTimerTick] at none ⊢
    generalize List.finRange 16 = is at none ⊢
    apply wake_none
    intro i listed
    simpa using List.filter_eq_nil_iff.mp none i listed
  · simp only [wakes, procTimerTick] at some ⊢
    generalize List.finRange 16 = is at nodup some ⊢
    exact wake_pushed nodup pushable ready some
  · rintro j ⟨⟩

private theorem handled_create {stk stksize : Nat} {name : List Char}
    (run : handle kind m (.create stk stksize name) = some (m2, r)) :
    Handled m m2 r (.create stk stksize name) := by
  simp only [handle] at run
  cases slot : allocSlot m.sched with
  | none =>
    rw [slot] at run
    simp only [Option.some.injEq, Prod.mk.injEq] at run
    obtain ⟨rfl, rfl⟩ := run
    have none : wakes m.sched (.create stk stksize name) = [] := by simp [wakes, slot]
    refine ⟨fun q => by simp [none], fun _ => rfl, fun _ _ _ some => absurd none some, ?_⟩
    rintro j ⟨⟩ small
    omega
  | some pid =>
    rw [slot] at run
    by_cases bad : stk = 0 ∨ stksize < 1024
    · simp only [if_pos bad, Option.some.injEq, Prod.mk.injEq] at run
      obtain ⟨rfl, rfl⟩ := run
      have none : wakes m.sched (.create stk stksize name) = [] := by simp [wakes, bad]
      refine ⟨fun q => by simp [none], fun _ => rfl, fun _ _ _ some => absurd none some, ?_⟩
      rintro j ⟨⟩ small
      omega
    · simp only [if_neg bad, Option.map_eq_some_iff, Prod.mk.injEq] at run
      obtain ⟨l, _, rfl, rfl⟩ := run
      have one : wakes m.sched (.create stk stksize name) = [pid] := by simp [wakes, bad, slot]
      have free := (allocSlot_spec slot).2
      refine ⟨fun q => ?_, fun none => ?_, fun xs pushable ready _ => ?_, ?_⟩
      · rw [one]
        refine ((readyPush_frame _ pid).state q).trans ?_
        rw [proctab_set]
        simp only [List.mem_singleton]
        split_ifs <;> rfl
      · rw [one] at none
        cases none
      · have off : pid ∉ xs := by
          intro listed
          have both := (ready pid listed).symm.trans free
          cases both
        rw [one]
        exact pushable pid _ off rfl
      · rintro j ⟨⟩ _
        exact ⟨pid, by simp [one], rfl⟩

theorem handle_spec (run : handle kind m h = some (m2, r)) : Handled m m2 r h := by
  cases h with
  | tick now => exact handled_tick run
  | create stk stksize name => exact handled_create run

theorem wakes_notReady {q : Pid} (woken : q ∈ wakes s h) :
    (s.proctab q).state ≠ .ready := by
  cases h with
  | tick now =>
    have due : Due s now q := by simpa [wakes] using woken
    rw [due.1]
    exact ProcState.noConfusion
  | create stk stksize name =>
    simp only [wakes] at woken
    split_ifs at woken with bad
    · exact absurd woken List.not_mem_nil
    · have free := allocSlot_spec (Option.mem_toList.mp woken)
      rw [free.2]
      exact ProcState.noConfusion

theorem handle_queue (run : handle kind m h = some (m2, r)) (queue : Queue m.sched xs) :
    Pushed m.sched m2.sched xs (wakes m.sched h) := by
  have handled := handle_spec run
  by_cases none : wakes m.sched h = []
  · rw [none, handled.idle none]
    exact queue.pushed_nil
  · exact handled.pushed xs queue.pushable queue.ready none

end Handlers

/-- The ticket lock is taken exactly while the interrupted code is in its
locked section, and the one who spins is next. -/
structure LockAt (kind : LockKind) (pt : Point) (l : Lock) : Prop where
  bound : l.nowServing < 2 ^ 32
  free : kind = .ticket → ¬ Holds pt → l.nextTicket = l.nowServing
  taken : kind = .ticket → Holds pt → l.nextTicket = (l.nowServing + 1) % 2 ^ 32
  turn : kind = .ticket → ∀ p mine, pt = .spinning p mine → l.nowServing = mine

theorem lockAt_other {kind : LockKind} {pt : Point} {l : Lock} (other : kind ≠ .ticket)
    (bound : l.nowServing < 2 ^ 32) : LockAt kind pt l :=
  ⟨bound, fun k => absurd k other, fun k => absurd k other, fun k => absurd k other⟩

section Locking

variable {kind : LockKind} {job : Job} {pt : Point} {m m2 : Mach} {h : Handler}
  {r : Option Int}

theorem handle_cases (kind : LockKind) (m : Mach) (h : Handler) :
    ∃ s r, (Locks m.sched h → handle kind m h =
        (spinLock m.lock kind).map fun l => (⟨s, spinUnlock l kind⟩, r)) ∧
      (¬ Locks m.sched h → handle kind m h = some (m, r)) := by
  cases h with
  | tick now => exact ⟨_, _, fun _ => rfl, fun free => absurd trivial free⟩
  | create stk stksize name =>
    simp only [handle, Locks, wakes]
    cases allocSlot m.sched with
    | none => exact ⟨m.sched, some (-1), fun locks => by simp at locks, fun _ => rfl⟩
    | some pid =>
      by_cases bad : stk = 0 ∨ stksize < 1024
      · simp only [if_pos bad]
        exact ⟨m.sched, some (-1), fun locks => absurd rfl locks, fun _ => rfl⟩
      · simp only [if_neg bad]
        exact ⟨_, _, fun _ => rfl, fun free => by simp at free⟩

theorem handle_returns (lock : LockAt kind pt m.lock)
    (safe : kind = .ticket → Holds pt → ¬ Locks m.sched h) :
    ∃ m2 r, handle kind m h = some (m2, r) := by
  obtain ⟨s, r, locked, unlocked⟩ := handle_cases kind m h
  by_cases locks : Locks m.sched h
  · obtain ⟨l, got⟩ : ∃ l, spinLock m.lock kind = some l := by
      cases kind with
      | none => exact ⟨_, rfl⟩
      | bakery => exact ⟨_, rfl⟩
      | ticket =>
        have free := lock.free rfl fun holds => safe rfl holds locks
        exact ⟨_, if_pos free.symm⟩
    refine ⟨⟨s, spinUnlock l kind⟩, r, ?_⟩
    rw [locked locks, got]
    rfl
  · exact ⟨_, _, unlocked locks⟩

theorem handle_waits (lock : LockAt .ticket pt m.lock) (holds : Holds pt)
    (locks : Locks m.sched h) : handle .ticket m h = none := by
  obtain ⟨s, r, locked, _⟩ := handle_cases .ticket m h
  have waits : spinLock m.lock .ticket = none := by
    have taken := lock.taken rfl holds
    have bound := lock.bound
    have other : ¬ m.lock.nowServing = m.lock.nextTicket := by
      rw [taken]
      omega
    exact if_neg other
  rw [locked locks, waits]
  rfl

theorem handle_lockAt (lock : LockAt kind pt m.lock) (run : handle kind m h = some (m2, r)) :
    LockAt kind pt m2.lock := by
  obtain ⟨s, v, locked, unlocked⟩ := handle_cases kind m h
  by_cases locks : Locks m.sched h
  · rw [locked locks, Option.map_eq_some_iff] at run
    obtain ⟨l, got, equal⟩ := run
    obtain ⟨rfl, rfl⟩ := Prod.mk.inj equal
    cases kind with
    | none =>
      obtain rfl : m.lock = l := Option.some.inj got
      exact lock
    | bakery =>
      obtain rfl := Option.some.inj got
      exact lockAt_other LockKind.noConfusion lock.bound
    | ticket =>
      have bound := lock.bound
      by_cases open_ : m.lock.nowServing = m.lock.nextTicket
      · have holds : ¬ Holds pt := by
          intro holds
          have taken := lock.taken rfl holds
          omega
        obtain rfl := Option.some.inj ((if_pos open_).symm.trans got)
        refine ⟨?_, fun _ _ => ?_, fun _ held => absurd held holds, ?_⟩
        · exact Nat.mod_lt _ (by decide)
        · change (m.lock.nextTicket + 1) % 2 ^ 32 = (m.lock.nowServing + 1) % 2 ^ 32
          rw [open_]
        · rintro _ p mine rfl
          exact absurd trivial holds
      · exact absurd ((if_neg open_).symm.trans got) (by simp)
  · obtain ⟨rfl, rfl⟩ := Prod.mk.inj (Option.some.inj ((unlocked locks).symm.trans run))
    exact lock

private theorem LockAt.keep {pt' : Point} {l : Lock} (lock : LockAt kind pt l)
    (same : Holds pt' ↔ Holds pt) (still : ∀ p mine, pt' ≠ .spinning p mine) :
    LockAt kind pt' l := by
  refine ⟨lock.bound, fun k free => lock.free k ?_, fun k held => lock.taken k (same.mp held),
    fun _ p mine equal => absurd equal (still p mine)⟩
  exact fun held => free (same.mpr held)

theorem advance_lockAt (lock : LockAt kind pt m.lock) :
    LockAt kind (advance kind job (m, pt)).2 (advance kind job (m, pt)).1.lock := by
  cases pt with
  | start =>
    simp only [advance]
    split
    · split_ifs
      · exact lock.keep Iff.rfl (by simp)
      · exact lock.keep Iff.rfl (by simp)
    · exact lock.keep Iff.rfl (by simp)
  | scan i =>
    simp only [advance]
    split_ifs
    all_goals exact lock.keep Iff.rfl (by simp)
  | found p =>
    simp only [advance]
    split_ifs
    all_goals exact lock.keep Iff.rfl (by simp)
  | filling p k =>
    simp only [advance]
    split_ifs
    all_goals exact lock.keep Iff.rfl (by simp)
  | locking p =>
    cases kind with
    | none => exact lockAt_other LockKind.noConfusion lock.bound
    | bakery => exact lockAt_other LockKind.noConfusion lock.bound
    | ticket =>
      have free := lock.free rfl id
      refine ⟨lock.bound, fun _ free => absurd trivial free, fun _ _ => ?_, ?_⟩
      · change (m.lock.nextTicket + 1) % 2 ^ 32 = (m.lock.nowServing + 1) % 2 ^ 32
        rw [free]
      · rintro _ q mine ⟨⟩
        exact free.symm
  | spinning p mine =>
    simp only [advance]
    split_ifs
    · exact lock.keep Iff.rfl (by simp)
    · exact lock.keep Iff.rfl (by simp)
    · exact lock
  | marking p => exact lock.keep Iff.rfl (by simp [advance])
  | linking p => exact lock.keep Iff.rfl (by simp [advance])
  | testing p =>
    simp only [advance]
    split_ifs
    all_goals exact lock.keep Iff.rfl (by simp)
  | empty p => exact lock.keep Iff.rfl (by simp [advance])
  | emptyTail p => exact lock.keep Iff.rfl (by simp [advance])
  | full p =>
    simp only [advance]
    split
    all_goals exact lock.keep Iff.rfl (by simp)
  | append p t => exact lock.keep Iff.rfl (by simp [advance])
  | tail p => exact lock.keep Iff.rfl (by simp [advance])
  | unlocking p =>
    cases kind with
    | none => exact lockAt_other LockKind.noConfusion lock.bound
    | bakery => exact lockAt_other LockKind.noConfusion lock.bound
    | ticket =>
      have taken := lock.taken rfl trivial
      refine ⟨Nat.mod_lt _ (by decide), fun _ _ => taken, fun _ held => held.elim, ?_⟩
      rintro _ q mine ⟨⟩
  | returned v => exact lock

end Locking

end XinuRpi5.System.InterruptHandlers
