/- source: system/proc.c, include/proc.h
   digest: Which scheduler runs keep the ready list exact, and one that does not. -/

import XinuRpi5.System.Transitions

namespace XinuRpi5.System.ReadyRuns

open Lib.GuardedRuns Lib.LinkedChain Proc
open ReadyList Transitions

def advance (s : Sched) (op : Op) : Option Sched := (step s op).map Prod.fst

/-- `proc_ready` gets a process that is not ready, whoever blocks, sleeps or
exits is not itself on the list, and no tick finds `NULLPROC` asleep and due. -/
def KeepsList (s : Sched) : Op → Prop
  | .ready pid =>
    ∀ p : Pid, (p.val : Int) = pid → p ≠ nullproc → (s.proctab p).state ≠ .ready
  | .block _ | .sleepUs _ _ _ | .exit => (s.proctab s.currpid).state ≠ .ready
  | .timerTick now => ¬ Due s now nullproc
  | .create _ _ _ | .createStatic _ _ _ | .setprio _ _ | .resched _ => True

/-- The links from the head are finite and visit no process twice, the tail
pointer is the last node, exactly the ready processes are listed, and
`NULLPROC` is not. -/
def ReadyListExact (s : Sched) : Prop :=
  ∃ xs, LinksTo s s.readyHead xs none ∧ xs.Nodup ∧ (xs ≠ [] → s.readyTail = xs.getLast?) ∧
    (∀ p, p ∈ xs ↔ (s.proctab p).state = .ready) ∧ nullproc ∉ xs

variable {s s' : Sched} {p : Pid}

theorem readyListExact_iff :
    ReadyListExact s ↔ ∃ xs, ListInv s xs ∧ (s.proctab nullproc).state ≠ .ready := by
  constructor
  · rintro ⟨xs, chain, _, tail, mem, null⟩
    exact ⟨xs, ⟨⟨chain, tail⟩, mem⟩, fun ready => null ((mem nullproc).mpr ready)⟩
  · rintro ⟨xs, inv, null⟩
    exact ⟨xs, inv.linked.chain, inv.linked.nodup, inv.linked.tail, inv.mem,
      fun listed => null ((inv.mem nullproc).mp listed)⟩

theorem procInit_exact : ReadyListExact procInit :=
  readyListExact_iff.mpr ⟨[], procInit_listInv, by decide⟩

private theorem null_kept (null : (s.proctab nullproc).state ≠ .ready)
    (other : p ≠ nullproc)
    (state : ∀ q, (s'.proctab q).state = if q = p then .ready else (s.proctab q).state) :
    (s'.proctab nullproc).state ≠ .ready := by
  rw [state nullproc, if_neg (Ne.symm other)]
  exact null

private theorem created_exact {ys : List Pid} {sp : Nat}
    (made : Created s s' ys p sp) (null : (s.proctab nullproc).state ≠ .ready) :
    ReadyListExact s' :=
  readyListExact_iff.mpr ⟨ys, made.inv, null_kept null made.slot.1 made.state⟩

private theorem parked_exact {xs ys : List Pid} {rest : ProcState} {new : Pid} {spNow : Nat}
    (parked : Parked s s' xs rest new spNow) (inv : ListInv s' ys)
    (away : rest ≠ .ready) (null : (s.proctab nullproc).state ≠ .ready) :
    ReadyListExact s' := by
  refine readyListExact_iff.mpr ⟨ys, inv, ?_⟩
  rw [parked.state nullproc]
  split_ifs
  · decide
  · exact away
  · exact null

/-- Every operation that meets the condition returns and keeps the list exact. -/
theorem step_exact {op : Op} (exact : ReadyListExact s) (meets : KeepsList s op) :
    ∃ s' sw, step s op = some (s', sw) ∧ ReadyListExact s' := by
  obtain ⟨xs, inv, null⟩ := readyListExact_iff.mp exact
  cases op with
  | create stksize stk name =>
    refine ⟨_, _, rfl, ?_⟩
    rcases procCreate_spec inv stksize stk name with failed | ⟨p, sp, ys, _, made⟩
    · rw [failed]
      exact exact
    · exact created_exact made null
  | createStatic stk stksize name =>
    refine ⟨_, _, rfl, ?_⟩
    rcases procCreateStatic_spec inv stk stksize name with failed | ⟨p, sp, ys, _, made⟩
    · rw [failed]
      exact exact
    · exact created_exact made null
  | ready pid =>
    refine ⟨_, _, rfl, ?_⟩
    rcases procReady_spec inv pid meets with ignored | ⟨p, ys, _, other, inv', _, state, _⟩
    · rw [ignored]
      exact exact
    · exact readyListExact_iff.mpr ⟨ys, inv', null_kept null other state⟩
  | setprio pid prio =>
    refine ⟨_, _, rfl, ?_⟩
    obtain ⟨inv', frame⟩ := procSetprio_spec inv pid prio
    refine readyListExact_iff.mpr ⟨xs, inv', ?_⟩
    rw [frame.state]
    exact null
  | resched spNow =>
    rcases procResched_spec inv spNow with ⟨_, run⟩ | ⟨s', new, ys, run, _, inv', _, state, _⟩
    · exact ⟨s, none, run, exact⟩
    · refine ⟨s', _, run, readyListExact_iff.mpr ⟨ys, inv', ?_⟩⟩
      rw [state nullproc]
      split_ifs with chosen yields
      · decide
      · exact (yields.2.2 yields.1.symm).elim
      · exact null
  | block spNow =>
    obtain ⟨s', new, ys, run, inv', parked⟩ := procBlock_spec inv meets spNow
    exact ⟨s', _, run, parked_exact parked inv' (by decide) null⟩
  | sleepUs us now spNow =>
    obtain ⟨s', new, ys, run, inv', parked⟩ := procSleepUs_spec inv meets us now spNow
    exact ⟨s', _, run, parked_exact parked inv' (by decide) null⟩
  | timerTick now =>
    refine ⟨_, _, rfl, ?_⟩
    obtain ⟨ys, inv', state, _, _⟩ := procTimerTick_spec inv now
    refine readyListExact_iff.mpr ⟨ys, inv', ?_⟩
    rw [state nullproc, if_neg meets]
    exact null
  | exit =>
    obtain ⟨s', new, ys, run, _, inv', _, state, _⟩ := procExit_spec inv meets
    refine ⟨s', _, run, readyListExact_iff.mpr ⟨ys, inv', ?_⟩⟩
    rw [state nullproc]
    split_ifs
    · decide
    · decide
    · exact null

/-- In every run from `proc_init` whose steps all meet the condition, the ready
list is exact in every state reached, and the next such step returns. -/
theorem runs_ready_list_exact {s : Sched} (run : Runs advance KeepsList procInit s) :
    ReadyListExact s ∧ ∀ op, KeepsList s op → ∃ s', advance s op = some s' := by
  have exact : ReadyListExact s := by
    apply run.invariant procInit_exact
    intro t op t' before meets next
    obtain ⟨u, sw, returned, after⟩ := step_exact before meets
    rw [advance, returned] at next
    obtain rfl : u = t' := Option.some.inj next
    exact after
  refine ⟨exact, fun op meets => ?_⟩
  obtain ⟨s', sw, returned, _⟩ := step_exact exact meets
  exact ⟨s', by rw [advance, returned]; rfl⟩

theorem runs_ready_list_exact_one_yield :
    ∃ s, (s.proctab 1).state = .curr ∧ ReadyListExact s := by
  have start : Runs advance KeepsList procInit procInit := Runs.refl procInit
  obtain ⟨s, made⟩ := (runs_ready_list_exact start).2 (.create 4096 65536 []) trivial
  have created : Runs advance KeepsList procInit s :=
    start.snoc (show KeepsList _ (.create 4096 65536 []) from trivial) made
  obtain ⟨t, moved⟩ := (runs_ready_list_exact created).2 (.resched 40000) trivial
  have yielded : Runs advance KeepsList procInit t :=
    created.snoc (show KeepsList _ (.resched 40000) from trivial) moved
  have runs : (advance s (.resched 40000)).map (fun u => (u.proctab 1).state) = some .curr := by
    obtain rfl := Option.some.inj made
    decide
  rw [moved] at runs
  exact ⟨t, Option.some.inj runs, (runs_ready_list_exact yielded).1⟩

private theorem loop_not_exact (head : s.readyHead = some p)
    (loop : (s.proctab p).next = some p) : ¬ ReadyListExact s := by
  rintro ⟨xs, chain, _⟩
  rw [head] at chain
  cases xs with
  | nil =>
    have null : some p = none := chain
    exact absurd null (Option.some_ne_none p)
  | cons a xs =>
    have whole := chain
    obtain ⟨here, rest⟩ := chain
    obtain rfl : p = a := Option.some.inj here
    have again : LinksTo s (some p) xs none := by
      rw [← loop]
      exact rest
    have length := congrArg List.length (Seg.unique points_functional again whole)
    simp at length

/-- `proc_ready` of a process that was just created, and so is on the list
already, links it to itself. -/
theorem proc_ready_twice_cyclic :
    ∃ s t, advance procInit (.create 4096 65536 []) = some s ∧ advance s (.ready 1) = some t ∧
      ¬ ReadyListExact t := by
  refine ⟨_, _, rfl, rfl, loop_not_exact (p := 1) ?_ ?_⟩
  · decide
  · decide

end XinuRpi5.System.ReadyRuns
