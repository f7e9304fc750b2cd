/- source: system/proc.c, system/ctxsw.S
   digest: Which context every ctxsw call resumes, over whole scheduler runs. -/

import XinuRpi5.System.Transitions

/-!
A saved context is the stack pointer that `ctxsw` wrote when a process left the
processor, or the frame that process creation laid out. It is spent when a
switch resumes it, and it is gone when the process exits. `Traced` carries, next
to the scheduler, the contexts that are saved and not yet resumed; nothing in
the scheduler reads them.
-/

namespace XinuRpi5.System.ContextSwitch

open Lib.GuardedRuns Proc
open ReadyList Transitions

structure Traced where
  sched : Sched
  saved : Pid → Option Nat

def start : Traced := ⟨procInit, fun _ => none⟩

def noteCreated (made : Sched × Int) (saved : Pid → Option Nat) (q : Pid) : Option Nat :=
  if (q.val : Int) = made.2 then some (made.1.proctab q).sp else saved q

/-- The resumed context is spent, and `left` is what stays of the leaving one. -/
def noteSwitch (left : Option Nat) (saved : Pid → Option Nat) :
    Option Switch → Pid → Option Nat
  | none => saved
  | some w => Function.update (Function.update saved w.target none) w.old left

/-- The contexts that are saved after an operation that ended in `sw`. -/
def savedAfter (t : Traced) (sw : Option Switch) : Op → Pid → Option Nat
  | .create stksize stk name => noteCreated (procCreate t.sched stksize stk name) t.saved
  | .createStatic stk stksize name =>
    noteCreated (procCreateStatic t.sched stk stksize name) t.saved
  | .resched spNow | .block spNow | .sleepUs _ _ spNow => noteSwitch (some spNow) t.saved sw
  | .exit => noteSwitch none t.saved sw
  | .ready _ | .setprio _ _ | .timerTick _ => t.saved

def advance (t : Traced) (op : Op) : Option Traced :=
  (step t.sched op).map fun (s, sw) => ⟨s, savedAfter t sw op⟩

/-- The switch leaves the running process for another one and loads the context
that this one saved. -/
structure Resumes (t : Traced) (w : Switch) : Prop where
  old : w.old = t.sched.currpid
  target : w.target ≠ w.old
  loaded : t.saved w.target = some w.loaded

/-- `proc_ready` gets a waiting or sleeping process; `NULLPROC` never exits, and
blocks or sleeps only when another process is ready. -/
def KeepsContexts (s : Sched) : Op → Prop
  | .ready pid => ∀ p : Pid, (p.val : Int) = pid → p ≠ nullproc →
      (s.proctab p).state = .wait ∨ (s.proctab p).state = .sleep
  | .block _ | .sleepUs _ _ _ => s.currpid = nullproc → s.readyHead ≠ none
  | .exit => s.currpid ≠ nullproc
  | .create _ _ _ | .createStatic _ _ _ | .setprio _ _ | .resched _ | .timerTick _ => True

/-- A process in this state, and not on the processor, has a context to resume. -/
def Suspended (st : ProcState) : Prop := st = .ready ∨ st = .wait ∨ st = .sleep

/-- Everything that could be switched to has its context saved, and the entry
holds it. -/
structure TraceInv (s : Sched) (saved : Pid → Option Nat) (xs : List Pid) : Prop where
  list : ListInv s xs
  running : (s.proctab s.currpid).state = .curr
  suspended : ∀ q, Suspended (s.proctab q).state → saved q = some (s.proctab q).sp
  idle : s.currpid ≠ nullproc → saved nullproc = some (s.proctab nullproc).sp

theorem procInit_traceInv : TraceInv procInit start.saved [] := by
  refine ⟨procInit_listInv, rfl, fun q suspended => ?_, fun away => (away rfl).elim⟩
  have state : (procInit.proctab q).state = .curr ∨ (procInit.proctab q).state = .free := by
    unfold procInit
    by_cases null : q = nullproc <;> simp [null]
  unfold Suspended at suspended
  rcases state with state | state <;> simp [state] at suspended

section Steps

variable {s s' : Sched} {saved : Pid → Option Nat} {xs ys : List Pid}

theorem TraceInv.not_ready (inv : TraceInv s saved xs) :
    (s.proctab s.currpid).state ≠ .ready := by
  rw [inv.running]
  decide

theorem TraceInv.resumes (inv : TraceInv s saved xs) {new : Pid} (chosen : Chosen xs new)
    (idle : s.currpid = nullproc → xs ≠ []) :
    Resumes ⟨s, saved⟩ ⟨s.currpid, new, (s.proctab new).sp⟩ := by
  rcases chosen with listed | ⟨empty, rfl⟩
  · have ready := (inv.list.mem new).mp listed
    have other : new ≠ s.currpid := by
      rintro rfl
      exact inv.not_ready ready
    exact ⟨rfl, other, inv.suspended new (.inl ready)⟩
  · have away : s.currpid ≠ nullproc := fun null => idle null empty
    exact ⟨rfl, away.symm, inv.idle away⟩

theorem TraceInv.nonempty (inv : TraceInv s saved xs) (head : s.readyHead ≠ none) :
    xs ≠ [] := by
  rintro rfl
  exact head inv.list.linked.chain

/-- After a switch the invariant holds again, when the leaving process has left
a context behind or can never be chosen. -/
private theorem switch_inv (inv : TraceInv s saved xs) {new : Pid} {loaded : Nat}
    {left : Option Nat} (other : new ≠ s.currpid) (list : ListInv s' ys)
    (currpid : s'.currpid = new)
    (state : ∀ q, q ≠ s.currpid →
      (s'.proctab q).state = if q = new then .curr else (s.proctab q).state)
    (sp : ∀ q, q ≠ s.currpid → (s'.proctab q).sp = (s.proctab q).sp)
    (stays : Suspended (s'.proctab s.currpid).state ∨ s.currpid = nullproc →
      left = some (s'.proctab s.currpid).sp) :
    TraceInv s' (noteSwitch left saved (some ⟨s.currpid, new, loaded⟩)) ys := by
  have after : ∀ q, noteSwitch left saved (some ⟨s.currpid, new, loaded⟩) q =
      if q = s.currpid then left else if q = new then none else saved q := by
    intro q
    simp only [noteSwitch, Function.update_apply]
  refine ⟨list, ?_, fun q suspended => ?_, fun away => ?_⟩
  · rw [currpid, state new other, if_pos rfl]
  · rw [after q]
    by_cases same : q = s.currpid
    · rw [same] at suspended
      rw [if_pos same, same]
      exact stays (.inl suspended)
    · rw [state q same] at suspended
      rw [if_neg same, sp q same]
      by_cases chosen : q = new
      · rw [if_pos chosen] at suspended
        simp [Suspended] at suspended
      · rw [if_neg chosen] at suspended
        rw [if_neg chosen]
        exact inv.suspended q suspended
  · rw [currpid] at away
    rw [after nullproc, if_neg (Ne.symm away)]
    by_cases same : nullproc = s.currpid
    · rw [if_pos same, same]
      exact stays (.inr same.symm)
    · rw [if_neg same, sp nullproc same]
      exact inv.idle (Ne.symm same)

private theorem parked_inv (inv : TraceInv s saved xs) {new : Pid} {spNow : Nat}
    {rest : ProcState} (parked : Parked s s' xs rest new spNow) (list : ListInv s' ys)
    (idle : s.currpid = nullproc → s.readyHead ≠ none) :
    Resumes ⟨s, saved⟩ ⟨s.currpid, new, (s.proctab new).sp⟩ ∧
      TraceInv s' (noteSwitch (some spNow) saved
        (some ⟨s.currpid, new, (s.proctab new).sp⟩)) ys := by
  have resumes := inv.resumes parked.chosen fun null => inv.nonempty (idle null)
  refine ⟨resumes, switch_inv inv resumes.target list parked.currpid ?_ ?_ ?_⟩
  · intro q apart
    rw [parked.state q, if_neg apart]
  · intro q apart
    rw [parked.sp q, if_neg apart]
  · intro _
    rw [parked.sp, if_pos rfl]

private theorem created_inv (inv : TraceInv s saved xs) {made : Sched × Int} {p : Pid}
    {sp : Nat} (number : made.2 = (p.val : Int)) (created : Created s made.1 ys p sp) :
    TraceInv made.1 (noteCreated made saved) ys := by
  have fresh : p ≠ s.currpid := by
    intro same
    have free := created.slot.2
    rw [same, inv.running] at free
    exact absurd free (by decide)
  have after : ∀ q, noteCreated made saved q =
      if q = p then some (made.1.proctab q).sp else saved q := by
    intro q
    have same : (q.val : Int) = made.2 ↔ q = p := by
      rw [number, Fin.ext_iff]
      omega
    simp only [noteCreated, same]
  refine ⟨created.inv, ?_, fun q suspended => ?_, fun away => ?_⟩
  · rw [created.currpid, created.state, if_neg (Ne.symm fresh)]
    exact inv.running
  · rw [after q]
    split_ifs with same
    · rfl
    · rw [created.state q, if_neg same] at suspended
      rw [created.sp q, if_neg same]
      exact inv.suspended q suspended
  · rw [created.currpid] at away
    rw [after nullproc, if_neg (Ne.symm created.slot.1), created.sp nullproc,
      if_neg (Ne.symm created.slot.1)]
    exact inv.idle away

private theorem woken_inv (inv : TraceInv s saved xs) (list : ListInv s' ys)
    (currpid : s'.currpid = s.currpid) (sp : ∀ q, (s'.proctab q).sp = (s.proctab q).sp)
    (state : ∀ q, (s'.proctab q).state = (s.proctab q).state ∨
      Suspended (s.proctab q).state) : TraceInv s' saved ys := by
  refine ⟨list, ?_, fun q suspended => ?_, fun away => ?_⟩
  · rw [currpid]
    rcases state s.currpid with same | suspended
    · rw [same]
      exact inv.running
    · rw [inv.running] at suspended
      simp [Suspended] at suspended
  · rw [sp q]
    apply inv.suspended q
    rcases state q with same | before
    · rw [← same]
      exact suspended
    · exact before
  · rw [currpid] at away
    rw [sp nullproc]
    exact inv.idle away

end Steps

theorem noteCreated_failed (s : Sched) (saved : Pid → Option Nat) :
    noteCreated (s, -1) saved = saved := by
  funext q
  exact if_neg (by omega)

/-- Every operation that meets the condition returns, resumes a suspended
context if it switches at all, and keeps the invariant. -/
theorem step_resumes {t : Traced} {xs : List Pid} {op : Op} (inv : TraceInv t.sched t.saved xs)
    (meets : KeepsContexts t.sched op) :
    ∃ s' sw ys, step t.sched op = some (s', sw) ∧ (∀ w, sw = some w → Resumes t w) ∧
      TraceInv s' (savedAfter t sw op) ys := by
  obtain ⟨s, saved⟩ := t
  change TraceInv s saved xs at inv
  change KeepsContexts s op at meets
  have quiet : ∀ w, (none : Option Switch) = some w → Resumes ⟨s, saved⟩ w := by
    rintro w ⟨⟩
  cases op with
  | create stksize stk name =>
    rcases procCreate_spec inv.list stksize stk name with failed | ⟨p, sp, ys, number, made⟩
    · refine ⟨s, none, xs, ?_, quiet, ?_⟩
      · rw [step, failed]
      · rw [savedAfter, failed, noteCreated_failed]
        exact inv
    · exact ⟨_, none, ys, rfl, quiet, created_inv inv number made⟩
  | createStatic stk stksize name =>
    rcases procCreateStatic_spec inv.list stk stksize name with failed | ⟨p, sp, ys, number, made⟩
    · refine ⟨s, none, xs, ?_, quiet, ?_⟩
      · rw [step, failed]
      · rw [savedAfter, failed, noteCreated_failed]
        exact inv
    · exact ⟨_, none, ys, rfl, quiet, created_inv inv number made⟩
  | ready pid =>
    have notReady : ∀ p : Pid, (p.val : Int) = pid → p ≠ nullproc →
        (s.proctab p).state ≠ .ready := by
      intro p number other ready
      rcases meets p number other with state | state <;> simp [state] at ready
    rcases procReady_spec inv.list pid notReady with
      ignored | ⟨p, ys, number, other, list, currpid, state, sp⟩
    · refine ⟨s, none, xs, ?_, quiet, inv⟩
      rw [step, ignored]
    · refine ⟨_, none, ys, rfl, quiet, woken_inv inv list currpid sp fun q => ?_⟩
      rw [state q]
      split_ifs with same
      · rw [same]
        exact .inr (.inr (meets p number other))
      · exact .inl rfl
  | setprio pid prio =>
    obtain ⟨list, frame⟩ := procSetprio_spec inv.list pid prio
    exact ⟨_, none, xs, rfl, quiet,
      woken_inv inv list frame.currpid frame.sp fun q => .inl (frame.state q)⟩
  | resched spNow =>
    rcases procResched_spec inv.list spNow with
      ⟨_, run⟩ | ⟨s', new, ys, run, listed, list, currpid, state, sp⟩
    · exact ⟨s, none, xs, run, quiet, inv⟩
    · have resumes := inv.resumes (.inl listed) fun _ => List.ne_nil_of_mem listed
      refine ⟨s', _, ys, run, ?_, switch_inv inv resumes.target list currpid ?_ ?_ ?_⟩
      · rintro w ⟨⟩
        exact resumes
      · intro q apart
        rw [state q, if_neg (fun both : q = s.currpid ∧ Yields s => apart both.1)]
      · intro q apart
        rw [sp q, if_neg apart]
      · intro _
        rw [sp, if_pos rfl]
  | block spNow =>
    obtain ⟨s', new, ys, run, list, parked⟩ := procBlock_spec inv.list inv.not_ready spNow
    obtain ⟨resumes, inv'⟩ := parked_inv inv parked list meets
    refine ⟨s', _, ys, run, ?_, inv'⟩
    rintro w ⟨⟩
    exact resumes
  | sleepUs us now spNow =>
    obtain ⟨s', new, ys, run, list, parked⟩ :=
      procSleepUs_spec inv.list inv.not_ready us now spNow
    obtain ⟨resumes, inv'⟩ := parked_inv inv parked list meets
    refine ⟨s', _, ys, run, ?_, inv'⟩
    rintro w ⟨⟩
    exact resumes
  | timerTick now =>
    obtain ⟨ys, list, state, sp, currpid⟩ := procTimerTick_spec inv.list now
    have moved : ∀ q, ((procTimerTick s now).proctab q).state = (s.proctab q).state ∨
        Suspended (s.proctab q).state := by
      intro q
      rw [state q]
      split_ifs with due
      · exact .inr (.inr (.inr due.1))
      · exact .inl rfl
    exact ⟨procTimerTick s now, none, ys, rfl, quiet, woken_inv inv list currpid sp moved⟩
  | exit =>
    obtain ⟨s', new, ys, run, chosen, list, currpid, state, sp⟩ :=
      procExit_spec inv.list inv.not_ready
    have resumes := inv.resumes chosen fun null => (meets null).elim
    refine ⟨s', _, ys, run, ?_, switch_inv inv resumes.target list currpid ?_ ?_ ?_⟩
    · rintro w ⟨⟩
      exact resumes
    · intro q apart
      rw [state q, if_neg apart]
    · intro q _
      exact sp q
    · rintro (suspended | null)
      · rw [state, if_neg (Ne.symm resumes.target), if_pos rfl] at suspended
        simp [Suspended] at suspended
      · exact (meets null).elim

/-- In every run from `proc_init` whose steps all meet the condition, the next
such step returns, and if it ends in `ctxsw` it resumes the context that another
process saved when it last left the processor, or its initial frame, and that
no switch has resumed since. -/
theorem runs_resume_saved_contexts {t : Traced}
    (run : Runs advance (fun t op => KeepsContexts t.sched op) start t) {op : Op}
    (meets : KeepsContexts t.sched op) :
    ∃ s' sw, step t.sched op = some (s', sw) ∧ ∀ w, sw = some w → Resumes t w := by
  have inv : ∃ xs, TraceInv t.sched t.saved xs := by
    apply run.invariant (I := fun t => ∃ xs, TraceInv t.sched t.saved xs)
      ⟨[], procInit_traceInv⟩
    rintro u op' u' ⟨xs, before⟩ allowed next
    obtain ⟨s', sw, ys, returned, _, after⟩ := step_resumes before allowed
    rw [advance, returned] at next
    obtain rfl := Option.some.inj next
    exact ⟨ys, after⟩
  obtain ⟨xs, inv⟩ := inv
  obtain ⟨s', sw, _, returned, resumes, _⟩ := step_resumes inv meets
  exact ⟨s', sw, returned, resumes⟩

theorem runs_resume_saved_contexts_first_yield :
    ∃ t, t.saved 1 = some 69536 ∧ ∃ s' sw, step t.sched (.resched 40000) = some (s', sw) ∧
      ∀ w, sw = some w → Resumes t w := by
  have begin : Runs advance (fun t op => KeepsContexts t.sched op) start start := Runs.refl start
  have meets : KeepsContexts start.sched (.create 4096 65536 []) := trivial
  have created := begin.snoc meets rfl
  exact ⟨_, by decide, @runs_resume_saved_contexts _ created (.resched 40000) trivial⟩

/-- `NULLPROC` blocks while nothing is ready: it is switched to itself, with the
stack pointer 0 that `proc_init` stored and that no process ever saved. -/
theorem null_block_resumes_itself :
    ∃ s' w, step start.sched (.block 40000) = some (s', some w) ∧ w.target = w.old ∧
      w.loaded = 0 ∧ start.saved w.target = none ∧ ¬ Resumes start w := by
  refine ⟨_, _, rfl, rfl, rfl, rfl, ?_⟩
  intro resumes
  exact resumes.target rfl

end XinuRpi5.System.ContextSwitch
