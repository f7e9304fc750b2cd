/- source: system/proc.c
   digest: What each scheduler operation does to states, stack pointers and the ready list. -/

import XinuRpi5.System.ReadyList

namespace XinuRpi5.System.Transitions

open Proc ReadyList

@[simp] theorem state_setState (s : Sched) (p q : Pid) (st : ProcState) :
    ((s.setState p st).proctab q).state = if q = p then st else (s.proctab q).state := by
  rw [Sched.setState, proctab_set]
  split_ifs <;> rfl

theorem rest_setState (s : Sched) (p q : Pid) (st : ProcState) :
    ∃ st', (s.setState p st).proctab q = { s.proctab q with state := st' } := by
  rw [Sched.setState, proctab_set]
  split_ifs with same
  · exact ⟨st, by rw [same]⟩
  · exact ⟨(s.proctab q).state, rfl⟩

@[simp] theorem next_setState (s : Sched) (p q : Pid) (st : ProcState) :
    ((s.setState p st).proctab q).next = (s.proctab q).next := by
  obtain ⟨st', equal⟩ := rest_setState s p q st
  rw [equal]

@[simp] theorem sp_setState (s : Sched) (p q : Pid) (st : ProcState) :
    ((s.setState p st).proctab q).sp = (s.proctab q).sp := by
  obtain ⟨st', equal⟩ := rest_setState s p q st
  rw [equal]

@[simp] theorem wakeAtUs_setState (s : Sched) (p q : Pid) (st : ProcState) :
    ((s.setState p st).proctab q).wakeAtUs = (s.proctab q).wakeAtUs := by
  obtain ⟨st', equal⟩ := rest_setState s p q st
  rw [equal]

@[simp] theorem sp_setSp (s : Sched) (p q : Pid) (sp : Nat) :
    ((s.setSp p sp).proctab q).sp = if q = p then sp else (s.proctab q).sp := by
  rw [Sched.setSp, proctab_set]
  split_ifs <;> rfl

@[simp] theorem state_setSp (s : Sched) (p q : Pid) (sp : Nat) :
    ((s.setSp p sp).proctab q).state = (s.proctab q).state := by
  rw [Sched.setSp, proctab_set]
  split_ifs with same
  · rw [same]
  · rfl

@[simp] theorem next_setSp (s : Sched) (p q : Pid) (sp : Nat) :
    ((s.setSp p sp).proctab q).next = (s.proctab q).next := by
  rw [Sched.setSp, proctab_set]
  split_ifs with same
  · rw [same]
  · rfl

/-- The processor goes from `old` to `new`, which resumes at the stack pointer
that was stored for it; `save` is what `old`'s entry holds afterwards. -/
structure HandOver (s s' : Sched) (old new : Pid) (save : Nat) : Prop where
  currpid : s'.currpid = new
  state : ∀ q, (s'.proctab q).state = if q = new then .curr else (s.proctab q).state
  sp : ∀ q, (s'.proctab q).sp = if q = old then save else (s.proctab q).sp

private theorem ctxsw_handOver (s : Sched) {ys : List Pid} (old new : Pid) (spNow : Nat)
    (held : Held s ys new) :
    let t := { s.setState new .curr with currpid := new }
    ListInv (ctxsw t old new spNow).1 ys ∧ HandOver s (ctxsw t old new spNow).1 old new spNow ∧
      (ctxsw t old new spNow).2 = ⟨old, new, (s.proctab new).sp⟩ := by
  intro t
  have state : ∀ q, ((ctxsw t old new spNow).1.proctab q).state =
      if q = new then .curr else (s.proctab q).state := by
    intro q
    exact (state_setSp t old q spNow).trans (state_setState s new q .curr)
  refine ⟨?_, ⟨rfl, state, fun q => ?_⟩, ?_⟩
  · refine held.settle rfl rfl ?_ ?_ ?_
    · intro q
      exact (next_setSp t old q spNow).trans (next_setState s new q .curr)
    · intro q other
      rw [state q, if_neg other]
    · rw [state new, if_pos rfl]
      decide
  · refine (sp_setSp t old q spNow).trans ?_
    change (if q = old then spNow else ((s.setState new .curr).proctab q).sp) = _
    rw [sp_setState]
  · change (⟨old, new, ((s.setState new .curr).proctab new).sp⟩ : Switch) = _
    rw [sp_setState]

variable {s : Sched} {xs : List Pid} {p : Pid} {e : Procent}

theorem HandOver.ofFrame {t s' : Sched} {old new : Pid} {save : Nat} (frame : Frame s t)
    (hand : HandOver t s' old new save) : HandOver s s' old new save := by
  refine ⟨hand.currpid, fun q => ?_, fun q => ?_⟩
  · rw [hand.state q, frame.state q]
  · rw [hand.sp q, frame.sp q]

/-- Who gets the processor: a listed process, or `NULLPROC` when the list is
empty. -/
def Chosen (xs : List Pid) (new : Pid) : Prop := new ∈ xs ∨ xs = [] ∧ new = nullproc

theorem ListInv.chosen (inv : ListInv s xs) :
    ∃ found ys s', readyPop s = some (s', found) ∧ Chosen xs (found.getD nullproc) ∧
      Held s' ys (found.getD nullproc) ∧ Frame s s' := by
  rcases inv.pop with ⟨rfl, run⟩ | ⟨best, ys, s', listed, run, held, frame⟩
  · refine ⟨none, [], s, run, .inr ⟨rfl, rfl⟩, ⟨inv.linked, by simp, fun q _ => inv.mem q⟩, ?_⟩
    exact Frame.refl s
  · exact ⟨some best, ys, s', run, .inl listed, held, frame⟩

theorem switchAway_spec (inv : ListInv s xs) (old : Pid)
    (spNow : Nat) :
    ∃ s' new ys, switchAway s old spNow = some (s', some ⟨old, new, (s.proctab new).sp⟩) ∧
      Chosen xs new ∧ ListInv s' ys ∧ HandOver s s' old new spNow := by
  obtain ⟨found, ys, t, run, chosen, held, frame⟩ := ListInv.chosen inv
  obtain ⟨inv', hand, switch⟩ := ctxsw_handOver t old (found.getD nullproc) spNow held
  refine ⟨_, _, ys, ?_, chosen, inv', hand.ofFrame frame⟩
  rw [switchAway, run, ← frame.sp, ← switch]
  rfl

theorem procExit_spec (inv : ListInv s xs)
    (notReady : (s.proctab s.currpid).state ≠ .ready) :
    ∃ s' new ys, procExit s = some (s', some ⟨s.currpid, new, (s.proctab new).sp⟩) ∧
      Chosen xs new ∧ ListInv s' ys ∧ s'.currpid = new ∧
      (∀ q, (s'.proctab q).state =
        if q = new then .curr else if q = s.currpid then .free else (s.proctab q).state) ∧
      ∀ q, (s'.proctab q).sp = (s.proctab q).sp := by
  have freed : ListInv (s.setState s.currpid .free) xs := by
    refine (inv.held notReady).settle rfl rfl ?_ ?_ ?_
    · intro q
      exact next_setState s s.currpid q .free
    · intro q other
      rw [state_setState, if_neg other]
    · rw [state_setState, if_pos rfl]
      decide
  obtain ⟨found, ys, t, run, chosen, held, frame⟩ := ListInv.chosen freed
  have sp : ∀ q, ((t.setState (found.getD nullproc) .curr).proctab q).sp = (s.proctab q).sp := by
    intro q
    rw [sp_setState, frame.sp q, sp_setState]
  refine ⟨{ t.setState (found.getD nullproc) .curr with currpid := found.getD nullproc },
    found.getD nullproc, ys, ?_, chosen, ?_, rfl, fun q => ?_, sp⟩
  · rw [procExit, run, ← sp]
    rfl
  · refine held.settle rfl rfl ?_ ?_ ?_
    · intro q
      exact next_setState t _ q .curr
    · intro q other
      exact (state_setState t _ q .curr).trans (if_neg other)
    · change ((t.setState (found.getD nullproc) .curr).proctab (found.getD nullproc)).state ≠ _
      rw [state_setState, if_pos rfl]
      decide
  · change ((t.setState (found.getD nullproc) .curr).proctab q).state = _
    rw [state_setState, frame.state q, state_setState]

private theorem leave_listInv (inv : ListInv s xs) (notReady : (s.proctab p).state ≠ .ready)
    (next : e.next = (s.proctab p).next) (away : e.state ≠ .ready) :
    ListInv (s.set p e) xs := by
  refine (inv.held notReady).settle rfl rfl ?_ ?_ ?_
  · intro q
    rw [proctab_set]
    split_ifs with same
    · rw [same, next]
    · rfl
  · intro q other
    rw [proctab_set, if_neg other]
  · rw [proctab_set, if_pos rfl]
    exact away

/-- The caller of `proc_block` or `proc_sleep_us` ends in the state `rest`, the
chosen process runs. -/
structure Parked (s s' : Sched) (xs : List Pid) (rest : ProcState) (new : Pid)
    (spNow : Nat) : Prop where
  chosen : Chosen xs new
  currpid : s'.currpid = new
  state : ∀ q, (s'.proctab q).state =
    if q = new then .curr else if q = s.currpid then rest else (s.proctab q).state
  sp : ∀ q, (s'.proctab q).sp = if q = s.currpid then spNow else (s.proctab q).sp

private theorem park_spec (inv : ListInv s xs)
    (notReady : (s.proctab s.currpid).state ≠ .ready) (away : e.state ≠ .ready)
    (next : e.next = (s.proctab s.currpid).next) (kept : e.sp = (s.proctab s.currpid).sp)
    (spNow : Nat) :
    ∃ s' new ys, switchAway (s.set s.currpid e) s.currpid spNow =
        some (s', some ⟨s.currpid, new, (s.proctab new).sp⟩) ∧
      ListInv s' ys ∧ Parked s s' xs e.state new spNow := by
  have left : ListInv (s.set s.currpid e) xs := leave_listInv inv notReady next away
  have sp : ∀ q, ((s.set s.currpid e).proctab q).sp = (s.proctab q).sp := by
    intro q
    rw [proctab_set]
    split_ifs with same
    · rw [same, kept]
    · rfl
  obtain ⟨s', new, ys, run, chosen, inv', hand⟩ := switchAway_spec left s.currpid spNow
  rw [sp new] at run
  refine ⟨s', new, ys, run, inv', chosen, hand.currpid, fun q => ?_, fun q => ?_⟩
  · rw [hand.state q, proctab_set]
    split_ifs <;> rfl
  · rw [hand.sp q, sp q]

theorem procBlock_spec (inv : ListInv s xs)
    (notReady : (s.proctab s.currpid).state ≠ .ready) (spNow : Nat) :
    ∃ s' new ys, procBlock s spNow =
        some (s', some ⟨s.currpid, new, (s.proctab new).sp⟩) ∧
      ListInv s' ys ∧ Parked s s' xs .wait new spNow :=
  park_spec (e := { s.proctab s.currpid with state := .wait }) inv notReady
    ProcState.noConfusion rfl rfl spNow

theorem procSleepUs_spec (inv : ListInv s xs)
    (notReady : (s.proctab s.currpid).state ≠ .ready) (us now spNow : Nat) :
    ∃ s' new ys, procSleepUs s us now spNow =
        some (s', some ⟨s.currpid, new, (s.proctab new).sp⟩) ∧
      ListInv s' ys ∧ Parked s s' xs .sleep new spNow :=
  park_spec (e := { s.proctab s.currpid with
    wakeAtUs := XinuRpi5.Lib.Word64.add64 now us, state := .sleep }) inv notReady
    ProcState.noConfusion rfl rfl spNow

/-- `proc_resched` parks a caller that is still `PR_CURR` and not `NULLPROC`. -/
def Yields (s : Sched) : Prop :=
  (s.proctab s.currpid).state = .curr ∧ s.currpid ≠ nullproc

instance (s : Sched) : Decidable (Yields s) := inferInstanceAs (Decidable (_ ∧ _))

theorem procResched_spec (inv : ListInv s xs) (spNow : Nat) :
    (xs = [] ∧ procResched s spNow = some (s, none)) ∨
    ∃ s' new ys, procResched s spNow =
        some (s', some ⟨s.currpid, new, (s.proctab new).sp⟩) ∧
      new ∈ xs ∧ ListInv s' ys ∧ s'.currpid = new ∧
      (∀ q, (s'.proctab q).state = if q = new then .curr
        else if q = s.currpid ∧ Yields s then .ready else (s.proctab q).state) ∧
      ∀ q, (s'.proctab q).sp = if q = s.currpid then spNow else (s.proctab q).sp := by
  rcases inv.pop with ⟨rfl, run⟩ | ⟨new, ys, t, listed, run, held, frame⟩
  · refine .inl ⟨rfl, ?_⟩
    rw [procResched, run]
    rfl
  · have newReady : (s.proctab new).state = .ready := (inv.mem new).mp listed
    by_cases yields : Yields s
    · have other : s.currpid ≠ new := by
        intro same
        rw [← same, yields.1] at newReady
        exact absurd newReady (by decide)
      have oldState : (t.proctab s.currpid).state ≠ .ready := by
        rw [frame.state, yields.1]
        decide
      have parked := held.pushOther (t := t.setState s.currpid .ready) other oldState rfl rfl
        (fun q => next_setState t _ q _) (fun q apart => by simp [apart]) (by simp)
      have pushed := readyPush_frame (t.setState s.currpid .ready) s.currpid
      obtain ⟨inv', hand, switch⟩ := ctxsw_handOver _ s.currpid new spNow parked
      refine .inr ⟨_, new, _, ?_, listed, inv', hand.currpid, fun q => ?_, fun q => ?_⟩
      · have spNew : ((readyPush (t.setState s.currpid .ready) s.currpid).proctab new).sp =
            (s.proctab new).sp := by
          rw [pushed.sp, sp_setState, frame.sp]
        rw [spNew] at switch
        have keeps : (t.proctab s.currpid).state = .curr ∧ s.currpid ≠ nullproc := by
          rw [frame.state]
          exact yields
        rw [procResched, run, ← switch]
        simp only [Option.map_some, frame.currpid, if_pos keeps]
      · rw [hand.state q, pushed.state q, state_setState, frame.state q]
        simp only [yields, and_true]
      · rw [hand.sp q, pushed.sp q, sp_setState, frame.sp q]
    · obtain ⟨inv', hand, switch⟩ := ctxsw_handOver t s.currpid new spNow held
      refine .inr ⟨_, new, ys, ?_, listed, inv', hand.currpid, fun q => ?_, fun q => ?_⟩
      · rw [frame.sp] at switch
        have stays : ¬ ((t.proctab s.currpid).state = .curr ∧ s.currpid ≠ nullproc) := by
          rw [frame.state]
          exact yields
        rw [procResched, run, ← switch]
        simp only [Option.map_some, frame.currpid, if_neg stays]
      · rw [hand.state q, frame.state q]
        simp only [yields, and_false, if_false]
      · rw [hand.sp q, frame.sp q]

private theorem enlist
    (inv : ListInv s xs) (notReady : (s.proctab p).state ≠ .ready) (ready : e.state = .ready) :
    ListInv (readyPush (s.set p e) p) (xs ++ [p]) ∧
      (∀ q, ((readyPush (s.set p e) p).proctab q).state =
        if q = p then .ready else (s.proctab q).state) ∧
      (∀ q, ((readyPush (s.set p e) p).proctab q).sp =
        if q = p then e.sp else (s.proctab q).sp) ∧
      (readyPush (s.set p e) p).currpid = s.currpid := by
  have frame := readyPush_frame (s.set p e) p
  refine ⟨?_, fun q => ?_, fun q => ?_, frame.currpid⟩
  · refine (inv.held notReady).push rfl rfl ?_ ?_ ?_
    · intro q other
      rw [proctab_set, if_neg other]
    · intro q other
      rw [proctab_set, if_neg other]
    · rw [proctab_set, if_pos rfl]
      exact ready
  · rw [frame.state q, proctab_set]
    split_ifs with same
    · exact ready
    · rfl
  · rw [frame.sp q, proctab_set]
    split_ifs <;> rfl

theorem allocSlot_spec (found : allocSlot s = some p) :
    p ≠ nullproc ∧ (s.proctab p).state = .free := by
  have chosen := List.find?_some found
  simpa using chosen

/-- Process creation fails and changes nothing, or lists a fresh process. -/
structure Created (s s' : Sched) (ys : List Pid) (p : Pid) (sp : Nat) : Prop where
  slot : p ≠ nullproc ∧ (s.proctab p).state = .free
  inv : ListInv s' ys
  currpid : s'.currpid = s.currpid
  state : ∀ q, (s'.proctab q).state = if q = p then .ready else (s.proctab q).state
  sp : ∀ q, (s'.proctab q).sp = if q = p then sp else (s.proctab q).sp

private theorem created (inv : ListInv s xs)
    (found : allocSlot s = some p) (stk stksize top : Nat) (name : List Char) :
    Created s (readyPush (s.set p (freshEntry (s.proctab p) stk stksize top name)) p)
      (xs ++ [p]) p (XinuRpi5.Lib.Word64.sub64 top 96) := by
  have slot := allocSlot_spec found
  have notReady : (s.proctab p).state ≠ .ready := by
    rw [slot.2]
    decide
  obtain ⟨inv', state, sp, currpid⟩ :=
    enlist (e := freshEntry (s.proctab p) stk stksize top name) inv notReady rfl
  exact ⟨slot, inv', currpid, state, sp⟩

theorem procCreate_spec (inv : ListInv s xs) (stksize stk : Nat)
    (name : List Char) :
    procCreate s stksize stk name = (s, -1) ∨
    ∃ p sp ys, (procCreate s stksize stk name).2 = (p.val : Int) ∧
      Created s (procCreate s stksize stk name).1 ys p sp := by
  unfold procCreate
  split
  · exact .inl rfl
  · next p found =>
    by_cases failed : stk = 0
    · simp only [failed, if_true]
      exact .inl trivial
    · simp only [failed, if_false]
      exact .inr ⟨p, _, xs ++ [p], rfl, created inv found _ _ _ name⟩

theorem procCreateStatic_spec (inv : ListInv s xs)
    (stk stksize : Nat) (name : List Char) :
    procCreateStatic s stk stksize name = (s, -1) ∨
    ∃ p sp ys, (procCreateStatic s stk stksize name).2 = (p.val : Int) ∧
      Created s (procCreateStatic s stk stksize name).1 ys p sp := by
  unfold procCreateStatic
  split
  · exact .inl rfl
  · next p found =>
    split_ifs with failed
    · exact .inl rfl
    · exact .inr ⟨p, _, xs ++ [p], rfl, created inv found _ _ _ name⟩

theorem procReady_spec (inv : ListInv s xs) (pid : Int)
    (notReady : ∀ p : Pid, (p.val : Int) = pid → p ≠ nullproc → (s.proctab p).state ≠ .ready) :
    procReady s pid = s ∨
    ∃ (p : Pid) (ys : List Pid), (p.val : Int) = pid ∧ p ≠ nullproc ∧
      ListInv (procReady s pid) ys ∧ (procReady s pid).currpid = s.currpid ∧
      (∀ q, ((procReady s pid).proctab q).state =
        if q = p then .ready else (s.proctab q).state) ∧
      ∀ q, ((procReady s pid).proctab q).sp = (s.proctab q).sp := by
  unfold procReady
  split_ifs with outside
  · exact .inl rfl
  · have low : 0 < pid ∧ pid < 16 := by omega
    have number : ((⟨pid.toNat, by omega⟩ : Pid).val : Int) = pid := Int.toNat_of_nonneg (by omega)
    have other : (⟨pid.toNat, by omega⟩ : Pid) ≠ nullproc := by
      intro same
      have zero : pid.toNat = 0 := congrArg Fin.val same
      omega
    obtain ⟨inv', state, sp, currpid⟩ := enlist (p := ⟨pid.toNat, by omega⟩)
      (e := { s.proctab ⟨pid.toNat, by omega⟩ with state := .ready }) inv
      (notReady _ number other) rfl
    refine .inr ⟨⟨pid.toNat, by omega⟩, _, number, other, inv', currpid, state, fun q => ?_⟩
    refine (sp q).trans ?_
    split_ifs with same
    · rw [same]
    · rfl

theorem procSetprio_spec (inv : ListInv s xs) (pid prio : Int) :
    ListInv (procSetprio s pid prio) xs ∧ Frame s (procSetprio s pid prio) := by
  unfold procSetprio
  split_ifs with outside
  · exact ⟨inv, Frame.refl s⟩
  · have rest : ∀ q, ∃ n : Int, (s.set ⟨pid.toNat, by omega⟩
        { s.proctab ⟨pid.toNat, by omega⟩ with prio := prio }).proctab q =
          { s.proctab q with prio := n } := by
      intro q
      rw [proctab_set]
      split_ifs with same
      · exact ⟨prio, by rw [same]⟩
      · exact ⟨(s.proctab q).prio, rfl⟩
    refine ⟨⟨inv.linked.congr rfl rfl fun q _ => ?_, fun q => ?_⟩, fun q => ?_, fun q => ?_,
      fun q => ?_, rfl⟩
    all_goals obtain ⟨n, equal⟩ := rest q
    · rw [equal]
    · rw [inv.mem q, equal]
    all_goals rw [equal]

def Due (s : Sched) (now : Nat) (q : Pid) : Prop :=
  (s.proctab q).state = .sleep ∧ (s.proctab q).wakeAtUs ≤ now

instance (s : Sched) (now : Nat) (q : Pid) : Decidable (Due s now q) :=
  inferInstanceAs (Decidable (_ ∧ _))

structure Woken (s s' : Sched) (now : Nat) (is : List Pid) : Prop where
  state : ∀ q, (s'.proctab q).state =
    if q ∈ is ∧ Due s now q then .ready else (s.proctab q).state
  sp : ∀ q, (s'.proctab q).sp = (s.proctab q).sp
  wakeAtUs : ∀ q, (s'.proctab q).wakeAtUs = (s.proctab q).wakeAtUs
  currpid : s'.currpid = s.currpid

private theorem wakeOne_spec (inv : ListInv s xs) (now : Nat)
    (i : Pid) : ∃ ys, ListInv (wakeOne now s i) ys ∧ Woken s (wakeOne now s i) now [i] := by
  unfold wakeOne
  split_ifs with due
  · have notReady : (s.proctab i).state ≠ .ready := by
      rw [due.1]
      decide
    obtain ⟨inv', state, sp, currpid⟩ :=
      enlist (e := { s.proctab i with state := .ready }) inv notReady rfl
    have frame := readyPush_frame (s.setState i .ready) i
    refine ⟨xs ++ [i], ⟨inv'.linked.congr rfl rfl fun _ _ => rfl, inv'.mem⟩, fun q => ?_,
      fun q => ?_, fun q => ?_, currpid⟩
    · refine (state q).trans ?_
      by_cases same : q = i
      · rw [if_pos same, if_pos ⟨List.mem_singleton.mpr same, same ▸ due⟩]
      · rw [if_neg same, if_neg fun h => same (List.mem_singleton.mp h.1)]
    · exact (frame.sp q).trans (sp_setState s i q .ready)
    · exact (frame.wakeAtUs q).trans (wakeAtUs_setState s i q .ready)
  · refine ⟨xs, inv, fun q => ?_, fun _ => rfl, fun _ => rfl, rfl⟩
    rw [if_neg]
    rintro ⟨listed, isDue⟩
    obtain rfl := List.mem_singleton.mp listed
    exact due isDue

private theorem wake_fold (inv : ListInv s xs) (now : Nat)
    (is : List Pid) :
    ∃ ys, ListInv (is.foldl (wakeOne now) s) ys ∧ Woken s (is.foldl (wakeOne now) s) now is := by
  induction is generalizing s xs with
  | nil =>
    refine ⟨xs, inv, fun q => ?_, fun _ => rfl, fun _ => rfl, rfl⟩
    rw [if_neg]
    · rfl
    · simp
  | cons i is ih =>
    obtain ⟨ys, first, woken⟩ := wakeOne_spec inv now i
    obtain ⟨zs, rest, later⟩ := ih first
    refine ⟨zs, rest, fun q => ?_, fun q => ?_, fun q => ?_, ?_⟩
    · have still : Due (wakeOne now s i) now q ↔ q ≠ i ∧ Due s now q ∨
          q = i ∧ Due (wakeOne now s i) now q := by
        by_cases same : q = i
        · simp [same]
        · have kept : Due (wakeOne now s i) now q ↔ Due s now q := by
            unfold Due
            rw [woken.state q, woken.wakeAtUs q, if_neg (by simp [same])]
          simp [same, kept]
      rw [List.foldl_cons, later.state q, woken.state q]
      by_cases due : Due s now q
      · by_cases same : q = i
        · simp [same, same ▸ due]
        · have kept : Due (wakeOne now s i) now q := still.mpr (.inl ⟨same, due⟩)
          simp [same, due, kept]
      · have asleep : ¬ Due (wakeOne now s i) now q := by
          intro isDue
          unfold Due at isDue due
          rw [woken.state q, woken.wakeAtUs q, if_neg (fun h => due h.2)] at isDue
          exact due isDue
        simp [due, asleep]
    · rw [List.foldl_cons, later.sp q, woken.sp q]
    · rw [List.foldl_cons, later.wakeAtUs q, woken.wakeAtUs q]
    · rw [List.foldl_cons, later.currpid, woken.currpid]

theorem procTimerTick_spec (inv : ListInv s xs) (now : Nat) :
    ∃ ys, ListInv (procTimerTick s now) ys ∧
      (∀ q, ((procTimerTick s now).proctab q).state =
        if Due s now q then .ready else (s.proctab q).state) ∧
      (∀ q, ((procTimerTick s now).proctab q).sp = (s.proctab q).sp) ∧
      (procTimerTick s now).currpid = s.currpid := by
  unfold procTimerTick
  generalize every : List.finRange 16 = is
  obtain ⟨ys, inv', woken⟩ := wake_fold inv now is
  refine ⟨ys, inv', fun q => ?_, woken.sp, woken.currpid⟩
  have listed : q ∈ is := every ▸ List.mem_finRange q
  rw [woken.state q]
  simp only [listed, true_and]

end XinuRpi5.System.Transitions
