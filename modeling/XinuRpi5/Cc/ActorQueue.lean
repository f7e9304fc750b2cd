/- source: cc/cc.c
   digest: The message queue of the cooperative actor runtime, and the list it stands for. -/

import XinuRpi5.Lib.GuardedRuns
import XinuRpi5.Lib.RingQueue
import Mathlib.Data.List.Perm.Basic

/-!
The program that was loaded has a `dispatch`. What its handlers do is a sequence of calls
into the runtime, in any order; a handler runs inside the round of `cc_pump` that called
it, and may itself call `cc_pump`. The frames of these calls are part of the state.
-/

namespace XinuRpi5.Cc.ActorQueue

open Lib.GuardedRuns Lib.RingQueue

section Runtime

def mqMax : Nat := 8192

def actMax : Int := 1024

/-- A `long` as an `int`. -/
def asInt (x : Int) : Int := x.bmod 4294967296

/-- `struct cc_msg`; `dst` and `src` are its `to` and `from`. -/
structure Msg where
  dst : Int
  mid : Int
  a0 : Int
  a1 : Int
  a2 : Int
  a3 : Int
  src : Int
  deriving DecidableEq

/-- A call that is not finished: the loop of `cc_pump`, or a handler with the sender and
the actor to restore. -/
inductive Frame where
  | pumping
  | handling (sender cur : Int)
  deriving DecidableEq

structure Ctx where
  alive : Nat → Bool
  sender : Int
  cur : Int
  sstack : List (Int × Int)
  sel : Int × Int × Int × Int
  frames : List Frame

structure State where
  mq : RingBuf Msg
  ctx : Ctx

/-- The calls into the runtime, the rounds of its pump and the ends of its handlers. -/
inductive Op where
  | enqueue (dst mid a0 a1 a2 a3 : Int)
  | select (self n m0 m1 m2 m3 : Int)
  | pump
  | next (tick : Bool)
  | finish
  | nowPush
  | nowPop
  | setAlive (id : Nat) (alive : Bool)

inductive Event where
  | quiet
  | accepted (m : Msg)
  | delivered (m : Msg)
  | discarded (m : Msg)
  | selected (m : Msg)
  deriving DecidableEq

def LiveAt (alive : Nat → Bool) (t : Int) : Prop :=
  0 ≤ t ∧ t < actMax ∧ alive t.toNat = true

instance (alive : Nat → Bool) (t : Int) : Decidable (LiveAt alive t) :=
  inferInstanceAs (Decidable (_ ∧ _))

namespace Ctx

def Pumping (c : Ctx) : Prop := c.frames.head? = some .pumping

instance (c : Ctx) : Decidable c.Pumping := inferInstanceAs (Decidable (_ = _))

/-- `cc_pump` hands a message to its handler. -/
def dispatch (c : Ctx) (m : Msg) : Ctx :=
  { c with frames := .handling c.sender c.cur :: c.frames, sender := m.src, cur := m.dst }

/-- `cc_now_push`, without the reply slot. -/
def nowPush (c : Ctx) : Ctx :=
  { c with
    sstack := if c.sstack.length < 16 then (c.sender, c.cur) :: c.sstack else c.sstack
    sender := c.cur }

/-- The head of `cc_now_pop`, without the reply slot. -/
def nowPop (c : Ctx) : Ctx :=
  match c.sstack with
  | [] => c
  | (sender, cur) :: rest => { c with sstack := rest, sender := sender, cur := cur }

def setAlive (c : Ctx) (id : Nat) (b : Bool) : Ctx :=
  { c with alive := Function.update c.alive id b }

end Ctx

/-- The message is for `self` and one of the first `n` numbers. -/
def Matches (self n : Int) (want : List Int) (m : Msg) : Prop :=
  m.dst = self ∧ ∃ w ∈ want.take (asInt n).toNat, 0 ≤ w ∧ m.mid = w

instance (self n : Int) (want : List Int) (m : Msg) : Decidable (Matches self n want m) :=
  inferInstanceAs (Decidable (_ ∧ _))

def step (s : State) : Op → Option (State × Event)
  | .enqueue dst mid a0 a1 a2 a3 =>
    if s.ctx.Pumping then none
    else if ¬ LiveAt s.ctx.alive (asInt dst) ∨ s.mq.Full mqMax then some (s, .quiet)
    else
      let m := ⟨dst, mid, a0, a1, a2, a3, s.ctx.cur⟩
      some ({ s with mq := s.mq.push mqMax m }, .accepted m)
  | .select self n m0 m1 m2 m3 =>
    if s.ctx.Pumping then none
    else
      match search mqMax s.mq.cells s.mq.tail (Matches self n [m0, m1, m2, m3]) mqMax
        s.mq.head with
      | none => some (s, .quiet)
      | some i =>
        let m := s.mq.cells i
        some (⟨s.mq.remove mqMax i, { s.ctx with sel := (m.a0, m.a1, m.a2, m.a3) }⟩, .selected m)
  | .pump =>
    if s.ctx.Pumping then none
    else some ({ s with ctx := { s.ctx with frames := .pumping :: s.ctx.frames } }, .quiet)
  | .next tick =>
    match s.ctx.frames with
    | .pumping :: rest =>
      if s.mq.head = s.mq.tail ∨ tick = false then
        some ({ s with ctx := { s.ctx with frames := rest } }, .quiet)
      else
        let m := s.mq.cells s.mq.head
        if LiveAt s.ctx.alive (asInt m.dst) then
          some (⟨s.mq.pop mqMax, s.ctx.dispatch m⟩, .delivered m)
        else some ({ s with mq := s.mq.pop mqMax }, .discarded m)
    | _ => none
  | .finish =>
    match s.ctx.frames with
    | .handling sender cur :: rest =>
      some ({ s with ctx := { s.ctx with frames := rest, sender := sender, cur := cur } }, .quiet)
    | _ => none
  | .nowPush =>
    if s.ctx.Pumping then none else some ({ s with ctx := s.ctx.nowPush }, .quiet)
  | .nowPop =>
    if s.ctx.Pumping then none else some ({ s with ctx := s.ctx.nowPop }, .quiet)
  | .setAlive id b =>
    if s.ctx.Pumping then none else some ({ s with ctx := s.ctx.setAlive id b }, .quiet)

def freshCtx : Ctx := ⟨fun _ => false, -1, -1, [], (0, 0, 0, 0), []⟩

/-- `cc_actor_reset`; the cells keep what they held. -/
def reset (cells : Nat → Msg) : State := ⟨⟨cells, 0, 0⟩, freshCtx⟩

end Runtime

structure Spec where
  queue : List Msg
  ctx : Ctx

/-- The same calls on a list: a message for a live actor goes to its end, the pump takes
the first message and hands it to a live receiver, and a select takes the first one that
matches. -/
def specStep (s : Spec) : Op → Option (Spec × Event)
  | .enqueue dst mid a0 a1 a2 a3 =>
    if s.ctx.Pumping then none
    else if LiveAt s.ctx.alive dst ∧ s.queue.length < 8191 then
      let m := ⟨dst, mid, a0, a1, a2, a3, s.ctx.cur⟩
      some ({ s with queue := s.queue ++ [m] }, .accepted m)
    else some (s, .quiet)
  | .select self n m0 m1 m2 m3 =>
    if s.ctx.Pumping then none
    else
      match s.queue.find? (Matches self n [m0, m1, m2, m3]) with
      | none => some (s, .quiet)
      | some m =>
        some (⟨s.queue.eraseP (Matches self n [m0, m1, m2, m3]),
          { s.ctx with sel := (m.a0, m.a1, m.a2, m.a3) }⟩, .selected m)
  | .pump =>
    if s.ctx.Pumping then none
    else some ({ s with ctx := { s.ctx with frames := .pumping :: s.ctx.frames } }, .quiet)
  | .next tick =>
    match s.ctx.frames with
    | .pumping :: rest =>
      match if tick then s.queue else [] with
      | [] => some ({ s with ctx := { s.ctx with frames := rest } }, .quiet)
      | m :: queue =>
        if LiveAt s.ctx.alive m.dst then some (⟨queue, s.ctx.dispatch m⟩, .delivered m)
        else some ({ s with queue := queue }, .discarded m)
    | _ => none
  | .finish =>
    match s.ctx.frames with
    | .handling sender cur :: rest =>
      some ({ s with ctx := { s.ctx with frames := rest, sender := sender, cur := cur } }, .quiet)
    | _ => none
  | .nowPush =>
    if s.ctx.Pumping then none else some ({ s with ctx := s.ctx.nowPush }, .quiet)
  | .nowPop =>
    if s.ctx.Pumping then none else some ({ s with ctx := s.ctx.nowPop }, .quiet)
  | .setAlive id b =>
    if s.ctx.Pumping then none else some ({ s with ctx := s.ctx.setAlive id b }, .quiet)

def State.spec (s : State) : Spec := ⟨s.mq.contents mqMax, s.ctx⟩

section Refinement

def Fits (s : State) : Op → Prop
  | .enqueue dst _ _ _ _ _ =>
    LiveAt s.ctx.alive (asInt dst) → ¬ s.mq.Full mqMax → asInt dst = dst
  | _ => True

structure Inv (s : State) : Prop where
  wf : s.mq.Wf mqMax
  dst : ∀ m ∈ s.spec.queue, asInt m.dst = m.dst

variable {s s' : State} {e : Event}

theorem asInt_of_live {alive : Nat → Bool} {t : Int} (live : LiveAt alive t) : asInt t = t := by
  obtain ⟨low, high, _⟩ := live
  unfold actMax at high
  unfold asInt
  rw [Int.bmod_def]
  split_ifs <;> omega

theorem enqueue_refines {dst mid a0 a1 a2 a3 : Int} (inv : Inv s)
    (fits : Fits s (.enqueue dst mid a0 a1 a2 a3))
    (run : step s (.enqueue dst mid a0 a1 a2 a3) = some (s', e)) :
    specStep s.spec (.enqueue dst mid a0 a1 a2 a3) = some (s'.spec, e) ∧ Inv s' := by
  have full := inv.wf.full_iff
  have below := inv.wf.count_lt
  simp only [step] at run
  split_ifs at run with running refused
  · obtain ⟨rfl, rfl⟩ := Prod.mk.inj (Option.some.inj run)
    refine ⟨?_, inv⟩
    refine (if_neg running).trans (if_neg ?_)
    rintro ⟨live, room⟩
    rcases refused with dead | full'
    · rw [asInt_of_live live] at dead
      exact dead live
    · have len := full.mp full'
      change (s.mq.contents mqMax).length < 8191 at room
      unfold mqMax at len room
      omega
  · obtain ⟨live, room⟩ := not_or.mp refused
    rw [not_not] at live
    have same := fits live room
    have less : ¬ (s.mq.contents mqMax).length + 1 = mqMax := fun len => room (full.mpr len)
    obtain ⟨rfl, rfl⟩ := Prod.mk.inj (Option.some.inj run)
    have contents := inv.wf.contents_push room ⟨dst, mid, a0, a1, a2, a3, s.ctx.cur⟩
    refine ⟨?_, inv.wf.push _, ?_⟩
    · have short : (s.mq.contents mqMax).length < 8191 := by
        rw [RingBuf.length_contents] at less ⊢
        unfold mqMax at less below ⊢
        omega
      rw [same] at live
      refine (if_neg running).trans ((if_pos ⟨live, short⟩).trans ?_)
      exact congrArg (fun q => some ((⟨q, s.ctx⟩ : Spec), Event.accepted _)) contents.symm
    · intro m listed
      change m ∈ (s.mq.push mqMax _).contents mqMax at listed
      rw [contents] at listed
      rcases List.mem_append.mp listed with earlier | last
      · exact inv.dst m earlier
      · obtain rfl := List.mem_singleton.mp last
        exact same

theorem select_refines {self n m0 m1 m2 m3 : Int} (inv : Inv s)
    (run : step s (.select self n m0 m1 m2 m3) = some (s', e)) :
    specStep s.spec (.select self n m0 m1 m2 m3) = some (s'.spec, e) ∧ Inv s' := by
  simp only [step] at run
  split_ifs at run with running
  cases found : search mqMax s.mq.cells s.mq.tail (Matches self n [m0, m1, m2, m3]) mqMax
      s.mq.head with
  | none =>
    rw [found] at run
    obtain ⟨rfl, rfl⟩ := Prod.mk.inj (Option.some.inj run)
    have missing := inv.wf.search_none found
    refine ⟨?_, inv⟩
    refine (if_neg running).trans ?_
    rw [show s.spec.queue.find? _ = none from missing]
  | some i =>
    rw [found] at run
    obtain ⟨rfl, rfl⟩ := Prod.mk.inj (Option.some.inj run)
    obtain ⟨first, rest⟩ := inv.wf.search_some found
    refine ⟨?_, inv.wf.remove i, ?_⟩
    · refine (if_neg running).trans ?_
      rw [show s.spec.queue.find? _ = some _ from first]
      exact congrArg (fun q => some ((⟨q, _⟩ : Spec), Event.selected _)) rest.symm
    · intro m listed
      change m ∈ (s.mq.remove mqMax i).contents mqMax at listed
      rw [rest] at listed
      exact inv.dst m (List.mem_of_mem_eraseP listed)

theorem next_refines {tick : Bool} (inv : Inv s) (run : step s (.next tick) = some (s', e)) :
    specStep s.spec (.next tick) = some (s'.spec, e) ∧ Inv s' := by
  simp only [step] at run
  split at run
  · rename_i rest frames
    have frames' : s.spec.ctx.frames = .pumping :: rest := frames
    split_ifs at run with stops live
    · obtain ⟨rfl, rfl⟩ := Prod.mk.inj (Option.some.inj run)
      refine ⟨?_, inv.wf, inv.dst⟩
      have stopped : (if tick then s.spec.queue else []) = [] := by
        rcases stops with empty | late
        · rw [show s.spec.queue = [] from inv.wf.empty_iff.mp empty, ite_self]
        · rw [late]
          rfl
      simp only [specStep, frames', stopped]
      rfl
    all_goals
      obtain ⟨some, tock⟩ := not_or.mp stops
      have contents := inv.wf.contents_pop some
      have dst := inv.dst (s.mq.cells s.mq.head) (by
        change _ ∈ s.mq.contents mqMax
        rw [contents]
        exact List.mem_cons_self)
      have rest : ∀ m ∈ (s.mq.pop mqMax).contents mqMax, asInt m.dst = m.dst := by
        intro m listed
        apply inv.dst
        change m ∈ s.mq.contents mqMax
        rw [contents]
        exact List.mem_cons_of_mem _ listed
      rw [dst] at live
      obtain ⟨rfl, rfl⟩ := Prod.mk.inj (Option.some.inj run)
      refine ⟨?_, inv.wf.pop, rest⟩
      have goes : (if tick then s.spec.queue else []) =
          s.mq.cells s.mq.head :: (s.mq.pop mqMax).contents mqMax := by
        rw [if_pos (Bool.eq_true_of_not_eq_false tock)]
        exact contents
      simp only [specStep, frames', goes]
    · exact if_pos live
    · exact if_neg live
  · cases run

theorem step_refines {op : Op} (inv : Inv s) (fits : Fits s op)
    (run : step s op = some (s', e)) :
    specStep s.spec op = some (s'.spec, e) ∧ Inv s' := by
  cases op with
  | enqueue dst mid a0 a1 a2 a3 => exact enqueue_refines inv fits run
  | select self n m0 m1 m2 m3 => exact select_refines inv run
  | next tick => exact next_refines inv run
  | pump | nowPush | nowPop | setAlive id b =>
    simp only [step] at run
    split_ifs at run with running
    obtain ⟨rfl, rfl⟩ := Prod.mk.inj (Option.some.inj run)
    refine ⟨?_, inv.wf, inv.dst⟩
    simp only [specStep]
    exact if_neg running
  | finish =>
    simp only [step] at run
    split at run
    · rename_i sender cur rest frames
      obtain ⟨rfl, rfl⟩ := Prod.mk.inj (Option.some.inj run)
      refine ⟨?_, inv.wf, inv.dst⟩
      simp only [specStep, show s.spec.ctx.frames = _ from frames]
      rfl
    · cases run

end Refinement

section Runs

def logged {σ : Type} (next : σ → Op → Option (σ × Event)) (x : σ × List Event) (op : Op) :
    Option (σ × List Event) :=
  (next x.1 op).map fun r => (r.1, x.2 ++ [r.2])

namespace Event

def entering : Event → Option Msg
  | .accepted m => some m
  | _ => none

def leaving : Event → Option Msg
  | .delivered m | .discarded m => some m
  | _ => none

def chosen : Event → Option Msg
  | .selected m => some m
  | _ => none

end Event

def acceptedOf (log : List Event) : List Msg := log.filterMap Event.entering

def pumpedOf (log : List Event) : List Msg := log.filterMap Event.leaving

def selectedOf (log : List Event) : List Msg := log.filterMap Event.chosen

theorem filterMap_snoc (f : Event → Option Msg) (log : List Event) (e : Event) :
    (log ++ [e]).filterMap f = log.filterMap f ++ (f e).toList := by
  rw [List.filterMap_append]
  cases step : f e with
  | none => rw [List.filterMap_cons_none step, List.filterMap_nil, Option.toList_none]
  | some m => rw [List.filterMap_cons_some step, List.filterMap_nil, Option.toList_some]

/-- Nothing is lost or doubled, and what the pump takes keeps its order. -/
structure Accounts (queue : List Msg) (log : List Event) : Prop where
  all : (acceptedOf log).Perm (pumpedOf log ++ selectedOf log ++ queue)
  order : (pumpedOf log ++ queue).Sublist (acceptedOf log)

/-- What a step of the list does to its queue. -/
theorem specStep_queue {s s' : Spec} {op : Op} {e : Event} (run : specStep s op = some (s', e)) :
    (e = .quiet ∧ s'.queue = s.queue) ∨
    (∃ m, e = .accepted m ∧ s'.queue = s.queue ++ [m]) ∨
    (∃ m, (e = .delivered m ∧ LiveAt s.ctx.alive m.dst ∨ e = .discarded m) ∧
      s.queue = m :: s'.queue) ∨
    ∃ m before after, e = .selected m ∧ s.queue = before ++ m :: after ∧
      s'.queue = before ++ after := by
  cases op with
  | enqueue dst mid a0 a1 a2 a3 =>
    simp only [specStep] at run
    split_ifs at run
    · obtain ⟨rfl, rfl⟩ := Prod.mk.inj (Option.some.inj run)
      exact .inr (.inl ⟨_, rfl, rfl⟩)
    · obtain ⟨rfl, rfl⟩ := Prod.mk.inj (Option.some.inj run)
      exact .inl ⟨rfl, rfl⟩
  | select self n m0 m1 m2 m3 =>
    simp only [specStep] at run
    split_ifs at run
    cases found : s.queue.find? (Matches self n [m0, m1, m2, m3]) with
    | none =>
      rw [found] at run
      obtain ⟨rfl, rfl⟩ := Prod.mk.inj (Option.some.inj run)
      exact .inl ⟨rfl, rfl⟩
    | some m =>
      rw [found] at run
      obtain ⟨rfl, rfl⟩ := Prod.mk.inj (Option.some.inj run)
      obtain ⟨passes, before, after, whole, others⟩ := List.find?_eq_some_iff_append.mp found
      refine .inr (.inr (.inr ⟨m, before, after, rfl, whole, ?_⟩))
      change s.queue.eraseP _ = before ++ after
      rw [whole, List.eraseP_append_right _ (by simpa using others),
        List.eraseP_cons, passes]
      rfl
  | next tick =>
    simp only [specStep] at run
    split at run
    · split at run
      · obtain ⟨rfl, rfl⟩ := Prod.mk.inj (Option.some.inj run)
        exact .inl ⟨rfl, rfl⟩
      · rename_i m queue goes
        have whole : s.queue = m :: queue := by
          split_ifs at goes
          exact goes
        split_ifs at run with live
        · obtain ⟨rfl, rfl⟩ := Prod.mk.inj (Option.some.inj run)
          exact .inr (.inr (.inl ⟨m, .inl ⟨rfl, live⟩, whole⟩))
        · obtain ⟨rfl, rfl⟩ := Prod.mk.inj (Option.some.inj run)
          exact .inr (.inr (.inl ⟨m, .inr rfl, whole⟩))
    · cases run
  | finish =>
    simp only [specStep] at run
    split at run
    · obtain ⟨rfl, rfl⟩ := Prod.mk.inj (Option.some.inj run)
      exact .inl ⟨rfl, rfl⟩
    · cases run
  | pump | nowPush | nowPop | setAlive id b =>
    simp only [specStep] at run
    split_ifs at run
    obtain ⟨rfl, rfl⟩ := Prod.mk.inj (Option.some.inj run)
    exact .inl ⟨rfl, rfl⟩

theorem Accounts.step {s s' : Spec} {op : Op} {e : Event} {log : List Event}
    (accounts : Accounts s.queue log) (run : specStep s op = some (s', e)) :
    Accounts s'.queue (log ++ [e]) := by
  obtain ⟨all, order⟩ := accounts
  have entering : acceptedOf (log ++ [e]) = acceptedOf log ++ e.entering.toList :=
    filterMap_snoc _ log e
  have leaving : pumpedOf (log ++ [e]) = pumpedOf log ++ e.leaving.toList := filterMap_snoc _ log e
  have chosen : selectedOf (log ++ [e]) = selectedOf log ++ e.chosen.toList :=
    filterMap_snoc _ log e
  rcases specStep_queue run with ⟨rfl, same⟩ | ⟨m, rfl, longer⟩ | ⟨m, taken, whole⟩ |
    ⟨m, before, after, rfl, whole, rest⟩
  · change _ = _ ++ [] at entering leaving chosen
    rw [List.append_nil] at entering leaving chosen
    constructor
    · rw [entering, leaving, chosen, same]
      exact all
    · rw [entering, leaving, same]
      exact order
  · change _ = _ ++ [] at leaving chosen
    rw [List.append_nil] at leaving chosen
    constructor
    · rw [entering, leaving, chosen, longer, ← List.append_assoc]
      exact all.append_right [m]
    · rw [entering, leaving, longer, ← List.append_assoc]
      exact order.append (List.Sublist.refl [m])
  · have out : e.entering = none ∧ e.leaving = some m ∧ e.chosen = none := by
      rcases taken with ⟨rfl, _⟩ | rfl
      · exact ⟨rfl, rfl, rfl⟩
      · exact ⟨rfl, rfl, rfl⟩
    rw [out.1, Option.toList_none, List.append_nil] at entering
    rw [out.2.1, Option.toList_some] at leaving
    rw [out.2.2, Option.toList_none, List.append_nil] at chosen
    rw [whole] at all order
    constructor
    · rw [entering, leaving, chosen]
      refine all.trans ?_
      rw [List.append_assoc, List.append_assoc, List.append_assoc]
      exact List.Perm.append_left _ List.perm_middle
    · rw [entering, leaving, List.append_assoc]
      exact order
  · change _ = _ ++ [] at entering leaving
    rw [List.append_nil] at entering leaving
    rw [whole] at all order
    constructor
    · rw [entering, leaving, chosen, rest]
      refine all.trans ?_
      rw [List.append_assoc, List.append_assoc, List.append_assoc]
      exact List.Perm.append_left _ (List.Perm.append_left _ List.perm_middle)
    · rw [entering, leaving, rest]
      refine List.Sublist.trans ?_ order
      refine List.Sublist.append_left ?_ _
      exact List.Sublist.append_left (List.sublist_cons_self m after) before

def Spec.reset : Spec := ⟨[], freshCtx⟩

theorem reset_wf (cells : Nat → Msg) : (reset cells).mq.Wf mqMax :=
  ⟨Nat.zero_lt_succ 8191, Nat.zero_lt_succ 8191⟩

theorem reset_spec (cells : Nat → Msg) : (reset cells).spec = Spec.reset := by
  unfold State.spec
  rw [(reset_wf cells).empty_iff.mp rfl]
  rfl

theorem reset_inv (cells : Nat → Msg) : Inv (reset cells) := by
  refine ⟨reset_wf cells, fun m listed => ?_⟩
  rw [reset_spec] at listed
  exact (List.not_mem_nil listed).elim

structure Tracks (cells : Nat → Msg) (x : State × List Event) : Prop where
  inv : Inv x.1
  spec : Runs (logged specStep) (fun _ _ => True) (Spec.reset, []) (x.1.spec, x.2)
  accounts : Accounts x.1.spec.queue x.2

theorem tracks_step {cells : Nat → Msg} {x y : State × List Event} {op : Op}
    (tracks : Tracks cells x) (fits : Fits x.1 op) (run : logged step x op = some y) :
    Tracks cells y := by
  obtain ⟨⟨s', e⟩, next, rfl⟩ := Option.map_eq_some_iff.mp run
  obtain ⟨spec, inv⟩ := step_refines tracks.inv fits next
  refine ⟨inv, ?_, tracks.accounts.step spec⟩
  have spec' : logged specStep (x.1.spec, x.2) op = some (s'.spec, x.2 ++ [e]) := by
    unfold logged
    rw [spec]
    rfl
  exact tracks.spec.snoc trivial spec'

end Runs

/-- In every run whose receivers fit, the buffer is a list that does the same: each message
for a live actor enters once and leaves once, by the pump in order or by a select, or is
still there; and the next message that the pump delivers is the first one, to a live actor. -/
theorem runs_refine_list {cells : Nat → Msg} {s : State} {log : List Event}
    (run : Runs (logged step) (fun x op => Fits x.1 op) (reset cells, []) (s, log)) :
    Runs (logged specStep) (fun _ _ => True) (Spec.reset, []) (s.spec, log) ∧
      (acceptedOf log).Perm (pumpedOf log ++ selectedOf log ++ s.spec.queue) ∧
      (pumpedOf log ++ s.spec.queue).Sublist (acceptedOf log) ∧
      s.spec.queue.length ≤ 8191 ∧
      ∀ tick s' m, step s (.next tick) = some (s', .delivered m) →
        s.spec.queue = m :: s'.spec.queue ∧ LiveAt s.ctx.alive m.dst := by
  have tracks : Tracks cells (s, log) := by
    apply Runs.invariant (I := Tracks cells) run
    · refine ⟨reset_inv cells, ?_, ?_⟩
      · rw [reset_spec]
        exact Runs.refl _
      · rw [reset_spec]
        exact ⟨List.Perm.refl _, List.Sublist.refl _⟩
    · intro x op y before fits next
      exact tracks_step before fits next
  refine ⟨tracks.spec, tracks.accounts.all, tracks.accounts.order, ?_, ?_⟩
  · have below := tracks.inv.wf.count_lt
    rw [← RingBuf.length_contents] at below
    change s.spec.queue.length < 8192 at below
    omega
  · intro tick s' m next
    obtain ⟨spec, _⟩ := next_refines tracks.inv next
    rcases specStep_queue spec with ⟨quiet, _⟩ | ⟨_, accepted, _⟩ | ⟨m', taken, whole⟩ |
      ⟨_, _, _, selected, _⟩
    · cases quiet
    · cases accepted
    · rcases taken with ⟨delivered, live⟩ | discarded
      · cases delivered
        exact ⟨whole, live⟩
      · cases discarded
    · cases selected

def blank : Msg := ⟨0, 0, 0, 0, 0, 0, 0⟩

def after (x : State × List Event) (op : Op) : State × List Event := (logged step x op).getD x

def started : State × List Event := (reset fun _ => blank, [])

def born : State × List Event := after started (.setAlive 3 true)

/-- Message 7 for `dst` is queued at top level, and the pump is called. -/
def asked (dst : Int) : State × List Event := after born (.enqueue dst 7 0 0 0 0)

def pumped (dst : Int) : State × List Event := after (asked dst) .pump

def handled (dst : Int) : State × List Event := after (pumped dst) (.next true)

theorem runs_refine_list_one_message :
    (acceptedOf (handled 3).2).Perm
        (pumpedOf (handled 3).2 ++ selectedOf (handled 3).2 ++ (handled 3).1.spec.queue) ∧
      (handled 3).2 = [.quiet, .accepted ⟨3, 7, 0, 0, 0, 0, -1⟩, .quiet,
        .delivered ⟨3, 7, 0, 0, 0, 0, -1⟩] := by
  have start : Runs (logged step) (fun x op => Fits x.1 op) started started := Runs.refl _
  have birth : Fits started.1 (.setAlive 3 true) := trivial
  have send : Fits born.1 (.enqueue 3 7 0 0 0 0) := fun _ _ => by decide
  have call : Fits (asked 3).1 .pump := trivial
  have round : Fits (pumped 3).1 (.next true) := trivial
  have first : Runs (logged step) (fun x op => Fits x.1 op) started born := start.snoc birth rfl
  have second : Runs (logged step) (fun x op => Fits x.1 op) started (asked 3) :=
    first.snoc send rfl
  have third : Runs (logged step) (fun x op => Fits x.1 op) started (pumped 3) :=
    second.snoc call rfl
  have run : Runs (logged step) (fun x op => Fits x.1 op) started (handled 3) :=
    third.snoc round rfl
  exact ⟨(runs_refine_list run).2.1, by decide⟩

/-- The low half of a receiver names actor 3: its message is queued, and it is delivered to
an actor that does not exist. -/
theorem far_receiver_delivered :
    ∃ x, Runs (logged step) (fun _ _ => True) started x ∧
      .delivered ⟨4294967299, 7, 0, 0, 0, 0, -1⟩ ∈ x.2 ∧
      ¬ LiveAt (pumped 4294967299).1.ctx.alive 4294967299 := by
  have start : Runs (logged step) (fun _ _ => True) started started := Runs.refl _
  have first := start.snoc trivial (show logged step started (.setAlive 3 true) = some born from rfl)
  have second := first.snoc trivial (show logged step born (.enqueue 4294967299 7 0 0 0 0) =
    some (asked 4294967299) from rfl)
  have third := second.snoc trivial
    (show logged step (asked 4294967299) .pump = some (pumped 4294967299) from rfl)
  have last := third.snoc trivial
    (show logged step (pumped 4294967299) (.next true) = some (handled 4294967299) from rfl)
  exact ⟨handled 4294967299, last, by decide, by decide⟩

end XinuRpi5.Cc.ActorQueue
