/- source: cc/cc.c
   digest: Nested now calls, and when each of them gives back the context that it found. -/

import XinuRpi5.Cc.Runtime

/-!
A run is the sequence of its `now` calls, of the messages that `cc_pump` delivers, and of what
the handlers do between them, in any proper nesting. What a call, a pump or a delivery finds is
kept with it. `cc_call` and `cc_future` run a handler in the context of their caller, so what it
does stands in the sequence itself.
-/

namespace XinuRpi5.Cc.NowContext

open Lib.GuardedRuns Cc.Runtime

section Calls

/-- The current reply slot, the slots in use, the sender and the current actor. -/
structure Context where
  rcur : Option (Fin 32)
  used : Fin 32 → Bool
  sender : Int
  cur : Int

def Context.inUse (v : Context) : Nat := (List.finRange 32).countP v.used

def contextOf (m : Machine) : Context where
  rcur := m.slots.rcur
  used i := (m.slots.rslot i).used
  sender := m.st.sender
  cur := m.st.cur

structure Scene where
  context : Context
  rstack : List (Option (Fin 32))
  sstack : List (Int × Int)

def sceneOf (m : Machine) : Scene := ⟨contextOf m, m.slots.rstack.items, m.st.sstack.items⟩

/-- What is not finished: a `now` call whose handler runs, one that waits in `cc_now_pop`, a
`cc_pump`, and the delivery of a message. -/
inductive Activity where
  | handling (slot : Option (Fin 32))
  | waiting (slot : Fin 32) (r : Int) (rounds : Nat)
  | pump
  | delivery (src dst : Int)

structure Frame where
  activity : Activity
  before : Scene

structure State where
  m : Machine
  frames : List Frame

/-- What a handler does, and the steps of `cc_now_pop` and `cc_pump`. -/
inductive Op where
  | nowPush
  | nowPop (r : Int)
  | poll
  | pumpNow
  | deliver (src dst : Int)
  | delivered
  | pumped
  | replyto
  | answer (r v : Int)
  | prim (a : Prim)

def runs (frames : List Frame) : Bool :=
  match frames with
  | [] => true
  | f :: _ => match f.activity with
    | .handling _ | .delivery _ _ => true
    | .waiting _ _ _ | .pump => false

/-- `cc_now_pop` up to its loop. -/
def nowPop (m : Machine) (f : Frame) (rest : List Frame) (r : Int) : State :=
  match m.slots.rcur with
  | none => ⟨⟨popSender m.st, popSlot m.slots⟩, rest⟩
  | some i =>
    if (m.slots.rslot i).taken then
      ⟨⟨popSender m.st, popSlot m.slots⟩, { f with activity := .waiting i r 64 } :: rest⟩
    else ⟨⟨popSender m.st, rslotFree (popSlot m.slots) i⟩, rest⟩

/-- A test of the loop of `cc_now_pop`, and what follows its end. -/
def poll (m : Machine) (f : Frame) (slot : Fin 32) (r : Int) (rounds : Nat)
    (rest : List Frame) : State :=
  if 0 < rounds ∧ (m.slots.rslot slot).filled = false then
    ⟨m, ⟨.pump, sceneOf m⟩ :: { f with activity := .waiting slot r (rounds - 1) } :: rest⟩
  else if (m.slots.rslot slot).filled then ⟨{ m with slots := rslotFree m.slots slot }, rest⟩
  else ⟨⟨emit m.st (utf8 noAnswer), rslotFree m.slots slot⟩, rest⟩

variable (env : Env)

def step (s : State) : Op → Option State
  | .nowPush =>
    if runs s.frames then
      some ⟨⟨pushSender s.m.st, pushSlot s.m.slots⟩,
        ⟨.handling (rslotAlloc s.m.slots.rslot), sceneOf s.m⟩ :: s.frames⟩
    else none
  | .nowPop r =>
    match s.frames with
    | f :: rest => match f.activity with
      | .handling _ => some (nowPop s.m f rest r)
      | _ => none
    | [] => none
  | .poll =>
    match s.frames with
    | f :: rest => match f.activity with
      | .waiting slot r rounds => some (poll s.m f slot r rounds rest)
      | _ => none
    | [] => none
  | .pumpNow => if runs s.frames then some ⟨s.m, ⟨.pump, sceneOf s.m⟩ :: s.frames⟩ else none
  | .deliver src dst =>
    match s.frames with
    | f :: _ => match f.activity with
      | .pump => some ⟨{ s.m with st := { s.m.st with sender := src, cur := dst } },
          ⟨.delivery src dst, sceneOf s.m⟩ :: s.frames⟩
      | _ => none
    | [] => none
  | .delivered =>
    match s.frames with
    | f :: rest => match f.activity with
      | .delivery _ _ =>
        some ⟨{ s.m with st :=
          { s.m.st with sender := f.before.context.sender, cur := f.before.context.cur } }, rest⟩
      | _ => none
    | [] => none
  | .pumped =>
    match s.frames with
    | f :: rest => match f.activity with
      | .pump => some ⟨s.m, rest⟩
      | _ => none
    | [] => none
  | .replyto =>
    if runs s.frames then some { s with m.slots := (replyto s.m.slots).1 } else none
  | .answer r v => if runs s.frames then some { s with m := answer s.m r v } else none
  | .prim a => if runs s.frames then some { s with m.st := (prim env s.m.st a).1 } else none

def Room (s : State) : Op → Prop
  | .nowPush => s.m.slots.rstack.items.length < 16 ∧ s.m.st.sstack.items.length < 16
  | _ => True

instance (s : State) (op : Op) : Decidable (Room s op) := by
  cases op <;> unfold Room <;> infer_instance

end Calls

section Levels

def inside (v : Scene) : Activity → Scene
  | .handling slot =>
    { context := { v.context with
        rcur := slot
        used := fun i => v.context.used i || decide (slot = some i)
        sender := v.context.cur }
      rstack := v.context.rcur :: v.rstack
      sstack := (v.context.sender, v.context.cur) :: v.sstack }
  | .waiting slot _ _ =>
    { v with context.used := fun i => v.context.used i || decide (slot = i) }
  | .pump => v
  | .delivery src dst => { v with context.sender := src, context.cur := dst }

def Free (v : Scene) : Activity → Prop
  | .handling slot => ∀ i, slot = some i → v.context.used i = false
  | .waiting slot _ _ => v.context.used slot = false
  | .pump | .delivery _ _ => True

/-- Each activity stands in what the one below it makes, and the first one in `base`. -/
def Level (base : Scene) : List Frame → Scene → Prop
  | [], v => v = base
  | f :: rest, v =>
    v = inside f.before f.activity ∧ Free f.before f.activity ∧ Level base rest f.before

variable {env : Env} {base : Scene} {m : Machine} {s s' : State}

variable {v : Scene} {f : Frame} {rest : List Frame}

theorem Level.scene_eq {frames : List Frame} {w : Scene} (first : Level base frames v)
    (second : Level base frames w) : v = w := by
  cases frames with
  | nil => exact first.trans second.symm
  | cons f rest => exact first.1.trans second.1.symm

theorem alloc_free {rslot : Fin 32 → RSlot} {i : Fin 32} (found : rslotAlloc rslot = some i) :
    (rslot i).used = false := by
  have passes := List.find?_some found
  simpa using passes

theorem push_items {α : Type} {st : Stack α} (room : st.items.length < 16) (a : α) :
    (st.push a).items = a :: st.items := by
  unfold Stack.push
  rw [dif_pos room]

theorem push_scene (rroom : m.slots.rstack.items.length < 16)
    (sroom : m.st.sstack.items.length < 16) :
    sceneOf ⟨pushSender m.st, pushSlot m.slots⟩ =
      inside (sceneOf m) (.handling (rslotAlloc m.slots.rslot)) := by
  have used : (fun i => ((pushSlot m.slots).rslot i).used) = fun i =>
      (m.slots.rslot i).used || decide (rslotAlloc m.slots.rslot = some i) := by
    funext i
    unfold pushSlot
    cases rslotAlloc m.slots.rslot with
    | none => simp
    | some j =>
      by_cases here : i = j
      · simp [here]
      · simp [Function.update_of_ne here, Ne.symm here]
  have rpushed : (pushSlot m.slots).rstack.items = m.slots.rcur :: m.slots.rstack.items :=
    push_items rroom _
  have spushed : (pushSender m.st).sstack.items = (m.st.sender, m.st.cur) :: m.st.sstack.items :=
    push_items sroom _
  unfold sceneOf contextOf inside
  rw [used, rpushed, spushed]
  rfl

theorem pop_scene {slot : Option (Fin 32)} (level : sceneOf m = inside v (.handling slot)) :
    sceneOf ⟨popSender m.st, popSlot m.slots⟩ =
      { v with context.used := fun i => v.context.used i || decide (slot = some i) } := by
  have rstack : m.slots.rstack.items = v.context.rcur :: v.rstack := congrArg Scene.rstack level
  have sstack : m.st.sstack.items = (v.context.sender, v.context.cur) :: v.sstack :=
    congrArg Scene.sstack level
  have used : (fun i => (m.slots.rslot i).used) =
      fun i => v.context.used i || decide (slot = some i) :=
    congrArg (fun w => w.context.used) level
  have popped : sceneOf ⟨popSender m.st, popSlot m.slots⟩ =
      ⟨⟨m.slots.rstack.items.headD none, fun i => (m.slots.rslot i).used,
        (m.st.sstack.items.headD (m.st.sender, m.st.cur)).1,
        (m.st.sstack.items.headD (m.st.sender, m.st.cur)).2⟩,
        m.slots.rstack.items.tail, m.st.sstack.items.tail⟩ := rfl
  rw [popped, rstack, sstack, used]
  rfl

theorem free_scene {i : Fin 32} (free : v.context.used i = false) {x : Slots}
    {st : Runtime.State}
    (level : sceneOf ⟨st, x⟩ =
      { v with context.used := fun j => v.context.used j || decide (i = j) }) :
    sceneOf ⟨st, rslotFree x i⟩ = v := by
  have used : (fun j => (x.rslot j).used) = fun j => v.context.used j || decide (i = j) :=
    congrArg (fun w => w.context.used) level
  have freed : (fun j => ((rslotFree x i).rslot j).used) = v.context.used := by
    funext j
    unfold rslotFree
    by_cases here : j = i
    · simp [here, free]
    · have same := congrFun used j
      simp only [Ne.symm here, decide_false, Bool.or_false] at same
      simp only [Function.update_of_ne here]
      exact same
  have outer : sceneOf ⟨st, rslotFree x i⟩ =
      { sceneOf ⟨st, x⟩ with context.used := fun j => ((rslotFree x i).rslot j).used } := rfl
  rw [outer, freed, level]

structure Stays (s t : Runtime.State) : Prop where
  sender : t.sender = s.sender
  cur : t.cur = s.cur
  sstack : t.sstack = s.sstack

theorem Stays.scene {st : Runtime.State} (stays : Stays m.st st) :
    sceneOf { m with st := st } = sceneOf m := by
  unfold sceneOf contextOf
  rw [stays.sender, stays.cur, stays.sstack]

theorem Stays.of_aside {s t : Runtime.State} (aside : Aside s t) : Stays s t :=
  ⟨aside.sender, aside.cur, aside.sstack⟩

theorem used_update (rslot : Fin 32 → RSlot) (i : Fin 32) (slot : RSlot)
    (same : slot.used = (rslot i).used) :
    (fun j => (Function.update rslot i slot j).used) = fun j => (rslot j).used := by
  ext j
  by_cases here : j = i
  · rw [here, Function.update_self, same]
  · rw [Function.update_of_ne here]

theorem replyto_scene : sceneOf { m with slots := (replyto m.slots).1 } = sceneOf m := by
  unfold replyto
  cases slot : m.slots.rcur with
  | none => rfl
  | some i =>
    unfold sceneOf contextOf
    dsimp only
    rw [used_update m.slots.rslot i { m.slots.rslot i with taken := true } rfl, slot]

theorem answer_scene (r v : Int) : sceneOf (answer m r v) = sceneOf m := by
  unfold answer
  split
  · exact (Stays.of_aside (emit_aside m.st _)).scene
  · rename_i i _
    split_ifs
    · exact (Stays.of_aside (emit_aside m.st _)).scene
    · exact (Stays.of_aside (emit_aside m.st _)).scene
    · unfold sceneOf contextOf
      dsimp only
      rw [used_update m.slots.rslot i { m.slots.rslot i with filled := true, val := v } rfl]

theorem nowPop_level {slot : Option (Fin 32)} {r : Int}
    (top : f.activity = .handling slot) (level : Level base (f :: rest) (sceneOf m)) :
    Level base (nowPop m f rest r).frames (sceneOf (nowPop m f rest r).m) := by
  obtain ⟨here, free, below⟩ := level
  rw [top] at here free
  have popped := pop_scene here
  have current : m.slots.rcur = slot := congrArg (fun w => w.context.rcur) here
  unfold nowPop
  rw [current]
  cases slot with
  | none =>
    have same : sceneOf ⟨popSender m.st, popSlot m.slots⟩ = f.before := by
      rw [popped]
      simp
    dsimp only
    rw [same]
    exact below
  | some i =>
    have waits : sceneOf ⟨popSender m.st, popSlot m.slots⟩ =
        { f.before with
          context.used := fun j => f.before.context.used j || decide (i = j) } := by
      rw [popped]
      simp
    dsimp only
    split_ifs
    · exact ⟨waits, free i rfl, below⟩
    · dsimp only
      rw [free_scene (free i rfl) waits]
      exact below

theorem poll_level {slot : Fin 32} {r : Int} {rounds : Nat}
    (top : f.activity = .waiting slot r rounds) (level : Level base (f :: rest) (sceneOf m)) :
    Level base (poll m f slot r rounds rest).frames (sceneOf (poll m f slot r rounds rest).m) := by
  obtain ⟨here, free, below⟩ := level
  rw [top] at here free
  unfold poll
  split_ifs
  · exact ⟨rfl, trivial, here, free, below⟩
  · dsimp only
    rw [free_scene free here]
    exact below
  · dsimp only
    rw [free_scene free ((Stays.of_aside (emit_aside m.st _)).scene.trans here)]
    exact below

theorem delivered_scene {src dst : Int} (here : sceneOf m = inside v (.delivery src dst)) :
    sceneOf { m with st := { m.st with sender := v.context.sender, cur := v.context.cur } } = v := by
  have outer : sceneOf { m with st := { m.st with
      sender := v.context.sender, cur := v.context.cur } } =
      { sceneOf m with context.sender := v.context.sender, context.cur := v.context.cur } := rfl
  rw [outer, here]
  rfl

theorem delivered_level {src dst : Int}
    (top : f.activity = .delivery src dst) (level : Level base (f :: rest) (sceneOf m)) :
    Level base rest (sceneOf { m with st :=
      { m.st with sender := f.before.context.sender, cur := f.before.context.cur } }) := by
  obtain ⟨here, -, below⟩ := level
  rw [top] at here
  rw [delivered_scene here]
  exact below

theorem pumped_level (top : f.activity = .pump)
    (level : Level base (f :: rest) (sceneOf m)) : Level base rest (sceneOf m) := by
  obtain ⟨here, -, below⟩ := level
  rw [top] at here
  rw [here]
  exact below

theorem of_runs {after : State} (goes : (if runs s.frames then some after else none) = some s') :
    s' = after := by
  split at goes
  · exact (Option.some.inj goes).symm
  · cases goes

theorem step_level {op : Op} (level : Level base s.frames (sceneOf s.m)) (room : Room s op)
    (goes : step env s op = some s') : Level base s'.frames (sceneOf s'.m) := by
  cases op with
  | nowPush =>
    obtain rfl := of_runs goes
    exact ⟨push_scene room.1 room.2, fun i => alloc_free, level⟩
  | nowPop r =>
    simp only [step] at goes
    split at goes
    · rename_i f rest frames
      split at goes
      · rename_i slot top
        obtain rfl := Option.some.inj goes
        rw [frames] at level
        exact nowPop_level top level
      · cases goes
    · cases goes
  | poll =>
    simp only [step] at goes
    split at goes
    · rename_i f rest frames
      split at goes
      · rename_i slot r rounds top
        obtain rfl := Option.some.inj goes
        rw [frames] at level
        exact poll_level top level
      · cases goes
    · cases goes
  | pumpNow =>
    obtain rfl := of_runs goes
    exact ⟨rfl, trivial, level⟩
  | deliver src dst =>
    simp only [step] at goes
    split at goes
    · split at goes
      · obtain rfl := Option.some.inj goes
        exact ⟨rfl, trivial, level⟩
      · cases goes
    · cases goes
  | delivered =>
    simp only [step] at goes
    split at goes
    · rename_i f rest frames
      split at goes
      · rename_i src dst top
        obtain rfl := Option.some.inj goes
        rw [frames] at level
        exact delivered_level top level
      · cases goes
    · cases goes
  | pumped =>
    simp only [step] at goes
    split at goes
    · rename_i f rest frames
      split at goes
      · rename_i top
        obtain rfl := Option.some.inj goes
        rw [frames] at level
        exact pumped_level top level
      · cases goes
    · cases goes
  | replyto =>
    obtain rfl := of_runs goes
    dsimp only
    rw [replyto_scene]
    exact level
  | answer r v =>
    obtain rfl := of_runs goes
    dsimp only
    rw [answer_scene]
    exact level
  | prim a =>
    obtain rfl := of_runs goes
    dsimp only
    rw [(Stays.of_aside (prim_aside s.m.st a)).scene]
    exact level

theorem run_level (run : Runs (step env) Room ⟨m, []⟩ s) :
    Level (sceneOf m) s.frames (sceneOf s.m) := by
  have start : Level (sceneOf m) [] (sceneOf m) := rfl
  induction run with
  | refl => exact start
  | tail _ next ih =>
    obtain ⟨op, room, goes⟩ := next
    exact step_level ih room goes

end Levels

section Restored

variable {env : Env} {m : Machine} {s s₁ s₂ s₃ : State} {op : Op}

/-- In every run in which each call starts with room on the save stacks, a call that is over
has given back the reply slot, the sender, the current actor and the slots in use. -/
theorem now_restores_context (run : Runs (step env) Room ⟨m, []⟩ s) (room : Room s .nowPush)
    (push : step env s .nowPush = some s₁) (handled : Runs (step env) Room s₁ s₂)
    (meets : Room s₂ op) (pop : step env s₂ op = some s₃) (matching : s₃.frames = s.frames) :
    contextOf s₃.m = contextOf s.m ∧ (contextOf s₃.m).inUse = (contextOf s.m).inUse := by
  have whole : Runs (step env) Room ⟨m, []⟩ s₃ :=
    ((run.snoc room push).trans handled).snoc meets pop
  have after := run_level whole
  rw [matching] at after
  have same : contextOf s₃.m = contextOf s.m :=
    congrArg Scene.context (after.scene_eq (run_level run))
  exact ⟨same, congrArg Context.inUse same⟩

def quiet : Env := ⟨fun _ => 0, 1000, fun _ => 0⟩

theorem now_restores_context_answered : ∃ s₁ s₂ s₃ : State,
    step quiet ⟨boot, []⟩ .nowPush = some s₁ ∧ step quiet s₂ .poll = some s₃ ∧
    contextOf s₃.m = contextOf boot := by
  obtain ⟨s₁, s₂, push, goes, pop⟩ : ∃ s₁ s₂, step quiet ⟨boot, []⟩ .nowPush = some s₁ ∧
      [Op.replyto, .nowPop 1, .poll, .deliver 5 6, .answer 1 7, .delivered, .pumped].foldlM
        (fun s op => if decide (Room s op) then step quiet s op else none) s₁ = some s₂ ∧
      ∃ s₃, step quiet s₂ .poll = some s₃ ∧ s₃.frames = [] := ⟨_, _, rfl, rfl, _, rfl, rfl⟩
  obtain ⟨s₃, last, matching⟩ := pop
  have handled : Runs (step quiet) Room s₁ s₂ :=
    Runs.of_checked _ (fun _ _ meets => of_decide_eq_true meets) _ goes
  have meets : Room s₂ .poll := trivial
  exact ⟨s₁, s₂, s₃, push, last,
    (now_restores_context (Runs.refl _) (by decide) push handled meets last matching).1⟩

/-- The seventeenth call in the others gives back the slot of the fifteenth. -/
theorem now_loses_context : ∃ s s₁ s₃ : State,
    Runs (step quiet) (fun _ _ => True) ⟨boot, []⟩ s ∧ step quiet s .nowPush = some s₁ ∧
    step quiet s₁ (.nowPop 1) = some s₃ ∧ s₃.frames = s.frames ∧
    contextOf s₃.m ≠ contextOf s.m := by
  obtain ⟨s, deep, s₁, s₃, push, pop, matching, wrong⟩ : ∃ s,
      (List.replicate 16 Op.nowPush).foldlM (step quiet) ⟨boot, []⟩ = some s ∧ ∃ s₁ s₃,
      step quiet s .nowPush = some s₁ ∧ step quiet s₁ (.nowPop 1) = some s₃ ∧
      s₃.frames = s.frames ∧ s₃.m.slots.rcur = some 14 ∧ s.m.slots.rcur = some 15 :=
    ⟨_, rfl, _, _, rfl, rfl, rfl, rfl, rfl⟩
  refine ⟨s, s₁, s₃, Runs.of_steps _ (fun _ _ _ => trivial) deep, push, pop, matching, ?_⟩
  intro same
  have slots : s₃.m.slots.rcur = s.m.slots.rcur := congrArg Context.rcur same
  rw [wrong.1, wrong.2] at slots
  cases slots

end Restored

end XinuRpi5.Cc.NowContext
