/- source: cc/cc.c
   digest: Runs of cc_future and cc_await over the table of eight futures. -/

import XinuRpi5.Cc.Runtime
import XinuRpi5.Lib.SlotTable

/-!
A method that `cc_future` starts may itself start futures and await them before it returns, so
the futures whose method runs are a stack. Without a dispatcher the method is one that returns
`v_int(0)` at once.
-/

namespace XinuRpi5.Cc.Futures

open ActorQueue (asInt LiveAt)
open SelectRuns (vInt vIntOf)
open Cc.Runtime Lib.SlotTable

/-- `g_fut[].used`. -/
def usedOf (fut : Fin 8 → Fut) (i : Fin 8) : Bool := (fut i).used

/-- `fut_get` on the handle. -/
def futGet (fut : Fin 8 → Fut) (h : Int) : Int :=
  (index 8 h).elim (vInt 0) fun i => if (fut i).used then (fut i).val else vInt 0

/-- A future whose method runs, with its number among the calls of `cc_future`. -/
structure Frame where
  id : Nat
  slot : Fin 8

/-- A method was started for a future, or there was no place for it; its method returned, and
`cc_future` with the handle; a handle was awaited. -/
inductive Event where
  | started (id : Nat)
  | refused (id : Nat)
  | returned (id : Nat) (v handle : Int)
  | awaited (handle v : Int)
  deriving DecidableEq

/-- `g_fut`, the running futures with the innermost first, what happened, and how often
`cc_future` was called. -/
structure State where
  fut : Fin 8 → Fut
  frames : List Frame
  log : List Event
  calls : Nat

/-- What the program does: the head of `cc_future`, its end when the method has returned, and the
two forms of `await`. -/
inductive Op where
  | future
  | returns (v : Int)
  | await (h : Int)
  | awaitDl (h ms elsev : Int)
  deriving DecidableEq

def ccFuture (s : State) : State :=
  match firstFree (usedOf s.fut) with
  | none => { s with log := s.log ++ [.refused s.calls], calls := s.calls + 1 }
  | some i =>
    { fut := Function.update s.fut i { s.fut i with used := true }
      frames := ⟨s.calls, i⟩ :: s.frames
      log := s.log ++ [.started s.calls]
      calls := s.calls + 1 }

def returnOf (s : State) (v : Int) : State :=
  match s.frames with
  | [] => s
  | f :: rest =>
    { s with
      fut := Function.update s.fut f.slot { s.fut f.slot with val := v }
      frames := rest
      log := s.log ++ [.returned f.id v (vInt (f.slot : Nat))] }

def ccAwait (s : State) (h : Int) : State :=
  { s with log := s.log ++ [.awaited h (futGet s.fut h)] }

def step (s : State) : Op → State
  | .future => ccFuture s
  | .returns v => returnOf s v
  | .await h => ccAwait s h
  -- the value is there already, so no deadline passes
  | .awaitDl h _ _ => ccAwait s h

def play (fut : Fin 8 → Fut) (ops : List Op) : State := ops.foldl step ⟨fut, [], [], 0⟩

def waiting (log : List Event) : List Int :=
  log.foldl (fun open' e => match e with
    | .returned _ _ h => open' ++ [h]
    | .awaited h _ => open'.filter (· ≠ h)
    | .started _ | .refused _ => open') []

def unawaited (s : State) : Nat := s.frames.length + (waiting s.log).length

def startOf : Event → Option Nat
  | .started id => some id
  | .refused _ | .returned _ _ _ | .awaited _ _ => none

/-- An await of a handle behind the return that gave it has the value of that return. -/
def Agree : Event → Event → Prop
  | .returned _ v h, .awaited h' w => h = h' → w = v
  | _, _ => True

/-- Every call of `cc_future` succeeded and started its method once, and every await of its
handle gave the value of its own method. -/
structure Kept (s : State) : Prop where
  succeeded : ∀ id, Event.refused id ∉ s.log
  once : s.log.filterMap startOf = List.range s.calls
  own : s.log.Pairwise Agree

section Runs

variable {s : State} {fut : Fin 8 → Fut} {i : Fin 8} {v h : Int}

theorem index_handle (i : Fin 8) : index 8 (vInt (i : Nat)) = some i := by
  revert i
  decide

theorem futGet_handle (used : (fut i).used = true) : futGet fut (vInt (i : Nat)) = (fut i).val := by
  rw [futGet, index_handle]
  exact if_pos used

theorem usedOf_take (fut : Fin 8 → Fut) (i : Fin 8) :
    usedOf (Function.update fut i { fut i with used := true }) =
      Function.update (usedOf fut) i true := by
  funext j
  unfold usedOf
  by_cases here : j = i
  · rw [here, Function.update_self, Function.update_self]
  · rw [Function.update_of_ne here, Function.update_of_ne here]

theorem usedOf_store (fut : Fin 8 → Fut) (i : Fin 8) (v : Int) :
    usedOf (Function.update fut i { fut i with val := v }) = usedOf fut := by
  funext j
  unfold usedOf
  by_cases here : j = i
  · rw [here, Function.update_self]
  · rw [Function.update_of_ne here]

/-- While every call found a place: the places of the running futures and of those that have
returned are different ones, and a returned future keeps its value. -/
structure Sound (s : State) : Prop extends Kept s where
  running : ∀ f ∈ s.frames, (s.fut f.slot).used = true
  nodup : (s.frames.map Frame.slot).Nodup
  holds : ∀ id w h, Event.returned id w h ∈ s.log → ∃ i : Fin 8, h = vInt (i : Nat) ∧
    (s.fut i).used = true ∧ (s.fut i).val = w ∧ i ∉ s.frames.map Frame.slot

theorem Sound.future (sound : Sound s) (found : firstFree (usedOf s.fut) = some i) :
    Sound (ccFuture s) := by
  have unused : (s.fut i).used = false := firstFree_some found
  have other : ∀ {j}, (s.fut j).used = true → j ≠ i := by
    rintro j used rfl
    rw [unused] at used
    cases used
  have keeps : ∀ {j}, (s.fut j).used = true →
      Function.update s.fut i { s.fut i with used := true } j = s.fut j :=
    fun used => Function.update_of_ne (other used) ..
  have apart : i ∉ s.frames.map Frame.slot := by
    intro listed
    obtain ⟨f, member, rfl⟩ := List.mem_map.mp listed
    exact other (sound.running f member) rfl
  unfold ccFuture
  rw [found]
  refine { succeeded := ?_, once := ?_, own := ?_, running := ?_, nodup := ?_, holds := ?_ }
  · intro id listed
    rcases List.mem_append.mp listed with old | new
    · exact sound.succeeded id old
    · cases List.mem_singleton.mp new
  · rw [List.filterMap_append, sound.once, List.range_succ]
    rfl
  · refine List.pairwise_append.mpr ⟨sound.own, List.pairwise_singleton _ _, ?_⟩
    intro e _ e' last
    rw [List.mem_singleton.mp last]
    cases e <;> trivial
  · intro f listed
    rcases List.mem_cons.mp listed with rfl | old
    · change (Function.update s.fut i { s.fut i with used := true } i).used = true
      rw [Function.update_self]
    · have used := sound.running f old
      exact (congrArg Fut.used (keeps used)).trans used
  · exact List.nodup_cons.mpr ⟨apart, sound.nodup⟩
  · intro id w h listed
    rcases List.mem_append.mp listed with old | new
    · obtain ⟨j, handle, used, value, away⟩ := sound.holds id w h old
      refine ⟨j, handle, ?_, ?_, ?_⟩
      · exact (congrArg Fut.used (keeps used)).trans used
      · exact (congrArg Fut.val (keeps used)).trans value
      · rintro (_ | ⟨_, late⟩)
        · exact other used rfl
        · exact away late
    · cases List.mem_singleton.mp new

theorem Sound.returns (sound : Sound s) (v : Int) : Sound (returnOf s v) := by
  unfold returnOf
  cases frames : s.frames with
  | nil => exact sound
  | cons f rest =>
    have running : (s.fut f.slot).used = true :=
      sound.running f (frames ▸ List.mem_cons_self)
    have nodup : f.slot ∉ rest.map Frame.slot ∧ (rest.map Frame.slot).Nodup :=
      List.nodup_cons.mp (by simpa only [frames, List.map_cons] using sound.nodup)
    have usedOf_same := usedOf_store s.fut f.slot v
    refine { succeeded := ?_, once := ?_, own := ?_, running := ?_, nodup := nodup.2, holds := ?_ }
    · intro id listed
      rcases List.mem_append.mp listed with old | new
      · exact sound.succeeded id old
      · cases List.mem_singleton.mp new
    · rw [List.filterMap_append, sound.once]
      exact List.append_nil _
    · refine List.pairwise_append.mpr ⟨sound.own, List.pairwise_singleton _ _, ?_⟩
      intro e _ e' last
      rw [List.mem_singleton.mp last]
      cases e <;> trivial
    · intro g listed
      have used := sound.running g (frames ▸ List.mem_cons_of_mem _ listed)
      exact (congrFun usedOf_same g.slot).trans used
    · intro id w h listed
      rcases List.mem_append.mp listed with old | new
      · obtain ⟨j, handle, used, value, away⟩ := sound.holds id w h old
        rw [frames, List.map_cons, List.mem_cons, not_or] at away
        refine ⟨j, handle, (congrFun usedOf_same j).trans used, ?_, away.2⟩
        exact (congrArg Fut.val (Function.update_of_ne away.1 ..)).trans value
      · obtain ⟨-, rfl, rfl⟩ := Event.returned.inj (List.mem_singleton.mp new)
        refine ⟨f.slot, rfl, (congrFun usedOf_same f.slot).trans running, ?_, nodup.1⟩
        change (Function.update s.fut f.slot { s.fut f.slot with val := w } f.slot).val = w
        rw [Function.update_self]

theorem Sound.await (sound : Sound s) (h : Int) : Sound (ccAwait s h) := by
  refine { succeeded := ?_, once := ?_, own := ?_, running := sound.running
           nodup := sound.nodup, holds := ?_ }
  · intro id listed
    rcases List.mem_append.mp listed with old | new
    · exact sound.succeeded id old
    · cases List.mem_singleton.mp new
  · unfold ccAwait
    rw [List.filterMap_append, sound.once]
    exact List.append_nil _
  · refine List.pairwise_append.mpr ⟨sound.own, List.pairwise_singleton _ _, ?_⟩
    intro e early e' last
    rw [List.mem_singleton.mp last]
    cases e with
    | returned id w handle =>
      rintro rfl
      obtain ⟨i, rfl, used, value, -⟩ := sound.holds id w handle early
      rw [futGet_handle used, value]
    | started _ | refused _ | awaited _ _ => trivial
  · intro id w h' listed
    rcases List.mem_append.mp listed with old | new
    · exact sound.holds id w h' old
    · cases List.mem_singleton.mp new

/-- The table has one free place less for every call, and the run is sound until there are more
calls than were free at the start. -/
structure Inv (room : Nat) (s : State) : Prop where
  free : freeCount (usedOf s.fut) = room - s.calls
  sound : s.calls ≤ room → Sound s
  beyond : room < s.calls → ∃ id, Event.refused id ∈ s.log

theorem Inv.start (fut : Fin 8 → Fut) : Inv (freeCount (usedOf fut)) ⟨fut, [], [], 0⟩ where
  free := (Nat.sub_zero _).symm
  sound _ :=
    { succeeded := fun _ listed => (List.not_mem_nil listed).elim
      once := rfl
      own := List.Pairwise.nil
      running := fun _ listed => (List.not_mem_nil listed).elim
      nodup := List.nodup_nil
      holds := fun _ _ _ listed => (List.not_mem_nil listed).elim }
  beyond less := (Nat.not_lt_zero _ less).elim

variable {room : Nat}

theorem Inv.future (inv : Inv room s) : Inv room (ccFuture s) := by
  cases found : firstFree (usedOf s.fut) with
  | none =>
    have full : freeCount (usedOf s.fut) = 0 := firstFree_none_iff.mp found
    have spent := inv.free
    unfold ccFuture
    rw [found]
    refine ⟨?_, ?_, fun _ => ⟨s.calls, List.mem_append_right _ List.mem_cons_self⟩⟩
    · change freeCount (usedOf s.fut) = room - (s.calls + 1)
      omega
    · intro less
      change s.calls + 1 ≤ room at less
      omega
  | some i =>
    have taken := freeCount_take (firstFree_some found)
    have spent := inv.free
    have calls : (ccFuture s).calls = s.calls + 1 := by
      unfold ccFuture
      rw [found]
    refine ⟨?_, ?_, ?_⟩
    · rw [calls]
      unfold ccFuture
      rw [found]
      simp only
      rw [usedOf_take]
      omega
    · intro less
      exact (inv.sound (by omega)).future found
    · intro more
      omega

theorem Inv.returns (inv : Inv room s) (v : Int) : Inv room (returnOf s v) := by
  have soundly := fun less => (inv.sound less).returns v
  unfold returnOf at *
  cases frames : s.frames with
  | nil => exact inv
  | cons f rest =>
    rw [frames] at soundly
    refine ⟨?_, soundly, fun more => ?_⟩
    · simp only
      rw [usedOf_store]
      exact inv.free
    · obtain ⟨id, listed⟩ := inv.beyond more
      exact ⟨id, List.mem_append_left _ listed⟩

theorem Inv.await (inv : Inv room s) (h : Int) : Inv room (ccAwait s h) := by
  refine ⟨inv.free, fun less => (inv.sound less).await h, fun more => ?_⟩
  obtain ⟨id, listed⟩ := inv.beyond more
  exact ⟨id, List.mem_append_left _ listed⟩

theorem Inv.step (inv : Inv room s) (op : Op) : Inv room (step s op) := by
  cases op with
  | future => exact inv.future
  | returns v => exact inv.returns v
  | await h => exact inv.await h
  | awaitDl h ms elsev => exact inv.await h

theorem Inv.run (ops : List Op) : ∀ {s : State}, Inv room s →
    Inv room (ops.foldl Futures.step s) := by
  induction ops with
  | nil => exact fun inv => inv
  | cons op ops ih => exact fun inv => ih (inv.step op)

theorem step_calls (s : State) (op : Op) :
    (step s op).calls = s.calls + if op = .future then 1 else 0 := by
  cases op with
  | future =>
    simp only [step, ccFuture, if_true]
    split <;> rfl
  | returns v =>
    simp only [step, returnOf]
    split <;> rfl
  | await h => rfl
  | awaitDl h ms elsev => rfl

theorem run_calls (ops : List Op) : ∀ s : State,
    (ops.foldl step s).calls = s.calls + ops.count .future := by
  induction ops with
  | nil => exact fun s => rfl
  | cons op ops ih =>
    intro s
    rw [List.foldl_cons, ih, step_calls, List.count_cons]
    by_cases here : op = .future
    · rw [if_pos here, here]
      simp only [beq_self_eq_true, if_true]
      omega
    · rw [if_neg here, if_neg (by rw [beq_iff_eq]; exact here)]
      omega

/-- In every sequence of calls over any table, with any nesting, every `cc_future` succeeds and
starts its method once, and every await of its handle gives what the method returned, exactly if
there are at most as many calls of `cc_future` as places free at the start. -/
theorem futures_kept_iff (fut : Fin 8 → Fut) (ops : List Op) :
    Kept (play fut ops) ↔ ops.count .future ≤ freeCount (usedOf fut) := by
  have inv : Inv (freeCount (usedOf fut)) (play fut ops) := (Inv.start fut).run ops
  have calls : (play fut ops).calls = ops.count .future := by
    rw [play, run_calls]
    exact Nat.zero_add _
  rw [← calls]
  constructor
  · intro kept
    by_contra more
    obtain ⟨id, refused⟩ := inv.beyond (Nat.not_le.mp more)
    exact kept.succeeded id refused
  · exact fun less => (inv.sound less).toKept

section Nine

def emptyTable : Fin 8 → Fut := fun _ => ⟨false, 0⟩

def nine : List Op :=
  (List.range 9).flatMap fun i => [.future, .returns (vInt 5), .await (vInt (i : Nat))]

/-- At most one future is not awaited at any time, and the ninth is refused. -/
theorem ninth_refused : (∀ k < 28, unawaited (play emptyTable (nine.take k)) ≤ 1) ∧
    ¬ Kept (play emptyTable nine) := by
  refine ⟨by decide +kernel, fun kept => ?_⟩
  have refused : Event.refused 8 ∈ (play emptyTable nine).log := by decide +kernel
  exact kept.succeeded 8 refused

end Nine

end Runs

section Programs

variable {env : Env} {blob : Blob}

/-- The operations take one table to another, whatever runs around them. -/
def Plays (fut fut' : Fin 8 → Fut) (ops : List Op) : Prop :=
  ∀ s : State, s.fut = fut → (ops.foldl step s).fut = fut' ∧ (ops.foldl step s).frames = s.frames

theorem Plays.refl (fut : Fin 8 → Fut) : Plays fut fut [] := fun _ same => ⟨same, rfl⟩

theorem Plays.trans {a b c : Fin 8 → Fut} {ops later : List Op} (first : Plays a b ops)
    (second : Plays b c later) : Plays a c (ops ++ later) := by
  intro s same
  obtain ⟨table, frames⟩ := first s same
  obtain ⟨table', frames'⟩ := second _ table
  rw [List.foldl_append]
  exact ⟨table', frames'.trans frames⟩

theorem Plays.await (fut : Fin 8 → Fut) (h : Int) : Plays fut fut [.await h] :=
  fun _ same => ⟨same, rfl⟩

theorem Plays.future {fut inner : Fin 8 → Fut} {i : Fin 8} {ops : List Op}
    (found : firstFree (usedOf fut) = some i)
    (runs : Plays (Function.update fut i { fut i with used := true }) inner ops) (v : Int) :
    Plays fut (Function.update inner i { inner i with val := v })
      (.future :: (ops ++ [.returns v])) := by
  intro s same
  subst same
  have opened : ccFuture s = ⟨Function.update s.fut i { s.fut i with used := true },
      ⟨s.calls, i⟩ :: s.frames, s.log ++ [.started s.calls], s.calls + 1⟩ := by
    unfold ccFuture
    rw [found]
  obtain ⟨table, frames⟩ := runs (ccFuture s) (by rw [opened])
  have top : (ops.foldl step (ccFuture s)).frames = ⟨s.calls, i⟩ :: s.frames := by
    rw [frames, opened]
  rw [List.foldl_cons, List.foldl_append]
  change (returnOf (ops.foldl step (ccFuture s)) v).fut = _ ∧
    (returnOf (ops.foldl step (ccFuture s)) v).frames = s.frames
  unfold returnOf
  rw [top]
  refine ⟨?_, rfl⟩
  change Function.update (ops.foldl step (ccFuture s)).fut i _ = _
  rw [table]

/-- What a run of compiled code, of the pump or of a waiting call does to the table is such a
sequence. -/
theorem exec_plays (n : Nat) : ∀ (task : Task) (m : Machine) (y : Machine × Int),
    exec env blob n task m = some y → ∃ ops, Plays m.st.fut y.1.st.fut ops := by
  refine @exec_rule env blob (fun s t => ∃ ops, Plays s.fut t.fut ops) ?_ ?_ ?_ ?_ n
  · rintro s t u ⟨ops, plays⟩ ⟨ops', plays'⟩
    exact ⟨ops ++ ops', plays.trans plays'⟩
  · intro s t still
    rw [still.fut]
    exact ⟨[], .refl _⟩
  · intro s a
    rw [(prim_aside s a).fut]
    cases a with
    | await h => exact ⟨[.await h], .await s.fut h⟩
    | _ => exact ⟨[], .refl _⟩
  · rintro s t i found ⟨ops, plays⟩ v
    exact ⟨_, .future found plays v⟩

theorem exec_plays_one :
    let p : Prog := .future 0 0 0 0 0 0 fun h => .prim (.await h) .ret
    ∃ y ops, exec ⟨fun _ => 0, 1000, fun _ => 0⟩ ⟨p, none, none⟩ 3 (.prog p) boot = some y ∧
      Plays boot.st.fut y.1.st.fut ops := by
  intro p
  obtain ⟨y, runs⟩ : ∃ y, exec ⟨fun _ => 0, 1000, fun _ => 0⟩ ⟨p, none, none⟩ 3 (.prog p) boot =
      some y := ⟨_, rfl⟩
  obtain ⟨ops, plays⟩ := exec_plays 3 _ _ y runs
  exact ⟨y, ops, runs, plays⟩

end Programs

end XinuRpi5.Cc.Futures
