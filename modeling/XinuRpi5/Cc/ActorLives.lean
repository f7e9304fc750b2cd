/- source: cc/cc.c
   digest: What every run of compiled code keeps of the actors: who is dead stays dead. -/

import XinuRpi5.Cc.Runtime

/-!
The numbers of actors are given out once. The code of a program can make actors, kill them, sweep
the idle ones and send to them, in any order and from any depth of calls; the results are about
every such run.
-/

namespace XinuRpi5.Cc.ActorLives

open ActorQueue (asInt actMax LiveAt Matches)
open SelectRuns (vInt vIntOf)
open Cc.Runtime

/-- The numbers that were given out are below `g_nact`, those of live actors and those that the
messages in the queue are for among them; and the queue has not filled its ring. -/
structure World (s : State) : Prop where
  room : s.nact ≤ 1024
  made : ∀ i, s.alive i = true → i < s.nact
  queued : s.mq.length ≤ 8191
  addressed : ∀ msg ∈ s.mq, 0 ≤ asInt msg.dst ∧ asInt msg.dst < s.nact

structure Lives (s t : State) : Prop where
  more : s.nact ≤ t.nact
  dead : ∀ i < s.nact, s.alive i = false → t.alive i = false
  world : World s → World t

section Rules

variable {env : Env} {s t u : State}

theorem Lives.of_still (h : Still s t) : Lives s t where
  more := h.nact.ge
  dead := fun i _ dead => by rw [h.alive, dead]
  world := fun w =>
    { room := h.nact ▸ w.room
      made := by
        rw [h.nact, h.alive]
        exact w.made
      queued := h.mq.length_le.trans w.queued
      addressed := by
        rw [h.nact]
        exact fun msg listed => w.addressed msg (h.mq.subset listed) }

theorem Lives.refl (s : State) : Lives s s := .of_still (.refl s)

theorem Lives.trans (first : Lives s t) (later : Lives t u) : Lives s u where
  more := first.more.trans later.more
  dead := fun i low dead => later.dead i (Nat.lt_of_lt_of_le low first.more) (first.dead i low dead)
  world := later.world ∘ first.world

/-- An actor dies. -/
theorem Lives.kill (s : State) (i : Nat) :
    Lives s { s with alive := Function.update s.alive i false } where
  more := Nat.le_refl _
  dead := by
    intro k _ dead
    by_cases same : k = i
    · rw [same]
      exact Function.update_self ..
    · exact (Function.update_of_ne same ..).trans dead
  world := fun w =>
    { w with
      made := by
        intro k live
        by_cases same : k = i
        · rw [same] at live
          simp at live
        · exact w.made k ((Function.update_of_ne same ..).symm.trans live) }

theorem wait_still (s : State) (ms : Int) : Still s (ccWait env s ms) := by
  unfold ccWait
  dsimp only
  split_ifs
  · exact Still.refl s
  · exact (emit_still s _).trans ⟨rfl, rfl, .refl _, rfl⟩
  · exact (emit_still s _).trans ⟨rfl, rfl, .refl _, rfl⟩
  · exact ⟨rfl, rfl, .refl _, rfl⟩

theorem release_still (s : State) (name : List UInt8) : Still s (release s name) := by
  have told (res : List Res) (text : List UInt8) : Still s (emit { s with res := res } text) := by
    obtain ⟨nact, alive, mq, fut⟩ := emit_still { s with res := res } text
    exact ⟨nact, alive, mq, fut⟩
  unfold release
  split
  · exact Still.refl s
  · dsimp only
    split_ifs
    · exact told _ _
    · exact ⟨rfl, rfl, .refl _, rfl⟩

theorem select_still (s : State) (self n m0 m1 m2 m3 : Int) :
    Still s (ccSelect s self n m0 m1 m2 m3).1 := by
  unfold ccSelect
  split
  · exact Still.refl s
  · exact ⟨rfl, rfl, List.eraseP_sublist, rfl⟩

theorem gcRound_lives (threshold : Int) (dry : Bool) (x : State × Nat) (i : Nat) :
    Lives x.1 (gcRound env threshold dry x i).1 := by
  obtain ⟨s, killed⟩ := x
  unfold gcRound
  dsimp only
  split_ifs
  · exact Lives.refl s
  · exact Lives.of_still ⟨rfl, rfl, .refl _, rfl⟩
  · exact (Lives.of_still (s := s) (t := (idleMs env s i).1) ⟨rfl, rfl, .refl _, rfl⟩).trans
      (Lives.kill _ i)
  · exact Lives.of_still ⟨rfl, rfl, .refl _, rfl⟩

theorem sweep_lives (threshold : Int) (dry : Bool) (l : List Nat) (x : State × Nat) :
    Lives x.1 (l.foldl (gcRound env threshold dry) x).1 := by
  induction l generalizing x with
  | nil => exact Lives.refl x.1
  | cons i l ih => exact (gcRound_lives threshold dry x i).trans (ih _)

theorem new_lives (s : State) : Lives s (prim env s .actorNew).1 := by
  unfold prim
  dsimp only
  split_ifs with full
  · exact Lives.refl s
  · refine ⟨Nat.le_succ _, ?_, fun w => ⟨by change s.nact + 1 ≤ 1024; omega, ?_, w.queued, ?_⟩⟩
    · intro i low dead
      exact (Function.update_of_ne (Nat.ne_of_lt low) ..).trans dead
    · intro i live
      change i < s.nact + 1
      by_cases same : i = s.nact
      · omega
      · have before := w.made i ((Function.update_of_ne same ..).symm.trans live)
        omega
    · intro msg listed
      have before := w.addressed msg listed
      change 0 ≤ asInt msg.dst ∧ asInt msg.dst < ((s.nact + 1 : Nat) : Int)
      omega

theorem enqueue_lives (s : State) (dst mid a0 a1 a2 a3 : Int) :
    Lives s (prim env s (.enqueue dst mid a0 a1 a2 a3)).1 := by
  unfold prim
  dsimp only
  split_ifs with sent
  · obtain ⟨⟨low, _, live⟩, space⟩ := sent
    refine ⟨Nat.le_refl _, fun _ _ dead => dead, fun w => ⟨w.room, w.made, ?_, ?_⟩⟩
    · change (s.mq ++ _).length ≤ 8191
      rw [List.length_append, List.length_singleton]
      omega
    · intro msg listed
      rcases List.mem_append.mp listed with before | here
      · exact w.addressed msg before
      · obtain rfl := List.mem_singleton.mp here
        have known := w.made _ live
        change 0 ≤ asInt dst ∧ asInt dst < (s.nact : Int)
        omega
  · exact Lives.refl s

/-- What one call into the runtime does to the actors. -/
theorem prim_lives (s : State) (a : Prim) : Lives s (prim env s a).1 := by
  cases a with
  | actorNew => exact new_lives s
  | enqueue dst mid a0 a1 a2 a3 => exact enqueue_lives s dst mid a0 a1 a2 a3
  | gcSweep threshold dry => exact sweep_lives _ _ _ (s, 0)
  | write text => exact .of_still (emit_still s text)
  | wait ms => exact .of_still (wait_still s ms)
  | tick => exact .of_still (ccTick_still s)
  | release name => exact .of_still (release_still s name)
  | select self n m0 m1 m2 m3 => exact .of_still (select_still s self n m0 m1 m2 m3)
  | acquire name =>
    change Lives s (acquire s name)
    unfold acquire
    split
    all_goals exact Lives.of_still ⟨rfl, rfl, .refl _, rfl⟩
  | webExpose path actor =>
    change Lives s (webExpose s path actor).1
    unfold webExpose
    dsimp only
    split_ifs
    · exact Lives.refl s
    all_goals split
    all_goals exact Lives.of_still ⟨rfl, rfl, .refl _, rfl⟩
  | actorSuicide id =>
    unfold prim
    dsimp only
    split
    · exact Lives.refl s
    · exact Lives.kill s _
  | actorKill id =>
    unfold prim
    dsimp only
    split
    · exact Lives.refl s
    · split_ifs
      · exact Lives.kill s _
      · exact Lives.refl s
  | actorAge id | actorProtect id flag =>
    unfold prim
    dsimp only
    split
    all_goals exact Lives.of_still ⟨rfl, rfl, .refl _, rfl⟩
  | vheapAlloc n | lheapAlloc ncells =>
    unfold prim
    dsimp only
    split_ifs
    all_goals exact Lives.of_still ⟨rfl, rfl, .refl _, rfl⟩
  | _ => exact Lives.of_still ⟨rfl, rfl, .refl _, rfl⟩

end Rules

section Programs

variable {env : Env} {blob : Blob}

/-- Whatever code runs, at whatever depth of handlers, pumps and waiting calls: the numbers of
actors are not given out again, a dead actor stays dead, and the tables stay in order. -/
theorem exec_lives (n : Nat) (task : Task) (m : Machine) (y : Machine × Int)
    (runs : exec env blob n task m = some y) : Lives m.st y.1.st := by
  refine exec_rule (R := Lives) .trans .of_still prim_lives (fun _ inner v => ?_) n task m y runs
  refine ⟨inner.more, inner.dead, fun w => ?_⟩
  obtain ⟨room, made, queued, addressed⟩ := inner.world ⟨w.room, w.made, w.queued, w.addressed⟩
  exact ⟨room, made, queued, addressed⟩

/-- A run of any code from a sound world ends in one, and no actor that is dead when it starts
lives when it ends. -/
theorem actors_stay_dead {n : Nat} {task : Task} {m : Machine} {y : Machine × Int}
    (runs : exec env blob n task m = some y) (sound : World m.st) :
    World y.1.st ∧ m.st.nact ≤ y.1.st.nact ∧
      ∀ i < m.st.nact, m.st.alive i = false → y.1.st.alive i = false := by
  have lives := exec_lives n task m y runs
  exact ⟨lives.world sound, lives.more, lives.dead⟩

theorem start_world (s : State) (setting : Setting) : World (start s setting) where
  room := Nat.zero_le _
  made := fun _ live => absurd live Bool.false_ne_true
  queued := Nat.zero_le _
  addressed := fun _ listed => absurd listed List.not_mem_nil

/-- Two actors are made, the first one is killed, and a message to it is refused. -/
def reaped : Prog :=
  .prim .actorNew fun a => .prim .actorNew fun _ => .prim (.actorKill (vInt a)) fun _ =>
    .prim (.enqueue a 0 0 0 0 0) .ret

theorem actors_stay_dead_reaped :
    let env : Env := ⟨fun _ => 0, 1000, fun _ => 0⟩
    let setting : Setting := ⟨env, 1, true, none⟩
    let blob : Blob := ⟨reaped, none, none⟩
    ∃ y, exec env blob 5 (.prog reaped) ⟨start boot.st setting, boot.slots⟩ = some y ∧
      World y.1.st ∧ y.1.st.alive 0 = false ∧ y.1.st.mq = [] := by
  intro env setting blob
  obtain ⟨y, runs, ends⟩ : ∃ y, exec env blob 5 (.prog reaped)
      ⟨start boot.st setting, boot.slots⟩ = some y ∧ y.1.st.alive 0 = false ∧ y.1.st.mq = [] :=
    ⟨_, rfl, by decide, by decide⟩
  exact ⟨y, runs, (actors_stay_dead runs (start_world boot.st setting)).1, ends⟩

end Programs

end XinuRpi5.Cc.ActorLives
