/- source: cc/cc.c
   digest: The runtime under a compiled program: its tables, its calls and cc_run_blob. -/

import Mathlib.Data.Fin.VecNotation
import Mathlib.Data.List.FinRange
import XinuRpi5.Cc.ActorQueue
import XinuRpi5.Cc.SelectRuns

/-!
A program is what it does through the calls of `cc_resolve_extern`: a tree that goes on with
the value that a call returns. Its own memory is restored with the blob, and the values it
builds there are its own affair; of the two value heaps only the allocations appear. The
message queue is the list that the ring stands for.
-/

namespace XinuRpi5.Cc.Runtime

open ActorQueue (Msg asInt actMax LiveAt Matches)
open SelectRuns (vInt vIntOf)

section Data

/-- An entry of `g_fut`. -/
structure Fut where
  used : Bool
  val : Int

/-- An entry of `g_rslot`. -/
structure RSlot where
  used : Bool
  taken : Bool
  filled : Bool
  val : Int

/-- An entry of `g_res`; `depth` is an `int`. -/
structure Res where
  name : List UInt8
  depth : Int

/-- An entry of `g_wx_path` and `g_wx_actor`. -/
structure Route where
  path : List UInt8
  actor : Int

/-- A stack of 16 places, the last entry first; what is pushed on a full one is lost. -/
structure Stack (α : Type) where
  items : List α
  bound : items.length ≤ 16

namespace Stack

variable {α : Type}

def empty : Stack α := ⟨[], Nat.zero_le 16⟩

def push (s : Stack α) (a : α) : Stack α :=
  if room : s.items.length < 16 then ⟨a :: s.items, room⟩ else s

def pop (s : Stack α) : Stack α :=
  ⟨s.items.tail, (List.tail_sublist s.items).length_le.trans s.bound⟩

@[ext] theorem ext {s t : Stack α} (same : s.items = t.items) : s = t := by
  cases s
  cases t
  cases same
  rfl

end Stack

/-- The variables of the runtime but for those of the reply slots. `cc_run_blob` sets those of
the first group for each run. -/
structure State where
  out : List UInt8
  room : Option Nat
  deadline : Nat
  aborted : Bool
  sleepLeft : Nat
  onProc : Bool
  vheapLen : Nat
  lheapLen : Nat
  nact : Nat
  alive : Nat → Bool
  guarded : Nat → Int
  lastact : Nat → Nat
  mq : List Msg
  -- how often the clock was read and the world outside was asked
  reads : Nat
  asked : Nat
  -- the tables that no line of `cc_run_blob` mentions
  fut : Fin 8 → Fut
  sstack : Stack (Int × Int)
  sender : Int
  cur : Int
  res : List Res
  sel : Fin 4 → Int
  web : List Route

/-- `g_rslot`, `g_rcur` and `g_rstack`. `cc_run_blob` does not mention them either. -/
structure Slots where
  rslot : Fin 32 → RSlot
  rcur : Option (Fin 32)
  rstack : Stack (Option (Fin 32))

structure Machine where
  st : State
  slots : Slots

/-- What the machine around the runtime answers: the counter, its frequency, and everything
that calls beyond the runtime return (`actor_send`, `v_ai_call`, `v_arm_cmd`, the remote and
the mesh calls). -/
structure Env where
  clock : Nat → Nat
  frq : Nat
  outside : Nat → Int

/-- The calls that run no code of the program and leave the reply slots alone. -/
inductive Prim where
  | write (text : List UInt8)
  | outside
  | tick
  | nowMs
  | wait (ms : Int)
  | vheapAlloc (n : Nat)
  | lheapAlloc (ncells : Int)
  | actorNew
  | actorSuicide (self : Int)
  | actorKill (id : Int)
  | actorAlive (id : Int)
  | actorCount
  | actorAge (id : Int)
  | actorProtect (id flag : Int)
  | actorProtected (id : Int)
  | gcSweep (threshold dry : Int)
  | enqueue (dst mid a0 a1 a2 a3 : Int)
  | select (self n m0 m1 m2 m3 : Int)
  | selArg (i : Int)
  | sender
  | acquire (name : List UInt8)
  | release (name : List UInt8)
  | await (h : Int)
  | webListen (port : Int)
  | webExpose (path : List UInt8) (actor : Int)

inductive Prog where
  | ret (v : Int)
  | prim (a : Prim) (k : Int → Prog)
  | apply (id x : Int) (k : Int → Prog)
  | call (dst mid a0 a1 a2 a3 : Int) (k : Int → Prog)
  | future (dst mid a0 a1 a2 a3 : Int) (k : Int → Prog)
  | pumpNow (k : Int → Prog)
  | nowPush (k : Int → Prog)
  | replyto (k : Int → Prog)
  | answer (r v : Int) (k : Int → Prog)
  | nowPop (r : Int) (k : Int → Prog)

/-- A compiled program: `main`, and its `apply` and `dispatch` where it has them. -/
structure Blob where
  entry : Prog
  apply : Option (Int → Int → Prog)
  dispatch : Option (Int → Int → Int → Int → Int → Int → Prog)

end Data

@[irreducible] def utf8 (text : String) : List UInt8 := text.toUTF8.data.toList

/-- `emit_ch` for each byte. -/
def emit (s : State) (text : List UInt8) : State :=
  match s.room with
  | none => { s with out := s.out ++ text }
  | some cap => { s with out := (s.out ++ text).take (max s.out.length (cap - 1)) }

structure Calm (s t : State) : Prop where
  mq : t.mq = s.mq
  res : t.res = s.res
  room : t.room = s.room
  aborted : t.aborted = s.aborted

theorem emit_calm (s : State) (text : List UInt8) : Calm s (emit s text) := by
  unfold emit
  cases room : s.room with
  | none => exact ⟨rfl, rfl, room.symm, rfl⟩
  | some cap => exact ⟨rfl, rfl, room.symm, rfl⟩

/-- `cc_now`. -/
def readClock (env : Env) (s : State) : State × Nat :=
  ({ s with reads := s.reads + 1 }, env.clock s.reads % 2 ^ 64)

def ccTick (env : Env) (s : State) : State × Bool :=
  let (s, now) := readClock env s
  if s.deadline ≤ now then ({ s with aborted := true }, false) else (s, true)

def idleMs (env : Env) (s : State) (i : Nat) : State × Nat :=
  let (s, now) := readClock env s
  (s, (now + 2 ^ 64 - s.lastact i) % 2 ^ 64 / (max env.frq 1000 / 1000))

def touch (env : Env) (s : State) (i : Nat) : State :=
  let (s, now) := readClock env s
  { s with lastact := Function.update s.lastact i now }

/-- An `int` as an index below a bound. -/
def index (n : Nat) (w : Int) : Option (Fin n) :=
  if h : (asInt (vIntOf w)).toNat < n then
    if 0 ≤ asInt (vIntOf w) then some ⟨_, h⟩ else none
  else none

def rslotAlloc (rslot : Fin 32 → RSlot) : Option (Fin 32) :=
  (List.finRange 32).find? fun i => !(rslot i).used

def rslotFree (x : Slots) (i : Fin 32) : Slots :=
  { x with rslot := Function.update x.rslot i { x.rslot i with used := false } }

/-- `res_find`: the entry, and the table. Names are stored up to 23 bytes and compared whole. -/
def resFind (res : List Res) (name : List UInt8) : Option Nat × List Res :=
  match res.findIdx? fun r => r.name = name with
  | some i => (some i, res)
  | none => if 16 ≤ res.length then (none, res) else (some res.length, res ++ [⟨name.take 23, 0⟩])

def actorCount (s : State) : Nat := ((List.range s.nact).filter fun i => s.alive i).length

/-- A round of `gc_sweep_core` at `i`, with the number of those that it would take. -/
def gcRound (env : Env) (threshold : Int) (dry : Bool) (x : State × Nat) (i : Nat) : State × Nat :=
  let (s, killed) := x
  if !s.alive i || s.guarded i != 0 then (s, killed)
  else
    let (s, idle) := idleMs env s i
    if threshold ≤ Int.bmod idle (2 ^ 64) then
      (if dry then s else { s with alive := Function.update s.alive i false }, killed + 1)
    else (s, killed)

/-- `cc_select`: the first message for `self` with one of the wanted numbers is taken out. -/
def ccSelect (s : State) (self n m0 m1 m2 m3 : Int) : State × Int :=
  match s.mq.find? (Matches self n [m0, m1, m2, m3]) with
  | none => (s, vInt (-1))
  | some m =>
    ({ s with
      mq := s.mq.eraseP (Matches self n [m0, m1, m2, m3])
      sel := ![m.a0, m.a1, m.a2, m.a3] }, vInt m.mid)

/-- `cc_now_push` on the slots. -/
def pushSlot (x : Slots) : Slots :=
  let slot := rslotAlloc x.rslot
  { rslot := match slot with
      | none => x.rslot
      | some i => Function.update x.rslot i ⟨true, false, false, vInt 0⟩
    rstack := x.rstack.push x.rcur
    rcur := slot }

/-- `cc_now_push` on the sender. -/
def pushSender (s : State) : State :=
  { s with sstack := s.sstack.push (s.sender, s.cur), sender := s.cur }

/-- The head of `cc_now_pop` on the slots. -/
def popSlot (x : Slots) : Slots :=
  { x with rcur := x.rstack.items.headD none, rstack := x.rstack.pop }

/-- The head of `cc_now_pop` on the sender. -/
def popSender (s : State) : State :=
  let top := s.sstack.items.headD (s.sender, s.cur)
  { s with sstack := s.sstack.pop, sender := top.1, cur := top.2 }

def replyto (x : Slots) : Slots × Int :=
  match x.rcur with
  | none => (x, vInt (-1))
  | some i =>
    ({ x with rslot := Function.update x.rslot i { x.rslot i with taken := true } },
      vInt (i : Nat))

def deadSlot : String := "\ncc: answer: 返信先が無効です（すでに使われたか、期限切れです）\n"

def twice : String := "\ncc: answer: 同じ返信先へ二度返しています\n"

def answer (m : Machine) (r v : Int) : Machine :=
  match index 32 r with
  | none => { m with st := emit m.st (utf8 deadSlot) }
  | some i =>
    if !(m.slots.rslot i).used then { m with st := emit m.st (utf8 deadSlot) }
    else if (m.slots.rslot i).filled then { m with st := emit m.st (utf8 twice) }
    else
      { m with
        slots.rslot :=
          Function.update m.slots.rslot i { m.slots.rslot i with filled := true, val := v } }

def acquire (s : State) (name : List UInt8) : State :=
  match resFind s.res name with
  | (none, _) => s
  | (some i, res) => { s with res := res.modify i fun r => { r with depth := asInt (r.depth + 1) } }

def release (s : State) (name : List UInt8) : State :=
  match resFind s.res name with
  | (none, _) => s
  | (some i, res) =>
    let s := { s with res := res }
    if ((res[i]?).elim 0 Res.depth) ≤ 0 then
      emit s (utf8 "\ncc: resource " ++ ((res[i]?).elim [] Res.name) ++
        utf8 " is released without being acquired\n")
    else { s with res := res.modify i fun r => { r with depth := r.depth - 1 } }

/-- `cc_web_expose`. Paths are stored up to 39 bytes and compared whole. -/
def webExpose (s : State) (path : List UInt8) (actor : Int) : State × Int :=
  let id := asInt (vIntOf actor)
  if id < 0 ∨ actMax ≤ id then (s, vInt 0)
  else
    match s.web.findIdx? fun r => r.path = path with
    | some i => ({ s with web := s.web.set i ⟨path.take 39, id⟩ }, vInt 1)
    | none =>
      if 8 ≤ s.web.length then (s, vInt 0)
      else ({ s with web := s.web ++ [⟨path.take 39, id⟩] }, vInt 1)

def noWait : String := "\ncc: wait() はこの経路では使えません。ここで打ち切ります。\n"

def longWait : String :=
  "\ncc: wait() の合計がこの実行の上限（10 秒）を超えました。ここで打ち切ります。\n"

def ccWait (env : Env) (s : State) (ms : Int) : State :=
  let v := vIntOf ms
  if v ≤ 0 then s
  else if !s.onProc then { emit s (utf8 noWait) with aborted := true, deadline := 0 }
  else if s.sleepLeft < v.toNat then
    { emit s (utf8 longWait) with aborted := true, deadline := 0 }
  else
    { s with
      sleepLeft := s.sleepLeft - v.toNat
      deadline := (s.deadline + max env.frq 1000 / 1000 * v.toNat) % 2 ^ 64 }

def actorAt (w : Int) : Option Nat :=
  if 0 ≤ asInt (vIntOf w) ∧ asInt (vIntOf w) < actMax then some (asInt (vIntOf w)).toNat else none

def prim (env : Env) (s : State) : Prim → State × Int
  | .write text => (emit s text, 0)
  | .outside => ({ s with asked := s.asked + 1 }, env.outside s.asked)
  | .tick => let (s, more) := ccTick env s; (s, if more then 1 else 0)
  | .nowMs =>
    let (s, now) := readClock env s
    (s, vInt (now / (max env.frq 1000 / 1000) : Nat))
  | .wait ms => (ccWait env s ms, vInt 0)
  | .vheapAlloc n =>
    if s.vheapLen + n ≤ 32768 then ({ s with vheapLen := s.vheapLen + (n + 7) / 8 * 8 }, s.vheapLen)
    else (s, -1)
  | .lheapAlloc ncells =>
    if ncells < 0 ∨ 32768 < s.lheapLen + ncells then (s, -1)
    else ({ s with lheapLen := s.lheapLen + ncells.toNat }, s.lheapLen)
  | .actorNew =>
    if 1024 ≤ s.nact then (s, -1)
    else
      let id := s.nact
      let s := { s with
        nact := id + 1
        alive := Function.update s.alive id true
        guarded := Function.update s.guarded id 0 }
      (touch env (readClock env s).1 id, id)
  | .actorSuicide self =>
    match actorAt self with
    | none => (s, vInt 0)
    | some i => ({ s with alive := Function.update s.alive i false }, vInt 0)
  | .actorKill id =>
    match actorAt id with
    | none => (s, vInt 0)
    | some i =>
      if s.alive i then ({ s with alive := Function.update s.alive i false }, vInt 1)
      else (s, vInt 0)
  | .actorAlive id => (s, vInt ((actorAt id).elim 0 fun i => if s.alive i then 1 else 0))
  | .actorCount => (s, vInt (actorCount s))
  | .actorAge id =>
    match actorAt id with
    | none => (s, vInt 0)
    | some i => let (s, idle) := idleMs env s i; (s, vInt (Int.bmod idle (2 ^ 64)))
  | .actorProtect id flag =>
    match actorAt id with
    | none => (s, vInt 0)
    | some i => ({ s with guarded := Function.update s.guarded i (vIntOf flag % 256) }, vInt 0)
  | .actorProtected id => (s, vInt ((actorAt id).elim 0 s.guarded))
  | .gcSweep threshold dry =>
    let (s, killed) := (List.range s.nact).foldl
      (gcRound env (vIntOf threshold) (asInt (vIntOf dry) != 0)) (s, 0)
    (s, vInt killed)
  | .enqueue dst mid a0 a1 a2 a3 =>
    if LiveAt s.alive (asInt dst) ∧ s.mq.length < 8191 then
      ({ s with mq := s.mq ++ [⟨dst, mid, a0, a1, a2, a3, s.cur⟩] }, 0)
    else (s, 0)
  | .select self n m0 m1 m2 m3 => ccSelect s self n m0 m1 m2 m3
  | .selArg i =>
    (s, if h : i.toNat < 4 then if 0 ≤ i then s.sel ⟨i.toNat, h⟩ else vInt 0 else vInt 0)
  | .sender => (s, vInt s.sender)
  | .acquire name => (acquire s name, vInt 0)
  | .release name => (release s name, vInt 0)
  | .await h =>
    (s, (index 8 h).elim (vInt 0) fun i => if (s.fut i).used then (s.fut i).val else vInt 0)
  -- the port is noted for the server only
  | .webListen _ => (s, vInt 0)
  | .webExpose path actor => webExpose s path actor

def noAnswer : String := "\ncc: now: 返信先を渡した先が answer しませんでした\n"

def manyFutures : String := "\ncc: future が多すぎます（同時に 8 本まで）\n"

/-- What runs: code of the program, `cc_pump`, or the loop of `cc_now_pop` with its rounds. -/
inductive Task where
  | prog (p : Prog)
  | pump
  | settle (rounds : Nat) (slot : Fin 32) (r : Int)

/-- A handler of the program; without `dispatch` nothing runs. -/
def handler (blob : Blob) (dst mid a0 a1 a2 a3 : Int) : Prog :=
  match blob.dispatch with
  | none => .ret (vInt 0)
  | some dispatch => dispatch dst mid a0 a1 a2 a3

def exec (env : Env) (blob : Blob) : Nat → Task → Machine → Option (Machine × Int)
  | 0, _, _ => none
  | _ + 1, .prog (.ret v), m => some (m, v)
  | n + 1, .prog (.prim a k), m =>
    exec env blob n (.prog (k (prim env m.st a).2)) { m with st := (prim env m.st a).1 }
  | n + 1, .prog (.apply id x k), m =>
    match blob.apply with
    | none => exec env blob n (.prog (k 0)) m
    | some apply =>
      (exec env blob n (.prog (apply id x)) m).bind fun y => exec env blob n (.prog (k y.2)) y.1
  | n + 1, .prog (.call dst mid a0 a1 a2 a3 k), m =>
    if blob.dispatch.isSome ∧ LiveAt m.st.alive (asInt dst) then
      (exec env blob n (.prog (handler blob dst mid a0 a1 a2 a3))
        { m with st := touch env m.st (asInt dst).toNat }).bind fun y =>
          exec env blob n (.prog (k y.2)) y.1
    else exec env blob n (.prog (k (vInt 0))) m
  | n + 1, .prog (.future dst mid a0 a1 a2 a3 k), m =>
    match (List.finRange 8).find? fun i => !(m.st.fut i).used with
    | none =>
      exec env blob n (.prog (k (vInt (-1)))) { m with st := emit m.st (utf8 manyFutures) }
    | some i =>
      (exec env blob n (.prog (handler blob dst mid a0 a1 a2 a3))
        { m with st.fut := Function.update m.st.fut i { m.st.fut i with used := true } }).bind
          fun y => exec env blob n (.prog (k (vInt (i : Nat))))
            { y.1 with
              st.fut := Function.update y.1.st.fut i { y.1.st.fut i with val := y.2 } }
  | n + 1, .prog (.pumpNow k), m =>
    (exec env blob n .pump m).bind fun y => exec env blob n (.prog (k (vInt 0))) y.1
  | n + 1, .prog (.nowPush k), m =>
    exec env blob n (.prog (k (vInt 0))) ⟨pushSender m.st, pushSlot m.slots⟩
  | n + 1, .prog (.replyto k), m =>
    exec env blob n (.prog (k (replyto m.slots).2)) { m with slots := (replyto m.slots).1 }
  | n + 1, .prog (.answer r v k), m => exec env blob n (.prog (k (vInt 0))) (answer m r v)
  | n + 1, .prog (.nowPop r k), m =>
    match m.slots.rcur with
    | none => exec env blob n (.prog (k r)) ⟨popSender m.st, popSlot m.slots⟩
    | some i =>
      if (m.slots.rslot i).taken then
        (exec env blob n (.settle 64 i r) ⟨popSender m.st, popSlot m.slots⟩).bind fun y =>
          exec env blob n (.prog (k y.2)) y.1
      else exec env blob n (.prog (k r)) ⟨popSender m.st, rslotFree (popSlot m.slots) i⟩
  | n + 1, .pump, m =>
    match m.st.mq with
    | [] => some (m, 0)
    | msg :: rest =>
      let s := { (ccTick env m.st).1 with mq := rest }
      if !(ccTick env m.st).2 then some ({ m with st := (ccTick env m.st).1 }, 0)
      else if blob.dispatch.isSome ∧ LiveAt s.alive (asInt msg.dst) then
        (exec env blob n (.prog (handler blob msg.dst msg.mid msg.a0 msg.a1 msg.a2 msg.a3))
          { m with st :=
            { touch env s (asInt msg.dst).toNat with sender := msg.src, cur := msg.dst } }).bind
              fun y => exec env blob n .pump
                { y.1 with st := { y.1.st with sender := s.sender, cur := s.cur } }
      else exec env blob n .pump { m with st := s }
  | n + 1, .settle rounds slot r, m =>
    if 0 < rounds ∧ (m.slots.rslot slot).filled = false then
      (exec env blob n .pump m).bind fun y => exec env blob n (.settle (rounds - 1) slot r) y.1
    else if (m.slots.rslot slot).filled then
      some ({ m with slots := rslotFree m.slots slot }, (m.slots.rslot slot).val)
    else some (⟨emit m.st (utf8 noAnswer), rslotFree m.slots slot⟩, r)

section Aside

variable {env : Env}

/-- The futures, the sender, the current actor and their save stack stay. -/
structure Aside (s t : State) : Prop where
  fut : t.fut = s.fut
  sender : t.sender = s.sender
  cur : t.cur = s.cur
  sstack : t.sstack = s.sstack

theorem Aside.refl (s : State) : Aside s s := ⟨rfl, rfl, rfl, rfl⟩

theorem Aside.trans {s t u : State} (first : Aside s t) (later : Aside t u) : Aside s u where
  fut := later.fut.trans first.fut
  sender := later.sender.trans first.sender
  cur := later.cur.trans first.cur
  sstack := later.sstack.trans first.sstack

theorem emit_aside (s : State) (text : List UInt8) : Aside s (emit s text) := by
  unfold emit
  split
  · exact ⟨rfl, rfl, rfl, rfl⟩
  · exact ⟨rfl, rfl, rfl, rfl⟩

theorem gcRound_aside (threshold : Int) (dry : Bool) (x : State × Nat) (i : Nat) :
    Aside x.1 (gcRound env threshold dry x i).1 := by
  obtain ⟨s, killed⟩ := x
  unfold gcRound
  dsimp only
  split_ifs
  · exact Aside.refl s
  · exact ⟨rfl, rfl, rfl, rfl⟩
  · exact ⟨rfl, rfl, rfl, rfl⟩
  · exact ⟨rfl, rfl, rfl, rfl⟩

theorem gcSweep_aside (threshold : Int) (dry : Bool) (l : List Nat) (x : State × Nat) :
    Aside x.1 (l.foldl (gcRound env threshold dry) x).1 := by
  induction l generalizing x with
  | nil => exact Aside.refl x.1
  | cons i l ih => exact (gcRound_aside threshold dry x i).trans (ih _)

theorem wait_aside (s : State) (ms : Int) : Aside s (ccWait env s ms) := by
  unfold ccWait
  dsimp only
  split_ifs
  · exact Aside.refl s
  · exact (emit_aside s _).trans ⟨rfl, rfl, rfl, rfl⟩
  · exact (emit_aside s _).trans ⟨rfl, rfl, rfl, rfl⟩
  · exact ⟨rfl, rfl, rfl, rfl⟩

theorem release_aside (s : State) (name : List UInt8) : Aside s (release s name) := by
  have told (res : List Res) (text : List UInt8) : Aside s (emit { s with res := res } text) := by
    obtain ⟨fut, sender, cur, sstack⟩ := emit_aside { s with res := res } text
    exact ⟨fut, sender, cur, sstack⟩
  unfold release
  split
  · exact Aside.refl s
  · dsimp only
    split_ifs
    · exact told _ _
    · exact ⟨rfl, rfl, rfl, rfl⟩

/-- The calls that run no code of the program change neither the futures, nor the sender, nor the
current actor. -/
theorem prim_aside (s : State) (a : Prim) : Aside s (prim env s a).1 := by
  cases a with
  | write text => exact emit_aside s text
  | wait ms => exact wait_aside s ms
  | release name => exact release_aside s name
  | gcSweep threshold dry => exact gcSweep_aside _ _ _ (s, 0)
  | tick =>
    unfold prim ccTick
    dsimp only
    split_ifs
    all_goals exact ⟨rfl, rfl, rfl, rfl⟩
  | acquire name =>
    change Aside s (acquire s name)
    unfold acquire
    split
    all_goals exact ⟨rfl, rfl, rfl, rfl⟩
  | select self n m0 m1 m2 m3 =>
    change Aside s (ccSelect s self n m0 m1 m2 m3).1
    unfold ccSelect
    split
    all_goals exact ⟨rfl, rfl, rfl, rfl⟩
  | webExpose path actor =>
    change Aside s (webExpose s path actor).1
    unfold webExpose
    dsimp only
    split_ifs
    · exact Aside.refl s
    all_goals split
    all_goals exact ⟨rfl, rfl, rfl, rfl⟩
  | actorAge id | actorSuicide id =>
    unfold prim
    dsimp only
    split
    all_goals exact ⟨rfl, rfl, rfl, rfl⟩
  | actorKill id =>
    unfold prim
    dsimp only
    split
    · exact Aside.refl s
    · split_ifs
      all_goals exact ⟨rfl, rfl, rfl, rfl⟩
  | actorProtect id flag =>
    unfold prim
    dsimp only
    split
    all_goals exact ⟨rfl, rfl, rfl, rfl⟩
  | vheapAlloc n | lheapAlloc ncells | actorNew | enqueue dst mid a0 a1 a2 a3 =>
    unfold prim
    dsimp only
    split_ifs
    all_goals exact ⟨rfl, rfl, rfl, rfl⟩
  | _ => exact ⟨rfl, rfl, rfl, rfl⟩

end Aside

section Rule

variable {env : Env} {blob : Blob}

/-- The actors and the futures stay as they are, and messages only leave the queue. -/
structure Still (s t : State) : Prop where
  nact : t.nact = s.nact
  alive : t.alive = s.alive
  mq : t.mq.Sublist s.mq
  fut : t.fut = s.fut

theorem Still.refl (s : State) : Still s s := ⟨rfl, rfl, .refl _, rfl⟩

theorem Still.trans {s t u : State} (first : Still s t) (later : Still t u) : Still s u where
  nact := later.nact.trans first.nact
  alive := later.alive.trans first.alive
  mq := later.mq.trans first.mq
  fut := later.fut.trans first.fut

theorem emit_still (s : State) (text : List UInt8) : Still s (emit s text) := by
  unfold emit
  split
  all_goals exact ⟨rfl, rfl, .refl _, rfl⟩

theorem ccTick_still (s : State) : Still s (ccTick env s).1 := by
  unfold ccTick
  dsimp only
  split_ifs
  all_goals exact ⟨rfl, rfl, .refl _, rfl⟩

theorem answer_still (m : Machine) (r v : Int) : Still m.st (answer m r v).st := by
  unfold answer
  split
  · exact emit_still m.st _
  · split_ifs
    · exact emit_still m.st _
    · exact emit_still m.st _
    · exact ⟨rfl, rfl, .refl _, rfl⟩

/-- A relation that the calls into the runtime keep, and the handler of a future between its two
changes of the table, holds between the ends of every run of code, pump or waiting call. -/
theorem exec_rule {R : State → State → Prop} (trans : ∀ {s t u}, R s t → R t u → R s u)
    (still : ∀ {s t}, Still s t → R s t) (prims : ∀ s a, R s (prim env s a).1)
    (future : ∀ {s t : State} {i : Fin 8},
      ((List.finRange 8).find? fun i => !(s.fut i).used) = some i →
      R { s with fut := Function.update s.fut i { s.fut i with used := true } } t →
      ∀ v, R s { t with fut := Function.update t.fut i { t.fut i with val := v } })
    (n : Nat) : ∀ (task : Task) (m : Machine) (y : Machine × Int),
      exec env blob n task m = some y → R m.st y.1.st := by
  induction n with
  | zero =>
    intro task m y runs
    cases runs
  | succ n ih =>
    intro task m y runs
    have go : ∀ {task' : Task} {m' : Machine},
        exec env blob n task' m' = some y → R m.st m'.st → R m.st y.1.st :=
      fun goes before => trans before (ih _ _ y goes)
    -- what goes on behind a part that has run
    have behind : ∀ {before : Task} {m' : Machine} {k : Int → Task} {f : Machine → Machine},
        ((exec env blob n before m').bind fun x => exec env blob n (k x.2) (f x.1)) = some y →
        (∀ x, Still x.st (f x).st) → Still m.st m'.st → R m.st y.1.st := by
      intro before m' k f goes keeps same
      obtain ⟨x, first, later⟩ := Option.bind_eq_some_iff.mp goes
      exact trans (still same) (trans (ih _ _ x first) (trans (still (keeps x.1)) (ih _ _ y later)))
    have calm : ∀ {m' : Machine}, m'.st.nact = m.st.nact → m'.st.alive = m.st.alive →
        m'.st.mq = m.st.mq → m'.st.fut = m.st.fut → Still m.st m'.st :=
      fun nact alive mq fut => ⟨nact, alive, mq ▸ .refl _, fut⟩
    cases task with
    | prog p =>
      cases p with
      | ret v =>
        obtain rfl := Option.some.inj runs
        exact still (.refl _)
      | prim a k =>
        rw [exec] at runs
        exact go runs (prims m.st a)
      | apply nr x k =>
        rw [exec] at runs
        split at runs
        · exact go runs (still (.refl _))
        · exact behind (k := fun v => .prog (k v)) (f := id) runs (fun _ => .refl _) (.refl _)
      | call dst mid a0 a1 a2 a3 k =>
        rw [exec] at runs
        split_ifs at runs
        · exact behind (k := fun v => .prog (k v)) (f := id) runs (fun _ => .refl _)
            (calm rfl rfl rfl rfl)
        · exact go runs (still (.refl _))
      | future dst mid a0 a1 a2 a3 k =>
        rw [exec] at runs
        split at runs
        · exact go runs (still (emit_still m.st _))
        · rename_i i found
          obtain ⟨x, first, later⟩ := Option.bind_eq_some_iff.mp runs
          exact trans (future found (ih _ _ x first) x.2) (ih _ _ y later)
      | pumpNow k =>
        rw [exec] at runs
        exact behind (k := fun _ => .prog (k (vInt 0))) (f := id) runs (fun _ => .refl _) (.refl _)
      | nowPush k | replyto k =>
        rw [exec] at runs
        exact go runs (still (calm rfl rfl rfl rfl))
      | answer r v k =>
        rw [exec] at runs
        exact go runs (still (answer_still m r v))
      | nowPop r k =>
        rw [exec] at runs
        split at runs
        · exact go runs (still (calm rfl rfl rfl rfl))
        · split_ifs at runs
          · exact behind (k := fun v => .prog (k v)) (f := id) runs (fun _ => .refl _)
              (calm rfl rfl rfl rfl)
          · exact go runs (still (calm rfl rfl rfl rfl))
    | pump =>
      rw [exec] at runs
      split at runs
      · obtain rfl := Option.some.inj runs
        exact still (.refl _)
      · rename_i msg rest queue
        have popped : Still m.st { (ccTick env m.st).1 with mq := rest } := by
          obtain ⟨nact, alive, _, fut⟩ := @ccTick_still env m.st
          refine ⟨nact, alive, ?_, fut⟩
          rw [queue]
          exact List.sublist_cons_self msg rest
        simp only at runs
        split_ifs at runs
        · obtain rfl := Option.some.inj runs
          exact still (ccTick_still m.st)
        · exact behind (k := fun _ => .pump) (f := fun x => { x with st := { x.st with
            sender := (ccTick env m.st).1.sender, cur := (ccTick env m.st).1.cur } }) runs
            (fun _ => ⟨rfl, rfl, .refl _, rfl⟩) (popped.trans ⟨rfl, rfl, .refl _, rfl⟩)
        · exact go runs (still popped)
    | settle rounds slot r =>
      rw [exec] at runs
      split_ifs at runs
      · exact behind (k := fun _ => .settle (rounds - 1) slot r) (f := id) runs
          (fun _ => .refl _) (.refl _)
      · obtain rfl := Option.some.inj runs
        exact still (calm rfl rfl rfl rfl)
      · obtain rfl := Option.some.inj runs
        exact still (emit_still m.st _)

end Rule

def boot : Machine where
  st :=
    { out := [], room := none, deadline := 0, aborted := false, sleepLeft := 0, onProc := false
      vheapLen := 0, lheapLen := 0, nact := 0, alive := fun _ => false, guarded := fun _ => 0
      lastact := fun _ => 0, mq := [], reads := 0, asked := 0
      fut := fun _ => ⟨false, 0⟩, sstack := .empty, sender := -1, cur := -1, res := []
      sel := fun _ => 0, web := [] }
  slots := ⟨fun _ => ⟨false, false, false, 0⟩, none, .empty⟩

/-- What the caller of a run sets: the budget, whether the run has a process of its own, and
the buffer for its output. -/
structure Setting where
  env : Env
  timeoutMs : Nat
  onProc : Bool
  room : Option Nat

/-- The head of `cc_run_blob`: `cc_set_deadline`, `vheap_reset`, `lheap_reset`,
`cc_actor_reset`, and the capture. -/
def start (s : State) (setting : Setting) : State :=
  { s with
    reads := 1
    asked := 0
    deadline := (setting.env.clock 0 % 2 ^ 64 +
      setting.env.frq / 1000 * setting.timeoutMs) % 2 ^ 64
    aborted := false
    sleepLeft := 10000
    onProc := setting.onProc
    vheapLen := 0
    lheapLen := 0
    nact := 0
    mq := []
    alive := fun _ => false
    guarded := fun _ => 0
    lastact := fun _ => 0
    out := []
    room := setting.room }

def abortNote : String := "cc: aborted (ran past the runaway-loop deadline)\n"

/-- The end of `cc_run_blob`. The note goes into the buffer only. -/
def finish (s : State) : State :=
  if s.aborted && s.room.isSome then emit s (utf8 abortNote) else s

/-- `cc_run_blob` on a valid blob: what it leaves, and the value of `main`. -/
def ccRunBlob (setting : Setting) (blob : Blob) (fuel : Nat) (m : Machine) :
    Option (Machine × Int) :=
  (exec setting.env blob fuel (.prog blob.entry) { m with st := start m.st setting }).bind fun y =>
    (exec setting.env blob fuel .pump y.1).map fun z =>
      ({ z.1 with st := finish z.1.st }, y.2)

def observe (setting : Setting) (blob : Blob) (fuel : Nat) (m : Machine) :
    Option (List UInt8 × Int) :=
  (ccRunBlob setting blob fuel m).map fun y => (y.1.st.out, y.2)

end XinuRpi5.Cc.Runtime
