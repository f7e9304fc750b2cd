/- source: system/aipl_remote.c
   digest: aipl_remote_call between any number of hosts, each of them client and server. -/

import XinuRpi5.System.AiplRemote

/-!
Every host runs the whole of `aipl_remote.c`. A datagram that was sent once may
reach a host never, once or many times and in any order, so retransmissions need
no step of their own. A method that `cc_remote_dispatch` started is in `running`
until it returns; meanwhile other frames come in and the method may itself call
out. What a `gather` collects and the `H` and `A` lines are left out: they take an
id and never reach `g_reply`. An id is a number that does not overflow.
-/

namespace XinuRpi5.System.AiplCall

open Lib.RecentRing AiplRemote

/-- A call of `aipl_remote_call` that waits for its answer. -/
structure Pending where
  id : Nat
  host : Ip
  port : Nat
  actor : Text
  meth : Text
  arg : Text
  outcap : Nat

structure Work where
  client : Ip
  asks : Bool
  req : Request

/-- `g_next_id`, `g_wait_id` (`none` for -1), `g_have`, `g_reply` and `g_ans`,
with the calls and methods under way. -/
structure Host where
  nextId : Nat
  waitId : Option Nat
  have_ : Bool
  reply : Text
  ans : RingBuffer Answer
  waiting : List Pending
  running : List Work

structure Result where
  host : Ip
  work : Work
  val : Text

/-- `computed` and `returned` record the results and the texts that calls gave
back, oldest first. -/
structure World where
  hosts : Ip → Host
  net : List Datagram
  computed : List Result
  returned : List (Ip × Pending × Text)

def freshHost : Host := ⟨1, none, false, [], empty, [], []⟩

def boot : World := ⟨fun _ => freshHost, [], [], []⟩

def World.set (w : World) (h : Ip) (host : Host) : World :=
  { w with hosts := fun e => if e = h then host else w.hosts e }

def World.send (w : World) (d : Datagram) : World := { w with net := w.net ++ [d] }

def replyTo (h client : Ip) (id : Nat) (val : Text) : Datagram :=
  ⟨h, client, aiplPort, replyLine id val⟩

/-- The end of a `Q` or `B` branch; `cc_remote_dispatch` renders into 160 bytes. -/
def complete (w : World) (h : Ip) (work : Work) (rc : Int) (val : Text) : World :=
  let val := if work.asks then (if rc ≠ 0 then ascii "err" else val.take 159) else ascii "ok"
  let host := w.hosts h
  let answer := answerOf work.client work.req.id val
  let w := { w.set h { host with ans := store ansMax host.ans answer } with
    computed := w.computed ++ [⟨h, work, val⟩] }
  if work.asks then w.send (replyTo h work.client work.req.id val) else w

/-- The `Q` and `B` branches up to the dispatch. -/
def serve (w : World) (h : Ip) (web : Web) (work : Work) : World :=
  match ansLookup (w.hosts h).ans work.client work.req.id with
  | some prev => if work.asks then w.send (replyTo h work.client work.req.id prev.val) else w
  | none =>
    if targetOf web work.req.actor < 0 then complete w h work (-1) []
    else w.set h { w.hosts h with running := (w.hosts h).running ++ [work] }

/-- The id and the text of an `R` line. -/
def replyOf (d : Datagram) : Option (Nat × Text) :=
  match bufferOf d.payload with
  | 82 :: 32 :: rest => some (parseId rest, skipSpace (rest.drop (idDigits rest).length))
  | _ => none

/-- The `R` branch: a reply is known by its id alone. -/
def takeReply (w : World) (h : Ip) (id : Nat) (text : Text) : World :=
  if (w.hosts h).waitId = some id then
    w.set h { w.hosts h with reply := text.take 191, have_ := true }
  else w

def aiplRemoteHandle (w : World) (h : Ip) (web : Web) (d : Datagram) : World :=
  if Accepted h d then
    match replyOf d with
    | some (id, text) => takeReply w h id text
    | none =>
      match requestOf d with
      | some (asks, req) => serve w h web ⟨d.src, asks, req⟩
      | none => w
  else w

def Pending.datagram (c : Ip) (p : Pending) : Datagram :=
  datagramOf .call c p.host p.port p.id p.actor p.meth p.arg

/-- `aipl_remote_call` up to its wait loop; `sent` says whether the transmitter
took the frame. -/
def aiplRemoteCall (w : World) (c host : Ip) (port : Nat) (actor meth arg : Text) (outcap : Nat)
    (sent : Bool) : World :=
  let client := w.hosts c
  let p : Pending := ⟨client.nextId, host, port, actor, meth, arg, outcap⟩
  let client := { client with nextId := bumpId .call p.id, have_ := false, waitId := some p.id }
  if sent then
    (w.set c { client with waiting := client.waiting ++ [p] }).send (p.datagram c)
  else w.set c { client with waitId := none }

def leave (w : World) (c : Ip) (k : Nat) : World :=
  let client := w.hosts c
  w.set c { client with waitId := none, waiting := client.waiting.eraseIdx k }

inductive Event where
  /-- A call starts. -/
  | call (c host : Ip) (port : Nat) (actor meth arg : Text) (outcap : Nat) (sent : Bool)
  /-- A waiting call sees `g_have` and returns 0. -/
  | take (c : Ip) (k : Nat)
  /-- A waiting call gives up. -/
  | giveUp (c : Ip) (k : Nat)
  /-- A `send`, `gather` or `broadcast` takes an id and sends its line. -/
  | request (c : Ip) (kind : Kind) (host : Ip) (port : Nat) (actor meth arg : Text)
  /-- `neighbors` takes an id. -/
  | probe (c : Ip)
  /-- A datagram reaches a host. -/
  | deliver (h : Ip) (k : Nat) (web : Web)
  /-- A dispatched method returns. -/
  | finish (h : Ip) (k : Nat) (rc : Int) (val : Text)
  /-- A host starts again from nothing. -/
  | reboot (h : Ip)

def step (w : World) : Event → Option World
  | .call c host port actor meth arg outcap sent =>
    some (aiplRemoteCall w c host port actor meth arg outcap sent)
  | .take c k =>
    if (w.hosts c).have_ then
      (w.hosts c).waiting[k]?.map fun p =>
        { leave w c k with
          returned := w.returned ++ [(c, p, (w.hosts c).reply.take (p.outcap - 1))] }
    else none
  | .giveUp c k => (w.hosts c).waiting[k]?.map fun _ => leave w c k
  | .request c kind host port actor meth arg =>
    let client := w.hosts c
    some ((w.set c { client with nextId := bumpId kind client.nextId }).send
      (datagramOf kind c host port client.nextId actor meth arg))
  | .probe c =>
    let client := w.hosts c
    some (w.set c { client with nextId := bumpId .gather client.nextId })
  | .deliver h k web => w.net[k]?.map fun d => aiplRemoteHandle w h web d
  | .finish h k rc val =>
    let host := w.hosts h
    host.running[k]?.map fun work =>
      complete (w.set h { host with running := host.running.eraseIdx k }) h work rc val
  | .reboot h => some (w.set h freshHost)

/-- The text is the rendering of a result that a host addressed by the call
computed for this call's actor, method and argument. -/
def OwnAnswer (w : World) (c : Ip) (p : Pending) (text : Text) : Prop :=
  ∃ r ∈ w.computed, Accepted r.host (p.datagram c) ∧
    r.work = ⟨c, true, ⟨p.id, p.actor, p.meth, p.arg⟩⟩ ∧ text = r.val.take (p.outcap - 1)

end XinuRpi5.System.AiplCall
