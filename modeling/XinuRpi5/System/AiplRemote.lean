/- source: system/aipl_remote.c
   digest: Request lines, the answer table and the requests that clients send to one server. -/

import Mathlib.Data.Nat.Digits.Defs
import XinuRpi5.Lib.RecentRing

/-!
One server and any number of client nodes. A datagram that was sent once may
reach the server never, once or many times and in any order, so a delivery picks
any datagram sent so far. A method that `cc_remote_dispatch` started may call out
and let other frames in before it returns; until then its call is in `running`.
Datagrams stand for the frames of `send_udp`, whose headers pass the length and
protocol checks of `aipl_remote_handle`; learned MAC addresses, counters and the
`H`, `A` and `R` branches, which dispatch nothing, are left out. C strings are
lists without the terminating zero.
-/

namespace XinuRpi5.System.AiplRemote

open Lib.RecentRing

abbrev Text := List UInt8

structure Ip where
  a : UInt8
  b : UInt8
  c : UInt8
  d : UInt8
  deriving DecidableEq

def ascii (s : String) : Text := s.toList.map fun c => UInt8.ofNat c.toNat

/-- `put`: what still fits below `cap - 1` is appended. -/
def put (cap : Nat) (d s : Text) : Text := d ++ s.take (cap - 1 - d.length)

def decimalText (v : Nat) : Text :=
  if v = 0 then [48] else (Nat.digits 10 v).reverse.map fun k => UInt8.ofNat (48 + k)

/-- `put_num` of a number that is not negative. -/
def putNum (cap : Nat) (d : Text) (v : Nat) : Text := put cap d (decimalText v)

/-- A request line: a tag, the id, the actor, the method and the argument. -/
def buildLine (tag : Text) (id : Nat) (actor meth arg : Text) : Text :=
  let q := putNum 288 (put 288 [] tag) id
  let q := put 288 (put 288 q (ascii " ")) actor
  let q := put 288 (put 288 q (ascii " ")) meth
  let q := put 288 (put 288 q (ascii " ")) arg
  put 288 q (ascii "\n")

def buildQ (id : Nat) (actor meth arg : Text) : Text := buildLine (ascii "Q ") id actor meth arg

/-- The line of `aipl_mesh_bcast`. -/
def buildB (id : Nat) (actor meth arg : Text) : Text := buildLine (ascii "B ") id actor meth arg

def replyLine (id : Nat) (val : Text) : Text :=
  let out := putNum 224 (put 224 [] (ascii "R ")) id
  put 224 (put 224 (put 224 out (ascii " ")) val) (ascii "\n")

def bufferOf (payload : Text) : Text :=
  (payload.take 512).takeWhile fun c => c ≠ 0 ∧ c ≠ 10 ∧ c ≠ 13

def idDigits (t : Text) : Text := t.takeWhile fun c => 48 ≤ c ∧ c ≤ 57

def parseId (t : Text) : Nat := (idDigits t).foldl (fun v c => v * 10 + (c.toNat - 48)) 0

def skipSpace : Text → Text
  | 32 :: t => t
  | t => t

/-- A word of at most 39 characters, and what follows the space behind it. -/
def word (t : Text) : Text × Text :=
  let w := (t.takeWhile fun c => c ≠ 32).take 39
  (w, skipSpace (t.drop w.length))

structure Request where
  id : Nat
  actor : Text
  meth : Text
  arg : Text
  deriving DecidableEq

def parseRequest (t : Text) : Request :=
  let rest := skipSpace (t.drop (idDigits t).length)
  let (actor, rest) := word rest
  let (meth, rest) := word rest
  ⟨parseId t, actor, meth, rest⟩

def aiplPort : Nat := 9010

def ansMax : Nat := 4

/-- An entry of `g_ans`. -/
structure Answer where
  ip : Ip
  id : Nat
  val : Text
  deriving DecidableEq

def ansLookup (ring : RingBuffer Answer) (ip : Ip) (id : Nat) : Option Answer :=
  find ansMax ring fun a => a.id = id ∧ a.ip = ip

def answerOf (ip : Ip) (id : Nat) (val : Text) : Answer := ⟨ip, id, val.take 159⟩

abbrev Web := List (Option Text × Int)

def targetOf (web : Web) (actor : Text) : Int :=
  match web.find? fun entry =>
    match entry.1 with
    | none => false
    | some path => path = actor ∨ path = 47 :: actor with
  | some entry => entry.2
  | none => -1

structure Datagram where
  src : Ip
  dst : Ip
  port : Nat
  payload : Text

/-- A call of `cc_remote_dispatch` that has not returned; `asks` tells a `Q` from
a `B`. -/
structure Call where
  ip : Ip
  id : Nat
  asks : Bool

/-- A client node: `g_next_id`, the ids it has used, and the lines that it sends
again until it stops waiting. -/
structure Client where
  nextId : Nat
  issued : List Nat
  waiting : List Datagram

/-- `log`, `stored` and `replies` record the dispatches, the stored answers and
the answers sent, oldest first. -/
structure World where
  myIp : Ip
  clients : Ip → Client
  net : List Datagram
  ans : RingBuffer Answer
  running : List Call
  log : List (Ip × Nat)
  stored : List Answer
  replies : List (Ip × Text)

def boot (myIp : Ip) : World where
  myIp := myIp
  clients := fun _ => ⟨1, [], []⟩
  net := []
  ans := empty
  running := []
  log := []
  stored := []
  replies := []

def Accepted (myIp : Ip) (d : Datagram) : Prop :=
  (d.dst = myIp ∨ d.dst = ⟨255, 255, 255, 255⟩ ∨ d.dst = { myIp with d := 255 }) ∧
    d.port = aiplPort

instance (myIp : Ip) (d : Datagram) : Decidable (Accepted myIp d) :=
  inferInstanceAs (Decidable (_ ∧ _))

def requestOf (d : Datagram) : Option (Bool × Request) :=
  match bufferOf d.payload with
  | 81 :: 32 :: rest => some (true, parseRequest rest)
  | 66 :: 32 :: rest => some (false, parseRequest rest)
  | _ => none

def reply (w : World) (ip : Ip) (id : Nat) (val : Text) : World :=
  { w with replies := w.replies ++ [(ip, replyLine id val)] }

/-- The end of a `Q` or `B` branch: the answer is stored, and a `Q` is answered. -/
def complete (w : World) (call : Call) (rc : Int) (val : Text) : World :=
  let val := if call.asks then (if rc ≠ 0 then ascii "err" else val) else ascii "ok"
  let answer := answerOf call.ip call.id val
  let w := { w with ans := store ansMax w.ans answer, stored := w.stored ++ [answer] }
  if call.asks then reply w call.ip call.id val else w

/-- The `Q` and `B` branches of `aipl_remote_handle`, up to the dispatch. -/
def serve (w : World) (web : Web) (ip : Ip) (asks : Bool) (req : Request) : World :=
  match ansLookup w.ans ip req.id with
  | some prev => if asks then reply w ip req.id prev.val else w
  | none =>
    if targetOf web req.actor < 0 then complete w ⟨ip, req.id, asks⟩ (-1) []
    else { w with running := w.running ++ [⟨ip, req.id, asks⟩], log := w.log ++ [(ip, req.id)] }

def aiplRemoteHandle (w : World) (web : Web) (d : Datagram) : World :=
  if Accepted w.myIp d then
    match requestOf d with
    | some (asks, req) => serve w web d.src asks req
    | none => w
  else w

inductive Kind where
  | call
  | send
  | gather
  | bcast

/-- `g_next_id` after a request; only `aipl_remote_send` leaves out the wrap. -/
def bumpId (kind : Kind) (next : Nat) : Nat :=
  match kind with
  | .send => next + 1
  | _ => if 1000000 < next + 1 then 1 else next + 1

def lineOf (kind : Kind) (id : Nat) (actor meth arg : Text) : Text :=
  match kind with
  | .bcast => buildB id actor meth arg
  | _ => buildQ id actor meth arg

/-- Gathers and broadcasts go to the subnet, the others to the named host. -/
def datagramOf (kind : Kind) (c host : Ip) (port id : Nat) (actor meth arg : Text) : Datagram :=
  match kind with
  | .gather | .bcast => ⟨c, { c with d := 255 }, aiplPort, lineOf kind id actor meth arg⟩
  | _ => ⟨c, host, port, lineOf kind id actor meth arg⟩

def waits : Kind → Bool
  | .call | .gather => true
  | _ => false

def issue (w : World) (c : Ip) (kind : Kind) (host : Ip) (port : Nat) (actor meth arg : Text) :
    World :=
  let client := w.clients c
  let d := datagramOf kind c host port client.nextId actor meth arg
  { w with
    clients := fun e => if e = c then
      ⟨bumpId kind client.nextId, client.issued ++ [client.nextId],
        if waits kind then client.waiting ++ [d] else client.waiting⟩ else w.clients e
    net := w.net ++ [d] }

/-- A client issues a request, sends it again, or stops waiting because it was
answered or its time is up; a datagram reaches the server; a dispatched method
returns. -/
inductive Event where
  | issue (c : Ip) (kind : Kind) (host : Ip) (port : Nat) (actor meth arg : Text)
  | resend (c : Ip) (k : Nat)
  | stop (c : Ip) (k : Nat)
  | deliver (k : Nat) (web : Web)
  | finish (k : Nat) (rc : Int) (val : Text)

def step (w : World) : Event → Option World
  | .issue c kind host port actor meth arg => some (issue w c kind host port actor meth arg)
  | .resend c k => (w.clients c).waiting[k]?.map fun d => { w with net := w.net ++ [d] }
  | .stop c k =>
    some { w with clients := fun e =>
      if e = c then { w.clients c with waiting := (w.clients c).waiting.eraseIdx k }
      else w.clients e }
  | .deliver k web => w.net[k]?.map fun d => aiplRemoteHandle w web d
  | .finish k rc val =>
    w.running[k]?.map fun call => complete { w with running := w.running.eraseIdx k } call rc val

/-- The world after a sequence of events, when each of them can happen. -/
def exec (w : World) : List Event → Option World
  | [] => some w
  | e :: es => (step w e).bind fun w' => exec w' es

end XinuRpi5.System.AiplRemote
