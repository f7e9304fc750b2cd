/- source: system/tcp_server.c
   digest: The one-connection TCP server: send pump, timers and the segment handler. -/

import XinuRpi5.Lib.Word64
import Mathlib.Data.List.Basic

/-!
Sequence state is kept in C `unsigned long`, so it is a number below `2 ^ 64`
here and its sums wrap there; what goes on the wire is cut to 32 bits. A call
of the handler or of a timer is one step. What it takes from outside is in
`Env`: the clock, the outcome of each transmission attempt in order with the
clock after it, and the response text that `http_build` produced. Statistics
counters, console output and the write-only field `greeted` are left out, and
so are the checksums and addresses of outgoing frames, which nothing reads
back.
-/

namespace XinuRpi5.System.TcpServer

open Lib.Word64

inductive TcpState where
  | closed
  | listen
  | synRcvd
  | established
  | finWait1
  | lastAck
  deriving DecidableEq

structure Flags where
  fin : Bool
  syn : Bool
  rst : Bool
  psh : Bool
  ack : Bool
  deriving DecidableEq

def tcpMss : Nat := 1460

def tcpSndBuf : Nat := 16384

def tcpMaxInflight : Nat := 4 * tcpMss

def tcpRtoMs : Nat := 500

def tcpMaxRetries : Nat := 6

/-- `struct tcp_conn`; `snd` holds the bytes of the buffer below `sndLen`. -/
structure Conn where
  state : TcpState
  peerMac : List UInt8
  peerIp : List UInt8
  peerPort : Nat
  mySeq : Nat
  peerSeq : Nat
  via : Bool
  lastMs : Nat
  snd : List UInt8
  sndLen : Nat
  sndUna : Nat
  sndNxt : Nat
  sndSeq0 : Nat
  sndLastTxMs : Nat
  sndRetries : Nat
  sndFinPending : Bool
  peerFin : Bool
  finAcked : Bool
  peerWin : Nat
  deriving DecidableEq

/-- The file's static state; `req` is the part of `g_req` below `g_reqlen`. -/
structure Server where
  conn : Conn
  req : List UInt8
  isnSeed : Nat
  myIp : List UInt8
  wifiIp : List UInt8
  listenPort : Nat

/-- One call of the transmitter; `ok` is whether it took the frame. -/
structure Sent where
  flags : Flags
  seq : Nat
  ack : Nat
  payload : List UInt8
  ok : Bool
  deriving DecidableEq

structure Env where
  now : Nat
  respNow : Nat
  tx : Nat → Option Nat
  response : List UInt8

/-- The connection together with what this step has put on the wire so far. -/
structure Line where
  conn : Conn
  out : List Sent

def cut32 (x : Nat) : Nat := x % 4294967296

/-- `tcp_send`: the clock after the transmission, or `none` when it failed. -/
def tcpSend (env : Env) (l : Line) (flags : Flags) (payload : List UInt8) :
    Option Nat × List Sent :=
  if 1518 < 54 + payload.length then (none, l.out)
  else
    let done := env.tx l.out.length
    let sent := ⟨flags, cut32 l.conn.mySeq, cut32 l.conn.peerSeq, payload, done.isSome⟩
    (done, l.out ++ [sent])

def flagsAck : Flags := ⟨false, false, false, false, true⟩

def flagsPshAck : Flags := ⟨false, false, false, true, true⟩

def flagsFinAck : Flags := ⟨true, false, false, false, true⟩

def flagsSynAck : Flags := ⟨false, true, false, false, true⟩

/-- The in-flight limit of `tcp_pump`. -/
def pumpLimit (peerWin : Nat) : Nat :=
  let limit := if peerWin ≠ 0 ∧ peerWin < tcpMaxInflight then peerWin else tcpMaxInflight
  if limit < tcpMss then tcpMss else limit

def Sendable (c : Conn) : Prop :=
  c.sndNxt < c.sndLen ∧ (c.sndNxt : Int) - c.sndUna < pumpLimit c.peerWin

instance (c : Conn) : Decidable (Sendable c) := inferInstanceAs (Decidable (_ ∧ _))

/-- The loop of `tcp_pump`; every round sends at least one byte, so the budget
`snd_len - snd_nxt` is never the reason it ends. -/
def pumpLoop (env : Env) : Nat → Line → Line
  | 0, l => l
  | fuel + 1, l =>
    if Sendable l.conn then
      let n := min (l.conn.sndLen - l.conn.sndNxt) tcpMss
      let c := { l.conn with mySeq := add64 l.conn.sndSeq0 l.conn.sndNxt }
      match tcpSend env ⟨c, l.out⟩ flagsPshAck ((c.snd.drop c.sndNxt).take n) with
      | (none, out) => ⟨c, out⟩
      | (some t, out) =>
        pumpLoop env fuel ⟨{ c with sndNxt := c.sndNxt + n, sndLastTxMs := t }, out⟩
    else l

/-- The FIN part of `tcp_pump`. -/
def pumpFin (env : Env) (l : Line) : Line :=
  if l.conn.sndFinPending ∧ l.conn.sndLen ≤ l.conn.sndNxt then
    let c := { l.conn with mySeq := add64 l.conn.sndSeq0 l.conn.sndLen }
    match tcpSend env ⟨c, l.out⟩ flagsFinAck [] with
    | (none, out) => ⟨c, out⟩
    | (some t, out) =>
      ⟨{ c with
          mySeq := add64 c.mySeq 1
          sndFinPending := false
          state := if c.peerFin then .lastAck else .finWait1
          sndLastTxMs := t }, out⟩
  else l

def Pumping (st : TcpState) : Prop := st = .established ∨ st = .finWait1

instance (st : TcpState) : Decidable (Pumping st) := inferInstanceAs (Decidable (_ ∨ _))

def tcpPump (env : Env) (l : Line) : Line :=
  if Pumping l.conn.state then
    let l := pumpLoop env (l.conn.sndLen - l.conn.sndNxt) l
    let l :=
      if 0 < l.conn.sndLen then
        { l with conn := { l.conn with mySeq := add64 l.conn.sndSeq0 l.conn.sndNxt } }
      else l
    pumpFin env l
  else l

/-- `tcp_send_response` of the text that `http_build` left in `http_resp`. -/
def tcpSendResponse (env : Env) (l : Line) : Line :=
  let body := env.response.take tcpSndBuf
  tcpPump env { l with conn := { l.conn with
    snd := body
    sndLen := body.length
    sndUna := 0
    sndNxt := 0
    sndSeq0 := l.conn.mySeq
    sndRetries := 0
    sndFinPending := true
    sndLastTxMs := env.respNow } }

/-- An acknowledgement that moves `snd_una`. -/
def Slides (c : Conn) (ack : Nat) : Prop :=
  sub64 ack c.sndSeq0 ≤ c.sndLen ∧ c.sndUna < sub64 ack c.sndSeq0

instance (c : Conn) (ack : Nat) : Decidable (Slides c ack) := inferInstanceAs (Decidable (_ ∧ _))

def slide (c : Conn) (ack : Nat) : Conn :=
  if 0 < c.sndLen ∧ Slides c ack then
    { c with sndUna := sub64 ack c.sndSeq0, sndRetries := 0 }
  else c

def tcpOnAck (env : Env) (l : Line) (ack : Nat) : Line :=
  tcpPump env { l with conn := slide l.conn ack }

/-- The retransmission timer of the connection has something to do and has
expired. -/
def RtoExpired (c : Conn) (now : Nat) : Prop :=
  (c.sndUna < c.sndLen ∨ c.sndFinPending = true) ∧ Pumping c.state ∧
    c.sndLastTxMs ≠ 0 ∧ c.sndLastTxMs ≤ now ∧ tcpRtoMs ≤ now - c.sndLastTxMs

instance (c : Conn) (now : Nat) : Decidable (RtoExpired c now) :=
  inferInstanceAs (Decidable (_ ∧ _))

def tcpRetransmitTick (env : Env) (c : Conn) : Line :=
  if c.sndLen ≤ c.sndUna ∧ c.sndFinPending = false then ⟨c, []⟩
  else if ¬ Pumping c.state then ⟨c, []⟩
  else if c.sndLastTxMs = 0 ∨ env.now < c.sndLastTxMs then
    ⟨{ c with sndLastTxMs := env.now }, []⟩
  else if env.now - c.sndLastTxMs < tcpRtoMs then ⟨c, []⟩
  else
    let c := { c with sndRetries := c.sndRetries + 1 }
    if tcpMaxRetries < c.sndRetries then
      ⟨{ c with sndLen := 0, sndUna := 0, sndNxt := 0, sndFinPending := false }, []⟩
    else tcpPump env ⟨{ c with sndNxt := c.sndUna }, []⟩

def tcpConnReap (now : Nat) (s : Server) : Server :=
  if s.conn.state = .closed ∨ s.conn.state = .listen then s
  else
    let limit := if s.conn.state = .established then 60000 else 5000
    if s.conn.lastMs = 0 ∨ now < s.conn.lastMs then
      { s with conn := { s.conn with lastMs := now } }
    else if now - s.conn.lastMs < limit then s
    else { s with conn := { s.conn with state := .listen }, req := [] }

end XinuRpi5.System.TcpServer
