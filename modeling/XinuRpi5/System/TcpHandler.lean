/- source: system/tcp_server.c
   digest: Frame checks, request accumulation and the state dispatch of tcp_handle_packet_via. -/

import XinuRpi5.System.TcpServer
import Mathlib.Algebra.Group.Nat.Defs
import Mathlib.Algebra.Group.Int.Defs

namespace XinuRpi5.System.TcpHandler

open Lib.Word64 TcpServer

/-- A receive buffer and the received length; the bytes behind it are whatever
the ring held before. -/
structure Frame where
  byte : Nat → UInt8
  len : Nat

namespace Frame

def at8 (f : Frame) (i : Nat) : Nat := (f.byte i).toNat

def at16 (f : Frame) (i : Nat) : Nat := f.at8 i * 256 + f.at8 (i + 1)

def at32 (f : Frame) (i : Nat) : Nat := f.at16 i * 65536 + f.at16 (i + 2)

def bytes (f : Frame) (start n : Nat) : List UInt8 :=
  (List.range n).map fun i => f.byte (start + i)

/-- `ihl`. -/
def ipHeaderLen (f : Frame) : Nat := f.at8 14 % 16 * 4

/-- The offset of `tcp`. -/
def tcpAt (f : Frame) : Nat := 14 + f.ipHeaderLen

def dataOff (f : Frame) : Nat := f.at8 (f.tcpAt + 12) / 16 * 4

def totalLen (f : Frame) : Nat := f.at16 16

def srcIp (f : Frame) : List UInt8 := f.bytes 26 4

def dstIp (f : Frame) : List UInt8 := f.bytes 30 4

def srcPort (f : Frame) : Nat := f.at16 f.tcpAt

def dstPort (f : Frame) : Nat := f.at16 (f.tcpAt + 2)

end Frame

structure Segment where
  srcMac : List UInt8
  srcIp : List UInt8
  srcPort : Nat
  seq : Nat
  ack : Nat
  flags : Flags
  win : Nat
  data : List UInt8
  deriving DecidableEq

def flagsOf (b : Nat) : Flags :=
  ⟨b.testBit 0, b.testBit 1, b.testBit 2, b.testBit 3, b.testBit 4⟩

def segmentOf (f : Frame) : Segment where
  srcMac := f.bytes 6 6
  srcIp := f.srcIp
  srcPort := f.srcPort
  seq := f.at32 (f.tcpAt + 4)
  ack := f.at32 (f.tcpAt + 8)
  flags := flagsOf (f.at8 (f.tcpAt + 13))
  win := f.at16 (f.tcpAt + 14)
  data := f.bytes (f.tcpAt + f.dataOff) (f.totalLen - f.ipHeaderLen - f.dataOff)

def ForUs (s : Server) (f : Frame) (via : Bool) : Prop :=
  54 ≤ f.len ∧ f.at8 12 = 8 ∧ f.at8 13 = 0 ∧ f.at8 14 / 16 = 4 ∧ f.at8 23 = 6 ∧
    (f.dstIp = s.myIp ∨ via = true ∧ f.dstIp = s.wifiIp) ∧ f.dstPort = s.listenPort

def WellSized (f : Frame) : Prop :=
  20 ≤ f.dataOff ∧ f.ipHeaderLen + f.dataOff ≤ f.totalLen ∧ f.totalLen + 14 ≤ f.len

instance (s : Server) (f : Frame) (via : Bool) : Decidable (ForUs s f via) :=
  inferInstanceAs (Decidable (_ ∧ _))

instance (f : Frame) : Decidable (WellSized f) := inferInstanceAs (Decidable (_ ∧ _))

def headerEnd (buf : List UInt8) : Option Nat :=
  (List.range buf.length).findSome? fun i =>
    if (buf.drop i).take 4 = [13, 10, 13, 10] then some (i + 4) else none

def toLower (c : UInt8) : UInt8 := if 65 ≤ c ∧ c ≤ 90 then c + 32 else c

def contentLengthName : List UInt8 :=
  "content-length:".toList.map fun c => UInt8.ofNat c.toNat

def decimal (ds : List UInt8) : Nat :=
  (ds.takeWhile fun c => 48 ≤ c ∧ c ≤ 57).foldl (fun v c => v * 10 + (c.toNat - 48)) 0

/-- The first `Content-Length` in the headers. -/
def contentLength (buf : List UInt8) (headers : Nat) : Option Nat :=
  (List.range headers).findSome? fun i =>
    if i + 15 < headers ∧ ((buf.drop i).take 15).map toLower = contentLengthName then
      some (decimal ((buf.drop (i + 15)).dropWhile fun c => c = 32))
    else none

/-- A C signed integer of `w` bits. -/
def signed (w x : Nat) : Int :=
  if x % 2 ^ w < 2 ^ (w - 1) then ((x % 2 ^ w : Nat) : Int) else (x % 2 ^ w : Nat) - 2 ^ w

def httpComplete (buf : List UInt8) : Bool :=
  match headerEnd buf with
  | none => false
  | some headers =>
    match contentLength buf headers with
    | none => true
    | some n => signed 64 n < 0 ∨ (headers : Int) + signed 32 n ≤ buf.length

/-- `sizeof(g_req) - 1`. -/
def reqCap : Nat := 65535

def accumulate (req data : List UInt8) : List UInt8 := req ++ data.take (reqCap - req.length)

/-- The stores that every segment causes before its sender is looked at. -/
def touch (env : Env) (seg : Segment) (c : Conn) : Line :=
  let c := { c with lastMs := env.now, peerWin := seg.win }
  if seg.flags.ack ∧ 0 < c.sndLen then tcpOnAck env ⟨c, []⟩ seg.ack else ⟨c, []⟩

/-- The `LISTEN` branch: only a SYN opens a connection. -/
def onListen (env : Env) (s : Server) (via : Bool) (seg : Segment) (l : Line) :
    Server × List Sent :=
  if seg.flags.syn then
    let c := { l.conn with
      via := via
      peerMac := seg.srcMac
      peerIp := seg.srcIp
      peerPort := seg.srcPort
      peerSeq := add64 seg.seq 1
      mySeq := s.isnSeed
      sndLen := 0
      sndUna := 0
      sndNxt := 0
      sndFinPending := false
      sndRetries := 0
      peerFin := false
      finAcked := false }
    let out := (tcpSend env ⟨c, l.out⟩ flagsSynAck []).2
    ({ s with
        conn := { c with mySeq := add64 c.mySeq 1, state := .synRcvd }
        isnSeed := add64 s.isnSeed 256
        req := [] }, out)
  else ({ s with conn := l.conn }, l.out)

def onSynRcvd (s : Server) (seg : Segment) (l : Line) : Server × List Sent :=
  if seg.flags.rst then ({ s with conn := { l.conn with state := .listen } }, l.out)
  else if seg.flags.ack ∧ seg.ack = l.conn.mySeq then
    ({ s with conn := { l.conn with state := .established }, req := [] }, l.out)
  else ({ s with conn := l.conn }, l.out)

def acceptReq (req : List UInt8) (c : Conn) (seg : Segment) : List UInt8 :=
  if seg.seq = c.peerSeq then accumulate req seg.data else req

def acceptConn (c : Conn) (seg : Segment) : Conn :=
  if seg.seq = c.peerSeq then { c with peerSeq := add64 seg.seq seg.data.length } else c

/-- The data part of the `ESTABLISHED` branch. -/
def onData (env : Env) (s : Server) (seg : Segment) (l : Line) : Server × List Sent :=
  let req := acceptReq s.req l.conn seg
  let c := acceptConn l.conn seg
  let out := (tcpSend env ⟨c, l.out⟩ flagsAck []).2
  if httpComplete req then
    let l := tcpSendResponse env ⟨c, out⟩
    ({ s with conn := l.conn, req := [] }, l.out)
  else ({ s with conn := c, req := req }, out)

/-- The FIN part of the `ESTABLISHED` branch. -/
def onPeerFin (env : Env) (s : Server) (seg : Segment) (l : Line) : Server × List Sent :=
  let c := { l.conn with peerSeq := add64 seg.seq 1, peerFin := true }
  if c.sndNxt < c.sndLen ∨ c.sndFinPending = true then
    let out := (tcpSend env ⟨c, l.out⟩ flagsAck []).2
    let l := tcpPump env ⟨c, out⟩
    ({ s with conn := l.conn }, l.out)
  else
    let out := (tcpSend env ⟨c, l.out⟩ flagsFinAck []).2
    ({ s with conn := { c with mySeq := add64 c.mySeq 1, state := .lastAck } }, out)

def onEstablished (env : Env) (s : Server) (seg : Segment) (l : Line) : Server × List Sent :=
  if seg.flags.rst then ({ s with conn := { l.conn with state := .listen } }, l.out)
  else
    let (s, out) :=
      if seg.data ≠ [] then onData env s seg l else ({ s with conn := l.conn }, l.out)
    if seg.flags.fin then onPeerFin env s seg ⟨s.conn, out⟩ else (s, out)

def onFinWait1 (env : Env) (s : Server) (seg : Segment) (l : Line) : Server × List Sent :=
  let c := if seg.flags.ack ∧ seg.ack = l.conn.mySeq then { l.conn with finAcked := true }
    else l.conn
  let l : Line :=
    if seg.flags.fin then
      let c := { c with peerSeq := add64 seg.seq 1, peerFin := true }
      ⟨c, (tcpSend env ⟨c, l.out⟩ flagsAck []).2⟩
    else ⟨c, l.out⟩
  let c := if l.conn.finAcked then { l.conn with state := .listen } else l.conn
  ({ s with conn := c }, l.out)

def onLastAck (s : Server) (seg : Segment) (l : Line) : Server × List Sent :=
  if seg.flags.ack ∧ seg.ack = l.conn.mySeq then
    ({ s with conn := { l.conn with state := .listen } }, l.out)
  else ({ s with conn := l.conn }, l.out)

def FromPeer (c : Conn) (seg : Segment) : Prop :=
  c.peerPort = seg.srcPort ∧ c.peerIp = seg.srcIp

instance (c : Conn) (seg : Segment) : Decidable (FromPeer c seg) :=
  inferInstanceAs (Decidable (_ ∧ _))

/-- `tcp_handle_packet_via` on a segment that passed the checks. -/
def receive (env : Env) (s : Server) (via : Bool) (seg : Segment) : Server × List Sent :=
  let l := touch env seg s.conn
  match l.conn.state with
  | .closed | .listen => onListen env s via seg l
  | st =>
    if FromPeer l.conn seg then
      match st with
      | .synRcvd => onSynRcvd s seg l
      | .established => onEstablished env s seg l
      | .finWait1 => onFinWait1 env s seg l
      | _ => onLastAck s seg l
    else ({ s with conn := l.conn }, l.out)

/-- `tcp_handle_packet_via`: the new state, what it transmitted and its result. -/
def tcpHandlePacketVia (env : Env) (s : Server) (f : Frame) (via : Bool) :
    Server × List Sent × Nat :=
  if ForUs s f via then
    if WellSized f then
      let (s, out) := receive env s via (segmentOf f)
      (s, out, 1)
    else (s, [], 1)
  else (s, [], 0)

def bytes16 (n : Nat) : List UInt8 := [UInt8.ofNat (n / 256), UInt8.ofNat n]

def bytes32 (n : Nat) : List UInt8 := bytes16 (n / 65536) ++ bytes16 n

def flagsByte (fl : Flags) : UInt8 :=
  (if fl.fin then 1 else 0) + (if fl.syn then 2 else 0) + (if fl.rst then 4 else 0) +
    (if fl.psh then 8 else 0) + (if fl.ack then 16 else 0)

/-- The frame in which a client without header options sends a segment. -/
def frameOf (dstIp : List UInt8) (dstPort : Nat) (seg : Segment) : Frame :=
  let bytes := List.replicate 6 0 ++ seg.srcMac ++ [8, 0, 69, 0] ++ bytes16 (40 + seg.data.length) ++
    [0, 0, 0, 0, 64, 6, 0, 0] ++ seg.srcIp ++ dstIp ++ bytes16 seg.srcPort ++ bytes16 dstPort ++
    bytes32 seg.seq ++ bytes32 seg.ack ++ [80, flagsByte seg.flags] ++ bytes16 seg.win ++
    [0, 0, 0, 0] ++ seg.data
  ⟨fun i => bytes.getD i 0, bytes.length⟩

def boot (ip wifiIp : List UInt8) : Server where
  conn := ⟨.closed, List.replicate 6 0, List.replicate 4 0, 0, 0, 0, false, 0, [], 0, 0, 0, 0, 0, 0,
    false, false, false, 0⟩
  req := []
  isnSeed := 3735928559
  myIp := ip
  wifiIp := wifiIp
  listenPort := 23

inductive Event where
  | packet (frame : Frame) (via : Bool) (env : Env)
  | tick (env : Env)
  | reap (now : Nat)
  | listen (port : Nat)
  | setIp (ip : List UInt8)

def step (s : Server) : Event → Server × List Sent
  | .packet frame via env =>
    ((tcpHandlePacketVia env s frame via).1, (tcpHandlePacketVia env s frame via).2.1)
  | .tick env =>
    ({ s with conn := (tcpRetransmitTick env s.conn).conn }, (tcpRetransmitTick env s.conn).out)
  | .reap now => (tcpConnReap now s, [])
  | .listen port => ({ s with listenPort := port, conn := { s.conn with state := .listen } }, [])
  | .setIp ip => ({ s with myIp := ip }, [])

def clockAt (now : Nat) (response : List UInt8) : Env :=
  ⟨now, now, fun _ => some now, response⟩

def host : List UInt8 := [192, 168, 3, 100]

def flagsSyn : Flags := ⟨false, true, false, false, false⟩

def clientSegment (seq ack : Nat) (flags : Flags) (data : List UInt8) : Segment :=
  ⟨[2, 0, 0, 0, 0, 1], [192, 168, 3, 7], 40000, seq, ack, flags, 8192, data⟩

def fromClient (now : Nat) (seg : Segment) (response : List UInt8) : Event :=
  .packet (frameOf host 23 seg) false (clockAt now response)

end XinuRpi5.System.TcpHandler
