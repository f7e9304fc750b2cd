/- source: device/wifi/wifi.c
   digest: The AODV route table, its messages, and a network of nodes that run aodv_ip_in. -/

import Mathlib.Data.List.FinRange
import Mathlib.Algebra.GroupWithZero.Nat

/-!
Link-level addresses are left out: every frame that was ever sent can be
received by any node, at any later time, any number of times or never, which
covers loss, duplication, delay, reordering and every change of topology.
-/

namespace XinuRpi5.Wifi.Aodv

/-- Four address bytes; `ip4eq` is equality. -/
structure Ip where
  a : UInt8
  b : UInt8
  c : UInt8
  d : UInt8
  deriving DecidableEq

/-- `struct aodv_rt`. -/
structure Route where
  dst : Ip
  nh : Ip
  hops : UInt8
  seq : UInt32
  valid : Bool
  deriving DecidableEq

/-- `g_rt`, with `AODV_NRT` entries. -/
abbrev Table := Fin 16 → Route

theorem neZero_slots : NeZero 16 := ⟨by decide⟩

attribute [local instance] neZero_slots

/-- What one node keeps: the route table, its own counters and the ring of
requests it has seen. -/
structure Node where
  rt : Table
  rreqid : UInt16
  myseq : UInt32
  seen : Fin 8 → Ip × UInt16
  seenN : Nat

/-- The slot of the valid entry for `d` that `aodv_find` stops at. -/
def findSlot (t : Table) (d : Ip) : Option (Fin 16) :=
  (List.finRange 16).find? fun i => (t i).valid ∧ (t i).dst = d

def aodvFind (t : Table) (d : Ip) : Option Route := (findSlot t d).map t

/-- The slot that `aodv_add` works on: the destination's own, a free one, or
the first. -/
def addSlot (t : Table) (d : Ip) : Fin 16 :=
  match findSlot t d with
  | some i => i
  | none => ((List.finRange 16).find? fun i => ¬ (t i).valid).getD 0

def aodvAdd (t : Table) (d nh : Ip) (hops : UInt8) (seq : UInt32) : Table :=
  let r := addSlot t d
  if (t r).valid ∧ (t r).hops ≤ hops ∧ (t r).dst = d then t
  else Function.update t r ⟨d, nh, hops, seq, true⟩

/-- `aodv_seen` compares `g_seen_n` entries, but the ring has eight: `beyond`
says whether a match turns up in the memory behind it. -/
def aodvSeen (n : Node) (o : Ip) (id : UInt16) (beyond : Bool) : Bool :=
  (List.finRange 8).any (fun i => i.val < n.seenN ∧ n.seen i = (o, id)) || (8 < n.seenN && beyond)

def aodvRemember (n : Node) (o : Ip) (id : UInt16) : Node :=
  { n with
    seen := Function.update n.seen ⟨n.seenN % 8, Nat.mod_lt _ (by decide)⟩ (o, id)
    seenN := n.seenN + 1 }

structure Msg where
  type : UInt8
  rid : UInt16
  orig : Ip
  dst : Ip
  seq : UInt32
  hop : UInt8
  deriving DecidableEq

def aodvRreq : UInt8 := 1
def aodvRrep : UInt8 := 2
def aodvPort : Nat := 654

/-- An IPv4 frame; `dport` and `body` are read of UDP frames only. -/
structure Frame where
  src : Ip
  dst : Ip
  proto : UInt8
  dport : Nat
  body : Msg
  deriving DecidableEq

/-- `wifi_udp_tx` to the AODV port. -/
def udpTx (me dip : Ip) (p : Msg) : Frame := ⟨me, dip, 17, aodvPort, p⟩

def broadcast : Ip := ⟨255, 255, 255, 255⟩

def aodvSendRreq (me : Ip) (n : Node) (dst : Ip) : Node × Frame :=
  let n := { n with rreqid := n.rreqid + 1, myseq := n.myseq + 1 }
  (aodvRemember n me n.rreqid,
    udpTx me broadcast ⟨aodvRreq, n.rreqid, me, dst, n.myseq, 0⟩)

/-- What a call takes from outside: the bytes behind the ring, whether
`wifi_arp_resolve` got an answer, and the two payload bytes of an RREP that are
never written. -/
structure Env where
  beyond : Bool
  arp : Bool
  junk : UInt16

/-- `aodv_ip_in`: the node afterwards, the frame it sends and whether the frame
was consumed. -/
def aodvIpIn (me : Ip) (n : Node) (f : Frame) (env : Env) : Node × Option Frame × Bool :=
  if f.proto = 17 then
    if f.dport ≠ aodvPort then (n, none, false)
    else
      let p := f.body
      if p.type = aodvRreq then
        if aodvSeen n p.orig p.rid env.beyond then (n, none, true)
        else
          let n := aodvRemember n p.orig p.rid
          let n := { n with rt := aodvAdd n.rt p.orig f.src (p.hop + 1) p.seq }
          if p.dst = me then
            let n := { n with myseq := n.myseq + 1 }
            (n, some (udpTx me f.src ⟨aodvRrep, env.junk, p.orig, me, n.myseq, 0⟩), true)
          else (n, some (udpTx me broadcast { p with hop := p.hop + 1 }), true)
      else if p.type = aodvRrep then
        let n := { n with rt := aodvAdd n.rt p.dst f.src (p.hop + 1) p.seq }
        if p.orig = me then (n, none, true)
        else
          match aodvFind n.rt p.orig with
          | some rr =>
            if env.arp then (n, some (udpTx me rr.nh { p with hop := p.hop + 1 }), true)
            else (n, none, true)
          | none => (n, none, true)
      else (n, none, true)
  else if f.dst ≠ me ∧ f.dst.a ≠ 255 then
    match aodvFind n.rt f.dst with
    | some _ => (n, if env.arp then some f else none, true)
    | none => (n, none, true)
  else (n, none, false)

/-- Nodes are named by their own address. `air` holds every frame ever sent. -/
structure Net where
  nodes : Ip → Node
  air : List Frame

def zeroIp : Ip := ⟨0, 0, 0, 0⟩

def powerOn : Net where
  nodes _ :=
    { rt := fun _ => ⟨zeroIp, zeroIp, 0, 0, false⟩
      rreqid := 0
      myseq := 0
      seen := fun _ => (zeroIp, 0)
      seenN := 0 }
  air := []

def Control (f : Frame) : Prop := f.proto = 17 ∧ f.dport = aodvPort

instance (f : Frame) : Decidable (Control f) := inferInstanceAs (Decidable (_ ∧ _))

inductive Event where
  /-- `wifi_aodv` asks for a route. -/
  | discover (me dst : Ip)
  /-- A frame that was sent arrives. -/
  | receive (me : Ip) (f : Frame) (env : Env)
  /-- Other traffic is put on the air. -/
  | traffic (f : Frame)

def step (net : Net) : Event → Option Net
  | .discover me dst =>
    let (n, f) := aodvSendRreq me (net.nodes me) dst
    some ⟨Function.update net.nodes me n, f :: net.air⟩
  | .receive me f env =>
    if f ∈ net.air then
      let (n, sent, _) := aodvIpIn me (net.nodes me) f env
      some ⟨Function.update net.nodes me n, sent.toList ++ net.air⟩
    else none
  | .traffic f => if Control f then none else some { net with air := f :: net.air }

/-- A packet for `d` at `n` is relayed to `m`: `aodv_ip_in` looks a destination
up unless it is the node itself. -/
def Follows (net : Net) (d n m : Ip) : Prop :=
  n ≠ d ∧ ∃ r, aodvFind (net.nodes n).rt d = some r ∧ r.nh = m

end XinuRpi5.Wifi.Aodv
