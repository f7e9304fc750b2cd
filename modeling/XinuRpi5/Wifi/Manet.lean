/- source: device/wifi/wifi.c
   digest: One MANET node: its tables, its packets and what it does with them. -/

import Mathlib.Data.List.Basic

/-!
A packet is the payload of a UDP/5000 frame as `mn_mk` lays it out, so the length checks of
`manet_ip_in` pass. Readings of the system timer are inputs, and the rerouting that
`mn_reroute` runs for its cost alone is the time that it took.
-/

namespace XinuRpi5.Wifi.Manet

def mnPush : UInt8 := 1
def mnAck : UInt8 := 2
def mnPullreq : UInt8 := 3
def mnPullrsp : UInt8 := 4
def mnBg : UInt8 := 5
def mnHello : UInt8 := 6

def maxNbr : Nat := 64

def maxKnown : Nat := 256

/-- `MN_RRV` -/
def maxVerts : Int := 288

/-- The sixteen bytes of the header, and the ids that follow it in a PULLRSP. -/
structure Packet where
  type : UInt8
  src : UInt8
  seq : UInt16
  arg : UInt16
  dri : UInt32
  dir : UInt32
  ids : List UInt16
  deriving DecidableEq

/-- `struct mn_ack`. -/
structure Ack where
  node : UInt8
  rtt : UInt32
  dri : UInt32
  dir : UInt32

/-- The `g_mn_` variables of one board, its last address byte and whether it has an address. -/
structure Node where
  ip3 : UInt8
  haveIp : Bool
  node : UInt8
  nbr : List UInt8
  known : List UInt16
  seq : UInt16
  proxy : Int
  rrp : Int
  rrv : Int
  ackonly : Bool
  filtered : UInt32
  rx : UInt32
  bg : UInt32
  acks : List Ack
  t0 : UInt32
  wait : UInt16
  collect : Bool
  peers : List UInt8
  helloTx : UInt32
  helloLast : UInt32

/-- The variables as they are loaded, on a board with this last address byte. -/
def Node.initial (ip3 : UInt8) : Node where
  ip3 := ip3
  haveIp := true
  node := 0
  nbr := []
  known := []
  seq := 0
  proxy := 1
  rrp := 0
  rrv := 266
  ackonly := false
  filtered := 0
  rx := 0
  bg := 0
  acks := []
  t0 := 0
  wait := 0
  collect := false
  peers := []
  helloTx := 0
  helloLast := 0

/-- What a handler reads of the clock: when the frame came, when the id was taken in, and how
long the rerouting took. -/
structure Clock where
  rx : UInt32
  learned : UInt32
  rerouted : UInt32

def mnHas (known : List UInt16) (id : UInt16) : Bool := known.contains id

def mnLearn (known : List UInt16) (id : UInt16) : List UInt16 × Bool :=
  if mnHas known id then (known, false)
  else (if known.length < maxKnown then known ++ [id] else known, true)

def mnNbrOk (n : Node) (src : UInt8) : Bool := n.nbr.isEmpty || n.nbr.contains src

def mnReroute (n : Node) (clock : Clock) : UInt32 := if n.rrp ≤ 0 then 0 else clock.rerouted

def mnMk (n : Node) (type : UInt8) (seq arg : UInt16) : Packet :=
  ⟨type, n.node, seq, arg, 0, 0, []⟩

def mnPeerSeen (peers : List UInt8) (src : UInt8) : List UInt8 :=
  if src = 0 ∨ src ∈ peers then peers
  else if peers.length < maxNbr then peers ++ [src] else peers

/-- `if (!g_mn_node) g_mn_node = wifi_ip[3]` -/
def Node.named (n : Node) : Node := { n with node := if n.node = 0 then n.ip3 else n.node }

/-- A PUSH is taken in, unless the node stands in for the control group, and acknowledged. -/
def onPush (n : Node) (p : Packet) (clock : Clock) : Node × Option Packet :=
  if ¬ mnNbrOk n p.src then ({ n with filtered := n.filtered + 1 }, none)
  else if n.ackonly then (n, some (mnMk n mnAck p.seq 0))
  else
    ({ n with known := (mnLearn n.known p.arg).1 },
      some { mnMk n mnAck p.seq 0 with
        dri := clock.learned - clock.rx
        dir := mnReroute n clock })

def onAck (n : Node) (p : Packet) (clock : Clock) : Node :=
  if ¬ n.collect ∨ p.seq ≠ n.wait then n
  else if p.src ∈ n.acks.map Ack.node then n
  else if n.acks.length < maxNbr then
    { n with acks := n.acks ++ [⟨p.src, clock.rx - n.t0, p.dri, p.dir⟩] }
  else n

def onBg (n : Node) (p : Packet) : Node :=
  if ¬ mnNbrOk n p.src then { n with filtered := n.filtered + 1 }
  else
    { n with
      known := if n.ackonly then n.known else (mnLearn n.known p.arg).1
      bg := n.bg + 1 }

def onPullreq (n : Node) (p : Packet) : Node × Option Packet :=
  if ¬ mnNbrOk n p.src then ({ n with filtered := n.filtered + 1 }, none)
  else
    (n, some { mnMk n mnPullrsp p.seq (UInt16.ofNat n.known.length) with ids := n.known })

def onPullrsp (n : Node) (p : Packet) : Node :=
  if ¬ mnNbrOk n p.src then n
  else
    { n with
      known := (p.ids.take p.arg.toNat).foldl (fun known id => (mnLearn known id).1) n.known }

/-- `manet_ip_in`: the node afterwards, and the packet that goes back to the sender. -/
def manetIpIn (n : Node) (p : Packet) (clock : Clock) : Node × Option Packet :=
  let n := n.named
  if p.src = n.node then (n, none)
  else
    let n := { n with rx := n.rx + 1, peers := mnPeerSeen n.peers p.src }
    if p.type = mnHello then (n, none)
    else if p.type = mnPush then onPush n p clock
    else if p.type = mnAck then (onAck n p clock, none)
    else if p.type = mnBg then (onBg n p, none)
    else if p.type = mnPullreq then onPullreq n p
    else if p.type = mnPullrsp then (onPullrsp n p, none)
    else (n, none)

def wifiManetNbr (n : Node) (ids : List UInt8) : Node := { n with nbr := ids.take maxNbr }

def wifiManetCfg (n : Node) (proxy rrp rrv ackonly : Int) : Node :=
  { n with
    proxy := if 1 ≤ proxy then proxy else n.proxy
    rrp := if 0 ≤ rrp then rrp else n.rrp
    rrv := if 0 < rrv then (if rrv > maxVerts then maxVerts else rrv) else n.rrv
    ackonly := ackonly ≠ 0 }

/-- The PUSH of the virtual node `k`: the same sequence number, another id and source. -/
def virtualPush (n : Node) (fid : Int) (k : Nat) : Packet :=
  { mnMk n mnPush n.seq (UInt16.ofInt (fid + 1000 * k)) with src := UInt8.ofNat (200 + k % 50) }

/-- `wifi_manet_fire` up to its loop, which handles the frames that arrive until the deadline
passes or every neighbour was counted. -/
def wifiManetFire (n : Node) (fid : Int) (now : UInt32) : Node × List Packet :=
  if ¬ n.haveIp then (n, [])
  else
    let n := n.named
    let n := { n with
      seq := n.seq + 1
      acks := []
      wait := n.seq + 1
      collect := true
      known := (mnLearn n.known (UInt16.ofInt fid)).1
      t0 := now }
    (n, mnMk n mnPush n.seq (UInt16.ofInt fid) ::
      (List.range (n.proxy.toNat - 1)).map fun i => virtualPush n fid (i + 1))

/-- `wifi_manet_fire` after its loop: the node and what it returns. -/
def wifiManetFireDone (n : Node) : Node × Nat := ({ n with collect := false }, n.acks.length)

/-- `wifi_manet_pull` up to its loop. -/
def wifiManetPull (n : Node) : Node × List Packet :=
  if ¬ n.haveIp then (n, [])
  else
    let n := { n.named with seq := n.seq + 1 }
    (n, [mnMk n mnPullreq n.seq 0])

/-- One packet of `wifi_manet_load`, which has sent so many before it. -/
def wifiManetLoad (n : Node) (sent : Nat) : Node × List Packet :=
  if ¬ n.haveIp then (n, [])
  else
    let n := { n.named with seq := n.seq + 1 }
    (n, [{ mnMk n mnBg n.seq (UInt16.ofNat (50000 + sent % 1024)) with
      src := UInt8.ofNat (200 + sent % 50) }])

def mnHelloTick (n : Node) (now : UInt32) : Node × List Packet :=
  if ¬ n.haveIp then (n, [])
  else if n.helloLast ≠ 0 ∧ now - n.helloLast < 2000000 then (n, [])
  else
    let n := { n.named with helloLast := now }
    ({ n with seq := n.seq + 1, helloTx := n.helloTx + 1 }, [mnMk n mnHello n.seq 0])

end XinuRpi5.Wifi.Manet
