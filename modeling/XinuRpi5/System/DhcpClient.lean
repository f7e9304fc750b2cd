/- source: system/dhcp_client.c
   digest: The DHCP client: its states, what it stores from messages, and when that is one lease. -/

import XinuRpi5.Lib.GuardedRuns
import XinuRpi5.System.TcpHandler

namespace XinuRpi5.System.DhcpClient

open Lib.GuardedRuns TcpHandler

abbrev Ip := List UInt8

def zeroIp : Ip := [0, 0, 0, 0]

structure Options where
  msgType : Nat
  serverId : Ip
  router : Ip
  netmask : Ip
  dns : Ip
  lease : Nat

def Options.put (opts : Options) (f : Frame) (od code olen : Nat) : Options :=
  match code with
  | 53 => if 1 ≤ olen then { opts with msgType := f.at8 od } else opts
  | 54 => if 4 ≤ olen then { opts with serverId := f.bytes od 4 } else opts
  | 3 => if 4 ≤ olen then { opts with router := f.bytes od 4 } else opts
  | 1 => if 4 ≤ olen then { opts with netmask := f.bytes od 4 } else opts
  | 6 => if 4 ≤ olen then { opts with dns := f.bytes od 4 } else opts
  | 51 => if 4 ≤ olen then { opts with lease := f.at32 od } else opts
  | _ => opts

/-- The option loop; every round moves `o` on. -/
def readOptions (f : Frame) (bp bpLen : Nat) : Nat → Nat → Options → Options
  | 0, _, opts => opts
  | rounds + 1, o, opts =>
    if o < bpLen then
      let code := f.at8 (bp + o)
      if code = 0 then readOptions f bp bpLen rounds (o + 1) opts
      else if code = 255 then opts
      else if bpLen ≤ o + 1 then opts
      else
        let olen := f.at8 (bp + (o + 1))
        if bpLen < o + 2 + olen then opts
        else readOptions f bp bpLen rounds (o + 2 + olen) (opts.put f (bp + (o + 2)) code olen)
    else opts

structure Message where
  xid : Nat
  yiaddr : Ip
  opts : Options

def bootpAt (f : Frame) : Nat := f.tcpAt + 8

/-- The checks of `dhcp_handle_packet` and the options. The ports of UDP stand where those of
TCP do. -/
def parse (xid : Nat) (f : Frame) : Option Message :=
  if f.len < 14 + 20 + 8 + 240 + 4 then none
  else if f.at8 12 ≠ 8 ∨ f.at8 13 ≠ 0 then none
  else if f.at8 14 / 16 ≠ 4 then none
  else if f.at8 23 ≠ 17 then none
  else if f.srcPort ≠ 67 ∨ f.dstPort ≠ 68 then none
  else
    let bp := bootpAt f
    let bpLen := f.len - bp
    if bpLen < 240 then none
    else if f.at32 (bp + 4) ≠ xid then none
    else if f.at32 (bp + 236) ≠ 0x63825363 then none
    else some ⟨f.at32 (bp + 4), f.bytes (bp + 16) 4,
      readOptions f bp bpLen bpLen 240 ⟨0, zeroIp, zeroIp, zeroIp, zeroIp, 0⟩⟩

theorem parse_own {xid : Nat} {f : Frame} {m : Message} (read : parse xid f = some m) :
    m.xid = xid := by
  unfold parse at read
  simp only at read
  split_ifs at read with _ _ _ _ _ _ own
  obtain rfl := Option.some.inj read
  exact not_not.mp own

inductive Phase where
  | init
  | discoverSent
  | requestSent
  | bound
  deriving DecidableEq

/-- The static variables of `dhcp_client.c`. -/
structure Client where
  state : Phase
  myMac : List UInt8
  myIp : Ip
  serverIp : Ip
  routerIp : Ip
  netmask : Ip
  dnsIp : Ip
  leaseSecs : Nat
  xid : Nat
  discoverCount : Nat
  offerCount : Nat
  requestCount : Nat
  ackCount : Nat

def boot : Client :=
  ⟨.init, [0, 0, 0, 0, 0, 0], zeroIp, zeroIp, zeroIp, zeroIp, zeroIp, 0, 0xC0FFEE00, 0, 0, 0, 0⟩

def dhcpSetMac (c : Client) (mac : List UInt8) : Client :=
  { c with
    myMac := mac
    xid := c.xid ^^^ ((mac.getD 3 0).toNat * 65536 + (mac.getD 4 0).toNat * 256 +
      (mac.getD 5 0).toNat) }

def dhcpSendDiscover (c : Client) : Client :=
  { c with
    discoverCount := c.discoverCount + 1
    state := if c.state = .init then .discoverSent else c.state }

def dhcpSendRequest (c : Client) : Client :=
  { c with requestCount := c.requestCount + 1, state := .requestSent }

def handleMessage (c : Client) (m : Message) : Int × Client :=
  if m.opts.msgType = 2 ∧ c.state = .discoverSent then
    (1, dhcpSendRequest { c with
      offerCount := c.offerCount + 1
      myIp := m.yiaddr
      serverIp := m.opts.serverId
      routerIp := m.opts.router
      netmask := m.opts.netmask
      dnsIp := m.opts.dns
      leaseSecs := m.opts.lease })
  else if m.opts.msgType = 5 ∧ c.state = .requestSent then
    (1, { c with ackCount := c.ackCount + 1, myIp := m.yiaddr, state := .bound })
  else if m.opts.msgType = 6 then (1, { c with state := .init })
  else (0, c)

def dhcpHandlePacket (c : Client) (f : Frame) : Int × Client :=
  match parse c.xid f with
  | none => (0, c)
  | some m => handleMessage c m

/-- The client, and the ACK that it accepted last with the transaction it had then. -/
structure State where
  client : Client
  accepted : Option (Nat × Message)

inductive Op where
  | setMac (mac : List UInt8)
  | discover
  | receive (f : Frame)

def ackOf (c : Client) (f : Frame) : Option (Nat × Message) :=
  match parse c.xid f with
  | none => none
  | some m => if m.opts.msgType = 5 ∧ c.state = .requestSent then some (c.xid, m) else none

def step (s : State) : Op → State
  | .setMac mac => { s with client := dhcpSetMac s.client mac }
  | .discover => { s with client := dhcpSendDiscover s.client }
  | .receive f => ⟨(dhcpHandlePacket s.client f).2, (ackOf s.client f).or s.accepted⟩

def start : State := ⟨boot, none⟩

def SameOptions (c : Client) (m : Message) : Prop :=
  c.netmask = m.opts.netmask ∧ c.routerIp = m.opts.router ∧ c.dnsIp = m.opts.dns ∧
    c.leaseSecs = m.opts.lease

/-- A bound client reports the values of one ACK of its transaction, any other no address. -/
def Consistent (s : State) : Prop :=
  if s.client.state = .bound then
    ∃ ack ∈ s.accepted, ack.2.xid = ack.1 ∧ s.client.myIp = ack.2.yiaddr ∧
      SameOptions s.client ack.2
  else s.client.myIp = zeroIp

instance (c : Client) (m : Message) : Decidable (SameOptions c m) :=
  inferInstanceAs (Decidable (_ ∧ _))

instance (s : State) : Decidable (Consistent s) := inferInstanceAs (Decidable (ite _ _ _))

/-- The message leaves no address to a client that is not bound, and no options of another
message to one that is. -/
def Fits (c : Client) (m : Message) : Prop :=
  if m.opts.msgType = 2 ∧ c.state = .discoverSent then m.yiaddr = zeroIp
  else if m.opts.msgType = 5 ∧ c.state = .requestSent then SameOptions c m
  else if m.opts.msgType = 6 then c.myIp = zeroIp
  else True

def Meets (s : State) : Op → Prop
  | .receive f => ∀ m, parse s.client.xid f = some m → Fits s.client m
  | _ => True

theorem start_consistent : Consistent start := rfl

theorem message_consistent {s : State} (before : Consistent s) {f : Frame} {m : Message}
    (read : parse s.client.xid f = some m) :
    Consistent (step s (.receive f)) ↔ Fits s.client m := by
  have next : step s (.receive f) =
      ⟨(handleMessage s.client m).2, (if m.opts.msgType = 5 ∧ s.client.state = .requestSent then
        some (s.client.xid, m) else none).or s.accepted⟩ := by
    simp only [step, dhcpHandlePacket, ackOf, read]
  rw [next]
  unfold handleMessage Fits
  by_cases offer : m.opts.msgType = 2 ∧ s.client.state = .discoverSent
  · rw [if_pos offer, if_pos offer]
    exact Iff.rfl
  · rw [if_neg offer, if_neg offer]
    by_cases ack : m.opts.msgType = 5 ∧ s.client.state = .requestSent
    · rw [if_pos ack, if_pos ack, if_pos ack]
      change (∃ ack ∈ some (s.client.xid, m), ack.2.xid = ack.1 ∧ m.yiaddr = ack.2.yiaddr ∧
        SameOptions s.client ack.2) ↔ SameOptions s.client m
      constructor
      · rintro ⟨ack, same, _, _, options⟩
        obtain rfl := Option.some.inj same
        exact options
      · intro options
        exact ⟨(s.client.xid, m), rfl, parse_own read, rfl, options⟩
    · rw [if_neg ack, if_neg ack, if_neg ack, Option.none_or]
      by_cases nak : m.opts.msgType = 6
      · rw [if_pos nak, if_pos nak]
        exact Iff.rfl
      · rw [if_neg nak, if_neg nak]
        exact iff_of_true before trivial

theorem step_consistent (s : State) (op : Op) (before : Consistent s) :
    Consistent (step s op) ↔ Meets s op := by
  cases op with
  | setMac mac => exact iff_of_true before trivial
  | discover =>
    refine iff_of_true ?_ trivial
    unfold Consistent step dhcpSendDiscover
    by_cases init : s.client.state = .init
    · unfold Consistent at before
      rw [init, if_neg (by decide)] at before
      simp only [init, if_true]
      exact before
    · simp only [init, if_false]
      exact before
  | receive f =>
    cases read : parse s.client.xid f with
    | none =>
      have stays : step s (.receive f) = s := by
        simp only [step, dhcpHandlePacket, ackOf, read, Option.none_or]
      rw [stays]
      refine iff_of_true before fun m found => ?_
      rw [read] at found
      cases found
    | some m =>
      rw [message_consistent before read]
      constructor
      · intro fits m' found
        rw [read] at found
        obtain rfl := Option.some.inj found
        exact fits
      · intro meets
        exact meets m read

/-- The lease is in order at every moment of a run exactly if every message fits. -/
theorem lease_consistent (ops : List Op) :
    (∀ k, Consistent ((ops.take k).foldl step start)) ↔
      ∀ k op, ops[k]? = some op → Meets ((ops.take k).foldl step start) op :=
  always_iff step_consistent ops start_consistent

def reply (msgType : UInt8) (yiaddr netmask : Ip) : Frame :=
  let bytes := List.replicate 12 0 ++ [8, 0, 0x45] ++ List.replicate 8 0 ++ [17] ++
    List.replicate 10 0 ++ [0, 67, 0, 68, 0, 0, 0, 0, 2, 1, 6, 0, 0xC0, 0xFF, 0xEE, 0] ++
    List.replicate 8 0 ++ yiaddr ++ List.replicate 216 0 ++
    [0x63, 0x82, 0x53, 0x63, 53, 1, msgType, 1, 4] ++ netmask ++ [255]
  ⟨fun i => bytes.getD i 0, bytes.length⟩

/-- An address is reported behind the first OFFER, a mask of the OFFER behind the ACK,
and the address still behind a NAK. -/
theorem lease_mixed :
    let seen (ops : List Op) : State := ops.foldl step start
    let offer : Op := .receive (reply 2 [10, 0, 0, 7] [255, 0, 0, 0])
    let ack : Op := .receive (reply 5 [10, 0, 0, 7] [255, 255, 255, 0])
    let nak : Op := .receive (reply 6 [0, 0, 0, 0] [0, 0, 0, 0])
    ¬Consistent (seen [.discover, offer]) ∧ ¬Consistent (seen [.discover, offer, ack]) ∧
      ¬Consistent (seen [.discover, offer, ack, nak]) := by
  decide +kernel

end XinuRpi5.System.DhcpClient
