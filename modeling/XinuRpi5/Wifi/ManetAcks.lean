/- source: device/wifi/wifi.c
   digest: What an acknowledgement says about the node that it comes from. -/

import XinuRpi5.Lib.GuardedRuns
import XinuRpi5.Wifi.Manet
import Mathlib.Data.List.Nodup
import Mathlib.Order.Nat

/-!
Every frame that was ever sent can be received at any later time, any number of times or never:
a broadcast by every node, a reply by the node whose address it carries.
-/

namespace XinuRpi5.Wifi.ManetAcks

open Lib.GuardedRuns Manet

section Network

variable {N : Type} [DecidableEq N]

/-- A packet on the air: its sender, whom it is addressed to, if not to all, and its payload. -/
structure Frame (N : Type) where
  sender : N
  dest : Option N
  body : Packet
  deriving DecidableEq

/-- An acknowledgement that was counted: the node and the sequence number of the call, its
argument, and about the node that sent it whether its table held the id at that moment, and
whether its `ackonly` flag had ever been on. -/
structure Count (N : Type) where
  caller : N
  seq : UInt16
  sender : N
  knows : Bool
  ackonly : Bool
  deriving DecidableEq

/-- The nodes, the frames sent so far, and what happened: the calls of `wifi_manet_fire` in
progress, how many sequence numbers each node has used, the ids that it fired with them, where
`ackonly` was ever on, and the acknowledgements that were counted. -/
structure Net (N : Type) where
  node : N → Node
  sent : List (Frame N)
  firing : N → Option Int
  used : N → Nat
  fired : N → List (UInt16 × Int)
  everAckonly : N → Bool
  counted : List (Count N)

inductive Op (N : Type) where
  | fire (n : N) (fid : Int) (now : UInt32)
  | done (n : N)
  | pull (n : N)
  | load (n : N) (sent : Nat)
  | hello (n : N) (now : UInt32)
  | cfg (n : N) (proxy rrp rrv ackonly : Int)
  | nbr (n : N) (ids : List UInt8)
  | receive (n : N) (f : Frame N) (clock : Clock)

/-- `n` becomes `r.1` and broadcasts `r.2`. -/
def Net.broadcast (s : Net N) (n : N) (r : Node × List Packet) : Net N :=
  { s with
    node := Function.update s.node n r.1
    sent := s.sent ++ r.2.map fun p => ⟨n, none, p⟩
    used := if r.1.seq = (s.node n).seq then s.used
      else Function.update s.used n (s.used n + 1) }

/-- The acknowledgement that a frame adds to those of the call in progress. -/
def countOf (s : Net N) (n : N) (f : Frame N) (after : Node) : List (Count N) :=
  match s.firing n with
  | none => []
  | some fid =>
    if after.acks.length = (s.node n).acks.length then []
    else [⟨n, after.wait, f.sender, mnHas (s.node f.sender).known (UInt16.ofInt fid),
      s.everAckonly f.sender⟩]

/-- `n` handles a frame and may answer it. -/
def Net.receive (s : Net N) (n : N) (f : Frame N) (clock : Clock) : Net N :=
  let r := manetIpIn (s.node n) f.body clock
  { s with
    node := Function.update s.node n r.1
    sent := s.sent ++ r.2.toList.map fun p => ⟨n, some f.sender, p⟩
    counted := s.counted ++ countOf s n f r.1 }

/-- The calls of a board come one after the other; frames are handled at any time. -/
def step (s : Net N) : Op N → Option (Net N)
  | .fire n fid now =>
    if s.firing n ≠ none then none
    else if ¬ (s.node n).haveIp then some s
    else
      let t := s.broadcast n (wifiManetFire (s.node n) fid now)
      some { t with
        firing := Function.update t.firing n (some fid)
        fired := Function.update t.fired n (t.fired n ++ [((t.node n).seq, fid)]) }
  | .done n =>
    if s.firing n = none then none
    else some { s with
      node := Function.update s.node n (wifiManetFireDone (s.node n)).1
      firing := Function.update s.firing n none }
  | .pull n => if s.firing n ≠ none then none else some (s.broadcast n (wifiManetPull (s.node n)))
  | .load n sent =>
    if s.firing n ≠ none then none else some (s.broadcast n (wifiManetLoad (s.node n) sent))
  | .hello n now => some (s.broadcast n (mnHelloTick (s.node n) now))
  | .cfg n proxy rrp rrv ackonly =>
    some { s with
      node := Function.update s.node n (wifiManetCfg (s.node n) proxy rrp rrv ackonly)
      everAckonly := Function.update s.everAckonly n (s.everAckonly n || ackonly ≠ 0) }
  | .nbr n ids => some { s with node := Function.update s.node n (wifiManetNbr (s.node n) ids) }
  | .receive n f clock =>
    if f ∈ s.sent ∧ (f.dest = none ∨ f.dest = some n) then some (s.receive n f clock) else none

/-- Boards that have just started, with any addresses, ids, whitelists and settings. -/
structure Start (s : Net N) : Prop where
  seq : ∀ n, (s.node n).seq = 0
  idle : ∀ n, (s.node n).collect = false
  silent : s.sent = []
  calls : ∀ n, s.firing n = none
  unused : ∀ n, s.used n = 0
  fresh : ∀ n, s.fired n = []
  ackonly : ∀ n, (s.node n).ackonly = true → s.everAckonly n = true
  counted : s.counted = []

/-- The node that is about to use a sequence number has used fewer than 65535. -/
def Numbered (s : Net N) : Op N → Prop
  | .fire n _ _ => s.used n < 65535
  | .pull n => s.used n < 65535
  | .load n _ => s.used n < 65535
  | .hello n _ => s.used n < 65535
  | _ => True

/-- `manet_ip_in` acknowledges the packet. -/
def Acknowledged (n : Node) (p : Packet) : Prop :=
  p.type = mnPush ∧ p.src ≠ n.named.node ∧ mnNbrOk n p.src = true

/-- A node that acknowledges a PUSH knows the id that was fired, or is about to: the packet
carries that id, not a virtual node's, and the table has room for it. -/
def Learns (s : Net N) : Op N → Prop
  | .receive n f _ =>
    Acknowledged (s.node n) f.body → s.everAckonly n = false →
      ∀ fid, (f.body.seq, fid) ∈ s.fired f.sender →
        mnHas (s.node n).known (UInt16.ofInt fid) = true ∨
          f.body.arg = UInt16.ofInt fid ∧ (s.node n).known.length < maxKnown
  | _ => True

end Network

section Boards

def Named (n : Node) : Prop := n.named.node = n.node

structure Grows (n n' : Node) : Prop where
  ip3 : n'.ip3 = n.ip3
  node : n'.node = n.node ∨ n'.node = n.named.node
  known : ∀ id, mnHas n.known id = true → mnHas n'.known id = true

theorem named_named (n : Node) : Named n.named := by
  unfold Named Node.named
  by_cases unnamed : n.node = 0
  · by_cases zero : n.ip3 = 0 <;> simp [unnamed, zero]
  · simp [unnamed]

theorem Grows.refl (n : Node) : Grows n n := ⟨rfl, .inl rfl, fun _ has => has⟩

variable {n n' : Node}

theorem Grows.same (grows : Grows n n') (named : Named n) : n'.node = n.node := by
  rcases grows.node with same | same
  · exact same
  · exact same.trans named

theorem Grows.named (grows : Grows n n') (named : Named n) : Named n' := by
  have node := grows.same named
  unfold Named Node.named at named ⊢
  simp only [grows.ip3, node]
  exact named

theorem mnLearn_mono {known : List UInt16} {id id' : UInt16} (has : mnHas known id' = true) :
    mnHas (mnLearn known id).1 id' = true := by
  unfold mnLearn
  by_cases there : mnHas known id = true
  · rwa [if_pos there]
  rw [if_neg there]
  by_cases room : known.length < maxKnown
  · unfold mnHas at has ⊢
    rw [if_pos room, List.contains_append, has, Bool.true_or]
  · rwa [if_neg room]

theorem mnLearn_has {known : List UInt16} {id : UInt16} (room : known.length < maxKnown) :
    mnHas (mnLearn known id).1 id = true := by
  unfold mnLearn
  by_cases there : mnHas known id = true
  · rwa [if_pos there]
  rw [if_neg there, if_pos room]
  unfold mnHas
  rw [List.contains_append, List.contains_cons, beq_self_eq_true, Bool.true_or, Bool.or_true]

theorem learnAll_mono {id' : UInt16} (ids : List UInt16) : ∀ {known : List UInt16},
    mnHas known id' = true →
    mnHas (ids.foldl (fun known id => (mnLearn known id).1) known) id' = true := by
  induction ids with
  | nil => exact fun has => has
  | cons id ids ih => exact fun has => ih (mnLearn_mono has)

structure Handled (n : Node) (p : Packet) (r : Node × Option Packet) : Prop where
  grows : Grows n r.1
  named : Named r.1
  seq : r.1.seq = n.seq
  wait : r.1.wait = n.wait
  collect : r.1.collect = n.collect
  ackonly : r.1.ackonly = n.ackonly
  acks : r.1.acks = n.acks ∨
    (p.type = mnAck ∧ n.collect = true ∧ p.seq = n.wait ∧ p.src ∉ n.acks.map Ack.node) ∧
      ∃ a : Ack, r.1.acks = n.acks ++ [a] ∧ a.node = p.src
  reply : ∀ q, r.2 = some q → q.src = r.1.node ∧ q.type ≠ mnPush ∧
    (q.type = mnAck → q.seq = p.seq ∧ Acknowledged n p ∧
      (n.ackonly = false → r.1.known = (mnLearn n.known p.arg).1))

theorem handled_quiet {p : Packet} (grows : Grows n n') (named : Named n')
    (seq : n'.seq = n.seq) (wait : n'.wait = n.wait) (collect : n'.collect = n.collect)
    (ackonly : n'.ackonly = n.ackonly) (acks : n'.acks = n.acks) : Handled n p (n', none) :=
  ⟨grows, named, seq, wait, collect, ackonly, .inl acks, nofun⟩

theorem ack_ne_push : mnAck ≠ mnPush := by decide

theorem pullrsp_ne_push : mnPullrsp ≠ mnPush := by decide

theorem pullrsp_ne_ack : mnPullrsp ≠ mnAck := by decide

/-- The node with its number and the packet counted, as the handlers get it. -/
def entered (n : Node) (p : Packet) : Node :=
  { n.named with rx := n.named.rx + 1, peers := mnPeerSeen n.named.peers p.src }

theorem entered_named (n : Node) (p : Packet) : Named (entered n p) := named_named n

theorem entered_grows (n : Node) (p : Packet) : Grows n (entered n p) :=
  ⟨rfl, .inr rfl, fun _ has => has⟩

theorem onPush_handled (n : Node) (p : Packet) (clock : Clock) (push : p.type = mnPush)
    (other : p.src ≠ n.named.node) : Handled n p (onPush (entered n p) p clock) := by
  have grows := entered_grows n p
  have named := entered_named n p
  unfold onPush
  by_cases near : mnNbrOk (entered n p) p.src = true
  · have acknowledged : Acknowledged n p := ⟨push, other, near⟩
    rw [if_neg (not_not_intro near)]
    by_cases only : (entered n p).ackonly = true
    · rw [if_pos only]
      refine ⟨grows, named, rfl, rfl, rfl, rfl, .inl rfl, ?_⟩
      intro q reply
      obtain rfl := Option.some.inj reply
      refine ⟨rfl, ack_ne_push, fun _ => ⟨rfl, acknowledged, ?_⟩⟩
      intro off
      exact absurd (only.symm.trans off) (by decide)
    · rw [if_neg only]
      refine ⟨⟨rfl, .inr rfl, fun _ => mnLearn_mono⟩, named, rfl, rfl, rfl, rfl, .inl rfl, ?_⟩
      intro q reply
      obtain rfl := Option.some.inj reply
      exact ⟨rfl, ack_ne_push, fun _ => ⟨rfl, acknowledged, fun _ => rfl⟩⟩
  · rw [if_pos near]
    exact handled_quiet ⟨rfl, .inr rfl, fun _ has => has⟩ named rfl rfl rfl rfl rfl

theorem onAck_handled (n : Node) (p : Packet) (clock : Clock) (ack : p.type = mnAck) :
    Handled n p (onAck (entered n p) p clock, none) := by
  have quiet : Handled n p (entered n p, none) :=
    handled_quiet (entered_grows n p) (entered_named n p) rfl rfl rfl rfl rfl
  unfold onAck
  by_cases late : ¬ (entered n p).collect = true ∨ p.seq ≠ (entered n p).wait
  · rwa [if_pos late]
  rw [if_neg late]
  by_cases twice : p.src ∈ (entered n p).acks.map Ack.node
  · rwa [if_pos twice]
  rw [if_neg twice]
  by_cases room : (entered n p).acks.length < maxNbr
  · rw [if_pos room]
    rw [not_or, not_not, not_not] at late
    refine ⟨⟨rfl, .inr rfl, fun _ has => has⟩, entered_named n p, rfl, rfl, rfl, rfl, .inr ?_,
      nofun⟩
    exact ⟨⟨ack, late.1, late.2, twice⟩, _, rfl, rfl⟩
  · rwa [if_neg room]

theorem onBg_handled (n : Node) (p : Packet) : Handled n p (onBg (entered n p) p, none) := by
  unfold onBg
  by_cases near : mnNbrOk (entered n p) p.src = true
  · rw [if_neg (not_not_intro near)]
    refine handled_quiet ⟨rfl, .inr rfl, ?_⟩ (entered_named n p) rfl rfl rfl rfl rfl
    intro id has
    by_cases only : (entered n p).ackonly = true
    · rwa [if_pos only]
    · rw [if_neg only]
      exact mnLearn_mono has
  · rw [if_pos near]
    exact handled_quiet ⟨rfl, .inr rfl, fun _ has => has⟩ (entered_named n p) rfl rfl rfl rfl rfl

theorem onPullreq_handled (n : Node) (p : Packet) :
    Handled n p (onPullreq (entered n p) p) := by
  unfold onPullreq
  by_cases near : mnNbrOk (entered n p) p.src = true
  · rw [if_neg (not_not_intro near)]
    refine ⟨entered_grows n p, entered_named n p, rfl, rfl, rfl, rfl, .inl rfl, ?_⟩
    intro q reply
    obtain rfl := Option.some.inj reply
    exact ⟨rfl, pullrsp_ne_push, fun other => absurd other pullrsp_ne_ack⟩
  · rw [if_pos near]
    exact handled_quiet ⟨rfl, .inr rfl, fun _ has => has⟩ (entered_named n p) rfl rfl rfl rfl rfl

theorem onPullrsp_handled (n : Node) (p : Packet) :
    Handled n p (onPullrsp (entered n p) p, none) := by
  unfold onPullrsp
  by_cases near : mnNbrOk (entered n p) p.src = true
  · rw [if_neg (not_not_intro near)]
    exact handled_quiet ⟨rfl, .inr rfl, fun _ => learnAll_mono _⟩ (entered_named n p)
      rfl rfl rfl rfl rfl
  · rw [if_pos near]
    exact handled_quiet (entered_grows n p) (entered_named n p) rfl rfl rfl rfl rfl

theorem manetIpIn_handled (n : Node) (p : Packet) (clock : Clock) :
    Handled n p (manetIpIn n p clock) := by
  have quiet : Handled n p (entered n p, none) :=
    handled_quiet (entered_grows n p) (entered_named n p) rfl rfl rfl rfl rfl
  unfold manetIpIn
  by_cases own : p.src = n.named.node
  · simp only [if_pos own]
    exact handled_quiet ⟨rfl, .inr rfl, fun _ has => has⟩ (named_named n) rfl rfl rfl rfl rfl
  simp only [if_neg own]
  by_cases hello : p.type = mnHello
  · rwa [if_pos hello]
  rw [if_neg hello]
  by_cases push : p.type = mnPush
  · rw [if_pos push]
    exact onPush_handled n p clock push own
  rw [if_neg push]
  by_cases ack : p.type = mnAck
  · rw [if_pos ack]
    exact onAck_handled n p clock ack
  rw [if_neg ack]
  by_cases bg : p.type = mnBg
  · rw [if_pos bg]
    exact onBg_handled n p
  rw [if_neg bg]
  by_cases pullreq : p.type = mnPullreq
  · rw [if_pos pullreq]
    exact onPullreq_handled n p
  rw [if_neg pullreq]
  by_cases pullrsp : p.type = mnPullrsp
  · rw [if_pos pullrsp]
    exact onPullrsp_handled n p
  · rwa [if_neg pullrsp]

/-- What a call that uses a sequence number may change, and what it broadcasts. -/
structure Sends (n : Node) (r : Node × List Packet) : Prop where
  grows : Grows n r.1
  seq : r.1.seq = n.seq + 1
  ackonly : r.1.ackonly = n.ackonly
  types : ∀ p ∈ r.2, p.type ≠ mnAck ∧ (p.type = mnPush → p.seq = n.seq + 1)

structure SameCall (n n' : Node) : Prop where
  wait : n'.wait = n.wait
  collect : n'.collect = n.collect
  acks : n'.acks = n.acks

theorem push_ne_ack : mnPush ≠ mnAck := by decide

theorem wifiManetFire_sends (ip : n.haveIp = true) (fid : Int) (now : UInt32) :
    Sends n (wifiManetFire n fid now) ∧ (wifiManetFire n fid now).1.wait = n.seq + 1 ∧
      (wifiManetFire n fid now).1.collect = true := by
  unfold wifiManetFire
  rw [if_neg (not_not_intro ip)]
  refine ⟨⟨⟨rfl, .inr rfl, fun _ => mnLearn_mono⟩, rfl, rfl, ?_⟩, rfl, rfl⟩
  intro p listed
  rcases List.mem_cons.mp listed with rfl | extra
  · exact ⟨push_ne_ack, fun _ => rfl⟩
  · obtain ⟨k, -, rfl⟩ := List.mem_map.mp extra
    exact ⟨push_ne_ack, fun _ => rfl⟩

theorem sends_one {p : Packet} (grows : Grows n n') (seq : n'.seq = n.seq + 1)
    (ackonly : n'.ackonly = n.ackonly) (ack : p.type ≠ mnAck) (push : p.type ≠ mnPush) :
    Sends n (n', [p]) := by
  refine ⟨grows, seq, ackonly, ?_⟩
  intro q listed
  obtain rfl := List.mem_singleton.mp listed
  exact ⟨ack, fun is => absurd is push⟩

theorem wifiManetPull_sends (n : Node) : wifiManetPull n = (n, []) ∨
    Sends n (wifiManetPull n) ∧ SameCall n (wifiManetPull n).1 := by
  unfold wifiManetPull
  by_cases ip : n.haveIp = true
  · rw [if_neg (not_not_intro ip)]
    refine .inr ⟨sends_one ⟨rfl, .inr rfl, fun _ has => has⟩ rfl rfl ?_ ?_, rfl, rfl, rfl⟩
    · exact (by decide : mnPullreq ≠ mnAck)
    · exact (by decide : mnPullreq ≠ mnPush)
  · exact .inl (if_pos ip)

theorem wifiManetLoad_sends (n : Node) (sent : Nat) : wifiManetLoad n sent = (n, []) ∨
    Sends n (wifiManetLoad n sent) ∧ SameCall n (wifiManetLoad n sent).1 := by
  unfold wifiManetLoad
  by_cases ip : n.haveIp = true
  · rw [if_neg (not_not_intro ip)]
    refine .inr ⟨sends_one ⟨rfl, .inr rfl, fun _ has => has⟩ rfl rfl ?_ ?_, rfl, rfl, rfl⟩
    · exact (by decide : mnBg ≠ mnAck)
    · exact (by decide : mnBg ≠ mnPush)
  · exact .inl (if_pos ip)

theorem mnHelloTick_sends (n : Node) (now : UInt32) : mnHelloTick n now = (n, []) ∨
    Sends n (mnHelloTick n now) ∧ SameCall n (mnHelloTick n now).1 := by
  unfold mnHelloTick
  by_cases ip : n.haveIp = true
  · rw [if_neg (not_not_intro ip)]
    by_cases recent : n.helloLast ≠ 0 ∧ now - n.helloLast < 2000000
    · exact .inl (if_pos recent)
    rw [if_neg recent]
    refine .inr ⟨sends_one ⟨rfl, .inr rfl, fun _ has => has⟩ rfl rfl ?_ ?_, rfl, rfl, rfl⟩
    · exact (by decide : mnHello ≠ mnAck)
    · exact (by decide : mnHello ≠ mnPush)
  · exact .inl (if_pos ip)

end Boards

section Invariant

variable {N : Type} {s t : Net N} {f : Frame N} {n : N}

/-- A board, the call that it makes and the sequence numbers that it has used. -/
structure Board (s : Net N) (n : N) : Prop where
  seq : (s.node n).seq.toNat = s.used n
  past : ∀ e ∈ s.fired n, e.1.toNat ≤ s.used n
  one : ∀ e ∈ s.fired n, ∀ e' ∈ s.fired n, e.1 = e'.1 → e = e'
  collect : (s.node n).collect = (s.firing n).isSome
  call : ∀ fid, s.firing n = some fid → ((s.node n).wait, fid) ∈ s.fired n
  ackonly : (s.node n).ackonly = true → s.everAckonly n = true

/-- An acknowledgement on its way to `n`. -/
structure AckFor (s : Net N) (f : Frame N) (n : N) : Prop where
  dest : f.dest = some n
  past : f.body.seq.toNat ≤ s.used n
  src : f.body.src = (s.node f.sender).node
  named : Named (s.node f.sender)

structure OnAir (s : Net N) (f : Frame N) : Prop where
  push : f.body.type = mnPush → f.body.seq.toNat ≤ s.used f.sender
  ack : f.body.type = mnAck → ∃ n, AckFor s f n

/-- A counted acknowledgement is not counted again by the same call. -/
structure Counted (s : Net N) (c : Count N) : Prop where
  past : c.seq.toNat ≤ s.used c.caller
  named : Named (s.node c.sender)
  listed : ∀ fid, s.firing c.caller = some fid → c.seq = (s.node c.caller).wait →
    (s.node c.sender).node ∈ (s.node c.caller).acks.map Ack.node

def Count.key (c : Count N) : N × UInt16 × N := (c.caller, c.seq, c.sender)

structure Inv (s : Net N) : Prop where
  board : ∀ n, Board s n
  air : ∀ f ∈ s.sent, OnAir s f
  counted : ∀ c ∈ s.counted, Counted s c
  once : (s.counted.map Count.key).Nodup

structure Later (s t : Net N) : Prop where
  grows : ∀ n, Grows (s.node n) (t.node n)
  used : ∀ n, s.used n ≤ t.used n
  ever : ∀ n, s.everAckonly n = true → t.everAckonly n = true
  fired : ∀ n, ∀ e ∈ t.fired n, e ∈ s.fired n ∨ s.used n < e.1.toNat
  call : ∀ n fid, t.firing n = some fid → s.used n < (t.node n).wait.toNat ∨
    s.firing n = some fid ∧ (t.node n).wait = (s.node n).wait ∧
      ∀ a ∈ (s.node n).acks, a ∈ (t.node n).acks

theorem Later.refl (s : Net N) : Later s s where
  grows n := Grows.refl (s.node n)
  used _ := le_rfl
  ever _ on := on
  fired _ _ there := .inl there
  call _ _ calls := .inr ⟨calls, rfl, fun _ there => there⟩

theorem AckFor.later (later : Later s t) (ack : AckFor s f n) :
    AckFor t f n where
  dest := ack.dest
  past := ack.past.trans (later.used n)
  src := ack.src.trans ((later.grows f.sender).same ack.named).symm
  named := (later.grows f.sender).named ack.named

theorem OnAir.later (later : Later s t) (air : OnAir s f) : OnAir t f where
  push is := (air.push is).trans (later.used f.sender)
  ack is := (air.ack is).imp fun _ ack => ack.later later

theorem Counted.later (later : Later s t) {c : Count N} (counted : Counted s c) :
    Counted t c where
  past := counted.past.trans (later.used c.caller)
  named := (later.grows c.sender).named counted.named
  listed := by
    intro fid calls same
    rcases later.call c.caller fid calls with new | ⟨before, wait, acks⟩
    · rw [← same] at new
      exact absurd new (not_lt.mpr counted.past)
    · have listed := counted.listed fid before (same.trans wait)
      rw [(later.grows c.sender).same counted.named]
      obtain ⟨a, there, node⟩ := List.mem_map.mp listed
      exact List.mem_map.mpr ⟨a, acks a there, node⟩

theorem Inv.later (inv : Inv s) (later : Later s t) (board : ∀ n, Board t n)
    (air : ∀ f ∈ t.sent, f ∈ s.sent ∨ OnAir t f)
    (counted : ∀ c ∈ t.counted, c ∈ s.counted ∨ Counted t c)
    (once : (t.counted.map Count.key).Nodup) : Inv t where
  board := board
  air f sent := (air f sent).elim (fun old => (inv.air f old).later later) id
  counted c listed := (counted c listed).elim (fun old => (inv.counted c old).later later) id
  once := once

structure Quiet (s t : Net N) : Prop where
  inv : Inv t
  later : Later s t
  acks : ∀ f ∈ t.sent, f.body.type = mnAck → f ∈ s.sent
  counted : t.counted = s.counted

theorem Inv.quiet (inv : Inv s) (later : Later s t) (board : ∀ n, Board t n)
    (air : ∀ f ∈ t.sent, f ∈ s.sent ∨ f.body.type ≠ mnAck ∧ OnAir t f)
    (counted : t.counted = s.counted) : Quiet s t where
  inv := inv.later later board (fun f sent => (air f sent).imp_right And.right)
    (fun _ listed => .inl (counted ▸ listed)) (counted ▸ inv.once)
  later := later
  acks f sent is := (air f sent).elim id fun new => absurd is new.1
  counted := counted

theorem Board.other (board : Board s n) (node : t.node n = s.node n)
    (firing : t.firing n = s.firing n) (used : t.used n = s.used n) (fired : t.fired n = s.fired n)
    (ever : t.everAckonly n = s.everAckonly n) : Board t n where
  seq := by rw [node, used]; exact board.seq
  past := by rw [fired, used]; exact board.past
  one := by rw [fired]; exact board.one
  collect := by rw [node, firing]; exact board.collect
  call := by rw [node, firing, fired]; exact board.call
  ackonly := by rw [node, ever]; exact board.ackonly

theorem seq_succ {q : UInt16} {k : Nat} (seq : q.toNat = k) (below : k < 65535) :
    (q + 1).toNat = k + 1 := by
  rw [UInt16.toNat_add, seq]
  exact Nat.mod_eq_of_lt (by simpa using Nat.succ_lt_succ below)

theorem succ_ne (q : UInt16) : q + 1 ≠ q := by
  intro same
  have := congrArg UInt16.toNat same
  have := q.toNat_lt
  rw [UInt16.toNat_add] at *
  simp at *

theorem Sends.air {r : Node × List Packet} (sends : Sends (s.node n) r)
    (seq : (s.node n).seq.toNat = s.used n) (below : s.used n < 65535)
    (used : t.used n = s.used n + 1) :
    ∀ f ∈ s.sent ++ r.2.map (fun p => (⟨n, none, p⟩ : Frame N)),
      f ∈ s.sent ∨ f.body.type ≠ mnAck ∧ OnAir t f := by
  intro f sent
  rcases List.mem_append.mp sent with old | new
  · exact .inl old
  obtain ⟨p, listed, rfl⟩ := List.mem_map.mp new
  obtain ⟨ack, push⟩ := sends.types p listed
  refine .inr ⟨ack, ?_, fun is => absurd is ack⟩
  intro is
  change p.seq.toNat ≤ t.used n
  rw [push is, seq_succ seq below, used]

theorem countOf_mem {clock : Clock} {c : Count N}
    (listed : c ∈ countOf s n f (manetIpIn (s.node n) f.body clock).1) :
    ∃ fid, s.firing n = some fid ∧ f.body.type = mnAck ∧ f.body.seq = (s.node n).wait ∧
      f.body.src ∉ (s.node n).acks.map Ack.node ∧
      f.body.src ∈ (manetIpIn (s.node n) f.body clock).1.acks.map Ack.node ∧
      c = ⟨n, (s.node n).wait, f.sender, mnHas (s.node f.sender).known (UInt16.ofInt fid),
        s.everAckonly f.sender⟩ := by
  have handled := manetIpIn_handled (s.node n) f.body clock
  unfold countOf at listed
  cases calls : s.firing n with
  | none =>
    rw [calls] at listed
    cases listed
  | some fid =>
    rw [calls] at listed
    simp only at listed
    rcases handled.acks with same | ⟨⟨ack, -, seq, new⟩, a, more, node⟩
    · rw [if_pos (congrArg List.length same)] at listed
      cases listed
    · have longer : (manetIpIn (s.node n) f.body clock).1.acks.length ≠
          (s.node n).acks.length := by
        rw [more, List.length_append]
        exact Nat.succ_ne_self _
      rw [if_neg longer, List.mem_singleton, handled.wait] at listed
      refine ⟨fid, rfl, ack, seq, new, ?_, listed⟩
      rw [more, List.map_append, ← node]
      exact List.mem_append_right _ List.mem_cons_self

theorem Start.inv (start : Start s) : Inv s where
  board n := {
    seq := by rw [start.seq, start.unused]; rfl
    past := by rw [start.fresh]; nofun
    one := by rw [start.fresh]; nofun
    collect := by rw [start.idle, start.calls]; rfl
    call := by rw [start.calls]; nofun
    ackonly := start.ackonly n }
  air := by rw [start.silent]; nofun
  counted := by rw [start.counted]; nofun
  once := by rw [start.counted]; exact List.nodup_nil

/-- An acknowledgement, on its way or counted, comes from a node that knows what was fired. -/
structure Delivered (s : Net N) : Prop where
  air : ∀ f ∈ s.sent, f.body.type = mnAck → ∀ n, f.dest = some n →
    ∀ fid, (f.body.seq, fid) ∈ s.fired n → s.everAckonly f.sender = false →
      mnHas (s.node f.sender).known (UInt16.ofInt fid) = true
  counted : ∀ c ∈ s.counted, c.ackonly = false → c.knows = true

theorem Delivered.kept (delivered : Delivered s) (inv : Inv s) (later : Later s t)
    (sent : f ∈ s.sent) (is : f.body.type = mnAck) (dest : f.dest = some n) {fid : Int}
    (fired : (f.body.seq, fid) ∈ t.fired n) (off : t.everAckonly f.sender = false) :
    mnHas (t.node f.sender).known (UInt16.ofInt fid) = true := by
  obtain ⟨m, ack⟩ := (inv.air f sent).ack is
  obtain rfl : m = n := Option.some.inj (ack.dest.symm.trans dest)
  have before : s.everAckonly f.sender = false := by
    by_contra on
    rw [Bool.not_eq_false] at on
    exact absurd ((later.ever _ on).symm.trans off) (by decide)
  rcases later.fired m _ fired with old | new
  · exact (later.grows f.sender).known _ (delivered.air f sent is m dest fid old before)
  · exact absurd new (not_lt.mpr ack.past)

theorem Delivered.quiet (delivered : Delivered s) (inv : Inv s) (quiet : Quiet s t) :
    Delivered t where
  air f sent is _ dest _ fired off :=
    delivered.kept inv quiet.later (quiet.acks f sent is) is dest fired off
  counted := quiet.counted ▸ delivered.counted

end Invariant

section Steps

variable {N : Type} [DecidableEq N] {s t : Net N} {r : Node × List Packet} {n : N}

theorem grows_update {r : Node} (grows : Grows (s.node n) r) :
    ∀ m, Grows (s.node m) (Function.update s.node n r m) :=
  (Function.forall_update_iff _ fun m r => Grows (s.node m) r).mpr
    ⟨grows, fun m _ => Grows.refl (s.node m)⟩

theorem broadcast_used (seq : r.1.seq = (s.node n).seq + 1) :
    (s.broadcast n r).used = Function.update s.used n (s.used n + 1) := by
  unfold Net.broadcast
  rw [seq]
  exact if_neg (succ_ne _)

theorem le_broadcast_used (seq : r.1.seq = (s.node n).seq + 1) :
    ∀ m, s.used m ≤ (s.broadcast n r).used m := by
  rw [broadcast_used seq]
  exact (Function.forall_update_iff _ fun m k => s.used m ≤ k).mpr
    ⟨Nat.le_succ _, fun _ _ => le_rfl⟩

theorem broadcast_nothing : s.broadcast n (s.node n, []) = s := by
  unfold Net.broadcast
  simp

theorem receive_later (n : N) (f : Frame N) (clock : Clock) : Later s (s.receive n f clock) := by
  have handled := manetIpIn_handled (s.node n) f.body clock
  refine ⟨?_, fun _ => le_rfl, fun _ on => on, fun _ _ there => .inl there, ?_⟩
  · exact grows_update handled.grows
  · intro m fid calls
    refine .inr ⟨calls, ?_⟩
    by_cases here : m = n
    · subst here
      simp only [Net.receive, Function.update_self, handled.wait, true_and]
      intro a there
      rcases handled.acks with same | ⟨-, a', more, -⟩
      · rwa [same]
      · rw [more]
        exact List.mem_append_left _ there
    · simp only [Net.receive, Function.update_of_ne here, true_and]
      exact fun _ there => there

variable (inv : Inv s)

include inv

/-- One board changes, but neither its sequence numbers nor its calls. -/
theorem Inv.settings {n' : Node} {ever : Bool} (grows : Grows (s.node n) n')
    (seq : n'.seq = (s.node n).seq) (same : SameCall (s.node n) n')
    (on : n'.ackonly = true → ever = true) (kept : s.everAckonly n = true → ever = true) :
    Quiet s { s with
      node := Function.update s.node n n'
      everAckonly := Function.update s.everAckonly n ever } := by
  have board := inv.board n
  refine inv.quiet ⟨?_, fun _ => le_rfl, ?_, fun _ _ there => .inl there, ?_⟩ ?_
    (fun f sent => .inl sent) rfl
  · exact grows_update grows
  · exact (Function.forall_update_iff _ fun m on => s.everAckonly m = true → on = true).mpr
      ⟨kept, fun _ _ on => on⟩
  · intro m fid calls
    refine .inr ⟨calls, ?_⟩
    by_cases here : m = n
    · subst here
      simp only [Function.update_self, same.wait, same.acks, true_and]
      exact fun _ there => there
    · simp only [Function.update_of_ne here, true_and]
      exact fun _ there => there
  · intro m
    by_cases here : m = n
    · subst here
      constructor
      · simpa only [Function.update_self, seq] using board.seq
      · exact board.past
      · exact board.one
      · simpa only [Function.update_self, same.collect] using board.collect
      · simpa only [Function.update_self, same.wait] using board.call
      · simpa only [Function.update_self] using on
    · exact (inv.board m).other (Function.update_of_ne here _ _) rfl rfl rfl
        (Function.update_of_ne here _ _)

theorem Inv.done (n : N) :
    Quiet s { s with
      node := Function.update s.node n (wifiManetFireDone (s.node n)).1
      firing := Function.update s.firing n none } := by
  have board := inv.board n
  refine inv.quiet ⟨?_, fun _ => le_rfl, fun _ on => on, fun _ _ there => .inl there, ?_⟩ ?_
    (fun f sent => .inl sent) rfl
  · exact grows_update ⟨rfl, .inl rfl, fun _ has => has⟩
  · intro m fid calls
    by_cases here : m = n
    · subst here
      simp only [Function.update_self] at calls
      cases calls
    · simp only [Function.update_of_ne here] at calls ⊢
      exact .inr ⟨calls, trivial, fun _ there => there⟩
  · intro m
    by_cases here : m = n
    · subst here
      constructor
      · simp only [Function.update_self]
        exact board.seq
      · exact board.past
      · exact board.one
      · simp only [Function.update_self]
        rfl
      · simp only [Function.update_self]
        nofun
      · simp only [Function.update_self]
        exact board.ackonly
    · exact (inv.board m).other (Function.update_of_ne here _ _) (Function.update_of_ne here _ _)
        rfl rfl rfl

theorem Inv.broadcast (sends : Sends (s.node n) r) (same : SameCall (s.node n) r.1)
    (below : s.used n < 65535) : Quiet s (s.broadcast n r) := by
  have board := inv.board n
  have used := broadcast_used sends.seq
  have usedHere : (s.broadcast n r).used n = s.used n + 1 := by
    rw [used, Function.update_self]
  refine inv.quiet ⟨?_, ?_, fun _ on => on, fun _ _ there => .inl there, ?_⟩ ?_
    (sends.air board.seq below usedHere) rfl
  · exact grows_update sends.grows
  · exact le_broadcast_used sends.seq
  · intro m fid calls
    refine .inr ⟨calls, ?_⟩
    by_cases here : m = n
    · subst here
      simp only [Net.broadcast, Function.update_self, same.wait, same.acks, true_and]
      exact fun _ there => there
    · simp only [Net.broadcast, Function.update_of_ne here, true_and]
      exact fun _ there => there
  · intro m
    by_cases here : m = n
    · subst here
      constructor
      · rw [usedHere]
        simpa only [Net.broadcast, Function.update_self, sends.seq] using
          seq_succ board.seq below
      · intro e there
        exact (board.past e there).trans (usedHere ▸ Nat.le_succ _)
      · exact board.one
      · simpa only [Net.broadcast, Function.update_self, same.collect] using board.collect
      · simpa only [Net.broadcast, Function.update_self, same.wait] using board.call
      · simpa only [Net.broadcast, Function.update_self, sends.ackonly] using board.ackonly
    · exact (inv.board m).other (Function.update_of_ne here _ _) rfl
        (by rw [used, Function.update_of_ne here]) rfl rfl

/-- A call of `wifi_manet_fire` begins. -/
theorem Inv.fire {n : N} {fid : Int} {r : Node × List Packet} (sends : Sends (s.node n) r)
    (wait : r.1.wait = (s.node n).seq + 1) (collect : r.1.collect = true)
    (below : s.used n < 65535) :
    Quiet s { s.broadcast n r with
      firing := Function.update s.firing n (some fid)
      fired := Function.update s.fired n (s.fired n ++ [(r.1.seq, fid)]) } := by
  have board := inv.board n
  have used := broadcast_used sends.seq
  have usedHere : (s.broadcast n r).used n = s.used n + 1 := by
    rw [used, Function.update_self]
  have number : r.1.seq.toNat = s.used n + 1 := by
    rw [sends.seq]
    exact seq_succ board.seq below
  refine inv.quiet ⟨?_, ?_, fun _ on => on, ?_, ?_⟩ ?_ (sends.air board.seq below usedHere) rfl
  · exact grows_update sends.grows
  · exact le_broadcast_used sends.seq
  · intro m e there
    by_cases here : m = n
    · subst here
      simp only [Function.update_self] at there
      rcases List.mem_append.mp there with old | new
      · exact .inl old
      · obtain rfl := List.mem_singleton.mp new
        exact .inr (by rw [number]; exact Nat.lt_succ_self _)
    · simp only [Function.update_of_ne here] at there
      exact .inl there
  · intro m fid' calls
    by_cases here : m = n
    · subst here
      refine .inl ?_
      simp only [Net.broadcast, Function.update_self, wait]
      rw [seq_succ board.seq below]
      exact Nat.lt_succ_self _
    · simp only [Function.update_of_ne here] at calls
      simp only [Net.broadcast, Function.update_of_ne here]
      exact .inr ⟨calls, trivial, fun _ there => there⟩
  · intro m
    by_cases here : m = n
    · subst here
      have past : ∀ e ∈ s.fired m, e.1 ≠ r.1.seq := by
        intro e there same
        have := board.past e there
        rw [same, number] at this
        omega
      constructor
      · simp only [usedHere]
        simpa only [Net.broadcast, Function.update_self] using number
      · intro e there
        simp only [Function.update_self] at there
        rcases List.mem_append.mp there with old | new
        · exact (board.past e old).trans (usedHere ▸ Nat.le_succ _)
        · obtain rfl := List.mem_singleton.mp new
          exact (number.trans usedHere.symm).le
      · intro e there e' there' same
        simp only [Function.update_self, List.mem_append, List.mem_singleton] at there there'
        rcases there with old | rfl <;> rcases there' with old' | rfl
        · exact board.one e old e' old' same
        · exact absurd same (past e old)
        · exact absurd same.symm (past e' old')
        · rfl
      · simp only [Net.broadcast, Function.update_self, collect, Option.isSome_some]
      · intro fid' calls
        simp only [Function.update_self] at calls
        obtain rfl := Option.some.inj calls
        simp only [Net.broadcast, Function.update_self, wait, sends.seq]
        exact List.mem_append_right _ (List.mem_singleton.mpr rfl)
      · simpa only [Net.broadcast, Function.update_self, sends.ackonly] using board.ackonly
    · exact (inv.board m).other (Function.update_of_ne here _ _) (Function.update_of_ne here _ _)
        (by simp only [used, Function.update_of_ne here]) (Function.update_of_ne here _ _) rfl

theorem receive_board (n : N) (f : Frame N) (clock : Clock) (m : N) :
    Board (s.receive n f clock) m := by
  have handled := manetIpIn_handled (s.node n) f.body clock
  by_cases here : m = n
  · subst here
    have board := inv.board m
    constructor
    · simpa only [Net.receive, Function.update_self, handled.seq] using board.seq
    · exact board.past
    · exact board.one
    · simpa only [Net.receive, Function.update_self, handled.collect] using board.collect
    · simpa only [Net.receive, Function.update_self, handled.wait] using board.call
    · simpa only [Net.receive, Function.update_self, handled.ackonly] using board.ackonly
  · exact (inv.board m).other (Function.update_of_ne here _ _) rfl rfl rfl rfl

theorem Inv.receive {f : Frame N} (sent : f ∈ s.sent) (n : N) (clock : Clock) :
    Inv (s.receive n f clock) := by
  have handled := manetIpIn_handled (s.node n) f.body clock
  have later := receive_later (s := s) n f clock
  refine inv.later later (receive_board inv n f clock) ?_ ?_ ?_
  · intro g there
    rcases List.mem_append.mp there with old | new
    · exact .inl old
    obtain ⟨q, reply, rfl⟩ := List.mem_map.mp new
    obtain ⟨src, push, ack⟩ := handled.reply q (Option.mem_toList.mp reply)
    refine .inr ⟨fun is => absurd is push, fun is => ⟨f.sender, rfl, ?_, ?_, ?_⟩⟩
    · obtain ⟨seq, acknowledged, -⟩ := ack is
      change q.seq.toNat ≤ s.used f.sender
      rw [seq]
      exact (inv.air f sent).push acknowledged.1
    · simpa only [Net.receive, Function.update_self] using src
    · simpa only [Net.receive, Function.update_self] using handled.named
  · intro c there
    rcases List.mem_append.mp there with old | new
    · exact .inl old
    obtain ⟨fid, calls, is, seq, -, inside, rfl⟩ := countOf_mem new
    obtain ⟨m, ack⟩ := (inv.air f sent).ack is
    refine .inr ⟨(inv.board n).past _ ((inv.board n).call fid calls),
      (later.grows f.sender).named ack.named, fun _ _ _ => ?_⟩
    rw [(later.grows f.sender).same ack.named, ← ack.src]
    simpa only [Net.receive, Function.update_self] using inside
  · rw [Net.receive, List.map_append]
    refine List.nodup_append.mpr ⟨inv.once, ?_, ?_⟩
    · unfold countOf
      split
      · exact List.nodup_nil
      · split
        · exact List.nodup_nil
        · exact List.nodup_singleton _
    · intro k old k' new same
      obtain ⟨c, listed, rfl⟩ := List.mem_map.mp old
      obtain ⟨c', listed', rfl⟩ := List.mem_map.mp new
      obtain ⟨fid, calls, is, seq, outside, -, rfl⟩ := countOf_mem listed'
      obtain ⟨m, ack⟩ := (inv.air f sent).ack is
      obtain ⟨caller, rest⟩ := Prod.mk.inj same
      obtain ⟨number, sender⟩ := Prod.mk.inj rest
      have again := (inv.counted c listed).listed fid
      rw [caller, number, sender] at again
      exact outside (ack.src ▸ again calls rfl)

theorem Inv.sends (does : r = (s.node n, []) ∨ Sends (s.node n) r ∧ SameCall (s.node n) r.1)
    (below : s.used n < 65535) : Quiet s (s.broadcast n r) := by
  rcases does with rfl | ⟨sends, same⟩
  · rw [broadcast_nothing]
    exact ⟨inv, Later.refl s, fun _ sent _ => sent, rfl⟩
  · exact inv.broadcast sends same below

/-- Every operation is quiet, but for a frame that is handled. -/
theorem Inv.step {op : Op N} (numbered : Numbered s op) (goes : step s op = some t) :
    Quiet s t ∨ ∃ n f clock, op = .receive n f clock ∧ f ∈ s.sent ∧
      (f.dest = none ∨ f.dest = some n) ∧ t = s.receive n f clock := by
  cases op with
  | fire n fid now =>
    simp only [ManetAcks.step] at goes
    by_cases busy : s.firing n ≠ none
    · rw [if_pos busy] at goes
      cases goes
    rw [if_neg busy] at goes
    by_cases ip : (s.node n).haveIp = true
    · rw [if_neg (not_not_intro ip)] at goes
      obtain rfl := Option.some.inj goes
      obtain ⟨sends, wait, collect⟩ := wifiManetFire_sends ip fid now
      have here : ((s.broadcast n (wifiManetFire (s.node n) fid now)).node n).seq =
          (wifiManetFire (s.node n) fid now).1.seq := by
        simp only [Net.broadcast, Function.update_self]
      rw [here]
      exact .inl (inv.fire sends wait collect numbered)
    · rw [if_pos ip] at goes
      obtain rfl := Option.some.inj goes
      exact .inl ⟨inv, Later.refl s, fun _ sent _ => sent, rfl⟩
  | done n =>
    simp only [ManetAcks.step] at goes
    by_cases idle : s.firing n = none
    · rw [if_pos idle] at goes
      cases goes
    · rw [if_neg idle] at goes
      obtain rfl := Option.some.inj goes
      exact .inl (inv.done n)
  | pull n =>
    simp only [ManetAcks.step] at goes
    by_cases busy : s.firing n ≠ none
    · rw [if_pos busy] at goes
      cases goes
    · rw [if_neg busy] at goes
      obtain rfl := Option.some.inj goes
      exact .inl (inv.sends (wifiManetPull_sends _) numbered)
  | load n sent =>
    simp only [ManetAcks.step] at goes
    by_cases busy : s.firing n ≠ none
    · rw [if_pos busy] at goes
      cases goes
    · rw [if_neg busy] at goes
      obtain rfl := Option.some.inj goes
      exact .inl (inv.sends (wifiManetLoad_sends _ sent) numbered)
  | hello n now =>
    obtain rfl := Option.some.inj goes
    exact .inl (inv.sends (mnHelloTick_sends _ now) numbered)
  | cfg n proxy rrp rrv ackonly =>
    obtain rfl := Option.some.inj goes
    refine .inl (inv.settings ⟨rfl, .inl rfl, fun _ has => has⟩ rfl ⟨rfl, rfl, rfl⟩ ?_ ?_)
    · intro on
      exact Bool.or_eq_true_iff.mpr (.inr on)
    · intro on
      exact Bool.or_eq_true_iff.mpr (.inl on)
  | nbr n ids =>
    obtain rfl := Option.some.inj goes
    have grows : Grows (s.node n) (wifiManetNbr (s.node n) ids) :=
      ⟨rfl, .inl rfl, fun _ has => has⟩
    have quiet := inv.settings grows rfl ⟨rfl, rfl, rfl⟩ (inv.board n).ackonly id
    rw [Function.update_eq_self] at quiet
    exact .inl quiet
  | receive n f clock =>
    simp only [ManetAcks.step] at goes
    by_cases arrives : f ∈ s.sent ∧ (f.dest = none ∨ f.dest = some n)
    · rw [if_pos arrives] at goes
      exact .inr ⟨n, f, clock, rfl, arrives.1, arrives.2, (Option.some.inj goes).symm⟩
    · rw [if_neg arrives] at goes
      cases goes

end Steps

section Delivery

variable {N : Type} [DecidableEq N] {s t : Net N}

theorem Delivered.receive (delivered : Delivered s) (inv : Inv s) {n : N} {f : Frame N}
    {clock : Clock} (sent : f ∈ s.sent) (arrives : f.dest = none ∨ f.dest = some n)
    (learns : Learns s (.receive n f clock)) : Delivered (s.receive n f clock) := by
  have handled := manetIpIn_handled (s.node n) f.body clock
  have later := receive_later (s := s) n f clock
  constructor
  · intro g there is m dest fid fired off
    rcases List.mem_append.mp there with old | new
    · exact delivered.kept inv later old is dest fired off
    obtain ⟨q, reply, rfl⟩ := List.mem_map.mp new
    obtain ⟨-, -, ack⟩ := handled.reply q (Option.mem_toList.mp reply)
    obtain ⟨seq, acknowledged, learned⟩ := ack is
    obtain rfl := Option.some.inj dest
    have on : (s.node n).ackonly = false := by
      by_contra on
      rw [Bool.not_eq_false] at on
      exact absurd (((inv.board n).ackonly on).symm.trans off) (by decide)
    have there : (f.body.seq, fid) ∈ s.fired f.sender := by
      rw [← seq]
      exact fired
    simp only [Net.receive, Function.update_self]
    rcases learns acknowledged off fid there with has | ⟨arg, room⟩
    · exact handled.grows.known _ has
    · rw [learned on, arg]
      exact mnLearn_has room
  · intro c there off
    rcases List.mem_append.mp there with old | new
    · exact delivered.counted c old off
    obtain ⟨fid, calls, is, seq, -, -, rfl⟩ := countOf_mem new
    obtain ⟨m, ack⟩ := (inv.air f sent).ack is
    have here : f.dest = some n :=
      arrives.resolve_left fun all => by rw [ack.dest] at all; cases all
    have fired : (f.body.seq, fid) ∈ s.fired n := seq ▸ (inv.board n).call fid calls
    exact delivered.air f sent is n here fid fired off

theorem run_inv (start : Start s) (run : Runs step Numbered s t) : Inv t := by
  refine run.invariant start.inv ?_
  intro s op s' inv numbered goes
  rcases inv.step numbered goes with quiet | ⟨n, f, clock, rfl, sent, -, rfl⟩
  · exact quiet.inv
  · exact inv.receive sent n clock

theorem run_delivered (start : Start s)
    (run : Runs step (fun s op => Numbered s op ∧ Learns s op) s t) : Inv t ∧ Delivered t := by
  have base : Delivered s := by
    constructor
    · rw [start.silent]
      nofun
    · rw [start.counted]
      nofun
  refine run.invariant (I := fun s => Inv s ∧ Delivered s) ⟨start.inv, base⟩ ?_
  rintro s op s' ⟨inv, delivered⟩ ⟨numbered, learns⟩ goes
  rcases inv.step numbered goes with quiet | ⟨n, f, clock, rfl, sent, arrives, rfl⟩
  · exact ⟨quiet.inv, delivered.quiet inv quiet⟩
  · exact ⟨inv.receive sent n clock, delivered.receive inv sent arrives learns⟩

/-- A call counts every node at most once. In every run in which a node that acknowledges a PUSH
knows the id that was fired or learns it from the packet, what is counted for a node that was
never in the control group comes from a node that knows that id. -/
theorem acks_prove_delivery (start : Start s) :
    (Runs step Numbered s t → (t.counted.map Count.key).Nodup) ∧
    (Runs step (fun s op => Numbered s op ∧ Learns s op) s t →
      ∀ c ∈ t.counted, c.ackonly = false → c.knows = true) :=
  ⟨fun run => (run_inv start run).once, fun run => (run_delivered start run).2.counted⟩

end Delivery

def boards : Net Bool where
  node n := Node.initial (if n then 2 else 1)
  sent := []
  firing _ := none
  used _ := 0
  fired _ := []
  everAckonly _ := false
  counted := []

theorem boards_start : Start boards where
  seq _ := rfl
  idle _ := rfl
  silent := rfl
  calls _ := rfl
  unused _ := rfl
  fresh _ := rfl
  ackonly _ := nofun
  counted := rfl

def push (src : UInt8) (arg : UInt16) : Frame Bool := ⟨false, none, mnPush, src, 1, arg, 0, 0, []⟩

def reply : Frame Bool := ⟨true, some false, mnAck, 2, 1, 0, 0, 0, []⟩

/-- The PUSH that a board fires reaches the other one, and its acknowledgement comes back. -/
def delivery (p : Int) (f : Frame Bool) : List (Op Bool) :=
  [.cfg false p 0 266 0, .fire false 7 0, .receive true f ⟨0, 0, 0⟩,
    .receive false reply ⟨0, 0, 0⟩]

instance (s : Net Bool) (op : Op Bool) : Decidable (Numbered s op) :=
  match op with
  | .fire n _ _ => inferInstanceAs (Decidable (s.used n < 65535))
  | .pull n => inferInstanceAs (Decidable (s.used n < 65535))
  | .load n _ => inferInstanceAs (Decidable (s.used n < 65535))
  | .hello n _ => inferInstanceAs (Decidable (s.used n < 65535))
  | .done _ => isTrue trivial
  | .cfg _ _ _ _ _ => isTrue trivial
  | .nbr _ _ => isTrue trivial
  | .receive _ _ _ => isTrue trivial

/-- The operations one after the other, while each of them passes the check. -/
def after (check : Net Bool → Op Bool → Bool) (ops : List (Op Bool)) : Option (Net Bool) :=
  ops.foldlM (fun s op => if check s op then step s op else none) boards

def learnsCheck (s : Net Bool) : Op Bool → Bool
  | .receive n f _ => (s.fired f.sender).all fun e =>
    e.1 ≠ f.body.seq ∨ mnHas (s.node n).known (UInt16.ofInt e.2) = true ∨
      f.body.arg = UInt16.ofInt e.2 ∧ (s.node n).known.length < maxKnown
  | _ => true

theorem learnsCheck_sound (s : Net Bool) (op : Op Bool) (check : learnsCheck s op = true) :
    Learns s op := by
  cases op with
  | receive n f clock =>
    intro _ _ fid fired
    have passes := List.all_eq_true.mp check _ fired
    rw [decide_eq_true_iff] at passes
    exact passes.resolve_left (not_not_intro rfl)
  | _ => trivial

theorem acks_prove_delivery_push : ∃ t : Net Bool, t.counted.length = 1 ∧
    ∀ c ∈ t.counted, c.ackonly = false → c.knows = true := by
  have goes : (after (fun s op => decide (Numbered s op) && learnsCheck s op)
      (delivery 1 (push 1 7))).map (·.counted.length) = some 1 := by decide +kernel
  obtain ⟨t, reached, length⟩ := Option.map_eq_some_iff.mp goes
  refine ⟨t, length, (acks_prove_delivery boards_start).2 (Runs.of_checked _ ?_ _ reached)⟩
  intro s op check
  obtain ⟨numbered, learns⟩ := Bool.and_eq_true_iff.mp check
  exact ⟨of_decide_eq_true numbered, learnsCheck_sound s op learns⟩

/-- The PUSH itself is lost, the one of a virtual node arrives and is acknowledged. -/
theorem proxy_push_acknowledged : ¬ ∀ s t : Net Bool, Start s → Runs step Numbered s t →
    ∀ c ∈ t.counted, c.ackonly = false → c.knows = true := by
  intro all
  have goes : (after (fun s op => decide (Numbered s op)) (delivery 2 (push 201 1007))).map
      (·.counted) = some [⟨false, 1, true, false, false⟩] := by decide +kernel
  obtain ⟨t, reached, counted⟩ := Option.map_eq_some_iff.mp goes
  have knows := all boards t boards_start
    (Runs.of_checked _ (fun s op => of_decide_eq_true) _ reached) ⟨false, 1, true, false, false⟩
  rw [counted] at knows
  exact absurd (knows (List.mem_singleton.mpr rfl) rfl) (by decide)

end XinuRpi5.Wifi.ManetAcks
