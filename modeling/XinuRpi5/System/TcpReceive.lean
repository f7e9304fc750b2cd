/- source: system/tcp_server.c
   digest: The receive sequence number against what has arrived of the peer's stream. -/

import XinuRpi5.System.TcpFin

/-!
A connection is watched together with what the server has received of the peer's
stream. A segment is received in order when its sequence number is, modulo `2 ^ 32`,
the position that the stream has reached. Data is taken in `ESTABLISHED`, a FIN there
and in `FIN_WAIT_1`.
-/

namespace XinuRpi5.System.TcpReceive

open Lib.GuardedRuns Lib.Word64
open TcpServer TcpHandler TcpPump

/-- The peer's ISN, the contiguous bytes received behind it, and whether its FIN has
been received in order. -/
structure Received where
  isn : Nat
  bytes : Nat
  fin : Bool
  deriving DecidableEq

def Received.position (r : Received) : Nat := r.isn + 1 + r.bytes + if r.fin then 1 else 0

def SameSeq (x y : Nat) : Prop := x % 4294967296 = y % 4294967296

instance (x y : Nat) : Decidable (SameSeq x y) := inferInstanceAs (Decidable (_ = _))

def Received.takeData (r : Received) (seg : Segment) : Received :=
  if SameSeq seg.seq r.position then { r with bytes := r.bytes + seg.data.length } else r

def Received.takeFin (r : Received) (seg : Segment) : Received :=
  if seg.flags.fin = true ∧ SameSeq (seg.seq + seg.data.length) r.position then
    { r with fin := true }
  else r

def Received.observe (r : Received) (st : TcpState) (seg : Segment) : Received :=
  match st with
  | .closed | .listen => if seg.flags.syn then ⟨seg.seq, 0, false⟩ else r
  | .established => if seg.flags.rst then r else (r.takeData seg).takeFin seg
  | .finWait1 => r.takeFin seg
  | _ => r

structure Watched where
  srv : Server
  rcv : Received

def touched (env : Env) (s : Server) (seg : Segment) : Conn := (touch env seg s.conn).conn

def Heard (s : Server) (f : Frame) (via : Bool) (env : Env) : Prop :=
  ForUs s f via ∧ WellSized f ∧
    ((touched env s (segmentOf f)).state = .closed ∨ (touched env s (segmentOf f)).state = .listen ∨
      FromPeer s.conn (segmentOf f))

instance (s : Server) (f : Frame) (via : Bool) (env : Env) : Decidable (Heard s f via env) :=
  inferInstanceAs (Decidable (_ ∧ _))

def Watched.next (w : Watched) (e : Event) : Watched :=
  ⟨(step w.srv e).1, match e with
    | .packet f via env =>
      if Heard w.srv f via env then
        w.rcv.observe (touched env w.srv (segmentOf f)).state (segmentOf f)
      else w.rcv
    | _ => w.rcv⟩

/-- An in-order data segment meets a `peer_seq` that still fits in 32 bits. -/
def InRange (c : Conn) (seg : Segment) : Prop :=
  SameSeq seg.seq c.peerSeq → seg.data ≠ [] → c.peerSeq < 4294967296

def FinInPlace (c : Conn) (seg : Segment) : Prop :=
  seg.flags.fin = true → seg.data = [] ∧
    if c.peerFin then SameSeq (seg.seq + 1) c.peerSeq else SameSeq seg.seq c.peerSeq

instance (c : Conn) (seg : Segment) : Decidable (InRange c seg) :=
  inferInstanceAs (Decidable (_ → _))

instance (c : Conn) (seg : Segment) : Decidable (FinInPlace c seg) :=
  inferInstanceAs (Decidable (_ → _))

/-- The condition on a segment of the peer in a state of the connection. -/
def SegmentOk (c : Conn) (st : TcpState) (seg : Segment) : Prop :=
  match st with
  | .established => seg.flags.rst = false → InRange c seg ∧ FinInPlace c seg
  | .finWait1 => FinInPlace c seg
  | _ => True

instance (c : Conn) (st : TcpState) (seg : Segment) : Decidable (SegmentOk c st seg) := by
  cases st <;> unfold SegmentOk <;> infer_instance

def Orderly (w : Watched) : Event → Prop
  | .packet f via env =>
    Heard w.srv f via env →
      SegmentOk w.srv.conn (touched env w.srv (segmentOf f)).state (segmentOf f)
  | _ => True

instance (w : Watched) : (e : Event) → Decidable (Orderly w e)
  | .packet f via env => inferInstanceAs (Decidable (Heard w.srv f via env →
      SegmentOk w.srv.conn (touched env w.srv (segmentOf f)).state (segmentOf f)))
  | .tick _ | .reap _ | .listen _ | .setIp _ => isTrue trivial

section Law

def Live (st : TcpState) : Prop := st ≠ .closed ∧ st ≠ .listen

instance (st : TcpState) : Decidable (Live st) := inferInstanceAs (Decidable (_ ∧ _))

/-- `peer_seq` is the position of the stream. -/
structure Follows (c : Conn) (r : Received) : Prop where
  seq : SameSeq c.peerSeq r.position
  fin : c.peerFin = r.fin

def AcksBetween (low high : Nat) (sent : Sent) : Prop :=
  ∃ k, low ≤ k ∧ k ≤ high ∧ sent.ack = cut32 k

/-- What holds in the middle of a step that found the stream at `start`. -/
structure Kept (start r : Received) (l : Line) : Prop where
  follows : Follows l.conn r
  forward : start.position ≤ r.position
  acks : ∀ sent ∈ l.out, AcksBetween start.position r.position sent

variable {env : Env} {s : Server} {via : Bool} {seg : Segment} {l : Line} {c : Conn}
  {start r : Received}

variable {c' : Conn}

theorem Follows.of_eq (follows : Follows c r) (seq : c'.peerSeq = c.peerSeq)
    (fin : c'.peerFin = c.peerFin) : Follows c' r := by
  refine ⟨?_, ?_⟩
  · rw [seq]
    exact follows.seq
  · rw [fin]
    exact follows.fin

theorem AcksBetween.mono {low high high' : Nat} {sent : Sent} (le : high ≤ high')
    (acks : AcksBetween low high sent) : AcksBetween low high' sent := by
  obtain ⟨k, above, below, number⟩ := acks
  exact ⟨k, above, Nat.le_trans below le, number⟩

theorem Kept.current (kept : Kept start r l) {sent : Sent}
    (number : sent.ack = cut32 l.conn.peerSeq) :
    AcksBetween start.position r.position sent :=
  ⟨r.position, kept.forward, Nat.le_refl _, number.trans kept.follows.seq⟩

theorem Kept.update (kept : Kept start r l) (seq : c'.peerSeq = l.conn.peerSeq)
    (fin : c'.peerFin = l.conn.peerFin) : Kept start r ⟨c', l.out⟩ :=
  ⟨kept.follows.of_eq seq fin, kept.forward, kept.acks⟩

theorem Kept.extend {l' : Line} (kept : Kept start r l)
    (seq : l'.conn.peerSeq = l.conn.peerSeq) (fin : l'.conn.peerFin = l.conn.peerFin)
    (adds : ∀ sent ∈ l'.out, sent ∈ l.out ∨ sent.ack = cut32 l.conn.peerSeq) :
    Kept start r l' := by
  refine ⟨kept.follows.of_eq seq fin, kept.forward, ?_⟩
  intro sent listed
  rcases adds sent listed with earlier | number
  · exact kept.acks sent earlier
  · exact kept.current number

theorem acked_snoc {sent last : Sent} {seq : Nat} (acks : last.ack = cut32 seq)
    (listed : sent ∈ l.out ++ [last]) : sent ∈ l.out ∨ sent.ack = cut32 seq := by
  rcases List.mem_append.mp listed with earlier | new
  · exact .inl earlier
  · obtain rfl := List.mem_singleton.mp new
    exact .inr acks

theorem tcpSend_acks (env : Env) (l : Line) (flags : Flags) (payload : List UInt8) :
    ∀ sent ∈ (tcpSend env l flags payload).2,
      sent ∈ l.out ∨ sent.ack = cut32 l.conn.peerSeq := by
  intro sent listed
  unfold tcpSend at listed
  split_ifs at listed
  · exact .inl listed
  · exact acked_snoc rfl listed

theorem Kept.send (kept : Kept start r l) (env : Env) (flags : Flags) (payload : List UInt8) :
    Kept start r ⟨l.conn, (tcpSend env l flags payload).2⟩ :=
  kept.extend rfl rfl (tcpSend_acks env l flags payload)

theorem pumpLoop_acks (env : Env) (fuel : Nat) (l : Line) : ∀ sent ∈ (pumpLoop env fuel l).out,
    sent ∈ l.out ∨ sent.ack = cut32 l.conn.peerSeq := by
  induction fuel generalizing l with
  | zero => exact fun sent listed => .inl listed
  | succ fuel ih =>
    intro sent listed
    by_cases sendable : Sendable l.conn
    · cases taken : env.tx l.out.length with
      | none =>
        rw [pumpLoop_refused fuel sendable taken] at listed
        exact acked_snoc rfl listed
      | some t =>
        rw [pumpLoop_taken fuel sendable taken] at listed
        rcases ih _ sent listed with before | number
        · exact acked_snoc rfl before
        · exact .inr number
    · rw [pumpLoop_stop (fuel + 1) sendable] at listed
      exact .inl listed

theorem pumpFin_acks (env : Env) (l : Line) : ∀ sent ∈ (pumpFin env l).out,
    sent ∈ l.out ∨ sent.ack = cut32 l.conn.peerSeq := by
  intro sent listed
  by_cases due : l.conn.sndFinPending = true ∧ l.conn.sndLen ≤ l.conn.sndNxt
  · cases taken : env.tx l.out.length with
    | none =>
      rw [pumpFin_refused due taken] at listed
      exact acked_snoc rfl listed
    | some t =>
      rw [pumpFin_taken due taken] at listed
      exact acked_snoc rfl listed
  · rw [pumpFin_skip due] at listed
    exact .inl listed

theorem tcpPump_peer (env : Env) (l : Line) : (tcpPump env l).conn.peerSeq = l.conn.peerSeq ∧
    (tcpPump env l).conn.peerFin = l.conn.peerFin := by
  by_cases pumping : Pumping l.conn.state
  · obtain ⟨_, _, _, _, _, equal⟩ := (tcpPump_spec env pumping).1.frame
    rw [equal]
    exact ⟨rfl, rfl⟩
  · rw [tcpPump_idle pumping]
    exact ⟨rfl, rfl⟩

theorem tcpPump_acks (env : Env) (l : Line) : ∀ sent ∈ (tcpPump env l).out,
    sent ∈ l.out ∨ sent.ack = cut32 l.conn.peerSeq := by
  intro sent listed
  by_cases pumping : Pumping l.conn.state
  · obtain ⟨seq, nxt, last, out, run, _⟩ :=
      pumpLoop_spec env (l.conn.sndLen - l.conn.sndNxt) l
    rw [tcpPump_run pumping run] at listed
    rcases pumpFin_acks env _ sent listed with before | number
    · apply pumpLoop_acks env (l.conn.sndLen - l.conn.sndNxt) l
      rw [run]
      exact before
    · exact .inr number
  · rw [tcpPump_idle pumping] at listed
    exact .inl listed

theorem Kept.pump (kept : Kept start r l) : Kept start r (tcpPump env l) :=
  kept.extend (tcpPump_peer env l).1 (tcpPump_peer env l).2 (tcpPump_acks env l)

theorem Kept.response (kept : Kept start r l) : Kept start r (tcpSendResponse env l) := by
  apply Kept.pump
  exact kept.update rfl rfl

theorem Follows.kept (follows : Follows c r) : Kept r r ⟨c, []⟩ :=
  ⟨follows, Nat.le_refl _, fun _ listed => (List.not_mem_nil listed).elim⟩

theorem touch_kept (follows : Follows c r) : Kept r r (touch env seg c) := by
  have stamped : Follows { c with lastMs := env.now, peerWin := seg.win } r :=
    follows.of_eq rfl rfl
  unfold touch
  simp only
  split_ifs
  · obtain ⟨_, _, slid⟩ := slide_eq { c with lastMs := env.now, peerWin := seg.win } seg.ack
    unfold tcpOnAck
    rw [slid]
    apply Kept.pump
    exact stamped.kept.update rfl rfl
  · exact stamped.kept

theorem touch_peer (env : Env) (seg : Segment) (c : Conn) :
    (touch env seg c).conn.peerSeq = c.peerSeq ∧ (touch env seg c).conn.peerFin = c.peerFin := by
  obtain ⟨_, _, _, _, _, _, _, equal⟩ := touch_eq env seg c
  rw [equal]
  exact ⟨rfl, rfl⟩

theorem position_takeData (r : Received) (seg : Segment) :
    (r.takeData seg).position =
      r.position + if SameSeq seg.seq r.position then seg.data.length else 0 := by
  unfold Received.takeData
  split_ifs
  · simp only [Received.position]
    omega
  · rfl

theorem position_takeFin (r : Received) (seg : Segment) :
    r.position ≤ (r.takeFin seg).position := by
  unfold Received.takeFin
  split_ifs
  · simp only [Received.position]
    split_ifs <;> omega
  · exact Nat.le_refl _

theorem Kept.advance {r' : Received} (kept : Kept start r l) (follows : Follows c' r')
    (forward : r.position ≤ r'.position) : Kept start r' ⟨c', l.out⟩ :=
  ⟨follows, Nat.le_trans kept.forward forward,
    fun sent listed => (kept.acks sent listed).mono forward⟩

theorem acceptConn_follows (follows : Follows c r) (small : seg.seq < 4294967296)
    (short : seg.data.length < 4294967296) (data : seg.data ≠ []) (range : InRange c seg) :
    Follows (acceptConn c seg) (r.takeData seg) := by
  unfold acceptConn
  by_cases inOrder : SameSeq seg.seq r.position
  · have sameSeq : SameSeq seg.seq c.peerSeq := inOrder.trans follows.seq.symm
    have low := range sameSeq data
    have equal : seg.seq = c.peerSeq := by
      unfold SameSeq at sameSeq
      omega
    have number : add64 seg.seq seg.data.length = seg.seq + seg.data.length :=
      add64_eq (by omega)
    have position := position_takeData r seg
    rw [if_pos inOrder] at position
    rw [if_pos equal]
    refine ⟨?_, ?_⟩
    · change SameSeq (add64 seg.seq seg.data.length) (r.takeData seg).position
      rw [number, position]
      unfold SameSeq at inOrder ⊢
      omega
    · unfold Received.takeData
      rw [if_pos inOrder]
      exact follows.fin
  · have other : seg.seq ≠ c.peerSeq := by
      intro equal
      exact inOrder (equal ▸ follows.seq)
    unfold Received.takeData
    rw [if_neg other, if_neg inOrder]
    exact follows

theorem onData_kept (kept : Kept start r l) (small : seg.seq < 4294967296)
    (short : seg.data.length < 4294967296) (data : seg.data ≠ []) (range : InRange l.conn seg) :
    Kept start (r.takeData seg) ⟨(onData env s seg l).1.conn, (onData env s seg l).2⟩ := by
  have forward : r.position ≤ (r.takeData seg).position := by
    rw [position_takeData]
    exact Nat.le_add_right _ _
  have accepted := kept.advance (acceptConn_follows kept.follows small short data range) forward
  have answered := accepted.send env flagsAck []
  unfold onData
  simp only
  split_ifs
  · exact answered.response
  · exact answered

/-- The number behind a FIN in its place. -/
theorem fin_follows (follows : Follows c r) (small : seg.seq < 4294967296)
    (fin : seg.flags.fin = true) (place : FinInPlace c seg) (seq : c'.peerSeq = add64 seg.seq 1)
    (peerFin : c'.peerFin = true) : Follows c' (r.takeFin seg) := by
  obtain ⟨empty, order⟩ := place fin
  have length : seg.data.length = 0 := by
    rw [empty]
    rfl
  have number : add64 seg.seq 1 = seg.seq + 1 := add64_eq (by omega)
  have stream := follows.seq
  have same := follows.fin
  unfold Received.takeFin
  cases again : c.peerFin with
  | true =>
    rw [again, if_pos rfl] at order
    rw [again] at same
    have other : ¬ SameSeq (seg.seq + seg.data.length) r.position := by
      unfold SameSeq at order stream ⊢
      omega
    rw [if_neg fun both => other both.2]
    refine ⟨?_, peerFin.trans same⟩
    rw [seq, number]
    exact order.trans stream
  | false =>
    rw [again, if_neg Bool.false_ne_true] at order
    rw [again] at same
    have inOrder : SameSeq (seg.seq + seg.data.length) r.position := by
      rw [length]
      exact order.trans stream
    rw [if_pos ⟨fin, inOrder⟩]
    have position : r.position = r.isn + 1 + r.bytes := by
      simp only [Received.position, ← same, Bool.false_eq_true, if_false, Nat.add_zero]
    refine ⟨?_, peerFin⟩
    rw [seq, number]
    rw [length, position] at inOrder
    unfold SameSeq at inOrder ⊢
    change (seg.seq + 1) % 4294967296 = (r.isn + 1 + r.bytes + 1) % 4294967296
    omega

theorem takeFin_of_not (r : Received) (seg : Segment) (fin : ¬ seg.flags.fin = true) :
    r.takeFin seg = r := by
  unfold Received.takeFin
  rw [if_neg fun both => fin both.1]

section

variable (kept : Kept start r l) (small : seg.seq < 4294967296) (place : FinInPlace l.conn seg)

include kept small place

theorem onPeerFin_kept (fin : seg.flags.fin = true) :
    Kept start (r.takeFin seg) ⟨(onPeerFin env s seg l).1.conn, (onPeerFin env s seg l).2⟩ := by
  have taken : Kept start (r.takeFin seg)
      ⟨{ l.conn with peerSeq := add64 seg.seq 1, peerFin := true }, l.out⟩ :=
    kept.advance (fin_follows kept.follows small fin place rfl rfl) (position_takeFin r seg)
  unfold onPeerFin
  simp only
  split_ifs
  · exact (taken.send env flagsAck []).pump
  · exact (taken.send env flagsFinAck []).update rfl rfl

theorem onEstablished_kept (short : seg.data.length < 4294967296) (rst : seg.flags.rst = false)
    (range : InRange l.conn seg) :
    Kept start ((r.takeData seg).takeFin seg)
      ⟨(onEstablished env s seg l).1.conn, (onEstablished env s seg l).2⟩ := by
  unfold onEstablished
  rw [if_neg (by rw [rst]; exact Bool.false_ne_true)]
  by_cases data : seg.data = []
  · have same : r.takeData seg = r := by
      unfold Received.takeData
      rw [data]
      split_ifs <;> rfl
    rw [same]
    simp only [data, ne_eq, not_true_eq_false, if_false]
    by_cases fin : seg.flags.fin = true
    · simp only [fin, if_true]
      exact onPeerFin_kept kept small place fin
    · simp only [fin, takeFin_of_not r seg fin]
      exact kept
  · have fin : ¬ seg.flags.fin = true := fun fin => data (place fin).1
    simp only [data, fin, ne_eq, not_false_eq_true, if_true,
      takeFin_of_not (r.takeData seg) seg fin]
    exact onData_kept kept small short data range

theorem onFinWait1_kept :
    Kept start (r.takeFin seg)
      ⟨(onFinWait1 env s seg l).1.conn, (onFinWait1 env s seg l).2⟩ := by
  have acked : ∃ b, (if seg.flags.ack = true ∧ seg.ack = l.conn.mySeq then
      { l.conn with finAcked := true } else l.conn) = { l.conn with finAcked := b } := by
    split_ifs
    · exact ⟨true, rfl⟩
    · exact ⟨l.conn.finAcked, rfl⟩
  obtain ⟨b, equal⟩ := acked
  unfold onFinWait1
  simp only [equal]
  by_cases fin : seg.flags.fin = true
  · have taken : Kept start (r.takeFin seg)
        ⟨{ l.conn with finAcked := b, peerSeq := add64 seg.seq 1, peerFin := true }, l.out⟩ :=
      kept.advance (fin_follows kept.follows small fin place rfl rfl) (position_takeFin r seg)
    have answered := taken.send env flagsAck []
    simp only [fin, if_true]
    split_ifs
    · exact answered.update rfl rfl
    · exact answered
  · have noted : Kept start (r.takeFin seg) ⟨{ l.conn with finAcked := b }, l.out⟩ := by
      rw [takeFin_of_not r seg fin]
      exact kept.update rfl rfl
    simp only [if_neg fin]
    split_ifs
    · exact noted.update rfl rfl
    · exact noted

end

/-- A segment of the peer in a state that it does not leave by itself. -/
theorem peer_kept (via : Bool) (follows : Follows s.conn r) (peer : FromPeer s.conn seg)
    (small : seg.seq < 4294967296) (short : seg.data.length < 4294967296)
    (live : Live (touched env s seg).state)
    (ok : SegmentOk s.conn (touched env s seg).state seg) :
    Kept r (r.observe (touched env s seg).state seg)
        ⟨(receive env s via seg).1.conn, (receive env s via seg).2⟩ ∨
      ¬ Live (receive env s via seg).1.conn.state ∧
        Kept r r ⟨(receive env s via seg).1.conn, (receive env s via seg).2⟩ := by
  have kept : Kept r r (touch env seg s.conn) := touch_kept follows
  obtain ⟨seq, peerFin⟩ := touch_peer env seg s.conn
  have same : FromPeer (touch env seg s.conn).conn seg := (touch_fromPeer env seg s.conn).mpr peer
  unfold touched at live ok ⊢
  cases state : (touch env seg s.conn).conn.state with
  | closed => exact (live.1 state).elim
  | listen => exact (live.2 state).elim
  | synRcvd =>
    left
    rw [receive_synRcvd env s via seg same state]
    unfold onSynRcvd
    split_ifs
    · exact kept.update rfl rfl
    · exact kept.update rfl rfl
    · exact kept
  | established =>
    rw [receive_established env s via seg same state]
    rw [state] at ok
    cases rst : seg.flags.rst with
    | true =>
      right
      unfold onEstablished
      rw [if_pos rst]
      exact ⟨fun live => live.2 rfl, kept.update rfl rfl⟩
    | false =>
      left
      obtain ⟨range, place⟩ := ok rst
      have range' : InRange (touch env seg s.conn).conn seg := by
        unfold InRange
        rw [seq]
        exact range
      have place' : FinInPlace (touch env seg s.conn).conn seg := by
        unfold FinInPlace
        rw [seq, peerFin]
        exact place
      simp only [Received.observe, rst, Bool.false_eq_true, if_false]
      exact onEstablished_kept kept small place' short rst range'
  | finWait1 =>
    left
    rw [receive_finWait1 env s via seg same state]
    rw [state] at ok
    have place' : FinInPlace (touch env seg s.conn).conn seg := by
      unfold FinInPlace
      rw [seq, peerFin]
      exact ok
    exact onFinWait1_kept kept small place'
  | lastAck =>
    left
    rw [receive_lastAck env s via seg same state]
    unfold onLastAck
    split_ifs
    · exact kept.update rfl rfl
    · exact kept

theorem touch_idle (env : Env) (seg : Segment) (idle : ¬ Live c.state) :
    (touch env seg c).conn.state = c.state ∧ (touch env seg c).out = [] := by
  have still : ¬ Pumping c.state := by
    rintro (established | finWait)
    · rw [established] at idle
      exact idle (by decide)
    · rw [finWait] at idle
      exact idle (by decide)
  refine ⟨(touch_state env seg c).resolve_right fun moved => still moved.1, ?_⟩
  unfold touch
  simp only
  split_ifs
  · obtain ⟨_, _, slid⟩ := slide_eq { c with lastMs := env.now, peerWin := seg.win } seg.ack
    unfold tcpOnAck
    rw [slid, tcpPump_idle still]
  · rfl

theorem touch_live (env : Env) (seg : Segment) (live : Live c.state) :
    Live (touch env seg c).conn.state := by
  rcases touch_state env seg c with same | ⟨_, wait | ack⟩
  · rw [same]
    exact live
  · rw [wait]
    decide
  · rw [ack]
    decide

theorem onListen_law (env : Env) (s : Server) (via : Bool) (r : Received)
    (small : seg.seq < 4294967296) (l : Line) (empty : l.out = []) :
    (¬ Live l.conn.state → Live (onListen env s via seg l).1.conn.state →
      Follows (onListen env s via seg l).1.conn (r.observe .listen seg)) ∧
    ∀ sent ∈ (onListen env s via seg l).2,
      sent.ack = cut32 (r.observe .listen seg).position := by
  have number : add64 seg.seq 1 = seg.seq + 1 := add64_eq (by omega)
  unfold onListen Received.observe
  simp only
  split_ifs with syn
  · refine ⟨fun _ _ => ⟨?_, rfl⟩, ?_⟩
    · change SameSeq (add64 seg.seq 1) (seg.seq + 1)
      rw [number]
      rfl
    · intro sent listed
      rcases tcpSend_acks env _ flagsSynAck [] sent listed with earlier | ack
      · rw [empty] at earlier
        exact (List.not_mem_nil earlier).elim
      · rw [ack]
        change cut32 (add64 seg.seq 1) = cut32 (seg.seq + 1)
        rw [number]
  · refine ⟨fun idle live => (idle live).elim, ?_⟩
    intro sent listed
    rw [empty] at listed
    exact (List.not_mem_nil listed).elim

end Law

section Runs

theorem at8_lt (f : Frame) (i : Nat) : f.at8 i < 256 := (f.byte i).toNat_lt

theorem at16_lt (f : Frame) (i : Nat) : f.at16 i < 65536 := by
  have high := at8_lt f i
  have low := at8_lt f (i + 1)
  unfold Frame.at16
  omega

theorem segmentOf_bounds (f : Frame) :
    (segmentOf f).seq < 4294967296 ∧ (segmentOf f).data.length < 4294967296 := by
  have high := at16_lt f (f.tcpAt + 4)
  have low := at16_lt f (f.tcpAt + 4 + 2)
  have total := at16_lt f 16
  constructor
  · change f.at32 (f.tcpAt + 4) < 4294967296
    unfold Frame.at32
    omega
  · change ((List.range _).map _).length < 4294967296
    rw [List.length_map, List.length_range]
    unfold Frame.totalLen
    omega

/-- While a connection is there, `peer_seq` is the position of its stream. -/
def Law (w : Watched) : Prop := Live w.srv.conn.state → Follows w.srv.conn w.rcv

/-- What an event acknowledges: the position of the stream, or on a live connection
one that it had or passed during the event. -/
def AcksReceived (w : Watched) (e : Event) : Prop :=
  (Live w.srv.conn.state → w.rcv.position ≤ (w.next e).rcv.position) ∧
    ∀ sent ∈ (step w.srv e).2,
      if Live w.srv.conn.state then AcksBetween w.rcv.position (w.next e).rcv.position sent
      else sent.ack = cut32 (w.next e).rcv.position

variable {w : Watched} {e : Event}

theorem law_of_kept {r : Received} (live : Live w.srv.conn.state)
    (kept : Kept w.rcv r ⟨(step w.srv e).1.conn, (step w.srv e).2⟩)
    (stream : (w.next e).rcv = r) : Law (w.next e) ∧ AcksReceived w e := by
  refine ⟨fun _ => ?_, fun _ => ?_, ?_⟩
  · rw [stream]
    exact kept.follows
  · rw [stream]
    exact kept.forward
  · intro sent listed
    rw [if_pos live, stream]
    exact kept.acks sent listed

theorem law_of_still (law : Law w)
    (quiet : (step w.srv e).2 = []) (stream : (w.next e).rcv = w.rcv)
    (seq : (step w.srv e).1.conn.peerSeq = w.srv.conn.peerSeq)
    (fin : (step w.srv e).1.conn.peerFin = w.srv.conn.peerFin)
    (live : Live (step w.srv e).1.conn.state → Live w.srv.conn.state) :
    Law (w.next e) ∧ AcksReceived w e := by
  refine ⟨fun after => ?_, fun _ => ?_, ?_⟩
  · rw [stream]
    exact (law (live after)).of_eq seq fin
  · exact Nat.le_of_eq (congrArg Received.position stream.symm)
  · intro sent listed
    rw [quiet] at listed
    exact (List.not_mem_nil listed).elim

theorem observe_forward {st : TcpState} (live : Live st) (r : Received) (seg : Segment) :
    r.position ≤ (r.observe st seg).position := by
  cases st with
  | closed => exact (live.1 rfl).elim
  | listen => exact (live.2 rfl).elim
  | synRcvd | lastAck => exact Nat.le_refl _
  | established =>
    have data := position_takeData r seg
    have fin := position_takeFin (r.takeData seg) seg
    unfold Received.observe
    simp only
    split_ifs
    · exact Nat.le_refl _
    · omega
  | finWait1 => exact position_takeFin r seg

theorem packet_law (law : Law w) (frame : Frame) (via : Bool) (env : Env)
    (orderly : Orderly w (.packet frame via env)) :
    Law (w.next (.packet frame via env)) ∧ AcksReceived w (.packet frame via env) := by
  by_cases read : ForUs w.srv frame via ∧ WellSized frame
  swap
  · have same : step w.srv (.packet frame via env) = (w.srv, []) := by
      simp only [step, tcpHandlePacketVia]
      split_ifs with forUs sized
      · exact (read ⟨forUs, sized⟩).elim
      · rfl
      · rfl
    have stream : (w.next (.packet frame via env)).rcv = w.rcv :=
      if_neg fun heard => read ⟨heard.1, heard.2.1⟩
    apply law_of_still law _ stream
    · rw [same]
    · rw [same]
    · rw [same]
      exact id
    · rw [same]
  have run : step w.srv (.packet frame via env) = receive env w.srv via (segmentOf frame) := by
    simp only [step, tcpHandlePacketVia, if_pos read.1, if_pos read.2]
  obtain ⟨small, short⟩ := segmentOf_bounds frame
  by_cases live : Live w.srv.conn.state
  · have touchedLive : Live (touched env w.srv (segmentOf frame)).state := touch_live env _ live
    by_cases peer : FromPeer w.srv.conn (segmentOf frame)
    · have heard : Heard w.srv frame via env := ⟨read.1, read.2, .inr (.inr peer)⟩
      have stream : (w.next (.packet frame via env)).rcv =
          w.rcv.observe (touched env w.srv (segmentOf frame)).state (segmentOf frame) :=
        if_pos heard
      rcases peer_kept via (law live) peer small short touchedLive (orderly heard) with
        kept | ⟨idle, kept⟩
      · rw [← run] at kept
        exact law_of_kept live kept stream
      · rw [← run] at idle kept
        have forward := observe_forward touchedLive w.rcv (segmentOf frame)
        refine ⟨fun after => (idle after).elim, fun _ => ?_, ?_⟩
        · rw [stream]
          exact forward
        · intro sent listed
          rw [if_pos live, stream]
          exact (kept.acks sent listed).mono forward
    · have kept : Kept w.rcv w.rcv (touch env (segmentOf frame) w.srv.conn) :=
        touch_kept (law live)
      have stranger := receive_stranger env w.srv via (segmentOf frame) touchedLive.1
        touchedLive.2 fun from' => peer ((touch_fromPeer env _ _).mp from')
      have stream : (w.next (.packet frame via env)).rcv = w.rcv := by
        refine if_neg fun heard => ?_
        rcases heard.2.2 with closed | listen | peer'
        · exact touchedLive.1 closed
        · exact touchedLive.2 listen
        · exact peer peer'
      apply law_of_kept live _ stream
      rw [run, stranger]
      exact kept
  · obtain ⟨state, quiet⟩ := touch_idle env (segmentOf frame) live
    have idle : (touch env (segmentOf frame) w.srv.conn).conn.state = .closed ∨
        (touch env (segmentOf frame) w.srv.conn).conn.state = .listen := by
      rw [state]
      by_contra neither
      exact live ⟨fun closed => neither (.inl closed), fun listen => neither (.inr listen)⟩
    have heard : Heard w.srv frame via env := by
      refine ⟨read.1, read.2, ?_⟩
      rcases idle with closed | listen
      · exact .inl closed
      · exact .inr (.inl listen)
    have stream : (w.next (.packet frame via env)).rcv =
        w.rcv.observe .listen (segmentOf frame) := by
      refine (if_pos heard).trans ?_
      unfold touched
      rcases idle with closed | listen
      · rw [closed]
        rfl
      · rw [listen]
    obtain ⟨opens, acks⟩ := onListen_law env w.srv via w.rcv small
      (touch env (segmentOf frame) w.srv.conn) quiet
    rw [← receive_listen env w.srv via (segmentOf frame) idle, ← run] at opens acks
    refine ⟨fun after => ?_, fun before => (live before).elim, ?_⟩
    · rw [stream]
      refine opens ?_ after
      rw [state]
      exact live
    · intro sent listed
      rw [if_neg live, stream]
      exact acks sent listed

/-- One event that meets the condition. -/
theorem step_law (law : Law w) (orderly : Orderly w e) :
    Law (w.next e) ∧ AcksReceived w e := by
  cases e with
  | packet frame via env => exact packet_law law frame via env orderly
  | tick env =>
    rcases tick_cases env w.srv.conn with ⟨_, last, run⟩ | ⟨_, _, run⟩ | ⟨expired, _, run⟩
    · apply law_of_still law _ rfl
      all_goals simp only [step, run, imp_self]
    · apply law_of_still law _ rfl
      all_goals simp only [step, run, imp_self]
    · have live : Live w.srv.conn.state := by
        rcases expired.2.1 with established | finWait
        · rw [established]
          decide
        · rw [finWait]
          decide
      apply law_of_kept live _ rfl
      simp only [step, run]
      apply Kept.pump
      exact (law live).kept.update rfl rfl
  | reap now =>
    rcases reap_cases now w.srv with same | stamped | freed
    · apply law_of_still law rfl rfl
      all_goals simp only [step, same, imp_self]
    · apply law_of_still law rfl rfl
      all_goals simp only [step, stamped, imp_self]
    · apply law_of_still law rfl rfl
      · simp only [step, freed]
      · simp only [step, freed]
      · simp only [step, freed]
        exact fun live => (live.2 rfl).elim
  | listen port =>
    apply law_of_still law rfl rfl rfl rfl
    exact fun live => (live.2 rfl).elim
  | setIp ip => exact law_of_still law rfl rfl rfl rfl id

end Runs

/-- In every run from power-on whose segments meet the condition, `peer_seq` of a live
connection is the peer's ISN, one, the bytes received in order and one for a FIN received
in order; and a further event of that kind acknowledges only positions that the stream
has reached, none before the one it found. -/
theorem runs_receive_sequence {ip wifiIp : List UInt8} {r : Received} {w : Watched}
    (run : Runs (fun w e => some (w.next e)) Orderly ⟨boot ip wifiIp, r⟩ w) :
    (Live w.srv.conn.state → SameSeq w.srv.conn.peerSeq
      (w.rcv.isn + 1 + w.rcv.bytes + if w.rcv.fin then 1 else 0)) ∧
      ∀ e, Orderly w e → AcksReceived w e := by
  have law : Law w := by
    apply Runs.invariant run
    · exact fun live => (live.1 rfl).elim
    · intro t e t' before orderly next
      obtain rfl := Option.some.inj next
      exact (step_law before orderly).1
  exact ⟨fun live => (law live).seq, fun e orderly => (step_law law orderly).2⟩

section Cases

open TcpFin

def unheard : Watched := ⟨boot host [], ⟨0, 0, false⟩⟩

def syn : Event := fromClient 10 (clientSegment 1000 0 flagsSyn []) []

def handshakeAck : Event := fromClient 11 (clientSegment 1001 3735928560 flagsAck []) []

def flagsPeerFin : Flags := ⟨true, false, false, false, true⟩

theorem runs_receive_sequence_fin_behind_data :
    SameSeq (((((unheard.next syn).next handshakeAck).next (fromClient 12 request [])).next
      (fromClient 13 (clientSegment 1005 3735928560 flagsPeerFin []) [])).srv.conn.peerSeq) 1006 := by
  have start : Runs (fun w e => some (Watched.next w e)) Orderly unheard unheard := Runs.refl _
  have opened : Orderly unheard syn := by decide
  have shaken : Orderly (unheard.next syn) handshakeAck := by decide
  have asked : Orderly ((unheard.next syn).next handshakeAck) (fromClient 12 request []) := by
    decide
  have closed : Orderly (((unheard.next syn).next handshakeAck).next (fromClient 12 request []))
      (fromClient 13 (clientSegment 1005 3735928560 flagsPeerFin []) []) := by
    decide
  have run := (((start.snoc opened rfl).snoc shaken rfl).snoc asked rfl).snoc closed rfl
  exact (runs_receive_sequence run).1 (by decide)

/-- A FIN that comes with two bytes: they are acknowledged, and then the number goes back
to the first of them. -/
theorem fin_with_data_goes_back :
    ∃ w, Runs (fun w e => some (Watched.next w e)) (fun _ _ => True) unheard w ∧
      Live (w.next (fromClient 12 (clientSegment 1001 3735928560 flagsPeerFin [65, 66])
        [])).srv.conn.state ∧
      (w.next (fromClient 12 (clientSegment 1001 3735928560 flagsPeerFin [65, 66]) [])).rcv =
        ⟨1000, 2, true⟩ ∧
      (w.next (fromClient 12 (clientSegment 1001 3735928560 flagsPeerFin [65, 66])
        [])).srv.conn.peerSeq = 1002 ∧
      (step w.srv (fromClient 12 (clientSegment 1001 3735928560 flagsPeerFin [65, 66])
        [])).2.map Sent.ack = [1003, 1002] := by
  refine ⟨(unheard.next syn).next handshakeAck, ?_, by decide, by decide, by decide, by decide⟩
  have start : Runs (fun w e => some (Watched.next w e)) (fun _ _ => True) unheard unheard :=
    Runs.refl _
  exact (start.snoc trivial rfl).snoc trivial rfl

end Cases

end XinuRpi5.System.TcpReceive
