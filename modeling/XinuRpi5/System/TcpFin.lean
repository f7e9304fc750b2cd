/- source: system/tcp_server.c
   digest: The sequence number of the server's FIN over whole runs, and what releases the slot. -/

import XinuRpi5.System.TcpPump

namespace XinuRpi5.System.TcpFin

open Lib.GuardedRuns Lib.Word64
open TcpServer TcpHandler TcpPump

def AfterFin (st : TcpState) : Prop := st = .finWait1 ∨ st = .lastAck

instance (st : TcpState) : Decidable (AfterFin st) := inferInstanceAs (Decidable (_ ∨ _))

def Completes (s : Server) (seg : Segment) : Prop :=
  seg.data ≠ [] ∧ httpComplete (acceptReq s.req s.conn seg) = true

def highSeq (c : Conn) : Nat := if 0 < c.sndLen then c.sndSeq0 + c.sndLen else c.mySeq

def responseLen (env : Env) : Nat := (env.response.take tcpSndBuf).length

/-- The most that the pump sends of a fresh response before an acknowledgement. -/
def firstFlight (win : Nat) : Nat := (pumpLimit win + tcpMss - 1) / tcpMss * tcpMss

/-- In `FIN_WAIT_1` no acknowledgement is processed while response bytes are
still stored. In `ESTABLISHED` a queued response and its FIN stay below
`2 ^ 32`; the peer's FIN does not come with the data that completes a request,
unless the response is longer than one flight; and it finds the response not
yet sent, or `my_seq` at the end of the previous one. -/
def SegmentSafe (env : Env) (s : Server) (seg : Segment) : Prop :=
  (s.conn.state = .finWait1 → seg.flags.ack = true → s.conn.sndLen = 0) ∧
  (s.conn.state = .established → FromPeer s.conn seg → seg.flags.rst = false →
    (Completes s seg → highSeq s.conn + responseLen env + 1 < 4294967296 ∧
      (seg.flags.fin = true → firstFlight seg.win < responseLen env)) ∧
    (seg.flags.fin = true → ¬ Completes s seg → s.conn.sndLen ≤ s.conn.sndNxt →
      s.conn.sndFinPending = false →
      s.conn.mySeq = s.conn.sndSeq0 + s.conn.sndLen ∧ s.conn.mySeq + 1 < 4294967296))

/-- The condition on an event: its segment is safe, and the retransmission timer
does not expire in `FIN_WAIT_1`. -/
def FinSafe (s : Server) : Event → Prop
  | .packet f via env => ForUs s f via → WellSized f → SegmentSafe env s (segmentOf f)
  | .tick env => s.conn.state = .finWait1 → ¬ RtoExpired s.conn env.now
  | .reap _ | .listen _ | .setIp _ => True

instance (s : Server) (seg : Segment) : Decidable (Completes s seg) :=
  inferInstanceAs (Decidable (_ ∧ _))

instance (env : Env) (s : Server) (seg : Segment) : Decidable (SegmentSafe env s seg) := by
  unfold SegmentSafe
  infer_instance

instance (s : Server) (e : Event) : Decidable (FinSafe s e) := by
  cases e <;> unfold FinSafe <;> infer_instance

structure FinInv (c : Conn) : Prop where
  bounded : Bounded c
  unacked : c.state ≠ .closed → c.state ≠ .listen → c.finAcked = false
  room : c.state ≠ .closed → c.state ≠ .listen → c.sndFinPending = true →
    c.sndSeq0 + c.sndLen + 1 < 4294967296
  fresh : c.state = .synRcvd → c.sndLen = 0
  queued : c.state = .established → 0 < c.sndLen →
    c.sndFinPending = true ∧ c.mySeq ≤ c.sndSeq0 + c.sndLen
  sent : AfterFin c.state → c.sndFinPending = false ∧
    c.mySeq = c.sndSeq0 + c.sndLen + 1 ∧ c.mySeq < 4294967296

theorem add64_le (x y : Nat) : add64 x y ≤ x + y := Nat.mod_le _ _

variable {env : Env} {l : Line} {s : Server} {seg : Segment} {via : Bool}

/-- A pump call outside `FIN_WAIT_1` keeps the invariant. -/
theorem tcpPump_finInv (inv : FinInv l.conn)
    (other : l.conn.state ≠ .finWait1) : FinInv (tcpPump env l).conn := by
  by_cases pumping : Pumping l.conn.state
  swap
  · rw [tcpPump_idle pumping]
    exact inv
  have estab : l.conn.state = .established := by
    rcases pumping with estab | fin
    · exact estab
    · exact (other fin).elim
  have active := active_of estab (by decide)
  have pumped := (tcpPump_spec env pumping).1
  have bounded := pumped.bounded_of inv.bounded
  have outcome := pumped.outcome
  obtain ⟨seq, nxt, last, pending, st, equal⟩ := pumped.frame
  rw [equal] at bounded outcome ⊢
  simp only at outcome
  rcases outcome with ⟨state, kept, data, _⟩ | ⟨due, off, _, number, state⟩
  · have notAfter : ¬ AfterFin st := by
      rw [state, estab]
      rintro (fin | last) <;> simp at *
    have notFresh : st ≠ .synRcvd := by
      rw [state, estab]
      decide
    refine ⟨bounded, fun _ _ => inv.unacked active.1 active.2, ?_, fun fresh =>
      (notFresh fresh).elim, ?_, fun after => (notAfter after).elim⟩
    · intro _ _ due
      exact inv.room active.1 active.2 (kept.symm.trans due)
    · intro _ some
      refine ⟨kept.trans (inv.queued estab some).1, ?_⟩
      change seq ≤ l.conn.sndSeq0 + l.conn.sndLen
      have high : nxt ≤ l.conn.sndLen := bounded.nxt
      rcases data some with here | ⟨here, _⟩
      · have := add64_le l.conn.sndSeq0 nxt
        omega
      · have := add64_le l.conn.sndSeq0 l.conn.sndLen
        omega
  · have room := inv.room active.1 active.2 due
    have end' : add64 l.conn.sndSeq0 l.conn.sndLen = l.conn.sndSeq0 + l.conn.sndLen :=
      add64_eq (by omega)
    have fits : seq = l.conn.sndSeq0 + l.conn.sndLen + 1 := by
      rw [number, end', add64_eq (by omega)]
    refine ⟨bounded, fun _ _ => inv.unacked active.1 active.2, ?_, ?_, ?_,
      fun _ => ⟨off, fits, ?_⟩⟩
    · intro _ _ still
      change pending = true at still
      rw [off] at still
      exact Bool.noConfusion still
    · intro still
      change st = .synRcvd at still
      rw [state] at still
      split_ifs at still
    · intro still
      change st = .established at still
      rw [state] at still
      split_ifs at still
    · change seq < 4294967296
      omega

theorem slide_finInv {c : Conn} (inv : FinInv c) (ack : Nat) : FinInv (slide c ack) := by
  have bounded := slide_bounded inv.bounded ack
  obtain ⟨una, retries, equal⟩ := slide_eq c ack
  rw [equal] at bounded ⊢
  exact ⟨bounded, inv.unacked, inv.room, inv.fresh, inv.queued, inv.sent⟩

theorem touch_finInv (inv : FinInv s.conn)
    (safe : SegmentSafe env s seg) : FinInv (touch env seg s.conn).conn := by
  have stamped : FinInv { s.conn with lastMs := env.now, peerWin := seg.win } :=
    ⟨⟨inv.bounded.una, inv.bounded.nxt⟩, inv.unacked, inv.room, inv.fresh, inv.queued, inv.sent⟩
  unfold touch
  simp only
  split_ifs with acks
  · apply tcpPump_finInv (slide_finInv stamped seg.ack)
    intro fin
    obtain ⟨una, retries, equal⟩ :=
      slide_eq { s.conn with lastMs := env.now, peerWin := seg.win } seg.ack
    rw [equal] at fin
    have empty := safe.1 fin acks.1
    have some : 0 < s.conn.sndLen := acks.2
    omega
  · exact stamped

/-- From the start of a response the loop sends whole segments, so it stops at
the first multiple of the segment size that fills the limit. -/
theorem pumpLoop_flight (env : Env) (fuel : Nat) (l : Line) (una : l.conn.sndUna = 0)
    (whole : tcpMss ∣ l.conn.sndNxt ∨ l.conn.sndNxt = l.conn.sndLen)
    (within : l.conn.sndNxt ≤ firstFlight l.conn.peerWin) :
    (pumpLoop env fuel l).conn.sndNxt ≤ firstFlight l.conn.peerWin := by
  induction fuel generalizing l with
  | zero => exact within
  | succ fuel ih =>
    by_cases sendable : Sendable l.conn
    swap
    · rw [pumpLoop_stop (fuel + 1) sendable]
      exact within
    cases taken : env.tx l.out.length with
    | none =>
      rw [pumpLoop_refused fuel sendable taken]
      exact within
    | some t =>
      rw [pumpLoop_taken fuel sendable taken]
      obtain ⟨room, limit⟩ := sendable
      obtain ⟨k, multiple⟩ : tcpMss ∣ l.conn.sndNxt := by
        rcases whole with dvd | full
        · exact dvd
        · omega
      apply ih ⟨sentOne l.conn t, _⟩ una
      · by_cases short : l.conn.sndLen - l.conn.sndNxt ≤ tcpMss
        · right
          change l.conn.sndNxt + min (l.conn.sndLen - l.conn.sndNxt) tcpMss = l.conn.sndLen
          omega
        · left
          refine ⟨k + 1, ?_⟩
          change l.conn.sndNxt + min (l.conn.sndLen - l.conn.sndNxt) tcpMss = _
          rw [Nat.min_eq_right (by omega), multiple]
          rfl
      · change l.conn.sndNxt + min (l.conn.sndLen - l.conn.sndNxt) tcpMss ≤
          firstFlight l.conn.peerWin
        have small : l.conn.sndNxt < pumpLimit l.conn.peerWin := by omega
        unfold firstFlight
        unfold tcpMss at *
        omega

/-- A response longer than one flight is not sent whole at once. -/
theorem tcpSendResponse_unsent (env : Env) {l : Line} (estab : l.conn.state = .established)
    (long : firstFlight l.conn.peerWin < responseLen env) :
    (tcpSendResponse env l).conn.state = .established ∧
      (tcpSendResponse env l).conn.sndNxt < (tcpSendResponse env l).conn.sndLen := by
  unfold tcpSendResponse
  simp only
  generalize ready : ({ l with conn := { l.conn with
    snd := env.response.take tcpSndBuf
    sndLen := (env.response.take tcpSndBuf).length
    sndUna := 0
    sndNxt := 0
    sndSeq0 := l.conn.mySeq
    sndRetries := 0
    sndFinPending := true
    sndLastTxMs := env.respNow } } : Line) = r
  have una : r.conn.sndUna = 0 := by rw [← ready]
  have nxt : r.conn.sndNxt = 0 := by rw [← ready]
  have win : r.conn.peerWin = l.conn.peerWin := by rw [← ready]
  have len : r.conn.sndLen = responseLen env := by
    rw [← ready]
    rfl
  have pumping : Pumping r.conn.state := by
    rw [← ready]
    exact .inl estab
  obtain ⟨seq, nxt', last, out, run, _⟩ :=
    pumpLoop_spec env (r.conn.sndLen - r.conn.sndNxt) r
  have flight := pumpLoop_flight env (r.conn.sndLen - r.conn.sndNxt) r una
    (.inl (by rw [nxt]; exact Nat.dvd_zero _)) (by rw [nxt]; exact Nat.zero_le _)
  rw [run] at flight
  have short : nxt' < r.conn.sndLen := by
    rw [len]
    rw [win] at flight
    exact Nat.lt_of_le_of_lt flight long
  have state : r.conn.state = .established := by
    rw [← ready]
    exact estab
  rw [tcpPump_run pumping run, pumpFin_skip]
  · exact ⟨state, short⟩
  · intro due
    exact absurd due.2 (Nat.not_le.mpr short)

section Branches

variable {env : Env} {s : Server} {via : Bool} {seg : Segment} {l : Line}

theorem tcpSendResponse_finInv (inv : FinInv l.conn) (estab : l.conn.state = .established)
    (room : l.conn.mySeq + responseLen env + 1 < 4294967296) :
    FinInv (tcpSendResponse env l).conn := by
  have active := active_of estab (by decide)
  unfold tcpSendResponse
  apply tcpPump_finInv
  · refine ⟨⟨Nat.zero_le _, Nat.zero_le _⟩, fun _ _ => inv.unacked active.1 active.2,
      fun _ _ _ => room, ?_, fun _ _ => ⟨rfl, Nat.le_add_right _ _⟩, ?_⟩
    · intro fresh
      have state : l.conn.state = .synRcvd := fresh
      rw [estab] at state
      exact absurd state (by decide)
    intro after
    have state : AfterFin l.conn.state := after
    rw [estab] at state
    exact absurd state (by decide)
  · change l.conn.state ≠ .finWait1
    rw [estab]
    decide

theorem finInv_congr {c c' : Conn} (inv : FinInv c) (state : c'.state = c.state)
    (una : c'.sndUna = c.sndUna) (nxt : c'.sndNxt = c.sndNxt) (len : c'.sndLen = c.sndLen)
    (seq0 : c'.sndSeq0 = c.sndSeq0) (seq : c'.mySeq = c.mySeq)
    (pending : c'.sndFinPending = c.sndFinPending) (acked : c'.finAcked = c.finAcked) :
    FinInv c' := by
  refine ⟨⟨?_, ?_⟩, ?_, ?_, ?_, ?_, ?_⟩
  · rw [una, len]
    exact inv.bounded.una
  · rw [nxt, len]
    exact inv.bounded.nxt
  · rw [state, acked]
    exact inv.unacked
  · rw [state, pending, seq0, len]
    exact inv.room
  · rw [state, len]
    exact inv.fresh
  · rw [state, len, seq, seq0, pending]
    exact inv.queued
  · rw [state, pending, seq, seq0, len]
    exact inv.sent

theorem finInv_idle {c : Conn} (bounded : Bounded c) (idle : c.state = .listen) : FinInv c := by
  refine ⟨bounded, fun _ listen => (listen idle).elim, fun _ listen => (listen idle).elim, ?_, ?_,
    ?_⟩
  · intro fresh
    rw [idle] at fresh
    exact absurd fresh (by decide)
  · intro estab
    rw [idle] at estab
    exact absurd estab (by decide)
  · intro after
    rw [idle] at after
    exact absurd after (by decide)

theorem acceptConn_eq (c : Conn) (seg : Segment) :
    ∃ peerSeq, acceptConn c seg = { c with peerSeq := peerSeq } := by
  unfold acceptConn
  split_ifs
  · exact ⟨_, rfl⟩
  · exact ⟨c.peerSeq, rfl⟩

theorem onData_finInv (inv : FinInv l.conn) (estab : l.conn.state = .established)
    (room : httpComplete (acceptReq s.req l.conn seg) = true →
      l.conn.mySeq + responseLen env + 1 < 4294967296) :
    FinInv (onData env s seg l).1.conn := by
  obtain ⟨peerSeq, equal⟩ := acceptConn_eq l.conn seg
  have accepted : FinInv (acceptConn l.conn seg) := by
    rw [equal]
    exact finInv_congr inv rfl rfl rfl rfl rfl rfl rfl rfl
  unfold onData
  simp only
  split_ifs with complete
  · apply tcpSendResponse_finInv accepted
    · rw [equal]
      exact estab
    · rw [equal]
      exact room complete
  · exact accepted

/-- The FIN part in `ESTABLISHED`: with something left to send the pump goes on,
otherwise `my_seq` has to stand at the end of the response. -/
theorem onPeerFin_finInv (inv : FinInv l.conn) (estab : l.conn.state = .established)
    (seat : l.conn.sndLen ≤ l.conn.sndNxt → l.conn.sndFinPending = false →
      l.conn.mySeq = l.conn.sndSeq0 + l.conn.sndLen ∧ l.conn.mySeq + 1 < 4294967296) :
    FinInv (onPeerFin env s seg l).1.conn := by
  have active := active_of estab (by decide)
  have noted : FinInv { l.conn with peerSeq := add64 seg.seq 1, peerFin := true } :=
    finInv_congr inv rfl rfl rfl rfl rfl rfl rfl rfl
  unfold onPeerFin
  simp only
  split_ifs with rest
  · apply tcpPump_finInv noted
    change l.conn.state ≠ .finWait1
    rw [estab]
    decide
  · have sent : l.conn.sndLen ≤ l.conn.sndNxt := by omega
    have off : l.conn.sndFinPending = false := by
      cases pending : l.conn.sndFinPending with
      | false => rfl
      | true => exact (rest (.inr pending)).elim
    obtain ⟨here, room⟩ := seat sent off
    have next : add64 l.conn.mySeq 1 = l.conn.mySeq + 1 := add64_eq (by omega)
    refine ⟨⟨inv.bounded.una, inv.bounded.nxt⟩, fun _ _ => inv.unacked active.1 active.2, ?_, ?_,
      ?_, fun _ => ⟨off, ?_, ?_⟩⟩
    · intro _ _ pending
      change l.conn.sndFinPending = true at pending
      rw [off] at pending
      exact Bool.noConfusion pending
    · intro still
      have same : TcpState.lastAck = .synRcvd := still
      exact absurd same (by decide)
    · intro still
      have same : TcpState.lastAck = .established := still
      exact absurd same (by decide)
    · change add64 l.conn.mySeq 1 = _
      rw [next, here]
    · change add64 l.conn.mySeq 1 < _
      rw [next]
      exact room

theorem onData_incomplete (env : Env) (open' : ¬ httpComplete (acceptReq s.req l.conn seg) = true) :
    (onData env s seg l).1.conn = acceptConn l.conn seg := by
  unfold onData
  simp only [if_neg open']

theorem onData_complete (env : Env) (complete : httpComplete (acceptReq s.req l.conn seg) = true) :
    ∃ out, (onData env s seg l).1.conn =
      (tcpSendResponse env ⟨acceptConn l.conn seg, out⟩).conn := by
  unfold onData
  simp only [if_pos complete]
  exact ⟨_, rfl⟩

/-- The `ESTABLISHED` branch of a safe segment. -/
theorem onEstablished_finInv (inv : FinInv s.conn) (safe : SegmentSafe env s seg)
    (estab : s.conn.state = .established) (peer : FromPeer s.conn seg)
    (still : (touch env seg s.conn).conn.state = .established) :
    FinInv (onEstablished env s seg (touch env seg s.conn)).1.conn := by
  have touched := touch_finInv inv safe
  unfold onEstablished
  cases rst : seg.flags.rst with
  | true =>
    rw [if_pos rfl]
    exact finInv_idle ⟨touched.bounded.una, touched.bounded.nxt⟩ rfl
  | false =>
  obtain ⟨whole, closing⟩ := safe.2 estab peer rst
  obtain ⟨una, retries, seq, nxt, last, pending, st, equal⟩ := touch_eq env seg s.conn
  have sameReq : acceptReq s.req (touch env seg s.conn).conn seg = acceptReq s.req s.conn seg := by
    rw [equal]
    rfl
  have high : (touch env seg s.conn).conn.mySeq ≤ highSeq s.conn := by
    unfold highSeq
    split_ifs with data
    · have queued := touched.queued still
      rw [equal] at queued ⊢
      exact (queued data).2
    · have empty : s.conn.sndLen = 0 := by omega
      exact Nat.le_of_eq (congrArg (fun t => t.conn.mySeq) (touch_empty env seg empty))
  -- The shortcut is reached only when nothing was queued before the segment.
  have seat : seg.flags.fin = true → ¬ Completes s seg →
      (touch env seg s.conn).conn.sndLen ≤ (touch env seg s.conn).conn.sndNxt →
      (touch env seg s.conn).conn.sndFinPending = false →
      (touch env seg s.conn).conn.mySeq =
        (touch env seg s.conn).conn.sndSeq0 + (touch env seg s.conn).conn.sndLen ∧
      (touch env seg s.conn).conn.mySeq + 1 < 4294967296 := by
    intro fin partial' full off
    by_cases data : 0 < s.conn.sndLen
    · have queued := touched.queued still
      rw [off] at queued
      rw [equal] at queued
      exact absurd (queued data).1 (by decide)
    · rw [touch_empty env seg (by omega)] at full off ⊢
      exact closing fin partial' full off
  rw [if_neg (by decide)]
  by_cases data : seg.data ≠ []
  · rw [if_pos data]
    have kept : FinInv (onData env s seg (touch env seg s.conn)).1.conn := by
      apply onData_finInv touched still
      rw [sameReq]
      intro complete
      have room := (whole ⟨data, complete⟩).1
      omega
    cases fin : seg.flags.fin with
    | false => exact kept
    | true =>
      by_cases complete : httpComplete (acceptReq s.req (touch env seg s.conn).conn seg) = true
      · obtain ⟨out, answered⟩ := onData_complete env complete
        obtain ⟨peerSeq, accepted⟩ := acceptConn_eq (touch env seg s.conn).conn seg
        have win : (touch env seg s.conn).conn.peerWin = seg.win := by rw [equal]
        have long : firstFlight (acceptConn (touch env seg s.conn).conn seg).peerWin <
            responseLen env := by
          rw [accepted]
          change firstFlight (touch env seg s.conn).conn.peerWin < _
          rw [win]
          exact (whole ⟨data, sameReq ▸ complete⟩).2 fin
        obtain ⟨state, unsent⟩ := tcpSendResponse_unsent env
          (l := ⟨acceptConn (touch env seg s.conn).conn seg, out⟩)
          (by rw [accepted]; exact still) long
        rw [← answered] at state unsent
        apply onPeerFin_finInv (l := ⟨_, _⟩) kept state
        intro full
        exact absurd unsent (Nat.not_lt.mpr full)
      · obtain ⟨peerSeq, accepted⟩ := acceptConn_eq (touch env seg s.conn).conn seg
        have same := onData_incomplete env complete
        rw [accepted] at same
        have notDone : ¬ Completes s seg := fun done => complete (sameReq.symm ▸ done.2)
        apply onPeerFin_finInv (l := ⟨_, _⟩) kept
        · change (onData env s seg (touch env seg s.conn)).1.conn.state = .established
          rw [same]
          exact still
        · change (onData env s seg (touch env seg s.conn)).1.conn.sndLen ≤ _ → _
          simp only [same]
          exact seat fin notDone
  · rw [if_neg data]
    cases fin : seg.flags.fin with
    | false => exact touched
    | true => exact onPeerFin_finInv (l := ⟨_, _⟩) touched still (seat fin fun done => data done.1)

end Branches

theorem onListen_finInv (inv : FinInv l.conn) : FinInv (onListen env s via seg l).1.conn := by
  unfold onListen
  split_ifs
  · refine ⟨⟨Nat.le_refl _, Nat.le_refl _⟩, fun _ _ => rfl, fun _ _ pending => ?_, fun _ => rfl,
      fun estab => ?_, fun after => ?_⟩
    · exact Bool.noConfusion pending
    · have same : TcpState.synRcvd = .established := estab
      exact absurd same (by decide)
    · have state : AfterFin .synRcvd := after
      exact absurd state (by decide)
  · exact inv

theorem onSynRcvd_finInv (inv : FinInv l.conn)
    (state : l.conn.state = .synRcvd) : FinInv (onSynRcvd s seg l).1.conn := by
  have active := active_of state (by decide)
  unfold onSynRcvd
  split_ifs
  · exact finInv_idle ⟨inv.bounded.una, inv.bounded.nxt⟩ rfl
  · have empty := inv.fresh state
    refine ⟨⟨inv.bounded.una, inv.bounded.nxt⟩, fun _ _ => inv.unacked active.1 active.2,
      fun _ _ => inv.room active.1 active.2, fun _ => empty, ?_, ?_⟩
    · intro _ data
      change 0 < l.conn.sndLen at data
      omega
    · intro after
      have same : AfterFin .established := after
      exact absurd same (by decide)
  · exact inv

/-- `FIN_WAIT_1` releases the slot exactly on an acknowledgement of `my_seq`. -/
theorem onFinWait1_spec (inv : FinInv l.conn) (state : l.conn.state = .finWait1) :
    FinInv (onFinWait1 env s seg l).1.conn ∧
      ((onFinWait1 env s seg l).1.conn.state = .listen ↔
        seg.flags.ack = true ∧ seg.ack = l.conn.mySeq) := by
  have unacked : l.conn.finAcked = false := by
    apply inv.unacked
    · rw [state]
      decide
    · rw [state]
      decide
  have bounded := inv.bounded
  have stays : ¬ l.conn.state = .listen := by
    rw [state]
    decide
  unfold onFinWait1
  by_cases acked : seg.flags.ack = true ∧ seg.ack = l.conn.mySeq
  · by_cases fin : seg.flags.fin = true
    · simp only [acked, fin, and_self, if_true]
      exact ⟨finInv_idle ⟨bounded.una, bounded.nxt⟩ rfl, trivial⟩
    · simp only [acked, fin, and_self, if_true, iff_true]
      exact ⟨finInv_idle ⟨bounded.una, bounded.nxt⟩ rfl, rfl⟩
  · by_cases fin : seg.flags.fin = true
    · simp only [acked, fin, unacked, if_true, if_false, iff_false]
      exact ⟨finInv_congr inv rfl rfl rfl rfl rfl rfl rfl unacked.symm, stays⟩
    · have quiet : (if l.conn.finAcked = true then { l.conn with state := .listen }
          else l.conn) = l.conn := by
        rw [unacked]
        rfl
      simp only [if_neg acked, if_neg fin, quiet]
      exact ⟨inv, fun listen => (stays listen).elim, fun ack => (acked ack).elim⟩

theorem onLastAck_spec (inv : FinInv l.conn)
    (state : l.conn.state = .lastAck) :
    FinInv (onLastAck s seg l).1.conn ∧
      ((onLastAck s seg l).1.conn.state = .listen ↔
        seg.flags.ack = true ∧ seg.ack = l.conn.mySeq) := by
  unfold onLastAck
  split_ifs with acked
  · simp only [acked, and_self]
    exact ⟨finInv_idle ⟨inv.bounded.una, inv.bounded.nxt⟩ rfl, trivial⟩
  · simp only [acked, iff_false]
    refine ⟨inv, ?_⟩
    rw [state]
    decide

/-- A safe segment keeps the invariant in every state and from every sender. -/
theorem receive_finInv (inv : FinInv s.conn) (safe : SegmentSafe env s seg) :
    FinInv (receive env s via seg).1.conn := by
  have touched := touch_finInv inv safe
  by_cases idle : (touch env seg s.conn).conn.state = .closed ∨
      (touch env seg s.conn).conn.state = .listen
  · rw [receive_listen env s via seg idle]
    exact onListen_finInv touched
  have active : (touch env seg s.conn).conn.state ≠ .closed ∧
      (touch env seg s.conn).conn.state ≠ .listen := not_or.mp idle
  by_cases peer : FromPeer (touch env seg s.conn).conn seg
  swap
  · rw [receive_stranger env s via seg active.1 active.2 peer]
    exact touched
  cases state : (touch env seg s.conn).conn.state with
  | closed => exact (active.1 state).elim
  | listen => exact (active.2 state).elim
  | synRcvd =>
    rw [receive_synRcvd env s via seg peer state]
    exact onSynRcvd_finInv touched state
  | established =>
    have before : s.conn.state = .established := by
      rcases touch_state env seg s.conn with same | ⟨_, fin | last⟩
      · exact same.symm.trans state
      · rw [state] at fin
        exact absurd fin (by decide)
      · rw [state] at last
        exact absurd last (by decide)
    rw [receive_established env s via seg peer state]
    exact onEstablished_finInv inv safe before ((touch_fromPeer env seg s.conn).mp peer) state
  | finWait1 =>
    rw [receive_finWait1 env s via seg peer state]
    exact (onFinWait1_spec touched state).1
  | lastAck =>
    rw [receive_lastAck env s via seg peer state]
    exact (onLastAck_spec touched state).1

theorem tick_finInv {c : Conn} (inv : FinInv c)
    (safe : c.state = .finWait1 → ¬ RtoExpired c env.now) :
    FinInv (tcpRetransmitTick env c).conn := by
  rcases tick_cases env c with ⟨_, last, run⟩ | ⟨expired, _, run⟩ | ⟨expired, _, run⟩
  · rw [run]
    exact finInv_congr inv rfl rfl rfl rfl rfl rfl rfl rfl
  · have estab : c.state = .established := expired.2.1.resolve_right fun fin => safe fin expired
    rw [run]
    refine ⟨⟨Nat.le_refl _, Nat.le_refl _⟩, inv.unacked, fun _ _ pending => ?_, fun _ => rfl,
      fun _ data => ?_, fun after => ?_⟩
    · exact Bool.noConfusion pending
    · exact absurd data (Nat.lt_irrefl 0)
    · have state : AfterFin c.state := after
      rw [estab] at state
      exact absurd state (by decide)
  · have estab : c.state = .established := expired.2.1.resolve_right fun fin => safe fin expired
    rw [run]
    apply tcpPump_finInv
    · exact ⟨⟨inv.bounded.una, inv.bounded.una⟩, inv.unacked, inv.room, inv.fresh, inv.queued,
        inv.sent⟩
    · change c.state ≠ .finWait1
      rw [estab]
      decide

theorem step_finInv (inv : FinInv s.conn) {e : Event} (safe : FinSafe s e) :
    FinInv (step s e).1.conn := by
  cases e with
  | packet f via env =>
    simp only [step, tcpHandlePacketVia]
    split_ifs with forUs sized
    · exact receive_finInv inv (safe forUs sized)
    · exact inv
    · exact inv
  | tick env => exact tick_finInv inv safe
  | reap now =>
    simp only [step]
    rcases reap_cases now s with same | stamped | freed
    · rw [same]
      exact inv
    · rw [stamped]
      exact finInv_congr inv rfl rfl rfl rfl rfl rfl rfl rfl
    · rw [freed]
      exact finInv_idle ⟨inv.bounded.una, inv.bounded.nxt⟩ rfl
  | listen port => exact finInv_idle ⟨inv.bounded.una, inv.bounded.nxt⟩ rfl
  | setIp ip => exact inv

theorem boot_finInv (ip wifiIp : List UInt8) : FinInv (boot ip wifiIp).conn := by
  refine ⟨⟨Nat.le_refl _, Nat.le_refl _⟩, fun closed => (closed rfl).elim,
    fun closed => (closed rfl).elim, fun _ => rfl, fun estab => ?_, fun after => ?_⟩
  · have same : TcpState.closed = .established := estab
    exact absurd same (by decide)
  · have state : AfterFin .closed := after
    exact absurd state (by decide)

/-- A safe segment of the peer releases the slot exactly when it acknowledges
the number behind the FIN. -/
theorem receive_release
    (inv : FinInv s.conn) (safe : SegmentSafe env s seg) (after : AfterFin s.conn.state) :
    (receive env s via seg).1.conn.state = .listen ↔
      FromPeer s.conn seg ∧ seg.flags.ack = true ∧ seg.ack = s.conn.mySeq := by
  have touched := touch_finInv inv safe
  have seat : (touch env seg s.conn).conn.state = s.conn.state ∧
      (touch env seg s.conn).conn.mySeq = s.conn.mySeq := by
    have idle : touch env seg s.conn =
        ⟨{ s.conn with lastMs := env.now, peerWin := seg.win }, []⟩ ∨
        ¬ Pumping s.conn.state := by
      rcases after with fin | last
      · left
        unfold touch
        simp only
        split_ifs with acks
        · have empty := safe.1 fin acks.1
          have data : 0 < s.conn.sndLen := acks.2
          omega
        · rfl
      · right
        rw [last]
        decide
    rcases idle with same | still
    · rw [same]
      exact ⟨rfl, rfl⟩
    · unfold touch tcpOnAck
      simp only
      obtain ⟨una, retries, slid⟩ :=
        slide_eq { s.conn with lastMs := env.now, peerWin := seg.win } seg.ack
      split_ifs
      · rw [slid, tcpPump_idle still]
        exact ⟨rfl, rfl⟩
      · exact ⟨rfl, rfl⟩
  have active : (touch env seg s.conn).conn.state ≠ .closed ∧
      (touch env seg s.conn).conn.state ≠ .listen := by
    rw [seat.1]
    rcases after with fin | last
    · rw [fin]
      exact ⟨by decide, by decide⟩
    · rw [last]
      exact ⟨by decide, by decide⟩
  rw [← touch_fromPeer env seg s.conn, ← seat.2]
  by_cases peer : FromPeer (touch env seg s.conn).conn seg
  swap
  · rw [receive_stranger env s via seg active.1 active.2 peer]
    simp only [peer, false_and, iff_false]
    exact active.2
  simp only [peer, true_and]
  rcases after with fin | last
  · have state := seat.1.trans fin
    rw [receive_finWait1 env s via seg peer state]
    exact (onFinWait1_spec touched state).2
  · have state := seat.1.trans last
    rw [receive_lastAck env s via seg peer state]
    exact (onLastAck_spec touched state).2

/-- In every run from power-on whose events all meet the condition: after the
server's FIN `my_seq` is the number behind it, and the next such frame releases
the slot exactly when it is an acknowledgement of the peer that covers the FIN. -/
theorem runs_fin_accounting {ip wifiIp : List UInt8} {s : Server}
    (run : Runs (fun s e => some (step s e).1) FinSafe (boot ip wifiIp) s)
    (after : AfterFin s.conn.state) :
    s.conn.mySeq % 4294967296 = (s.conn.sndSeq0 + s.conn.sndLen + 1) % 4294967296 ∧
      ∀ f via env, FinSafe s (.packet f via env) →
        ((tcpHandlePacketVia env s f via).1.conn.state = .listen ↔
          ForUs s f via ∧ WellSized f ∧ FromPeer s.conn (segmentOf f) ∧
            (segmentOf f).flags.ack = true ∧
            (segmentOf f).ack = (s.conn.sndSeq0 + s.conn.sndLen + 1) % 4294967296) := by
  have inv : FinInv s.conn := by
    apply Runs.invariant (I := fun s => FinInv s.conn) run (boot_finInv ip wifiIp)
    intro t e t' before safe next
    obtain rfl := Option.some.inj next
    exact step_finInv before safe
  obtain ⟨_, number, range⟩ := inv.sent after
  have wire : (s.conn.sndSeq0 + s.conn.sndLen + 1) % 4294967296 = s.conn.mySeq := by omega
  refine ⟨by rw [number], fun f via env safe => ?_⟩
  rw [wire]
  have stays : s.conn.state ≠ .listen := by
    rcases after with fin | last
    · rw [fin]
      decide
    · rw [last]
      decide
  unfold tcpHandlePacketVia
  by_cases forUs : ForUs s f via
  swap
  · rw [if_neg forUs]
    exact ⟨fun listen => (stays listen).elim, fun release => (forUs release.1).elim⟩
  by_cases sized : WellSized f
  swap
  · rw [if_pos forUs, if_neg sized]
    exact ⟨fun listen => (stays listen).elim, fun release => (sized release.2.1).elim⟩
  rw [if_pos forUs, if_pos sized]
  simp only [forUs, sized, true_and]
  exact receive_release inv (safe forUs sized) after

def shaken : Server :=
  (step (step (boot host []) (fromClient 10 (clientSegment 1000 0 flagsSyn []) [])).1
    (fromClient 11 (clientSegment 1001 3735928560 flagsAck []) [])).1

def request : Segment := clientSegment 1001 3735928560 flagsPshAck [13, 10, 13, 10]

/-- The transmitter refuses the acknowledgement and the response of three bytes. -/
def refusedRequest : Event :=
  .packet (frameOf host 23 request) false ⟨12, 12, fun _ => none, [65, 66, 67]⟩

def halfClose : Event :=
  fromClient 13 (clientSegment 1005 3735928560 ⟨true, false, false, false, false⟩ []) []

def closing : Server := (step (step shaken refusedRequest).1 halfClose).1

theorem runs_fin_accounting_half_close :
    closing.conn.state = .lastAck ∧
      closing.conn.mySeq % 4294967296 =
        (closing.conn.sndSeq0 + closing.conn.sndLen + 1) % 4294967296 ∧
      (tcpHandlePacketVia (clockAt 14 []) closing
        (frameOf host 23 (clientSegment 1006 3735928564 flagsAck [])) false).1.conn.state =
          .listen ∧
      (tcpHandlePacketVia (clockAt 14 []) closing
        (frameOf host 23 (clientSegment 1006 3735928563 flagsAck [])) false).1.conn.state ≠
          .listen := by
  have start : Runs (fun s e => some (step s e).1) FinSafe (boot host []) (boot host []) :=
    Runs.refl _
  have syn : FinSafe (boot host []) (fromClient 10 (clientSegment 1000 0 flagsSyn []) []) := by
    decide
  have opened := start.snoc syn rfl
  have ack : FinSafe (step (boot host []) (fromClient 10 (clientSegment 1000 0 flagsSyn []) [])).1
      (fromClient 11 (clientSegment 1001 3735928560 flagsAck []) []) := by
    decide
  have asked : FinSafe shaken refusedRequest := by decide
  have closed : FinSafe (step shaken refusedRequest).1 halfClose := by decide
  have run : Runs (fun s e => some (step s e).1) FinSafe (boot host []) closing :=
    ((opened.snoc ack rfl).snoc asked rfl).snoc closed rfl
  have after : AfterFin closing.conn.state := .inr (by decide)
  obtain ⟨number, release⟩ := runs_fin_accounting run after
  refine ⟨by decide, number, ?_, ?_⟩
  · exact (release _ false (clockAt 14 []) (by decide)).mpr (by decide)
  · intro listen
    have covers := (release _ false (clockAt 14 []) (by decide)).mp listen
    exact absurd covers.2.2.2.2 (by decide)

def lateAck (ack : Nat) : Event := fromClient 13 (clientSegment 1005 ack flagsAck []) []

/-- A response of three bytes is sent with its FIN. The peer's acknowledgement
of the data alone then releases the slot, and the one that covers the FIN as
well leaves `my_seq` one short and does not. -/
theorem data_ack_releases_fin_wait :
    ∃ s, Reachable host [] s ∧ s.conn.state = .finWait1 ∧
      s.conn.mySeq = s.conn.sndSeq0 + s.conn.sndLen + 1 ∧
      s.conn.sndSeq0 + s.conn.sndLen = 3735928563 ∧
      (step s (lateAck 3735928563)).1.conn.state = .listen ∧
      (step s (lateAck 3735928564)).1.conn.state = .finWait1 ∧
      (step s (lateAck 3735928564)).1.conn.mySeq % 4294967296 ≠ 3735928564 := by
  refine ⟨(step shaken (fromClient 12 request [65, 66, 67])).1, ?_, by decide, by decide,
    by decide, by decide, by decide, by decide⟩
  have start : Reachable host [] (boot host []) := Runs.refl _
  exact ((start.snoc trivial rfl).snoc trivial rfl).snoc trivial rfl

end XinuRpi5.System.TcpFin
