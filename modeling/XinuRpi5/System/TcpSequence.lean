/- source: system/tcp_server.c
   digest: In-order exchanges with the server, and when their sequence numbers work out. -/

import XinuRpi5.System.TcpErasure

/-!
An exchange is one client and the server. The client counts its own sequence
numbers from its ISN and the server's from the SYN+ACK it saw, and puts them on
the wire modulo `2 ^ 32`; nothing is lost or reordered. `Move` is what the client
sends without any sequence number, so that one list of moves can be played from
different initial numbers.
-/

namespace XinuRpi5.System.TcpSequence

open Lib.Word64
open TcpServer TcpHandler TcpPump
open TcpErasure

/-- `base` is the number that follows the server's SYN, as the client saw it;
`sent` counts what the client used up behind its SYN; `out` is everything the
server handed to its transmitter. -/
structure Exchange where
  srv : Server
  isn : Nat
  sent : Nat
  base : Nat
  finSent : Bool
  out : List Sent

def Exchange.start (srv : Server) (isn : Nat) : Exchange := ⟨srv, isn, 0, 0, false, []⟩

/-- A SYN, or a later segment that acknowledges `acked` bytes of the server. The
sequence numbers inside `body` are not used. -/
structure Move where
  syn : Bool
  body : Segment
  acked : Nat
  via : Bool
  env : Env

def wire (x : Exchange) (m : Move) : Segment :=
  if m.syn then renumber m.body (cut32 x.isn) 0
  else renumber m.body (cut32 (x.isn + 1 + x.sent)) (cut32 (x.base + m.acked))

def InOrder (x : Exchange) (m : Move) : Prop :=
  if m.syn then
    (x.srv.conn.state = .closed ∨ x.srv.conn.state = .listen) ∧ m.body.flags.syn = true ∧
      m.body.flags.ack = false ∧ m.body.data = []
  else
    x.srv.conn.state ≠ .closed ∧ x.srv.conn.state ≠ .listen ∧ FromPeer x.srv.conn m.body ∧
      m.body.flags.ack = true ∧ m.body.flags.rst = false ∧
      (x.srv.conn.state = .synRcvd → m.acked = 0) ∧ (m.body.data ≠ [] → x.finSent = false)

def Carries (x : Exchange) (m : Move) (f : Frame) : Prop :=
  ForUs x.srv f m.via ∧ WellSized f ∧ segmentOf f = wire x m

instance (x : Exchange) (m : Move) (f : Frame) : Decidable (Carries x m f) :=
  inferInstanceAs (Decidable (_ ∧ _))

/-- The server's next ISN, the number of a data segment and the acknowledged
number stay below `2 ^ 32`; data comes in `ESTABLISHED` before a response is
queued; and an acknowledgement of new response bytes does not cover the FIN as
well. -/
def NoWrap (x : Exchange) (m : Move) : Prop :=
  if m.syn then x.srv.isnSeed + 1 < 4294967296
  else
    x.base + m.acked < 4294967296 ∧
      (m.body.data ≠ [] → x.isn + 1 + x.sent < 4294967296 ∧
        x.srv.conn.state = .established ∧ x.srv.conn.sndLen = 0) ∧
      (0 < x.srv.conn.sndLen → x.srv.conn.sndUna < m.acked → m.acked ≤ x.srv.conn.sndLen)

/-- The server handles the frame, and the client counts what it used up. -/
def deliver (x : Exchange) (m : Move) (f : Frame) : Exchange :=
  let srv := (tcpHandlePacketVia m.env x.srv f m.via).1
  let out := x.out ++ (tcpHandlePacketVia m.env x.srv f m.via).2.1
  if m.syn then ⟨srv, x.isn, 0, cut32 (x.srv.isnSeed + 1), false, out⟩
  else ⟨srv, x.isn, x.sent + m.body.data.length + (if m.body.flags.fin then 1 else 0), x.base,
    x.finSent || m.body.flags.fin, out⟩

inductive Played : Exchange → List Move → Exchange → Prop where
  | nil (x : Exchange) : Played x [] x
  | snoc {x y : Exchange} {ms : List Move} {m : Move} {f : Frame} (before : Played x ms y)
      (inOrder : InOrder y m) (noWrap : NoWrap y m) (carries : Carries y m f) :
      Played x (ms ++ [m]) (deliver y m f)

/-- The server's own numbers, measured from the one behind its SYN. -/
structure Seated (b : Nat) (c : Conn) : Prop where
  base : b < 4294967296
  bounded : Bounded c
  small : c.sndLen ≤ 16384
  queued : c.state ≠ .closed → c.state ≠ .listen → 0 < c.sndLen ∨ c.sndFinPending = true →
    c.sndSeq0 = b
  pending : c.state = .established → 0 < c.sndLen → c.sndFinPending = true
  fresh : c.state = .synRcvd → c.sndLen = 0 ∧ c.sndFinPending = false
  idle : c.state = .synRcvd ∨ c.state = .established → c.sndLen = 0 → c.mySeq = b
  finWait : c.state = .finWait1 → c.sndNxt = c.sndLen ∧ c.sndFinPending = false ∧
    (c.mySeq = b + c.sndLen + 1 ∨ 0 < c.sndLen ∧ c.mySeq = b + c.sndLen)

theorem live_cases {st : TcpState} (live : st ≠ .closed ∧ st ≠ .listen) :
    st = .synRcvd ∨ st = .established ∨ st = .finWait1 ∨ st = .lastAck := by
  cases st with
  | closed => exact (live.1 rfl).elim
  | listen => exact (live.2 rfl).elim
  | synRcvd => exact .inl rfl
  | established => exact .inr (.inl rfl)
  | finWait1 => exact .inr (.inr (.inl rfl))
  | lastAck => exact .inr (.inr (.inr rfl))

section Server

variable {b : Nat} {l : Line} {seg : Segment}

theorem seated_congr {c d : Conn} (h : Seated b c) (state : d.state = c.state)
    (una : d.sndUna ≤ d.sndLen) (nxt : d.sndNxt = c.sndNxt) (len : d.sndLen = c.sndLen)
    (seq0 : d.sndSeq0 = c.sndSeq0) (seq : d.mySeq = c.mySeq)
    (pending : d.sndFinPending = c.sndFinPending) : Seated b d := by
  refine ⟨h.base, ⟨una, ?_⟩, ?_, ?_, ?_, ?_, ?_, ?_⟩
  · rw [nxt, len]
    exact h.bounded.nxt
  · rw [len]
    exact h.small
  · rw [state, len, pending, seq0]
    exact h.queued
  · rw [state, len, pending]
    exact h.pending
  · rw [state, len, pending]
    exact h.fresh
  · rw [state, len, seq]
    exact h.idle
  · rw [state, len, nxt, seq, pending]
    exact h.finWait

structure FinOut (b : Nat) (c : Conn) : Prop where
  seq : c.mySeq = b + c.sndLen + 1
  off : c.sndFinPending = false
  full : c.sndLen ≤ c.sndNxt
  fresh : c.state ≠ .synRcvd
  live : c.state ≠ .closed ∧ c.state ≠ .listen

/-- The pump in `ESTABLISHED`: the FIN, if it goes out, takes the number behind
the response. -/
theorem tcpPump_seated (env : Env) (h : Seated b l.conn) (estab : l.conn.state = .established) :
    Seated b (tcpPump env l).conn ∧
      ((tcpPump env l).conn.state ≠ .established → FinOut b (tcpPump env l).conn) := by
  have active := active_of estab (by decide)
  have pumped := (tcpPump_spec env (.inl estab)).1
  have bounded := pumped.bounded_of h.bounded
  have outcome := pumped.outcome
  have base := h.base
  have small := h.small
  obtain ⟨seq, nxt, last, pending, st, equal⟩ := pumped.frame
  rw [equal] at bounded outcome ⊢
  simp only at outcome ⊢
  rcases outcome with ⟨state, kept, _, empty⟩ | ⟨due, off, full, number, state⟩
  · have same : st = .established := state.trans estab
    refine ⟨⟨h.base, bounded, h.small, ?_, ?_, ?_, ?_, ?_⟩, fun left => (left same).elim⟩
    · intro _ _ some
      change pending = l.conn.sndFinPending at kept
      apply h.queued active.1 active.2
      rwa [kept] at some
    · intro _ data
      exact kept.trans (h.pending estab data)
    · intro fresh
      exact absurd (same.symm.trans fresh) (by decide)
    · intro _ none
      rcases empty none with here | ⟨due, here⟩
      · exact here.trans (h.idle (.inr estab) none)
      · change seq = b
        rw [here, h.queued active.1 active.2 (.inr due), add64_eq (by omega), Nat.add_zero]
    · intro fin
      exact absurd (same.symm.trans fin) (by decide)
  · have seq0 := h.queued active.1 active.2 (.inr due)
    have end' : add64 l.conn.sndSeq0 l.conn.sndLen = b + l.conn.sndLen := by
      rw [seq0, add64_eq (by omega)]
    have value : seq = b + l.conn.sndLen + 1 := by
      rw [number, end', add64_eq (by omega)]
    have other : st ≠ .established ∧ st ≠ .synRcvd := by
      rw [state]
      split_ifs <;> exact ⟨by decide, by decide⟩
    refine ⟨⟨h.base, bounded, h.small, fun _ _ _ => seq0, fun estab' => (other.1 estab').elim,
      fun fresh => (other.2 fresh).elim, ?_, ?_⟩, fun _ => ⟨value, off, full, other.2, ?_⟩⟩
    · rintro (fresh | estab')
      · exact (other.2 fresh).elim
      · exact (other.1 estab').elim
    · intro _
      exact ⟨Nat.le_antisymm bounded.nxt full, off, .inl value⟩
    · change st ≠ .closed ∧ st ≠ .listen
      rw [state]
      split_ifs <;> exact ⟨by decide, by decide⟩

/-- The pump in `FIN_WAIT_1` puts `my_seq` back to the end of the data. -/
theorem tcpPump_finWait (env : Env) (h : Seated b l.conn) (fin : l.conn.state = .finWait1)
    (data : 0 < l.conn.sndLen) :
    Seated b (tcpPump env l).conn ∧ (tcpPump env l).conn.state = .finWait1 ∧
      (tcpPump env l).conn.mySeq = b + l.conn.sndLen := by
  have active := active_of fin (by decide)
  have pumped := (tcpPump_spec env (.inr fin)).1
  have bounded := pumped.bounded_of h.bounded
  have forward := pumped.forward
  have outcome := pumped.outcome
  have base := h.base
  have small := h.small
  obtain ⟨full, off, _⟩ := h.finWait fin
  obtain ⟨seq, nxt, last, pending, st, equal⟩ := pumped.frame
  rw [equal] at bounded forward outcome ⊢
  simp only at forward outcome ⊢
  have seq0 := h.queued active.1 active.2 (.inl data)
  have end' : add64 l.conn.sndSeq0 l.conn.sndLen = b + l.conn.sndLen := by
    rw [seq0, add64_eq (by omega)]
  have still : nxt = l.conn.sndLen := Nat.le_antisymm bounded.nxt (full ▸ forward)
  rcases outcome with ⟨state, kept, some, _⟩ | ⟨due, _⟩
  · have value : seq = b + l.conn.sndLen := by
      rcases some data with here | ⟨here, _⟩
      · rw [here, still, end']
      · rw [here, end']
    have same : st = .finWait1 := state.trans fin
    refine ⟨⟨h.base, bounded, h.small, fun _ _ _ => seq0, ?_, ?_, ?_, ?_⟩, same, value⟩
    · intro estab
      exact absurd (same.symm.trans estab) (by decide)
    · intro fresh
      exact absurd (same.symm.trans fresh) (by decide)
    · rintro (fresh | estab)
      · exact absurd (same.symm.trans fresh) (by decide)
      · exact absurd (same.symm.trans estab) (by decide)
    · intro _
      exact ⟨still, kept.trans off, .inr ⟨data, value⟩⟩
  · rw [off] at due
    exact Bool.noConfusion due

theorem slide_acked {c : Conn} {acked : Nat} (seq0 : 0 < c.sndLen → c.sndSeq0 = b)
    (wide : b + acked < 4294967296) :
    slide c (b + acked) = c ∧ ¬ (0 < c.sndLen ∧ c.sndUna < acked ∧ acked ≤ c.sndLen) ∨
      (0 < c.sndLen ∧ c.sndUna < acked ∧ acked ≤ c.sndLen) ∧
        slide c (b + acked) = { c with sndUna := acked, sndRetries := 0 } := by
  by_cases data : 0 < c.sndLen
  swap
  · exact .inl ⟨if_neg fun both => data both.1, fun both => data both.1⟩
  have offset : sub64 (b + acked) c.sndSeq0 = acked := by
    rw [seq0 data, sub64_eq (by omega) (by omega)]
    omega
  have same : Slides c (b + acked) ↔ acked ≤ c.sndLen ∧ c.sndUna < acked := by
    unfold Slides
    rw [offset]
  by_cases moves : Slides c (b + acked)
  · obtain ⟨fits, more⟩ := same.mp moves
    refine .inr ⟨⟨data, more, fits⟩, ?_⟩
    rw [slide, if_pos ⟨data, moves⟩, offset]
  · refine .inl ⟨if_neg fun both => moves both.2, fun both => moves ?_⟩
    exact same.mpr ⟨both.2.2, both.2.1⟩

/-- The connection after the acknowledgement of a segment was processed. -/
structure Touched (b acked : Nat) (c c' : Conn) : Prop where
  seated : Seated b c'
  len : c'.sndLen = c.sndLen
  peerSeq : c'.peerSeq = c.peerSeq
  una : 0 < c.sndLen → c.sndUna < acked → c'.sndUna = acked
  fresh : c.state = .synRcvd → c'.state = .synRcvd ∧ c'.mySeq = b
  estab : c.state = .established → c'.state = .established ∨
    c'.state ≠ .established ∧ 0 < c.sndLen ∧ c'.mySeq = b + c.sndLen + 1
  finWait : c.state = .finWait1 → c'.state = .finWait1 ∧
    c'.mySeq = b + (if 0 < c.sndLen then c.sndLen else 1)
  lastAck : c.state = .lastAck → c'.state = .lastAck ∧ c'.mySeq = c.mySeq

theorem touch_touched {c : Conn} {acked : Nat} (env : Env) (h : Seated b c)
    (live : c.state ≠ .closed ∧ c.state ≠ .listen) (acks : seg.flags.ack = true)
    (number : seg.ack = b + acked) (wide : b + acked < 4294967296)
    (dataOnly : 0 < c.sndLen → c.sndUna < acked → acked ≤ c.sndLen) :
    Touched b acked c (touch env seg c).conn := by
  obtain ⟨_, _, _, _, _, _, _, shape⟩ := touch_eq env seg c
  have len : (touch env seg c).conn.sndLen = c.sndLen := by rw [shape]
  have peerSeq : (touch env seg c).conn.peerSeq = c.peerSeq := by rw [shape]
  have stamped : Seated b { c with lastMs := env.now, peerWin := seg.win } :=
    seated_congr h rfl h.bounded.una rfl rfl rfl rfl rfl
  by_cases empty : c.sndLen = 0
  · have none : ¬ 0 < c.sndLen := by omega
    rw [touch_empty env seg empty]
    refine ⟨stamped, rfl, rfl, fun data => (none data).elim, fun fresh => ⟨fresh, ?_⟩,
      fun estab => .inl estab, fun fin => ⟨fin, ?_⟩, fun last => ⟨last, rfl⟩⟩
    · exact h.idle (.inl fresh) empty
    · rw [if_neg none]
      rcases (h.finWait fin).2.2 with here | ⟨data, _⟩
      · change c.mySeq = b + 1
        rw [here, empty]
      · exact (none data).elim
  have data : 0 < c.sndLen := by omega
  have step : touch env seg c =
      tcpPump env ⟨slide { c with lastMs := env.now, peerWin := seg.win } (b + acked), []⟩ := by
    unfold touch tcpOnAck
    simp only [number]
    rw [if_pos ⟨acks, data⟩]
  have seq0 := h.queued live.1 live.2 (.inl data)
  -- The window has slid before the pump runs, and the pump keeps `snd_una`.
  obtain ⟨una, retries, slid, moved⟩ : ∃ una retries,
      slide { c with lastMs := env.now, peerWin := seg.win } (b + acked) =
        { c with lastMs := env.now, peerWin := seg.win, sndUna := una, sndRetries := retries } ∧
      una ≤ c.sndLen ∧ (c.sndUna < acked → una = acked) := by
    rcases slide_acked (c := { c with lastMs := env.now, peerWin := seg.win })
      (fun _ => seq0) wide with ⟨same, still⟩ | ⟨moves, slid⟩
    · refine ⟨c.sndUna, c.sndRetries, same, h.bounded.una, fun more => ?_⟩
      exact (still ⟨data, more, dataOnly data more⟩).elim
    · exact ⟨acked, 0, slid, moves.2.2, fun _ => rfl⟩
  rw [step, slid] at len peerSeq ⊢
  have before : Seated b { c with
      lastMs := env.now, peerWin := seg.win, sndUna := una, sndRetries := retries } :=
    seated_congr h rfl moved.1 rfl rfl rfl rfl rfl
  have keeps : ∀ l : Line, (tcpPump env l).conn.sndUna = l.conn.sndUna := by
    intro l
    by_cases pumping : Pumping l.conn.state
    · obtain ⟨_, _, _, _, _, equal⟩ := (tcpPump_spec env pumping).1.frame
      rw [equal]
    · rw [tcpPump_idle pumping]
  have unaAfter : 0 < c.sndLen → c.sndUna < acked → (tcpPump env ⟨{ c with
      lastMs := env.now, peerWin := seg.win, sndUna := una, sndRetries := retries },
      []⟩).conn.sndUna = acked := by
    intro _ more
    rw [keeps]
    exact moved.2 more
  have exclude : ∀ {st st' : TcpState} {p : Prop}, c.state = st → st ≠ st' → c.state = st' → p :=
    fun is differs other => (differs (is.symm.trans other)).elim
  rcases live_cases live with state | state | state | state
  · exact absurd (h.fresh state).1 empty
  · obtain ⟨seated, left⟩ := tcpPump_seated env (l := ⟨_, []⟩) before state
    refine ⟨seated, len, peerSeq, unaAfter, exclude state (by decide), fun _ => ?_,
      exclude state (by decide), exclude state (by decide)⟩
    by_cases still : (tcpPump env ⟨{ c with
        lastMs := env.now, peerWin := seg.win, sndUna := una, sndRetries := retries },
        []⟩).conn.state = .established
    · exact .inl still
    · refine .inr ⟨still, data, (left still).seq.trans ?_⟩
      rw [len]
  · obtain ⟨seated, still, value⟩ := tcpPump_finWait env (l := ⟨_, []⟩) before state data
    refine ⟨seated, len, peerSeq, unaAfter, exclude state (by decide), exclude state (by decide),
      fun _ => ⟨still, ?_⟩, exclude state (by decide)⟩
    rw [if_pos data]
    exact value
  · have idle : ¬ Pumping c.state := by
      rw [state]
      decide
    rw [tcpPump_idle idle] at len peerSeq ⊢
    exact ⟨before, len, peerSeq, fun _ more => moved.2 more, exclude state (by decide),
      exclude state (by decide), exclude state (by decide), fun _ => ⟨state, rfl⟩⟩

theorem tcpPump_una (env : Env) (l : Line) :
    (tcpPump env l).conn.sndUna = l.conn.sndUna ∧ (tcpPump env l).conn.sndLen = l.conn.sndLen ∧
      (tcpPump env l).conn.peerSeq = l.conn.peerSeq := by
  by_cases pumping : Pumping l.conn.state
  · obtain ⟨_, _, _, _, _, equal⟩ := (tcpPump_spec env pumping).1.frame
    rw [equal]
    exact ⟨rfl, rfl, rfl⟩
  · rw [tcpPump_idle pumping]
    exact ⟨rfl, rfl, rfl⟩

/-- What `ESTABLISHED` does with the data of a segment. -/
def afterData (env : Env) (s : Server) (seg : Segment) (l : Line) : Server × List Sent :=
  if seg.data ≠ [] then onData env s seg l else ({ s with conn := l.conn }, l.out)

theorem onEstablished_eq (env : Env) (s : Server) (l : Line) (rst : seg.flags.rst = false) :
    onEstablished env s seg l =
      if seg.flags.fin = true then onPeerFin env (afterData env s seg l).1 seg
        ⟨(afterData env s seg l).1.conn, (afterData env s seg l).2⟩
      else afterData env s seg l := by
  unfold onEstablished afterData
  rw [rst]
  rfl

def afterRequest (req : List UInt8) : List UInt8 := if httpComplete req then [] else req

structure DataTaken (b : Nat) (s : Server) (seg : Segment) (l : Line) (d : Server) : Prop where
  seated : Seated b d.conn
  state : d.conn.state = .established ∨ d.conn.state ≠ .established ∧ FinOut b d.conn
  none : seg.data = [] → d.conn = l.conn
  req : seg.data ≠ [] → d.req = afterRequest (accumulate s.req seg.data)
  peerSeq : d.conn.peerSeq = l.conn.peerSeq + seg.data.length

theorem tcpSendResponse_seated (env : Env) (h : Seated b l.conn)
    (estab : l.conn.state = .established) (idle : l.conn.mySeq = b) :
    Seated b (tcpSendResponse env l).conn ∧
      ((tcpSendResponse env l).conn.state ≠ .established →
        FinOut b (tcpSendResponse env l).conn) := by
  have short : (env.response.take tcpSndBuf).length ≤ 16384 := by
    rw [List.length_take]
    exact Nat.min_le_left _ _
  unfold tcpSendResponse
  simp only
  refine tcpPump_seated env (l := ⟨_, _⟩) ?_ estab
  refine ⟨h.base, ⟨Nat.zero_le _, Nat.zero_le _⟩, short, fun _ _ _ => idle, fun _ _ => rfl, ?_,
    fun _ _ => idle, ?_⟩
  · intro fresh
    exact absurd (estab.symm.trans fresh) (by decide)
  · intro fin
    exact absurd (estab.symm.trans fin) (by decide)

theorem afterData_taken {s : Server} (env : Env) (h : Seated b l.conn)
    (estab : l.conn.state = .established)
    (inOrder : seg.data ≠ [] → l.conn.sndLen = 0 ∧ seg.seq = l.conn.peerSeq ∧
      l.conn.peerSeq + seg.data.length < 18446744073709551616) :
    DataTaken b s seg l (afterData env s seg l).1 := by
  unfold afterData
  by_cases data : seg.data ≠ []
  swap
  · have none : seg.data = [] := not_not.mp data
    rw [if_neg data]
    refine ⟨h, .inl estab, fun _ => rfl, fun some => (data some).elim, ?_⟩
    rw [none]
    rfl
  rw [if_pos data]
  obtain ⟨empty, expected, wide⟩ := inOrder data
  have req : acceptReq s.req l.conn seg = accumulate s.req seg.data := if_pos expected
  have conn : acceptConn l.conn seg =
      { l.conn with peerSeq := l.conn.peerSeq + seg.data.length } := by
    rw [acceptConn, if_pos expected, expected, add64_eq wide]
  have taken : Seated b (acceptConn l.conn seg) := by
    rw [conn]
    exact seated_congr h rfl h.bounded.una rfl rfl rfl rfl rfl
  have estab' : (acceptConn l.conn seg).state = .established := by
    rw [conn]
    exact estab
  have idle : (acceptConn l.conn seg).mySeq = b := by
    rw [conn]
    exact h.idle (.inr estab) empty
  unfold onData
  rw [req]
  by_cases complete : httpComplete (accumulate s.req seg.data) = true
  · simp only [if_pos complete]
    obtain ⟨seated, left⟩ := tcpSendResponse_seated env (l := ⟨acceptConn l.conn seg,
      (tcpSend env ⟨acceptConn l.conn seg, l.out⟩ flagsAck []).2⟩) taken estab' idle
    refine ⟨seated, ?_, fun none => (data none).elim, fun _ => ?_, ?_⟩
    · by_cases still : (tcpSendResponse env ⟨acceptConn l.conn seg,
          (tcpSend env ⟨acceptConn l.conn seg, l.out⟩ flagsAck []).2⟩).conn.state = .established
      · exact .inl still
      · exact .inr ⟨still, left still⟩
    · rw [afterRequest, if_pos complete]
    · unfold tcpSendResponse
      refine (tcpPump_una env _).2.2.trans ?_
      change (acceptConn l.conn seg).peerSeq = _
      rw [conn]
  · simp only [if_neg complete]
    refine ⟨taken, .inl estab', fun none => (data none).elim, fun _ => ?_, ?_⟩
    · rw [afterRequest, if_neg complete]
    · rw [conn]

/-- The FIN part behind the data part: where it leads, and to which number. -/
structure FinTaken (b : Nat) (c c' : Conn) : Prop where
  seated : Seated b c'
  una : c'.sndUna = c.sndUna
  len : c'.sndLen = c.sndLen
  live : c'.state ≠ .closed ∧ c'.state ≠ .listen
  fresh : c'.state ≠ .synRcvd
  lastAck : c'.state = .lastAck →
    c'.mySeq = b + c'.sndLen + (if c.state = .established then 1 else 2)

theorem onPeerFin_taken (env : Env) (s : Server) (seg : Segment) (h : Seated b l.conn)
    (state : l.conn.state = .established ∨ l.conn.state ≠ .established ∧ FinOut b l.conn) :
    FinTaken b l.conn (onPeerFin env s seg l).1.conn := by
  have base := h.base
  have small := h.small
  have noted : Seated b { l.conn with peerSeq := add64 seg.seq 1, peerFin := true } :=
    seated_congr h rfl h.bounded.una rfl rfl rfl rfl rfl
  -- The state after the FIN of the server is sent without the pump.
  have shortcut : ∀ seq k, seq = b + l.conn.sndLen + k →
      k = (if l.conn.state = .established then 1 else 2) →
      (0 < l.conn.sndLen → l.conn.sndSeq0 = b) → l.conn.sndFinPending = false →
      FinTaken b l.conn { l.conn with
        peerSeq := add64 seg.seq 1, peerFin := true, mySeq := seq, state := .lastAck } := by
    intro seq k value which seq0 off
    refine ⟨⟨h.base, ⟨h.bounded.una, h.bounded.nxt⟩, h.small, ?_, ?_, ?_, ?_, ?_⟩, rfl, rfl,
      ⟨TcpState.noConfusion, TcpState.noConfusion⟩, TcpState.noConfusion, fun _ => ?_⟩
    · rintro _ _ (data | pending)
      · exact seq0 data
      · change l.conn.sndFinPending = true at pending
        rw [off] at pending
        exact Bool.noConfusion pending
    · intro other
      exact TcpState.noConfusion other
    · intro other
      exact TcpState.noConfusion other
    · rintro (other | other) <;> exact TcpState.noConfusion other
    · intro other
      exact TcpState.noConfusion other
    · rw [← which]
      exact value
  unfold onPeerFin
  simp only
  split_ifs with rest
  · have estab : l.conn.state = .established := by
      rcases state with estab | ⟨_, out⟩
      · exact estab
      · have off := out.off
        have full := out.full
        rcases rest with more | pending
        · omega
        · rw [off] at pending
          exact Bool.noConfusion pending
    obtain ⟨seated, left⟩ := tcpPump_seated env (l := ⟨{ l.conn with
      peerSeq := add64 seg.seq 1, peerFin := true }, (tcpSend env ⟨{ l.conn with
      peerSeq := add64 seg.seq 1, peerFin := true }, l.out⟩ flagsAck []).2⟩) noted estab
    obtain ⟨una, len, _⟩ := tcpPump_una env ⟨{ l.conn with
      peerSeq := add64 seg.seq 1, peerFin := true }, (tcpSend env ⟨{ l.conn with
      peerSeq := add64 seg.seq 1, peerFin := true }, l.out⟩ flagsAck []).2⟩
    generalize tcpPump env _ = r at seated left una len
    have away : r.conn.state = .established ∨ FinOut b r.conn := by
      by_cases still : r.conn.state = .established
      · exact .inl still
      · exact .inr (left still)
    refine ⟨seated, una, len, ?_, ?_, fun last => ?_⟩
    · rcases away with still | out
      · change r.conn.state ≠ _ ∧ r.conn.state ≠ _
        rw [still]
        exact ⟨by decide, by decide⟩
      · exact out.live
    · rcases away with still | out
      · change r.conn.state ≠ _
        rw [still]
        decide
      · exact out.fresh
    · rcases away with still | out
      · exact absurd (still.symm.trans last) (by decide)
      · rw [if_pos estab]
        exact out.seq
  · obtain ⟨full, off⟩ : l.conn.sndLen ≤ l.conn.sndNxt ∧ l.conn.sndFinPending = false := by
      rw [not_or] at rest
      exact ⟨Nat.not_lt.mp rest.1, Bool.not_eq_true _ ▸ rest.2⟩
    rcases state with estab | ⟨moved, out⟩
    · have empty : l.conn.sndLen = 0 := by
        by_contra some
        have pending := h.pending estab (by omega)
        rw [off] at pending
        exact Bool.noConfusion pending
      have value : add64 l.conn.mySeq 1 = b + l.conn.sndLen + 1 := by
        rw [h.idle (.inr estab) empty, empty, add64_eq (by omega)]
      exact shortcut _ 1 value (by rw [if_pos estab]) (fun data => by omega) off
    · have value : add64 l.conn.mySeq 1 = b + l.conn.sndLen + 2 := by
        rw [out.seq, add64_eq (by omega)]
      exact shortcut _ 2 value (by rw [if_neg moved])
        (fun data => h.queued out.live.1 out.live.2 (.inl data)) off

end Server

structure ExInv (x : Exchange) : Prop where
  isn : x.isn < 4294967296
  seated : x.srv.conn.state ≠ .closed → x.srv.conn.state ≠ .listen →
    Seated x.base x.srv.conn
  expect : x.srv.conn.state = .synRcvd ∨ x.srv.conn.state = .established →
    x.finSent = false → x.srv.conn.peerSeq = x.isn + 1 + x.sent

/-- The peer's FIN arrived in the segment whose data made the server send its
own FIN: the server sends a second one behind it. -/
def SecondFin (env : Env) (s : Server) (seg : Segment) : Prop :=
  seg.flags.fin = true ∧ (touch env seg s.conn).conn.state = .established ∧
    (afterData env s seg (touch env seg s.conn)).1.conn.state ≠ .established

instance (env : Env) (s : Server) (seg : Segment) : Decidable (SecondFin env s seg) :=
  inferInstanceAs (Decidable (_ ∧ _))

structure SegmentTaken (x : Exchange) (m : Move) (s' : Server) : Prop where
  seated : s'.conn.state ≠ .closed → s'.conn.state ≠ .listen → Seated x.base s'.conn
  opened : x.srv.conn.state = .synRcvd → s'.conn.state = .established
  req : m.body.data ≠ [] → s'.req = afterRequest (accumulate x.srv.req m.body.data)
  una : 0 < x.srv.conn.sndLen → x.srv.conn.sndUna < m.acked → s'.conn.sndUna = m.acked
  expect : s'.conn.state = .synRcvd ∨ s'.conn.state = .established → x.finSent = false →
    m.body.flags.fin = false → s'.conn.peerSeq = x.isn + 1 + x.sent + m.body.data.length
  lastAck : s'.conn.state = .lastAck →
    x.srv.conn.state = .lastAck ∧ s'.conn.mySeq = x.srv.conn.mySeq ∨
    x.srv.conn.state = .established ∧ s'.conn.mySeq = x.base + s'.conn.sndLen +
      (if SecondFin m.env x.srv (wire x m) then 2 else 1)

section Moves

variable {x : Exchange} {m : Move}

theorem wire_segment (later : m.syn = false) (noWrap : NoWrap x m) :
    wire x m = renumber m.body (cut32 (x.isn + 1 + x.sent)) (x.base + m.acked) := by
  unfold NoWrap at noWrap
  rw [later] at noWrap
  have small : x.base + m.acked < 4294967296 := noWrap.1
  rw [wire, later, if_neg Bool.false_ne_true]
  congr 1
  exact Nat.mod_eq_of_lt small

structure LaterMove (x : Exchange) (m : Move) : Prop where
  live : x.srv.conn.state ≠ .closed ∧ x.srv.conn.state ≠ .listen
  peer : FromPeer x.srv.conn m.body
  ack : m.body.flags.ack = true
  rst : m.body.flags.rst = false
  fresh : x.srv.conn.state = .synRcvd → m.acked = 0
  open' : m.body.data ≠ [] → x.finSent = false
  wide : x.base + m.acked < 4294967296
  data : m.body.data ≠ [] → x.isn + 1 + x.sent < 4294967296 ∧
    x.srv.conn.state = .established ∧ x.srv.conn.sndLen = 0
  dataOnly : 0 < x.srv.conn.sndLen → x.srv.conn.sndUna < m.acked → m.acked ≤ x.srv.conn.sndLen

theorem laterMove (later : m.syn = false) (inOrder : InOrder x m) (noWrap : NoWrap x m) :
    LaterMove x m := by
  unfold InOrder at inOrder
  unfold NoWrap at noWrap
  rw [later] at inOrder noWrap
  obtain ⟨closed, listen, peer, ack, rst, fresh, open'⟩ := inOrder
  obtain ⟨wide, data, dataOnly⟩ := noWrap
  exact ⟨⟨closed, listen⟩, peer, ack, rst, fresh, open', wide, data, dataOnly⟩

theorem onFinWait1_conn (env : Env) (s : Server) (seg : Segment) (l : Line) :
    (onFinWait1 env s seg l).1.conn.sndUna = l.conn.sndUna ∧
      ((onFinWait1 env s seg l).1.conn.state = .listen ∨ ∃ peerSeq peerFin,
        (onFinWait1 env s seg l).1.conn =
          { l.conn with peerSeq := peerSeq, peerFin := peerFin }) := by
  unfold onFinWait1
  by_cases acked : seg.flags.ack = true ∧ seg.ack = l.conn.mySeq
  · by_cases fin : seg.flags.fin = true
    · simp only [if_pos acked, if_pos fin, if_true]
      exact ⟨trivial, .inl trivial⟩
    · simp only [if_pos acked, if_neg fin, if_true]
      exact ⟨trivial, .inl trivial⟩
  · by_cases fin : seg.flags.fin = true
    · simp only [if_neg acked, if_pos fin]
      by_cases done : l.conn.finAcked = true
      · simp only [if_pos done]
        exact ⟨trivial, .inl trivial⟩
      · simp only [if_neg done]
        exact ⟨trivial, .inr ⟨_, _, rfl⟩⟩
    · simp only [if_neg acked, if_neg fin]
      by_cases done : l.conn.finAcked = true
      · simp only [if_pos done]
        exact ⟨trivial, .inl trivial⟩
      · simp only [if_neg done]
        exact ⟨trivial, .inr ⟨l.conn.peerSeq, l.conn.peerFin, rfl⟩⟩

theorem onLastAck_conn (s : Server) (seg : Segment) (l : Line) :
    (onLastAck s seg l).1.conn.sndUna = l.conn.sndUna ∧
      ((onLastAck s seg l).1.conn.state = .listen ∨ (onLastAck s seg l).1.conn = l.conn) := by
  unfold onLastAck
  split_ifs
  · exact ⟨rfl, .inl rfl⟩
  · exact ⟨rfl, .inr rfl⟩

theorem touch_later (h : ExInv x) (lm : LaterMove x m) {seg : Segment}
    (number : seg = renumber m.body (cut32 (x.isn + 1 + x.sent)) (x.base + m.acked)) :
    Touched x.base m.acked x.srv.conn (touch m.env seg x.srv.conn).conn ∧
      FromPeer (touch m.env seg x.srv.conn).conn seg := by
  subst number
  refine ⟨touch_touched m.env (h.seated lm.live.1 lm.live.2) lm.live lm.ack rfl lm.wide
    lm.dataOnly, ?_⟩
  rw [touch_fromPeer]
  exact lm.peer

/-- A segment that meets the connection while it closes leaves the numbers of the
server alone, or gives the slot back. -/
theorem closing_taken {l : Line} {r : Server × List Sent}
    (touched : Touched x.base m.acked x.srv.conn l.conn) (noData : m.body.data = [])
    (closing : l.conn.state = .finWait1 ∨ l.conn.state = .lastAck)
    (una : r.1.conn.sndUna = l.conn.sndUna)
    (result : r.1.conn.state = .listen ∨ ∃ peerSeq peerFin,
      r.1.conn = { l.conn with peerSeq := peerSeq, peerFin := peerFin })
    (known : l.conn.state = .lastAck →
      x.srv.conn.state = .lastAck ∧ l.conn.mySeq = x.srv.conn.mySeq ∨
      x.srv.conn.state = .established ∧ l.conn.mySeq = x.base + l.conn.sndLen +
        (if SecondFin m.env x.srv (wire x m) then 2 else 1))
    (started : x.srv.conn.state ≠ .synRcvd) : SegmentTaken x m r.1 := by
  refine ⟨fun _ listen => ?_, fun fresh => (started fresh).elim, fun some => (some noData).elim,
    fun data more => una.trans (touched.una data more), ?_, fun last => ?_⟩
  · rcases result with back | ⟨peerSeq, peerFin, equal⟩
    · exact (listen back).elim
    · rw [equal]
      exact seated_congr touched.seated rfl touched.seated.bounded.una rfl rfl rfl rfl rfl
  · intro early
    exfalso
    rcases result with back | ⟨peerSeq, peerFin, equal⟩
    · rw [back] at early
      exact absurd early (by decide)
    · rw [equal] at early
      rcases closing with fin | last
      · simp only [fin] at early
        exact absurd early (by decide)
      · simp only [last] at early
        exact absurd early (by decide)
  · rcases result with back | ⟨peerSeq, peerFin, equal⟩
    · exact absurd (back.symm.trans last) (by decide)
    · rw [equal] at last ⊢
      exact known last

theorem established_taken {l : Line} {seg : Segment} (h : ExInv x) (lm : LaterMove x m)
    (short : m.body.data.length ≤ 65535)
    (number : seg = renumber m.body (cut32 (x.isn + 1 + x.sent)) (x.base + m.acked))
    (sent : seg = wire x m) (line : l = touch m.env seg x.srv.conn)
    (touched : Touched x.base m.acked x.srv.conn l.conn)
    (was : x.srv.conn.state = .established) (estab : l.conn.state = .established) :
    SegmentTaken x m (onEstablished m.env x.srv seg l).1 := by
  have data : seg.data = m.body.data := by rw [number]; rfl
  have flags : seg.flags = m.body.flags := by rw [number]; rfl
  have order : seg.data ≠ [] → l.conn.sndLen = 0 ∧ seg.seq = l.conn.peerSeq ∧
      l.conn.peerSeq + seg.data.length < 18446744073709551616 := by
    intro some
    rw [data] at some
    obtain ⟨wide, _, empty⟩ := lm.data some
    have expect := h.expect (.inr was) (lm.open' some)
    rw [touched.len, touched.peerSeq, expect, data]
    refine ⟨empty, ?_, by omega⟩
    rw [number]
    exact Nat.mod_eq_of_lt wide
  have taken := afterData_taken (s := x.srv) m.env touched.seated estab order
  have una : 0 < x.srv.conn.sndLen → x.srv.conn.sndUna < m.acked →
      (afterData m.env x.srv seg l).1.conn.sndUna = m.acked := by
    intro some more
    have noData : seg.data = [] := by
      by_contra other
      have empty := (order other).1
      rw [touched.len] at empty
      omega
    rw [taken.none noData]
    exact touched.una some more
  have unfresh : x.srv.conn.state = .synRcvd → False :=
    fun fresh => absurd (was.symm.trans fresh) (by decide)
  rw [onEstablished_eq m.env x.srv l (by rw [flags]; exact lm.rst)]
  by_cases fin : seg.flags.fin = true
  · rw [if_pos fin]
    have done := onPeerFin_taken (l := ⟨(afterData m.env x.srv seg l).1.conn,
      (afterData m.env x.srv seg l).2⟩) m.env (afterData m.env x.srv seg l).1 seg
      taken.seated taken.state
    have req : (onPeerFin m.env (afterData m.env x.srv seg l).1 seg
        ⟨(afterData m.env x.srv seg l).1.conn, (afterData m.env x.srv seg l).2⟩).1.req =
        (afterData m.env x.srv seg l).1.req := by
      unfold onPeerFin
      simp only
      split_ifs <;> rfl
    refine ⟨fun _ _ => done.seated, fun fresh => (unfresh fresh).elim, fun some => ?_,
      fun some more => done.una.trans (una some more), fun _ _ noFin => ?_, fun last => .inr ⟨was, ?_⟩⟩
    · rw [← data] at some
      rw [req, taken.req some, data]
    · rw [flags, noFin] at fin
      exact Bool.noConfusion fin
    · rw [done.lastAck last, ← sent]
      congr 1
      by_cases second : SecondFin m.env x.srv seg
      · rw [if_pos second, if_neg]
        have moved := second.2.2
        rwa [← line] at moved
      · rw [if_neg second, if_pos]
        by_contra moved
        refine second ⟨fin, ?_, ?_⟩
        · rw [← line]
          exact estab
        · rw [← line]
          exact moved
  · rw [if_neg fin]
    refine ⟨fun _ _ => taken.seated, fun fresh => (unfresh fresh).elim, fun some => ?_, una,
      fun _ open' _ => ?_, fun last => ?_⟩
    · rw [← data] at some
      rw [taken.req some, data]
    · rw [taken.peerSeq, touched.peerSeq, h.expect (.inr was) open', data]
    · refine .inr ⟨was, ?_⟩
      have noSecond : ¬ SecondFin m.env x.srv (wire x m) := by
        rw [← sent]
        exact fun second => fin second.1
      rcases taken.state with still | ⟨_, out⟩
      · exact absurd (still.symm.trans last) (by decide)
      · rw [if_neg noSecond]
        exact out.seq

theorem segment_taken (h : ExInv x) (later : m.syn = false) (lm : LaterMove x m)
    (noWrap : NoWrap x m) (short : m.body.data.length ≤ 65535) :
    SegmentTaken x m (receive m.env x.srv m.via (wire x m)).1 := by
  have number := wire_segment later noWrap
  obtain ⟨touched, peer⟩ := touch_later h lm number
  have noData : x.srv.conn.state ≠ .established → m.body.data = [] := by
    intro other
    by_contra some
    exact other (lm.data some).2.1
  rcases live_cases lm.live with state | state | state | state
  · obtain ⟨fresh, seq⟩ := touched.fresh state
    have empty := noData (by rw [state]; decide)
    rw [receive_synRcvd m.env x.srv m.via (wire x m) peer fresh]
    have flags : (wire x m).flags = m.body.flags := by rw [number]; rfl
    have acked : (wire x m).ack = (touch m.env (wire x m) x.srv.conn).conn.mySeq := by
      rw [seq, number, lm.fresh state]
      rfl
    have rst : ¬ (wire x m).flags.rst = true := by
      rw [flags, lm.rst]
      decide
    have step : onSynRcvd x.srv (wire x m) (touch m.env (wire x m) x.srv.conn) =
        ({ x.srv with
          conn := { (touch m.env (wire x m) x.srv.conn).conn with state := .established }
          req := [] }, (touch m.env (wire x m) x.srv.conn).out) := by
      rw [onSynRcvd, if_neg rst, if_pos ⟨by rw [flags]; exact lm.ack, acked⟩]
    rw [step]
    obtain ⟨len, pending⟩ := touched.seated.fresh fresh
    refine ⟨fun _ _ => ?_, fun _ => rfl, fun some => (some empty).elim, fun data => ?_,
      fun _ open' _ => ?_, fun last => TcpState.noConfusion last⟩
    · have seated := touched.seated
      refine ⟨seated.base, ⟨seated.bounded.una, seated.bounded.nxt⟩, seated.small, ?_, ?_,
        fun fresh => TcpState.noConfusion fresh, fun _ _ => seq,
        fun fin => TcpState.noConfusion fin⟩
      · rintro _ _ (data | due)
        · exact absurd data (by rw [len]; decide)
        · exact absurd due (by rw [pending]; decide)
      · intro _ data
        exact absurd data (by rw [len]; decide)
    · rw [touched.len] at len
      omega
    · change (touch m.env (wire x m) x.srv.conn).conn.peerSeq = _
      rw [touched.peerSeq, h.expect (.inl state) open', empty]
      rfl
  · rcases touched.estab state with still | ⟨moved, data, seq⟩
    · rw [receive_established m.env x.srv m.via (wire x m) peer still]
      exact established_taken h lm short number rfl rfl touched state still
    · have empty : m.body.data = [] := by
        by_contra some
        have none := (lm.data some).2.2
        omega
      have notFresh : x.srv.conn.state ≠ .synRcvd := by
        rw [state]
        decide
      have noSecond : ¬ SecondFin m.env x.srv (wire x m) := fun second => moved second.2.1
      have known : x.srv.conn.state = .established ∧
          (touch m.env (wire x m) x.srv.conn).conn.mySeq = x.base +
            (touch m.env (wire x m) x.srv.conn).conn.sndLen +
            (if SecondFin m.env x.srv (wire x m) then 2 else 1) := by
        rw [if_neg noSecond, touched.len]
        exact ⟨state, seq⟩
      rcases touch_state m.env (wire x m) x.srv.conn with same | ⟨_, fin | last⟩
      · exact (moved (same.trans state)).elim
      · rw [receive_finWait1 m.env x.srv m.via (wire x m) peer fin]
        obtain ⟨una, result⟩ := onFinWait1_conn m.env x.srv (wire x m)
          (touch m.env (wire x m) x.srv.conn)
        exact closing_taken touched empty (.inl fin) una result (fun _ => .inr known) notFresh
      · rw [receive_lastAck m.env x.srv m.via (wire x m) peer last]
        obtain ⟨una, result⟩ := onLastAck_conn x.srv (wire x m)
          (touch m.env (wire x m) x.srv.conn)
        exact closing_taken touched empty (.inr last) una (result.imp id fun equal => ⟨_, _, equal⟩)
          (fun _ => .inr known) notFresh
  · obtain ⟨fin, _⟩ := touched.finWait state
    rw [receive_finWait1 m.env x.srv m.via (wire x m) peer fin]
    obtain ⟨una, result⟩ := onFinWait1_conn m.env x.srv (wire x m)
      (touch m.env (wire x m) x.srv.conn)
    refine closing_taken touched (noData (by rw [state]; decide)) (.inl fin) una result ?_
      (by rw [state]; decide)
    intro last
    exact absurd (fin.symm.trans last) (by decide)
  · obtain ⟨last, seq⟩ := touched.lastAck state
    rw [receive_lastAck m.env x.srv m.via (wire x m) peer last]
    obtain ⟨una, result⟩ := onLastAck_conn x.srv (wire x m) (touch m.env (wire x m) x.srv.conn)
    exact closing_taken touched (noData (by rw [state]; decide)) (.inr last) una
      (result.imp id fun equal => ⟨_, _, equal⟩) (fun _ => .inl ⟨state, seq⟩)
      (by rw [state]; decide)

theorem handle_eq {f : Frame} (carries : Carries x m f) :
    (tcpHandlePacketVia m.env x.srv f m.via).1 = (receive m.env x.srv m.via (wire x m)).1 ∧
      (tcpHandlePacketVia m.env x.srv f m.via).2.1 =
        (receive m.env x.srv m.via (wire x m)).2 := by
  obtain ⟨forUs, sized, equal⟩ := carries
  unfold tcpHandlePacketVia
  rw [if_pos forUs, if_pos sized, equal]
  exact ⟨rfl, rfl⟩

theorem carries_short {f : Frame} (carries : Carries x m f) : m.body.data.length ≤ 65535 := by
  have data : m.body.data = (segmentOf f).data := by
    rw [carries.2.2, wire]
    split_ifs <;> rfl
  have high : (f.byte 16).toNat < 256 := (f.byte 16).toNat_lt
  have low : (f.byte (16 + 1)).toNat < 256 := (f.byte (16 + 1)).toNat_lt
  have total : f.totalLen ≤ 65535 := by
    unfold Frame.totalLen Frame.at16 Frame.at8
    omega
  rw [data]
  simp only [segmentOf, Frame.bytes, List.length_map, List.length_range]
  omega

theorem touch_syn (opens : m.syn = true) (inOrder : InOrder x m) :
    touch m.env (wire x m) x.srv.conn =
      ⟨{ x.srv.conn with lastMs := m.env.now, peerWin := m.body.win }, []⟩ := by
  unfold InOrder at inOrder
  rw [opens] at inOrder
  have flags : (wire x m).flags.ack = false := by
    rw [wire, if_pos opens]
    exact inOrder.2.2.1
  have win : (wire x m).win = m.body.win := by
    rw [wire, if_pos opens]
    rfl
  unfold touch
  simp only [flags, win, Bool.false_eq_true, false_and, if_false]

theorem syn_idle (opens : m.syn = true) (inOrder : InOrder x m) :
    (touch m.env (wire x m) x.srv.conn).conn.state = .closed ∨
      (touch m.env (wire x m) x.srv.conn).conn.state = .listen := by
  rw [touch_syn opens inOrder]
  unfold InOrder at inOrder
  rw [opens] at inOrder
  exact inOrder.1

theorem syn_taken (opens : m.syn = true) (inOrder : InOrder x m) (noWrap : NoWrap x m)
    (isn : x.isn < 4294967296) :
    let s' := (receive m.env x.srv m.via (wire x m)).1
    s'.conn.state = .synRcvd ∧ s'.conn.peerSeq = x.isn + 1 ∧
      Seated (cut32 (x.srv.isnSeed + 1)) s'.conn := by
  have small : x.srv.isnSeed + 1 < 4294967296 := by
    unfold NoWrap at noWrap
    rwa [opens] at noWrap
  have base : cut32 (x.srv.isnSeed + 1) = x.srv.isnSeed + 1 := Nat.mod_eq_of_lt small
  have seq : add64 x.srv.isnSeed 1 = x.srv.isnSeed + 1 := add64_eq (by omega)
  have syn : (wire x m).flags.syn = true := by
    unfold InOrder at inOrder
    rw [opens] at inOrder
    rw [wire, if_pos opens]
    exact inOrder.2.1
  have peerSeq : add64 (wire x m).seq 1 = x.isn + 1 := by
    rw [wire, if_pos opens]
    change add64 (cut32 x.isn) 1 = _
    rw [cut32, Nat.mod_eq_of_lt isn, add64_eq (by omega)]
  rw [receive_listen m.env x.srv m.via (wire x m) (syn_idle opens inOrder), onListen, if_pos syn]
  refine ⟨rfl, peerSeq, ?_⟩
  rw [base]
  refine ⟨small, ⟨Nat.le_refl _, Nat.le_refl _⟩, Nat.zero_le _, ?_, fun _ data => ?_,
    fun _ => ⟨rfl, rfl⟩, fun _ _ => seq, fun fin => TcpState.noConfusion fin⟩
  · rintro _ _ (data | due)
    · exact absurd data (Nat.lt_irrefl 0)
    · exact Bool.noConfusion due
  · exact absurd data (Nat.lt_irrefl 0)

/-- What the server owes an in-order move: a SYN opens the connection, the
acknowledgement of the SYN+ACK completes the handshake, data is appended to the
request, and an acknowledgement of response bytes moves `snd_una` there. -/
structure Served (x : Exchange) (m : Move) (s' : Server) : Prop where
  opened : m.syn = true → s'.conn.state = .synRcvd
  completed : m.syn = false → x.srv.conn.state = .synRcvd → s'.conn.state = .established
  accepted : m.syn = false → m.body.data ≠ [] →
    s'.req = afterRequest (accumulate x.srv.req m.body.data)
  slid : m.syn = false → 0 < x.srv.conn.sndLen → x.srv.conn.sndUna < m.acked →
    s'.conn.sndUna = m.acked

theorem deliver_served {f : Frame} (h : ExInv x) (inOrder : InOrder x m) (noWrap : NoWrap x m)
    (carries : Carries x m f) : ExInv (deliver x m f) ∧ Served x m (deliver x m f).srv := by
  have handled := (handle_eq carries).1
  unfold deliver
  cases opens : m.syn with
  | true =>
    obtain ⟨state, peerSeq, seated⟩ := syn_taken opens inOrder noWrap h.isn
    simp only [if_true, handled]
    refine ⟨⟨h.isn, fun _ _ => seated, fun _ _ => peerSeq⟩, fun _ => state, ?_, ?_, ?_⟩
    · exact fun later => absurd (opens.symm.trans later) (by decide)
    · exact fun later => absurd (opens.symm.trans later) (by decide)
    · exact fun later => absurd (opens.symm.trans later) (by decide)
  | false =>
    have taken := segment_taken h opens (laterMove opens inOrder noWrap) noWrap
      (carries_short carries)
    simp only [Bool.false_eq_true, if_false, handled]
    refine ⟨⟨h.isn, taken.seated, fun early open' => ?_⟩, ?_, fun _ => taken.opened,
      fun _ => taken.req, fun _ => taken.una⟩
    · obtain ⟨before, noFin⟩ := Bool.or_eq_false_iff.mp open'
      simp only [taken.expect early before noFin, noFin, Bool.false_eq_true, if_false]
      omega
    · exact fun syn => absurd (opens.symm.trans syn) (by decide)

end Moves

end XinuRpi5.System.TcpSequence
