/- source: system/tcp_server.c
   digest: A request arrives in segments and reaches http_build once. -/

import XinuRpi5.System.HttpRequest
import XinuRpi5.System.TcpFin

/-!
What a segment hands to `http_build` is read off the step: it takes the response of
`http_build` from its environment, and the response gets into the send buffer in a step with
a request and in no other one.
-/

namespace XinuRpi5.System.TcpRequest

open Lib.GuardedRuns Lib.Word64
open TcpServer TcpHandler TcpPump
open HttpRequest

section Observed

def httpBuilt (env : Env) (s : Server) (seg : Segment) : Option (List UInt8) :=
  let c := (touch env seg s.conn).conn
  if c.state = .established ∧ FromPeer c seg ∧ seg.flags.rst = false ∧ seg.data ≠ [] ∧
      httpComplete (acceptReq s.req c seg) = true then some (acceptReq s.req c seg)
  else none

/-- The argument of `http_build` in an event that calls it. -/
def requestOf (s : Server) : Event → Option (List UInt8)
  | .packet f via env =>
    if ForUs s f via ∧ WellSized f then httpBuilt env s (segmentOf f) else none
  | _ => none

/-- The arguments of all calls of `http_build` in a run. -/
def requests : Server → List Event → List (List UInt8)
  | _, [] => []
  | s, e :: es => (requestOf s e).toList ++ requests (step s e).1 es

end Observed

section Delivered

/-- A frame that brings `data` with the number `seq` from the peer of the connection. A
FIN comes with the last bytes only. -/
structure Brings (s : Server) (f : Frame) (via : Bool) (seq : Nat) (data : List UInt8)
    (last : Prop) : Prop where
  forUs : ForUs s f via
  sized : WellSized f
  peer : FromPeer s.conn (segmentOf f)
  seq : (segmentOf f).seq = seq
  data : (segmentOf f).data = data
  syn : (segmentOf f).flags.syn = false
  rst : (segmentOf f).flags.rst = false
  fin : (segmentOf f).flags.fin = true → last

/-- Pieces that arrive in order from the number `base` on, with pieces that were `sent`
arriving again and timer ticks in between. -/
inductive Delivery (s : Server) (base : Nat) :
    List (List UInt8) → List (List UInt8) → List Event → Prop
  | done (sent : List (List UInt8)) : Delivery s base sent [] []
  | next {sent rest : List (List UInt8)} {piece : List UInt8} {es : List Event} {f : Frame}
      {via : Bool} {env : Env}
      (brings : Brings s f via (base + sent.flatten.length) piece (rest = []))
      (later : Delivery s base (sent ++ [piece]) rest es) :
      Delivery s base sent (piece :: rest) (.packet f via env :: es)
  | again {before after rest : List (List UInt8)} {piece : List UInt8} {es : List Event}
      {f : Frame} {via : Bool} {env : Env}
      (brings : Brings s f via (base + before.flatten.length) piece (after = [] ∧ rest = []))
      (later : Delivery s base (before ++ piece :: after) rest es) :
      Delivery s base (before ++ piece :: after) rest (.packet f via env :: es)
  | tick {sent rest : List (List UInt8)} {es : List Event} {env : Env}
      (later : Delivery s base sent rest es) : Delivery s base sent rest (.tick env :: es)

/-- An established connection on which nothing was received and nothing is queued. -/
structure Fresh (s : Server) : Prop where
  state : s.conn.state = .established
  req : s.req = []
  len : s.conn.sndLen = 0
  pending : s.conn.sndFinPending = false

structure SameHost (s t : Server) : Prop where
  myIp : t.myIp = s.myIp
  wifiIp : t.wifiIp = s.wifiIp
  port : t.listenPort = s.listenPort
  peerPort : t.conn.peerPort = s.conn.peerPort
  peerIp : t.conn.peerIp = s.conn.peerIp

structure Collecting (s t : Server) (base : Nat) (sent : List (List UInt8)) : Prop where
  host : SameHost s t
  state : t.conn.state = .established
  len : t.conn.sndLen = 0
  pending : t.conn.sndFinPending = false
  seq : t.conn.peerSeq = base + sent.flatten.length
  req : t.req = sent.flatten

/-- The request was served: no piece is at the number that the server waits for. -/
structure Served (s t : Server) (last : Nat) : Prop where
  host : SameHost s t
  opened : t.conn.state ≠ .synRcvd
  req : t.req = []
  seq : t.conn.state = .established → last < t.conn.peerSeq

variable {env : Env} {s t : Server} {via : Bool} {seg : Segment} {l : Line} {c c' : Conn}
  {f : Frame} {base seq last : Nat} {data : List UInt8} {final : Prop}

theorem Brings.heard (brings : Brings s f via seq data final) (host : SameHost s t) :
    ForUs t f via ∧ WellSized f ∧ FromPeer t.conn (segmentOf f) := by
  have forUs := brings.forUs
  have peer := brings.peer
  refine ⟨?_, brings.sized, ?_⟩
  · unfold ForUs at forUs ⊢
    rw [host.myIp, host.wifiIp, host.port]
    exact forUs
  · unfold FromPeer at peer ⊢
    rw [host.peerPort, host.peerIp]
    exact peer

/-- What the pump, an acknowledgement and the timer leave of a connection. -/
structure Pushed (c c' : Conn) : Prop where
  peerPort : c'.peerPort = c.peerPort
  peerIp : c'.peerIp = c.peerIp
  peerSeq : c'.peerSeq = c.peerSeq
  state : c'.state = c.state ∨ c'.state = .finWait1 ∨ c'.state = .lastAck

theorem tcpPump_pushed (env : Env) (l : Line) : Pushed l.conn (tcpPump env l).conn := by
  by_cases pumping : Pumping l.conn.state
  · obtain ⟨pumped, _⟩ := tcpPump_spec env pumping
    have state : (tcpPump env l).conn.state = l.conn.state ∨
        (tcpPump env l).conn.state = .finWait1 ∨ (tcpPump env l).conn.state = .lastAck := by
      rcases pumped.outcome with ⟨same, _⟩ | ⟨_, _, _, _, moved⟩
      · exact .inl same
      · rw [moved]
        split_ifs
        · exact .inr (.inr rfl)
        · exact .inr (.inl rfl)
    obtain ⟨_, _, _, _, _, equal⟩ := pumped.frame
    rw [equal] at state ⊢
    exact ⟨rfl, rfl, rfl, state⟩
  · rw [tcpPump_idle pumping]
    exact ⟨rfl, rfl, rfl, .inl rfl⟩

theorem touch_pushed (env : Env) (seg : Segment) (c : Conn) :
    Pushed c (touch env seg c).conn := by
  have state := touch_state env seg c
  obtain ⟨_, _, _, _, _, _, _, equal⟩ := touch_eq env seg c
  rw [equal] at state ⊢
  exact ⟨rfl, rfl, rfl, state.imp_right And.right⟩

theorem tick_pushed (env : Env) (c : Conn) : Pushed c (tcpRetransmitTick env c).conn := by
  rcases tick_cases env c with ⟨_, last, run⟩ | ⟨_, _, run⟩ | ⟨_, _, run⟩
  · rw [run]
    exact ⟨rfl, rfl, rfl, .inl rfl⟩
  · rw [run]
    exact ⟨rfl, rfl, rfl, .inl rfl⟩
  · rw [run]
    obtain ⟨port, ip, seq, state⟩ := tcpPump_pushed env
      ⟨{ c with sndNxt := c.sndUna, sndRetries := c.sndRetries + 1 }, []⟩
    exact ⟨port, ip, seq, state⟩

theorem step_packet (env : Env) (forUs : ForUs t f via) (sized : WellSized f) :
    (step t (.packet f via env)).1 = (receive env t via (segmentOf f)).1 := by
  simp only [step, tcpHandlePacketVia, if_pos forUs, if_pos sized]

theorem requestOf_packet (env : Env) (forUs : ForUs t f via) (sized : WellSized f) :
    requestOf t (.packet f via env) = httpBuilt env t (segmentOf f) := if_pos ⟨forUs, sized⟩

theorem onEstablished_data (rst : seg.flags.rst = false) (data : seg.data ≠ []) :
    (onEstablished env t seg l).1 =
      if seg.flags.fin = true then
        (onPeerFin env (onData env t seg l).1 seg
          ⟨(onData env t seg l).1.conn, (onData env t seg l).2⟩).1
      else (onData env t seg l).1 := by
  unfold onEstablished
  rw [if_neg (by rw [rst]; exact Bool.false_ne_true)]
  simp only [if_pos data]
  split_ifs <;> rfl

theorem onData_open (unfinished : httpComplete (acceptReq t.req l.conn seg) ≠ true) :
    (onData env t seg l).1 =
      { t with conn := acceptConn l.conn seg, req := acceptReq t.req l.conn seg } := by
  unfold onData
  simp only [if_neg unfinished]

theorem onData_complete (complete : httpComplete (acceptReq t.req l.conn seg) = true) :
    (onData env t seg l).1 =
      { t with
        conn := (tcpSendResponse env
          ⟨acceptConn l.conn seg, (tcpSend env ⟨acceptConn l.conn seg, l.out⟩ flagsAck []).2⟩).conn
        req := [] } := by
  unfold onData
  simp only [if_pos complete]

section

variable (served : Served s t last)

include served

theorem Served.pushed (pushed : Pushed t.conn c) :
    Served s { t with conn := c } last := by
  have host := served.host
  refine ⟨⟨host.myIp, host.wifiIp, host.port, pushed.peerPort.trans host.peerPort,
    pushed.peerIp.trans host.peerIp⟩, ?_, served.req, ?_⟩
  · rcases pushed.state with same | wait | ack
    · rw [same]
      exact served.opened
    · rw [wait]
      decide
    · rw [ack]
      decide
  · intro established
    rw [pushed.peerSeq]
    rcases pushed.state with same | wait | ack
    · exact served.seq (same ▸ established)
    · exact absurd (established.symm.trans wait) (by decide)
    · exact absurd (established.symm.trans ack) (by decide)

theorem Served.pump (out : List Sent) :
    Served s { t with conn := (tcpPump env ⟨t.conn, out⟩).conn } last :=
  served.pushed (tcpPump_pushed env ⟨t.conn, out⟩)

theorem onPeerFin_served (small : seg.seq < 4294967296) (number : seg.seq = last)
    (out : List Sent) :
    Served s (onPeerFin env t seg ⟨t.conn, out⟩).1 last := by
  have next : add64 seg.seq 1 = last + 1 := by
    rw [add64_eq (by omega), number]
  have host := served.host
  have closing : Served s { t with conn := { t.conn with
      peerSeq := add64 seg.seq 1, peerFin := true } } last := by
    refine ⟨⟨host.myIp, host.wifiIp, host.port, host.peerPort, host.peerIp⟩, served.opened,
      served.req, fun _ => ?_⟩
    change last < add64 seg.seq 1
    omega
  unfold onPeerFin
  simp only
  split_ifs
  · exact closing.pump _
  · exact closing.pushed ⟨rfl, rfl, rfl, .inr (.inr rfl)⟩

theorem onFinWait1_served (state : l.conn.state = .finWait1) (pushed : Pushed t.conn l.conn) :
    Served s (onFinWait1 env t seg l).1 last := by
  have host := served.host
  have acked : ∃ b, (if seg.flags.ack = true ∧ seg.ack = l.conn.mySeq then
      { l.conn with finAcked := true } else l.conn) = { l.conn with finAcked := b } := by
    split_ifs
    · exact ⟨true, rfl⟩
    · exact ⟨l.conn.finAcked, rfl⟩
  obtain ⟨b, equal⟩ := acked
  have away : ∀ c : Conn, c.peerPort = l.conn.peerPort → c.peerIp = l.conn.peerIp →
      c.state = .finWait1 ∨ c.state = .listen → Served s { t with conn := c } last := by
    intro c port ip st
    refine ⟨⟨host.myIp, host.wifiIp, host.port, (port.trans pushed.peerPort).trans host.peerPort,
      (ip.trans pushed.peerIp).trans host.peerIp⟩, ?_, served.req, fun established => ?_⟩
    · rcases st with wait | listen
      · exact fun opened => absurd (opened.symm.trans wait) (by decide)
      · exact fun opened => absurd (opened.symm.trans listen) (by decide)
    · rcases st with wait | listen
      · exact absurd (established.symm.trans wait) (by decide)
      · exact absurd (established.symm.trans listen) (by decide)
  unfold onFinWait1
  simp only [equal]
  split_ifs
  · exact away _ rfl rfl (.inr rfl)
  · exact away _ rfl rfl (.inl state)
  · exact away _ rfl rfl (.inr rfl)
  · exact away _ rfl rfl (.inl state)

theorem Served.listen :
    Served s { t with conn := { t.conn with state := .listen } } last := by
  have host := served.host
  refine ⟨⟨host.myIp, host.wifiIp, host.port, host.peerPort, host.peerIp⟩, ?_, served.req, ?_⟩
  · show TcpState.listen ≠ .synRcvd
    decide
  · intro established
    exact absurd (show TcpState.listen = .established from established) (by decide)

/-- Behind the request a piece that arrives again changes nothing of it. -/
theorem Served.again (env : Env) (nonempty : data ≠ [])
    (brings : Brings s f via seq data (seq = last)) (small : last < 4294967296) (le : seq ≤ last) :
    Served s (step t (.packet f via env)).1 last ∧ requestOf t (.packet f via env) = none := by
  obtain ⟨forUs, sized, peer⟩ := brings.heard served.host
  have touched := served.pushed (touch_pushed env (segmentOf f) t.conn)
  have peer' : FromPeer (touch env (segmentOf f) t.conn).conn (segmentOf f) :=
    (touch_fromPeer env _ _).mpr peer
  have number := brings.seq
  have data' : (segmentOf f).data ≠ [] := by
    rw [brings.data]
    exact nonempty
  rw [step_packet env forUs sized, requestOf_packet env forUs sized]
  by_cases established : (touch env (segmentOf f) t.conn).conn.state = .established
  · have late : last < (touch env (segmentOf f) t.conn).conn.peerSeq := touched.seq established
    have other : (segmentOf f).seq ≠ (touch env (segmentOf f) t.conn).conn.peerSeq := by omega
    have req : acceptReq t.req (touch env (segmentOf f) t.conn).conn (segmentOf f) = [] := by
      unfold acceptReq
      rw [if_neg other]
      exact served.req
    have conn : acceptConn (touch env (segmentOf f) t.conn).conn (segmentOf f) =
        (touch env (segmentOf f) t.conn).conn := if_neg other
    have unfinished : httpComplete
        (acceptReq t.req (touch env (segmentOf f) t.conn).conn (segmentOf f)) ≠ true := by
      rw [req]
      decide
    have none : httpBuilt env t (segmentOf f) = none := if_neg fun h => unfinished h.2.2.2.2
    refine ⟨?_, none⟩
    have part : Served s (onData env t (segmentOf f) (touch env (segmentOf f) t.conn)).1 last := by
      rw [onData_open unfinished, req, conn]
      have host := touched.host
      exact ⟨⟨host.myIp, host.wifiIp, host.port, host.peerPort, host.peerIp⟩, touched.opened, rfl,
        touched.seq⟩
    rw [receive_established env t via (segmentOf f) peer' established,
      onEstablished_data brings.rst data']
    split_ifs with fin
    · exact onPeerFin_served part (by omega) (number.trans (brings.fin fin)) _
    · exact part
  · have none : httpBuilt env t (segmentOf f) = none := if_neg fun h => established h.1
    refine ⟨?_, none⟩
    cases state : (touch env (segmentOf f) t.conn).conn.state with
    | closed | listen =>
      rw [receive_listen env t via (segmentOf f) (by rw [state]; decide)]
      unfold onListen
      rw [if_neg (by rw [brings.syn]; exact Bool.false_ne_true)]
      exact touched
    | synRcvd => exact (touched.opened state).elim
    | established => exact (established state).elim
    | finWait1 =>
      rw [receive_finWait1 env t via (segmentOf f) peer' state]
      exact onFinWait1_served served state (touch_pushed env _ _)
    | lastAck =>
      rw [receive_lastAck env t via (segmentOf f) peer' state]
      unfold onLastAck
      split_ifs
      · exact touched.listen
      · exact touched

end

/-- Once the request was served, nothing is handed to `http_build` again. -/
theorem Served.requests {sent : List (List UInt8)} {es : List Event}
    (nonempty : ∀ piece ∈ sent, piece ≠ [])
    (low : base + sent.dropLast.flatten.length < 4294967296)
    (delivered : Delivery s base sent [] es)
    (served : Served s t (base + sent.dropLast.flatten.length)) : requests t es = [] := by
  generalize none : ([] : List (List UInt8)) = rest at delivered
  induction delivered generalizing t with
  | done => rfl
  | next => exact absurd none (List.cons_ne_nil _ _).symm
  | @again before after rest piece es f via env brings later ih =>
    have piece' : piece ≠ [] :=
      nonempty piece (List.mem_append_right _ List.mem_cons_self)
    have earlier : ∃ middle, (before ++ piece :: after).dropLast = before ++ middle := by
      rw [List.dropLast_append_of_ne_nil (List.cons_ne_nil _ _)]
      exact ⟨_, rfl⟩
    obtain ⟨middle, equal⟩ := earlier
    have le : base + before.flatten.length ≤
        base + (before ++ piece :: after).dropLast.flatten.length := by
      rw [equal, List.flatten_append, List.length_append]
      omega
    have brings' : Brings s f via (base + before.flatten.length) piece
        (base + before.flatten.length =
          base + (before ++ piece :: after).dropLast.flatten.length) := by
      obtain ⟨forUs, sized, peer, seq, data, syn, rst, fin⟩ := brings
      refine ⟨forUs, sized, peer, seq, data, syn, rst, fun closes => ?_⟩
      obtain ⟨rfl, _⟩ := fin closes
      rw [List.dropLast_concat]
    obtain ⟨keeps, unasked⟩ := served.again env piece' brings' low le
    rw [TcpRequest.requests, unasked]
    exact ih nonempty low keeps none
  | tick later ih => exact ih nonempty low (served.pushed (tick_pushed _ t.conn)) none

section Collect

variable {header body piece : List UInt8} {sent : List (List UInt8)}

def stamped (env : Env) (seg : Segment) (c : Conn) : Conn :=
  { c with lastMs := env.now, peerWin := seg.win }

section

variable (collecting : Collecting s t base sent)

include collecting

theorem Collecting.touched (env : Env) (seg : Segment) :
    touch env seg t.conn =
      ⟨stamped env seg t.conn, []⟩ :=
  touch_empty env seg collecting.len

theorem Collecting.established (env : Env) (brings : Brings s f via seq data final) :
    (step t (.packet f via env)).1 = (onEstablished env t (segmentOf f)
      ⟨stamped env (segmentOf f) t.conn, []⟩).1 ∧
    requestOf t (.packet f via env) = httpBuilt env t (segmentOf f) := by
  obtain ⟨forUs, sized, peer⟩ := brings.heard collecting.host
  have peer' : FromPeer (touch env (segmentOf f) t.conn).conn (segmentOf f) :=
    (touch_fromPeer env _ _).mpr peer
  have state : (touch env (segmentOf f) t.conn).conn.state = .established := by
    rw [collecting.touched env]
    exact collecting.state
  refine ⟨?_, requestOf_packet env forUs sized⟩
  rw [step_packet env forUs sized, receive_established env t via (segmentOf f) peer' state,
    collecting.touched env]

theorem Collecting.httpBuilt (env : Env) (brings : Brings s f via seq data final)
    (nonempty : data ≠ []) {req : List UInt8}
    (accepted : acceptReq t.req t.conn (segmentOf f) = req) :
    TcpRequest.httpBuilt env t (segmentOf f) =
      if httpComplete req = true then some req else none := by
  obtain ⟨_, _, peer⟩ := brings.heard collecting.host
  have same : acceptReq t.req (touch env (segmentOf f) t.conn).conn (segmentOf f) = req := by
    rw [collecting.touched env]
    exact accepted
  have others : (touch env (segmentOf f) t.conn).conn.state = .established ∧
      FromPeer (touch env (segmentOf f) t.conn).conn (segmentOf f) ∧
      (segmentOf f).flags.rst = false ∧ (segmentOf f).data ≠ [] := by
    refine ⟨?_, (touch_fromPeer env _ _).mpr peer, brings.rst, ?_⟩
    · rw [collecting.touched env]
      exact collecting.state
    · rw [brings.data]
      exact nonempty
  unfold TcpRequest.httpBuilt
  simp only [same]
  split_ifs with all complete complete
  · rfl
  · exact (complete all.2.2.2.2).elim
  · exact (all ⟨others.1, others.2.1, others.2.2.1, others.2.2.2, complete⟩).elim
  · rfl

/-- A piece that arrives again before the request is complete. -/
theorem Collecting.again (env : Env) (brings : Brings s f via seq data False) (nonempty : data ≠ [])
    (old : seq < base + sent.flatten.length) (unfinished : httpComplete sent.flatten ≠ true) :
    Collecting s (step t (.packet f via env)).1 base sent ∧
      requestOf t (.packet f via env) = none := by
  obtain ⟨run, asks⟩ := collecting.established env brings
  have number := brings.seq
  have other : (segmentOf f).seq ≠ t.conn.peerSeq := by
    rw [collecting.seq]
    omega
  have accepted : acceptReq t.req t.conn (segmentOf f) = sent.flatten := by
    unfold acceptReq
    rw [if_neg other]
    exact collecting.req
  have data' : (segmentOf f).data ≠ [] := by
    rw [brings.data]
    exact nonempty
  have fin : ¬ (segmentOf f).flags.fin = true := brings.fin
  refine ⟨?_, ?_⟩
  · rw [run, onEstablished_data brings.rst data', if_neg fin, onData_open]
    · have conn : acceptConn (stamped env (segmentOf f) t.conn) (segmentOf f) =
          stamped env (segmentOf f) t.conn :=
        if_neg other
      rw [conn]
      have host := collecting.host
      exact ⟨⟨host.myIp, host.wifiIp, host.port, host.peerPort, host.peerIp⟩, collecting.state,
        collecting.len, collecting.pending, collecting.seq, accepted⟩
    · rw [show acceptReq t.req (stamped env (segmentOf f) t.conn) (segmentOf f) =
        sent.flatten from accepted]
      exact unfinished
  · rw [asks, collecting.httpBuilt env brings nonempty accepted, if_neg unfinished]

section

variable (low : base + (sent ++ [piece]).flatten.length ≤ 4294967296)
  (fits : (sent ++ [piece]).flatten.length ≤ reqCap)

include low fits

theorem Collecting.accepts (brings : Brings s f via (base + sent.flatten.length) piece final) :
    acceptReq t.req t.conn (segmentOf f) = (sent ++ [piece]).flatten ∧
      ∀ c : Conn, c.peerSeq = t.conn.peerSeq → acceptConn c (segmentOf f) =
        { c with peerSeq := base + (sent ++ [piece]).flatten.length } := by
  have number : (segmentOf f).seq = t.conn.peerSeq := brings.seq.trans collecting.seq.symm
  have whole : (sent ++ [piece]).flatten = sent.flatten ++ piece := by
    rw [List.flatten_append, List.flatten_singleton]
  rw [whole, List.length_append] at low fits ⊢
  constructor
  · unfold acceptReq accumulate
    rw [if_pos number, collecting.req, brings.data, List.take_of_length_le (by omega)]
  · intro c same
    unfold acceptConn
    rw [if_pos (number.trans same.symm), brings.seq, brings.data, add64_eq (by omega),
      Nat.add_assoc]

theorem Collecting.next (env : Env)
    (brings : Brings s f via (base + sent.flatten.length) piece False) (nonempty : piece ≠ [])
    (unfinished : httpComplete (sent ++ [piece]).flatten ≠ true) :
    Collecting s (step t (.packet f via env)).1 base (sent ++ [piece]) ∧
      requestOf t (.packet f via env) = none := by
  obtain ⟨run, asks⟩ := collecting.established env brings
  obtain ⟨accepted, moved⟩ := collecting.accepts low fits brings
  have data : (segmentOf f).data ≠ [] := by
    rw [brings.data]
    exact nonempty
  have fin : ¬ (segmentOf f).flags.fin = true := brings.fin
  have accepted' : acceptReq t.req (stamped env (segmentOf f) t.conn) (segmentOf f) =
      (sent ++ [piece]).flatten := accepted
  refine ⟨?_, ?_⟩
  · rw [run, onEstablished_data brings.rst data, if_neg fin, onData_open]
    · rw [moved (stamped env (segmentOf f) t.conn) rfl, accepted']
      have host := collecting.host
      exact ⟨⟨host.myIp, host.wifiIp, host.port, host.peerPort, host.peerIp⟩, collecting.state,
        collecting.len, collecting.pending, rfl, rfl⟩
    · rw [accepted']
      exact unfinished
  · rw [asks, collecting.httpBuilt env brings nonempty accepted, if_neg unfinished]

/-- The last piece calls `http_build`. -/
theorem Collecting.finish (env : Env)
    (brings : Brings s f via (base + sent.flatten.length) piece final) (nonempty : piece ≠ [])
    (complete : httpComplete (sent ++ [piece]).flatten = true) :
    Served s (step t (.packet f via env)).1 (base + sent.flatten.length) ∧
      requestOf t (.packet f via env) = some (sent ++ [piece]).flatten := by
  obtain ⟨run, asks⟩ := collecting.established env brings
  obtain ⟨accepted, moved⟩ := collecting.accepts low fits brings
  have longer : sent.flatten.length < (sent ++ [piece]).flatten.length := by
    rw [List.flatten_append, List.flatten_singleton, List.length_append]
    exact Nat.lt_add_of_pos_right (List.length_pos_iff.mpr nonempty)
  have data : (segmentOf f).data ≠ [] := by
    rw [brings.data]
    exact nonempty
  have accepted' : acceptReq t.req (stamped env (segmentOf f) t.conn) (segmentOf f) =
      (sent ++ [piece]).flatten := accepted
  have part : Served s (onData env t (segmentOf f)
      ⟨stamped env (segmentOf f) t.conn, []⟩).1
      (base + sent.flatten.length) := by
    rw [onData_complete (by rw [accepted']; exact complete),
      moved (stamped env (segmentOf f) t.conn) rfl]
    have host := collecting.host
    have queued : ∀ c : Conn, c.peerPort = t.conn.peerPort → c.peerIp = t.conn.peerIp →
        c.state = t.conn.state → c.peerSeq = base + (sent ++ [piece]).flatten.length →
        Served s { t with conn := c, req := [] } (base + sent.flatten.length) := by
      intro c port ip state seq
      refine ⟨⟨host.myIp, host.wifiIp, host.port, port.trans host.peerPort,
        ip.trans host.peerIp⟩, ?_, rfl, fun _ => ?_⟩
      · rw [state, collecting.state]
        decide
      · rw [seq]
        omega
    unfold tcpSendResponse
    refine Served.pump (s := s) (t := { t with conn := _, req := [] }) ?_ _
    exact queued _ rfl rfl rfl rfl
  refine ⟨?_, ?_⟩
  · have number := brings.seq
    rw [run, onEstablished_data brings.rst data]
    split_ifs
    · exact onPeerFin_served part (by omega) number _
    · exact part
  · rw [asks, collecting.httpBuilt env brings nonempty accepted, if_pos complete]

end

theorem Collecting.tick (env : Env) :
    (step t (.tick env)).1 = t := by
  have idle : tcpRetransmitTick env t.conn = ⟨t.conn, []⟩ := by
    unfold tcpRetransmitTick
    rw [if_pos ⟨by rw [collecting.len]; exact Nat.zero_le _, collecting.pending⟩]
  simp only [step, idle]

end

/-- From any moment before the last piece on, one request is handed over. -/
theorem Collecting.requests (request : IsRequest header body) {rest : List (List UInt8)}
    {es : List Event} (low : base + (header ++ body).length ≤ 4294967296)
    (delivered : Delivery s base sent rest es) (collecting : Collecting s t base sent)
    (cut : (sent ++ rest).flatten = header ++ body) (nonempty : ∀ piece ∈ sent ++ rest, piece ≠ [])
    (more : rest ≠ []) : requests t es = [header ++ body] := by
  have short : ∀ start, start <+: header ++ body → start.length ≤ reqCap := by
    intro start before
    have fits := request.fits
    rw [← List.length_append] at fits
    exact Nat.le_trans before.length_le fits
  have part : ∀ {sent rest : List (List UInt8)}, (sent ++ rest).flatten = header ++ body →
      sent.flatten <+: header ++ body := by
    intro sent rest cut
    rw [← cut, List.flatten_append]
    exact List.prefix_append _ _
  have open' : ∀ {sent rest : List (List UInt8)}, (sent ++ rest).flatten = header ++ body →
      (∀ piece ∈ sent ++ rest, piece ≠ []) → rest ≠ [] → httpComplete sent.flatten ≠ true := by
    intro sent rest cut nonempty more complete
    have all := (request.httpComplete_iff (part cut)).mp complete
    rw [← cut, List.flatten_append] at all
    have empty : rest.flatten = [] := List.append_cancel_left
      ((List.append_nil sent.flatten).trans all).symm
    obtain ⟨piece, listed⟩ := List.exists_mem_of_ne_nil rest more
    exact nonempty piece (List.mem_append_right _ listed)
      (List.flatten_eq_nil_iff.mp empty piece listed)
  induction delivered generalizing t with
  | done => exact (more rfl).elim
  | @next sent rest piece es f via env brings later ih =>
    have cut' : ((sent ++ [piece]) ++ rest).flatten = header ++ body := by
      rw [List.append_assoc]
      exact cut
    have nonempty' : ∀ p ∈ (sent ++ [piece]) ++ rest, p ≠ [] := by
      rw [List.append_assoc]
      exact nonempty
    have piece' : piece ≠ [] :=
      nonempty piece (List.mem_append_right _ List.mem_cons_self)
    have fits := short _ (part cut')
    have below : base + (sent ++ [piece]).flatten.length ≤ 4294967296 := by
      have le := (part cut').length_le
      omega
    rw [TcpRequest.requests]
    by_cases final : rest = []
    · subst final
      rw [List.append_nil] at cut'
      have complete := (request.httpComplete_iff (cut' ▸ List.prefix_rfl)).mpr cut'
      obtain ⟨served, asked⟩ := collecting.finish below fits env brings piece' complete
      have longer : sent.flatten.length < (sent ++ [piece]).flatten.length := by
        rw [List.flatten_append, List.flatten_singleton, List.length_append]
        exact Nat.lt_add_of_pos_right (List.length_pos_iff.mpr piece')
      have back : (sent ++ [piece]).dropLast = sent := List.dropLast_concat
      rw [List.append_nil] at nonempty'
      have low' : base + (sent ++ [piece]).dropLast.flatten.length < 4294967296 := by
        rw [back]
        omega
      have quiet := Served.requests nonempty' low' later (by rw [back]; exact served)
      rw [asked, quiet, cut']
      rfl
    · obtain ⟨keeps, unasked⟩ := collecting.next below fits env
        (by
          obtain ⟨forUs, sized, peer, seq, data, syn, rst, fin⟩ := brings
          exact ⟨forUs, sized, peer, seq, data, syn, rst, fun closes => final (fin closes)⟩)
        piece' (open' cut' nonempty' final)
      rw [unasked]
      exact ih keeps cut' nonempty' final
  | @again before after rest piece es f via env brings later ih =>
    have piece' : piece ≠ [] := nonempty piece
      (List.mem_append_left _ (List.mem_append_right _ List.mem_cons_self))
    have earlier : base + before.flatten.length <
        base + (before ++ piece :: after).flatten.length := by
      have pos := List.length_pos_iff.mpr piece'
      rw [List.flatten_append, List.flatten_cons, List.length_append, List.length_append]
      omega
    obtain ⟨keeps, unasked⟩ := collecting.again env
      (by
        obtain ⟨forUs, sized, peer, seq, data, syn, rst, fin⟩ := brings
        exact ⟨forUs, sized, peer, seq, data, syn, rst, fun closes => more (fin closes).2⟩)
      piece' earlier (open' cut nonempty more)
    rw [TcpRequest.requests, unasked]
    exact ih keeps cut nonempty more
  | tick later ih =>
    rw [TcpRequest.requests, collecting.tick]
    exact ih collecting cut nonempty more

end Collect

end Delivered

section Answering

variable {env : Env} {s : Server} {via : Bool} {seg : Segment} {l : Line} {f : Frame}

theorem tcpPump_stored (env : Env) (l : Line) :
    (tcpPump env l).conn.snd = l.conn.snd ∧ (tcpPump env l).conn.sndLen = l.conn.sndLen := by
  by_cases pumping : Pumping l.conn.state
  · obtain ⟨pumped, _⟩ := tcpPump_spec env pumping
    obtain ⟨_, _, _, _, _, equal⟩ := pumped.frame
    rw [equal]
    exact ⟨rfl, rfl⟩
  · rw [tcpPump_idle pumping]
    exact ⟨rfl, rfl⟩

/-- The environment of a step with another text from `http_build`. -/
def answering (env : Env) (response : List UInt8) : Env := { env with response := response }

section

variable (response : List UInt8)

include response

theorem pumpLoop_answering (fuel : Nat) (l : Line) :
    pumpLoop (answering env response) fuel l = pumpLoop env fuel l := by
  induction fuel generalizing l with
  | zero => rfl
  | succ fuel ih =>
    simp only [pumpLoop]
    rw [show tcpSend (answering env response) = tcpSend env from rfl]
    simp only [ih]

theorem tcpPump_answering (l : Line) :
    tcpPump (answering env response) l = tcpPump env l := by
  unfold tcpPump
  simp only [pumpLoop_answering]
  rfl

theorem touch_answering (c : Conn) :
    touch (answering env response) seg c = touch env seg c := by
  unfold touch tcpOnAck
  simp only [tcpPump_answering]
  rfl

theorem onPeerFin_answering :
    onPeerFin (answering env response) s seg l = onPeerFin env s seg l := by
  unfold onPeerFin
  simp only [tcpPump_answering]
  rfl

theorem httpBuilt_answering :
    httpBuilt (answering env response) s seg = httpBuilt env s seg := by
  unfold httpBuilt
  rw [touch_answering]

end

theorem onPeerFin_stored : (onPeerFin env s seg l).1.conn.snd = l.conn.snd := by
  unfold onPeerFin
  simp only
  split_ifs
  · rw [(tcpPump_stored env _).1]
  · rfl

/-- What a segment that calls `http_build` leaves in the send buffer. -/
theorem receive_queues (built : (httpBuilt env s seg).isSome = true) :
    (receive env s via seg).1.conn.snd = env.response.take tcpSndBuf := by
  unfold httpBuilt at built
  simp only at built
  split_ifs at built with calls
  · obtain ⟨state, peer, rst, data, complete⟩ := calls
    rw [receive_established env s via seg peer state, onEstablished_data rst data]
    have stored : (onData env s seg (touch env seg s.conn)).1.conn.snd =
        env.response.take tcpSndBuf := by
      rw [onData_complete complete]
      unfold tcpSendResponse
      exact (tcpPump_stored env _).1
    split_ifs
    · rw [onPeerFin_stored]
      exact stored
    · exact stored
  · cases built

/-- A segment that does not call `http_build` takes nothing from its result. -/
theorem receive_answering (silent : httpBuilt env s seg = none) (response : List UInt8) :
    receive (answering env response) s via seg = receive env s via seg := by
  have touched : touch (answering env response) seg s.conn = touch env seg s.conn :=
    touch_answering response s.conn
  by_cases closed : (touch env seg s.conn).conn.state = .closed ∨
      (touch env seg s.conn).conn.state = .listen
  · rw [receive_listen env s via seg closed, receive_listen _ s via seg (touched ▸ closed), touched]
    rfl
  obtain ⟨open', listens⟩ := not_or.mp closed
  by_cases peer : FromPeer (touch env seg s.conn).conn seg
  swap
  · rw [receive_stranger env s via seg open' listens peer,
      receive_stranger _ s via seg (touched ▸ open') (touched ▸ listens) (touched ▸ peer), touched]
  cases state : (touch env seg s.conn).conn.state with
  | closed => exact (open' state).elim
  | listen => exact (listens state).elim
  | synRcvd =>
    rw [receive_synRcvd env s via seg peer state,
      receive_synRcvd _ s via seg (touched ▸ peer) (touched ▸ state), touched]
  | finWait1 =>
    rw [receive_finWait1 env s via seg peer state,
      receive_finWait1 _ s via seg (touched ▸ peer) (touched ▸ state), touched]
    rfl
  | lastAck =>
    rw [receive_lastAck env s via seg peer state,
      receive_lastAck _ s via seg (touched ▸ peer) (touched ▸ state), touched]
  | established =>
    rw [receive_established env s via seg peer state,
      receive_established _ s via seg (touched ▸ peer) (touched ▸ state), touched]
    cases rst : seg.flags.rst with
    | true =>
      unfold onEstablished
      rw [if_pos rst, if_pos rst]
    | false =>
      by_cases data : seg.data = []
      · unfold onEstablished
        simp only [data, ne_eq, not_true_eq_false, if_false, onPeerFin_answering]
      · have unfinished :
            ¬ httpComplete (acceptReq s.req (touch env seg s.conn).conn seg) = true :=
          fun complete => Option.some_ne_none _
            ((if_pos ⟨state, peer, rst, data, complete⟩).symm.trans silent)
        unfold onEstablished onData
        simp only [unfinished, onPeerFin_answering]
        rfl

/-- A step puts the response of `http_build` in the send buffer exactly if the observer sees a
call. -/
theorem response_queued_iff (env : Env) (s : Server) (f : Frame) (via : Bool) :
    (requestOf s (.packet f via env)).isSome = true ↔ ∀ response : List UInt8,
      (step s (.packet f via (answering env response))).1.conn.snd =
        response.take tcpSndBuf := by
  by_cases heard : ForUs s f via ∧ WellSized f
  · obtain ⟨forUs, sized⟩ := heard
    rw [requestOf_packet env forUs sized]
    constructor
    · intro built response
      rw [step_packet _ forUs sized]
      exact receive_queues (by rwa [httpBuilt_answering])
    · intro stores
      by_contra silent
      rw [Bool.not_eq_true, Option.isSome_eq_false_iff, Option.isNone_iff_eq_none] at silent
      have first := stores []
      have second := stores [0]
      rw [step_packet _ forUs sized, receive_answering silent] at first second
      rw [first] at second
      cases second
  · have same : ∀ response : List UInt8,
        (step s (.packet f via (answering env response))).1 = s := by
      intro response
      simp only [step, tcpHandlePacketVia]
      split_ifs with forUs sized
      · exact absurd ⟨forUs, sized⟩ heard
      · rfl
      · rfl
    rw [show requestOf s (.packet f via env) = none from if_neg heard]
    refine iff_of_false Bool.false_ne_true fun stores => ?_
    have first := stores []
    have second := stores [0]
    rw [same] at first second
    rw [first] at second
    cases second

end Answering

section Opening

variable {env : Env} {s : Server} {via : Bool} {seg : Segment} {l : Line} {c c' : Conn}

theorem Pushed.opened (pushed : Pushed c c') (opened : c.state ≠ .synRcvd) :
    c'.state ≠ .synRcvd := by
  rcases pushed.state with same | wait | ack
  · rwa [same]
  · rw [wait]
    decide
  · rw [ack]
    decide

theorem onPeerFin_opened (opened : l.conn.state ≠ .synRcvd) :
    (onPeerFin env s seg l).1.conn.state ≠ .synRcvd := by
  unfold onPeerFin
  simp only
  split_ifs
  · exact (tcpPump_pushed env _).opened opened
  · exact TcpState.noConfusion

theorem onEstablished_opened (state : l.conn.state = .established) :
    (onEstablished env s seg l).1.conn.state ≠ .synRcvd := by
  have accepted : (acceptConn l.conn seg).state ≠ .synRcvd := by
    unfold acceptConn
    split_ifs
    · rw [state]
      decide
    · rw [state]
      decide
  have stored : (onData env s seg l).1.conn.state ≠ .synRcvd := by
    unfold onData tcpSendResponse
    simp only
    split_ifs
    · exact (tcpPump_pushed env _).opened accepted
    · exact accepted
  unfold onEstablished
  split_ifs
  · exact TcpState.noConfusion
  · exact onPeerFin_opened stored
  · exact stored
  · exact onPeerFin_opened (by rw [state]; decide)
  · rw [state]
    decide

/-- While a handshake is open nothing is queued. -/
def Opening (c : Conn) : Prop := c.state = .synRcvd → c.sndLen = 0 ∧ c.sndFinPending = false

/-- What a step may do to a connection in which a handshake may be open. -/
structure Shakes (s t : Server) : Prop where
  opening : Opening t.conn
  fresh : t.conn.state = .established → s.conn.state = .established ∨ Fresh t

theorem Shakes.away {t : Server} (opened : t.conn.state ≠ .synRcvd)
    (same : t.conn.state = .established → s.conn.state = .established) : Shakes s t :=
  ⟨fun still => (opened still).elim, fun state => .inl (same state)⟩

theorem Pushed.established (pushed : Pushed c c') (state : c'.state = .established) :
    c.state = .established := by
  rcases pushed.state with same | wait | ack
  · rw [← same]
    exact state
  · exact TcpState.noConfusion (wait.symm.trans state)
  · exact TcpState.noConfusion (ack.symm.trans state)

section

variable (opening : Opening s.conn)

include opening

/-- What neither pushes out of the handshake nor opens one keeps its books. -/
theorem Opening.pushed (pushed : Pushed s.conn c)
    (same : s.conn.state = .synRcvd → c.sndLen = s.conn.sndLen ∧
      c.sndFinPending = s.conn.sndFinPending) :
    Shakes s { s with conn := c } := by
  refine ⟨fun still => ?_, fun state => .inl (pushed.established state)⟩
  by_cases fresh : s.conn.state = .synRcvd
  · obtain ⟨len, pending⟩ := same fresh
    change c.sndLen = 0 ∧ c.sndFinPending = false
    rw [len, pending]
    exact opening fresh
  · exact (pushed.opened fresh still).elim

theorem Opening.touch (env : Env) (seg : Segment) :
    Shakes s { s with conn := (touch env seg s.conn).conn } := by
  refine opening.pushed (touch_pushed env seg s.conn) fun fresh => ?_
  rw [touch_empty env seg (opening fresh).1]
  exact ⟨rfl, rfl⟩

theorem Opening.receive (env : Env) (via : Bool) (seg : Segment) :
    Shakes s (receive env s via seg).1 := by
  have touched := opening.touch env seg
  by_cases closed : (TcpHandler.touch env seg s.conn).conn.state = .closed ∨
      (TcpHandler.touch env seg s.conn).conn.state = .listen
  · rw [receive_listen env s via seg closed]
    unfold onListen
    split_ifs
    · exact ⟨fun _ => ⟨rfl, rfl⟩, fun state => TcpState.noConfusion state⟩
    · exact touched
  obtain ⟨open', listens⟩ := not_or.mp closed
  by_cases peer : FromPeer (TcpHandler.touch env seg s.conn).conn seg
  swap
  · rw [receive_stranger env s via seg open' listens peer]
    exact touched
  cases state : (TcpHandler.touch env seg s.conn).conn.state with
  | closed => exact (open' state).elim
  | listen => exact (listens state).elim
  | synRcvd =>
    rw [receive_synRcvd env s via seg peer state]
    obtain ⟨len, pending⟩ := touched.opening state
    unfold onSynRcvd
    split_ifs
    · exact .away TcpState.noConfusion fun state => TcpState.noConfusion state
    · exact ⟨fun still => TcpState.noConfusion still, fun _ => .inr ⟨rfl, rfl, len, pending⟩⟩
    · exact touched
  | established =>
    rw [receive_established env s via seg peer state]
    exact .away (onEstablished_opened state) fun _ =>
      (touch_pushed env seg s.conn).established state
  | finWait1 =>
    rw [receive_finWait1 env s via seg peer state]
    have moved : (onFinWait1 env s seg (TcpHandler.touch env seg s.conn)).1.conn.state = .listen ∨
        (onFinWait1 env s seg (TcpHandler.touch env seg s.conn)).1.conn.state = .finWait1 := by
      unfold onFinWait1
      simp only
      split_ifs <;> simp [state]
    refine .away ?_ ?_
    · rcases moved with moved | moved <;> rw [moved] <;> decide
    · rcases moved with moved | moved <;> rw [moved] <;> exact fun state => TcpState.noConfusion state
  | lastAck =>
    rw [receive_lastAck env s via seg peer state]
    unfold onLastAck
    split_ifs
    · exact .away TcpState.noConfusion fun state => TcpState.noConfusion state
    · exact touched

theorem Opening.step (e : Event) : Shakes s (step s e).1 := by
  have quiet : Shakes s s := ⟨opening, .inl⟩
  cases e with
  | packet f via env =>
    simp only [TcpHandler.step, tcpHandlePacketVia]
    split_ifs
    · exact opening.receive env via (segmentOf f)
    · exact quiet
    · exact quiet
  | tick env =>
    refine opening.pushed (tick_pushed env s.conn) fun fresh => ?_
    obtain ⟨len, pending⟩ := opening fresh
    have idle : tcpRetransmitTick env s.conn = ⟨s.conn, []⟩ :=
      if_pos ⟨by rw [len]; exact Nat.zero_le _, pending⟩
    rw [idle]
    exact ⟨rfl, rfl⟩
  | reap now =>
    simp only [TcpHandler.step]
    rcases reap_cases now s with same | stamped | freed
    · rw [same]
      exact quiet
    · rw [stamped]
      exact ⟨opening, .inl⟩
    · rw [freed]
      exact .away TcpState.noConfusion fun state => TcpState.noConfusion state
  | listen port => exact .away TcpState.noConfusion fun state => TcpState.noConfusion state
  | setIp ip => exact ⟨opening, .inl⟩

end

theorem reachable_opening {ip wifiIp : List UInt8} (run : Reachable ip wifiIp s) :
    Opening s.conn := by
  refine Runs.invariant (I := fun s => Opening s.conn) run ?_ fun t e t' opening _ next => ?_
  · exact fun fresh => TcpState.noConfusion fresh
  · obtain rfl := Option.some.inj next
    exact (opening.step e).opening

/-- Whatever happened before, a step that establishes a connection leaves a fresh one. -/
theorem handshake_fresh {ip wifiIp : List UInt8} (run : Reachable ip wifiIp s) (e : Event)
    (closed : s.conn.state ≠ .established) (opens : (step s e).1.conn.state = .established) :
    Fresh (step s e).1 :=
  (((reachable_opening run).step e).fresh opens).resolve_left closed

end Opening

/-- However a request is cut into pieces, and however often pieces arrive again, one call
of `http_build` gets it, whole. -/
theorem request_reassembled {s : Server} {header body : List UInt8} {pieces : List (List UInt8)}
    {es : List Event} (request : IsRequest header body) (fresh : Fresh s)
    (low : s.conn.peerSeq + (header ++ body).length ≤ 4294967296)
    (cut : pieces.flatten = header ++ body) (nonempty : ∀ piece ∈ pieces, piece ≠ [])
    (delivered : Delivery s s.conn.peerSeq [] pieces es) : requests s es = [header ++ body] := by
  have collecting : Collecting s s s.conn.peerSeq [] :=
    ⟨⟨rfl, rfl, rfl, rfl, rfl⟩, fresh.state, fresh.len, fresh.pending, rfl, fresh.req⟩
  have more : pieces ≠ [] := by
    rintro rfl
    have long := request.header_length
    have len := congrArg List.length cut
    rw [List.length_append] at len
    change 0 = _ at len
    omega
  exact Collecting.requests request low delivered collecting cut nonempty more

section Cases

open TcpFin

/-- `Content-Length: 1`, the empty line and one byte. -/
def posted : List UInt8 :=
  [67, 111, 110, 116, 101, 110, 116, 45, 76, 101, 110, 103, 116, 104, 58, 32, 49, 13, 10, 13, 10]

theorem posted_request : IsRequest posted [65] := by
  have inside : ∀ i, NameAt posted i → i < 21 := by
    intro i name
    have len := congrArg List.length name
    rw [List.length_map, List.length_take, List.length_drop] at len
    change min 15 (21 - i) = 15 at len
    omega
  have only : ∀ i < 21, NameAt posted i → i = 0 := by
    unfold NameAt
    decide
  refine ⟨by decide, ?_, ?_, ?_, ?_, by decide⟩
  · intro start before suffix
    have le := before.length_le
    have equal := List.prefix_iff_eq_take.mp before
    have all : ∀ n < 22, crlfcrlf <:+ posted.take n → n = 21 := by decide
    rw [equal] at suffix
    have n := all start.length (Nat.lt_succ_of_le le) suffix
    rw [equal, n]
    rfl
  · intro i j first second
    exact (only i (inside i first) first).trans (only j (inside j second) second).symm
  · intro i name
    obtain rfl := only i (inside i name) name
    decide
  · intro bare
    refine (bare 0 ?_).elim
    unfold NameAt
    decide

/-- A segment of the scripted client `offset` bytes into its stream. -/
def piece (offset : Nat) (data : List UInt8) : Event :=
  fromClient 12 (clientSegment (1001 + offset) 3735928560 flagsPshAck data) []

theorem request_reassembled_cut_name :
    requests shaken [piece 0 (posted.take 5), piece 5 (posted.drop 5), piece 0 (posted.take 5),
      piece 21 [65]] = [posted ++ [65]] := by
  have cut : [posted.take 5, posted.drop 5, [65]].flatten = posted ++ [65] := by decide
  refine request_reassembled posted_request ⟨by decide, by decide, by decide, by decide⟩
    (by decide) cut (by decide) ?_
  refine .next ⟨by decide, by decide, by decide, by decide, by decide, by decide, by decide,
    by decide⟩ ?_
  refine .next ⟨by decide, by decide, by decide, by decide, by decide, by decide, by decide,
    by decide⟩ ?_
  show Delivery shaken _ ([] ++ posted.take 5 :: [posted.drop 5]) _ _
  refine .again ⟨by decide, by decide, by decide, by decide, by decide, by decide, by decide,
    by decide⟩ ?_
  refine .next ⟨by decide, by decide, by decide, by decide, by decide, by decide, by decide,
    by decide⟩ ?_
  exact .done _

end Cases

end XinuRpi5.System.TcpRequest
