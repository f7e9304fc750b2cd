/- source: system/tcp_server.c
   digest: The response bytes in flight after each segment that the send pump puts on the wire. -/

import XinuRpi5.System.TcpWindow

/-!
The pump compares the bytes in flight with its limit before a whole segment is
added, and takes `TCP_MAX_INFLIGHT` for a window of zero. A segment of another
host renews the window of the connection as well.
-/

namespace XinuRpi5.System.TcpFlow

open Lib.Word64
open TcpServer TcpHandler TcpPump
open TcpWindow

def inFlight (c : Conn) : Int := (c.sndNxt : Int) - c.sndUna

/-- The larger of one MSS and the smaller of a window and `TCP_MAX_INFLIGHT`. -/
def flowBound (win : Nat) : Nat := max tcpMss (min win tcpMaxInflight)

/-- Segments that go out one after another, beside `flying` bytes, never bring the bytes in
flight over a bound. -/
def FlowsBelow (bound : Nat) : Int → List Sent → Prop
  | _, [] => True
  | flying, sent :: later =>
    if sent.ok = true ∧ sent.payload ≠ [] then
      flying + sent.payload.length ≤ bound ∧ FlowsBelow bound (flying + sent.payload.length) later
    else FlowsBelow bound flying later

def sentBy (env : Env) (l : Line) : List Sent := (tcpPump env l).out.drop l.out.length

/-- The call of `tcp_pump` for an acknowledgement. -/
def ackCall (env : Env) (seg : Segment) (c : Conn) : List Line :=
  let c := { c with lastMs := env.now, peerWin := seg.win }
  if seg.flags.ack ∧ 0 < c.sndLen then [⟨slide c seg.ack, []⟩] else []

/-- The line with which `tcp_send_response` calls `tcp_pump`. -/
def queue (env : Env) (l : Line) : Line :=
  let body := env.response.take tcpSndBuf
  { l with conn := { l.conn with
    snd := body
    sndLen := body.length
    sndUna := 0
    sndNxt := 0
    sndSeq0 := l.conn.mySeq
    sndRetries := 0
    sndFinPending := true
    sndLastTxMs := env.respNow } }

def dataCall (env : Env) (s : Server) (seg : Segment) (l : Line) : List Line :=
  let c := acceptConn l.conn seg
  if httpComplete (acceptReq s.req l.conn seg) then
    [queue env ⟨c, (tcpSend env ⟨c, l.out⟩ flagsAck []).2⟩]
  else []

def finCall (env : Env) (seg : Segment) (l : Line) : List Line :=
  let c := { l.conn with peerSeq := add64 seg.seq 1, peerFin := true }
  if c.sndNxt < c.sndLen ∨ c.sndFinPending = true then
    [⟨c, (tcpSend env ⟨c, l.out⟩ flagsAck []).2⟩]
  else []

def establishedCalls (env : Env) (s : Server) (seg : Segment) (l : Line) : List Line :=
  if seg.flags.rst then []
  else
    let after : Line :=
      if seg.data ≠ [] then ⟨(onData env s seg l).1.conn, (onData env s seg l).2⟩ else l
    (if seg.data ≠ [] then dataCall env s seg l else []) ++
      if seg.flags.fin then finCall env seg after else []

def receiveCalls (env : Env) (s : Server) (seg : Segment) : List Line :=
  let l := touch env seg s.conn
  ackCall env seg s.conn ++
    if l.conn.state = .established ∧ FromPeer l.conn seg then establishedCalls env s seg l else []

/-- Where an event calls `tcp_pump`, in order. -/
def pumpCalls (s : Server) : Event → List Line
  | .packet frame via env =>
    if ForUs s frame via ∧ WellSized frame then receiveCalls env s (segmentOf frame) else []
  | .tick env =>
    if RtoExpired s.conn env.now ∧ s.conn.sndRetries < tcpMaxRetries then
      [⟨{ s.conn with sndNxt := s.conn.sndUna, sndRetries := s.conn.sndRetries + 1 }, []⟩]
    else []
  | .reap _ | .listen _ | .setIp _ => []

def advertised (s : Server) (win : Nat) : Event → Nat
  | .packet frame via _ =>
    if ForUs s frame via ∧ WellSized frame ∧ (FromPeer s.conn (segmentOf frame) ∨
        (s.conn.state = .closed ∨ s.conn.state = .listen) ∧ (segmentOf frame).flags.syn) then
      (segmentOf frame).win
    else win
  | .tick _ | .reap _ | .listen _ | .setIp _ => win

/-- The server together with the window that the peer advertised last. -/
structure Session where
  server : Server
  window : Nat

def Session.step (h : Session) (e : Event) : Session :=
  ⟨(TcpHandler.step h.server e).1, advertised h.server h.window e⟩

def session (ip wifiIp : List UInt8) (ops : List Event) : Session :=
  ops.foldl Session.step ⟨boot ip wifiIp, 0⟩

/-- The whole segments that a call of the pump begins below its limit end within a bound, or the
rest of the response does. -/
def Fits (c : Conn) (bound : Nat) : Prop :=
  c.sndNxt < c.sndLen → inFlight c < pumpLimit c.peerWin →
    inFlight c + (c.sndLen - c.sndNxt) ≤ bound ∨
      inFlight c + tcpMss * ((pumpLimit c.peerWin - inFlight c + (tcpMss - 1)) / tcpMss) ≤ bound

instance (c : Conn) (bound : Nat) : Decidable (Fits c bound) :=
  inferInstanceAs (Decidable (_ → _))

section Loop

theorem FlowsBelow.append_empty {bound : Nat} {fin : List Sent}
    (empty : ∀ sent ∈ fin, sent.payload = []) (out : List Sent) : ∀ {flying : Int},
    FlowsBelow bound flying (out ++ fin) ↔ FlowsBelow bound flying out := by
  induction out with
  | nil =>
    intro flying
    refine iff_of_true ?_ trivial
    induction fin generalizing flying with
    | nil => trivial
    | cons sent fin ih =>
      have none : ¬ (sent.ok = true ∧ sent.payload ≠ []) :=
        fun data => data.2 (empty sent List.mem_cons_self)
      rw [List.nil_append, FlowsBelow, if_neg none]
      exact ih fun later listed => empty later (List.mem_cons_of_mem _ listed)
  | cons sent out ih =>
    intro flying
    rw [List.cons_append, FlowsBelow, FlowsBelow]
    split_ifs
    · rw [ih]
    · exact ih

variable {env : Env} {l : Line} {bound : Nat}

theorem chunk_length {c : Conn} (stored : c.sndLen ≤ c.snd.length) (ok : Bool) :
    (chunk c ok).payload.length = min (c.sndLen - c.sndNxt) tcpMss := by
  change ((c.snd.drop c.sndNxt).take _).length = _
  rw [List.length_take, List.length_drop]
  omega

theorem FlowsBelow.chunk_refused (c : Conn) (flying : Int) :
    FlowsBelow bound flying [chunk c false] := by
  have refused : ¬ ((chunk c false).ok = true ∧ (chunk c false).payload ≠ []) := by
    rintro ⟨taken, _⟩
    cases taken
  rw [FlowsBelow, if_neg refused]
  trivial

theorem FlowsBelow.chunk_taken {c : Conn} (stored : c.sndLen ≤ c.snd.length)
    (room : c.sndNxt < c.sndLen) (t : Nat) (later : List Sent) :
    FlowsBelow bound (inFlight c) (chunk c true :: later) ↔
      inFlight (sentOne c t) ≤ bound ∧ FlowsBelow bound (inFlight (sentOne c t)) later := by
  have length := chunk_length stored true
  have data : (chunk c true).ok = true ∧ (chunk c true).payload ≠ [] := by
    refine ⟨rfl, fun empty => ?_⟩
    rw [empty, List.length_nil] at length
    unfold tcpMss at length
    omega
  have flying : inFlight c + (chunk c true).payload.length = inFlight (sentOne c t) := by
    rw [length]
    unfold inFlight sentOne
    simp only
    omega
  rw [FlowsBelow, if_pos data, flying]

theorem Fits.sentOne {c : Conn} (fits : Fits c bound) (room : c.sndNxt < c.sndLen)
    (below : inFlight c < pumpLimit c.peerWin) (t : Nat) :
    inFlight (sentOne c t) ≤ bound ∧ Fits (sentOne c t) bound := by
  have case := fits room below
  unfold Fits inFlight TcpPump.sentOne at *
  simp only at *
  unfold tcpMss at *
  constructor <;> omega

theorem not_fits_sentOne {c : Conn} (exceeds : ¬ Fits c bound) (t : Nat)
    (within : inFlight (TcpPump.sentOne c t) ≤ bound) : ¬ Fits (TcpPump.sentOne c t) bound := by
  unfold Fits inFlight TcpPump.sentOne at *
  simp only at *
  unfold tcpMss at *
  omega

theorem pumpLoop_flows (env : Env) (fuel : Nat) (stored : l.conn.sndLen ≤ l.conn.snd.length)
    (fits : Fits l.conn bound) : ∃ out, (pumpLoop env fuel l).out = l.out ++ out ∧
      FlowsBelow bound (inFlight l.conn) out := by
  induction fuel generalizing l with
  | zero => exact ⟨[], (List.append_nil _).symm, trivial⟩
  | succ fuel ih =>
    by_cases sendable : Sendable l.conn
    · cases taken : env.tx l.out.length with
      | none =>
        rw [pumpLoop_refused fuel sendable taken]
        exact ⟨_, rfl, .chunk_refused _ _⟩
      | some t =>
        rw [pumpLoop_taken fuel sendable taken]
        obtain ⟨within, still⟩ := fits.sentOne sendable.1 sendable.2 t
        obtain ⟨out, run, flows⟩ := ih (l := ⟨sentOne l.conn t, l.out ++ [chunk l.conn true]⟩)
          stored still
        refine ⟨chunk l.conn true :: out, ?_, ?_⟩
        · rw [run, List.append_assoc]
          rfl
        · exact (FlowsBelow.chunk_taken stored sendable.1 t out).mpr ⟨within, flows⟩
    · rw [pumpLoop_stop (fuel + 1) sendable]
      exact ⟨[], (List.append_nil _).symm, trivial⟩

/-- A transmitter that takes every segment brings the bytes in flight over a bound in which the
segments do not fit. -/
theorem pumpLoop_exceeds (takes : ∀ k, env.tx k ≠ none) (fuel : Nat)
    (enough : l.conn.sndLen - l.conn.sndNxt ≤ fuel) (stored : l.conn.sndLen ≤ l.conn.snd.length)
    (exceeds : ¬ Fits l.conn bound) : ∃ out, (pumpLoop env fuel l).out = l.out ++ out ∧
      ¬ FlowsBelow bound (inFlight l.conn) out := by
  induction fuel generalizing l with
  | zero =>
    refine absurd (fun room => ?_) exceeds
    omega
  | succ fuel ih =>
    have sendable : Sendable l.conn := by
      by_contra stop
      exact exceeds fun room below => absurd ⟨room, below⟩ stop
    obtain ⟨t, taken⟩ := Option.ne_none_iff_exists'.mp (takes l.out.length)
    rw [pumpLoop_taken fuel sendable taken]
    by_cases within : inFlight (sentOne l.conn t) ≤ bound
    · have less : (sentOne l.conn t).sndLen - (sentOne l.conn t).sndNxt ≤ fuel := by
        have forward := sendable.1
        unfold sentOne tcpMss
        simp only
        omega
      obtain ⟨out, run, exceeds⟩ := ih (l := ⟨sentOne l.conn t, l.out ++ [chunk l.conn true]⟩) less
        stored (not_fits_sentOne exceeds t within)
      refine ⟨chunk l.conn true :: out, ?_, fun flows => exceeds ?_⟩
      · rw [run, List.append_assoc]
        rfl
      · exact ((FlowsBelow.chunk_taken stored sendable.1 t out).mp flows).2
    · obtain ⟨_, _, _, out, run, _⟩ := pumpLoop_spec env fuel
        ⟨sentOne l.conn t, l.out ++ [chunk l.conn true]⟩
      refine ⟨chunk l.conn true :: out, ?_, fun flows => within ?_⟩
      · rw [run]
        exact List.append_assoc _ _ _
      · exact ((FlowsBelow.chunk_taken stored sendable.1 t out).mp flows).1

end Loop

section Pump

variable {env : Env} {l : Line} {bound : Nat}

theorem tcpPump_out (env : Env) (pumping : Pumping l.conn.state) :
    ∃ fin, (∀ sent ∈ fin, sent.payload = []) ∧ (tcpPump env l).out =
      (pumpLoop env (l.conn.sndLen - l.conn.sndNxt) l).out ++ fin := by
  obtain ⟨seq, nxt, last, out, run, _⟩ := pumpLoop_spec env (l.conn.sndLen - l.conn.sndNxt) l
  rw [tcpPump_run pumping run, run]
  by_cases due : l.conn.sndFinPending = true ∧ l.conn.sndLen ≤ nxt
  · have fin : ∀ ok, ∀ sent ∈ [finSegment l.conn ok], sent.payload = [] := by
      intro ok sent listed
      rw [List.mem_singleton.mp listed]
      rfl
    cases taken : env.tx (l.out ++ out).length with
    | none =>
      rw [pumpFin_refused due taken]
      exact ⟨_, fin false, rfl⟩
    | some t =>
      rw [pumpFin_taken due taken]
      exact ⟨_, fin true, rfl⟩
  · rw [pumpFin_skip due]
    exact ⟨[], fun _ listed => (List.not_mem_nil listed).elim, (List.append_nil _).symm⟩

theorem sentBy_flows {out : List Sent} (pumping : Pumping l.conn.state)
    (run : (pumpLoop env (l.conn.sndLen - l.conn.sndNxt) l).out = l.out ++ out) {flying : Int} :
    FlowsBelow bound flying (sentBy env l) ↔ FlowsBelow bound flying out := by
  obtain ⟨fin, empty, pumped⟩ := tcpPump_out env pumping
  unfold sentBy
  rw [pumped, run, List.append_assoc, List.drop_left]
  exact FlowsBelow.append_empty empty out

theorem sentBy_idle (idle : ¬ Pumping l.conn.state) : sentBy env l = [] := by
  rw [sentBy, tcpPump_idle idle, List.drop_length]

theorem sentBy_below (env : Env) (stored : l.conn.sndLen ≤ l.conn.snd.length)
    (fits : Pumping l.conn.state → Fits l.conn bound) :
    FlowsBelow bound (inFlight l.conn) (sentBy env l) := by
  by_cases pumping : Pumping l.conn.state
  · obtain ⟨out, run, flows⟩ := pumpLoop_flows env (l.conn.sndLen - l.conn.sndNxt)
      stored (fits pumping)
    exact (sentBy_flows pumping run).mpr flows
  · rw [sentBy_idle pumping]
    trivial

theorem sentBy_exceeds {env : Env} (takes : ∀ k, env.tx k ≠ none) (pumping : Pumping l.conn.state)
    (stored : l.conn.sndLen ≤ l.conn.snd.length) (exceeds : ¬ Fits l.conn bound) :
    ¬ FlowsBelow bound (inFlight l.conn) (sentBy env l) := by
  obtain ⟨out, run, exceeds⟩ := pumpLoop_exceeds takes (l.conn.sndLen - l.conn.sndNxt)
    (Nat.le_refl _) stored exceeds
  rwa [sentBy_flows pumping run]

def free : Env := ⟨0, 0, fun _ => some 0, []⟩

theorem sentBy_iff (stored : l.conn.sndLen ≤ l.conn.snd.length) :
    (∀ env, FlowsBelow bound (inFlight l.conn) (sentBy env l)) ↔
      (Pumping l.conn.state → Fits l.conn bound) := by
  constructor
  · intro below pumping
    by_contra exceeds
    exact sentBy_exceeds (fun _ => Option.some_ne_none 0) pumping stored exceeds (below free)
  · exact fun fits env => sentBy_below env stored fits

end Pump

section Stored

def Stored (c : Conn) : Prop := c.sndLen ≤ min c.snd.length tcpSndBuf

theorem Stored.held {c : Conn} (stored : Stored c) : c.sndLen ≤ c.snd.length :=
  Nat.le_trans stored (Nat.min_le_left _ _)

variable {env : Env} {s : Server} {via : Bool} {seg : Segment} {l : Line} {c c' : Conn}

theorem SameResponse.stored (same : SameResponse c c') (stored : Stored c) : Stored c' := by
  unfold Stored
  rw [same.len, same.snd]
  exact stored

theorem queue_stored (env : Env) (l : Line) : Stored (queue env l).conn :=
  Nat.le_min.mpr ⟨Nat.le_refl _, List.length_take_le _ _⟩

theorem tcpPump_stored (env : Env) (stored : Stored l.conn) : Stored (tcpPump env l).conn :=
  SameResponse.stored (tcpPump_adds env l).1 stored

theorem sendInvariant_stored : SendInvariant Stored where
  same same stored := by
    unfold Stored
    rw [same.len, same.snd]
    exact stored
  empty len _ _ := by
    unfold Stored
    omega
  pump env _ stored := tcpPump_stored env stored
  queued env l := tcpPump_stored env (queue_stored env l)
  rewind stored := stored

theorem step_stored (stored : Stored s.conn) (e : Event) : Stored (step s e).1.conn :=
  sendInvariant_stored.step stored e fun _ _ env _ _ _ =>
    SameResponse.stored (touch_adds env _ s.conn).1 stored

theorem slide_stored (stored : Stored c) (ack : Nat) : Stored (slide c ack) := by
  obtain ⟨una, retries, slid⟩ := slide_eq c ack
  rw [slid]
  exact stored

theorem ackCall_stored (stored : Stored c) : ∀ call ∈ ackCall env seg c, Stored call.conn := by
  intro call listed
  unfold ackCall at listed
  simp only at listed
  split_ifs at listed
  · rw [List.mem_singleton.mp listed]
    exact slide_stored (c := { c with lastMs := env.now, peerWin := seg.win }) stored _
  · cases listed

theorem dataCall_stored : ∀ call ∈ dataCall env s seg l, Stored call.conn := by
  intro call listed
  unfold dataCall at listed
  simp only at listed
  split_ifs at listed
  · rw [List.mem_singleton.mp listed]
    exact queue_stored env _
  · cases listed

theorem finCall_stored (stored : Stored l.conn) : ∀ call ∈ finCall env seg l, Stored call.conn := by
  intro call listed
  unfold finCall at listed
  simp only at listed
  split_ifs at listed
  · rw [List.mem_singleton.mp listed]
    exact stored
  · cases listed

theorem establishedCalls_stored (stored : Stored l.conn) :
    ∀ call ∈ establishedCalls env s seg l, Stored call.conn := by
  intro call listed
  unfold establishedCalls at listed
  simp only at listed
  split_ifs at listed with rst data fin fin
  · cases listed
  · rcases List.mem_append.mp listed with early | late
    · exact dataCall_stored call early
    · exact finCall_stored (sendInvariant_stored.data stored) call late
  · rw [List.append_nil] at listed
    exact dataCall_stored call listed
  · exact finCall_stored stored call listed
  · cases listed

theorem pumpCalls_stored (stored : Stored s.conn) (e : Event) :
    ∀ call ∈ pumpCalls s e, Stored call.conn := by
  intro call listed
  cases e with
  | packet frame via env =>
    simp only [pumpCalls, receiveCalls] at listed
    split_ifs at listed with forUs peer
    · rcases List.mem_append.mp listed with early | late
      · exact ackCall_stored stored call early
      · exact establishedCalls_stored
          (SameResponse.stored (touch_adds env (segmentOf frame) s.conn).1 stored) call late
    · rw [List.append_nil] at listed
      exact ackCall_stored stored call listed
    · cases listed
  | tick env =>
    simp only [pumpCalls] at listed
    split_ifs at listed
    · rw [List.mem_singleton.mp listed]
      exact stored
    · cases listed
  | reap now => cases listed
  | listen port => cases listed
  | setIp ip => cases listed

end Stored

def envOf : Event → Env
  | .packet _ _ env | .tick env => env
  | .reap _ | .listen _ | .setIp _ => free

theorem session_stored (ip wifiIp : List UInt8) (ops : List Event) :
    Stored (session ip wifiIp ops).server.conn := by
  have run : ∀ h : Session, Stored h.server.conn →
      Stored (ops.foldl Session.step h).server.conn := by
    induction ops with
    | nil => exact fun _ stored => stored
    | cons e ops ih => exact fun h stored => ih (h.step e) (step_stored stored e)
  exact run _ (Nat.zero_le _)

/-- Whatever happens from power-on, what is acknowledged and what is sent lies inside the queued
response, and the response inside the send buffer. -/
theorem session_offsets (ip wifiIp : List UInt8) (ops : List Event) :
    let c := (session ip wifiIp ops).server.conn
    c.sndUna ≤ c.sndLen ∧ c.sndNxt ≤ c.sndLen ∧ c.sndLen ≤ c.snd.length ∧
      c.sndLen ≤ tcpSndBuf := by
  have run : ∀ h : Session, Bounded h.server.conn →
      Bounded (ops.foldl Session.step h).server.conn := by
    induction ops with
    | nil => exact fun _ inside => inside
    | cons e ops ih => exact fun h inside => ih (h.step e) (step_bounded inside e)
  have inside := run ⟨boot ip wifiIp, 0⟩ ⟨Nat.le_refl _, Nat.le_refl _⟩
  have stored := session_stored ip wifiIp ops
  exact ⟨inside.una, inside.nxt, stored.held, Nat.le_trans stored (Nat.min_le_right _ _)⟩

/-- Throughout a history from power-on, no call of the pump brings more response bytes in flight
than one MSS and what the window that the peer advertised last allows, whatever the transmitter
takes, exactly if at every call the segments that begin below the limit fit. -/
theorem flow_bounded_iff (ip wifiIp : List UInt8) (ops : List Event) :
    (∀ k e, ops[k]? = some e →
      ∀ call ∈ pumpCalls (session ip wifiIp (ops.take k)).server e, ∀ env,
        FlowsBelow (flowBound ((session ip wifiIp (ops.take k)).step e).window)
          (inFlight call.conn) (sentBy env call)) ↔
    ∀ k e, ops[k]? = some e →
      ∀ call ∈ pumpCalls (session ip wifiIp (ops.take k)).server e, Pumping call.conn.state →
        Fits call.conn (flowBound ((session ip wifiIp (ops.take k)).step e).window) := by
  have exact : ∀ k e, ∀ call ∈ pumpCalls (session ip wifiIp (ops.take k)).server e,
      ∀ bound, (∀ env, FlowsBelow bound (inFlight call.conn) (sentBy env call)) ↔
        (Pumping call.conn.state → Fits call.conn bound) := by
    intro k e call listed bound
    exact sentBy_iff (pumpCalls_stored (session_stored ip wifiIp (ops.take k)) e call listed).held
  constructor
  · intro below k e there call listed
    exact (exact k e call listed _).mp (below k e there call listed)
  · intro fits k e there call listed
    exact (exact k e call listed _).mpr (fits k e there call listed)

deriving instance DecidableEq for Line

def open2000 : Session := session host []
  [fromClient 10 (clientSegment 1000 0 flagsSyn []) [],
    fromClient 11 (clientSegment 1001 3735928560 flagsAck []) []]

/-- The client asks with a window of 2000 bytes, and the response has 3000. -/
def asks : Event :=
  fromClient 12 { clientSegment 1001 3735928560 flagsPshAck [13, 10, 13, 10] with win := 2000 }
    (List.replicate 3000 65)

def answer : Line :=
  queue (envOf asks) ⟨{ open2000.server.conn with lastMs := 12, peerWin := 2000, peerSeq := 1005 },
    [⟨flagsAck, 3735928560, 1005, [], true⟩]⟩

/-- Two whole segments go out below a window of 2000 bytes. -/
theorem window_exceeded : answer ∈ pumpCalls open2000.server asks ∧
    (open2000.step asks).window = 2000 ∧
    ¬ FlowsBelow (flowBound 2000) (inFlight answer.conn) (sentBy (envOf asks) answer) := by
  refine ⟨by decide +kernel, by decide +kernel, ?_⟩
  apply sentBy_exceeds
  · exact fun k => Option.some_ne_none 12
  · exact .inl (by decide +kernel)
  · exact (queue_stored _ _).held
  · decide +kernel

end XinuRpi5.System.TcpFlow
