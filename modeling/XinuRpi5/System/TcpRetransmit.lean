/- source: system/tcp_server.c
   digest: The retransmission timer behind the FIN: what it sends again and what it never sends. -/

import Mathlib
import XinuRpi5.System.TcpPump

/-!
The timer decides from `snd_una`, `snd_len` and `snd_fin_pending`, and the pump clears the last
when the FIN goes out. `Book` follows the FIN of the present connection beside the server.
-/

namespace XinuRpi5.System.TcpRetransmit

open Lib.Word64
open TcpServer TcpHandler TcpPump

def TakenFin (x : Sent) : Prop := x.flags.fin = true ∧ x.ok = true

instance (x : Sent) : Decidable (TakenFin x) := inferInstanceAs (Decidable (_ ∧ _))

def Closing (c : Conn) : Prop :=
  c.sndFinPending = false ∧ c.state ≠ .synRcvd ∧ c.state ≠ .established

/-- The server, the number of the last FIN that went out on its connection, and whether an
acknowledgement that covers it has arrived. -/
structure Book where
  server : Server
  fin : Option Nat
  covered : Bool

def Opens (s s' : Server) : Prop := s.conn.state ≠ .synRcvd ∧ s'.conn.state = .synRcvd

instance (s s' : Server) : Decidable (Opens s s') := inferInstanceAs (Decidable (_ ∧ _))

/-- The event is an acknowledgement of the peer for more than the number. -/
def Covers (s : Server) (seq : Nat) : Event → Prop
  | .packet f via _ =>
    ForUs s f via ∧ WellSized f ∧ FromPeer s.conn (segmentOf f) ∧
      (segmentOf f).flags.ack = true ∧
      0 < ((segmentOf f).ack + 4294967296 - seq) % 4294967296 ∧
      ((segmentOf f).ack + 4294967296 - seq) % 4294967296 < 2147483648
  | .tick _ | .reap _ | .listen _ | .setIp _ => False

instance (s : Server) (seq : Nat) : (e : Event) → Decidable (Covers s seq e)
  | .packet .. => by unfold Covers; infer_instance
  | .tick _ | .reap _ | .listen _ | .setIp _ => instDecidableFalse

def finOf (out : List Sent) : Option Nat := (out.reverse.find? fun x => TakenFin x).map Sent.seq

def Book.step (b : Book) (e : Event) : Book :=
  let (s, out) := TcpHandler.step b.server e
  if Opens b.server s then ⟨s, none, false⟩
  else
    match finOf out with
    | some seq => ⟨s, some seq, false⟩
    | none => ⟨s, b.fin, b.covered || b.fin.any fun seq => Covers b.server seq e⟩

def book (ip wifiIp : List UInt8) (events : List Event) : Book :=
  events.foldl Book.step ⟨boot ip wifiIp, none, false⟩

def TimedOut (c : Conn) (now : Nat) : Prop :=
  c.sndLastTxMs ≤ now ∧ tcpRtoMs ≤ now - c.sndLastTxMs

instance (c : Conn) (now : Nat) : Decidable (TimedOut c now) := inferInstanceAs (Decidable (_ ∧ _))

/-- The FIN went out, nothing that covers it has arrived, retransmissions are left, and the timeout
has passed. -/
def Book.Due (b : Book) (now : Nat) : Prop :=
  b.fin.isSome = true ∧ b.covered = false ∧ b.server.conn.sndRetries < tcpMaxRetries ∧
    TimedOut b.server.conn now

instance (b : Book) (now : Nat) : Decidable (b.Due now) := inferInstanceAs (Decidable (_ ∧ _))

/-- The segment with which the unacknowledged data begins is handed to the transmitter. -/
def ResendsData (env : Env) (c : Conn) : Prop :=
  ∃ ok, chunk { c with sndNxt := c.sndUna } ok ∈ (tcpRetransmitTick env c).out

def Resends (env : Env) (c : Conn) : Prop :=
  (c.sndUna < c.sndLen → ResendsData env c) ∧
    ∃ x ∈ (tcpRetransmitTick env c).out, x.flags.fin = true

section Tick

variable {env : Env} {l : Line}

theorem pumpLoop_data (env : Env) (fuel : Nat) (l : Line) :
    ∃ out, (pumpLoop env fuel l).out = l.out ++ out ∧ ∀ x ∈ out, x.flags.fin = false := by
  have plain : ∀ ok, (chunk l.conn ok).flags.fin = false := fun _ => rfl
  induction fuel generalizing l with
  | zero => exact ⟨[], (List.append_nil _).symm, fun _ listed => (List.not_mem_nil listed).elim⟩
  | succ fuel ih =>
    by_cases sendable : Sendable l.conn
    swap
    · rw [pumpLoop_stop (fuel + 1) sendable]
      exact ⟨[], (List.append_nil _).symm, fun _ listed => (List.not_mem_nil listed).elim⟩
    cases taken : env.tx l.out.length with
    | none =>
      rw [pumpLoop_refused fuel sendable taken]
      refine ⟨_, rfl, fun x listed => ?_⟩
      rw [List.mem_singleton.mp listed]
      exact plain false
    | some t =>
      rw [pumpLoop_taken fuel sendable taken]
      obtain ⟨out, run, data⟩ := ih ⟨sentOne l.conn t, l.out ++ [chunk l.conn true]⟩ fun _ => rfl
      refine ⟨chunk l.conn true :: out, ?_, fun x listed => ?_⟩
      · rw [run, List.append_assoc]
        rfl
      · rcases List.mem_cons.mp listed with rfl | later
        · exact plain true
        · exact data x later

theorem tcpPump_settled (pumping : Pumping l.conn.state) (settled : l.conn.sndFinPending = false) :
    (tcpPump env l).out = (pumpLoop env (l.conn.sndLen - l.conn.sndNxt) l).out := by
  obtain ⟨seq, nxt, last, out, run, _⟩ := pumpLoop_spec env (l.conn.sndLen - l.conn.sndNxt) l
  rw [tcpPump_run pumping run, run, pumpFin_skip]
  rintro ⟨due, _⟩
  rw [show l.conn.sndFinPending = true from due] at settled
  exact Bool.noConfusion settled

theorem tick_no_fin (env : Env) {c : Conn} (settled : c.sndFinPending = false) :
    ∀ x ∈ (tcpRetransmitTick env c).out, x.flags.fin = false := by
  rcases tick_cases env c with ⟨_, last, run⟩ | ⟨_, _, run⟩ | ⟨expired, _, run⟩
  · rw [run]
    exact fun _ listed => (List.not_mem_nil listed).elim
  · rw [run]
    exact fun _ listed => (List.not_mem_nil listed).elim
  · rw [run, tcpPump_settled expired.2.1 settled]
    obtain ⟨out, run, data⟩ := pumpLoop_data env (c.sndLen - c.sndUna)
      ⟨{ c with sndNxt := c.sndUna, sndRetries := c.sndRetries + 1 }, []⟩
    rw [run]
    exact data

end Tick

section Steps

/-- A part of a step: it adds to the output, a FIN only when the server then is closing, and a
server that is closing stays so. -/
structure Keeps (l l' : Line) : Prop where
  grows : ∃ out, l'.out = l.out ++ out ∧ ((∃ x ∈ out, TakenFin x) → Closing l'.conn)
  stays : Closing l.conn → Closing l'.conn

variable {env : Env} {s : Server} {via : Bool} {seg : Segment} {l l' l'' : Line}

theorem Keeps.trans {m : Line} (first : Keeps l m) (later : Keeps m l'') : Keeps l l'' := by
  obtain ⟨out, grown, fin⟩ := first.grows
  obtain ⟨out', grown', fin'⟩ := later.grows
  refine ⟨⟨out ++ out', ?_, ?_⟩, fun closing => later.stays (first.stays closing)⟩
  · rw [grown', grown, List.append_assoc]
  · rintro ⟨x, listed, taken⟩
    rcases List.mem_append.mp listed with early | late
    · exact later.stays (fin ⟨x, early, taken⟩)
    · exact fin' ⟨x, late, taken⟩

theorem Keeps.of_quiet {out : List Sent} (grown : l'.out = l.out ++ out)
    (quiet : ∀ x ∈ out, x.flags.fin = false) (stays : Closing l.conn → Closing l'.conn) :
    Keeps l l' := by
  refine ⟨⟨out, grown, ?_⟩, stays⟩
  rintro ⟨x, listed, fin, _⟩
  rw [quiet x listed] at fin
  exact Bool.noConfusion fin

theorem Keeps.of_same (grown : l'.out = l.out) (stays : Closing l.conn → Closing l'.conn) :
    Keeps l l' :=
  .of_quiet (grown.trans (List.append_nil _).symm)
    (fun _ listed => (List.not_mem_nil listed).elim) stays

theorem Keeps.reply (env : Env) (l : Line) (flags : Flags) (plain : flags.fin = false) :
    Keeps l ⟨l.conn, (tcpSend env l flags []).2⟩ := by
  rw [tcpSend_empty]
  refine .of_quiet rfl (fun x listed => ?_) id
  rw [List.mem_singleton.mp listed]
  exact plain

/-- The pump sends a FIN only when it leaves the server closing. -/
theorem tcpPump_keeps (env : Env) (l : Line) : Keeps l (tcpPump env l) := by
  by_cases pumping : Pumping l.conn.state
  swap
  · rw [tcpPump_idle pumping]
    exact .of_same rfl id
  obtain ⟨seq, nxt, last, out, run, _⟩ := pumpLoop_spec env (l.conn.sndLen - l.conn.sndNxt) l
  obtain ⟨data, grown, plain⟩ := pumpLoop_data env (l.conn.sndLen - l.conn.sndNxt) l
  rw [run] at grown
  have plain : ∀ x ∈ out, x.flags.fin = false := by
    rwa [List.append_cancel_left grown]
  rw [tcpPump_run pumping run]
  by_cases due : l.conn.sndFinPending = true ∧ l.conn.sndLen ≤ nxt
  swap
  · rw [pumpFin_skip due]
    exact .of_quiet rfl plain id
  have never : ¬ Closing l.conn := by
    rintro ⟨off, _⟩
    rw [due.1] at off
    exact Bool.noConfusion off
  cases taken : env.tx (l.out ++ out).length with
  | none =>
    rw [pumpFin_refused due taken]
    refine ⟨⟨out ++ _, List.append_assoc _ _ _, ?_⟩, fun closing => (never closing).elim⟩
    rintro ⟨x, listed, fin, ok⟩
    rcases List.mem_append.mp listed with early | late
    · rw [plain x early] at fin
      exact Bool.noConfusion fin
    · rw [List.mem_singleton.mp late] at ok
      exact Bool.noConfusion ok
  | some t =>
    rw [pumpFin_taken due taken]
    have closes : Closing { l.conn with
        mySeq := add64 (add64 l.conn.sndSeq0 l.conn.sndLen) 1, sndNxt := nxt
        sndFinPending := false, sndLastTxMs := t
        state := if l.conn.peerFin then .lastAck else .finWait1 } := by
      refine ⟨rfl, ?_, ?_⟩ <;> simp only <;> split_ifs <;> decide
    exact ⟨⟨out ++ _, List.append_assoc _ _ _, fun _ => closes⟩, fun _ => closes⟩

theorem touch_keeps (env : Env) (seg : Segment) (c : Conn) :
    Keeps ⟨c, []⟩ (touch env seg c) := by
  rcases touch_cases env seg c with equal | ⟨una, retries, equal⟩
  · rw [equal]
    exact .of_same rfl id
  · rw [equal]
    refine .trans (m := ⟨{ c with
      lastMs := env.now, peerWin := seg.win, sndUna := una, sndRetries := retries }, []⟩) ?_
      (tcpPump_keeps env _)
    exact .of_same rfl id

theorem onData_keeps (estab : l.conn.state = .established) :
    Keeps l ⟨(onData env s seg l).1.conn, (onData env s seg l).2⟩ := by
  have state : (acceptConn l.conn seg).state = .established := by
    unfold acceptConn
    split_ifs <;> exact estab
  have accepted : Keeps l ⟨acceptConn l.conn seg, l.out⟩ :=
    .of_same rfl fun closing => (closing.2.2 estab).elim
  have replied := accepted.trans (.reply env ⟨acceptConn l.conn seg, l.out⟩ flagsAck rfl)
  unfold onData
  simp only
  split_ifs
  · unfold tcpSendResponse
    refine replied.trans (.trans ?_ (tcpPump_keeps env _))
    exact .of_same rfl fun closing => (closing.2.2 state).elim
  · exact replied

theorem onPeerFin_keeps :
    Keeps l ⟨(onPeerFin env s seg l).1.conn, (onPeerFin env s seg l).2⟩ := by
  have noted : Keeps l ⟨{ l.conn with peerSeq := add64 seg.seq 1, peerFin := true }, l.out⟩ :=
    .of_same rfl id
  unfold onPeerFin
  simp only
  split_ifs with rest
  · exact (noted.trans (.reply env _ flagsAck rfl)).trans (tcpPump_keeps env _)
  · rw [tcpSend_empty]
    have closes : Closing { l.conn with
        peerSeq := add64 seg.seq 1, peerFin := true, mySeq := add64 l.conn.mySeq 1
        state := .lastAck } := by
      refine ⟨?_, nofun, nofun⟩
      exact Bool.eq_false_iff.mpr fun pending => rest (.inr pending)
    exact ⟨⟨_, rfl, fun _ => closes⟩, fun _ => closes⟩

theorem onEstablished_keeps (estab : l.conn.state = .established) :
    Keeps l ⟨(onEstablished env s seg l).1.conn, (onEstablished env s seg l).2⟩ := by
  unfold onEstablished
  split_ifs with rst data fin fin
  · exact .of_same rfl fun closing => (closing.2.2 estab).elim
  · have stored : Keeps l ⟨(onData env s seg l).1.conn, (onData env s seg l).2⟩ := onData_keeps estab
    exact stored.trans onPeerFin_keeps
  · exact onData_keeps estab
  · exact onPeerFin_keeps
  · exact .of_same rfl id

theorem onSynRcvd_keeps (state : l.conn.state = .synRcvd) :
    Keeps l ⟨(onSynRcvd s seg l).1.conn, (onSynRcvd s seg l).2⟩ := by
  have never : ¬ Closing l.conn := fun closing => closing.2.1 state
  unfold onSynRcvd
  split_ifs <;> exact .of_same rfl fun closing => (never closing).elim

theorem closing_listen {c : Conn} (closing : Closing c) : Closing { c with state := .listen } :=
  ⟨closing.1, nofun, nofun⟩

theorem onFinWait1_keeps :
    Keeps l ⟨(onFinWait1 env s seg l).1.conn, (onFinWait1 env s seg l).2⟩ := by
  unfold onFinWait1
  generalize noted : (if seg.flags.ack = true ∧ seg.ack = l.conn.mySeq then
    { l.conn with finAcked := true } else l.conn) = c
  have first : Keeps l ⟨c, l.out⟩ := by
    refine .of_same rfl fun closing => ?_
    rw [← noted]
    split_ifs <;> exact closing
  have released : ∀ m : Line, Keeps l m → Keeps l
      ⟨if m.conn.finAcked = true then { m.conn with state := .listen } else m.conn, m.out⟩ := by
    intro m before
    refine before.trans (.of_same rfl fun closing => ?_)
    simp only
    split_ifs
    · exact closing_listen closing
    · exact closing
  split_ifs with fin
  · apply released
    refine first.trans (.trans (m := ⟨{ c with
      peerSeq := add64 seg.seq 1, peerFin := true }, l.out⟩) ?_ (.reply env _ flagsAck rfl))
    exact .of_same rfl id
  · exact released _ first

theorem onLastAck_keeps : Keeps l ⟨(onLastAck s seg l).1.conn, (onLastAck s seg l).2⟩ := by
  unfold onLastAck
  split_ifs
  · exact .of_same rfl closing_listen
  · exact .of_same rfl id

/-- A segment opens a connection, or it is a sequence of such parts. -/
theorem receive_keeps (env : Env) (s : Server) (via : Bool) (seg : Segment) :
    Opens s (receive env s via seg).1 ∨
      Keeps ⟨s.conn, []⟩ ⟨(receive env s via seg).1.conn, (receive env s via seg).2⟩ := by
  have touched := touch_keeps env seg s.conn
  by_cases idle : (touch env seg s.conn).conn.state = .closed ∨
      (touch env seg s.conn).conn.state = .listen
  · rw [receive_listen env s via seg idle]
    unfold onListen
    split_ifs with syn
    · left
      refine ⟨fun fresh => ?_, rfl⟩
      rcases touch_state env seg s.conn with same | ⟨pumping, _⟩
      · rw [same, fresh] at idle
        revert idle
        decide
      · rw [fresh] at pumping
        revert pumping
        decide
    · exact .inr touched
  have active := not_or.mp idle
  right
  by_cases peer : FromPeer (touch env seg s.conn).conn seg
  swap
  · rw [receive_stranger env s via seg active.1 active.2 peer]
    exact touched
  cases state : (touch env seg s.conn).conn.state with
  | closed => exact (active.1 state).elim
  | listen => exact (active.2 state).elim
  | synRcvd =>
    rw [receive_synRcvd env s via seg peer state]
    exact touched.trans (onSynRcvd_keeps state)
  | established =>
    rw [receive_established env s via seg peer state]
    exact touched.trans (onEstablished_keeps state)
  | finWait1 =>
    rw [receive_finWait1 env s via seg peer state]
    exact touched.trans onFinWait1_keeps
  | lastAck =>
    rw [receive_lastAck env s via seg peer state]
    exact touched.trans onLastAck_keeps

theorem tick_keeps (env : Env) (c : Conn) : Keeps ⟨c, []⟩ (tcpRetransmitTick env c) := by
  rcases tick_cases env c with ⟨_, last, run⟩ | ⟨_, _, run⟩ | ⟨_, _, run⟩
  · rw [run]
    exact .of_same rfl id
  · rw [run]
    exact .of_same rfl fun closing => ⟨rfl, closing.2⟩
  · rw [run]
    refine .trans (m := ⟨{ c with sndNxt := c.sndUna, sndRetries := c.sndRetries + 1 }, []⟩) ?_
      (tcpPump_keeps env _)
    exact .of_same rfl id

theorem step_keeps (s : Server) (e : Event) :
    Opens s (TcpHandler.step s e).1 ∨
      Keeps ⟨s.conn, []⟩ ⟨(TcpHandler.step s e).1.conn, (TcpHandler.step s e).2⟩ := by
  cases e with
  | packet f via env =>
    simp only [TcpHandler.step, tcpHandlePacketVia]
    split_ifs
    · exact receive_keeps env s via (segmentOf f)
    · exact .inr (.of_same rfl id)
    · exact .inr (.of_same rfl id)
  | tick env => exact .inr (tick_keeps env s.conn)
  | reap now =>
    right
    simp only [TcpHandler.step]
    rcases reap_cases now s with same | stamped | freed
    · rw [same]
      exact .of_same rfl id
    · rw [stamped]
      exact .of_same rfl id
    · rw [freed]
      exact .of_same rfl closing_listen
  | listen port => exact .inr (.of_same rfl closing_listen)
  | setIp ip => exact .inr (.of_same rfl id)

end Steps

theorem finOf_taken {out : List Sent} {seq : Nat} (found : finOf out = some seq) :
    ∃ x ∈ out, TakenFin x := by
  obtain ⟨x, first, _⟩ := Option.map_eq_some_iff.mp found
  have taken := List.find?_some first
  exact ⟨x, List.mem_reverse.mp (List.mem_of_find?_eq_some first), of_decide_eq_true taken⟩

def Book.Settled (b : Book) : Prop := b.fin.isSome = true → Closing b.server.conn

theorem Book.Settled.step {b : Book} (settled : b.Settled) (e : Event) : (b.step e).Settled := by
  unfold Book.step
  simp only
  split_ifs with opens
  · exact fun fin => Bool.noConfusion fin
  have keeps := (step_keeps b.server e).resolve_left opens
  obtain ⟨out, grown, fin⟩ := keeps.grows
  rw [List.nil_append] at grown
  cases found : finOf (TcpHandler.step b.server e).2 with
  | some seq =>
    intro _
    apply fin
    rw [← grown]
    exact finOf_taken found
  | none => exact fun sent => keeps.stays (settled sent)

theorem book_settled (ip wifiIp : List UInt8) (events : List Event) :
    (book ip wifiIp events).Settled := by
  unfold book
  have start : (⟨boot ip wifiIp, none, false⟩ : Book).Settled := fun fin => Bool.noConfusion fin
  generalize (⟨boot ip wifiIp, none, false⟩ : Book) = b at start
  induction events generalizing b with
  | nil => exact start
  | cons e events ih => exact ih (b.step e) (start.step e)

/-- In no state in which the FIN went out, no acknowledgement that covers it has arrived and
retransmissions are left does a tick behind the timeout send what is missing again: the FIN is
never among what it sends. -/
theorem lost_fin_never_resent (ip wifiIp : List UInt8) (events : List Event) (env : Env)
    (due : (book ip wifiIp events).Due env.now) :
    ¬ Resends env (book ip wifiIp events).server.conn := by
  rintro ⟨_, x, listed, fin⟩
  have closing := book_settled ip wifiIp events due.1
  rw [tick_no_fin env closing.1 x listed] at fin
  exact Bool.noConfusion fin

/-- A client that asks, is answered with three bytes and the FIN, and hears nothing. -/
def answered : List Event :=
  [fromClient 10 (clientSegment 1000 0 flagsSyn []) [],
    fromClient 11 (clientSegment 1001 3735928560 flagsAck []) [],
    fromClient 12 (clientSegment 1001 3735928560 flagsPshAck [13, 10, 13, 10]) [65, 66, 67]]

theorem lost_fin_never_resent_answered :
    ¬ Resends (clockAt 600 []) (book host [] answered).server.conn :=
  lost_fin_never_resent host [] answered (clockAt 600 []) (by decide)

/-- Half a second after the data and the FIN a tick sends the data again and nothing else. -/
theorem fin_left_out :
    (book host [] answered).Due 600 ∧ (book host [] answered).fin = some 3735928563 ∧
      (tcpRetransmitTick (clockAt 600 []) (book host [] answered).server.conn).out =
        [⟨flagsPshAck, 3735928560, 1005, [65, 66, 67], true⟩] := by
  decide

end XinuRpi5.System.TcpRetransmit
