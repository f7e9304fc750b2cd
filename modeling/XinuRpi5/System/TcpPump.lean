/- source: system/tcp_server.c
   digest: What one call of the send pump can change, and the bounds every step keeps. -/

import XinuRpi5.Lib.GuardedRuns
import XinuRpi5.System.TcpHandler

namespace XinuRpi5.System.TcpPump

open Lib.GuardedRuns Lib.Word64
open TcpServer TcpHandler

theorem tcpSend_fits (env : Env) (l : Line) (flags : Flags) {payload : List UInt8}
    (fits : payload.length ≤ tcpMss) :
    tcpSend env l flags payload = (env.tx l.out.length, l.out ++
      [⟨flags, cut32 l.conn.mySeq, cut32 l.conn.peerSeq, payload,
        (env.tx l.out.length).isSome⟩]) := by
  unfold tcpMss at fits
  rw [tcpSend, if_neg (by omega)]

theorem tcpSend_empty (env : Env) (l : Line) (flags : Flags) :
    tcpSend env l flags [] = (env.tx l.out.length, l.out ++
      [⟨flags, cut32 l.conn.mySeq, cut32 l.conn.peerSeq, [], (env.tx l.out.length).isSome⟩]) :=
  tcpSend_fits env l flags (by simp)

theorem chunk_fits (snd : List UInt8) (nxt room : Nat) :
    ((snd.drop nxt).take (min room tcpMss)).length ≤ tcpMss := by
  rw [List.length_take]
  omega

def chunk (c : Conn) (ok : Bool) : Sent :=
  ⟨flagsPshAck, cut32 (add64 c.sndSeq0 c.sndNxt), cut32 c.peerSeq,
    (c.snd.drop c.sndNxt).take (min (c.sndLen - c.sndNxt) tcpMss), ok⟩

/-- The connection after a round whose segment went out at time `t`. -/
def sentOne (c : Conn) (t : Nat) : Conn :=
  { c with
    mySeq := add64 c.sndSeq0 c.sndNxt
    sndNxt := c.sndNxt + min (c.sndLen - c.sndNxt) tcpMss
    sndLastTxMs := t }

variable {l : Line} {c : Conn}

variable {env : Env} {s : Server} {seg : Segment}

theorem pumpLoop_refused (fuel : Nat) (sendable : Sendable l.conn)
    (refused : env.tx l.out.length = none) :
    pumpLoop env (fuel + 1) l =
      ⟨{ l.conn with mySeq := add64 l.conn.sndSeq0 l.conn.sndNxt },
        l.out ++ [chunk l.conn false]⟩ := by
  rw [pumpLoop, if_pos sendable]
  simp only [tcpSend_fits env _ flagsPshAck (chunk_fits _ _ _), refused]
  rfl

theorem pumpLoop_taken {t : Nat} (fuel : Nat)
    (sendable : Sendable l.conn) (taken : env.tx l.out.length = some t) :
    pumpLoop env (fuel + 1) l =
      pumpLoop env fuel ⟨sentOne l.conn t, l.out ++ [chunk l.conn true]⟩ := by
  rw [pumpLoop, if_pos sendable]
  simp only [tcpSend_fits env _ flagsPshAck (chunk_fits _ _ _), taken]
  rfl

theorem pumpLoop_stop (fuel : Nat) (stop : ¬ Sendable l.conn) :
    pumpLoop env fuel l = l := by
  cases fuel with
  | zero => rfl
  | succ fuel => rw [pumpLoop, if_neg stop]

/-- The loop moves `snd_nxt` towards `snd_len`, rewrites `my_seq` and stamps the
transmission time; it appends to the output. -/
theorem pumpLoop_spec (env : Env) (fuel : Nat) (l : Line) :
    ∃ seq nxt last out, pumpLoop env fuel l =
        ⟨{ l.conn with mySeq := seq, sndNxt := nxt, sndLastTxMs := last }, l.out ++ out⟩ ∧
      l.conn.sndNxt ≤ nxt ∧ (l.conn.sndNxt ≤ l.conn.sndLen → nxt ≤ l.conn.sndLen) ∧
      (l.conn.sndLen = 0 → seq = l.conn.mySeq) := by
  have still : ∃ seq nxt last out,
      l = ⟨{ l.conn with mySeq := seq, sndNxt := nxt, sndLastTxMs := last }, l.out ++ out⟩ ∧
      l.conn.sndNxt ≤ nxt ∧ (l.conn.sndNxt ≤ l.conn.sndLen → nxt ≤ l.conn.sndLen) ∧
      (l.conn.sndLen = 0 → seq = l.conn.mySeq) :=
    ⟨l.conn.mySeq, l.conn.sndNxt, l.conn.sndLastTxMs, [], by simp, Nat.le_refl _, id,
      fun _ => rfl⟩
  induction fuel generalizing l with
  | zero => exact still
  | succ fuel ih =>
    by_cases sendable : Sendable l.conn
    · have room := sendable.1
      cases taken : env.tx l.out.length with
      | none =>
        refine ⟨_, _, _, _, pumpLoop_refused fuel sendable taken, Nat.le_refl _, id, ?_⟩
        intro empty
        omega
      | some t =>
        obtain ⟨seq, nxt, last, out, run, low, high, _⟩ :=
          ih ⟨sentOne l.conn t, l.out ++ [chunk l.conn true]⟩
            ⟨(sentOne l.conn t).mySeq, (sentOne l.conn t).sndNxt, (sentOne l.conn t).sndLastTxMs, [],
              by simp, Nat.le_refl _, id, fun _ => rfl⟩
        have step : l.conn.sndNxt + min (l.conn.sndLen - l.conn.sndNxt) tcpMss ≤ nxt := low
        refine ⟨seq, nxt, last, chunk l.conn true :: out, ?_, by omega, fun _ => high ?_, ?_⟩
        · rw [pumpLoop_taken fuel sendable taken, run, List.append_assoc]
          rfl
        · change l.conn.sndNxt + min (l.conn.sndLen - l.conn.sndNxt) tcpMss ≤ l.conn.sndLen
          omega
        · intro empty
          omega
    · rw [pumpLoop_stop (fuel + 1) sendable]
      exact still

/-- The effect of a pump call: only the fields it writes differ, and either the
FIN is not sent by it, or it is and takes the number behind the data. -/
structure Pumped (c c' : Conn) : Prop where
  frame : ∃ seq nxt last pending st, c' = { c with
    mySeq := seq, sndNxt := nxt, sndLastTxMs := last, sndFinPending := pending, state := st }
  forward : c.sndNxt ≤ c'.sndNxt
  bounded : c.sndNxt ≤ c.sndLen → c'.sndNxt ≤ c.sndLen
  outcome : (c'.state = c.state ∧ c'.sndFinPending = c.sndFinPending ∧
      (0 < c.sndLen → c'.mySeq = add64 c.sndSeq0 c'.sndNxt ∨
        c'.mySeq = add64 c.sndSeq0 c.sndLen ∧ c.sndLen ≤ c'.sndNxt) ∧
      (c.sndLen = 0 → c'.mySeq = c.mySeq ∨ c.sndFinPending = true ∧ c'.mySeq = add64 c.sndSeq0 0)) ∨
    (c.sndFinPending = true ∧ c'.sndFinPending = false ∧ c.sndLen ≤ c'.sndNxt ∧
      c'.mySeq = add64 (add64 c.sndSeq0 c.sndLen) 1 ∧
      c'.state = if c.peerFin then .lastAck else .finWait1)

theorem pumpFin_skip (skip : ¬ (l.conn.sndFinPending = true ∧ l.conn.sndLen ≤ l.conn.sndNxt)) :
    pumpFin env l = l := by
  rw [pumpFin, if_neg skip]

def finSegment (c : Conn) (ok : Bool) : Sent :=
  ⟨flagsFinAck, cut32 (add64 c.sndSeq0 c.sndLen), cut32 c.peerSeq, [], ok⟩

theorem pumpFin_refused (due : l.conn.sndFinPending = true ∧ l.conn.sndLen ≤ l.conn.sndNxt)
    (refused : env.tx l.out.length = none) :
    pumpFin env l = ⟨{ l.conn with mySeq := add64 l.conn.sndSeq0 l.conn.sndLen },
      l.out ++ [finSegment l.conn false]⟩ := by
  rw [pumpFin, if_pos due]
  simp only [tcpSend_empty, refused]
  rfl

theorem pumpFin_taken {t : Nat} (due : l.conn.sndFinPending = true ∧ l.conn.sndLen ≤ l.conn.sndNxt)
    (taken : env.tx l.out.length = some t) :
    pumpFin env l = ⟨{ l.conn with
        mySeq := add64 (add64 l.conn.sndSeq0 l.conn.sndLen) 1
        sndFinPending := false
        state := if l.conn.peerFin then .lastAck else .finWait1
        sndLastTxMs := t }, l.out ++ [finSegment l.conn true]⟩ := by
  rw [pumpFin, if_pos due]
  simp only [tcpSend_empty, taken]
  rfl

theorem active_of {st st' : TcpState} (is : st = st') (open' : st' ≠ .closed ∧ st' ≠ .listen) :
    st ≠ .closed ∧ st ≠ .listen := is ▸ open'

theorem tcpPump_idle (idle : ¬ Pumping l.conn.state) :
    tcpPump env l = l := by
  rw [tcpPump, if_neg idle]

/-- Where `my_seq` stands between the loop and the FIN. -/
def reseat (c : Conn) (seq nxt : Nat) : Nat :=
  if 0 < c.sndLen then add64 c.sndSeq0 nxt else seq

theorem tcpPump_run (pumping : Pumping l.conn.state) {seq nxt last : Nat}
    {out : List Sent} (run : pumpLoop env (l.conn.sndLen - l.conn.sndNxt) l =
      ⟨{ l.conn with mySeq := seq, sndNxt := nxt, sndLastTxMs := last }, l.out ++ out⟩) :
    tcpPump env l = pumpFin env ⟨{ l.conn with
      mySeq := reseat l.conn seq nxt, sndNxt := nxt, sndLastTxMs := last }, l.out ++ out⟩ := by
  rw [tcpPump, if_pos pumping, run]
  unfold reseat
  simp only
  split_ifs <;> rfl

theorem tcpPump_spec (env : Env) {l : Line} (pumping : Pumping l.conn.state) :
    Pumped l.conn (tcpPump env l).conn ∧ ∃ out, (tcpPump env l).out = l.out ++ out := by
  obtain ⟨seq, nxt, last, out, run, low, high, keep⟩ :=
    pumpLoop_spec env (l.conn.sndLen - l.conn.sndNxt) l
  rw [tcpPump_run pumping run]
  by_cases due : l.conn.sndFinPending = true ∧ l.conn.sndLen ≤ nxt
  · cases taken : env.tx (l.out ++ out).length with
    | none =>
      rw [pumpFin_refused due taken]
      refine ⟨⟨⟨_, _, _, _, _, rfl⟩, low, high, .inl ⟨rfl, rfl, ?_, ?_⟩⟩, _,
        List.append_assoc _ _ _⟩
      · intro _
        exact .inr ⟨rfl, due.2⟩
      · intro empty
        refine .inr ⟨due.1, ?_⟩
        rw [← empty]
    | some t =>
      rw [pumpFin_taken due taken]
      exact ⟨⟨⟨_, _, _, _, _, rfl⟩, low, high, .inr ⟨due.1, rfl, due.2, rfl, rfl⟩⟩, _,
        List.append_assoc _ _ _⟩
  · rw [pumpFin_skip due]
    refine ⟨⟨⟨_, _, _, _, _, rfl⟩, low, high, .inl ⟨rfl, rfl, ?_, ?_⟩⟩, out, rfl⟩
    · intro data
      exact .inl (if_pos data)
    · intro empty
      left
      change reseat l.conn seq nxt = _
      rw [reseat, if_neg (by omega), keep empty]

theorem slide_eq (c : Conn) (ack : Nat) :
    ∃ una retries, slide c ack = { c with sndUna := una, sndRetries := retries } := by
  unfold slide
  split_ifs
  · exact ⟨_, _, rfl⟩
  · exact ⟨c.sndUna, c.sndRetries, rfl⟩

theorem touch_cases (env : Env) (seg : Segment) (c : Conn) :
    touch env seg c = ⟨{ c with lastMs := env.now, peerWin := seg.win }, []⟩ ∨
      ∃ una retries, touch env seg c = tcpPump env ⟨{ c with
        lastMs := env.now, peerWin := seg.win, sndUna := una, sndRetries := retries }, []⟩ := by
  unfold touch
  simp only
  split_ifs
  · obtain ⟨una, retries, slid⟩ := slide_eq { c with lastMs := env.now, peerWin := seg.win } seg.ack
    refine .inr ⟨una, retries, ?_⟩
    unfold tcpOnAck
    rw [slid]
  · exact .inl rfl

theorem touch_eq (env : Env) (seg : Segment) (c : Conn) :
    ∃ una retries seq nxt last pending st, (touch env seg c).conn = { c with
      lastMs := env.now, peerWin := seg.win, sndUna := una, sndRetries := retries
      mySeq := seq, sndNxt := nxt, sndLastTxMs := last, sndFinPending := pending
      state := st } := by
  rcases touch_cases env seg c with equal | ⟨una, retries, equal⟩
  · rw [equal]
    exact ⟨c.sndUna, c.sndRetries, c.mySeq, c.sndNxt, c.sndLastTxMs, c.sndFinPending, c.state, rfl⟩
  · rw [equal]
    by_cases pumping : Pumping c.state
    · obtain ⟨seq, nxt, last, pending, st, equal⟩ := (tcpPump_spec env
        (l := ⟨{ c with
          lastMs := env.now, peerWin := seg.win, sndUna := una, sndRetries := retries }, []⟩)
        pumping).1.frame
      exact ⟨una, retries, seq, nxt, last, pending, st, equal⟩
    · rw [tcpPump_idle pumping]
      exact ⟨una, retries, c.mySeq, c.sndNxt, c.sndLastTxMs, c.sndFinPending, c.state, rfl⟩

theorem touch_state (env : Env) (seg : Segment) (c : Conn) :
    (touch env seg c).conn.state = c.state ∨
      Pumping c.state ∧ ((touch env seg c).conn.state = .finWait1 ∨
        (touch env seg c).conn.state = .lastAck) := by
  rcases touch_cases env seg c with equal | ⟨una, retries, equal⟩
  · rw [equal]
    exact .inl rfl
  · rw [equal]
    by_cases pumping : Pumping c.state
    · rcases (tcpPump_spec env (l := ⟨{ c with
          lastMs := env.now, peerWin := seg.win, sndUna := una, sndRetries := retries }, []⟩)
        pumping).1.outcome with ⟨same, _⟩ | ⟨_, _, _, _, moved⟩
      · exact .inl same
      · refine .inr ⟨pumping, ?_⟩
        rw [moved]
        split_ifs
        · exact .inr rfl
        · exact .inl rfl
    · rw [tcpPump_idle pumping]
      exact .inl rfl

theorem touch_empty (env : Env) (seg : Segment) {c : Conn} (empty : c.sndLen = 0) :
    touch env seg c = ⟨{ c with lastMs := env.now, peerWin := seg.win }, []⟩ := by
  have none : ¬ (seg.flags.ack = true ∧ 0 < c.sndLen) := by
    rintro ⟨_, data⟩
    omega
  unfold touch
  simp only [if_neg none]

theorem touch_fromPeer (env : Env) (seg : Segment) (c : Conn) :
    FromPeer (touch env seg c).conn seg ↔ FromPeer c seg := by
  obtain ⟨una, retries, seq, nxt, last, pending, st, equal⟩ := touch_eq env seg c
  rw [equal]
  rfl

structure Bounded (c : Conn) : Prop where
  una : c.sndUna ≤ c.sndLen
  nxt : c.sndNxt ≤ c.sndLen

theorem Pumped.bounded_of {c' : Conn} (pumped : Pumped c c') (h : Bounded c) : Bounded c' := by
  have high := pumped.bounded h.nxt
  obtain ⟨seq, nxt, last, pending, st, rfl⟩ := pumped.frame
  exact ⟨h.una, high⟩

theorem tcpPump_bounded (h : Bounded l.conn) :
    Bounded (tcpPump env l).conn := by
  by_cases pumping : Pumping l.conn.state
  · exact (tcpPump_spec env pumping).1.bounded_of h
  · rw [tcpPump_idle pumping]
    exact h

theorem slide_bounded (h : Bounded c) (ack : Nat) : Bounded (slide c ack) := by
  unfold slide
  split_ifs with slides
  · exact ⟨slides.2.1, h.nxt⟩
  · exact h

theorem touch_bounded (h : Bounded c) (env : Env) (seg : Segment) :
    Bounded (touch env seg c).conn := by
  unfold touch
  simp only
  split_ifs
  · exact tcpPump_bounded (slide_bounded (c := { c with lastMs := env.now, peerWin := seg.win })
      ⟨h.una, h.nxt⟩ seg.ack)
  · exact ⟨h.una, h.nxt⟩

theorem tcpSendResponse_bounded (env : Env) (l : Line) :
    Bounded (tcpSendResponse env l).conn :=
  tcpPump_bounded ⟨Nat.zero_le _, Nat.zero_le _⟩

/-- The fields that the send window is made of. -/
structure SameSend (c c' : Conn) : Prop where
  snd : c'.snd = c.snd
  len : c'.sndLen = c.sndLen
  una : c'.sndUna = c.sndUna
  nxt : c'.sndNxt = c.sndNxt

/-- A property of the send window that the pump keeps, also from the first
unacknowledged byte again, and that a new response has. -/
structure SendInvariant (I : Conn → Prop) : Prop where
  same : ∀ {c c' : Conn}, SameSend c c' → I c → I c'
  empty : ∀ {c : Conn}, c.sndLen = 0 → c.sndUna = 0 → c.sndNxt = 0 → I c
  pump : ∀ (env : Env) {l : Line}, I l.conn → I (tcpPump env l).conn
  queued : ∀ (env : Env) (l : Line), I (tcpSendResponse env l).conn
  rewind : ∀ {c : Conn}, I c → I { c with sndNxt := c.sndUna }

theorem sendInvariant_bounded : SendInvariant Bounded where
  same same h := ⟨by rw [same.una, same.len]; exact h.una, by rw [same.nxt, same.len]; exact h.nxt⟩
  empty len una nxt := ⟨by omega, by omega⟩
  pump _ _ h := tcpPump_bounded h
  queued env l := tcpSendResponse_bounded env l
  rewind h := ⟨h.una, h.una⟩

namespace SendInvariant

variable {I : Conn → Prop} (inv : SendInvariant I)

include inv

theorem data (h : I l.conn) : I (onData env s seg l).1.conn := by
  have same : ∀ {c : Conn}, SameSend l.conn c → I c := fun same => inv.same same h
  unfold onData
  simp only
  split_ifs
  · exact inv.queued env _
  · unfold acceptConn
    split_ifs
    · exact same ⟨rfl, rfl, rfl, rfl⟩
    · exact h

theorem peerFin (h : I l.conn) : I (onPeerFin env s seg l).1.conn := by
  have same : ∀ {c : Conn}, SameSend l.conn c → I c := fun same => inv.same same h
  unfold onPeerFin
  simp only
  split_ifs
  · exact inv.pump env (same ⟨rfl, rfl, rfl, rfl⟩)
  · exact same ⟨rfl, rfl, rfl, rfl⟩

theorem established (h : I l.conn) : I (onEstablished env s seg l).1.conn := by
  unfold onEstablished
  split_ifs with rst data fin fin
  · refine inv.same ?_ h
    exact ⟨rfl, rfl, rfl, rfl⟩
  · exact inv.peerFin (inv.data h)
  · exact inv.data h
  · exact inv.peerFin h
  · exact h

theorem received {via : Bool} (touched : I (touch env seg s.conn).conn) :
    I (receive env s via seg).1.conn := by
  unfold receive
  generalize touch env seg s.conn = l at touched
  have opened : I (onListen env s via seg l).1.conn := by
    unfold onListen
    split_ifs
    · exact inv.empty rfl rfl rfl
    · exact touched
  have same : ∀ {c : Conn}, SameSend l.conn c → I c := fun same => inv.same same touched
  simp only
  split
  · exact opened
  · exact opened
  · split_ifs
    · split
      · unfold onSynRcvd
        split_ifs <;> exact same ⟨rfl, rfl, rfl, rfl⟩
      · exact inv.established touched
      · unfold onFinWait1
        simp only
        split_ifs <;> exact same ⟨rfl, rfl, rfl, rfl⟩
      · unfold onLastAck
        split_ifs <;> exact same ⟨rfl, rfl, rfl, rfl⟩
    · exact touched

end SendInvariant

section Dispatch

variable (env : Env) (s : Server) (via : Bool) (seg : Segment)

theorem receive_listen (idle : (touch env seg s.conn).conn.state = .closed ∨
    (touch env seg s.conn).conn.state = .listen) :
    receive env s via seg = onListen env s via seg (touch env seg s.conn) := by
  unfold receive
  rcases idle with closed | listen
  · simp only [closed]
  · simp only [listen]

theorem receive_stranger (closed : (touch env seg s.conn).conn.state ≠ .closed)
    (listen : (touch env seg s.conn).conn.state ≠ .listen)
    (stranger : ¬ FromPeer (touch env seg s.conn).conn seg) :
    receive env s via seg =
      ({ s with conn := (touch env seg s.conn).conn }, (touch env seg s.conn).out) := by
  unfold receive
  cases state : (touch env seg s.conn).conn.state with
  | closed => exact (closed state).elim
  | listen => exact (listen state).elim
  | synRcvd | established | finWait1 | lastAck => simp only [if_neg stranger]

variable (peer : FromPeer (touch env seg s.conn).conn seg)

include peer

theorem receive_synRcvd (state : (touch env seg s.conn).conn.state = .synRcvd) :
    receive env s via seg = onSynRcvd s seg (touch env seg s.conn) := by
  unfold receive
  simp only [state, if_pos peer]

theorem receive_established (state : (touch env seg s.conn).conn.state = .established) :
    receive env s via seg = onEstablished env s seg (touch env seg s.conn) := by
  unfold receive
  simp only [state, if_pos peer]

theorem receive_finWait1 (state : (touch env seg s.conn).conn.state = .finWait1) :
    receive env s via seg = onFinWait1 env s seg (touch env seg s.conn) := by
  unfold receive
  simp only [state, if_pos peer]

theorem receive_lastAck (state : (touch env seg s.conn).conn.state = .lastAck) :
    receive env s via seg = onLastAck s seg (touch env seg s.conn) := by
  unfold receive
  simp only [state, if_pos peer]

end Dispatch

/-- A tick before the timeout at most stamps the transmission time; a tick that
finds the timer expired gives up or goes back to the first unacknowledged byte. -/
theorem tick_cases (env : Env) (c : Conn) :
    (¬ RtoExpired c env.now ∧ ∃ last, tcpRetransmitTick env c =
      ⟨{ c with sndLastTxMs := last }, []⟩) ∨
    (RtoExpired c env.now ∧ tcpMaxRetries ≤ c.sndRetries ∧ tcpRetransmitTick env c =
      ⟨{ c with
          sndLen := 0, sndUna := 0, sndNxt := 0, sndFinPending := false
          sndRetries := c.sndRetries + 1 }, []⟩) ∨
    (RtoExpired c env.now ∧ c.sndRetries < tcpMaxRetries ∧ tcpRetransmitTick env c =
      tcpPump env ⟨{ c with sndNxt := c.sndUna, sndRetries := c.sndRetries + 1 }, []⟩) := by
  unfold tcpRetransmitTick RtoExpired
  by_cases done : c.sndLen ≤ c.sndUna ∧ c.sndFinPending = false
  · refine .inl ⟨fun expired => ?_, c.sndLastTxMs, by rw [if_pos done]⟩
    rcases expired.1 with open' | pending
    · omega
    · rw [done.2] at pending
      exact Bool.noConfusion pending
  rw [if_neg done]
  by_cases pumping : Pumping c.state
  swap
  · exact .inl ⟨fun expired => pumping expired.2.1, c.sndLastTxMs, by rw [if_pos pumping]⟩
  rw [if_neg (not_not_intro pumping)]
  by_cases stamp : c.sndLastTxMs = 0 ∨ env.now < c.sndLastTxMs
  · exact .inl ⟨by omega, env.now, by rw [if_pos stamp]⟩
  rw [if_neg stamp]
  by_cases early : env.now - c.sndLastTxMs < tcpRtoMs
  · exact .inl ⟨by omega, c.sndLastTxMs, by rw [if_pos early]⟩
  rw [if_neg early]
  have work : c.sndUna < c.sndLen ∨ c.sndFinPending = true := by
    cases pending : c.sndFinPending with
    | true => exact .inr rfl
    | false => exact .inl (by simp only [pending, and_true] at done; omega)
  have expired : (c.sndUna < c.sndLen ∨ c.sndFinPending = true) ∧ Pumping c.state ∧
      c.sndLastTxMs ≠ 0 ∧ c.sndLastTxMs ≤ env.now ∧ tcpRtoMs ≤ env.now - c.sndLastTxMs :=
    ⟨work, pumping, by omega, by omega, by omega⟩
  by_cases gone : tcpMaxRetries < c.sndRetries + 1
  · exact .inr (.inl ⟨expired, by omega, by simp only [gone, if_true]⟩)
  · exact .inr (.inr ⟨expired, by omega, by simp only [gone, if_false]⟩)

theorem reap_cases (now : Nat) (s : Server) :
    tcpConnReap now s = s ∨
    tcpConnReap now s = { s with conn := { s.conn with lastMs := now } } ∨
    tcpConnReap now s = { s with conn := { s.conn with state := .listen }, req := [] } := by
  unfold tcpConnReap
  by_cases idle : s.conn.state = .closed ∨ s.conn.state = .listen
  · exact .inl (if_pos idle)
  rw [if_neg idle]
  by_cases stamp : s.conn.lastMs = 0 ∨ now < s.conn.lastMs
  · exact .inr (.inl (if_pos stamp))
  simp only [if_neg stamp]
  by_cases early : now - s.conn.lastMs < if s.conn.state = .established then 60000 else 5000
  · exact .inl (if_pos early)
  · exact .inr (.inr (if_neg early))

/-- An event keeps the property if the acknowledgement of its segment does. -/
theorem SendInvariant.step {I : Conn → Prop} (inv : SendInvariant I) (h : I s.conn) (e : Event)
    (touched : ∀ frame via env, e = .packet frame via env → ForUs s frame via →
      WellSized frame → I (touch env (segmentOf frame) s.conn).conn) :
    I (TcpHandler.step s e).1.conn := by
  have same : ∀ {c : Conn}, SameSend s.conn c → I c := fun same => inv.same same h
  cases e with
  | packet frame via env =>
    simp only [TcpHandler.step, tcpHandlePacketVia]
    split_ifs with forUs sized
    · exact inv.received (touched frame via env rfl forUs sized)
    · exact h
    · exact h
  | tick env =>
    rcases tick_cases env s.conn with ⟨_, last, run⟩ | ⟨_, _, run⟩ | ⟨_, _, run⟩
    · simp only [TcpHandler.step, run]
      exact same ⟨rfl, rfl, rfl, rfl⟩
    · simp only [TcpHandler.step, run]
      exact inv.empty rfl rfl rfl
    · simp only [TcpHandler.step, run]
      refine inv.pump env (inv.same ?_ (inv.rewind h))
      exact ⟨rfl, rfl, rfl, rfl⟩
  | reap now =>
    simp only [TcpHandler.step]
    rcases reap_cases now s with kept | stamped | freed
    · rw [kept]
      exact h
    · rw [stamped]
      exact same ⟨rfl, rfl, rfl, rfl⟩
    · rw [freed]
      exact same ⟨rfl, rfl, rfl, rfl⟩
  | listen port => exact same ⟨rfl, rfl, rfl, rfl⟩
  | setIp ip => exact h

theorem step_bounded (h : Bounded s.conn) (e : Event) : Bounded (step s e).1.conn :=
  sendInvariant_bounded.step h e fun _ _ env _ _ _ => touch_bounded h env _

def Reachable (ip wifiIp : List UInt8) (s : Server) : Prop :=
  Runs (fun s e => some (step s e).1) (fun _ _ => True) (boot ip wifiIp) s

theorem Reachable.bounded {ip wifiIp : List UInt8} (reach : Reachable ip wifiIp s) :
    Bounded s.conn := by
  apply Runs.invariant (I := fun s => Bounded s.conn) reach
  · exact ⟨Nat.le_refl _, Nat.le_refl _⟩
  · intro t e t' before _ next
    obtain rfl := Option.some.inj next
    exact step_bounded before e

end XinuRpi5.System.TcpPump
