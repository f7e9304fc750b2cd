/- source: system/tcp_server.c
   digest: The order of the send offsets, and the bytes that data segments carry. -/

import XinuRpi5.System.TcpFin

/-!
A response is what `tcp_send_response` copied into `snd`: its first `snd_len` bytes.
The retransmission timer takes `snd_nxt` back to `snd_una`. An acknowledgement of
the flight before may then be for more than `snd_nxt`, and the pump has to catch up
with it.
-/

namespace XinuRpi5.System.TcpWindow

open Lib.GuardedRuns Lib.Word64
open TcpServer TcpHandler TcpPump

section Window

/-- The offsets into the response are in order, and the response is stored. -/
structure Window (c : Conn) : Prop where
  una : c.sndUna ≤ c.sndNxt
  nxt : c.sndNxt ≤ c.sndLen
  len : c.sndLen ≤ tcpSndBuf
  stored : c.sndLen ≤ c.snd.length

/-- The transmitter takes the segments that the pump needs to send again before
`snd_nxt` has caught up with `una`. -/
def CatchesUp (env : Env) (sent : Nat) (c : Conn) (una : Nat) : Prop :=
  una ≤ c.sndNxt ∨ Pumping c.state ∧
    ∀ k < (una - c.sndNxt + tcpMss - 1) / tcpMss, env.tx (sent + k) ≠ none

instance (env : Env) (sent : Nat) (c : Conn) (una : Nat) :
    Decidable (CatchesUp env sent c una) := inferInstanceAs (Decidable (_ ∨ _))

variable {env : Env} {l : Line}

theorem pumpLoop_catchesUp {una : Nat} (target : l.conn.sndUna = una)
    (le : una ≤ l.conn.sndLen) (fuel : Nat) (enough : l.conn.sndLen - l.conn.sndNxt ≤ fuel)
    (taken : ∀ k < (una - l.conn.sndNxt + tcpMss - 1) / tcpMss,
      env.tx (l.out.length + k) ≠ none) : una ≤ (pumpLoop env fuel l).conn.sndNxt := by
  induction fuel generalizing l with
  | zero =>
    change una ≤ l.conn.sndNxt
    omega
  | succ fuel ih =>
    by_cases behind : l.conn.sndNxt < una
    · have sendable : Sendable l.conn := by
        refine ⟨by omega, ?_⟩
        rw [target]
        omega
      have some : env.tx l.out.length ≠ none := taken 0 (by unfold tcpMss; omega)
      obtain ⟨t, goes⟩ := Option.ne_none_iff_exists'.mp some
      rw [pumpLoop_taken fuel sendable goes]
      have forward : (sentOne l.conn t).sndNxt =
          l.conn.sndNxt + min (l.conn.sndLen - l.conn.sndNxt) tcpMss := rfl
      apply ih
      · exact target
      · exact le
      · change l.conn.sndLen - (sentOne l.conn t).sndNxt ≤ fuel
        unfold tcpMss at forward
        omega
      · intro k less
        have room : k + 1 < (una - l.conn.sndNxt + tcpMss - 1) / tcpMss := by
          change k < (una - (sentOne l.conn t).sndNxt + tcpMss - 1) / tcpMss at less
          unfold tcpMss at less forward ⊢
          omega
        have later := taken (k + 1) room
        rw [List.length_append, List.length_singleton, Nat.add_assoc, Nat.add_comm 1 k]
        exact later
    · obtain ⟨_, nxt, _, _, run, low, _⟩ := pumpLoop_spec env (fuel + 1) l
      rw [run]
      exact Nat.le_trans (Nat.not_lt.mp behind) low

theorem pumpFin_nxt (env : Env) (l : Line) : (pumpFin env l).conn.sndNxt = l.conn.sndNxt := by
  by_cases due : l.conn.sndFinPending = true ∧ l.conn.sndLen ≤ l.conn.sndNxt
  · cases taken : env.tx l.out.length with
    | none => rw [pumpFin_refused due taken]
    | some t => rw [pumpFin_taken due taken]
  · rw [pumpFin_skip due]

theorem tcpPump_nxt (env : Env) {l : Line} (pumping : Pumping l.conn.state) :
    (tcpPump env l).conn.sndNxt =
      (pumpLoop env (l.conn.sndLen - l.conn.sndNxt) l).conn.sndNxt := by
  obtain ⟨seq, nxt, last, out, run, _⟩ := pumpLoop_spec env (l.conn.sndLen - l.conn.sndNxt) l
  rw [tcpPump_run pumping run, pumpFin_nxt, run]

theorem tcpPump_window (bounded : Bounded l.conn) (len : l.conn.sndLen ≤ tcpSndBuf)
    (stored : l.conn.sndLen ≤ l.conn.snd.length)
    (catches : CatchesUp env l.out.length l.conn l.conn.sndUna) :
    Window (tcpPump env l).conn := by
  by_cases pumping : Pumping l.conn.state
  · obtain ⟨pumped, _⟩ := tcpPump_spec env pumping
    have high := pumped.bounded bounded.nxt
    have forward := pumped.forward
    have caught : l.conn.sndUna ≤ (tcpPump env l).conn.sndNxt := by
      rcases catches with order | ⟨_, taken⟩
      · exact Nat.le_trans order forward
      · rw [tcpPump_nxt env pumping]
        exact pumpLoop_catchesUp rfl bounded.una _ (Nat.le_refl _) taken
    obtain ⟨seq, nxt, last, pending, st, equal⟩ := pumped.frame
    rw [equal] at caught high ⊢
    exact ⟨caught, high, len, stored⟩
  · rw [tcpPump_idle pumping]
    exact ⟨catches.resolve_right fun h => pumping h.1, bounded.nxt, len, stored⟩

theorem Window.bounded {c : Conn} (window : Window c) : Bounded c :=
  ⟨Nat.le_trans window.una window.nxt, window.nxt⟩

theorem Window.pump {env : Env} {l : Line} (window : Window l.conn) :
    Window (tcpPump env l).conn :=
  tcpPump_window window.bounded window.len window.stored (.inl window.una)

theorem tcpSendResponse_window (env : Env) (l : Line) : Window (tcpSendResponse env l).conn := by
  apply Window.pump
  refine ⟨Nat.le_refl _, Nat.zero_le _, ?_, Nat.le_refl _⟩
  change (env.response.take tcpSndBuf).length ≤ tcpSndBuf
  rw [List.length_take]
  exact Nat.min_le_left _ _

/-- An acknowledgement either is for at most `snd_nxt`, or the pump catches up. -/
def AckCaught (env : Env) (seg : Segment) (c : Conn) : Prop :=
  seg.flags.ack = true → 0 < c.sndLen → Slides c seg.ack →
    CatchesUp env 0 c (sub64 seg.ack c.sndSeq0)

instance (env : Env) (seg : Segment) (c : Conn) : Decidable (AckCaught env seg c) :=
  inferInstanceAs (Decidable (_ → _))

theorem touch_window {env : Env} {seg : Segment} {c : Conn} (window : Window c)
    (caught : AckCaught env seg c) : Window (touch env seg c).conn := by
  unfold touch
  simp only
  split_ifs with acks
  · unfold tcpOnAck slide
    split_ifs with slides
    · refine tcpPump_window ⟨slides.2.1, window.nxt⟩ window.len window.stored ?_
      exact caught acks.1 acks.2 slides.2
    · exact Window.pump ⟨window.una, window.nxt, window.len, window.stored⟩
  · exact ⟨window.una, window.nxt, window.len, window.stored⟩

theorem sendInvariant_window : SendInvariant Window where
  same same window := by
    refine ⟨?_, ?_, ?_, ?_⟩
    · rw [same.una, same.nxt]
      exact window.una
    · rw [same.nxt, same.len]
      exact window.nxt
    · rw [same.len]
      exact window.len
    · rw [same.len, same.snd]
      exact window.stored
  empty len una nxt := by
    refine ⟨?_, ?_, ?_, ?_⟩ <;> omega
  pump _ _ window := window.pump
  queued env l := tcpSendResponse_window env l
  rewind window := ⟨Nat.le_refl _, window.bounded.una, window.len, window.stored⟩

/-- An event whose acknowledgement, if it moves `snd_una`, does not overtake
`snd_nxt` for good. -/
def KeepsUp (s : Server) : Event → Prop
  | .packet frame via env =>
    ForUs s frame via → WellSized frame → AckCaught env (segmentOf frame) s.conn
  | _ => True

instance (s : Server) : (e : Event) → Decidable (KeepsUp s e)
  | .packet frame via env => inferInstanceAs (Decidable (ForUs s frame via →
      WellSized frame → AckCaught env (segmentOf frame) s.conn))
  | .tick _ | .reap _ | .listen _ | .setIp _ => isTrue trivial

theorem step_window {s : Server} {e : Event} (window : Window s.conn) (keeps : KeepsUp s e) :
    Window (step s e).1.conn := by
  refine sendInvariant_window.step window e fun frame via env packet forUs sized => ?_
  subst packet
  exact touch_window window (keeps forUs sized)

end Window

section Segments

def response (c : Conn) : List UInt8 := c.snd.take c.sndLen

/-- A segment without data, or one with at most `TCP_MSS` bytes of the response,
from the offset on that its sequence number says. -/
def Carries (c : Conn) (sent : Sent) : Prop :=
  sent.payload = [] ∨ sent.payload.length ≤ tcpMss ∧
    ∃ offset, sent.seq = cut32 (add64 c.sndSeq0 offset) ∧
      sent.payload <+: (response c).drop offset

structure SameResponse (c c' : Conn) : Prop where
  snd : c'.snd = c.snd
  len : c'.sndLen = c.sndLen
  seq0 : c'.sndSeq0 = c.sndSeq0

variable {env : Env} {s : Server} {via : Bool} {seg : Segment} {l : Line} {c c' : Conn}

theorem SameResponse.refl (c : Conn) : SameResponse c c := ⟨rfl, rfl, rfl⟩

theorem SameResponse.carries (same : SameResponse c c') {sent : Sent} :
    Carries c' sent ↔ Carries c sent := by
  unfold Carries response
  rw [same.snd, same.len, same.seq0]

theorem chunk_carries (c : Conn) (ok : Bool) : Carries c (chunk c ok) := by
  refine .inr ⟨chunk_fits _ _ _, c.sndNxt, rfl, ?_⟩
  change (c.snd.drop c.sndNxt).take _ <+: (c.snd.take c.sndLen).drop c.sndNxt
  rw [List.drop_take]
  exact List.take_prefix_take_left (Nat.min_le_left _ _)

theorem pumpLoop_carries (env : Env) (fuel : Nat) (l : Line) :
    ∀ sent ∈ (pumpLoop env fuel l).out, sent ∈ l.out ∨ Carries l.conn sent := by
  induction fuel generalizing l with
  | zero => exact fun sent listed => .inl listed
  | succ fuel ih =>
    intro sent listed
    by_cases sendable : Sendable l.conn
    · have split : ∀ ok, sent ∈ l.out ++ [chunk l.conn ok] → sent ∈ l.out ∨ Carries l.conn sent := by
        intro ok member
        rcases List.mem_append.mp member with old | new
        · exact .inl old
        · rw [List.mem_singleton.mp new]
          exact .inr (chunk_carries l.conn ok)
      cases taken : env.tx l.out.length with
      | none =>
        rw [pumpLoop_refused fuel sendable taken] at listed
        exact split false listed
      | some t =>
        rw [pumpLoop_taken fuel sendable taken] at listed
        rcases ih _ sent listed with early | later
        · exact split true early
        · exact .inr ((SameResponse.carries (c := l.conn) ⟨rfl, rfl, rfl⟩).mp later)
    · rw [pumpLoop_stop (fuel + 1) sendable] at listed
      exact .inl listed

/-- What a function of the server adds to the output belongs to the response that
the connection has afterwards. -/
def Adds (before : List Sent) (c : Conn) (after : List Sent) : Prop :=
  ∀ sent ∈ after, sent ∈ before ∨ Carries c sent

theorem Adds.none (before : List Sent) (c : Conn) : Adds before c before :=
  fun _ listed => .inl listed

theorem Adds.trans {a b d : List Sent} (first : Adds a c b) (later : Adds b c' d)
    (same : SameResponse c c') : Adds a c' d := by
  intro sent listed
  rcases later sent listed with early | late
  · exact (first sent early).imp_right same.carries.mpr
  · exact .inr late

theorem Adds.of_new {a b d : List Sent} (empty : ∀ sent ∈ b, sent ∈ a ∨ sent.payload = [])
    (later : Adds b c d) : Adds a c d := by
  intro sent listed
  rcases later sent listed with early | late
  · exact (empty sent early).imp_right .inl
  · exact .inr late

theorem tcpSend_empty_adds (env : Env) (c : Conn) (out : List Sent) (flags : Flags) :
    ∀ sent ∈ (tcpSend env ⟨c, out⟩ flags []).2, sent ∈ out ∨ sent.payload = [] := by
  intro sent listed
  rw [tcpSend_empty] at listed
  rcases List.mem_append.mp listed with old | new
  · exact .inl old
  · rw [List.mem_singleton.mp new]
    exact .inr rfl

theorem reply_adds (env : Env) (c c' : Conn) (out : List Sent) (flags : Flags) :
    Adds out c' (tcpSend env ⟨c, out⟩ flags []).2 :=
  fun sent listed => (tcpSend_empty_adds env c out flags sent listed).imp_right .inl

theorem tcpPump_adds (env : Env) (l : Line) :
    SameResponse l.conn (tcpPump env l).conn ∧ Adds l.out l.conn (tcpPump env l).out := by
  by_cases pumping : Pumping l.conn.state
  · obtain ⟨seq, nxt, last, out, run, _⟩ := pumpLoop_spec env (l.conn.sndLen - l.conn.sndNxt) l
    have pieces := pumpLoop_carries env (l.conn.sndLen - l.conn.sndNxt) l
    rw [run] at pieces
    rw [tcpPump_run pumping run]
    by_cases due : l.conn.sndFinPending = true ∧ l.conn.sndLen ≤ nxt
    · have fin : ∀ ok, Adds l.out l.conn ((l.out ++ out) ++ [finSegment l.conn ok]) := by
        intro ok sent listed
        rcases List.mem_append.mp listed with old | new
        · exact pieces sent old
        · rw [List.mem_singleton.mp new]
          exact .inr (.inl rfl)
      cases taken : env.tx (l.out ++ out).length with
      | none =>
        rw [pumpFin_refused due taken]
        exact ⟨⟨rfl, rfl, rfl⟩, fin false⟩
      | some t =>
        rw [pumpFin_taken due taken]
        exact ⟨⟨rfl, rfl, rfl⟩, fin true⟩
    · rw [pumpFin_skip due]
      exact ⟨⟨rfl, rfl, rfl⟩, pieces⟩
  · rw [tcpPump_idle pumping]
    exact ⟨SameResponse.refl _, Adds.none _ _⟩

theorem touch_adds (env : Env) (seg : Segment) (c : Conn) :
    SameResponse c (touch env seg c).conn ∧ Adds [] c (touch env seg c).out := by
  rcases touch_cases env seg c with equal | ⟨una, retries, equal⟩
  · rw [equal]
    exact ⟨⟨rfl, rfl, rfl⟩, Adds.none _ _⟩
  · rw [equal]
    obtain ⟨same, adds⟩ := tcpPump_adds env ⟨{ c with
      lastMs := env.now, peerWin := seg.win, sndUna := una, sndRetries := retries }, []⟩
    refine ⟨⟨same.snd, same.len, same.seq0⟩, fun sent listed => ?_⟩
    exact (adds sent listed).imp_right (SameResponse.carries (c := c) ⟨rfl, rfl, rfl⟩).mp

theorem pump_behind {before : List Sent}
    (empty : ∀ sent ∈ l.out, sent ∈ before ∨ sent.payload = []) :
    Adds before (tcpPump env l).conn (tcpPump env l).out := by
  obtain ⟨same, adds⟩ := tcpPump_adds env l
  refine Adds.of_new empty ?_
  intro sent listed
  exact (adds sent listed).imp_right same.carries.mpr

theorem onData_adds : Adds l.out (onData env s seg l).1.conn (onData env s seg l).2 := by
  unfold onData
  simp only
  split_ifs
  · exact pump_behind (tcpSend_empty_adds env _ l.out flagsAck)
  · exact reply_adds env _ _ l.out flagsAck

theorem onPeerFin_adds (env : Env) (s : Server) (seg : Segment) (l : Line) :
    SameResponse l.conn (onPeerFin env s seg l).1.conn ∧
    Adds l.out (onPeerFin env s seg l).1.conn (onPeerFin env s seg l).2 := by
  unfold onPeerFin
  simp only
  split_ifs
  · have same := (tcpPump_adds env ⟨{ l.conn with peerSeq := add64 seg.seq 1, peerFin := true },
      (tcpSend env ⟨{ l.conn with peerSeq := add64 seg.seq 1, peerFin := true }, l.out⟩
        flagsAck []).2⟩).1
    exact ⟨⟨same.snd, same.len, same.seq0⟩, pump_behind (tcpSend_empty_adds env _ l.out flagsAck)⟩
  · exact ⟨⟨rfl, rfl, rfl⟩, reply_adds env _ _ l.out flagsFinAck⟩

theorem onEstablished_adds :
    Adds l.out (onEstablished env s seg l).1.conn (onEstablished env s seg l).2 := by
  unfold onEstablished
  split_ifs with rst data fin fin
  · exact Adds.none _ _
  · obtain ⟨same, adds⟩ := onPeerFin_adds env (onData env s seg l).1 seg
      ⟨(onData env s seg l).1.conn, (onData env s seg l).2⟩
    exact onData_adds.trans adds same
  · exact onData_adds
  · exact (onPeerFin_adds env s seg l).2
  · exact Adds.none _ _

/-- A segment of the handler belongs to the response before or to the one after. -/
theorem receive_carries : ∀ sent ∈ (receive env s via seg).2,
    Carries s.conn sent ∨ Carries (receive env s via seg).1.conn sent := by
  obtain ⟨_, touched⟩ := touch_adds env seg s.conn
  have first : ∀ sent ∈ (touch env seg s.conn).out, Carries s.conn sent :=
    fun sent listed => (touched sent listed).resolve_left (List.not_mem_nil)
  have rest : Adds (touch env seg s.conn).out (receive env s via seg).1.conn
      (receive env s via seg).2 := by
    unfold receive
    generalize touch env seg s.conn = l
    have opened : Adds l.out (onListen env s via seg l).1.conn (onListen env s via seg l).2 := by
      unfold onListen
      split_ifs
      · exact reply_adds env _ _ l.out flagsSynAck
      · exact Adds.none _ _
    simp only
    split
    · exact opened
    · exact opened
    · split_ifs
      · split
        · unfold onSynRcvd
          split_ifs <;> exact Adds.none _ _
        · exact onEstablished_adds
        · unfold onFinWait1
          simp only
          split_ifs <;> first
            | exact Adds.none _ _
            | exact reply_adds env _ _ l.out flagsAck
        · unfold onLastAck
          split_ifs <;> exact Adds.none _ _
      · exact Adds.none _ _
  intro sent listed
  exact (rest sent listed).imp_left (first sent)

theorem step_carries (s : Server) (e : Event) : ∀ sent ∈ (step s e).2,
    Carries s.conn sent ∨ Carries (step s e).1.conn sent := by
  intro sent listed
  cases e with
  | packet frame via env =>
    simp only [step, tcpHandlePacketVia] at listed ⊢
    split_ifs at listed ⊢ with forUs sized
    · exact receive_carries sent listed
    · cases listed
    · cases listed
  | tick env =>
    rcases tick_cases env s.conn with ⟨_, last, run⟩ | ⟨_, _, run⟩ | ⟨_, _, run⟩
    · simp only [step, run] at listed
      cases listed
    · simp only [step, run] at listed
      cases listed
    · simp only [step, run] at listed
      exact .inl (((tcpPump_adds env _).2 sent listed).resolve_left List.not_mem_nil)
  | reap now => cases listed
  | listen port => cases listed
  | setIp ip => cases listed

end Segments

/-- In every run from power-on whose acknowledgements keep up, the offsets into the
response are in order, and every event puts segments on the wire that carry at most
`TCP_MSS` bytes of the response, from the offset on that their number says. -/
theorem runs_send_window {ip wifiIp : List UInt8} {s : Server}
    (run : Runs (fun s e => some (step s e).1) KeepsUp (boot ip wifiIp) s) :
    (s.conn.sndUna ≤ s.conn.sndNxt ∧ s.conn.sndNxt ≤ s.conn.sndLen ∧
      s.conn.sndLen ≤ tcpSndBuf) ∧
      ∀ e, ∀ sent ∈ (step s e).2, Carries s.conn sent ∨ Carries (step s e).1.conn sent := by
  have window : Window s.conn := by
    apply Runs.invariant (I := fun s => Window s.conn) run
    · exact ⟨Nat.le_refl _, Nat.le_refl _, Nat.zero_le _, Nat.zero_le _⟩
    · intro t e t' before keeps next
      obtain rfl := Option.some.inj next
      exact step_window before keeps
  exact ⟨⟨window.una, window.nxt, window.len⟩, step_carries s⟩

section Cases

open TcpFin

def dataAck (tx : Nat → Option Nat) : Event :=
  .packet (frameOf host 23 (clientSegment 1005 3735928563 flagsAck [])) false ⟨601, 601, tx, []⟩

def answered : Server := (step shaken (fromClient 12 request [65, 66, 67])).1

def expired : Event := .tick ⟨600, 600, fun _ => none, []⟩

theorem runs_send_window_answered :
    (answered.conn.sndUna ≤ answered.conn.sndNxt ∧ answered.conn.sndNxt ≤ answered.conn.sndLen ∧
      answered.conn.sndLen ≤ tcpSndBuf) ∧ answered.conn.sndNxt = 3 := by
  have start : Runs (fun s e => some (step s e).1) KeepsUp (boot host []) (boot host []) :=
    Runs.refl _
  have syn : KeepsUp (boot host []) (fromClient 10 (clientSegment 1000 0 flagsSyn []) []) := by
    decide
  have ack : KeepsUp (step (boot host []) (fromClient 10 (clientSegment 1000 0 flagsSyn []) [])).1
      (fromClient 11 (clientSegment 1001 3735928560 flagsAck []) []) := by
    decide
  have asked : KeepsUp shaken (fromClient 12 request [65, 66, 67]) := by decide
  have run : Runs (fun s e => some (step s e).1) KeepsUp (boot host []) answered :=
    ((start.snoc syn rfl).snoc ack rfl).snoc asked rfl
  exact ⟨(runs_send_window run).1, by decide⟩

/-- The timer goes back to the first byte, the transmitter is busy, and then the
acknowledgement of the flight before arrives: `snd_una` overtakes `snd_nxt`. -/
theorem late_ack_overtakes :
    ∃ s, Reachable host [] s ∧ s.conn.sndNxt = 0 ∧ s.conn.sndUna = 3 ∧ s.conn.sndLen = 3 := by
  refine ⟨(step (step answered expired).1 (dataAck fun _ => none)).1, ?_, by decide, by decide,
    by decide⟩
  have start : Reachable host [] (boot host []) := Runs.refl _
  exact ((((start.snoc trivial rfl).snoc trivial rfl).snoc trivial rfl).snoc trivial rfl).snoc
    trivial rfl

end Cases

end XinuRpi5.System.TcpWindow
