/- source: system/tcp_server.c
   digest: What a frame of a third host does to the active connection. -/

import XinuRpi5.System.TcpPump

namespace XinuRpi5.System.TcpIsolation

open Lib.GuardedRuns Lib.Word64
open TcpServer TcpHandler TcpPump

/-- The connection's state, send state, window, reaper stamp and receive state
are as before, and no frame left the transmitter. -/
structure Untouched (s s' : Server) (out : List Sent) : Prop where
  state : s'.conn.state = s.conn.state
  sndUna : s'.conn.sndUna = s.conn.sndUna
  sndNxt : s'.conn.sndNxt = s.conn.sndNxt
  sndLen : s'.conn.sndLen = s.conn.sndLen
  mySeq : s'.conn.mySeq = s.conn.mySeq
  sndRetries : s'.conn.sndRetries = s.conn.sndRetries
  peerWin : s'.conn.peerWin = s.conn.peerWin
  lastMs : s'.conn.lastMs = s.conn.lastMs
  peerSeq : s'.conn.peerSeq = s.conn.peerSeq
  req : s'.req = s.req
  silent : ∀ x ∈ out, x.ok = false

/-- The pump has something for the transmitter: the next data segment, or the
FIN. -/
def Wants (c : Conn) : Prop := Sendable c ∨ c.sndFinPending = true ∧ c.sndLen ≤ c.sndNxt

instance (c : Conn) : Decidable (Wants c) := inferInstanceAs (Decidable (_ ∨ _))

/-- The stores that precede the sender check happen to change nothing: the
clock still shows the stored stamp, the window is the stored one, and if the
segment is an acknowledgement while a response is queued, it does not slide the
window, `my_seq` already stands at `snd_nxt`, and what the pump would send the
transmitter refuses. -/
def Quiet (env : Env) (c : Conn) (seg : Segment) : Prop :=
  env.now = c.lastMs ∧ seg.win = c.peerWin ∧
    (seg.flags.ack = true → 0 < c.sndLen → ¬ Slides c seg.ack ∧
      (Pumping c.state →
        c.mySeq = add64 c.sndSeq0 c.sndNxt ∧ (Wants c → env.tx 0 = none)))

section Pump

variable {c : Conn}

/-- The pump left the connection where it was and transmitted nothing. -/
private structure Still (c : Conn) (r : Line) : Prop where
  state : r.conn.state = c.state
  nxt : r.conn.sndNxt = c.sndNxt
  seq : r.conn.mySeq = c.mySeq
  silent : ∀ x ∈ r.out, x.ok = false

private theorem still_reseat (out : List Sent) (silent : ∀ x ∈ out, x.ok = false) (seq : Nat) :
    Still c ⟨{ c with mySeq := seq }, out⟩ ↔ c.mySeq = seq :=
  ⟨fun still => still.seq.symm, fun equal => ⟨rfl, rfl, equal.symm, silent⟩⟩

private theorem loud {r : Line} {x : Sent} (listed : x ∈ r.out) (ok : x.ok = true) :
    ¬ Still c r := by
  intro still
  have silent := still.silent x listed
  rw [ok] at silent
  exact Bool.noConfusion silent

theorem pumpFin_out (env : Env) (l : Line) : ∃ out, (pumpFin env l).out = l.out ++ out := by
  by_cases due : l.conn.sndFinPending = true ∧ l.conn.sndLen ≤ l.conn.sndNxt
  · cases taken : env.tx l.out.length with
    | none => exact ⟨_, by rw [pumpFin_refused due taken]⟩
    | some t => exact ⟨_, by rw [pumpFin_taken due taken]⟩
  · exact ⟨[], by rw [pumpFin_skip due, List.append_nil]⟩

private theorem pump_sends {env : Env} (pumping : Pumping c.state) {t : Nat}
    (taken : env.tx 0 = some t) (sendable : Sendable c) : ¬ Still c (tcpPump env ⟨c, []⟩) := by
  obtain ⟨fuel, budget⟩ : ∃ fuel, c.sndLen - c.sndNxt = fuel + 1 :=
    ⟨c.sndLen - c.sndNxt - 1, by have := sendable.1; omega⟩
  obtain ⟨seq, nxt, last, out, run, _⟩ :=
    pumpLoop_spec env fuel ⟨sentOne c t, [] ++ [chunk c true]⟩
  have loop : pumpLoop env (c.sndLen - c.sndNxt) ⟨c, []⟩ =
      ⟨{ c with mySeq := seq, sndNxt := nxt, sndLastTxMs := last },
        [] ++ (chunk c true :: out)⟩ := by
    rw [budget, pumpLoop_taken fuel sendable taken, run]
    rfl
  rw [tcpPump_run pumping loop]
  obtain ⟨more, grown⟩ := pumpFin_out env ⟨{ c with
    mySeq := reseat c seq nxt, sndNxt := nxt, sndLastTxMs := last }, [] ++ (chunk c true :: out)⟩
  refine loud (x := chunk c true) ?_ rfl
  rw [grown]
  simp

private theorem pump_still_iff (env : Env) (h : Bounded c) (data : 0 < c.sndLen)
    (pumping : Pumping c.state) :
    Still c (tcpPump env ⟨c, []⟩) ↔
      c.mySeq = add64 c.sndSeq0 c.sndNxt ∧ (Wants c → env.tx 0 = none) := by
  have seated : ∀ seq, reseat c seq c.sndNxt = add64 c.sndSeq0 c.sndNxt := fun _ => if_pos data
  by_cases sendable : Sendable c
  · cases taken : env.tx 0 with
    | some t =>
      have refuse : ¬ (Wants c → some t = none) := fun all => Option.some_ne_none t (all (.inl sendable))
      simp only [refuse, and_false, iff_false]
      exact pump_sends pumping taken sendable
    | none =>
      obtain ⟨fuel, budget⟩ : ∃ fuel, c.sndLen - c.sndNxt = fuel + 1 :=
        ⟨c.sndLen - c.sndNxt - 1, by have := sendable.1; omega⟩
      have loop := pumpLoop_refused (l := ⟨c, []⟩) fuel sendable taken
      have skip : ¬ (c.sndFinPending = true ∧ c.sndLen ≤ c.sndNxt) := by
        have := sendable.1
        omega
      rw [← budget] at loop
      rw [tcpPump_run pumping loop, pumpFin_skip skip, seated]
      simp only [implies_true, and_true]
      exact still_reseat _ (by simp [chunk]) _
  · have loop : pumpLoop env (c.sndLen - c.sndNxt) ⟨c, []⟩ =
        ⟨{ c with mySeq := c.mySeq, sndNxt := c.sndNxt, sndLastTxMs := c.sndLastTxMs },
          [] ++ []⟩ := pumpLoop_stop _ sendable
    rw [tcpPump_run pumping loop, seated]
    by_cases due : c.sndFinPending = true ∧ c.sndLen ≤ c.sndNxt
    · have wants : Wants c := .inr due
      have full : add64 c.sndSeq0 c.sndNxt = add64 c.sndSeq0 c.sndLen := by
        rw [Nat.le_antisymm h.nxt due.2]
      cases taken : env.tx 0 with
      | none =>
        rw [pumpFin_refused due taken]
        simp only [implies_true, and_true]
        rw [full]
        refine still_reseat _ ?_ _
        intro x listed
        rw [List.mem_singleton.mp listed]
        rfl
      | some t =>
        rw [pumpFin_taken due taken]
        have refuse : ¬ (Wants c → some t = none) := fun all => Option.some_ne_none t (all wants)
        simp only [refuse, and_false, iff_false]
        exact loud (List.mem_singleton.mpr rfl) rfl
    · have nothing : ¬ Wants c := by
        rintro (sends | fin)
        · exact sendable sends
        · exact due fin
      rw [pumpFin_skip due]
      simp only [nothing, false_implies, and_true]
      exact still_reseat _ (by simp) _

end Pump

/-- What every segment does before its sender is looked at leaves the active
connection alone exactly when it is quiet. -/
private theorem touch_untouched_iff {s : Server} (h : Bounded s.conn) (env : Env)
    (seg : Segment) :
    Untouched s { s with conn := (touch env seg s.conn).conn } (touch env seg s.conn).out ↔
      Quiet env s.conn seg := by
  have stamped : Bounded { s.conn with lastMs := env.now, peerWin := seg.win } := ⟨h.una, h.nxt⟩
  unfold touch Quiet
  simp only
  by_cases acks : seg.flags.ack = true ∧ 0 < s.conn.sndLen
  swap
  · rw [if_neg acks]
    constructor
    · intro same
      exact ⟨same.lastMs, same.peerWin, fun ack data => (acks ⟨ack, data⟩).elim⟩
    · rintro ⟨now, win, _⟩
      exact ⟨rfl, rfl, rfl, rfl, rfl, rfl, win, now, rfl, rfl, by simp⟩
  rw [if_pos acks, tcpOnAck]
  by_cases slides : Slides s.conn seg.ack
  · have moved : slide { s.conn with lastMs := env.now, peerWin := seg.win } seg.ack =
        { s.conn with
          lastMs := env.now, peerWin := seg.win
          sndUna := sub64 seg.ack s.conn.sndSeq0, sndRetries := 0 } := if_pos ⟨acks.2, slides⟩
    have una : ∀ l : Line, (tcpPump env l).conn.sndUna = l.conn.sndUna := by
      intro l
      by_cases pumping : Pumping l.conn.state
      · obtain ⟨seq, nxt, last, pending, st, equal⟩ := (tcpPump_spec env pumping).1.frame
        rw [equal]
      · rw [tcpPump_idle pumping]
    constructor
    · intro same
      have kept := same.sndUna
      rw [una, moved] at kept
      exact absurd kept (Nat.ne_of_gt slides.2)
    · intro quiet
      exact ((quiet.2.2 acks.1 acks.2).1 slides).elim
  have stays : slide { s.conn with lastMs := env.now, peerWin := seg.win } seg.ack =
      { s.conn with lastMs := env.now, peerWin := seg.win } := if_neg fun both => slides both.2
  rw [stays]
  by_cases pumping : Pumping s.conn.state
  swap
  · rw [tcpPump_idle pumping]
    constructor
    · intro same
      exact ⟨same.lastMs, same.peerWin, fun _ _ => ⟨slides, fun pumps => (pumping pumps).elim⟩⟩
    · rintro ⟨now, win, _⟩
      exact ⟨rfl, rfl, rfl, rfl, rfl, rfl, win, now, rfl, rfl, by simp⟩
  have still := pump_still_iff env stamped acks.2 pumping
  obtain ⟨seq, nxt, last, pending, st, equal⟩ := (tcpPump_spec env
    (l := ⟨{ s.conn with lastMs := env.now, peerWin := seg.win }, []⟩) pumping).1.frame
  constructor
  · intro same
    have now : env.now = s.conn.lastMs := by
      have kept := same.lastMs
      rw [equal] at kept
      exact kept
    have win : seg.win = s.conn.peerWin := by
      have kept := same.peerWin
      rw [equal] at kept
      exact kept
    have quiet := still.mp ⟨same.state, same.sndNxt, same.mySeq, same.silent⟩
    refine ⟨now, win, fun _ _ => ⟨slides, fun _ => ⟨quiet.1, fun wants => quiet.2 ?_⟩⟩⟩
    unfold Wants Sendable at wants ⊢
    rw [win]
    exact wants
  · rintro ⟨now, win, quiet⟩
    obtain ⟨seat, refused⟩ := (quiet acks.1 acks.2).2 pumping
    have kept := still.mpr ⟨seat, fun wants => refused (by
      unfold Wants Sendable at wants ⊢
      rw [← win]
      exact wants)⟩
    refine ⟨kept.state, ?_, kept.nxt, ?_, kept.seq, ?_, ?_, ?_, ?_, rfl, kept.silent⟩
    · rw [equal]
    · rw [equal]
    · rw [equal]
    · rw [equal]
      exact win
    · rw [equal]
      exact now
    · rw [equal]

def Foreign (s : Server) (f : Frame) : Prop :=
  f.srcIp ≠ s.conn.peerIp ∨ f.srcPort ≠ s.conn.peerPort

private theorem receive_foreign {s : Server} {f : Frame} (env : Env) (via : Bool)
    (active : s.conn.state ≠ .closed ∧ s.conn.state ≠ .listen) (foreign : Foreign s f) :
    receive env s via (segmentOf f) =
      ({ s with conn := (touch env (segmentOf f) s.conn).conn },
        (touch env (segmentOf f) s.conn).out) := by
  have stranger : ¬ FromPeer (touch env (segmentOf f) s.conn).conn (segmentOf f) := by
    rw [touch_fromPeer]
    rintro ⟨samePort, sameIp⟩
    rcases foreign with otherIp | otherPort
    · exact otherIp sameIp.symm
    · exact otherPort samePort.symm
  rcases touch_state env (segmentOf f) s.conn with same | ⟨_, sent⟩
  · apply receive_stranger env s via (segmentOf f) _ _ stranger
    · rw [same]
      exact active.1
    · rw [same]
      exact active.2
  · apply receive_stranger env s via (segmentOf f) _ _ stranger
    · rcases sent with fin | last
      · rw [fin]
        decide
      · rw [last]
        decide
    · rcases sent with fin | last
      · rw [fin]
        decide
      · rw [last]
        decide

/-- In every reachable state with an active connection, a frame of another host
leaves the connection alone and causes no transmission exactly when it is not
for the listening port, fails the length checks, or is quiet. -/
theorem foreign_frame_untouched_iff {ip wifiIp : List UInt8} {s : Server}
    (reach : Reachable ip wifiIp s)
    (active : s.conn.state ≠ .closed ∧ s.conn.state ≠ .listen) (env : Env) {f : Frame}
    (via : Bool) (foreign : Foreign s f) :
    Untouched s (tcpHandlePacketVia env s f via).1 (tcpHandlePacketVia env s f via).2.1 ↔
      (ForUs s f via → WellSized f → Quiet env s.conn (segmentOf f)) := by
  have same : Untouched s s [] := ⟨rfl, rfl, rfl, rfl, rfl, rfl, rfl, rfl, rfl, rfl, by simp⟩
  unfold tcpHandlePacketVia
  by_cases forUs : ForUs s f via
  swap
  · rw [if_neg forUs]
    exact ⟨fun _ us => (forUs us).elim, fun _ => same⟩
  by_cases sized : WellSized f
  swap
  · rw [if_pos forUs, if_neg sized]
    exact ⟨fun _ _ well => (sized well).elim, fun _ => same⟩
  rw [if_pos forUs, if_pos sized, receive_foreign env via active foreign]
  simp only [forUs, sized, true_implies]
  exact touch_untouched_iff reach.bounded env (segmentOf f)

private def opened : Server :=
  (step (boot host [])
    (fromClient 10 (clientSegment 1000 0 flagsSyn []) [])).1

/-- The handshake, and a request answered by a response of three bytes. -/
private def served : Server :=
  (step (step opened (fromClient 11 (clientSegment 1001 3735928560 flagsAck []) [])).1
    (fromClient 12 (clientSegment 1001 3735928560 flagsPshAck [13, 10, 13, 10]) [65, 66, 67])).1

private theorem opened_reachable : Reachable host [] opened :=
  (Runs.refl _).snoc trivial rfl

private theorem served_reachable : Reachable host [] served :=
  (opened_reachable.snoc trivial rfl).snoc trivial rfl

theorem foreign_frame_untouched_quiet :
    ∃ s f, s.conn.state = .synRcvd ∧ Foreign s f ∧ ForUs s f false ∧
      Untouched s (tcpHandlePacketVia (clockAt 10 []) s f false).1
        (tcpHandlePacketVia (clockAt 10 []) s f false).2.1 := by
  refine ⟨opened, frameOf host 23 { clientSegment 7 0 flagsSyn [] with
    srcIp := [192, 168, 3, 9] }, by decide, .inl (by decide), by decide, ?_⟩
  refine (foreign_frame_untouched_iff opened_reachable ⟨by decide, by decide⟩ _ false
    (.inl (by decide))).mpr ?_
  intro _ _
  refine ⟨by decide, by decide, fun acks => ?_⟩
  exact absurd acks (by decide)

/-- A third host acknowledges the response: `snd_una` moves to 3, `my_seq` is
rewritten and the reaper stamp is renewed. -/
theorem foreign_ack_slides_window :
    ∃ s f env, Reachable host [] s ∧ s.conn.state = .finWait1 ∧ Foreign s f ∧
      ForUs s f false ∧ (tcpHandlePacketVia env s f false).1.conn.sndUna = 3 ∧
      ¬ Untouched s (tcpHandlePacketVia env s f false).1
        (tcpHandlePacketVia env s f false).2.1 := by
  refine ⟨served, frameOf host 23 { clientSegment 7 3735928563 flagsAck [] with
    srcIp := [192, 168, 3, 9] }, clockAt 13 [], served_reachable, by decide, .inl (by decide),
    by decide, by decide, ?_⟩
  intro untouched
  exact absurd untouched.sndUna (by decide)

end XinuRpi5.System.TcpIsolation
