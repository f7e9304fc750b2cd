/- source: system/tcp_server.c
   digest: Exchanges from different initial sequence numbers run through the same states. -/

import XinuRpi5.System.TcpSequence

namespace XinuRpi5.System.TcpShift

open Lib.Word64
open TcpServer TcpHandler TcpPump
open TcpErasure TcpSequence

/-- Two exchanges after the same moves. In `LAST_ACK` the numbers that the servers
wait for lie equally far from the two bases. -/
structure Twin (x y : Exchange) : Prop where
  left : ExInv x
  right : ExInv y
  alike : AlikeServer x.srv y.srv
  out : AlikeOut x.out y.out
  sent : x.sent = y.sent
  finSent : x.finSent = y.finSent
  lastAck : x.srv.conn.state = .lastAck → x.srv.conn.mySeq + y.base = y.srv.conn.mySeq + x.base

section Step

variable {x y : Exchange} {m : Move}

section

variable (twin : Twin x y)

include twin

theorem Twin.state : y.srv.conn.state = x.srv.conn.state :=
  (congrArg Conn.state twin.alike.conn).symm

theorem Twin.len : y.srv.conn.sndLen = x.srv.conn.sndLen :=
  (congrArg Conn.sndLen twin.alike.conn).symm

theorem twin_slides (lx : LaterMove x m) (ly : LaterMove y m) (data : 0 < x.srv.conn.sndLen) :
    sub64 (x.base + m.acked) x.srv.conn.sndSeq0 = sub64 (y.base + m.acked) y.srv.conn.sndSeq0 := by
  have wx := lx.wide
  have wy := ly.wide
  have left := (twin.left.seated lx.live.1 lx.live.2).queued lx.live.1 lx.live.2 (.inl data)
  have right := (twin.right.seated ly.live.1 ly.live.2).queued ly.live.1 ly.live.2
    (.inl (by rw [twin.len]; exact data))
  rw [left, right, sub64_eq (by omega) (by omega), sub64_eq (by omega) (by omega)]
  omega

theorem twin_waits {cx cy : Conn} (lx : LaterMove x m) (tx : Touched x.base m.acked x.srv.conn cx)
    (ty : Touched y.base m.acked y.srv.conn cy) (same : cy.state = cx.state)
    (away : cx.state ≠ .established) :
    cx.mySeq + y.base = cy.mySeq + x.base := by
  have state := twin.state
  have len := twin.len
  rcases live_cases lx.live with fresh | estab | fin | last
  · rw [(tx.fresh fresh).2, (ty.fresh (state.trans fresh)).2]
    omega
  · rcases tx.estab estab with still | ⟨_, _, seq⟩
    · exact (away still).elim
    · rcases ty.estab (state.trans estab) with still | ⟨_, _, seq'⟩
      · exact (away (same.symm.trans still)).elim
      · omega
  · have seq := (tx.finWait fin).2
    have seq' := (ty.finWait (state.trans fin)).2
    rw [len] at seq'
    omega
  · have seq := (tx.lastAck last).2
    have seq' := (ty.lastAck (state.trans last)).2
    have kept := twin.lastAck last
    omega

theorem twin_expect (lx : LaterMove x m) (ly : LaterMove y m) (some : m.body.data ≠ []) :
    cut32 (x.isn + 1 + x.sent) = x.srv.conn.peerSeq ∧
      cut32 (y.isn + 1 + y.sent) = y.srv.conn.peerSeq := by
  obtain ⟨widex, estabx, _⟩ := lx.data some
  obtain ⟨widey, estaby, _⟩ := ly.data some
  rw [twin.left.expect (.inr estabx) (lx.open' some), twin.right.expect (.inr estaby) (ly.open' some)]
  exact ⟨Nat.mod_eq_of_lt widex, Nat.mod_eq_of_lt widey⟩

end

theorem wire_twin (later : m.syn = false) (nx : NoWrap x m) (ny : NoWrap y m) :
    wire y m = renumber (wire x m) (cut32 (y.isn + 1 + y.sent)) (y.base + m.acked) := by
  rw [wire_segment later ny, wire_segment later nx]
  rfl

section Later

variable (twin : Twin x y) (later : m.syn = false) (lx : LaterMove x m) (ly : LaterMove y m)
  (nx : NoWrap x m) (ny : NoWrap y m)

include twin later lx ly nx ny

theorem touch_twin :
    AlikeLine (touch m.env (wire x m) x.srv.conn) (touch m.env (wire y m) y.srv.conn) := by
  rw [wire_twin later nx ny]
  apply touch_alike m.env twin.alike.conn
  intro _ data
  rw [wire_segment later nx]
  exact twin_slides twin lx ly data

theorem receive_twin :
    AlikeResult (receive m.env x.srv m.via (wire x m)) (receive m.env y.srv m.via (wire y m)) := by
  have touched := touch_twin twin later lx ly nx ny
  have numberx := wire_segment later nx
  have tx := (touch_later twin.left lx numberx).1
  have ty := (touch_later twin.right ly (wire_segment later ny)).1
  rw [wire_twin later nx ny] at touched ty ⊢
  apply receive_alike twin.alike
  · intro _ data
    rw [numberx]
    exact twin_slides twin lx ly data
  · intro _ _ away
    have waits := twin_waits twin lx tx ty (congrArg Conn.state touched.conn).symm away
    have ack : (wire x m).ack = x.base + m.acked := by rw [numberx]; rfl
    rw [ack]
    omega
  · intro _ some
    have data : (wire x m).data = m.body.data := by rw [numberx]; rfl
    have seq : (wire x m).seq = cut32 (x.isn + 1 + x.sent) := by rw [numberx]; rfl
    rw [data] at some
    obtain ⟨left, right⟩ := twin_expect twin lx ly some
    rw [seq]
    exact iff_of_true left right

/-- A second FIN is sent in both exchanges or in neither. -/
theorem secondFin_twin : SecondFin m.env x.srv (wire x m) ↔ SecondFin m.env y.srv (wire y m) := by
  have touched := touch_twin twin later lx ly nx ny
  have numberx := wire_segment later nx
  have data : (wire x m).data = m.body.data := by rw [numberx]; rfl
  have seq : (wire x m).seq = cut32 (x.isn + 1 + x.sent) := by rw [numberx]; rfl
  have flags : (wire y m).flags = (wire x m).flags := by rw [wire_twin later nx ny]; rfl
  have after : AlikeResult (afterData m.env x.srv (wire x m) (touch m.env (wire x m) x.srv.conn))
      (afterData m.env y.srv (wire y m) (touch m.env (wire y m) y.srv.conn)) := by
    have data' : (wire y m).data = m.body.data := by rw [wire_segment later ny]; rfl
    unfold afterData
    by_cases some : m.body.data ≠ []
    · rw [if_pos (by rw [data]; exact some), if_pos (by rw [data']; exact some)]
      obtain ⟨left, right⟩ := twin_expect twin lx ly some
      obtain ⟨_, _, _, _, _, _, _, shapex⟩ := touch_eq m.env (wire x m) x.srv.conn
      obtain ⟨_, _, _, _, _, _, _, shapey⟩ := touch_eq m.env (wire y m) y.srv.conn
      have peerx : (touch m.env (wire x m) x.srv.conn).conn.peerSeq = x.srv.conn.peerSeq := by
        rw [shapex]
      have peery : (touch m.env (wire y m) y.srv.conn).conn.peerSeq = y.srv.conn.peerSeq := by
        rw [shapey]
      rw [wire_twin later nx ny] at touched peery ⊢
      apply onData_alike touched twin.alike
      rw [peerx, peery, seq]
      exact iff_of_true left right
    · rw [if_neg (by rw [data]; exact some), if_neg (by rw [data']; exact some)]
      exact touched.result twin.alike
  have before : (touch m.env (wire y m) y.srv.conn).conn.state =
      (touch m.env (wire x m) x.srv.conn).conn.state := (congrArg Conn.state touched.conn).symm
  have behind : (afterData m.env y.srv (wire y m)
      (touch m.env (wire y m) y.srv.conn)).1.conn.state =
      (afterData m.env x.srv (wire x m) (touch m.env (wire x m) x.srv.conn)).1.conn.state :=
    (congrArg Conn.state after.srv.conn).symm
  unfold SecondFin
  rw [flags, before, behind]

theorem lastAck_twin (shortx : m.body.data.length ≤ 65535)
    (last : (receive m.env x.srv m.via (wire x m)).1.conn.state = .lastAck) :
    (receive m.env x.srv m.via (wire x m)).1.conn.mySeq + y.base =
      (receive m.env y.srv m.via (wire y m)).1.conn.mySeq + x.base := by
  have same := receive_twin twin later lx ly nx ny
  have state := congrArg Conn.state same.srv.conn
  have len := congrArg Conn.sndLen same.srv.conn
  have takenx := segment_taken twin.left later lx nx shortx
  have takeny := segment_taken twin.right later ly ny shortx
  change (receive m.env x.srv m.via (wire x m)).1.conn.state =
    (receive m.env y.srv m.via (wire y m)).1.conn.state at state
  change (receive m.env x.srv m.via (wire x m)).1.conn.sndLen =
    (receive m.env y.srv m.via (wire y m)).1.conn.sndLen at len
  have second := secondFin_twin twin later lx ly nx ny
  rcases takenx.lastAck last with ⟨was, seq⟩ | ⟨was, seq⟩
  · rcases takeny.lastAck (state.symm.trans last) with ⟨_, seq'⟩ | ⟨was', _⟩
    · rw [seq, seq']
      exact twin.lastAck was
    · exact absurd (was.symm.trans (twin.state.symm.trans was')) (by decide)
  · rcases takeny.lastAck (state.symm.trans last) with ⟨was', _⟩ | ⟨_, seq'⟩
    · exact absurd (was.symm.trans (twin.state.symm.trans was')) (by decide)
    · simp only [second] at seq
      omega

end Later

theorem syn_twin (twin : Twin x y) (opens : m.syn = true) (ix : InOrder x m) :
    AlikeResult (receive m.env x.srv m.via (wire x m)) (receive m.env y.srv m.via (wire y m)) := by
  have number : wire y m = renumber (wire x m) (cut32 y.isn) 0 := by
    rw [wire, wire, if_pos opens, if_pos opens]
    rfl
  have idle := syn_idle opens ix
  have noAck : (wire x m).flags.ack = false := by
    unfold InOrder at ix
    rw [opens] at ix
    rw [wire, if_pos opens]
    exact ix.2.2.1
  rw [number]
  apply receive_alike twin.alike
  · intro acks
    exact absurd (noAck.symm.trans acks) (by decide)
  · intro closed listen
    exact absurd idle (not_or.mpr ⟨closed, listen⟩)
  · intro estab
    rw [estab] at idle
    exact absurd idle (by decide)

theorem twin_step {f g : Frame} (twin : Twin x y) (ix : InOrder x m) (iy : InOrder y m)
    (nx : NoWrap x m) (ny : NoWrap y m) (cx : Carries x m f) (cy : Carries y m g) :
    Twin (deliver x m f) (deliver y m g) := by
  have left := (deliver_served twin.left ix nx cx).1
  have right := (deliver_served twin.right iy ny cy).1
  obtain ⟨srvx, outx⟩ := handle_eq cx
  obtain ⟨srvy, outy⟩ := handle_eq cy
  cases opens : m.syn with
  | true =>
    have same := syn_twin twin opens ix
    have state := (syn_taken opens ix nx twin.left.isn).1
    refine ⟨left, right, ?_, ?_, ?_, ?_, ?_⟩
    all_goals simp only [deliver, opens, if_true, srvx, srvy, outx, outy]
    · exact same.srv
    · exact twin.out.append same.out
    · intro last
      exact absurd (state.symm.trans last) (by decide)
  | false =>
    have lx := laterMove opens ix nx
    have ly := laterMove opens iy ny
    have same := receive_twin twin opens lx ly nx ny
    refine ⟨left, right, ?_, ?_, ?_, ?_, ?_⟩
    all_goals simp only [deliver, opens, Bool.false_eq_true, if_false, srvx, srvy, outx, outy]
    · exact same.srv
    · exact twin.out.append same.out
    · rw [twin.sent]
    · rw [twin.finSent]
    · exact lastAck_twin twin opens lx ly nx ny (carries_short cx)

end Step

theorem twin_run {x y x' y' : Exchange} {ms : List Move} (twin : Twin x y)
    (px : Played x ms x') (py : Played y ms y') : Twin x' y' := by
  induction px generalizing y' with
  | nil =>
    generalize empty : ([] : List Move) = ms at py
    cases py with
    | nil => exact twin
    | snoc _ _ _ _ => exact absurd empty (by simp)
  | @snoc z ms m f before ix nx cx ih =>
    generalize whole : ms ++ [m] = all at py
    cases py with
    | nil => exact absurd whole (by simp)
    | snoc before' iy ny cy =>
      obtain ⟨rfl, rfl⟩ := List.append_singleton_inj.mp whole
      exact twin_step (ih before') ix iy nx ny cx cy

theorem start_inv {srv : Server} {isn : Nat}
    (waiting : srv.conn.state = .closed ∨ srv.conn.state = .listen) (small : isn < 4294967296) :
    ExInv (Exchange.start srv isn) := by
  refine ⟨small, fun closed listen => ?_, fun early => ?_⟩
  · exact absurd waiting (not_or.mpr ⟨closed, listen⟩)
  · change srv.conn.state = .synRcvd ∨ srv.conn.state = .established at early
    rcases waiting with is | is
    · rw [is] at early
      exact absurd early (by decide)
    · rw [is] at early
      exact absurd early (by decide)

/-- Two servers that differ in sequence numbers only, and two client ISNs: as long
as no sequence number passes `2 ^ 32`, every in-order move is served, and the same
moves lead both servers through the same states with the same payload. -/
theorem played_modulo_free {s t : Server} {i j : Nat} {x y : Exchange} {ms : List Move}
    (alike : AlikeServer s t) (waiting : s.conn.state = .closed ∨ s.conn.state = .listen)
    (smallI : i < 4294967296) (smallJ : j < 4294967296)
    (px : Played (Exchange.start s i) ms x) (py : Played (Exchange.start t j) ms y) :
    (∀ m f, InOrder x m → NoWrap x m → Carries x m f → Served x m (deliver x m f).srv) ∧
      AlikeServer x.srv y.srv ∧ AlikeOut x.out y.out := by
  have state : t.conn.state = s.conn.state := (congrArg Conn.state alike.conn).symm
  have left := start_inv waiting smallI
  have waiting' : t.conn.state = .closed ∨ t.conn.state = .listen := by
    rw [state]
    exact waiting
  have right := start_inv waiting' smallJ
  have never : (Exchange.start s i).srv.conn.state ≠ .lastAck := by
    change s.conn.state ≠ .lastAck
    rcases waiting with is | is
    · rw [is]
      decide
    · rw [is]
      decide
  have twin : Twin (Exchange.start s i) (Exchange.start t j) :=
    ⟨left, right, alike, rfl, rfl, rfl, fun last => (never last).elim⟩
  have ended := twin_run twin px py
  refine ⟨fun m f inOrder noWrap carries => ?_, ended.alike, ended.out⟩
  exact (deliver_served ended.left inOrder noWrap carries).2

private def synMove : Move := ⟨true, clientSegment 0 0 flagsSyn [], 0, false, clockAt 10 []⟩

private def ackMove : Move := ⟨false, clientSegment 0 0 flagsAck [], 0, false, clockAt 11 []⟩

private def dataMove : Move := ⟨false, clientSegment 0 0 flagsPshAck [71], 0, false, clockAt 12 []⟩

private def frameFor (x : Exchange) (m : Move) : Frame := frameOf host 23 (wire x m)

private def first (i : Nat) : Exchange := Exchange.start (boot host []) i

private def second (i : Nat) : Exchange := deliver (first i) synMove (frameFor (first i) synMove)

private def third (i : Nat) : Exchange := deliver (second i) ackMove (frameFor (second i) ackMove)

private theorem opens_played (i : Nat) (syn : Carries (first i) synMove (frameFor (first i) synMove))
    (state : (second i).srv.conn.state = .synRcvd)
    (peer : FromPeer (second i).srv.conn ackMove.body) (base : (second i).base + 0 < 4294967296)
    (len : (second i).srv.conn.sndLen = 0)
    (ack : Carries (second i) ackMove (frameFor (second i) ackMove)) :
    Played (first i) [synMove, ackMove] (third i) := by
  have started : Played (first i) ([] ++ [synMove]) (second i) := by
    refine .snoc (.nil _) ⟨.inl rfl, rfl, rfl, rfl⟩ ?_ syn
    change 3735928559 + 1 < 4294967296
    decide
  refine .snoc started ⟨?_, ?_, peer, rfl, rfl, fun _ => rfl, fun some => (some rfl).elim⟩
    ⟨base, fun some => (some rfl).elim, fun data => ?_⟩ ack
  · rw [state]
    decide
  · rw [state]
    decide
  · rw [len] at data
    exact absurd data (Nat.lt_irrefl 0)

theorem played_modulo_free_handshake :
    ∃ x y, Played (Exchange.start (boot host []) 1000) [synMove, ackMove] x ∧
      Played (Exchange.start (boot host []) 77) [synMove, ackMove] y ∧
      Served x dataMove (deliver x dataMove (frameFor x dataMove)).srv ∧
      AlikeServer x.srv y.srv := by
  have px := opens_played 1000 (by decide) (by decide) (by decide) (by decide) (by decide) (by decide)
  have py := opens_played 77 (by decide) (by decide) (by decide) (by decide) (by decide) (by decide)
  have both := played_modulo_free (s := boot host []) rfl (.inl rfl) (by decide) (by decide) px py
  refine ⟨_, _, px, py, ?_, both.2.1⟩
  refine both.1 dataMove _ ?_ ?_ (by decide)
  · refine ⟨by decide, by decide, by decide, rfl, rfl, fun _ => rfl, fun _ => by decide⟩
  · refine ⟨by decide, fun _ => ⟨by decide, by decide, by decide⟩, fun data => ?_⟩
    exact absurd data (by decide)

/-- A client whose ISN is the largest one: the handshake completes, `peer_seq` is
`2 ^ 32`, and the first data byte, numbered 0 on the wire, is dropped. -/
theorem last_isn_loses_data :
    ∃ x f, Played (Exchange.start (boot host []) 4294967295) [synMove, ackMove] x ∧
      InOrder x dataMove ∧ Carries x dataMove f ∧ ¬ Served x dataMove (deliver x dataMove f).srv := by
  refine ⟨third 4294967295, frameFor (third 4294967295) dataMove,
    opens_played 4294967295 (by decide) (by decide) (by decide) (by decide) (by decide) (by decide),
    ⟨by decide, by decide, by decide, rfl, rfl, fun _ => rfl, fun _ => by decide⟩, by decide, ?_⟩
  intro served
  exact absurd (served.accepted rfl (by decide)) (by decide)

end XinuRpi5.System.TcpShift
