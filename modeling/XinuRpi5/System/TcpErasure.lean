/- source: system/tcp_server.c
   digest: The pump and the branches never look at the sequence numbers beyond their comparisons. -/

import XinuRpi5.System.TcpPump

namespace XinuRpi5.System.TcpErasure

open Lib.Word64
open TcpServer TcpHandler TcpPump

def reseq (c : Conn) (my peer seq0 : Nat) : Conn :=
  { c with mySeq := my, peerSeq := peer, sndSeq0 := seq0 }

def eraseConn (c : Conn) : Conn := reseq c 0 0 0

def eraseSent (x : Sent) : Sent := { x with seq := 0, ack := 0 }

def Alike (c d : Conn) : Prop := eraseConn c = eraseConn d

/-- Two sequences of frames with the same flags, payloads and outcomes. -/
def AlikeOut (xs ys : List Sent) : Prop := xs.map eraseSent = ys.map eraseSent

structure AlikeLine (l k : Line) : Prop where
  conn : Alike l.conn k.conn
  out : AlikeOut l.out k.out

theorem Alike.exists_reseq {c d : Conn} (h : Alike c d) :
    ∃ my peer seq0, d = reseq c my peer seq0 := by
  refine ⟨d.mySeq, d.peerSeq, d.sndSeq0, ?_⟩
  have back : reseq (eraseConn d) d.mySeq d.peerSeq d.sndSeq0 = d := rfl
  rw [← back, ← h]
  rfl

theorem AlikeLine.opened {l k : Line} (h : AlikeLine l k) : ∃ c out out' my peer seq0,
    l = ⟨c, out⟩ ∧ k = ⟨reseq c my peer seq0, out'⟩ ∧ AlikeOut out out' := by
  obtain ⟨my, peer, seq0, is⟩ := h.conn.exists_reseq
  exact ⟨l.conn, l.out, k.out, my, peer, seq0, rfl, by rw [← is], h.out⟩

theorem AlikeOut.length {xs ys : List Sent} (h : AlikeOut xs ys) : xs.length = ys.length := by
  have lengths := congrArg List.length h
  simpa using lengths

theorem AlikeOut.append {xs ys zs ws : List Sent} (h : AlikeOut xs ys) (k : AlikeOut zs ws) :
    AlikeOut (xs ++ zs) (ys ++ ws) := by
  unfold AlikeOut at *
  rw [List.map_append, List.map_append, h, k]

section Sends

variable (env : Env)

variable {l k : Line}

theorem tcpSend_alike (h : AlikeLine l k) (flags : Flags) :
    AlikeLine ⟨l.conn, (tcpSend env l flags []).2⟩ ⟨k.conn, (tcpSend env k flags []).2⟩ := by
  rw [tcpSend_empty, tcpSend_empty, h.out.length]
  exact ⟨h.conn, h.out.append rfl⟩

theorem pumpLoop_alike (fuel : Nat) {l k : Line} (h : AlikeLine l k) :
    AlikeLine (pumpLoop env fuel l) (pumpLoop env fuel k) := by
  induction fuel generalizing l k with
  | zero => exact h
  | succ fuel ih =>
    obtain ⟨c, out, out', my, peer, seq0, rfl, rfl, outs⟩ := h.opened
    have same : out.length = out'.length := outs.length
    by_cases sendable : Sendable c
    swap
    · have other : ¬ Sendable (reseq c my peer seq0) := sendable
      rw [pumpLoop_stop (fuel + 1) sendable, pumpLoop_stop (fuel + 1) other]
      exact h
    have other : Sendable (reseq c my peer seq0) := sendable
    cases taken : env.tx out.length with
    | none =>
      rw [pumpLoop_refused fuel sendable taken,
        pumpLoop_refused fuel other (same ▸ taken : env.tx out'.length = none)]
      exact ⟨rfl, h.out.append rfl⟩
    | some t =>
      rw [pumpLoop_taken fuel sendable taken,
        pumpLoop_taken fuel other (same ▸ taken : env.tx out'.length = some t)]
      exact ih ⟨rfl, h.out.append rfl⟩

theorem pumpFin_alike (h : AlikeLine l k) :
    AlikeLine (pumpFin env l) (pumpFin env k) := by
  obtain ⟨c, out, out', my, peer, seq0, rfl, rfl, outs⟩ := h.opened
  have same : out.length = out'.length := outs.length
  by_cases due : c.sndFinPending = true ∧ c.sndLen ≤ c.sndNxt
  swap
  · rw [pumpFin_skip due, pumpFin_skip (l := ⟨reseq c my peer seq0, out'⟩) due]
    exact h
  cases taken : env.tx out.length with
  | none =>
    rw [pumpFin_refused due taken, pumpFin_refused (l := ⟨reseq c my peer seq0, out'⟩) due
      (same ▸ taken : env.tx out'.length = none)]
    exact ⟨rfl, h.out.append rfl⟩
  | some t =>
    rw [pumpFin_taken due taken, pumpFin_taken (l := ⟨reseq c my peer seq0, out'⟩) due
      (same ▸ taken : env.tx out'.length = some t)]
    exact ⟨rfl, h.out.append rfl⟩

theorem tcpPump_alike (h : AlikeLine l k) :
    AlikeLine (tcpPump env l) (tcpPump env k) := by
  have state : k.conn.state = l.conn.state := (congrArg Conn.state h.conn).symm
  have len : k.conn.sndLen = l.conn.sndLen := (congrArg Conn.sndLen h.conn).symm
  have nxt : k.conn.sndNxt = l.conn.sndNxt := (congrArg Conn.sndNxt h.conn).symm
  by_cases pumping : Pumping l.conn.state
  swap
  · rw [tcpPump_idle pumping, tcpPump_idle (state ▸ pumping)]
    exact h
  have loop := pumpLoop_alike env (l.conn.sndLen - l.conn.sndNxt) h
  have pumping' : Pumping k.conn.state := state ▸ pumping
  rw [tcpPump, tcpPump, if_pos pumping, if_pos pumping', len, nxt]
  have lenLoop : (pumpLoop env (l.conn.sndLen - l.conn.sndNxt) k).conn.sndLen =
      (pumpLoop env (l.conn.sndLen - l.conn.sndNxt) l).conn.sndLen :=
    (congrArg Conn.sndLen loop.conn).symm
  apply pumpFin_alike
  simp only [lenLoop]
  split_ifs
  · obtain ⟨my, peer, seq0, equal⟩ := loop.conn.exists_reseq
    refine ⟨?_, loop.out⟩
    rw [equal]
    rfl
  · exact loop

theorem tcpSendResponse_alike (h : AlikeLine l k) :
    AlikeLine (tcpSendResponse env l) (tcpSendResponse env k) := by
  obtain ⟨c, out, out', my, peer, seq0, rfl, rfl, outs⟩ := h.opened
  exact tcpPump_alike env ⟨rfl, h.out⟩

end Sends

/-- Two servers that differ in sequence variables and the ISN counter only. -/
def AlikeServer (s t : Server) : Prop :=
  ({ s with conn := eraseConn s.conn, isnSeed := 0 } : Server) =
    { t with conn := eraseConn t.conn, isnSeed := 0 }

variable {s t : Server}

theorem AlikeServer.conn (h : AlikeServer s t) : Alike s.conn t.conn :=
  congrArg Server.conn h

theorem AlikeServer.req (h : AlikeServer s t) : s.req = t.req := by
  have erased : ({ s with conn := eraseConn s.conn, isnSeed := 0 } : Server).req =
      ({ t with conn := eraseConn t.conn, isnSeed := 0 } : Server).req := congrArg Server.req h
  exact erased

theorem AlikeServer.exists_conn (h : AlikeServer s t) :
    ∃ d seed, Alike s.conn d ∧ t = { s with conn := d, isnSeed := seed } := by
  refine ⟨t.conn, t.isnSeed, h.conn, ?_⟩
  have back : ({ ({ t with conn := eraseConn t.conn, isnSeed := 0 } : Server) with
    conn := t.conn, isnSeed := t.isnSeed } : Server) = t := rfl
  rw [← back, ← h]

theorem alikeServer_of {c d : Conn} (h : Alike c d) (req : List UInt8)
    (seed seed' : Nat) :
    AlikeServer { s with conn := c, req := req, isnSeed := seed }
      { s with conn := d, req := req, isnSeed := seed' } := by
  unfold AlikeServer Alike at *
  rw [h]

structure AlikeResult (r q : Server × List Sent) : Prop where
  srv : AlikeServer r.1 q.1
  out : AlikeOut r.2 q.2

def renumber (seg : Segment) (seq ack : Nat) : Segment := { seg with seq := seq, ack := ack }

section Branches

variable {env : Env} {s t : Server} {seg : Segment} {seq ack : Nat} {l k : Line} {c d : Conn}

theorem slide_alike (h : Alike c d)
    (same : 0 < c.sndLen → sub64 seg.ack c.sndSeq0 = sub64 ack d.sndSeq0) :
    Alike (slide c seg.ack) (slide d ack) := by
  obtain ⟨my, peer, seq0, rfl⟩ := h.exists_reseq
  by_cases data : 0 < c.sndLen
  · have equal : sub64 ack seq0 = sub64 seg.ack c.sndSeq0 := (same data).symm
    unfold slide Slides
    change Alike (if 0 < c.sndLen ∧ _ then _ else c)
      (if 0 < c.sndLen ∧ sub64 ack seq0 ≤ c.sndLen ∧ c.sndUna < sub64 ack seq0 then
        { reseq c my peer seq0 with sndUna := sub64 ack seq0, sndRetries := 0 }
        else reseq c my peer seq0)
    rw [equal]
    split_ifs <;> rfl
  · have left : slide c seg.ack = c := if_neg fun both => data both.1
    have right : slide (reseq c my peer seq0) ack = reseq c my peer seq0 :=
      if_neg fun both => data both.1
    rw [left, right]
    exact h

theorem touch_alike (env : Env) (h : Alike c d)
    (same : seg.flags.ack = true → 0 < c.sndLen → sub64 seg.ack c.sndSeq0 = sub64 ack d.sndSeq0) :
    AlikeLine (touch env seg c) (touch env (renumber seg seq ack) d) := by
  obtain ⟨my, peer, seq0, rfl⟩ := h.exists_reseq
  have stamped : Alike { c with lastMs := env.now, peerWin := seg.win }
      { reseq c my peer seq0 with lastMs := env.now, peerWin := seg.win } := rfl
  unfold touch renumber
  simp only
  by_cases acks : seg.flags.ack = true ∧ 0 < c.sndLen
  · have acks' : seg.flags.ack = true ∧ 0 < (reseq c my peer seq0).sndLen := acks
    rw [if_pos acks, if_pos acks']
    apply tcpPump_alike
    refine ⟨?_, rfl⟩
    exact slide_alike stamped (same acks.1)
  · have acks' : ¬ (seg.flags.ack = true ∧ 0 < (reseq c my peer seq0).sndLen) := acks
    rw [if_neg acks, if_neg acks']
    exact ⟨stamped, rfl⟩

theorem acceptConn_alike (h : Alike c d) (test : seg.seq = c.peerSeq ↔ seq = d.peerSeq) :
    Alike (acceptConn c seg) (acceptConn d (renumber seg seq ack)) := by
  obtain ⟨my, peer, seq0, rfl⟩ := h.exists_reseq
  unfold acceptConn renumber
  by_cases match' : seg.seq = c.peerSeq
  · rw [if_pos match', if_pos (test.mp match')]
    rfl
  · rw [if_neg match', if_neg fun other => match' (test.mpr other)]
    rfl

section

variable (h : AlikeLine l k) (hs : AlikeServer s t)

include h hs

theorem AlikeLine.result :
    AlikeResult ({ s with conn := l.conn }, l.out) ({ t with conn := k.conn }, k.out) := by
  obtain ⟨d, seed, _, rfl⟩ := hs.exists_conn
  exact ⟨alikeServer_of h.conn s.req s.isnSeed seed, h.out⟩

theorem onListen_alike {via : Bool} :
    AlikeResult (onListen env s via seg l) (onListen env t via (renumber seg seq ack) k) := by
  unfold onListen
  have flags : (renumber seg seq ack).flags = seg.flags := rfl
  rw [flags]
  split_ifs
  · obtain ⟨c, out, out', my, peer, seq0, rfl, rfl, outs⟩ := h.opened
    obtain ⟨d, seed, _, rfl⟩ := hs.exists_conn
    simp only [tcpSend_empty]
    refine ⟨rfl, ?_⟩
    simp only [outs.length]
    exact outs.append rfl
  · exact h.result hs

section

variable (test : seg.ack = l.conn.mySeq ↔ ack = k.conn.mySeq)

include test

theorem onSynRcvd_alike :
    AlikeResult (onSynRcvd s seg l) (onSynRcvd t (renumber seg seq ack) k) := by
  obtain ⟨c, out, out', my, peer, seq0, rfl, rfl, outs⟩ := h.opened
  obtain ⟨d, seed, _, rfl⟩ := hs.exists_conn
  have acked : (seg.flags.ack = true ∧ seg.ack = c.mySeq) ↔
      (seg.flags.ack = true ∧ ack = (reseq c my peer seq0).mySeq) := and_congr_right fun _ => test
  unfold onSynRcvd renumber
  simp only
  by_cases rst : seg.flags.rst = true
  · simp only [rst, if_true]
    exact ⟨rfl, outs⟩
  · simp only [rst]
    by_cases match' : seg.flags.ack = true ∧ seg.ack = c.mySeq
    · rw [if_pos match', if_pos (acked.mp match')]
      exact ⟨rfl, outs⟩
    · rw [if_neg match', if_neg (mt acked.mpr match')]
      exact ⟨rfl, outs⟩

theorem onLastAck_alike :
    AlikeResult (onLastAck s seg l) (onLastAck t (renumber seg seq ack) k) := by
  obtain ⟨c, out, out', my, peer, seq0, rfl, rfl, outs⟩ := h.opened
  obtain ⟨d, seed, _, rfl⟩ := hs.exists_conn
  have acked : (seg.flags.ack = true ∧ seg.ack = c.mySeq) ↔
      (seg.flags.ack = true ∧ ack = (reseq c my peer seq0).mySeq) := and_congr_right fun _ => test
  unfold onLastAck renumber
  simp only
  by_cases match' : seg.flags.ack = true ∧ seg.ack = c.mySeq
  · rw [if_pos match', if_pos (acked.mp match')]
    exact ⟨rfl, outs⟩
  · rw [if_neg match', if_neg (mt acked.mpr match')]
    exact ⟨rfl, outs⟩

theorem onFinWait1_alike :
    AlikeResult (onFinWait1 env s seg l) (onFinWait1 env t (renumber seg seq ack) k) := by
  obtain ⟨c, out, out', my, peer, seq0, rfl, rfl, outs⟩ := h.opened
  obtain ⟨d, seed, _, rfl⟩ := hs.exists_conn
  have acked : (seg.flags.ack = true ∧ seg.ack = c.mySeq) ↔
      (seg.flags.ack = true ∧ ack = (reseq c my peer seq0).mySeq) := and_congr_right fun _ => test
  have grown : ∀ x y : Sent, eraseSent x = eraseSent y → AlikeOut (out ++ [x]) (out' ++ [y]) := by
    intro x y same
    apply outs.append
    simp only [AlikeOut, List.map_cons, List.map_nil, same]
  unfold onFinWait1 renumber
  simp only [tcpSend_empty, outs.length]
  by_cases match' : seg.flags.ack = true ∧ seg.ack = c.mySeq
  · simp only [if_pos match', if_pos (acked.mp match')]
    by_cases fin : seg.flags.fin = true
    · simp only [if_pos fin]
      exact ⟨rfl, grown _ _ rfl⟩
    · simp only [if_neg fin]
      exact ⟨rfl, outs⟩
  · have finAcked : (reseq c my peer seq0).finAcked = c.finAcked := rfl
    simp only [if_neg match', if_neg (mt acked.mpr match')]
    by_cases fin : seg.flags.fin = true
    · simp only [if_pos fin, finAcked]
      refine ⟨?_, grown _ _ rfl⟩
      split_ifs <;> rfl
    · simp only [if_neg fin, finAcked]
      refine ⟨?_, outs⟩
      split_ifs <;> rfl

end

theorem onData_alike (test : seg.seq = l.conn.peerSeq ↔ seq = k.conn.peerSeq) :
    AlikeResult (onData env s seg l) (onData env t (renumber seg seq ack) k) := by
  have req : acceptReq t.req k.conn (renumber seg seq ack) = acceptReq s.req l.conn seg := by
    unfold acceptReq renumber
    rw [hs.req]
    by_cases match' : seg.seq = l.conn.peerSeq
    · rw [if_pos match', if_pos (test.mp match')]
    · rw [if_neg match', if_neg fun other => match' (test.mpr other)]
  have conn : AlikeLine ⟨acceptConn l.conn seg, l.out⟩
      ⟨acceptConn k.conn (renumber seg seq ack), k.out⟩ :=
    ⟨acceptConn_alike h.conn test, h.out⟩
  have sent := tcpSend_alike env conn flagsAck
  obtain ⟨d, seed, _, rfl⟩ := hs.exists_conn
  unfold onData
  simp only [req]
  split_ifs
  · have answered := tcpSendResponse_alike env sent
    exact ⟨alikeServer_of answered.conn [] s.isnSeed seed, answered.out⟩
  · exact ⟨alikeServer_of conn.conn _ s.isnSeed seed, sent.out⟩

theorem onPeerFin_alike :
    AlikeResult (onPeerFin env s seg l) (onPeerFin env t (renumber seg seq ack) k) := by
  obtain ⟨c, out, out', my, peer, seq0, rfl, rfl, outs⟩ := h.opened
  obtain ⟨d, seed, _, rfl⟩ := hs.exists_conn
  have noted : AlikeLine ⟨{ c with peerSeq := add64 seg.seq 1, peerFin := true }, out⟩
      ⟨{ reseq c my peer seq0 with peerSeq := add64 seq 1, peerFin := true }, out'⟩ :=
    ⟨rfl, h.out⟩
  have rest : ((reseq c my peer seq0).sndNxt < (reseq c my peer seq0).sndLen ∨
      (reseq c my peer seq0).sndFinPending = true) ↔
      (c.sndNxt < c.sndLen ∨ c.sndFinPending = true) := Iff.rfl
  unfold onPeerFin renumber
  simp only [rest]
  split_ifs
  · have pumped := tcpPump_alike env (tcpSend_alike env noted flagsAck)
    exact ⟨alikeServer_of pumped.conn s.req s.isnSeed seed, pumped.out⟩
  · exact ⟨rfl, (tcpSend_alike env noted flagsFinAck).out⟩

theorem onEstablished_alike
    (test : seg.data ≠ [] → (seg.seq = l.conn.peerSeq ↔ seq = k.conn.peerSeq)) :
    AlikeResult (onEstablished env s seg l) (onEstablished env t (renumber seg seq ack) k) := by
  have finish : ∀ r q : Server × List Sent, AlikeResult r q →
      AlikeResult (if seg.flags.fin = true then onPeerFin env r.1 seg ⟨r.1.conn, r.2⟩ else r)
        (if seg.flags.fin = true then
          onPeerFin env q.1 (renumber seg seq ack) ⟨q.1.conn, q.2⟩ else q) := by
    intro r q same
    split_ifs
    · exact onPeerFin_alike ⟨same.srv.conn, same.out⟩ same.srv
    · exact same
  have flags : (renumber seg seq ack).flags = seg.flags := rfl
  have data : (renumber seg seq ack).data = seg.data := rfl
  unfold onEstablished
  rw [flags, data]
  by_cases rst : seg.flags.rst = true
  · rw [if_pos rst, if_pos rst]
    obtain ⟨c, out, out', my, peer, seq0, rfl, rfl, outs⟩ := h.opened
    obtain ⟨d, seed, _, rfl⟩ := hs.exists_conn
    exact ⟨rfl, h.out⟩
  rw [if_neg rst, if_neg rst]
  by_cases some : seg.data ≠ []
  · rw [if_pos some, if_pos some]
    exact finish _ _ (onData_alike h hs (test some))
  · rw [if_neg some, if_neg some]
    exact finish _ _ (h.result hs)

end

/-- Two alike servers that get the same segment under other sequence numbers end
alike, when every comparison of a sequence number comes out the same. -/
theorem receive_alike {via : Bool} (hs : AlikeServer s t)
    (slides : seg.flags.ack = true → 0 < s.conn.sndLen →
      sub64 seg.ack s.conn.sndSeq0 = sub64 ack t.conn.sndSeq0)
    (ackTest : (touch env seg s.conn).conn.state ≠ .closed →
      (touch env seg s.conn).conn.state ≠ .listen →
      (touch env seg s.conn).conn.state ≠ .established →
      (seg.ack = (touch env seg s.conn).conn.mySeq ↔
        ack = (touch env (renumber seg seq ack) t.conn).conn.mySeq))
    (seqTest : (touch env seg s.conn).conn.state = .established → seg.data ≠ [] →
      (seg.seq = s.conn.peerSeq ↔ seq = t.conn.peerSeq)) :
    AlikeResult (receive env s via seg) (receive env t via (renumber seg seq ack)) := by
  have h : AlikeLine (touch env seg s.conn) (touch env (renumber seg seq ack) t.conn) :=
    touch_alike env hs.conn slides
  have sameState : (touch env (renumber seg seq ack) t.conn).conn.state =
      (touch env seg s.conn).conn.state := (congrArg Conn.state h.conn).symm
  by_cases idle : (touch env seg s.conn).conn.state = .closed ∨
      (touch env seg s.conn).conn.state = .listen
  · rw [receive_listen env s via seg idle,
      receive_listen env t via (renumber seg seq ack) (by rw [sameState]; exact idle)]
    exact onListen_alike h hs
  have active := not_or.mp idle
  have port : (touch env (renumber seg seq ack) t.conn).conn.peerPort =
      (touch env seg s.conn).conn.peerPort := (congrArg Conn.peerPort h.conn).symm
  have ip : (touch env (renumber seg seq ack) t.conn).conn.peerIp =
      (touch env seg s.conn).conn.peerIp := (congrArg Conn.peerIp h.conn).symm
  have samePeer : FromPeer (touch env (renumber seg seq ack) t.conn).conn (renumber seg seq ack) ↔
      FromPeer (touch env seg s.conn).conn seg := by
    unfold FromPeer
    rw [port, ip]
    rfl
  by_cases peer : FromPeer (touch env seg s.conn).conn seg
  swap
  · rw [receive_stranger env s via seg active.1 active.2 peer,
      receive_stranger env t via (renumber seg seq ack) (by rw [sameState]; exact active.1)
        (by rw [sameState]; exact active.2) fun other => peer (samePeer.mp other)]
    exact h.result hs
  have peer' := samePeer.mpr peer
  cases state : (touch env seg s.conn).conn.state with
  | closed => exact (active.1 state).elim
  | listen => exact (active.2 state).elim
  | synRcvd =>
    rw [receive_synRcvd env s via seg peer state,
      receive_synRcvd env t via (renumber seg seq ack) peer' (sameState.trans state)]
    exact onSynRcvd_alike h hs (ackTest active.1 active.2 (by rw [state]; decide))
  | established =>
    rw [receive_established env s via seg peer state,
      receive_established env t via (renumber seg seq ack) peer' (sameState.trans state)]
    apply onEstablished_alike h hs
    intro some
    obtain ⟨_, _, _, _, _, _, _, left⟩ := touch_eq env seg s.conn
    obtain ⟨_, _, _, _, _, _, _, right⟩ := touch_eq env (renumber seg seq ack) t.conn
    rw [left, right]
    exact seqTest state some
  | finWait1 =>
    rw [receive_finWait1 env s via seg peer state,
      receive_finWait1 env t via (renumber seg seq ack) peer' (sameState.trans state)]
    exact onFinWait1_alike h hs (ackTest active.1 active.2 (by rw [state]; decide))
  | lastAck =>
    rw [receive_lastAck env s via seg peer state,
      receive_lastAck env t via (renumber seg seq ack) peer' (sameState.trans state)]
    exact onLastAck_alike h hs (ackTest active.1 active.2 (by rw [state]; decide))

end Branches

end XinuRpi5.System.TcpErasure
