/- source: system/browser.c
   digest: What the hook reads of a frame, and the page as a prefix of what the server sent. -/

import XinuRpi5.Lib.GuardedRuns
import XinuRpi5.System.Browser
import Mathlib.Tactic.SplitIfs

namespace XinuRpi5.System.BrowserPage

open Lib.ReadLog Lib.ReadLog.Log Lib.GuardedRuns
  TcpHandler Browser

def seqOf (f : Frame) : Nat := f.at32 (f.tcpAt + 4)

def flagsAt (f : Frame) : Nat := f.at8 (f.tcpAt + 13)

/-- `thl`. -/
def tcpHeaderLen (f : Frame) : Nat := max f.dataOff 20

def dataAt (f : Frame) : Nat := f.tcpAt + tcpHeaderLen f

/-- `dlen`, from the IP header. -/
def dataLen (f : Frame) : Nat := f.totalLen - f.ipHeaderLen - tcpHeaderLen f

def segment (s : Vars) (f : Frame) : Log Nat Handled :=
  tcpState s f (seqOf f) (f.at32 (f.tcpAt + 8)) (dataAt f) (dataLen f) (flagsAt f)

structure Reaches (c : Conn) (f : Frame) : Prop where
  header : 34 ≤ f.len
  ipv4 : f.at16 12 = 0x0800
  ihl : 20 ≤ f.ipHeaderLen
  tcp : f.at8 23 = 6
  whole : f.tcpAt + 20 ≤ f.len
  opened : c.state ≠ .closed
  dst : f.dstPort = c.lport
  src : f.srcPort = c.rport

def Open (c : Conn) : Prop := c.state = .established ∨ c.state = .peerFin

structure InOrder (c : Conn) (f : Frame) : Prop where
  reaches : Reaches c f
  stays : (flagsAt f).testBit 2 = false
  opened : Open c
  next : seqOf f = c.rcvNxt

def Fits (s : Vars) (f : Frame) : Prop :=
  InOrder s.conn f → ∀ i < min (dataLen f) (brRxcap - 1 - s.page.length), dataAt f + i < f.len

section Inside

variable {f : Frame} {n : Nat}

variable {i : Nat} {s : Vars}

theorem within_at8 (less : i < n) : Within (· < n) (at8 f i) := by
  intro j there
  obtain rfl := List.mem_singleton.mp there
  exact less

theorem within_at16 (less : i + 1 < n) : Within (· < n) (at16 f i) := by
  intro j there
  have range : j ∈ [i, i + 1] := there
  simp only [List.mem_cons, List.not_mem_nil, or_false] at range
  omega

theorem within_at32 (less : i + 3 < n) : Within (· < n) (at32 f i) := by
  intro j there
  have range : j ∈ [i, i + 1, i + 2, i + 3] := there
  simp only [List.mem_cons, List.not_mem_nil, or_false] at range
  omega

theorem within_bytes {m : Nat} : Within (· < n) (bytes f i m) ↔ ∀ k < m, i + k < n := by
  constructor
  · intro inside k less
    exact inside (i + k) (List.mem_range'_1.mpr ⟨Nat.le_add_right i k, by omega⟩)
  · intro inside j there
    obtain ⟨least, less⟩ := List.mem_range'_1.mp there
    obtain ⟨k, rfl⟩ := Nat.exists_eq_add_of_le least
    exact inside k (by omega)

/-- A frame that is read inside and has nothing to do with the connection. -/
structure Apart (s : Vars) (n : Nat) (x : Log Nat Handled) : Prop where
  within : Within (· < n) x
  page : x.value.2.1.page = s.page
  conn : x.value.2.1.conn = s.conn

theorem apart_pure (s : Vars) (n : Nat) (r : Int) : Apart s n (pure (r, s, [])) :=
  ⟨within_pure _ _, rfl, rfl⟩

theorem apart_bind {α : Type} {x : Log Nat α} {g : α → Log Nat Handled}
    (first : Within (· < n) x) (later : Apart s n (g x.value)) : Apart s n (x >>= g) :=
  ⟨within_bind.mpr ⟨first, later.within⟩, later.page, later.conn⟩

theorem arpFrame_apart (s : Vars) (long : 42 ≤ f.len) : Apart s f.len (arpFrame s f) := by
  unfold arpFrame
  apply apart_bind (within_at8 (by omega))
  split_ifs
  · exact apart_pure s f.len 0
  · apply apart_bind (within_at8 (by omega))
    split_ifs
    · exact apart_pure s f.len 0
    · apply apart_bind (within_bytes.mpr fun k less => by omega)
      apply apart_bind (within_bytes.mpr fun k less => by omega)
      exact ⟨within_pure _ _, rfl, rfl⟩

section Dns

variable {d dl : Nat}

section

variable (size : d + dl = f.len)

include size

theorem skipQuestion_within (rounds p : Nat) :
    Within (· < f.len) (skipQuestion f d dl rounds p) := by
  induction rounds generalizing p with
  | zero => exact within_pure _ _
  | succ rounds ih =>
    unfold skipQuestion
    split_ifs with below
    · rw [within_bind_of (within_at8 (by omega))]
      split_ifs
      · exact within_pure _ _
      · exact within_pure _ _
      · exact ih _
    · exact within_pure _ _

theorem skipLabels_within (rounds p : Nat) :
    Within (· < f.len) (skipLabels f d dl rounds p) := by
  induction rounds generalizing p with
  | zero => exact within_pure _ _
  | succ rounds ih =>
    unfold skipLabels
    split_ifs with below
    · rw [within_bind_of (within_at8 (by omega))]
      split_ifs
      · exact within_pure _ _
      · exact ih _
    · exact within_pure _ _

theorem skipName_within (b p : Nat) :
    Within (· < f.len) (skipName f d dl b p) := by
  unfold skipName
  split_ifs
  · exact within_pure _ _
  · rw [within_bind_of (skipLabels_within size dl p)]
    exact within_pure _ _

theorem skipQuestions_within (qd p : Nat) :
    Within (· < f.len) (skipQuestions f d dl qd p) := by
  induction qd generalizing p with
  | zero => exact within_pure _ _
  | succ qd ih =>
    unfold skipQuestions
    split_ifs with below
    · rw [within_bind_of (skipQuestion_within size dl p)]
      split_ifs with below
      · rw [within_bind_of (within_at8 (by omega))]
        exact ih _
      · exact ih _
    · exact within_pure _ _

theorem findAddress_within (an p : Nat) :
    Within (· < f.len) (findAddress f d dl an p) := by
  induction an generalizing p with
  | zero => exact within_pure _ _
  | succ an ih =>
    unfold findAddress
    split_ifs with room
    · rw [within_bind_of (within_at8 (by omega)), within_bind_of (skipName_within size _ p)]
      generalize (skipName f d dl (at8 f (d + p)).value p).value = q
      split_ifs with behind
      · exact within_pure _ _
      · rw [within_bind_of (within_at16 (by omega)), within_bind_of (within_at16 (by omega))]
        split_ifs with address
        · rw [within_bind_of (within_bytes.mpr fun k less => by omega)]
          exact within_pure _ _
        · exact ih _
    · exact within_pure _ _

end

theorem udpFrame_apart (s : Vars) (ihl : Nat) :
    Apart s f.len (udpFrame s f ihl) := by
  unfold udpFrame
  split_ifs with short
  · exact apart_pure s f.len 0
  · apply apart_bind (within_at16 (by omega))
    apply apart_bind (within_at16 (by omega))
    split_ifs with other
    · exact apart_pure s f.len 0
    · simp only
      split_ifs with small
      · exact apart_pure s f.len 0
      · have size : 14 + ihl + 8 + (f.len - (14 + ihl + 8)) = f.len := by omega
        apply apart_bind (within_at16 (by omega))
        apply apart_bind (within_at16 (by omega))
        split_ifs
        · exact apart_pure s f.len 0
        · apply apart_bind (skipQuestions_within size _ _)
          apply apart_bind (findAddress_within size _ _)
          split
          · exact ⟨within_pure _ _, rfl, rfl⟩
          · exact apart_pure s f.len 0

end Dns

theorem openSegment_within {seq d dlen : Nat} {fin : Bool} :
    Within (· < f.len) (openSegment s f seq d dlen fin) ↔
      (seq = s.conn.rcvNxt →
        ∀ i < min dlen (brRxcap - 1 - s.page.length), d + i < f.len) := by
  unfold Browser.openSegment takeData
  by_cases none : 0 < dlen
  · by_cases next : seq = s.conn.rcvNxt
    · rw [if_neg (fun late => late.2 next), if_pos none]
      simp only [within_bind, within_pure, and_true, within_bytes]
      exact ⟨fun inside _ => inside, fun inside => inside next⟩
    · rw [if_pos ⟨none, next⟩]
      exact iff_of_true (within_pure _ _) fun same => absurd same next
  · rw [if_neg (fun late => none late.1), if_neg none]
    refine iff_of_true ?_ fun _ i less => ?_
    · rw [within_bind_of (within_pure _ _)]
      exact within_pure _ _
    · exact absurd (Nat.lt_of_lt_of_le less (Nat.min_le_left _ _)) (by omega)

theorem tcpState_within {seq ack d dlen fl : Nat} (opened : s.conn.state ≠ .closed) :
    Within (· < f.len) (tcpState s f seq ack d dlen fl) ↔
      (fl.testBit 2 = false → Open s.conn → seq = s.conn.rcvNxt →
        ∀ i < min dlen (brRxcap - 1 - s.page.length), d + i < f.len) := by
  unfold tcpState
  by_cases rst : fl.testBit 2 = true
  · rw [if_pos rst]
    refine iff_of_true (within_pure _ _) fun stays => ?_
    rw [rst] at stays
    cases stays
  · rw [if_neg rst]
    have stays : fl.testBit 2 = false := Bool.eq_false_iff.mpr rst
    by_cases sent : s.conn.state = .synSent
    · refine iff_of_true ?_ fun _ both => ?_
      · split_ifs
        · exact within_pure _ _
        · exact within_pure _ _
      · rcases both with state | state
        · exact absurd (sent.symm.trans state) (by decide)
        · exact absurd (sent.symm.trans state) (by decide)
    · rw [if_neg fun both => sent both.1, if_neg sent, openSegment_within]
      have both : Open s.conn := by
        unfold Open
        cases state : s.conn.state with
        | closed => exact absurd state opened
        | synSent => exact absurd state sent
        | established => exact Or.inl rfl
        | peerFin => exact Or.inr rfl
      exact ⟨fun inside _ _ => inside, fun inside => inside stays both⟩

/-- A frame of the connection is what the states make of it, any other is nothing. -/
def Split (s : Vars) (f : Frame) (x : Log Nat Handled) : Prop :=
  Reaches s.conn f ∧ x.value = (segment s f).value ∧
      (Within (· < f.len) x ↔ Within (· < f.len) (segment s f)) ∨
    ¬Reaches s.conn f ∧ Apart s f.len x

theorem split_bind {α : Type} {x : Log Nat α} {g : α → Log Nat Handled}
    (first : Within (· < f.len) x) (later : Split s f (g x.value)) : Split s f (x >>= g) := by
  rcases later with ⟨reaches, value, within⟩ | ⟨other, apart⟩
  · exact Or.inl ⟨reaches, value, (within_bind_of first).trans within⟩
  · exact Or.inr ⟨other, apart_bind first apart⟩

theorem tcpFrame_split (header : 34 ≤ f.len) (ipv4 : f.at16 12 = 0x0800)
    (ihl : 20 ≤ f.ipHeaderLen) (tcp : f.at8 23 = 6) :
    Split s f (tcpFrame s f f.ipHeaderLen) := by
  unfold tcpFrame
  by_cases whole : f.len < 14 + f.ipHeaderLen + 20
  · rw [if_pos whole]
    exact Or.inr ⟨fun reaches => absurd reaches.whole (Nat.not_le.mpr whole), apart_pure s _ 0⟩
  · rw [if_neg whole]
    apply split_bind (within_at16 (by omega))
    rw [value_at16]
    by_cases dst : s.conn.state = .closed ∨ f.at16 (14 + f.ipHeaderLen + 2) ≠ s.conn.lport
    · rw [if_pos dst]
      refine Or.inr ⟨fun reaches => ?_, apart_pure s _ 0⟩
      rcases dst with closed | other
      · exact absurd closed reaches.opened
      · exact absurd reaches.dst other
    · rw [if_neg dst]
      apply split_bind (within_at16 (by omega))
      rw [value_at16]
      by_cases src : f.at16 (14 + f.ipHeaderLen) ≠ s.conn.rport
      · rw [if_pos src]
        exact Or.inr ⟨fun reaches => absurd reaches.src src, apart_pure s _ 0⟩
      · rw [if_neg src]
        apply split_bind (within_at32 (by omega))
        apply split_bind (within_at32 (by omega))
        apply split_bind (within_at8 (by omega))
        apply split_bind (within_at8 (by omega))
        apply split_bind (within_at16 (by omega))
        obtain ⟨opened, port⟩ := not_or.mp dst
        exact Or.inl ⟨⟨header, ipv4, ihl, tcp, Nat.not_lt.mp whole, opened, not_not.mp port,
          not_not.mp src⟩, rfl, Iff.rfl⟩

theorem browserHandle_split (s : Vars) (f : Frame) : Split s f (browserHandle s f) := by
  have early {x : Log Nat Handled} (apart : Apart s f.len x)
      (stop : ¬(34 ≤ f.len ∧ f.at16 12 = 0x0800 ∧ 20 ≤ f.ipHeaderLen ∧ f.at8 23 = 6)) :
      Split s f x :=
    Or.inr ⟨fun reaches => stop ⟨reaches.header, reaches.ipv4, reaches.ihl, reaches.tcp⟩, apart⟩
  unfold browserHandle
  by_cases short : f.len < 14
  · rw [if_pos short]
    exact early (apart_pure s _ 0) fun all => by omega
  · rw [if_neg short]
    apply split_bind (within_at16 (by omega))
    rw [value_at16]
    by_cases arp : f.at16 12 = 0x0806 ∧ 42 ≤ f.len
    · rw [if_pos arp]
      exact early (arpFrame_apart s arp.2) fun all => by omega
    · rw [if_neg arp]
      by_cases other : f.at16 12 ≠ 0x0800 ∨ f.len < 34
      · rw [if_pos other]
        exact early (apart_pure s _ 0) fun all => by omega
      · rw [if_neg other]
        obtain ⟨type, long⟩ := not_or.mp other
        apply split_bind (within_at8 (by omega))
        change Split s f (if f.ipHeaderLen < 20 then _ else _)
        by_cases small : f.ipHeaderLen < 20
        · rw [if_pos small]
          exact early (apart_pure s _ 0) fun all => by omega
        · rw [if_neg small]
          apply split_bind (within_at8 (by omega))
          rw [value_at8]
          by_cases udp : f.at8 23 = 17
          · rw [if_pos udp]
            exact early (udpFrame_apart s _) fun all => by omega
          · rw [if_neg udp]
            by_cases tcp : f.at8 23 = 6
            · rw [if_pos tcp]
              exact tcpFrame_split (by omega) (not_not.mp type) (by omega) tcp
            · rw [if_neg tcp]
              exact early (apart_pure s _ 0) fun all => by omega

theorem browserHandle_within (s : Vars) (f : Frame) :
    Within (· < f.len) (browserHandle s f) ↔ Fits s f := by
  rcases browserHandle_split s f with ⟨reaches, _, within⟩ | ⟨other, apart⟩
  · refine within.trans ((tcpState_within reaches.opened).trans ?_)
    constructor
    · intro inside order
      exact inside order.stays order.opened order.next
    · intro fits stays both next
      exact fits ⟨reaches, stays, both, next⟩
  · exact iff_of_true apart.within fun order => absurd order.reaches other

end Inside

section Outcomes

variable {s : Vars} {f : Frame}

def finOf (f : Frame) : Bool := (flagsAt f).testBit 0

def stored (s : Vars) (f : Frame) : List UInt8 :=
  f.bytes (dataAt f) (min (dataLen f) (brRxcap - 1 - s.page.length))

structure Answers (c : Conn) (f : Frame) : Prop where
  reaches : Reaches c f
  stays : (flagsAt f).testBit 2 = false
  sent : c.state = .synSent
  syn : (flagsAt f).testBit 1 = true
  ack : (flagsAt f).testBit 4 = true

inductive Outcome (s : Vars) (f : Frame) (t : Vars) : Prop
  | kept (page : t.page = s.page) (conn : t.conn = s.conn)
  | reset (page : t.page = s.page) (closed : t.conn.state = .closed)
  | answered (answer : Answers s.conn f) (page : t.page = s.page)
      (state : t.conn.state = .established) (next : t.conn.rcvNxt = seqOf f + 1)
  | taken (order : InOrder s.conn f) (more : 0 < dataLen f ∨ finOf f = true)
      (page : t.page = s.page ++ stored s f) (state : Open t.conn)
      (next : t.conn.rcvNxt = seqOf f + dataLen f + (finOf f).toNat)

theorem openSegment_outcome (reaches : Reaches s.conn f) (stays : (flagsAt f).testBit 2 = false)
    (opened : Open s.conn) :
    Outcome s f (openSegment s f (seqOf f) (dataAt f) (dataLen f) (finOf f)).value.2.1 := by
  unfold Browser.openSegment
  by_cases some : 0 < dataLen f
  · by_cases next : seqOf f = s.conn.rcvNxt
    · have order : InOrder s.conn f := ⟨reaches, stays, opened, next⟩
      rw [if_neg fun late => late.2 next]
      unfold takeData
      rw [if_pos some]
      simp only [value_bind, value_pure, value_bytes]
      unfold takeFin
      cases fin : finOf f with
      | false =>
        have flag : (finOf f).toNat = 0 := congrArg Bool.toNat fin
        rw [if_pos rfl]
        refine Outcome.taken order (Or.inl some) rfl opened ?_
        rw [flag]
        exact (Nat.add_zero _).symm
      | true =>
        have flag : (finOf f).toNat = 1 := congrArg Bool.toNat fin
        have same : ¬seqOf f + dataLen f ≠ seqOf f + dataLen f := fun other => other rfl
        rw [if_neg (Bool.false_ne_true ·.symm), if_neg same]
        refine Outcome.taken order (Or.inl some) rfl (Or.inr rfl) ?_
        rw [flag]
    · rw [if_pos ⟨some, next⟩]
      exact Outcome.kept rfl rfl
  · have none : dataLen f = 0 := Nat.eq_zero_of_not_pos some
    rw [if_neg fun late => some late.1]
    unfold takeData
    rw [if_neg some]
    simp only [value_bind, value_pure]
    unfold takeFin
    cases fin : finOf f with
    | false => exact Outcome.kept rfl rfl
    | true =>
      rw [if_neg (by decide)]
      by_cases next : seqOf f + dataLen f ≠ s.conn.rcvNxt
      · rw [if_pos next]
        exact Outcome.kept rfl rfl
      · rw [if_neg next]
        have same : seqOf f + dataLen f = s.conn.rcvNxt := not_not.mp next
        refine Outcome.taken ⟨reaches, stays, opened, ?_⟩ (Or.inr fin) ?_ (Or.inr rfl) ?_
        · rwa [none, Nat.add_zero] at same
        · unfold stored
          rw [none, Nat.zero_min]
          exact (List.append_nil s.page).symm
        · rw [fin, same]
          rfl

theorem segment_outcome (reaches : Reaches s.conn f) : Outcome s f (segment s f).value.2.1 := by
  unfold segment tcpState
  by_cases rst : (flagsAt f).testBit 2 = true
  · rw [if_pos rst]
    exact Outcome.reset rfl rfl
  · rw [if_neg rst]
    have stays := Bool.eq_false_iff.mpr rst
    by_cases answer : s.conn.state = .synSent ∧ (flagsAt f).testBit 1 ∧ (flagsAt f).testBit 4
    · rw [if_pos answer]
      obtain ⟨sent, syn, ack⟩ := answer
      exact Outcome.answered ⟨reaches, stays, sent, syn, ack⟩ rfl rfl rfl
    · rw [if_neg answer]
      by_cases sent : s.conn.state = .synSent
      · rw [if_pos sent]
        exact Outcome.kept rfl rfl
      · rw [if_neg sent]
        refine openSegment_outcome reaches stays ?_
        unfold Open
        cases state : s.conn.state with
        | closed => exact absurd state reaches.opened
        | synSent => exact absurd state sent
        | established => exact Or.inl rfl
        | peerFin => exact Or.inr rfl

theorem browserHandle_outcome (s : Vars) (f : Frame) :
    Outcome s f (browserHandle s f).value.2.1 := by
  rcases browserHandle_split s f with ⟨reaches, value, _⟩ | ⟨_, apart⟩
  · rw [value]
    exact segment_outcome reaches
  · exact Outcome.kept apart.page apart.conn

end Outcomes

/-- The variables, and what the server sends on the connection: its first number and its bytes. -/
structure State where
  vars : Vars
  isn : Nat
  stream : List UInt8

inductive Op where
  | connect (rip : Ip) (rmac : List UInt8) (port now : Nat) (isn : Nat) (stream : List UInt8)
  | receive (f : Frame)
  | requested (n : Nat)
  | close

/-- The begin of `br_http_get`. -/
def brConnect (s : Vars) (rip : Ip) (rmac : List UInt8) (port now : Nat) : Vars :=
  { s with
    page := []
    conn := ⟨.synSent, rip, rmac, 49152 + now % 16384, (if 0 < port then port else 80) % 65536,
      now % 2 ^ 31, 0, false, false, false⟩ }

def step (s : State) : Op → Option State
  | .connect rip rmac port now isn stream =>
    some ⟨brConnect s.vars rip rmac port now, isn, stream⟩
  | .receive f => some { s with vars := (browserHandle s.vars f).value.2.1 }
  | .requested n =>
    some { s with vars := { s.vars with
      conn := { s.vars.conn with sndNxt := s.vars.conn.sndNxt + n } } }
  | .close => some { s with vars := { s.vars with conn := { s.vars.conn with state := .closed } } }

def start : State where
  vars := ⟨⟨.closed, [0, 0, 0, 0], [0, 0, 0, 0, 0, 0], 0, 0, 0, 0, false, false, false⟩, [],
    List.replicate 8 none, false, [0, 0, 0, 0], ⟨0, 0, 0, 0, 0⟩⟩
  isn := 0
  stream := []

/-- A segment that the server sends on the connection: its SYN, or bytes at their number, at most
a window ahead, with a FIN at the end. A part of it may be cut off on the way. -/
def SentSegment (s : State) (f : Frame) : Prop :=
  if (flagsAt f).testBit 1 then seqOf f = s.isn
  else ∃ offset, seqOf f = (s.isn + 1 + offset) % 2 ^ 32 ∧
    s.isn + 1 + offset < s.vars.conn.rcvNxt + 2 ^ 31 ∧ offset + dataLen f ≤ s.stream.length ∧
    (finOf f = true → offset + dataLen f = s.stream.length) ∧
    ∀ i < dataLen f, dataAt f + i < f.len → s.stream[offset + i]? = some (f.byte (dataAt f + i))

def Takes (c : Conn) (f : Frame) : Prop :=
  Answers c f ∨ InOrder c f ∧ (0 < dataLen f ∨ finOf f = true)

def Meets (s : State) : Op → Prop
  | .receive f => Takes s.vars.conn f →
    f.srcIp = s.vars.conn.rip ∧ SentSegment s f ∧ Fits s.vars f
  | _ => True

structure Inv (s : State) : Prop where
  pre : s.vars.page <+: s.stream
  room : s.vars.page.length ≤ brRxcap - 1
  begun : s.vars.conn.state = .synSent → s.vars.page = []
  next : Open s.vars.conn → s.vars.page.length < brRxcap - 1 →
    s.vars.conn.rcvNxt = s.isn + 1 + s.vars.page.length ∨
      s.vars.conn.rcvNxt = s.isn + 2 + s.stream.length

theorem start_inv : Inv start := by
  refine ⟨List.prefix_refl [], Nat.zero_le _, fun _ => rfl, fun opened => ?_⟩
  rcases opened with state | state
  · cases state
  · cases state

theorem stored_length (s : Vars) (f : Frame) :
    (stored s f).length = min (dataLen f) (brRxcap - 1 - s.page.length) := by
  unfold stored Frame.bytes
  rw [List.length_map, List.length_range]

theorem stored_get {s : Vars} {f : Frame} {i : Nat}
    (less : i < min (dataLen f) (brRxcap - 1 - s.page.length)) :
    (stored s f)[i]? = some (f.byte (dataAt f + i)) := by
  unfold stored Frame.bytes
  rw [List.getElem?_map, List.getElem?_range less]
  rfl

theorem prefix_append {α : Type} {xs ys stream : List α} (pre : xs <+: stream)
    (behind : ∀ i < ys.length, stream[xs.length + i]? = ys[i]?) : xs ++ ys <+: stream := by
  obtain ⟨rest, rfl⟩ := pre
  rw [List.prefix_append_right_inj, List.prefix_iff_getElem?]
  intro i less
  have same := behind i less
  rw [List.getElem?_append_right (Nat.le_add_right _ _), Nat.add_sub_cancel_left] at same
  rw [same, List.getElem?_eq_getElem less]

theorem sent_next {s : State} {f : Frame} (sent : SentSegment s f)
    (next : seqOf f = s.vars.conn.rcvNxt) (behind : s.isn < s.vars.conn.rcvNxt) :
    ∃ offset, s.isn + 1 + offset = s.vars.conn.rcvNxt ∧
      offset + dataLen f ≤ s.stream.length ∧
      (finOf f = true → offset + dataLen f = s.stream.length) ∧
      ∀ i < dataLen f, dataAt f + i < f.len →
        s.stream[offset + i]? = some (f.byte (dataAt f + i)) := by
  unfold SentSegment at sent
  split_ifs at sent with syn
  · omega
  · obtain ⟨offset, number, window, inside, last, bytes⟩ := sent
    refine ⟨offset, ?_, inside, last, bytes⟩
    omega

theorem taken_inv {s : State} (inv : Inv s) {f : Frame} (sent : SentSegment s f)
    (fits : Fits s.vars f) {t : Vars} (order : InOrder s.vars.conn f)
    (page : t.page = s.vars.page ++ stored s.vars f) (opened : Open t.conn)
    (next : t.conn.rcvNxt = seqOf f + dataLen f + (finOf f).toNat) :
    Inv { s with vars := t } := by
  have length := stored_length s.vars f
  have room := inv.room
  have least := Nat.min_le_left (dataLen f) (brRxcap - 1 - s.vars.page.length)
  have most := Nat.min_le_right (dataLen f) (brRxcap - 1 - s.vars.page.length)
  have whole : t.page.length = s.vars.page.length + (stored s.vars f).length := by
    rw [page, List.length_append]
  -- While there is room, the segment stands right behind the page.
  have place (free : s.vars.page.length < brRxcap - 1) :
      s.isn + 1 + s.vars.page.length = s.vars.conn.rcvNxt ∧
        (finOf f = true → s.vars.page.length + dataLen f = s.stream.length) ∧
        ∀ i < dataLen f, dataAt f + i < f.len →
          s.stream[s.vars.page.length + i]? = some (f.byte (dataAt f + i)) := by
    have counted := inv.next order.opened free
    obtain ⟨offset, number, inside, last, bytes⟩ := sent_next sent order.next (by omega)
    have same : offset = s.vars.page.length := by omega
    rw [← same]
    exact ⟨number, last, bytes⟩
  refine ⟨?_, ?_, fun syn => ?_, fun _ free => ?_⟩
  · change t.page <+: s.stream
    rw [page]
    refine prefix_append inv.pre fun i less => ?_
    rw [stored_get (by omega)]
    exact (place (by omega)).2.2 i (by omega) (fits order i (by omega))
  · change t.page.length ≤ brRxcap - 1
    omega
  · change t.conn.state = .synSent at syn
    rcases opened with state | state
    · cases syn.symm.trans state
    · cases syn.symm.trans state
  · change t.page.length < brRxcap - 1 at free
    change t.conn.rcvNxt = s.isn + 1 + t.page.length ∨ t.conn.rcvNxt = s.isn + 2 + s.stream.length
    obtain ⟨number, last, _⟩ := place (by omega)
    have all : (stored s.vars f).length = dataLen f := by omega
    have expected := order.next
    cases fin : finOf f with
    | false =>
      rw [fin] at next
      change t.conn.rcvNxt = seqOf f + dataLen f + 0 at next
      left
      omega
    | true =>
      rw [fin] at next
      change t.conn.rcvNxt = seqOf f + dataLen f + 1 at next
      have ends := last fin
      right
      omega

theorem step_inv {s t : State} {op : Op} (inv : Inv s) (meets : Meets s op)
    (goes : step s op = some t) : Inv t := by
  cases op with
  | connect rip rmac port now isn stream =>
    obtain rfl := Option.some.inj goes
    refine ⟨List.nil_prefix, Nat.zero_le _, fun _ => rfl, fun opened => ?_⟩
    rcases opened with state | state
    · cases state
    · cases state
  | requested n =>
    obtain rfl := Option.some.inj goes
    exact ⟨inv.pre, inv.room, inv.begun, inv.next⟩
  | close =>
    obtain rfl := Option.some.inj goes
    refine ⟨inv.pre, inv.room, fun syn => ?_, fun opened => ?_⟩
    · cases syn
    · rcases opened with state | state
      · cases state
      · cases state
  | receive f =>
    obtain rfl := Option.some.inj goes
    have outcome := browserHandle_outcome s.vars f
    generalize (browserHandle s.vars f).value.2.1 = t at outcome
    cases outcome with
    | kept page conn =>
      constructor
      · change t.page <+: s.stream
        rw [page]
        exact inv.pre
      · change t.page.length ≤ _
        rw [page]
        exact inv.room
      · change t.conn.state = .synSent → t.page = []
        rw [page, conn]
        exact inv.begun
      · change Open t.conn → t.page.length < _ → t.conn.rcvNxt = s.isn + 1 + t.page.length ∨ _
        rw [page, conn]
        exact inv.next
    | reset page closed =>
      constructor
      · change t.page <+: s.stream
        rw [page]
        exact inv.pre
      · change t.page.length ≤ _
        rw [page]
        exact inv.room
      · change t.conn.state = .synSent → t.page = []
        rw [closed]
        intro syn
        cases syn
      · intro opened
        rcases opened with state | state
        · cases closed.symm.trans state
        · cases closed.symm.trans state
    | answered answer page state next =>
      obtain ⟨_, sent, _⟩ := meets (Or.inl answer)
      unfold SentSegment at sent
      rw [if_pos answer.syn] at sent
      have empty := inv.begun answer.sent
      rw [empty] at page
      constructor
      · change t.page <+: s.stream
        rw [page]
        exact List.nil_prefix
      · change t.page.length ≤ _
        rw [page]
        exact Nat.zero_le _
      · intro _
        exact page
      · intro _ _
        left
        change t.conn.rcvNxt = s.isn + 1 + t.page.length
        rw [next, page, sent]
        rfl
    | taken order more page opened next =>
      obtain ⟨_, sent, fits⟩ := meets (Or.inr ⟨order, more⟩)
      exact taken_inv inv sent fits order page opened next

/-- In every run whose steps meet the condition the page is a prefix of what the server sends
and no frame is read behind its end; what is read lies inside exactly if the frame fits. -/
theorem page_is_prefix {s : State} (run : Runs step Meets start s) :
    s.vars.page <+: s.stream ∧
      (∀ f, Meets s (.receive f) → Within (· < f.len) (browserHandle s.vars f)) ∧
      ∀ f, Within (· < f.len) (browserHandle s.vars f) ↔ Fits s.vars f := by
  have inv : Inv s := run.invariant start_inv fun _ _ _ inv meets goes => step_inv inv meets goes
  refine ⟨inv.pre, fun f meets => ?_, browserHandle_within s.vars⟩
  rw [browserHandle_within]
  intro order i less
  have some : 0 < dataLen f := by
    have := Nat.min_le_left (dataLen f) (brRxcap - 1 - s.vars.page.length)
    omega
  obtain ⟨_, _, fits⟩ := meets (Or.inr ⟨order, Or.inl some⟩)
  exact fits order i less

def server : Ip := [10, 0, 0, 9]

def frameFrom (ip : Ip) (seq flags : Nat) (data : List UInt8) : Frame :=
  let bytes := List.replicate 12 0 ++ [8, 0, 0x45, 0] ++ bytes16 (40 + data.length) ++
    [0, 0, 0, 0, 64, 6, 0, 0] ++ ip ++ [10, 0, 0, 1] ++ bytes16 80 ++ bytes16 49152 ++
    bytes32 seq ++ [0, 0, 0, 0, 80, UInt8.ofNat flags, 0, 0, 0, 0, 0, 0] ++ data
  ⟨fun i => bytes.getD i 0, bytes.length⟩

/-- A connection to a server that sends one byte, before and after its answer. -/
def asked : State := ⟨brConnect start.vars server [0, 0, 0, 0, 0, 0] 80 0, 7, [0x41]⟩

def answered : State :=
  { asked with vars := (browserHandle asked.vars (frameFrom server 7 0x12 [])).value.2.1 }

theorem page_is_prefix_one : ∃ s, s.vars.page = [0x41] ∧ s.vars.page <+: s.stream ∧
    (∀ f, Meets s (.receive f) → Within (· < f.len) (browserHandle s.vars f)) ∧
    ∀ f, Within (· < f.len) (browserHandle s.vars f) ↔ Fits s.vars f := by
  have answer : Meets asked (.receive (frameFrom server 7 0x12 [])) := by
    intro _
    refine ⟨by decide +kernel, ?_, fun order => ?_⟩
    · unfold SentSegment
      rw [if_pos (by decide +kernel)]
      decide +kernel
    · rcases order.opened with state | state
      · cases state
      · cases state
  have byte : Meets answered (.receive (frameFrom server 8 0x10 [0x41])) := by
    intro _
    refine ⟨by decide +kernel, ?_, fun _ => by decide +kernel⟩
    unfold SentSegment
    rw [if_neg (by decide +kernel)]
    exact ⟨0, by decide +kernel, by decide +kernel, by decide +kernel, by decide +kernel,
      by decide +kernel⟩
  have connect : Meets start (.connect server [0, 0, 0, 0, 0, 0] 80 0 7 [0x41]) := trivial
  have connected : Runs step Meets start asked := (Runs.refl start).snoc connect rfl
  have whole := (connected.snoc answer rfl).snoc byte rfl
  exact ⟨_, by decide +kernel, page_is_prefix whole⟩

/-- Another host's byte is taken, and a byte behind a cut frame is read. -/
theorem other_host_taken :
    (∃ s, Runs step (fun _ _ => True) start s ∧ ¬s.vars.page <+: s.stream) ∧
      ∃ s, Runs step (fun _ _ => True) start s ∧
        ∃ f, ¬Within (· < f.len) (browserHandle s.vars f) := by
  have run (ops : List Op) {s : State} (goes : ops.foldlM step start = some s) :
      Runs step (fun _ _ => True) start s := Runs.of_steps ops (fun _ _ _ => trivial) goes
  have begun := run [.connect server [0, 0, 0, 0, 0, 0] 80 0 7 [0x41],
    .receive (frameFrom server 7 0x12 [])] rfl
  have forged := run [.connect server [0, 0, 0, 0, 0, 0] 80 0 7 [0x41],
    .receive (frameFrom server 7 0x12 []), .receive (frameFrom [6, 6, 6, 6] 8 0x10 [0x58])] rfl
  refine ⟨⟨_, forged, ?_⟩,
    _, begun, { frameFrom server 8 0x10 [0x41] with len := 54 }, fun inside => ?_⟩
  · decide +kernel
  · exact absurd (inside 54 (by decide +kernel)) (Nat.lt_irrefl 54)

end XinuRpi5.System.BrowserPage
