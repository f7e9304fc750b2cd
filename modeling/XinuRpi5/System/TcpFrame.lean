/- source: system/tcp_server.c
   digest: Which bytes of a frame the server reads, and when all of them lie inside it. -/

import XinuRpi5.System.BrowserPage
import XinuRpi5.System.TcpPump

/-!
The handler notes every index of the frame that it reads, and with its result it gives the bytes
that the copy loop took. A comparison of addresses reads all four bytes.
-/

namespace XinuRpi5.System.TcpFrame

open Lib.ReadLog Lib.ReadLog.Log TcpServer
  TcpHandler TcpPump
open Browser (at8 at16 at32 bytes value_at8 value_at16 value_at32 value_bytes)
open BrowserPage (within_at8 within_at16 within_at32 within_bytes)

section Reads

/-- What the handler gives back, and the bytes that it copied into the request. -/
abbrev Handled := (Server × List Sent × Nat) × Option (List UInt8)

variable (env : Env) (s : Server) (f : Frame) (via : Bool)

/-- The destination is the address of the port or, of a frame from the radio, that of the radio. -/
def addressed : Log Nat Bool := do
  if (← bytes f 30 4) = s.myIp then
    return true
  if via then
    return decide ((← bytes f 30 4) = s.wifiIp)
  return false

def ipChecks : Log Nat Bool := do
  if f.len < 54 then
    return false
  if (← at8 f 12) ≠ 8 then
    return false
  if (← at8 f 13) ≠ 0 then
    return false
  if (← at8 f 14) / 16 ≠ 4 then
    return false
  if (← at8 f 23) ≠ 6 then
    return false
  addressed s f via

def copyLoop (c : Conn) : Log Nat (Option (List UInt8)) := do
  let seg := segmentOf f
  if c.state = .established ∧ seg.flags.rst = false ∧ seg.seq = c.peerSeq ∧ seg.data ≠ [] then
    return some (← bytes f (f.tcpAt + f.dataOff) (min seg.data.length (reqCap - s.req.length)))
  return none

/-- The part behind the acknowledgement, with the bytes of the copy loop when it is reached. -/
def copied : Log Nat (Option (List UInt8)) := do
  let seg := segmentOf f
  let c := (touch env seg s.conn).conn
  if c.state = .closed ∨ c.state = .listen then
    if seg.flags.syn then
      let _ ← bytes f 6 6
      let _ ← bytes f 26 4
    return none
  if c.peerPort ≠ seg.srcPort then
    return none
  if c.peerIp ≠ (← bytes f 26 4) then
    return none
  copyLoop s f c

def sizedReads : Log Nat Handled := do
  let _ ← at16 f (f.tcpAt + 14)
  let taken ← copied env s f
  let (s, out) := receive env s via (segmentOf f)
  return ((s, out, 1), taken)

def lengthChecks (dataOff totalLen : Nat) : Log Nat Handled := do
  if dataOff < 20 then
    return ((s, [], 1), none)
  if totalLen < f.ipHeaderLen + dataOff then
    return ((s, [], 1), none)
  if f.len < totalLen + 14 then
    return ((s, [], 1), none)
  sizedReads env s f via

def segmentReads : Log Nat Handled := do
  let _ ← at32 f (f.tcpAt + 4)
  let _ ← at32 f (f.tcpAt + 8)
  let off ← at8 f (f.tcpAt + 12)
  let _ ← at8 f (f.tcpAt + 13)
  let total ← at16 f 16
  lengthChecks env s f via (off / 16 * 4) total

/-- `tcp_handle_packet_via`, reading. -/
def handle : Log Nat Handled := do
  if ← ipChecks s f via then
    let _ ← at16 f f.tcpAt
    let port ← at16 f (f.tcpAt + 2)
    -- g_last_ip
    let _ ← bytes f 26 4
    if port ≠ s.listenPort then
      return ((s, [], 0), none)
    segmentReads env s f via
  else
    return ((s, [], 0), none)

end Reads

section Statement

variable (env : Env) (s : Server) (f : Frame) (via : Bool)

def between : List UInt8 :=
  f.bytes (f.tcpAt + f.dataOff) (14 + f.totalLen - (f.tcpAt + f.dataOff))

/-- No index at or behind the length is read, and what is taken is all that the segment brings. -/
structure Sound : Prop where
  inside : Within (· < f.len) (handle env s f via)
  exact : ∀ b ∈ (handle env s f via).value.2, b = between f

def Arrived : Prop :=
  54 ≤ f.len ∧ f.at8 12 = 8 ∧ f.at8 13 = 0 ∧ f.at8 14 / 16 = 4 ∧ f.at8 23 = 6 ∧
    (f.dstIp = s.myIp ∨ via = true ∧ f.dstIp = s.wifiIp)

instance : Decidable (Arrived s f via) := inferInstanceAs (Decidable (_ ∧ _))

/-- The IP header leaves room for the ports, and behind those of the server for the flags. -/
def HeadersInside : Prop :=
  Arrived s f via → f.tcpAt + 4 ≤ f.len ∧ (f.dstPort = s.listenPort → f.tcpAt + 14 ≤ f.len)

structure NextData : Prop where
  forUs : ForUs s f via
  sized : WellSized f
  established : (touch env (segmentOf f) s.conn).conn.state = .established
  fromPeer : FromPeer s.conn (segmentOf f)
  stays : (segmentOf f).flags.rst = false
  next : (segmentOf f).seq = s.conn.peerSeq
  some : (segmentOf f).data ≠ []

def RequestRoom : Prop :=
  NextData env s f via → s.req.length + (segmentOf f).data.length ≤ reqCap

end Statement

section Checks

variable {s : Server} {f : Frame} {via : Bool}

theorem addressed_within (long : 54 ≤ f.len) : Within (· < f.len) (addressed s f via) := by
  unfold addressed
  rw [within_bind_of (within_bytes.mpr fun k less => by omega)]
  split_ifs
  · exact within_pure _ _
  · rw [within_bind_of (within_bytes.mpr fun k less => by omega)]
    exact within_pure _ _
  · exact within_pure _ _

theorem addressed_value : (addressed s f via).value = true ↔
    f.dstIp = s.myIp ∨ via = true ∧ f.dstIp = s.wifiIp := by
  unfold addressed
  rw [value_bind, value_bytes]
  change _ ↔ f.bytes 30 4 = s.myIp ∨ via = true ∧ f.bytes 30 4 = s.wifiIp
  by_cases own : f.bytes 30 4 = s.myIp
  · rw [if_pos own]
    exact iff_of_true rfl (Or.inl own)
  · rw [if_neg own]
    cases via with
    | false => exact iff_of_false Bool.false_ne_true (by simp [own])
    | true =>
      simp only [own, false_or, true_and]
      exact decide_eq_true_iff

theorem ipChecks_within (s : Server) (f : Frame) (via : Bool) :
    Within (· < f.len) (ipChecks s f via) := by
  unfold ipChecks
  split_ifs with short
  · exact within_pure _ _
  · rw [within_bind_of (within_at8 (by omega))]
    split_ifs
    · exact within_pure _ _
    · rw [within_bind_of (within_at8 (by omega))]
      split_ifs
      · exact within_pure _ _
      · rw [within_bind_of (within_at8 (by omega))]
        split_ifs
        · exact within_pure _ _
        · rw [within_bind_of (within_at8 (by omega))]
          split_ifs
          · exact within_pure _ _
          · exact addressed_within (by omega)

theorem ipChecks_value : (ipChecks s f via).value = true ↔ Arrived s f via := by
  unfold ipChecks Arrived
  rw [← addressed_value]
  by_cases long : 54 ≤ f.len
  · rw [if_neg (Nat.not_lt.mpr long), value_bind, value_at8]
    by_cases high : f.at8 12 = 8
    · rw [if_neg (not_not.mpr high), value_bind, value_at8]
      by_cases low : f.at8 13 = 0
      · rw [if_neg (not_not.mpr low), value_bind, value_at8]
        by_cases version : f.at8 14 / 16 = 4
        · rw [if_neg (not_not.mpr version), value_bind, value_at8]
          by_cases tcp : f.at8 23 = 6
          · rw [if_neg (not_not.mpr tcp)]
            simp [long, high, low, version, tcp]
          · rw [if_pos tcp]
            simp [tcp]
        · rw [if_pos version]
          simp [version]
      · rw [if_pos low]
        simp [low]
    · rw [if_pos high]
      simp [high]
  · rw [if_pos (Nat.lt_of_not_le long)]
    exact iff_of_false Bool.false_ne_true fun arrived => long arrived.1

theorem forUs_iff : ForUs s f via ↔ Arrived s f via ∧ f.dstPort = s.listenPort := by
  unfold ForUs Arrived
  simp only [and_assoc]

end Checks

section Copy

variable {env : Env} {s : Server} {f : Frame} {via : Bool}

def takenOf (s : Server) (f : Frame) : List UInt8 :=
  f.bytes (f.tcpAt + f.dataOff) (min (segmentOf f).data.length (reqCap - s.req.length))

theorem data_length (f : Frame) :
    (segmentOf f).data.length = f.totalLen - f.ipHeaderLen - f.dataOff := by
  show ((List.range _).map _).length = _
  rw [List.length_map, List.length_range]

theorem copyLoop_within (sized : WellSized f) (c : Conn) :
    Within (· < f.len) (copyLoop s f c) := by
  obtain ⟨header, total, size⟩ := sized
  have tail : f.tcpAt = 14 + f.ipHeaderLen := rfl
  have length := data_length f
  unfold copyLoop
  simp only
  split_ifs
  · rw [within_bind_of (within_bytes.mpr fun k less => by omega)]
    exact within_pure _ _
  · exact within_pure _ _

theorem copied_within (sized : WellSized f) : Within (· < f.len) (copied env s f) := by
  have long : 34 ≤ f.len := by
    obtain ⟨header, total, size⟩ := sized
    omega
  unfold copied
  simp only
  split_ifs
  · rw [within_bind_of (within_bytes.mpr fun k less => by omega),
      within_bind_of (within_bytes.mpr fun k less => by omega)]
    exact within_pure _ _
  · exact within_pure _ _
  · exact within_pure _ _
  · rw [within_bind_of (within_bytes.mpr fun k less => by omega)]
    split_ifs
    · exact within_pure _ _
    · exact copyLoop_within sized _

theorem copyLoop_value (c : Conn) (b : List UInt8) : b ∈ (copyLoop s f c).value ↔
    (c.state = .established ∧ (segmentOf f).flags.rst = false ∧ (segmentOf f).seq = c.peerSeq ∧
      (segmentOf f).data ≠ []) ∧ takenOf s f = b := by
  unfold copyLoop
  simp only
  split_ifs with next
  · exact Option.some_inj.trans (and_iff_right next).symm
  · exact iff_of_false nofun fun both => next both.1

/-- The condition of the copy loop, at the connection that the acknowledgement left. -/
def Next (c : Conn) (seg : Segment) : Prop :=
  FromPeer c seg ∧ c.state = .established ∧ seg.flags.rst = false ∧ seg.seq = c.peerSeq ∧
    seg.data ≠ []

instance (c : Conn) (seg : Segment) : Decidable (Next c seg) := inferInstanceAs (Decidable (_ ∧ _))

theorem nextData_iff (forUs : ForUs s f via) (sized : WellSized f) :
    NextData env s f via ↔ Next (touch env (segmentOf f) s.conn).conn (segmentOf f) := by
  have seq : (touch env (segmentOf f) s.conn).conn.peerSeq = s.conn.peerSeq := by
    obtain ⟨una, retries, seq, nxt, last, pending, st, equal⟩ := touch_eq env (segmentOf f) s.conn
    rw [equal]
  unfold Next
  rw [touch_fromPeer, seq]
  constructor
  · rintro ⟨-, -, established, peer, stays, next, some⟩
    exact ⟨peer, established, stays, next, some⟩
  · rintro ⟨peer, established, stays, next, some⟩
    exact ⟨forUs, sized, established, peer, stays, next, some⟩

theorem copied_value (forUs : ForUs s f via) (sized : WellSized f) (b : List UInt8) :
    b ∈ (copied env s f).value ↔ NextData env s f via ∧ takenOf s f = b := by
  rw [nextData_iff forUs sized, Next]
  unfold copied
  simp only
  generalize (touch env (segmentOf f) s.conn).conn = c
  by_cases idle : c.state = .closed ∨ c.state = .listen
  · have none : ∀ x : Log Nat (Option (List UInt8)), x.value = none → ¬ b ∈ x.value := by
      intro x empty there
      rw [empty] at there
      cases there
    rw [if_pos idle]
    refine iff_of_false (none _ ?_) ?_
    · split_ifs <;> rfl
    · rintro ⟨⟨-, established, -⟩, -⟩
      rw [established] at idle
      rcases idle with closed | listen
      · cases closed
      · cases listen
  · rw [if_neg idle]
    by_cases port : c.peerPort = (segmentOf f).srcPort
    · rw [if_neg (not_not.mpr port), value_bind, value_bytes]
      by_cases ip : c.peerIp = f.bytes 26 4
      · rw [if_neg (not_not.mpr ip), copyLoop_value]
        have peer : FromPeer c (segmentOf f) := ⟨port, ip⟩
        exact and_congr_left fun _ => (and_iff_right peer).symm
      · rw [if_pos ip]
        exact iff_of_false nofun fun both => ip both.1.1.2
    · rw [if_pos port]
      exact iff_of_false nofun fun both => port both.1.1.1

end Copy

section Handler

variable (env : Env) {s : Server} {f : Frame} {via : Bool}

theorem lengthChecks_eq : lengthChecks env s f via f.dataOff f.totalLen =
    if WellSized f then sizedReads env s f via else pure ((s, [], 1), none) := by
  unfold lengthChecks
  by_cases sized : WellSized f
  · have lengths := sized
    unfold WellSized at lengths
    rw [if_pos sized, if_neg (by omega), if_neg (by omega), if_neg (by omega)]
  · rw [if_neg sized]
    unfold WellSized at sized
    split_ifs with small lies size
    · rfl
    · rfl
    · rfl
    · omega

theorem sizedReads_within (sized : WellSized f) :
    Within (· < f.len) (sizedReads env s f via) := by
  have inside : Within (· < f.len) (copied env s f) := copied_within sized
  obtain ⟨header, total, size⟩ := sized
  have tail : f.tcpAt = 14 + f.ipHeaderLen := rfl
  unfold sizedReads
  rw [within_bind_of (within_at16 (by omega)), within_bind_of inside]
  exact within_pure _ _

theorem segmentReads_within (long : 54 ≤ f.len) :
    Within (· < f.len) (segmentReads env s f via) ↔ f.tcpAt + 14 ≤ f.len := by
  unfold segmentReads
  constructor
  · intro inside
    have flags := (within_bind.mp (within_bind.mp (within_bind.mp (within_bind.mp inside).2).2).2).1
    exact flags (f.tcpAt + 13) (List.mem_singleton_self _)
  · intro header
    rw [within_bind_of (within_at32 (by omega)), within_bind_of (within_at32 (by omega)),
      within_bind_of (within_at8 (by omega)), within_bind_of (within_at8 (by omega)),
      within_bind_of (within_at16 (by omega))]
    show Within (· < f.len) (lengthChecks env s f via f.dataOff f.totalLen)
    rw [lengthChecks_eq]
    split_ifs with sized
    · exact sizedReads_within env sized
    · exact within_pure _ _

theorem segmentReads_value :
    (segmentReads env s f via).value =
      if WellSized f then
        (((receive env s via (segmentOf f)).1, (receive env s via (segmentOf f)).2, 1),
          (copied env s f).value)
      else ((s, [], 1), none) := by
  show (lengthChecks env s f via f.dataOff f.totalLen).value = _
  rw [lengthChecks_eq]
  split_ifs
  · rfl
  · rfl

theorem handle_eq : (handle env s f via).value =
    if ForUs s f via then (segmentReads env s f via).value else ((s, [], 0), none) := by
  unfold handle
  rw [value_bind]
  by_cases arrived : Arrived s f via
  · rw [if_pos (ipChecks_value.mpr arrived)]
    rw [value_bind, value_bind, value_bind, value_at16]
    by_cases port : f.at16 (f.tcpAt + 2) = s.listenPort
    · rw [if_pos (forUs_iff.mpr ⟨arrived, port⟩), if_neg (not_not.mpr port)]
    · rw [if_neg fun forUs => port (forUs_iff.mp forUs).2, if_pos port]
      rfl
  · rw [if_neg fun value => arrived (ipChecks_value.mp value),
      if_neg fun forUs => arrived (forUs_iff.mp forUs).1]
    rfl

theorem handle_taken (b : List UInt8) :
    b ∈ (handle env s f via).value.2 ↔ NextData env s f via ∧ takenOf s f = b := by
  rw [handle_eq, segmentReads_value]
  split_ifs with forUs sized
  · exact copied_value forUs sized b
  · exact iff_of_false nofun fun both => sized both.1.sized
  · exact iff_of_false nofun fun both => forUs both.1.forUs

theorem handle_within :
    Within (· < f.len) (handle env s f via) ↔ HeadersInside s f via := by
  unfold handle HeadersInside
  rw [within_bind_of (ipChecks_within s f via)]
  by_cases arrived : Arrived s f via
  · have long : 54 ≤ f.len := arrived.1
    rw [if_pos (ipChecks_value.mpr arrived)]
    constructor
    · intro inside _
      have ports := (within_bind.mp (within_bind.mp inside).2).1
      refine ⟨ports (f.tcpAt + 3) (by simp [at16]), fun port => ?_⟩
      have rest := (within_bind.mp (within_bind.mp (within_bind.mp inside).2).2).2
      have own : f.at16 (f.tcpAt + 2) = s.listenPort := port
      rw [value_at16, if_neg (not_not.mpr own), segmentReads_within env long] at rest
      exact rest
    · intro inside
      obtain ⟨ports, header⟩ := inside arrived
      rw [within_bind_of (within_at16 (by omega)), within_bind_of (within_at16 (by omega)),
        within_bind_of (within_bytes.mpr fun k less => by omega), value_at16]
      split_ifs with port
      · exact within_pure _ _
      · exact (segmentReads_within env long).mpr (header (not_not.mp port))
  · rw [if_neg fun value => arrived (ipChecks_value.mp value)]
    exact iff_of_true (within_pure _ _) fun there => absurd there arrived

end Handler

section Main

variable (env : Env) {s : Server} {f : Frame} {via : Bool}

theorem between_eq (sized : WellSized f) : between f = (segmentOf f).data := by
  obtain ⟨header, total, size⟩ := sized
  have length : 14 + f.totalLen - (f.tcpAt + f.dataOff) =
      f.totalLen - f.ipHeaderLen - f.dataOff := by
    show 14 + f.totalLen - (14 + f.ipHeaderLen + f.dataOff) = _
    omega
  unfold between
  rw [length]
  rfl

theorem length_between (sized : WellSized f) : (between f).length = (segmentOf f).data.length := by
  rw [between_eq sized]

theorem taken_whole_iff (sized : WellSized f) (some : (segmentOf f).data ≠ []) :
    takenOf s f = between f ↔ s.req.length + (segmentOf f).data.length ≤ reqCap := by
  have positive := List.length_pos_iff.mpr some
  have length : (takenOf s f).length =
      min (segmentOf f).data.length (reqCap - s.req.length) := by
    show ((List.range _).map _).length = _
    rw [List.length_map, List.length_range]
  constructor
  · intro same
    rw [same, length_between sized] at length
    omega
  · intro room
    rw [between_eq sized]
    unfold takenOf
    rw [Nat.min_eq_left (by omega), data_length f]
    rfl

/-- The reads stay inside the frame and the segment is taken as a whole exactly if the IP header
leaves room for the part of the TCP header that is read before its lengths are checked, and the
request has room for the data. -/
theorem frame_sound_iff (env : Env) (s : Server) (f : Frame) (via : Bool) :
    Sound env s f via ↔ HeadersInside s f via ∧ RequestRoom env s f via := by
  constructor
  · rintro ⟨inside, exact'⟩
    refine ⟨(handle_within env).mp inside, fun next => ?_⟩
    exact (taken_whole_iff next.sized next.some).mp
      (exact' _ ((handle_taken env _).mpr ⟨next, rfl⟩))
  · rintro ⟨headers, room⟩
    refine ⟨(handle_within env).mpr headers, fun b taken => ?_⟩
    obtain ⟨next, rfl⟩ := (handle_taken env b).mp taken
    exact (taken_whole_iff next.sized next.some).mpr (room next)

def longHeader : Frame :=
  ⟨fun i => (List.replicate 12 0 ++ [8, 0, 79, 0, 0, 40, 0, 0, 0, 0, 64, 6, 0, 0] ++
    [192, 168, 3, 7] ++ host).getD i 0, 54⟩

theorem longHeader_outside : ¬ Sound (clockAt 0 []) (boot host []) longHeader false := by
  intro sound
  have headers := ((frame_sound_iff _ _ _ _).mp sound).1
  have ports := (headers (by decide +kernel)).1
  exact absurd ports (by decide +kernel)

end Main

end XinuRpi5.System.TcpFrame
