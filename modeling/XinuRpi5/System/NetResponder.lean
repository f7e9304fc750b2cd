/- source: system/net_responder.c
   digest: ARP and ICMP echo replies, and what of earlier frames stays in the reply buffer. -/

import XinuRpi5.System.TcpHandler
import Mathlib.Data.List.GetD

/-!
The replies are built in one static buffer. The clock of the log throttle, the counters and the
console are left out; the gratuitous ARP request has a buffer of its own and changes nothing here.
-/

namespace XinuRpi5.System.NetResponder

open TcpHandler

abbrev Mac := { b : List UInt8 // b.length = 6 }

abbrev Ip := { b : List UInt8 // b.length = 4 }

/-- The static variables: the own addresses and the buffer `tx_reply`. -/
structure Responder where
  mac : Mac
  ip : Ip
  txReply : Nat → UInt8

def store (b : Nat → UInt8) (place : Nat) (bs : List UInt8) : Nat → UInt8 := fun i =>
  if place ≤ i then bs.getD (i - place) (b i) else b i

def load (b : Nat → UInt8) (place n : Nat) : List UInt8 :=
  (List.range n).map fun i => b (place + i)

def wordSum : List UInt8 → Nat
  | a :: b :: rest => a.toNat * 256 + b.toNat + wordSum rest
  | [a] => a.toNat * 256
  | [] => 0

def foldCarry : Nat → Nat → Nat
  | 0, sum => sum
  | rounds + 1, sum =>
    if sum / 65536 = 0 then sum else foldCarry rounds (sum % 65536 + sum / 65536)

/-- `ip_checksum`, as the two bytes that are stored. -/
def ipChecksum (data : List UInt8) : List UInt8 :=
  let sum := foldCarry (wordSum data) (wordSum data)
  bytes16 (65535 - sum % 65536)

def ArpRequest (ip : Ip) (f : Frame) : Prop :=
  14 ≤ f.len ∧ f.at16 12 = 0x0806 ∧ 42 ≤ f.len ∧ f.at16 20 = 1 ∧ f.bytes 38 4 = ip.val

def icmpLen (f : Frame) : Nat := f.totalLen - f.ipHeaderLen

/-- An ICMP echo request for the own address, inside the received frame. -/
def EchoRequest (ip : Ip) (f : Frame) : Prop :=
  14 ≤ f.len ∧ f.at16 12 = 0x0800 ∧ 34 ≤ f.len ∧ 20 ≤ f.ipHeaderLen ∧ f.dstIp = ip.val ∧
    f.at8 23 = 1 ∧ 14 + f.ipHeaderLen + 8 ≤ f.len ∧ f.at8 f.tcpAt = 8 ∧
    f.ipHeaderLen + 8 ≤ f.totalLen ∧ f.totalLen + 14 ≤ 1518 ∧ f.totalLen + 14 ≤ f.len

instance (ip : Ip) (f : Frame) : Decidable (ArpRequest ip f) := inferInstanceAs (Decidable (_ ∧ _))

instance (ip : Ip) (f : Frame) : Decidable (EchoRequest ip f) :=
  inferInstanceAs (Decidable (_ ∧ _))

def buildArp (s : Responder) (f : Frame) : Nat → UInt8 :=
  let tx := store s.txReply 0 (List.replicate 60 0)
  let tx := store tx 0 (f.bytes 6 6)
  let tx := store tx 6 s.mac.val
  let tx := store tx 12 [8, 6, 0, 1, 8, 0, 6, 4, 0, 2]
  let tx := store tx 22 s.mac.val
  let tx := store tx 28 s.ip.val
  let tx := store tx 32 (f.bytes 6 6)
  store tx 38 (f.bytes 28 4)

/-- The echo reply in the buffer: the request with the addresses exchanged and new checksums. -/
def buildEcho (s : Responder) (f : Frame) : Nat → UInt8 :=
  let tx := store s.txReply 0 (f.bytes 0 (14 + f.totalLen))
  let tx := store tx 0 (f.bytes 6 6)
  let tx := store tx 6 s.mac.val
  let tx := store tx 26 s.ip.val
  let tx := store tx 30 f.srcIp
  let tx := store tx 24 [0, 0]
  let tx := store tx 24 (ipChecksum (load tx 14 f.ipHeaderLen))
  let tx := store tx f.tcpAt [0]
  let tx := store tx (f.tcpAt + 2) [0, 0]
  store tx (f.tcpAt + 2) (ipChecksum (load tx f.tcpAt (icmpLen f)))

/-- `net_responder_handle`: the new state and the frames handed to the driver. -/
def netResponderHandle (s : Responder) (f : Frame) : Responder × List (List UInt8) :=
  if ArpRequest s.ip f then
    let tx := buildArp s f
    ({ s with txReply := tx }, [load tx 0 60])
  else if EchoRequest s.ip f then
    let tx := buildEcho s f
    ({ s with txReply := tx }, [load tx 0 (max 60 (14 + f.totalLen))])
  else (s, [])

inductive Event where
  | packet (f : Frame)
  | setMac (mac : Mac)
  | setIp (ip : Ip)

def step (s : Responder) : Event → Responder
  | .packet f => (netResponderHandle s f).1
  | .setMac mac => { s with mac := mac }
  | .setIp ip => { s with ip := ip }

def boot : Responder where
  mac := ⟨List.replicate 6 0, rfl⟩
  ip := ⟨[192, 168, 3, 101], rfl⟩
  txReply := fun _ => 0

def after (history : List Event) : Responder := history.foldl step boot

def SameFrame (f g : Frame) : Prop := f.len = g.len ∧ ∀ i < f.len, f.byte i = g.byte i

/-- The replies to a request are the same whatever happened before, as long as the own addresses
are the same. -/
def LeaksNothing (mac : Mac) (ip : Ip) (f : Frame) : Prop :=
  ∀ h k g g', (after h).mac = mac → (after h).ip = ip → (after k).mac = mac → (after k).ip = ip →
    SameFrame f g → SameFrame f g' →
    (netResponderHandle (after h) g).2 = (netResponderHandle (after k) g').2

def ShortEcho (ip : Ip) (f : Frame) : Prop := EchoRequest ip f ∧ f.totalLen < 46

instance (ip : Ip) (f : Frame) : Decidable (ShortEcho ip f) := inferInstanceAs (Decidable (_ ∧ _))

section Reading

variable {f g : Frame}

variable (same : SameFrame f g)

include same

theorem SameFrame.at8 {i : Nat} (inside : i < f.len) :
    f.at8 i = g.at8 i := congrArg UInt8.toNat (same.2 i inside)

theorem SameFrame.at16 {i : Nat} (inside : i + 1 < f.len) :
    f.at16 i = g.at16 i := by
  unfold Frame.at16
  rw [same.at8 (by omega), same.at8 inside]

theorem SameFrame.bytes {i n : Nat} (inside : i + n ≤ f.len) :
    f.bytes i n = g.bytes i n := by
  apply List.map_congr_left
  intro k listed
  have := List.mem_range.mp listed
  exact same.2 (i + k) (by omega)

theorem SameFrame.arp (ip : Ip) : ArpRequest ip f ↔ ArpRequest ip g := by
  unfold ArpRequest
  rw [← same.1]
  by_cases size : 42 ≤ f.len
  · rw [same.at16 (i := 12) (by omega), same.at16 (i := 20) (by omega),
      same.bytes (i := 38) (n := 4) (by omega)]
  · simp only [size, false_and, and_false]

theorem SameFrame.headers (size : 34 ≤ f.len) :
    f.ipHeaderLen = g.ipHeaderLen ∧ f.totalLen = g.totalLen := by
  unfold Frame.ipHeaderLen Frame.totalLen
  rw [same.at8 (by omega), same.at16 (by omega)]
  exact ⟨rfl, rfl⟩

theorem SameFrame.echo (ip : Ip) : EchoRequest ip f ↔ EchoRequest ip g := by
  unfold EchoRequest
  rw [← same.1]
  by_cases size : 34 ≤ f.len
  swap
  · simp only [size, false_and, and_false]
  obtain ⟨header, total⟩ := same.headers size
  have dst : f.dstIp = g.dstIp := same.bytes (by omega)
  rw [same.at16 (i := 12) (by omega), same.at8 (i := 23) (by omega), dst, ← header, ← total]
  by_cases room : 14 + f.ipHeaderLen + 8 ≤ f.len
  · have at' : f.tcpAt = g.tcpAt := by
      unfold Frame.tcpAt
      rw [header]
    have here : f.at8 f.tcpAt = g.at8 g.tcpAt := by
      rw [← at']
      apply same.at8
      unfold Frame.tcpAt
      omega
    rw [here]
  · simp only [room, false_and, and_false]

end Reading

section Buffer

variable (b c : Nat → UInt8) (place : Nat) (bs : List UInt8)

theorem store_inside {i : Nat} (low : place ≤ i) (high : i < place + bs.length) :
    store b place bs i = store c place bs i := by
  have room : i - place < bs.length := by omega
  rw [store, store, if_pos low, if_pos low, List.getD_eq_getElem _ _ room,
    List.getD_eq_getElem _ _ room]

theorem store_outside {i : Nat} (out : i < place ∨ place + bs.length ≤ i) :
    store b place bs i = b i := by
  unfold store
  split_ifs with low
  · exact List.getD_eq_default _ _ (by omega)
  · rfl

theorem store_agree {n : Nat} (agree : ∀ i < n, b i = c i) :
    ∀ i < n, store b place bs i = store c place bs i := by
  intro i less
  by_cases inside : place ≤ i ∧ i < place + bs.length
  · exact store_inside b c place bs inside.1 inside.2
  · rw [store_outside b place bs (by omega), store_outside c place bs (by omega)]
    exact agree i less

theorem load_congr {n : Nat} (agree : ∀ i < place + n, b i = c i) :
    load b place n = load c place n := by
  apply List.map_congr_left
  intro i listed
  have := List.mem_range.mp listed
  exact agree (place + i) (by omega)

end Buffer

section Replies

variable {s t : Responder} {f g : Frame}

theorem buildArp_agree (mac : s.mac = t.mac) (ip : s.ip = t.ip) (same : SameFrame f g)
    (size : 42 ≤ f.len) : ∀ i < 60, buildArp s f i = buildArp t g i := by
  have zeros : ∀ i < 60, store s.txReply 0 (List.replicate 60 0) i =
      store t.txReply 0 (List.replicate 60 0) i := by
    intro i less
    apply store_inside
    · exact Nat.zero_le i
    · rw [List.length_replicate]
      omega
  unfold buildArp
  rw [mac, ip, same.bytes (i := 6) (n := 6) (by omega), same.bytes (i := 28) (n := 4) (by omega)]
  exact store_agree _ _ _ _ (store_agree _ _ _ _ (store_agree _ _ _ _ (store_agree _ _ _ _
    (store_agree _ _ _ _ (store_agree _ _ _ _ (store_agree _ _ _ _ zeros))))))

theorem buildEcho_agree (mac : s.mac = t.mac) (same : SameFrame f g) {ip : Ip} (ips : s.ip = ip)
    (ipt : t.ip = ip) (echo : EchoRequest ip f) :
    ∀ i < 14 + f.totalLen, buildEcho s f i = buildEcho t g i := by
  obtain ⟨_, _, size, _, _, _, _, _, room, _, inside⟩ := echo
  obtain ⟨header, total⟩ := same.headers size
  have at' : f.tcpAt = g.tcpAt := by
    unfold Frame.tcpAt
    rw [header]
  have icmp : icmpLen f = icmpLen g := by
    unfold icmpLen
    rw [header, total]
  have src : f.srcIp = g.srcIp := same.bytes (by omega)
  have copied : ∀ i < 14 + f.totalLen, store s.txReply 0 (f.bytes 0 (14 + f.totalLen)) i =
      store t.txReply 0 (f.bytes 0 (14 + f.totalLen)) i := by
    intro i less
    apply store_inside
    · exact Nat.zero_le i
    · rw [Frame.bytes, List.length_map, List.length_range]
      omega
  have addressed := store_agree _ _ 24 [0, 0] (store_agree _ _ 30 f.srcIp (store_agree _ _ 26 ip.val
    (store_agree _ _ 6 t.mac.val (store_agree _ _ 0 (f.bytes 6 6) copied))))
  have ipHeader := load_congr _ _ 14 (n := f.ipHeaderLen) fun i less => addressed i (by omega)
  have cleared := fun sum => store_agree _ _ (f.tcpAt + 2) [0, 0] (store_agree _ _ f.tcpAt [0]
    (store_agree _ _ 24 sum addressed))
  have icmpPart := fun sum => load_congr _ _ f.tcpAt (n := icmpLen f) fun i less =>
    cleared sum i (by unfold icmpLen Frame.tcpAt at less; omega)
  unfold buildEcho
  rw [mac, ips, ipt, ← total, ← same.bytes (i := 0) (n := 14 + f.totalLen) (by omega),
    ← same.bytes (i := 6) (n := 6) (by omega), ← src, ← header, ← at', ← icmp, ipHeader, icmpPart]
  exact store_agree _ _ _ _ (cleared _)

theorem buildEcho_behind (echo : EchoRequest s.ip f) {i : Nat} (behind : 14 + f.totalLen ≤ i) :
    buildEcho s f i = s.txReply i := by
  obtain ⟨_, _, _, header, _, _, _, _, room, _, _⟩ := echo
  have sum : ∀ data, (ipChecksum data).length = 2 := fun _ => rfl
  have bytes : ∀ start n, (f.bytes start n).length = n := fun start n => by
    rw [Frame.bytes, List.length_map, List.length_range]
  unfold buildEcho
  rw [store_outside, store_outside, store_outside, store_outside, store_outside, store_outside,
    store_outside, store_outside, store_outside, store_outside]
  all_goals
    right
    simp only [sum, bytes, s.mac.property, s.ip.property, Frame.srcIp, Frame.tcpAt,
      List.length_cons, List.length_nil]
    omega

theorem leaksNothing_of {mac : Mac} {ip : Ip} (long : ¬ ShortEcho ip f) : LeaksNothing mac ip f := by
  intro h k g g' macH ipH macK ipK same same'
  have both : SameFrame g g' :=
    ⟨same.1.symm.trans same'.1, fun i less => by
      rw [← same.1] at less
      rw [← same.2 i less, same'.2 i less]⟩
  have mac' : (after h).mac = (after k).mac := macH.trans macK.symm
  have ip' : (after h).ip = (after k).ip := ipH.trans ipK.symm
  unfold netResponderHandle
  simp only [ipH, ipK, ← both.arp ip, ← both.echo ip]
  split_ifs with arp echo
  · refine congrArg (fun reply => [reply]) (load_congr _ _ 0 fun i less => ?_)
    exact buildArp_agree mac' ip' both arp.2.2.1 i (by rwa [Nat.zero_add] at less)
  · have total := (both.headers echo.2.2.1).2
    have size : 14 + g.totalLen = max 60 (14 + g.totalLen) := by
      have echoF : EchoRequest ip f := (same.echo ip).mpr echo
      have totalF := (same.headers echoF.2.2.1).2
      by_contra short
      exact long ⟨echoF, by omega⟩
    rw [← total, ← size]
    refine congrArg (fun reply => [reply]) (load_congr _ _ 0 fun i less => ?_)
    exact buildEcho_agree mac' both ipH ipK echo i (by rwa [Nat.zero_add] at less)
  · rfl

end Replies

def marked (ip : Ip) : Frame where
  byte := fun i => (List.replicate 12 0 ++ [8, 0, 69, 0, 0, 46, 0, 0, 0, 0, 0, 1] ++
    List.replicate 6 0 ++ ip.val ++ [8] ++ List.replicate 24 0 ++ [1]).getD i 0
  len := 60

theorem marked_headers (ip : Ip) : (marked ip).at16 12 = 2048 ∧ (marked ip).ipHeaderLen = 20 ∧
    (marked ip).totalLen = 46 ∧ (marked ip).at8 23 = 1 := by
  simp [marked, Frame.at16, Frame.at8, Frame.ipHeaderLen, Frame.totalLen]

theorem marked_end (ip : Ip) : (marked ip).dstIp = ip.val ∧ (marked ip).at8 34 = 8 ∧
    (marked ip).byte 59 = 1 := by
  obtain ⟨ip, four⟩ := ip
  match ip, four with
  | [a, b, c, d], _ => simp [marked, Frame.at8, Frame.dstIp, Frame.bytes, List.range_succ]

theorem marked_echo (ip : Ip) : EchoRequest ip (marked ip) := by
  obtain ⟨kind, header, total, protocol⟩ := marked_headers ip
  obtain ⟨dst, echo, _⟩ := marked_end ip
  have size : (marked ip).len = 60 := rfl
  unfold EchoRequest Frame.tcpAt
  rw [header, total, size]
  exact ⟨by omega, kind, by omega, by omega, dst, protocol, by omega, echo, by omega, by omega,
    by omega⟩

theorem marked_not_arp (ip : Ip) : ¬ ArpRequest ip (marked ip) := by
  rintro ⟨_, arp, _⟩
  rw [(marked_headers ip).1] at arp
  omega

def quiet (mac : Mac) (ip : Ip) : List Event := [.setMac mac, .setIp ip]

def pinged (mac : Mac) (ip : Ip) : List Event := quiet mac ip ++ [.packet (marked ip)]

theorem after_pinged (mac : Mac) (ip : Ip) : after (pinged mac ip) =
    { after (quiet mac ip) with txReply := buildEcho (after (quiet mac ip)) (marked ip) } := by
  have last : after (pinged mac ip) = (netResponderHandle (after (quiet mac ip)) (marked ip)).1 :=
    List.foldl_append
  have own : (after (quiet mac ip)).ip = ip := rfl
  rw [last, netResponderHandle, own, if_neg (marked_not_arp ip), if_pos (marked_echo ip)]
  rfl

theorem pinged_mark (mac : Mac) (ip : Ip) : (after (pinged mac ip)).txReply 59 = 1 := by
  rw [after_pinged]
  obtain ⟨_, header, total, _⟩ := marked_headers ip
  have sum : ∀ data, (ipChecksum data).length = 2 := fun _ => rfl
  have own : (after (quiet mac ip)).ip.val.length = 4 := ip.property
  have ownMac : (after (quiet mac ip)).mac.val.length = 6 := mac.property
  change buildEcho _ _ 59 = 1
  unfold buildEcho Frame.tcpAt
  rw [header, total, store_outside, store_outside, store_outside, store_outside, store_outside,
    store_outside, store_outside, store_outside, store_outside]
  · exact (marked_end ip).2.2
  all_goals
    right
    simp only [sum, own, ownMac, Frame.srcIp, Frame.bytes, List.length_map, List.length_range,
      List.length_cons, List.length_nil]
    omega

theorem short_reply {s : Responder} {f : Frame} (short : ShortEcho s.ip f) :
    (netResponderHandle s f).2 = [load (buildEcho s f) 0 60] := by
  have arp : ¬ ArpRequest s.ip f := by
    rintro ⟨_, kind, _⟩
    rw [short.1.2.1] at kind
    omega
  have size : max 60 (14 + f.totalLen) = 60 := by
    have := short.2
    omega
  rw [netResponderHandle, if_neg arp, if_pos short.1, size]

theorem load_last (b : Nat → UInt8) : (load b 0 60)[59]? = some (b 59) := rfl

/-- The replies to a request leak nothing exactly if it is not an echo request whose reply is
shorter than the padded length. -/
theorem leaks_nothing_iff (mac : Mac) (ip : Ip) (f : Frame) :
    LeaksNothing mac ip f ↔ ¬ ShortEcho ip f := by
  constructor
  · intro same short
    have equal := same (quiet mac ip) (pinged mac ip) f f rfl rfl
      (by rw [after_pinged]; rfl) (by rw [after_pinged]; rfl) ⟨rfl, fun _ _ => rfl⟩
      ⟨rfl, fun _ _ => rfl⟩
    have own : (after (pinged mac ip)).ip = ip := by
      rw [after_pinged]
      rfl
    have behind : 14 + f.totalLen ≤ 59 := by
      have := short.2
      omega
    have first : ShortEcho (after (quiet mac ip)).ip f := short
    have second : ShortEcho (after (pinged mac ip)).ip f := by
      rw [own]
      exact short
    rw [short_reply first, short_reply second, List.cons.injEq] at equal
    have last := congrArg (fun b => b[59]?) equal.1
    simp only [load_last, Option.some.injEq] at last
    rw [buildEcho_behind first.1 behind, buildEcho_behind second.1 behind, pinged_mark] at last
    have zero : (after (quiet mac ip)).txReply 59 = 0 := rfl
    rw [zero] at last
    exact absurd last (by decide)
  · exact leaksNothing_of

def shortPing : Frame where
  byte := fun i => ([0, 0, 0, 0, 0, 0, 2, 0, 0, 0, 0, 1, 8, 0, 69, 0, 0, 28, 0, 0, 0, 0, 64, 1, 0, 0,
    192, 168, 3, 7, 192, 168, 3, 101, 8] : List UInt8).getD i 0
  len := 60

/-- Behind another ping the padding of the reply ends with a byte of that one. -/
theorem padding_shows_earlier_ping : ShortEcho boot.ip shortPing ∧
    (after (quiet boot.mac boot.ip)).mac = (after (pinged boot.mac boot.ip)).mac ∧
    (after (quiet boot.mac boot.ip)).ip = (after (pinged boot.mac boot.ip)).ip ∧
    (netResponderHandle (after (quiet boot.mac boot.ip)) shortPing).2.map (fun b => b[59]?) =
      [some 0] ∧
    (netResponderHandle (after (pinged boot.mac boot.ip)) shortPing).2.map (fun b => b[59]?) =
      [some 1] := by
  have short : ShortEcho boot.ip shortPing := by decide
  have behind : 14 + shortPing.totalLen ≤ 59 := by decide
  have mac : (after (quiet boot.mac boot.ip)).mac = (after (pinged boot.mac boot.ip)).mac := by
    rw [after_pinged]
  have ip : (after (quiet boot.mac boot.ip)).ip = (after (pinged boot.mac boot.ip)).ip := by
    rw [after_pinged]
  have second : ShortEcho (after (pinged boot.mac boot.ip)).ip shortPing := by
    rw [← ip]
    exact short
  refine ⟨short, mac, ip, ?_, ?_⟩
  · rw [short_reply (s := after (quiet boot.mac boot.ip)) short, List.map_singleton, load_last,
      buildEcho_behind (s := after (quiet boot.mac boot.ip)) short.1 behind]
    rfl
  · rw [short_reply second, List.map_singleton, load_last, buildEcho_behind second.1 behind,
      pinged_mark]

section Checksums

theorem foldCarry_spec {rounds sum : Nat} (enough : sum ≤ rounds) :
    foldCarry rounds sum < 65536 ∧ foldCarry rounds sum % 65535 = sum % 65535 ∧
      (foldCarry rounds sum = 0 ↔ sum = 0) := by
  induction rounds generalizing sum with
  | zero =>
    obtain rfl : sum = 0 := by omega
    exact ⟨by decide, rfl, Iff.rfl⟩
  | succ rounds ih =>
    rw [foldCarry]
    split_ifs with small
    · exact ⟨by omega, rfl, Iff.rfl⟩
    · obtain ⟨low, same, zero⟩ := @ih (sum % 65536 + sum / 65536) (by omega)
      exact ⟨low, by omega, by omega⟩

theorem wordSum_append {xs : List UInt8} (even : xs.length % 2 = 0) (ys : List UInt8) :
    wordSum (xs ++ ys) = wordSum xs + wordSum ys := by
  fun_induction wordSum xs with
  | case1 a b rest ih =>
    have := ih (by simp only [List.length_cons] at even; omega)
    simp only [List.cons_append, wordSum, this]
    omega
  | case2 a => simp at even
  | case3 => simp

theorem wordSum_bytes16 {n : Nat} (small : n < 65536) : wordSum (bytes16 n) = n := by
  simp only [bytes16, wordSum, UInt8.toNat_ofNat']
  omega

/-- The sum over the bytes with their checksum is that of a number whose complement is zero. -/
theorem ipChecksum_checks {xs ys : List UInt8} (even : xs.length % 2 = 0) :
    ipChecksum (xs ++ ipChecksum (xs ++ [0, 0] ++ ys) ++ ys) = [0, 0] := by
  have parts (n : Nat) (small : n < 65536) :
      wordSum (xs ++ bytes16 n ++ ys) = wordSum xs + n + wordSum ys := by
    rw [List.append_assoc, wordSum_append even, wordSum_append (by simp [bytes16]), wordSum_bytes16 small]
    omega
  have clear : wordSum (xs ++ [0, 0] ++ ys) = wordSum xs + 0 + wordSum ys := parts 0 (by decide)
  obtain ⟨low, same, zero⟩ := foldCarry_spec (Nat.le_refl (wordSum (xs ++ [0, 0] ++ ys)))
  have full : wordSum (xs ++ ipChecksum (xs ++ [0, 0] ++ ys) ++ ys) = wordSum xs +
      (65535 - foldCarry (wordSum (xs ++ [0, 0] ++ ys)) (wordSum (xs ++ [0, 0] ++ ys)) % 65536) +
      wordSum ys := parts _ (by omega)
  obtain ⟨low', same', zero'⟩ := foldCarry_spec
    (Nat.le_refl (wordSum (xs ++ ipChecksum (xs ++ [0, 0] ++ ys) ++ ys)))
  generalize xs ++ ipChecksum (xs ++ [0, 0] ++ ys) ++ ys = data at *
  have all : foldCarry (wordSum data) (wordSum data) = 65535 := by omega
  rw [ipChecksum, all]
  rfl

variable (b : Nat → UInt8)

theorem load_append (place k n : Nat) :
    load b place (k + n) = load b place k ++ load b (place + k) n := by
  simp only [load, List.range_add, List.map_append, List.map_map, Function.comp_def, Nat.add_assoc]

theorem load_outside {start place n : Nat} {bs : List UInt8}
    (out : start + n ≤ place ∨ place + bs.length ≤ start) :
    load (store b place bs) start n = load b start n := by
  refine List.map_congr_left fun i listed => store_outside b place bs ?_
  have := List.mem_range.mp listed
  omega

theorem load_stored (place : Nat) (bs : List UInt8) :
    load (store b place bs) place bs.length = bs := by
  apply List.ext_getElem
  · simp [load]
  · intro i _ inside
    simp [load, store, inside]

theorem load_patched (start k n : Nat) {c : List UInt8} (two : c.length = 2) :
    load (store b (start + k) c) start (k + 2 + n) =
      load b start k ++ c ++ load b (start + (k + 2)) n := by
  have stored := load_stored b (start + k) c
  rw [two] at stored
  rw [load_append, load_append, stored, load_outside b (by omega), load_outside b (by omega)]

theorem load_checked (start : Nat) {k n : Nat} (even : k % 2 = 0) (inside : k + 2 ≤ n) :
    let tx := store b (start + k) [0, 0]
    ipChecksum (load (store tx (start + k) (ipChecksum (load tx start n))) start n) = [0, 0] := by
  obtain ⟨n, rfl⟩ := Nat.exists_eq_add_of_le inside
  intro tx
  rw [load_patched tx start k n rfl]
  have front : load tx start k = load b start k := load_outside b (by omega)
  have back : load tx (start + (k + 2)) n = load b (start + (k + 2)) n :=
    load_outside b (.inr (by simp; omega))
  rw [front, back]
  rw [show load tx start (k + 2 + n) = _ from load_patched b start k n rfl]
  exact ipChecksum_checks (by rw [load, List.length_map, List.length_range, even])

/-- An echo request is answered by one frame whose IP header and ICMP message a receiver's sums
find correct. -/
theorem echo_checksums {s : Responder} {f : Frame} (echo : EchoRequest s.ip f) :
    ∃ tx, netResponderHandle s f = ({ s with txReply := tx }, [load tx 0 (max 60 (14 + f.totalLen))]) ∧
      ipChecksum (load tx 14 f.ipHeaderLen) = [0, 0] ∧
      ipChecksum (load tx f.tcpAt (icmpLen f)) = [0, 0] := by
  have arp : ¬ ArpRequest s.ip f := by
    rintro ⟨_, kind, _⟩
    rw [echo.2.1] at kind
    omega
  refine ⟨buildEcho s f, by rw [netResponderHandle, if_neg arp, if_pos echo], ?_, ?_⟩
  · unfold buildEcho Frame.tcpAt
    rw [load_outside _ (.inl (by omega)), load_outside _ (.inl (by omega)),
      load_outside _ (.inl (by omega))]
    exact load_checked _ 14 (k := 10) rfl (by have := echo.2.2.2.1; omega)
  · exact load_checked _ f.tcpAt (k := 2) rfl (by
      obtain ⟨_, _, _, _, _, _, _, _, room, _, _⟩ := echo
      unfold icmpLen
      omega)

theorem echo_checksums_marked :
    ipChecksum (load (netResponderHandle boot (marked boot.ip)).1.txReply 14 20) = [0, 0] := by
  obtain ⟨tx, answered, header, -⟩ := echo_checksums (s := boot) (marked_echo boot.ip)
  rw [(marked_headers boot.ip).2.1] at header
  rw [answered]
  exact header

end Checksums
end XinuRpi5.System.NetResponder
