/- source: system/dhcp_client.c
   digest: The frames that the DHCP client sends, and what it reads of a well-formed reply. -/

import XinuRpi5.System.DhcpClient
import XinuRpi5.System.NetResponder

/-!
`build_dhcp` fills a buffer of 600 bytes of which it has cleared 400; here a frame is the list of
the bytes that are handed to the driver. `ip_checksum` has the body of the one in
`net_responder.c`.
-/

namespace XinuRpi5.System.DhcpWire

open TcpHandler DhcpClient
open NetResponder (wordSum foldCarry ipChecksum foldCarry_spec wordSum_append wordSum_bytes16
  ipChecksum_checks)

section Frames

def frameOf (bs : List UInt8) : Frame := ⟨fun i => bs.getD i 0, bs.length⟩

/-- `p[0..n)`. -/
def field (n : Nat) (p : List UInt8) : List UInt8 := (List.range n).map fun i => p.getD i 0

def putOptionData (opt : UInt8) (src : List UInt8) : List UInt8 :=
  opt :: UInt8.ofNat src.length :: src

def putOptionByte (opt v : UInt8) : List UInt8 := [opt, 1, v]

def dhcpOptions (c : Client) (msgType : UInt8) (requested server : Option Ip) : List UInt8 :=
  putOptionByte 53 msgType ++ putOptionData 61 (1 :: field 6 c.myMac) ++
    requested.elim [] (fun ip => putOptionData 50 (field 4 ip)) ++
    server.elim [] (fun ip => putOptionData 54 (field 4 ip)) ++
    putOptionData 55 [1, 3, 6, 15, 51] ++ [255]

def bootp (c : Client) : List UInt8 :=
  [1, 1, 6, 0] ++ bytes32 c.xid ++ [0, 0, 0x80, 0] ++ List.replicate 16 0 ++ field 6 c.myMac ++
    List.replicate 202 0 ++ [0x63, 0x82, 0x53, 0x63]

def udpSum (src dst udp : List UInt8) : Nat :=
  wordSum src + wordSum dst + 17 + udp.length + wordSum udp

/-- `udp_checksum`, as the two bytes that are stored. -/
def udpChecksum (src dst udp : List UInt8) : List UInt8 :=
  let cs := 65535 - foldCarry (udpSum src dst udp) (udpSum src dst udp) % 65536
  bytes16 (if cs = 0 then 65535 else cs)

def bcastIp : Ip := [255, 255, 255, 255]

def udpPart (checksum payload : List UInt8) : List UInt8 :=
  [0, 68, 0, 67] ++ bytes16 (8 + payload.length) ++ checksum ++ payload

def ipHeader (total : Nat) (checksum : List UInt8) : List UInt8 :=
  [0x45, 0] ++ bytes16 total ++ [0, 0, 0, 0, 64, 17] ++ checksum ++ (zeroIp ++ bcastIp)

def packet (ether payload : List UInt8) : List UInt8 :=
  let udp := udpPart (udpChecksum zeroIp bcastIp (udpPart [0, 0] payload)) payload
  ether ++ ipHeader (20 + udp.length) (ipChecksum (ipHeader (20 + udp.length) [0, 0])) ++ udp

def buildDhcp (c : Client) (msgType : UInt8) (requested server : Option Ip) : List UInt8 :=
  packet (List.replicate 6 255 ++ field 6 c.myMac ++ [8, 0])
    (bootp c ++ dhcpOptions c msgType requested server)

/-- The frames that the driver gets in a step: a DISCOVER, or a REQUEST behind an OFFER. -/
def sent (c : Client) : Op → List (List UInt8)
  | .setMac _ => []
  | .discover => [buildDhcp c 1 none none]
  | .receive f =>
    match parse c.xid f with
    | none => []
    | some m =>
      if m.opts.msgType = 2 ∧ c.state = .discoverSent then
        let c := (handleMessage c m).2
        [buildDhcp c 3 (some c.myIp) (some c.serverIp)]
      else []

end Frames

section Options

structure Item where
  code : UInt8
  data : List UInt8
  notPad : code ≠ 0
  notEnd : code ≠ 255
  short : data.length < 256

def area : List (Nat × Item) → List UInt8
  | [] => []
  | (pads, x) :: rest => List.replicate pads 0 ++ putOptionData x.code x.data ++ area rest

def noOptions : Options := ⟨0, zeroIp, zeroIp, zeroIp, zeroIp, 0⟩

def Item.put (x : Item) (opts : Options) : Options :=
  opts.put (frameOf x.data) 0 x.code.toNat x.data.length

def optionsOf (items : List (Nat × Item)) : Options :=
  items.foldl (fun opts x => x.2.put opts) noOptions

def Holds (f : Frame) (p : Nat) (bs : List UInt8) : Prop :=
  ∀ i < bs.length, f.byte (p + i) = bs.getD i 0

instance (f : Frame) (p : Nat) (bs : List UInt8) : Decidable (Holds f p bs) :=
  inferInstanceAs (Decidable (∀ i < bs.length, _))

variable {f : Frame} {p : Nat} {bs cs : List UInt8}

theorem Holds.left (h : Holds f p (bs ++ cs)) : Holds f p bs := by
  intro i inside
  rw [h i (by rw [List.length_append]; omega), List.getD_append _ _ _ _ inside]

theorem Holds.right (h : Holds f p (bs ++ cs)) : Holds f (p + bs.length) cs := by
  intro i inside
  rw [Nat.add_assoc, h (bs.length + i) (by rw [List.length_append]; omega),
    List.getD_append_right _ _ _ _ (Nat.le_add_right ..), Nat.add_sub_cancel_left]

theorem holds_frameOf (front bs : List UInt8) : Holds (frameOf (front ++ bs)) front.length bs := by
  intro i _
  change (front ++ bs).getD (front.length + i) 0 = bs.getD i 0
  rw [List.getD_append_right _ _ _ _ (Nat.le_add_right ..), Nat.add_sub_cancel_left]

theorem Holds.first {b : UInt8} (h : Holds f p (b :: bs)) : f.at8 p = b.toNat :=
  congrArg UInt8.toNat (h 0 (Nat.zero_lt_succ _))

theorem Holds.rest {b : UInt8} (h : Holds f p (b :: bs)) : Holds f (p + 1) bs :=
  @Holds.right _ _ [b] _ h

/-- The switch reads the data of the option only. -/
theorem put_item (x : Item) (h : Holds f p x.data) (opts : Options) :
    opts.put f p x.code.toNat x.data.length = x.put opts := by
  have same : ∀ i < x.data.length, f.byte (p + i) = (frameOf x.data).byte (0 + i) := by
    intro i inside
    rw [h i inside, Nat.zero_add]
    rfl
  have four (long : 4 ≤ x.data.length) : f.bytes p 4 = (frameOf x.data).bytes 0 4 :=
    List.map_congr_left fun i listed => same i (by have := List.mem_range.mp listed; omega)
  have word (long : 4 ≤ x.data.length) : f.at32 p = (frameOf x.data).at32 0 := by
    have at0 := same 0 (by omega)
    have at1 := same 1 (by omega)
    have at2 := same 2 (by omega)
    have at3 := same 3 (by omega)
    simp only [Frame.at32, Frame.at16, Frame.at8, Nat.add_assoc, Nat.zero_add, Nat.add_zero] at *
    rw [at0, at1, at2, at3]
  have first (some : 1 ≤ x.data.length) : f.at8 p = (frameOf x.data).at8 0 :=
    congrArg UInt8.toNat (same 0 some)
  unfold Item.put Options.put
  split <;> try split_ifs with long
  all_goals first | rw [four long] | rw [word long] | rw [first long] | rfl

theorem readOptions_pads {bp bpLen o : Nat} {opts : Options} (pads rounds : Nat)
    (h : Holds f (bp + o) (List.replicate pads 0)) (inside : o + pads ≤ bpLen) :
    readOptions f bp bpLen (pads + rounds) o opts = readOptions f bp bpLen rounds (o + pads) opts := by
  induction pads generalizing o with
  | zero => rw [Nat.zero_add, Nat.add_zero]
  | succ pads ih =>
    rw [List.replicate_succ] at h
    have pad : f.at8 (bp + o) = 0 := h.first
    rw [Nat.add_right_comm, readOptions, if_pos (by omega)]
    simp only [pad, if_true]
    rw [ih h.rest (by omega), Nat.add_right_comm o 1 pads, Nat.add_assoc]

theorem readOptions_item {bp bpLen o : Nat} {opts : Options} (x : Item) (rounds : Nat)
    (h : Holds f (bp + o) (putOptionData x.code x.data))
    (inside : o + 2 + x.data.length ≤ bpLen) :
    readOptions f bp bpLen (rounds + 1) o opts =
      readOptions f bp bpLen rounds (o + 2 + x.data.length) (x.put opts) := by
  have code : f.at8 (bp + o) = x.code.toNat := h.first
  have len : f.at8 (bp + (o + 1)) = x.data.length := by
    have second := h.rest.first
    rw [UInt8.toNat_ofNat', Nat.mod_eq_of_lt x.short] at second
    exact second
  have notPad : x.code.toNat ≠ 0 := fun zero => x.notPad (UInt8.toNat_inj.mp zero)
  have notEnd : x.code.toNat ≠ 255 := fun last => x.notEnd (UInt8.toNat_inj.mp last)
  rw [readOptions, if_pos (by omega)]
  simp only [code, len, if_neg notPad, if_neg notEnd, if_neg (by omega : ¬ bpLen ≤ o + 1),
    if_neg (by omega : ¬ bpLen < o + 2 + x.data.length)]
  rw [put_item x (p := bp + (o + 2)) h.rest.rest]

/-- The option loop reads every well-formed option area, with any pads, up to its end mark. -/
theorem readOptions_area {bp bpLen : Nat} (items : List (Nat × Item)) : ∀ {o rounds : Nat}
    {opts : Options}, Holds f (bp + o) (area items ++ [255]) →
    o + (area items).length < bpLen → bpLen ≤ o + rounds →
    readOptions f bp bpLen rounds o opts = items.foldl (fun opts x => x.2.put opts) opts := by
  induction items with
  | nil =>
    intro o rounds opts holds inside enough
    obtain ⟨rounds, rfl⟩ : ∃ k, rounds = k + 1 := ⟨rounds - 1, by simp [area] at inside; omega⟩
    have mark : f.at8 (bp + o) = 255 := holds.first
    rw [readOptions, if_pos (by simpa [area] using inside)]
    simp [mark]
  | cons item rest ih =>
    obtain ⟨pads, x⟩ := item
    intro o rounds opts holds inside enough
    have size : (area ((pads, x) :: rest)).length =
        pads + (2 + x.data.length) + (area rest).length := by
      simp [area, putOptionData]
      omega
    rw [size] at inside
    obtain ⟨rounds, rfl⟩ : ∃ k, rounds = pads + (k + 1) := ⟨rounds - pads - 1, by omega⟩
    rw [area, List.append_assoc, List.append_assoc] at holds
    have front := holds.left
    have back := holds.right
    rw [List.length_replicate, Nat.add_assoc] at back
    have tail := back.right
    rw [readOptions_pads pads _ front (by omega), readOptions_item x _ back.left (by omega)]
    refine ih (o := o + pads + 2 + x.data.length) ?_ (by omega) (by omega)
    convert tail using 1
    simp [putOptionData]
    omega

end Options

section Exchange

/-- A frame that is a server's message of a transaction, with these options. -/
structure Reply (f : Frame) (xid : Nat) (yiaddr : Ip) (items : List (Nat × Item)) : Prop where
  size : 286 ≤ f.len
  ether : f.at8 12 = 8 ∧ f.at8 13 = 0
  ip : f.at8 14 / 16 = 4 ∧ f.at8 23 = 17
  ports : f.srcPort = 67 ∧ f.dstPort = 68
  xid : f.at32 (bootpAt f + 4) = xid
  cookie : f.at32 (bootpAt f + 236) = 0x63825363
  yiaddr : f.bytes (bootpAt f + 16) 4 = yiaddr
  options : Holds f (bootpAt f + 240) (area items ++ [255])
  inside : bootpAt f + 240 + (area items).length < f.len

variable {f g : Frame} {xid : Nat} {yiaddr : Ip} {items : List (Nat × Item)}

theorem Reply.parse (h : Reply f xid yiaddr items) :
    parse xid f = some ⟨xid, yiaddr, optionsOf items⟩ := by
  have inside := h.inside
  unfold DhcpClient.parse
  rw [if_neg (by have := h.size; omega), if_neg (by have := h.ether; omega),
    if_neg (by have := h.ip; omega), if_neg (by have := h.ip; omega),
    if_neg (by have := h.ports; omega)]
  simp only
  rw [if_neg (by omega), if_neg (by rw [h.xid]; exact not_not_intro rfl),
    if_neg (by rw [h.cookie]; exact not_not_intro rfl), h.xid, h.yiaddr]
  refine congrArg (fun opts => some (Message.mk xid yiaddr opts)) ?_
  exact readOptions_area items h.options (by omega) (by omega)

/-- An OFFER and the ACK of its transaction make a lease: the REQUEST in between names the offered
address and the server, the address is that of the ACK, and the rest is from the OFFER. -/
theorem lease_taken {c : Client} {offered acked : Ip} {offer ack : List (Nat × Item)}
    (init : c.state = .init) (first : Reply f c.xid offered offer)
    (isOffer : (optionsOf offer).msgType = 2) (second : Reply g c.xid acked ack)
    (isAck : (optionsOf ack).msgType = 5) :
    let waiting := dhcpSendDiscover c
    let asking := (dhcpHandlePacket waiting f).2
    let bound := (dhcpHandlePacket asking g).2
    sent waiting (.receive f) =
        [buildDhcp asking 3 (some offered) (some (optionsOf offer).serverId)] ∧
      bound.state = .bound ∧ bound.myIp = acked ∧ bound.serverIp = (optionsOf offer).serverId ∧
      SameOptions bound ⟨c.xid, offered, optionsOf offer⟩ := by
  intro waiting asking bound
  have sought : waiting.state = .discoverSent := if_pos init
  have read : DhcpClient.parse waiting.xid f = some ⟨c.xid, offered, optionsOf offer⟩ := first.parse
  have asked : asking = (handleMessage waiting ⟨c.xid, offered, optionsOf offer⟩).2 := by
    change (dhcpHandlePacket waiting f).2 = _
    rw [dhcpHandlePacket, read]
  have taken : (optionsOf offer).msgType = 2 ∧ waiting.state = .discoverSent := ⟨isOffer, sought⟩
  rw [handleMessage, if_pos taken] at asked
  have answered : bound = (handleMessage asking ⟨c.xid, acked, optionsOf ack⟩).2 := by
    change (dhcpHandlePacket asking g).2 = _
    have same : asking.xid = c.xid := by rw [asked]; rfl
    rw [dhcpHandlePacket, same, second.parse]
  have requested : asking.state = .requestSent := by rw [asked]; rfl
  rw [handleMessage, if_neg (by rw [isAck]; omega), if_pos ⟨isAck, requested⟩] at answered
  refine ⟨?_, ?_⟩
  · simp only [sent, read]
    rw [if_pos taken, handleMessage, if_pos taken, asked]
    rfl
  · rw [answered, asked]
    exact ⟨rfl, rfl, rfl, rfl, rfl, rfl, rfl⟩

/-- The options of `reply`. -/
def typeAndMask (msgType : UInt8) (netmask : Ip) (short : netmask.length < 256) :
    List (Nat × Item) :=
  [(0, ⟨53, [msgType], by decide, by decide, (by decide : 1 < 256)⟩),
    (0, ⟨1, netmask, by decide, by decide, short⟩)]

theorem lease_taken_seven :
    let asking := (dhcpHandlePacket (dhcpSendDiscover boot) (reply 2 [10, 0, 0, 7] [255, 0, 0, 0])).2
    let bound := (dhcpHandlePacket asking (reply 5 [10, 0, 0, 7] [255, 255, 255, 0])).2
    bound.state = .bound ∧ bound.myIp = [10, 0, 0, 7] := by
  have offer : Reply (reply 2 [10, 0, 0, 7] [255, 0, 0, 0]) boot.xid [10, 0, 0, 7]
      (typeAndMask 2 [255, 0, 0, 0] (by decide)) := by
    constructor <;> decide +kernel
  have ack : Reply (reply 5 [10, 0, 0, 7] [255, 255, 255, 0]) boot.xid [10, 0, 0, 7]
      (typeAndMask 5 [255, 255, 255, 0] (by decide)) := by
    constructor <;> decide +kernel
  obtain ⟨_, bound, address, _⟩ := lease_taken rfl offer (by decide) ack (by decide)
  exact ⟨bound, address⟩

end Exchange

section Sound

/-- What a receiver checks of a frame before it looks at the message, and that the frame lies in
the part of the buffer that was cleared. -/
structure SoundFrame (bs : List UInt8) : Prop where
  cleared : bs.length ≤ 400
  total : (frameOf bs).totalLen + 14 = bs.length
  header : ipChecksum ((bs.drop 14).take 20) = [0, 0]
  udpLen : (frameOf bs).at16 38 + 34 = bs.length
  udp : let sum := udpSum ((bs.drop 26).take 4) ((bs.drop 30).take 4) (bs.drop 34)
    foldCarry sum sum = 65535

variable (c : Client) (msgType : UInt8) (requested server : Option Ip)

theorem field_length (n : Nat) (p : List UInt8) : (field n p).length = n := by simp [field]

theorem bootp_length : (bootp c).length = 240 := by
  simp only [bootp, List.length_append, List.length_cons, List.length_nil, List.length_replicate,
    field_length, bytes32, bytes16]

/-- The sum over a UDP packet with its checksum is that of a number whose complement is zero. -/
theorem udpChecksum_checks (src dst payload : List UInt8) :
    let udp := udpPart (udpChecksum src dst (udpPart [0, 0] payload)) payload
    foldCarry (udpSum src dst udp) (udpSum src dst udp) = 65535 := by
  intro udp
  have parts (n : Nat) (small : n < 65536) : udpSum src dst (udpPart (bytes16 n) payload) =
      udpSum src dst (udpPart [0, 0] payload) + n := by
    have split (cs : List UInt8) (two : cs.length = 2) : wordSum (udpPart cs payload) =
        wordSum ([0, 68, 0, 67] ++ bytes16 (8 + payload.length)) + wordSum cs + wordSum payload := by
      rw [udpPart, wordSum_append (by simp [bytes16, two]), wordSum_append (by simp [bytes16])]
    have length (cs : List UInt8) : (udpPart cs payload).length = 6 + cs.length + payload.length := by
      simp only [udpPart, bytes16, List.length_append, List.length_cons, List.length_nil]
    simp only [udpSum, length]
    rw [split _ rfl, split [0, 0] rfl, wordSum_bytes16 small]
    simp only [bytes16, wordSum, List.length_cons, List.length_nil]
    simp
    omega
  obtain ⟨low, same, zero⟩ := foldCarry_spec (Nat.le_refl (udpSum src dst (udpPart [0, 0] payload)))
  have some : 0 < udpSum src dst (udpPart [0, 0] payload) := by
    unfold udpSum
    omega
  generalize clear : udpSum src dst (udpPart [0, 0] payload) = start at *
  have sum : udpSum src dst udp = start + if 65535 - foldCarry start start % 65536 = 0 then 65535
      else 65535 - foldCarry start start % 65536 := by
    change udpSum src dst (udpPart (udpChecksum src dst (udpPart [0, 0] payload)) payload) = _
    rw [udpChecksum, clear]
    exact parts _ (by split_ifs <;> omega)
  obtain ⟨low', same', zero'⟩ := foldCarry_spec (Nat.le_refl (udpSum src dst udp))
  generalize foldCarry (udpSum src dst udp) (udpSum src dst udp) = folded at *
  generalize foldCarry start start = before at *
  split_ifs at sum <;> omega

theorem dhcpOptions_length : (dhcpOptions c msgType requested server).length ≤ 32 := by
  cases requested <;> cases server <;>
    simp [dhcpOptions, putOptionByte, putOptionData, field_length]

theorem word_at {bs : List UInt8} {p n : Nat} (front rest : List UInt8)
    (cut : bs = front ++ (bytes16 n ++ rest)) (here : front.length = p) (small : n < 65536) :
    (frameOf bs).at16 p = n := by
  subst cut here
  have holds := holds_frameOf front (bytes16 n ++ rest)
  have high : (frameOf _).at8 front.length = n / 256 % 256 := holds.first
  have low : (frameOf _).at8 (front.length + 1) = n % 256 := holds.rest.first
  rw [Frame.at16, high, low]
  omega

theorem packet_sound {ether payload : List UInt8} (first : ether.length = 14)
    (room : payload.length ≤ 358) : SoundFrame (packet ether payload) := by
  generalize udpIs : udpPart (udpChecksum zeroIp bcastIp (udpPart [0, 0] payload)) payload = udp
  generalize sumIs : ipChecksum (ipHeader (20 + udp.length) [0, 0]) = sum
  have two : sum.length = 2 := by
    rw [← sumIs]
    rfl
  have udpSize : udp.length = 8 + payload.length := by
    rw [← udpIs]
    simp only [udpPart, udpChecksum, bytes16, List.length_append, List.length_cons, List.length_nil]
  have headerSize : (ipHeader (20 + udp.length) sum).length = 20 := by
    simp [ipHeader, bytes16, two, zeroIp, bcastIp]
  have built : packet ether payload = ether ++ (ipHeader (20 + udp.length) sum ++ udp) := by
    rw [packet, udpIs, sumIs, List.append_assoc]
  have size : (packet ether payload).length = 42 + payload.length := by
    rw [built, List.length_append, List.length_append, first, headerSize, udpSize]
    omega
  refine ⟨by omega, ?_, ?_, ?_, ?_⟩
  · have total : (frameOf (packet ether payload)).at16 16 = 20 + udp.length := by
      refine word_at (ether ++ [0x45, 0]) ([0, 0, 0, 0, 64, 17] ++ sum ++
        (zeroIp ++ bcastIp) ++ udp) ?_ (by simp [first]) (by omega)
      simp only [built, ipHeader, List.append_assoc]
    rw [Frame.totalLen, total, size]
    omega
  · rw [built, List.drop_left' first, List.take_left' headerSize, ipHeader, ← sumIs]
    exact ipChecksum_checks (by simp [bytes16])
  · have length : (frameOf (packet ether payload)).at16 38 = 8 + payload.length := by
      refine word_at (ether ++ ipHeader (20 + udp.length) sum ++ [0, 68, 0, 67])
        (udpChecksum zeroIp bcastIp (udpPart [0, 0] payload) ++ payload) ?_
        (by simp [first, headerSize]) (by omega)
      rw [built]
      nth_rewrite 2 [← udpIs]
      simp only [udpPart, List.append_assoc]
    rw [length, size]
    omega
  · have cut : packet ether payload = ether ++ ([0x45, 0] ++ bytes16 (20 + udp.length) ++
        [0, 0, 0, 0, 64, 17] ++ sum) ++ (zeroIp ++ (bcastIp ++ udp)) := by
      rw [built, ipHeader]
      simp only [List.append_assoc]
    have front : (ether ++ ([0x45, 0] ++ bytes16 (20 + udp.length) ++ [0, 0, 0, 0, 64, 17] ++
        sum)).length = 26 := by
      simp [bytes16, first, two]
    have source : (packet ether payload).drop 26 = zeroIp ++ (bcastIp ++ udp) := by
      rw [cut, List.drop_left' front]
    have target : (packet ether payload).drop 30 = bcastIp ++ udp := by
      rw [show 30 = 26 + 4 from rfl, ← List.drop_drop, source]
      rfl
    have behind : (packet ether payload).drop 34 = udp := by
      rw [show 34 = 30 + 4 from rfl, ← List.drop_drop, target]
      rfl
    rw [source, target, behind, ← udpIs]
    exact udpChecksum_checks zeroIp bcastIp payload

theorem buildDhcp_sound : SoundFrame (buildDhcp c msgType requested server) := by
  have options := dhcpOptions_length c msgType requested server
  have fixed := bootp_length c
  refine packet_sound ?_ ?_
  · simp [field_length]
  · rw [List.length_append]
    omega

/-- Every frame that the client sends, in any state and at any step, is in order. -/
theorem sent_sound (op : Op) : ∀ bs ∈ sent c op, SoundFrame bs := by
  intro bs listed
  cases op with
  | setMac mac => exact absurd listed List.not_mem_nil
  | discover =>
    obtain rfl := List.mem_singleton.mp listed
    exact buildDhcp_sound c 1 none none
  | receive f =>
    unfold sent at listed
    simp only at listed
    split at listed
    · exact absurd listed List.not_mem_nil
    · split_ifs at listed
      · obtain rfl := List.mem_singleton.mp listed
        exact buildDhcp_sound _ 3 _ _
      · exact absurd listed List.not_mem_nil

theorem sent_sound_discover : SoundFrame (buildDhcp boot 1 none none) :=
  sent_sound boot .discover _ (List.mem_singleton_self _)

end Sound

end XinuRpi5.System.DhcpWire
