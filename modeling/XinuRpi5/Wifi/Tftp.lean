/- source: device/wifi/wifi.c
   digest: The TFTP client: what it reads of a frame, and its loop. -/

import Mathlib.Data.List.GetD
import Mathlib.Data.List.TakeDrop

/-!
A turn of the loop is one call of `wifi_read_frame`. The log and the delay are left out.
-/

namespace XinuRpi5.Wifi.Tftp

abbrev Bytes := List UInt8

/-- What `wifi_read_frame` hands over: the buffer `fr`, its fill, the channel and the offset. -/
structure Frame where
  byte : Nat → UInt8
  n : Nat
  chan : Nat
  doff : Nat

def Frame.at16 (f : Frame) (i : Nat) : Nat := (f.byte i).toNat * 256 + (f.byte (i + 1)).toNat

theorem Frame.at16_lt (f : Frame) (i : Nat) : f.at16 i < 65536 := by
  have high := (f.byte i).toNat_lt
  have low := (f.byte (i + 1)).toNat_lt
  unfold Frame.at16
  omega

def sport : Nat := 0xB100

inductive Heard where
  | other
  | error (code : Nat)
  | data (ssport blk : Nat) (payload : Bytes)

/-- The checks of the loop on a frame; `srv` is the server's address. -/
def heard (srv : Bytes) (f : Frame) : Heard :=
  let e := f.doff + (4 + (f.byte (f.doff + 3)).toNat * 4)
  let ip4 := e + 14
  let udp := ip4 + (f.byte ip4).toNat % 16 * 4
  let tf := udp + 8
  if f.chan ≠ 2 ∨ f.n < f.doff + 4 then .other
  else if f.n < e + 42 ∨ f.byte (e + 12) ≠ 8 ∨ f.byte (e + 13) ≠ 0 then .other
  else if f.byte (ip4 + 9) ≠ 17 ∨ f.at16 (udp + 2) ≠ sport then .other
  else if (List.range 4).map (fun i => f.byte (ip4 + 12 + i)) ≠ srv then .other
  else if f.at16 (udp + 4) < 12 then .other
  else if f.at16 tf = 5 then .error (f.at16 (tf + 2))
  else if f.at16 tf ≠ 3 then .other
  else .data (f.at16 udp) (f.at16 (tf + 2))
    ((List.range (f.at16 (udp + 4) - 12)).map fun i => f.byte (tf + 4 + i))

/-- The arguments of `wifi_tftp_get`. -/
structure Call where
  fname : Bytes
  maxlen : Int

/-- The variables of the loop; `dst` holds the `total` bytes stored so far, `out` the packets
sent, each with its destination port, and `failed` is the return at an error packet. -/
structure Get where
  w : Nat
  dst : Bytes
  nextblk : Nat
  srvTid : Nat
  finished : Bool
  failed : Bool
  out : List (Nat × Bytes)

def octet : Bytes := [111, 99, 116, 101, 116]

def rrq (fname : Bytes) : Bytes := [0, 1] ++ fname ++ [0] ++ octet ++ [0]

def ack (blk : Nat) : Bytes := [0, 4, UInt8.ofNat (blk / 256), UInt8.ofNat blk]

def start (c : Call) : Get := ⟨0, [], 1, 0, false, false, [(69, rrq c.fname)]⟩

def Get.running (s : Get) : Bool := decide (s.w < 8000) && !s.finished && !s.failed

def Get.send (s : Get) (port : Nat) (p : Bytes) : Get := { s with out := s.out ++ [(port, p)] }

/-- No frame: every 200 turns the request or the last acknowledgement goes out again. -/
def onIdle (c : Call) (s : Get) : Get :=
  if s.w % 200 = 199 then
    if s.nextblk = 1 then s.send 69 (rrq c.fname)
    else if s.srvTid ≠ 0 then s.send s.srvTid (ack (s.nextblk - 1))
    else s
  else s

def onBlock (c : Call) (s : Get) (ssport blk : Nat) (payload : Bytes) : Get :=
  { s with
    srvTid := ssport
    dst := s.dst ++ payload.take (c.maxlen - s.dst.length).toNat
    out := s.out ++ [(ssport, ack blk)]
    nextblk := s.nextblk + 1
    finished := s.finished || decide (payload.length < 512)
    w := 0 }

/-- A DATA packet; any other than the awaited one has the last acknowledgement sent again. -/
def onData (c : Call) (s : Get) (ssport blk : Nat) (payload : Bytes) : Get :=
  if blk = s.nextblk then onBlock c s ssport blk payload
  else if s.srvTid ≠ 0 then s.send s.srvTid (ack (s.nextblk - 1))
  else s

def onFrame (c : Call) (s : Get) (h : Heard) : Get :=
  match h with
  | .other => s
  | .error _ => { s with failed := true }
  | .data ssport blk payload => onData c s ssport blk payload

/-- A turn of the loop and its `w++`. -/
def turn (srv : Bytes) (c : Call) (s : Get) (read : Option Frame) : Get :=
  let s := match read with
    | none => onIdle c s
    | some f => onFrame c s (heard srv f)
  { s with w := s.w + 1 }

/-- What `wifi_tftp_get` returns behind the loop or at an error packet. -/
def result (s : Get) : Int := if s.failed then -1 else if s.finished then s.dst.length else -1

section Honest

def datagram (tid blk : Nat) (payload : Bytes) : Bytes :=
  [UInt8.ofNat (tid / 256), UInt8.ofNat tid, 0xB1, 0x00,
    UInt8.ofNat ((payload.length + 12) / 256), UInt8.ofNat (payload.length + 12), 0, 0,
    0, 3, UInt8.ofNat (blk / 256), UInt8.ofNat blk] ++ payload

/-- `link` stands in front of the IPv4 header `head`. -/
def frameOf (link head body : Bytes) (doff : Nat) : Frame where
  byte i := (link ++ (head ++ body)).getD i 0
  n := (link ++ (head ++ body)).length
  chan := 2
  doff := doff

theorem ofNat_pair {k : Nat} (word : k < 65536) :
    (UInt8.ofNat (k / 256)).toNat * 256 + (UInt8.ofNat k).toNat = k := by
  rw [UInt8.toNat_ofNat', UInt8.toNat_ofNat']
  omega

end Honest

end XinuRpi5.Wifi.Tftp
