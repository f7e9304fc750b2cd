/- source: system/browser.c
   digest: The receive hook of the browser: ARP replies, DNS answers and its TCP connection. -/

import XinuRpi5.Lib.ReadLog
import XinuRpi5.System.TcpHandler

/-!
The hook notes every index of the frame that it reads. The page is the list of the bytes that
`br_page_len` counts.
-/

namespace XinuRpi5.System.Browser

open Lib.ReadLog TcpHandler

abbrev Ip := List UInt8

/-- `br_c.state`: 0 to 3. -/
inductive Phase where
  | closed
  | synSent
  | established
  | peerFin
  deriving DecidableEq

structure Conn where
  state : Phase
  rip : Ip
  rmac : List UInt8
  lport : Nat
  rport : Nat
  sndNxt : Nat
  rcvNxt : Nat
  established : Bool
  finished : Bool
  reset : Bool

structure Stats where
  seg : Nat
  ooo : Nat
  dup : Nat
  fut : Nat
  finooo : Nat

structure Vars where
  conn : Conn
  page : List UInt8
  arp : List (Option (Ip × List UInt8))
  dnsGot : Bool
  dnsIp : Ip
  stats : Stats

def brRxcap : Nat := 65536

/-- Flags, sequence and acknowledgement of a segment that is sent. -/
structure Reply where
  flags : Nat
  seq : Nat
  ack : Nat

/-- `br_tcp_send` without data. -/
def brTcpSend (c : Conn) (flags : Nat) : Reply := ⟨flags, c.sndNxt % 2 ^ 32, c.rcvNxt % 2 ^ 32⟩

abbrev Handled := Int × Vars × List Reply

def at8 (f : Frame) (i : Nat) : Log Nat Nat := ⟨f.at8 i, [i]⟩

def at16 (f : Frame) (i : Nat) : Log Nat Nat := ⟨f.at16 i, [i, i + 1]⟩

def at32 (f : Frame) (i : Nat) : Log Nat Nat := ⟨f.at32 i, [i, i + 1, i + 2, i + 3]⟩

def bytes (f : Frame) (i n : Nat) : Log Nat (List UInt8) := ⟨f.bytes i n, List.range' i n⟩

@[simp] theorem value_at8 (f : Frame) (i : Nat) : (at8 f i).value = f.at8 i := rfl

@[simp] theorem value_at16 (f : Frame) (i : Nat) : (at16 f i).value = f.at16 i := rfl

@[simp] theorem value_at32 (f : Frame) (i : Nat) : (at32 f i).value = f.at32 i := rfl

@[simp] theorem value_bytes (f : Frame) (i n : Nat) : (bytes f i n).value = f.bytes i n := rfl

def brArpLearn (table : List (Option (Ip × List UInt8))) (ip : Ip) (mac : List UInt8) :
    List (Option (Ip × List UInt8)) :=
  match table.findIdx? fun e => e.map Prod.fst = some ip with
  | some i => table.set i (some (ip, mac))
  | none => table.set ((table.findIdx? Option.isNone).getD 0) (some (ip, mac))

def arpFrame (s : Vars) (f : Frame) : Log Nat Handled := do
  let high ← at8 f 20
  if high ≠ 0 then
    return (0, s, [])
  let low ← at8 f 21
  if low ≠ 2 then
    return (0, s, [])
  let ip ← bytes f 28 4
  let mac ← bytes f 22 6
  return (0, { s with arp := brArpLearn s.arp ip mac }, [])

def skipQuestion (f : Frame) (d dl : Nat) : Nat → Nat → Log Nat Nat
  | 0, p => pure p
  | rounds + 1, p =>
    if p < dl then do
      let b ← at8 f (d + p)
      if b = 0 then
        return p
      if b / 64 = 3 then
        return p + 2
      skipQuestion f d dl rounds (p + b + 1)
    else pure p

def skipQuestions (f : Frame) (d dl : Nat) : Nat → Nat → Log Nat Nat
  | 0, p => pure p
  | qd + 1, p =>
    if p < dl then do
      let p ← skipQuestion f d dl dl p
      if p < dl then
        let b ← at8 f (d + p)
        skipQuestions f d dl qd (if b = 0 then p + 1 + 4 else p + 4)
      else skipQuestions f d dl qd (p + 4)
    else pure p

def skipLabels (f : Frame) (d dl : Nat) : Nat → Nat → Log Nat Nat
  | 0, p => pure p
  | rounds + 1, p =>
    if p < dl then do
      let b ← at8 f (d + p)
      if b = 0 then
        return p
      skipLabels f d dl rounds (p + b + 1)
    else pure p

def skipName (f : Frame) (d dl b p : Nat) : Log Nat Nat :=
  if b / 64 = 3 then pure (p + 2)
  else do
    let q ← skipLabels f d dl dl p
    return q + 1

def findAddress (f : Frame) (d dl : Nat) : Nat → Nat → Log Nat (Option Ip)
  | 0, _ => pure none
  | an + 1, p =>
    if p + 12 ≤ dl then do
      let b ← at8 f (d + p)
      let p ← skipName f d dl b p
      if dl < p + 10 then
        return none
      let kind ← at16 f (d + p)
      let rdl ← at16 f (d + p + 8)
      if kind = 1 ∧ rdl = 4 ∧ p + 10 + 4 ≤ dl then
        let ip ← bytes f (d + p + 10) 4
        return some ip
      findAddress f d dl an (p + 10 + rdl)
    else pure none

def udpFrame (s : Vars) (f : Frame) (ihl : Nat) : Log Nat Handled := do
  if f.len < 14 + ihl + 8 then
    return (0, s, [])
  let dp ← at16 f (14 + ihl + 2)
  let sp ← at16 f (14 + ihl)
  if dp ≠ 53 ∧ sp ≠ 53 then
    return (0, s, [])
  let d := 14 + ihl + 8
  let dl := f.len - d
  if dl < 12 then
    return (0, s, [])
  let qd ← at16 f (d + 4)
  let an ← at16 f (d + 6)
  if an < 1 then
    return (0, s, [])
  let p ← skipQuestions f d dl qd 12
  let found ← findAddress f d dl an p
  match found with
  | some ip => return (1, { s with dnsGot := true, dnsIp := ip }, [])
  | none => return (0, s, [])

/-- The bytes of a segment in order go behind the page, as far as there is room. -/
def takeData (s : Vars) (f : Frame) (seq d dlen : Nat) : Log Nat (Vars × List Reply) :=
  if 0 < dlen then do
    let data ← bytes f d (min dlen (brRxcap - 1 - s.page.length))
    let c := { s.conn with rcvNxt := seq + dlen }
    let stats := { s.stats with seg := s.stats.seg + 1 }
    return ({ s with stats := stats, page := s.page ++ data, conn := c }, [brTcpSend c 0x10])
  else pure (s, [])

def takeFin (t : Vars) (out : List Reply) (seq dlen : Nat) (fin : Bool) : Handled :=
  if fin = false then (1, t, out)
  else if seq + dlen ≠ t.conn.rcvNxt then
    (1, { t with stats := { t.stats with finooo := t.stats.finooo + 1 } }, out)
  else
    let c := { t.conn with rcvNxt := t.conn.rcvNxt + 1 }
    (1, { t with conn := { c with state := .peerFin, finished := true } },
      out ++ [brTcpSend c 0x11])

/-- A segment in the states 2 and 3, with the number of its bytes and where they begin. -/
def openSegment (s : Vars) (f : Frame) (seq d dlen : Nat) (fin : Bool) : Log Nat Handled :=
  if 0 < dlen ∧ seq ≠ s.conn.rcvNxt then
    let late := decide ((2 ^ 32 + seq - s.conn.rcvNxt % 2 ^ 32) % 2 ^ 32 ≥ 2 ^ 31)
    let stats := { s.stats with
      ooo := s.stats.ooo + 1
      dup := s.stats.dup + late.toNat
      fut := s.stats.fut + (!late).toNat }
    pure (1, { s with stats := stats }, [brTcpSend s.conn 0x10])
  else do
    let x ← takeData s f seq d dlen
    return takeFin x.1 x.2 seq dlen fin

def tcpState (s : Vars) (f : Frame) (seq ack d dlen fl : Nat) : Log Nat Handled :=
  if fl.testBit 2 then
    pure (1, { s with conn := { s.conn with reset := true, state := .closed } }, [])
  else if s.conn.state = .synSent ∧ fl.testBit 1 ∧ fl.testBit 4 then
    let c := { s.conn with
      rcvNxt := seq + 1, sndNxt := ack, state := .established, established := true }
    pure (1, { s with conn := c }, [brTcpSend c 0x10])
  else if s.conn.state = .synSent then
    pure (1, s, [])
  else openSegment s f seq d dlen (fl.testBit 0)

def tcpFrame (s : Vars) (f : Frame) (ihl : Nat) : Log Nat Handled := do
  if f.len < 14 + ihl + 20 then
    return (0, s, [])
  let l4 := 14 + ihl
  let dp ← at16 f (l4 + 2)
  if s.conn.state = .closed ∨ dp ≠ s.conn.lport then
    return (0, s, [])
  let sp ← at16 f l4
  if sp ≠ s.conn.rport then
    return (0, s, [])
  let seq ← at32 f (l4 + 4)
  let ack ← at32 f (l4 + 8)
  let offset ← at8 f (l4 + 12)
  let thl := max (offset / 16 * 4) 20
  let fl ← at8 f (l4 + 13)
  let total ← at16 f 16
  tcpState s f seq ack (l4 + thl) (total - ihl - thl) fl

def browserHandle (s : Vars) (f : Frame) : Log Nat Handled := do
  if f.len < 14 then
    return (0, s, [])
  let et ← at16 f 12
  if et = 0x0806 ∧ 42 ≤ f.len then
    arpFrame s f
  else if et ≠ 0x0800 ∨ f.len < 34 then
    return (0, s, [])
  else
    let first ← at8 f 14
    let ihl := first % 16 * 4
    if ihl < 20 then
      return (0, s, [])
    let proto ← at8 f 23
    if proto = 17 then
      udpFrame s f ihl
    else if proto = 6 then
      tcpFrame s f ihl
    else
      return (0, s, [])

end XinuRpi5.System.Browser
