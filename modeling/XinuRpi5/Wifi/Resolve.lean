/- source: device/wifi/wifi.c
   digest: The name resolver's reading of a frame. -/

import XinuRpi5.System.Browser
import XinuRpi5.Wifi.Tftp

/-!
The turn of the loop for one frame; it notes every index of the buffer that it reads.
-/

namespace XinuRpi5.Wifi.Resolve

open Lib.ReadLog System.Browser

/-- `id` and `sport`. -/
def queryId : Nat := 0x1234

def sport : Nat := 0xD0E5

/-- The turn goes on waiting, or the call returns -1 or an address. -/
inductive Outcome where
  | waits
  | noRecord
  | address (ip : Ip)

section Message

variable (f : System.TcpHandler.Frame) (msg mlen : Nat)

def dnsSkipName : Nat → Nat → Log Nat Nat
  | 0, _ => pure mlen
  | rounds + 1, o =>
    if o < mlen then do
      let b ← at8 f (msg + o)
      if b / 64 = 3 then
        return o + 2
      if b = 0 then
        return o + 1
      dnsSkipName rounds (o + 1 + b)
    else pure mlen

def findRecord : Nat → Nat → Log Nat (Option Ip)
  | 0, _ => pure none
  | an + 1, o =>
    if o + 10 ≤ mlen then do
      let o ← dnsSkipName f msg mlen mlen o
      if mlen < o + 10 then
        return none
      let type ← at16 f (msg + o)
      let rdl ← at16 f (msg + o + 8)
      if type = 1 ∧ rdl = 4 ∧ o + 10 + 4 ≤ mlen then
        let ip ← bytes f (msg + o + 10) 4
        return some ip
      findRecord an (o + 10 + rdl)
    else pure none

def readMessage : Log Nat Outcome := do
  let an ← at16 f (msg + 6)
  let o ← dnsSkipName f msg mlen mlen 12
  let found ← findRecord f msg mlen an (o + 4)
  match found with
  | some ip => return .address ip
  | none => return .noRecord

end Message

/-- `fr` with its fill. -/
def buffer (f : Tftp.Frame) : System.TcpHandler.Frame := ⟨f.byte, f.n⟩

/-- A turn of the loop of `wifi_resolve`; `dns` is `wifi_dns`. -/
def wifiResolve (dns : Ip) (f : Tftp.Frame) : Log Nat Outcome :=
  if f.chan ≠ 2 ∨ f.n < f.doff + 4 then pure .waits
  else do
    let b ← at8 (buffer f) (f.doff + 3)
    let e := f.doff + (4 + b * 4)
    if f.n < e + 54 then
      return .waits
    let type ← at16 (buffer f) (e + 12)
    if type ≠ 0x0800 then
      return .waits
    let first ← at8 (buffer f) (e + 14)
    let udp := e + 14 + first % 16 * 4
    let dport ← at16 (buffer f) (udp + 2)
    let protocol ← at8 (buffer f) (e + 23)
    if protocol ≠ 17 ∨ dport ≠ sport then
      return .waits
    let source ← bytes (buffer f) (e + 26) 4
    if source ≠ dns then
      return .waits
    readMessage (buffer f) (udp + 8) (f.n - (udp + 8))

end XinuRpi5.Wifi.Resolve
