/- source: device/video/avm.c
   digest: The actor bytecode machine: frames, instructions, objects and sequential dispatch. -/

import Mathlib.Data.List.Basic

/-!
The drawing opcodes only pop their operands here: what they put on the screen is
neither a field nor a message. A message queue is the list of its messages from
head to tail, with the capacity of the ring. Integers are C `long`, kept in the
signed 64-bit range by every push.
-/

namespace XinuRpi5.Video.Avm

abbrev Text := List UInt8

def wrapLong (x : Int) : Int := x.bmod 18446744073709551616

def wrapInt (x : Int) : Int := x.bmod 4294967296

def vmMaxObj : Nat := 64

def vmMaxField : Nat := 24

def vmStack : Nat := 128

def guardLimit : Nat := 5000000

structure Method where
  name : Nat
  codeLen : Nat
  code : Nat → UInt8

structure Module where
  strings : List Text
  classes : List (List Method)

/-- `vmobj_t`. -/
structure Obj where
  used : Bool
  cls : Nat
  f : Nat → Int

abbrev Table := Nat → Obj

/-- `vmmsg_t`; `na` is the number of arguments. -/
structure Msg where
  self : Int
  sender : Int
  method : Text
  args : List Int
  deriving DecidableEq

/-- The locals of one call of `avm_dispatch`; the top of the stack comes first. -/
structure Frame where
  self : Nat
  sender : Int
  args : List Int
  code : Nat → UInt8
  codeLen : Nat
  stk : List Int
  pc : Nat
  guard : Nat

namespace Frame

def u8 (fr : Frame) : Nat := (fr.code fr.pc).toNat

def u16 (fr : Frame) : Nat := (fr.code fr.pc).toNat + (fr.code (fr.pc + 1)).toNat * 256

def i32 (fr : Frame) : Int :=
  wrapInt (fr.u16 + ((fr.code (fr.pc + 2)).toNat * 65536 : Nat) +
    ((fr.code (fr.pc + 3)).toNat * 16777216 : Nat))

def skip (fr : Frame) (n : Nat) : Frame := { fr with pc := fr.pc + n }

def push (fr : Frame) (v : Int) : Frame :=
  if fr.stk.length < vmStack then { fr with stk := wrapLong v :: fr.stk } else fr

def top (fr : Frame) : Int := fr.stk.headD 0

def drop (fr : Frame) (n : Nat) : Frame := { fr with stk := fr.stk.drop n }

/-- The top `n` values in the order in which they were pushed; a missing one is 0. -/
def popArgs (fr : Frame) (n : Nat) : List Int := ((List.range n).map fun i => fr.stk.getD i 0).reverse

def binary (fr : Frame) (op : Int → Int → Int) : Frame :=
  (fr.drop 2).push (op (fr.stk.getD 1 0) fr.top)

end Frame

inductive Effect where
  | none
  | setField (i : Nat) (v : Int)
  | send (msg : Msg)
  | spawn (cls : Nat)

def truth (p : Prop) [Decidable p] : Int := if p then 1 else 0

/-- The instruction at `pc`, for an object with the fields `f`. A spawn leaves the
push of the new object's number to the caller. -/
def instr (m : Module) (f : Nat → Int) (fr : Frame) : Frame × Effect :=
  let op := fr.u8
  let fr := { fr with pc := fr.pc + 1, guard := fr.guard + 1 }
  match op with
  | 0x01 => ((fr.skip 4).push fr.i32, .none)
  | 0x02 => ((fr.skip 1).push (if fr.u8 < vmMaxField then f fr.u8 else 0), .none)
  | 0x03 =>
    ((fr.skip 1).drop 1, if fr.u8 < vmMaxField then .setField fr.u8 fr.top else .none)
  | 0x04 => ((fr.skip 1).push (fr.args.getD fr.u8 0), .none)
  | 0x05 => (fr.push fr.self, .none)
  | 0x06 => (fr.push fr.sender, .none)
  | 0x07 => (fr.drop 1, .none)
  | 0x08 => (fr.push fr.top, .none)
  | 0x10 => (fr.binary (· + ·), .none)
  | 0x11 => (fr.binary (· - ·), .none)
  | 0x12 => (fr.binary (· * ·), .none)
  | 0x13 => (fr.binary fun a b => if b = 0 then 0 else a.tdiv b, .none)
  | 0x14 => (fr.binary fun a b => if b = 0 then 0 else a.tmod b, .none)
  | 0x20 => (fr.binary fun a b => truth (a < b), .none)
  | 0x21 => (fr.binary fun a b => truth (a ≤ b), .none)
  | 0x22 => (fr.binary fun a b => truth (b < a), .none)
  | 0x23 => (fr.binary fun a b => truth (b ≤ a), .none)
  | 0x24 => (fr.binary fun a b => truth (a = b), .none)
  | 0x25 => (fr.binary fun a b => truth (a ≠ b), .none)
  | 0x30 => ({ fr with pc := fr.u16 }, .none)
  | 0x31 =>
    (if fr.top = 0 then { fr.drop 1 with pc := fr.u16 } else (fr.skip 2).drop 1, .none)
  | 0x40 =>
    let na := min 8 (fr.skip 2).u8
    let recv := wrapInt (fr.stk.getD na 0)
    ((fr.skip 3).drop (na + 1),
      if fr.u16 < m.strings.length then
        .send ⟨recv, fr.self, m.strings.getD fr.u16 [], fr.popArgs na⟩
      else .none)
  | 0x41 => (fr.skip 2, .spawn fr.u16)
  | 0x42 => (fr.drop 1, .none)
  | 0x43 => ({ fr with pc := fr.codeLen }, .none)
  | 0x44 => ((fr.skip 3).drop (fr.skip 2).u8, .none)
  | 0x45 => (fr.drop 5, .none)
  | 0x46 => (fr, .none)
  | 0x47 => (fr.drop 7, .none)
  | 0x48 => (fr.drop 2, .none)
  | _ => ({ fr with pc := fr.codeLen }, .none)

/-- The loop of `avm_dispatch` ends here. -/
def Done (fr : Frame) : Prop := fr.codeLen ≤ fr.pc ∨ guardLimit ≤ fr.guard

instance (fr : Frame) : Decidable (Done fr) := inferInstanceAs (Decidable (_ ∨ _))

def recv (msg : Msg) : Nat := msg.self.toNat

def findMethod (m : Module) (cls : Nat) (name : Text) : Option Method :=
  (m.classes.getD cls []).find? fun mt =>
    mt.name < m.strings.length ∧ m.strings.getD mt.name [] = name

def openFrame (m : Module) (obj : Obj) (msg : Msg) : Option Frame :=
  if 0 ≤ msg.self ∧ msg.self < vmMaxObj ∧ obj.used = true then
    (findMethod m obj.cls msg.method).map fun mt =>
      ⟨recv msg, msg.sender, msg.args, mt.code, mt.codeLen, [], 0, 0⟩
  else none

def Obj.set (obj : Obj) (i : Nat) (v : Int) : Obj :=
  { obj with f := fun j => if j = i then v else obj.f j }

def setObj (objs : Table) (i : Nat) (obj : Obj) : Table := fun j => if j = i then obj else objs j

def spawnIn (m : Module) (objs : Table) (lo hi cls : Nat) : Table × Int :=
  if m.classes.length ≤ cls then (objs, -1)
  else
    match (List.range' lo (hi - lo)).find? fun i => (objs i).used = false with
    | some i => (setObj objs i ⟨true, cls, fun _ => 0⟩, i)
    | none => (objs, -1)

def vmSpawn (m : Module) (objs : Table) (cls : Nat) : Table × Int := spawnIn m objs 0 vmMaxObj cls

/-- `vm_enqueue`: the ring holds `VM_Q - 1` messages. -/
def vmEnqueue (q : List Msg) (msg : Msg) : List Msg := if q.length < 511 then q ++ [msg] else q

structure Vm where
  objs : Table
  queue : List Msg

/-- The effect of an instruction while `par_active` is 0. -/
def Vm.apply (vm : Vm) (m : Module) (fr : Frame) : Effect → Vm × Frame
  | .none => (vm, fr)
  | .setField i v => ({ vm with objs := setObj vm.objs fr.self ((vm.objs fr.self).set i v) }, fr)
  | .send msg => ({ vm with queue := vmEnqueue vm.queue msg }, fr)
  | .spawn cls =>
    ({ vm with objs := (vmSpawn m vm.objs cls).1 }, fr.push (vmSpawn m vm.objs cls).2)

/-- The loop of `avm_dispatch`; every round counts, so `guardLimit` rounds are
always enough. -/
def Vm.loop (m : Module) : Nat → Vm → Frame → Vm
  | 0, vm, _ => vm
  | rounds + 1, vm, fr =>
    if Done fr then vm
    else
      let r := instr m (vm.objs fr.self).f fr
      let s := vm.apply m r.1 r.2
      Vm.loop m rounds s.1 s.2

/-- `avm_dispatch` on core 0. -/
def avmDispatch (m : Module) (vm : Vm) (msg : Msg) : Vm :=
  match openFrame m (vm.objs (recv msg)) msg with
  | some fr => Vm.loop m guardLimit vm fr
  | none => vm

/-- The single-core rounds of `avm_tick`: `n` messages are taken from the head of
the queue and dispatched. -/
def dispatchHeads (m : Module) : Nat → Vm → Vm
  | 0, vm => vm
  | n + 1, vm =>
    match vm.queue with
    | [] => vm
    | msg :: rest => dispatchHeads m n (avmDispatch m { vm with queue := rest } msg)

end XinuRpi5.Video.Avm
