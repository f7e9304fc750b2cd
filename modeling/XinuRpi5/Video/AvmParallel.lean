/- source: device/video/avm.c, system/smp.c
   digest: The batch of avm_tick on several cores, one instruction of one core at a time. -/

import XinuRpi5.Video.Avm

/-!
A batch run is a sequence of steps. Core 0 walks through the plan of
`smp_parallel_sum`: it posts the shares of online workers, runs the shares of
offline ones and then its own, and collects the workers in order. A worker whose
share is posted runs it at any speed. While core 0 waits for a worker it may give
up and run the share itself; the worker's own run goes on.
-/

namespace XinuRpi5.Video.AvmParallel

open Avm

def parCores : Nat := 4

def parBatchMax : Nat := 32

/-- A method body contains `WAIT` or a drawing opcode, reading operands as such. -/
def codeHasUnsafe (code : Nat → UInt8) (len : Nat) : Nat → Nat → Bool
  | 0, _ => false
  | rounds + 1, pc =>
    if len ≤ pc then false
    else
      match (code pc).toNat with
      | 0x07 | 0x45 | 0x46 | 0x47 | 0x48 => true
      | 0x01 => codeHasUnsafe code len rounds (pc + 5)
      | 0x02 | 0x03 | 0x04 => codeHasUnsafe code len rounds (pc + 2)
      | 0x30 | 0x31 | 0x41 => codeHasUnsafe code len rounds (pc + 3)
      | 0x40 | 0x44 => codeHasUnsafe code len rounds (pc + 4)
      | _ => codeHasUnsafe code len rounds (pc + 1)

def parSafe (m : Module) (cls : Nat) : Bool :=
  (m.classes.getD cls []).all fun mt => !codeHasUnsafe mt.code mt.codeLen mt.codeLen 0

def Joins (m : Module) (objs : Table) (batch : List Msg) (msg : Msg) : Prop :=
  0 ≤ msg.self ∧ msg.self < vmMaxObj ∧ (objs (recv msg)).used = true ∧
    parSafe m (objs (recv msg)).cls = true ∧ msg.self ∉ batch.map Msg.self

instance (m : Module) (objs : Table) (batch : List Msg) (msg : Msg) :
    Decidable (Joins m objs batch msg) := inferInstanceAs (Decidable (_ ∧ _))

def gather (m : Module) (objs : Table) : List Msg → List Msg → List Msg × List Msg
  | batch, [] => (batch, [])
  | batch, msg :: q =>
    if batch.length < parBatchMax ∧ Joins m objs batch msg then
      gather m objs (batch ++ [msg]) q
    else (batch, msg :: q)

/-- The share of core `c`: the messages from `c * n / cores` on. -/
def share (batch : List Msg) (cores c : Nat) : List Msg :=
  (batch.take ((c + 1) * batch.length / cores)).drop (c * batch.length / cores)

/-- A core that runs `par_dispatch_range`. -/
structure Core where
  todo : List Msg
  frame : Option Frame

def Core.Idle (core : Core) : Prop := core.todo = [] ∧ core.frame.isNone = true

instance (core : Core) : Decidable core.Idle := inferInstanceAs (Decidable (_ ∧ _))

inductive Action where
  | post (c : Nat)
  | run (c : Nat)
  | collect (c : Nat)

/-- The state of a batch run; `sends c` is `par_q[c]`. -/
structure Par where
  objs : Table
  sends : Nat → List Msg
  spawnNext : Nat → Nat
  core : Nat → Core
  plan : List Action

/-- What core 0 does in `smp_parallel_sum`. -/
def planOf (online : Nat → Bool) (cores : Nat) : List Action :=
  ((List.range' 1 (cores - 1)).map fun c => if online c then .post c else .run c) ++
    [.run 0] ++ ((List.range' 1 (cores - 1)).filter online).map .collect

def coresOnline (online : Nat → Bool) : Nat := ((List.range parCores).filter online).length

def startPar (objs : Table) (online : Nat → Bool) (cores : Nat) : Par where
  objs := objs
  sends := fun _ => []
  spawnNext := fun c => c * vmMaxObj / parCores
  core := fun _ => ⟨[], none⟩
  plan := planOf online cores

def parSend (sends : List Msg) (msg : Msg) : List Msg :=
  if sends.length < 512 then sends ++ [msg] else sends

/-- The effect of an instruction on core `c` while `par_active` is 1. -/
def Par.apply (p : Par) (m : Module) (c : Nat) (fr : Frame) : Effect → Par × Frame
  | .none => (p, fr)
  | .setField i v => ({ p with objs := setObj p.objs fr.self ((p.objs fr.self).set i v) }, fr)
  | .send msg =>
    ({ p with sends := fun d => if d = c then parSend (p.sends c) msg else p.sends d }, fr)
  | .spawn cls =>
    let r := spawnIn m p.objs (p.spawnNext c) ((c + 1) * vmMaxObj / parCores) cls
    let next := if r.2 = -1 then p.spawnNext c else r.2.toNat + 1
    ({ p with objs := r.1, spawnNext := fun d => if d = c then next else p.spawnNext d },
      fr.push r.2)

def Par.setCore (p : Par) (c : Nat) (core : Core) : Par :=
  { p with core := fun d => if d = c then core else p.core d }

/-- One round of `avm_dispatch`, or the start of the next message, on core `c`. -/
def Par.advance (p : Par) (m : Module) (c : Nat) : Option Par :=
  match (p.core c).frame with
  | some fr =>
    if Done fr then some (p.setCore c { p.core c with frame := none })
    else
      let r := instr m (p.objs fr.self).f fr
      let s := p.apply m c r.1 r.2
      some (s.1.setCore c { p.core c with frame := some s.2 })
  | none =>
    match (p.core c).todo with
    | [] => none
    | msg :: rest => some (p.setCore c ⟨rest, openFrame m (p.objs (recv msg)) msg⟩)

inductive Step where
  | advance (c : Nat)
  | next
  | giveUp
  deriving DecidableEq

section Steps

variable (m : Module) (batch : List Msg) (cores : Nat)

/-- Core 0 goes on in its plan; at a worker it waits until that one is idle. -/
def Par.next (p : Par) : Option Par :=
  if (p.core 0).Idle then
    match p.plan with
    | [] => none
    | .post c :: rest => some { p.setCore c ⟨share batch cores c, none⟩ with plan := rest }
    | .run c :: rest => some { p.setCore 0 ⟨share batch cores c, none⟩ with plan := rest }
    | .collect c :: rest => if (p.core c).Idle then some { p with plan := rest } else none
  else none

/-- `SMP_WAIT_LIMIT` spins have passed. -/
def Par.giveUp (p : Par) : Option Par :=
  match p.plan with
  | .collect c :: rest =>
    if (p.core 0).Idle ∧ ¬ (p.core c).Idle then
      some { p.setCore 0 ⟨share batch cores c, none⟩ with plan := rest }
    else none
  | _ => none

def parStep (p : Par) : Step → Option Par
  | .advance c => p.advance m c
  | .next => p.next batch cores
  | .giveUp => p.giveUp batch cores

end Steps

/-- `smp_parallel_sum` returns. -/
def Par.Joined (p : Par) : Prop := p.plan = [] ∧ (p.core 0).Idle

instance (p : Par) : Decidable p.Joined := inferInstanceAs (Decidable (_ ∧ _))

def Par.merged (p : Par) (rest : List Msg) : List Msg :=
  ((List.range parCores).flatMap p.sends).foldl vmEnqueue rest

end XinuRpi5.Video.AvmParallel
