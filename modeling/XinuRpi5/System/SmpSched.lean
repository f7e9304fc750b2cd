/- source: system/smpsched.c
   digest: smpsched_parallel and its unit processes, one shared access at a time. -/

import XinuRpi5.System.SmpMailbox

/-!
The units are processes of the shared ready list: once readied, any core may run them, in
any order and at any speed. `sp_done` is counted under the scheduler lock, by a read and a
write. A nested call runs serially and is a step of its own. What happens to a process
whose stack is given to a new one while it still runs is not modelled.
-/

namespace XinuRpi5.System.SmpSched

open SmpMailbox

def spMaxunit : Nat := 4

def spGen : Nat := 4

/-- The value of an `int` expression. -/
def int (x : Int) : Int := x.bmod 4294967296

/-- Where a process is in `sp_task`; `free` is an unused process slot. -/
inductive Task where
  | free
  | suspended
  | ready
  | readLo (fn : RangeFn)
  | readHi (fn : RangeFn) (lo : Int)
  | compute (fn : RangeFn) (lo hi : Int)
  | writeRes (r : Long)
  | count
  /-- Holds the lock and has read `v` from `sp_done`. -/
  | countWrite (v : Nat)
  | counted

/-- Where the caller is in `smpsched_parallel`. -/
inductive Driver where
  | idle
  | setFn
  | setDone
  | create
  | readying (t : Nat)
  | own
  | wait
  | sum (t : Nat)
  deriving DecidableEq

/-- A call on the parallel path, with `nunits` after its clamps; `gen` is the generation of
its stacks. -/
structure Call where
  fn : RangeFn
  n : Int
  units : Nat
  spawn : Nat
  gen : Nat

/-- A call that has returned; `hung` says that it incremented `sp_hang`. -/
structure Return where
  fn : RangeFn
  n : Int
  value : Long
  hung : Bool

structure Sched where
  fn : RangeFn
  done : Nat
  lo : Nat → Int
  hi : Nat → Int
  res : Nat → Long
  task : Nat → Task
  /-- The generation and the unit of the stack of a process. -/
  stack : Nat → Nat × Nat
  lock : Option Nat
  gen : Nat
  driver : Driver
  call : Call
  pids : List Nat
  total : Long
  hung : Bool
  returned : List Return

namespace Sched

def setTask (s : Sched) (pid : Nat) (task : Task) : Sched :=
  { s with task := fun q => if q = pid then task else s.task q }

def goto (s : Sched) (driver : Driver) : Sched := { s with driver := driver }

def log (s : Sched) (r : Return) : Sched := { s with returned := r :: s.returned }

end Sched

/-- `nunits` after its clamps. -/
def clampUnits (n nunits : Int) : Int :=
  let u := if nunits < 1 then 1 else nunits
  let u := if 4 < u then (spMaxunit : Int) else u
  if n < u then int n else u

/-- The bound in front of unit `t`. -/
def cut (k : Call) (t : Nat) : Int := (long (t * k.n)).tdiv k.units

inductive Event where
  /-- `on`, `noinline` and `genOn` are `smpsched_on`, `sp_noinline` and `sp_gen_on`. -/
  | call (fn : RangeFn) (n nunits : Int) (on noinline genOn : Bool)
  | driver
  /-- `proc_create_static_susp` returns a pid, or fails. -/
  | create (pid : Option Nat)
  /-- Half a second has passed. -/
  | timeout
  | task (pid : Nat)

def Serial (n nunits : Int) (on : Bool) : Prop := on = false ∨ clampUnits n nunits = 1

instance (n nunits : Int) (on : Bool) : Decidable (Serial n nunits on) :=
  inferInstanceAs (Decidable (_ ∨ _))

def callStep (s : Sched) (fn : RangeFn) (n nunits : Int) (on noinline genOn : Bool) : Sched :=
  if n ≤ 0 then s.log ⟨fn, n, 0, false⟩
  else if s.driver ≠ .idle then s.log ⟨fn, n, fn 0 n, false⟩
  else if Serial n nunits on then s.log ⟨fn, n, fn 0 n, false⟩
  else
    let units := (clampUnits n nunits).toNat
    { s with
      driver := .setFn
      call := ⟨fn, n, units, if noinline then units else units - 1, if genOn then s.gen else 0⟩
      gen := if genOn then (s.gen + 1) % spGen else 0
      pids := []
      total := 0
      hung := false }

def driverStep (s : Sched) : Option Sched :=
  match s.driver with
  | .idle | .create => none
  | .setFn => some ({ s with fn := s.call.fn }.goto .setDone)
  | .setDone => some ({ s with done := 0 }.goto .create)
  | .readying t =>
    match s.pids[t]? with
    | some pid => some ((s.setTask pid .ready).goto (.readying (t + 1)))
    | none => some (s.goto .own)
  | .own =>
    let lo := cut s.call s.pids.length
    let v := if lo < s.call.n then s.call.fn lo s.call.n else 0
    some ({ s with total := v }.goto .wait)
  | .wait => if s.done < s.pids.length then some s else some (s.goto (.sum 0))
  | .sum t =>
    match s.pids[t]? with
    | some pid => some ({ s with total := s.total + s.res pid }.goto (.sum (t + 1)))
    | none => some ((s.log ⟨s.call.fn, s.call.n, s.total, s.hung⟩).goto .idle)

def createStep (s : Sched) (pid : Option Nat) : Option Sched :=
  let t := s.pids.length
  if s.driver = .create ∧ t < s.call.spawn then
    match pid with
    | none => some (s.goto (.readying 0))
    | some p =>
      match s.task p with
      | .free =>
        some { s.setTask p .suspended with
          stack := fun q => if q = p then (s.call.gen, t) else s.stack q
          lo := fun q => if q = p then int (cut s.call t) else s.lo q
          hi := fun q => if q = p then int (cut s.call (t + 1)) else s.hi q
          res := fun q => if q = p then 0 else s.res q
          pids := s.pids ++ [p] }
      | _ => none
  else if s.driver = .create then some (s.goto (.readying 0))
  else none

def taskStep (s : Sched) (pid : Nat) : Option Sched :=
  match s.task pid with
  | .free | .suspended => none
  | .ready => some (s.setTask pid (.readLo s.fn))
  | .readLo fn => some (s.setTask pid (.readHi fn (s.lo pid)))
  | .readHi fn lo => some (s.setTask pid (.compute fn lo (s.hi pid)))
  | .compute fn lo hi => some (s.setTask pid (.writeRes (fn lo hi)))
  | .writeRes r =>
    some ({ s with res := fun q => if q = pid then r else s.res q }.setTask pid .count)
  | .count =>
    match s.lock with
    | none => some ({ s with lock := some pid }.setTask pid (.countWrite s.done))
    | some _ => some s
  | .countWrite v => some ({ s with done := v + 1, lock := none }.setTask pid .counted)
  | .counted => some (s.setTask pid .free)

def StackFree (s : Sched) : Prop :=
  ∀ q, s.task q = .free ∨ s.stack q ≠ (s.call.gen, s.pids.length)

def step (s : Sched) : Event → Option Sched
  | .call fn n nunits on noinline genOn => some (callStep s fn n nunits on noinline genOn)
  | .driver => driverStep s
  | .create pid => createStep s pid
  | .timeout =>
    if s.driver = .wait ∧ s.done < s.pids.length then
      some ({ s with hung := true }.goto (.sum 0))
    else none
  | .task pid => taskStep s pid

def schedInit : Sched where
  fn := fun _ _ => 0
  done := 0
  lo := fun _ => 0
  hi := fun _ => 0
  res := fun _ => 0
  task := fun _ => .free
  stack := fun _ => (0, 0)
  lock := none
  gen := 0
  driver := .idle
  call := ⟨fun _ _ => 0, 0, 0, 0, 0⟩
  pids := []
  total := 0
  hung := false
  returned := []

end XinuRpi5.System.SmpSched
