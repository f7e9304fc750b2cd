/- source: system/smp.c
   digest: The job mailboxes of the worker cores and smp_parallel_sum, one access at a time. -/

import Mathlib.Data.BitVec
import XinuRpi5.Lib.SplitRange

/-!
Core 0 and every worker take steps in any order; a step is one access to a mailbox field
or the computation of a range function. Core 0 alone writes `seq`, so its test of `done`
against `seq` is one step. A range function is pure: it is a function of its range, and
the core number that the source passes along is not one of its arguments.
-/

namespace XinuRpi5.System.SmpMailbox

open Lib.SplitRange

/-- A C `long`. -/
abbrev Long := BitVec 64

abbrev RangeFn := Int → Int → Long

def smpNcores : Nat := 4

/-- The value of a `long` expression. -/
def long (x : Int) : Int := x.bmod 18446744073709551616

/-- One call of `smp_parallel_sum`, with `ncores` and `n` after their clamps; `online` is
`smp_online` during the call. -/
structure Call where
  fn : RangeFn
  n : Int
  cores : Nat
  online : Nat → Bool

def mkCall (fn : RangeFn) (n ncores : Int) (online : Nat → Bool) : Call where
  fn := fn
  n := if n < 0 then 0 else n
  cores := if ncores < 1 then 1 else if 4 < ncores then smpNcores else ncores.toNat
  online := online

namespace Call

def lo (k : Call) (c : Nat) : Int := (long (c * k.n)).tdiv k.cores

def hi (k : Call) (c : Nat) : Int := (long ((c + 1) * k.n)).tdiv k.cores

/-- What the chunk of core `c` comes to. -/
def part (k : Call) (c : Nat) : Long := k.fn (k.lo c) (k.hi c)

def own (k : Call) : Long := k.fn 0 (if k.cores = 1 then k.n else k.n.tdiv k.cores)

end Call

/-- Where a worker is in `smp_worker_loop`; `last` is its local variable. -/
inductive Worker where
  | off
  | idle (last : Nat)
  /-- `seq` differed from `last` and is read again into `last`. -/
  | woken
  | readFn (last : Nat)
  | readLo (last : Nat) (fn : RangeFn)
  | readHi (last : Nat) (fn : RangeFn) (lo : Int)
  | compute (last : Nat) (fn : RangeFn) (lo hi : Int)
  | writeRes (last : Nat) (r : Long)
  | writeDone (last : Nat)

/-- Where core 0 is in `smp_parallel_sum`. -/
inductive Main where
  | idle
  | post (c : Nat)
  | setFn (c : Nat)
  | setLo (c : Nat)
  | setHi (c : Nat)
  | bump (c : Nat)
  | own
  | collect (c : Nat)
  | wait (c : Nat)
  | takeOver (c : Nat)
  | read (c : Nat)

structure Mailbox where
  fn : RangeFn
  lo : Int
  hi : Int
  res : Long
  seq : Nat
  done : Nat

def Mailbox.value (b : Mailbox) : Long := b.fn b.lo b.hi

structure Smp where
  box : Nat → Mailbox
  worker : Nat → Worker
  main : Main
  call : Call
  total : Long
  /-- The calls that have returned, with their results. -/
  returned : List (Call × Long)

namespace Smp

def setBox (s : Smp) (c : Nat) (b : Mailbox) : Smp :=
  { s with box := fun d => if d = c then b else s.box d }

def setWorker (s : Smp) (c : Nat) (w : Worker) : Smp :=
  { s with worker := fun d => if d = c then w else s.worker d }

def goto (s : Smp) (main : Main) : Smp := { s with main := main }

def add (s : Smp) (v : Long) : Smp := { s with total := s.total + v }

end Smp

inductive Event where
  | call (fn : RangeFn) (n ncores : Int) (online : Nat → Bool)
  | main
  /-- Core 0 has spun `SMP_WAIT_LIMIT` times. -/
  | giveUp
  | worker (c : Nat)
  /-- A worker enters its loop with some value of `last`: at boot, or when it changes
  between `smp_worker_loop` and `smp_worker_poll_once`. -/
  | join (c last : Nat)

def mainStep (s : Smp) : Option Smp :=
  match s.main with
  | .idle => none
  | .post c =>
    if c < s.call.cores then
      if s.call.online c then some (s.goto (.setFn c))
      else some ((s.add (s.call.part c)).goto (.post (c + 1)))
    else some (s.goto .own)
  | .setFn c => some ((s.setBox c { s.box c with fn := s.call.fn }).goto (.setLo c))
  | .setLo c => some ((s.setBox c { s.box c with lo := s.call.lo c }).goto (.setHi c))
  | .setHi c => some ((s.setBox c { s.box c with hi := s.call.hi c }).goto (.bump c))
  | .bump c =>
    some ((s.setBox c { s.box c with seq := ((s.box c).seq + 1) % 4294967296 }).goto
      (.post (c + 1)))
  | .own => some ((s.add s.call.own).goto (.collect 1))
  | .collect c =>
    if c < s.call.cores then
      if s.call.online c then some (s.goto (.wait c)) else some (s.goto (.collect (c + 1)))
    else some ({ s with returned := (s.call, s.total) :: s.returned }.goto .idle)
  | .wait c => if (s.box c).done = (s.box c).seq then some (s.goto (.read c)) else some s
  | .takeOver c => some ((s.setBox c { s.box c with res := s.call.part c }).goto (.read c))
  | .read c => some ((s.add (s.box c).res).goto (.collect (c + 1)))

/-- The next step of worker `c`. -/
def workerStep (s : Smp) (c : Nat) : Option Smp :=
  match s.worker c with
  | .off => none
  | .idle last => if (s.box c).seq = last then some s else some (s.setWorker c .woken)
  | .woken => some (s.setWorker c (.readFn (s.box c).seq))
  | .readFn last => some (s.setWorker c (.readLo last (s.box c).fn))
  | .readLo last fn => some (s.setWorker c (.readHi last fn (s.box c).lo))
  | .readHi last fn lo => some (s.setWorker c (.compute last fn lo (s.box c).hi))
  | .compute last fn lo hi => some (s.setWorker c (.writeRes last (fn lo hi)))
  | .writeRes last r =>
    some ((s.setBox c { s.box c with res := r }).setWorker c (.writeDone last))
  | .writeDone last =>
    some ((s.setBox c { s.box c with done := last }).setWorker c (.idle last))

def step (s : Smp) : Event → Option Smp
  | .call fn n ncores online =>
    match s.main with
    | .idle => some { s with main := .post 1, call := mkCall fn n ncores online, total := 0 }
    | _ => none
  | .main => mainStep s
  | .giveUp =>
    match s.main with
    | .wait c =>
      if (s.box c).done = (s.box c).seq then none else some (s.goto (.takeOver c))
    | _ => none
  | .worker c => workerStep s c
  | .join c last =>
    match s.worker c with
    | .off | .idle _ => some (s.setWorker c (.idle last))
    | _ => none

/-- The state after `smp_init`. -/
def smpInit : Smp where
  box := fun _ => ⟨fun _ _ => 0, 0, 0, 0, 0, 0⟩
  worker := fun _ => .off
  main := .idle
  call := mkCall (fun _ _ => 0) 0 1 fun _ => false
  total := 0
  returned := []

end XinuRpi5.System.SmpMailbox
