/- source: system/proc.c, include/proc.h
   digest: Process table, intrusive ready list and the scheduler operations on one core. -/

import XinuRpi5.Mem.Memory

/-!
The single-core configuration: `currpid` is one variable, the scheduler lock is
empty and `IDLE_PID()` is `NULLPROC`. Each operation is one step taken by the
process `currpid`; it ends where the source calls `ctxsw`, and the process that
was switched to takes the next step. The stack pointer that `ctxsw` saves is an
input of the operation, because it depends on the caller's stack and on nothing
that the scheduler computes. The loop of `ready_pop` follows stored links and
carries a step budget; running out of it (`none`) stands for a loop that does
not end.
-/

namespace XinuRpi5.System.Proc

open Lib.Word64 Mem.Memory

def nproc : Nat := 16

/-- An index into `proctab`. -/
abbrev Pid := Fin 16

def nullproc : Pid := 0

inductive ProcState where
  | free
  | ready
  | curr
  | wait
  | sleep
  | term
  deriving DecidableEq

structure Procent where
  state : ProcState
  prio : Int
  stkbase : Nat
  stklen : Nat
  sp : Nat
  name : List Char
  next : Option Pid
  wakeAtUs : Nat

structure Sched where
  proctab : Pid → Procent
  currpid : Pid
  readyHead : Option Pid
  readyTail : Option Pid
  reschedPending : Bool

/-- The arguments of one `ctxsw` call: who leaves, who is resumed, and the
stack pointer value that was read for the resumed process. -/
structure Switch where
  old : Pid
  target : Pid
  loaded : Nat

namespace Sched

def set (s : Sched) (p : Pid) (e : Procent) : Sched :=
  { s with proctab := Function.update s.proctab p e }

def setState (s : Sched) (p : Pid) (st : ProcState) : Sched :=
  s.set p { s.proctab p with state := st }

def setNext (s : Sched) (p : Pid) (n : Option Pid) : Sched :=
  s.set p { s.proctab p with next := n }

def setSp (s : Sched) (p : Pid) (sp : Nat) : Sched :=
  s.set p { s.proctab p with sp := sp }

end Sched

/-- `copy_name`: at most `PROC_NAME_LEN - 1` characters. -/
def copyName (src : List Char) : List Char := src.take 15

def readyPush (s : Sched) (p : Pid) : Sched :=
  let s := s.setNext p none
  match s.readyHead, s.readyTail with
  | none, _ => { s with readyHead := some p, readyTail := some p }
  | some _, some t => { s.setNext t (some p) with readyTail := some p }
  | some _, none => { s with readyTail := some p }

/-- The scan of `ready_pop`: the first process of the highest priority, and the
process before it. -/
def readyScan (tab : Pid → Procent) :
    Nat → Pid → Option Pid → Pid → Option Pid → Option (Pid × Option Pid)
  | 0, _, _, _, _ => none
  | _ + 1, best, bestprev, _, none => some (best, bestprev)
  | fuel + 1, best, bestprev, prev, some curr =>
    if (tab best).prio < (tab curr).prio then
      readyScan tab fuel curr (some prev) curr (tab curr).next
    else readyScan tab fuel best bestprev curr (tab curr).next

/-- `ready_pop`: the process taken off the list, if any. -/
def readyPop (s : Sched) : Option (Sched × Option Pid) :=
  match s.readyHead with
  | none => some (s, none)
  | some head =>
    (readyScan s.proctab nproc head none head (s.proctab head).next).map
      fun (best, bestprev) =>
        let after := (s.proctab best).next
        let s := match bestprev with
          | some b => s.setNext b after
          | none => { s with readyHead := after }
        let s := if s.readyTail = some best then { s with readyTail := bestprev } else s
        (s.setNext best none, some best)

/-- `proc_init`; the fields it leaves alone keep their load-time zeroes. -/
def procInit : Sched where
  proctab p :=
    if p = nullproc then ⟨.curr, 0, 0, 0, 0, copyName "null/shell".toList, none, 0⟩
    else ⟨.free, 0, 0, 0, 0, [], none, 0⟩
  currpid := nullproc
  readyHead := none
  readyTail := none
  reschedPending := false

def allocSlot (s : Sched) : Option Pid :=
  (List.finRange 16).find? fun i => i ≠ nullproc ∧ (s.proctab i).state = .free

/-- The entry that a fresh process gets. Its saved stack pointer is the twelve
word register frame at the top of the stack. -/
def freshEntry (old : Procent) (stk stksize spTop : Nat) (name : List Char) : Procent :=
  { old with
    state := .ready, prio := 1, stkbase := stk, stklen := stksize, sp := sub64 spTop 96
    name := copyName name, next := none }

/-- `proc_create`; `stk` is what `getmem` returned for the stack. -/
def procCreate (s : Sched) (stksize stk : Nat) (name : List Char) : Sched × Int :=
  match allocSlot s with
  | none => (s, -1)
  | some pid =>
    let stksize := roundmb (if stksize < 1024 then 1024 else stksize)
    if stk = 0 then (s, -1)
    else
      let e := freshEntry (s.proctab pid) stk stksize (add64 stk stksize) name
      (readyPush (s.set pid e) pid, pid.val)

/-- `proc_create_static`: the caller supplies the stack. -/
def procCreateStatic (s : Sched) (stk stksize : Nat) (name : List Char) : Sched × Int :=
  match allocSlot s with
  | none => (s, -1)
  | some pid =>
    if stk = 0 ∨ stksize < 1024 then (s, -1)
    else
      let e := freshEntry (s.proctab pid) stk stksize (add64 stk stksize / 16 * 16) name
      (readyPush (s.set pid e) pid, pid.val)

theorem toNat_lt_slots {pid : Int} (valid : ¬ (pid ≤ 0 ∨ 16 ≤ pid)) : pid.toNat < 16 := by omega

def procReady (s : Sched) (pid : Int) : Sched :=
  if h : pid ≤ 0 ∨ 16 ≤ pid then s
  else
    let p : Pid := ⟨pid.toNat, toNat_lt_slots h⟩
    readyPush (s.setState p .ready) p

/-- `ctxsw(&old->sp, new->sp)`: the second argument is read before the first
is written. -/
def ctxsw (s : Sched) (old new : Pid) (spNow : Nat) : Sched × Switch :=
  (s.setSp old spNow, ⟨old, new, (s.proctab new).sp⟩)

def procResched (s : Sched) (spNow : Nat) : Option (Sched × Option Switch) :=
  (readyPop s).map fun
    | (s, none) => (s, none)
    | (s, some new) =>
      let old := s.currpid
      let s :=
        if (s.proctab old).state = .curr ∧ old ≠ nullproc then
          readyPush (s.setState old .ready) old
        else s
      let s := { s.setState new .curr with currpid := new }
      let (s, sw) := ctxsw s old new spNow
      (s, some sw)

/-- The common tail of `proc_block` and `proc_sleep_us`: leave the processor to
the next ready process, or to `NULLPROC`. -/
def switchAway (s : Sched) (old : Pid) (spNow : Nat) : Option (Sched × Option Switch) :=
  (readyPop s).map fun (s, found) =>
    let new := found.getD nullproc
    let s := { s.setState new .curr with currpid := new }
    let (s, sw) := ctxsw s old new spNow
    (s, some sw)

def procBlock (s : Sched) (spNow : Nat) : Option (Sched × Option Switch) :=
  switchAway (s.setState s.currpid .wait) s.currpid spNow

def procSleepUs (s : Sched) (us now spNow : Nat) : Option (Sched × Option Switch) :=
  let old := s.currpid
  let e := { s.proctab old with wakeAtUs := add64 now us, state := .sleep }
  switchAway (s.set old e) old spNow

/-- One iteration of the loop of `proc_timer_tick`. -/
def wakeOne (now : Nat) (s : Sched) (i : Pid) : Sched :=
  if (s.proctab i).state = .sleep ∧ (s.proctab i).wakeAtUs ≤ now then
    { readyPush (s.setState i .ready) i with reschedPending := true }
  else s

def procTimerTick (s : Sched) (now : Nat) : Sched :=
  (List.finRange 16).foldl (wakeOne now) s

/-- `proc_exit`: the leaving stack pointer goes to a throw-away variable. -/
def procExit (s : Sched) : Option (Sched × Option Switch) :=
  let me := s.currpid
  (readyPop (s.setState me .free)).map fun (s, found) =>
    let new := found.getD nullproc
    let s := { s.setState new .curr with currpid := new }
    (s, some ⟨me, new, (s.proctab new).sp⟩)

def procSetprio (s : Sched) (pid prio : Int) : Sched :=
  if h : pid < 0 ∨ 16 ≤ pid then s
  else
    let p : Pid := ⟨pid.toNat, by omega⟩
    s.set p { s.proctab p with prio := prio }

/-- The operations of the scheduler with everything they take from outside. -/
inductive Op where
  | create (stksize stk : Nat) (name : List Char)
  | createStatic (stk stksize : Nat) (name : List Char)
  | ready (pid : Int)
  | setprio (pid prio : Int)
  | resched (spNow : Nat)
  | block (spNow : Nat)
  | sleepUs (us now spNow : Nat)
  | timerTick (now : Nat)
  | exit

def step (s : Sched) : Op → Option (Sched × Option Switch)
  | .create stksize stk name => some ((procCreate s stksize stk name).1, none)
  | .createStatic stk stksize name => some ((procCreateStatic s stk stksize name).1, none)
  | .ready pid => some (procReady s pid, none)
  | .setprio pid prio => some (procSetprio s pid prio, none)
  | .resched spNow => procResched s spNow
  | .block spNow => procBlock s spNow
  | .sleepUs us now spNow => procSleepUs s us now spNow
  | .timerTick now => some (procTimerTick s now, none)
  | .exit => procExit s

end XinuRpi5.System.Proc
