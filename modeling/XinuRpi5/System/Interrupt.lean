/- source: system/proc.c, system/spinlock.c, include/critical.h
   digest: Creating and readying processes statement by statement, cut by an interrupt handler. -/

import XinuRpi5.System.Proc
import Mathlib.Algebra.Group.Nat.Defs

/-!
`proc_create`, `proc_create_static` and `proc_ready` run with interrupts
unmasked, so a handler can run between any two of their accesses to shared
memory. `Point` names these places; `advance` performs the next access. The
handler itself runs with interrupts masked and is one step. Only one core is
modelled: the other cores are outside the scheduler lock, and their entries of
the lock are zero.
-/

namespace XinuRpi5.System.Interrupt

open Lib.Word64 Mem.Memory Proc

/-- What `SCHED_LOCK` is: nothing without `SMP_SYMMETRIC`, the bakery lock with
`SPIN_BAKERY` (the default build), else the ticket lock. -/
inductive LockKind where
  | none
  | bakery
  | ticket

/-- The fields of `proc_sched_lock` that this core changes; `number` is its own
entry of `number[]`. -/
structure Lock where
  nextTicket : Nat
  nowServing : Nat
  number : Nat

/-- The first half of `spin_lock`: draw a number. The ticket lock remembers the
one it drew; the bakery's maximum is the core's own entry. -/
def draw (l : Lock) : LockKind → Lock × Nat
  | .none => (l, 0)
  | .bakery => ({ l with number := (l.number + 1) % 2 ^ 32 }, 0)
  | .ticket => ({ l with nextTicket := (l.nextTicket + 1) % 2 ^ 32 }, l.nextTicket)

/-- Whether the wait loop of `spin_lock` ends. The bakery waits for other cores
only: its loop skips `me`. -/
def Turn (l : Lock) (mine : Nat) : LockKind → Prop
  | .none => True
  | .bakery => True
  | .ticket => l.nowServing = mine

instance (l : Lock) (mine : Nat) : (kind : LockKind) → Decidable (Turn l mine kind)
  | .none => isTrue trivial
  | .bakery => isTrue trivial
  | .ticket => inferInstanceAs (Decidable (_ = _))

def spinUnlock (l : Lock) : LockKind → Lock
  | .none => l
  | .bakery => { l with number := 0 }
  | .ticket => { l with nowServing := (l.nowServing + 1) % 2 ^ 32 }

/-- `spin_lock` by code that nothing interrupts: `none` when it waits for ever. -/
def spinLock (l : Lock) (kind : LockKind) : Option Lock :=
  let (l, mine) := draw l kind
  if Turn l mine kind then some l else none

/-- The interrupted call. `stk` of `create` is what `getmem` returns. -/
inductive Job where
  | create (stksize stk : Nat) (name : List Char)
  | createStatic (stk stksize : Nat) (name : List Char)
  | ready (pid : Int)

namespace Job

def isReady : Job → Bool
  | .ready _ => true
  | _ => false

def refused : Job → Bool
  | .create _ stk _ => stk = 0
  | .createStatic stk stksize _ => stk = 0 ∨ stksize < 1024
  | .ready _ => false

def entry (old : Procent) : Job → Procent
  | .create stksize stk name =>
    let stksize := roundmb (if stksize < 1024 then 1024 else stksize)
    freshEntry old stk stksize (add64 stk stksize) name
  | .createStatic stk stksize name =>
    freshEntry old stk stksize (add64 stk stksize / 16 * 16) name
  | .ready _ => old

/-- The stores after `p->state = PR_READY`, one field at a time. -/
def fill (job : Job) (old : Procent) : Nat → Procent
  | 0 => { old with prio := (job.entry old).prio }
  | 1 => { old with stkbase := (job.entry old).stkbase }
  | 2 => { old with stklen := (job.entry old).stklen }
  | 3 => { old with name := (job.entry old).name }
  | 4 => { old with next := none }
  | _ => { old with sp := (job.entry old).sp }

/-- What the call returns once it has put `p` on the list; `proc_ready` returns
nothing. -/
def result (job : Job) (p : Pid) : Option Int :=
  if job.isReady then none else some p.val

end Job

inductive Point where
  | start
  | scan (i : Nat)
  | found (p : Pid)
  | filling (p : Pid) (k : Nat)
  | locking (p : Pid)
  | spinning (p : Pid) (mine : Nat)
  | marking (p : Pid)
  | linking (p : Pid)
  | testing (p : Pid)
  | empty (p : Pid)
  | emptyTail (p : Pid)
  | full (p : Pid)
  | append (p t : Pid)
  | tail (p : Pid)
  | unlocking (p : Pid)
  | returned (v : Option Int)

structure Mach where
  sched : Sched
  lock : Lock

/-- The next access of the interrupted code. `ready_head = ready_tail = p`
stores the tail first. -/
def advance (kind : LockKind) (job : Job) : Mach × Point → Mach × Point
  | (m, .start) =>
    match job with
    | .ready pid =>
      if h : pid ≤ 0 ∨ 16 ≤ pid then (m, .returned none)
      else (m, .locking ⟨pid.toNat, toNat_lt_slots h⟩)
    | _ => (m, .scan 1)
  | (m, .scan i) =>
    if h : i < 16 then
      if (m.sched.proctab ⟨i, h⟩).state = .free then (m, .found ⟨i, h⟩) else (m, .scan (i + 1))
    else (m, .returned (some (-1)))
  | (m, .found p) =>
    if job.refused then (m, .returned (some (-1)))
    else ({ m with sched := m.sched.setState p .ready }, .filling p 0)
  | (m, .filling p k) =>
    ({ m with sched := m.sched.set p (job.fill (m.sched.proctab p) k) },
      if k < 5 then .filling p (k + 1) else .locking p)
  | (m, .locking p) => ({ m with lock := (draw m.lock kind).1 }, .spinning p (draw m.lock kind).2)
  | (m, .spinning p mine) =>
    (m, if Turn m.lock mine kind then (if job.isReady then .marking p else .linking p)
      else .spinning p mine)
  | (m, .marking p) => ({ m with sched := m.sched.setState p .ready }, .linking p)
  | (m, .linking p) => ({ m with sched := m.sched.setNext p none }, .testing p)
  | (m, .testing p) => (m, if m.sched.readyHead = none then .empty p else .full p)
  | (m, .empty p) => ({ m with sched := { m.sched with readyTail := some p } }, .emptyTail p)
  | (m, .emptyTail p) => ({ m with sched := { m.sched with readyHead := some p } }, .unlocking p)
  | (m, .full p) =>
    (m, match m.sched.readyTail with
      | some t => .append p t
      | none => .tail p)
  | (m, .append p t) => ({ m with sched := m.sched.setNext t (some p) }, .tail p)
  | (m, .tail p) => ({ m with sched := { m.sched with readyTail := some p } }, .unlocking p)
  | (m, .unlocking p) => ({ m with lock := spinUnlock m.lock kind }, .returned (job.result p))
  | (m, .returned v) => (m, .returned v)

inductive Handler where
  | tick (now : Nat)
  | create (stk stksize : Nat) (name : List Char)

/-- `proc_timer_tick` takes the lock in any case, `proc_create_static` once it
has an entry to push. The number is the pid a creation returned; `none` says
that the handler waits for a lock that only the interrupted code can release. -/
def handle (kind : LockKind) (m : Mach) : Handler → Option (Mach × Option Int)
  | .tick now =>
    (spinLock m.lock kind).map fun l =>
      (⟨procTimerTick m.sched now, spinUnlock l kind⟩, none)
  | .create stk stksize name =>
    match allocSlot m.sched with
    | none => some (m, some (-1))
    | some pid =>
      if stk = 0 ∨ stksize < 1024 then some (m, some (-1))
      else
        let e := freshEntry (m.sched.proctab pid) stk stksize (add64 stk stksize / 16 * 16) name
        (spinLock m.lock kind).map fun l =>
          (⟨readyPush (m.sched.set pid e) pid, spinUnlock l kind⟩, some pid.val)

end XinuRpi5.System.Interrupt
