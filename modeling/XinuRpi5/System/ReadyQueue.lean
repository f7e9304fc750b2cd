/- source: system/proc.c
   digest: The ready list is a queue with priorities, in the order of the pushes. -/

import XinuRpi5.System.ReadyList

namespace XinuRpi5.System.ReadyQueue

open Lib.StableQueue Proc ReadyList

/-- What is called on the ready list, and the change of a priority in between. -/
inductive QueueOp where
  | push (p : Pid)
  | pop
  | setprio (pid prio : Int)
  deriving DecidableEq

/-- One call, and what `ready_pop` returns; `none` stands for a call that does not end. -/
def call (s : Sched) : QueueOp → Option (Sched × Option Pid)
  | .push p => some (readyPush s p, none)
  | .pop => readyPop s
  | .setprio pid prio => some (procSetprio s pid prio, none)

def calls : Sched → List QueueOp → Option (Sched × List (Option Pid))
  | s, [] => some (s, [])
  | s, op :: ops =>
    (call s op).bind fun r => (calls r.1 ops).map fun rest => (rest.1, r.2 :: rest.2)

theorem toNat_lt_table {pid : Int} (valid : ¬ (pid < 0 ∨ 16 ≤ pid)) : pid.toNat < 16 := by omega

def answer (q : Queue Pid Int) : QueueOp → Queue Pid Int × Option Pid
  | .push p => (q.push p, none)
  | .pop => (q.pop.2, q.pop.1)
  | .setprio pid prio =>
    if h : pid < 0 ∨ 16 ≤ pid then (q, none) else (q.setPrio ⟨pid.toNat, toNat_lt_table h⟩ prio, none)

def answers : Queue Pid Int → List QueueOp → Queue Pid Int × List (Option Pid)
  | q, [] => (q, [])
  | q, op :: ops =>
    ((answers (answer q op).1 ops).1, (answer q op).2 :: (answers (answer q op).1 ops).2)

def Fresh : Queue Pid Int → List QueueOp → Prop
  | _, [] => True
  | q, op :: ops => (∀ p, op = .push p → p ∉ q.items) ∧ Fresh (answer q op).1 ops

section Refinement

/-- The stored list is the queue, in its order and with its priorities. -/
structure Holds (s : Sched) (q : Queue Pid Int) : Prop where
  linked : Linked s q.items
  prio : prioOf s = q.prio

variable {s : Sched} {q : Queue Pid Int}

theorem holds_push {p : Pid} (holds : Holds s q) (fresh : p ∉ q.items) :
    Holds (readyPush s p) (q.push p) :=
  ⟨readyPush_linked holds.linked fresh, (readyPush_prio s p).trans holds.prio⟩

theorem holds_pop (holds : Holds s q) :
    ∃ s', readyPop s = some (s', q.pop.1) ∧ Holds s' q.pop.2 := by
  rcases readyPop_spec holds.linked with
    ⟨empty, run⟩ | ⟨front, best, back, s', split, run, linked, _, first, same⟩
  · obtain ⟨items, prio⟩ := q
    obtain rfl : items = [] := empty
    exact ⟨s, run, holds⟩
  · have top : First q.prio q.items best := holds.prio ▸ first
    have off : best ∉ front := by
      intro early
      have nodup := holds.linked.nodup
      rw [split] at nodup
      exact (List.nodup_append.mp nodup).2.2 best early best List.mem_cons_self rfl
    have rest : q.items.erase best = front ++ back := by
      rw [split, List.erase_append_right _ off, List.erase_cons_head]
    rw [Queue.pop_first top]
    refine ⟨s', run, ?_, same.trans holds.prio⟩
    rw [rest]
    exact linked

theorem holds_setPrio {p : Pid} {prio : Int} (holds : Holds s q) :
    Holds (s.set p { s.proctab p with prio := prio }) (q.setPrio p prio) := by
  constructor
  · show Linked _ q.items
    refine holds.linked.congr rfl rfl fun r _ => ?_
    rw [proctab_set]
    split_ifs with same
    · rw [same]
    · rfl
  · funext r
    show ((s.set p _).proctab r).prio = Function.update q.prio p prio r
    rw [proctab_set, Function.update_apply]
    split_ifs
    · rfl
    · exact congrFun holds.prio r

theorem holds_call {op : QueueOp} (holds : Holds s q) (fresh : ∀ p, op = .push p → p ∉ q.items) :
    ∃ s', call s op = some (s', (answer q op).2) ∧ Holds s' (answer q op).1 := by
  cases op with
  | push p => exact ⟨_, rfl, holds_push holds (fresh p rfl)⟩
  | pop => exact holds_pop holds
  | setprio pid prio =>
    by_cases outside : pid < 0 ∨ 16 ≤ pid
    · refine ⟨s, ?_, ?_⟩
      · simp only [call, procSetprio, answer, dif_pos outside]
      · simpa only [answer, dif_pos outside] using holds
    · have kept : Holds _ (q.setPrio ⟨pid.toNat, toNat_lt_table outside⟩ prio) :=
        holds_setPrio holds
      refine ⟨_, ?_, by simpa only [answer, dif_neg outside] using kept⟩
      simp only [call, procSetprio, answer, dif_neg outside]

/-- Whatever is called, each `ready_pop` ends and returns the earliest of the processes with
the highest priority, and the list goes on as the queue does. -/
theorem ready_list_stable {s : Sched} {xs : List Pid} (linked : Linked s xs)
    (ops : List QueueOp) (fresh : Fresh ⟨xs, prioOf s⟩ ops) :
    ∃ s', calls s ops = some (s', (answers ⟨xs, prioOf s⟩ ops).2) ∧
      Linked s' (answers ⟨xs, prioOf s⟩ ops).1.items ∧
      prioOf s' = (answers ⟨xs, prioOf s⟩ ops).1.prio := by
  have holds : Holds s ⟨xs, prioOf s⟩ := ⟨linked, rfl⟩
  generalize (⟨xs, prioOf s⟩ : Queue Pid Int) = q at fresh holds ⊢
  clear linked
  induction ops generalizing s q with
  | nil => exact ⟨s, rfl, holds.linked, holds.prio⟩
  | cons op ops ih =>
    obtain ⟨s₁, run, holds₁⟩ := holds_call holds fresh.1
    obtain ⟨s₂, rest, linked, prio⟩ := ih _ fresh.2 holds₁
    refine ⟨s₂, ?_, linked, prio⟩
    rw [calls, run, Option.bind_some, rest]
    rfl

theorem ready_list_stable_raised :
    ∃ s', calls procInit [.push 1, .push 2, .push 3, .setprio 3 5, .pop, .push 4, .pop] =
        some (s', [none, none, none, none, some 3, none, some 1]) ∧ Linked s' [2, 4] := by
  have empty : Linked procInit [] := procInit_listInv.linked
  have fresh : Fresh ⟨[], prioOf procInit⟩
      [.push 1, .push 2, .push 3, .setprio 3 5, .pop, .push 4, .pop] := by
    simp [Fresh, answer, Queue.push, Queue.pop, Queue.next, Queue.setPrio]
    decide
  obtain ⟨s', run, linked, _⟩ := ready_list_stable empty _ fresh
  exact ⟨s', run, linked⟩

theorem calls_end (ops : List QueueOp) (holds : Holds s q) (fresh : Fresh q ops) :
    ∃ r, calls s ops = some r := by
  induction ops generalizing s q with
  | nil => exact ⟨_, rfl⟩
  | cons op ops ih =>
    obtain ⟨s₁, run, holds₁⟩ := holds_call holds fresh.1
    obtain ⟨r, rest⟩ := ih holds₁ fresh.2
    exact ⟨_, by rw [calls, run, Option.bind_some, rest]; rfl⟩

/-- Nobody changes a priority or pushes a process above `p`. -/
def Calm (prio : Pid → Int) (p : Pid) (ops : List QueueOp) : Prop :=
  ∀ op ∈ ops, op = .pop ∨ ∃ r, op = .push r ∧ prio r ≤ prio p

theorem waits_popped {p : Pid} {n : Nat} (ops : List QueueOp) (holds : Holds s q)
    (fresh : Fresh q ops) (waits : q.Waits p n) (calm : Calm q.prio p ops)
    (enough : n < ops.count .pop) : ∃ r, calls s ops = some r ∧ some p ∈ r.2 := by
  induction ops generalizing s q n with
  | nil => exact absurd enough (Nat.not_lt_zero n)
  | cons op ops ih =>
    obtain ⟨s₁, run, holds₁⟩ := holds_call holds fresh.1
    have rest : Calm q.prio p ops := fun op listed => calm op (List.mem_cons_of_mem _ listed)
    rcases calm op List.mem_cons_self with rfl | ⟨r, rfl, low⟩
    · rw [List.count_cons_self] at enough
      rcases waits.pop with served | ⟨some, waits⟩
      · obtain ⟨r, later⟩ := calls_end ops holds₁ fresh.2
        refine ⟨_, by rw [calls, run, Option.bind_some, later]; rfl, ?_⟩
        exact served ▸ List.mem_cons_self
      · have calm' : Calm (answer q .pop).1.prio p ops := by
          rw [answer, q.pop_prio]
          exact rest
        obtain ⟨r, later, listed⟩ := ih holds₁ fresh.2 waits calm' (by omega)
        exact ⟨_, by rw [calls, run, Option.bind_some, later]; rfl, List.mem_cons_of_mem _ listed⟩
    · rw [List.count_cons_of_ne (by simp)] at enough
      obtain ⟨r, later, listed⟩ := ih holds₁ fresh.2 (waits.push low) rest enough
      exact ⟨_, by rw [calls, run, Option.bind_some, later]; rfl, List.mem_cons_of_mem _ listed⟩

/-- A process that waits is popped, and before it only those that stand in front of it with no
lower priority and those behind it with a higher one. -/
theorem ready_wait_bounded {s : Sched} {front back : List Pid} {p : Pid}
    (linked : Linked s (front ++ p :: back)) (ops : List QueueOp)
    (fresh : Fresh ⟨front ++ p :: back, prioOf s⟩ ops) (calm : Calm (prioOf s) p ops)
    (enough : front.countP (fun r => prioOf s p ≤ prioOf s r) +
      back.countP (fun r => prioOf s p < prioOf s r) < ops.count .pop) :
    ∃ r, calls s ops = some r ∧ some p ∈ r.2 :=
  waits_popped ops ⟨linked, rfl⟩ fresh ⟨front, back, rfl, Nat.le_refl _⟩ calm enough

theorem ready_wait_bounded_two :
    ∃ r, calls (readyPush procInit 1) [.push 2, .pop] = some r ∧ some 1 ∈ r.2 := by
  have linked : Linked (readyPush procInit 1) ([] ++ 1 :: []) :=
    readyPush_linked procInit_listInv.linked List.not_mem_nil
  exact ready_wait_bounded linked _ (by simp [Fresh, answer, Queue.push])
    (by simp [Calm]; decide) (by decide)

end Refinement

end XinuRpi5.System.ReadyQueue
