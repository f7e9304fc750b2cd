/- source: system/proc.c
   digest: ready_push and ready_pop on the intrusive list; the list invariant of the scheduler. -/

import XinuRpi5.Lib.GuardedRuns
import XinuRpi5.Lib.LinkedChain
import XinuRpi5.Lib.StableQueue
import XinuRpi5.System.Proc
import Mathlib.Data.Fintype.Card

namespace XinuRpi5.System.ReadyList

open Lib.GuardedRuns Lib.LinkedChain Lib.StableQueue
open Proc

def Points (l : Option Pid) (p : Pid) : Prop := l = some p

theorem points_functional : Functional Points none where
  unique := by
    rintro p a b rfl equal
    exact Option.some.inj equal
  null := by
    rintro a ⟨⟩

/-- The links from `l` on lead through the processes of the list. -/
def LinksTo (s : Sched) (l : Option Pid) (xs : List Pid) (m : Option Pid) : Prop :=
  Seg Points (fun p => (s.proctab p).next) l xs m

/-- The stored list is finite, and the tail pointer is its last node. -/
structure Linked (s : Sched) (xs : List Pid) : Prop where
  chain : LinksTo s s.readyHead xs none
  tail : xs ≠ [] → s.readyTail = xs.getLast?

variable {s : Sched} {xs : List Pid}

theorem Linked.nodup (h : Linked s xs) : xs.Nodup :=
  Seg.nodup points_functional h.chain

/-- Everything but the links: states, saved stack pointers, deadlines and who
runs. -/
structure Frame (s s' : Sched) : Prop where
  state : ∀ q, (s'.proctab q).state = (s.proctab q).state
  sp : ∀ q, (s'.proctab q).sp = (s.proctab q).sp
  wakeAtUs : ∀ q, (s'.proctab q).wakeAtUs = (s.proctab q).wakeAtUs
  currpid : s'.currpid = s.currpid

theorem Frame.refl (s : Sched) : Frame s s :=
  ⟨fun _ => rfl, fun _ => rfl, fun _ => rfl, rfl⟩

theorem Frame.trans {t u : Sched} (h : Frame s t) (k : Frame t u) : Frame s u :=
  ⟨fun q => (k.state q).trans (h.state q), fun q => (k.sp q).trans (h.sp q),
    fun q => (k.wakeAtUs q).trans (h.wakeAtUs q), k.currpid.trans h.currpid⟩

section Links

variable {s : Sched} {l m : Option Pid} {xs : List Pid}

theorem proctab_set (s : Sched) (p q : Pid) (e : Procent) :
    (s.set p e).proctab q = if q = p then e else s.proctab q := by
  simp [Sched.set, Function.update_apply]

theorem next_setNext (s : Sched) (p q : Pid) (n : Option Pid) :
    ((s.setNext p n).proctab q).next = if q = p then n else (s.proctab q).next := by
  rw [Sched.setNext, proctab_set]
  split_ifs <;> rfl

theorem frame_setNext (s : Sched) (p : Pid) (n : Option Pid) : Frame s (s.setNext p n) := by
  have same : ∀ q, ∃ l, (s.setNext p n).proctab q = { s.proctab q with next := l } := by
    intro q
    rw [Sched.setNext, proctab_set]
    split_ifs with equal
    · exact ⟨n, by rw [equal]⟩
    · exact ⟨(s.proctab q).next, rfl⟩
  refine ⟨fun q => ?_, fun q => ?_, fun q => ?_, rfl⟩
  all_goals
    obtain ⟨l, equal⟩ := same q
    rw [equal]

theorem LinksTo.congr {s' : Sched} (h : LinksTo s l xs m)
    (same : ∀ p ∈ xs, (s'.proctab p).next = (s.proctab p).next) : LinksTo s' l xs m :=
  Seg.congr h (fun _ _ _ node => node) same

theorem LinksTo.setNext (h : LinksTo s l xs m) {p : Pid} (fresh : p ∉ xs) (n : Option Pid) :
    LinksTo (s.setNext p n) l xs m := by
  apply h.congr
  intro q hq
  rw [next_setNext, if_neg]
  rintro rfl
  exact fresh hq

theorem LinksTo.redirect {p : Pid} (h : LinksTo s l (xs ++ [p]) m) (fresh : p ∉ xs)
    (n : Option Pid) : LinksTo (s.setNext p n) l (xs ++ [p]) n := by
  obtain ⟨r, before, here, _⟩ := seg_snoc.mp h
  refine seg_snoc.mpr ⟨r, LinksTo.setNext before fresh n, here, ?_⟩
  rw [next_setNext, if_pos rfl]

theorem Linked.congr {s' : Sched} (h : Linked s xs) (head : s'.readyHead = s.readyHead)
    (tail : s'.readyTail = s.readyTail)
    (same : ∀ p ∈ xs, (s'.proctab p).next = (s.proctab p).next) : Linked s' xs := by
  refine ⟨?_, fun nonempty => tail.trans (h.tail nonempty)⟩
  rw [head]
  exact h.chain.congr same

end Links

theorem readyPush_frame (s : Sched) (p : Pid) : Frame s (readyPush s p) := by
  unfold readyPush
  have first := frame_setNext s p none
  simp only
  split
  · exact ⟨first.state, first.sp, first.wakeAtUs, first.currpid⟩
  · next t _ _ =>
    have second := first.trans (frame_setNext (s.setNext p none) t (some p))
    exact ⟨second.state, second.sp, second.wakeAtUs, second.currpid⟩
  · exact ⟨first.state, first.sp, first.wakeAtUs, first.currpid⟩

variable {p : Pid}

/-- Pushing a process that is not on the list appends it. -/
theorem readyPush_linked (h : Linked s xs)
    (fresh : p ∉ xs) : Linked (readyPush s p) (xs ++ [p]) := by
  have chain := h.chain.setNext fresh none
  rcases List.eq_nil_or_concat xs with rfl | ⟨front, t, rfl⟩
  · have head : s.readyHead = none := h.chain
    have pushed : readyPush s p =
        { s.setNext p none with readyHead := some p, readyTail := some p } := by
      simp [readyPush, Sched.setNext, Sched.set, head]
    rw [pushed]
    refine ⟨⟨rfl, ?_⟩, fun _ => rfl⟩
    exact (next_setNext s p p none).trans (if_pos rfl)
  · have tail : s.readyTail = some t := by simpa using h.tail (by simp)
    obtain ⟨a, head⟩ : ∃ a, s.readyHead = some a := by
      cases front with
      | nil => exact ⟨t, h.chain.1⟩
      | cons a _ => exact ⟨a, h.chain.1⟩
    have pushed : readyPush s p =
        { (s.setNext p none).setNext t (some p) with readyTail := some p } := by
      simp [readyPush, Sched.setNext, Sched.set, head, tail]
    have other : p ≠ t := by
      rintro rfl
      exact fresh (by simp)
    have once : t ∉ front := by
      have nodup := h.nodup
      rw [List.concat_eq_append] at nodup
      intro again
      exact (List.nodup_append.mp nodup).2.2 t again t (by simp) rfl
    rw [pushed, List.concat_eq_append] at *
    refine ⟨?_, fun _ => by simp⟩
    apply seg_append.mpr
    refine ⟨some p, chain.redirect once (some p), rfl, ?_⟩
    change (((s.setNext p none).setNext t (some p)).proctab p).next = none
    rw [next_setNext, if_neg other, next_setNext, if_pos rfl]

def prioOf (s : Sched) (p : Pid) : Int := (s.proctab p).prio

theorem prio_setNext (s : Sched) (p : Pid) (n : Option Pid) :
    prioOf (s.setNext p n) = prioOf s := by
  funext q
  unfold prioOf
  rw [Sched.setNext, proctab_set]
  split_ifs with same
  · rw [same]
  · rfl

theorem readyPush_prio (s : Sched) (p : Pid) : prioOf (readyPush s p) = prioOf s := by
  have first := prio_setNext s p none
  unfold readyPush
  simp only
  split
  · exact first
  · next t _ _ => exact (prio_setNext (s.setNext p none) t (some p)).trans first
  · exact first

/-- `best` is on the list and `bestprev` is the process before it. -/
def Cut (xs : List Pid) (best : Pid) (bestprev : Option Pid) : Prop :=
  ∃ front back, xs = front ++ best :: back ∧ bestprev = front.getLast?

/-- The scan of `ready_pop` ends and stands at the first process of the highest priority
together with its predecessor. -/
theorem readyScan_cut {seen rest : List Pid} {fuel : Nat} {best prev : Pid} {bestprev curr : Option Pid}
    (cut : Cut seen best bestprev)
    (first : First (prioOf s) seen best) (last : seen.getLast? = some prev)
    (ahead : LinksTo s curr rest none) (budget : rest.length < fuel) :
    ∃ b bp, readyScan s.proctab fuel best bestprev prev curr = some (b, bp) ∧
      Cut (seen ++ rest) b bp ∧ First (prioOf s) (seen ++ rest) b := by
  induction rest generalizing seen fuel best bestprev prev curr with
  | nil =>
    obtain rfl : curr = none := ahead
    cases fuel with
    | zero => simp at budget
    | succ fuel => exact ⟨best, bestprev, rfl, by simpa using cut, by simpa using first⟩
  | cons c rest ih =>
    obtain ⟨here, tail⟩ := ahead
    obtain rfl : curr = some c := here
    cases fuel with
    | zero => simp at budget
    | succ fuel =>
      have room : rest.length < fuel := by simpa using budget
      have lastNext : (seen ++ [c]).getLast? = some c := by simp
      by_cases better : (s.proctab best).prio < (s.proctab c).prio
      · have cutNext : Cut (seen ++ [c]) c (some prev) := ⟨seen, [], rfl, last.symm⟩
        obtain ⟨b, bp, run, found, top⟩ := ih cutNext (first.take better) lastNext tail room
        refine ⟨b, bp, ?_, by simpa using found, by simpa using top⟩
        rw [readyScan, if_pos better]
        exact run
      · have cutNext : Cut (seen ++ [c]) best bestprev := by
          obtain ⟨front, back, rfl, prevEq⟩ := cut
          exact ⟨front, back ++ [c], by simp, prevEq⟩
        obtain ⟨b, bp, run, found, top⟩ := ih cutNext (first.keep better) lastNext tail room
        refine ⟨b, bp, ?_, by simpa using found, by simpa using top⟩
        rw [readyScan, if_neg better]
        exact run

/-- What `ready_pop` does after the scan found `best` behind `bestprev`. -/
private def unlink (s : Sched) (best : Pid) (bestprev : Option Pid) : Sched :=
  let after := (s.proctab best).next
  let s := match bestprev with
    | some b => s.setNext b after
    | none => { s with readyHead := after }
  let s := if s.readyTail = some best then { s with readyTail := bestprev } else s
  s.setNext best none

private theorem unlink_frame (s : Sched) (best : Pid) (bestprev : Option Pid) :
    Frame s (unlink s best bestprev) := by
  unfold unlink
  refine Frame.trans ?_ (frame_setNext _ best none)
  cases bestprev with
  | none =>
    simp only
    split_ifs <;> exact ⟨fun _ => rfl, fun _ => rfl, fun _ => rfl, rfl⟩
  | some b =>
    have first := frame_setNext s b (s.proctab best).next
    simp only
    split_ifs <;> exact ⟨first.state, first.sp, first.wakeAtUs, first.currpid⟩

private theorem unlink_prio (s : Sched) (best : Pid) (bestprev : Option Pid) :
    prioOf (unlink s best bestprev) = prioOf s := by
  unfold unlink
  refine (prio_setNext _ best none).trans ?_
  cases bestprev with
  | none =>
    dsimp only
    split_ifs <;> rfl
  | some b =>
    dsimp only
    split_ifs <;> exact prio_setNext s b (s.proctab best).next

private theorem unlink_linked {front back : List Pid} {best : Pid}
    (h : Linked s (front ++ best :: back)) :
    Linked (unlink s best front.getLast?) (front ++ back) := by
  obtain ⟨nodupFront, nodupBack, disjoint⟩ := List.nodup_append.mp h.nodup
  obtain ⟨bestBack, _⟩ := List.nodup_cons.mp nodupBack
  have bestFront : best ∉ front := fun hb => disjoint best hb best List.mem_cons_self rfl
  obtain ⟨r, before, _, behind⟩ := seg_append.mp h.chain
  have tail : s.readyTail = (front ++ best :: back).getLast? := h.tail (by simp)
  have tailBack : back ≠ [] → s.readyTail = back.getLast? ∧ s.readyTail ≠ some best := by
    intro nonempty
    have same : (front ++ best :: back).getLast? = back.getLast? := by
      rw [List.getLast?_append_of_ne_nil _ (by simp), List.getLast?_cons_of_ne_nil nonempty]
    refine ⟨tail.trans same, fun equal => ?_⟩
    have last := (tail.trans same).symm.trans equal
    exact bestBack (List.mem_of_getLast? last)
  have tailFront : back = [] → s.readyTail = some best := by
    rintro rfl
    simpa using tail
  rcases List.eq_nil_or_concat front with rfl | ⟨init, c, rfl⟩
  · refine ⟨?_, fun nonempty => ?_⟩
    · have chain : LinksTo { s with readyHead := (s.proctab best).next }
          (s.proctab best).next back none := behind
      have kept := LinksTo.setNext chain bestBack none
      by_cases last : s.readyTail = some best
      · simp only [unlink, List.getLast?_nil, List.nil_append, last, if_true]
        exact kept
      · simp only [unlink, List.getLast?_nil, List.nil_append, last, if_false]
        exact kept
    · obtain ⟨last, other⟩ := tailBack nonempty
      simpa [unlink, other, Sched.setNext, Sched.set] using last
  · rw [List.concat_eq_append] at *
    have once : c ∉ init := by
      intro again
      exact (List.nodup_append.mp nodupFront).2.2 c again c (by simp) rfl
    have cBack : c ∉ back := fun hc =>
      disjoint c (by simp) c (List.mem_cons_of_mem best hc) rfl
    have whole : LinksTo (s.setNext c (s.proctab best).next) s.readyHead
        ((init ++ [c]) ++ back) none := by
      apply seg_append.mpr
      exact ⟨(s.proctab best).next, LinksTo.redirect before once _,
        LinksTo.setNext behind cBack _⟩
    have fresh : best ∉ (init ++ [c]) ++ back := by
      intro again
      rcases List.mem_append.mp again with early | late
      · exact bestFront early
      · exact bestBack late
    refine ⟨?_, fun _ => ?_⟩
    · simp only [unlink, List.getLast?_append_of_ne_nil init (List.cons_ne_nil c []),
        List.getLast?_singleton]
      split_ifs <;> exact LinksTo.setNext whole fresh none
    · by_cases empty : back = []
      · have last := tailFront empty
        simp [unlink, last, empty, Sched.setNext, Sched.set]
      · obtain ⟨last, other⟩ := tailBack empty
        have same : ((init ++ [c]) ++ back).getLast? = back.getLast? :=
          List.getLast?_append_of_ne_nil _ empty
        rw [same, ← last]
        simp [unlink, other, Sched.setNext, Sched.set]

theorem readyPop_spec (h : Linked s xs) :
    (xs = [] ∧ readyPop s = some (s, none)) ∨
    ∃ front best back s', xs = front ++ best :: back ∧ readyPop s = some (s', some best) ∧
      Linked s' (front ++ back) ∧ Frame s s' ∧ First (prioOf s) xs best ∧
      prioOf s' = prioOf s := by
  cases xs with
  | nil =>
    have head : s.readyHead = none := h.chain
    exact .inl ⟨rfl, by simp [readyPop, head]⟩
  | cons a xs =>
    obtain ⟨head, rest⟩ := h.chain
    have head' : s.readyHead = some a := head
    have short : xs.length < nproc := by
      have count := h.nodup.length_le_card
      simp only [List.length_cons, Fintype.card_fin] at count
      unfold nproc
      omega
    have first : Cut [a] a none := ⟨[], [], rfl, rfl⟩
    have last : [a].getLast? = some a := rfl
    obtain ⟨best, bestprev, run, ⟨front, back, equal, rfl⟩, top⟩ :=
      readyScan_cut first (First.alone (prioOf s) a) last rest short
    have equal' : a :: xs = front ++ best :: back := equal
    refine .inr ⟨front, best, back, unlink s best front.getLast?, equal', ?_, ?_, ?_, top,
      unlink_prio s best _⟩
    · simp only [readyPop, head', run, Option.map_some]
      rfl
    · rw [equal'] at h
      exact unlink_linked h
    · exact unlink_frame s best _

/-- The list holds exactly the processes in state `PR_READY`. -/
structure ListInv (s : Sched) (xs : List Pid) : Prop where
  linked : Linked s xs
  mem : ∀ p, p ∈ xs ↔ (s.proctab p).state = .ready

theorem procInit_listInv : ListInv procInit [] := by
  refine ⟨⟨rfl, fun nonempty => (nonempty rfl).elim⟩, fun p => ?_⟩
  unfold procInit
  by_cases null : p = nullproc <;> simp [null]

structure Held (s : Sched) (xs : List Pid) (p : Pid) : Prop where
  linked : Linked s xs
  off : p ∉ xs
  mem : ∀ q, q ≠ p → (q ∈ xs ↔ (s.proctab q).state = .ready)

theorem ListInv.held (inv : ListInv s xs)
    (notReady : (s.proctab p).state ≠ .ready) : Held s xs p :=
  ⟨inv.linked, fun hp => notReady ((inv.mem p).mp hp), fun q _ => inv.mem q⟩

section

variable {s' : Sched} (held : Held s xs p) (head : s'.readyHead = s.readyHead)
  (tail : s'.readyTail = s.readyTail)

include held head tail

theorem Held.settle (next : ∀ q, (s'.proctab q).next = (s.proctab q).next)
    (others : ∀ q, q ≠ p → (s'.proctab q).state = (s.proctab q).state)
    (notReady : (s'.proctab p).state ≠ .ready) : ListInv s' xs := by
  refine ⟨held.linked.congr head tail fun q _ => next q, fun q => ?_⟩
  by_cases same : q = p
  · rw [same]
    exact ⟨fun listed => (held.off listed).elim, fun ready => (notReady ready).elim⟩
  · rw [others q same]
    exact held.mem q same

theorem Held.push (next : ∀ q, q ≠ p → (s'.proctab q).next = (s.proctab q).next)
    (others : ∀ q, q ≠ p → (s'.proctab q).state = (s.proctab q).state)
    (ready : (s'.proctab p).state = .ready) : ListInv (readyPush s' p) (xs ++ [p]) := by
  have linked : Linked s' xs := by
    apply held.linked.congr head tail
    intro q hq
    apply next
    rintro rfl
    exact held.off hq
  refine ⟨readyPush_linked linked held.off, fun q => ?_⟩
  rw [(readyPush_frame s' p).state q, List.mem_append, List.mem_singleton]
  by_cases same : q = p
  · simp [same, ready]
  · rw [others q same, held.mem q same]
    simp [same]

end

theorem Held.pushOther {t : Sched} {r : Pid} (held : Held s xs p)
    (other : r ≠ p) (notReady : (s.proctab r).state ≠ .ready)
    (head : t.readyHead = s.readyHead) (tail : t.readyTail = s.readyTail)
    (next : ∀ q, (t.proctab q).next = (s.proctab q).next)
    (others : ∀ q, q ≠ r → (t.proctab q).state = (s.proctab q).state)
    (ready : (t.proctab r).state = .ready) : Held (readyPush t r) (xs ++ [r]) p := by
  have fresh : r ∉ xs := fun hr => notReady ((held.mem r other).mp hr)
  have linked : Linked t xs := held.linked.congr head tail fun q _ => next q
  refine ⟨readyPush_linked linked fresh, ?_, fun q apart => ?_⟩
  · rw [List.mem_append, List.mem_singleton]
    rintro (listed | same)
    · exact held.off listed
    · exact other same.symm
  · rw [(readyPush_frame t r).state q, List.mem_append, List.mem_singleton]
    by_cases same : q = r
    · simp [same, ready]
    · rw [others q same, held.mem q apart]
      simp [same]

theorem ListInv.pop (inv : ListInv s xs) :
    (xs = [] ∧ readyPop s = some (s, none)) ∨
    ∃ best ys s', best ∈ xs ∧ readyPop s = some (s', some best) ∧ Held s' ys best ∧
      Frame s s' := by
  rcases readyPop_spec inv.linked with
    empty | ⟨front, best, back, s', rfl, run, linked, frame, _⟩
  · exact .inl empty
  · have nodup := inv.linked.nodup
    have off : best ∉ front ++ back := by
      have perm : (front ++ best :: back).Perm (best :: (front ++ back)) :=
        List.perm_middle
      exact (List.nodup_cons.mp (perm.nodup_iff.mp nodup)).1
    refine .inr ⟨best, front ++ back, s', by simp, run, ⟨linked, off, fun q apart => ?_⟩, frame⟩
    rw [frame.state q, ← inv.mem q]
    simp [apart]

end XinuRpi5.System.ReadyList
