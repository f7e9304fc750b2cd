/- source: system/proc.c, system/spinlock.c
   digest: At which points an interrupt leaves creation and readying of processes intact. -/

import XinuRpi5.System.InterruptSafe

namespace XinuRpi5.System.InterruptExact

open Lib.LinkedChain Lib.Word64 Proc
open ReadyList Transitions Interrupt
open InterruptHandlers InterruptSafe

section Damage

variable {kind : LockKind} {job : Job} {xs ws : List Pid} {s : Sched} {m m2 m3 : Mach} {p : Pid}
  {h : Handler} {r v : Option Int}

/-- Pushing a listed process again cuts off what is behind it, or closes a
cycle when nothing is. -/
theorem push_again {front back zs : List Pid} (linked : Linked s (front ++ p :: back))
    (walk : LinksTo (readyPush s p) (readyPush s p).readyHead zs none) :
    back ≠ [] ∧ zs = front ++ [p] := by
  obtain ⟨nodupFront, nodupBack, disjoint⟩ := List.nodup_append.mp linked.nodup
  have offFront : p ∉ front := fun listed => disjoint p listed p List.mem_cons_self rfl
  have offBack : p ∉ back := (List.nodup_cons.mp nodupBack).1
  obtain ⟨mid, before, here, _⟩ := seg_append.mp linked.chain
  obtain rfl : mid = some p := here
  obtain ⟨a, head⟩ : ∃ a, s.readyHead = some a := by
    cases front with
    | nil => exact ⟨p, before⟩
    | cons a _ => exact ⟨a, before.1⟩
  have tail := linked.tail (by simp)
  rw [List.getLast?_append_of_ne_nil _ (by simp)] at tail
  rcases List.eq_nil_or_concat back with rfl | ⟨init, b, rfl⟩
  · have last : s.readyTail = some p := by simpa using tail
    have pushed : readyPush s p =
        { (s.setNext p none).setNext p (some p) with readyTail := some p } := by
      simp [readyPush, Sched.setNext, Sched.set, head, last]
    rw [pushed] at walk
    have reach : LinksTo ((s.setNext p none).setNext p (some p)) s.readyHead front (some p) :=
      (LinksTo.setNext before offFront none).setNext offFront (some p)
    have loop : (((s.setNext p none).setNext p (some p)).proctab p).next = some p := by
      rw [next_setNext, if_pos rfl]
    obtain ⟨ys, rfl, onward⟩ := Seg.rest points_functional reach walk
    cases ys with
    | nil => cases onward
    | cons b bs =>
      obtain ⟨start, rest⟩ := onward
      obtain rfl : p = b := Option.some.inj start
      have whole : LinksTo ((s.setNext p none).setNext p (some p)) (some p) (p :: bs) none :=
        ⟨start, rest⟩
      have again : LinksTo ((s.setNext p none).setNext p (some p)) (some p) bs none := by
        have onward := whole.2
        simp only [loop] at onward
        exact onward
      have length := congrArg List.length (Seg.unique points_functional again whole)
      simp at length
  · rw [List.concat_eq_append] at *
    have last : s.readyTail = some b := by
      rw [tail, List.getLast?_cons_of_ne_nil (by simp)]
      simp
    have other : p ≠ b := by
      rintro rfl
      exact offBack (by simp)
    have bFront : b ∉ front := fun listed => disjoint b listed b (by simp) rfl
    have pushed : readyPush s p =
        { (s.setNext p none).setNext b (some p) with readyTail := some p } := by
      simp [readyPush, Sched.setNext, Sched.set, head, last]
    rw [pushed] at walk
    have whole : LinksTo ((s.setNext p none).setNext b (some p)) s.readyHead
        (front ++ [p]) none := by
      apply seg_snoc.mpr
      refine ⟨some p, (LinksTo.setNext before offFront none).setNext bFront (some p), rfl, ?_⟩
      rw [next_setNext, if_neg other, next_setNext, if_pos rfl]
    exact ⟨by simp, Seg.unique points_functional walk whole⟩

/-- What `Harmless` says of one interruption, with its results named. -/
structure Intact (job : Job) (m m2 m3 : Mach) (r v : Option Int) : Prop where
  pids : ∀ i j : Int, v = some i → r = some j → 0 ≤ i → 0 ≤ j → i ≠ j
  listed : ∃ zs, LinksTo m3.sched m3.sched.readyHead zs none ∧
    ∀ q, Target job v q ∨ Readied m.sched m2.sched q → zs.count q = 1

theorem wakes_fresh {q : Pid} (pushed : Pushed m.sched m2.sched xs (wakes m.sched h))
    (woken : q ∈ wakes m.sched h) : q ∉ xs :=
  fun listed => (List.nodup_append.mp pushed.linked.nodup).2.2 q listed q woken rfl

section

variable (run : handle kind m h = some (m2, r))

include run

theorem readied_of_wakes {q : Pid} (woken : q ∈ wakes m.sched h) : Readied m.sched m2.sched q := by
  refine ⟨wakes_notReady woken, ?_⟩
  rw [(handle_spec run).state q, if_pos woken]

theorem not_intact_of_lost {q : Pid} {ys : List Pid} (woken : q ∈ wakes m.sched h)
    (chain : LinksTo m3.sched m3.sched.readyHead ys none) (missing : q ∉ ys) :
    ¬ Intact job m m2 m3 r v := by
  intro intact
  obtain ⟨zs, walk, once⟩ := intact.listed
  obtain rfl := Seg.unique points_functional walk chain
  have count := once q (.inr (readied_of_wakes run woken))
  rw [List.count_eq_zero_of_not_mem missing] at count
  cases count

theorem empty_lost (queue : Queue m.sched []) (ready : (m.sched.proctab p).state = .ready)
    (next : (m.sched.proctab p).next = none) (some : wakes m.sched h ≠ [])
    (head : m3.sched.readyHead = Option.some p) (table : m3.sched.proctab = m2.sched.proctab) :
    ¬ Intact job m m2 m3 r v := by
  obtain ⟨w, woken⟩ := List.exists_mem_of_ne_nil _ some
  have away : p ∉ wakes m.sched h := fun listed => wakes_notReady listed ready
  have pushed := handle_queue run queue
  have alone : LinksTo m3.sched m3.sched.readyHead [p] none := by
    refine ⟨head, ?_⟩
    simp only [table]
    exact (pushed.next p (by simp) away).trans next
  apply not_intact_of_lost run woken alone
  rw [List.mem_singleton]
  rintro rfl
  exact away woken

/-- The handler appended behind a tail that the interrupted code had read. -/
theorem append_lost {t : Pid} (primed : Primed m.sched xs p) (some : wakes m.sched h ≠ [])
    (full : xs ≠ []) (tail : m.sched.readyTail = Option.some t)
    (final : m3.sched = { m2.sched.setNext t (Option.some p) with readyTail := Option.some p }) :
    ¬ Intact job m m2 m3 r v := by
  obtain ⟨w, woken⟩ := List.exists_mem_of_ne_nil _ some
  have away : p ∉ wakes m.sched h := fun listed => wakes_notReady listed primed.ready
  have pushed := handle_queue run primed.queue
  obtain ⟨front, last, rfl⟩ := (List.eq_nil_or_concat xs).resolve_left full
  rw [List.concat_eq_append] at *
  obtain rfl : last = t := by
    have equal := (primed.queue.linked.tail full).symm.trans tail
    simpa using equal
  have fresh := wakes_fresh pushed woken
  have once : last ∉ front := by
    have nodup := primed.queue.linked.nodup
    intro again
    exact (List.nodup_append.mp nodup).2.2 last again last (by simp) rfl
  obtain ⟨mid, before, _⟩ := seg_append.mp pushed.linked.chain
  have other : p ≠ last := by
    rintro rfl
    exact primed.off (by simp)
  have chain : LinksTo m3.sched m3.sched.readyHead (front ++ [last] ++ [p]) none := by
    rw [final]
    apply seg_snoc.mpr
    refine ⟨Option.some p, LinksTo.redirect before once (Option.some p), rfl, ?_⟩
    refine (next_setNext m2.sched last p (Option.some p)).trans ?_
    rw [if_neg other, pushed.next p primed.off away]
    exact primed.next
  apply not_intact_of_lost run woken chain
  rw [List.mem_append, List.mem_singleton, not_or]
  refine ⟨fresh, ?_⟩
  rintro rfl
  exact away woken

/-- The handler overwrote the link to the process that was being pushed. -/
theorem tail_lost {s0 : Sched} {t : Pid} (primed : Primed s0 xs p) (names : Names job p)
    (some : wakes m.sched h ≠ []) (full : xs ≠ []) (tail : s0.readyTail = Option.some t)
    (cut : m.sched = s0.setNext t (Option.some p))
    (final : m3.sched = { m2.sched with readyTail := Option.some p }) (result : v = job.result p) :
    ¬ Intact job m m2 m3 r v := by
  have ended : Ended m.sched xs := by
    obtain ⟨front, last, rfl⟩ := (List.eq_nil_or_concat xs).resolve_left full
    rw [List.concat_eq_append] at *
    have linked := primed.queue.linked
    obtain rfl : last = t := by
      have equal := (linked.tail full).symm.trans tail
      simpa using equal
    have once : last ∉ front := fun again =>
      (List.nodup_append.mp linked.nodup).2.2 last again last (by simp) rfl
    rw [cut]
    exact ⟨⟨_, linked.chain.redirect once (Option.some p)⟩, linked.nodup, full, linked.tail full⟩
  have state : ∀ q, (m.sched.proctab q).state = (s0.proctab q).state := by
    intro q
    rw [cut]
    exact (frame_setNext s0 t (Option.some p)).state q
  have ready : ∀ q ∈ xs, (m.sched.proctab q).state = .ready := by
    intro q listed
    rw [state q]
    exact primed.queue.ready q listed
  have pushed := (handle_spec run).pushed xs ended.pushable ready some
  have away : p ∉ wakes m.sched h := by
    intro listed
    apply wakes_notReady listed
    rw [state p]
    exact primed.ready
  intro intact
  obtain ⟨zs, walk, once⟩ := intact.listed
  rw [final] at walk
  obtain rfl := Seg.unique points_functional walk pushed.linked.chain
  have count := once p (.inl (result ▸ target_self names))
  have missing : p ∉ xs ++ wakes m.sched h := by
    rw [List.mem_append, not_or]
    exact ⟨primed.off, away⟩
  rw [List.count_eq_zero_of_not_mem missing] at count
  cases count

theorem twice_lost (queue : Queue m.sched xs) (woken : p ∈ wakes m.sched h)
    (final : m3.sched = readyPush (m2.sched.setState p .ready) p) :
    ¬ Intact job m m2 m3 r v := by
  intro intact
  obtain ⟨zs, walk, once⟩ := intact.listed
  have pushed := handle_queue run queue
  obtain ⟨early, late, split⟩ := List.append_of_mem woken
  have linked : Linked (m2.sched.setState p .ready) (xs ++ early ++ p :: late) := by
    have same : xs ++ early ++ p :: late = xs ++ wakes m.sched h := by simp [split]
    rw [same]
    exact pushed.linked.congr rfl rfl fun q _ => next_setState m2.sched p q .ready
  rw [final] at walk
  obtain ⟨more, rfl⟩ := push_again linked walk
  obtain ⟨w, listed⟩ := List.exists_mem_of_ne_nil late more
  have count := once w (.inr (readied_of_wakes run (by simp [split, listed])))
  have missing : w ∉ xs ++ early ++ [p] := by
    have perm : xs ++ early ++ p :: late = xs ++ early ++ [p] ++ late := by simp
    have nodup := linked.nodup
    rw [perm] at nodup
    exact fun early => (List.nodup_append.mp nodup).2.2 w early w listed rfl
  rw [List.count_eq_zero_of_not_mem missing] at count
  cases count

theorem slot_lost (free : (m.sched.proctab p).state = .free) (create : job.isReady = false)
    (woken : p ∈ wakes m.sched h) (result : v = job.result p) :
    ¬ Intact job m m2 m3 r v := by
  intro intact
  have pid : r = some (p.val : Int) := by
    cases h with
    | tick now =>
      have due : Due m.sched now p := by simpa [wakes] using woken
      have both := free.symm.trans due.1
      cases both
    | create stk stksize name =>
      simp only [wakes] at woken
      split_ifs at woken with bad
      · exact absurd woken List.not_mem_nil
      · have slot := Option.mem_toList.mp woken
        simp only [handle, slot, if_neg bad, Option.map_eq_some_iff, Prod.mk.injEq] at run
        obtain ⟨l, _, _, equal⟩ := run
        exact equal.symm
  have returned : v = some (p.val : Int) := by
    rw [result]
    simp [Job.result, create]
  exact intact.pids _ _ returned pid (by omega) (by omega) rfl

end

/-- An intact interruption met the condition. -/
theorem safe_of_intact {pt : Point} (good : Good kind job xs (m, pt))
    (run : handle kind m h = some (m2, r)) (finishes : Finishes kind job (m2, pt) m3 v)
    (intact : Intact job m m2 m3 r v) : Safe kind job m.sched pt h := by
  have stand := good.stand
  refine ⟨?_, ?_, ?_⟩
  · rintro rfl holds locks
    have waits := handle_waits good.lock holds locks
    rw [waits] at run
    cases run
  · intro window
    by_contra some
    cases pt with
    | empty p =>
      obtain ⟨names, primed, head⟩ := stand
      obtain rfl : xs = [] := primed.queue.empty head
      have final := finishes.next.next.unlocking.1
      exact empty_lost run primed.queue primed.ready primed.next some (by rw [final])
        (by rw [final]) intact
    | emptyTail p =>
      obtain ⟨names, s0, primed, head, cut⟩ := stand
      obtain rfl : xs = [] := primed.queue.empty head
      have final := finishes.next.unlocking.1
      have queue : Queue m.sched [] := by
        refine ⟨⟨?_, fun some => absurd rfl some⟩, by simp⟩
        rw [cut]
        exact head
      have ready : (m.sched.proctab p).state = .ready := by
        rw [cut]
        exact primed.ready
      have next : (m.sched.proctab p).next = none := by
        rw [cut]
        exact primed.next
      exact empty_lost run queue ready next some (by rw [final]) (by rw [final]) intact
    | append p t =>
      obtain ⟨names, primed, head, tail⟩ := stand
      have final := finishes.next.next.unlocking.1
      exact append_lost run primed some (primed.head_some head) tail final intact
    | tail p =>
      obtain ⟨names, s0, t, primed, head, tail, cut⟩ := stand
      obtain ⟨final, result⟩ := finishes.next.unlocking
      exact tail_lost run primed names some (primed.head_some head) tail cut final result intact
    | _ => exact window.elim
  · intro p pending woken
    cases pt with
    | start =>
      obtain ⟨rfl, other⟩ := pending
      have locking := finishes.next
      rw [advance_start other] at locking
      exact twice_lost run stand.1 woken (locking.locking rfl) intact
    | found q =>
      obtain ⟨goes, rfl⟩ := pending
      obtain ⟨queue, create, free⟩ := stand
      have claimed := finishes.next
      simp only [advance, goes] at claimed
      have result := claimed.result rfl
      exact slot_lost run (free goes) create woken result intact
    | locking q =>
      obtain ⟨ready, rfl⟩ := pending
      obtain ⟨names, queue, off, _⟩ := stand
      exact twice_lost run queue woken (finishes.locking ready) intact
    | spinning q mine =>
      obtain ⟨ready, rfl⟩ := pending
      obtain ⟨names, queue, off, _⟩ := stand
      exact twice_lost run queue woken (finishes.spinning ready) intact
    | marking q =>
      obtain rfl : q = p := pending
      obtain ⟨names, queue, off⟩ := stand
      exact twice_lost run queue woken finishes.marking intact
    | _ => exact pending.elim

end Damage

/-- The machine after `proc_init`. -/
def boot : Mach := ⟨procInit, ⟨0, 0, 0⟩⟩

/-- An interrupt inside `proc_create`, `proc_create_static` or `proc_ready` is
harmless exactly when it meets the condition at the point where it comes. -/
theorem interrupt_harmless_iff (kind : LockKind) (job : Job) (m : Mach) (h : Handler) (n : Nat)
    (xs : List Pid) (inv : ListInv m.sched xs) (legit : Legit job m) :
    Harmless kind job m h n ↔
      Safe kind job ((advance kind job)^[n] (m, .start)).1.sched
        ((advance kind job)^[n] (m, .start)).2 h := by
  have start : Good kind job xs (m, .start) := by
    refine ⟨⟨legit.bound, fun _ _ => legit.quiet, fun _ holds => holds.elim, ?_⟩, ?_, legit.asleep⟩
    · rintro _ p mine ⟨⟩
    · exact ⟨inv.linked, fun q listed => (inv.mem q).mp listed⟩
  refine ⟨?_, harmless_of_safe start⟩
  rintro ⟨m2, r, m3, v, run, finishes, pids, listed⟩
  exact safe_of_intact (start.iterate n) run finishes ⟨pids, listed⟩

/-- Once the slot is marked, a creation from the network interrupt takes another one and pushes
it before the interrupted call pushes its own. -/
theorem creation_after_mark_harmless :
    Harmless .bakery (.create 1024 4096 []) boot (.create 8192 2048 []) 3 ∧
      (wakes ((advance .bakery (.create 1024 4096 []))^[3] (boot, .start)).1.sched
        (.create 8192 2048 [])).map Fin.val = [2] := by
  refine ⟨(interrupt_harmless_iff .bakery (.create 1024 4096 []) boot (.create 8192 2048 []) 3 []
    procInit_listInv ⟨by decide, rfl, ?_⟩).mpr ⟨?_, ?_, ?_⟩, by decide⟩
  · rintro p ⟨⟩
  · rintro ⟨⟩
  · intro window
    exact window.elim
  · intro p pending
    exact pending.elim

/-- One access earlier such a creation gets the slot that `proc_create` has found: both return
pid 1. -/
theorem slot_given_twice :
    ¬ Harmless .bakery (.create 1024 4096 []) boot (.create 8192 2048 []) 2 := by
  have cut : (advance .bakery (.create 1024 4096 []))^[2] (boot, .start) = (boot, .found 1) := rfl
  rintro ⟨m2, r, m3, v, run, finishes, pids, listed⟩
  rw [cut] at run finishes listed
  have result := finishes.next.result (p := 1) rfl
  exact slot_lost run rfl rfl (by decide) result ⟨pids, listed⟩

end XinuRpi5.System.InterruptExact
