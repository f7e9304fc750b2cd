/- source: cc/cc.c
   digest: Exactly when runs of cc_run_blob do not depend on the runs before them. -/

import XinuRpi5.Cc.RunProbes

namespace XinuRpi5.Cc.RunsIndependent

open SelectRuns (vInt)
open Cc.Runtime RunsApart RunBlob RunProbes

section Futures

variable {m : Machine}

def futures : Nat → (Int → Prog) → Int → Prog
  | 0, p, v => p v
  | n + 1, p, _ => .future 0 0 0 0 0 0 (futures n p)

/-- Code that reads the future `i`. -/
def reader (i : Fin 8) : Prog := .prim (.await (vInt (i : Nat))) .ret

/-- A program that makes futures up to `i`, whose handlers read that one, and then reads it. -/
def asking (i : Fin 8) : Blob :=
  ⟨futures i (fun _ => .future 0 0 0 0 0 0 fun _ => reader i) 0, none,
    some fun _ _ _ _ _ _ => reader i⟩

theorem future_free {fut : Fin 8 → Fut} {i : Fin 8} (taken : ∀ j < i, (fut j).used = true)
    (free : (fut i).used = false) :
    (List.finRange 8).find? (fun j => !(fut j).used) = some i := by
  rw [List.find?_eq_some_iff_getElem]
  refine ⟨by simp [free], i, by simp, by simp, fun j less => ?_⟩
  have there := taken ⟨j, by omega⟩ less
  simpa using there

/-- The futures up to `j` are used and hold zero. -/
def filled (s : State) (j : Nat) : State :=
  { s with fut := fun k => if (k : Nat) < j then ⟨true, vInt 0⟩ else s.fut k }

def taking (s : State) (i : Fin 8) : State :=
  { s with fut := Function.update s.fut i { s.fut i with used := true } }

def taken (s : State) (i : Fin 8) (v : Int) : State :=
  { s with fut := Function.update s.fut i { s.fut i with val := v } }

theorem filled_succ (s : State) (i : Fin 8) :
    taken (taking (filled s i) i) i (vInt 0) = filled s (i + 1) := by
  unfold filled taking taken
  congr 1
  funext k
  by_cases here : k = i
  · rw [here]
    simp
  · have apart : (k : Nat) ≠ i := fun same => here (Fin.ext same)
    simp only [Function.update_of_ne here]
    by_cases less : (k : Nat) < i
    · rw [if_pos less, if_pos (by omega)]
    · rw [if_neg less, if_neg (by omega)]

/-- Futures whose handlers return zero take the places one after the other. -/
theorem exec_futures {blob : Blob} {p : Int → Prog} {s : State} {x : Slots} {i : Fin 8}
    (unused : ∀ k < i, (s.fut k).used = false)
    (zero : ∀ k < i, ∀ n, exec probe.env blob (n + 2) (.prog (handler blob 0 0 0 0 0 0))
      ⟨taking (filled s k) k, x⟩ = some (⟨taking (filled s k) k, x⟩, vInt 0)) (n j : Nat) :
    ∀ (a : Nat) (v : Int), a + j = i → ∃ w,
      exec probe.env blob (n + j + 2) (.prog (futures j p v)) ⟨filled s a, x⟩ =
        exec probe.env blob (n + 2) (.prog (p w)) ⟨filled s i, x⟩ := by
  induction j with
  | zero =>
    rintro a v is
    obtain rfl : a = i := is
    exact ⟨v, rfl⟩
  | succ j ih =>
    intro a v is
    have inside : a < i := by omega
    have small : a < 8 := inside.trans i.isLt
    obtain ⟨w, later⟩ := ih (a + 1) (vInt a) (by omega)
    refine ⟨w, ?_⟩
    have free : ((filled s a).fut ⟨a, small⟩).used = false := by
      change (if a < a then (⟨true, vInt 0⟩ : Fut) else s.fut ⟨a, small⟩).used = false
      rw [if_neg (Nat.lt_irrefl a)]
      exact unused ⟨a, small⟩ inside
    have first := @future_free (filled s a).fut ⟨a, small⟩ (fun k less => by
      change (if (k : Nat) < a then (⟨true, vInt 0⟩ : Fut) else s.fut k).used = true
      exact congrArg Fut.used (if_pos (show (k : Nat) < a from less))) free
    rw [← later, ← filled_succ s ⟨a, small⟩]
    have handled := zero ⟨a, small⟩ inside (n + j)
    rw [show n + (j + 1) + 2 = (n + j + 2) + 1 by omega, futures, exec]
    simp only [first]
    change (exec probe.env blob (n + j + 2) (.prog (handler blob 0 0 0 0 0 0))
      ⟨taking (filled s a) ⟨a, small⟩, x⟩).bind _ = _
    rw [handled]
    rfl

theorem filled_zero (s : State) : filled s 0 = s := by
  unfold filled
  simp

/-- The program that makes futures up to `i` and tells the number of the last one. -/
def counting (i : Fin 8) : Blob :=
  ⟨futures i (fun _ => .future 0 0 0 0 0 0 .ret) 0, none, none⟩

theorem exec_counting {s : State} (x : Slots) {i : Fin 8}
    (unused : ∀ k < i, (s.fut k).used = false) :
    ∃ y, exec probe.env (counting i) (2 + i + 2) (.prog (counting i).entry) ⟨s, x⟩ = some y ∧
      Calm s y.1.st ∧ (y.2 = vInt (i : Nat) ↔ (s.fut i).used = false) := by
  obtain ⟨w, reached⟩ := @exec_futures (counting i) (fun _ => .future 0 0 0 0 0 0 .ret) s x i unused
    (fun k _ n => rfl) 2 i 0 0 (Nat.zero_add i)
  rw [filled_zero] at reached
  have here : (filled s i).fut i = s.fut i := if_neg (Nat.lt_irrefl i)
  have low (k : Fin 8) (less : k < i) : ((filled s i).fut k).used = true :=
    congrArg Fut.used (if_pos (show (k : Nat) < i from less))
  change exec probe.env (counting i) (2 + i + 2) (.prog (counting i).entry) ⟨s, x⟩ = _ at reached
  rw [reached, exec]
  cases found : (List.finRange 8).find? fun k => !((filled s i).fut k).used with
  | none =>
    have calm := emit_calm (filled s i) (utf8 manyFutures)
    refine ⟨_, rfl, ⟨calm.mq, calm.res, calm.room, calm.aborted⟩, fun same => ?_, fun free => ?_⟩
    · dsimp only [vInt] at same
      omega
    · have none := List.find?_eq_none.mp found i (List.mem_finRange i)
      rw [here, free] at none
      exact absurd rfl none
  | some k =>
    refine ⟨_, rfl, ⟨rfl, rfl, rfl, rfl⟩, fun same => ?_, fun free => ?_⟩
    · have equal : k = i := by
        dsimp only [vInt] at same
        exact Fin.ext (by omega)
      have free := List.find?_some found
      rw [equal, here] at free
      simpa using free
    · have first := future_free low (by rw [here]; exact free)
      rw [found] at first
      rw [Option.some.inj first]

theorem fut_unused (alike : Equivalent m boot) (i : Fin 8) :
    (m.st.fut i).used = false := by
  -- by induction on the number, as a future takes the first free place
  induction i using WellFoundedLT.induction with
  | ind i ih =>
    obtain ⟨y, mine, calm, value⟩ := @exec_counting (start m.st probe) m.slots i ih
    obtain ⟨z, fresh, calm', value'⟩ := @exec_counting (start boot.st probe) boot.slots i
      fun _ _ => rfl
    have same := (@shown m alike (counting i) (2 + i + 1) y z mine fresh calm.mq calm'.mq).2
    exact value.mp (same.trans (value'.mpr rfl))

theorem exec_reader {blob : Blob} (m : Machine) (i : Fin 8) (n : Nat) :
    exec probe.env blob (n + 2) (.prog (reader i)) m =
      some (m, if (m.st.fut i).used then (m.st.fut i).val else vInt 0) := by
  change some (m, (index 8 (vInt (i : Nat))).elim (vInt 0) fun k =>
    if (m.st.fut k).used then (m.st.fut k).val else vInt 0) = _
  rw [index_vInt i (by decide)]
  rfl

/-- The handler of a new future finds the value that its place had before. -/
theorem exec_asking {s : State} (x : Slots) (i : Fin 8) (unused : ∀ k, (s.fut k).used = false) :
    ∃ y, exec probe.env (asking i) (2 + i + 2) (.prog (asking i).entry) ⟨s, x⟩ = some y ∧
      y.1.st.mq = s.mq ∧ y.2 = (s.fut i).val := by
  have zero (k : Fin 8) (less : k < i) (n : Nat) :
      exec probe.env (asking i) (n + 2) (.prog (handler (asking i) 0 0 0 0 0 0))
        ⟨taking (filled s k) k, x⟩ = some (⟨taking (filled s k) k, x⟩, vInt 0) := by
    have other : (taking (filled s k) k).fut i = s.fut i := by
      change Function.update (filled s k).fut k _ i = _
      rw [Function.update_of_ne (ne_of_gt less)]
      exact if_neg (by omega)
    refine (exec_reader _ i n).trans ?_
    rw [if_neg]
    change ¬ ((taking (filled s k) k).fut i).used = true
    rw [other, unused i]
    decide
  obtain ⟨w, reached⟩ := @exec_futures (asking i) (fun _ => .future 0 0 0 0 0 0 fun _ => reader i)
    s x i (fun k _ => unused k) zero 2 i 0 0 (Nat.zero_add i)
  rw [filled_zero] at reached
  change exec probe.env (asking i) (2 + i + 2) (.prog (asking i).entry) ⟨s, x⟩ = _ at reached
  have here : (filled s i).fut i = s.fut i := if_neg (Nat.lt_irrefl i)
  have first := @future_free (filled s i).fut i
    (fun k less => congrArg Fut.used (if_pos (show (k : Nat) < i from less)))
    (by rw [here]; exact unused i)
  have started : (taking (filled s i) i).fut i = ⟨true, (s.fut i).val⟩ := by
    change Function.update (filled s i).fut i { (filled s i).fut i with used := true } i = _
    rw [Function.update_self, here]
  have ended (v : Int) : (taken (taking (filled s i) i) i v).fut i = ⟨true, v⟩ := by
    change Function.update (taking (filled s i) i).fut i
      { (taking (filled s i) i).fut i with val := v } i = _
    rw [Function.update_self, started]
  rw [reached, exec]
  simp only [first]
  change ∃ y, (exec probe.env (asking i) 3 (.prog (reader i))
    ⟨taking (filled s i) i, x⟩).bind _ = some y ∧ _
  rw [exec_reader]
  change ∃ y, exec probe.env (asking i) 3 (.prog (reader i))
    ⟨taken (taking (filled s i) i) i _, x⟩ = some y ∧ _
  rw [exec_reader]
  refine ⟨_, rfl, rfl, ?_⟩
  dsimp only
  rw [ended, started]
  rfl

theorem fut_clean (alike : Equivalent m boot) (i : Fin 8) : m.st.fut i = ⟨false, 0⟩ := by
  obtain ⟨y, mine, ends, value⟩ := @exec_asking (start m.st probe) m.slots i (fut_unused alike)
  obtain ⟨z, fresh, ends', value'⟩ := @exec_asking (start boot.st probe) boot.slots i fun _ => rfl
  have same := (@shown m alike (asking i) (2 + i + 1) y z mine fresh ends ends').2
  rw [value, value'] at same
  have unused := (fut_unused alike) i
  cases entry : m.st.fut i with
  | mk used val =>
    rw [entry] at unused
    change (m.st.fut i).val = 0 at same
    rw [entry] at same
    exact congrArg₂ Fut.mk unused same

end Futures

section Senders

variable {m : Machine}

theorem nested_fits (k : Fin 17) : (List.replicate k ((-1 : Int), (-1 : Int))).length ≤ 16 := by
  rw [List.length_replicate]
  omega

/-- The board after its start, but with `k` entries on the senders' stack. -/
def nested (k : Fin 17) : State :=
  { boot.st with sstack := ⟨List.replicate k (-1, -1), nested_fits k⟩ }

/-- Fifteen calls of `main`, and one of a handler that runs as the actor 0. -/
def layered : Blob where
  entry := .prim .actorNew fun _ => .prim (.enqueue 0 0 0 0 0 0) fun _ =>
    .nowPush fun _ => .nowPush fun _ => .nowPush fun _ => .nowPush fun _ => .nowPush fun _ =>
    .nowPush fun _ => .nowPush fun _ => .nowPush fun _ => .nowPush fun _ => .nowPush fun _ =>
    .nowPush fun _ => .nowPush fun _ => .nowPush fun _ => .nowPush fun _ => .nowPush fun _ =>
    .pumpNow fun _ => .nowPop 0 fun _ => .nowPush fun _ => .prim .sender .ret
  apply := none
  dispatch := some fun _ _ _ _ _ _ => .nowPush .ret

theorem layered_tells : ∀ k : Fin 17, observe probe layered 40 ⟨nested k, boot.slots⟩ =
    observe probe layered 40 boot → k = 0 := by
  decide +kernel

theorem clean_of_equivalent (alike : Equivalent m boot) : Clean m := by
  have bound := m.st.sstack.bound
  obtain ⟨k, stack⟩ : ∃ k : Fin 17, m.st.sstack.items = List.replicate k (-1, -1) := by
    refine ⟨⟨m.st.sstack.items.length, by omega⟩,
      List.eq_replicate_iff.mpr ⟨rfl, fun x listed => ?_⟩⟩
    obtain ⟨n, inside, rfl⟩ := List.mem_iff_getElem.mp listed
    exact no_sender alike n inside
  have none : k = 0 := by
    refine layered_tells k ?_
    rw [← alike probe layered 40]
    have slots : RunsApart.Alike [] boot.slots m.slots := by
      refine ⟨rcur_clean alike, Stack.ext (rstack_clean alike), used_clean alike, fun i seen => ?_⟩
      rcases seen with used | current | listed | wait
      · cases used
      · cases current
      · cases listed
      · cases wait
    rw [show m = ⟨m.st, m.slots⟩ from rfl, observe_alike probe 40 m.st slots]
    refine observe_start boot.slots ?_
    unfold start
    rw [show m.st.fut = boot.st.fut from funext (fut_clean alike),
      show m.st.sstack = (nested k).sstack from Stack.ext stack, sender_clean alike,
      cur_clean alike, res_clean alike, show m.st.sel = boot.st.sel from funext (sel_clean alike),
      web_clean alike]
    rfl
  refine ⟨fut_clean alike, used_clean alike, rcur_clean alike, rstack_clean alike, ?_,
    sender_clean alike, cur_clean alike, res_clean alike, sel_clean alike, web_clean alike⟩
  rw [stack, none]
  rfl

end Senders

theorem after_succ {jobs : List Job} {k : Nat} {m' : Machine} (inside : k < jobs.length)
    (ran : after (jobs.take (k + 1)) = some m') : ∃ m, after (jobs.take k) = some m := by
  rw [← List.take_append_getElem inside, after, List.foldlM_append] at ran
  obtain ⟨m, first, _⟩ := Option.bind_eq_some_iff.mp ran
  exact ⟨m, first⟩

/-- After every sequence of runs, what a program shows is the same with and without each of
them exactly if each of them leaves the tables clean. -/
theorem runs_independent_iff (jobs : List Job) :
    (∀ k m m', k < jobs.length → after (jobs.take k) = some m →
      after (jobs.take (k + 1)) = some m' → Equivalent m m') ↔
      ∀ k m, k ≤ jobs.length → after (jobs.take k) = some m → Clean m := by
  constructor
  · intro same k
    induction k with
    | zero =>
      rintro m _ ran
      obtain rfl := Option.some.inj ran
      exact clean_of_equivalent fun _ _ _ => rfl
    | succ k ih =>
      intro m' inside ran
      obtain ⟨m, before⟩ := after_succ inside ran
      have clean := ih m (Nat.le_of_lt inside) before
      refine clean_of_equivalent fun setting blob fuel => ?_
      rw [← same k m m' inside before ran setting blob fuel]
      exact clean.equivalent setting blob fuel
  · intro clean k m m' inside before ran setting blob fuel
    rw [(clean k m (Nat.le_of_lt inside) before).equivalent setting blob fuel]
    exact ((clean (k + 1) m' inside ran).equivalent setting blob fuel).symm

private def once : Blob := ⟨.future 0 0 0 0 0 0 .ret, none, none⟩

/-- Run a second time, it gets another number for its future. -/
theorem future_kept : ¬ ∀ (job : Job) (m : Machine) (v : Int),
    ccRunBlob job.setting job.blob job.fuel boot = some (m, v) → Equivalent m boot := by
  intro independent
  have again : ((ccRunBlob probe once 4 boot).bind fun y => observe probe once 4 y.1) =
      some ([], vInt 1) := by decide +kernel
  have first : observe probe once 4 boot = some ([], vInt 0) := by decide +kernel
  obtain ⟨⟨m, v⟩, ran, shown⟩ := Option.bind_eq_some_iff.mp again
  have same := independent ⟨probe, once, 4⟩ m v ran probe once 4
  rw [first] at same
  exact absurd (shown.symm.trans same) (by decide)

end XinuRpi5.Cc.RunsIndependent
