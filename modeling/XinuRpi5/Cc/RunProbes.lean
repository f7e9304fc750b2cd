/- source: cc/cc.c
   digest: Programs that tell a machine with leftovers from one that has just started. -/

import XinuRpi5.Cc.RunBlob

namespace XinuRpi5.Cc.RunProbes

open SelectRuns (vInt vIntOf)
open ActorQueue (asInt)
open Cc.Runtime RunsApart RunBlob

section Probes

def probe : Setting := ⟨⟨fun _ => 0, 1000, fun _ => 0⟩, 1, false, none⟩

/-- A command of a probe: a call without code of the program behind it. -/
inductive Cmd where
  | prim (a : Prim)
  | push
  | replyto
  | answer (r v : Int)
  | pop

def Cmd.act (m : Machine) : Cmd → Option (Machine × Int)
  | .prim a => some ({ m with st := (Runtime.prim probe.env m.st a).1 },
      (Runtime.prim probe.env m.st a).2)
  | .push => some (⟨pushSender m.st, pushSlot m.slots⟩, vInt 0)
  | .replyto => some ({ m with slots := (Runtime.replyto m.slots).1 }, (Runtime.replyto m.slots).2)
  | .answer r v => some (Runtime.answer m r v, vInt 0)
  | .pop =>
    match m.slots.rcur with
    | none => some (⟨popSender m.st, popSlot m.slots⟩, 0)
    | some i =>
      if (m.slots.rslot i).taken then none
      else some (⟨popSender m.st, rslotFree (popSlot m.slots) i⟩, 0)

/-- The program that runs the commands and returns what the last one returns. -/
def script : List Cmd → Int → Prog
  | [], v => .ret v
  | .prim a :: cmds, _ => .prim a (script cmds)
  | .push :: cmds, _ => .nowPush (script cmds)
  | .replyto :: cmds, _ => .replyto (script cmds)
  | .answer r v :: cmds, _ => .answer r v (script cmds)
  | .pop :: cmds, _ => .nowPop 0 (script cmds)

def acts : List Cmd → Machine → Int → Option (Machine × Int)
  | [], m, v => some (m, v)
  | cmd :: cmds, m, _ => (cmd.act m).bind fun y => acts cmds y.1 y.2

theorem exec_script {blob : Blob} (cmds : List Cmd) : ∀ {m : Machine} {v : Int} {n : Nat}
    {y : Machine × Int}, acts cmds m v = some y →
    exec probe.env blob (n + cmds.length + 1) (.prog (script cmds v)) m = some y := by
  induction cmds with
  | nil => exact fun done => done
  | cons cmd cmds ih =>
    intro m v n y done
    obtain ⟨z, first, later⟩ := Option.bind_eq_some_iff.mp done
    rw [List.length_cons, ← Nat.add_assoc]
    cases cmd with
    | prim a =>
      obtain rfl := Option.some.inj first
      exact ih later
    | push =>
      obtain rfl := Option.some.inj first
      exact ih later
    | replyto =>
      obtain rfl := Option.some.inj first
      exact ih later
    | answer r w =>
      obtain rfl := Option.some.inj first
      exact ih later
    | pop =>
      rw [script, exec]
      rw [Cmd.act] at first
      cases current : m.slots.rcur with
      | none =>
        rw [current] at first
        obtain rfl := Option.some.inj first
        exact ih later
      | some i =>
        rw [current] at first
        dsimp only at first ⊢
        by_cases taken : (m.slots.rslot i).taken = true
        · rw [if_pos taken] at first
          cases first
        · rw [if_neg taken] at first ⊢
          obtain rfl := Option.some.inj first
          exact ih later

def begun (m : Machine) : Machine := { m with st := start m.st probe }

variable {m : Machine}

theorem index_vInt {n : Nat} (i : Fin n) (small : n ≤ 32) : index n (vInt (i : Nat)) = some i := by
  have value : vIntOf (vInt (i : Nat)) = (i : Nat) := by
    unfold vIntOf vInt
    rw [if_pos (by omega)]
    omega
  have int : asInt ((i : Nat) : Int) = (i : Nat) := by
    have less := i.isLt
    unfold asInt
    rw [Int.bmod_eq_of_le] <;> omega
  unfold index
  rw [value, int, dif_pos (by simp)]
  simp

variable (alike : Equivalent m boot)

include alike

theorem shown {blob : Blob} {n : Nat} {y z : Machine × Int}
    (hy : exec probe.env blob (n + 1) (.prog blob.entry) (begun m) = some y)
    (hz : exec probe.env blob (n + 1) (.prog blob.entry) (begun boot) = some z)
    (ends : y.1.st.mq = []) (ends' : z.1.st.mq = []) :
    (finish y.1.st).out = (finish z.1.st).out ∧ y.2 = z.2 := by
  have shows (m : Machine) (y : Machine × Int)
      (ran : exec probe.env blob (n + 1) (.prog blob.entry) (begun m) = some y)
      (ends : y.1.st.mq = []) :
      observe probe blob (n + 1) m = some ((finish y.1.st).out, y.2) := by
    unfold observe ccRunBlob
    change (((exec probe.env blob (n + 1) (.prog blob.entry) (begun m)).bind _).map _) = _
    rw [ran]
    dsimp only [Option.bind_some]
    rw [exec, ends]
    rfl
  have same := alike probe blob (n + 1)
  rw [shows m y hy ends, shows boot z hz ends'] at same
  exact Prod.mk.inj (Option.some.inj same)

theorem same_shown (cmds : List Cmd) {y z : Machine × Int} (hy : acts cmds (begun m) 0 = some y)
    (hz : acts cmds (begun boot) 0 = some z) (ends : y.1.st.mq = []) (ends' : z.1.st.mq = []) :
    (finish y.1.st).out = (finish z.1.st).out ∧ y.2 = z.2 :=
  @shown m alike ⟨script cmds 0, none, none⟩ (0 + cmds.length) y z
    (exec_script cmds hy) (exec_script cmds hz) ends ends'

theorem sender_clean : m.st.sender = -1 := by
  have same := (same_shown alike [.prim .sender] rfl rfl rfl rfl).2
  change vInt m.st.sender = vInt (-1) at same
  unfold vInt at same
  omega

theorem cur_clean : m.st.cur = -1 := by
  have same := (same_shown alike [.push, .prim .sender] rfl rfl rfl rfl).2
  change vInt m.st.cur = vInt (-1) at same
  unfold vInt at same
  omega

theorem rcur_clean : m.slots.rcur = none := by
  have same := (same_shown alike [.replyto] rfl rfl rfl rfl).2
  change (replyto m.slots).2 = vInt (-1) at same
  unfold replyto vInt at same
  cases current : m.slots.rcur with
  | none => rfl
  | some i =>
    rw [current] at same
    dsimp only at same
    omega

theorem sel_clean (i : Fin 4) : m.st.sel i = 0 := by
  have same := (same_shown alike [.prim (.selArg (i : Nat))] rfl rfl rfl rfl).2
  change (if h : ((i : Nat) : Int).toNat < 4 then
    if 0 ≤ ((i : Nat) : Int) then m.st.sel ⟨((i : Nat) : Int).toNat, h⟩ else vInt 0 else vInt 0) =
    (if h : ((i : Nat) : Int).toNat < 4 then
    if 0 ≤ ((i : Nat) : Int) then 0 else vInt 0 else vInt 0) at same
  simpa using same

theorem used_clean (i : Fin 32) :
    (m.slots.rslot i).used = false := by
  by_contra used
  rw [Bool.not_eq_false] at used
  have here := index_vInt i (Nat.le_refl 32)
  -- on the fresh board the slot is reported as invalid
  have fresh : acts [.answer (vInt (i : Nat)) 0] (begun boot) 0 =
      some ({ begun boot with st := emit (begun boot).st (utf8 deadSlot) }, vInt 0) := by
    change some (answer (begun boot) (vInt (i : Nat)) 0, vInt 0) = _
    unfold answer
    rw [here]
    rfl
  have told : utf8 deadSlot ≠ utf8 twice ∧ utf8 deadSlot ≠ [] := by decide +kernel
  have mine : acts [.answer (vInt (i : Nat)) 0] (begun m) 0 =
      some (if (m.slots.rslot i).filled = true then
        { begun m with st := emit (begun m).st (utf8 twice) }
      else { begun m with slots.rslot := (Function.update m.slots.rslot i
        { m.slots.rslot i with filled := true, val := 0 }) }, vInt 0) := by
    change some (answer (begun m) (vInt (i : Nat)) 0, vInt 0) = _
    unfold answer
    rw [here]
    change some (if (!(m.slots.rslot i).used) = true then _ else _, vInt 0) = _
    rw [if_neg (by simp [used])]
    rfl
  split_ifs at mine
  · exact told.1 (same_shown alike _ mine fresh rfl rfl).1.symm
  · exact told.2 (same_shown alike _ mine fresh rfl rfl).1.symm

end Probes

section Stacks

variable {m : Machine}

theorem acts_pops (cmds : List Cmd) (n : Nat) : ∀ {m : Machine} {v : Int},
    (∀ k < n, (popSlot^[k] m.slots).rcur = none) →
    ∃ w, acts (List.replicate n .pop ++ cmds) m v =
      acts cmds ⟨popSender^[n] m.st, popSlot^[n] m.slots⟩ w := by
  induction n with
  | zero => exact fun {m v} _ => ⟨v, rfl⟩
  | succ n ih =>
    intro m v idle
    have now : m.slots.rcur = none := idle 0 (Nat.succ_pos n)
    obtain ⟨w, rest⟩ := @ih ⟨popSender m.st, popSlot m.slots⟩ 0 fun k less =>
      idle (k + 1) (Nat.succ_lt_succ less)
    refine ⟨w, ?_⟩
    rw [Function.iterate_succ_apply, Function.iterate_succ_apply, ← rest, List.replicate_succ]
    change ((Cmd.pop).act m).bind _ = _
    rw [Cmd.act, now]
    rfl

theorem popSlot_iter (n : Nat) : ∀ x : Slots, (popSlot^[n] x).rstack.items = x.rstack.items.drop n ∧
    (popSlot^[n + 1] x).rcur = (x.rstack.items.drop n).headD none := by
  induction n with
  | zero => exact fun x => ⟨rfl, rfl⟩
  | succ n ih =>
    intro x
    obtain ⟨items, rcur⟩ := ih (popSlot x)
    refine ⟨?_, ?_⟩
    · rw [Function.iterate_succ_apply, items]
      change x.rstack.items.tail.drop n = _
      rw [List.drop_tail]
    · rw [Function.iterate_succ_apply, rcur]
      change (x.rstack.items.tail.drop n).headD none = _
      rw [List.drop_tail]

theorem popSender_iter (n : Nat) : ∀ s : State,
    (popSender^[n] s).sstack.items = s.sstack.items.drop n ∧ (popSender^[n] s).mq = s.mq ∧
    (popSender^[n] s).aborted = s.aborted ∧ (popSender^[n] s).out = s.out := by
  induction n with
  | zero => exact fun s => ⟨rfl, rfl, rfl, rfl⟩
  | succ n ih =>
    intro s
    obtain ⟨items, rest⟩ := ih (popSender s)
    rw [Function.iterate_succ_apply]
    refine ⟨?_, rest⟩
    rw [items]
    change s.sstack.items.tail.drop n = _
    rw [List.drop_tail]

/-- No call of an earlier run has left its slot on the stack. -/
theorem none_left (alike : Equivalent m boot) : ∀ x ∈ m.slots.rstack.items, x = none := by
  by_contra some_left
  simp only [not_forall] at some_left
  obtain ⟨x, listed, left⟩ := some_left
  obtain ⟨top, found⟩ : ∃ top, m.slots.rstack.items.find? Option.isSome = some top := by
    rw [← Option.isSome_iff_exists, List.find?_isSome]
    exact ⟨x, listed, Option.isSome_iff_ne_none.mpr left⟩
  obtain ⟨isSome, front, rest, split, early⟩ := List.find?_eq_some_iff_append.mp found
  obtain ⟨i, rfl⟩ := Option.isSome_iff_exists.mp isSome
  have idle (k : Nat) (less : k < front.length + 1) :
      (popSlot^[k] (begun m).slots).rcur = none := by
    cases k with
    | zero => exact rcur_clean alike
    | succ k =>
      have inside : k < front.length := by omega
      rw [(popSlot_iter k _).2]
      change ((m.slots.rstack.items).drop k).headD none = none
      rw [split, List.drop_append_of_le_length (by omega), List.drop_eq_getElem_cons inside]
      have free := early front[k] (List.getElem_mem inside)
      change front[k] = none
      simpa using free
  have idle' (k : Nat) : (popSlot^[k] (begun boot).slots).rcur = none := by
    cases k with
    | zero => rfl
    | succ k =>
      rw [(popSlot_iter k _).2]
      change (([] : List (Option (Fin 32))).drop k).headD none = none
      rw [List.drop_nil]
      rfl
  obtain ⟨w, mine⟩ := acts_pops [.replyto] (front.length + 1) (v := 0) idle
  obtain ⟨w', fresh⟩ := acts_pops [.replyto] (front.length + 1) (v := 0) fun k _ => idle' k
  have current : (popSlot^[front.length + 1] (begun m).slots).rcur = some i := by
    rw [(popSlot_iter front.length _).2]
    change ((m.slots.rstack.items).drop front.length).headD none = some i
    rw [split, List.drop_left]
    rfl
  have same := (same_shown alike _ mine fresh (popSender_iter _ _).2.1 (popSender_iter _ _).2.1).2
  change (replyto (popSlot^[front.length + 1] (begun m).slots)).2 =
    (replyto (popSlot^[front.length + 1] (begun boot).slots)).2 at same
  rw [replyto, replyto, current, idle' _] at same
  dsimp only [vInt] at same
  omega

theorem acts_pushes (cmds : List Cmd) (n : Nat) : ∀ (m : Machine) (v : Int),
    ∃ w, acts (List.replicate n .push ++ cmds) m v =
      acts cmds ⟨pushSender^[n] m.st, pushSlot^[n] m.slots⟩ w := by
  induction n with
  | zero => exact fun m v => ⟨v, rfl⟩
  | succ n ih =>
    intro m v
    obtain ⟨w, rest⟩ := ih ⟨pushSender m.st, pushSlot m.slots⟩ (vInt 0)
    refine ⟨w, ?_⟩
    rw [Function.iterate_succ_apply, Function.iterate_succ_apply, ← rest]
    rfl

theorem pushSender_iter (n : Nat) : ∀ s : State, (pushSender^[n] s).mq = s.mq := by
  induction n with
  | zero => exact fun s => rfl
  | succ n ih => exact fun s => ih (pushSender s)

/-- Free slots under a stack of `k` calls without one. -/
def held (k : Fin 17) : Slots :=
  ⟨fun _ => ⟨false, false, false, 0⟩, none, ⟨List.replicate k none, by
    rw [List.length_replicate]
    omega⟩⟩

theorem held_full : ∃ n, (∀ k : Fin 17, (pushSlot^[n] (held k)).rcur = some 15 ∧
    ((pushSlot^[n] (held k)).rslot 15).taken = false ∧
    ((popSlot (pushSlot^[n] (held k))).rcur = some 14 → k = 0)) ∧
    (replyto (rslotFree (popSlot (pushSlot^[n] (held 0))) 15)).2 = vInt ((14 : Fin 32) : Nat) :=
  ⟨16, by decide +kernel, by decide +kernel⟩

theorem acts_pop_replyto {s : State} {x : Slots} {i : Fin 32} (v : Int)
    (current : x.rcur = some i) (free : (x.rslot i).taken = false) :
    ∃ x', acts [.pop, .replyto] ⟨s, x⟩ v =
      some (⟨popSender s, x'⟩, (replyto (rslotFree (popSlot x) i)).2) := by
  refine ⟨(replyto (rslotFree (popSlot x) i)).1, ?_⟩
  change ((Cmd.pop).act ⟨s, x⟩).bind _ = _
  unfold Cmd.act
  simp only [current, free]
  rfl

theorem acts_fill (s : State) (x : Slots) (n : Nat) {i : Fin 32}
    (current : (pushSlot^[n] x).rcur = some i) (free : ((pushSlot^[n] x).rslot i).taken = false) :
    ∃ y, acts (List.replicate n .push ++ [.pop, .replyto]) ⟨s, x⟩ 0 = some y ∧
      y.1.st.mq = s.mq ∧ y.2 = (replyto (rslotFree (popSlot (pushSlot^[n] x)) i)).2 := by
  obtain ⟨w, pushed⟩ := acts_pushes [.pop, .replyto] n ⟨s, x⟩ 0
  obtain ⟨x', popped⟩ := @acts_pop_replyto (pushSender^[n] s) _ i w current free
  exact ⟨_, pushed.trans popped, pushSender_iter n s, rfl⟩

theorem replyto_some {x : Slots} {i : Fin 32} (value : (replyto x).2 = vInt (i : Nat)) :
    x.rcur = some i := by
  unfold replyto at value
  cases current : x.rcur with
  | none =>
    rw [current] at value
    dsimp only [vInt] at value
    omega
  | some j =>
    rw [current] at value
    dsimp only [vInt] at value
    have same : (j : Nat) = i := by omega
    rw [Fin.ext same]

theorem rstack_clean (alike : Equivalent m boot) : m.slots.rstack.items = [] := by
  have bound := m.slots.rstack.bound
  obtain ⟨k, stack⟩ : ∃ k : Fin 17, m.slots.rstack.items = List.replicate k none :=
    ⟨⟨m.slots.rstack.items.length, by omega⟩, List.eq_replicate_iff.mpr ⟨rfl, none_left alike⟩⟩
  have slots : RunsApart.Alike [] (held k) m.slots := by
    refine ⟨rcur_clean alike, Stack.ext stack, used_clean alike, fun i seen => ?_⟩
    rcases seen with used | current | listed | wait
    · cases used
    · cases current
    · cases List.eq_of_mem_replicate listed
    · cases wait
  have alike' : Equivalent ⟨m.st, held k⟩ boot := by
    intro setting blob fuel
    rw [← observe_alike setting fuel m.st slots]
    exact alike setting blob fuel
  obtain ⟨n, full, last⟩ := held_full
  obtain ⟨y, mine, ends, value⟩ := acts_fill (start m.st probe) (held k) n (full k).1 (full k).2.1
  obtain ⟨z, fresh, ends', value'⟩ :=
    acts_fill (start boot.st probe) (held 0) n (full 0).1 (full 0).2.1
  have same := (same_shown alike' _ mine fresh ends ends').2
  rw [value, value', last] at same
  have top := replyto_some same
  rw [stack, (full k).2.2 top]
  rfl

theorem popSender_top (n : Nat) (s : State) (inside : n < s.sstack.items.length) :
    (popSender^[n + 1] s).sender = s.sstack.items[n].1 ∧
      (popSender^[n + 1] s).cur = s.sstack.items[n].2 := by
  rw [Function.iterate_succ_apply']
  change ((popSender^[n] s).sstack.items.headD _).1 = _ ∧
    ((popSender^[n] s).sstack.items.headD _).2 = _
  rw [(popSender_iter n s).1, List.drop_eq_getElem_cons inside]
  exact ⟨rfl, rfl⟩

theorem popSender_empty (n : Nat) : ∀ s : State, s.sstack.items = [] → s.sender = -1 → s.cur = -1 →
    (popSender^[n] s).sender = -1 ∧ (popSender^[n] s).cur = -1 := by
  induction n with
  | zero => exact fun s _ sender cur => ⟨sender, cur⟩
  | succ n ih =>
    intro s empty sender cur
    refine ih (popSender s) ?_ ?_ ?_
    · change s.sstack.items.tail = []
      rw [empty]
      rfl
    · change (s.sstack.items.headD (s.sender, s.cur)).1 = -1
      rw [empty]
      exact sender
    · change (s.sstack.items.headD (s.sender, s.cur)).2 = -1
      rw [empty]
      exact cur

/-- No entry of the senders' stack names an actor. -/
theorem no_sender (alike : Equivalent m boot) (n : Nat)
    (inside : n < m.st.sstack.items.length) : m.st.sstack.items[n] = (-1, -1) := by
  have idle {x : Slots} (none : x.rcur = none) (empty : x.rstack.items = []) (k : Nat) :
      (popSlot^[k] x).rcur = Option.none := by
    cases k with
    | zero => exact none
    | succ k =>
      rw [(popSlot_iter k _).2, empty, List.drop_nil]
      rfl
  have top := popSender_top n (start m.st probe) inside
  obtain ⟨sender, cur⟩ := popSender_empty (n + 1) (start boot.st probe) rfl rfl rfl
  have mine (cmds : List Cmd) := acts_pops cmds (n + 1) (v := 0)
    fun k _ => idle (x := (begun m).slots) (rcur_clean alike) (rstack_clean alike) k
  have fresh (cmds : List Cmd) := acts_pops cmds (n + 1) (v := 0)
    fun k _ => idle (x := (begun boot).slots) rfl rfl k
  have clear (s : State) : (popSender^[n + 1] (start s probe)).mq = [] := (popSender_iter _ _).2.1
  have first : m.st.sstack.items[n].1 = -1 := by
    obtain ⟨_, popped⟩ := mine [.prim .sender]
    obtain ⟨_, popped'⟩ := fresh [.prim .sender]
    have same := (same_shown alike _ popped popped' (clear m.st) (clear boot.st)).2
    change vInt (popSender^[n + 1] (start m.st probe)).sender =
      vInt (popSender^[n + 1] (start boot.st probe)).sender at same
    rw [top.1, sender] at same
    dsimp only [vInt] at same
    change 2 * m.st.sstack.items[n].1 + 1 = _ at same
    omega
  have second : m.st.sstack.items[n].2 = -1 := by
    obtain ⟨_, popped⟩ := mine [.push, .prim .sender]
    obtain ⟨_, popped'⟩ := fresh [.push, .prim .sender]
    have same := (same_shown alike _ popped popped' (clear m.st) (clear boot.st)).2
    change vInt (popSender^[n + 1] (start m.st probe)).cur =
      vInt (popSender^[n + 1] (start boot.st probe)).cur at same
    rw [top.2, cur] at same
    dsimp only [vInt] at same
    change 2 * m.st.sstack.items[n].2 + 1 = _ at same
    omega
  exact Prod.ext first second

end Stacks

section Tables

variable {m : Machine}

/-- A name or path of `n` bytes. -/
def long (n : Nat) : List UInt8 := List.replicate n 97

variable {n : Nat}

theorem long_missing {α : Type} {l : List α} {f : α → List UInt8}
    (longer : ∀ a ∈ l, (f a).length < n) : l.findIdx? (fun a => f a = long n) = none := by
  rw [List.findIdx?_eq_none_iff]
  intro a listed
  have less := longer a listed
  have size : (long n).length = n := List.length_replicate
  rw [decide_eq_false_iff_not]
  intro same
  rw [same, size] at less
  exact Nat.lt_irrefl n less

theorem exists_longer {α : Type} (l : List α) (f : α → List UInt8) (least : Nat) :
    ∃ n, least ≤ n ∧ ∀ a ∈ l, (f a).length < n := by
  induction l with
  | nil => exact ⟨least, Nat.le_refl least, fun a listed => absurd listed List.not_mem_nil⟩
  | cons a l ih =>
    obtain ⟨n, large, longer⟩ := ih
    refine ⟨n + (f a).length + 1, by omega, fun b listed => ?_⟩
    rcases List.mem_cons.mp listed with rfl | later
    · omega
    · have := longer b later
      omega

theorem resFind_long {res : List Res} (longer : ∀ r ∈ res, r.name.length < n) :
    resFind res (long n) = if 16 ≤ res.length then (none, res)
      else (some res.length, res ++ [⟨(long n).take 23, 0⟩]) := by
  unfold resFind
  rw [long_missing longer]

theorem modify_names {l : List Res} {i : Nat} {f : Res → Res} {p : List UInt8 → Prop}
    (name : ∀ r, (f r).name = r.name) (all : ∀ r ∈ l, p r.name) : ∀ r ∈ l.modify i f, p r.name := by
  intro r listed
  obtain ⟨j, inside, rfl⟩ := List.mem_iff_getElem.mp listed
  rw [List.length_modify] at inside
  rw [List.getElem_modify]
  split_ifs
  · rw [name]
    exact all _ (List.getElem_mem inside)
  · exact all _ (List.getElem_mem inside)

theorem acquire_long (large : 24 ≤ n) (s : State)
    (longer : ∀ r ∈ s.res, r.name.length < n) :
    (∀ r ∈ (acquire s (long n)).res, r.name.length < n) ∧
      (acquire s (long n)).res.length = min 16 (s.res.length + 1) ⊔ s.res.length ∧
      (acquire s (long n)).mq = s.mq ∧ (acquire s (long n)).out = s.out ∧
      (acquire s (long n)).room = s.room ∧ (acquire s (long n)).aborted = s.aborted := by
  unfold acquire
  rw [resFind_long longer]
  by_cases full : 16 ≤ s.res.length
  · rw [if_pos full]
    refine ⟨longer, ?_, rfl, rfl, rfl, rfl⟩
    dsimp only
    omega
  · rw [if_neg full]
    refine ⟨fun r listed => ?_, ?_, rfl, rfl, rfl, rfl⟩
    · have named : ∀ r ∈ s.res ++ [⟨(long n).take 23, 0⟩], r.name.length < n := ?_
      · exact modify_names (p := fun name => name.length < n)
          (f := fun r => { r with depth := asInt (r.depth + 1) }) (fun r => rfl) named r listed
      intro r listed
      rcases List.mem_append.mp listed with old | new
      · exact longer r old
      · rw [List.mem_singleton.mp new]
        change ((long n).take 23).length < n
        rw [List.length_take]
        omega
    · dsimp only
      rw [List.length_modify, List.length_append, List.length_singleton]
      omega

theorem acquire_iter (large : 24 ≤ n) (k : Nat) : ∀ s : State,
    (∀ r ∈ s.res, r.name.length < n) →
    (∀ r ∈ ((acquire · (long n))^[k] s).res, r.name.length < n) ∧
      ((acquire · (long n))^[k] s).res.length = min 16 (s.res.length + k) ⊔ s.res.length ∧
      ((acquire · (long n))^[k] s).mq = s.mq ∧ ((acquire · (long n))^[k] s).out = s.out ∧
      ((acquire · (long n))^[k] s).room = s.room ∧
      ((acquire · (long n))^[k] s).aborted = s.aborted := by
  induction k with
  | zero => exact fun s longer => ⟨longer, by simp, rfl, rfl, rfl, rfl⟩
  | succ k ih =>
    intro s longer
    obtain ⟨names, size, mq, out, room, aborted⟩ := acquire_long large s longer
    obtain ⟨names', size', mq', out', room', aborted'⟩ := ih (acquire s (long n)) names
    rw [Function.iterate_succ_apply]
    refine ⟨names', ?_, mq'.trans mq, out'.trans out, room'.trans room, aborted'.trans aborted⟩
    rw [size', size]
    omega

theorem acts_prims (a : Prim) (cmds : List Cmd) (k : Nat) : ∀ (m : Machine) (v : Int),
    ∃ w, acts (List.replicate k (.prim a) ++ cmds) m v =
      acts cmds { m with st := (fun s => (Runtime.prim probe.env s a).1)^[k] m.st } w := by
  induction k with
  | zero => exact fun m v => ⟨v, rfl⟩
  | succ k ih =>
    intro m v
    obtain ⟨w, rest⟩ := ih { m with st := (Runtime.prim probe.env m.st a).1 }
      (Runtime.prim probe.env m.st a).2
    refine ⟨w, ?_⟩
    rw [Function.iterate_succ_apply, ← rest]
    rfl

theorem release_long (s : State) (longer : ∀ r ∈ s.res, r.name.length < n) :
    release s (long n) = if 16 ≤ s.res.length then s
      else emit { s with res := s.res ++ [⟨(long n).take 23, 0⟩] } (utf8 "\ncc: resource " ++
        (long n).take 23 ++ utf8 " is released without being acquired\n") := by
  unfold release
  rw [resFind_long longer]
  by_cases full : 16 ≤ s.res.length
  · rw [if_pos full, if_pos full]
  · rw [if_neg full, if_neg full]
    have last : (s.res ++ [⟨(long n).take 23, 0⟩])[s.res.length]? =
        some ⟨(long n).take 23, 0⟩ := List.getElem?_concat_length
    dsimp only
    rw [last]
    exact if_pos (Int.le_refl 0)

theorem release_after (large : 24 ≤ n) (k : Nat) (s : State) (room : s.room = none)
    (longer : ∀ r ∈ s.res, r.name.length < n) :
    ∃ t, release ((acquire · (long n))^[k] s) (long n) = t ∧ t.mq = s.mq ∧
      t.aborted = s.aborted ∧ t.out = s.out ++ if 16 ≤ s.res.length + k then []
        else utf8 "\ncc: resource " ++ (long n).take 23 ++
          utf8 " is released without being acquired\n" := by
  obtain ⟨names, length, mq, out, room', aborted⟩ := acquire_iter large k s longer
  refine ⟨_, rfl, ?_⟩
  rw [release_long _ names, length]
  by_cases full : 16 ≤ s.res.length + k
  · rw [if_pos (by omega), if_pos full, List.append_nil]
    exact ⟨mq, aborted, out⟩
  · rw [if_neg (by omega), if_neg full, emit, room'.trans room]
    exact ⟨mq, aborted, congrArg (· ++ _) out⟩

theorem res_clean (alike : Equivalent m boot) : m.st.res = [] := by
  obtain ⟨n, large, longer⟩ := exists_longer m.st.res Res.name 24
  by_contra used
  have size : 0 < m.st.res.length := List.length_pos_iff.mpr used
  -- fifteen names fill the table but for the place that an earlier run has taken
  obtain ⟨k, fifteen⟩ : ∃ k, k = 15 := ⟨15, rfl⟩
  have probed := acts_prims (.acquire (long n)) [.prim (.release (long n))] k
  obtain ⟨_, mine⟩ := probed (begun m) 0
  obtain ⟨_, fresh⟩ := probed (begun boot) 0
  obtain ⟨t, is, mq, aborted, out⟩ := release_after large k (start m.st probe) rfl longer
  obtain ⟨t', is', mq', aborted', out'⟩ := release_after large k (start boot.st probe) rfl
    fun r listed => absurd listed List.not_mem_nil
  have same := (same_shown alike _ mine fresh ((congrArg State.mq is).trans mq)
    ((congrArg State.mq is').trans mq')).1
  change (finish (release ((acquire · (long n))^[k] (start m.st probe)) (long n))).out =
    (finish (release ((acquire · (long n))^[k] (start boot.st probe)) (long n))).out at same
  rw [is, is', finish, finish, aborted, aborted'] at same
  change t.out = t'.out at same
  rw [out, out', if_pos (by change 16 ≤ m.st.res.length + k; omega),
    if_neg (by change ¬ 16 ≤ 0 + k; omega)] at same
  have shorter := congrArg List.length same
  rw [List.length_append, List.length_append, List.length_append] at shorter
  change 0 + 0 = 0 + _ at shorter
  rw [List.length_append] at shorter
  have size : ((long n).take 23).length = 23 := by
    rw [List.length_take, long, List.length_replicate]
    omega
  omega

theorem webExpose_long (s : State) (longer : ∀ r ∈ s.web, r.path.length < n) :
    webExpose s (long n) (vInt 0) = if 8 ≤ s.web.length then (s, vInt 0)
      else ({ s with web := s.web ++ [⟨(long n).take 39, 0⟩] }, vInt 1) := by
  have id : asInt (vIntOf (vInt 0)) = 0 := by decide
  unfold webExpose
  rw [long_missing longer, id]
  exact if_neg (by decide)

theorem webExpose_iter (large : 40 ≤ n) (k : Nat) : ∀ s : State,
    (∀ r ∈ s.web, r.path.length < n) → ∃ t,
      (fun s => (webExpose s (long n) (vInt 0)).1)^[k] s = t ∧
        (∀ r ∈ t.web, r.path.length < n) ∧ Calm s t ∧
        t.web.length = min 8 (s.web.length + k) ⊔ s.web.length := by
  induction k with
  | zero => exact fun s longer => ⟨s, rfl, longer, ⟨rfl, rfl, rfl, rfl⟩, by omega⟩
  | succ k ih =>
    intro s longer
    simp only [Function.iterate_succ_apply]
    rw [webExpose_long s longer]
    by_cases full : 8 ≤ s.web.length
    · rw [if_pos full]
      obtain ⟨t, is, paths, calm, length⟩ := ih s longer
      exact ⟨t, is, paths, calm, by omega⟩
    · rw [if_neg full]
      obtain ⟨t, is, paths, calm, length⟩ := ih { s with web := s.web ++ [⟨(long n).take 39, 0⟩] }
        fun r listed => by
          rcases List.mem_append.mp listed with old | new
          · exact longer r old
          · rw [List.mem_singleton.mp new]
            change ((long n).take 39).length < n
            rw [List.length_take]
            omega
      refine ⟨t, is, paths, ⟨calm.mq, calm.res, calm.room, calm.aborted⟩, ?_⟩
      dsimp only at length
      rw [List.length_append, List.length_singleton] at length
      omega

theorem web_clean (alike : Equivalent m boot) : m.st.web = [] := by
  obtain ⟨n, large, longer⟩ := exists_longer m.st.web Route.path 40
  by_contra used
  have size : 0 < m.st.web.length := List.length_pos_iff.mpr used
  obtain ⟨k, seven⟩ : ∃ k, k = 7 := ⟨7, rfl⟩
  have probed := acts_prims (.webExpose (long n) (vInt 0)) [.prim (.webExpose (long n) (vInt 0))] k
  obtain ⟨_, mine⟩ := probed (begun m) 0
  obtain ⟨_, fresh⟩ := probed (begun boot) 0
  obtain ⟨t, is, paths, calm, length⟩ := webExpose_iter large k (start m.st probe) longer
  obtain ⟨t', is', paths', calm', length'⟩ := webExpose_iter large k (start boot.st probe)
    fun r listed => absurd listed List.not_mem_nil
  have full : webExpose t (long n) (vInt 0) = (t, vInt 0) := by
    rw [webExpose_long t paths, length]
    exact if_pos (by change 8 ≤ min 8 (m.st.web.length + k) ⊔ m.st.web.length; omega)
  have room : webExpose t' (long n) (vInt 0) =
      ({ t' with web := t'.web ++ [⟨(long n).take 39, 0⟩] }, vInt 1) := by
    rw [webExpose_long t' paths', length']
    exact if_neg (by change ¬ 8 ≤ min 8 (0 + k) ⊔ 0; omega)
  have same := (same_shown alike _ mine fresh (by
    change (webExpose ((fun s => (webExpose s (long n) (vInt 0)).1)^[k] (start m.st probe)) (long n)
      (vInt 0)).1.mq = []
    rw [is, full]
    exact calm.mq) (by
    change (webExpose ((fun s => (webExpose s (long n) (vInt 0)).1)^[k] (start boot.st probe))
      (long n) (vInt 0)).1.mq = []
    rw [is', room]
    exact calm'.mq)).2
  change (webExpose ((fun s => (webExpose s (long n) (vInt 0)).1)^[k] (start m.st probe)) (long n)
    (vInt 0)).2 = (webExpose ((fun s => (webExpose s (long n) (vInt 0)).1)^[k]
      (start boot.st probe)) (long n) (vInt 0)).2 at same
  rw [is, is', full, room] at same
  dsimp only [vInt] at same
  omega

end Tables

end XinuRpi5.Cc.RunProbes
