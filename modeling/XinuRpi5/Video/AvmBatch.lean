/- source: device/video/avm.c, system/smp.c
   digest: A batch on several cores leaves what dispatching it in order leaves. -/

import Mathlib.Data.List.Flatten
import Mathlib.Data.List.Nodup
import XinuRpi5.Lib.GuardedRuns
import XinuRpi5.Video.AvmParallel

namespace XinuRpi5.Video.AvmBatch

open Lib.GuardedRuns Avm AvmParallel

@[simp] theorem push_self (fr : Frame) (v : Int) : (fr.push v).self = fr.self := by
  unfold Frame.push
  split_ifs <;> rfl

@[simp] theorem push_guard (fr : Frame) (v : Int) : (fr.push v).guard = fr.guard := by
  unfold Frame.push
  split_ifs <;> rfl

theorem instr_frame (m : Module) (f : Nat → Int) (fr : Frame) :
    (instr m f fr).1.self = fr.self ∧ (instr m f fr).1.guard = fr.guard + 1 := by
  unfold instr
  simp only
  split <;> first
    | exact ⟨rfl, rfl⟩
    | (split_ifs <;> exact ⟨rfl, rfl⟩)
    | simp [Frame.binary, Frame.skip, Frame.drop]

section Local

structure Local where
  frame : Frame
  obj : Obj
  sends : List Msg

/-- One instruction of a call that needs nothing but its own object; a spawn does
not. -/
def localStep (m : Module) (l : Local) : Option Local :=
  if Done l.frame then none
  else
    match instr m l.obj.f l.frame with
    | (fr, .none) => some ⟨fr, l.obj, l.sends⟩
    | (fr, .setField i v) => some ⟨fr, l.obj.set i v, l.sends⟩
    | (fr, .send msg) => some ⟨fr, l.obj, l.sends ++ [msg]⟩
    | (_, .spawn _) => none

def settle (m : Module) : Nat → Local → Local
  | 0, l => l
  | rounds + 1, l =>
    match localStep m l with
    | some l' => settle m rounds l'
    | none => l

def final (m : Module) (l : Local) : Local := settle m (guardLimit - l.frame.guard) l

variable {m : Module} {l l' : Local}

theorem localStep_frame (step : localStep m l = some l') :
    l'.frame.self = l.frame.self ∧ l'.frame.guard = l.frame.guard + 1 ∧ ¬ Done l.frame := by
  have shape := instr_frame m l.obj.f l.frame
  unfold localStep at step
  split_ifs at step with atEnd
  rcases result : instr m l.obj.f l.frame with ⟨fr, effect⟩
  rw [result] at step shape
  cases effect with
  | none | setField | send =>
    obtain rfl := Option.some.inj step
    exact ⟨shape.1, shape.2, atEnd⟩
  | spawn => exact absurd step.symm (Option.some_ne_none l')

theorem final_step (step : localStep m l = some l') : final m l = final m l' := by
  obtain ⟨_, count, running⟩ := localStep_frame step
  have below : l.frame.guard < guardLimit := by
    unfold Done at running
    omega
  have rounds : guardLimit - l.frame.guard = guardLimit - l'.frame.guard + 1 := by omega
  rw [final, final, rounds, settle, step]

theorem final_stop (stop : localStep m l = none) : final m l = l := by
  unfold final
  cases guardLimit - l.frame.guard with
  | zero => rfl
  | succ rounds => rw [settle, stop]

theorem final_induct {p : Local → Prop} (stop : ∀ l, localStep m l = none → p l)
    (back : ∀ l l', localStep m l = some l' → p l' → p l) (l : Local) : p l := by
  generalize measure : guardLimit - l.frame.guard = rounds
  induction rounds generalizing l with
  | zero =>
    apply stop
    have atEnd : Done l.frame := .inr (by omega)
    rw [localStep, if_pos atEnd]
  | succ rounds ih =>
    cases step : localStep m l with
    | none => exact stop l step
    | some l' =>
      obtain ⟨_, count, _⟩ := localStep_frame step
      exact back l l' step (ih l' (by omega))

theorem localStep_sends (step : localStep m l = some l') : l.sends <+: l'.sends := by
  unfold localStep at step
  split_ifs at step with atEnd
  rcases result : instr m l.obj.f l.frame with ⟨fr, effect⟩
  rw [result] at step
  cases effect with
  | none | setField =>
    obtain rfl := Option.some.inj step
    exact List.prefix_refl _
  | send msg =>
    obtain rfl := Option.some.inj step
    exact List.prefix_append _ _
  | spawn => exact absurd step.symm (Option.some_ne_none l')

theorem final_sends (m : Module) (l : Local) : l.sends <+: (final m l).sends := by
  apply final_induct (m := m) (p := fun l => l.sends <+: (final m l).sends)
  · intro l stop
    simp only [final_stop stop, List.prefix_refl]
  · intro l l' step after
    rw [final_step step]
    exact (localStep_sends step).trans after

theorem final_done_step (running : ¬ Done l.frame) (ends : Done (final m l).frame) :
    ∃ l', localStep m l = some l' := by
  cases step : localStep m l with
  | none =>
    rw [final_stop step] at ends
    exact absurd ends running
  | some l' => exact ⟨l', rfl⟩

end Local

section Messages

/-- What the dispatch of a message makes of its receiver, and what it sends. -/
def outcome (m : Module) (obj : Obj) (msg : Msg) : Obj × List Msg :=
  match openFrame m obj msg with
  | some fr => ((final m ⟨fr, obj, []⟩).obj, (final m ⟨fr, obj, []⟩).sends)
  | none => (obj, [])

/-- The dispatch of a message executes no `SPAWN`. -/
def NoSpawn (m : Module) (obj : Obj) (msg : Msg) : Prop :=
  ∀ fr, openFrame m obj msg = some fr → Done (final m ⟨fr, obj, []⟩).frame

variable {m : Module}

theorem openFrame_self {obj : Obj} {msg : Msg} {fr : Frame} (opens : openFrame m obj msg = some fr) :
    fr.self = recv msg := by
  unfold openFrame at opens
  split_ifs at opens with valid
  obtain ⟨mt, _, rfl⟩ := Option.map_eq_some_iff.mp opens
  rfl

theorem openFrame_guard {obj : Obj} {msg : Msg} {fr : Frame}
    (opens : openFrame m obj msg = some fr) : fr.guard = 0 := by
  unfold openFrame at opens
  split_ifs at opens with valid
  obtain ⟨mt, _, rfl⟩ := Option.map_eq_some_iff.mp opens
  rfl

theorem setObj_setObj (objs : Table) (i : Nat) (a b : Obj) :
    setObj (setObj objs i a) i b = setObj objs i b := by
  funext j
  unfold setObj
  split_ifs <;> rfl

theorem setObj_same (objs : Table) (i : Nat) : setObj objs i (objs i) = objs := by
  funext j
  unfold setObj
  split_ifs with same
  · rw [same]
  · rfl

@[simp] theorem setObj_at (objs : Table) (i : Nat) (a : Obj) : setObj objs i a i = a := if_pos rfl

theorem setObj_of_ne (objs : Table) {i j : Nat} (a : Obj) (differs : j ≠ i) :
    setObj objs i a j = objs j := if_neg differs

/-- The sequential loop on a call that never spawns. -/
theorem loop_eq (l : Local) : ∀ (vm : Vm) (sent : List Msg), Done (final m l).frame →
    vm.objs l.frame.self = l.obj → (final m l).sends = l.sends ++ sent →
    Vm.loop m (guardLimit - l.frame.guard) vm l.frame =
      ⟨setObj vm.objs l.frame.self (final m l).obj, sent.foldl vmEnqueue vm.queue⟩ := by
  apply final_induct (m := m) (p := fun l => ∀ (vm : Vm) (sent : List Msg),
    Done (final m l).frame → vm.objs l.frame.self = l.obj →
    (final m l).sends = l.sends ++ sent →
    Vm.loop m (guardLimit - l.frame.guard) vm l.frame =
      ⟨setObj vm.objs l.frame.self (final m l).obj, sent.foldl vmEnqueue vm.queue⟩)
  · intro l stop vm sent ends same sends
    rw [final_stop stop] at ends sends ⊢
    have none : sent = [] := by simpa using sends
    rw [none, ← same, setObj_same]
    cases guardLimit - l.frame.guard with
    | zero => rfl
    | succ rounds => exact if_pos ends
  · intro l l' step after vm sent ends same sends
    obtain ⟨self, count, running⟩ := localStep_frame step
    have below : l.frame.guard < guardLimit := by
      unfold Done at running
      omega
    have rounds : guardLimit - l.frame.guard = guardLimit - l'.frame.guard + 1 := by omega
    rw [final_step step] at ends sends ⊢
    rw [rounds, Vm.loop, if_neg running]
    have step' := step
    unfold localStep at step'
    rw [if_neg running] at step'
    rw [same]
    rcases result : instr m l.obj.f l.frame with ⟨fr, effect⟩
    rw [result] at step'
    cases effect with
    | none =>
      obtain rfl := Option.some.inj step'
      have done := after vm sent ends (by rw [self]; exact same) sends
      rw [self] at done
      exact done
    | setField i v =>
      obtain rfl := Option.some.inj step'
      have here : fr.self = l.frame.self := self
      have done := after { vm with objs := setObj vm.objs l.frame.self (l.obj.set i v) } sent ends
        (by rw [self]; exact setObj_at _ _ _) sends
      rw [self, setObj_setObj] at done
      simp only [Vm.apply]
      rw [here, same]
      exact done
    | send msg =>
      obtain rfl := Option.some.inj step'
      obtain ⟨more, grows⟩ := final_sends m ⟨fr, l.obj, l.sends ++ [msg]⟩
      have split : sent = msg :: more := by
        rw [← grows, List.append_assoc] at sends
        simpa using (List.append_cancel_left sends).symm
      subst split
      have done := after { vm with queue := vmEnqueue vm.queue msg } more ends
        (by rw [self]; exact same) grows.symm
      rw [self] at done
      exact done
    | spawn => exact absurd step'.symm (Option.some_ne_none l')

theorem avmDispatch_eq {vm : Vm} {msg : Msg} (calm : NoSpawn m (vm.objs (recv msg)) msg) :
    avmDispatch m vm msg =
      ⟨setObj vm.objs (recv msg) (outcome m (vm.objs (recv msg)) msg).1,
        (outcome m (vm.objs (recv msg)) msg).2.foldl vmEnqueue vm.queue⟩ := by
  unfold avmDispatch outcome
  cases opens : openFrame m (vm.objs (recv msg)) msg with
  | none =>
    simp only
    rw [setObj_same]
    rfl
  | some fr =>
    have self := openFrame_self opens
    have done := loop_eq (m := m) ⟨fr, vm.objs (recv msg), []⟩ vm _ (calm fr opens)
      (by rw [self]) (List.nil_append _).symm
    rw [openFrame_guard opens, self] at done
    exact done

end Messages

section Shares

variable (batch : List Msg) (cores : Nat)

theorem shares_take (k : Nat) :
    (List.range k).flatMap (share batch cores) = batch.take (k * batch.length / cores) := by
  induction k with
  | zero => simp
  | succ k ih =>
    have grows : k * batch.length / cores ≤ (k + 1) * batch.length / cores :=
      Nat.div_le_div_right (Nat.mul_le_mul_right _ (Nat.le_succ k))
    have taken : batch.take (k * batch.length / cores) =
        (batch.take ((k + 1) * batch.length / cores)).take (k * batch.length / cores) := by
      rw [List.take_take, Nat.min_eq_left grows]
    rw [List.range_succ, List.flatMap_append, ih, List.flatMap_singleton, share, taken,
      List.take_append_drop]

theorem shares_all (some : 0 < cores) : (List.range cores).flatMap (share batch cores) = batch := by
  rw [shares_take, Nat.mul_div_cancel_left _ some, List.take_length]

variable {batch cores}

theorem mem_share (some : 0 < cores) {msg : Msg} :
    msg ∈ batch ↔ ∃ c, c < cores ∧ msg ∈ share batch cores c := by
  nth_rewrite 1 [← shares_all batch cores some]
  simp [List.mem_flatMap]

theorem share_sublist (c : Nat) : List.Sublist (share batch cores c) batch :=
  (List.drop_sublist _ _).trans (List.take_sublist _ _)

theorem shares_apart (some : 0 < cores) (distinct : (batch.map recv).Nodup) {c d : Nat}
    (hc : c < cores) (hd : d < cores) (differs : c ≠ d) {msg msg' : Msg}
    (here : msg ∈ share batch cores c) (there : msg' ∈ share batch cores d) :
    recv msg ≠ recv msg' := by
  rw [← shares_all batch cores some, List.map_flatMap, List.nodup_flatMap] at distinct
  have apart := List.pairwise_iff_getElem.mp distinct.2
  intro same
  rcases Nat.lt_or_gt_of_ne differs with before | before
  · have disjoint := apart c d (by simpa using hc) (by simpa using hd) before
    simp only [List.getElem_range] at disjoint
    exact disjoint (List.mem_map_of_mem here) (same ▸ List.mem_map_of_mem there)
  · have disjoint := apart d c (by simpa using hd) (by simpa using hc) before
    simp only [List.getElem_range] at disjoint
    exact disjoint (List.mem_map_of_mem there) (same ▸ List.mem_map_of_mem here)

end Shares

section Cores

variable (m : Module) (start : Table)

/-- The outcome of a message from the objects at the start of the batch. -/
def result (msg : Msg) : Obj × List Msg := outcome m (start (recv msg)) msg

/-- A core that is inside the call of `msg`. -/
structure Within (share : List Msg) (p : Par) (c : Nat) (done todo : List Msg) (msg : Msg)
    (l : Local) : Prop where
  split : share = done ++ msg :: todo
  core : p.core c = ⟨todo, some l.frame⟩
  self : l.frame.self = recv msg
  obj : p.objs (recv msg) = l.obj
  sends : p.sends c = (done.flatMap fun msg => (result m start msg).2) ++ l.sends
  calm : Done (final m l).frame
  leads : ((final m l).obj, (final m l).sends) = result m start msg
  ended : ∀ msg ∈ done, p.objs (recv msg) = (result m start msg).1
  ahead : ∀ msg ∈ todo, p.objs (recv msg) = start (recv msg)

/-- What a core has done of its share so far: some messages are dispatched, and it
may be inside the call of the next one. -/
inductive Progress (share : List Msg) (p : Par) (c : Nat) : Prop where
  | between (done todo : List Msg) (split : share = done ++ todo)
      (core : p.core c = ⟨todo, none⟩)
      (sends : p.sends c = done.flatMap fun msg => (result m start msg).2)
      (ended : ∀ msg ∈ done, p.objs (recv msg) = (result m start msg).1)
      (ahead : ∀ msg ∈ todo, p.objs (recv msg) = start (recv msg))
  | within (done todo : List Msg) (msg : Msg) (l : Local)
      (inside : Within m start share p c done todo msg l)

structure Fresh (share : List Msg) (p : Par) (c : Nat) : Prop where
  core : p.core c = ⟨[], none⟩
  sends : p.sends c = []
  ahead : ∀ msg ∈ share, p.objs (recv msg) = start (recv msg)

variable {m start} {share : List Msg} {p p' : Par} {c : Nat}

theorem Progress.congr (h : Progress m start share p c) (core : p'.core c = p.core c)
    (sends : p'.sends c = p.sends c)
    (objs : ∀ msg ∈ share, p'.objs (recv msg) = p.objs (recv msg)) :
    Progress m start share p' c := by
  cases h with
  | between done todo split at' sent ended ahead =>
    refine .between done todo split (core.trans at') (sends.trans sent) ?_ ?_
    · intro msg listed
      rw [objs msg (split ▸ List.mem_append_left _ listed)]
      exact ended msg listed
    · intro msg listed
      rw [objs msg (split ▸ List.mem_append_right _ listed)]
      exact ahead msg listed
  | within done todo msg l inside =>
    have split := inside.split
    refine .within done todo msg l ⟨split, core.trans inside.core, inside.self, ?_,
      sends.trans inside.sends, inside.calm, inside.leads, ?_, ?_⟩
    · rw [objs msg (split ▸ List.mem_append_right _ List.mem_cons_self)]
      exact inside.obj
    · intro msg' listed
      rw [objs msg' (split ▸ List.mem_append_left _ listed)]
      exact inside.ended msg' listed
    · intro msg' listed
      rw [objs msg' (split ▸ List.mem_append_right _ (List.mem_cons_of_mem _ listed))]
      exact inside.ahead msg' listed

theorem Fresh.congr (h : Fresh start share p c) (core : p'.core c = p.core c)
    (sends : p'.sends c = p.sends c)
    (objs : ∀ msg ∈ share, p'.objs (recv msg) = p.objs (recv msg)) : Fresh start share p' c :=
  ⟨core.trans h.core, sends.trans h.sends, fun msg listed =>
    (objs msg listed).trans (h.ahead msg listed)⟩

/-- A step of core `c` touches its own state and its own receivers only. -/
structure Touches (share : List Msg) (p p' : Par) (c : Nat) : Prop where
  plan : p'.plan = p.plan
  core : ∀ d, d ≠ c → p'.core d = p.core d
  sends : ∀ d, d ≠ c → p'.sends d = p.sends d
  objs : ∀ i, (∀ msg ∈ share, recv msg ≠ i) → p'.objs i = p.objs i

@[simp] theorem setCore_objs (p : Par) (c : Nat) (core : Core) : (p.setCore c core).objs = p.objs :=
  rfl

@[simp] theorem setCore_sends (p : Par) (c : Nat) (core : Core) :
    (p.setCore c core).sends = p.sends := rfl

@[simp] theorem setCore_same (p : Par) (c : Nat) (core : Core) :
    (p.setCore c core).core c = core := if_pos rfl

theorem setCore_of_ne (p : Par) (c : Nat) (core : Core) {d : Nat} (differs : d ≠ c) :
    (p.setCore c core).core d = p.core d := if_neg differs

private theorem take_up (calm : ∀ msg ∈ share, NoSpawn m (start (recv msg)) msg)
    {done todo : List Msg} {msg : Msg} (split : share = done ++ msg :: todo)
    (sends : p.sends c = done.flatMap fun msg => (result m start msg).2)
    (ended : ∀ msg ∈ done, p.objs (recv msg) = (result m start msg).1)
    (ahead : ∀ msg' ∈ msg :: todo, p.objs (recv msg') = start (recv msg')) :
    Progress m start share (p.setCore c ⟨todo, openFrame m (p.objs (recv msg)) msg⟩) c := by
  have unchanged := ahead msg List.mem_cons_self
  have later : ∀ msg' ∈ todo, p.objs (recv msg') = start (recv msg') := fun msg' listed =>
    ahead msg' (List.mem_cons_of_mem _ listed)
  have listed : msg ∈ share := split ▸ List.mem_append_right _ List.mem_cons_self
  rw [unchanged]
  cases opens : openFrame m (start (recv msg)) msg with
  | none =>
    have nothing : result m start msg = (start (recv msg), []) := by
      rw [result, outcome, opens]
    refine .between (done ++ [msg]) todo (by simpa using split) (setCore_same _ _ _) ?_ ?_ later
    · simpa [List.flatMap_append, nothing] using sends
    · intro msg' before
      rcases List.mem_append.mp before with before | before
      · exact ended msg' before
      · obtain rfl := List.mem_singleton.mp before
        rw [nothing]
        exact unchanged
  | some fr =>
    refine .within done todo msg ⟨fr, start (recv msg), []⟩ ⟨split, setCore_same _ _ _,
      openFrame_self opens, unchanged, by simpa using sends, calm msg listed fr opens, ?_, ended,
      later⟩
    rw [result, outcome, opens]

private theorem close_call {done todo : List Msg} {msg : Msg} {l : Local}
    (inside : Within m start share p c done todo msg l) (atEnd : Done l.frame) :
    Progress m start share (p.setCore c ⟨todo, none⟩) c := by
  have stops : localStep m l = none := by rw [localStep, if_pos atEnd]
  have leads := inside.leads
  rw [final_stop stops] at leads
  refine .between (done ++ [msg]) todo (by simpa using inside.split) (setCore_same _ _ _) ?_ ?_
    inside.ahead
  · simpa [List.flatMap_append, ← leads] using inside.sends
  · intro msg' before
    rcases List.mem_append.mp before with before | before
    · exact inside.ended msg' before
    · obtain rfl := List.mem_singleton.mp before
      rw [← leads]
      exact inside.obj

/-- What an instruction of a batch changes, in terms of the call alone. -/
structure Applied (p : Par) (c : Nat) (l l' : Local) (new : List Msg) (r : Par × Frame) : Prop where
  frame : r.2 = l'.frame
  objs : r.1.objs = setObj p.objs l.frame.self l'.obj
  sends : ∀ d, r.1.sends d = if d = c then p.sends c ++ new else p.sends d
  core : r.1.core = p.core
  plan : r.1.plan = p.plan

theorem apply_local {l l' : Local} (step : localStep m l = some l')
    (obj : p.objs l.frame.self = l.obj) (room : (p.sends c).length + l'.sends.length ≤
      512 + l.sends.length) :
    ∃ new, l'.sends = l.sends ++ new ∧
      Applied p c l l' new (p.apply m c (instr m (p.objs l.frame.self).f l.frame).1
        (instr m (p.objs l.frame.self).f l.frame).2) := by
  have self := (localStep_frame step).1
  unfold localStep at step
  split_ifs at step with atEnd
  rw [obj]
  rcases result : instr m l.obj.f l.frame with ⟨fr, effect⟩
  rw [result] at step
  have same : ∀ d, p.sends d = if d = c then p.sends c ++ [] else p.sends d := by
    intro d
    split_ifs with here
    · rw [here, List.append_nil]
    · rfl
  cases effect with
  | none =>
    obtain rfl := Option.some.inj step
    exact ⟨[], (List.append_nil _).symm, rfl, by rw [← obj, setObj_same]; rfl, same, rfl, rfl⟩
  | setField i v =>
    obtain rfl := Option.some.inj step
    have here : fr.self = l.frame.self := self
    refine ⟨[], (List.append_nil _).symm, rfl, ?_, same, rfl, rfl⟩
    simp only [Par.apply]
    rw [here, obj]
  | send msg =>
    obtain rfl := Option.some.inj step
    have fits : (p.sends c).length < 512 := by
      simp only [List.length_append, List.length_singleton] at room
      omega
    refine ⟨[msg], rfl, rfl, by rw [← obj, setObj_same]; rfl, ?_, rfl, rfl⟩
    intro d
    simp only [Par.apply, parSend, if_pos fits]
  | spawn => exact absurd step.symm (Option.some_ne_none l')

/-- One instruction of a call. -/
private theorem within_call (distinct : (share.map recv).Nodup)
    (fits : (share.flatMap fun msg => (result m start msg).2).length ≤ 512)
    {done todo : List Msg} {msg : Msg} {l : Local}
    (inside : Within m start share p c done todo msg l) (running : ¬ Done l.frame)
    (step : p.advance m c = some p') : Progress m start share p' c ∧ Touches share p p' c := by
  obtain ⟨split, core, self, obj, sends, calm, leads, ended, ahead⟩ := inside
  obtain ⟨l', next⟩ := final_done_step running calm
  have same : p.objs l.frame.self = l.obj := by rw [self]; exact obj
  have room : (p.sends c).length + l'.sends.length ≤ 512 + l.sends.length := by
    have whole := (final_sends m l').length_le
    rw [← final_step next, show (final m l).sends = (result m start msg).2 from
      congrArg Prod.snd leads] at whole
    rw [split] at fits
    simp only [List.flatMap_append, List.flatMap_cons, List.length_append] at fits
    rw [sends, List.length_append]
    omega
  obtain ⟨new, grows, applied⟩ := apply_local (m := m) next same room
  unfold Par.advance at step
  rw [core] at step
  simp only [if_neg running] at step
  obtain rfl := Option.some.inj step
  have others : ∀ msg', msg' ∈ done ∨ msg' ∈ todo → recv msg' ≠ recv msg := by
    rw [split, List.map_append, List.map_cons] at distinct
    intro msg' listed same
    have clash := List.nodup_middle.mp distinct
    rw [List.nodup_cons, ← List.map_append, ← same] at clash
    exact clash.1 (List.mem_map_of_mem (List.mem_append.mpr listed))
  have elsewhere : ∀ i, i ≠ recv msg → (p.apply m c (instr m (p.objs l.frame.self).f l.frame).1
      (instr m (p.objs l.frame.self).f l.frame).2).1.objs i = p.objs i := by
    intro i differs
    rw [applied.objs, self]
    exact setObj_of_ne _ _ differs
  constructor
  · refine .within done todo msg l' ⟨split, ?_, (localStep_frame next).1.trans self, ?_, ?_, ?_, ?_,
      ?_, ?_⟩
    · rw [setCore_same, applied.frame]
    · rw [setCore_objs, applied.objs, self, setObj_at]
    · rw [setCore_sends, applied.sends, if_pos rfl, sends, grows, List.append_assoc]
    · rw [← final_step next]
      exact calm
    · rw [← final_step next]
      exact leads
    · intro msg' listed
      rw [setCore_objs, elsewhere _ (others msg' (.inl listed))]
      exact ended msg' listed
    · intro msg' listed
      rw [setCore_objs, elsewhere _ (others msg' (.inr listed))]
      exact ahead msg' listed
  · refine ⟨applied.plan, ?_, ?_, ?_⟩
    · intro d differs
      rw [setCore_of_ne _ _ _ differs, applied.core]
    · intro d differs
      rw [setCore_sends, applied.sends, if_neg differs]
    · intro i outside
      have listed : msg ∈ share := split ▸ List.mem_append_right _ List.mem_cons_self
      exact elsewhere i (outside msg listed).symm

theorem touches_setCore (p : Par) (c : Nat) (core : Core) :
    Touches share p (p.setCore c core) c :=
  ⟨rfl, fun _ differs => setCore_of_ne _ _ _ differs, fun _ _ => rfl, fun _ _ => rfl⟩

theorem Progress.advance (h : Progress m start share p c) (distinct : (share.map recv).Nodup)
    (calm : ∀ msg ∈ share, NoSpawn m (start (recv msg)) msg)
    (fits : (share.flatMap fun msg => (result m start msg).2).length ≤ 512)
    (step : p.advance m c = some p') : Progress m start share p' c ∧ Touches share p p' c := by
  cases h with
  | between done todo split core sends ended ahead =>
    unfold Par.advance at step
    rw [core] at step
    cases todo with
    | nil => exact absurd step.symm (Option.some_ne_none p')
    | cons msg todo =>
      obtain rfl := Option.some.inj step
      exact ⟨take_up calm split sends ended ahead, touches_setCore _ _ _⟩
  | within done todo msg l inside =>
    by_cases atEnd : Done l.frame
    · unfold Par.advance at step
      rw [inside.core] at step
      simp only [if_pos atEnd] at step
      obtain rfl := Option.some.inj step
      exact ⟨close_call inside atEnd, touches_setCore _ _ _⟩
    · exact within_call distinct fits inside atEnd step

theorem idle_eq {core : Core} (idle : core.Idle) : core = ⟨[], none⟩ := by
  obtain ⟨todo, frame⟩ := core
  obtain ⟨nothing, still⟩ := idle
  have stopped : frame = none := Option.isNone_iff_eq_none.mp still
  have empty : todo = [] := nothing
  rw [stopped, empty]

theorem idle_stays (idle : p.core c = ⟨[], none⟩) : p.advance m c = none := by
  rw [Par.advance, idle]

theorem Progress.complete (h : Progress m start share p c) (idle : (p.core c).Idle) :
    p.sends c = (share.flatMap fun msg => (result m start msg).2) ∧
      ∀ msg ∈ share, p.objs (recv msg) = (result m start msg).1 := by
  cases h with
  | between done todo split core sends ended ahead =>
    rw [core] at idle
    obtain rfl : todo = [] := idle.1
    rw [List.append_nil] at split
    subst split
    exact ⟨sends, ended⟩
  | within done todo msg l inside =>
    rw [inside.core] at idle
    exact absurd idle.2 (by simp)

theorem Fresh.begin (h : Fresh start share p c) :
    Progress m start share (p.setCore c ⟨share, none⟩) c :=
  .between [] share rfl (setCore_same _ _ _) h.sends (by simp) h.ahead

end Cores

section Batch

variable (m : Module) (start : Table) (batch : List Msg) (cores : Nat)

/-- The plan of core 0 with all workers online, from the post for core `k` on. -/
def handOut (k : Nat) : List Action :=
  (List.range' k (cores - k)).map .post ++ .run 0 :: (List.range' 1 (cores - 1)).map .collect

def bringIn (k : Nat) : List Action := (List.range' k (cores - k)).map .collect

/-- How far core 0 is in its plan, and what the cores have done by then. -/
inductive Stage (p : Par) : Prop where
  | handing (k : Nat) (low : 1 ≤ k) (high : k ≤ cores) (plan : p.plan = handOut cores k)
      (posted : ∀ c, 1 ≤ c → c < k → Progress m start (share batch cores c) p c)
      (fresh : ∀ c, c < cores → c = 0 ∨ k ≤ c → Fresh start (share batch cores c) p c)
  | bringing (k : Nat) (low : 1 ≤ k) (high : k ≤ cores) (plan : p.plan = bringIn cores k)
      (working : ∀ c, c < cores → Progress m start (share batch cores c) p c)
      (back : ∀ c, 1 ≤ c → c < k → (p.core c).Idle)

structure BatchState (p : Par) : Prop where
  outside : ∀ i, (∀ msg ∈ batch, recv msg ≠ i) → p.objs i = start i
  spare : ∀ c, cores ≤ c → p.core c = ⟨[], none⟩ ∧ p.sends c = []
  stage : Stage m start batch cores p

/-- What a batch needs: different receivers, no spawn, and room for all sends. -/
structure Orderly : Prop where
  distinct : (batch.map recv).Nodup
  calm : ∀ msg ∈ batch, NoSpawn m (start (recv msg)) msg
  fits : (batch.flatMap fun msg => (result m start msg).2).length ≤ 512

variable {m start batch cores} {p p' : Par}

theorem range_step {k n : Nat} (below : k < n) :
    List.range' k (n - k) = k :: List.range' (k + 1) (n - (k + 1)) := by
  rw [show n - k = (n - (k + 1)) + 1 by omega, List.range'_succ]

theorem handOut_post {k : Nat} (below : k < cores) :
    handOut cores k = .post k :: handOut cores (k + 1) := by
  rw [handOut, range_step below, List.map_cons, List.cons_append, handOut]

theorem handOut_run : handOut cores cores = .run 0 :: bringIn cores 1 := by
  rw [handOut, Nat.sub_self, List.range'_zero, List.map_nil, List.nil_append, bringIn]

theorem bringIn_collect {k : Nat} (below : k < cores) :
    bringIn cores k = .collect k :: bringIn cores (k + 1) := by
  rw [bringIn, range_step below, List.map_cons, bringIn]

theorem bringIn_end : bringIn cores cores = [] := by
  rw [bringIn, Nat.sub_self, List.range'_zero, List.map_nil]

theorem planOf_online {online : Nat → Bool} (up : ∀ c, 1 ≤ c → c < cores → online c = true) :
    planOf online cores = handOut cores 1 := by
  have workers : ∀ c ∈ List.range' 1 (cores - 1), online c = true := by
    intro c listed
    obtain ⟨low, high⟩ := List.mem_range'_1.mp listed
    exact up c low (by omega)
  rw [planOf, handOut, List.filter_eq_self.mpr workers, List.append_assoc]
  congr 1
  exact List.map_congr_left fun c listed => if_pos (workers c listed)

theorem startPar_state {online : Nat → Bool} (some : 1 ≤ cores)
    (up : ∀ c, 1 ≤ c → c < cores → online c = true) :
    BatchState m start batch cores (startPar start online cores) :=
  ⟨fun _ _ => rfl, fun _ _ => ⟨rfl, rfl⟩,
    .handing 1 (Nat.le_refl 1) some (planOf_online up) (fun c low high => absurd high (by omega))
      (fun _ _ _ => ⟨rfl, rfl, fun _ _ => rfl⟩)⟩

section Steps

variable (orderly : Orderly m start batch)

include orderly in
theorem Progress.advance_share {c : Nat} (h : Progress m start (share batch cores c) p c)
    (step : p.advance m c = some p') :
    Progress m start (share batch cores c) p' c ∧ Touches (share batch cores c) p p' c := by
  refine h.advance ?_ ?_ ?_ step
  · exact ((share_sublist c).map recv).nodup orderly.distinct
  · intro msg listed
    exact orderly.calm msg ((share_sublist c).subset listed)
  · exact Nat.le_trans ((share_sublist c).flatMap _).length_le orderly.fits

theorem Touches.apart {c d : Nat} (orderly : Orderly m start batch)
    (touches : Touches (share batch cores c) p p' c) (hc : c < cores) (hd : d < cores)
    (differs : d ≠ c) :
    ∀ msg ∈ share batch cores d, p'.objs (recv msg) = p.objs (recv msg) := by
  intro msg there
  apply touches.objs
  intro msg' here
  exact shares_apart (by omega) orderly.distinct hc hd differs.symm here there

include orderly in
/-- A step of any core keeps the state of the batch. -/
theorem BatchState.advance (h : BatchState m start batch cores p) {c : Nat}
    (step : p.advance m c = some p') : BatchState m start batch cores p' := by
  have stuck : ∀ {c' : Nat}, p.core c' = ⟨[], none⟩ → c' ≠ c := by
    rintro c' idle rfl
    rw [idle_stays idle] at step
    exact absurd step.symm (Option.some_ne_none p')
  have busy : c < cores := by
    by_contra beyond
    exact stuck (h.spare c (by omega)).1 rfl
  have progress : Progress m start (share batch cores c) p c := by
    cases h.stage with
    | handing k low high plan posted fresh =>
      by_cases given : 1 ≤ c ∧ c < k
      · exact posted c given.1 given.2
      · exact absurd rfl (stuck (fresh c busy (by omega)).core)
    | bringing k low high plan working back => exact working c busy
  obtain ⟨after, touches⟩ := progress.advance_share orderly step
  have others : ∀ d, d < cores → d ≠ c → Progress m start (share batch cores d) p d →
      Progress m start (share batch cores d) p' d := fun d inside differs work =>
    work.congr (touches.core d differs) (touches.sends d differs)
      (touches.apart orderly busy inside differs)
  refine ⟨?_, ?_, ?_⟩
  · intro i outside
    rw [touches.objs i fun msg listed => outside msg ((share_sublist c).subset listed)]
    exact h.outside i outside
  · intro d beyond
    rw [touches.core d (by omega), touches.sends d (by omega)]
    exact h.spare d beyond
  · cases h.stage with
    | handing k low high plan posted fresh =>
      refine .handing k low high (touches.plan.trans plan) ?_ ?_
      · intro d hd hk
        by_cases same : d = c
        · exact same ▸ after
        · exact others d (by omega) same (posted d hd hk)
      · intro d hd waits
        have still := fresh d hd waits
        have differs := stuck still.core
        exact still.congr (touches.core d differs) (touches.sends d differs)
          (touches.apart orderly busy hd differs)
    | bringing k low high plan working back =>
      refine .bringing k low high (touches.plan.trans plan) ?_ ?_
      · intro d hd
        by_cases same : d = c
        · exact same ▸ after
        · exact others d hd same (working d hd)
      · intro d hd hk
        have idle := back d hd hk
        have differs : d ≠ c := by
          apply stuck
          exact idle_eq idle
        rw [touches.core d differs]
        exact idle

/-- Core 0 goes on in its plan. -/
theorem BatchState.next (h : BatchState m start batch cores p)
    (step : p.next batch cores = some p') : BatchState m start batch cores p' := by
  unfold Par.next at step
  split_ifs at step with free
  cases h.stage with
  | handing k low high plan posted fresh =>
    rcases Nat.lt_or_eq_of_le high with below | all
    · rw [plan, handOut_post below] at step
      obtain rfl := Option.some.inj step
      have kept : ∀ d, d ≠ k → (p.setCore k ⟨share batch cores k, none⟩).core d = p.core d :=
        fun d differs => setCore_of_ne _ _ _ differs
      refine ⟨h.outside, ?_, .handing (k + 1) (by omega) below rfl ?_ ?_⟩
      · intro d beyond
        exact ⟨(kept d (by omega)).trans (h.spare d beyond).1, (h.spare d beyond).2⟩
      · intro d hd hk
        by_cases same : d = k
        · subst same
          exact (fresh d below (.inr (Nat.le_refl d))).begin.congr rfl rfl fun _ _ => rfl
        · exact (posted d hd (by omega)).congr (kept d same) rfl fun _ _ => rfl
      · intro d hd waits
        exact (fresh d hd (by omega)).congr (kept d (by omega)) rfl fun _ _ => rfl
    · subst all
      rw [plan, handOut_run] at step
      obtain rfl := Option.some.inj step
      have kept : ∀ d, d ≠ 0 → (p.setCore 0 ⟨share batch k 0, none⟩).core d = p.core d :=
        fun d differs => setCore_of_ne _ _ _ differs
      refine ⟨h.outside, ?_, .bringing 1 (Nat.le_refl 1) low rfl ?_ ?_⟩
      · intro d beyond
        exact ⟨(kept d (by omega)).trans (h.spare d beyond).1, (h.spare d beyond).2⟩
      · intro d hd
        by_cases same : d = 0
        · subst same
          exact (fresh 0 hd (.inl rfl)).begin.congr rfl rfl fun _ _ => rfl
        · exact (posted d (by omega) hd).congr (kept d same) rfl fun _ _ => rfl
      · intro d hd hk
        omega
  | bringing k low high plan working back =>
    rcases Nat.lt_or_eq_of_le high with below | all
    · rw [plan, bringIn_collect below] at step
      simp only at step
      split_ifs at step with idle
      obtain rfl := Option.some.inj step
      refine ⟨h.outside, h.spare, .bringing (k + 1) (by omega) below rfl ?_ ?_⟩
      · intro d hd
        exact (working d hd).congr rfl rfl fun _ _ => rfl
      · intro d hd hk
        by_cases same : d = k
        · exact same ▸ idle
        · exact back d hd (by omega)
    · subst all
      rw [plan, bringIn_end] at step
      exact absurd step.symm (Option.some_ne_none p')

include orderly in
theorem batchState_run {online : Nat → Bool} (some : 1 ≤ cores)
    (up : ∀ c, 1 ≤ c → c < cores → online c = true)
    (run : Runs (parStep m batch cores) (fun _ e => e ≠ .giveUp) (startPar start online cores) p) :
    BatchState m start batch cores p := by
  refine run.invariant (startPar_state some up) ?_
  intro q e q' before patient step
  cases e with
  | advance c => exact before.advance orderly step
  | next => exact before.next step
  | giveUp => exact absurd rfl patient

end Steps

section Joined

theorem BatchState.joined (h : BatchState m start batch cores p) (joined : p.Joined) {c : Nat}
    (inside : c < cores) :
    Progress m start (share batch cores c) p c ∧ (p.core c).Idle := by
  cases h.stage with
  | handing k low high plan posted fresh =>
    have empty := joined.1
    rw [plan, handOut] at empty
    simp at empty
  | bringing k low high plan working back =>
    refine ⟨working c inside, ?_⟩
    have all : k = cores := by
      by_contra open'
      have empty := joined.1
      rw [plan, bringIn_collect (by omega)] at empty
      exact List.cons_ne_nil _ _ empty
    rcases Nat.eq_zero_or_pos c with rfl | later
    · exact joined.2
    · exact back c later (by omega)

theorem BatchState.merged_sends (h : BatchState m start batch cores p) (joined : p.Joined)
    (some : 1 ≤ cores) (few : cores ≤ parCores) :
    (List.range parCores).flatMap p.sends = batch.flatMap fun msg => (result m start msg).2 := by
  have workers : ∀ c ∈ List.range cores,
      p.sends c = (share batch cores c).flatMap fun msg => (result m start msg).2 := by
    intro c listed
    obtain ⟨progress, idle⟩ := h.joined joined (List.mem_range.mp listed)
    exact (progress.complete idle).1
  have spare : ∀ c ∈ (List.range (parCores - cores)).map (cores + ·), p.sends c = [] := by
    intro c listed
    obtain ⟨i, _, rfl⟩ := List.mem_map.mp listed
    exact (h.spare _ (Nat.le_add_right _ _)).2
  have rest : ((List.range (parCores - cores)).map (cores + ·)).flatMap p.sends = [] :=
    List.flatMap_eq_nil_iff.mpr spare
  rw [show parCores = cores + (parCores - cores) by omega, List.range_add, List.flatMap_append,
    rest, List.append_nil, List.flatMap_congr workers, ← List.flatMap_assoc, shares_all _ _ some]

end Joined

end Batch

section InOrder

variable {m : Module}

theorem foldl_vmEnqueue (sent : List Msg) : ∀ queue : List Msg,
    queue.length + sent.length ≤ 511 → sent.foldl vmEnqueue queue = queue ++ sent := by
  induction sent with
  | nil => simp
  | cons msg sent ih =>
    intro queue room
    rw [List.length_cons] at room
    have grown : vmEnqueue queue msg = queue ++ [msg] := if_pos (by omega)
    rw [List.foldl_cons, grown, ih _ (by rw [List.length_append, List.length_singleton]; omega),
      List.append_assoc, List.singleton_append]

/-- The queue is never full while the batch is dispatched in order: after any part of
it, the rest of the batch, the messages behind it and the sends so far fit in. -/
def WithinLimit (m : Module) (objs : Table) (batch rest : List Msg) : Prop :=
  ∀ done todo, batch = done ++ todo →
    todo.length + rest.length + (done.flatMap fun msg => (result m objs msg).2).length ≤ 511

variable {objs : Table}

theorem WithinLimit.total {batch rest : List Msg} (limit : WithinLimit m objs batch rest) :
    rest.length + (batch.flatMap fun msg => (result m objs msg).2).length ≤ 511 := by
  have all := limit batch [] (List.append_nil _).symm
  simpa using all

theorem result_setObj {msg msg' : Msg} (obj : Obj) (differs : recv msg' ≠ recv msg) :
    result m (setObj objs (recv msg) obj) msg' = result m objs msg' := by
  rw [result, setObj_of_ne _ _ differs, result]

/-- The batch dispatched in order. -/
theorem dispatchHeads_eq (batch : List Msg) : ∀ (objs : Table) (rest : List Msg),
    (batch.map recv).Nodup → (∀ msg ∈ batch, NoSpawn m (objs (recv msg)) msg) →
    WithinLimit m objs batch rest →
    (dispatchHeads m batch.length ⟨objs, batch ++ rest⟩).queue =
        rest ++ (batch.flatMap fun msg => (result m objs msg).2) ∧
      (∀ msg ∈ batch, (dispatchHeads m batch.length ⟨objs, batch ++ rest⟩).objs (recv msg) =
        (result m objs msg).1) ∧
      ∀ i, (∀ msg ∈ batch, recv msg ≠ i) →
        (dispatchHeads m batch.length ⟨objs, batch ++ rest⟩).objs i = objs i := by
  induction batch with
  | nil => simp [dispatchHeads]
  | cons msg batch ih =>
    intro objs rest distinct calm limit
    rw [List.map_cons, List.nodup_cons] at distinct
    have differs : ∀ msg' ∈ batch, recv msg' ≠ recv msg := fun msg' listed same =>
      distinct.1 (same ▸ List.mem_map_of_mem listed)
    have first := @avmDispatch_eq m ⟨objs, batch ++ rest⟩ msg (calm msg List.mem_cons_self)
    have enqueued : (result m objs msg).2.foldl vmEnqueue (batch ++ rest) =
        batch ++ (rest ++ (result m objs msg).2) := by
      have room := limit [msg] batch rfl
      rw [List.flatMap_singleton] at room
      rw [foldl_vmEnqueue _ _ (by rw [List.length_append]; omega), List.append_assoc]
    have begins : dispatchHeads m (msg :: batch).length ⟨objs, msg :: batch ++ rest⟩ =
        dispatchHeads m batch.length
          ⟨setObj objs (recv msg) (result m objs msg).1, batch ++ (rest ++ (result m objs msg).2)⟩ := by
      rw [← enqueued]
      exact congrArg (dispatchHeads m batch.length) first
    have sends : (batch.flatMap fun msg' =>
        (result m (setObj objs (recv msg) (result m objs msg).1) msg').2) =
        batch.flatMap fun msg' => (result m objs msg').2 :=
      List.flatMap_congr fun msg' listed => by rw [result_setObj _ (differs msg' listed)]
    obtain ⟨queue, receivers, others⟩ := ih (setObj objs (recv msg) (result m objs msg).1)
      (rest ++ (result m objs msg).2) distinct.2
      (by
        intro msg' listed
        rw [setObj_of_ne _ _ (differs msg' listed)]
        exact calm msg' (List.mem_cons_of_mem _ listed))
      (by
        intro done todo split
        have room := limit (msg :: done) todo (by rw [split, List.cons_append])
        have same : (done.flatMap fun msg' =>
            (result m (setObj objs (recv msg) (result m objs msg).1) msg').2) =
            done.flatMap fun msg' => (result m objs msg').2 :=
          List.flatMap_congr fun msg' listed => by
            rw [result_setObj _ (differs msg' (split ▸ List.mem_append_left _ listed))]
        rw [same, List.length_append]
        rw [List.flatMap_cons, List.length_append] at room
        omega)
    rw [begins]
    refine ⟨?_, ?_, ?_⟩
    · rw [queue, sends, List.flatMap_cons, List.append_assoc]
    · intro msg' listed
      rcases List.mem_cons.mp listed with rfl | later
      · rw [others _ fun msg'' there => differs msg'' there, setObj_at]
      · rw [receivers msg' later, result_setObj _ (differs msg' later)]
    · intro i outside
      rw [others i fun msg' there => outside msg' (List.mem_cons_of_mem _ there)]
      exact setObj_of_ne _ _ (outside msg List.mem_cons_self).symm

/-- The batch is the head of the queue, and its receivers are different. -/
theorem gather_spec (queue : List Msg) : ∀ (before batch rest : List Msg),
    gather m objs before queue = (batch, rest) → (before.map recv).Nodup →
    (∀ msg ∈ before, 0 ≤ msg.self) → before ++ queue = batch ++ rest ∧ (batch.map recv).Nodup := by
  induction queue with
  | nil =>
    intro before batch rest gathered distinct _
    obtain ⟨rfl, rfl⟩ := Prod.mk.inj gathered
    exact ⟨rfl, distinct⟩
  | cons msg queue ih =>
    intro before batch rest gathered distinct valid
    unfold gather at gathered
    split_ifs at gathered with joins
    · obtain ⟨low, _, _, _, new⟩ := joins.2
      have fresh : recv msg ∉ before.map recv := by
        intro listed
        obtain ⟨msg', there, same⟩ := List.mem_map.mp listed
        have low' := valid msg' there
        unfold recv at same
        exact new (List.mem_map.mpr ⟨msg', there, by omega⟩)
      obtain ⟨split, apart⟩ := ih (before ++ [msg]) batch rest gathered
        (by
          rw [List.map_append, List.map_singleton]
          exact List.nodup_append_comm.mp (List.nodup_cons.mpr ⟨fresh, distinct⟩))
        (by
          intro msg' listed
          rcases List.mem_append.mp listed with there | here
          · exact valid msg' there
          · exact (List.mem_singleton.mp here) ▸ low)
      exact ⟨by rw [← split, List.append_assoc, List.singleton_append], apart⟩
    · obtain ⟨rfl, rfl⟩ := Prod.mk.inj gathered
      exact ⟨rfl, distinct⟩

end InOrder

/-- A batch whose workers are all online, that gives up no worker and spawns
nothing, leaves the fields and the queue of a dispatch in order. -/
theorem batch_in_order {m : Module} {objs : Table} {online : Nat → Bool}
    {queue batch rest : List Msg} {p : Par} (gathered : gather m objs [] queue = (batch, rest))
    (several : 2 ≤ batch.length) (parallel : 2 ≤ coresOnline online)
    (up : ∀ c, 1 ≤ c → c < min (coresOnline online) batch.length → online c = true)
    (calm : ∀ msg ∈ batch, NoSpawn m (objs (recv msg)) msg) (limit : WithinLimit m objs batch rest)
    (run : Runs (parStep m batch (min (coresOnline online) batch.length)) (fun _ e => e ≠ .giveUp)
      (startPar objs online (min (coresOnline online) batch.length)) p)
    (joined : p.Joined) :
    p.objs = (dispatchHeads m batch.length ⟨objs, queue⟩).objs ∧
      p.merged rest = (dispatchHeads m batch.length ⟨objs, queue⟩).queue := by
  obtain ⟨split, distinct⟩ := gather_spec queue [] batch rest gathered List.nodup_nil (by simp)
  obtain rfl : queue = batch ++ rest := split
  have few : coresOnline online ≤ parCores :=
    Nat.le_trans (List.length_filter_le _ _) (Nat.le_of_eq List.length_range)
  have room := limit.total
  have some : 0 < min (coresOnline online) batch.length := by omega
  have orderly : Orderly m objs batch := ⟨distinct, calm, by omega⟩
  have state := batchState_run orderly some up run
  obtain ⟨queue, receivers, others⟩ := dispatchHeads_eq batch objs rest distinct calm limit
  constructor
  · funext i
    by_cases touched : ∃ msg ∈ batch, recv msg = i
    · obtain ⟨msg, listed, rfl⟩ := touched
      obtain ⟨c, inside, here⟩ := (mem_share some).mp listed
      obtain ⟨progress, idle⟩ := state.joined joined inside
      rw [receivers msg listed]
      exact (progress.complete idle).2 msg here
    · have outside : ∀ msg ∈ batch, recv msg ≠ i := fun msg listed same =>
        touched ⟨msg, listed, same⟩
      rw [others i outside]
      exact state.outside i outside
  · have sent := state.merged_sends joined some (by omega)
    rw [queue, Par.merged, sent]
    exact foldl_vmEnqueue _ _ (by omega)

private def echoModule : Module :=
  ⟨[[103, 111]], [[⟨0, 5, fun i => [0x05, 0x40, 0, 0, 0].getD i 0⟩]]⟩

private def echoObjs : Table := fun i => ⟨i < 2, 0, fun _ => 0⟩

private def goTo (i : Nat) : Msg := ⟨i, -1, [103, 111], []⟩

private def goAgain (i : Nat) : Msg := ⟨i, i, [103, 111], []⟩

private def echoQueue : List Msg := [goTo 0, goTo 1]

private theorem echo_calm (i : Nat) (low : i < 2) : NoSpawn echoModule (echoObjs i) (goTo i) := by
  intro fr opens
  have cases : i = 0 ∨ i = 1 := by omega
  rcases cases with rfl | rfl
  all_goals
    obtain rfl := Option.some.inj opens
    decide +kernel

private theorem echo_limit : WithinLimit echoModule echoObjs echoQueue [] := by
  intro done todo split
  have sends : (echoQueue.flatMap fun msg => (result echoModule echoObjs msg).2).length = 2 := by
    decide +kernel
  have fewer : List.Sublist done echoQueue := split ▸ List.sublist_append_left done todo
  have bound := (fewer.flatMap fun msg => (result echoModule echoObjs msg).2).length_le
  have short : todo.length ≤ 2 := by
    have all := congrArg List.length split
    rw [List.length_append] at all
    have two : echoQueue.length = 2 := rfl
    omega
  rw [List.length_nil]
  omega

private def abreast : List Step :=
  [.next, .next, .advance 1, .advance 0, .advance 1, .advance 1, .advance 0, .advance 1,
    .advance 0, .advance 0, .next]

private def alone : List Step :=
  .next :: List.replicate 4 (.advance 0) ++ .next :: List.replicate 4 (.advance 0)

private def exec (online : Nat → Bool) (steps : List Step) : Option Par :=
  steps.foldlM (parStep echoModule echoQueue 2) (startPar echoObjs online 2)

theorem batch_in_order_two_cores :
    ∃ p, exec (fun _ => true) abreast = some p ∧ p.Joined ∧
      p.merged [] = [goAgain 0, goAgain 1] ∧
      p.merged [] = (dispatchHeads echoModule 2 ⟨echoObjs, echoQueue⟩).queue := by
  have joins : ∃ p, exec (fun _ => true) abreast = some p ∧ p.Joined ∧
      p.merged [] = [goAgain 0, goAgain 1] := ⟨_, rfl, by decide +kernel, by decide +kernel⟩
  obtain ⟨p, run, joined, merged⟩ := joins
  refine ⟨p, run, joined, merged, ?_⟩
  have calm : ∀ msg ∈ echoQueue, NoSpawn echoModule (echoObjs (recv msg)) msg := by
    intro msg listed
    rcases List.mem_pair.mp listed with rfl | rfl
    · exact echo_calm 0 (by decide)
    · exact echo_calm 1 (by decide)
  exact (@batch_in_order echoModule echoObjs (fun _ => true) echoQueue echoQueue [] p
    (by rfl) (by decide) (by decide) (fun _ _ _ => rfl) calm echo_limit
    (Runs.of_steps abreast (fun _ => by decide) run) joined).2

/-- With cores 0 and 2 online the messages of a batch are sent in the other order. -/
theorem offline_share_overtakes :
    ¬ ∀ (m : Module) (objs : Table) (online : Nat → Bool) (queue batch rest : List Msg) (p : Par),
      gather m objs [] queue = (batch, rest) → 2 ≤ batch.length → 2 ≤ coresOnline online →
      WithinLimit m objs batch rest →
      Runs (parStep m batch (min (coresOnline online) batch.length)) (fun _ _ => True)
        (startPar objs online (min (coresOnline online) batch.length)) p →
      p.Joined →
      p.objs = (dispatchHeads m batch.length ⟨objs, queue⟩).objs ∧
        p.merged rest = (dispatchHeads m batch.length ⟨objs, queue⟩).queue := by
  intro claimed
  have joins : ∃ p, exec (fun c => c = 0 ∨ c = 2) alone = some p ∧ p.Joined ∧
      p.merged [] = [goAgain 1, goAgain 0] := ⟨_, rfl, by decide +kernel, by decide +kernel⟩
  obtain ⟨p, run, joined, merged⟩ := joins
  have equal := (claimed echoModule echoObjs (fun c => c = 0 ∨ c = 2) echoQueue echoQueue [] p
    (by rfl) (by decide) (by decide) echo_limit
    (Runs.of_steps alone (fun _ _ _ => trivial) run) joined).2
  have inOrder : (dispatchHeads echoModule 2 ⟨echoObjs, echoQueue⟩).queue =
      [goAgain 0, goAgain 1] := by decide +kernel
  have reversed := (merged.symm.trans equal).trans inOrder
  exact absurd reversed (by decide)

end XinuRpi5.Video.AvmBatch
