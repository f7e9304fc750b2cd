/- source: cc/cc.c
   digest: What cc_acquire, cc_release and cc_res_report say about the resources of a run. -/

import XinuRpi5.Cc.RunPaths

/-!
A resource is its name. What the calls say is compared with a count for each name: an acquire
adds one, a release takes one away, and a release at zero is unmatched.
-/

namespace XinuRpi5.Cc.Resources

open Lib.GuardedRuns Cc.Runtime RunPaths
open ActorQueue (asInt)

abbrev Name := List UInt8

section Table

variable (res : List Res) (name : Name)

/-- The table behind `cc_acquire`. -/
def acquired : List Res :=
  match resFind res name with
  | (none, _) => res
  | (some i, res) => res.modify i fun r => { r with depth := asInt (r.depth + 1) }

/-- The name that `cc_release` reports as released without being acquired. -/
def told : Option Name :=
  match resFind res name with
  | (none, _) => none
  | (some i, res) =>
    if ((res[i]?).elim 0 Res.depth) ≤ 0 then some ((res[i]?).elim [] Res.name) else none

/-- The table behind `cc_release`. -/
def released : List Res :=
  match resFind res name with
  | (none, _) => res
  | (some i, res) =>
    if ((res[i]?).elim 0 Res.depth) ≤ 0 then res
    else res.modify i fun r => { r with depth := r.depth - 1 }

/-- The names in the lines of `cc_res_report`. -/
def held : List Name := (res.filter fun r => 0 < r.depth).map Res.name

def releaseNote : List UInt8 :=
  utf8 "\ncc: resource " ++ name ++ utf8 " is released without being acquired\n"

end Table

section Source

variable (s : State) (name : Name)

theorem acquire_eq : acquire s name = { s with res := acquired s.res name } := by
  unfold acquire acquired
  rcases resFind s.res name with ⟨_ | i, res⟩
  · rfl
  · rfl

theorem release_eq : release s name =
    (told s.res name).elim { s with res := released s.res name } fun n =>
      emit { s with res := released s.res name } (releaseNote n) := by
  unfold release told released
  rcases resFind s.res name with ⟨_ | i, res⟩
  · rfl
  · simp only
    split_ifs <;> rfl

theorem resReport_eq : resReport s =
    { (held s.res).foldl (fun s n => emit s (heldNote n)) s with res := [] } := by
  unfold resReport held
  rw [List.foldl_map, List.foldl_filter]
  simp only [decide_eq_true_eq]

end Source

inductive Op where
  | acquire (name : Name)
  | release (name : Name)

def Op.name : Op → Name
  | .acquire name | .release name => name

def count (depth : Name → Nat) : Op → Name → Nat
  | .acquire name => Function.update depth name (depth name + 1)
  | .release name => Function.update depth name (depth name - 1)

/-- By how much the acquires of each name outnumber its releases behind a sequence. -/
def depthAt (ops : List Op) : Name → Nat := ops.foldl count fun _ => 0

/-- A count that fits into an `int`, for every name. -/
def Small (depth : Name → Nat) : Prop := ∀ name, depth name < 2147483648

structure World where
  res : List Res
  depth : Name → Nat

def World.move (w : World) (op : Op) : World where
  res := match op with
    | .acquire name => acquired w.res name
    | .release name => released w.res name
  depth := count w.depth op

def World.start : World := ⟨[], fun _ => 0⟩

def worldAt (ops : List Op) : World := ops.foldl World.move .start

/-- The report of a run that ends here names the resources that are held, each once. -/
def Right (w : World) : Prop :=
  (held w.res).Nodup ∧ ∀ name, name ∈ held w.res ↔ 0 < w.depth name

/-- A release is reported under its name exactly when it is unmatched, and behind the operation
the report would be right. -/
def Good (w : World) (op : Op) : Prop :=
  (∀ name, op = .release name →
    told w.res name = if w.depth name = 0 then some name else none) ∧ Right (w.move op)

/-- The name fits into an entry, and it has one or there is room for it; and its count fits. -/
def Fits (w : World) (op : Op) : Prop :=
  (op.name.length ≤ 23 ∧ (op.name ∈ w.res.map Res.name ∨ w.res.length < 16)) ∧
    Small (count w.depth op)

/-- The different names of a sequence, in the order of their first use. -/
def names (ops : List Op) : List Name :=
  ops.foldl (fun seen op => if seen.contains op.name then seen else seen ++ [op.name]) []

section Lookup

variable {res : List Res} {name : Name}

theorem resFind_stored (stored : name ∈ res.map Res.name) :
    ∃ (i : Nat) (r : Res), res[i]? = some r ∧ r.name = name ∧ resFind res name = (some i, res) := by
  cases found : res.findIdx? fun r => r.name = name with
  | none =>
    obtain ⟨r, listed, rfl⟩ := List.mem_map.mp stored
    have other := List.findIdx?_eq_none_iff.mp found r listed
    rw [decide_eq_false_iff_not] at other
    exact absurd rfl other
  | some i =>
    obtain ⟨inside, here, -⟩ := List.findIdx?_eq_some_iff_getElem.mp found
    refine ⟨i, res[i], List.getElem?_eq_getElem inside, of_decide_eq_true here, ?_⟩
    unfold resFind
    rw [found]

theorem findIdx_missing (missing : name ∉ res.map Res.name) :
    res.findIdx? (fun r => r.name = name) = none := by
  refine List.findIdx?_eq_none_iff.mpr fun r listed => ?_
  rw [decide_eq_false_iff_not]
  exact fun same => missing (List.mem_map.mpr ⟨r, listed, same⟩)

theorem resFind_new (missing : name ∉ res.map Res.name) (room : res.length < 16) :
    resFind res name = (some res.length, res ++ [⟨name.take 23, 0⟩]) := by
  unfold resFind
  rw [findIdx_missing missing]
  exact if_neg (Nat.not_le.mpr room)

theorem resFind_full (missing : name ∉ res.map Res.name) (full : ¬ res.length < 16) :
    resFind res name = (none, res) := by
  unfold resFind
  rw [findIdx_missing missing]
  exact if_pos (Nat.not_lt.mp full)

theorem names_modify (res : List Res) (i : Nat) (f : Int → Int) :
    (res.modify i fun r => { r with depth := f r.depth }).map Res.name = res.map Res.name := by
  refine List.ext_getElem? fun j => ?_
  rw [List.getElem?_map, List.getElem?_map, List.getElem?_modify]
  by_cases here : i = j
  · simp only [if_pos here]
    cases res[j]? <;> rfl
  · simp only [if_neg here]
    cases res[j]? <;> rfl

theorem getElem?_new (res : List Res) (r : Res) : (res ++ [r])[res.length]? = some r := by
  rw [List.getElem?_append_right (Nat.le_refl _), Nat.sub_self]
  rfl

end Lookup

section Steps

variable {w : World} {name : Name}

/-- Each name has one entry at most, which is not cut and has its count. -/
structure Inv (w : World) : Prop where
  nodup : (w.res.map Res.name).Nodup
  short : ∀ n ∈ w.res.map Res.name, n.length ≤ 23
  counted : ∀ (i : Nat) (r : Res), w.res[i]? = some r → r.depth = w.depth r.name
  small : Small w.depth
  rest : ∀ n, n ∉ w.res.map Res.name → w.depth n = 0

theorem Inv.start : Inv World.start where
  nodup := List.nodup_nil
  short _ listed := (List.not_mem_nil listed).elim
  counted i r listed := by cases listed
  small _ := Nat.succ_pos _
  rest _ _ := rfl

theorem mem_held {res : List Res} {n : Name} :
    n ∈ held res ↔ ∃ (i : Nat) (r : Res), res[i]? = some r ∧ r.name = n ∧ 0 < r.depth := by
  unfold held
  rw [List.mem_map]
  constructor
  · rintro ⟨r, listed, same⟩
    obtain ⟨inside, positive⟩ := List.mem_filter.mp listed
    obtain ⟨i, here⟩ := List.mem_iff_getElem?.mp inside
    exact ⟨i, r, here, same, of_decide_eq_true positive⟩
  · rintro ⟨i, r, here, same, positive⟩
    exact ⟨r, List.mem_filter.mpr ⟨List.mem_of_getElem? here, decide_eq_true positive⟩, same⟩

variable (inv : Inv w)

include inv

theorem Inv.right : Right w := by
  refine ⟨?_, fun n => ?_⟩
  · exact inv.nodup.sublist (List.filter_sublist.map _)
  · rw [mem_held]
    constructor
    · rintro ⟨i, r, here, rfl, positive⟩
      have counted := inv.counted i r here
      omega
    · intro positive
      have stored : n ∈ w.res.map Res.name := by
        by_contra missing
        have none := inv.rest n missing
        omega
      obtain ⟨r, listed, rfl⟩ := List.mem_map.mp stored
      obtain ⟨i, here⟩ := List.mem_iff_getElem?.mp listed
      have counted := inv.counted i r here
      exact ⟨i, r, here, rfl, by omega⟩

theorem Inv.place {i j : Nat} {r p : Res} (here : w.res[i]? = some r) (there : w.res[j]? = some p)
    (same : p.name = r.name) : i = j := by
  have left : (w.res.map Res.name)[i]? = some r.name := by
    rw [List.getElem?_map, here]
    rfl
  have right : (w.res.map Res.name)[j]? = some r.name := by
    rw [List.getElem?_map, there, ← same]
    rfl
  have inside := (List.getElem?_eq_some_iff.mp left).1
  exact (List.getElem?_inj inside inv.nodup).mp (left.trans right.symm)

/-- The entry of a name moves with its count. -/
theorem Inv.modify {i : Nat} {r : Res} (here : w.res[i]? = some r) (f : Int → Int) (d : Nat)
    (same : f r.depth = d) (small : Small (Function.update w.depth r.name d)) :
    Inv ⟨w.res.modify i fun r => { r with depth := f r.depth },
      Function.update w.depth r.name d⟩ where
  nodup := by
    simp only
    rw [names_modify]
    exact inv.nodup
  short := by
    simp only
    rw [names_modify]
    exact inv.short
  counted j q there := by
    simp only at there ⊢
    rw [List.getElem?_modify] at there
    by_cases at' : i = j
    · subst at'
      simp only [if_true, here] at there
      obtain rfl := Option.some.inj there
      rw [Function.update_self]
      exact same
    · simp only [if_neg at'] at there
      obtain ⟨p, old, rfl⟩ := Option.map_eq_some_iff.mp there
      have apart : p.name ≠ r.name := fun same => at' (inv.place here old same)
      change p.depth = Function.update w.depth r.name d p.name
      rw [Function.update_of_ne apart]
      exact inv.counted j p old
  small := small
  rest n missing := by
    simp only at missing ⊢
    rw [names_modify] at missing
    have stored : r.name ∈ w.res.map Res.name := List.mem_map_of_mem (List.mem_of_getElem? here)
    have apart : n ≠ r.name := fun same => missing (same ▸ stored)
    rw [Function.update_of_ne apart]
    exact inv.rest n missing

theorem Inv.extend (missing : name ∉ w.res.map Res.name) (short : name.length ≤ 23) :
    Inv ⟨w.res ++ [⟨name, 0⟩], w.depth⟩ where
  nodup := by
    rw [List.map_append, List.nodup_append]
    refine ⟨inv.nodup, List.nodup_singleton _, ?_⟩
    rintro x listed y last rfl
    obtain rfl : x = name := List.mem_singleton.mp last
    exact missing listed
  short n listed := by
    rw [List.map_append] at listed
    rcases List.mem_append.mp listed with old | new
    · exact inv.short n old
    · rw [List.mem_singleton.mp new]
      exact short
  counted i r there := by
    rw [List.getElem?_append] at there
    split_ifs at there with inside
    · exact inv.counted i r there
    · have last := List.mem_of_getElem? there
      rw [List.mem_singleton.mp last]
      exact (congrArg Int.ofNat (inv.rest name missing)).symm
  small := inv.small
  rest n missing' := by
    rw [List.map_append, List.mem_append, not_or] at missing'
    exact inv.rest n missing'.1

theorem Inv.entry {op : Op}
    (fits : op.name.length ≤ 23 ∧ (op.name ∈ w.res.map Res.name ∨ w.res.length < 16)) :
    ∃ (i : Nat) (r : Res) (res : List Res),
    resFind w.res op.name = (some i, res) ∧ res[i]? = some r ∧ r.name = op.name ∧
      Inv ⟨res, w.depth⟩ := by
  by_cases stored : op.name ∈ w.res.map Res.name
  · obtain ⟨i, r, here, same, found⟩ := resFind_stored stored
    exact ⟨i, r, w.res, found, here, same, inv⟩
  · have room := fits.2.resolve_left stored
    refine ⟨_, _, _, resFind_new stored room, getElem?_new _ _, List.take_of_length_le fits.1, ?_⟩
    rw [List.take_of_length_le fits.1]
    exact inv.extend stored fits.1

theorem Inv.move {op : Op} (fits : Fits w op) : Inv (w.move op) := by
  obtain ⟨i, r, res, found, here, same, next⟩ := inv.entry fits.1
  have counted : r.depth = w.depth r.name := next.counted i r here
  cases op with
  | acquire name =>
    obtain rfl : r.name = name := same
    change resFind w.res r.name = _ at found
    have below := fits.2 r.name
    simp only [count, Function.update_self] at below
    simp only [World.move, count, acquired, found]
    refine next.modify here (asInt <| · + 1) (w.depth r.name + 1) ?_ fits.2
    rw [counted, asInt, Int.bmod_eq_of_le (by omega) (by omega)]
    rfl
  | release name =>
    obtain rfl : r.name = name := same
    change resFind w.res r.name = _ at found
    simp only [World.move, count, released, found, here, Option.elim_some]
    split_ifs with zero
    · have still : Function.update w.depth r.name (w.depth r.name - 1) = w.depth := by
        rw [show w.depth r.name - 1 = w.depth r.name by omega, Function.update_eq_self]
      rw [still]
      exact next
    · exact next.modify here (· - 1) (w.depth r.name - 1) (by omega) fits.2

theorem Inv.reported (fits : Fits w (.release name)) :
    told w.res name = if w.depth name = 0 then some name else none := by
  obtain ⟨i, r, res, found, here, same, next⟩ := inv.entry fits.1
  obtain rfl : r.name = name := same
  change resFind w.res r.name = _ at found
  have counted : r.depth = w.depth r.name := next.counted i r here
  simp only [told, found, here, Option.elim_some]
  split_ifs
  · rfl
  · omega
  · omega
  · rfl

theorem Inv.release_small : Small (count w.depth (.release name)) := by
  intro n
  rw [count, Function.update_apply]
  split_ifs
  · have below := inv.small name
    omega
  · exact inv.small n

theorem Inv.release_wrong (misfit : ¬ Fits w (.release name)) :
    told w.res name ≠ if w.depth name = 0 then some name else none := by
  replace misfit := fun fits => misfit ⟨fits, inv.release_small⟩
  have missing : name ∉ w.res.map Res.name := fun stored =>
    misfit ⟨inv.short name stored, .inl stored⟩
  rw [if_pos (inv.rest name missing)]
  unfold told
  by_cases room : w.res.length < 16
  · have long : ¬ name.length ≤ 23 := fun short => misfit ⟨short, .inr room⟩
    rw [resFind_new missing room]
    simp only [getElem?_new, Option.elim_some, le_refl, if_true]
    intro same
    have length := congrArg List.length (Option.some.inj same)
    rw [List.length_take] at length
    omega
  · rw [resFind_full missing room]
    exact fun none => Option.some_ne_none name none.symm

/-- One acquire too many takes `depth` below zero, and the report leaves the name out. -/
theorem Inv.acquire_wraps
    (fits : name.length ≤ 23 ∧ (name ∈ w.res.map Res.name ∨ w.res.length < 16))
    (large : ¬ Small (count w.depth (.acquire name))) : ¬ Right (w.move (.acquire name)) := by
  have full : w.depth name + 1 = 2147483648 := by
    obtain ⟨n, above⟩ := not_forall.mp large
    have below := inv.small n
    rw [count, Function.update_apply] at above
    split_ifs at above with here
    · rw [here] at below
      omega
    · exact absurd below above
  intro right
  have positive : 0 < (w.move (.acquire name)).depth name := by
    change 0 < Function.update w.depth name (w.depth name + 1) name
    rw [Function.update_self]
    exact Nat.succ_pos _
  obtain ⟨i, r, res, found, here, same, next⟩ := @Inv.entry _ inv (.acquire name) fits
  obtain rfl : r.name = name := same
  change resFind w.res r.name = _ at found
  obtain ⟨j, q, there, named, holds⟩ := mem_held.mp ((right.2 r.name).mpr positive)
  simp only [World.move, acquired, found] at there
  rw [List.getElem?_modify] at there
  obtain ⟨p, old, rfl⟩ := Option.map_eq_some_iff.mp there
  have own : p.name = r.name := by
    split_ifs at named
    · exact named
    · exact named
  obtain rfl : i = j := next.place here old own
  obtain rfl : r = p := Option.some.inj (here.symm.trans old)
  have counted : r.depth = w.depth r.name := next.counted i r here
  have wrapped : asInt (r.depth + 1) = -2147483648 := by
    rw [counted, show (w.depth r.name : Int) + 1 = 2147483648 by omega]
    decide
  rw [if_pos rfl] at holds
  change 0 < asInt (r.depth + 1) at holds
  omega

theorem Inv.acquire_wrong (misfit : ¬ Fits w (.acquire name)) :
    ¬ Right (w.move (.acquire name)) := by
  by_cases fits : name.length ≤ 23 ∧ (name ∈ w.res.map Res.name ∨ w.res.length < 16)
  · exact inv.acquire_wraps fits fun small => misfit ⟨fits, small⟩
  have missing : name ∉ w.res.map Res.name := fun stored =>
    fits ⟨inv.short name stored, .inl stored⟩
  intro right
  have listed : name ∈ held (acquired w.res name) := by
    refine (right.2 name).mpr ?_
    change 0 < Function.update w.depth name (w.depth name + 1) name
    rw [Function.update_self]
    exact Nat.succ_pos _
  obtain ⟨i, r, here, same, -⟩ := mem_held.mp listed
  have stored : name ∈ (acquired w.res name).map Res.name :=
    List.mem_map.mpr ⟨r, List.mem_of_getElem? here, same⟩
  unfold acquired at stored
  by_cases room : w.res.length < 16
  · have long : ¬ name.length ≤ 23 := fun short => fits ⟨short, .inr room⟩
    rw [resFind_new missing room] at stored
    simp only [names_modify _ _ (asInt <| · + 1)] at stored
    rw [List.map_append, List.mem_append] at stored
    have length := congrArg List.length (List.mem_singleton.mp (stored.resolve_left missing))
    rw [List.length_take] at length
    omega
  · rw [resFind_full missing room] at stored
    exact missing stored

theorem Inv.good_iff (op : Op) : Good w op ↔ Fits w op := by
  constructor
  · rintro ⟨reported, right⟩
    by_contra misfit
    cases op with
    | acquire name => exact inv.acquire_wrong misfit right
    | release name => exact inv.release_wrong misfit (reported name rfl)
  · intro fits
    refine ⟨?_, (inv.move fits).right⟩
    rintro name rfl
    exact inv.reported fits

end Steps

theorem move_names {w : World} {op : Op} (fits : Fits w op) :
    (w.move op).res.map Res.name =
      if op.name ∈ w.res.map Res.name then w.res.map Res.name
      else w.res.map Res.name ++ [op.name] := by
  have table : ∀ {i : Option Nat} {res : List Res}, resFind w.res op.name = (i, res) →
      (∃ j, i = some j) → (w.move op).res.map Res.name = res.map Res.name := by
    rintro _ res found ⟨j, rfl⟩
    cases op with
    | acquire name =>
      change resFind w.res name = _ at found
      simp only [World.move, acquired, found]
      exact names_modify res j (asInt <| · + 1)
    | release name =>
      change resFind w.res name = _ at found
      simp only [World.move, released, found]
      split_ifs
      · rfl
      · exact names_modify res j (· - 1)
  by_cases stored : op.name ∈ w.res.map Res.name
  · obtain ⟨i, r, -, -, found⟩ := resFind_stored stored
    rw [if_pos stored, table found ⟨i, rfl⟩]
  · rw [if_neg stored, table (resFind_new stored (fits.1.2.resolve_left stored)) ⟨_, rfl⟩,
      List.map_append, List.take_of_length_le fits.1.1]
    rfl

def Named (ops : List Op) : Prop := (∀ op ∈ ops, op.name.length ≤ 23) ∧ (names ops).length ≤ 16

theorem names_snoc (ops : List Op) (op : Op) : names (ops ++ [op]) =
    if op.name ∈ names ops then names ops else names ops ++ [op.name] := by
  unfold names
  rw [List.foldl_concat]
  simp only [List.contains_iff_mem]

theorem named_snoc {ops : List Op} {op : Op} : Named (ops ++ [op]) ↔
    Named ops ∧ op.name.length ≤ 23 ∧ (op.name ∈ names ops ∨ (names ops).length < 16) := by
  unfold Named
  rw [names_snoc]
  constructor
  · rintro ⟨short, few⟩
    have before : (names ops).length ≤ 16 := by
      split_ifs at few
      · exact few
      · rw [List.length_append] at few
        exact Nat.le_trans (Nat.le_add_right _ _) few
    refine ⟨⟨fun o listed => short o (List.mem_append_left _ listed), before⟩,
      short op (List.mem_append_right _ List.mem_cons_self), ?_⟩
    split_ifs at few with old
    · exact .inl old
    · rw [List.length_append] at few
      exact .inr few
  · rintro ⟨⟨short, few⟩, last, room⟩
    refine ⟨fun o listed => ?_, ?_⟩
    · rcases List.mem_append.mp listed with early | late
      · exact short o early
      · rw [List.mem_singleton.mp late]
        exact last
    · split_ifs with old
      · exact few
      · rw [List.length_append]
        exact room.resolve_left old

def Few (ops : List Op) : Prop := Named ops ∧ ∀ before, before <+: ops → Small (depthAt before)

theorem few_snoc {ops : List Op} {op : Op} : Few (ops ++ [op]) ↔
    Few ops ∧ (op.name.length ≤ 23 ∧ (op.name ∈ names ops ∨ (names ops).length < 16)) ∧
      Small (depthAt (ops ++ [op])) := by
  unfold Few
  simp only [named_snoc, List.prefix_concat_iff, forall_eq_or_imp]
  tauto

theorem worldAt_depth (ops : List Op) : (worldAt ops).depth = depthAt ops := by
  induction ops using List.reverseRecOn with
  | nil => rfl
  | append_singleton ops op ih =>
    unfold worldAt depthAt at *
    rw [List.foldl_concat, List.foldl_concat, ← ih]
    rfl

theorem Few.table (ops : List Op) (few : Few ops) : Inv (worldAt ops) ∧
    (worldAt ops).res.map Res.name = names ops := by
  induction ops using List.reverseRecOn with
  | nil => exact ⟨Inv.start, rfl⟩
  | append_singleton ops op ih =>
    obtain ⟨earlier, ⟨short, room⟩, small⟩ := few_snoc.mp few
    obtain ⟨inv, table⟩ := ih earlier
    have next : worldAt (ops ++ [op]) = (worldAt ops).move op := List.foldl_concat ..
    have fits : Fits (worldAt ops) op := by
      refine ⟨⟨short, ?_⟩, ?_⟩
      · rw [← List.length_map (f := Res.name), table]
        exact room
      · rw [← worldAt_depth, next] at small
        exact small
    rw [next, names_snoc, move_names fits, table]
    exact ⟨inv.move fits, rfl⟩

/-- At every call of a sequence a release is reported exactly when it is unmatched, and a run that
ends behind it would report exactly what is held, exactly if no name has more than 23 bytes, at
most 16 different ones occur and what is held of each never comes to `2 ^ 31`. -/
theorem resources_reported_iff (ops : List Op) :
    (∀ k op, ops[k]? = some op → Good (worldAt (ops.take k)) op) ↔
      ((∀ op ∈ ops, op.name.length ≤ 23) ∧ (names ops).length ≤ 16) ∧
        ∀ before, before <+: ops → ∀ name, depthAt before name < 2147483648 := by
  change _ ↔ Few ops
  induction ops using List.reverseRecOn with
  | nil =>
    refine iff_of_true (fun k op there => ?_)
      ⟨⟨fun _ listed => (List.not_mem_nil listed).elim, Nat.zero_le _⟩, fun before empty name => ?_⟩
    · cases there
    · rw [List.prefix_nil.mp empty]
      exact Nat.succ_pos _
  | append_singleton ops op ih =>
    rw [each_snoc (P := fun before op => Good (worldAt before) op), few_snoc, ih]
    refine and_congr_right fun few => ?_
    obtain ⟨inv, table⟩ := Few.table ops few
    have next : worldAt (ops ++ [op]) = (worldAt ops).move op := List.foldl_concat ..
    rw [inv.good_iff op, ← table, List.length_map, ← worldAt_depth, next]
    rfl

def longName : Name := List.replicate 24 97

/-- A release that is matched is reported, under a cut name. -/
theorem longName_unmatched :
    (worldAt [.acquire longName]).depth longName = 1 ∧
    told (worldAt [.acquire longName]).res longName = some (longName.take 23) ∧
    ¬ Good (worldAt [.acquire longName]) (.release longName) := by
  have counted : (worldAt [.acquire longName]).depth longName = 1 := by decide
  have reported : told (worldAt [.acquire longName]).res longName = some (longName.take 23) := by
    decide
  refine ⟨counted, reported, fun good => ?_⟩
  have quiet := good.1 longName rfl
  rw [reported, counted] at quiet
  exact Option.some_ne_none _ quiet

end XinuRpi5.Cc.Resources
