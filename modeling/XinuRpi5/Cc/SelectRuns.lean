/- source: cc/abcl2c.c
   digest: Runs of the code for select: marks in the hidden field, tests in the methods. -/

import XinuRpi5.Cc.AiplLayout
import XinuRpi5.Lib.GuardedRuns
import Mathlib.Data.Int.Init
import Mathlib.Algebra.Group.Int.Defs

/-!
The objects lie one behind the other, as `struct Obj g_obj[]` has them: the class, then
the fields. A message is the number of its method. Method bodies appear through what they
do to the objects: the assignments, the selects and the messages, in any order.
-/

namespace XinuRpi5.Cc.SelectRuns

open AiplLex AiplStructure AiplScan AiplEmit
open AiplExpr AiplLayout Lib.RuledState Lib.GuardedRuns

section Runtime

def vInt (n : Int) : Int := 2 * n + 1

/-- `v_int_of`: of an integer, of a truth value, and 0 of anything else. -/
def vIntOf (w : Int) : Int :=
  if w % 2 = 1 then w / 2 else if w / 2 ^ 62 % 2 = 1 then w / 2 % 2 else 0

/-- What a message runs: the body of a method, or a case with the rest of the method
of its select, or nothing. -/
inductive Action where
  | body (mi : Nat)
  | case (sp : Sel) (case : Case)
  | lost
  deriving DecidableEq

inductive Event where
  | selected (i : Nat) (sp : Sel)
  | delivered (i mid : Nat) (a : Action)
  | expired (i : Nat) (sp : Sel)
  deriving DecidableEq

/-- `g_obj`, the ids of `cc_actor_new`, and what happened, the last first. -/
structure State where
  mem : Nat → Int
  known : List Nat
  log : List Event

inductive Op where
  | spawn (i ci : Nat) (inits : Nat → Int)
  | assign (i j : Nat) (v : Int)
  | select (i : Nat) (sp : Sel)
  | deliver (i mid : Nat)
  | expire (i : Nat) (sp : Sel)

variable (width : Nat)

def cell (i a : Nat) : Nat := i * (width + 1) + a

def classOf (mem : Nat → Int) (i : Nat) : Option Nat := (mem (cell width i 0)).toNat?

variable (decl : List AiplStructure.Class) (t : St)

/-- `g_obj[i].f[SELFIELD[ci]]`; without a hidden field the index is -1. -/
def hiddenCell (i ci : Nat) : Nat := cell width i ((t.selField ci).elim 0 (· + 1))

/-- The method that `dispatch` calls. -/
def methodOf (ci mid : Nat) : Option Nat :=
  t.cls[ci]?.bind fun c => c.methods.findIdx? fun m => (methIdIn t.mname m.name).1 = mid

def ordinary (ci mid : Nat) : Action := (methodOf t ci mid).elim .lost .body

/-- The select that a method with this number tests for, when it is pending. -/
def taken (mem : Nat → Int) (i ci mid : Nat) : Option (Sel × Case) :=
  (selIntercept t.sel ci mid).filter fun x => vIntOf (mem (hiddenCell width t i ci)) = x.1.sid

/-- `g_spawn` of a new object: the class and the declared fields. -/
def spawned (mem : Nat → Int) (i ci : Nat) (inits : Nat → Int) (a : Nat) : Int :=
  if a = cell width i 0 then ci
  else if cell width i 1 ≤ a ∧ a - cell width i 1 < (decl[ci]?.elim 0 fun c => c.fields.length) then
    inits (a - cell width i 1)
  else mem a

def deliver (s : State) (i ci mid : Nat) : State :=
  match methodOf t ci mid, taken width t s.mem i ci mid with
  | some _, some (sp, case) =>
    { s with
      mem := Function.update s.mem (hiddenCell width t i ci) (vInt 0)
      log := .delivered i mid (.case sp case) :: s.log }
  | _, _ => { s with log := .delivered i mid (ordinary t ci mid) :: s.log }

def step (s : State) : Op → Option State
  | .spawn i ci inits =>
    if i ∉ s.known ∧ ci < decl.length then
      some { s with mem := spawned width decl s.mem i ci inits, known := i :: s.known }
    else none
  | .assign i j v =>
    if i ∈ s.known ∧ ∃ c ∈ (classOf width s.mem i).bind (t.cls[·]?), j < c.fields.length then
      some { s with mem := Function.update s.mem (cell width i (j + 1)) v }
    else none
  | .select i sp =>
    if i ∈ s.known ∧ sp ∈ t.sel ∧ classOf width s.mem i = some sp.cls then
      some { s with
        mem := Function.update s.mem (hiddenCell width t i sp.cls) (vInt sp.sid)
        log := .selected i sp :: s.log }
    else none
  | .deliver i mid =>
    match classOf width s.mem i with
    | some ci => if i ∈ s.known then some (deliver width t s i ci mid) else none
    | none => none
  | .expire i sp =>
    if i ∈ s.known ∧ sp ∈ t.sel ∧ sp.tbody.isSome ∧ classOf width s.mem i = some sp.cls ∧
        vIntOf (s.mem (hiddenCell width t i sp.cls)) = sp.sid then
      some { s with
        mem := Function.update s.mem (hiddenCell width t i sp.cls) (vInt 0)
        log := .expired i sp :: s.log }
    else none

def start : State := ⟨fun _ => 0, [], []⟩

end Runtime

section Statement

def Closes (i : Nat) (sp : Sel) : Event → Prop
  | .delivered j _ (.case sq _) => j = i ∧ sq = sp
  | .expired j sq => j = i ∧ sq = sp
  | _ => False

/-- The object has executed the select, and no case or timeout of it has run since. -/
def Pending (i : Nat) (sp : Sel) : List Event → Prop
  | [] => False
  | e :: older => e = .selected i sp ∨ ¬ Closes i sp e ∧ Pending i sp older

def Waits (sp : Sel) (mid : Nat) : Prop := ∃ case ∈ sp.cases, case.mid = mid

variable (t : St)

def Served (sp : Sel) (mid : Nat) (a : Action) : Prop :=
  (Waits sp mid → ∃ case ∈ sp.cases, case.mid = mid ∧ a = .case sp case) ∧
    (¬ Waits sp mid → a = ordinary t sp.cls mid)

def Lowered : List Event → Prop
  | [] => True
  | .delivered i mid a :: older =>
    (∀ sp ∈ t.sel, Pending i sp older → Served t sp mid a) ∧ Lowered older
  | _ :: older => Lowered older

instance (i : Nat) (sp : Sel) : (e : Event) → Decidable (Closes i sp e)
  | .delivered j _ (.case sq _) => inferInstanceAs (Decidable (j = i ∧ sq = sp))
  | .expired j sq => inferInstanceAs (Decidable (j = i ∧ sq = sp))
  | .selected _ _ => inferInstanceAs (Decidable False)
  | .delivered _ _ (.body _) => inferInstanceAs (Decidable False)
  | .delivered _ _ .lost => inferInstanceAs (Decidable False)

instance decPending (i : Nat) (sp : Sel) : (log : List Event) → Decidable (Pending i sp log)
  | [] => inferInstanceAs (Decidable False)
  | _ :: older =>
    have := decPending i sp older
    inferInstanceAs (Decidable (_ ∨ ¬ _ ∧ _))

instance (sp : Sel) (mid : Nat) : Decidable (Waits sp mid) :=
  inferInstanceAs (Decidable (∃ case ∈ sp.cases, _))

instance (sp : Sel) (mid : Nat) (a : Action) : Decidable (Served t sp mid a) :=
  inferInstanceAs (Decidable ((Waits sp mid → ∃ case ∈ sp.cases, _ ∧ _) ∧ (_ → _ = _)))

instance decLowered : (log : List Event) → Decidable (Lowered t log)
  | [] => inferInstanceAs (Decidable True)
  | .delivered _ _ _ :: older =>
    have := decLowered older
    inferInstanceAs (Decidable ((∀ sp ∈ t.sel, _ → _) ∧ _))
  | .selected _ _ :: older => decLowered older
  | .expired _ _ :: older => decLowered older

variable (width : Nat)

def Fits (ci : Nat) : Prop := ∃ k ∈ t.selField ci, k < width

/-- The program leaves the hidden field alone, the hidden fields in use are inside the
array, no object has two selects pending, and a message that a pending select waits for
has a method whose test is for this select. -/
def Careful (s : State) : Op → Prop
  | .spawn _ _ _ => True
  | .assign i j _ => ∀ ci ∈ classOf width s.mem i, t.selField ci ≠ some j
  | .select i sp => Fits t width sp.cls ∧ ∀ sq ∈ t.sel, Pending i sq s.log → sq = sp
  | .deliver i mid =>
    (∀ ci ∈ classOf width s.mem i, (selIntercept t.sel ci mid).isSome → Fits t width ci) ∧
      ∀ sp ∈ t.sel, Pending i sp s.log → Waits sp mid →
        (methodOf t sp.cls mid).isSome ∧ (selIntercept t.sel sp.cls mid).map Prod.fst = some sp
  | .expire _ sp => Fits t width sp.cls

instance (ci : Nat) : Decidable (Fits t width ci) :=
  inferInstanceAs (Decidable (∃ k ∈ t.selField ci, _))

instance (s : State) (op : Op) : Decidable (Careful t width s op) := by
  cases op <;> unfold Careful <;> infer_instance

end Statement

section Cells

theorem vIntOf_vInt (n : Int) : vIntOf (vInt n) = n := by
  unfold vIntOf vInt
  rw [if_pos (by omega)]
  omega

variable {width : Nat}

variable {i i' a ci : Nat} {mem inits : Nat → Int}

theorem cell_inj {a' : Nat} (inside : a ≤ width) (inside' : a' ≤ width)
    (same : cell width i a = cell width i' a') : i = i' ∧ a = a' := by
  unfold cell at same
  have place : ∀ j b, b ≤ width → (j * (width + 1) + b) / (width + 1) = j := by
    intro j b below
    rw [Nat.mul_comm, Nat.mul_add_div (Nat.succ_pos width),
      Nat.div_eq_of_lt (Nat.lt_succ_of_le below), Nat.add_zero]
  have first : i = i' := by
    rw [← place i a inside, same, place i' a' inside']
  subst first
  exact ⟨rfl, Nat.add_left_cancel same⟩

theorem update_cell {a' : Nat} {v : Int} (inside : a ≤ width)
    (inside' : a' ≤ width) (other : i' = i → a' ≠ a) :
    Function.update mem (cell width i a) v (cell width i' a') = mem (cell width i' a') := by
  refine Function.update_of_ne (fun same => ?_) _ _
  obtain ⟨object, field⟩ := cell_inj inside' inside same
  exact other object field

variable {decl : List AiplStructure.Class}

theorem spawned_other
    (narrow : ∀ c ∈ decl, c.fields.length ≤ width) (inside : a ≤ width) (other : i' ≠ i) :
    spawned width decl mem i ci inits (cell width i' a) = mem (cell width i' a) := by
  have count : (decl[ci]?.elim 0 fun c => c.fields.length) ≤ width := by
    cases is : decl[ci]? with
    | none => exact Nat.zero_le _
    | some c => exact narrow c (List.mem_of_getElem? is)
  unfold spawned
  rw [if_neg, if_neg]
  · rintro ⟨above, below⟩
    obtain ⟨j, place⟩ := Nat.exists_eq_add_of_le above
    have at' : cell width i' a = cell width i (j + 1) := by
      rw [place]
      unfold cell
      omega
    refine other (cell_inj inside ?_ at').1
    rw [place, Nat.add_sub_cancel_left] at below
    omega
  · exact fun same => other (cell_inj inside (Nat.zero_le _) same).1

theorem spawned_class :
    spawned width decl mem i ci inits (cell width i 0) = ci := if_pos rfl

theorem spawned_behind (behind : (decl[ci]?.elim 0 fun c => c.fields.length) ≤ a) :
    spawned width decl mem i ci inits (cell width i (a + 1)) = mem (cell width i (a + 1)) := by
  unfold spawned
  rw [if_neg, if_neg]
  · rintro ⟨_, below⟩
    unfold cell at below
    omega
  · unfold cell
    omega

end Cells

section Invariant

variable {i j : Nat} {sq : Sel} {log : List Event}

theorem pending_selected {sp : Sel} :
    Pending j sq (.selected i sp :: log) ↔ i = j ∧ sp = sq ∨ Pending j sq log := by
  change Event.selected i sp = .selected j sq ∨ _ ∧ Pending j sq log ↔ _
  rw [Event.selected.injEq]
  exact or_congr_right (and_iff_right id)

theorem pending_closed {sp : Sel} {e : Event}
    (closes : ∀ j sq, Closes j sq e ↔ i = j ∧ sp = sq) (never : ∀ j sq, e ≠ .selected j sq) :
    Pending j sq (e :: log) ↔ ¬ (i = j ∧ sp = sq) ∧ Pending j sq log := by
  conv_lhs => unfold Pending
  rw [closes j sq, or_iff_right (never j sq)]

theorem pending_ordinary {t : St} {ci mid : Nat} :
    Pending j sq (.delivered i mid (ordinary t ci mid) :: log) ↔ Pending j sq log := by
  have open' : ¬ Closes j sq (.delivered i mid (ordinary t ci mid)) := by
    unfold ordinary
    cases methodOf t ci mid with
    | none => exact id
    | some mi => exact id
  conv_lhs => unfold Pending
  rw [or_iff_right Event.noConfusion, and_iff_right open']

variable (width : Nat) (decl : List AiplStructure.Class) (t : St)

structure Sound : Prop where
  placed : Placed t
  narrow : ∀ c ∈ decl, c.fields.length ≤ width
  classes : ∀ ci, t.selField ci = none ∧ t.cls[ci]? = decl[ci]? ∨
    ∃ c, decl[ci]? = some c ∧ t.selField ci = some c.fields.length ∧ t.cls[ci]? = some (hide c)

/-- The hidden field of an object names the select that is pending, and what is behind
the known objects is as at the start. -/
structure Inv (s : State) : Prop where
  fresh : ∀ i ∉ s.known, ∀ a ≤ width, s.mem (cell width i a) = 0
  owned : ∀ i, ∀ sp ∈ t.sel, Pending i sp s.log →
    i ∈ s.known ∧ classOf width s.mem i = some sp.cls ∧ Fits t width sp.cls
  held : ∀ i ∈ s.known, ∀ sp ∈ t.sel, classOf width s.mem i = some sp.cls →
    ∀ k ∈ t.selField sp.cls, k < width →
      (vIntOf (s.mem (cell width i (k + 1))) = sp.sid ↔ Pending i sp s.log)
  lowered : Lowered t s.log

variable {width decl t} {s s' : State}

section

variable (sound : Sound width decl t)

include sound

theorem Sound.sid_pos {sp : Sel} (listed : sp ∈ t.sel) :
    (0 : Int) ≠ sp.sid := by
  obtain ⟨n, here⟩ := List.mem_iff_getElem?.mp listed
  rw [sound.placed n sp here]
  omega

theorem Sound.sid_inj {sp sq : Sel} (first : sp ∈ t.sel) (second : sq ∈ t.sel) :
    (sp.sid : Int) = sq.sid ↔ sp = sq :=
  ⟨fun same => sound.placed.unique first second (Int.ofNat.inj same), fun same => same ▸ rfl⟩

theorem Sound.hidden_behind {ci k : Nat} (field : t.selField ci = some k) :
    (decl[ci]?.elim 0 fun c => c.fields.length) ≤ k := by
  rcases sound.classes ci with ⟨none, _⟩ | ⟨c, is, here, _⟩
  · rw [none] at field
    cases field
  · rw [is]
    exact Nat.le_of_eq (Option.some.inj (here.symm.trans field))

theorem Sound.field_inside {ci j : Nat} {c : AiplStructure.Class} (is : t.cls[ci]? = some c)
    (inside : j < c.fields.length) (other : t.selField ci ≠ some j) :
    j < width := by
  rcases sound.classes ci with ⟨_, same⟩ | ⟨d, was, here, hidden⟩
  · exact Nat.lt_of_lt_of_le inside (sound.narrow c (List.mem_of_getElem? (same.symm.trans is)))
  · obtain rfl := Option.some.inj (hidden.symm.trans is)
    have below := sound.narrow d (List.mem_of_getElem? was)
    rw [here, ne_eq, Option.some_inj] at other
    rw [hide, List.length_append, List.length_singleton] at inside
    omega

end

theorem hiddenCell_some {ci k : Nat} (field : t.selField ci = some k) :
    hiddenCell width t i ci = cell width i (k + 1) := by
  rw [hiddenCell, field]
  rfl

theorem start_inv : Inv width t start :=
  ⟨fun _ _ _ _ => rfl, fun _ _ _ pending => pending.elim,
    fun _ known => (List.not_mem_nil known).elim, trivial⟩

theorem classOf_update {mem : Nat → Int} {k : Nat} {v : Int} (inside : k < width) :
    classOf width (Function.update mem (cell width i (k + 1)) v) j = classOf width mem j := by
  unfold classOf
  rw [update_cell inside (Nat.zero_le _) fun _ => (Nat.succ_ne_zero k).symm]

/-- The hidden field of an object gets another value. -/
theorem Inv.marked (inv : Inv width t s) {i ci k : Nat} {v : Int} {log : List Event}
    (known : i ∈ s.known) (is : classOf width s.mem i = some ci) (field : t.selField ci = some k)
    (inside : k < width) (others : ∀ j sp, i ≠ j → (Pending j sp log ↔ Pending j sp s.log))
    (own : ∀ sp ∈ t.sel, Pending i sp log → sp.cls = ci)
    (here : ∀ sp ∈ t.sel, sp.cls = ci → (vIntOf v = sp.sid ↔ Pending i sp log))
    (lowered : Lowered t log) :
    Inv width t { s with
      mem := Function.update s.mem (hiddenCell width t i ci) v
      log := log } := by
  rw [hiddenCell_some field]
  refine ⟨fun j unknown a below => ?_, fun j sp listed pending => ?_,
    fun j known' sp listed is' k' field' inside' => ?_, lowered⟩
  · have other : j ≠ i := fun same => unknown (same ▸ known)
    exact (update_cell inside below fun same => absurd same other).trans
      (inv.fresh j unknown a below)
  · change _ ∧ classOf width (Function.update _ _ _) j = _ ∧ _
    rw [classOf_update inside]
    by_cases same : i = j
    · subst same
      obtain rfl := own sp listed pending
      exact ⟨known, is, k, field, inside⟩
    · exact inv.owned j sp listed ((others j sp same).mp pending)
  · change classOf width (Function.update _ _ _) j = _ at is'
    change vIntOf (Function.update s.mem _ v _) = _ ↔ _
    rw [classOf_update inside] at is'
    by_cases same : i = j
    · subst same
      obtain rfl := Option.some.inj (is.symm.trans is')
      obtain rfl := Option.some.inj (field.symm.trans field')
      rw [Function.update_self]
      exact here sp listed rfl
    · rw [update_cell inside inside' fun equal => absurd equal.symm same, others j sp same]
      exact inv.held j known' sp listed is' k' field' inside'

theorem Inv.heard (inv : Inv width t s) {log : List Event}
    (same : ∀ j sp, Pending j sp log ↔ Pending j sp s.log) (lowered : Lowered t log) :
    Inv width t { s with log := log } := by
  refine ⟨inv.fresh, fun j sp listed pending => ?_, fun j known sp listed is k field inside => ?_,
    lowered⟩
  · exact inv.owned j sp listed ((same j sp).mp pending)
  · exact (inv.held j known sp listed is k field inside).trans (same j sp).symm

theorem Inv.assigned (inv : Inv width t s) {i ci j : Nat} {v : Int} (known : i ∈ s.known)
    (is : classOf width s.mem i = some ci) (inside : j < width) (other : t.selField ci ≠ some j) :
    Inv width t { s with mem := Function.update s.mem (cell width i (j + 1)) v } := by
  refine ⟨fun i' unknown a below => ?_, fun i' sp listed pending => ?_,
    fun i' known' sp listed is' k field inside' => ?_, inv.lowered⟩
  · have differs : i' ≠ i := fun same => unknown (same ▸ known)
    exact (update_cell inside below fun same => absurd same differs).trans
      (inv.fresh i' unknown a below)
  · change _ ∧ classOf width (Function.update _ _ _) i' = _ ∧ _
    rw [classOf_update inside]
    exact inv.owned i' sp listed pending
  · change classOf width (Function.update _ _ _) i' = _ at is'
    change vIntOf (Function.update s.mem _ v _) = _ ↔ _
    rw [classOf_update inside] at is'
    rw [update_cell inside inside']
    · exact inv.held i' known' sp listed is' k field inside'
    · rintro rfl equal
      obtain rfl := Option.some.inj (is.symm.trans is')
      rw [Nat.succ.inj equal] at field
      exact other field

theorem Inv.spawned (sound : Sound width decl t) (inv : Inv width t s) {i ci : Nat}
    {inits : Nat → Int} (unknown : i ∉ s.known) :
    Inv width t
      { s with mem := spawned width decl s.mem i ci inits, known := i :: s.known } := by
  have kept : ∀ j, j ≠ i → classOf width (SelectRuns.spawned width decl s.mem i ci inits) j =
      classOf width s.mem j := by
    intro j other
    unfold classOf
    rw [spawned_other sound.narrow (Nat.zero_le _) other]
  have silent : ∀ sp ∈ t.sel, ¬ Pending i sp s.log :=
    fun sp listed pending => unknown (inv.owned i sp listed pending).1
  refine ⟨fun j unknown' a below => ?_, fun j sp listed pending => ?_,
    fun j known sp listed is k field inside => ?_, inv.lowered⟩
  · obtain ⟨other, rest⟩ := not_or.mp (mt List.mem_cons.mpr unknown')
    exact (spawned_other sound.narrow below other).trans (inv.fresh j rest a below)
  · obtain ⟨known, is, fits⟩ := inv.owned j sp listed pending
    have other : j ≠ i := fun same => unknown (same ▸ known)
    exact ⟨List.mem_cons_of_mem _ known, (kept j other).trans is, fits⟩
  · by_cases same : j = i
    · subst same
      have number : ci = sp.cls := by
        unfold classOf at is
        change (SelectRuns.spawned width decl s.mem j ci inits (cell width j 0)).toNat? = _ at is
        rw [spawned_class] at is
        exact Option.some.inj is
      subst number
      change vIntOf (SelectRuns.spawned width decl s.mem j sp.cls inits _) = _ ↔ _
      rw [spawned_behind (sound.hidden_behind field), inv.fresh j unknown _ inside]
      exact iff_of_false (sound.sid_pos listed) (silent sp listed)
    · change classOf width (SelectRuns.spawned width decl s.mem i ci inits) j = _ at is
      change vIntOf (SelectRuns.spawned width decl s.mem i ci inits _) = _ ↔ _
      rw [kept j same] at is
      rw [spawned_other sound.narrow inside same]
      have known := (List.mem_cons.mp known).resolve_left same
      exact inv.held j known sp listed is k field inside

end Invariant

section Steps

variable {width : Nat} {decl : List AiplStructure.Class} {t : St} {s s' : State} {sp : Sel}

theorem selIntercept_mem {sel : List Sel} {ci mid : Nat} {case : Case}
    (found : selIntercept sel ci mid = some (sp, case)) :
    sp ∈ sel ∧ sp.cls = ci ∧ case ∈ sp.cases ∧ case.mid = mid := by
  obtain ⟨sq, listed, here⟩ := List.exists_of_findSome?_eq_some found
  split_ifs at here with cls
  obtain ⟨c, is, equal⟩ := Option.map_eq_some_iff.mp here
  obtain ⟨rfl, rfl⟩ := Prod.mk.inj equal
  have number := List.find?_some is
  rw [decide_eq_true_iff] at number
  exact ⟨listed, cls, List.mem_of_find?_eq_some is, number⟩

section

variable (inv : Inv width t s) {i : Nat}

include inv

theorem Inv.taken_some {i ci mid : Nat} {case : Case} (known : i ∈ s.known)
    (is : classOf width s.mem i = some ci)
    (fits : (selIntercept t.sel ci mid).isSome → Fits t width ci)
    (found : taken width t s.mem i ci mid = some (sp, case)) :
    sp ∈ t.sel ∧ sp.cls = ci ∧ case ∈ sp.cases ∧ case.mid = mid ∧ Pending i sp s.log := by
  obtain ⟨first, test⟩ := Option.filter_eq_some_iff.mp found
  obtain ⟨listed, rfl, member, number⟩ := selIntercept_mem first
  obtain ⟨k, field, inside⟩ := fits (Option.isSome_of_eq_some first)
  rw [decide_eq_true_iff, hiddenCell_some field] at test
  exact ⟨listed, rfl, member, number, (inv.held i known sp listed is k field inside).mp test⟩

theorem Inv.taken_of_pending {i mid : Nat} {case : Case} (listed : sp ∈ t.sel)
    (pending : Pending i sp s.log) (first : selIntercept t.sel sp.cls mid = some (sp, case)) :
    taken width t s.mem i sp.cls mid = some (sp, case) := by
  obtain ⟨known, is, k, field, inside⟩ := inv.owned i sp listed pending
  refine Option.filter_eq_some_iff.mpr ⟨first, ?_⟩
  rw [decide_eq_true_iff, hiddenCell_some field]
  exact (inv.held i known sp listed is k field inside).mpr pending

variable (sound : Sound width decl t)

include sound

theorem Inv.single {sp sq : Sel} (first : sp ∈ t.sel) (second : sq ∈ t.sel)
    (here : Pending i sp s.log) (there : Pending i sq s.log) : sp = sq := by
  obtain ⟨known, is, k, field, inside⟩ := inv.owned i sp first here
  obtain ⟨-, is', -⟩ := inv.owned i sq second there
  have cls : sp.cls = sq.cls := Option.some.inj (is.symm.trans is')
  have left := (inv.held i known sp first is k field inside).mpr here
  have right := (inv.held i known sq second is' k (cls ▸ field) inside).mpr there
  exact (sound.sid_inj first second).mp (left.symm.trans right)

theorem Inv.selected (known : i ∈ s.known) (listed : sp ∈ t.sel)
    (is : classOf width s.mem i = some sp.cls) (fits : Fits t width sp.cls)
    (alone : ∀ sq ∈ t.sel, Pending i sq s.log → sq = sp) :
    Inv width t { s with
      mem := Function.update s.mem (hiddenCell width t i sp.cls) (vInt sp.sid)
      log := .selected i sp :: s.log } := by
  obtain ⟨k, field, inside⟩ := fits
  refine inv.marked known is field inside (fun j sq other => ?_) (fun sq listed' pending => ?_)
    (fun sq listed' cls => ?_) inv.lowered
  · rw [pending_selected]
    exact or_iff_right fun same => other same.1
  · rcases pending_selected.mp pending with ⟨-, rfl⟩ | before
    · rfl
    · rw [alone sq listed' before]
  · rw [vIntOf_vInt, sound.sid_inj listed listed', pending_selected]
    refine ⟨fun same => .inl ⟨rfl, same⟩, ?_⟩
    rintro (⟨-, same⟩ | before)
    · exact same
    · exact (alone sq listed' before).symm

theorem Inv.closed {e : Event} (listed : sp ∈ t.sel) (pending : Pending i sp s.log)
    (closes : ∀ j sq, Closes j sq e ↔ i = j ∧ sp = sq) (never : ∀ j sq, e ≠ .selected j sq)
    (lowered : Lowered t (e :: s.log)) :
    Inv width t { s with
      mem := Function.update s.mem (hiddenCell width t i sp.cls) (vInt 0)
      log := e :: s.log } := by
  obtain ⟨known, is, k, field, inside⟩ := inv.owned i sp listed pending
  have none' : ∀ sq ∈ t.sel, ¬ Pending i sq (e :: s.log) := by
    intro sq listed' later
    obtain ⟨other, before⟩ := (pending_closed closes never).mp later
    exact other ⟨rfl, inv.single sound listed listed' pending before⟩
  refine inv.marked known is field inside (fun j sq other => ?_)
    (fun sq listed' later => absurd later (none' sq listed')) (fun sq listed' cls => ?_) lowered
  · rw [pending_closed closes never]
    exact and_iff_right fun same => other same.1
  · rw [vIntOf_vInt]
    exact iff_of_false (sound.sid_pos listed') (none' sq listed')

theorem Inv.delivered {i ci mid : Nat} (known : i ∈ s.known) (is : classOf width s.mem i = some ci)
    (careful : Careful t width s (.deliver i mid)) :
    Inv width t (deliver width t s i ci mid) := by
  obtain ⟨fits, first⟩ := careful
  have fits' := fits ci is
  unfold deliver
  split
  · next mi sp case method found =>
    obtain ⟨listed, rfl, member, number, pending⟩ := inv.taken_some known is fits' found
    refine inv.closed sound listed pending (fun j sq => Iff.rfl) (fun j sq => Event.noConfusion)
      ⟨fun sq listed' pending' => ?_, inv.lowered⟩
    obtain rfl := inv.single sound listed listed' pending pending'
    exact ⟨fun _ => ⟨case, member, number, rfl⟩, fun never => absurd ⟨case, member, number⟩ never⟩
  · next missed =>
    refine inv.heard (fun j sq => pending_ordinary) ⟨fun sp listed pending => ?_, inv.lowered⟩
    obtain ⟨-, is', -⟩ := inv.owned i sp listed pending
    obtain rfl := Option.some.inj (is'.symm.trans is)
    refine ⟨fun waits => ?_, fun _ => rfl⟩
    obtain ⟨method, intercept⟩ := first sp listed pending waits
    obtain ⟨mi, method⟩ := Option.isSome_iff_exists.mp method
    obtain ⟨⟨sq, case⟩, found, same⟩ := Option.map_eq_some_iff.mp intercept
    obtain rfl : sq = sp := same
    exact absurd (inv.taken_of_pending listed pending found) (missed mi sq case method)

theorem Inv.expired (known : i ∈ s.known) (listed : sp ∈ t.sel)
    (is : classOf width s.mem i = some sp.cls)
    (marked : vIntOf (s.mem (hiddenCell width t i sp.cls)) = sp.sid) (fits : Fits t width sp.cls) :
    Inv width t { s with
      mem := Function.update s.mem (hiddenCell width t i sp.cls) (vInt 0)
      log := .expired i sp :: s.log } := by
  obtain ⟨k, field, inside⟩ := fits
  rw [hiddenCell_some field] at marked
  have pending := (inv.held i known sp listed is k field inside).mp marked
  exact inv.closed sound listed pending (fun j sq => Iff.rfl) (fun j sq => Event.noConfusion)
    inv.lowered

theorem step_inv {op : Op} (careful : Careful t width s op)
    (goes : step width decl t s op = some s') :
    Inv width t s' := by
  unfold step at goes
  cases op with
  | spawn i ci inits =>
    obtain ⟨⟨unknown, -⟩, equal⟩ := Option.ite_none_right_eq_some.mp goes
    obtain rfl := Option.some.inj equal
    exact inv.spawned sound unknown
  | assign i j v =>
    obtain ⟨⟨known, c, found, inside⟩, equal⟩ := Option.ite_none_right_eq_some.mp goes
    obtain rfl := Option.some.inj equal
    obtain ⟨ci, is, here⟩ := Option.bind_eq_some_iff.mp found
    have other := careful ci is
    exact inv.assigned known is (sound.field_inside here inside other) other
  | select i sp =>
    obtain ⟨⟨known, listed, is⟩, equal⟩ := Option.ite_none_right_eq_some.mp goes
    obtain rfl := Option.some.inj equal
    exact inv.selected sound known listed is careful.1 careful.2
  | deliver i mid =>
    simp only at goes
    split at goes
    · next ci is =>
      obtain ⟨known, equal⟩ := Option.ite_none_right_eq_some.mp goes
      obtain rfl := Option.some.inj equal
      exact inv.delivered sound known is careful
    · cases goes
  | expire i sp =>
    obtain ⟨⟨known, listed, -, is, marked⟩, equal⟩ := Option.ite_none_right_eq_some.mp goes
    obtain rfl := Option.some.inj equal
    exact inv.expired sound known listed is marked careful

end

theorem run_inv (sound : Sound width decl t)
    (run : Runs (step width decl t) (Careful t width) start s) : Inv width t s :=
  run.invariant start_inv fun _ _ _ inv careful goes => step_inv inv sound careful goes

end Steps

section Code

def hiddenPiece (s : St) (ci : Nat) : Piece := (s.selField ci).elim (.num (-1)) .index

/-- The test of the hidden field, its reset, and the variable of the case. -/
def testCode (s : St) (ci : Nat) (m : Method) (sp : Sel) (case : Case) : List Piece :=
  [.str "  if (v_int_of(g_obj[self].f[", hiddenPiece s ci, .str "]) == ", .num sp.sid,
    .str ") \x7b\n    g_obj[self].f[", hiddenPiece s ci, .str "] = v_int(0);\n"] ++
  match m.params with
  | first :: _ =>
    if case.var ≠ [] ∧ case.var ≠ first then [.str "    int v_", .name case.var, .str " = a0;\n"]
    else []
  | [] => []

variable (rounds : Nat)

/-- What is written between the variables and the body of a method is the code that
`deliver` stands for. -/
def Tests (t : St) (ci mi : Nat) (m : Method) : Prop :=
  ∀ u, Emitted t u → match selIntercept t.sel ci (methIdIn t.mname m.name).1 with
    | some (sp, case) => ∃ v, v.out = u.out ++ testCode t ci m sp case ∧
        ((emitPending rounds ci mi m).run u).2.out =
          ((emitDetached rounds case.body sp.rest).run v).2.out ++
            [.str "    return v_int(0);\n  \x7d\n"]
    | none => ((emitPending rounds ci mi m).run u).2.out = u.out

variable {rounds} {s : St}

theorem opSelField_run (ci : Nat) :
    (opSelField ci).run s = ((), { s with out := s.out ++ [hiddenPiece s ci] }) := by
  unfold opSelField hiddenPiece
  cases is : s.selField ci with
  | none => simp only [Prog.change, is, Option.elim_none]
  | some k => simp only [Prog.change, is, Option.elim_some]

theorem opS_run (x : String) : (opS x).run s = ((), { s with out := s.out ++ [.str x] }) := rfl

theorem opN_run (n : Int) : (opN n).run s = ((), { s with out := s.out ++ [.num n] }) := rfl

theorem opName_run (x : Text) : (opName x).run s = ((), { s with out := s.out ++ [.name x] }) := rfl

theorem addLocal_out (x : Text) : ((addLocal x).run s).2.out = s.out := rfl

theorem methIdAgain_out (name : Text) : ((methIdAgain name).run s).2.out = s.out := by
  unfold methIdAgain
  simp only [Prog.act]
  split_ifs
  · rfl
  · rfl

theorem emitIntercept_out (rounds : Nat) (s : St) (ci : Nat) (m : Method) (sp : Sel) (case : Case) :
    ∃ v, v.out = s.out ++ testCode s ci m sp case ∧
      ((emitIntercept rounds ci m sp case).run s).2.out =
        ((emitDetached rounds case.body sp.rest).run v).2.out ++
          [.str "    return v_int(0);\n  \x7d\n"] := by
  obtain ⟨name, params, body⟩ := m
  unfold emitIntercept
  cases params with
  | nil =>
    simp only [Prog.run_bind, opSelField_run, opS_run, opN_run]
    refine ⟨_, ?_, rfl⟩
    simp only [testCode, List.append_assoc, List.cons_append, List.nil_append]
    rfl
  | cons first rest =>
    by_cases named : case.var ≠ [] ∧ case.var ≠ first
    · simp only [if_pos named, Prog.run_bind, opSelField_run, opS_run, opN_run, opName_run]
      refine ⟨_, ?_, rfl⟩
      rw [addLocal_out]
      simp only [testCode, if_pos named, List.append_assoc, List.cons_append, List.nil_append]
      rfl
    · simp only [if_neg named, Prog.run_bind, opSelField_run, opS_run, opN_run]
      refine ⟨_, ?_, rfl⟩
      simp only [testCode, if_neg named, List.append_assoc, List.cons_append, List.nil_append]
      rfl

theorem scanned_tests {src : Text} {ci mi : Nat} {c : AiplStructure.Class} {m : Method}
    (is : (scanned rounds src).cls[ci]? = some c) (listed : m ∈ c.methods) :
    Tests rounds (scanned rounds src) ci mi m := by
  intro u after
  have again := (methIdAgain m.name).keeps u
  have out := methIdAgain_out (s := u) m.name
  have choice : selIntercept ((methIdAgain m.name).run u).2.sel ci ((methIdAgain m.name).run u).1 =
      selIntercept (scanned rounds src).sel ci (methIdIn (scanned rounds src).mname m.name).1 := by
    rw [again.sel, after.sel, ← methId_stable after is listed]
    rfl
  have fields : hiddenPiece ((methIdAgain m.name).run u).2 ci =
      hiddenPiece (scanned rounds src) ci := by
    rw [hiddenPiece, again.selField, after.selField]
    rfl
  split
  · next sp case found =>
    obtain ⟨v, begins, goes⟩ :=
      emitIntercept_out rounds ((methIdAgain m.name).run u).2 ci m sp case
    refine ⟨v, ?_, ?_⟩
    · rw [begins, out, testCode, fields]
      rfl
    · rw [emitPending, Prog.run_bind, Prog.run_bind, Prog.run_gets, choice, found]
      exact goes
  · next none =>
    rw [emitPending, Prog.run_bind, Prog.run_bind, Prog.run_gets, choice, none]
    exact out

end Code

section Selects

variable {rounds width : Nat} {src : Text}

theorem scanned_sound {out : List Piece} (accepted : abcl2c rounds src = some out)
    (length : arrayLength out = some width) :
    Sound width (parsed rounds src).2.cls (scanned rounds src) := by
  rw [abcl2c_out accepted, finished_length] at length
  obtain rfl := Option.some.inj length
  refine ⟨scanned_placed rounds src, (parsed_declared rounds src).width, fun ci => ?_⟩
  rcases scanned_class rounds src ci with same | ⟨c, was, field, hidden, -⟩
  · exact .inl same
  · exact .inr ⟨c, was, field, hidden⟩

/-- In every run of careful steps of an accepted program a message that a pending select
waits for runs its case of the select, any other message runs its ordinary body, and the
methods begin with the tests that decide this. -/
theorem select_lowered {out : List Piece} {s : State} (accepted : abcl2c rounds src = some out)
    (length : arrayLength out = some width)
    (run : Runs (step width (parsed rounds src).2.cls (scanned rounds src))
      (Careful (scanned rounds src) width) start s) :
    Lowered (scanned rounds src) s.log ∧
      ∀ ci mi c m, (scanned rounds src).cls[ci]? = some c → m ∈ c.methods →
        Tests rounds (scanned rounds src) ci mi m := by
  have sound := scanned_sound accepted length
  constructor
  · exact (run_inv sound run).lowered
  · intro ci mi c m is listed
    exact @scanned_tests rounds src ci mi c m is listed

def waitTwice : Text :=
  "class W\x7bvar x;var y;\x7dclass A\x7b".toList ++
    "method g()\x7bselect\x7bcase m(k)\x7b\x7d\x7d\x7d".toList ++
    "method h()\x7bselect\x7bcase m(k)\x7b\x7d\x7d\x7d".toList ++
    "method m(k)\x7b\x7d\x7d".toList

/-- An object of class `A` executes a select and gets the message. -/
def serve (n : Nat) : List Op :=
  (scanned 30 waitTwice).sel[n]?.elim [] fun sp =>
    [.spawn 0 1 fun _ => 0, .select 0 sp, .deliver 0 2]

theorem select_lowered_first : ∃ s : State,
    (∃ sp ∈ (scanned 30 waitTwice).sel, ∃ case ∈ sp.cases,
      s.log = [.delivered 0 2 (.case sp case), .selected 0 sp]) ∧
    Lowered (scanned 30 waitTwice) s.log := by
  have accepted : (abcl2c 30 waitTwice).isSome := by decide +kernel
  obtain ⟨out, is⟩ := Option.isSome_iff_exists.mp accepted
  have length : (abcl2c 30 waitTwice).bind arrayLength = some 2 := by decide +kernel
  have goes : ((serve 0).foldlM (fun s op =>
      if decide (Careful (scanned 30 waitTwice) 2 s op) then
        step 2 (parsed 30 waitTwice).2.cls (scanned 30 waitTwice) s op
      else none) start).map (fun s => decide (∃ sp ∈ (scanned 30 waitTwice).sel,
        ∃ case ∈ sp.cases, s.log = [.delivered 0 2 (.case sp case), .selected 0 sp])) =
      some true := by
    decide +kernel
  rw [is] at length
  obtain ⟨s, runs, log⟩ := Option.map_eq_some_iff.mp goes
  have run := Runs.of_checked _ (fun _ _ meets => of_decide_eq_true meets) _ runs
  exact ⟨s, of_decide_eq_true log, (select_lowered is length run).1⟩

/-- The message that the second select waits for runs its ordinary body. -/
theorem second_select_missed : ∃ out s, abcl2c 30 waitTwice = some out ∧
    Runs (step 2 (parsed 30 waitTwice).2.cls (scanned 30 waitTwice)) (fun _ _ => True) start s ∧
      arrayLength out = some 2 ∧ ¬ Lowered (scanned 30 waitTwice) s.log := by
  have accepted : (abcl2c 30 waitTwice).isSome := by decide +kernel
  obtain ⟨out, is⟩ := Option.isSome_iff_exists.mp accepted
  have length : (abcl2c 30 waitTwice).bind arrayLength = some 2 := by decide +kernel
  have goes : ((serve 1).foldlM
      (step 2 (parsed 30 waitTwice).2.cls (scanned 30 waitTwice)) start).map
        (fun s => decide (Lowered (scanned 30 waitTwice) s.log)) = some false := by
    decide +kernel
  rw [is] at length
  obtain ⟨s, runs, missed⟩ := Option.map_eq_some_iff.mp goes
  exact ⟨out, s, is, Runs.of_steps _ (fun _ _ _ => trivial) runs, length,
    of_decide_eq_false missed⟩

end Selects

end XinuRpi5.Cc.SelectRuns
