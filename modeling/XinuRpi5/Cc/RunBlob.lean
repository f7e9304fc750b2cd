/- source: cc/cc.c
   digest: When runs of cc_run_blob do not depend on the runs before them. -/

import XinuRpi5.Cc.RunsApart

namespace XinuRpi5.Cc.RunBlob

open Cc.Runtime RunsApart

/-- The tables that a run takes over are as after the start of the board. -/
structure Clean (m : Machine) : Prop where
  fut : ∀ i, m.st.fut i = ⟨false, 0⟩
  used : ∀ i, (m.slots.rslot i).used = false
  rcur : m.slots.rcur = none
  rstack : m.slots.rstack.items = []
  sstack : m.st.sstack.items = []
  sender : m.st.sender = -1
  cur : m.st.cur = -1
  res : m.st.res = []
  sel : ∀ i, m.st.sel i = 0
  web : m.st.web = []

/-- A call of `cc_run_blob`. -/
structure Job where
  setting : Setting
  blob : Blob
  fuel : Nat

def after (jobs : List Job) : Option Machine :=
  jobs.foldlM (fun m job => (ccRunBlob job.setting job.blob job.fuel m).map Prod.fst) boot

def Equivalent (m m' : Machine) : Prop :=
  ∀ setting blob fuel, observe setting blob fuel m = observe setting blob fuel m'

section Enough

variable {m m' : Machine}

theorem observe_start {s t : State} (slots : Slots) {setting : Setting} {blob : Blob} {fuel : Nat}
    (same : start s setting = start t setting) :
    observe setting blob fuel ⟨s, slots⟩ = observe setting blob fuel ⟨t, slots⟩ := by
  unfold observe ccRunBlob
  rw [same]

theorem Clean.equivalent (clean : Clean m) : Equivalent m boot := by
  intro setting blob fuel
  have slots : Alike [] boot.slots m.slots := by
    refine ⟨clean.rcur, Stack.ext clean.rstack, fun i => clean.used i, fun i seen => ?_⟩
    rcases seen with used | current | listed | wait
    · cases used
    · cases current
    · cases listed
    · cases wait
  rw [show m = ⟨m.st, m.slots⟩ from rfl, observe_alike setting fuel m.st slots]
  refine observe_start boot.slots ?_
  unfold start
  rw [show m.st.fut = boot.st.fut from funext clean.fut,
    show m.st.sstack = boot.st.sstack from Stack.ext clean.sstack, clean.sender, clean.cur,
    clean.res, show m.st.sel = boot.st.sel from funext clean.sel, clean.web]
  rfl

end Enough

end XinuRpi5.Cc.RunBlob
