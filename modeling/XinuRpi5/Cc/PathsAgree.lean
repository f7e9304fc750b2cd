/- source: cc/cc.c
   digest: Exactly when the three ways to run a source text show the same. -/

import XinuRpi5.Cc.RunPaths
import XinuRpi5.Cc.RunsIndependent

namespace XinuRpi5.Cc.PathsAgree

open SelectRuns (vInt)
open Cc.Runtime RunProbes RunsIndependent RunPaths
open Lib.LittleEndian

section Outcomes

/-- What a way of running leaves: `none` when the budget is too small, `some none` when the text
does not compile, and else the runtime, the output and the value. -/
abbrev Outcome := Option (Option (State × List UInt8 × Int))

variable (cpu : Cpu) (compiler : Compiler) (setting : Setting) (fuel : Nat) (src : List UInt8)
  (outcap : Nat) (b : Board)

/-- `cc_run_source` -/
def bySource : Outcome :=
  (ccRunSource cpu compiler setting fuel src b).map fun y =>
    y.2.toOption.map fun shown => (y.1.m.st, shown)

/-- `cc_compile` followed by `cc_exec_compiled` -/
def byCompile : Outcome :=
  if (ccCompile compiler src b).2 then
    (ccExecCompiled cpu setting fuel (ccCompile compiler src b).1).map fun y => some (y.1.m.st, y.2)
  else some none

/-- `cc_compile_blob` followed by `cc_run_blob` -/
def byBlob : Outcome :=
  match (ccCompileBlob compiler src outcap b).2 with
  | .error _ => some none
  | .ok blob =>
    (ccRunBlob cpu setting fuel blob (ccCompileBlob compiler src outcap b).1).map fun y =>
      y.2.map fun shown => (y.1.m.st, shown)

def Fits : Prop :=
  ∀ image, compiler src = .ok image → 24 + image.code.length + image.arena.length ≤ outcap

def Undisturbed (s : State) : Prop :=
  s.aborted = false ∧ ∀ cap, s.room = some cap → s.out.length + 1 < cap

/-- The three ways fail alike, come to an end alike, and show the same. -/
structure Agree : Prop where
  ends : (bySource cpu compiler setting fuel src b = none ↔
      byCompile cpu compiler setting fuel src b = none) ∧
    (byCompile cpu compiler setting fuel src b = none ↔
      byBlob cpu compiler setting fuel src outcap b = none)
  fails : (bySource cpu compiler setting fuel src b = some none ↔
      byCompile cpu compiler setting fuel src b = some none) ∧
    (byCompile cpu compiler setting fuel src b = some none ↔
      byBlob cpu compiler setting fuel src outcap b = some none)
  shows : ∀ y z w, bySource cpu compiler setting fuel src b = some (some y) →
    byCompile cpu compiler setting fuel src b = some (some z) →
    byBlob cpu compiler setting fuel src outcap b = some (some w) →
    Undisturbed y.1 → Undisturbed z.1 → Undisturbed w.1 →
    y.2 = z.2 ∧ z.2 = w.2

def Held (s : State) : Prop := ∃ r ∈ s.res, 0 < r.depth

/-- No future is in use, no route is published and no resource is held. -/
structure Clean : Prop where
  fut : ∀ i, (b.m.st.fut i).used = false
  web : b.m.st.web = []
  res : ¬ Held b.m.st

/-- The program gives back what it takes: where nothing is held before the run, nothing is held
when the report is due. -/
def Released : Prop :=
  ¬ Held b.m.st → ∀ y z, bySource cpu compiler setting fuel src b = some (some y) →
    byCompile cpu compiler setting fuel src b = some (some z) → Undisturbed y.1 →
    ¬ Held z.1

end Outcomes

section Loading

variable {cpu : Cpu} {compiler : Compiler} {setting : Setting} {fuel : Nat} {src : List UInt8}
  {outcap : Nat} {b : Board} {image : Image} {e : String}

def programOf (cpu : Cpu) (image : Image) : Blob where
  entry := cpu.main image.code image.arena image.entry
  apply := image.apply.map (cpu.apply image.code image.arena)
  dispatch := image.dispatch.map (cpu.dispatch image.code image.arena)

/-- `main` and `cc_pump` from the start of a run. -/
def ran (setting : Setting) (blob : Blob) (fuel : Nat) (m : Machine) : Option (Machine × Int) :=
  (exec setting.env blob fuel (.prog blob.entry) { m with st := start m.st setting }).bind
    fun y => (exec setting.env blob fuel .pump y.1).map fun z => (z.1, y.2)

def cleared (m : Machine) : Machine := { m with st := futureReset (webReset m.st) }

theorem compile_ok (compiles : compiler src = .ok image) (b : Board) :
    b.compile compiler src = ({ b with
      codebuf := image.code
      arenabuf := image.arena
      errbuf := ""
      funcs := (image.apply, image.dispatch) }, some image.entry) := by
  unfold Board.compile
  rw [compiles]

section

variable (fails : compiler src = .error e)

include fails

theorem compile_error (b : Board) :
    b.compile compiler src = ({ b with errbuf := e }, none) := by
  unfold Board.compile
  rw [fails]

theorem bySource_error :
    bySource cpu compiler setting fuel src b = some none := by
  unfold bySource ccRunSource compileRunCore
  simp only [compile_error fails]
  rfl

theorem byCompile_error :
    byCompile cpu compiler setting fuel src b = some none := by
  unfold byCompile ccCompile
  simp only [compile_error fails]
  rfl

theorem byBlob_error :
    byBlob cpu compiler setting fuel src outcap b = some none := by
  unfold byBlob ccCompileBlob
  simp only [compile_error fails]

end

theorem run_eq_ran {b : Board} {entry : Nat} {blob : Blob} {m : Machine}
    (program : b.program cpu entry = blob) (machine : b.m = { m with st := start m.st setting }) :
    b.run cpu setting fuel entry =
      (ran setting blob fuel m).map fun z => ({ b with m := z.1 }, z.2) := by
  unfold Board.run ran
  rw [program, machine, Option.map_bind]
  refine congrArg _ (funext fun y => ?_)
  rw [Function.comp_apply, Option.map_map]
  rfl

theorem bySource_ok (compiles : compiler src = .ok image) :
    bySource cpu compiler setting fuel src b =
      (ran setting (programOf cpu image) fuel (cleared b.m)).map fun z =>
        some (finish (resReport z.1.st), (finish (resReport z.1.st)).out, z.2) := by
  unfold bySource ccRunSource compileRunCore
  simp only [compile_ok compiles]
  rw [@run_eq_ran cpu setting fuel _ image.entry (programOf cpu image) (cleared b.m) rfl rfl,
    Option.map_map, Option.map_map, Option.map_map]
  rfl

theorem byCompile_ok (compiles : compiler src = .ok image) :
    byCompile cpu compiler setting fuel src b =
      (ran setting (programOf cpu image) fuel (cleared b.m)).map fun z =>
        some (z.1.st, z.1.st.out, z.2) := by
  unfold byCompile ccCompile ccExecCompiled
  simp only [compile_ok compiles]
  rw [if_pos trivial, @run_eq_ran cpu setting fuel _ image.entry (programOf cpu image)
    (cleared b.m) rfl rfl, Option.map_map, Option.map_map]
  rfl

theorem offsetOf_offsetWord {offset : Option Nat} (inside : ∀ a ∈ offset, a ≤ codeCap) :
    offsetOf (offsetWord offset) = offset := by
  cases offset with
  | none => rfl
  | some a =>
    have small : a ≤ 262144 := inside a rfl
    exact if_neg (by change ¬ a = 0xffffffff; omega)

theorem offsetWord_lt {offset : Option Nat} (inside : ∀ a ∈ offset, a ≤ codeCap) :
    offsetWord offset < 256 ^ 4 := by
  cases offset with
  | none => decide
  | some a =>
    have small : a ≤ 262144 := inside a rfl
    change a < 256 ^ 4
    omega

def blobOf (image : Image) : List UInt8 :=
  xjxHdr image.entry image.apply image.dispatch image.code.length image.arena.length ++
    (image.code ++ image.arena)

theorem blobOf_length (image : Image) :
    (blobOf image).length = 24 + (image.code.length + image.arena.length) := by
  unfold blobOf xjxHdr
  rw [List.length_append, length_fields, List.length_append]
  rfl

theorem blobOf_field (image : Image) (i v : Nat)
    (there : [xjxMagic, image.entry, offsetWord image.apply, offsetWord image.dispatch,
      image.code.length, image.arena.length][i]? = some v) : field 4 (blobOf image) i = v := by
  have code := image.codeFits
  have arena := image.arenaFits
  have entry := image.entryInside
  have apply := offsetWord_lt image.applyInside
  have dispatch := offsetWord_lt image.dispatchInside
  unfold codeCap at code entry
  unfold arenaCap at arena
  refine field_fields _ _ i v there ?_
  rcases List.mem_cons.mp (List.mem_of_getElem? there) with rfl | listed
  · decide
  simp only [List.mem_cons, List.not_mem_nil, or_false] at listed
  rcases listed with rfl | rfl | rfl | rfl | rfl <;> omega

theorem blobOf_drop (image : Image) : (blobOf image).drop 24 = image.code ++ image.arena :=
  drop_fields 4 [xjxMagic, image.entry, offsetWord image.apply, offsetWord image.dispatch,
    image.code.length, image.arena.length] _

/-- The blob that `cc_compile_blob` writes is loaded as the image that was compiled. -/
theorem byBlob_ok (compiles : compiler src = .ok image) (fits : Fits compiler src outcap) :
    byBlob cpu compiler setting fuel src outcap b =
      (ran setting (programOf cpu image) fuel b.m).map fun z =>
        some (finish z.1.st, (finish z.1.st).out, z.2) := by
  have written : ccCompileBlob compiler src outcap b = ({ b with
      codebuf := image.code
      arenabuf := image.arena
      errbuf := ""
      funcs := (image.apply, image.dispatch)
      gDispatch := none }, .ok (blobOf image)) := by
    unfold ccCompileBlob
    simp only [compile_ok compiles]
    rw [if_neg (not_lt.mpr (fits image compiles)), List.append_assoc]
    rfl
  have magic := blobOf_field image 0 _ rfl
  have entry := blobOf_field image 1 _ rfl
  have apply := blobOf_field image 2 _ rfl
  have dispatch := blobOf_field image 3 _ rfl
  have codelen := blobOf_field image 4 _ rfl
  have arenalen := blobOf_field image 5 _ rfl
  have length := blobOf_length image
  unfold byBlob
  rw [written]
  simp only [RunPaths.ccRunBlob, magic, entry, apply, dispatch, codelen, arenalen, length,
    blobOf_drop]
  rw [if_neg (by simp), if_neg (not_or.mpr ⟨not_lt.mpr image.codeFits, not_lt.mpr image.arenaFits⟩),
    if_neg (by omega), List.take_left, List.drop_left, List.take_length,
    offsetOf_offsetWord image.applyInside, offsetOf_offsetWord image.dispatchInside,
    @run_eq_ran cpu setting fuel _ image.entry (programOf cpu image) b.m rfl rfl,
    Option.map_map, Option.map_map]
  rfl

end Loading

/-- What writing a text does to the output: it grows, up to the end of the buffer. -/
theorem emit_out (s : State) (text : List UInt8) :
    (emit s text).room = s.room ∧ (emit s text).aborted = s.aborted ∧
      (text = [] → (emit s text).out = s.out) ∧ s.out.length ≤ (emit s text).out.length ∧
      (text ≠ [] → (∀ cap, s.room = some cap → (emit s text).out.length + 1 < cap) →
        s.out.length < (emit s text).out.length) := by
  unfold emit
  cases room : s.room with
  | none =>
    refine ⟨rfl, rfl, fun empty => ?_, ?_, fun some _ => ?_⟩
    · rw [empty]
      exact List.append_nil _
    · change s.out.length ≤ (s.out ++ text).length
      rw [List.length_append]
      exact Nat.le_add_right _ _
    · change s.out.length < (s.out ++ text).length
      rw [List.length_append]
      exact Nat.lt_add_of_pos_right (List.length_pos_iff.mpr some)
  | some cap =>
    have length : ((s.out ++ text).take (max s.out.length (cap - 1))).length =
        min (max s.out.length (cap - 1)) (s.out.length + text.length) := by
      rw [List.length_take, List.length_append]
    refine ⟨rfl, rfl, fun empty => ?_, ?_, fun some within => ?_⟩
    · change (s.out ++ text).take (max s.out.length (cap - 1)) = s.out
      rw [empty, List.append_nil]
      exact List.take_of_length_le (le_max_left _ _)
    · change s.out.length ≤ ((s.out ++ text).take (max s.out.length (cap - 1))).length
      omega
    · have room := within cap rfl
      change ((s.out ++ text).take (max s.out.length (cap - 1))).length + 1 < cap at room
      change s.out.length < ((s.out ++ text).take (max s.out.length (cap - 1))).length
      have more := List.length_pos_iff.mpr some
      omega

theorem heldNote_ne (name : List UInt8) : heldNote name ≠ [] := by
  have front : utf8 "\ncc: resource " ≠ [] := by
    unfold utf8
    decide +kernel
  intro empty
  exact front (List.append_eq_nil_iff.mp (List.append_eq_nil_iff.mp empty).1).1

theorem report_out (res : List Res) : ∀ s : State,
    let t := res.foldl (fun s r => if 0 < r.depth then emit s (heldNote r.name) else s) s
    t.room = s.room ∧ t.aborted = s.aborted ∧ s.out.length ≤ t.out.length ∧
      ((∀ r ∈ res, ¬ 0 < r.depth) → t.out = s.out) ∧
      ((∃ r ∈ res, 0 < r.depth) → (∀ cap, s.room = some cap → t.out.length + 1 < cap) →
        s.out.length < t.out.length) := by
  induction res with
  | nil =>
    intro s
    exact ⟨rfl, rfl, le_rfl, fun _ => rfl, fun ⟨_, listed, _⟩ => absurd listed List.not_mem_nil⟩
  | cons r res ih =>
    intro s
    rw [List.foldl_cons]
    by_cases held : 0 < r.depth
    · rw [if_pos held]
      obtain ⟨room, aborted, -, grows, more⟩ := emit_out s (heldNote r.name)
      obtain ⟨room', aborted', grows', -, -⟩ := ih (emit s (heldNote r.name))
      refine ⟨room'.trans room, aborted'.trans aborted, grows.trans grows',
        fun none => absurd held (none r List.mem_cons_self), fun _ within => ?_⟩
      refine lt_of_lt_of_le (more (heldNote_ne _) fun cap is => ?_) grows'
      exact lt_of_le_of_lt (Nat.succ_le_succ grows') (within cap is)
    · rw [if_neg held]
      obtain ⟨room, aborted, grows, none, some⟩ := ih s
      refine ⟨room, aborted, grows, fun free => none fun q listed =>
        free q (List.mem_cons_of_mem _ listed), fun ⟨q, listed, taken⟩ => some ⟨q, ?_, taken⟩⟩
      rcases List.mem_cons.mp listed with rfl | later
      · exact absurd taken held
      · exact later

theorem resReport_out {s : State} (undisturbed : Undisturbed (resReport s)) :
    (resReport s).out = s.out ↔ ¬ Held s := by
  obtain ⟨room, -, -, none, some⟩ := report_out s.res s
  constructor
  · intro same held
    have longer := some held fun cap is => undisturbed.2 cap (room.trans is)
    exact absurd (congrArg List.length same) (ne_of_gt longer)
  · intro free
    exact none fun r listed held => free ⟨r, listed, held⟩

theorem finish_of_running {s : State} (running : s.aborted = false) : finish s = s := by
  unfold finish
  rw [running]
  rfl

theorem Undisturbed.before {s : State} (undisturbed : Undisturbed (resReport s)) :
    Undisturbed s := by
  obtain ⟨room, aborted, grows, -, -⟩ := report_out s.res s
  refine ⟨aborted.symm.trans undisturbed.1, fun cap is => ?_⟩
  exact lt_of_le_of_lt (Nat.succ_le_succ grows) (undisturbed.2 cap (room.trans is))

theorem aborted_of_finish {s : State} (running : (finish s).aborted = false) :
    s.aborted = false := by
  unfold finish at running
  split_ifs at running with late
  · exact (emit_out s _).2.1.symm.trans running
  · exact running

section Agreement

variable {cpu : Cpu} {compiler : Compiler} {setting : Setting} {fuel : Nat} {src : List UInt8}
  {outcap : Nat} {b : Board}

theorem Clean.cleared (clean : Clean b) : cleared b.m = b.m := by
  have fut : (fun i => { b.m.st.fut i with used := false }) = b.m.st.fut := by
    funext i
    rw [← clean.fut i]
  unfold PathsAgree.cleared futureReset webReset
  dsimp only
  rw [fut, ← clean.web]

theorem agree_silent {r : Outcome}
    (one : bySource cpu compiler setting fuel src b = r)
    (two : byCompile cpu compiler setting fuel src b = r)
    (three : byBlob cpu compiler setting fuel src outcap b = r) (silent : ∀ y, r ≠ some (some y)) :
    Agree cpu compiler setting fuel src outcap b ↔ Released cpu compiler setting fuel src b := by
  refine iff_of_true ⟨?_, ?_, ?_⟩ ?_
  · rw [one, two, three]
    exact ⟨Iff.rfl, Iff.rfl⟩
  · rw [one, two, three]
    exact ⟨Iff.rfl, Iff.rfl⟩
  · intro y z w shown
    exact absurd (one.symm.trans shown) (silent y)
  · intro _ y z shown
    exact absurd (one.symm.trans shown) (silent y)

/-- What a run of a compiled text leaves, when the three ways start alike. -/
theorem Clean.agree_iff (clean : Clean b) (fits : Fits compiler src outcap) :
    Agree cpu compiler setting fuel src outcap b ↔ Released cpu compiler setting fuel src b := by
  cases compiles : compiler src with
  | error e =>
    have one := @bySource_error cpu compiler setting fuel src b e compiles
    have two := @byCompile_error cpu compiler setting fuel src b e compiles
    have three := @byBlob_error cpu compiler setting fuel src outcap b e compiles
    exact agree_silent one two three fun _ same => by cases same
  | ok image =>
    have one := @bySource_ok cpu compiler setting fuel src b image compiles
    have two := @byCompile_ok cpu compiler setting fuel src b image compiles
    have three := @byBlob_ok cpu compiler setting fuel src outcap b image compiles fits
    rw [clean.cleared] at one two
    cases ends : ran setting (programOf cpu image) fuel b.m with
    | none =>
      rw [ends] at one two three
      exact agree_silent one two three fun _ same => by cases same
    | some z =>
      rw [ends, Option.map_some] at one two three
      have reported := @resReport_out z.1.st
      constructor
      · intro agree _ y z' is is' undisturbed
        rw [one] at is
        rw [two] at is'
        obtain rfl := Option.some.inj (Option.some.inj is)
        obtain rfl := Option.some.inj (Option.some.inj is')
        have running := aborted_of_finish undisturbed.1
        dsimp only at undisturbed
        rw [finish_of_running running] at undisturbed
        have before := undisturbed.before
        have shows := agree.shows _ _ _ one two three
        rw [finish_of_running running, finish_of_running before.1] at shows
        obtain ⟨same, -⟩ := shows undisturbed before before
        exact (reported undisturbed).mp (Prod.mk.inj same).1
      · intro released
        refine ⟨?_, ?_, ?_⟩
        · rw [one, two, three]
          simp
        · rw [one, two, three]
          simp
        · intro y z' w is is' is'' undisturbed before _
          have free := released clean.res y z' is is' undisturbed
          rw [one] at is
          rw [two] at is'
          rw [three] at is''
          obtain rfl := Option.some.inj (Option.some.inj is)
          obtain rfl := Option.some.inj (Option.some.inj is')
          obtain rfl := Option.some.inj (Option.some.inj is'')
          have running := aborted_of_finish undisturbed.1
          dsimp only at undisturbed before free ⊢
          rw [finish_of_running running] at undisturbed ⊢
          rw [finish_of_running before.1, (reported undisturbed).mpr free]
          exact ⟨rfl, rfl⟩

end Agreement

section Probing

variable {b : Board}

/-- Whatever a text compiles to, the three ways agree on it if it gives back what it takes. -/
def AlwaysAgree (b : Board) : Prop :=
  ∀ cpu compiler setting fuel src outcap, Fits compiler src outcap →
    Released cpu compiler setting fuel src b → Agree cpu compiler setting fuel src outcap b

def blank : Image where
  code := []
  arena := []
  entry := 0
  apply := none
  dispatch := none
  codeFits := Nat.zero_le _
  arenaFits := Nat.zero_le _
  entryInside := Nat.zero_le _
  applyInside := nofun
  dispatchInside := nofun

def cpuOf (p : Prog) : Cpu := ⟨fun _ _ _ => p, fun _ _ _ _ _ => p, fun _ _ _ _ _ _ _ _ _ => p⟩

theorem ran_probe {p : Prog} {n : Nat} {m : Machine} {y : Machine × Int}
    (does : exec probe.env ⟨p, none, none⟩ (n + 1) (.prog p) ⟨start m.st probe, m.slots⟩ = some y)
    (calm : Calm (start m.st probe) y.1.st) :
    ran probe (programOf (cpuOf p) blank) (n + 1) m = some y := by
  change ((exec probe.env ⟨p, none, none⟩ (n + 1) (.prog p) ⟨start m.st probe, m.slots⟩).bind
    fun y => (exec probe.env ⟨p, none, none⟩ (n + 1) .pump y.1).map fun z => (z.1, y.2)) = _
  rw [does, Option.bind_some, exec, calm.mq]
  rfl

theorem Calm.undisturbed {m : Machine} {y : State} (calm : Calm (start m.st probe) y) :
    Undisturbed y :=
  ⟨calm.aborted, fun cap is => by rw [calm.room] at is; cases is⟩

/-- The program that publishes `k` routes and one more, and tells whether that one was new. -/
def publishing (n k : Nat) : List Cmd :=
  List.replicate k (.prim (.webExpose (long n) (vInt 0))) ++
    [.prim (.webExpose (long n) (vInt 0))]

theorem exec_publishing {n : Nat} (large : 40 ≤ n) (k : Nat) {s : State} (x : Slots)
    (longer : ∀ r ∈ s.web, r.path.length < n) :
    ∃ y, exec probe.env ⟨script (publishing n k) 0, none, none⟩ (k + 1 + 1)
      (.prog (script (publishing n k) 0)) ⟨s, x⟩ = some y ∧ Calm s y.1.st ∧
      y.2 = if 8 ≤ s.web.length + k then vInt 0 else vInt 1 := by
  obtain ⟨_, does⟩ := acts_prims (.webExpose (long n) (vInt 0))
    [.prim (.webExpose (long n) (vInt 0))] k ⟨s, x⟩ 0
  obtain ⟨t, is, paths, calm, length⟩ := webExpose_iter large k s longer
  have published : (publishing n k).length = k + 1 := by
    unfold publishing
    rw [List.length_append, List.length_replicate]
    rfl
  have run := @exec_script ⟨script (publishing n k) 0, none, none⟩ (publishing n k) ⟨s, x⟩ 0 0 _
    does
  rw [published, Nat.zero_add] at run
  refine ⟨_, run, ?_⟩
  change Calm s
    (webExpose ((fun s => (webExpose s (long n) (vInt 0)).1)^[k] s) (long n) (vInt 0)).1 ∧
    (webExpose ((fun s => (webExpose s (long n) (vInt 0)).1)^[k] s) (long n) (vInt 0)).2 = _
  rw [is, webExpose_long t paths]
  by_cases full : 8 ≤ t.web.length
  · rw [if_pos full, if_pos (by omega)]
    exact ⟨calm, rfl⟩
  · rw [if_neg full, if_neg (by omega)]
    exact ⟨⟨calm.mq, calm.res, calm.room, calm.aborted⟩, rfl⟩

variable (always : AlwaysAgree b)

include always

/-- A program that neither sends nor locks shows the same with and without the resets. -/
theorem probed {p : Prog} {n : Nat} {y z : Machine × Int}
    (fresh : exec probe.env ⟨p, none, none⟩ (n + 1) (.prog p)
      ⟨start (cleared b.m).st probe, b.m.slots⟩ = some y)
    (mine : exec probe.env ⟨p, none, none⟩ (n + 1) (.prog p) ⟨start b.m.st probe, b.m.slots⟩ =
      some z)
    (calm : Calm (start (cleared b.m).st probe) y.1.st) (calm' : Calm (start b.m.st probe) z.1.st) :
    ¬ Held y.1.st ∧ y.2 = z.2 := by
  have fits : Fits (fun _ => .ok blank) [] 24 := by
    intro image is
    obtain rfl := Except.ok.inj is
    exact le_rfl
  have one := @bySource_ok (cpuOf p) (fun _ => .ok blank) probe (n + 1) [] b blank rfl
  have two := @byCompile_ok (cpuOf p) (fun _ => .ok blank) probe (n + 1) [] b blank rfl
  have three := @byBlob_ok (cpuOf p) (fun _ => .ok blank) probe (n + 1) [] 24 b blank rfl fits
  rw [show ran probe _ (n + 1) (cleared b.m) = some y from ran_probe fresh calm,
    Option.map_some] at one two
  rw [ran_probe mine calm', Option.map_some] at three
  have released : Released (cpuOf p) (fun _ => .ok blank) probe (n + 1) [] b := by
    rintro free _ z' - is - ⟨r, listed, held⟩
    rw [two] at is
    obtain rfl := Option.some.inj (Option.some.inj is)
    exact free ⟨r, calm.res ▸ listed, held⟩
  have quiet := Calm.undisturbed calm
  have quiet' := Calm.undisturbed calm'
  have reported : Undisturbed (resReport y.1.st) := by
    obtain ⟨room, aborted, -, -, -⟩ := report_out y.1.st.res y.1.st
    refine ⟨aborted.trans quiet.1, fun cap is => ?_⟩
    cases (room.trans calm.room).symm.trans is
  have shows := (always _ _ _ _ _ _ fits released).shows _ _ _ one two three
  rw [finish_of_running reported.1, finish_of_running quiet'.1] at shows
  obtain ⟨first, second⟩ := shows reported quiet quiet'
  exact ⟨(resReport_out reported).mp (Prod.mk.inj first).1, (Prod.mk.inj second).2⟩

theorem AlwaysAgree.free : ¬ Held b.m.st := by
  have probed := @probed b always (.ret 0) 0 _ _ rfl rfl ⟨rfl, rfl, rfl, rfl⟩ ⟨rfl, rfl, rfl, rfl⟩
  exact probed.1

theorem AlwaysAgree.unused (i : Fin 8) :
    (b.m.st.fut i).used = false := by
  -- by induction on the number, as a future takes the first free place
  induction i using WellFoundedLT.induction with
  | ind i ih =>
    obtain ⟨z, mine, calm', value'⟩ := @exec_counting (start b.m.st probe) b.m.slots i ih
    obtain ⟨y, fresh, calm, value⟩ := @exec_counting (start (cleared b.m).st probe) b.m.slots i
      fun _ _ => rfl
    have same := (@probed b always (counting i).entry (2 + i + 1) y z fresh mine calm calm').2
    exact value'.mp (same.symm.trans (value.mpr rfl))

theorem AlwaysAgree.unpublished : b.m.st.web = [] := by
  obtain ⟨n, large, longer⟩ := exists_longer b.m.st.web Route.path 40
  by_contra used
  have size : 0 < b.m.st.web.length := List.length_pos_iff.mpr used
  -- seven routes fill the table but for the place that an earlier run has taken
  obtain ⟨y, fresh, calm, first⟩ := @exec_publishing n large 7 (start (cleared b.m).st probe)
    b.m.slots fun r listed => absurd listed List.not_mem_nil
  obtain ⟨z, mine, calm', second⟩ := @exec_publishing n large 7 (start b.m.st probe) b.m.slots
    longer
  have same := (@probed b always (script (publishing n 7) 0) 8 y z fresh mine calm calm').2
  have room : y.2 = vInt 1 := first.trans (if_neg (by change ¬ 8 ≤ 0 + 7; decide))
  have full : z.2 = vInt 0 := second.trans (if_pos (by change 8 ≤ b.m.st.web.length + 7; omega))
  rw [room, full] at same
  dsimp only [vInt] at same
  omega

theorem AlwaysAgree.clean : Clean b :=
  ⟨always.unused, always.unpublished, always.free⟩

end Probing

/-- On a board the three ways agree on all programs that give back what they take exactly if
no future is in use, no route is published and no resource is held; and there they agree on a
program exactly if it gives back what it takes. -/
theorem paths_agree_iff (b : Board) :
    ((∀ cpu compiler setting fuel src outcap, Fits compiler src outcap →
        Released cpu compiler setting fuel src b →
        Agree cpu compiler setting fuel src outcap b) ↔ Clean b) ∧
      (Clean b → ∀ cpu compiler setting fuel src outcap, Fits compiler src outcap →
        (Agree cpu compiler setting fuel src outcap b ↔
          Released cpu compiler setting fuel src b)) := by
  refine ⟨⟨AlwaysAgree.clean, fun clean => ?_⟩, fun clean => ?_⟩
  · intro cpu compiler setting fuel src outcap fits released
    exact (clean.agree_iff fits).mpr released
  · intro cpu compiler setting fuel src outcap fits
    exact clean.agree_iff fits

theorem initial_clean : Clean Board.initial := by
  refine ⟨fun _ => rfl, rfl, ?_⟩
  rintro ⟨r, listed, -⟩
  cases listed

private def taking : Prog := .prim (.acquire [97]) fun _ => .ret 0

/-- `cc_run_source` reports the resource, and `cc_exec_compiled` does not. -/
theorem held_unreported : ¬ ∀ cpu compiler setting fuel src outcap, Fits compiler src outcap →
    Agree cpu compiler setting fuel src outcap Board.initial := by
  intro all
  have fits : Fits (fun _ => .ok blank) [] 24 := by
    intro image is
    obtain rfl := Except.ok.inj is
    exact le_rfl
  have agree := all (cpuOf taking) (fun _ => .ok blank) probe 2 [] 24 fits
  have released := (initial_clean.agree_iff fits).mp agree initial_clean.res
  have run : ran probe (programOf (cpuOf taking) blank) 2 (cleared boot) =
      some (⟨acquire (start (cleared boot).st probe) [97], boot.slots⟩, 0) := rfl
  have one := @bySource_ok (cpuOf taking) (fun _ => .ok blank) probe 2 [] Board.initial blank rfl
  have two := @byCompile_ok (cpuOf taking) (fun _ => .ok blank) probe 2 [] Board.initial blank rfl
  change _ = Option.map _ (ran probe (programOf (cpuOf taking) blank) 2 (cleared boot)) at one two
  rw [run, Option.map_some] at one two
  refine released _ _ one two ⟨?_, ?_⟩ ⟨⟨[97], 1⟩, List.mem_cons_self, Int.one_pos⟩
  · rfl
  · intro cap is
    cases is

end XinuRpi5.Cc.PathsAgree
