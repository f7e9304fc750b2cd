/- source: cc/cc.c
   digest: Which saved programs cc_run_blob loads with all of its jumps inside the code. -/

import XinuRpi5.Cc.PathsAgree

/-!
Offsets are counted from `g_codebuf`, where the code of a blob begins. The tables of a resident
program stay as they are when a blob is loaded, and the runtime asks them while it runs.
-/

namespace XinuRpi5.Cc.BlobLoad

open Cc.Runtime hiding ccRunBlob
open RunPaths Lib.LittleEndian

/-- What `cc_run_blob` restores, and the offsets that it takes from the header. -/
structure Loaded where
  code : List UInt8
  arena : List UInt8
  entry : Nat
  apply : Option Nat
  dispatch : Option Nat

/-- The fields of `struct xjx_hdr`. -/
def entryField (blob : List UInt8) : Nat := field 4 blob 1
def applyField (blob : List UInt8) : Option Nat := offsetOf (field 4 blob 2)
def dispatchField (blob : List UInt8) : Option Nat := offsetOf (field 4 blob 3)
def codelenField (blob : List UInt8) : Nat := field 4 blob 4
def arenalenField (blob : List UInt8) : Nat := field 4 blob 5

def Accepted (blob : List UInt8) : Prop :=
  ¬ (blob.length < 24 ∨ field 4 blob 0 ≠ xjxMagic) ∧
    ¬ (codeCap < codelenField blob ∨ arenaCap < arenalenField blob) ∧
    ¬ blob.length < 24 + codelenField blob + arenalenField blob

instance (blob : List UInt8) : Decidable (Accepted blob) := inferInstanceAs (Decidable (_ ∧ _))

/-- The part of `cc_run_blob` up to the first jump. -/
def load (blob : List UInt8) : Option Loaded :=
  if Accepted blob then
    some {
      code := (blob.drop 24).take (codelenField blob)
      arena := ((blob.drop 24).drop (codelenField blob)).take (arenalenField blob)
      entry := entryField blob
      apply := applyField blob
      dispatch := dispatchField blob }
  else none

/-- The board when `main` of the blob is called. -/
def Loaded.place (l : Loaded) (setting : Setting) (b : Board) : Board :=
  let b := { b with codebuf := l.code, arenabuf := l.arena }
  let b := b.onState fun s => actorReset (lheapReset (vheapReset (setDeadline setting
    (enter setting s))))
  let b := { b with gApply := l.apply, gDispatch := l.dispatch }
  b.onState (capture setting)

/-- The tables of a resident program: `g_res_loaded`, `g_res_methodid`, `g_res_objcls` and
`g_res_clsname`. -/
structure Resident where
  loaded : Bool
  methodId : Option Nat
  objCls : Option Nat
  clsName : Option Nat

/-- The method-id table is asked only for a loaded program with a dispatcher, and the class tables
only behind it and only together. -/
def Resident.calls (r : Resident) (dispatch : Option Nat) : List Nat :=
  if r.loaded = true ∧ dispatch.isSome ∧ r.methodId.isSome then
    r.methodId.toList ++
      if r.objCls.isSome ∧ r.clsName.isSome then r.objCls.toList ++ r.clsName.toList else []
  else []

def Loaded.calls (l : Loaded) (r : Resident) : List Nat :=
  l.entry :: (l.apply.toList ++ l.dispatch.toList ++ r.calls l.dispatch)

/-- Every call goes into the restored code, and both regions fit their buffers. -/
structure Contained (l : Loaded) (r : Resident) : Prop where
  calls : ∀ a ∈ l.calls r, a < l.code.length
  codeFits : l.code.length ≤ codeCap
  arenaFits : l.arena.length ≤ arenaCap

/-- A blob is turned away with the board as it was, or all that it leads to is contained. -/
def Validated (blob : List UInt8) (r : Resident) : Prop :=
  (∀ cpu setting fuel b, ccRunBlob cpu setting fuel blob b = some (b, none)) ∨
    ∃ l, load blob = some l ∧ Contained l r

/-- The offsets of the header, and those left by a resident program, stay below the length of the
code. -/
structure InsideCode (blob : List UInt8) (r : Resident) : Prop where
  entry : entryField blob < codelenField blob
  apply : ∀ a ∈ applyField blob, a < codelenField blob
  dispatch : ∀ a ∈ dispatchField blob, a < codelenField blob
  resident : ∀ a ∈ r.calls (dispatchField blob), a < codelenField blob

section Loading

variable (cpu : Cpu) (setting : Setting) (fuel : Nat) {blob : List UInt8} {l : Loaded}

theorem ccRunBlob_rejected (rejected : ¬ Accepted blob) (b : Board) :
    ccRunBlob cpu setting fuel blob b = some (b, none) := by
  unfold ccRunBlob
  split_ifs with header sizes total
  · rfl
  · rfl
  · rfl
  · exact absurd ⟨header, sizes, total⟩ rejected

theorem ccRunBlob_accepted (accepted : Accepted blob) (b : Board) :
    ∃ l, load blob = some l ∧ ccRunBlob cpu setting fuel blob b =
      ((l.place setting b).run cpu setting fuel l.entry).map fun y =>
        (y.1.onState finish, some ((y.1.onState finish).m.st.out, y.2)) := by
  refine ⟨_, if_pos accepted, ?_⟩
  obtain ⟨header, sizes, total⟩ := accepted
  unfold codelenField arenalenField at sizes total
  unfold ccRunBlob
  rw [if_neg header, if_neg sizes, if_neg total]
  rfl

def silent : Cpu where
  main _ _ _ := .ret 0
  apply _ _ _ _ _ := .ret 0
  dispatch _ _ _ _ _ _ _ _ _ := .ret 0

def dark : Setting := ⟨⟨fun _ => 0, 0, fun _ => 0⟩, 0, false, none⟩

theorem not_rejected (accepted : Accepted blob) (b : Board) :
    ccRunBlob cpu setting fuel blob b ≠ some (b, none) := by
  obtain ⟨l, -, runs⟩ := ccRunBlob_accepted cpu setting fuel accepted b
  rw [runs]
  intro same
  obtain ⟨y, -, pair⟩ := Option.map_eq_some_iff.mp same
  cases congrArg Prod.snd pair

variable (loaded : load blob = some l)

include loaded

theorem load_lengths :
    l.code.length = codelenField blob ∧ l.arena.length = arenalenField blob := by
  unfold load at loaded
  split_ifs at loaded with accepted
  obtain rfl := Option.some.inj loaded
  obtain ⟨-, -, total⟩ := accepted
  constructor
  · change ((blob.drop 24).take (codelenField blob)).length = codelenField blob
    rw [List.length_take, List.length_drop]
    omega
  · change (((blob.drop 24).drop (codelenField blob)).take (arenalenField blob)).length =
      arenalenField blob
    rw [List.length_take, List.length_drop, List.length_drop]
    omega

theorem load_fields :
    l.entry = entryField blob ∧ l.apply = applyField blob ∧ l.dispatch = dispatchField blob := by
  unfold load at loaded
  split_ifs at loaded with accepted
  obtain rfl := Option.some.inj loaded
  exact ⟨rfl, rfl, rfl⟩

theorem load_regions :
    l.code.length ≤ codeCap ∧ l.arena.length ≤ arenaCap := by
  obtain ⟨code, arena⟩ := load_lengths loaded
  unfold load at loaded
  split_ifs at loaded with accepted
  obtain ⟨-, sizes, -⟩ := accepted
  rw [not_or, not_lt, not_lt] at sizes
  rw [code, arena]
  exact sizes

theorem contained_iff (r : Resident) :
    Contained l r ↔ InsideCode blob r := by
  obtain ⟨entry, apply, dispatch⟩ := load_fields loaded
  obtain ⟨codeFits, arenaFits⟩ := load_regions loaded
  have called : ∀ a, a ∈ l.calls r ↔ a = entryField blob ∨ a ∈ applyField blob ∨
      a ∈ dispatchField blob ∨ a ∈ r.calls (dispatchField blob) := by
    intro a
    simp only [Loaded.calls, entry, apply, dispatch, List.mem_cons, List.mem_append,
      Option.mem_toList, Option.mem_def, or_assoc]
  constructor
  · rintro ⟨calls, -, -⟩
    rw [(load_lengths loaded).1] at calls
    constructor
    · exact calls _ ((called _).mpr (Or.inl rfl))
    · exact fun a there => calls a ((called a).mpr (Or.inr (Or.inl there)))
    · exact fun a there => calls a ((called a).mpr (Or.inr (Or.inr (Or.inl there))))
    · exact fun a there => calls a ((called a).mpr (Or.inr (Or.inr (Or.inr there))))
  · intro inside
    refine ⟨fun a listed => ?_, codeFits, arenaFits⟩
    rw [(load_lengths loaded).1]
    rcases (called a).mp listed with rfl | there | there | there
    · exact inside.entry
    · exact inside.apply a there
    · exact inside.dispatch a there
    · exact inside.resident a there

end Loading

/-- `cc_run_blob` tests the lengths of a blob but none of its offsets. -/
theorem blob_validated_iff (blob : List UInt8) (r : Resident) :
    Validated blob r ↔ ¬ Accepted blob ∨ InsideCode blob r := by
  by_cases accepted : Accepted blob
  · obtain ⟨l, loaded⟩ : ∃ l, load blob = some l := ⟨_, if_pos accepted⟩
    constructor
    · rintro (rejected | ⟨l', loaded', contained⟩)
      · exact absurd (rejected silent dark 0 .initial) (not_rejected silent dark 0 accepted .initial)
      · exact Or.inr ((contained_iff loaded' r).mp contained)
    · rintro (rejected | inside)
      · exact absurd accepted rejected
      · exact Or.inr ⟨l, loaded, (contained_iff loaded r).mpr inside⟩
  · exact ⟨fun _ => Or.inl accepted, fun _ => Or.inl fun cpu setting fuel b =>
      ccRunBlob_rejected cpu setting fuel accepted b⟩

/-- A header with no code, whose entry lies one gigabyte behind the buffer. -/
theorem blob_jumps_outside :
    ¬ Validated (xjxHdr 0x40000000 none none 0 0) ⟨false, none, none, none⟩ := by
  rw [blob_validated_iff]
  rintro (rejected | inside)
  · exact rejected (by decide +kernel)
  · exact absurd inside.entry (by decide +kernel)

end XinuRpi5.Cc.BlobLoad
