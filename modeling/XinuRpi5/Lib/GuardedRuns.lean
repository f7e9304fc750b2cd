/- source: none (library)
   digest: Runs of a partial step function whose every step meets a condition. -/

import Mathlib.Logic.Relation

namespace XinuRpi5.Lib.GuardedRuns

variable {σ ω : Type*}

/-- One operation that meets the condition in the state it starts from. -/
def Next (step : σ → ω → Option σ) (ok : σ → ω → Prop) (s s' : σ) : Prop :=
  ∃ op, ok s op ∧ step s op = some s'

/-- `t` is reached from `s` by a finite sequence of such operations. -/
def Runs (step : σ → ω → Option σ) (ok : σ → ω → Prop) : σ → σ → Prop :=
  Relation.ReflTransGen (Next step ok)

variable {step : σ → ω → Option σ} {ok : σ → ω → Prop}

theorem Runs.refl (s : σ) : Runs step ok s s := Relation.ReflTransGen.refl

variable {t : σ} {I : σ → Prop}

theorem Runs.trans {s u : σ} (first : Runs step ok s t) (later : Runs step ok t u) :
    Runs step ok s u := Relation.ReflTransGen.trans first later

theorem Runs.snoc {s t u : σ} {op : ω} (run : Runs step ok s t) (meets : ok t op)
    (next : step t op = some u) : Runs step ok s u :=
  Relation.ReflTransGen.tail run ⟨op, meets, next⟩

theorem Runs.of_checked (check : σ → ω → Bool) (sound : ∀ s op, check s op = true → ok s op)
    (ops : List ω) : ∀ {s : σ},
    ops.foldlM (fun s op => if check s op then step s op else none) s = some t →
    Runs step ok s t := by
  induction ops with
  | nil =>
    intro s stays
    obtain rfl := Option.some.inj stays
    exact Runs.refl s
  | cons op ops ih =>
    intro s goes
    obtain ⟨u, first, later⟩ := Option.bind_eq_some_iff.mp goes
    simp only at first
    by_cases passes : check s op = true
    · rw [if_pos passes] at first
      exact Relation.ReflTransGen.head ⟨op, sound s op passes, first⟩ (ih later)
    · rw [if_neg passes] at first
      exact absurd first.symm (Option.some_ne_none u)

theorem Runs.of_steps (ops : List ω) (meets : ∀ s, ∀ op ∈ ops, ok s op) : ∀ {s : σ},
    ops.foldlM step s = some t → Runs step ok s t := by
  induction ops with
  | nil =>
    intro s stays
    obtain rfl := Option.some.inj stays
    exact Runs.refl s
  | cons op ops ih =>
    intro s goes
    obtain ⟨u, first, later⟩ := Option.bind_eq_some_iff.mp goes
    exact Relation.ReflTransGen.head ⟨op, meets s op List.mem_cons_self, first⟩
      (ih (fun s op' listed => meets s op' (List.mem_cons_of_mem _ listed)) later)

theorem Runs.invariant {s : σ} (run : Runs step ok s t) (base : I s)
    (keep : ∀ s op s', I s → ok s op → step s op = some s' → I s') : I t := by
  induction run with
  | refl => exact base
  | tail _ next ih =>
    obtain ⟨op, meets, equal⟩ := next
    exact keep _ op _ ih meets equal

theorem always_iff {move : σ → ω → σ}
    (exact : ∀ s op, I s → (I (move s op) ↔ ok s op)) (ops : List ω) : ∀ {s : σ}, I s →
    ((∀ k, I ((ops.take k).foldl move s)) ↔
      ∀ k op, ops[k]? = some op → ok ((ops.take k).foldl move s) op) := by
  induction ops with
  | nil =>
    intro s base
    constructor
    · intro _ k op there
      cases there
    · intro _ k
      rwa [List.take_nil]
  | cons op ops ih =>
    intro s base
    constructor
    · intro always k op' there
      have first : I (move s op) := always 1
      cases k with
      | zero =>
        obtain rfl := Option.some.inj there
        exact (exact s op base).mp first
      | succ k => exact (ih first).mp (fun k => always (k + 1)) k op' there
    · intro meets k
      have first : I (move s op) := (exact s op base).mpr (meets 0 op rfl)
      cases k with
      | zero => exact base
      | succ k => exact (ih first).mpr (fun k op' there => meets (k + 1) op' there) k

/-- Where a property of single steps holds exactly if the step meets the condition, and such
steps keep the invariant, every step of a run has the property exactly if every step meets the
condition in the state it starts from. -/
theorem each_iff {move : σ → ω → σ} {legal good ok : σ → ω → Prop}
    (exact : ∀ s op, I s → legal s op → (good s op ↔ ok s op))
    (keep : ∀ s op, I s → legal s op → ok s op → I (move s op)) (ops : List ω) : ∀ {s : σ}, I s →
    (∀ k op, ops[k]? = some op → legal ((ops.take k).foldl move s) op) →
    ((∀ k op, ops[k]? = some op → good ((ops.take k).foldl move s) op) ↔
      ∀ k op, ops[k]? = some op → ok ((ops.take k).foldl move s) op) := by
  induction ops with
  | nil =>
    intro s base legal
    constructor <;>
      (intro _ k op there
       cases there)
  | cons op ops ih =>
    intro s base allowed
    have here : legal s op := allowed 0 op rfl
    have step := exact s op base here
    have later := fun meets => ih (keep s op base here meets) fun k op' there =>
      allowed (k + 1) op' there
    constructor
    · intro each k op' there
      have meets : ok s op := step.mp (each 0 op rfl)
      cases k with
      | zero =>
        obtain rfl := Option.some.inj there
        exact meets
      | succ k => exact (later meets).mp (fun k => each (k + 1)) k op' there
    · intro each k op' there
      have meets : ok s op := each 0 op rfl
      cases k with
      | zero =>
        obtain rfl := Option.some.inj there
        exact step.mpr meets
      | succ k => exact (later meets).mpr (fun k => each (k + 1)) k op' there

theorem each_snoc {P : List ω → ω → Prop} {ops : List ω} {op : ω} :
    (∀ k o, (ops ++ [op])[k]? = some o → P ((ops ++ [op]).take k) o) ↔
      (∀ k o, ops[k]? = some o → P (ops.take k) o) ∧ P ops op := by
  have early : ∀ k < ops.length, (ops ++ [op])[k]? = ops[k]? ∧ (ops ++ [op]).take k = ops.take k :=
    fun k inside => ⟨List.getElem?_append_left inside,
      List.take_append_of_le_length (Nat.le_of_lt inside)⟩
  have late : (ops ++ [op])[ops.length]? = some op ∧ (ops ++ [op]).take ops.length = ops :=
    ⟨List.getElem?_concat_length, List.take_left⟩
  constructor
  · intro each
    constructor
    · intro k o there
      have inside := (List.getElem?_eq_some_iff.mp there).1
      rw [← (early k inside).1] at there
      rw [← (early k inside).2]
      exact each k o there
    · have last := each ops.length op late.1
      rwa [late.2] at last
  · rintro ⟨each, last⟩ k o there
    by_cases inside : k < ops.length
    · rw [(early k inside).1] at there
      rw [(early k inside).2]
      exact each k o there
    · have length := (List.getElem?_eq_some_iff.mp there).1
      rw [List.length_append, List.length_singleton] at length
      obtain rfl : k = ops.length := by omega
      rw [late.1] at there
      rw [late.2, ← Option.some.inj there]
      exact last

end XinuRpi5.Lib.GuardedRuns
