/- source: none (library)
   digest: Programs that note every position they read, and programs that stay inside. -/

import Mathlib.Data.List.Basic

namespace XinuRpi5.Lib.ReadLog

structure Log (ι α : Type) where
  value : α
  reads : List ι

namespace Log

variable {ι α β : Type}

instance : Monad (Log ι) where
  pure a := ⟨a, []⟩
  bind x f := ⟨(f x.value).value, x.reads ++ (f x.value).reads⟩

def Within (P : ι → Prop) (x : Log ι α) : Prop := ∀ i ∈ x.reads, P i

@[simp] theorem value_pure (a : α) : (pure a : Log ι α).value = a := rfl

@[simp] theorem value_bind (x : Log ι α) (f : α → Log ι β) :
    (x >>= f).value = (f x.value).value := rfl

@[simp] theorem within_pure (P : ι → Prop) (a : α) : Within P (pure a : Log ι α) := by
  intro i there
  cases there

theorem within_bind {P : ι → Prop} {x : Log ι α} {f : α → Log ι β} :
    Within P (x >>= f) ↔ Within P x ∧ Within P (f x.value) := by
  constructor
  · intro inside
    exact ⟨fun i there => inside i (List.mem_append_left _ there),
      fun i there => inside i (List.mem_append_right _ there)⟩
  · rintro ⟨first, later⟩ i there
    rcases List.mem_append.mp there with there | there
    · exact first i there
    · exact later i there

theorem within_bind_of {P : ι → Prop} {x : Log ι α} {f : α → Log ι β} (first : Within P x) :
    Within P (x >>= f) ↔ Within P (f x.value) := by
  rw [within_bind]
  exact and_iff_right first

end Log

end XinuRpi5.Lib.ReadLog
