/- source: none (library)
   digest: Programs over a state that holds a log of events, and what they add to it. -/

import Mathlib.Data.List.Basic

/-!
A property of logs that holds of the empty log and of two logs in a row is kept by every
program that is put together from parts that keep it.
-/

namespace XinuRpi5.Lib.EventLog

/-- A property of logs that holds of the empty log and of two logs in a row. -/
structure Closed {E : Type} (Q : List E → Prop) : Prop where
  nil : Q []
  append : ∀ {L M : List E}, Q L → Q M → Q (L ++ M)

section Adds

variable {S E α β : Type} (log : S → List E) (Q : List E → Prop)

/-- From every state the program adds a piece with the property to the log. -/
def Adds (m : StateM S α) : Prop :=
  ∀ s, ∃ L, log (m s).2 = log s ++ L ∧ Q L

variable {log Q}

theorem Adds.of_same (closed : Closed Q) {m : StateM S α} (same : ∀ s, log (m s).2 = log s) :
    Adds log Q m := by
  intro s
  exact ⟨[], by rw [same, List.append_nil], closed.nil⟩

theorem Adds.pure (closed : Closed Q) (a : α) : Adds log Q (Pure.pure a : StateM S α) :=
  Adds.of_same closed (fun _ => rfl)

theorem Adds.bind (closed : Closed Q) {m : StateM S α} {k : α → StateM S β}
    (first : Adds log Q m) (later : ∀ a, Adds log Q (k a)) : Adds log Q (m >>= k) := by
  intro s
  obtain ⟨L, here, fits⟩ := first s
  obtain ⟨M, there, rest⟩ := later (m s).1 (m s).2
  refine ⟨L ++ M, ?_, closed.append fits rest⟩
  show log (k (m s).1 (m s).2).2 = log s ++ (L ++ M)
  rw [there, here, List.append_assoc]

theorem Adds.ite {c : Prop} [Decidable c] {m n : StateM S α} (yes : Adds log Q m)
    (no : Adds log Q n) : Adds log Q (if c then m else n) := by
  split
  · exact yes
  · exact no

end Adds

end XinuRpi5.Lib.EventLog
