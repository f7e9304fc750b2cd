/- source: none (library)
   digest: Stateful programs that carry the proof that every run keeps to a rule. -/

import Mathlib.Order.Defs.PartialOrder

namespace XinuRpi5.Lib.RuledState

/-- A relation between states that allows no change and changes in a row. -/
structure Rule (σ : Type) where
  rel : σ → σ → Prop
  refl : ∀ s, rel s s
  trans : ∀ {s t u}, rel s t → rel t u → rel s u

structure Prog {σ : Type} (r : Rule σ) (α : Type) where
  run : σ → α × σ
  keeps : ∀ s, r.rel s (run s).2

namespace Prog

variable {σ α β : Type} {r : Rule σ}

instance : Monad (Prog r) where
  pure a := ⟨fun s => (a, s), r.refl⟩
  bind p f := ⟨fun s => (f (p.run s).1).run (p.run s).2,
    fun s => r.trans (p.keeps s) ((f (p.run s).1).keeps (p.run s).2)⟩

def gets (f : σ → α) : Prog r α := ⟨fun s => (f s, s), r.refl⟩

def change (f : σ → σ) (allowed : ∀ s, r.rel s (f s)) : Prog r Unit :=
  ⟨fun s => ((), f s), allowed⟩

def act (f : σ → α × σ) (allowed : ∀ s, r.rel s (f s).2) : Prog r α := ⟨f, allowed⟩

theorem run_bind (p : Prog r α) (f : α → Prog r β) (s : σ) :
    (p >>= f).run s = (f (p.run s).1).run (p.run s).2 := rfl

theorem run_gets (f : σ → α) (s : σ) : (gets f : Prog r α).run s = (f s, s) := rfl

theorem run_pure (a : α) (s : σ) : (pure a : Prog r α).run s = (a, s) := rfl

def each (l : List α) (f : α → Prog r Unit) : Prog r Unit :=
  match l with
  | [] => pure ()
  | a :: l => do
    f a
    each l f

end Prog

def Rule.stable {σ : Type} (I : σ → Prop) : Rule σ where
  rel s t := I s → I t
  refl _ := id
  trans h k := k ∘ h

end XinuRpi5.Lib.RuledState
