/- source: none (library)
   digest: The loop `while (go) body` over any state, whose rounds can fail. -/

import Mathlib.Init

namespace XinuRpi5.Lib.WhileLoop

variable {σ : Type}

def whileLoop (s : σ) (g : σ → Bool) (f : σ → Option σ) : Option σ :=
  if g s then f s >>= whileLoop (g := g) (f := f) else some s
partial_fixpoint

variable {s t : σ} {g : σ → Bool} {f : σ → Option σ}

theorem whileLoop_done (stop : g s = false) : whileLoop s g f = some s := by
  rw [whileLoop, stop]
  rfl

theorem whileLoop_round (go : g s = true) (next : f s = some t) :
    whileLoop s g f = whileLoop t g f := by
  rw [whileLoop, go, next]
  rfl

end XinuRpi5.Lib.WhileLoop
