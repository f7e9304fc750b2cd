/- source: none (library)
   digest: Arithmetic of 64-bit unsigned words on natural numbers. -/

import Mathlib.Tactic.Basic

namespace XinuRpi5.Lib.Word64

/-- A C `unsigned long`. -/
def wrap64 (x : Nat) : Nat := x % 18446744073709551616

def add64 (x y : Nat) : Nat := wrap64 (x + y)

def sub64 (x y : Nat) : Nat := wrap64 (x + 18446744073709551616 - y)

theorem add64_eq {x y : Nat} (h : x + y < 18446744073709551616) : add64 x y = x + y :=
  Nat.mod_eq_of_lt h

theorem sub64_eq {x y : Nat} (hx : x < 18446744073709551616) (le : y ≤ x) :
    sub64 x y = x - y := by
  unfold sub64 wrap64
  omega

end XinuRpi5.Lib.Word64
