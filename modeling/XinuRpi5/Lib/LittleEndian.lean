/- source: none (library)
   digest: Numbers as bytes, the lowest first, one after the other in a file. -/

import Mathlib.Data.List.Basic
import Mathlib.Algebra.Group.Nat.Defs

namespace XinuRpi5.Lib.LittleEndian

/-- The `n` low bytes of a number. -/
def leBytes : Nat → Nat → List UInt8
  | 0, _ => []
  | n + 1, v => UInt8.ofNat v :: leBytes n (v / 256)

def leValue : List UInt8 → Nat
  | [] => 0
  | b :: bs => b.toNat + 256 * leValue bs

theorem length_leBytes (n : Nat) : ∀ v, (leBytes n v).length = n := by
  induction n with
  | zero => exact fun _ => rfl
  | succ n ih => exact fun v => congrArg (· + 1) (ih (v / 256))

theorem leValue_leBytes (n : Nat) : ∀ v, v < 256 ^ n → leValue (leBytes n v) = v := by
  induction n with
  | zero =>
    intro v small
    exact (Nat.lt_one_iff.mp small).symm
  | succ n ih =>
    intro v small
    have high : v / 256 < 256 ^ n := Nat.div_lt_of_lt_mul (by rwa [← Nat.pow_succ'])
    have low : (UInt8.ofNat v).toNat = v % 256 := UInt8.toNat_ofNat
    change (UInt8.ofNat v).toNat + 256 * leValue (leBytes n (v / 256)) = v
    rw [ih _ high, low]
    exact Nat.mod_add_div v 256

/-- Numbers of `n` bytes, one after the other. -/
def fields (n : Nat) (vs : List Nat) : List UInt8 := (vs.map (leBytes n)).flatten

/-- The number at place `i` of such a sequence. -/
def field (n : Nat) (bytes : List UInt8) (i : Nat) : Nat :=
  leValue ((bytes.drop (n * i)).take n)

theorem length_fields (n : Nat) (vs : List Nat) : (fields n vs).length = n * vs.length := by
  induction vs with
  | nil => rfl
  | cons v vs ih =>
    change (leBytes n v ++ fields n vs).length = n * (vs.length + 1)
    rw [List.length_append, length_leBytes, ih, Nat.mul_succ, Nat.add_comm]

theorem field_fields {n : Nat} (rest : List UInt8) : ∀ (vs : List Nat) (i : Nat) (v : Nat),
    vs[i]? = some v → v < 256 ^ n → field n (fields n vs ++ rest) i = v := by
  intro vs
  induction vs with
  | nil =>
    intro i v there
    cases there
  | cons w ws ih =>
    intro i v there small
    have split : fields n (w :: ws) ++ rest = leBytes n w ++ (fields n ws ++ rest) :=
      List.append_assoc (leBytes n w) (fields n ws) rest
    rw [split]
    cases i with
    | zero =>
      obtain rfl := Option.some.inj there
      have front : (leBytes n w ++ (fields n ws ++ rest)).take n = leBytes n w :=
        List.take_left' (length_leBytes n w)
      unfold field
      rw [Nat.mul_zero, List.drop_zero, front]
      exact leValue_leBytes n w small
    | succ i =>
      have behind : (leBytes n w ++ (fields n ws ++ rest)).drop (n * (i + 1)) =
          (fields n ws ++ rest).drop (n * i) := by
        rw [Nat.mul_succ, Nat.add_comm, ← List.drop_drop,
          List.drop_left' (length_leBytes n w)]
      unfold field
      rw [behind]
      exact ih i v there small

theorem drop_fields (n : Nat) (vs : List Nat) (rest : List UInt8) :
    (fields n vs ++ rest).drop (n * vs.length) = rest :=
  List.drop_left' (length_fields n vs)

end XinuRpi5.Lib.LittleEndian
