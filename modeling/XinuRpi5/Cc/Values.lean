/- source: cc/cc.c
   digest: The value runtime on integers, truth values and strings, and the operators of AIPL. -/

import XinuRpi5.Cc.EvalOrder
import Mathlib.Algebra.Group.Nat.Defs
import Mathlib.Algebra.Group.Int.Defs

/-!
A value has its tag as a constructor. An integer has 63 bits, and a string is its bytes; the
heap for joined strings has room. A plain number of the C program is never an operand of an
operator.
-/

namespace XinuRpi5.Cc.Values

open AiplLex AiplStructure AiplExpr EvalOrder

/-- A `long` of the generated program: a plain number or a tagged value. -/
inductive Word where
  | raw (n : Int)
  | int (n : Int)
  | bool (b : Bool)
  | str (t : Text)
  deriving DecidableEq

/-- `v_int`: the number shifted by the tag bit. -/
def vInt (n : Int) : Word := .int (n.bmod (2 ^ 63))

def vIsStr : Word → Bool
  | .str _ => true
  | _ => false

def vIntOf : Word → Int
  | .int n => n
  | .bool b => if b then 1 else 0
  | _ => 0

def vTruthy : Word → Bool
  | .int n => n ≠ 0
  | .bool b => b
  | .str t => t ≠ []
  | .raw _ => false

def vRender : Word → Text
  | .str t => t
  | .bool b => if b then "true".toList else "false".toList
  | w => (toString (vIntOf w)).toList

def vAdd (a b : Word) : Word :=
  if vIsStr a ∨ vIsStr b then .str (vRender a ++ vRender b) else vInt (vIntOf a + vIntOf b)

def vSub (a b : Word) : Word := vInt (vIntOf a - vIntOf b)

def vMul (a b : Word) : Word := vInt (vIntOf a * vIntOf b)

def vDiv (a b : Word) : Word :=
  vInt (if vIntOf b ≠ 0 then (vIntOf a).tdiv (vIntOf b) else 0)

def vLt (a b : Word) : Word := .bool (vIntOf a < vIntOf b)

def vLe (a b : Word) : Word := .bool (vIntOf a ≤ vIntOf b)

def vEq : Word → Word → Word
  | .str s, .str t => .bool (s = t)
  | a, b => if vIsStr a ∨ vIsStr b then .bool false else .bool (vIntOf a = vIntOf b)

def vNe (a b : Word) : Word := .bool (!vTruthy (vEq a b))

def vAnd (a b : Word) : Word := .bool (vTruthy a && vTruthy b)

def vOr (a b : Word) : Word := .bool (vTruthy a || vTruthy b)

def vNot (a : Word) : Word := .bool (!vTruthy a)

def vCall (f : String) (args : List Word) : Word :=
  match args with
  | [] => .raw (2 ^ 59)
  | [a] =>
    if f = "v_int" then (match a with
      | .raw n => vInt n
      | w => w)
    else if f = "v_bool" then (match a with
      | .raw n => .bool (n ≠ 0)
      | w => w)
    else if f = "v_int_of" then .raw (vIntOf a)
    else if f = "v_not" then vNot a
    else a
  | a :: b :: _ =>
    if f = "v_add" then vAdd a b
    else if f = "v_sub" then vSub a b
    else if f = "v_mul" then vMul a b
    else if f = "v_div" then vDiv a b
    else if f = "v_lt" then vLt a b
    else if f = "v_le" then vLe a b
    else if f = "v_eq" then vEq a b
    else if f = "v_ne" then vNe a b
    else if f = "v_and" then vAnd a b
    else vOr a b

section Operators

/-- Two values are the same text, or the same number when none is a text. -/
def alike : Word → Word → Bool
  | .str s, .str t => s = t
  | .str _, _ => false
  | _, .str _ => false
  | a, b => vIntOf a = vIntOf b

def meaning (op : Op) (a b : Word) : Word :=
  match op with
  | .add | .not | .neg => vAdd a b
  | .sub => vInt (vIntOf a - vIntOf b)
  | .mul => vInt (vIntOf a * vIntOf b)
  | .div => vInt (if vIntOf b = 0 then 0 else (vIntOf a).tdiv (vIntOf b))
  | .lt => .bool (vIntOf a < vIntOf b)
  | .le => .bool (vIntOf a ≤ vIntOf b)
  | .gt => .bool (vIntOf b < vIntOf a)
  | .ge => .bool (vIntOf b ≤ vIntOf a)
  | .eq => .bool (alike a b)
  | .ne => .bool (!alike a b)
  | .and => .bool (vTruthy a && vTruthy b)
  | .or => .bool (vTruthy a || vTruthy b)

def meaning₁ (op : Op) (a : Word) : Word :=
  if op = .not then .bool (!vTruthy a) else vInt (-vIntOf a)

def runtime {σ : Type} (fn : Text → List Word → Word) (call : Text → List Word → σ → Word × σ)
    (self : Word) (loc : Text → Word) (read : Var → σ → Word) : Runtime Word σ where
  num n := .raw n
  txt := .str
  val := vCall
  fn := fn
  call := call
  self := self
  loc := loc
  read := read

variable {σ : Type} {fn : Text → List Word → Word} {call : Text → List Word → σ → Word × σ}
variable {self : Word} {loc : Text → Word} {read : Var → σ → Word}

theorem vEq_alike (a b : Word) : vEq a b = .bool (alike a b) := by
  cases a <;> cases b <;> simp [vEq, alike, vIsStr]

theorem binary_meaning : (runtime fn call self loc read).binary = meaning := by
  funext op a b
  cases op with
  | eq => exact vEq_alike a b
  | ne =>
    change vNe a b = _
    simp only [vNe, vEq_alike, vTruthy, meaning]
  | div =>
    change vDiv a b = _
    simp only [vDiv, meaning, ne_eq, ite_not]
  | _ => rfl

theorem unary_meaning : (runtime fn call self loc read).unary = meaning₁ := by
  funext op a
  unfold Runtime.unary meaning₁
  by_cases negation : op = .not
  · rw [if_pos negation, if_pos negation]
    rfl
  · rw [if_neg negation, if_neg negation]
    change vSub (vInt 0) a = _
    simp [vSub, vInt, vIntOf, Int.bmod_def]

end Operators

end XinuRpi5.Cc.Values
