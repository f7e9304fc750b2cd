/- source: cc/cc.c
   digest: The tagged words of the value runtime, with what is read through them. -/

import Mathlib.Data.Nat.Digits.Defs
import XinuRpi5.Lib.ReadLog

/-!
A string, a list and a boxed number are objects of the memory at an address: the bytes in front
of the NUL, the elements, and the number. What a function looks up in the memory is noted.
Floating-point arithmetic is taken as given. The nesting of lists is followed up to a bound.
-/

namespace XinuRpi5.Cc.TaggedWords

open Lib.ReadLog

/-- A `long` of the generated program. -/
abbrev Word := BitVec 64

abbrev Text := List UInt8

def ascii (s : String) : Text := s.toList.map fun c => UInt8.ofNat c.toNat

def vFloatTag : Word := (1 : Word) <<< 60

def vListTag : Word := (1 : Word) <<< 61

def vBoolTag : Word := (1 : Word) <<< 62

def vErrTag : Word := (1 : Word) <<< 59

def vPtrMask : Word := ((1 : Word) <<< 48) - 1

/-- `(w >> i) & 1UL`. -/
def bit (w : Word) (i : Nat) : Bool := w >>> i &&& 1 ≠ 0

def vInt (n : Word) : Word := n <<< 1 ||| 1

def vStr (p : Word) : Word := p

def vErr : Word := vErrTag

def vBool (b : Bool) : Word := vBoolTag ||| if b then 2 else 0

/-- `v_floatval` of a box. -/
def vFloat (p : Word) : Word := p ||| vFloatTag

def vList (p : Word) : Word := p ||| vListTag

def vIsInt (w : Word) : Bool := bit w 0

def vIsBool (w : Word) : Bool := !vIsInt w && bit w 62

def vIsErr (w : Word) : Bool := !vIsInt w && bit w 59 && w >>> 60 &&& 7 = 0

def vIsFloat (w : Word) : Bool := !vIsInt w && bit w 60

def vIsList (w : Word) : Bool := !vIsInt w && bit w 61

def vIsStr (w : Word) : Bool := !vIsInt w && w ≠ 0 && !vIsFloat w && !vIsList w && !vIsBool w

/-- `v_int_of`; a truth value counts as 0 or 1. -/
def vIntOf (w : Word) : Word :=
  if vIsInt w then w.sshiftRight 1 else if vIsBool w then w.sshiftRight 1 &&& 1 else 0

/-- `v_list_ptr`, and the address of a boxed number. -/
def vPtr (w : Word) : Word := w &&& vPtrMask

section Memory

structure Memory (D : Type) where
  str : Word → Text
  list : Word → List Word
  dbl : Word → D

/-- The arithmetic of `double` as far as it is used, and the text of a number for a buffer of a
given size. -/
structure Doubles (D : Type) where
  ofLong : Int → D
  zero : D
  add : D → D → D
  eq : D → D → Bool
  render : D → Nat → Text

inductive Ref where
  | str (a : Word)
  | list (a : Word)
  | dbl (a : Word)
  deriving DecidableEq

variable {D : Type} (m : Memory D) (fp : Doubles D)

def readStr (a : Word) : Log Ref Text := ⟨m.str a, [.str a]⟩

def readList (a : Word) : Log Ref (List Word) := ⟨m.list a, [.list a]⟩

def readDbl (a : Word) : Log Ref D := ⟨m.dbl a, [.dbl a]⟩

def vToFloat (w : Word) : Log Ref D :=
  if vIsInt w then pure (fp.ofLong (w.sshiftRight 1).toInt)
  else if vIsBool w then pure (fp.ofLong (w.sshiftRight 1 &&& 1).toInt)
  else if vIsFloat w then readDbl m (vPtr w)
  else pure fp.zero

def vTruthy (w : Word) : Log Ref Bool :=
  if w = 0 then pure false
  else if vIsInt w then pure (w.sshiftRight 1 ≠ 0)
  else if vIsBool w then pure (w &&& 2 ≠ 0)
  else if vIsErr w then pure false
  else if vIsFloat w then do
    let d ← vToFloat m fp w
    return !fp.eq d fp.zero
  else if vIsList w then do
    let items ← readList m (vPtr w)
    return items ≠ []
  else do
    let text ← readStr m w
    return text ≠ []

end Memory

section Rendering

def put (limit : Nat) (buf : Text) (c : UInt8) : Text :=
  if buf.length < limit then buf ++ [c] else buf

def digits (u : Nat) : Text :=
  if u = 0 then [48] else (Nat.digits 10 u).map fun d => 48 + UInt8.ofNat d

/-- The end of `v_render`: an integer is written from the end of the buffer. -/
def renderInt (n : Int) (cap : Nat) : Text :=
  let low := (digits n.natAbs).take (cap - 1)
  (if n < 0 ∧ low.length < cap - 1 then low ++ [45] else low).reverse

def renderItems (render : Word → Log Ref Text) (cap : Nat) : Bool → List Word → Text →
    Log Ref Text
  | _, [], buf => pure buf
  | first, w :: rest, buf =>
    if buf.length < cap - 2 then do
      let buf := if first then buf else put (cap - 1) (put (cap - 1) buf 44) 32
      let es ← render w
      renderItems render cap false rest (buf ++ es.take (cap - 2 - buf.length))
    else pure buf

variable {D : Type} (m : Memory D) (fp : Doubles D)

/-- `v_render` into a buffer of `cap` bytes. -/
def vRender : Nat → Word → Nat → Log Ref Text
  | 0, _, _ => pure []
  | fuel + 1, w, cap =>
    if vIsList w then do
      let items ← readList m (vPtr w)
      let buf ← renderItems (fun e => vRender fuel e 24) cap true items (put (cap - 1) [] 91)
      return put (cap - 1) buf 93
    else if vIsBool w then pure (if w &&& 2 ≠ 0 then ascii "true" else ascii "false")
    else if vIsErr w then pure (ascii "err")
    else if vIsStr w then readStr m w
    else if vIsFloat w then do
      let d ← vToFloat m fp w
      return fp.render d cap
    else pure (renderInt (vIntOf w).toInt cap)

/-- The elements that `v_print` writes, each through a buffer of its own. -/
def printItems (render : Word → Log Ref Text) : Bool → List Word → Log Ref Text
  | _, [] => pure []
  | first, w :: rest => do
    let es ← render w
    let later ← printItems render false rest
    return (if first then [] else [44, 32]) ++ es ++ later

/-- What `v_print` writes. -/
def vPrint (fuel : Nat) (w : Word) : Log Ref Text :=
  if vIsList w then do
    let items ← readList m (vPtr w)
    let text ← printItems (fun e => vRender m fp fuel e 32) true items
    return [91] ++ text ++ [93, 10]
  else do
    let text ← vRender m fp fuel w 32
    return text ++ [10]

end Rendering

section Operators

variable {D : Type} (m : Memory D) (fp : Doubles D)

/-- What an operator returns: a word, or what goes into the heap for strings and numbers. -/
inductive Result (D : Type) where
  | word (w : Word)
  | text (t : Text)
  | dbl (d : D)

/-- `v_add` up to the allocation of its result. -/
def vAdd (fuel : Nat) (a b : Word) : Log Ref (Result D) :=
  if vIsStr a || vIsStr b then do
    let sa ← vRender m fp fuel a 32
    let sb ← vRender m fp fuel b 32
    return .text (sa ++ sb)
  else if vIsFloat a || vIsFloat b then do
    let x ← vToFloat m fp a
    let y ← vToFloat m fp b
    return .dbl (fp.add x y)
  else pure (.word (vInt (vIntOf a + vIntOf b)))

def vStreq (a b : Word) : Log Ref Bool :=
  if a = 0 || b = 0 then pure false
  else do
    let x ← readStr m a
    let y ← readStr m b
    return x = y

def vEq (a b : Word) : Log Ref Word :=
  if vIsStr a && vIsStr b then do
    let same ← vStreq m a b
    return vBool same
  else if vIsStr a || vIsStr b then pure (vBool false)
  else if vIsFloat a || vIsFloat b then do
    let x ← vToFloat m fp a
    let y ← vToFloat m fp b
    return vBool (fp.eq x y)
  else pure (vBool (vIntOf a = vIntOf b))

end Operators

section Heap

variable {D : Type}

/-- The memory with `g_vheap`: its address, `g_vheaplen`, and the address of the literal `""`. -/
structure State (D : Type) where
  mem : Memory D
  vheap : Word
  vheapLen : Nat
  literal : Word

def vheapAlloc (n : Nat) (s : State D) : Option Word × State D :=
  if s.vheapLen + n ≤ 32768 then
    (some (s.vheap + BitVec.ofNat 64 s.vheapLen),
      { s with vheapLen := s.vheapLen + (n + 7) / 8 * 8 })
  else (none, s)

def newStr (t : Text) (s : State D) : Word × State D :=
  match vheapAlloc (t.length + 1) s with
  | (some p, s) => (vStr p, { s with mem.str := Function.update s.mem.str p t })
  | (none, s) => (vStr s.literal, s)

def vFloatval (d : D) (s : State D) : Word × State D :=
  match vheapAlloc 8 s with
  | (some p, s) => (vFloat p, { s with mem.dbl := Function.update s.mem.dbl p d })
  | (none, s) => (vInt 0, s)

def Result.box : Result D → State D → Word × State D
  | .word w, s => (w, s)
  | .text t, s => newStr t s
  | .dbl d, s => vFloatval d s

end Heap

section Remote

variable {D : Type}

/-- `remote_arg_text` into a buffer of 96 bytes. -/
def remoteArgText (m : Memory D) (fp : Doubles D) (fuel : Nat) (a : Word) : Log Ref Text :=
  if a = vInt 0 then pure [] else vRender m fp fuel a 96

/-- The loop of `remote_parse` over the digits, with the number of those read. -/
def readDigits : Text → Word → Nat → Option Word
  | [], v, d => if 0 < d then some v else none
  | c :: rest, v, d =>
    if c < 48 ∨ 57 < c then none
    else readDigits rest (v * 10 + (c.toBitVec.setWidth 64 - 48)) (d + 1)

def readNumber : Text → Option Word
  | 45 :: rest => (readDigits rest 0 0).map fun v => -v
  | t => readDigits t 0 0

def remoteParse (t : Text) (s : State D) : Word × State D :=
  if t = [] then (vStr s.literal, s)
  else if t = ascii "true" then (vBool true, s)
  else if t = ascii "false" then (vBool false, s)
  else if t = ascii "err" then (vErr, s)
  else match readNumber t with
    | some v => (vInt v, s)
    | none => newStr t s

end Remote

end XinuRpi5.Cc.TaggedWords
