/- source: system/html.c
   digest: Declarations: their values and the properties they set. -/

import XinuRpi5.System.HtmlText

/-!
A declaration is read as the settings it makes. An `int` that overflows wraps.
-/

namespace XinuRpi5.System.CssValues

open HtmlText

/-- The fields of `ht_props` that hold a number, or `-1` when they are not set. -/
inductive Field where
  | bold
  | uline
  | align
  | display
  | mt
  | mb
  | ml
  | pt
  | pb
  | pl
  | pr
  | listNone
  | upper
  deriving DecidableEq

/-- The properties of `ht_props`. -/
inductive Property where
  | color
  | bg
  | border
  | transparent
  | fsize
  | field (f : Field)
  deriving DecidableEq

structure Props where
  color : Nat
  bg : Nat
  border : Nat
  colorSet : Bool
  bgSet : Bool
  borderSet : Bool
  transparent : Bool
  fsize : Int
  bold : Int
  uline : Int
  align : Int
  display : Int
  mt : Int
  mb : Int
  ml : Int
  pt : Int
  pb : Int
  pl : Int
  pr : Int
  listNone : Int
  upper : Int

def propsInit : Props :=
  ⟨0, 0, 0, false, false, false, false, 0, -1, -1, -1, -1, -1, -1, -1, -1, -1, -1, -1, -1, -1⟩

def Props.field (p : Props) : Field → Int
  | .bold => p.bold
  | .uline => p.uline
  | .align => p.align
  | .display => p.display
  | .mt => p.mt
  | .mb => p.mb
  | .ml => p.ml
  | .pt => p.pt
  | .pb => p.pb
  | .pl => p.pl
  | .pr => p.pr
  | .listNone => p.listNone
  | .upper => p.upper

def Props.setField (p : Props) (v : Nat) : Field → Props
  | .bold => { p with bold := v }
  | .uline => { p with uline := v }
  | .align => { p with align := v }
  | .display => { p with display := v }
  | .mt => { p with mt := v }
  | .mb => { p with mb := v }
  | .ml => { p with ml := v }
  | .pt => { p with pt := v }
  | .pb => { p with pb := v }
  | .pl => { p with pl := v }
  | .pr => { p with pr := v }
  | .listNone => { p with listNone := v }
  | .upper => { p with upper := v }

/-- What the properties say of one; `none` is unset, and no background or border. -/
def Props.get (p : Props) : Property → Option Nat
  | .color => if p.colorSet then some p.color else none
  | .bg => if p.bgSet then some p.bg else none
  | .border => if p.borderSet then some p.border else none
  | .transparent => if p.transparent then some 1 else none
  | .fsize => if p.fsize = 0 then none else some p.fsize.toNat
  | .field f => if p.field f < 0 then none else some (p.field f).toNat

inductive Setting where
  | color (c : Nat)
  | bg (c : Option Nat)
  | border (c : Option Nat)
  | transparent
  | fsize (px : Nat) (some : 0 < px)
  | field (f : Field) (v : Nat)
  deriving DecidableEq

/-- The assignments of `apply_decls`. -/
def Setting.apply (p : Props) : Setting → Props
  | .color c => { p with color := c, colorSet := true }
  | .bg (some c) => { p with bg := c, bgSet := true }
  | .bg none => { p with bgSet := false }
  | .border (some c) => { p with border := c, borderSet := true }
  | .border none => { p with borderSet := false }
  | .transparent => { p with transparent := true }
  | .fsize px _ => { p with fsize := px }
  | .field f v => p.setField v f

def Setting.property : Setting → Property
  | .color _ => .color
  | .bg _ => .bg
  | .border _ => .border
  | .transparent => .transparent
  | .fsize _ _ => .fsize
  | .field f _ => .field f

def Setting.value : Setting → Option Nat
  | .color c => some c
  | .bg c => c
  | .border c => c
  | .transparent => some 1
  | .fsize px _ => some px
  | .field _ v => some v

theorem setField_field (p : Props) (v : Nat) (f g : Field) :
    (p.setField v f).field g = if f = g then (v : Int) else p.field g := by
  cases f <;> cases g <;> rfl

theorem setField_get (p : Props) (v : Nat) (f : Field) (q : Property) :
    (p.setField v f).get q = if .field f = q then some v else p.get q := by
  cases q with
  | field g =>
    rw [Props.get, setField_field]
    by_cases same : f = g
    · subst same
      rw [if_pos rfl, if_pos rfl, if_neg (by omega), Int.toNat_natCast]
    · rw [if_neg same, if_neg fun equal => same (Property.field.inj equal)]
      rfl
  | color => cases f <;> rfl
  | bg => cases f <;> rfl
  | border => cases f <;> rfl
  | transparent => cases f <;> rfl
  | fsize => cases f <;> rfl

theorem Setting.apply_get (s : Setting) (p : Props) (q : Property) :
    (s.apply p).get q = if s.property = q then s.value else p.get q := by
  cases s with
  | field f v => exact setField_get p v f q
  | color c => cases q <;> rfl
  | bg c => cases c <;> cases q <;> rfl
  | border c => cases c <;> cases q <;> rfl
  | transparent => cases q <;> rfl
  | fsize px some =>
    cases q with
    | fsize => exact if_neg (by omega : (px : Int) ≠ 0)
    | color => rfl
    | bg => rfl
    | border => rfl
    | transparent => rfl
    | field f => rfl

def trimEnd (s : Bytes) : Bytes := (s.reverse.dropWhile isWs).reverse

def trim (s : Bytes) : Bytes := trimEnd (s.dropWhile isWs)

def isKey (s : Bytes) (name : String) : Bool := s.map lower == (ascii name).map lower

/-- `h_eqi` on the text's first characters. -/
def starts (s : Bytes) (name : String) : Bool := startsEqi (ascii name) s

def isDigit (c : UInt8) : Bool := 0x30 ≤ c && c ≤ 0x39

def digitsValue (s : Bytes) : Nat := s.foldl (fun v c => v * 10 + (c.toNat - 0x30)) 0

def wrapInt (x : Int) : Int := x.bmod 4294967296

/-- The digits as an `int`. -/
def intValue (s : Bytes) : Int := s.foldl (fun v c => wrapInt (v * 10 + (c.toNat - 0x30))) 0

/-- The places behind a point, in thousandths; a fourth one is not read. -/
def thousandths (s : Bytes) : Nat :=
  digitsValue (s.take 3) * 10 ^ (3 - (s.take 3).length)

def hexv (c : UInt8) : Option Nat :=
  if isDigit c then some (c.toNat - 0x30)
  else if 0x61 ≤ c ∧ c ≤ 0x66 then some (c.toNat - 0x61 + 10)
  else if 0x41 ≤ c ∧ c ≤ 0x46 then some (c.toNat - 0x41 + 10)
  else none

def hexAll (s : Bytes) : Option (List Nat) := s.mapM hexv

/-- What `parse_color` returns. -/
inductive ColorRead where
  | unknown
  | color (c : Nat)
  | transparent
  deriving DecidableEq

def opaqueColor (r g b : Nat) : Nat := 0xFF000000 + r * 0x10000 + g * 0x100 + b

/-- The numbers between the brackets of `rgb`, the fourth one in parts of 255. -/
def channels : Nat → Bytes → List Int → List Int
  | 0, _, v => v
  | rounds + 1, s, v =>
    if s = [] ∨ v.length ≥ 4 then v
    else
      let s := s.dropWhile isWs
      let whole := s.takeWhile isDigit
      let s := s.dropWhile isDigit
      let frac := if s.head? = some 0x2E then s.tail.takeWhile isDigit else []
      let s := if s.head? = some 0x2E then s.tail.dropWhile isDigit else s
      if whole = [] ∧ frac = [] then v
      else
        let k :=
          if v.length = 3 then
            Int.tdiv (wrapInt ((intValue whole * 1000 + thousandths frac) * 255)) 1000
          else intValue whole
        let s := s.dropWhile fun c => c == 0x2C || c == 0x2F || isWs c || c == 0x25
        if s.head? = some 0x29 then v ++ [k] else channels rounds s (v ++ [k])

def named : List (String × Nat) :=
  [("white", 0xFFFFFFFF), ("black", 0xFF000000), ("red", 0xFFFF0000), ("green", 0xFF008000),
    ("blue", 0xFF0000FF), ("gray", 0xFF808080), ("grey", 0xFF808080), ("silver", 0xFFC0C0C0),
    ("yellow", 0xFFFFFF00), ("orange", 0xFFFFA500), ("cyan", 0xFF00FFFF),
    ("magenta", 0xFFFF00FF), ("lime", 0xFF00FF00), ("navy", 0xFF000080), ("teal", 0xFF008080),
    ("purple", 0xFF800080), ("maroon", 0xFF800000), ("olive", 0xFF808000), ("aqua", 0xFF00FFFF),
    ("fuchsia", 0xFFFF00FF), ("currentcolor", 0), ("inherit", 0)]

/-- A channel over the ground `under` (`C_BODYBG`), `unsigned`. -/
def blend (v : Int) (a under : Nat) : Nat :=
  min (((v * a + (under * (255 - a) : Nat)) % 4294967296).toNat / 255) 255

def parseColor (s : Bytes) : ColorRead :=
  let s := trim s
  if s = [] then .unknown
  else if s.head? = some 0x23 then
    if s.length = 4 then
      match hexAll s.tail with
      | some [r, g, b] => .color (opaqueColor (r * 17) (g * 17) (b * 17))
      | _ => .unknown
    else if s.length ≥ 7 then
      match hexAll (s.tail.take 6) with
      | some hs => .color (0xFF000000 + hs.foldl (fun v h => v * 16 + h) 0)
      | none => .unknown
    else .unknown
  else if s.length ≥ 4 ∧ starts s "rgb" then
    match s.dropWhile (· != 0x28) with
    | [] => .unknown
    | _ :: inner =>
      match channels inner.length inner [] with
      | [r, g, b] => .color (opaqueColor (blend r 255 0x0D) (blend g 255 0x11) (blend b 255 0x17))
      | [r, g, b, a] =>
        let a := (min a 255).toNat
        .color (opaqueColor (blend r a 0x0D) (blend g a 0x11) (blend b a 0x17))
      | _ => .unknown
  else if isKey s "transparent" then .transparent
  else
    match named.find? fun row => isKey s row.1 with
    | some (_, 0) => .unknown
    | some (_, c) => .color c
    | none => .unknown

/-- 255 parts of the first channel are `2 ^ 32 + 254`. -/
example : parseColor (ascii "rgb(16843010,0,0)") = .color 0xFF000000 := by decide +kernel

/-- The arguments of a gradient: the first one that begins with a color. -/
def gradient : Nat → Bytes → Bytes → Option Nat
  | depth, arg, [] => if depth = 0 then argColor arg else none
  | depth, arg, c :: s =>
    if c = 0x28 then gradient (depth + 1) (arg ++ [c]) s
    else if c = 0x29 ∧ depth > 0 then gradient (depth - 1) (arg ++ [c]) s
    else if (c = 0x2C ∨ c = 0x29) ∧ depth = 0 then
      match argColor arg with
      | some color => some color
      | none => if c = 0x29 then none else gradient depth [] s
    else gradient depth (arg ++ [c]) s
where
  argColor (arg : Bytes) : Option Nat :=
    match parseColor ((arg.dropWhile isWs).takeWhile fun c => !isWs c) with
    | .color c => some c
    | _ => none

/-- The text behind the first `gradient(`. -/
def behindGradient : Bytes → Option Bytes
  | [] => none
  | c :: s => if starts (c :: s) "gradient(" then some ((c :: s).drop 9) else behindGradient s

def parseBgColor (v : Bytes) : ColorRead :=
  match parseColor v with
  | .unknown =>
    match (behindGradient v).bind (gradient 0 []) with
    | some c => .color c
    | none => .unknown
  | r => r

def cappedValue (s : Bytes) : Nat :=
  s.foldl (fun v c => min (v * 10 + (c.toNat - 0x30)) 100000) 0

/-- `parse_len`; `-1` is unknown. -/
def parseLen (s : Bytes) (base : Int) : Int :=
  let s := trim s
  if s = [] then -1
  else
    let neg := s.head? = some 0x2D
    let s := if neg then s.tail else s
    let whole := s.takeWhile isDigit
    let s := s.dropWhile isDigit
    let frac := if s.head? = some 0x2E then s.tail.takeWhile isDigit else []
    let s := if s.head? = some 0x2E then s.tail.dropWhile isDigit else s
    if whole = [] ∧ frac = [] then -1
    else
      let v1000 : Int := cappedValue whole * 1000 + thousandths frac
      let px : Option Int :=
        if s = [] then some (v1000 / 1000)
        else if isKey s "px" then some (v1000 / 1000)
        else if isKey s "rem" then some (v1000 * 16 / 1000)
        else if isKey s "em" then some (Int.tdiv (v1000 * base) 1000)
        else if isKey s "%" then some (Int.tdiv (v1000 * base) 100000)
        else if isKey s "pt" then some (v1000 * 4 / 3000)
        else if isKey s "vw" || isKey s "vh" then some (v1000 * 7 / 1000)
        else none
      match px with
      | none => -1
      | some px => max (min (if neg then -px else px) 4000) (-4000)

/-- The arguments of `clamp` up to its bracket, and what stands behind it. -/
def clampArgs : Nat → Bytes → List Bytes → Bytes → List Bytes × Bytes
  | _, arg, args, [] => (args ++ [arg], [])
  | depth, arg, args, c :: s =>
    if c = 0x28 then clampArgs (depth + 1) (arg ++ [c]) args s
    else if c = 0x29 ∧ depth = 0 then (args ++ [arg], s)
    else if c = 0x29 then clampArgs (depth - 1) (arg ++ [c]) args s
    else if c = 0x2C ∧ depth = 0 then clampArgs depth [] (args ++ [arg]) s
    else clampArgs depth (arg ++ [c]) args s

def ends (s : Bytes) (name : String) : Bool :=
  starts (s.drop (s.length - name.length)) name

/-- What `clamp` comes to, in pixels. -/
def clampValue (args : List Bytes) : Int :=
  let arg (k : Nat) : Bytes := args.getD k []
  let mn := parseLen (arg 0) 16
  let pf := parseLen (arg 1) 16
  let mx := parseLen (arg 2) 16
  let v :=
    if (arg 1).length ≥ 3 ∧ (ends (arg 1) "px" || ends (arg 1) "rem") then pf
    else if mn ≥ 0 ∧ mx ≥ 0 then (mn + mx) / 2
    else if mn ≥ 0 then mn
    else if mx ≥ 0 then mx
    else 16
  max v 0

/-- `while (… && o < cap - 1) buf[o++] = …` -/
def putAll (out s : Bytes) : Bytes := out ++ s.take (511 - out.length)

/-- `resolve_value`: `var` and `clamp` resolved, by the variables of the sheet. -/
def resolveRounds (vars : List (Bytes × Bytes)) : Nat → Bytes → Bytes → Bytes
  | 0, _, out => out
  | rounds + 1, s, out =>
    if s = [] ∨ out.length ≥ 511 then out
    else if starts s "var(" then
      let inner := s.drop 4
      let name := trimEnd (inner.takeWhile fun c => c != 0x29 && c != 0x2C)
      let rest := inner.dropWhile fun c => c != 0x29 && c != 0x2C
      let behind := (rest.dropWhile (· != 0x29)).drop 1
      match vars.find? fun row => row.1.map lower == name.map lower with
      | some row => resolveRounds vars rounds behind (putAll out row.2)
      | none =>
        if rest.head? = some 0x2C then
          resolveRounds vars rounds behind (putAll out (rest.tail.takeWhile (· != 0x29)))
        else resolveRounds vars rounds behind out
    else if starts s "clamp(" then
      let (args, behind) := clampArgs 0 [] [] (s.drop 6)
      let out := putAll out (ascii (toString (clampValue args)))
      resolveRounds vars rounds behind (if out.length < 509 then out ++ ascii "px" else out)
    else resolveRounds vars rounds (s.drop 1) (out ++ s.take 1)

def resolveValue (vars : List (Bytes × Bytes)) (s : Bytes) : Bytes :=
  resolveRounds vars s.length s []

/-- The value in front of `!important`. -/
def beforeImportant : Bytes → Bytes → Bytes
  | v, [] => v
  | v, c :: s => if starts (c :: s) "!important" then trimEnd v else beforeImportant (v ++ [c]) s

def valueEnd : Option UInt8 → Nat → Bytes → Bytes → Bytes × Bytes
  | _, _, v, [] => (v, [])
  | some q, depth, v, c :: s => valueEnd (if c = q then none else some q) depth (v ++ [c]) s
  | none, depth, v, c :: s =>
    if c = 0x22 ∨ c = 0x27 then valueEnd (some c) depth (v ++ [c]) s
    else if c = 0x28 then valueEnd none (depth + 1) (v ++ [c]) s
    else if c = 0x29 then valueEnd none (depth - 1) (v ++ [c]) s
    else if c = 0x3B ∧ depth = 0 then (v, c :: s)
    else valueEnd none depth (v ++ [c]) s

/-- The reading part of `apply_decls`: keys and values. -/
def declarations : Nat → Bytes → List (Bytes × Bytes)
  | 0, _ => []
  | rounds + 1, d =>
    let d := d.dropWhile fun c => isWs c || c == 0x3B
    if d = [] then []
    else
      let key := d.takeWhile fun c => c != 0x3A && c != 0x3B && c != 0x7D
      let rest := d.dropWhile fun c => c != 0x3A && c != 0x3B && c != 0x7D
      if rest.head? = some 0x3A then
        let (value, rest) := valueEnd none 0 [] (rest.tail.dropWhile isWs)
        (trimEnd key, trimEnd value) :: declarations rounds rest
      else declarations rounds (rest.dropWhile (· != 0x3B))

def contains (name : String) : Bytes → Bool
  | [] => false
  | c :: s => starts (c :: s) name || contains name s

def lastWord (s : Bytes) : Bytes := (s.reverse.takeWhile fun c => !isWs c).reverse

/-- The first words of a text, `n` at most. -/
def words : Nat → Bytes → List Bytes
  | 0, _ => []
  | n + 1, s =>
    let s := s.dropWhile isWs
    if s = [] then []
    else s.takeWhile (fun c => !isWs c) :: words n (s.dropWhile fun c => !isWs c)

def lengthField (f : Field) (v : Bytes) (fbase : Int) : List Setting :=
  let px := parseLen v fbase
  if px ≥ 0 then [.field f px.toNat] else []

/-- The lengths of `margin` or `padding`: top, right, bottom and left. -/
def sides (v : Bytes) (fbase : Int) : Option (Nat × Nat × Nat × Nat) :=
  match (words 4 v).map fun w => (parseLen w fbase).toNat with
  | [] => none
  | [t] => some (t, t, t, t)
  | [t, r] => some (t, r, t, r)
  | [t, r, b] => some (t, r, b, r)
  | t :: r :: b :: l :: _ => some (t, r, b, l)

def settings (fbase : Int) (key v : Bytes) : List Setting :=
  if isKey key "color" then
    match parseColor v with
    | .color c => [.color c]
    | .transparent => [.transparent]
    | .unknown => []
  else if isKey key "background" || isKey key "background-color" then
    if starts v "none" then [.bg none]
    else
      match parseBgColor v with
      | .color c => [.bg (some c)]
      | .transparent => [.bg none]
      | .unknown => []
  else if isKey key "border" || isKey key "border-bottom" || isKey key "border-top" ||
      isKey key "outline" then
    if v ≠ [] ∧ (startsEqi ((ascii "none").take (min v.length 4)) v ∨ v.head? = some 0x30) then
      [.border none]
    else
      match parseColor (lastWord v) with
      | .color c => [.border (some c)]
      | _ => []
  else if isKey key "border-color" then
    match parseColor v with
    | .color c => [.border (some c)]
    | _ => []
  else if isKey key "font-size" then
    let px := parseLen v fbase
    let px :=
      if px < 0 then
        if starts v "smaller" then Int.tdiv (wrapInt (fbase * 5)) 6
        else if starts v "larger" then Int.tdiv (wrapInt (fbase * 6)) 5
        else px
      else px
    if some : px > 0 then [.fsize px.toNat (by omega)] else []
  else if isKey key "font-weight" then
    if starts v "bold" then [.field .bold 1]
    else if starts v "normal" then [.field .bold 0]
    else
      let w := parseLen v 0
      if w ≥ 0 then [.field .bold (if w ≥ 600 then 1 else 0)] else []
  else if isKey key "text-decoration" || isKey key "text-decoration-line" then
    [.field .uline (if contains "underline" v then 1 else 0)]
  else if isKey key "text-align" then
    [.field .align (if starts v "center" then 1 else if starts v "right" then 2 else 0)]
  else if isKey key "display" then
    [.field .display (if starts v "none" then 1 else if starts v "inline" then 3 else 2)]
  else if isKey key "visibility" then
    if starts v "hidden" then [.field .display 1] else []
  else if isKey key "margin" then
    match sides v fbase with
    | none => []
    | some (t, _, b, l) => [.field .mt t, .field .mb b, .field .ml l]
  else if isKey key "padding" then
    match sides v fbase with
    | none => []
    | some (t, r, b, l) => [.field .pt t, .field .pr r, .field .pb b, .field .pl l]
  else if isKey key "margin-top" then lengthField .mt v fbase
  else if isKey key "margin-bottom" then lengthField .mb v fbase
  else if isKey key "margin-left" then lengthField .ml v fbase
  else if isKey key "padding-top" then lengthField .pt v fbase
  else if isKey key "padding-bottom" then lengthField .pb v fbase
  else if isKey key "padding-left" then lengthField .pl v fbase
  else if isKey key "padding-right" then lengthField .pr v fbase
  else if isKey key "list-style" || isKey key "list-style-type" then
    [.field .listNone (if starts v "none" then 1 else 0)]
  else if isKey key "text-transform" then
    [.field .upper (if starts v "uppercase" then 1 else 0)]
  else []

def blockSettings (vars : List (Bytes × Bytes)) (fbase : Int) (d : Bytes) : List Setting :=
  (declarations d.length d).flatMap fun kv =>
    settings fbase kv.1 (beforeImportant [] (resolveValue vars kv.2))

def applyDecls (vars : List (Bytes × Bytes)) (fbase : Int) (d : Bytes) (p : Props) : Props :=
  (blockSettings vars fbase d).foldl Setting.apply p

end XinuRpi5.System.CssValues
