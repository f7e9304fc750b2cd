/- source: system/html.c
   digest: The selectors of a style sheet: reading them and matching them against the open elements. -/

import XinuRpi5.System.HtmlText

/-!
The open elements are a list, the innermost one first. A length of zero for a tag's name says
that the compound has none.
-/

namespace XinuRpi5.System.CssSelect

open HtmlText

def htRules : Nat := 400

/-- `tag_names`, by the number of the tag. -/
def tagNames : List Bytes :=
  ["", "p", "h1", "h2", "h3", "h4", "div", "ul", "ol", "li", "a", "b", "i", "code", "pre",
    "br", "hr", "table", "tr", "td", "th", "button", "img", "input", "span", "section", "article",
    "header", "footer", "nav", "main", "blockquote", "script", "style", "head", "title", "svg",
    "template", "noscript", "form", "label", "dl", "dt", "dd", "small", "html", "body", "thead",
    "tbody", "link", "meta", "select", "textarea"].map ascii

/-- `T_B` and `T_I`. -/
def tagB : Nat := 11
def tagI : Nat := 12

structure Comp where
  tag : Bytes
  id : Option Bytes
  cls : List Bytes
  child : Bool

/-- What selectors see of an `ht_frame`. -/
structure Frame where
  tag : Nat
  id : Option Bytes
  cls : Option Bytes

/-- `ht_rule`; its place among the rules is its `order`. -/
structure Rule where
  comp : List Comp
  spec : Nat
  decl : Bytes

/-- `h_eqi` over the whole of two names of one length. -/
def eqi (a b : Bytes) : Bool := a.map lower == b.map lower

def classIn (v cls : Bytes) : Bool :=
  (List.range (v.length + 1 - cls.length)).any fun i =>
    startsEqi cls (v.drop i) && (i == 0 || (v[i - 1]?.map isWs).getD false) &&
      (i + cls.length == v.length || (v[i + cls.length]?.map isWs).getD false)

def compMatch (c : Comp) (f : Frame) : Bool :=
  let tn := tagNames.getD f.tag []
  (c.tag = [] || (tn ≠ [] && eqi tn c.tag) || (f.tag = tagB && eqi c.tag (ascii "strong")) ||
    (f.tag = tagI && eqi c.tag (ascii "em"))) &&
  (match c.id with
    | none => true
    | some id => (f.id.map (eqi · id)).getD false) &&
  c.cls.all fun cls => (f.cls.map (classIn · cls)).getD false

/-- The loop of `rule_match` over the compounds to the left of the last one; `child` is the
combinator in front of the compound that matched. -/
def matchLoop : Bool → List Comp → List Frame → Bool
  | _, [], _ => true
  | true, _ :: _, [] => false
  | true, c :: comps, f :: above => compMatch c f && matchLoop c.child comps above
  | false, c :: comps, above =>
    match above.dropWhile fun f => !compMatch c f with
    | [] => false
    | _ :: above => matchLoop c.child comps above

/-- `rule_match` on the stack with the element `top`. -/
def ruleMatch (comp : List Comp) (top : Frame) (above : List Frame) : Bool :=
  match comp.reverse with
  | [] => false
  | c :: comps => compMatch c top && matchLoop c.child comps above

def isTagChar (c : UInt8) : Bool :=
  (0x61 ≤ c && c ≤ 0x7A) || (0x41 ≤ c && c ≤ 0x5A) || (0x30 ≤ c && c ≤ 0x39) || c == 0x2D

/-- The end of a class or an id: `.`, `#`, `:` and `[`. -/
def endsName (c : UInt8) : Bool := c ∈ [0x2E, 0x23, 0x3A, 0x5B]

/-- The loop of `parse_compound` behind the tag; `first` is set where no character was read. -/
def partsLoop : Nat → Bool → Bytes → Comp → Option Comp
  | 0, _, _, c => some c
  | _ + 1, _, [], c => some c
  | rounds + 1, first, d :: s, c =>
    let name := s.takeWhile fun c => !endsName c
    let rest := s.dropWhile fun c => !endsName c
    if d = 0x2E then
      partsLoop rounds false rest
        (if c.cls.length < 3 ∧ name ≠ [] then { c with cls := c.cls ++ [name] } else c)
    else if d = 0x23 then
      partsLoop rounds false rest (if name ≠ [] then { c with id := some name } else c)
    else if d = 0x3A then
      if eqi (d :: s) (ascii ":root") ∧ first then some { c with tag := ascii "html" } else none
    else if d = 0x5B then none
    else partsLoop rounds false s c

def parseCompound (s : Bytes) : Option Comp :=
  let c : Comp := ⟨[], none, [], false⟩
  if s.head? = some 0x2A then partsLoop s.length false s.tail c
  else
    partsLoop (s.length + 1) (s.takeWhile isTagChar).isEmpty (s.dropWhile isTagChar)
      { c with tag := s.takeWhile isTagChar }

/-- What a compound adds to `spec`. -/
def Comp.weight (c : Comp) : Nat :=
  (if c.id.isSome then 100 else 0) + c.cls.length * 10 + (if c.tag = [] then 0 else 1)

/-- The loop of `add_rule` over the compounds of a selector. -/
def compLoop : Nat → Bytes → List Comp → Option (List Comp)
  | 0, _, comps => some comps
  | rounds + 1, sel, comps =>
    let sel := sel.dropWhile isWs
    let child := sel.head? = some 0x3E
    let sel := if child then sel.tail.dropWhile isWs else sel
    if sel.head? = some 0x2B ∨ sel.head? = some 0x7E then none
    else
      let word := sel.takeWhile fun c => !isWs c && c != 0x3E
      if word = [] then some comps
      else if comps.length ≥ 4 then none
      else
        match parseCompound word with
        | none => none
        | some c =>
          compLoop rounds (sel.dropWhile fun c => !isWs c && c != 0x3E)
            (comps ++ [{ c with child := decide child }])

/-- `add_rule`: a selector that is not of the subset and a rule too many are left out. -/
def addRule (rules : List Rule) (sel decl : Bytes) : List Rule :=
  if rules.length ≥ htRules then rules
  else
    match compLoop (sel.length + 1) sel [] with
    | none => rules
    | some [] => rules
    | some comps => rules ++ [⟨comps, (comps.map Comp.weight).sum, decl⟩]

end XinuRpi5.System.CssSelect
