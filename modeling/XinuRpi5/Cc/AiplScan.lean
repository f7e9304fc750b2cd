/- source: cc/abcl2c.c
   digest: The passes for top-level variables and for select, which adds the hidden fields. -/

import XinuRpi5.Cc.AiplStructure

namespace XinuRpi5.Cc.AiplScan

open AiplLex AiplStructure Lib.RuledState

def maxTopv : Nat := 64

def maxSel : Nat := 8

def hiddenField : Field := ⟨"__sel".toList, .int 0⟩

def hide (c : AiplStructure.Class) : AiplStructure.Class :=
  { c with fields := c.fields ++ [hiddenField] }

def Placed (s : St) : Prop := ∀ n sp, s.sel[n]? = some sp → sp.sid = n + 1

theorem Placed.unique {s : St} (placed : Placed s) {sp sp' : Sel} (first : sp ∈ s.sel)
    (second : sp' ∈ s.sel) (same : sp.sid = sp'.sid) : sp = sp' := by
  obtain ⟨n, here⟩ := List.mem_iff_getElem?.mp first
  obtain ⟨n', there⟩ := List.mem_iff_getElem?.mp second
  have equal : n = n' := by
    have left := placed n sp here
    have right := placed n' sp' there
    omega
  rw [equal, there] at here
  exact (Option.some.inj here).symm

theorem Placed.snoc {s : St} (placed : Placed s) {sel : List Sel} {sp : Sel}
    (grown : sel = s.sel ++ [sp]) (number : sp.sid = s.sel.length + 1) :
    ∀ n sp', sel[n]? = some sp' → sp'.sid = n + 1 := by
  intro n sp' here
  rw [grown, List.getElem?_append] at here
  split at here
  · exact placed n sp' here
  · rw [List.getElem?_singleton] at here
    split at here
    · rw [← Option.some.inj here, number]
      omega
    · cases here

/-- What the passes may do to a class: nothing, or give it its one hidden field,
whose index is the number of the fields before, for a select of the class. -/
structure Extends (s t : St) : Prop where
  out : t.out = s.out
  named : ∀ name, Named s.mname name → Named t.mname name
  logged : Logged s → Logged t
  placed : Placed s → Placed t
  sel : ∀ sp ∈ s.sel, sp ∈ t.sel
  classes : ∀ ci, t.selField ci = s.selField ci ∧ t.cls[ci]? = s.cls[ci]? ∨
    s.selField ci = none ∧ ∃ c, s.cls[ci]? = some c ∧ t.selField ci = some c.fields.length ∧
      t.cls[ci]? = some (hide c) ∧ ∃ sp ∈ t.sel, sp.cls = ci

theorem Extends.of_eq {s t : St} (out : t.out = s.out) (mname : t.mname = s.mname)
    (asked : t.asked = s.asked) (sel : t.sel = s.sel) (cls : t.cls = s.cls)
    (selField : t.selField = s.selField) : Extends s t := by
  refine ⟨out, fun _ named => mname ▸ named, fun logged => ?_, fun placed => ?_,
    fun sp listed => sel ▸ listed, fun ci => .inl ⟨by rw [selField], by rw [cls]⟩⟩
  · unfold Logged
    rw [mname, asked, cls]
    exact logged
  · unfold Placed
    rw [sel]
    exact placed

theorem Extends.trans {s t u : St} (first : Extends s t) (later : Extends t u) : Extends s u := by
  refine ⟨later.out.trans first.out, fun name named => later.named name (first.named name named),
    fun logged => later.logged (first.logged logged),
    fun placed => later.placed (first.placed placed),
    fun sp listed => later.sel sp (first.sel sp listed), fun ci => ?_⟩
  rcases first.classes ci with ⟨field, cls⟩ | ⟨none, c, was, field, cls, sp, listed, of⟩
  · rw [← field, ← cls]
    exact later.classes ci
  · rcases later.classes ci with ⟨field', cls'⟩ | ⟨none', _⟩
    · exact .inr ⟨none, c, was, field'.trans field, cls'.trans cls, sp, later.sel sp listed, of⟩
    · rw [field] at none'
      cases none'

def scans : Rule St := ⟨Extends, fun _ => .of_eq rfl rfl rfl rfl rfl rfl, Extends.trans⟩

instance : Neutral scans where
  lex _ _ := .of_eq rfl rfl rfl rfl rfl rfl
  mname _ name := ⟨rfl, fun _ named => named.grows name, fun logged => logged.ask rfl, id,
    fun _ => id, fun _ => .inl ⟨rfl, rfl⟩⟩
  stuck _ := .of_eq rfl rfl rfl rfl rfl rfl

/-- A select that was read, with `SELFIELD[ci]` and the field behind it unless
they are there; `false` when the field does not fit. -/
def noteSelect (ci owner : Nat) (cases : List Case) (tbody : Option Text) (rest : Text) :
    Prog scans Bool :=
  .act (fun s =>
    let sel := s.sel ++ [⟨ci, owner, s.sel.length + 1, cases, tbody, rest⟩]
    match s.selField ci, s.cls[ci]? with
    | none, some c =>
      if maxField ≤ c.fields.length then (false, { s with sel := sel })
      else (true, { s with
        sel := sel
        cls := s.cls.set ci (hide c)
        selField := fun e => if e = ci then some c.fields.length else s.selField e
        maxf := max s.maxf (c.fields.length + 1) })
    | _, _ => (true, { s with sel := sel })) fun s => by
      have grows : ∀ sp ∈ s.sel,
          sp ∈ s.sel ++ [⟨ci, owner, s.sel.length + 1, cases, tbody, rest⟩] :=
        fun _ => List.mem_append_left _
      have added : Extends s
          { s with sel := s.sel ++ [⟨ci, owner, s.sel.length + 1, cases, tbody, rest⟩] } :=
        ⟨rfl, fun _ named => named, id, fun placed => placed.snoc rfl rfl, grows,
          fun _ => .inl ⟨rfl, rfl⟩⟩
      simp only
      split
      · next c none was =>
        split_ifs with full
        · exact added
        · have inside := (List.getElem?_eq_some_iff.mp was).1
          refine ⟨rfl, fun _ named => named, fun ⟨names, known⟩ => ⟨names, fun d listed => ?_⟩,
            fun placed => placed.snoc rfl rfl, grows, fun e => ?_⟩
          · rcases List.mem_or_eq_of_mem_set listed with old | rfl
            · exact known d old
            · exact known c (List.mem_of_getElem? was)
          · by_cases same : e = ci
            · subst same
              exact .inr ⟨none, c, was, if_pos rfl, List.getElem?_set_self inside, _,
                List.mem_append_right _ List.mem_cons_self, rfl⟩
            · exact .inl ⟨if_neg same, List.getElem?_set_ne fun other => same other.symm⟩
      · exact added

def addTopv (name : Text) : Prog scans Unit :=
  .change (fun s =>
    if name ∈ s.topv ∨ maxTopv ≤ s.topv.length then s
    else { s with topv := s.topv ++ [name.take 47] }) fun s => by
      split_ifs
      · exact .of_eq rfl rfl rfl rfl rfl rfl
      · exact .of_eq rfl rfl rfl rfl rfl rfl

/-- The loop of `scan_topvars`. -/
def topvarLoop : Nat → Nat → Prog scans Unit
  | 0, _ => pure ()
  | rounds + 1, depth => do
    if ← isEof then return
    if ← isP lbrace then
      lexNext
      topvarLoop rounds (depth + 1)
    else if ← isP rbrace then
      lexNext
      topvarLoop rounds (depth - 1)
    else if depth = 0 ∧ (← isKw "var") then
      lexNext
      let t ← tok
      if t.kind = .id then addTopv t.s
      topvarLoop rounds depth
    else
      lexNext
      topvarLoop rounds depth

def scanTopvars : Prog scans Unit := do
  let saved ← .gets St.lex
  goto (← .gets St.toplevel)
  topvarLoop 99999 0
  onLex fun l => l.load saved

def skipToParen : Nat → Lex → Lex
  | 0, l => l
  | rounds + 1, l => if l.isP ")" ∨ l.isEof then l else skipToParen rounds l.next

def caseVar : Prog scans Text := do
  if ← isP "(" then
    lexNext
    let t ← tok
    let mut name : Text := []
    if t.kind = .id then
      name := t.s.take 47
      lexNext
    onLex fun l => skipToParen (l.src.length + 2) l
    if ← isP ")" then lexNext
    return name
  else return []

def selectBody : Nat → List Case → Option Text → Prog scans (Option (List Case × Option Text))
  | 0, _, _ => do
    outOfRounds
    return none
  | rounds + 1, cases, tbody => do
    if (← isP rbrace) ∨ (← isEof) then return some (cases, tbody)
    if ← isKw "case" then
      lexNext
      let t ← tok
      if t.kind ≠ .id then
        a2cFail "select: expected a message name"
        return none
      if 4 ≤ cases.length then
        a2cFail "select: too many cases (max 4)"
        return none
      let mid ← methId t.s
      lexNext
      let var ← caseVar
      if ← isP ":" then
        lexNext
        if !(← skipType) then return none
      if ← isP "->" then lexNext
      if !(← isP lbrace) then
        a2cFail "select: expected '\x7b' after case"
        return none
      let body ← place
      skipBlock
      selectBody rounds (cases ++ [⟨mid, var, body⟩]) tbody
    else if ← isKw "timeout" then
      lexNext
      if (← tok).kind = .num then lexNext
      if ← isP "->" then lexNext
      if !(← isP lbrace) then
        a2cFail "select: expected '\x7b' after timeout"
        return none
      let body ← place
      skipBlock
      selectBody rounds cases (some body)
    else
      a2cFail "select: expected 'case' or 'timeout'"
      return none

/-- One select of a method, with `select` as the current token. -/
def scanSelect (rounds ci mi : Nat) : Prog scans Bool := do
  if maxSel ≤ (← .gets fun s => s.sel.length) then
    a2cFail "too many selects"
    return false
  lexNext
  if !(← expectP lbrace "select: expected '\x7b'") then return false
  match ← selectBody rounds [] none with
  | none => return false
  | some (cases, tbody) =>
    if ← isP rbrace then lexNext
    if cases = [] then
      a2cFail "select: no case"
      return false
    if !(← noteSelect ci mi cases tbody (← place)) then
      a2cFail "too many fields (__sel)"
      return false
    return true

def scanBody (rounds ci mi : Nat) : Nat → Nat → Prog scans Bool
  | 0, _ => do
    outOfRounds
    return false
  | left + 1, depth => do
    if ← isEof then return true
    if ← isP lbrace then
      lexNext
      scanBody rounds ci mi left (depth + 1)
    else if ← isP rbrace then
      if depth = 0 then return true
      lexNext
      scanBody rounds ci mi left (depth - 1)
    else if depth = 0 ∧ (← isKw "select") then
      if ← scanSelect rounds ci mi then scanBody rounds ci mi left depth else return false
    else
      lexNext
      scanBody rounds ci mi left depth

def methodsOf (cls : List AiplStructure.Class) : List (Nat × Nat × Method) :=
  cls.zipIdx.flatMap fun (c, ci) => c.methods.zipIdx.map fun (m, mi) => (ci, mi, m)

def scanMethods (rounds : Nat) : List (Nat × Nat × Method) → Prog scans Bool
  | [] => return true
  | (ci, mi, m) :: rest => do
    goto m.body
    if ← isP lbrace then
      lexNext
      if ← scanBody rounds ci mi rounds 0 then scanMethods rounds rest else return false
    else scanMethods rounds rest

def scanSelects (rounds : Nat) : Prog scans Unit := do
  let saved ← .gets St.lex
  let _ ← scanMethods rounds (methodsOf (← .gets St.cls))
  onLex fun l => l.load saved

end XinuRpi5.Cc.AiplScan
