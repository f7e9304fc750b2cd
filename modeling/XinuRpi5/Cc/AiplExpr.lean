/- source: cc/abcl2c.c
   digest: The expressions of the AIPL translator: their parser and their C code. -/

import XinuRpi5.Cc.AiplScan

namespace XinuRpi5.Cc.AiplExpr

open AiplLex AiplStructure AiplScan Lib.RuledState

attribute [local instance] lawful_text

def InLayout (cls : List AiplStructure.Class) (k : Nat) : Prop := ∃ c ∈ cls, k < c.fields.length

def SelOk (s : St) : Prop := ∀ ci k, s.selField ci = some k → InLayout s.cls k

/-- What the code generator does to the state: the classes and selects stay, and
the output grows by code whose field accesses are inside the layout. -/
structure Emitted (s t : St) : Prop where
  cls : t.cls = s.cls
  selField : t.selField = s.selField
  sel : t.sel = s.sel
  mname : ∃ new, t.mname = s.mname ++ new ∧ (maxMName ≤ s.mname.length → new = [])
  logged : Logged s → Logged t
  out : ∃ new, t.out = s.out ++ new ∧ (SelOk s → ∀ k, .index k ∈ new → InLayout s.cls k)

theorem Emitted.quiet {s t : St} (cls : t.cls = s.cls) (selField : t.selField = s.selField)
    (sel : t.sel = s.sel) (mname : t.mname = s.mname) (asked : t.asked = s.asked)
    (out : t.out = s.out) : Emitted s t := by
  refine ⟨cls, selField, sel, ⟨[], by rw [mname, List.append_nil], fun _ => rfl⟩, ?_, [],
    by rw [out, List.append_nil], ?_⟩
  · intro logged
    unfold Logged
    rw [mname, asked, cls]
    exact logged
  · intro _ k listed
    cases listed

theorem Emitted.trans {s t u : St} (first : Emitted s t) (later : Emitted t u) : Emitted s u := by
  obtain ⟨new, out, ok⟩ := first.out
  obtain ⟨new', out', ok'⟩ := later.out
  obtain ⟨names, mname, full⟩ := first.mname
  obtain ⟨names', mname', full'⟩ := later.mname
  refine ⟨later.cls.trans first.cls, later.selField.trans first.selField,
    later.sel.trans first.sel, ⟨names ++ names', ?_, fun most => ?_⟩,
    fun logged => later.logged (first.logged logged), new ++ new', ?_, fun selOk k listed => ?_⟩
  · rw [mname', mname, List.append_assoc]
  · have none := full most
    rw [mname, none, List.append_nil] at full'
    rw [none, full' most, List.append_nil]
  · rw [out', out, List.append_assoc]
  · rcases List.mem_append.mp listed with early | late
    · exact ok selOk k early
    · have selOk' : SelOk t := by
        intro ci j field
        rw [first.selField] at field
        rw [first.cls]
        exact selOk ci j field
      have inside := ok' selOk' k late
      rwa [first.cls] at inside

def emits : Rule St :=
  ⟨Emitted, fun _ => .quiet rfl rfl rfl rfl rfl rfl, Emitted.trans⟩

theorem noNames {mname : List Text} :
    ∃ new, mname = mname ++ new ∧ (maxMName ≤ mname.length → new = []) :=
  ⟨[], (List.append_nil _).symm, fun _ => rfl⟩

instance : Neutral emits where
  lex _ _ := .quiet rfl rfl rfl rfl rfl rfl
  mname s name := ⟨rfl, rfl, rfl, methIdIn_grows s.mname name, fun logged => logged.ask rfl, [],
    (List.append_nil _).symm, fun _ _ listed => by cases listed⟩
  stuck _ := .quiet rfl rfl rfl rfl rfl rfl

def emit (p : Piece) (plain : ∀ k, p ≠ .index k) : Prog emits Unit :=
  .change (fun s => { s with out := s.out ++ [p] }) fun _ =>
    ⟨rfl, rfl, rfl, noNames, id, [p], rfl, fun _ k listed =>
      absurd (List.mem_singleton.mp listed).symm (plain k)⟩

/-- `op_s` and `op_c`. -/
def opS (s : String) : Prog emits Unit := emit (.str s) fun _ => by simp

/-- `op_s` of a name or a literal of the program. -/
def opName (t : Text) : Prog emits Unit := emit (.name t) fun _ => by simp

def opN (n : Int) : Prog emits Unit := emit (.num n) fun _ => by simp

/-- `op_n` of the bits of a `double`. -/
def opFloat (neg : Bool) (whole : Nat) (frac : Option Text) : Prog emits Unit :=
  emit (.float neg whole frac) fun _ => by simp

def fieldHere (name : Text) (s : St) : Option Nat :=
  if name ∈ s.locals then none
  else s.cc.bind fun ci => s.cls[ci]?.bind fun c => fieldIdx c name

theorem fieldHere_inLayout {name : Text} {s : St} {k : Nat} (found : fieldHere name s = some k) :
    InLayout s.cls k := by
  unfold fieldHere at found
  split_ifs at found
  obtain ⟨ci, _, found⟩ := Option.bind_eq_some_iff.mp found
  obtain ⟨c, listed, found⟩ := Option.bind_eq_some_iff.mp found
  obtain ⟨inside, _⟩ := List.findIdx?_eq_some_iff_getElem.mp found
  exact ⟨c, List.mem_of_getElem? listed, inside⟩

/-- `op_n` of the index of a field of the current class. -/
def opField (name : Text) : Prog emits Unit :=
  .change (fun s =>
    match fieldHere name s with
    | some k => { s with out := s.out ++ [.index k] }
    | none => s) fun s => by
      split
      · next k found =>
        refine ⟨rfl, rfl, rfl, noNames, id, [.index k], rfl, fun _ j listed => ?_⟩
        obtain rfl := Piece.index.inj (List.mem_singleton.mp listed)
        exact fieldHere_inLayout found
      · exact .quiet rfl rfl rfl rfl rfl rfl

/-- `op_n(SELFIELD[ci])`. -/
def opSelField (ci : Nat) : Prog emits Unit :=
  .change (fun s =>
    match s.selField ci with
    | some k => { s with out := s.out ++ [.index k] }
    | none => { s with out := s.out ++ [.num (-1)] }) fun s => by
      split
      · next k found =>
        refine ⟨rfl, rfl, rfl, noNames, id, [.index k], rfl,
          fun ok j listed => ?_⟩
        obtain rfl := Piece.index.inj (List.mem_singleton.mp listed)
        exact ok ci j found
      · refine ⟨rfl, rfl, rfl, noNames, id, [.num (-1)], rfl,
          fun _ j listed => ?_⟩
        cases List.mem_singleton.mp listed

def emitIdent (name : Text) : Prog emits Unit := do
  if name = "self".toList then opS "v_int(self)"
  else if (← .gets (fieldHere name)).isSome then
    opS "g_obj[self].f["
    opField name
    opS "]"
  else
    opS "v_"
    opName name

section Parsing

def maxNode : Nat := 1024

def blank (k : NodeKind) : Node := ⟨k, 0, none, [], "", .add, 0, none, 0, 0, []⟩

/-- `mknode` with the values that the caller sets: 0 when the table is full. -/
def mkNode (node : Node) : Prog emits Nat := do
  let count ← .gets fun s => s.nd.length
  if maxNode ≤ count then
    a2cFail "expression too large"
    return 0
  .change (fun s => { s with nd := s.nd ++ [node] }) fun _ => .quiet rfl rfl rfl rfl rfl rfl
  return count

def noNode (m : String) : Prog emits Nat := do
  a2cFail m
  return 0

/-- A message that ends in a name and has at most `cap` characters. -/
def naming (cap : Nat) (pre : String) (name : Text) : String :=
  String.ofList ((pre.toList ++ name).take cap)

structure Parsers where
  expr : Prog emits Nat
  unary : Prog emits Nat
  primary : Prog emits Nat

/-- The arguments of a call up to the closing bracket; a fifth one is read and
dropped. -/
def parseArgs (expr : Prog emits Nat) : Nat → List Nat → Prog emits (List Nat)
  | 0, args => do
    outOfRounds
    return args
  | rounds + 1, args => do
    if (← isP ")") ∨ (← isEof) ∨ (← failed) then return args
    let e ← expr
    if ← isP "," then lexNext
    parseArgs expr rounds (if args.length < 4 then args ++ [e] else args)

variable (rounds : Nat) (p : Parsers)

def optArgs : Prog emits (List Nat) := do
  if ← isP "(" then
    lexNext
    let args ← parseArgs p.expr rounds []
    if ← isP ")" then lexNext
    return args
  else return []

def callArgs : Prog emits (List Nat) := do
  lexNext
  let args ← parseArgs p.expr rounds []
  if ← isP ")" then lexNext
  return args

/-- `remote("host:port", "actorName")`. -/
def parseRemote : Prog emits Nat := do
  lexNext
  if !(← expectP "(" "remote: expected '('") then return 0
  let host ← tok
  if host.kind ≠ .str then
    return ← noNode "remote: 第1引数は \"host\" か \"host:port\" の文字列"
  let h ← mkNode { blank .str with s := host.s }
  lexNext
  if !(← expectP "," "remote: expected ','") then return 0
  let actor ← tok
  if actor.kind ≠ .str then return ← noNode "remote: 第2引数は公開名の文字列"
  let a ← mkNode { blank .str with s := actor.s }
  lexNext
  if !(← expectP ")" "remote: expected ')'") then return 0
  mkNode { blank .remote with args := [h, a] }

/-- `new K(args)`. -/
def parseNew : Prog emits Nat := do
  lexNext
  let t ← tok
  if t.kind ≠ .id then return ← noNode "new: expected class"
  match classIdx (← .gets St.cls) t.s with
  | none => noNode (naming 95 "new: unknown class: " t.s)
  | some ci =>
    lexNext
    let mut args : List Nat := []
    if ← isP "(" then
      lexNext
      args ← parseArgs p.expr rounds []
      if !(← expectP ")" "new: expected ')'") then return 0
    mkNode { blank .new with ci := ci, args := args }

/-- The target and the message of `now` and `future`. -/
def parseMessage (word : String) : Prog emits (Option (Nat × Nat × List Nat)) := do
  lexNext
  let obj ← p.primary
  if !(← expectP "." (word ++ ": expected .method")) then return none
  let t ← tok
  if t.kind ≠ .id then
    a2cFail (word ++ ": expected method")
    return none
  let mid ← methId t.s
  lexNext
  let args ← optArgs rounds p
  return some (obj, mid, args)

/-- `timeout <ms> else <expr>` behind a call: the milliseconds and the node of
`else`; `none` when there is no deadline, or after an error. -/
def parseDeadline : Prog emits (Option (Nat × Option Nat)) := do
  if ← isKw "timeout" then
    lexNext
    let t ← tok
    if t.kind ≠ .num then
      a2cFail "timeout: expected milliseconds"
      return none
    lexNext
    if ← isKw "else" then
      lexNext
      let e ← p.expr
      return some (t.num, some e)
    else return some (t.num, none)
  else return none

def runtimeNames : List (String × String) :=
  [("array_empty", "v_list_new"), ("array_push", "v_list_push"), ("array_get", "v_list_get"),
    ("array_set", "v_list_set"), ("array_len", "v_list_len"), ("array_zeros", "v_list_zeros"),
    ("neighbors", "cc_mesh_neighbors"), ("broadcast", "cc_mesh_broadcast"),
    ("gather", "cc_mesh_gather"), ("sqrt", "v_m_sqrt"), ("exp", "v_m_exp"), ("log", "v_m_log"),
    ("log10", "v_m_log10"), ("sin", "v_m_sin"), ("cos", "v_m_cos"), ("tan", "v_m_tan"),
    ("asin", "v_m_asin"), ("acos", "v_m_acos"), ("atan", "v_m_atan"), ("floor", "v_m_floor"),
    ("ceil", "v_m_ceil"), ("round", "v_m_round"), ("abs", "v_m_abs"), ("neg", "v_m_neg"),
    ("arm_cmd", "v_arm_cmd"), ("is_ok", "cc_is_ok"), ("value", "cc_value"),
    ("timed_out", "cc_timed_out"), ("typeof", "cc_typeof"), ("answer", "cc_answer"),
    ("acquire", "cc_acquire"), ("release", "cc_release")]

/-- `spawn("Class", "name")`, with the opening bracket as the current token. -/
def parseSpawn : Prog emits Nat := do
  lexNext
  let t ← tok
  if t.kind ≠ .str then return ← noNode "spawn: 第1引数はクラス名の文字列"
  match classIdx (← .gets St.cls) t.s with
  | none => noNode "spawn: 知らないクラスです（定義より後で書くこと）"
  | some ci =>
    lexNext
    if !(← expectP "," "spawn: expected ','") then return 0
    let name ← tok
    if name.kind ≠ .str then return ← noNode "spawn: 第2引数は名前の文字列"
    lexNext
    if !(← expectP ")" "spawn: expected ')'") then return 0
    mkNode { blank .spawn with ci := ci, s := ('/' :: name.s).take (tokStr - 1) }

def nodeAt (i : Nat) : Prog emits Node := .gets fun s => s.nd.getD i (blank .nil)

/-- `web_listen(port)` and `web_expose(path, "name")`. -/
def parseWeb (expose : Bool) : Prog emits Nat := do
  let args ← callArgs rounds p
  if expose then
    match args with
    | [_, actor] =>
      let name ← nodeAt actor
      if name.k ≠ .str ∨ name.s ∉ (← .gets St.topv) then
        return ← noNode (naming 95 "web_expose: unknown actor: " name.s)
    | _ => return ← noNode "web_expose: expected (path, \"actor\")"
  else if args.length ≠ 1 then return ← noNode "web_listen: expected (port)"
  mkNode { blank .web with num := if expose then 1 else 0, args := args }

def ownMethod (name : Text) (s : St) : Option Nat :=
  s.cc.bind fun ci => s.cls[ci]?.bind fun c => c.methods.findIdx? fun m => m.name = name

def parseCall (name : Text) : Prog emits Nat := do
  match runtimeNames.find? fun entry => name = entry.1.toList with
  | some entry =>
    let args ← callArgs rounds p
    mkNode { blank .rt with s2 := entry.2, args := args }
  | none =>
    if name = "spawn".toList then parseSpawn
    else if name = "web_listen".toList ∨ name = "web_expose".toList then
      parseWeb rounds p (name = "web_expose".toList)
    else if name = "wait".toList then
      let args ← callArgs rounds p
      if args.length ≠ 1 then noNode "wait: expected (milliseconds)"
      else mkNode { blank .wait with args := args }
    else if name = "print".toList ∨ name = "puts".toList then
      let args ← callArgs rounds p
      mkNode { blank .print with args := args }
    else if name = "ai_call".toList then
      let args ← callArgs rounds p
      mkNode { blank .aicall with args := args }
    else
      match ownMethod name (← .gets id) with
      | some k =>
        let args ← callArgs rounds p
        mkNode { blank .selfcall with mid := k, args := args }
      | none => noNode (naming 95 "unknown function: " name)

def parsePrimary : Prog emits Nat := do
  let t ← tok
  if t.kind = .id ∧ (t.s = "reply".toList ∨ t.s = "timeout".toList) then
    noNode (naming 79 "not supported on this device: " t.s)
  else if ← isKw "remote" then parseRemote
  else if ← isKw "sender" then
    lexNext
    mkNode { blank .rt with s2 := "cc_sender" }
  else if ← isKw "replyto" then
    lexNext
    mkNode { blank .rt with s2 := "cc_replyto" }
  else if t.kind = .num then
    lexNext
    mkNode { blank (if t.frac.isSome then .flt else .int) with num := t.num, frac := t.frac }
  else if t.kind = .str then
    lexNext
    mkNode { blank .str with s := t.s }
  else if (← isKw "true") ∨ (← isKw "false") then
    let value := if ← isKw "true" then 1 else 0
    lexNext
    mkNode { blank .bool with num := value }
  else if ← isKw "new" then parseNew rounds p
  else if ← isKw "future" then
    match ← parseMessage rounds p "future" with
    | none => return 0
    | some (obj, mid, args) => mkNode { blank .fut with a := obj, mid := mid, args := args }
  else if ← isKw "await" then
    lexNext
    let a ← p.unary
    match ← parseDeadline p with
    | none => mkNode { blank .await with a := a }
    | some (ms, e) => mkNode { blank .awaitdl with a := a, num := ms, b := e }
  else if ← isKw "now" then
    match ← parseMessage rounds p "now" with
    | none => return 0
    | some (obj, mid, args) =>
      match ← parseDeadline p with
      | none => mkNode { blank .now with a := obj, mid := mid, args := args }
      | some (ms, e) =>
        mkNode { blank .nowdl with a := obj, mid := mid, args := args, num := ms, b := e }
  else if ← isKw "self" then
    lexNext
    mkNode { blank .id with s := "self".toList }
  else if ← isP "(" then
    lexNext
    let e ← p.expr
    if ← isP ")" then lexNext
    return e
  else if t.kind = .id then
    let name ← cpid
    lexNext
    if ← isP "(" then parseCall rounds p name
    else mkNode { blank .id with s := name }
  else noNode "expected expression"

def parseUnary : Prog emits Nat := do
  if ← isP "!" then
    lexNext
    let a ← p.unary
    mkNode { blank .un with op := .not, a := a }
  else if ← isP "-" then
    lexNext
    let a ← p.unary
    mkNode { blank .un with op := .neg, a := a }
  else p.primary

def opHere (ops : List (String × Op)) (s : St) : Option Op :=
  (ops.find? fun entry => s.lex.isP entry.1).map Prod.snd

/-- The loop of a level of binary operators, from its first operand on. -/
def binLoop (ops : List (String × Op)) (next : Prog emits Nat) : Nat → Nat → Prog emits Nat
  | 0, a => do
    outOfRounds
    return a
  | rounds + 1, a => do
    match opHere ops (← .gets id) with
    | none => return a
    | some op =>
      lexNext
      let b ← next
      let n ← mkNode { blank .bin with op := op, a := a, b := some b }
      binLoop ops next rounds n

def binLevel (ops : List (String × Op)) (next : Prog emits Nat) : Prog emits Nat := do
  let a ← next
  binLoop ops next rounds a

def parseMul : Prog emits Nat := do
  let a ← binLevel rounds [("*", .mul), ("/", .div)] p.unary
  if ← isP "%" then noNode "'%' not supported" else return a

def parseAdd : Prog emits Nat := binLevel rounds [("+", .add), ("-", .sub)] (parseMul rounds p)

/-- `parse_concat`: the runtime's addition joins texts. -/
def parseConcat : Prog emits Nat := binLevel rounds [("++", .add)] (parseAdd rounds p)

def parseRel : Prog emits Nat :=
  binLevel rounds [("<=", .le), (">=", .ge), ("<", .lt), (">", .gt)] (parseConcat rounds p)

def parseEql : Prog emits Nat := binLevel rounds [("==", .eq), ("!=", .ne)] (parseRel rounds p)

def parseAnd : Prog emits Nat := binLevel rounds [("&&", .and)] (parseEql rounds p)

def parseOr : Prog emits Nat := binLevel rounds [("||", .or)] (parseAnd rounds p)

end Parsing

def parsers (rounds : Nat) : Nat → Parsers
  | 0 =>
    let out : Prog emits Nat := do
      outOfRounds
      return 0
    ⟨out, out, out⟩
  | depth + 1 =>
    let p := parsers rounds depth
    ⟨parseOr rounds p, parseUnary p, parsePrimary rounds p⟩

section Code

variable (code : Nat → Prog emits Unit)

/-- `emit_args_filled`: four arguments, the missing ones zero. -/
def emitArgsFilled (args : List Nat) : Prog emits Unit :=
  .each (List.range 4) fun k => do
    opS ", "
    match args[k]? with
    | some e => code e
    | none => opS "v_int(0)"

def emitFirst (args : List Nat) (missing : String) : Prog emits Unit :=
  match args with
  | e :: _ => code e
  | [] => opS missing

def emitMName (mid : Nat) : Prog emits Unit := do
  opName ((← .gets St.mname).getD mid [])

def emitRemoteCall (e : Node) (ms : Int) (elseNode : Option Nat) : Prog emits Unit := do
  let r ← nodeAt e.a
  if 1 < e.args.length then
    a2cFail "remote: 引数は 1 個までです"
    return
  if elseNode.isSome then opS "cc_value("
  opS "cc_remote_call("
  code (r.args.getD 0 0)
  opS ", "
  code (r.args.getD 1 0)
  opS ", v_str(\""
  emitMName e.mid
  opS "\"), "
  emitFirst code e.args "v_int(0)"
  opS ", v_int("
  opN ms
  opS "))"
  match elseNode with
  | some other =>
    opS ", "
    code other
    opS ")"
  | none => pure ()

/-- The number of the method `init`, when the class has one. -/
def initOf (ci : Nat) : Prog emits (Option Nat) := do
  match (← .gets St.cls)[ci]? with
  | some c =>
    if c.methods.any fun m => m.name = "init".toList then
      let im ← methId "init".toList
      return some im
    else return none
  | none => return none

/-- The call that makes an object, with the arguments of `init`. -/
def emitSpawn (ci : Nat) (im : Option Nat) (args : Prog emits Unit) : Prog emits Unit := do
  match im with
  | some im =>
    opS "__new_init(g_spawn("
    opN ci
    opS "), "
    opN im
    args
    opS ")"
  | none =>
    opS "g_spawn("
    opN ci
    opS ")"

/-- The arguments of an `init` that gets none. -/
def zeroArgs : Prog emits Unit := opS ", v_int(0), v_int(0), v_int(0), v_int(0)"

def callName : Op → String × Bool
  | .add => ("v_add", false)
  | .sub => ("v_sub", false)
  | .mul => ("v_mul", false)
  | .div => ("v_div", false)
  | .lt => ("v_lt", false)
  | .le => ("v_le", false)
  | .gt => ("v_lt", true)
  | .ge => ("v_le", true)
  | .eq => ("v_eq", false)
  | .ne => ("v_ne", false)
  | .and => ("v_and", false)
  | .or => ("v_or", false)
  | .not | .neg => ("v_add", false)

def emitCall (fn : String) (e : Node) : Prog emits Unit := do
  opS fn
  opS "(v_int_of("
  code e.a
  opS "), "
  opN e.mid
  emitArgsFilled code e.args

def emitElse (b : Option Nat) : Prog emits Unit :=
  match b with
  | none => opS "v_err()"
  | some other => code other

def emitList : List Nat → Prog emits Unit
  | [] => pure ()
  | [e] => code e
  | e :: rest => do
    code e
    opS ", "
    emitList rest

def emitWrapped (fn : String) (inner : Prog emits Unit) : Prog emits Unit := do
  opS fn
  opS "("
  inner
  opS ")"

/-- The cases of `emit_node`. -/
def emitKind (e : Node) : Prog emits Unit := do
  match e.k with
  | .nil => opS "v_int(0)"
  | .int => emitWrapped "v_int" (opN (asLong e.num))
  | .bool => emitWrapped "v_bool" (opN e.num)
  | .flt => emitWrapped "v_floatlit" (opFloat false e.num e.frac)
  | .str =>
    opS "v_str(\""
    opName e.s
    opS "\")"
  | .id => emitIdent e.s
  | .new =>
    let im ← initOf e.ci
    if e.args ≠ [] ∧ im.isNone then a2cFail "new: class has no init to take arguments"
    else emitWrapped "v_int" (emitSpawn e.ci im (emitArgsFilled code e.args))
  | .rt => emitWrapped e.s2 (emitList code e.args)
  | .selfcall =>
    let c ← .gets fun s => s.cc.bind fun ci => s.cls[ci]?
    opS "m_"
    opName (c.elim [] fun c => c.name)
    opS "_"
    opName (c.elim [] fun c => (c.methods[e.mid]?).elim [] fun m => m.name)
    opS "(self"
    emitArgsFilled code e.args
    opS ")"
  | .print => emitWrapped "v_print" (emitFirst code e.args "v_int(0)")
  | .aicall => emitWrapped "v_ai_call" (emitFirst code e.args "v_str(\"\")")
  | .remote => a2cFail "remote(...) は send / now の送信先の位置でだけ書けます"
  | .now =>
    if (← nodeAt e.a).k = .remote then emitRemoteCall code e 2000 none
    else
      emitCall code "__now" e
      opS ")"
  | .wait => emitWrapped "cc_wait" (emitFirst code e.args "v_int(0)")
  | .spawn =>
    let im ← initOf e.ci
    opS "cc_web_expose(v_str(\""
    opName e.s
    opS "\"), "
    emitSpawn e.ci im zeroArgs
    opS ")"
  | .web =>
    if e.num ≠ 0 then
      opS "cc_web_expose("
      emitFirst code e.args "v_int(0)"
      opS ", v_int_of(v_"
      opName (← nodeAt (e.args.getD 1 0)).s
      opS "))"
    else emitWrapped "cc_web_listen" (emitFirst code e.args "v_int(0)")
  | .fut =>
    emitCall code "cc_future" e
    opS ")"
  | .await => emitWrapped "cc_await" (code e.a)
  | .awaitdl =>
    opS "cc_await_dl("
    code e.a
    opS ", "
    opN (asLong e.num)
    opS ", "
    emitElse code e.b
    opS ")"
  | .nowdl =>
    if (← nodeAt e.a).k = .remote then emitRemoteCall code e (asLong e.num) e.b
    else
      emitCall code "__dl_call" e
      opS ", "
      opN (asLong e.num)
      opS ", "
      emitElse code e.b
      opS ")"
  | .un =>
    if e.op = .not then emitWrapped "v_not" (code e.a)
    else
      opS "v_sub(v_int(0), "
      code e.a
      opS ")"
  | .bin =>
    let (fn, swap) := callName e.op
    let b := e.b.getD 0
    opS fn
    opS "("
    code (if swap then b else e.a)
    opS ", "
    code (if swap then e.a else b)
    opS ")"

end Code

/-- `emit_node`: an invalid node, or any node after an error, is a zero. -/
def emitNode : Nat → Nat → Prog emits Unit
  | 0, _ => outOfRounds
  | depth + 1, i => do
    if i = 0 ∨ maxNode ≤ i ∨ (← failed) then opS "v_int(0)"
    else emitKind (emitNode depth) (← nodeAt i)

end XinuRpi5.Cc.AiplExpr
