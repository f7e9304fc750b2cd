/- source: cc/abcl2c.c
   digest: The statements of the AIPL translator and the emission of a whole program. -/

import XinuRpi5.Cc.AiplExpr

namespace XinuRpi5.Cc.AiplEmit

open AiplLex AiplStructure AiplScan AiplExpr
open Lib.RuledState

attribute [local instance] lawful_text

/-- `CC`, `CURMETH` and the local names. -/
def setContext (cc : Option Nat) (curMeth : Nat) (locals : List Text) : Prog emits Unit :=
  .change (fun s => { s with cc := cc, curMeth := curMeth, locals := locals })
    fun _ => .quiet rfl rfl rfl rfl rfl rfl

def addLocal (name : Text) : Prog emits Unit :=
  .change (fun s =>
    { s with locals := if s.locals.length < 64 then s.locals ++ [name.take 47] else s.locals })
    fun _ => .quiet rfl rfl rfl rfl rfl rfl

/-- `meth_id` of the name of a declared method, which was asked for before. -/
def methIdAgain (name : Text) : Prog emits Nat :=
  .act (fun s => ((methIdIn s.mname name).1,
    if ∃ c ∈ s.cls, ∃ m ∈ c.methods, m.name = name then
      { s with mname := (methIdIn s.mname name).2 }
    else s.ask name name)) fun s => by
      by_cases declared : ∃ c ∈ s.cls, ∃ m ∈ c.methods, m.name = name
      · rw [if_pos declared]
        refine ⟨rfl, rfl, rfl, methIdIn_grows s.mname name, fun logged => ?_, [],
          (List.append_nil _).symm, fun _ _ listed => by cases listed⟩
        obtain ⟨c, listed, m, inside, rfl⟩ := declared
        obtain ⟨a, _, _, again⟩ := logged.again listed inside
        unfold Logged
        rw [again]
        exact logged
      · rw [if_neg declared]
        exact Neutral.mname (r := emits) s name

/-- `sel_intercept`: the first select of the class that waits for the message,
with its case. -/
def selIntercept (sel : List Sel) (ci mid : Nat) : Option (Sel × Case) :=
  sel.findSome? fun sp =>
    if sp.cls = ci then (sp.cases.find? fun c => c.mid = mid).map fun c => (sp, c) else none

def selOwner (sel : List Sel) (ci mi : Nat) : Option Sel :=
  sel.find? fun sp => sp.cls = ci ∧ sp.owner = mi

section Statements

variable (rounds : Nat)

def parseExpr : Prog emits Nat := (parsers rounds rounds).expr

def code (e : Nat) : Prog emits Unit := emitNode rounds e

def emitStmts (stmt : Prog emits Unit) : Nat → Prog emits Unit
  | 0 => outOfRounds
  | left + 1 => do
    if (← isP rbrace) ∨ (← isEof) ∨ (← failed) then return
    stmt
    emitStmts stmt left

def emitBlock (stmt : Prog emits Unit) : Prog emits Unit := do
  opS "\x7b\n"
  lexNext
  emitStmts stmt rounds
  if ← isP rbrace then lexNext
  opS "\x7d\n"

def skipP (p : String) : Prog emits Unit := do
  if ← isP p then lexNext

def emitSend : Prog emits Unit := do
  lexNext
  skipP "!"
  let obj ← (parsers rounds rounds).primary
  if !(← expectP "." "send: expected .method") then return
  let t ← tok
  if t.kind ≠ .id then
    a2cFail "send: expected method"
    return
  let mid ← methId t.s
  lexNext
  let args ← optArgs rounds (parsers rounds rounds)
  skipP ";"
  let target ← nodeAt obj
  if target.k = .remote then
    if 1 < args.length then
      a2cFail "remote: 引数は 1 個までです"
      return
    opS "  cc_remote_send("
    code rounds (target.args.getD 0 0)
    opS ", "
    code rounds (target.args.getD 1 0)
    opS ", v_str(\""
    emitMName mid
    opS "\"), "
    emitFirst (code rounds) args "v_int(0)"
    opS ");\n"
  else
    opS "  enqueue(v_int_of("
    code rounds obj
    opS "), "
    opN mid
    emitArgsFilled (code rounds) args
    opS ");\n"
    if (← .gets St.cc).isNone then opS "  cc_pump_now();\n"

/-- `var x: int = e;` with `var` as the current token. -/
def emitVar : Prog emits Unit := do
  lexNext
  if (← tok).kind ≠ .id then
    a2cFail "var: expected name"
    return
  let name ← cpid
  lexNext
  if ← isP ":" then
    lexNext
    if !(← skipType) then return
  if (← .gets St.cc).isNone ∧ name ∈ (← .gets St.topv) then opS "  v_" else opS "  int v_"
  opName name
  opS " = "
  if ← isP "=" then
    lexNext
    let e ← parseExpr rounds
    code rounds e
  else opS "v_int(0)"
  opS ";\n"
  addLocal name
  skipP ";"

/-- The condition of `if` and `while`. -/
def parseCondition : Prog emits Nat := do
  lexNext
  skipP "("
  let c ← parseExpr rounds
  skipP ")"
  return c

def emitReturn : Prog emits Unit := do
  lexNext
  if ← isP ";" then
    opS "  return 0;\n"
    lexNext
  else
    let e ← parseExpr rounds
    opS "  return "
    code rounds e
    opS ";\n"
    skipP ";"

/-- `reply(e)`, which has to end its block. -/
def emitReply : Prog emits Unit := do
  lexNext
  if !(← expectP "(" "reply: expected '('") then return
  opS "  return "
  if ← isP ")" then opS "v_int(0)"
  else
    let e ← parseExpr rounds
    if ← failed then return
    code rounds e
  opS ";\n"
  if !(← expectP ")" "reply: expected ')'") then return
  skipP ";"
  if !((← isP rbrace) ∨ (← isEof)) then
    a2cFail "reply must be the last statement of its block on this device"

def emitSelect : Prog emits Unit := do
  let s ← .gets id
  match s.cc.bind fun ci => (selOwner s.sel ci s.curMeth).map fun sp => (ci, sp) with
  | none => a2cFail "select: メソッドの中でだけ使えます"
  | some (ci, sp) =>
    lexNext
    if ← isP lbrace then goto sp.rest
    opS "  g_obj[self].f["
    opSelField ci
    opS "] = v_int("
    opN sp.sid
    opS ");\n"

def emitSimple : Prog emits Unit := do
  if (← tok).kind = .id then
    let saved ← .gets St.lex
    let name ← cpid
    lexNext
    if ← isP "=" then
      lexNext
      let e ← parseExpr rounds
      opS "  "
      emitIdent name
      opS " = "
      code rounds e
      opS ";\n"
      skipP ";"
      return
    onLex fun l => l.load saved
  let e ← parseExpr rounds
  opS "  "
  code rounds e
  opS ";\n"
  skipP ";"

/-- `emit_stmt` with a bound on the nesting of statements. -/
def emitStmt : Nat → Prog emits Unit
  | 0 => outOfRounds
  | depth + 1 => do
    if ← isEof then return
    if ← isP lbrace then
      opS "  "
      emitBlock rounds (emitStmt depth)
    else if ← isKw "var" then emitVar rounds
    else if ← isKw "if" then
      let c ← parseCondition rounds
      opS "  if (v_truthy("
      code rounds c
      opS ")) "
      emitStmt depth
      if ← isKw "else" then
        lexNext
        opS "  else "
        emitStmt depth
    else if ← isKw "while" then
      let c ← parseCondition rounds
      if ← isKw "do" then lexNext
      opS "  while (v_truthy("
      code rounds c
      opS ")) "
      emitStmt depth
    else if ← isKw "return" then emitReturn rounds
    else if ← isKw "send" then emitSend rounds
    else
      if ← isKw "call" then lexNext
      if ← isKw "reply" then emitReply rounds
      else if ← isKw "select" then emitSelect
      else emitSimple rounds

end Statements

section Program

/-- The number of a field in `g_spawn`. -/
def opSlot (ci f : Nat) : Prog emits Unit :=
  .change (fun s =>
    if (s.cls[ci]?.elim 0 fun c => c.fields.length) ≤ f then { s with out := s.out ++ [.num f] }
    else { s with out := s.out ++ [.index f] }) fun s => by
      split_ifs with outside
      · refine ⟨rfl, rfl, rfl, noNames, id, [.num f], rfl, fun _ k listed => ?_⟩
        cases List.mem_singleton.mp listed
      · refine ⟨rfl, rfl, rfl, noNames, id, [.index f], rfl,
          fun _ k listed => ?_⟩
        obtain rfl := Piece.index.inj (List.mem_singleton.mp listed)
        cases found : s.cls[ci]? with
        | none =>
          rw [found] at outside
          exact absurd (Nat.zero_le k) outside
        | some c =>
          rw [found] at outside
          exact ⟨c, List.mem_of_getElem? found, Nat.not_le.mp outside⟩

/-- The number in `struct Obj`. -/
def opLength (n : Nat) : Prog emits Unit := emit (.length n) fun _ => by simp

/-- The line of `g_spawn` that sets a field. -/
def emitFieldInit (ci f : Nat) (init : Init) : Prog emits Unit := do
  opS "    g_obj[id].f["
  opSlot ci f
  match init with
  | .new kc =>
    let im ← initOf kc
    opS "] = v_int("
    emitSpawn kc im zeroArgs
    opS ");\n"
  | .float neg whole frac =>
    opS "] = v_floatlit("
    opFloat neg whole frac
    opS ");\n"
  | .bool v =>
    opS "] = v_bool("
    opN v
    opS ");\n"
  | .int v =>
    opS "] = v_int("
    opN v
    opS ");\n"

/-- The first lines of `emit_program`, with the length of the field array. -/
def emitStruct : Prog emits Unit := do
  opS "/* AIPL -> C  (on-device abcl2c: self-contained integer subset) */\n"
  opS "struct Obj \x7b int cls; int f["
  opLength (← .gets St.maxf)
  opS "]; \x7d;\n"

/-- `emit_program` from there up to the end of `g_spawn`. -/
def emitRuntime : Prog emits Unit := do
  opS "struct Obj g_obj[2048];\nint g_nobj;\n\n"
  opS "int __new_init(int id, int meth, int a0, int a1, int a2, int a3) \x7b\n"
  opS "  if (id >= 0) \x7b dispatch(id, meth, a0, a1, a2, a3); \x7d\n  return id;\n\x7d\n"
  opS "int __now(int to, int meth, int a0, int a1, int a2, int a3) \x7b\n  int r;\n"
  opS "  cc_now_push();\n  r = dispatch(to, meth, a0, a1, a2, a3);\n  return cc_now_pop(r);\n\x7d\n"
  opS "int __dl_call(int to, int meth, int a0, int a1, int a2, int a3, int ms, int elsev) \x7b\n"
  opS "  int t0; int r;\n  t0 = v_int_of(cc_now_ms());\n  cc_now_push();\n"
  opS "  r = dispatch(to, meth, a0, a1, a2, a3);\n  r = cc_now_pop(r);\n"
  opS "  if (v_int_of(cc_now_ms()) - t0 > ms) \x7b return elsev; \x7d\n  return r;\n\x7d\n"
  opS "int g_idlo; int g_idhi;\n"
  opS "int g_spawn(int cls) \x7b\n  int id; id = cc_actor_new();\n"
  opS "  if (id < 0) \x7b v_print(v_str(\"cc: アクタを作れませんでした（資源不足）\")); return -1; \x7d\n"
  opS "  if (g_nobj == 0) \x7b g_idlo = id; g_idhi = id; \x7d\n"
  opS "  if (id < g_idlo) \x7b g_idlo = id; \x7d\n  if (id > g_idhi) \x7b g_idhi = id; \x7d\n"
  opS "  g_nobj = g_nobj + 1;\n  g_obj[id].cls = cls;\n"
  .each (← .gets St.cls).zipIdx fun (c, ci) => do
    opS "  if (cls == "
    opN ci
    opS ") \x7b\n"
    .each c.fields.zipIdx fun (field, f) => emitFieldInit ci f field.init
    opS "  \x7d\n"
  opS "  return id;\n\x7d\n\n"

/-- `emit_program` up to its two passes. -/
def emitHead : Prog emits Unit := do
  emitStruct
  emitRuntime

variable (rounds : Nat)

def stmt : Prog emits Unit := emitStmt rounds rounds

/-- A block somewhere in the source, and what follows the select it belongs to. -/
def emitDetached (body rest : Text) : Prog emits Unit := do
  goto body
  emitBlock rounds (stmt rounds)
  goto rest
  emitStmts (stmt rounds) rounds

def emitIntercept (ci : Nat) (m : Method) (sp : Sel) (case : Case) : Prog emits Unit := do
  opS "  if (v_int_of(g_obj[self].f["
  opSelField ci
  opS "]) == "
  opN sp.sid
  opS ") \x7b\n    g_obj[self].f["
  opSelField ci
  opS "] = v_int(0);\n"
  match m.params with
  | first :: _ =>
    if case.var ≠ [] ∧ case.var ≠ first then
      opS "    int v_"
      opName case.var
      opS " = a0;\n"
      addLocal case.var
  | [] => pure ()
  emitDetached rounds case.body sp.rest
  opS "    return v_int(0);\n  \x7d\n"

def emitPending (ci mi : Nat) (m : Method) : Prog emits Unit := do
  let mid ← methIdAgain m.name
  match selIntercept (← .gets St.sel) ci mid with
  | some (sp, case) =>
    emitIntercept rounds ci m sp case
    setContext (some ci) mi m.params
  | none => pure ()

def emitMethod (className : Text) (ci mi : Nat) (m : Method) : Prog emits Unit := do
  opS "int m_"
  opName className
  opS "_"
  opName m.name
  opS "(int self, int a0, int a1, int a2, int a3) \x7b\n"
  setContext (some ci) mi m.params
  .each m.params.zipIdx fun (param, k) => do
    opS "  int v_"
    opName param
    opS " = a"
    opN k
    opS ";\n"
  emitPending rounds ci mi m
  goto m.body
  emitBlock rounds (stmt rounds)
  opS "  return 0;\n\x7d\n\n"

def withTimeout (sel : List Sel) : List (Sel × Text) :=
  sel.filterMap fun sp => sp.tbody.map fun body => (sp, body)

def emitTimeout (sp : Sel) (body : Text) : Prog emits Unit := do
  opS "int __seltmo"
  opN sp.sid
  opS "(int self) \x7b\n"
  setContext (some sp.cls) sp.owner []
  emitDetached rounds body sp.rest
  opS "  return v_int(0);\n\x7d\n\n"

/-- The part of `__sel_sweep` for a select. -/
def emitSweep (sp : Sel) : Prog emits Unit := do
  opS "    if (g_obj[i].cls == "
  opN sp.cls
  opS ") \x7b\n      if (v_int_of(g_obj[i].f["
  opSelField sp.cls
  opS "]) == "
  opN sp.sid
  opS ") \x7b\n        g_obj[i].f["
  opSelField sp.cls
  opS "] = v_int(0);\n        __seltmo"
  opN sp.sid
  opS "(i);\n      \x7d\n    \x7d\n"

def emitTopvars : Prog emits Unit := do
  .each (← .gets St.topv) fun name => do
    opS "int v_"
    opName name
    opS ";\n"
  if (← .gets St.topv) ≠ [] then opS "\n"

def emitClasses : Prog emits Unit := do
  .each (methodsOf (← .gets St.cls)) fun (ci, mi, m) => do
    let c ← .gets fun s => s.cls[ci]?
    emitMethod rounds (c.elim [] fun c => c.name) ci mi m

def emitTimeouts : Prog emits Unit := do
  let timeouts := withTimeout (← .gets St.sel)
  if timeouts ≠ [] then
    .each timeouts fun (sp, body) => emitTimeout rounds sp body
    opS "int __sel_sweep() \x7b\n  int i;\n  i = g_idlo;\n  while (i <= g_idhi) \x7b\n"
    .each timeouts fun (sp, _) => emitSweep sp
    opS "    i = i + 1;\n  \x7d\n  return 0;\n\x7d\n\n"

/-- `dispatch` and the tables behind it. -/
def emitTables : Prog emits Unit := do
  let cls ← .gets St.cls
  opS "int dispatch(int self, int meth, int a0, int a1, int a2, int a3) \x7b\n"
  opS "  int c;\n  if (self < 0) \x7b return v_int(0); \x7d\n  c = g_obj[self].cls;\n"
  .each cls.zipIdx fun (c, ci) => do
    opS "  if (c == "
    opN ci
    opS ") \x7b\n"
    .each c.methods fun m => do
      opS "    if (meth == "
      let mid ← methIdAgain m.name
      opN mid
      opS ") return m_"
      opName c.name
      opS "_"
      opName m.name
      opS "(self, a0, a1, a2, a3);\n"
    opS "  \x7d\n"
  opS "  return 0;\n\x7d\n\nint __method_id(int name) \x7b\n"
  .each (← .gets St.mname).zipIdx fun (name, i) => do
    opS "  if (v_truthy(v_eq(name, v_str(\""
    opName name
    opS "\")))) return v_int("
    opN i
    opS ");\n"
  opS "  return v_int(-1);\n\x7d\n\nint __nobj() \x7b return v_int(g_nobj); \x7d\n"
  opS "int __cls_name(int cls) \x7b\n"
  .each cls.zipIdx fun (c, ci) => do
    opS "  if (cls == "
    opN ci
    opS ") return v_str(\""
    opName c.name
    opS "\");\n"
  opS "  return v_str(\"?\");\n\x7d\nint __obj_cls(int id) \x7b return v_int(g_obj[id].cls); \x7d\n"
  opS "int __obj_field(int id, int fidx) \x7b return g_obj[id].f[fidx]; \x7d\n\n"

def topStmts : Nat → Prog emits Unit
  | 0 => outOfRounds
  | left + 1 => do
    if (← isEof) ∨ (← failed) then return
    stmt rounds
    topStmts left

def emitMain : Prog emits Unit := do
  opS "int main() \x7b\n"
  setContext none 0 []
  goto (← .gets St.toplevel)
  topStmts rounds rounds
  if withTimeout (← .gets St.sel) ≠ [] then opS "  cc_pump_now();\n  __sel_sweep();\n"
  opS "  return 0;\n\x7d\n"

/-- `emit_program` behind the two passes. -/
def emitRest : Prog emits Unit := do
  emitTopvars
  emitClasses rounds
  emitTimeouts rounds
  emitTables
  emitMain rounds

/-- The passes of `emit_program`. -/
def scanPasses : Prog scans Unit := do
  scanSelects rounds
  scanTopvars

/-- The states of a translation after the structural pass, after `g_spawn`, after
the two passes, and at the end. -/
def parsed (src : Text) : Bool × St := (parseStructure rounds).run (start src)

def headed (src : Text) : St := (emitHead.run (parsed rounds src).2).2

def scanned (src : Text) : St := ((scanPasses rounds).run (headed rounds src)).2

def finished (src : Text) : St := ((emitRest rounds).run (scanned rounds src)).2

/-- `abcl2c` with an output buffer that is large enough. -/
def abcl2c (src : Text) : Option (List Piece) :=
  if (parsed rounds src).1 = false then none
  else if (finished rounds src).lex.err.isSome ∨ (finished rounds src).stuck then none
  else some (finished rounds src).out

end Program

end XinuRpi5.Cc.AiplEmit
