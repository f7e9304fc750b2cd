/- source: cc/cc.c
   digest: The three ways to run a source text: at once, compiled first, and as a saved blob. -/

import XinuRpi5.Cc.Runtime
import XinuRpi5.Lib.LittleEndian

/-!
What lexer, parser and code generator make of a text in a fresh arena is one function of the
text, and so is what the processor does from an offset of the code buffer. The variables of the
resident program, which no run reads, are left out.
-/

namespace XinuRpi5.Cc.RunPaths

open Cc.Runtime Lib.LittleEndian

def codeCap : Nat := 256 * 1024

/-- `CC_ARENA` -/
def arenaCap : Nat := 2 * 1024 * 1024

/-- What a compilation leaves: the code, the used part of the arena, and the offsets of `main`
and of the functions that the runtime calls. -/
structure Image where
  code : List UInt8
  arena : List UInt8
  entry : Nat
  apply : Option Nat
  dispatch : Option Nat
  codeFits : code.length ≤ codeCap
  arenaFits : arena.length ≤ arenaCap
  entryInside : entry ≤ codeCap
  applyInside : ∀ a ∈ apply, a ≤ codeCap
  dispatchInside : ∀ a ∈ dispatch, a ≤ codeCap

/-- `cc_lex`, `cc_parse` and `cc_codegen`: the message of `cc_error`, or the image. -/
abbrev Compiler := List UInt8 → Except String Image

/-- What the code in the buffer does when it is called at an offset, with that arena. -/
structure Cpu where
  main : List UInt8 → List UInt8 → Nat → Prog
  apply : List UInt8 → List UInt8 → Nat → Int → Int → Prog
  dispatch : List UInt8 → List UInt8 → Nat → Int → Int → Int → Int → Int → Int → Prog

/-- The runtime, `g_codebuf`, `g_arenabuf`, `g_errbuf`, the two functions that `cc_func_offset`
is asked for, `g_cc_entry` when `g_cc_ready` is set, `g_apply` and `g_dispatch`. -/
structure Board where
  m : Machine
  codebuf : List UInt8
  arenabuf : List UInt8
  errbuf : String
  funcs : Option Nat × Option Nat
  ready : Option Nat
  gApply : Option Nat
  gDispatch : Option Nat

def Board.initial : Board := ⟨boot, [], [], "", (none, none), none, none, none⟩

def Board.onState (b : Board) (f : State → State) : Board := { b with m.st := f b.m.st }

def webReset (s : State) : State := { s with web := [] }

def futureReset (s : State) : State := { s with fut := fun i => { s.fut i with used := false } }

/-- `cc_set_on_proc`; the counts of the clock and of the outside world begin anew. -/
def enter (setting : Setting) (s : State) : State :=
  { s with onProc := setting.onProc, reads := 0, asked := 0 }

/-- `g_cap`, `g_capcap` and `g_caplen` -/
def capture (setting : Setting) (s : State) : State := { s with out := [], room := setting.room }

def setDeadline (setting : Setting) (s : State) : State :=
  let (s, now) := readClock setting.env s
  { s with
    deadline := (now + setting.env.frq / 1000 * setting.timeoutMs) % 2 ^ 64
    aborted := false
    sleepLeft := 10000 }

def vheapReset (s : State) : State := { s with vheapLen := 0 }

def lheapReset (s : State) : State := { s with lheapLen := 0 }

def actorReset (s : State) : State :=
  { s with
    nact := 0
    mq := []
    alive := fun _ => false
    guarded := fun _ => 0
    lastact := fun _ => 0 }

def heldNote (name : List UInt8) : List UInt8 :=
  utf8 "\ncc: resource " ++ name ++ utf8 " is still held at the end of the run\n"

def resReport (s : State) : State :=
  { s.res.foldl (fun s r => if 0 < r.depth then emit s (heldNote r.name) else s) s with res := [] }

section Paths

variable (cpu : Cpu) (compiler : Compiler) (setting : Setting) (fuel : Nat)

def Board.program (b : Board) (entry : Nat) : Blob where
  entry := cpu.main b.codebuf b.arenabuf entry
  apply := b.gApply.map (cpu.apply b.codebuf b.arenabuf)
  dispatch := b.gDispatch.map (cpu.dispatch b.codebuf b.arenabuf)

/-- `main`, and then `cc_pump`. -/
def Board.run (b : Board) (entry : Nat) : Option (Board × Int) :=
  (exec setting.env (b.program cpu entry) fuel (.prog (b.program cpu entry).entry) b.m).bind
    fun y => (exec setting.env (b.program cpu entry) fuel .pump y.1).map
      fun z => ({ b with m := z.1 }, y.2)

/-- From `arena_init` to `cc_codegen`; the entry, if nothing failed. -/
def Board.compile (b : Board) (src : List UInt8) : Board × Option Nat :=
  match compiler src with
  | .error e => ({ b with errbuf := e }, none)
  | .ok image =>
    ({ b with
      codebuf := image.code
      arenabuf := image.arena
      errbuf := ""
      funcs := (image.apply, image.dispatch) }, some image.entry)

/-- `compile_run_core`: the value of `main`, if the text compiles. -/
def compileRunCore (src : List UInt8) (b : Board) : Option (Board × Option Int) :=
  let b := { b with gDispatch := none }
  let b := b.onState webReset
  let b := b.onState futureReset
  match b.compile compiler src with
  | (b, none) => some (b, none)
  | (b, some entry) =>
    let b := b.onState (setDeadline setting)
    let b := b.onState vheapReset
    let b := b.onState lheapReset
    let b := b.onState actorReset
    let b := { b with gApply := b.funcs.1 }
    let b := { b with gDispatch := b.funcs.2 }
    (b.run cpu setting fuel entry).map fun y => (y.1, some y.2)

/-- `cc_run_source`: the output and the value, or the message. -/
def ccRunSource (src : List UInt8) (b : Board) :
    Option (Board × Except String (List UInt8 × Int)) :=
  let b := b.onState (enter setting)
  let b := b.onState (capture setting)
  (compileRunCore cpu compiler setting fuel src b).map fun y =>
    let b := y.1.onState resReport
    match y.2 with
    | none => (b, .error b.errbuf)
    | some v =>
      let b := b.onState finish
      (b, .ok (b.m.st.out, v))

/-- `cc_compile`: whether the text compiles. -/
def ccCompile (src : List UInt8) (b : Board) : Board × Bool :=
  let b := { b with ready := none }
  let b := { b with gDispatch := none }
  let b := b.onState webReset
  let b := b.onState futureReset
  match b.compile compiler src with
  | (b, none) => (b, false)
  | (b, some entry) =>
    let b := { b with ready := some entry }
    ({ b with gDispatch := b.funcs.2 }, true)

/-- `cc_exec_compiled`: the output and the value. -/
def ccExecCompiled (b : Board) : Option (Board × List UInt8 × Int) :=
  match b.ready with
  | none => some (b, [], 0)
  | some entry =>
    let b := b.onState (enter setting)
    let b := b.onState (capture setting)
    let b := b.onState (setDeadline setting)
    let b := b.onState vheapReset
    let b := b.onState lheapReset
    let b := b.onState actorReset
    let b := { b with gApply := b.funcs.1 }
    (b.run cpu setting fuel entry).map fun y => (y.1, y.1.m.st.out, y.2)

def xjxMagic : Nat := 0x31584a58

def offsetWord (offset : Option Nat) : Nat := offset.getD 0xffffffff

/-- `struct xjx_hdr` -/
def xjxHdr (entry : Nat) (apply dispatch : Option Nat) (codelen arenalen : Nat) : List UInt8 :=
  fields 4 [xjxMagic, entry, offsetWord apply, offsetWord dispatch, codelen, arenalen]

/-- `cc_compile_blob` with a buffer of `outcap` bytes: the blob, or the error. -/
def ccCompileBlob (src : List UInt8) (outcap : Nat) (b : Board) :
    Board × Except Int (List UInt8) :=
  let b := { b with gDispatch := none }
  match b.compile compiler src with
  | (b, none) => (b, .error (-1))
  | (b, some entry) =>
    let total := 24 + b.codebuf.length + b.arenabuf.length
    if outcap < total then
      ({ b with errbuf := "program too large for the executable buffer" }, .error (-3))
    else
      (b, .ok (xjxHdr entry b.funcs.1 b.funcs.2 b.codebuf.length b.arenabuf.length ++
        b.codebuf ++ b.arenabuf))

def offsetOf (word : Nat) : Option Nat := if word = 0xffffffff then none else some word

/-- `cc_run_blob`: the output and the value, if the blob is valid. -/
def ccRunBlob (blob : List UInt8) (b : Board) : Option (Board × Option (List UInt8 × Int)) :=
  if blob.length < 24 ∨ field 4 blob 0 ≠ xjxMagic then some (b, none)
  else if codeCap < field 4 blob 4 ∨ arenaCap < field 4 blob 5 then some (b, none)
  else if blob.length < 24 + field 4 blob 4 + field 4 blob 5 then some (b, none)
  else
    let p := blob.drop 24
    let b := { b with codebuf := p.take (field 4 blob 4) }
    let b := { b with arenabuf := (p.drop (field 4 blob 4)).take (field 4 blob 5) }
    let b := b.onState (enter setting)
    let b := b.onState (setDeadline setting)
    let b := b.onState vheapReset
    let b := b.onState lheapReset
    let b := b.onState actorReset
    let b := { b with gApply := offsetOf (field 4 blob 2) }
    let b := { b with gDispatch := offsetOf (field 4 blob 3) }
    let b := b.onState (capture setting)
    (b.run cpu setting fuel (field 4 blob 1)).map fun y =>
      let b := y.1.onState finish
      (b, some (b.m.st.out, y.2))

end Paths

end XinuRpi5.Cc.RunPaths
