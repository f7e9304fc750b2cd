/- source: fs/vfs.c, include/vfs.h
   digest: The in-memory file tree: nodes, child lists, creation by name and by path, writing. -/

import Mathlib.Logic.Function.Basic

/-!
A node pointer is the number of its allocation; the root is number 0. Nodes are
never freed. Whether `kmalloc` succeeds is an input. The two loops over a child
list carry a step budget; running out of it (`none`) stands for a loop that does
not end.
-/

namespace XinuRpi5.Fs.Vfs

/-- `vfs_kind_t`. -/
inductive Kind where
  | dir
  | file
  deriving DecidableEq

/-- `vfs_node_t`. `fat_cluster` is only used by the FAT32 loader. -/
structure Node where
  name : List Char
  kind : Kind
  size : Nat
  capacity : Nat
  data : Option (List UInt8)
  parent : Option Nat
  children : Option Nat
  next : Option Nat

/-- The heap of nodes, how many were allocated, and `g_node_count`. -/
structure Store where
  heap : Nat → Node
  used : Nat
  nodeCount : Nat

/-- `g_root`. -/
def rootNode : Node := ⟨[], .dir, 0, 0, none, none, none, none⟩

def init : Store := ⟨fun _ => rootNode, 1, 1⟩

/-- `str_copy(dst, src, VFS_NAME_MAX + 1)`. -/
def strCopy (src : List Char) : List Char := src.take 31

def findFrom (heap : Nat → Node) (name : List Char) : Nat → Option Nat → Option (Option Nat)
  | 0, _ => none
  | _ + 1, none => some none
  | fuel + 1, some c =>
    if (heap c).name = name then some (some c) else findFrom heap name fuel (heap c).next

def findChild (v : Store) (parent : Nat) (name : List Char) : Option (Option Nat) :=
  if (v.heap parent).kind ≠ .dir then some none
  else findFrom v.heap name (v.used + 1) (v.heap parent).children

/-- `while (t->next) t = t->next`. -/
def lastFrom (heap : Nat → Node) : Nat → Nat → Option Nat
  | 0, _ => none
  | fuel + 1, t =>
    match (heap t).next with
    | none => some t
    | some u => lastFrom heap fuel u

/-- `new_node` after `kmalloc` returned memory; every caller passes a parent. -/
def newNode (v : Store) (kind : Kind) (name : List Char) (parent : Nat) : Option (Store × Nat) :=
  let n := v.used
  let heap := Function.update v.heap n ⟨strCopy name, kind, 0, 0, none, some parent, none, none⟩
  match (heap parent).children with
  | none =>
    some (⟨Function.update heap parent { heap parent with children := some n }, n + 1,
      v.nodeCount + 1⟩, n)
  | some first =>
    (lastFrom heap (v.used + 1) first).map fun t =>
      (⟨Function.update heap t { heap t with next := some n }, n + 1, v.nodeCount + 1⟩, n)

/-- The common body of `vfs_mkdir` and `vfs_create_file`; `memory` says whether
`kmalloc` succeeds. -/
def create (kind : Kind) (v : Store) (parent : Option Nat) (name : List Char) (memory : Bool) :
    Option (Store × Option Nat) :=
  match parent with
  | none => some (v, none)
  | some p =>
    if (v.heap p).kind ≠ .dir then some (v, none)
    else
      (findChild v p name).bind fun
        | some _ => some (v, none)
        | none =>
          if memory then (newNode v kind name p).map fun (v, n) => (v, some n)
          else some (v, none)

def vfsMkdir : Store → Option Nat → List Char → Bool → Option (Store × Option Nat) := create .dir

def vfsCreateFile : Store → Option Nat → List Char → Bool → Option (Store × Option Nat) :=
  create .file

/-- The next path component, cut at `VFS_NAME_MAX` characters. -/
def component (p : List Char) : List Char := (p.takeWhile (· ≠ '/')).take 31

/-- `if (*p == '/') p++`. -/
def skipSlash : List Char → List Char
  | '/' :: p => p
  | p => p

theorem skipSlash_le (p : List Char) : (skipSlash p).length ≤ p.length := by
  unfold skipSlash
  split
  · simp
  · exact Nat.le_refl _

theorem advance_lt (c : Char) (p : List Char) :
    (skipSlash ((c :: p).drop (component (c :: p)).length)).length < (c :: p).length := by
  by_cases slash : c = '/'
  · subst slash
    simp [component, skipSlash]
  · have some : 0 < (component (c :: p)).length := by
      simp [component, slash]
    have skip := skipSlash_le ((c :: p).drop (component (c :: p)).length)
    simp only [List.length_drop, List.length_cons] at skip ⊢
    omega

/-- The loop of `resolve_create`. `memory` is how many allocations succeed
before one fails. -/
def resolveFrom (lastIsFile : Bool) (v : Store) (cur memory : Nat) :
    List Char → Option (Store × Option Nat)
  | [] => some (v, some cur)
  | c :: p =>
    let name := component (c :: p)
    let rest := (c :: p).drop name.length
    let isLast := rest.all (· = '/')
    have := advance_lt c p
    if name = [] then resolveFrom lastIsFile v cur memory (skipSlash rest)
    else
      match findChild v cur name with
      | none => none
      | some none =>
        let kind := if isLast && lastIsFile then .file else .dir
        match memory with
        | 0 => some (v, none)
        | memory + 1 =>
          match newNode v kind name cur with
          | none => none
          | some (v, child) => resolveFrom lastIsFile v child memory (skipSlash rest)
      | some (some child) =>
        if !isLast && (v.heap child).kind ≠ .dir then some (v, none)
        else resolveFrom lastIsFile v child memory (skipSlash rest)
  termination_by p => p.length
  decreasing_by all_goals exact advance_lt c p

def resolveCreate (v : Store) (path : Option (List Char)) (lastIsFile : Bool) (memory : Nat) :
    Option (Store × Option Nat) :=
  match path with
  | some ('/' :: p) => resolveFrom lastIsFile v 0 memory p
  | _ => some (v, none)

def vfsMkdirP (v : Store) (path : Option (List Char)) (memory : Nat) : Option (Store × Option Nat) :=
  resolveCreate v path false memory

def vfsCreatePath (v : Store) (path : Option (List Char)) (memory : Nat) :
    Option (Store × Option Nat) :=
  resolveCreate v path true memory

/-- The loop of `vfs_lookup`. -/
def lookupFrom (v : Store) (cur : Nat) : List Char → Option (Option Nat)
  | [] => some (some cur)
  | c :: p =>
    let name := component (c :: p)
    let rest := (c :: p).drop name.length
    have := advance_lt c p
    if name = [] then lookupFrom v cur (skipSlash rest)
    else
      match findChild v cur name with
      | none => none
      | some none => some none
      | some (some child) => lookupFrom v child (skipSlash rest)
  termination_by p => p.length
  decreasing_by all_goals exact advance_lt c p

def vfsLookup (v : Store) (path : Option (List Char)) : Option (Option Nat) :=
  match path with
  | some ('/' :: p) => lookupFrom v 0 p
  | _ => some none

/-- Put children on the stack of `vfs_total_file_bytes` while there is room. -/
def pushChildren (heap : Nat → Node) : Nat → Option Nat → List Nat → List Nat
  | 0, _, stack => stack
  | _ + 1, none, stack => stack
  | room + 1, some c, stack => pushChildren heap room (heap c).next (c :: stack)

/-- The loop of `vfs_total_file_bytes`; the top of the stack is in front. -/
def totalFrom (heap : Nat → Node) : Nat → List Nat → Nat → Option Nat
  | _, [], total => some total
  | 0, _ :: _, _ => none
  | fuel + 1, n :: stack, total =>
    let total :=
      if (heap n).kind = .file then (total + (heap n).size) % 18446744073709551616 else total
    totalFrom heap fuel (pushChildren heap (64 - stack.length) (heap n).children stack) total

def vfsTotalFileBytes (v : Store) : Option Nat := totalFrom v.heap v.used [0] 0

/-- The loop of `vfs_walk` over a child list: the visits with their depths. -/
def walkFrom (heap : Nat → Node) : Nat → Nat → Option Nat → Option (List (Nat × Nat))
  | 0, _, _ => none
  | _ + 1, _, none => some []
  | fuel + 1, depth, some c => do
    let below ← walkFrom heap fuel (depth + 1) (heap c).children
    let rest ← walkFrom heap fuel depth (heap c).next
    return (depth, c) :: (below ++ rest)

def vfsWalk (v : Store) (node : Option Nat) (depth : Nat) : Option (List (Nat × Nat)) :=
  match node with
  | none => some []
  | some n => do
    let below ← walkFrom v.heap (v.used + 1) (depth + 1) (v.heap n).children
    return (depth, n) :: below

/-- `vfs_write`: the buffer grows when needed and never shrinks. -/
def vfsWrite (v : Store) (file : Option Nat) (buf : List UInt8) (memory : Bool) : Store × Int :=
  match file with
  | none => (v, -1)
  | some f =>
    let n := v.heap f
    if n.kind ≠ .file then (v, -1)
    else if n.capacity < buf.length then
      if memory then
        let n := { n with data := some buf, capacity := buf.length, size := buf.length }
        (⟨Function.update v.heap f n, v.used, v.nodeCount⟩, 0)
      else (v, -1)
    else
      let n := { n with data := n.data.map fun old => buf ++ old.drop buf.length,
                        size := buf.length }
      (⟨Function.update v.heap f n, v.used, v.nodeCount⟩, 0)

inductive Op where
  | mkdir (parent : Option Nat) (name : List Char) (memory : Bool)
  | createFile (parent : Option Nat) (name : List Char) (memory : Bool)
  | mkdirP (path : Option (List Char)) (memory : Nat)
  | createPath (path : Option (List Char)) (memory : Nat)
  | write (file : Option Nat) (buf : List UInt8) (memory : Bool)

def Valid (v : Store) : Op → Prop
  | .mkdir parent _ _ | .createFile parent _ _ => ∀ p, parent = some p → p < v.used
  | .write file _ _ => ∀ f, file = some f → f < v.used
  | _ => True

def step (v : Store) : Op → Option Store
  | .mkdir parent name memory => (vfsMkdir v parent name memory).map Prod.fst
  | .createFile parent name memory => (vfsCreateFile v parent name memory).map Prod.fst
  | .mkdirP path memory => (vfsMkdirP v path memory).map Prod.fst
  | .createPath path memory => (vfsCreatePath v path memory).map Prod.fst
  | .write file buf memory => some (vfsWrite v file buf memory).1

end XinuRpi5.Fs.Vfs
