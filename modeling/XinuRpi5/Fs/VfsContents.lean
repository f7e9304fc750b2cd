/- source: fs/vfs.c, loader/main.c
   digest: Reading returns what was written last, as long as there is a payload to read. -/

import XinuRpi5.Lib.GuardedRuns
import XinuRpi5.Fs.FatRead
import XinuRpi5.Fs.Vfs

/-!
Payloads are blocks of memory. What `kmalloc` returns is an input, and so is the memory that
the allocator leaves: it gives blocks that do not overlap a live payload, and writes outside
of these. The load hook is `microsd_load` or none; what the card gives it is an input.
-/

namespace XinuRpi5.Fs.VfsContents

open Lib.GuardedRuns Vfs
open FatRead (asInt asInt_of_lt)

/-- `vfs_node_t` without its place in the tree; the null pointer is 0. -/
structure File where
  kind : Kind
  size : Nat
  capacity : Nat
  data : Nat
  fatCluster : Nat

/-- The nodes and the memory, whether `g_load_hook` is set, and `g_sd_mounted`. -/
structure State where
  files : Nat → File
  mem : Nat → UInt8
  loadHook : Bool
  mounted : Bool

/-- The block that `kmalloc` returns, and the memory behind `kmalloc` and `kfree`. -/
structure Heap where
  block : Option Nat
  mem : Nat → UInt8

def store (mem : Nat → UInt8) (p : Nat) (buf : List UInt8) : Nat → UInt8 := fun a =>
  if p ≤ a ∧ a < p + buf.length then buf.getD (a - p) 0 else mem a

/-- The end of `vfs_write`. -/
def copyIn (s : State) (f : Nat) (buf : List UInt8) : State :=
  { s with files := Function.update s.files f { s.files f with size := buf.length },
           mem := store s.mem (s.files f).data buf }

def vfsWrite (s : State) (file : Option Nat) (buf : List UInt8) (heap : Heap) : State × Int :=
  match file with
  | none => (s, -1)
  | some f =>
    if (s.files f).kind ≠ .file then (s, -1)
    else if (s.files f).capacity < buf.length then
      match heap.block with
      | none => ({ s with mem := heap.mem }, -1)
      | some nb =>
        let grown := { s.files f with data := nb, capacity := buf.length }
        (copyIn { s with files := Function.update s.files f grown, mem := heap.mem } f buf, 0)
    else (copyIn s f buf, 0)

def cString (str : List UInt8) : List UInt8 := str.takeWhile (· ≠ 0)

def vfsWriteStr (s : State) (file : Option Nat) (str : List UInt8) (heap : Heap) : State × Int :=
  vfsWrite s file (cString str) heap

/-- `microsd_load`, when `fat32_read_file` puts the bytes `got` into the new block. -/
def microsdLoad (s : State) (f : Nat) (heap : Heap) (got : List UInt8) : State × Int :=
  let node := s.files f
  if s.mounted = false ∨ node.fatCluster < 2 ∨ node.size = 0 then (s, -1)
  else
    match heap.block with
    | none => ({ s with mem := heap.mem }, -1)
    | some buf =>
      let n := asInt got.length
      if n ≤ 0 then ({ s with mem := heap.mem }, -1)
      else
        let node := { node with data := buf, capacity := node.size, size := n.toNat }
        ({ s with files := Function.update s.files f node, mem := store heap.mem buf got }, 0)

/-- The result of a call, the bytes that a read copies, and where it takes them from. -/
structure Reply where
  ret : Int
  bytes : List UInt8
  source : Nat

/-- `min(size, max)` bytes from the payload pointer on. -/
def copyOut (s : State) (f max : Nat) : Reply :=
  let n := min (s.files f).size max
  ⟨asInt n, (List.range n).map fun i => s.mem ((s.files f).data + i), (s.files f).data⟩

def vfsRead (s : State) (file : Option Nat) (max : Nat) (heap : Heap) (got : List UInt8) :
    State × Reply :=
  match file with
  | none => (s, ⟨-1, [], 0⟩)
  | some f =>
    if (s.files f).kind ≠ .file then (s, ⟨-1, [], 0⟩)
    else
      let s := if (s.files f).data = 0 ∧ 0 < (s.files f).size ∧ s.loadHook then
        (microsdLoad s f heap got).1 else s
      (s, copyOut s f max)

inductive Op where
  | write (file : Option Nat) (buf : List UInt8) (heap : Heap)
  | writeStr (file : Option Nat) (str : List UInt8) (heap : Heap)
  | read (file : Option Nat) (max : Nat) (heap : Heap) (got : List UInt8)

def Op.file : Op → Option Nat
  | .write file _ _ | .writeStr file _ _ | .read file _ _ _ => file

def Op.input : Op → Option (List UInt8)
  | .write _ buf _ => some buf
  | .writeStr _ str _ => some (cString str)
  | .read _ _ _ _ => none

def Op.heap : Op → Heap
  | .write _ _ heap | .writeStr _ _ heap | .read _ _ heap _ => heap

def step (s : State) : Op → State × Reply
  | .write file buf heap => let (s, ret) := vfsWrite s file buf heap; (s, ⟨ret, [], 0⟩)
  | .writeStr file str heap => let (s, ret) := vfsWriteStr s file str heap; (s, ⟨ret, [], 0⟩)
  | .read file max heap got => vfsRead s file max heap got

/-- A state with the bytes of the last successful write or load of every file. -/
structure Tracked where
  s : State
  last : Nat → List UInt8

def outcome (s : State) (f : Nat) (op : Op) : Option (List UInt8) :=
  match op with
  | .read _ _ heap got =>
    if (s.files f).kind = .file ∧ (s.files f).data = 0 ∧ 0 < (s.files f).size ∧ s.loadHook ∧
        (microsdLoad s f heap got).2 = 0 then some (got.take (asInt got.length).toNat)
    else none
  | op => if (step s op).2.ret = 0 then op.input else none

def move (t : Tracked) (op : Op) : Tracked :=
  ⟨(step t.s op).1, fun f =>
    if op.file = some f then (outcome t.s f op).getD (t.last f) else t.last f⟩

def contents (s : State) (f : Nat) : List UInt8 :=
  if (s.files f).data = 0 then []
  else (List.range (s.files f).size).map fun i => s.mem ((s.files f).data + i)

structure Law (t : Tracked) (op : Op) : Prop where
  /-- A read returns the beginning of what was written last, and its length. -/
  read : ∀ f max heap got, op = .read (some f) max heap got → (t.s.files f).kind = .file →
    (step t.s op).2.bytes = ((move t op).last f).take max ∧
      (step t.s op).2.bytes.length = min ((move t op).s.files f).size max ∧
      (step t.s op).2.ret = (step t.s op).2.bytes.length
  /-- Without a payload no bytes are read. -/
  present : (step t.s op).2.bytes ≠ [] → (step t.s op).2.source ≠ 0
  /-- A write that fails changes no file. -/
  failed : op.input ≠ none → (step t.s op).2.ret = -1 →
    (move t op).s.files = t.s.files ∧ ∀ f, contents (move t op).s f = contents t.s f
  /-- A call on one file does not change another. -/
  frame : ∀ f, op.file = some f → ∀ g, g ≠ f → (move t op).s.files g = t.s.files g ∧
    contents (move t op).s g = contents t.s g

def Loads (s : State) (f : Nat) (heap : Heap) (got : List UInt8) : Prop :=
  s.loadHook = true ∧ s.mounted = true ∧ 2 ≤ (s.files f).fatCluster ∧ heap.block ≠ none ∧
    0 < asInt got.length

/-- The condition on a read: a file without a payload is empty, or loaded now, or nothing is
asked for; of a payload less than 2^31 bytes are read. -/
def Fits (t : Tracked) : Op → Prop
  | .read (some f) max heap got => (t.s.files f).kind = .file →
    if (t.s.files f).data = 0 then (t.s.files f).size = 0 ∨ max = 0 ∨ Loads t.s f heap got
    else min (t.s.files f).size max < 2147483648
  | _ => True

def InBlock (s : State) (f a : Nat) : Prop :=
  (s.files f).data ≠ 0 ∧ (s.files f).data ≤ a ∧ a < (s.files f).data + (s.files f).capacity

def Fresh (s : State) (p size : Nat) : Prop :=
  p ≠ 0 ∧ ∀ g, (s.files g).data ≠ 0 →
    p + size ≤ (s.files g).data ∨ (s.files g).data + (s.files g).capacity ≤ p

/-- What the allocator and `fat32_read_file` promise to a call on a file: `kmalloc` returns a
fresh block, all payloads stay, but for the one that `kfree` gets, and a file is not longer
than the node says. -/
def Valid (t : Tracked) (op : Op) : Prop :=
  ∀ f, op.file = some f →
    (∀ p, op.heap.block = some p →
      Fresh t.s p ((op.input.map List.length).getD (t.s.files f).size)) ∧
    (∀ g a, InBlock t.s g a → g ≠ f ∨ op.heap.block = none → op.heap.mem a = t.s.mem a) ∧
    ∀ max heap got, op = .read (some f) max heap got → got.length ≤ (t.s.files f).size

section Steps

variable {s s' : State} {f : Nat} {bs : List UInt8}

structure Same (s s' : State) : Prop where
  files : s'.files = s.files
  kept : ∀ g a, InBlock s g a → s'.mem a = s.mem a

/-- One file has got new contents, in its block or in a fresh one. -/
structure Changed (s s' : State) (f : Nat) (bs : List UInt8) : Prop where
  others : ∀ g, g ≠ f → s'.files g = s.files g
  size : (s'.files f).size = bs.length
  room : bs.length ≤ (s'.files f).capacity
  null : (s'.files f).data = 0 → (s'.files f).capacity = 0
  place : ((s'.files f).data = (s.files f).data ∧ (s'.files f).capacity = (s.files f).capacity) ∨
    Fresh s (s'.files f).data (s'.files f).capacity
  bytes : ∀ i < bs.length, s'.mem ((s'.files f).data + i) = bs.getD i 0
  kept : ∀ g a, g ≠ f → InBlock s g a → s'.mem a = s.mem a

structure Inv (t : Tracked) : Prop where
  absent : ∀ f, (t.s.files f).data = 0 → (t.s.files f).capacity = 0
  sized : ∀ f, (t.s.files f).data ≠ 0 → (t.s.files f).size ≤ (t.s.files f).capacity
  holds : ∀ f, contents t.s f = t.last f
  apart : ∀ f g, f ≠ g → (t.s.files f).data ≠ 0 → (t.s.files g).data ≠ 0 →
    (t.s.files f).data + (t.s.files f).capacity ≤ (t.s.files g).data ∨
      (t.s.files g).data + (t.s.files g).capacity ≤ (t.s.files f).data

theorem contents_congr (same : s'.files f = s.files f)
    (sized : (s.files f).data ≠ 0 → (s.files f).size ≤ (s.files f).capacity)
    (kept : ∀ a, InBlock s f a → s'.mem a = s.mem a) : contents s' f = contents s f := by
  unfold contents
  rw [same]
  split_ifs with null
  · rfl
  · apply List.map_congr_left
    intro i listed
    have less := List.mem_range.mp listed
    have room := sized null
    exact kept _ ⟨null, Nat.le_add_right _ _, by omega⟩

theorem Same.contents (same : Same s s')
    (sized : ∀ f, (s.files f).data ≠ 0 → (s.files f).size ≤ (s.files f).capacity) (f : Nat) :
    contents s' f = contents s f :=
  contents_congr (congrFun same.files f) (sized f) (same.kept f)

theorem Changed.contents (changed : Changed s s' f bs) : contents s' f = bs := by
  unfold VfsContents.contents
  split_ifs with null
  · have room := changed.room
    rw [changed.null null] at room
    exact (List.length_eq_zero_iff.mp (Nat.le_zero.mp room)).symm
  · rw [changed.size]
    calc (List.range bs.length).map (fun i => s'.mem ((s'.files f).data + i))
        = (List.range bs.length).map (fun i => bs.getD i 0) := by
          apply List.map_congr_left
          intro i listed
          exact changed.bytes i (List.mem_range.mp listed)
      _ = bs.take bs.length := FatRead.map_range_getD bs 0 (Nat.le_refl _)
      _ = bs := List.take_length

theorem Changed.contents_other (changed : Changed s s' f bs)
    (sized : ∀ f, (s.files f).data ≠ 0 → (s.files f).size ≤ (s.files f).capacity) {g : Nat}
    (other : g ≠ f) : VfsContents.contents s' g = VfsContents.contents s g :=
  contents_congr (changed.others g other) (sized g) fun a => changed.kept g a other

variable {last : Nat → List UInt8}

theorem Same.inv (same : Same s s') (inv : Inv ⟨s, last⟩) :
    Inv ⟨s', last⟩ where
  absent f null := by
    rw [same.files] at null ⊢
    exact inv.absent f null
  sized f some' := by
    rw [same.files] at some' ⊢
    exact inv.sized f some'
  holds f := (same.contents inv.sized f).trans (inv.holds f)
  apart f g other := by
    rw [same.files]
    exact inv.apart f g other

theorem Changed.inv (changed : Changed s s' f bs)
    (inv : Inv ⟨s, last⟩) :
    Inv ⟨s', fun g => if g = f then bs else last g⟩ where
  absent g null := by
    by_cases here : g = f
    · subst here
      exact changed.null null
    · rw [changed.others g here] at null ⊢
      exact inv.absent g null
  sized g some' := by
    by_cases here : g = f
    · subst here
      rw [changed.size]
      exact changed.room
    · rw [changed.others g here] at some' ⊢
      exact inv.sized g some'
  holds g := by
    dsimp only
    by_cases here : g = f
    · subst here
      rw [if_pos rfl]
      exact changed.contents
    · rw [if_neg here]
      exact (changed.contents_other inv.sized here).trans (inv.holds g)
  apart g h other first second := by
    have beside {k : Nat} (away : k ≠ f) (some' : (s'.files k).data ≠ 0)
        (self : (s'.files f).data ≠ 0) :
        (s'.files f).data + (s'.files f).capacity ≤ (s'.files k).data ∨
          (s'.files k).data + (s'.files k).capacity ≤ (s'.files f).data := by
      rw [changed.others k away] at some' ⊢
      rcases changed.place with ⟨data, capacity⟩ | fresh
      · rw [data] at self ⊢
        rw [capacity]
        exact inv.apart f k away.symm self some'
      · exact fresh.2 k some'
    by_cases here : g = f
    · subst here
      exact beside other.symm second first
    · by_cases there : h = f
      · subst there
        exact (beside here first second).symm
      · rw [changed.others g here] at first ⊢
        rw [changed.others h there] at second ⊢
        exact inv.apart g h other first second

theorem store_inside (mem : Nat → UInt8) (p : Nat) (buf : List UInt8) {i : Nat}
    (inside : i < buf.length) : store mem p buf (p + i) = buf.getD i 0 := by
  rw [store, if_pos (by omega), Nat.add_sub_cancel_left]

theorem store_outside (mem : Nat → UInt8) (p : Nat) (buf : List UInt8) {a : Nat}
    (outside : a < p ∨ p + buf.length ≤ a) : store mem p buf a = mem a :=
  if_neg fun inside => by omega

/-- What a write does: it fails and changes nothing, or the file has the new contents. -/
theorem vfsWrite_cases (inv : Inv ⟨s, last⟩) {buf : List UInt8}
    {heap : Heap} (fresh : ∀ p, heap.block = some p → Fresh s p buf.length)
    (stays : ∀ g a, InBlock s g a → g ≠ f ∨ heap.block = none → heap.mem a = s.mem a) :
    (vfsWrite s (some f) buf heap).2 = -1 ∧ Same s (vfsWrite s (some f) buf heap).1 ∨
      (vfsWrite s (some f) buf heap).2 = 0 ∧ (s.files f).kind = .file ∧
        Changed s (vfsWrite s (some f) buf heap).1 f buf := by
  unfold vfsWrite
  dsimp only
  split_ifs with dir grows
  · exact .inl ⟨rfl, rfl, fun _ _ _ => rfl⟩
  · cases block : heap.block with
    | none => exact .inl ⟨rfl, rfl, fun g a inside => stays g a inside (.inr block)⟩
    | some p =>
      obtain ⟨some', clear⟩ := fresh p block
      refine .inr ⟨rfl, not_not.mp dir, ?_⟩
      have node : (copyIn { s with
          files := Function.update s.files f
            { s.files f with data := p, capacity := buf.length },
          mem := heap.mem } f buf).files f =
          { s.files f with data := p, capacity := buf.length, size := buf.length } := by
        simp [copyIn]
      refine ⟨?_, ?_, ?_, ?_, ?_, ?_, ?_⟩
      · intro g other
        simp [copyIn, other]
      · rw [node]
      · rw [node]
      · rw [node]
        exact fun null => absurd null some'
      · rw [node]
        exact .inr ⟨some', clear⟩
      · intro i inside
        rw [node]
        have at' := store_inside heap.mem p buf inside
        simpa [copyIn] using at'
      · intro g a other inside
        have away := clear g inside.1
        have outside := store_outside heap.mem p buf (a := a) (by
          have := inside.2
          omega)
        rw [← stays g a inside (.inl other)]
        simpa [copyIn] using outside
  · refine .inr ⟨rfl, not_not.mp dir, ?_⟩
    have node : (copyIn s f buf).files f = { s.files f with size := buf.length } := by
      simp [copyIn]
    refine ⟨?_, ?_, ?_, ?_, ?_, ?_, ?_⟩
    · intro g other
      simp [copyIn, other]
    · rw [node]
    · rw [node]
      exact Nat.not_lt.mp grows
    · rw [node]
      exact inv.absent f
    · rw [node]
      exact .inl ⟨rfl, rfl⟩
    · intro i inside
      rw [node]
      exact store_inside s.mem _ buf inside
    · intro g a other inside
      apply store_outside
      by_cases null : (s.files f).data = 0
      · have empty := inv.absent f null
        dsimp only at empty
        omega
      · have away := inv.apart f g other.symm null inside.1
        have := inside.2
        dsimp only at away
        omega

theorem asInt_lt (k : Nat) : asInt k < 2147483648 := by
  have below := Int.bmod_lt (m := 4294967296) (x := k) (by omega)
  unfold asInt
  omega

theorem asInt_toNat_le {k : Nat} (positive : 0 < asInt k) : (asInt k).toNat ≤ k := by
  have mod : asInt k = (k : Int) % 4294967296 ∨ asInt k = (k : Int) % 4294967296 - 4294967296 := by
    unfold asInt
    rw [Int.bmod_def]
    split_ifs
    · exact .inl rfl
    · exact .inr rfl
  rcases mod with same | less
  · omega
  · omega

/-- What the load hook does: it fails, or the file has what the card gave. -/
theorem microsdLoad_cases {heap : Heap} {got : List UInt8}
    (fresh : ∀ p, heap.block = some p → Fresh s p (s.files f).size)
    (stays : ∀ g a, InBlock s g a → heap.mem a = s.mem a)
    (short : got.length ≤ (s.files f).size) :
    (microsdLoad s f heap got).2 = -1 ∧ Same s (microsdLoad s f heap got).1 ∧
        ¬ (s.mounted = true ∧ 2 ≤ (s.files f).fatCluster ∧ 0 < (s.files f).size ∧
          heap.block ≠ none ∧ 0 < asInt got.length) ∨
      (microsdLoad s f heap got).2 = 0 ∧
        (s.mounted = true ∧ 2 ≤ (s.files f).fatCluster ∧ heap.block ≠ none ∧
          0 < asInt got.length) ∧
        ((microsdLoad s f heap got).1.files f).data ≠ 0 ∧
        Changed s (microsdLoad s f heap got).1 f (got.take (asInt got.length).toNat) := by
  have same : Same s { s with mem := heap.mem } := ⟨rfl, stays⟩
  unfold microsdLoad
  dsimp only
  by_cases off : s.mounted = false ∨ (s.files f).fatCluster < 2 ∨ (s.files f).size = 0
  · rw [if_pos off]
    refine .inl ⟨rfl, ⟨rfl, fun _ _ _ => rfl⟩, ?_⟩
    rintro ⟨mounted, cluster, some', _⟩
    rcases off with off | low | empty
    · rw [mounted] at off
      cases off
    · omega
    · omega
  · rw [if_neg off]
    cases block : heap.block with
    | none => exact .inl ⟨rfl, same, fun all => all.2.2.2.1 rfl⟩
    | some p =>
      obtain ⟨some', clear⟩ := fresh p block
      dsimp only
      by_cases failed : asInt got.length ≤ 0
      · rw [if_pos failed]
        exact .inl ⟨rfl, same, fun all => absurd all.2.2.2.2 (Int.not_lt.mpr failed)⟩
      · rw [if_neg failed]
        have within := asInt_toNat_le (Int.not_le.mp failed)
        have mounted : s.mounted = true := by
          cases on : s.mounted with
          | true => rfl
          | false => exact absurd (.inl on) off
        have cluster : 2 ≤ (s.files f).fatCluster := by
          by_contra low
          exact off (.inr (.inl (by omega)))
        refine .inr ⟨rfl, ⟨mounted, cluster, Option.some_ne_none p, Int.not_le.mp failed⟩,
          ?_, ?_, ?_, ?_, ?_, ?_, ?_, ?_⟩
        · simpa using some'
        · intro g other
          simp [other]
        · simp [within]
        · simp
          omega
        · simp [some']
        · exact .inr (by simpa using ⟨some', clear⟩)
        · intro i inside
          rw [List.length_take] at inside
          have here := store_inside heap.mem p got (i := i) (by omega)
          have front : (got.take (asInt got.length).toNat).getD i 0 = got.getD i 0 := by
            rw [List.getD_eq_getElem?_getD, List.getD_eq_getElem?_getD,
              List.getElem?_take_of_lt (by omega)]
          rw [front]
          simpa using here
        · intro g a other inside
          have away := clear g inside.1
          have outside := store_outside heap.mem p got (a := a) (by
            have := inside.2
            omega)
          exact outside.trans (stays g a inside)

end Steps

section Calls

variable {t : Tracked} {op : Op} {f : Nat}

theorem step_input {buf : List UInt8} (input : op.input = some buf) (s : State) :
    step s op = ((vfsWrite s op.file buf op.heap).1,
      ⟨(vfsWrite s op.file buf op.heap).2, [], 0⟩) := by
  cases op with
  | write file given heap =>
    cases input
    rfl
  | writeStr file str heap =>
    cases input
    rfl
  | read file max heap got => cases input

theorem outcome_input {buf : List UInt8} (input : op.input = some buf) (s : State) :
    outcome s f op = if (step s op).2.ret = 0 then some buf else none := by
  cases op with
  | write file given heap =>
    cases input
    rfl
  | writeStr file str heap =>
    cases input
    rfl
  | read file max heap got => cases input

theorem write_cases (inv : Inv t) (valid : Valid t op) {buf : List UInt8}
    (input : op.input = some buf) (file : op.file = some f) :
    (step t.s op).2.ret = -1 ∧ Same t.s (step t.s op).1 ∧ outcome t.s f op = none ∨
      (step t.s op).2.ret = 0 ∧ Changed t.s (step t.s op).1 f buf ∧
        outcome t.s f op = some buf := by
  obtain ⟨fresh, stays, _⟩ := valid f file
  rw [input] at fresh
  rw [outcome_input input, step_input input, file]
  rcases vfsWrite_cases inv fresh stays with ⟨ret, same⟩ | ⟨ret, _, changed⟩
  · refine .inl ⟨ret, same, ?_⟩
    rw [ret]
    rfl
  · refine .inr ⟨ret, changed, ?_⟩
    rw [ret]
    rfl

/-- A read of a file loads it or keeps the state, and then copies from the payload. -/
theorem read_cases {max : Nat} {heap : Heap} {got : List UInt8}
    (valid : Valid t (.read (some f) max heap got)) (file : (t.s.files f).kind = .file) :
    (step t.s (.read (some f) max heap got)).2 =
        copyOut (step t.s (.read (some f) max heap got)).1 f max ∧
      (Same t.s (step t.s (.read (some f) max heap got)).1 ∧
          outcome t.s f (.read (some f) max heap got) = none ∧
          ((t.s.files f).data = 0 → (t.s.files f).size = 0 ∨ ¬ Loads t.s f heap got) ∨
        (t.s.files f).data = 0 ∧ Loads t.s f heap got ∧
          ((step t.s (.read (some f) max heap got)).1.files f).data ≠ 0 ∧
          outcome t.s f (.read (some f) max heap got) =
            some (got.take (asInt got.length).toNat) ∧
          Changed t.s (step t.s (.read (some f) max heap got)).1 f
            (got.take (asInt got.length).toNat)) := by
  obtain ⟨fresh, stays, short⟩ := valid f rfl
  have keep : Same t.s t.s := ⟨rfl, fun _ _ _ => rfl⟩
  unfold step vfsRead outcome
  dsimp only
  rw [if_neg (not_not.mpr file)]
  refine ⟨rfl, ?_⟩
  by_cases asks : (t.s.files f).data = 0 ∧ 0 < (t.s.files f).size ∧ t.s.loadHook = true
  · rw [if_pos asks]
    have others : ∀ g a, InBlock t.s g a → heap.mem a = t.s.mem a := by
      intro g a inside
      refine stays g a inside (.inl ?_)
      rintro rfl
      exact inside.1 asks.1
    rcases microsdLoad_cases fresh others (short max heap got rfl) with
      ⟨ret, same, fails⟩ | ⟨ret, ready, some', changed⟩
    · refine .inl ⟨same, ?_, fun _ => .inr ?_⟩
      · rw [if_neg]
        rintro ⟨_, _, _, _, done⟩
        exact absurd (done.symm.trans ret) (by decide)
      · rintro ⟨_, mounted, cluster, room, some'⟩
        exact fails ⟨mounted, cluster, asks.2.1, room, some'⟩
    · refine .inr ⟨asks.1, ⟨asks.2.2, ready⟩, some', ?_, changed⟩
      rw [if_pos ⟨file, asks.1, asks.2.1, asks.2.2, ret⟩]
  · rw [if_neg asks]
    refine .inl ⟨keep, ?_, ?_⟩
    · rw [if_neg]
      rintro ⟨_, null, some', hook, _⟩
      exact asks ⟨null, some', hook⟩
    · intro null
      by_cases empty : (t.s.files f).size = 0
      · exact .inl empty
      · refine .inr ?_
        rintro ⟨hook, _⟩
        exact asks ⟨null, Nat.pos_of_ne_zero empty, hook⟩

theorem step_nowhere (file : op.file = none) (s : State) : step s op = (s, ⟨-1, [], 0⟩) := by
  cases op with
  | write given buf heap =>
    cases file
    rfl
  | writeStr given str heap =>
    cases file
    rfl
  | read given max heap got =>
    cases file
    rfl

theorem read_dir {max : Nat} {heap : Heap} {got : List UInt8}
    (dir : (t.s.files f).kind ≠ .file) :
    step t.s (.read (some f) max heap got) = (t.s, ⟨-1, [], 0⟩) ∧
      outcome t.s f (.read (some f) max heap got) = none := by
  unfold step vfsRead outcome
  dsimp only
  rw [if_pos dir, if_neg fun all => dir all.1]
  exact ⟨rfl, rfl⟩

/-- A call keeps the files and payloads, or gives one file new contents. -/
theorem move_cases (inv : Inv t) (valid : Valid t op) :
    Same t.s (move t op).s ∧ (move t op).last = t.last ∨
      ∃ f bs, op.file = some f ∧ Changed t.s (move t op).s f bs ∧
        (move t op).last = fun g => if g = f then bs else t.last g := by
  have keep : Same t.s t.s := ⟨rfl, fun _ _ _ => rfl⟩
  cases file : op.file with
  | none =>
    refine .inl ⟨?_, ?_⟩
    · unfold move
      rw [step_nowhere file]
      exact keep
    · funext g
      unfold move
      dsimp only
      rw [file, if_neg (Option.some_ne_none g).symm]
  | some f =>
    have lost (none' : outcome t.s f op = none) : (move t op).last = t.last := by
      funext g
      unfold move
      dsimp only
      rw [file]
      split_ifs with here
      · obtain rfl := Option.some.inj here
        rw [none']
        rfl
      · rfl
    have won {bs : List UInt8} (some' : outcome t.s f op = some bs) :
        (move t op).last = fun g => if g = f then bs else t.last g := by
      funext g
      unfold move
      dsimp only
      rw [file]
      by_cases here : g = f
      · subst here
        rw [if_pos rfl, if_pos rfl, some']
        rfl
      · rw [if_neg here, if_neg fun same => here (Option.some.inj same).symm]
    cases input : op.input with
    | some buf =>
      rcases write_cases inv valid input file with ⟨_, same, none'⟩ | ⟨_, changed, some'⟩
      · exact .inl ⟨same, lost none'⟩
      · exact .inr ⟨f, buf, rfl, changed, won some'⟩
    | none =>
      cases op with
      | write given buf heap => cases input
      | writeStr given str heap => cases input
      | read given max heap got =>
        obtain rfl : given = some f := file
        by_cases kind : (t.s.files f).kind = .file
        · obtain ⟨_, ⟨same, none', _⟩ | ⟨_, _, _, some', changed⟩⟩ := read_cases valid kind
          · exact .inl ⟨same, lost none'⟩
          · exact .inr ⟨f, _, rfl, changed, won some'⟩
        · obtain ⟨step', none'⟩ := @read_dir t f max heap got kind
          refine .inl ⟨?_, lost none'⟩
          unfold move
          rw [step']
          exact keep

theorem move_inv (inv : Inv t) (valid : Valid t op) : Inv (move t op) := by
  rcases move_cases inv valid with ⟨same, last⟩ | ⟨f, bs, _, changed, last⟩
  · have after := same.inv inv
    rwa [← last] at after
  · have after := changed.inv inv
    rwa [← last] at after

/-- What is copied out is right exactly if there is a payload of which less than 2^31 bytes are
read, or nothing to read. -/
theorem copyOut_iff (inv : Inv t) (f max : Nat) :
    (((copyOut t.s f max).bytes = (t.last f).take max ∧
      (copyOut t.s f max).bytes.length = min (t.s.files f).size max ∧
      (copyOut t.s f max).ret = (copyOut t.s f max).bytes.length) ∧
      ((copyOut t.s f max).bytes ≠ [] → (copyOut t.s f max).source ≠ 0)) ↔
      if (t.s.files f).data = 0 then (t.s.files f).size = 0 ∨ max = 0
      else min (t.s.files f).size max < 2147483648 := by
  have length : (copyOut t.s f max).bytes.length = min (t.s.files f).size max := by
    simp [copyOut]
  have ret : (copyOut t.s f max).ret = asInt (min (t.s.files f).size max) := by
    rw [copyOut]
  have holds := inv.holds f
  unfold contents at holds
  rw [length, ret]
  split_ifs at holds ⊢ with null
  · constructor
    · rintro ⟨_, present⟩
      by_contra some'
      have bytes : (copyOut t.s f max).bytes ≠ [] := by
        intro none'
        rw [none', List.length_nil] at length
        omega
      exact present bytes null
    · intro empty
      have zero : min (t.s.files f).size max = 0 := by omega
      have none' : (copyOut t.s f max).bytes = [] := by
        rw [zero] at length
        exact List.length_eq_zero_iff.mp length
      rw [zero, none', ← holds]
      exact ⟨⟨List.take_nil.symm, rfl, asInt_of_lt (by omega)⟩, fun some' => absurd rfl some'⟩
  · have front : (copyOut t.s f max).bytes = (t.last f).take max := by
      rw [← holds, ← List.map_take, List.take_range, Nat.min_comm]
      rfl
    constructor
    · rintro ⟨⟨_, _, same⟩, _⟩
      have below := asInt_lt (min (t.s.files f).size max)
      omega
    · intro small
      exact ⟨⟨front, rfl, asInt_of_lt small⟩, fun _ => null⟩

theorem law_other (inv : Inv t) (valid : Valid t op) :
    (op.input ≠ none → (step t.s op).2.ret = -1 → (move t op).s.files = t.s.files ∧
        ∀ f, contents (move t op).s f = contents t.s f) ∧
      ∀ f, op.file = some f → ∀ g, g ≠ f → (move t op).s.files g = t.s.files g ∧
        contents (move t op).s g = contents t.s g := by
  constructor
  · intro writes failed
    cases file : op.file with
    | none =>
      unfold move
      rw [step_nowhere file]
      exact ⟨rfl, fun _ => rfl⟩
    | some f =>
      cases input : op.input with
      | none => exact absurd input writes
      | some buf =>
        rcases write_cases inv valid input file with ⟨_, same, _⟩ | ⟨done, _⟩
        · exact ⟨same.files, same.contents inv.sized⟩
        · rw [done] at failed
          cases failed
  · intro f file g other
    rcases move_cases inv valid with ⟨same, _⟩ | ⟨f', bs, file', changed, _⟩
    · exact ⟨congrFun same.files g, same.contents inv.sized g⟩
    · obtain rfl := Option.some.inj (file.symm.trans file')
      exact ⟨changed.others g other, changed.contents_other inv.sized other⟩

/-- What a call promises of a read of a file. -/
theorem read_law_iff {max : Nat} {heap : Heap} {got : List UInt8}
    (file : (t.s.files f).kind = .file) (inv : Inv t)
    (valid : Valid t (.read (some f) max heap got)) :
    Law t (.read (some f) max heap got) ↔ Fits t (.read (some f) max heap got) := by
  obtain ⟨reply, cases'⟩ := read_cases valid file
  have after := move_inv inv valid
  have copied := copyOut_iff after f max
  have state : (move t (.read (some f) max heap got)).s =
      (step t.s (.read (some f) max heap got)).1 := rfl
  obtain ⟨failed, frame⟩ := law_other inv valid
  have law : Law t (.read (some f) max heap got) ↔
      if ((move t (.read (some f) max heap got)).s.files f).data = 0 then
        ((move t (.read (some f) max heap got)).s.files f).size = 0 ∨ max = 0
      else min ((move t (.read (some f) max heap got)).s.files f).size max < 2147483648 := by
    rw [← copied, state, ← reply]
    constructor
    · intro law
      exact ⟨law.read f max heap got rfl file, law.present⟩
    · rintro ⟨read, present⟩
      refine ⟨?_, present, failed, frame⟩
      rintro f' max' heap' got' ⟨⟩ _
      exact read
  rw [law, state]
  have fits : Fits t (.read (some f) max heap got) ↔
      if (t.s.files f).data = 0 then (t.s.files f).size = 0 ∨ max = 0 ∨ Loads t.s f heap got
      else min (t.s.files f).size max < 2147483648 := forall_prop_of_true file
  rw [fits]
  rcases cases' with ⟨same, _, unloaded⟩ | ⟨null, loads, some', _, changed⟩
  · rw [same.files]
    split_ifs with null
    · constructor
      · rintro (empty | nothing)
        · exact .inl empty
        · exact .inr (.inl nothing)
      · rintro (empty | nothing | loads)
        · exact .inl empty
        · exact .inr nothing
        · exact .inl ((unloaded null).resolve_right fun not => not loads)
    · exact Iff.rfl
  · rw [if_neg some', if_pos null, changed.size, List.length_take]
    have below := asInt_lt got.length
    constructor
    · intro _
      exact .inr (.inr loads)
    · intro _
      omega

/-- Exactly the calls that meet the condition keep their promise. -/
theorem law_iff (inv : Inv t) (valid : Valid t op) : Law t op ↔ Fits t op := by
  obtain ⟨failed, frame⟩ := law_other inv valid
  have silent (bytes : (step t.s op).2.bytes = [])
      (noFile : ∀ f max heap got, op = .read (some f) max heap got →
        (t.s.files f).kind ≠ .file) : Law t op :=
    ⟨fun f max heap got is file => absurd file (noFile f max heap got is),
      fun some' => absurd bytes some', failed, frame⟩
  cases input : op.input with
  | some buf =>
    have other : ∀ file max heap got, op ≠ .read file max heap got := by
      rintro file max heap got rfl
      cases input
    have law := silent (by rw [step_input input]) fun f max heap got is =>
      absurd is (other (some f) max heap got)
    refine ⟨fun _ => ?_, fun _ => law⟩
    unfold Fits
    split
    · exact absurd rfl (other _ _ _ _)
    · trivial
  | none =>
    cases op with
    | write given buf heap => cases input
    | writeStr given str heap => cases input
    | read given max heap got =>
      cases given with
      | none => exact ⟨fun _ => trivial, fun _ => silent rfl nofun⟩
      | some f =>
        by_cases file : (t.s.files f).kind = .file
        · exact read_law_iff file inv valid
        · refine ⟨fun _ is => absurd is file, fun _ => silent ?_ ?_⟩
          · rw [(read_dir file).1]
          · rintro f' max' heap' got' ⟨⟩
            exact file

def Start (t : Tracked) : Prop :=
  ∀ f, (t.s.files f).data = 0 ∧ (t.s.files f).capacity = 0 ∧ t.last f = []

theorem Start.inv (start : Start t) : Inv t where
  absent f _ := (start f).2.1
  sized f some' := absurd (start f).1 some'
  holds f := by
    rw [(start f).2.2, contents, if_pos (start f).1]
  apart f _ _ some' := absurd (start f).1 some'

/-- In every sequence of calls, all calls keep their promises exactly if all of them meet the
condition. -/
theorem file_contents_iff (start : Start t) (ops : List Op)
    (valid : ∀ k op, ops[k]? = some op → Valid ((ops.take k).foldl move t) op) :
    (∀ k op, ops[k]? = some op → Law ((ops.take k).foldl move t) op) ↔
      ∀ k op, ops[k]? = some op → Fits ((ops.take k).foldl move t) op :=
  each_iff (I := Inv) (fun _ _ inv valid => law_iff inv valid)
    (fun _ _ inv valid _ => move_inv inv valid) ops start.inv valid

end Calls

def unmounted : Tracked :=
  ⟨⟨fun _ => ⟨.file, 2, 0, 0, 5⟩, fun _ => 7, true, false⟩, fun _ => []⟩

def writeTwo : Op := .write (some 0) [1, 2] ⟨some 64, fun _ => 7⟩

def readOne : Op := .read (some 0) 1 ⟨none, store (fun _ => 7) 64 [1, 2]⟩ []

theorem file_contents_iff_write :
    Law unmounted writeTwo ∧ Law (move unmounted writeTwo) readOne := by
  have start : Start unmounted := fun _ => ⟨rfl, rfl, rfl⟩
  suffices all : ∀ k op, [writeTwo, readOne][k]? = some op →
      Law (([writeTwo, readOne].take k).foldl move unmounted) op from
    ⟨all 0 writeTwo rfl, all 1 readOne rfl⟩
  refine (file_contents_iff start [writeTwo, readOne] ?_).mpr ?_
  · intro k op there
    rcases k with _ | _ | k
    · cases there
      rintro f ⟨⟩
      refine ⟨?_, ?_, nofun⟩
      · rintro p ⟨⟩
        exact ⟨by decide, fun g some' => absurd rfl some'⟩
      · exact fun _ _ _ _ => rfl
    · cases there
      rintro f ⟨⟩
      refine ⟨nofun, fun _ _ _ _ => rfl, ?_⟩
      rintro max heap got ⟨⟩
      exact Nat.zero_le _
    · cases there
  · intro k op there
    rcases k with _ | _ | k
    · cases there
      trivial
    · cases there
      intro _
      have data : (([writeTwo, readOne].take 1).foldl move unmounted).s.files 0 =
          ⟨.file, 2, 2, 64, 5⟩ := rfl
      rw [data, if_neg (by decide)]
      exact Nat.lt_of_le_of_lt (Nat.min_le_right 2 1) (by omega)
    · cases there

/-- The load hook fails, and a read of the file takes its bytes from the null pointer. -/
theorem null_read : ∃ op, Valid unmounted op ∧ op.file = some 0 ∧
    (step unmounted.s op).2.source = 0 ∧ (step unmounted.s op).2.bytes.length = 2 ∧
    ¬ Law unmounted op := by
  refine ⟨.read (some 0) 2 ⟨none, fun _ => 7⟩ [], ?_, rfl, rfl, rfl, ?_⟩
  · rintro f ⟨⟩
    refine ⟨nofun, fun _ _ _ _ => rfl, ?_⟩
    rintro max heap got ⟨⟩
    exact Nat.zero_le _
  · intro law
    exact law.present (List.cons_ne_nil _ _) rfl

end XinuRpi5.Fs.VfsContents
