/- source: fs/vfs.c
   digest: The links between the nodes, and what `new_node` and a write leave of them. -/

import XinuRpi5.Lib.GuardedRuns
import XinuRpi5.Lib.LinkedChain
import XinuRpi5.Fs.Vfs
import Mathlib.Data.List.Range
import Mathlib.Data.List.Perm.Subperm

namespace XinuRpi5.Fs.VfsLinks

open Lib.GuardedRuns Lib.LinkedChain Vfs

def Points (l : Option Nat) (c : Nat) : Prop := l = some c

theorem points_functional : Functional Points none where
  unique := by
    rintro p a b rfl equal
    exact Option.some.inj equal
  null := by
    rintro a ⟨⟩

/-- The sibling links from `l` on lead through these nodes and end. -/
def Siblings (heap : Nat → Node) (l : Option Nat) (cs : List Nat) : Prop :=
  Seg Points (fun c => (heap c).next) l cs none

/-- `c` is on the child list of `p`. -/
def Child (v : Store) (p c : Nat) : Prop := ∃ cs, Siblings v.heap (v.heap p).children cs ∧ c ∈ cs

inductive Path (v : Store) : List Nat → Nat → Prop
  | root : Path v [0] 0
  | down {way : List Nat} {p c : Nat} : Path v way p → Child v p c → Path v (way ++ [c]) c

structure Linked (v : Store) (kids : Nat → List Nat) : Prop where
  root : 0 < v.used ∧ (v.heap 0).parent = none ∧ (v.heap 0).kind = .dir
  chain : ∀ p < v.used, Siblings v.heap (v.heap p).children (kids p)
  mem : ∀ p < v.used, ∀ c, c ∈ kids p ↔ c < v.used ∧ (v.heap c).parent = some p
  parent : ∀ c < v.used, c ≠ 0 → ∃ p, (v.heap c).parent = some p
  older : ∀ c < v.used, ∀ p, (v.heap c).parent = some p → p < c
  dirs : ∀ p < v.used, (v.heap p).kind ≠ .dir → kids p = []

section Reading

variable {v : Store} {kids : Nat → List Nat} {p c n : Nat}

section

variable (linked : Linked v kids)

include linked

theorem Linked.child_iff (inside : p < v.used) :
    Child v p c ↔ c ∈ kids p := by
  constructor
  · rintro ⟨cs, chain, listed⟩
    rw [Seg.unique points_functional (linked.chain p inside) chain]
    exact listed
  · intro listed
    exact ⟨kids p, linked.chain p inside, listed⟩

theorem Linked.path_used {way : List Nat} (path : Path v way n) :
    n < v.used := by
  induction path with
  | root => exact linked.root.1
  | down _ child ih => exact ((linked.mem _ ih _).mp ((linked.child_iff ih).mp child)).1

theorem Linked.path_exists (inside : n < v.used) : ∃ way, Path v way n := by
  induction n using Nat.strong_induction_on with
  | h n ih =>
    by_cases root : n = 0
    · subst root
      exact ⟨[0], .root⟩
    · obtain ⟨p, up⟩ := linked.parent n inside root
      have less := linked.older n inside p up
      have below : p < v.used := Nat.lt_trans less inside
      obtain ⟨way, path⟩ := ih p less below
      have listed := (linked.mem p below n).mpr ⟨inside, up⟩
      exact ⟨way ++ [n], .down path ((linked.child_iff below).mpr listed)⟩

theorem Linked.path_unique {way way' : List Nat} (path : Path v way n) (path' : Path v way' n) :
    way = way' := by
  have up : ∀ {w : List Nat} {q m : Nat}, Path v w q → Child v q m →
      (v.heap m).parent = some q := by
    intro w q m above child
    have below := linked.path_used above
    exact ((linked.mem q below m).mp ((linked.child_iff below).mp child)).2
  induction path generalizing way' with
  | root =>
    cases path' with
    | root => rfl
    | down above child =>
      have none := (up above child).symm.trans linked.root.2.1
      cases none
  | down above child ih =>
    cases path' with
    | root =>
      have none := (up above child).symm.trans linked.root.2.1
      cases none
    | down above' child' =>
      obtain rfl := Option.some.inj ((up above child).symm.trans (up above' child'))
      rw [ih above']

theorem Linked.length_le (inside : p < v.used) :
    (kids p).length ≤ v.used := by
  have nodup := Seg.nodup points_functional (linked.chain p inside)
  have sub : kids p ⊆ List.range v.used := by
    intro c listed
    exact List.mem_range.mpr ((linked.mem p inside c).mp listed).1
  have shorter := (nodup.subperm sub).length_le
  rwa [List.length_range] at shorter

end

theorem linked_init : Linked init fun _ => [] := by
  have only : ∀ c, c < init.used → c = 0 := fun c small => Nat.lt_one_iff.mp small
  refine ⟨⟨by decide, rfl, rfl⟩, fun _ _ => rfl, fun p _ c => ?_, fun c small other => ?_,
    fun c _ p up => ?_, fun _ _ _ => rfl⟩
  · refine ⟨fun listed => absurd listed List.not_mem_nil, ?_⟩
    rintro ⟨_, ⟨⟩⟩
  · exact absurd (only c small) other
  · cases up

end Reading

section Loops

variable {heap : Nat → Node} {name : List Char} {cs : List Nat} {l : Option Nat} {fuel : Nat}

theorem findFrom_eq (chain : Siblings heap l cs) (budget : cs.length < fuel) :
    findFrom heap name fuel l = some (cs.find? fun c => (heap c).name = name) := by
  induction cs generalizing l fuel with
  | nil =>
    obtain rfl : l = none := chain
    cases fuel with
    | zero => simp at budget
    | succ fuel => rfl
  | cons c cs ih =>
    obtain ⟨here, rest⟩ := chain
    obtain rfl : l = some c := here
    cases fuel with
    | zero => simp at budget
    | succ fuel =>
      by_cases match_ : (heap c).name = name
      · simp [findFrom, match_]
      · have rest := ih rest (by simpa using budget)
        simpa [findFrom, match_] using rest

theorem lastFrom_spec {first : Nat} (chain : Siblings heap (some first) cs)
    (budget : cs.length < fuel) : ∃ t, cs.getLast? = some t ∧ lastFrom heap fuel first = some t := by
  induction cs generalizing first fuel with
  | nil => cases chain
  | cons c cs ih =>
    obtain ⟨here, rest⟩ := chain
    obtain rfl : first = c := Option.some.inj here
    cases fuel with
    | zero => simp at budget
    | succ fuel =>
      unfold lastFrom
      cases next : (heap first).next with
      | none =>
        simp only [next] at rest
        cases cs with
        | nil => exact ⟨first, rfl, rfl⟩
        | cons d ds => exact (points_functional.null d rest.1).elim
      | some u =>
        simp only [next] at rest
        obtain ⟨t, last, run⟩ := ih rest (by simpa using budget)
        refine ⟨t, ?_, run⟩
        rw [List.getLast?_cons_of_ne_nil, last]
        rintro rfl
        cases last

end Loops

/-- What `new_node` leaves behind: the node number `n` under `p`, which had the
children `cs`. -/
structure Inserted (v v' : Store) (cs : List Nat) (p : Nat) (kind : Kind) (name : List Char) :
    Prop where
  used : v'.used = v.used + 1
  count : v'.nodeCount = v.nodeCount + 1
  fresh : (v'.heap v.used).name = strCopy name ∧ (v'.heap v.used).kind = kind ∧
    (v'.heap v.used).parent = some p ∧ (v'.heap v.used).children = none ∧
    (v'.heap v.used).next = none
  kept : ∀ q, q ≠ v.used → (v'.heap q).name = (v.heap q).name ∧
    (v'.heap q).kind = (v.heap q).kind ∧ (v'.heap q).parent = (v.heap q).parent
  children : ∀ q, q ≠ v.used → q ≠ p → (v'.heap q).children = (v.heap q).children
  next : ∀ q, q ≠ v.used → q ∉ cs → (v'.heap q).next = (v.heap q).next
  chain : Siblings v'.heap (v'.heap p).children (cs ++ [v.used])

section Inserting

variable {v : Store} {kids : Nat → List Nat} {p : Nat} {kind : Kind} {name : List Char}

theorem newNode_inserted (linked : Linked v kids) (inside : p < v.used) :
    ∃ v', newNode v kind name p = some (v', v.used) ∧ Inserted v v' (kids p) p kind name := by
  have other : p ≠ v.used := Nat.ne_of_lt inside
  have away : ∀ c ∈ kids p, c ≠ v.used := fun c listed =>
    Nat.ne_of_lt ((linked.mem p inside c).mp listed).1
  have chain := linked.chain p inside
  generalize new : (⟨strCopy name, kind, 0, 0, none, some p, none, none⟩ : Node) = e
  cases first : (v.heap p).children with
  | none =>
    have empty : kids p = [] := by
      rw [first] at chain
      cases listed : kids p with
      | nil => rfl
      | cons c cs =>
        rw [listed] at chain
        exact (points_functional.null c chain.1).elim
    refine ⟨⟨Function.update (Function.update v.heap v.used e) p
      { v.heap p with children := some v.used }, v.used + 1, v.nodeCount + 1⟩, ?_, ?_⟩
    · simp [newNode, new, Function.update_of_ne other, first]
    · subst new
      refine ⟨rfl, rfl, ?_, fun q apart => ?_, fun q apart notP => ?_, fun q apart _ => ?_, ?_⟩
      · simp [Function.update_of_ne other.symm]
      · by_cases same : q = p
        · subst same
          simp
        · simp [Function.update_of_ne same, Function.update_of_ne apart]
      · simp [Function.update_of_ne notP, Function.update_of_ne apart]
      · by_cases same : q = p
        · subst same
          simp
        · simp [Function.update_of_ne same, Function.update_of_ne apart]
      · rw [empty]
        refine ⟨by simp [Points], ?_⟩
        simp [Function.update_of_ne other.symm]
  | some c =>
    have stored : Siblings (Function.update v.heap v.used e) (some c) (kids p) := by
      rw [← first]
      refine Seg.congr chain (fun _ _ _ node => node) fun d listed => ?_
      simp [Function.update_of_ne (away d listed)]
    have budget : (kids p).length < v.used + 1 := Nat.lt_succ_of_le (linked.length_le inside)
    obtain ⟨t, last, run⟩ := lastFrom_spec stored budget
    have listed : t ∈ kids p := List.mem_of_getLast? last
    have apartT : t ≠ v.used := away t listed
    refine ⟨⟨Function.update (Function.update v.heap v.used e) t
      { v.heap t with next := some v.used }, v.used + 1, v.nodeCount + 1⟩, ?_, ?_⟩
    · simp [newNode, new, Function.update_of_ne other, first, run, Function.update_of_ne apartT]
    · subst new
      have notP : p ≠ t := by
        have below := (linked.mem p inside t).mp listed
        exact Nat.ne_of_lt (linked.older t below.1 p below.2)
      refine ⟨rfl, rfl, ?_, fun q apart => ?_, fun q apart _ => ?_, fun q apart off => ?_, ?_⟩
      · simp [Function.update_of_ne apartT.symm]
      · by_cases same : q = t
        · subst same
          simp
        · simp [Function.update_of_ne same, Function.update_of_ne apart]
      · by_cases same : q = t
        · subst same
          simp
        · simp [Function.update_of_ne same, Function.update_of_ne apart]
      · have same : q ≠ t := by
          rintro rfl
          exact off listed
        simp [Function.update_of_ne same, Function.update_of_ne apart]
      · obtain ⟨front, split⟩ := List.getLast?_eq_some_iff.mp last
        have once : t ∉ front := by
          have nodup := Seg.nodup points_functional stored
          rw [split] at nodup
          intro again
          exact (List.nodup_append.mp nodup).2.2 t again t (by simp) rfl
        rw [split] at stored ⊢
        obtain ⟨r, before, here, _⟩ := seg_snoc.mp stored
        have head : (Function.update (Function.update v.heap v.used
            ⟨strCopy name, kind, 0, 0, none, some p, none, none⟩) t
            { v.heap t with next := some v.used } p).children = some c := by
          simp [Function.update_of_ne notP, Function.update_of_ne other, first]
        simp only [head]
        refine seg_snoc.mpr ⟨some v.used, seg_snoc.mpr ⟨r, ?_, here, by simp⟩, rfl, ?_⟩
        · refine Seg.congr before (fun _ _ _ node => node) fun d early => ?_
          have apart : d ≠ t := by
            rintro rfl
            exact once early
          simp [Function.update_of_ne apart]
        · simp [Function.update_of_ne apartT.symm]

def grow (kids : Nat → List Nat) (p n : Nat) : Nat → List Nat :=
  Function.update (Function.update kids n []) p (kids p ++ [n])

/-- A new node under a directory keeps the links. -/
theorem Inserted.linked {v' : Store} (linked : Linked v kids) (inside : p < v.used)
    (dir : (v.heap p).kind = .dir) (ins : Inserted v v' (kids p) p kind name) :
    Linked v' (grow kids p v.used) := by
  have other : p ≠ v.used := Nat.ne_of_lt inside
  have kidsP : grow kids p v.used p = kids p ++ [v.used] := by simp [grow]
  have kidsN : grow kids p v.used v.used = [] := by simp [grow, Function.update_of_ne other.symm]
  have kidsQ : ∀ q, q ≠ p → q ≠ v.used → grow kids p v.used q = kids q := by
    intro q notP notN
    simp [grow, Function.update_of_ne notP, Function.update_of_ne notN]
  have old : ∀ {q}, q < v'.used → q ≠ v.used → q < v.used := by
    intro q small notN
    rw [ins.used] at small
    omega
  have parentKept : ∀ {q}, q ≠ v.used → (v'.heap q).parent = (v.heap q).parent :=
    fun notN => (ins.kept _ notN).2.2
  have mem : ∀ q < v'.used, ∀ c, c ∈ grow kids p v.used q ↔
      c < v'.used ∧ (v'.heap c).parent = some q := by
    intro q small c
    by_cases new : c = v.used
    · -- the new node is listed under `p` and nowhere else
      subst new
      rw [ins.fresh.2.2.1, ins.used]
      by_cases here : q = p
      · simp [here, kidsP]
      · have missing : v.used ∉ grow kids p v.used q := by
          by_cases self : q = v.used
          · simp [self, kidsN]
          · rw [kidsQ q here self]
            intro listed
            exact Nat.lt_irrefl _ ((linked.mem q (old small self) v.used).mp listed).1
        simp [missing, Ne.symm here]
    · have bound : c < v'.used ↔ c < v.used := by
        rw [ins.used]
        omega
      rw [parentKept new, bound]
      by_cases here : q = p
      · rw [here, kidsP, ← linked.mem p inside c]
        simp [new]
      · by_cases self : q = v.used
        · rw [self, kidsN]
          refine ⟨fun listed => absurd listed List.not_mem_nil, fun ⟨low, up⟩ => ?_⟩
          exact absurd (linked.older c low v.used up) (by omega)
        · rw [kidsQ q here self]
          exact linked.mem q (old small self) c
  refine ⟨⟨?_, ?_, ?_⟩, fun q small => ?_, mem, fun c small notRoot => ?_, fun c small q up => ?_,
    fun q small notDir => ?_⟩
  · rw [ins.used]
    omega
  · rw [parentKept (Nat.ne_of_lt linked.root.1)]
    exact linked.root.2.1
  · rw [(ins.kept 0 (Nat.ne_of_lt linked.root.1)).2.1]
    exact linked.root.2.2
  · by_cases here : q = p
    · rw [here, kidsP]
      exact ins.chain
    · by_cases self : q = v.used
      · rw [self, kidsN, ins.fresh.2.2.2.1]
        rfl
      · rw [kidsQ q here self, ins.children q self here]
        have below := old small self
        refine Seg.congr (linked.chain q below) (fun _ _ _ node => node) fun c listed => ?_
        obtain ⟨low, up⟩ := (linked.mem q below c).mp listed
        refine ins.next c (Nat.ne_of_lt low) fun also => here ?_
        exact Option.some.inj (up.symm.trans ((linked.mem p inside c).mp also).2)
  · by_cases new : c = v.used
    · rw [new]
      exact ⟨p, ins.fresh.2.2.1⟩
    · rw [parentKept new]
      exact linked.parent c (old small new) notRoot
  · by_cases new : c = v.used
    · rw [new, ins.fresh.2.2.1] at up
      obtain rfl := Option.some.inj up
      rw [new]
      exact inside
    · rw [parentKept new] at up
      exact linked.older c (old small new) q up
  · by_cases self : q = v.used
    · rw [self]
      exact kidsN
    · rw [(ins.kept q self).2.1] at notDir
      have here : q ≠ p := by
        rintro rfl
        exact notDir dir
      rw [kidsQ q here self]
      exact linked.dirs q (old small self) notDir

end Inserting

structure Contents (v v' : Store) : Prop where
  used : v'.used = v.used
  count : v'.nodeCount = v.nodeCount
  same : ∀ q, ∃ size capacity data, v'.heap q =
    { v.heap q with size := size, capacity := capacity, data := data }

section Contents

variable {v v' : Store} {kids : Nat → List Nat}

section

variable (kept : Contents v v')

include kept

theorem Contents.name (q : Nat) : (v'.heap q).name = (v.heap q).name := by
  obtain ⟨_, _, _, equal⟩ := kept.same q
  rw [equal]

theorem Contents.kind (q : Nat) : (v'.heap q).kind = (v.heap q).kind := by
  obtain ⟨_, _, _, equal⟩ := kept.same q
  rw [equal]

theorem Contents.links (q : Nat) :
    (v'.heap q).parent = (v.heap q).parent ∧ (v'.heap q).children = (v.heap q).children ∧
      (v'.heap q).next = (v.heap q).next := by
  obtain ⟨_, _, _, equal⟩ := kept.same q
  rw [equal]
  exact ⟨rfl, rfl, rfl⟩

theorem Contents.linked (linked : Linked v kids) : Linked v' kids := by
  refine ⟨?_, ?_, ?_, ?_, ?_, ?_⟩
  · rw [kept.used, (kept.links 0).1, kept.kind]
    exact linked.root
  · intro p inside
    rw [(kept.links p).2.1]
    rw [kept.used] at inside
    exact Seg.congr (linked.chain p inside) (fun _ _ _ node => node) fun c _ => (kept.links c).2.2
  · intro p inside c
    rw [kept.used] at inside ⊢
    rw [(kept.links c).1]
    exact linked.mem p inside c
  · intro c inside notRoot
    rw [kept.used] at inside
    rw [(kept.links c).1]
    exact linked.parent c inside notRoot
  · intro c inside p up
    rw [kept.used] at inside
    rw [(kept.links c).1] at up
    exact linked.older c inside p up
  · intro p inside notDir
    rw [kept.used] at inside
    rw [kept.kind] at notDir
    exact linked.dirs p inside notDir

end

theorem vfsWrite_contents (v : Store) (file : Option Nat) (buf : List UInt8) (memory : Bool) :
    Contents v (vfsWrite v file buf memory).1 := by
  have stored : ∀ (f size capacity : Nat) (data : Option (List UInt8)),
      Contents v ⟨Function.update v.heap f { v.heap f with
        size := size, capacity := capacity, data := data }, v.used, v.nodeCount⟩ := by
    intro f size capacity data
    refine ⟨rfl, rfl, fun q => ?_⟩
    by_cases here : q = f
    · subst here
      exact ⟨size, capacity, data, by simp⟩
    · exact ⟨_, _, _, by simp [Function.update_of_ne here]; rfl⟩
  have unchanged : Contents v v := ⟨rfl, rfl, fun q => ⟨_, _, _, rfl⟩⟩
  unfold vfsWrite
  cases file with
  | none => exact unchanged
  | some f =>
    simp only
    split_ifs
    · exact unchanged
    · exact stored f _ _ _
    · exact unchanged
    · exact stored f _ _ _

end Contents

/-- New nodes under directories and writes lead to the second store; if `fit` holds, no name
that was stored met a sibling of this name. -/
inductive Grown (fit : Prop) : Store → (Nat → List Nat) → Store → (Nat → List Nat) → Prop
  | refl (v : Store) (kids : Nat → List Nat) : Grown fit v kids v kids
  | insert {v w v' : Store} {kids kids' : Nat → List Nat} {p : Nat} {kind : Kind}
      {name : List Char} : p < v.used → (v.heap p).kind = .dir →
      (fit → ∀ c ∈ kids p, (v.heap c).name ≠ strCopy name) →
      Inserted v w (kids p) p kind name → Grown fit w (grow kids p v.used) v' kids' →
      Grown fit v kids v' kids'
  | write {v w v' : Store} {kids kids' : Nat → List Nat} : Contents v w →
      Grown fit w kids v' kids' → Grown fit v kids v' kids'

theorem Grown.linked {fit : Prop} {v v' : Store} {kids kids' : Nat → List Nat}
    (grown : Grown fit v kids v' kids') (linked : Linked v kids) : Linked v' kids' := by
  induction grown with
  | refl => exact linked
  | insert inside dir _ ins _ ih => exact ih (ins.linked linked inside dir)
  | write kept _ ih => exact ih (kept.linked linked)

section Calls

variable {v : Store} {kids : Nat → List Nat} {p : Nat} {kind : Kind} {name : List Char}

theorem findChild_eq (linked : Linked v kids) (inside : p < v.used) :
    findChild v p name = some ((kids p).find? fun c => (v.heap c).name = name) := by
  unfold findChild
  by_cases file : (v.heap p).kind ≠ .dir
  · rw [if_pos file, linked.dirs p inside file]
    rfl
  · rw [if_neg file]
    exact findFrom_eq (linked.chain p inside) (Nat.lt_succ_of_le (linked.length_le inside))

theorem findChild_spec (linked : Linked v kids) (inside : p < v.used) :
    (∃ c ∈ kids p, (v.heap c).name = name ∧ findChild v p name = some (some c)) ∨
      (∀ c ∈ kids p, (v.heap c).name ≠ name) ∧ findChild v p name = some none := by
  rw [findChild_eq linked inside]
  cases found : (kids p).find? fun c => (v.heap c).name = name with
  | some c =>
    have named := List.find?_some found
    exact .inl ⟨c, List.mem_of_find?_eq_some found, of_decide_eq_true named, rfl⟩
  | none =>
    have missing := List.find?_eq_none.mp found
    exact .inr ⟨fun c listed same => missing c listed (decide_eq_true same), rfl⟩

theorem strCopy_short (short : name.length ≤ 31) : strCopy name = name :=
  List.take_of_length_le short

section

variable {parent : Option Nat} {memory : Bool} (linked : Linked v kids)
  (valid : ∀ p, parent = some p → p < v.used)

include linked valid

theorem create_cases :
    create kind v parent name memory = some (v, none) ∨
      ∃ p v', parent = some p ∧ (v.heap p).kind = .dir ∧ memory = true ∧
        (∀ c ∈ kids p, (v.heap c).name ≠ name) ∧ Inserted v v' (kids p) p kind name ∧
        create kind v parent name memory = some (v', some v.used) := by
  cases parent with
  | none => exact .inl rfl
  | some p =>
    have inside := valid p rfl
    unfold create
    by_cases file : (v.heap p).kind ≠ .dir
    · dsimp only
      rw [if_pos file]
      exact .inl rfl
    · have dir : (v.heap p).kind = .dir := not_not.mp file
      simp only [if_neg file]
      rcases @findChild_spec v kids p name linked inside with ⟨c, _, _, found⟩ | ⟨missing, through⟩
      · rw [found]
        exact .inl rfl
      · rw [through]
        cases memory with
        | false => exact .inl rfl
        | true =>
          obtain ⟨v', run, ins⟩ := @newNode_inserted v kids p kind name linked inside
          exact .inr ⟨p, v', rfl, dir, rfl, missing, ins, by simp [run]⟩

theorem create_grown :
    ∃ v' r kids', create kind v parent name memory = some (v', r) ∧
      Grown (∀ p, parent = some p → (v.heap p).kind = .dir → memory = true → 31 < name.length →
        ∀ c, Child v p c → (v.heap c).name ≠ name.take 31) v kids v' kids' := by
  rcases @create_cases v kids kind name parent memory linked valid with
    same | ⟨p, v', is, dir, room, missing, ins, run⟩
  · exact ⟨v, none, kids, same, .refl v kids⟩
  · refine ⟨v', _, _, run, .insert (valid p is) dir (fun fit => ?_) ins (.refl _ _)⟩
    by_cases short : name.length ≤ 31
    · rw [strCopy_short short]
      exact missing
    · intro c listed
      exact fit p is dir room (by omega) c ((linked.child_iff (valid p is)).mpr listed)

end

end Calls

/-- The condition on a call: a new node whose name has to be cut meets no
sibling of the cut name. -/
def Fits (v : Store) : Op → Prop
  | .mkdir parent name memory | .createFile parent name memory =>
    ∀ p, parent = some p → (v.heap p).kind = .dir → memory = true → 31 < name.length →
      ∀ c, Child v p c → (v.heap c).name ≠ name.take 31
  | _ => True

end XinuRpi5.Fs.VfsLinks
