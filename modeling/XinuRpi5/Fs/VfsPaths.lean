/- source: fs/vfs.c
   digest: The two loops over a path see the same components, and what creation by path adds. -/

import Mathlib.Data.List.Find
import XinuRpi5.Fs.VfsLinks

namespace XinuRpi5.Fs.VfsPaths

open Lib.LinkedChain Lib.GuardedRuns Vfs VfsLinks

section Components

/-- The components of a path behind its first slash; one of more than 31 characters is
taken for several. -/
def components : List Char → List (List Char)
  | [] => []
  | c :: p =>
    let name := component (c :: p)
    let rest := (c :: p).drop name.length
    have := advance_lt c p
    if name = [] then components (skipSlash rest) else name :: components (skipSlash rest)
  termination_by p => p.length
  decreasing_by all_goals exact advance_lt c p

def descend (v : Store) : Nat → List (List Char) → Option (Option Nat)
  | cur, [] => some (some cur)
  | cur, name :: names =>
    match findChild v cur name with
    | none => none
    | some none => some none
    | some (some child) => descend v child names

def build (lastIsFile : Bool) : Store → Nat → Nat → List (List Char) →
    Option (Store × Option Nat)
  | v, cur, _, [] => some (v, some cur)
  | v, cur, memory, name :: names =>
    match findChild v cur name with
    | none => none
    | some none =>
      match memory with
      | 0 => some (v, none)
      | memory + 1 =>
        match newNode v (if names.isEmpty && lastIsFile then .file else .dir) name cur with
        | none => none
        | some (v, child) => build lastIsFile v child memory names
    | some (some child) =>
      if !names.isEmpty && (v.heap child).kind ≠ .dir then some (v, none)
      else build lastIsFile v child memory names

variable {q : List Char}

theorem component_length (q : List Char) : (component q).length ≤ 31 :=
  List.length_take_le _ _

def Slashes (q : List Char) : Prop := ∀ c ∈ q, c = '/'

theorem Slashes.component (slashes : Slashes q) : component q = [] := by
  cases q with
  | nil => rfl
  | cons c q =>
    have slash : c = '/' := slashes c List.mem_cons_self
    simp [Vfs.component, slash]

theorem Slashes.skip (slashes : Slashes q) : Slashes (skipSlash q) := by
  unfold skipSlash
  split
  · exact fun c listed => slashes c (List.mem_cons_of_mem _ listed)
  · exact slashes

theorem Slashes.drop (slashes : Slashes q) (n : Nat) : Slashes (q.drop n) :=
  fun c listed => slashes c (List.mem_of_mem_drop listed)

theorem slashes_of_all (all : q.all (· = '/') = true) : Slashes q := by
  intro c listed
  simpa using List.all_eq_true.mp all c listed

theorem components_slashes (slashes : Slashes q) : components q = [] := by
  fun_induction components q with
  | case1 => rfl
  | case2 c q name rest shorter empty ih => exact ih (slashes.drop _).skip
  | case3 c q name rest shorter other ih => exact absurd slashes.component other

theorem skipSlash_slashes (slashes : Slashes (skipSlash q)) : Slashes q := by
  unfold skipSlash at slashes
  split at slashes
  · intro c listed
    rcases List.mem_cons.mp listed with rfl | later
    · rfl
    · exact slashes c later
  · exact slashes

theorem slashes_of_components (none : components q = []) : Slashes q := by
  fun_induction components q with
  | case1 => exact fun c listed => (List.not_mem_nil listed).elim
  | case2 c q name rest shorter empty ih =>
    have rest : Slashes ((c :: q).drop name.length) := skipSlash_slashes (ih none)
    rw [empty] at rest
    exact rest
  | case3 => cases none

theorem rest_isEmpty (q : List Char) :
    (components (skipSlash q)).isEmpty = q.all (· = '/') := by
  cases last : q.all (· = '/') with
  | true => rw [components_slashes (slashes_of_all last).skip, List.isEmpty_nil]
  | false =>
    rw [List.isEmpty_eq_false_iff]
    intro none
    have slashes := skipSlash_slashes (slashes_of_components none)
    have all : q.all (· = '/') = true := by
      rw [List.all_eq_true]
      intro c listed
      exact decide_eq_true (slashes c listed)
    rw [last] at all
    cases all

theorem components_short {name : List Char} (listed : name ∈ components q) :
    name.length ≤ 31 := by
  fun_induction components q with
  | case1 => cases listed
  | case2 c q first rest shorter empty ih => exact ih listed
  | case3 c q first rest shorter other ih =>
    rcases List.mem_cons.mp listed with rfl | later
    · exact component_length _
    · exact ih later

theorem lookupFrom_eq (v : Store) (cur : Nat) (q : List Char) :
    lookupFrom v cur q = descend v cur (components q) := by
  fun_induction components q generalizing cur with
  | case1 =>
    rw [lookupFrom]
    rfl
  | case2 c q name rest shorter empty ih =>
    rw [lookupFrom, if_pos empty]
    exact ih cur
  | case3 c q name rest shorter other ih =>
    rw [lookupFrom, if_neg other, descend]
    rcases findChild v cur name with _ | _ | child
    · rfl
    · rfl
    · exact ih child

theorem resolveFrom_eq (lastIsFile : Bool) (v : Store) (cur memory : Nat) (q : List Char) :
    resolveFrom lastIsFile v cur memory q = build lastIsFile v cur memory (components q) := by
  fun_induction components q generalizing v cur memory with
  | case1 =>
    rw [resolveFrom]
    rfl
  | case2 c q name rest shorter empty ih =>
    rw [resolveFrom, if_pos empty]
    exact ih v cur memory
  | case3 c q name rest shorter other ih =>
    rw [resolveFrom, if_neg other]
    unfold build
    rw [rest_isEmpty]
    rcases findChild v cur name with _ | _ | child
    · rfl
    · cases memory with
      | zero => rfl
      | succ memory =>
        dsimp only
        rcases newNode v _ name cur with _ | ⟨v', child⟩
        · rfl
        · exact ih v' child memory
    · dsimp only
      split_ifs
      · rfl
      · exact ih v child memory

end Components

/-- What a creation keeps: the nodes, their kinds and what every search finds. -/
structure Extends (v v' : Store) : Prop where
  used : v.used ≤ v'.used
  kind : ∀ q < v.used, (v'.heap q).kind = (v.heap q).kind
  found : ∀ q < v.used, ∀ name c, findChild v q name = some (some c) →
    findChild v' q name = some (some c)

section Growing

variable {v v' w : Store} {kids : Nat → List Nat} {p cur : Nat} {kind : Kind} {name : List Char}
variable {names : List (List Char)} {n : Nat}

theorem Extends.refl (v : Store) : Extends v v :=
  ⟨Nat.le_refl _, fun _ _ => rfl, fun _ _ _ _ found => found⟩

theorem Extends.trans (first : Extends v v') (second : Extends v' w) : Extends v w where
  used := Nat.le_trans first.used second.used
  kind q old := (second.kind q (Nat.lt_of_lt_of_le old first.used)).trans (first.kind q old)
  found q old name c found :=
    second.found q (Nat.lt_of_lt_of_le old first.used) name c (first.found q old name c found)

section

variable (linked : Linked v kids)

include linked

theorem findChild_child (inside : p < v.used) {c : Nat}
    (found : findChild v p name = some (some c)) :
    c < v.used ∧ (v.heap p).kind = .dir ∧ (v.heap c).name = name := by
  rw [findChild_eq linked inside] at found
  have first := Option.some.inj found
  have listed := List.mem_of_find?_eq_some first
  have named := List.find?_some first
  refine ⟨((linked.mem p inside c).mp listed).1, ?_, of_decide_eq_true named⟩
  by_contra file
  rw [linked.dirs p inside file] at listed
  cases listed

section

variable (inside : p < v.used) (dir : (v.heap p).kind = .dir)
  (ins : Inserted v v' (kids p) p kind name)

include inside dir ins

theorem inserted_find {q : Nat} (old : q < v.used) (sought : List Char) :
    findChild v' q sought = some (((kids q).find? fun c => (v.heap c).name = sought).or
      (if q = p ∧ strCopy name = sought then some v.used else none)) := by
  have kept (r : Nat) (low : r < v.used) : ((kids r).find? fun c => (v'.heap c).name = sought) =
      (kids r).find? fun c => (v.heap c).name = sought := by
    apply List.find?_congr
    intro c listed
    have below := ((linked.mem r low c).mp listed).1
    rw [(ins.kept c (Nat.ne_of_lt below)).1]
  have within : q < v'.used := by
    rw [ins.used]
    omega
  rw [findChild_eq (ins.linked linked inside dir) within]
  unfold grow
  by_cases here : q = p
  · subst here
    rw [Function.update_self, List.find?_append, kept q old]
    congr 2
    by_cases same : strCopy name = sought
    · simp [same, ins.fresh.1]
    · simp [same, ins.fresh.1]
  · rw [Function.update_of_ne here, Function.update_of_ne (Nat.ne_of_lt old), kept q old,
      if_neg fun both => here both.1, Option.or_none]

theorem inserted_extends : Extends v v' where
  used := by
    rw [ins.used]
    exact Nat.le_succ _
  kind q old := (ins.kept q (Nat.ne_of_lt old)).2.1
  found q old sought c found := by
    rw [findChild_eq linked old] at found
    rw [inserted_find linked inside dir ins old, Option.some.inj found]
    rfl

theorem inserted_found (short : name.length ≤ 31) (missing : findChild v p name = some none) :
    findChild v' p name = some (some v.used) := by
  rw [findChild_eq linked inside] at missing
  rw [inserted_find linked inside dir ins inside, Option.some.inj missing,
    if_pos ⟨rfl, strCopy_short short⟩]
  rfl

end

end

variable {names : List (List Char)}

theorem descend_cons (found : descend v cur (name :: names) = some (some n)) :
    ∃ child, findChild v cur name = some (some child) ∧ descend v child names = some (some n) := by
  unfold descend at found
  cases step : findChild v cur name with
  | none =>
    rw [step] at found
    cases found
  | some result =>
    rw [step] at found
    cases result with
    | none => cases found
    | some child => exact ⟨child, rfl, found⟩

theorem descend_step {child : Nat} (step : findChild v cur name = some (some child)) :
    descend v cur (name :: names) = descend v child names := by
  rw [descend, step]

theorem descend_dir (linked : Linked v kids) (inside : cur < v.used)
    (found : descend v cur names = some (some n)) :
    names = [] ∨ (v.heap cur).kind = .dir := by
  cases names with
  | nil => exact .inl rfl
  | cons name names =>
    obtain ⟨child, step, _⟩ := descend_cons found
    exact .inr (findChild_child linked inside step).2.1

theorem Extends.descend (ext : Extends v v') (linked : Linked v kids) (inside : cur < v.used)
    (found : descend v cur names = some (some n)) :
    descend v' cur names = some (some n) := by
  induction names generalizing cur with
  | nil => exact found
  | cons name names ih =>
    obtain ⟨child, step, rest⟩ := descend_cons found
    rw [descend_step (ext.found cur inside name child step)]
    exact ih (findChild_child linked inside step).1 rest

theorem build_found {lastIsFile : Bool} {memory child : Nat}
    (step : findChild v cur name = some (some child)) :
    build lastIsFile v cur memory (name :: names) =
      if names ≠ [] ∧ (v.heap child).kind ≠ .dir then some (v, none)
      else build lastIsFile v child memory names := by
  have run : build lastIsFile v cur memory (name :: names) =
      if !names.isEmpty && (v.heap child).kind ≠ .dir then some (v, none)
      else build lastIsFile v child memory names := by
    cases memory <;> rw [build, step]
  rw [run]
  cases names <;> simp

variable (linked : Linked v kids)

include linked

theorem build_of_descend (lastIsFile : Bool) (memory : Nat) (inside : cur < v.used)
    (found : descend v cur names = some (some n)) :
    build lastIsFile v cur memory names = some (v, some n) := by
  induction names generalizing cur with
  | nil =>
    obtain rfl := Option.some.inj (Option.some.inj found)
    rfl
  | cons name names ih =>
    obtain ⟨child, step, rest⟩ := descend_cons found
    have below := (findChild_child linked inside step).1
    have through : ¬ (names ≠ [] ∧ (v.heap child).kind ≠ .dir) := by
      rintro ⟨more, file⟩
      exact (descend_dir linked below rest).elim more file
    rw [build_found step, if_neg through]
    exact ih below rest

theorem inserted_empty (inside : p < v.used) (dir : (v.heap p).kind = .dir)
    (ins : Inserted v v' (kids p) p kind name) (found : descend v' v.used names = some (some n)) :
    names = [] := by
  cases names with
  | nil => rfl
  | cons next names =>
    obtain ⟨child, step, _⟩ := descend_cons found
    have within : v.used < v'.used := by
      rw [ins.used]
      exact Nat.lt_succ_self _
    have childless : grow kids p v.used v.used = [] := by
      rw [grow, Function.update_of_ne (Nat.ne_of_gt inside), Function.update_self]
    rw [findChild_eq (ins.linked linked inside dir) within, childless] at step
    cases step

/-- A creation returns; the node it hands out is the one that a lookup finds from then on, and
it has the right kind unless it was there before. -/
theorem build_spec (fit : Prop) (lastIsFile : Bool) (memory : Nat)
    (short : ∀ name ∈ names, name.length ≤ 31) (inside : cur < v.used)
    (dir : names = [] ∨ (v.heap cur).kind = .dir) :
    ∃ v' r kids', build lastIsFile v cur memory names = some (v', r) ∧
      Grown fit v kids v' kids' ∧ Extends v v' ∧ ∀ n, r = some n →
        descend v' cur names = some (some n) ∧
          ((v'.heap n).kind = (if lastIsFile then .file else .dir) ∨
            descend v cur names = some (some n)) := by
  induction names generalizing v kids cur memory with
  | nil =>
    refine ⟨v, some cur, kids, ?_, .refl v kids, Extends.refl v, ?_⟩
    · rw [build]
    · rintro n ⟨⟩
      exact ⟨rfl, .inr rfl⟩
  | cons name names ih =>
    have isDir : (v.heap cur).kind = .dir := dir.resolve_left (List.cons_ne_nil name names)
    have later : ∀ other ∈ names, other.length ≤ 31 := fun other listed =>
      short other (List.mem_cons_of_mem name listed)
    rcases @findChild_spec v kids cur name linked inside with
      ⟨child, listed, _, step⟩ | ⟨other, missing⟩
    · rw [build_found step]
      by_cases wrong : names ≠ [] ∧ (v.heap child).kind ≠ .dir
      · rw [if_pos wrong]
        exact ⟨v, none, kids, rfl, .refl v kids, Extends.refl v, nofun⟩
      · rw [if_neg wrong]
        have below := (findChild_child linked inside step).1
        have childDir : names = [] ∨ (v.heap child).kind = .dir := by
          by_contra neither
          rw [not_or] at neither
          exact wrong neither
        obtain ⟨v', r, kids', run, grown, ext, found⟩ := ih linked memory later below childDir
        refine ⟨v', r, kids', run, grown, ext, fun n is => ?_⟩
        rw [descend_step (ext.found cur inside name child step), descend_step step]
        exact found n is
    · cases memory with
      | zero =>
        refine ⟨v, none, kids, ?_, .refl v kids, Extends.refl v, nofun⟩
        rw [build, missing]
      | succ memory =>
        obtain ⟨u, made, ins⟩ := @newNode_inserted v kids cur
          (if names.isEmpty && lastIsFile then .file else .dir) name linked inside
        have whole := strCopy_short (short name List.mem_cons_self)
        have extU := inserted_extends linked inside isDir ins
        have step := inserted_found linked inside isDir ins (short name List.mem_cons_self) missing
        have below : v.used < u.used := by
          rw [ins.used]
          exact Nat.lt_succ_self _
        have childDir : names = [] ∨ (u.heap v.used).kind = .dir := by
          cases names with
          | nil => exact .inl rfl
          | cons next names => exact .inr ins.fresh.2.1
        obtain ⟨v', r, kids', run, grown, ext, found⟩ :=
          ih (ins.linked linked inside isDir) memory later below childDir
        refine ⟨v', r, kids', ?_, .insert inside isDir (fun _ => by rwa [whole]) ins grown,
          extU.trans ext, fun n is => ?_⟩
        · rw [build, missing]
          dsimp only
          rw [made]
          exact run
        · rw [descend_step (ext.found cur (Nat.lt_trans inside below) name v.used step)]
          refine ⟨(found n is).1, .inl ?_⟩
          rcases (found n is).2 with right | new
          · exact right
          · -- the new node has no child, so it is itself what the creation hands out
            obtain rfl := inserted_empty linked inside isDir ins new
            obtain rfl := Option.some.inj (Option.some.inj new)
            rw [ext.kind v.used below, ins.fresh.2.1]
            rfl

theorem build_wrong {lastIsFile : Bool} {memory : Nat} {front back : List (List Char)} {n : Nat}
    (inside : cur < v.used) (dir : (v.heap cur).kind = .dir)
    (found : descend v cur front = some (some n)) (more : back ≠ [])
    (file : (v.heap n).kind ≠ .dir) :
    build lastIsFile v cur memory (front ++ back) = some (v, none) := by
  induction front generalizing cur with
  | nil =>
    obtain rfl := Option.some.inj (Option.some.inj found)
    exact absurd dir file
  | cons name front ih =>
    obtain ⟨child, step, rest⟩ := descend_cons found
    have below := (findChild_child linked inside step).1
    rw [List.cons_append, build_found step]
    split_ifs with wrong
    · rfl
    · have longer : front ++ back ≠ [] := List.append_ne_nil_of_right_ne_nil front more
      have childDir : (v.heap child).kind = .dir := by
        by_contra other
        exact wrong ⟨longer, other⟩
      exact ih below childDir rest

end Growing

section Paths

variable {v : Store} {kids : Nat → List Nat}

theorem vfsLookup_eq (v : Store) (q : List Char) :
    vfsLookup v (some ('/' :: q)) = descend v 0 (components q) := lookupFrom_eq v 0 q

theorem resolveCreate_eq (v : Store) (q : List Char) (lastIsFile : Bool) (memory : Nat) :
    resolveCreate v (some ('/' :: q)) lastIsFile memory =
      build lastIsFile v 0 memory (components q) := resolveFrom_eq lastIsFile v 0 memory q

theorem path_cases (path : Option (List Char)) :
    (∃ q, path = some ('/' :: q)) ∨ (∀ v, vfsLookup v path = some none) ∧
      ∀ v lastIsFile memory, resolveCreate v path lastIsFile memory = some (v, none) := by
  by_cases absolute : ∃ q, path = some ('/' :: q)
  · exact .inl absolute
  · refine .inr ⟨fun v => ?_, fun v lastIsFile memory => ?_⟩
    · unfold vfsLookup
      split
      · exact absurd ⟨_, rfl⟩ absolute
      · rfl
    · unfold resolveCreate
      split
      · exact absurd ⟨_, rfl⟩ absolute
      · rfl

theorem resolveCreate_spec (linked : Linked v kids) (fit : Prop) (path : Option (List Char))
    (lastIsFile : Bool) (memory : Nat) :
    ∃ v' r kids', resolveCreate v path lastIsFile memory = some (v', r) ∧
      Grown fit v kids v' kids' ∧ Extends v v' ∧
      ∀ n, r = some n → vfsLookup v' path = some (some n) := by
  rcases path_cases path with ⟨q, rfl⟩ | ⟨_, nothing⟩
  · rw [resolveCreate_eq]
    obtain ⟨v', r, kids', run, grown, ext, found⟩ := build_spec linked fit lastIsFile memory
      (fun _ listed => components_short listed) linked.root.1 (.inr linked.root.2.2)
    refine ⟨v', r, kids', run, grown, ext, fun n is => ?_⟩
    rw [vfsLookup_eq]
    exact (found n is).1
  · exact ⟨v, none, kids, nothing v lastIsFile memory, .refl v kids, Extends.refl v, nofun⟩

theorem step_grown (linked : Linked v kids) {op : Op} (valid : Valid v op) :
    ∃ v' kids', step v op = some v' ∧ Grown (Fits v op) v kids v' kids' := by
  cases op with
  | mkdir parent name memory =>
    obtain ⟨v', r, kids', run, grown⟩ := @create_grown v kids .dir name parent memory linked valid
    exact ⟨v', kids', by simp [step, vfsMkdir, run], grown⟩
  | createFile parent name memory =>
    obtain ⟨v', r, kids', run, grown⟩ := @create_grown v kids .file name parent memory linked valid
    exact ⟨v', kids', by simp [step, vfsCreateFile, run], grown⟩
  | mkdirP path memory =>
    obtain ⟨v', r, kids', run, grown, _⟩ := resolveCreate_spec linked _ path false memory
    exact ⟨v', kids', by simp [step, vfsMkdirP, run], grown⟩
  | createPath path memory =>
    obtain ⟨v', r, kids', run, grown, _⟩ := resolveCreate_spec linked _ path true memory
    exact ⟨v', kids', by simp [step, vfsCreatePath, run], grown⟩
  | write file buf memory =>
    exact ⟨_, kids, rfl, .write (vfsWrite_contents v file buf memory) (.refl _ _)⟩

/-- Whatever the names, the nodes that calls have made are linked. -/
theorem runs_linked (run : Runs step Valid init v) : ∃ kids, Linked v kids := by
  apply run.invariant (I := fun v => ∃ kids, Linked v kids) ⟨_, linked_init⟩
  rintro s op s' ⟨kids, linked⟩ valid next
  obtain ⟨t, kids', equal, grown⟩ := step_grown linked valid
  obtain rfl := Option.some.inj (next.symm.trans equal)
  exact ⟨kids', grown.linked linked⟩

theorem Extends.lookup {v' : Store} (ext : Extends v v') (linked : Linked v kids)
    {path : Option (List Char)} {n : Nat} (found : vfsLookup v path = some (some n)) :
    vfsLookup v' path = some (some n) := by
  rcases path_cases path with ⟨q, rfl⟩ | ⟨nothing, _⟩
  · rw [vfsLookup_eq] at found ⊢
    exact ext.descend linked linked.root.1 found
  · rw [nothing] at found
    cases found

theorem resolveCreate_of_lookup (linked : Linked v kids) {path : Option (List Char)} {n : Nat}
    (found : vfsLookup v path = some (some n)) (lastIsFile : Bool) (memory : Nat) :
    resolveCreate v path lastIsFile memory = some (v, some n) := by
  rcases path_cases path with ⟨q, rfl⟩ | ⟨nothing, _⟩
  · rw [vfsLookup_eq] at found
    rw [resolveCreate_eq]
    exact build_of_descend linked lastIsFile memory linked.root.1 found
  · rw [nothing] at found
    cases found

def Creator (creator : Store → Option (List Char) → Nat → Option (Store × Option Nat)) : Prop :=
  creator = vfsMkdirP ∨ creator = vfsCreatePath

/-- On every tree a call by path returns. If it returns a node, `vfs_lookup` finds this node
for the path and another call returns it and changes nothing. Every path that could be looked
up still yields its node. -/
theorem creation_and_lookup_agree (linked : Linked v kids)
    {creator : Store → Option (List Char) → Nat → Option (Store × Option Nat)}
    (is : Creator creator) (path : Option (List Char)) (memory : Nat) :
    ∃ v' r, creator v path memory = some (v', r) ∧
      (∀ n, r = some n → vfsLookup v' path = some (some n) ∧
        ∀ memory', creator v' path memory' = some (v', some n)) ∧
      ∀ other n, vfsLookup v other = some (some n) → vfsLookup v' other = some (some n) := by
  have agree (lastIsFile : Bool) : ∃ v' r, resolveCreate v path lastIsFile memory = some (v', r) ∧
      (∀ n, r = some n → vfsLookup v' path = some (some n) ∧
        ∀ memory', resolveCreate v' path lastIsFile memory' = some (v', some n)) ∧
      ∀ other n, vfsLookup v other = some (some n) → vfsLookup v' other = some (some n) := by
    obtain ⟨v', r, kids', run, grown, ext, found⟩ :=
      resolveCreate_spec linked True path lastIsFile memory
    refine ⟨v', r, run, fun n made => ⟨found n made, ?_⟩, fun other n => ext.lookup linked⟩
    exact resolveCreate_of_lookup (grown.linked linked) (found n made) lastIsFile
  rcases is with rfl | rfl
  · exact agree false
  · exact agree true

theorem components_twice : components ['a', '/', '/', 'b', '/'] = [['a'], ['b']] := by
  simp [components, component, skipSlash]

theorem creation_and_lookup_agree_twice : ∃ v n,
    vfsCreatePath init (some ['/', 'a', '/', '/', 'b', '/']) 2 = some (v, some n) ∧
      vfsLookup v (some ['/', 'a', '/', '/', 'b', '/']) = some (some n) := by
  obtain ⟨v, r, run, agree, _⟩ := creation_and_lookup_agree linked_init (.inr rfl)
    (some ['/', 'a', '/', '/', 'b', '/']) 2
  have made : ∃ v, vfsCreatePath init (some ['/', 'a', '/', '/', 'b', '/']) 2 =
      some (v, some 2) := by
    unfold vfsCreatePath
    rw [resolveCreate_eq, components_twice]
    exact ⟨_, rfl⟩
  obtain ⟨w, made⟩ := made
  rw [made] at run
  cases run
  exact ⟨_, 2, made, (agree 2 rfl).1⟩

end Paths

section Kinds

variable {v : Store} {kids : Nat → List Nat}

/-- A component of the path is there with another kind than it should have; a path without
components ends at the root. -/
def WrongKind (want : Kind) (v : Store) (q : List Char) : Prop :=
  ∃ front back n, components q = front ++ back ∧ descend v 0 front = some (some n) ∧
    (v.heap n).kind ≠ if back = [] then want else .dir

def Respects (want : Kind) (v : Store) (q : List Char)
    (outcome : Option (Store × Option Nat)) : Prop :=
  ∃ v' r, outcome = some (v', r) ∧ (∀ n, r = some n → (v'.heap n).kind = want) ∧
    (WrongKind want v q → r = none ∧ v' = v)

theorem respects_iff (linked : Linked v kids) (q : List Char) (lastIsFile : Bool) (memory : Nat) :
    Respects (if lastIsFile then .file else .dir) v q
        (resolveCreate v (some ('/' :: q)) lastIsFile memory) ↔
      ∀ n, vfsLookup v (some ('/' :: q)) = some (some n) →
        (v.heap n).kind = if lastIsFile then .file else .dir := by
  rw [resolveCreate_eq, vfsLookup_eq]
  constructor
  · rintro ⟨v', r, run, right, _⟩ n found
    rw [build_of_descend linked lastIsFile memory linked.root.1 found] at run
    cases run
    exact right n rfl
  · intro right
    have short : ∀ name ∈ components q, name.length ≤ 31 := fun _ listed => components_short listed
    obtain ⟨v', r, _, run, _, _, found⟩ := build_spec linked True lastIsFile memory short
      linked.root.1 (.inr linked.root.2.2)
    refine ⟨v', r, run, ?_, ?_⟩
    · rintro n rfl
      rcases (found n rfl).2 with new | before
      · exact new
      · rw [build_of_descend linked lastIsFile memory linked.root.1 before] at run
        cases run
        exact right n before
    · rintro ⟨front, back, n, split, found, wrong⟩
      by_cases last : back = []
      · rw [if_pos last] at wrong
        rw [last, List.append_nil] at split
        rw [← split] at found
        exact absurd (right n found) wrong
      · rw [if_neg last] at wrong
        rw [split, build_wrong linked linked.root.1 linked.root.2.2 found last wrong] at run
        cases run
        exact ⟨rfl, rfl⟩

/-- The two calls keep to the kinds on a path exactly if `vfs_lookup` finds nothing of the
other kind there. -/
theorem path_creation_kinds_iff (linked : Linked v kids) (q : List Char) (memory : Nat) :
    (Respects .dir v q (vfsMkdirP v (some ('/' :: q)) memory) ↔
      ∀ n, vfsLookup v (some ('/' :: q)) = some (some n) → (v.heap n).kind = .dir) ∧
    (Respects .file v q (vfsCreatePath v (some ('/' :: q)) memory) ↔
      ∀ n, vfsLookup v (some ('/' :: q)) = some (some n) → (v.heap n).kind = .file) :=
  ⟨respects_iff linked q false memory, respects_iff linked q true memory⟩

theorem components_single : components ['a'] = [['a']] := by
  simp [components, component, skipSlash]

/-- The state with the file "/a". -/
theorem file_made : ∃ v, step init (.createFile (some 0) ['a'] true) = some v ∧
    findChild v 0 ['a'] = some (some 1) ∧ (v.heap 1).kind = .file ∧ (v.heap 0).kind = .dir :=
  ⟨_, rfl, rfl, rfl, rfl⟩

theorem path_creation_kinds_iff_file : ∃ v, Runs step Valid init v ∧
    Respects .file v ['a'] (vfsCreatePath v (some ['/', 'a']) 0) ∧
    ¬ Respects .dir v ['a'] (vfsMkdirP v (some ['/', 'a']) 0) := by
  obtain ⟨v, made, found, file, _⟩ := file_made
  have run : Runs step Valid init v := by
    refine (Runs.refl init).snoc ?_ made
    rintro p ⟨⟩
    decide
  have lookup : vfsLookup v (some ['/', 'a']) = some (some 1) := by
    rw [vfsLookup_eq, components_single]
    simp only [descend, found]
  obtain ⟨kids, linked⟩ := runs_linked run
  obtain ⟨dirs, files⟩ := path_creation_kinds_iff linked ['a'] 0
  refine ⟨v, run, files.mpr fun n is => ?_, fun respects => ?_⟩
  · rw [lookup] at is
    cases is
    exact file
  · have dir := dirs.mp respects 1 lookup
    rw [file] at dir
    cases dir

/-- With the file "/a", `vfs_mkdir_p("/a")` hands out this file, and `vfs_create_path("/")`
hands out the root. -/
theorem wrong_kind_handed_out : ∃ v, step init (.createFile (some 0) ['a'] true) = some v ∧
    vfsMkdirP v (some ['/', 'a']) 0 = some (v, some 1) ∧ (v.heap 1).kind = .file ∧
    ¬ Respects .dir v ['a'] (vfsMkdirP v (some ['/', 'a']) 0) ∧
    vfsCreatePath v (some ['/']) 0 = some (v, some 0) ∧ (v.heap 0).kind = .dir ∧
    ¬ Respects .file v [] (vfsCreatePath v (some ['/']) 0) := by
  have empty : components [] = [] := by
    rw [components]
  obtain ⟨v, run, found, file, dir⟩ := file_made
  have mkdir : vfsMkdirP v (some ['/', 'a']) 0 = some (v, some 1) := by
    unfold vfsMkdirP
    rw [resolveCreate_eq, components_single, build_found found, if_neg (by simp)]
    rfl
  have createPath : vfsCreatePath v (some ['/']) 0 = some (v, some 0) := by
    unfold vfsCreatePath
    rw [resolveCreate_eq, empty]
    rfl
  refine ⟨v, run, mkdir, file, ?_, createPath, dir, ?_⟩
  · rintro ⟨v', r, is, right, _⟩
    rw [mkdir] at is
    cases is
    exact absurd ((right 1 rfl).symm.trans file) (by decide)
  · rintro ⟨v', r, is, right, _⟩
    rw [createPath] at is
    cases is
    exact absurd ((right 0 rfl).symm.trans dir) (by decide)

end Kinds

end XinuRpi5.Fs.VfsPaths
