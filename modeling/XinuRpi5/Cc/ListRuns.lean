/- source: cc/cc.c
   digest: Runs of list operations, with functions that are applied to the elements. -/

import Mathlib.Data.List.Forall2
import XinuRpi5.Cc.ListHeap

/-!
The applied function is compiled code: it runs any operations, applies functions itself, and gives
back any value that there is.
-/

namespace XinuRpi5.Cc.ListRuns

open Lib.ReadLog Lib.BumpHeap TaggedWords ValueTags
open ListHeap

section Runs

inductive Call where
  | new
  | len (w : Word)
  | get (w iv : Word)
  | push (w x : Word)
  | set (w iv x : Word)
  | zeros (nv : Word)
  | map (w idv : Word)
  | filter (w idv : Word)

def Call.args : Call → List Word
  | .new => []
  | .len w => [w]
  | .get w iv => [w, iv]
  | .push w x => [w, x]
  | .set w iv x => [w, iv, x]
  | .zeros nv => [nv]
  | .map w idv => [w, idv]
  | .filter w idv => [w, idv]

/-- What is running: a stretch of the program, an operation, or the loop of `v_list_map` or of
`v_list_filter` over the elements from `i` up to `n`, with the answers that are still to come. -/
inductive Task where
  | code
  | call (c : Call)
  | mapFrom (w idv : Word) (n i : Nat) (out : Word) (answers : List Word)
  | filterFrom (w idv : Word) (n i : Nat) (out : Word) (answers : List Bool)

/-- What a function may answer, by its number, the element and the state, and the state behind. -/
abbrev Applied (D σ : Type) := Word → Word → State D σ → Word → State D σ → Prop

variable {D σ : Type} (lheap : Word) (fp : Doubles D)

def truthy (s : State D σ) (y : Word) : Bool := (vTruthy (s.memory lheap) fp y).value

def keep (b : Bool) (out x : Word) (s : State D σ) : Word × State D σ :=
  if b then vListPush lheap out x s else (out, s)

/-- The runs, with `g_apply`. -/
inductive Exec (apply : Option (Applied D σ)) : Task → State D σ → Word → State D σ → Prop
  | stop {s y} (valid : Valid lheap s y) : Exec apply .code s y s
  | change {s u y t} (lists : u.lists = s.lists) (overflows : u.overflows = s.overflows)
      (wild : u.wild = s.wild) (rest : Exec apply .code u y t) : Exec apply .code s y t
  | operate {c s r u y t} (args : ∀ a ∈ c.args, Valid lheap s a)
      (first : Exec apply (.call c) s r u)
      (rest : Exec apply .code u y t) : Exec apply .code s y t
  | new {s} : Exec apply (.call .new) s (vListNew lheap s).1 (vListNew lheap s).2
  | len {s} (w) : Exec apply (.call (.len w)) s (vListLen lheap w s) s
  | get {s} (w iv) : Exec apply (.call (.get w iv)) s (vListGet lheap w iv s) s
  | push {s} (w x) :
      Exec apply (.call (.push w x)) s (vListPush lheap w x s).1 (vListPush lheap w x s).2
  | set {s} (w iv x) :
      Exec apply (.call (.set w iv x)) s (vListSet lheap w iv x s).1 (vListSet lheap w iv x s).2
  | zeros {s} (nv) :
      Exec apply (.call (.zeros nv)) s (vListZeros lheap nv s).1 (vListZeros lheap nv s).2
  | mapOther {s} (w idv) (other : vIsList w = false ∨ apply = none) :
      Exec apply (.call (.map w idv)) s (vListNew lheap s).1 (vListNew lheap s).2
  | map {s w idv answers r t} (tagged : vIsList w = true) (set : apply ≠ none)
      (loop : Exec apply (.mapFrom w idv (s.item lheap w 0).toInt.toNat 0 (vListNew lheap s).1
        answers) (vListNew lheap s).2 r t) : Exec apply (.call (.map w idv)) s r t
  | mapDone {s w idv n i out} (done : n ≤ i) : Exec apply (.mapFrom w idv n i out []) s out s
  | mapNext {s w idv n i out y u answers r t} (more : i < n)
      (applied : ∃ g, apply = some g ∧ g (vIntOf idv) (s.item lheap w (1 + i)) s y u)
      (inner : Exec apply .code s y u)
      (rest : Exec apply (.mapFrom w idv n (i + 1) (vListPush lheap out y u).1 answers)
        (vListPush lheap out y u).2 r t) : Exec apply (.mapFrom w idv n i out (y :: answers)) s r t
  | filterOther {s} (w idv) (other : vIsList w = false ∨ apply = none) :
      Exec apply (.call (.filter w idv)) s (vListNew lheap s).1 (vListNew lheap s).2
  | filter {s w idv answers r t} (tagged : vIsList w = true) (set : apply ≠ none)
      (loop : Exec apply (.filterFrom w idv (s.item lheap w 0).toInt.toNat 0 (vListNew lheap s).1
        answers) (vListNew lheap s).2 r t) : Exec apply (.call (.filter w idv)) s r t
  | filterDone {s w idv n i out} (done : n ≤ i) :
      Exec apply (.filterFrom w idv n i out []) s out s
  | filterNext {s w idv n i out y u answers r t} (more : i < n)
      (applied : ∃ g, apply = some g ∧ g (vIntOf idv) (s.item lheap w (1 + i)) s y u)
      (inner : Exec apply .code s y u)
      (rest : Exec apply (.filterFrom w idv n (i + 1)
        (keep lheap (truthy lheap fp u y) out (s.item lheap w (1 + i)) u).1 answers)
        (keep lheap (truthy lheap fp u y) out (s.item lheap w (1 + i)) u).2 r t) :
      Exec apply (.filterFrom w idv n i out (truthy lheap fp u y :: answers)) s r t

end Runs

section Laws

variable {D σ : Type} (lheap : Word) (fp : Doubles D) (apply : Option (Applied D σ))

/-- The function is applied to `x` somewhere between two states, and answers `y` in a state. -/
def Image (idv : Word) (s t : State D σ) (x y : Word) (v : State D σ) : Prop :=
  ∃ g u, apply = some g ∧ g (vIntOf idv) x u y v ∧ Exec lheap fp apply .code u y v ∧
    Grows s.lists u.lists ∧ Grows v.lists t.lists

def kept : List Word → List Bool → List Word
  | x :: xs, b :: bs => if b then x :: kept xs bs else kept xs bs
  | _, _ => []

theorem kept_cons (x : Word) (xs : List Word) (b : Bool) (bs : List Bool) :
    kept (x :: xs) (b :: bs) = (if b then [x] else []) ++ kept xs bs := by
  cases b with
  | true => rfl
  | false => rfl

def MapLaw (idv : Word) (s t : State D σ) (xs ys : List Word) : Prop :=
  List.Forall₂ (fun x y => ∃ v, Image lheap fp apply idv s t x y v) xs ys

def FilterLaw (idv : Word) (s t : State D σ) (xs : List Word) (bs : List Bool) : Prop :=
  List.Forall₂
    (fun x b => ∃ y v, Image lheap fp apply idv s t x y v ∧ b = truthy lheap fp v y) xs bs

def Law (s : State D σ) (r : Word) (t : State D σ) : Call → Prop
  | .new => IsList lheap t r ∧ t.items lheap r = []
  | .len w => r = vInt (BitVec.ofNat 64 (elements lheap s w).length)
  | .get w iv => r =
      if (vIntOf iv).toInt < 0 then vInt 0
      else (elements lheap s w)[(vIntOf iv).toInt.toNat]?.getD (vInt 0)
  | .push w x => IsList lheap t r ∧ t.items lheap r = elements lheap s w ++ [x]
  | .set w iv x => IsList lheap s w → IsList lheap t r ∧ ∀ jv, vListGet lheap r jv t =
      if (vIntOf iv).toInt = (vIntOf jv).toInt ∧ 0 ≤ (vIntOf iv).toInt ∧
        (vIntOf iv).toInt < (s.items lheap w).length then x else vListGet lheap w jv s
  | .zeros nv => IsList lheap t r ∧
      t.items lheap r = List.replicate (vIntOf nv).toInt.toNat (vInt 0)
  | .map w idv => IsList lheap s w → apply ≠ none → IsList lheap t r ∧
      MapLaw lheap fp apply idv s t (s.items lheap w) (t.items lheap r)
  | .filter w idv => IsList lheap s w → apply ≠ none → IsList lheap t r ∧
      ∃ bs, FilterLaw lheap fp apply idv s t (s.items lheap w) bs ∧
        t.items lheap r = kept (s.items lheap w) bs

end Laws

section Quiet

variable {D σ : Type} {lheap : Word} {fp : Doubles D} {apply : Option (Applied D σ)}
variable {s t u : State D σ} {task : Task} {r : Word}

structure Later (s t : State D σ) : Prop where
  overflows : s.overflows ≤ t.overflows
  wild : s.wild ≤ t.wild

theorem Later.refl (s : State D σ) : Later s s := ⟨Nat.le_refl _, Nat.le_refl _⟩

theorem Later.trans (first : Later s u) (rest : Later u t) : Later s t :=
  ⟨Nat.le_trans first.overflows rest.overflows, Nat.le_trans first.wild rest.wild⟩

theorem Later.quiet (first : Later s u) (rest : Later u t) (quiet : Quiet s t) :
    Quiet s u ∧ Quiet u t := by
  obtain ⟨overflows, wild⟩ := quiet
  have := first.overflows
  have := first.wild
  have := rest.overflows
  have := rest.wild
  exact ⟨⟨by omega, by omega⟩, ⟨by omega, by omega⟩⟩

theorem build_later (other : Word) (cells : Int) (f : Nat → Word) (s : State D σ) :
    Later s (build lheap other cells f s).2 := by
  unfold build lheapAlloc
  split_ifs with full
  · exact ⟨Nat.le_succ _, Nat.le_refl _⟩
  · refine ⟨Nat.le_refl _, ?_⟩
    simp only [State.write]
    split_ifs
    · exact Nat.le_refl _
    · exact Nat.le_succ _

theorem vListPush_later (w x : Word) (s : State D σ) : Later s (vListPush lheap w x s).2 :=
  build_later _ _ _ s

theorem vListSet_later (w iv x : Word) (s : State D σ) : Later s (vListSet lheap w iv x s).2 := by
  unfold vListSet
  dsimp only
  split_ifs
  · exact Later.refl s
  · exact build_later _ _ _ s
  · exact Later.refl s

theorem keep_later (b : Bool) (out x : Word) (s : State D σ) :
    Later s (keep lheap b out x s).2 := by
  unfold keep
  split_ifs
  · exact vListPush_later _ _ s
  · exact Later.refl s

theorem Exec.later (run : Exec lheap fp apply task s r t) : Later s t := by
  induction run with
  | stop => exact Later.refl _
  | change lists overflows wild _ rest =>
    exact Later.trans ⟨Nat.le_of_eq overflows.symm, Nat.le_of_eq wild.symm⟩ rest
  | operate _ _ _ first rest => exact first.trans rest
  | new => exact build_later _ _ _ _
  | len => exact Later.refl _
  | get => exact Later.refl _
  | push => exact build_later _ _ _ _
  | set => exact vListSet_later _ _ _ _
  | zeros => exact build_later _ _ _ _
  | mapOther => exact build_later _ _ _ _
  | map _ _ _ loop => exact (build_later _ _ _ _).trans loop
  | mapDone => exact Later.refl _
  | mapNext _ _ _ _ inner rest => exact (inner.trans (vListPush_later _ _ _)).trans rest
  | filterOther => exact build_later _ _ _ _
  | filter _ _ _ loop => exact (build_later _ _ _ _).trans loop
  | filterDone => exact Later.refl _
  | filterNext _ _ _ _ inner rest => exact (inner.trans (keep_later _ _ _ _)).trans rest

end Quiet

section Sound

variable {D σ : Type} (lheap : Word) (fp : Doubles D) (apply : Option (Applied D σ))

def Ready (s : State D σ) : Task → Prop
  | .code => True
  | .call c => ∀ a ∈ c.args, Valid lheap s a
  | .mapFrom w _ n _ out _ =>
    IsList lheap s w ∧ (s.items lheap w).length = n ∧ IsList lheap s out
  | .filterFrom w _ n _ out _ =>
    IsList lheap s w ∧ (s.items lheap w).length = n ∧ IsList lheap s out

/-- What a task gives: its loops append what belongs to the elements that are left. -/
def Post (s : State D σ) (r : Word) (t : State D σ) : Task → Prop
  | .code => True
  | .call c => Law lheap fp apply s r t c
  | .mapFrom w idv _ i out ys => t.items lheap r = s.items lheap out ++ ys ∧
      MapLaw lheap fp apply idv s t ((s.items lheap w).drop i) ys
  | .filterFrom w idv _ i out bs =>
    t.items lheap r = s.items lheap out ++ kept ((s.items lheap w).drop i) bs ∧
      FilterLaw lheap fp apply idv s t ((s.items lheap w).drop i) bs

/-- The result is of a kind that the task promises: the loops give lists. -/
def Given (t : State D σ) (r : Word) : Task → Prop
  | .mapFrom .. => IsList lheap t r
  | .filterFrom .. => IsList lheap t r
  | _ => Valid lheap t r

structure Outcome (task : Task) (s : State D σ) (r : Word) (t : State D σ) : Prop where
  good : Good lheap t
  grows : Grows s.lists t.lists
  given : Given lheap t r task
  post : Post lheap fp apply s r t task

variable {lheap fp apply} {s t u : State D σ} {w idv r x y : Word} {xs : List Word}

theorem MapLaw.from (grows : Grows s.lists u.lists) {ys : List Word}
    (law : MapLaw lheap fp apply idv u t xs ys) : MapLaw lheap fp apply idv s t xs ys := by
  refine law.imp fun x y => ?_
  rintro ⟨v, g, from', set, applied, inner, before, after⟩
  exact ⟨v, g, from', set, applied, inner, grows.trans before, after⟩

theorem FilterLaw.from (grows : Grows s.lists u.lists) {bs : List Bool}
    (law : FilterLaw lheap fp apply idv u t xs bs) : FilterLaw lheap fp apply idv s t xs bs := by
  refine law.imp fun x b => ?_
  rintro ⟨y, v, ⟨g, from', set, applied, inner, before, after⟩, same⟩
  exact ⟨y, v, ⟨g, from', set, applied, inner, grows.trans before, after⟩, same⟩

theorem elements_list (list : IsList lheap s w) (placed : Placed lheap) (good : Good lheap s) :
    elements lheap s w = s.items lheap w := if_pos (list.tagged placed good)

variable {i n : Nat} {out : Word}

theorem drop_items (more : i < (s.items lheap w).length) :
    (s.items lheap w).drop i = s.item lheap w (1 + i) :: (s.items lheap w).drop (i + 1) := by
  rw [List.drop_eq_getElem_cons more]
  congr 1
  simp only [State.items, List.getElem_map, List.getElem_range, Nat.add_comm]

theorem item_valid (list : IsList lheap s w) (placed : Placed lheap) (good : Good lheap s) {i : Nat}
    (more : i < (s.items lheap w).length) : Valid lheap s (s.item lheap w (1 + i)) := by
  apply list.items_valid placed good
  have there := List.mem_cons_self (a := s.item lheap w (1 + i))
    (l := (s.items lheap w).drop (i + 1))
  rw [← drop_items more] at there
  exact List.mem_of_mem_drop there

theorem elements_getElem (valid : Valid lheap s w) (placed : Placed lheap) (good : Good lheap s)
    (iv : Word) : vListGet lheap w iv s =
      if (vIntOf iv).toInt < 0 then vInt 0
      else (elements lheap s w)[(vIntOf iv).toInt.toNat]?.getD (vInt 0) := by
  by_cases tagged : vIsList w = true
  · rw [vListGet_eq (valid tagged) placed good, elements_list (valid tagged) placed good]
  · unfold vListGet elements
    rw [if_neg tagged, if_neg tagged]
    split_ifs
    · rfl
    · rfl

theorem built_outcome {c : Call} (built : Built lheap s r t xs)
    (law : IsList lheap t r → t.items lheap r = xs → Law lheap fp apply s r t c) :
    Outcome lheap fp apply (.call c) s r t :=
  ⟨built.good, built.grows, fun _ => built.list, law built.list built.items⟩

theorem valid_int (s : State D σ) (n : Word) : Valid lheap s (vInt n) := by
  intro tagged
  rw [(Kind.of_kinds (kinds_int n)).list] at tagged
  cases tagged

theorem good_same (good : Good lheap s) (lists : u.lists = s.lists) : Good lheap u := by
  have grows : Grows s.lists u.lists := by
    rw [lists]
    exact Grows.refl _
  refine ⟨lists ▸ good.size, fun i below => ?_⟩
  rw [lists] at below ⊢
  exact (good.cells i below).grows grows

section

variable (placed : Placed lheap)

include placed

section

variable (good : Good lheap s)

include good

theorem keep_built {out : Word} (list : IsList lheap s out) (value : Valid lheap s x) {b : Bool}
    (quiet : Quiet s (keep lheap b out x s).2) :
    Built lheap s (keep lheap b out x s).1 (keep lheap b out x s).2
      (s.items lheap out ++ if b then [x] else []) := by
  cases b with
  | true =>
    have built := vListPush_built placed good (fun _ => list) value quiet
    rw [elements_list list placed good] at built
    exact built
  | false => exact ⟨list, (List.append_nil _).symm, Grows.refl _, good⟩

theorem set_outcome {iv : Word} (ready : Ready lheap s (.call (.set w iv x)))
    (quiet : Quiet s (vListSet lheap w iv x s).2) :
    Outcome lheap fp apply (.call (.set w iv x)) s (vListSet lheap w iv x s).1
      (vListSet lheap w iv x s).2 := by
  have valid : Valid lheap s w := ready w (by simp [Call.args])
  have value : Valid lheap s x := ready x (by simp [Call.args])
  by_cases tagged : vIsList w = true
  · have list := valid tagged
    by_cases outside : (vIntOf iv).toInt < 0 ∨ ((s.items lheap w).length : Int) ≤ (vIntOf iv).toInt
    · rw [vListSet_outside list placed good outside]
      refine ⟨good, Grows.refl _, valid, fun _ => ⟨list, fun jv => ?_⟩⟩
      rw [if_neg (by omega)]
    · obtain ⟨i, here⟩ : ∃ i : Nat, (vIntOf iv).toInt = i := ⟨(vIntOf iv).toInt.toNat, by omega⟩
      have built := vListSet_built list placed good value here (by omega) quiet
      refine built_outcome built fun made items _ => ⟨made, fun jv => ?_⟩
      rw [vListGet_eq made placed built.good, vListGet_eq list placed good, items, here]
      generalize (vIntOf jv).toInt = j
      by_cases negative : j < 0
      · rw [if_pos negative, if_pos negative, if_neg (by omega)]
      · rw [if_neg negative, if_neg negative, List.getElem?_set]
        by_cases same : i = j.toNat
        · rw [if_pos same, if_pos (by omega), if_pos ⟨by omega, by omega, by omega⟩]
          rfl
        · rw [if_neg same, if_neg (by omega)]
  · have itself : vListSet lheap w iv x s = (w, s) := if_neg tagged
    rw [itself]
    refine ⟨good, Grows.refl _, valid, fun list => absurd (list.tagged placed good) tagged⟩

theorem len_outcome (valid : Valid lheap s w) :
    Outcome lheap fp apply (.call (.len w)) s (vListLen lheap w s) s := by
  refine ⟨good, Grows.refl _, valid_int s _, ?_⟩
  show vListLen lheap w s = vInt (BitVec.ofNat 64 (elements lheap s w).length)
  by_cases tagged : vIsList w = true
  · rw [vListLen_eq (valid tagged) placed good, elements_list (valid tagged) placed good]
  · unfold vListLen elements
    rw [if_neg tagged, if_neg tagged]
    rfl

theorem get_outcome (valid : Valid lheap s w) (iv : Word) :
    Outcome lheap fp apply (.call (.get w iv)) s (vListGet lheap w iv s) s := by
  have value := elements_getElem valid placed good iv
  refine ⟨good, Grows.refl _, ?_, value⟩
  show Valid lheap s (vListGet lheap w iv s)
  rw [value]
  split_ifs
  · exact valid_int s _
  · cases found : (elements lheap s w)[(vIntOf iv).toInt.toNat]? with
    | none => exact valid_int s _
    | some x =>
      have there := List.mem_of_getElem? found
      unfold elements at there
      split_ifs at there with tagged
      · exact (valid tagged).items_valid placed good x there
      · cases there

theorem loop_start (list : IsList lheap s w) (quiet : Quiet s (vListNew lheap s).2) :
    Built lheap s (vListNew lheap s).1 (vListNew lheap s).2 [] ∧
      IsList lheap (vListNew lheap s).2 w ∧
        (vListNew lheap s).2.items lheap w = s.items lheap w ∧
          (s.items lheap w).length = (s.item lheap w 0).toInt.toNat := by
  have built := vListNew_built placed good quiet
  refine ⟨built, list.grows built.grows, list.items_grows placed good built.grows, ?_⟩
  rw [item_toInt list placed good, Int.toNat_natCast]

theorem not_looped (list : IsList lheap s w) (set : apply ≠ none)
    (other : vIsList w = false ∨ apply = none) : False := by
  rcases other with other | none
  · rw [list.tagged placed good] at other
    cases other
  · exact set none

theorem turn_ready (list : IsList lheap s w) (length : (s.items lheap w).length = n)
    (grows : Grows s.lists t.lists) (built : IsList lheap t out) :
    IsList lheap t w ∧ (t.items lheap w).length = n ∧ IsList lheap t out := by
  refine ⟨list.grows grows, ?_, built⟩
  rw [list.items_grows placed good grows, length]

section Turns

variable {out' : Word} {v : State D σ} (list : IsList lheap s w)
  (more : i < (s.items lheap w).length) (outList : IsList lheap s out)
  (image : ∃ g, apply = some g ∧ g (vIntOf idv) (s.item lheap w (1 + i)) s y u)
  (inner : Exec lheap fp apply .code s y u) (code : Outcome lheap fp apply .code s y u)

include list more outList image inner code

theorem map_turn {answers : List Word}
    (pushed : Built lheap u out' v (u.items lheap out ++ [y]))
    (rest : Outcome lheap fp apply (.mapFrom w idv n (i + 1) out' answers) v r t) :
    Outcome lheap fp apply (.mapFrom w idv n i out (y :: answers)) s r t := by
  have grows := code.grows.trans pushed.grows
  obtain ⟨items, law⟩ := rest.post
  rw [pushed.items, outList.items_grows placed good code.grows] at items
  rw [list.items_grows placed good grows] at law
  obtain ⟨g, set, applied⟩ := image
  refine ⟨rest.good, grows.trans rest.grows, rest.given, ?_, ?_⟩
  · rw [items, List.append_assoc]
    rfl
  · rw [drop_items more]
    exact List.Forall₂.cons
      ⟨u, g, s, set, applied, inner, Grows.refl _, pushed.grows.trans rest.grows⟩
      (law.from grows)

theorem filter_turn {answers : List Bool}
    (pushed : Built lheap u out' v
      (u.items lheap out ++ if truthy lheap fp u y then [s.item lheap w (1 + i)] else []))
    (rest : Outcome lheap fp apply (.filterFrom w idv n (i + 1) out' answers) v r t) :
    Outcome lheap fp apply (.filterFrom w idv n i out (truthy lheap fp u y :: answers)) s r t := by
  have grows := code.grows.trans pushed.grows
  obtain ⟨items, law⟩ := rest.post
  rw [list.items_grows placed good grows] at items law
  rw [pushed.items, outList.items_grows placed good code.grows] at items
  obtain ⟨g, set, applied⟩ := image
  refine ⟨rest.good, grows.trans rest.grows, rest.given, ?_, ?_⟩
  · rw [items, drop_items more, List.append_assoc]
    rw [kept_cons]
  · rw [drop_items more]
    exact List.Forall₂.cons ⟨y, u, ⟨g, s, set, applied, inner, Grows.refl _,
      pushed.grows.trans rest.grows⟩, rfl⟩ (law.from grows)

end Turns

end

/-- Tasks that are ready and end quietly keep their laws. The induction is on the run, with the runs
of the applied functions in it. -/
theorem Exec.outcome {task : Task} (run : Exec lheap fp apply task s r t) (good : Good lheap s)
    (ready : Ready lheap s task) (quiet : Quiet s t) :
    Outcome lheap fp apply task s r t := by
  induction run with
  | stop valid => exact ⟨good, Grows.refl _, valid, trivial⟩
  | change lists overflows wild _ later =>
    have done := later (good_same good lists) trivial
      ⟨quiet.1.trans overflows.symm, quiet.2.trans wild.symm⟩
    have grows := done.grows
    rw [lists] at grows
    exact ⟨done.good, grows, done.given, trivial⟩
  | operate args first rest before after =>
    obtain ⟨one, two⟩ := first.later.quiet rest.later quiet
    have made := before good args one
    have done := after made.good trivial two
    exact ⟨done.good, made.grows.trans done.grows, done.given, trivial⟩
  | new => exact built_outcome (vListNew_built placed good quiet) fun list items => ⟨list, items⟩
  | len w => exact len_outcome placed good (ready w (by simp [Call.args]))
  | get w iv => exact get_outcome placed good (ready w (by simp [Call.args])) iv
  | push w x =>
    have valid : Valid lheap _ w := ready w (by simp [Call.args])
    have value : Valid lheap _ x := ready x (by simp [Call.args])
    exact built_outcome (vListPush_built placed good valid value quiet) fun list items =>
      ⟨list, items⟩
  | set w iv x => exact set_outcome placed good ready quiet
  | zeros nv =>
    exact built_outcome (vListZeros_built placed good nv quiet) fun list items => ⟨list, items⟩
  | mapOther w idv other | filterOther w idv other =>
    exact built_outcome (vListNew_built placed good quiet) fun _ _ list set =>
      (not_looped placed good list set other).elim
  | @map _ w _ _ _ _ tagged _ loop inner =>
    have list := ready w (by simp [Call.args]) tagged
    obtain ⟨one, two⟩ := (build_later _ _ _ _).quiet loop.later quiet
    obtain ⟨built, there, items, length⟩ := loop_start placed good list one
    have done := inner built.good ⟨there, by rw [items, length], built.list⟩ two
    obtain ⟨result, law⟩ := done.post
    rw [built.items, List.nil_append] at result
    rw [items, List.drop_zero] at law
    refine ⟨done.good, built.grows.trans done.grows, fun _ => done.given, fun _ _ => ?_⟩
    rw [result]
    exact ⟨done.given, law.from built.grows⟩
  | mapDone done =>
    obtain ⟨list, length, outList⟩ := ready
    have none := List.drop_eq_nil_of_le (Nat.le_trans (Nat.le_of_eq length) done)
    refine ⟨good, Grows.refl _, outList, (List.append_nil _).symm, ?_⟩
    rw [none]
    exact List.Forall₂.nil
  | mapNext more applied inner rest before after =>
    obtain ⟨list, length, outList⟩ := ready
    obtain ⟨one, two⟩ := inner.later.quiet ((vListPush_later _ _ _).trans rest.later) quiet
    obtain ⟨three, four⟩ := (vListPush_later _ _ _).quiet rest.later two
    have code := before good trivial one
    have outThere := outList.grows code.grows
    have pushed := vListPush_built placed code.good (fun _ => outThere) code.given three
    rw [elements_list outThere placed code.good] at pushed
    have grows := code.grows.trans pushed.grows
    have loop := after pushed.good (turn_ready placed good list length grows pushed.list) four
    exact map_turn placed good list (by omega) outList applied inner code pushed loop
  | @filter _ w _ bs _ _ tagged _ loop inner =>
    have list := ready w (by simp [Call.args]) tagged
    obtain ⟨one, two⟩ := (build_later _ _ _ _).quiet loop.later quiet
    obtain ⟨built, there, items, length⟩ := loop_start placed good list one
    have done := inner built.good ⟨there, by rw [items, length], built.list⟩ two
    obtain ⟨result, law⟩ := done.post
    rw [items, List.drop_zero] at result law
    rw [built.items, List.nil_append] at result
    exact ⟨done.good, built.grows.trans done.grows, fun _ => done.given,
      fun _ _ => ⟨done.given, bs, law.from built.grows, result⟩⟩
  | filterDone done =>
    obtain ⟨list, length, outList⟩ := ready
    have none := List.drop_eq_nil_of_le (Nat.le_trans (Nat.le_of_eq length) done)
    refine ⟨good, Grows.refl _, outList, ?_, ?_⟩
    · rw [none]
      exact (List.append_nil _).symm
    · rw [none]
      exact List.Forall₂.nil
  | filterNext more applied inner rest before after =>
    obtain ⟨list, length, outList⟩ := ready
    obtain ⟨one, two⟩ := inner.later.quiet ((keep_later _ _ _ _).trans rest.later) quiet
    obtain ⟨three, four⟩ := (keep_later _ _ _ _).quiet rest.later two
    have code := before good trivial one
    have element := item_valid list placed good (Nat.lt_of_lt_of_eq more length.symm)
    have pushed := keep_built placed code.good (outList.grows code.grows)
      (element.grows code.grows) three
    have grows := code.grows.trans pushed.grows
    have loop := after pushed.good (turn_ready placed good list length grows pushed.list) four
    exact filter_turn placed good list (by omega) outList applied inner code pushed loop

end

/-- In every run from an empty heap without an overflow, the lists that an operation finds stay what
they are, whatever runs then, and the operation keeps its law. -/
theorem lists_immutable (placed : Placed lheap) {start v : State D σ} {c : Call} {y z : Word}
    (fresh : start.lists.top = 0) (before : Exec lheap fp apply .code start y s)
    (args : ∀ a ∈ c.args, Valid lheap s a) (run : Exec lheap fp apply (.call c) s r t)
    (after : Exec lheap fp apply .code t z v) (quiet : Quiet start v) :
    (∀ w, IsList lheap s w → IsList lheap v w ∧ v.items lheap w = s.items lheap w) ∧
      Law lheap fp apply s r t c ∧
      (IsList lheap t r → IsList lheap v r ∧ v.items lheap r = t.items lheap r) := by
  have empty : Good lheap start :=
    ⟨by omega, fun i below => absurd below (by omega)⟩
  obtain ⟨one, two⟩ := before.later.quiet (run.later.trans after.later) quiet
  obtain ⟨three, four⟩ := run.later.quiet after.later two
  have first := before.outcome placed empty trivial one
  have made := run.outcome placed first.good args three
  have rest := after.outcome placed made.good trivial four
  have grows := made.grows.trans rest.grows
  exact ⟨fun w list => ⟨list.grows grows, list.items_grows placed first.good grows⟩, made.post,
    fun list => ⟨list.grows rest.grows, list.items_grows placed made.good rest.grows⟩⟩

end Sound

def emptyHeap : State Unit Unit := ⟨⟨fun _ => 0, 0⟩, 0, 0, fun _ => [], fun _ => (), ()⟩

theorem placed_64 : Placed 64 := ⟨by decide, by decide, by decide⟩

theorem lists_immutable_push :
    Law 64 unitDoubles none (vListNew 64 emptyHeap).2
      (vListPush 64 (vListNew 64 emptyHeap).1 (vInt 5) (vListNew 64 emptyHeap).2).1
      (vListPush 64 (vListNew 64 emptyHeap).1 (vInt 5) (vListNew 64 emptyHeap).2).2
      (.push (vListNew 64 emptyHeap).1 (vInt 5)) := by
  have list : IsList 64 (vListNew 64 emptyHeap).2 (vListNew 64 emptyHeap).1 :=
    ⟨0, by decide, by decide⟩
  have args : ∀ a ∈ (Call.push (vListNew 64 emptyHeap).1 (vInt 5)).args,
      Valid 64 (vListNew 64 emptyHeap).2 a := by
    intro a there
    rcases List.mem_cons.mp there with rfl | there
    · exact fun _ => list
    · rw [List.mem_singleton.mp there]
      exact valid_int _ _
  exact (lists_immutable placed_64 (y := vInt 0) (z := vInt 0) rfl
    (.operate (c := .new) (fun a none => nomatch none) .new (.stop (valid_int _ _))) args
    (.push _ _) (.stop (valid_int _ _)) ⟨by decide, by decide⟩).2.1

end XinuRpi5.Cc.ListRuns
