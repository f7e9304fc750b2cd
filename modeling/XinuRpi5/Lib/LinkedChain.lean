/- source: none (library)
   digest: Linked segments over arbitrary pointers, node predicates and successor maps. -/

import Mathlib.Data.List.Nodup

namespace XinuRpi5.Lib.LinkedChain

variable {π α : Type*}

/-- From pointer `p` the stored links lead through exactly the nodes of the
list and then stand at pointer `q`. `IsNode p a` says that `p` points at a node
with the content `a`, and `next a` is the pointer stored in that node. -/
def Seg (IsNode : π → α → Prop) (next : α → π) : π → List α → π → Prop
  | p, [], q => p = q
  | p, a :: as, q => IsNode p a ∧ Seg IsNode next (next a) as q

variable {IsNode IsNode' : π → α → Prop} {next next' : α → π}

variable {p q null : π} {xs : List α}

@[simp] theorem seg_nil : Seg IsNode next p [] q ↔ p = q := Iff.rfl

@[simp] theorem seg_cons {a : α} {as : List α} :
    Seg IsNode next p (a :: as) q ↔ IsNode p a ∧ Seg IsNode next (next a) as q := Iff.rfl

theorem seg_append {ys : List α} :
    Seg IsNode next p (xs ++ ys) q ↔
      ∃ r, Seg IsNode next p xs r ∧ Seg IsNode next r ys q := by
  induction xs generalizing p with
  | nil => simp
  | cons a as ih => simp [ih, and_assoc]

theorem seg_snoc {a : α} :
    Seg IsNode next p (xs ++ [a]) q ↔
      ∃ r, Seg IsNode next p xs r ∧ IsNode r a ∧ next a = q := by
  simp [seg_append]

theorem Seg.congr (h : Seg IsNode next p xs q)
    (node : ∀ a ∈ xs, ∀ r, IsNode r a → IsNode' r a) (same : ∀ a ∈ xs, next' a = next a) :
    Seg IsNode' next' p xs q := by
  induction xs generalizing p with
  | nil => exact h
  | cons a as ih =>
    obtain ⟨here, rest⟩ := h
    refine ⟨node a List.mem_cons_self p here, ?_⟩
    rw [same a List.mem_cons_self]
    apply ih rest
    · intro b hb
      exact node b (List.mem_cons_of_mem a hb)
    · intro b hb
      exact same b (List.mem_cons_of_mem a hb)

structure Functional (IsNode : π → α → Prop) (null : π) : Prop where
  unique : ∀ p a b, IsNode p a → IsNode p b → a = b
  null : ∀ a, ¬ IsNode null a

theorem Seg.unique (fn : Functional IsNode null) {xs ys : List α}
    (hx : Seg IsNode next p xs null) (hy : Seg IsNode next p ys null) : xs = ys := by
  induction xs generalizing p ys with
  | nil =>
    obtain rfl : p = null := hx
    cases ys with
    | nil => rfl
    | cons b bs => exact (fn.null b hy.1).elim
  | cons a as ih =>
    obtain ⟨here, rest⟩ := hx
    cases ys with
    | nil =>
      obtain rfl : p = null := hy
      exact (fn.null a here).elim
    | cons b bs =>
      obtain rfl := fn.unique p a b here hy.1
      rw [ih rest hy.2]

theorem Seg.nodup (fn : Functional IsNode null) {xs : List α}
    (h : Seg IsNode next p xs null) : xs.Nodup := by
  induction xs generalizing p with
  | nil => exact List.nodup_nil
  | cons a as ih =>
    obtain ⟨here, rest⟩ := h
    refine List.nodup_cons.mpr ⟨?_, ih rest⟩
    intro again
    obtain ⟨before, after, rfl⟩ := List.append_of_mem again
    obtain ⟨r, _, _, tail⟩ := seg_append.mp rest
    have length := congrArg List.length (Seg.unique fn tail rest)
    simp only [List.length_append, List.length_cons] at length
    omega

theorem Seg.rest (fn : Functional IsNode null) {xs zs : List α}
    (part : Seg IsNode next p xs q) (whole : Seg IsNode next p zs null) :
    ∃ ys, zs = xs ++ ys ∧ Seg IsNode next q ys null := by
  induction xs generalizing p zs with
  | nil =>
    obtain rfl : p = q := part
    exact ⟨zs, rfl, whole⟩
  | cons a as ih =>
    obtain ⟨here, onward⟩ := part
    cases zs with
    | nil =>
      obtain rfl : p = null := whole
      exact (fn.null a here).elim
    | cons b bs =>
      obtain rfl := fn.unique p a b here whole.1
      obtain ⟨ys, rfl, tail⟩ := ih onward whole.2
      exact ⟨ys, rfl, tail⟩

end XinuRpi5.Lib.LinkedChain
