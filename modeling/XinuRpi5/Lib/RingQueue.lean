/- source: none (library)
   digest: A circular buffer as the list of its contents, with removal from the middle. -/

import Mathlib.Data.List.Basic
import Mathlib.Data.Nat.ModEq

/-!
A buffer of `n` cells holds at most `n - 1` values; it is empty when the head meets the
tail. The loops that walk it carry a budget of rounds, which `n` rounds never use up.
-/

namespace XinuRpi5.Lib.RingQueue

structure RingBuf (α : Type*) where
  cells : Nat → α
  head : Nat
  tail : Nat

variable {α : Type*} {n : Nat}

namespace RingBuf

structure Wf (n : Nat) (r : RingBuf α) : Prop where
  head : r.head < n
  tail : r.tail < n

def count (n : Nat) (r : RingBuf α) : Nat := (r.tail + n - r.head) % n

def contents (n : Nat) (r : RingBuf α) : List α :=
  (List.range (r.count n)).map fun k => r.cells ((r.head + k) % n)

def Full (n : Nat) (r : RingBuf α) : Prop := (r.tail + 1) % n = r.head

instance (r : RingBuf α) : Decidable (r.Full n) := inferInstanceAs (Decidable (_ = _))

def push (n : Nat) (r : RingBuf α) (x : α) : RingBuf α :=
  { r with cells := Function.update r.cells r.tail x, tail := (r.tail + 1) % n }

def pop (n : Nat) (r : RingBuf α) : RingBuf α := { r with head := (r.head + 1) % n }

end RingBuf

/-- Walk from cell `i` up to the tail for the first value that passes. -/
def search (n : Nat) (cells : Nat → α) (tail : Nat) (p : α → Bool) : Nat → Nat → Option Nat
  | 0, _ => none
  | rounds + 1, i =>
    if i = tail then none
    else if p (cells i) then some i else search n cells tail p rounds ((i + 1) % n)

/-- Move the values before cell `j` one cell on, from there back to the head. -/
def closeGap (n head : Nat) : Nat → (Nat → α) → Nat → Nat → α
  | 0, cells, _ => cells
  | rounds + 1, cells, j =>
    if j = head then cells
    else closeGap n head rounds
      (Function.update cells j (cells ((j + n - 1) % n))) ((j + n - 1) % n)

/-- Take the value out of cell `i`. -/
def RingBuf.remove (n : Nat) (r : RingBuf α) (i : Nat) : RingBuf α :=
  { r with cells := closeGap n r.head n r.cells i, head := (r.head + 1) % n }

theorem mod_wrap {a : Nat} (low : a < n + n) : a % n = if a < n then a else a - n := by
  split_ifs with inside
  · exact Nat.mod_eq_of_lt inside
  · rw [Nat.mod_eq_sub_mod (by omega), Nat.mod_eq_of_lt (by omega)]

theorem pos_inj {head j k : Nat} (first : j < n) (second : k < n)
    (same : (head + j) % n = (head + k) % n) : j = k := by
  have both : j ≡ k [MOD n] := Nat.ModEq.add_left_cancel' head same
  exact Nat.ModEq.eq_of_lt_of_lt both first second

theorem pos_pred {head k : Nat} (low : head < n) (inside : k + 1 < n) :
    ((head + (k + 1)) % n + n - 1) % n = (head + k) % n := by
  have after := mod_wrap (n := n) (a := head + (k + 1)) (by omega)
  have before := mod_wrap (n := n) (a := head + k) (by omega)
  rw [after, before]
  split_ifs with first second second
  · rw [mod_wrap (by omega), if_neg (by omega)]
    omega
  · omega
  · rw [mod_wrap (by omega)]
    split_ifs <;> omega
  · rw [mod_wrap (by omega), if_neg (by omega)]
    omega

theorem pos_succ {head k : Nat} : ((head + 1) % n + k) % n = (head + (k + 1)) % n := by
  rw [Nat.mod_add_mod, Nat.add_assoc, Nat.add_comm 1 k]

section Contents

variable {r : RingBuf α}

theorem RingBuf.Wf.count_eq (wf : r.Wf n) :
    r.count n = if r.head ≤ r.tail then r.tail - r.head else r.tail + n - r.head := by
  have head := wf.head
  have tail := wf.tail
  unfold RingBuf.count
  rw [mod_wrap (by omega)]
  split_ifs <;> omega

theorem RingBuf.Wf.count_lt (wf : r.Wf n) : r.count n < n := Nat.mod_lt _ (Nat.zero_lt_of_lt wf.head)

@[simp] theorem RingBuf.length_contents (r : RingBuf α) : (r.contents n).length = r.count n := by
  rw [RingBuf.contents, List.length_map, List.length_range]

theorem RingBuf.getElem_contents (r : RingBuf α) {k : Nat} (inside : k < (r.contents n).length) :
    (r.contents n)[k] = r.cells ((r.head + k) % n) := by
  simp only [RingBuf.contents, List.getElem_map, List.getElem_range]

section

variable (wf : r.Wf n)

include wf

theorem RingBuf.Wf.empty_iff : r.head = r.tail ↔ r.contents n = [] := by
  have count := wf.count_eq
  have head := wf.head
  have tail := wf.tail
  rw [← List.length_eq_zero_iff, RingBuf.length_contents, count]
  split_ifs <;> omega

theorem RingBuf.Wf.full_iff : r.Full n ↔ (r.contents n).length + 1 = n := by
  have count := wf.count_eq
  have head := wf.head
  have tail := wf.tail
  unfold RingBuf.Full
  rw [RingBuf.length_contents, count]
  by_cases last : r.tail + 1 < n
  · rw [Nat.mod_eq_of_lt last]
    split_ifs <;> omega
  · rw [show r.tail + 1 = n by omega, Nat.mod_self]
    split_ifs <;> omega

theorem RingBuf.Wf.push (x : α) : (r.push n x).Wf n :=
  ⟨wf.head, Nat.mod_lt _ (Nat.zero_lt_of_lt wf.head)⟩

theorem RingBuf.Wf.pop : (r.pop n).Wf n :=
  ⟨Nat.mod_lt _ (Nat.zero_lt_of_lt wf.head), wf.tail⟩

theorem RingBuf.Wf.remove (i : Nat) : (r.remove n i).Wf n :=
  ⟨Nat.mod_lt _ (Nat.zero_lt_of_lt wf.head), wf.tail⟩

theorem RingBuf.Wf.tail_eq : (r.head + r.count n) % n = r.tail := by
  have count := wf.count_eq
  have head := wf.head
  have tail := wf.tail
  rw [count]
  split_ifs with order
  · rw [Nat.add_sub_cancel' order, Nat.mod_eq_of_lt tail]
  · rw [show r.head + (r.tail + n - r.head) = r.tail + n by omega, Nat.add_mod_right,
      Nat.mod_eq_of_lt tail]

theorem RingBuf.Wf.count_push (room : ¬ r.Full n) (x : α) :
    (r.push n x).count n = r.count n + 1 := by
  have before := wf.count_eq
  have after := (wf.push x).count_eq
  have head := wf.head
  have tail := wf.tail
  unfold RingBuf.Full at room
  unfold RingBuf.push at after
  simp only at after
  have next := mod_wrap (n := n) (a := r.tail + 1) (by omega)
  unfold RingBuf.push
  rw [after, before]
  rw [next] at room ⊢
  split_ifs at room ⊢ <;> omega

theorem RingBuf.Wf.contents_push (room : ¬ r.Full n) (x : α) :
    (r.push n x).contents n = r.contents n ++ [x] := by
  have count := wf.count_push room x
  have below := wf.count_lt
  apply List.ext_getElem
  · rw [RingBuf.length_contents, count, List.length_append, RingBuf.length_contents]
    rfl
  · intro k first second
    rw [RingBuf.length_contents, count] at first
    rw [RingBuf.getElem_contents]
    change Function.update r.cells r.tail x ((r.head + k) % n) = _
    by_cases old : k < r.count n
    · have other : (r.head + k) % n ≠ r.tail := by
        rw [← wf.tail_eq]
        intro same
        have equal := pos_inj (by omega) below same
        omega
      rw [Function.update_of_ne other, List.getElem_append_left (by rwa [RingBuf.length_contents]),
        RingBuf.getElem_contents]
    · obtain rfl : k = r.count n := by omega
      rw [wf.tail_eq, Function.update_self, List.getElem_append_right (by simp)]
      simp

theorem RingBuf.Wf.count_pop (some : r.head ≠ r.tail) :
    r.count n = (r.pop n).count n + 1 := by
  have before := wf.count_eq
  have after := wf.pop.count_eq
  have head := wf.head
  have tail := wf.tail
  unfold RingBuf.pop at after ⊢
  simp only at after
  have next := mod_wrap (n := n) (a := r.head + 1) (by omega)
  rw [after, before]
  rw [next]
  split_ifs <;> omega

theorem RingBuf.Wf.contents_pop (some : r.head ≠ r.tail) :
    r.contents n = r.cells r.head :: (r.pop n).contents n := by
  have count := wf.count_pop some
  apply List.ext_getElem
  · rw [RingBuf.length_contents, count, List.length_cons, RingBuf.length_contents]
  · intro k first second
    rw [RingBuf.getElem_contents]
    cases k with
    | zero => rw [Nat.add_zero, Nat.mod_eq_of_lt wf.head, List.getElem_cons_zero]
    | succ k =>
      rw [List.getElem_cons_succ, RingBuf.getElem_contents]
      exact congrArg r.cells pos_succ.symm

end

theorem RingBuf.Wf.search_eq (p : α → Bool) {rounds : Nat} : ∀ {r : RingBuf α}, r.Wf n →
    r.count n < rounds → search n r.cells r.tail p rounds r.head =
      ((r.contents n).findIdx? p).map fun k => (r.head + k) % n := by
  induction rounds with
  | zero => intro r _ budget; omega
  | succ rounds ih =>
    intro r wf budget
    rw [search]
    by_cases done : r.head = r.tail
    · rw [if_pos done, wf.empty_iff.mp done]
      rfl
    rw [if_neg done, wf.contents_pop done, List.findIdx?_cons]
    by_cases passes : p (r.cells r.head) = true
    · rw [if_pos passes, if_pos passes, Option.map_some, Nat.add_zero, Nat.mod_eq_of_lt wf.head]
    · have count := wf.count_pop done
      have rest := ih wf.pop (by omega)
      rw [if_neg passes, if_neg passes]
      rw [show search n r.cells r.tail p rounds ((r.head + 1) % n) = _ from rest, Option.map_map]
      congr 1
      funext k
      exact pos_succ

/-- What the moving loop leaves in the cells up to position `k`. -/
theorem closeGap_at {head : Nat} (low : head < n) {k m : Nat} (other : m < n) :
    ∀ {rounds : Nat} {cells : Nat → α}, k < rounds → k < n →
    closeGap n head rounds cells ((head + k) % n) ((head + m) % n) =
      if 0 < m ∧ m ≤ k then cells ((head + (m - 1)) % n) else cells ((head + m) % n) := by
  induction k with
  | zero =>
    intro rounds cells budget inside
    obtain ⟨rounds, rfl⟩ := Nat.exists_eq_succ_of_ne_zero (Nat.ne_of_gt budget)
    rw [closeGap, if_pos (by rw [Nat.add_zero, Nat.mod_eq_of_lt low]), if_neg (by omega)]
  | succ k ih =>
    intro rounds cells budget inside
    obtain ⟨rounds, rfl⟩ := Nat.exists_eq_succ_of_ne_zero (Nat.ne_of_gt (Nat.zero_lt_of_lt budget))
    have away : (head + (k + 1)) % n ≠ head := by
      intro same
      have zero : (head + (k + 1)) % n = (head + 0) % n := by
        rw [same, Nat.add_zero, Nat.mod_eq_of_lt low]
      have equal := pos_inj inside (by omega) zero
      omega
    rw [closeGap, if_neg away, pos_pred low inside, ih (by omega) (by omega)]
    have kept : ∀ j, j < n → j ≠ k + 1 →
        Function.update cells ((head + (k + 1)) % n) (cells ((head + k) % n)) ((head + j) % n) =
          cells ((head + j) % n) := by
      intro j below apart
      apply Function.update_of_ne
      intro same
      exact apart (pos_inj below inside same)
    by_cases moved : 0 < m ∧ m ≤ k
    · rw [if_pos moved, if_pos ⟨moved.1, by omega⟩, kept (m - 1) (by omega) (by omega)]
    rw [if_neg moved]
    by_cases last : m = k + 1
    · rw [last, Function.update_self, if_pos ⟨by omega, Nat.le_refl _⟩, Nat.add_sub_cancel]
    · rw [if_neg (by omega), kept m other last]

theorem RingBuf.Wf.contents_remove (wf : r.Wf n) {k : Nat} (inside : k < r.count n) :
    (r.remove n ((r.head + k) % n)).contents n = (r.contents n).eraseIdx k := by
  have some : r.head ≠ r.tail := by
    intro empty
    have nil := wf.empty_iff.mp empty
    have len := congrArg List.length nil
    rw [RingBuf.length_contents] at len
    change _ = 0 at len
    omega
  have below := wf.count_lt
  have count : r.count n = (r.remove n ((r.head + k) % n)).count n + 1 := wf.count_pop some
  apply List.ext_getElem
  · rw [List.length_eraseIdx_of_lt (by rwa [RingBuf.length_contents]), RingBuf.length_contents,
      RingBuf.length_contents]
    omega
  · intro m first second
    rw [RingBuf.length_contents] at first
    rw [List.getElem_eraseIdx, RingBuf.getElem_contents]
    change closeGap n r.head n r.cells ((r.head + k) % n) (((r.head + 1) % n + m) % n) = _
    rw [pos_succ, closeGap_at wf.head (by omega) (by omega) (by omega)]
    split_ifs with moved before before
    · rw [RingBuf.getElem_contents, Nat.add_sub_cancel]
    · omega
    · omega
    · rw [RingBuf.getElem_contents]

theorem RingBuf.Wf.search_none (wf : r.Wf n) {p : α → Bool}
    (missing : search n r.cells r.tail p n r.head = none) : (r.contents n).find? p = none := by
  rw [wf.search_eq p wf.count_lt, Option.map_eq_none_iff, List.findIdx?_eq_none_iff] at missing
  rw [List.find?_eq_none]
  intro x listed passes
  rw [missing x listed] at passes
  exact Bool.noConfusion passes

theorem RingBuf.Wf.search_some (wf : r.Wf n) {p : α → Bool} {i : Nat}
    (found : search n r.cells r.tail p n r.head = some i) :
    (r.contents n).find? p = some (r.cells i) ∧
      (r.remove n i).contents n = (r.contents n).eraseP p := by
  rw [wf.search_eq p wf.count_lt] at found
  obtain ⟨k, first, rfl⟩ := Option.map_eq_some_iff.mp found
  obtain ⟨inside, passes, before⟩ := List.findIdx?_eq_some_iff_getElem.mp first
  have value := r.getElem_contents inside
  refine ⟨?_, ?_⟩
  · rw [List.find?_eq_some_iff_getElem, ← value]
    refine ⟨passes, k, inside, rfl, ?_⟩
    intro j earlier
    have fails := before j earlier
    simpa using fails
  · rw [RingBuf.length_contents] at inside
    rw [wf.contents_remove inside, List.eraseP_eq_eraseIdx, first]

end Contents

end XinuRpi5.Lib.RingQueue
