/- source: none (library)
   digest: Coalesced address-ordered interval lists under first fit and release. -/

import Mathlib.Algebra.BigOperators.Group.List.Basic
import Mathlib.Data.Nat.Basic
import Mathlib.Algebra.GroupWithZero.Nat

/-!
An interval list is the abstract content of a free list. `Separated lo hi`
says that it is ordered by address, that it stays inside `[lo, hi)`, and that
consecutive intervals neither overlap nor touch. `Covers` is its denotation as
a set of addresses: first fit removes one interval from that set and release
adds one, so disjointness arguments are made about sets and not about lists.
-/

namespace XinuRpi5.Lib.FreeIntervals

/-- The half-open address range `[addr, addr + len)`. -/
@[ext] structure Interval where
  addr : Nat
  len : Nat
  deriving DecidableEq

def Interval.Has (b : Interval) (x : Nat) : Prop := b.addr ≤ x ∧ x < b.addr + b.len

def Covers (bs : List Interval) (x : Nat) : Prop := ∃ b ∈ bs, b.Has x

/-- Ordered, inside `[lo, hi)`, nonempty, and with a gap after every interval. -/
def Separated (lo hi : Nat) : List Interval → Prop
  | [] => True
  | b :: bs => lo ≤ b.addr ∧ 0 < b.len ∧ b.addr + b.len ≤ hi ∧
      Separated (b.addr + b.len + 1) hi bs

def Aligned (g : Nat) (bs : List Interval) : Prop :=
  ∀ b ∈ bs, g ∣ b.addr ∧ g ∣ b.len

def totalLen (bs : List Interval) : Nat := (bs.map Interval.len).sum

@[simp] theorem covers_nil {x : Nat} : ¬ Covers [] x := by simp [Covers]

variable {b : Interval} {bs rest : List Interval} {g lo hi n p s : Nat}

@[simp] theorem covers_cons {x : Nat} :
    Covers (b :: bs) x ↔ b.Has x ∨ Covers bs x := by simp [Covers]

@[simp] theorem totalLen_nil : totalLen [] = 0 := rfl

@[simp] theorem totalLen_cons :
    totalLen (b :: bs) = b.len + totalLen bs := by simp [totalLen]

@[simp] theorem aligned_nil : Aligned g [] := by simp [Aligned]

@[simp] theorem aligned_cons :
    Aligned g (b :: bs) ↔ (g ∣ b.addr ∧ g ∣ b.len) ∧ Aligned g bs := by
  simp [Aligned]

section

variable (h : Separated lo hi bs)

include h

theorem Separated.weaken {lo' : Nat} (le : lo' ≤ lo) : Separated lo' hi bs := by
  cases bs with
  | nil => trivial
  | cons b bs => exact ⟨le.trans h.1, h.2⟩

theorem Separated.bounds {b : Interval} (hb : b ∈ bs) :
    lo ≤ b.addr ∧ 0 < b.len ∧ b.addr + b.len ≤ hi := by
  induction bs generalizing lo with
  | nil => simp at hb
  | cons c cs ih =>
    obtain ⟨low, pos, high, rest⟩ := h
    rcases List.mem_cons.mp hb with rfl | later
    · exact ⟨low, pos, high⟩
    · have inner := ih rest later
      omega

theorem Separated.covers_bounds {x : Nat} (hx : Covers bs x) : lo ≤ x ∧ x < hi := by
  obtain ⟨b, hb, low, high⟩ := hx
  have inner := h.bounds hb
  omega

theorem Separated.pairwise :
    bs.Pairwise (fun b c => b.addr + b.len < c.addr) := by
  induction bs generalizing lo with
  | nil => exact List.Pairwise.nil
  | cons b bs ih =>
    obtain ⟨_, _, _, rest⟩ := h
    refine List.pairwise_cons.mpr ⟨fun c hc => ?_, ih rest⟩
    have inner := rest.bounds hc
    omega

theorem Separated.totalLen_le (window : lo ≤ hi + 1) : totalLen bs + bs.length ≤ hi + 1 - lo := by
  induction bs generalizing lo with
  | nil => simp
  | cons b bs ih =>
    obtain ⟨low, _, high, rest⟩ := h
    have inner := ih rest (by omega)
    simp only [totalLen_cons, List.length_cons]
    omega

end

theorem Separated.shrink {len : Nat} {pre post : List Interval}
    (h : Separated lo hi (pre ++ b :: post)) (pos : 0 < len) (le : len ≤ b.len) :
    Separated lo hi (pre ++ ⟨b.addr, len⟩ :: post) := by
  induction pre generalizing lo with
  | nil =>
    obtain ⟨low, _, high, rest⟩ := h
    exact ⟨low, pos, by simp only; omega, rest.weaken (by simp only; omega)⟩
  | cons c pre ih =>
    obtain ⟨low, some, high, rest⟩ := h
    exact ⟨low, some, high, ih rest⟩

theorem Separated.eq_single (h : Separated lo hi bs)
    (window : lo < hi) (full : totalLen bs = hi - lo) : bs = [⟨lo, hi - lo⟩] := by
  have count := h.totalLen_le (by omega)
  cases bs with
  | nil => simp at full; omega
  | cons b bs =>
    cases bs with
    | cons c cs => simp only [List.length_cons] at count; omega
    | nil =>
      obtain ⟨low, _, high, _⟩ := h
      simp only [totalLen_cons, totalLen_nil, Nat.add_zero] at full
      have start : b.addr = lo := by omega
      exact congrArg (fun c => [c]) (Interval.ext start full)

theorem Separated.length_le (h : Separated lo hi bs)
    (al : Aligned g bs) : bs.length * g ≤ totalLen bs := by
  induction bs generalizing lo with
  | nil => simp
  | cons b bs ih =>
    obtain ⟨_, len, _, rest⟩ := h
    obtain ⟨⟨_, dvd⟩, al⟩ := aligned_cons.mp al
    have inner := ih rest al
    have big := Nat.le_of_dvd len dvd
    simp only [List.length_cons, totalLen_cons, Nat.add_mul]
    omega

def firstFit (n : Nat) : List Interval → Option (Nat × List Interval)
  | [] => none
  | b :: bs =>
    if b.len < n then (firstFit n bs).map fun r => (r.1, b :: r.2)
    else if b.len = n then some (b.addr, bs)
    else some (b.addr, ⟨b.addr + n, b.len - n⟩ :: bs)

/-- What is left of an interval when `n` is taken from its low end. -/
def remainder (n : Nat) (b : Interval) : List Interval :=
  if b.len = n then [] else [⟨b.addr + n, b.len - n⟩]

theorem firstFit_first {b : Interval} (long : n ≤ b.len) (bs : List Interval) :
    firstFit n (b :: bs) = some (b.addr, remainder n b ++ bs) := by
  unfold firstFit remainder
  rw [if_neg (Nat.not_lt.mpr long)]
  split_ifs
  · rfl
  · rfl

theorem firstFit_append {pre : List Interval} (short : ∀ c ∈ pre, c.len < n)
    (bs : List Interval) :
    firstFit n (pre ++ bs) = (firstFit n bs).map fun r => (r.1, pre ++ r.2) := by
  induction pre with
  | nil => exact Option.map_id'.symm
  | cons c pre ih =>
    obtain ⟨first, later⟩ := List.forall_mem_cons.mp short
    rw [List.cons_append, firstFit, if_pos first, ih later, Option.map_map]
    rfl

/-- Put `x` in front of a list behind it, merged with the first interval if it
touches that one. -/
def absorb (x : Interval) : List Interval → List Interval
  | [] => [x]
  | c :: cs => if x.addr + x.len = c.addr then ⟨x.addr, x.len + c.len⟩ :: cs else x :: c :: cs

/-- Put `[s, s + n)` back at its place, merged with the neighbours it touches. -/
def release (s n : Nat) : List Interval → List Interval
  | [] => absorb ⟨s, n⟩ []
  | b :: bs =>
    if b.addr < s then
      if b.addr + b.len = s then absorb ⟨b.addr, b.len + n⟩ bs else b :: release s n bs
    else absorb ⟨s, n⟩ (b :: bs)

/-- What first fit gives: the result list is again separated, and the address
set splits into the new list and the interval that was taken. -/
structure Taken (lo hi n : Nat) (bs : List Interval) (p : Nat) (rest : List Interval) : Prop where
  separated : Separated lo hi rest
  total : totalLen rest + n = totalLen bs
  covers : ∀ x, Covers bs x ↔ Covers rest x ∨ (p ≤ x ∧ x < p + n)
  fresh : ∀ x, Covers rest x → ¬ (p ≤ x ∧ x < p + n)

theorem firstFit_taken
    (h : Separated lo hi bs) (pos : 0 < n) (fit : firstFit n bs = some (p, rest)) :
    Taken lo hi n bs p rest := by
  induction bs generalizing lo rest with
  | nil => simp [firstFit] at fit
  | cons b bs ih =>
    obtain ⟨low, len, high, tail⟩ := h
    have beyond : ∀ x, Covers bs x → b.addr + b.len < x := fun x hx => by
      have := tail.covers_bounds hx
      omega
    unfold firstFit at fit
    split_ifs at fit with small exact_
    · obtain ⟨⟨q, rest'⟩, found, same⟩ := Option.map_eq_some_iff.mp fit
      obtain ⟨rfl, rfl⟩ := Prod.mk.inj same
      have inner := ih tail found
      have later : ∀ x, q ≤ x ∧ x < q + n → b.addr + b.len < x := fun x hx =>
        beyond x ((inner.covers x).mpr (.inr hx))
      refine ⟨⟨low, len, high, inner.separated⟩, ?_, fun x => ?_, fun x hx => ?_⟩
      · have := inner.total
        simp only [totalLen_cons]
        omega
      · rw [covers_cons, covers_cons, inner.covers x, or_assoc]
      · rcases covers_cons.mp hx with here | there
        · intro taken
          have := later x taken
          have := here.2
          omega
        · exact inner.fresh x there
    · obtain ⟨rfl, rfl⟩ := Prod.mk.inj (Option.some.inj fit)
      refine ⟨tail.weaken (by omega), ?_, fun x => ?_, fun x hx => ?_⟩
      · simp only [totalLen_cons]
        omega
      · rw [covers_cons, Interval.Has, exact_, or_comm]
      · have := beyond x hx
        omega
    · obtain ⟨rfl, rfl⟩ := Prod.mk.inj (Option.some.inj fit)
      refine ⟨⟨by simp only; omega, by simp only; omega, by simp only; omega, ?_⟩,
        ?_, fun x => ?_, fun x hx => ?_⟩
      · exact tail.weaken (by simp only; omega)
      · simp only [totalLen_cons]
        omega
      · simp only [covers_cons, Interval.Has]
        constructor
        · rintro (here | there)
          · by_cases cut : x < b.addr + n
            · exact .inr ⟨here.1, cut⟩
            · exact .inl (.inl ⟨by omega, by omega⟩)
          · exact .inl (.inr there)
        · rintro ((here | there) | taken)
          · exact .inl ⟨by omega, by omega⟩
          · exact .inr there
          · exact .inl ⟨by omega, by omega⟩
      · rcases covers_cons.mp hx with here | there
        · have := here.1
          simp only at this
          omega
        · have := beyond x there
          omega

theorem firstFit_aligned (al : Aligned g bs) (dvd : g ∣ n) (fit : firstFit n bs = some (p, rest)) :
    g ∣ p ∧ Aligned g rest := by
  induction bs generalizing rest with
  | nil => simp [firstFit] at fit
  | cons b bs ih =>
    obtain ⟨⟨dvdA, dvdL⟩, al⟩ := aligned_cons.mp al
    unfold firstFit at fit
    split_ifs at fit with small exact_
    · obtain ⟨⟨q, rest'⟩, found, same⟩ := Option.map_eq_some_iff.mp fit
      obtain ⟨rfl, rfl⟩ := Prod.mk.inj same
      obtain ⟨hp, hrest⟩ := ih al found
      exact ⟨hp, aligned_cons.mpr ⟨⟨dvdA, dvdL⟩, hrest⟩⟩
    · obtain ⟨rfl, rfl⟩ := Prod.mk.inj (Option.some.inj fit)
      exact ⟨dvdA, al⟩
    · obtain ⟨rfl, rfl⟩ := Prod.mk.inj (Option.some.inj fit)
      exact ⟨dvdA, aligned_cons.mpr ⟨⟨Nat.dvd_add dvdA dvd, Nat.dvd_sub dvdL dvd⟩, al⟩⟩

theorem absorb_totalLen (x : Interval) (bs : List Interval) :
    totalLen (absorb x bs) = x.len + totalLen bs := by
  cases bs with
  | nil => simp [absorb]
  | cons c cs =>
    rw [absorb]
    split_ifs
    · simp only [totalLen_cons]
      omega
    · simp only [totalLen_cons]

theorem absorb_aligned {x : Interval} (al : Aligned g bs)
    (addr : g ∣ x.addr) (len : g ∣ x.len) : Aligned g (absorb x bs) := by
  cases bs with
  | nil => simp [absorb, addr, len]
  | cons c cs =>
    obtain ⟨⟨dvdA, dvdL⟩, al⟩ := aligned_cons.mp al
    rw [absorb]
    split_ifs
    · exact aligned_cons.mpr ⟨⟨addr, Nat.dvd_add len dvdL⟩, al⟩
    · exact aligned_cons.mpr ⟨⟨addr, len⟩, aligned_cons.mpr ⟨⟨dvdA, dvdL⟩, al⟩⟩

theorem absorb_separated {x : Interval}
    (h : Separated (x.addr + x.len) hi bs) (low : lo ≤ x.addr) (pos : 0 < x.len)
    (high : x.addr + x.len ≤ hi) : Separated lo hi (absorb x bs) := by
  cases bs with
  | nil => exact ⟨low, pos, high, trivial⟩
  | cons c cs =>
    obtain ⟨lowC, lenC, highC, rest⟩ := h
    rw [absorb]
    split_ifs with touch
    · refine ⟨low, by simp only; omega, by simp only; omega, ?_⟩
      exact rest.weaken (by simp only; omega)
    · exact ⟨low, pos, high, by omega, lenC, highC, rest⟩

theorem absorb_covers (x : Interval) (bs : List Interval) (a : Nat) :
    Covers (absorb x bs) a ↔ x.Has a ∨ Covers bs a := by
  cases bs with
  | nil => simp [absorb]
  | cons c cs =>
    rw [absorb]
    split_ifs with touch
    · simp only [covers_cons, Interval.Has]
      by_cases hc : Covers cs a
      · simp only [hc, or_true]
      · simp only [hc, or_false]
        omega
    · simp only [covers_cons]

theorem release_totalLen (s n : Nat) (bs : List Interval) :
    totalLen (release s n bs) = totalLen bs + n := by
  fun_induction release s n bs with
  | case1 => simp [absorb_totalLen]
  | case2 b bs before touch =>
    simp only [absorb_totalLen, totalLen_cons]
    omega
  | case3 b bs before gap ih =>
    simp only [totalLen_cons, ih]
    omega
  | case4 b bs after =>
    simp only [absorb_totalLen, totalLen_cons]
    omega

theorem release_aligned (al : Aligned g bs)
    (hs : g ∣ s) (hn : g ∣ n) : Aligned g (release s n bs) := by
  fun_induction release s n bs with
  | case1 => exact absorb_aligned aligned_nil hs hn
  | case2 b bs before touch =>
    obtain ⟨⟨dvdA, dvdL⟩, al⟩ := aligned_cons.mp al
    exact absorb_aligned al dvdA (Nat.dvd_add dvdL hn)
  | case3 b bs before gap ih =>
    obtain ⟨dvd, al⟩ := aligned_cons.mp al
    exact aligned_cons.mpr ⟨dvd, ih al⟩
  | case4 b bs after => exact absorb_aligned al hs hn

/-- The released interval is free of the list: no address of it is covered. -/
def Outside (s n : Nat) (bs : List Interval) : Prop :=
  ∀ x, Covers bs x → ¬ (s ≤ x ∧ x < s + n)

theorem Outside.apart (out : Outside s n bs) (hb : b ∈ bs) (len : 0 < b.len) (pos : 0 < n) :
    b.addr + b.len ≤ s ∨ s + n ≤ b.addr := by
  by_contra overlap
  have hit := out (max s b.addr) ⟨b, hb, by omega, by omega⟩
  omega

theorem Outside.tail (out : Outside s n (b :: bs)) : Outside s n bs :=
  fun x hx => out x (covers_cons.mpr (.inr hx))

theorem Outside.separated (out : Outside s n bs)
    (h : Separated lo hi bs) (le : s ≤ lo) (pos : 0 < n) : Separated (s + n) hi bs := by
  cases bs with
  | nil => trivial
  | cons b bs =>
    have sep := out.apart List.mem_cons_self h.2.1 pos
    obtain ⟨low, len, high, rest⟩ := h
    exact ⟨by omega, len, high, rest⟩

theorem release_append {pre post : List Interval}
    (below : ∀ b ∈ pre, b.addr < s ∧ b.addr + b.len ≠ s) :
    release s n (pre ++ post) = pre ++ release s n post := by
  induction pre with
  | nil => rfl
  | cons b pre ih =>
    obtain ⟨before, gap⟩ := below b List.mem_cons_self
    have rest := ih fun c hc => below c (List.mem_cons_of_mem b hc)
    rw [List.cons_append, release, if_pos before, if_neg gap, rest, List.cons_append]

theorem release_front (above : ∀ b ∈ bs.head?, s ≤ b.addr) :
    release s n bs = absorb ⟨s, n⟩ bs := by
  cases bs with
  | nil => rfl
  | cons b bs =>
    have le := above b rfl
    rw [release, if_neg (by omega)]

theorem release_separated (h : Separated lo hi bs) (out : Outside s n bs) (pos : 0 < n)
    (low : lo ≤ s) (high : s + n ≤ hi) : Separated lo hi (release s n bs) := by
  fun_induction release s n bs generalizing lo with
  | case1 => exact absorb_separated trivial low pos high
  | case2 b bs before touch =>
    obtain ⟨lowB, lenB, highB, rest⟩ := h
    have after := out.tail.separated rest (by omega) pos
    have stop : b.addr + (b.len + n) = s + n := by omega
    exact absorb_separated (by simpa only [stop] using after) lowB
      (by simp only; omega) (by simp only; omega)
  | case3 b bs before gap ih =>
    have sep := out.apart List.mem_cons_self h.2.1 pos
    obtain ⟨lowB, lenB, highB, rest⟩ := h
    exact ⟨lowB, lenB, highB, ih rest out.tail (by omega)⟩
  | case4 b bs after =>
    have window : Separated s hi (b :: bs) := ⟨by omega, h.2⟩
    exact absorb_separated (out.separated window le_rfl pos) low pos high

theorem release_covers (s n : Nat) (bs : List Interval) (x : Nat) :
    Covers (release s n bs) x ↔ Covers bs x ∨ (s ≤ x ∧ x < s + n) := by
  fun_induction release s n bs with
  | case1 => simp [absorb_covers, Interval.Has]
  | case2 b bs before touch =>
    simp only [absorb_covers, covers_cons, Interval.Has]
    by_cases hc : Covers bs x
    · simp only [hc, or_true, true_or]
    · simp only [hc, or_false]
      omega
  | case3 b bs before gap ih => rw [covers_cons, covers_cons, ih, or_assoc]
  | case4 b bs after =>
    simp only [absorb_covers, Interval.Has]
    exact or_comm

end XinuRpi5.Lib.FreeIntervals
