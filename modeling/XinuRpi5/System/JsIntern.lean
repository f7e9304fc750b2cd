/- source: system/js.c
   digest: Interned strings have one offset each, and what the region holds stays. -/

import Mathlib
import XinuRpi5.Lib.LinkedChain
import XinuRpi5.Lib.WhileLoop
import XinuRpi5.System.JsStore

/-!
A loop that does not end has no result. The strings that are appended are read before they
are written, which is what the code does, since they end below the fill of the region.
-/

namespace XinuRpi5.System.JsIntern

open Lib.LinkedChain Lib.WhileLoop

abbrev Bytes := List UInt8

def jsStrCap : Nat := 163840

/-- `js_str`, its fill, and the chains of registration numbers; -1 is no number. -/
structure Region where
  str : Nat → UInt8
  strN : Nat
  hashHead : Nat → Option Nat
  hashNext : Nat → Option Nat
  hashOff : Nat → Nat
  hashN : Nat
  hasErr : Bool

def hash (s : Bytes) : UInt32 :=
  s.foldl (fun h c => (h ^^^ c.toUInt32) * 16777619) 2166136261

/-- `h & (JS_HASH - 1)`. -/
def bucket (s : Bytes) : Nat := (hash s &&& 2047).toNat

/-- The bytes at an offset are those of the string, and a NUL stands behind them. -/
def holds (str : Nat → UInt8) (off : Nat) : Bytes → Bool
  | [] => str off == 0
  | c :: s => str off == c && holds str (off + 1) s

def find (r : Region) (s : Bytes) (p : Option Nat) : Option (Option Nat) :=
  (whileLoop p (fun p => p.any fun i => !holds r.str (r.hashOff i) s) fun p =>
    p.map r.hashNext).map (Option.map r.hashOff)

def put (r : Region) (s : Bytes) : Region :=
  { r with
    str := fun i => if i < r.strN ∨ r.strN + s.length < i then r.str i else s.getD (i - r.strN) 0
    strN := r.strN + s.length + 1 }

def register (r : Region) (s : Bytes) (off : Nat) : Region :=
  { r with
    hashOff := Function.update r.hashOff r.hashN off
    hashNext := Function.update r.hashNext r.hashN (r.hashHead (bucket s))
    hashHead := Function.update r.hashHead (bucket s) (some r.hashN)
    hashN := r.hashN + 1 }

def jsIntern (r : Region) (s : Bytes) : Option (Nat × Region) := do
  match ← find r s (r.hashHead (bucket s)) with
  | some off => some (off, r)
  | none =>
    if jsStrCap ≤ r.strN + s.length + 1 then some (0, { r with hasErr := true })
    else if r.hashN < jsStrCap / 8 then some (r.strN, register (put r s) s r.strN)
    else some (r.strN, put r s)

def cstr (str : Nat → UInt8) (a : Nat) : Option Bytes :=
  (whileLoop 0 (fun n => str (a + n) != 0) fun n => some (n + 1)).map fun n =>
    (List.range n).map fun i => str (a + i)

def append (r : Region) (a : Nat) (s : Bytes) : Nat × Region :=
  if jsStrCap ≤ r.strN + s.length + 1 then (a, r) else (r.strN, put r s)

def jsStrConcat (r : Region) (a b : Nat) : Option (Nat × Region) := do
  let x ← cstr r.str a
  let y ← cstr r.str b
  some (append r a (x ++ y))

def lower (c : UInt8) : UInt8 := if 65 ≤ c ∧ c ≤ 90 then c + 32 else c

/-- `js_nat_lower`, on a string. -/
def jsNatLower (r : Region) (a : Nat) : Option (Nat × Region) := do
  let x ← cstr r.str a
  some (append r a (x.map lower))

def jsReset (r : Region) : Region :=
  { r with
    str := Function.update r.str 0 0
    strN := 1
    hashHead := fun _ => none
    hashN := 0
    hasErr := false }

def NulFree (s : Bytes) : Prop := ∀ c ∈ s, c ≠ 0

def Exhausted (r : Region) (s : Bytes) : Prop :=
  find r s (r.hashHead (bucket s)) = some none ∧
    (jsStrCap ≤ r.strN + s.length + 1 ∨ jsStrCap / 8 ≤ r.hashN)

/-- What `js_reset` and calls on offsets below the fill reach, with the strings that were
interned and the offsets returned for them. -/
inductive Runs (r₀ : Region) : Region → List (Bytes × Nat) → Prop
  | reset : Runs r₀ (jsReset r₀) []
  | intern {r r' : Region} {calls : List (Bytes × Nat)} {s : Bytes} {o : Nat} :
      Runs r₀ r calls → NulFree s → ¬ Exhausted r s → jsIntern r s = some (o, r') →
      Runs r₀ r' (calls ++ [(s, o)])
  | concat {r r' : Region} {calls : List (Bytes × Nat)} {a b o : Nat} :
      Runs r₀ r calls → a < r.strN → b < r.strN → jsStrConcat r a b = some (o, r') →
      Runs r₀ r' calls
  | lower {r r' : Region} {calls : List (Bytes × Nat)} {a o : Nat} :
      Runs r₀ r calls → a < r.strN → jsNatLower r a = some (o, r') → Runs r₀ r' calls

section Strings

variable {str str' : Nat → UInt8} {off : Nat} {s t : Bytes}

theorem holds_unique (plain : NulFree s) (plain' : NulFree t) (here : holds str off s = true)
    (here' : holds str off t = true) : s = t := by
  induction s generalizing t off with
  | nil =>
    cases t with
    | nil => rfl
    | cons c t =>
      simp only [holds, beq_iff_eq, Bool.and_eq_true] at here here'
      exact absurd (here'.1.symm.trans here) (plain' c List.mem_cons_self)
  | cons c s ih =>
    simp only [holds, beq_iff_eq, Bool.and_eq_true] at here
    cases t with
    | nil =>
      simp only [holds, beq_iff_eq] at here'
      exact absurd (here.1.symm.trans here') (plain c List.mem_cons_self)
    | cons d t =>
      simp only [holds, beq_iff_eq, Bool.and_eq_true] at here'
      rw [← here.1, ← here'.1, ih (fun x listed => plain x (List.mem_cons_of_mem _ listed))
        (fun x listed => plain' x (List.mem_cons_of_mem _ listed)) here.2 here'.2]

theorem holds_congr (same : ∀ i, off ≤ i → i ≤ off + s.length → str' i = str i) :
    holds str' off s = holds str off s := by
  induction s generalizing off with
  | nil => rw [holds, holds, same off (Nat.le_refl _) (Nat.le_add_right _ _)]
  | cons c s ih =>
    rw [List.length_cons] at same
    rw [holds, holds, same off (Nat.le_refl _) (Nat.le_add_right _ _),
      ih fun i low high => same i (by omega) (by omega)]

theorem holds_of_bytes (bytes : ∀ k, k ≤ s.length → str (off + k) = s.getD k 0) :
    holds str off s = true := by
  induction s generalizing off with
  | nil => simpa [holds] using bytes 0 (Nat.le_refl _)
  | cons c s ih =>
    have first : str off = c := by simpa using bytes 0 (Nat.zero_le _)
    rw [holds, first, beq_self_eq_true, Bool.true_and]
    refine ih fun k low => ?_
    rw [Nat.add_assoc, Nat.add_comm 1 k]
    simpa using bytes (k + 1) (Nat.succ_le_succ low)

variable {r : Region}

theorem put_below {i : Nat} (below : i < r.strN) : (put r s).str i = r.str i :=
  if_pos (.inl below)

theorem put_holds (r : Region) (s : Bytes) : holds (put r s).str r.strN s = true := by
  refine holds_of_bytes fun k within => ?_
  refine (if_neg (by omega)).trans ?_
  rw [Nat.add_sub_cancel_left]

theorem put_last (r : Region) (s : Bytes) : (put r s).str ((put r s).strN - 1) = 0 := by
  refine (if_neg (by simp only [put]; omega)).trans ?_
  rw [show (put r s).strN - 1 - r.strN = s.length by simp only [put]; omega]
  exact List.getD_eq_default _ _ (Nat.le_refl _)

theorem cstr_ends {n a : Nat} (last : str n = 0) (below : a ≤ n) : ∃ s, cstr str a = some s := by
  have ends (k m : Nat) (left : a + m + k = n) :
      ∃ e, whileLoop m (fun m => str (a + m) != 0) (fun m => some (m + 1)) = some e := by
    induction k generalizing m with
    | zero =>
      obtain rfl : a + m = n := left
      exact ⟨m, whileLoop_done (by simp [last])⟩
    | succ k ih =>
      cases go : str (a + m) != 0 with
      | false => exact ⟨m, whileLoop_done go⟩
      | true =>
        obtain ⟨e, ended⟩ := ih (m + 1) (by omega)
        refine ⟨e, Eq.trans ?_ ended⟩
        exact whileLoop_round go rfl
  obtain ⟨e, ended⟩ := ends (n - a) 0 (by omega)
  exact ⟨_, congrArg (Option.map _) ended⟩

end Strings

section Chains

def inBucket (text : Nat → Bytes) (n b : Nat) : List Nat :=
  ((List.range n).filter fun i => bucket (text i) = b).reverse

theorem mem_inBucket {text : Nat → Bytes} {n b i : Nat} :
    i ∈ inBucket text n b ↔ i < n ∧ bucket (text i) = b := by
  rw [inBucket, List.mem_reverse, List.mem_filter, List.mem_range, decide_eq_true_eq]

theorem inBucket_succ (text : Nat → Bytes) (n b : Nat) : inBucket text (n + 1) b =
    if bucket (text n) = b then n :: inBucket text n b else inBucket text n b := by
  rw [inBucket, List.range_succ, List.filter_append, List.reverse_append]
  by_cases here : bucket (text n) = b
  · rw [if_pos here, List.filter_singleton, decide_eq_true here]
    rfl
  · rw [if_neg here, List.filter_singleton, decide_eq_false here]
    rfl

def Chain (next : Nat → Option Nat) (p : Option Nat) (l : List Nat) : Prop :=
  Seg (fun p i => p = some i) next p l none

structure Registered (r : Region) (text : Nat → Bytes) : Prop where
  fill : 1 ≤ r.strN
  last : r.str (r.strN - 1) = 0
  held : ∀ i, i < r.hashN → holds r.str (r.hashOff i) (text i) = true ∧ NulFree (text i) ∧
    r.hashOff i + (text i).length < r.strN
  once : ∀ i j, i < r.hashN → j < r.hashN → text i = text j → i = j
  chain : ∀ b, Chain r.hashNext (r.hashHead b) (inBucket text r.hashN b)

variable {r : Region} {text : Nat → Bytes} {s : Bytes}

theorem find_eq {p : Option Nat} {l : List Nat} (chain : Chain r.hashNext p l) :
    find r s p = some ((l.find? fun i => holds r.str (r.hashOff i) s).map r.hashOff) := by
  induction l generalizing p with
  | nil =>
    obtain rfl : p = none := chain
    exact congrArg (Option.map _) (whileLoop_done rfl)
  | cons i l ih =>
    obtain ⟨rfl, onward⟩ := chain
    rw [List.find?_cons]
    cases here : holds r.str (r.hashOff i) s with
    | true => exact congrArg (Option.map _) (whileLoop_done (by simp [here]))
    | false =>
      rw [← ih onward]
      exact congrArg (Option.map _) (whileLoop_round (by simp [here]) rfl)

theorem Registered.find (reg : Registered r text) (plain : NulFree s) :
    (∃ i, i < r.hashN ∧ text i = s ∧
      JsIntern.find r s (r.hashHead (bucket s)) = some (some (r.hashOff i))) ∨
    ((∀ i, i < r.hashN → text i ≠ s) ∧ JsIntern.find r s (r.hashHead (bucket s)) = some none) := by
  rw [find_eq (reg.chain (bucket s))]
  cases found : (inBucket text r.hashN (bucket s)).find? fun i => holds r.str (r.hashOff i) s with
  | some i =>
    obtain ⟨inside, -⟩ := mem_inBucket.mp (List.mem_of_find?_eq_some found)
    obtain ⟨held, plain', -⟩ := reg.held i inside
    have here : holds r.str (r.hashOff i) s = true := by simpa using List.find?_some found
    exact .inl ⟨i, inside, holds_unique plain' plain held here, rfl⟩
  | none =>
    refine .inr ⟨fun i inside same => ?_, rfl⟩
    have listed : i ∈ inBucket text r.hashN (bucket s) := mem_inBucket.mpr ⟨inside, by rw [same]⟩
    have other := List.find?_eq_none.mp found i listed
    rw [← same] at other
    exact other (reg.held i inside).1

theorem Registered.put (reg : Registered r text) (t : Bytes) : Registered (put r t) text where
  fill := Nat.succ_le_succ (Nat.zero_le _)
  last := put_last r t
  held i inside := by
    obtain ⟨held, plain, below⟩ := reg.held i inside
    refine ⟨?_, plain, by simp only [JsIntern.put]; omega⟩
    rw [← held]
    exact holds_congr fun k _ high => put_below (by simp only [JsIntern.put] at high; omega)
  once := reg.once
  chain := reg.chain

/-- A new number stands in front of its chain. -/
theorem Registered.register (reg : Registered r text) (plain : NulFree s) {off : Nat}
    (absent : ∀ i, i < r.hashN → text i ≠ s) (here : holds r.str off s = true)
    (below : off + s.length < r.strN) :
    Registered (register r s off) (Function.update text r.hashN s) := by
  have old {i : Nat} (inside : i < r.hashN) : Function.update text r.hashN s i = text i :=
    Function.update_of_ne (Nat.ne_of_lt inside) _ _
  have new : Function.update text r.hashN s r.hashN = s := Function.update_self _ _ _
  refine ⟨reg.fill, reg.last, fun i inside => ?_, fun i j inside inside' same => ?_, fun b => ?_⟩
  · rcases Nat.lt_succ_iff_lt_or_eq.mp inside with early | rfl
    · have kept : (JsIntern.register r s off).hashOff i = r.hashOff i :=
        Function.update_of_ne (Nat.ne_of_lt early) _ _
      rw [old early, kept]
      exact reg.held i early
    · have given : (JsIntern.register r s off).hashOff r.hashN = off := Function.update_self _ _ _
      rw [new, given]
      exact ⟨here, plain, below⟩
  · rcases Nat.lt_succ_iff_lt_or_eq.mp inside with early | rfl <;>
      rcases Nat.lt_succ_iff_lt_or_eq.mp inside' with early' | rfl
    · rw [old early, old early'] at same
      exact reg.once i j early early' same
    · rw [old early, new] at same
      exact absurd same (absent i early)
    · rw [old early', new] at same
      exact absurd same.symm (absent j early')
    · rfl
  · have before : inBucket (Function.update text r.hashN s) r.hashN b = inBucket text r.hashN b := by
      rw [inBucket, inBucket]
      congr 1
      refine List.filter_congr fun i listed => ?_
      rw [old (List.mem_range.mp listed)]
    have kept : Chain (Function.update r.hashNext r.hashN (r.hashHead (bucket s))) (r.hashHead b)
        (inBucket text r.hashN b) :=
      Seg.congr (reg.chain b) (fun _ _ _ node => node) fun i listed =>
        Function.update_of_ne (Nat.ne_of_lt (mem_inBucket.mp listed).1) _ _
    simp only [JsIntern.register]
    rw [inBucket_succ, new, before]
    split_ifs with same
    · subst same
      rw [Function.update_self]
      refine ⟨rfl, ?_⟩
      rw [Function.update_self]
      exact kept
    · rw [Function.update_of_ne (Ne.symm same)]
      exact kept

end Chains

section Values

variable {C H : Type} {r r' : Region} {text : Nat → Bytes} {t : JsStore.Store C H} {s : Bytes}
  {o : Nat}

def chars (s : Bytes) : JsStore.Str := s.map fun c => Char.ofNat c.toNat

theorem chars_injective : Function.Injective chars := by
  refine List.map_injective_iff.mpr fun c d same => ?_
  have number (b : UInt8) : (Char.ofNat b.toNat).toNat = b.toNat := by
    have byte : b.toNat < 256 := b.toNat_lt
    rw [Char.toNat_ofNat, if_pos (.inl (by omega))]
  rw [← UInt8.toNat_inj, ← number c, ← number d, same]

/-- The evaluator's store, where a string is itself, stands for the region. -/
structure Matches (r : Region) (text : Nat → Bytes) (t : JsStore.Store C H) : Prop where
  reg : Registered r text
  fill : t.strN = r.strN
  known : t.interned = (List.range r.hashN).map fun i => chars (text i)
  fails : t.err.isSome = r.hasErr

variable (both : Matches r text t)

include both

theorem Matches.mem :
    chars s ∈ t.interned ↔ ∃ i, i < r.hashN ∧ text i = s := by
  rw [both.known, List.mem_map]
  constructor
  · rintro ⟨i, listed, same⟩
    exact ⟨i, List.mem_range.mp listed, chars_injective same⟩
  · rintro ⟨i, inside, rfl⟩
    exact ⟨i, List.mem_range.mpr inside, rfl⟩

theorem Matches.register (plain : NulFree s) (absent : ∀ i, i < r.hashN → text i ≠ s) :
    Matches (register (put r s) s r.strN) (Function.update text r.hashN s)
      { t with strN := t.strN + (chars s).length + 1, interned := t.interned ++ [chars s] } where
  reg := (both.reg.put s).register plain absent (put_holds r s) (Nat.lt_succ_self _)
  fill := by
    rw [both.fill, chars, List.length_map]
    rfl
  known := by
    change t.interned ++ [chars s] = (List.range (r.hashN + 1)).map _
    rw [List.range_succ, List.map_append, both.known, List.map_singleton, Function.update_self]
    congr 1
    refine List.map_congr_left fun i listed => ?_
    rw [Function.update_of_ne (Nat.ne_of_lt (List.mem_range.mp listed))]
  fails := both.fails

theorem Matches.failed (m : String) :
    Matches { r with hasErr := true } text (JsStore.jsFail m t).2 := by
  have reg : Registered { r with hasErr := true } text :=
    ⟨both.reg.fill, both.reg.last, both.reg.held, both.reg.once, both.reg.chain⟩
  change Matches _ text (if t.err.isSome then t else { t with err := some m })
  split_ifs with already
  · exact ⟨reg, both.fill, both.known, already⟩
  · exact ⟨reg, both.fill, both.known, rfl⟩

/-- `js_intern` on the region returns an offset of the string that it returns on the store. -/
theorem Matches.jsIntern (plain : NulFree s) (done : JsIntern.jsIntern r s = some (o, r')) :
    (∃ text', Matches r' text' (JsStore.jsIntern (chars s) t).2) ∧
    ((JsStore.jsIntern (chars s) t).1 = chars s ∧ holds r'.str o s = true ∨
      (JsStore.jsIntern (chars s) t).1 = [] ∧ o = 0 ∧ r'.hasErr = true) := by
  have length : (chars s).length = s.length := List.length_map _
  rcases both.reg.find plain with ⟨i, inside, same, found⟩ | ⟨absent, found⟩
  · rw [JsIntern.jsIntern, found] at done
    cases done
    rw [JsStore.jsIntern_known (both.mem.mpr ⟨i, inside, same⟩)]
    exact ⟨⟨text, both⟩, .inl ⟨rfl, same ▸ (both.reg.held i inside).1⟩⟩
  have fresh : chars s ∉ t.interned := fun known => by
    obtain ⟨i, inside, same⟩ := both.mem.mp known
    exact absent i inside same
  have number : t.interned.length = r.hashN := by
    rw [both.known, List.length_map, List.length_range]
  rw [JsIntern.jsIntern, found] at done
  simp only [Option.bind_eq_bind, Option.bind_some] at done
  by_cases full : jsStrCap ≤ r.strN + s.length + 1
  · rw [if_pos full] at done
    cases done
    have most : t.strN + (chars s).length + 1 ≥ JsStore.jsStrCap := by
      rwa [both.fill, length]
    rw [JsStore.jsIntern_full fresh most]
    exact ⟨⟨text, both.failed _⟩, .inr ⟨rfl, rfl, rfl⟩⟩
  · have room : ¬t.strN + (chars s).length + 1 ≥ JsStore.jsStrCap := by
      rwa [both.fill, length]
    rw [if_neg full] at done
    rw [JsStore.jsIntern_new fresh room, number]
    by_cases left : r.hashN < jsStrCap / 8
    · rw [if_pos left] at done
      cases done
      rw [if_pos (show r.hashN < JsStore.jsStrCap / 8 from left)]
      exact ⟨⟨_, both.register plain absent⟩, .inl ⟨rfl, put_holds r s⟩⟩
    · rw [if_neg left] at done
      cases done
      rw [if_neg (show ¬r.hashN < JsStore.jsStrCap / 8 from left)]
      refine ⟨⟨text, both.reg.put s, ?_, both.known, both.fails⟩, .inl ⟨rfl, put_holds r s⟩⟩
      rw [both.fill, length]
      rfl

end Values

section Runs

def Recorded (r : Region) (calls : List (Bytes × Nat)) : Prop :=
  ∃ text, Registered r text ∧
    ∀ c ∈ calls, ∃ i, i < r.hashN ∧ text i = c.1 ∧ r.hashOff i = c.2

variable {r r' r₀ : Region} {calls : List (Bytes × Nat)} {s : Bytes} {o a b : Nat}

theorem Recorded.intern (rec : Recorded r calls) (plain : NulFree s) (room : ¬ Exhausted r s)
    (done : jsIntern r s = some (o, r')) : Recorded r' (calls ++ [(s, o)]) := by
  obtain ⟨text, reg, known⟩ := rec
  rcases reg.find plain with ⟨i, inside, same, found⟩ | ⟨absent, found⟩
  · rw [jsIntern, found] at done
    cases done
    refine ⟨text, reg, fun c listed => ?_⟩
    rcases List.mem_append.mp listed with old | new
    · exact known c old
    · obtain rfl := List.mem_singleton.mp new
      exact ⟨i, inside, same, rfl⟩
  · have space : r.strN + s.length + 1 < jsStrCap ∧ r.hashN < jsStrCap / 8 := by
      rw [Exhausted, not_and, not_or, Nat.not_le, Nat.not_le] at room
      exact room found
    rw [jsIntern, found] at done
    simp only [Option.bind_eq_bind, Option.bind_some, if_neg (Nat.not_le_of_lt space.1),
      if_pos space.2] at done
    cases done
    refine ⟨_, (reg.put s).register plain absent (put_holds r s) (Nat.lt_succ_self _),
      fun c listed => ?_⟩
    rcases List.mem_append.mp listed with old | new
    · obtain ⟨i, inside, same, off⟩ := known c old
      refine ⟨i, Nat.lt_succ_of_lt inside, ?_, ?_⟩
      · exact (Function.update_of_ne (Nat.ne_of_lt inside) _ _).trans same
      · exact (Function.update_of_ne (Nat.ne_of_lt inside) _ _).trans off
    · obtain rfl := List.mem_singleton.mp new
      exact ⟨r.hashN, Nat.lt_succ_self _, Function.update_self _ _ _, Function.update_self _ _ _⟩

theorem Recorded.append (rec : Recorded r calls) (a : Nat) (t : Bytes) :
    Recorded (append r a t).2 calls := by
  rw [JsIntern.append]
  split_ifs
  · exact rec
  · obtain ⟨text, reg, known⟩ := rec
    exact ⟨text, reg.put t, known⟩

theorem Runs.recorded (run : Runs r₀ r calls) : Recorded r calls := by
  induction run with
  | reset =>
    have last : (jsReset r₀).str 0 = 0 := Function.update_self 0 0 r₀.str
    refine ⟨fun _ => [], ⟨Nat.le_refl _, last, ?_, ?_, fun _ => rfl⟩, nofun⟩
    · exact fun i inside => absurd inside (Nat.not_lt_zero i)
    · exact fun i _ inside => absurd inside (Nat.not_lt_zero i)
  | intern _ plain room done ih => exact ih.intern plain room done
  | @concat r r' calls a b o _ _ _ done ih =>
    rw [jsStrConcat] at done
    obtain ⟨x, -, done⟩ := Option.bind_eq_some_iff.mp done
    obtain ⟨y, -, done⟩ := Option.bind_eq_some_iff.mp done
    have same : JsIntern.append r a (x ++ y) = (o, r') := Option.some.inj done
    have next := ih.append a (x ++ y)
    rwa [same] at next
  | @lower r r' calls a o _ _ done ih =>
    rw [jsNatLower] at done
    obtain ⟨x, -, done⟩ := Option.bind_eq_some_iff.mp done
    have same : JsIntern.append r a (x.map JsIntern.lower) = (o, r') := Option.some.inj done
    have next := ih.append a (x.map JsIntern.lower)
    rwa [same] at next

theorem append_intact (r : Region) (a : Nat) (t : Bytes) {i : Nat} (below : i < r.strN) :
    (append r a t).2.str i = r.str i := by
  rw [append]
  split_ifs
  · rfl
  · exact put_below below

/-- In every state that calls reach from a reset, two of the calls returned the same
offset exactly when they were given the same string, each string stands at its offset,
and each further call ends and leaves the bytes of the region as they are. -/
theorem intern_canonical (run : Runs r₀ r calls) :
    (∀ c ∈ calls, ∀ d ∈ calls, c.2 = d.2 ↔ c.1 = d.1) ∧
    (∀ c ∈ calls, holds r.str c.2 c.1 = true) ∧
    (∀ s, NulFree s → ∃ o r', jsIntern r s = some (o, r') ∧ ∀ i, i < r.strN → r'.str i = r.str i) ∧
    (∀ a b, a < r.strN → b < r.strN → ∃ o r', jsStrConcat r a b = some (o, r') ∧
      ∀ i, i < r.strN → r'.str i = r.str i) ∧
    ∀ a, a < r.strN → ∃ o r', jsNatLower r a = some (o, r') ∧
      ∀ i, i < r.strN → r'.str i = r.str i := by
  obtain ⟨text, reg, known⟩ := run.recorded
  have ends (a : Nat) (below : a < r.strN) : ∃ x, cstr r.str a = some x :=
    cstr_ends reg.last (by omega)
  refine ⟨fun c listed d listed' => ?_, fun c listed => ?_, fun s plain => ?_, ?_, ?_⟩
  · obtain ⟨i, inside, textC, offC⟩ := known c listed
    obtain ⟨j, inside', textD, offD⟩ := known d listed'
    constructor
    · intro same
      have heldC := reg.held i inside
      have heldD := reg.held j inside'
      rw [offC, textC] at heldC
      rw [offD, textD, ← same] at heldD
      exact holds_unique heldC.2.1 heldD.2.1 heldC.1 heldD.1
    · intro same
      have number : i = j := reg.once i j inside inside' (by rw [textC, textD, same])
      rw [← offC, ← offD, number]
  · obtain ⟨i, inside, same, off⟩ := known c listed
    rw [← same, ← off]
    exact (reg.held i inside).1
  · rcases reg.find plain with ⟨i, _, _, found⟩ | ⟨_, found⟩
    · exact ⟨_, r, by rw [jsIntern, found]; rfl, fun _ _ => rfl⟩
    · rw [jsIntern, found]
      simp only [Option.bind_eq_bind, Option.bind_some]
      split_ifs
      · exact ⟨_, _, rfl, fun _ _ => rfl⟩
      · exact ⟨_, _, rfl, fun i below => put_below below⟩
      · exact ⟨_, _, rfl, fun i below => put_below below⟩
  · intro a b below below'
    obtain ⟨x, left⟩ := ends a below
    obtain ⟨y, right⟩ := ends b below'
    exact ⟨_, _, by rw [jsStrConcat, left, right]; rfl, fun i => append_intact r a (x ++ y)⟩
  · intro a below
    obtain ⟨x, read⟩ := ends a below
    exact ⟨_, _, by rw [jsNatLower, read]; rfl, fun i => append_intact r a (x.map lower)⟩

def noRegion : Region := ⟨fun _ => 7, 0, fun _ => none, fun _ => none, fun _ => 0, 0, false⟩

theorem intern_canonical_reset : ∃ o r', jsIntern (jsReset noRegion) [97] = some (o, r') ∧
    ∀ i, i < 1 → r'.str i = (jsReset noRegion).str i :=
  (intern_canonical (@Runs.reset noRegion)).2.2.1 [97] (by simp [NulFree])

end Runs

end XinuRpi5.System.JsIntern
