/- source: system/tcp_server.c
   digest: The query parameters of a request: what the search for key= finds, and when by name. -/

import Mathlib.Data.List.Infix
import Mathlib.Data.Nat.Find

/-!
`q_param` looks for the text `key=` from the first byte of the request on and never looks at the
byte in front of it.
-/

namespace XinuRpi5.System.QueryParams

abbrev Text := List UInt8

def cstr (buf : Text) : Text := buf.takeWhile fun c => c ≠ 0

/-- The text behind `key=`, when that is how `p` begins. -/
def behindKey : Text → Text → Option Text
  | [], c :: q => if c = 61 then some q else none
  | k :: key, c :: p => if c = k then behindKey key p else none
  | _, [] => none

def copyValue : Nat → Text → Text
  | room + 1, c :: q => if c = 38 ∨ c = 32 then [] else c :: copyValue room q
  | _, _ => []

def search (key : Text) (max : Nat) : Text → Option Text
  | [] => none
  | c :: p =>
    match behindKey key (c :: p) with
    | some q => some (copyValue (max - 1) q)
    | none => search key max p

/-- `q_param`: the text left in `out`, or `none` when it returns 0. -/
def qParam (req key : Text) (max : Nat) : Option Text := search key max (cstr req)

/-- The loop over the digits of `q_int`. -/
def digits : Text → Int32 → Int32
  | c :: v, n => if 48 ≤ c ∧ c ≤ 57 then digits v (n * 10 + Int32.ofNat (c.toNat - 48)) else n
  | [], n => n

def qInt (req key : Text) (dflt : Int32) : Int32 :=
  match qParam req key 16 with
  | none => dflt
  | some (45 :: v) => -digits v 0
  | some v => digits v 0

/-- A name or a value of a query: free of NUL, space, `&` and `=`. -/
abbrev Word := { w : Text // ∀ c ∈ w, c ≠ 0 ∧ c ≠ 32 ∧ c ≠ 38 ∧ c ≠ 61 }

structure Param where
  name : Word
  value : Word

def pair (p : Param) : Text := p.name.val ++ 61 :: p.value.val

/-- `k1=v1&...&kn=vn`. -/
def query : List Param → Text
  | [] => []
  | [p] => pair p
  | p :: q :: ps => pair p ++ 38 :: query (q :: ps)

/-- A request: method and path in front of the `?`, the parameters, and what follows the space
behind them. -/
structure Request where
  head : Text
  params : List Param
  rest : Text
  headFree : ∀ c ∈ head, c ≠ 0 ∧ c ≠ 63

def Request.text (r : Request) : Text := r.head ++ 63 :: (query r.params ++ 32 :: r.rest)

def Request.find (r : Request) (key : Text) : Option Nat :=
  r.params.findIdx? fun p => p.name.val = key

def Request.param (r : Request) (key : Text) (max : Nat) : Option Text :=
  (r.params.find? fun p => p.name.val = key).map fun p => p.value.val.take (max - 1)

def Request.before (r : Request) (j : Nat) : Text :=
  r.head ++ 63 :: (r.params.take j).flatMap fun p => pair p ++ [38]

/-- The text `key=` stands at the place. -/
def Stands (text key : Text) (i : Nat) : Prop := key ++ [61] <+: text.drop i

def First (text key : Text) (i : Nat) : Prop :=
  Stands text key i ∧ ∀ k < i, ¬ Stands text key k

/-- The text goes on with the value as far as the buffer has room for it, and if it has room for
all of it with the end, `&` or a space. -/
def Shows (text value : Text) (room : Nat) : Prop :=
  value.take room <+: text ∧
    (value.length < room → ∀ c, text[value.length]? = some c → c = 38 ∨ c = 32)

/-- The text `key=` first stands where the parameter does, or else in front of the same value;
without such a parameter it stands nowhere. -/
def Undisturbed (r : Request) (key : Text) (max : Nat) : Prop :=
  match r.find key with
  | none => ∀ i, ¬ Stands (cstr r.text) key i
  | some j => ∀ i < (r.before j).length, First (cstr r.text) key i →
      ∀ p, r.params[j]? = some p →
        Shows ((cstr r.text).drop (i + key.length + 1)) p.value.val (max - 1)

section Searching

variable {key text : Text}

theorem behindKey_eq_some (p q : Text) : behindKey key p = some q ↔ p = key ++ 61 :: q := by
  induction key generalizing p with
  | nil =>
    cases p with
    | nil => simp [behindKey]
    | cons c p =>
      rw [behindKey]
      split_ifs with equal
      · simp [equal]
      · simp [equal]
  | cons k key ih =>
    cases p with
    | nil => simp [behindKey]
    | cons c p =>
      rw [behindKey]
      split_ifs with same
      · simp [same, ih]
      · simp [same]

theorem stands_iff (i : Nat) : Stands text key i ↔ ∃ q, behindKey key (text.drop i) = some q := by
  constructor
  · rintro ⟨q, equal⟩
    exact ⟨q, (behindKey_eq_some _ _).mpr (by rw [← equal, List.append_assoc]; rfl)⟩
  · rintro ⟨q, found⟩
    refine ⟨q, ?_⟩
    rw [(behindKey_eq_some _ _).mp found, List.append_assoc]
    rfl

theorem Stands.behind {i : Nat} (stands : Stands text key i) :
    behindKey key (text.drop i) = some (text.drop (i + key.length + 1)) := by
  obtain ⟨q, found⟩ := (stands_iff i).mp stands
  have equal := (behindKey_eq_some _ _).mp found
  have rest : text.drop (i + key.length + 1) = q := by
    rw [Nat.add_assoc, ← List.drop_drop, equal]
    simp
  rw [found, rest]

theorem search_first {i max : Nat} (first : First text key i) :
    search key max text = some (copyValue (max - 1) (text.drop (i + key.length + 1))) := by
  induction text generalizing i with
  | nil =>
    obtain ⟨q, found⟩ := (stands_iff i).mp first.1
    rw [List.drop_nil] at found
    cases key <;> simp [behindKey] at found
  | cons c p ih =>
    rw [search]
    cases i with
    | zero =>
      have found := first.1.behind
      rw [List.drop_zero] at found
      rw [found]
    | succ i =>
      have none : behindKey key (c :: p) = none := by
        cases found : behindKey key (c :: p) with
        | none => rfl
        | some q => exact (first.2 0 (Nat.succ_pos i) ((stands_iff 0).mpr ⟨q, found⟩)).elim
      rw [none]
      have later : First p key i :=
        ⟨first.1, fun k less stands => first.2 (k + 1) (Nat.succ_lt_succ less) stands⟩
      rw [ih later, show i + 1 + key.length + 1 = i + key.length + 1 + 1 by omega,
        List.drop_succ_cons]

theorem search_none {max : Nat} (never : ∀ i, ¬ Stands text key i) :
    search key max text = none := by
  induction text with
  | nil => rfl
  | cons c p ih =>
    have none : behindKey key (c :: p) = none := by
      cases found : behindKey key (c :: p) with
      | none => rfl
      | some q => exact (never 0 ((stands_iff 0).mpr ⟨q, found⟩)).elim
    rw [search, none]
    exact ih fun i stands => never (i + 1) stands

theorem exists_first (h : ∃ i, Stands text key i) : ∃ i, First text key i := by
  classical
  exact ⟨Nat.find h, Nat.find_spec h, fun k less => Nat.find_min h less⟩

/-- The copy is the value exactly where the text shows it. -/
theorem copyValue_eq_iff {value : Text} (free : ∀ c ∈ value, c ≠ 38 ∧ c ≠ 32) (room : Nat)
    (q : Text) : copyValue room q = value.take room ↔ Shows q value room := by
  induction room generalizing q value with
  | zero => simp [copyValue, Shows]
  | succ room ih =>
    cases value with
    | nil =>
      cases q with
      | nil => simp [copyValue, Shows]
      | cons c q =>
        rw [copyValue]
        split_ifs with ends
        · simp [Shows, ends]
        · simp [Shows, ends]
    | cons d value =>
      have here := free d List.mem_cons_self
      cases q with
      | nil => simp [copyValue, Shows]
      | cons c q =>
        rw [copyValue]
        have later : ∀ c ∈ value, c ≠ 38 ∧ c ≠ 32 := fun c listed =>
          free c (List.mem_cons_of_mem _ listed)
        have step := ih later q
        split_ifs with ends
        · simp only [Shows, List.take_succ_cons, List.cons_prefix_cons]
          constructor
          · intro empty
            cases empty
          · rintro ⟨⟨rfl, _⟩, _⟩
            rcases ends with amp | space
            · exact (here.1 amp).elim
            · exact (here.2 space).elim
        · simp only [Shows, List.take_succ_cons, List.cons_prefix_cons, List.cons.injEq] at step ⊢
          rw [step]
          simp only [List.length_cons, Nat.add_lt_add_iff_right, List.getElem?_cons_succ]
          constructor
          · rintro ⟨same, shown, behind⟩
            exact ⟨⟨same.symm, shown⟩, behind⟩
          · rintro ⟨⟨same, shown⟩, behind⟩
            exact ⟨same.symm, shown, behind⟩

end Searching

section Placing

variable (r : Request) (key : Text)

theorem cstr_append {front : Text} (free : ∀ c ∈ front, c ≠ 0) (back : Text) :
    cstr (front ++ back) = front ++ cstr back :=
  List.takeWhile_append_of_pos fun c listed => decide_eq_true (free c listed)

theorem pair_free (p : Param) : ∀ c ∈ pair p, c ≠ 0 := by
  intro c listed
  rcases List.mem_append.mp listed with inName | behind
  · exact (p.name.property c inName).1
  · rcases List.mem_cons.mp behind with rfl | inValue
    · decide
    · exact (p.value.property c inValue).1

theorem query_free (ps : List Param) : ∀ c ∈ query ps, c ≠ 0 := by
  induction ps with
  | nil => exact fun _ listed => (List.not_mem_nil listed).elim
  | cons p ps ih =>
    cases ps with
    | nil => exact pair_free p
    | cons q ps =>
      intro c listed
      rcases List.mem_append.mp listed with here | behind
      · exact pair_free p c here
      · rcases List.mem_cons.mp behind with rfl | later
        · decide
        · exact ih c later

theorem cstr_text : cstr r.text = r.head ++ 63 :: (query r.params ++ 32 :: cstr r.rest) := by
  have headFree : ∀ c ∈ r.head, c ≠ 0 := fun c listed => (r.headFree c listed).1
  have space : cstr (32 :: r.rest) = 32 :: cstr r.rest :=
    List.takeWhile_cons_of_pos (by decide)
  have mark : ∀ t, cstr (63 :: t) = 63 :: cstr t := fun t => List.takeWhile_cons_of_pos (by decide)
  rw [Request.text, cstr_append headFree, mark, cstr_append (query_free r.params), space]

theorem query_split {ps : List Param} {j : Nat} {p : Param} (listed : ps[j]? = some p) :
    ∃ tail, query ps = (ps.take j).flatMap (fun p => pair p ++ [38]) ++ (pair p ++ tail) ∧
      (tail = [] ∨ ∃ later, tail = 38 :: later) := by
  induction ps generalizing j with
  | nil => cases listed
  | cons q ps ih =>
    cases j with
    | zero =>
      obtain rfl := Option.some.inj listed
      cases ps with
      | nil => exact ⟨[], (List.append_nil _).symm, .inl rfl⟩
      | cons q' ps => exact ⟨38 :: query (q' :: ps), rfl, .inr ⟨_, rfl⟩⟩
    | succ j =>
      obtain ⟨tail, equal, ends⟩ := ih (j := j) listed
      cases ps with
      | nil => cases listed
      | cons q' ps =>
        refine ⟨tail, ?_, ends⟩
        rw [query, equal, List.take_succ_cons, List.flatMap_cons, List.append_assoc]
        simp only [List.append_assoc, List.cons_append, List.nil_append]

theorem text_split {j : Nat} {p : Param} (listed : r.params[j]? = some p) :
    ∃ tail, cstr r.text = r.before j ++ (p.name.val ++ 61 :: (p.value.val ++ tail)) ∧
      ∀ c, tail[0]? = some c → c = 38 ∨ c = 32 := by
  obtain ⟨tail, equal, ends⟩ := query_split listed
  refine ⟨tail ++ 32 :: cstr r.rest, ?_, ?_⟩
  · rw [cstr_text, equal, Request.before, pair]
    simp only [List.append_assoc, List.cons_append]
  · rcases ends with rfl | ⟨later, rfl⟩
    · intro c first
      exact .inr (Option.some.inj first).symm
    · intro c first
      exact .inl (Option.some.inj first).symm

theorem shows_own {value tail : Text} (ends : ∀ c, tail[0]? = some c → c = 38 ∨ c = 32)
    (room : Nat) : Shows (value ++ tail) value room := by
  refine ⟨(List.take_prefix room value).trans (List.prefix_append value tail), ?_⟩
  intro _ c behind
  rw [List.getElem?_append_right (Nat.le_refl _), Nat.sub_self] at behind
  exact ends c behind

/-- `q_param` gives the value of the first parameter with the name exactly if the request is not
disturbed. -/
theorem qParam_by_name_iff (r : Request) (key : Text) (max : Nat) :
    qParam r.text key max = r.param key max ↔ Undisturbed r key max := by
  unfold qParam Request.param Undisturbed
  cases found : r.find key with
  | none =>
    have absent : (r.params.find? fun p => p.name.val = key) = none := by
      rw [List.find?_eq_none]
      exact fun p listed => Bool.eq_false_iff.mp (List.findIdx?_eq_none_iff.mp found p listed)
    rw [absent]
    constructor
    · intro none i stands
      obtain ⟨i, first⟩ := exists_first ⟨i, stands⟩
      rw [search_first first] at none
      cases none
    · exact search_none
  | some j =>
    obtain ⟨inside, named, earlier⟩ := List.findIdx?_eq_some_iff_getElem.mp found
    have listed : r.params[j]? = some r.params[j] := List.getElem?_eq_getElem inside
    have present : (r.params.find? fun p => p.name.val = key) = some r.params[j] := by
      rw [List.find?_eq_some_iff_getElem]
      exact ⟨named, j, inside, rfl, fun k less => by simpa using earlier k less⟩
    have name : r.params[j].name.val = key := of_decide_eq_true named
    obtain ⟨tail, split, ends⟩ := text_split r listed
    rw [name] at split
    have here : (cstr r.text).drop (r.before j).length =
        key ++ 61 :: (r.params[j].value.val ++ tail) := by
      rw [split, List.drop_left]
    have stands : Stands (cstr r.text) key (r.before j).length :=
      (stands_iff _).mpr ⟨_, (behindKey_eq_some _ _).mpr here⟩
    have free : ∀ c ∈ r.params[j].value.val, c ≠ 38 ∧ c ≠ 32 := fun c listed =>
      ⟨(r.params[j].value.property c listed).2.2.1, (r.params[j].value.property c listed).2.1⟩
    obtain ⟨i, first⟩ := exists_first ⟨_, stands⟩
    rw [present, search_first first, Option.map_some, Option.some.injEq, copyValue_eq_iff free]
    constructor
    · intro shows k less firstK p at'
      obtain rfl : k = i := by
        rcases Nat.lt_trichotomy k i with less | equal | more
        · exact (first.2 k less firstK.1).elim
        · exact equal
        · exact (firstK.2 i more first.1).elim
      rw [listed] at at'
      rwa [← Option.some.inj at']
    · intro shows
      by_cases less : i < (r.before j).length
      · exact shows i less first _ listed
      · obtain rfl : i = (r.before j).length := by
          rcases Nat.lt_or_eq_of_le (Nat.not_lt.mp less) with before | equal
          · exact (first.2 _ before stands).elim
          · exact equal.symm
        rw [Nat.add_assoc, ← List.drop_drop, here]
        have length : key.length + 1 = (key ++ [61]).length := by simp
        rw [length, show key ++ 61 :: (r.params[j].value.val ++ tail) =
          key ++ [61] ++ (r.params[j].value.val ++ tail) by simp, List.drop_left]
        exact shows_own ends _

/-- `GET /bench?kind=fill&an=5&n=7 HTTP/1.0`, asked for `n`. -/
def longerName : Request where
  head := [71, 69, 84, 32, 47, 98, 101, 110, 99, 104]
  params :=
    [⟨⟨[107, 105, 110, 100], by simp⟩, ⟨[102, 105, 108, 108], by simp⟩⟩,
      ⟨⟨[97, 110], by simp⟩, ⟨[53], by simp⟩⟩, ⟨⟨[110], by simp⟩, ⟨[55], by simp⟩⟩]
  rest := [72, 84, 84, 80, 47, 49, 46, 48, 13, 10, 13, 10]
  headFree := by simp

/-- The name `an` ends with `n`, so its value is taken for that of `n`. -/
theorem longer_name_taken : longerName.param [110] 16 = some [55] ∧
    qParam longerName.text [110] 16 = some [53] ∧ qInt longerName.text [110] 0 = 5 := by
  decide

end Placing

end XinuRpi5.System.QueryParams
