/- source: none (library)
   digest: Tables of bounded size that number names and keep a cut form of each. -/

import Mathlib.Data.List.Nodup
import Mathlib.Data.List.Induction

/-!
A name is looked up under a key, which is the name itself or what was left of it. A key
that is not in the table gets the next number while there is room, and 0 after that; what
is stored is the cut form of the key.
-/

namespace XinuRpi5.Lib.NameTable

variable {α : Type} [DecidableEq α]

def number (cut : α → α) (room : Nat) (table : List α) (key : α) : Nat × List α :=
  match table.findIdx? (· = key) with
  | some i => (i, table)
  | none => if table.length < room then (table.length, table ++ [cut key]) else (0, table)

structure Asked (α : Type) where
  name : α
  key : α
  num : Nat

inductive Numbered (cut : α → α) (room : Nat) : List α → List (Asked α) → Prop
  | nil : Numbered cut room [] []
  | ask {table : List α} {asked : List (Asked α)} (name key : α) (same : cut key = cut name)
      (before : Numbered cut room table asked) :
      Numbered cut room (number cut room table key).2
        (asked ++ [⟨name, key, (number cut room table key).1⟩])

def Faithful (asked : List (Asked α)) : Prop :=
  ∀ a ∈ asked, ∀ b ∈ asked, a.num = b.num ↔ a.name = b.name

instance (asked : List (Asked α)) : Decidable (Faithful asked) :=
  inferInstanceAs (Decidable (∀ a ∈ asked, ∀ b ∈ asked, a.num = b.num ↔ a.name = b.name))

def firsts (asked : List (Asked α)) : List α :=
  asked.foldl (fun seen a => if a.name ∈ seen then seen else seen ++ [a.name]) []

/-- After the names of `seen`, the first of them that is stored as the key is the name that
is meant, or none is and the name is new. In a full table the first name gets its number 0
also when its key is not stored. -/
def Clear (cut : α → α) (room : Nat) (seen : List α) (a : Asked α) : Prop :=
  seen.find? (fun name => cut name = a.key) = (if a.name ∈ seen then some a.name else none) ∨
  seen.find? (fun name => cut name = a.key) = none ∧ seen.length = room ∧ seen.head? = some a.name

def Fits (cut : α → α) (room : Nat) (asked : List (Asked α)) : Prop :=
  (firsts asked).length ≤ room ∧
    ∀ before a after, asked = before ++ a :: after → Clear cut room (firsts before) a

theorem firsts_snoc (asked : List (Asked α)) (a : Asked α) :
    firsts (asked ++ [a]) =
      if a.name ∈ firsts asked then firsts asked else firsts asked ++ [a.name] := by
  unfold firsts
  rw [List.foldl_append]
  rfl

theorem firsts_old {asked : List (Asked α)} {a : Asked α} (old : a.name ∈ firsts asked) :
    firsts (asked ++ [a]) = firsts asked := by
  rw [firsts_snoc, if_pos old]

theorem firsts_new {asked : List (Asked α)} {a : Asked α} (new : a.name ∉ firsts asked) :
    firsts (asked ++ [a]) = firsts asked ++ [a.name] := by
  rw [firsts_snoc, if_neg new]

theorem firsts_nodup (asked : List (Asked α)) : (firsts asked).Nodup := by
  induction asked using List.reverseRecOn with
  | nil => exact List.nodup_nil
  | append_singleton asked a ih =>
    by_cases old : a.name ∈ firsts asked
    · rw [firsts_old old]
      exact ih
    · rw [firsts_new old, List.nodup_append]
      refine ⟨ih, List.nodup_singleton _, ?_⟩
      rintro x listed y last rfl
      exact old (List.mem_singleton.mp last ▸ listed)

theorem mem_firsts (asked : List (Asked α)) (name : α) :
    name ∈ firsts asked ↔ ∃ a ∈ asked, a.name = name := by
  induction asked using List.reverseRecOn with
  | nil => exact ⟨fun listed => absurd listed List.not_mem_nil, fun ⟨_, listed, _⟩ =>
    absurd listed List.not_mem_nil⟩
  | append_singleton asked a ih =>
    have split : (∃ b ∈ asked ++ [a], b.name = name) ↔
        (∃ b ∈ asked, b.name = name) ∨ a.name = name := by
      simp only [List.mem_append, List.mem_singleton, or_and_right, exists_or, exists_eq_left]
    rw [split, ← ih]
    by_cases old : a.name ∈ firsts asked
    · rw [firsts_old old]
      exact ⟨Or.inl, fun either => either.elim id fun same => same ▸ old⟩
    · rw [firsts_new old, List.mem_append, List.mem_singleton, eq_comm]

theorem firsts_le (asked : List (Asked α)) (a : Asked α) :
    (firsts asked).length ≤ (firsts (asked ++ [a])).length := by
  rw [firsts_snoc]
  split
  · exact Nat.le_refl _
  · rw [List.length_append]
    exact Nat.le_add_right _ _

section Conditions

variable {cut : α → α} {room : Nat} {asked : List (Asked α)} {a : Asked α}

theorem fits_snoc : Fits cut room (asked ++ [a]) ↔
    Fits cut room asked ∧ (firsts (asked ++ [a])).length ≤ room ∧
      Clear cut room (firsts asked) a := by
  constructor
  · rintro ⟨few, clear⟩
    refine ⟨⟨Nat.le_trans (firsts_le asked a) few, fun before b after equal => ?_⟩, few,
      clear asked a [] rfl⟩
    refine clear before b (after ++ [a]) ?_
    rw [equal, List.append_assoc, List.cons_append]
  · rintro ⟨⟨_, clear⟩, few, last⟩
    refine ⟨few, fun before b after equal => ?_⟩
    rcases List.eq_nil_or_concat after with rfl | ⟨init, c, rfl⟩
    · obtain ⟨rfl, same⟩ := List.append_inj' equal rfl
      obtain rfl := (List.cons.inj same).1
      exact last
    · rw [List.concat_eq_append, ← List.cons_append, ← List.append_assoc] at equal
      exact clear before b init (List.append_inj' equal rfl).1

omit [DecidableEq α] in
theorem faithful_of_snoc (faithful : Faithful (asked ++ [a])) : Faithful asked :=
  fun b listed c listed' =>
    faithful b (List.mem_append_left _ listed) c (List.mem_append_left _ listed')

/-- The numbers are the places of the names in the order of their first lookups. -/
def Placed (asked : List (Asked α)) : Prop := ∀ a ∈ asked, (firsts asked)[a.num]? = some a.name

variable (placed : Placed asked)

include placed

theorem Placed.faithful : Faithful asked := by
  intro a listed b listed'
  have left := placed a listed
  have right := placed b listed'
  constructor
  · intro same
    rw [same, right] at left
    exact (Option.some.inj left).symm
  · intro same
    refine (List.getElem?_inj (List.getElem?_eq_some_iff.mp left).1 (firsts_nodup asked)).mp ?_
    rw [left, right, same]

theorem Placed.asked_at {i : Nat} {name : α} (at' : (firsts asked)[i]? = some name) :
    ∃ a ∈ asked, a.name = name ∧ a.num = i := by
  obtain ⟨a, listed, rfl⟩ := (mem_firsts asked name).mp (List.mem_of_getElem? at')
  refine ⟨a, listed, rfl, ?_⟩
  have placed := placed a listed
  refine (List.getElem?_inj (List.getElem?_eq_some_iff.mp placed).1 (firsts_nodup asked)).mp ?_
  rw [placed, at']

theorem Placed.snoc_old (at' : (firsts asked)[a.num]? = some a.name) :
    Placed (asked ++ [a]) := by
  intro b listed
  rw [firsts_old (List.mem_of_getElem? at')]
  rcases List.mem_append.mp listed with early | last
  · exact placed b early
  · rw [List.mem_singleton.mp last]
    exact at'

theorem Placed.snoc_new (new : a.name ∉ firsts asked) (num : a.num = (firsts asked).length) :
    Placed (asked ++ [a]) := by
  intro b listed
  rw [firsts_new new]
  rcases List.mem_append.mp listed with early | last
  · have before := placed b early
    rw [List.getElem?_append_left (List.getElem?_eq_some_iff.mp before).1]
    exact before
  · rw [List.mem_singleton.mp last, num, List.getElem?_concat_length]

end Conditions

section Lookups

variable {cut : α → α} {room : Nat} {table : List α} {asked : List (Asked α)}

variable {key : α}

theorem number_found {i : Nat} (found : table.findIdx? (· = key) = some i) :
    number cut room table key = (i, table) := by
  unfold number
  rw [found]

theorem number_new (missing : table.findIdx? (· = key) = none)
    (fits : table.length < room) :
    number cut room table key = (table.length, table ++ [cut key]) := by
  unfold number
  rw [missing]
  exact if_pos fits

theorem number_full (missing : table.findIdx? (· = key) = none)
    (full : ¬ table.length < room) : number cut room table key = (0, table) := by
  unfold number
  rw [missing]
  exact if_neg full

theorem findIdx_map (cut : α → α) (seen : List α) (key : α) :
    (seen.map cut).findIdx? (· = key) = seen.findIdx? fun name => cut name = key := by
  rw [List.findIdx?_map]
  rfl

omit [DecidableEq α] in
theorem find_places (seen : List α) (p : α → Bool) :
    seen.find? p = (seen.findIdx? p).bind (seen[·]?) := List.find?_eq_bind_findIdx?_getElem?

theorem number_stays {other : α} {i : Nat} (found : table.findIdx? (· = key) = some i) :
    (number cut room table other).2.findIdx? (· = key) = some i := by
  unfold number
  split
  · exact found
  · split
    · rw [List.findIdx?_append, found]
      rfl
    · exact found

theorem number_again (short : cut key = key) :
    number cut room (number cut room table key).2 key =
      ((number cut room table key).1, (number cut room table key).2) := by
  cases found : table.findIdx? (· = key) with
  | some i => rw [number_found found, number_found found]
  | none =>
    by_cases fits : table.length < room
    · rw [number_new found fits]
      refine number_found ?_
      rw [List.findIdx?_append, found, short]
      simp
    · rw [number_full found fits, number_full found fits]

variable (run : Numbered cut room table asked)

include run

theorem Numbered.again {a : Asked α} (listed : a ∈ asked) (short : cut a.key = a.key) :
    number cut room table a.key = (a.num, table) := by
  have repeated : ∀ {old : List α} {other : α}, number cut room old a.key = (a.num, old) →
      number cut room (number cut room old other).2 a.key =
        (a.num, (number cut room old other).2) := by
    intro old other known
    cases found : old.findIdx? (· = a.key) with
    | some i =>
      rw [number_found found] at known
      rw [number_found (number_stays found), ← (Prod.mk.inj known).1]
    | none =>
      by_cases fits : old.length < room
      · rw [number_new found fits] at known
        have longer := congrArg List.length (Prod.mk.inj known).2
        rw [List.length_append] at longer
        exact absurd longer (Nat.succ_ne_self _)
      · have same : (number cut room old other).2 = old := by
          cases here : old.findIdx? (· = other) with
          | some i => rw [number_found here]
          | none => rw [number_full here fits]
        rw [same]
        exact known
  induction run with
  | nil => exact absurd listed List.not_mem_nil
  | @ask table asked name key same before ih =>
    rcases List.mem_append.mp listed with early | last
    · exact repeated (ih early)
    · obtain rfl := List.mem_singleton.mp last
      exact number_again short

/-- While every lookup is clear the table has the cut names in order. -/
theorem Numbered.placed (fits : Fits cut room asked) :
    table = (firsts asked).map cut ∧ Placed asked := by
  induction run with
  | nil => exact ⟨rfl, fun a listed => absurd listed List.not_mem_nil⟩
  | @ask table asked name key same before ih =>
    obtain ⟨earlier, few, clear⟩ := fits_snoc.mp fits
    obtain ⟨rfl, placed⟩ := ih earlier
    have lookup := findIdx_map cut (firsts asked) key
    have find := find_places (firsts asked) fun name => decide (cut name = key)
    cases found : (firsts asked).findIdx? fun name => decide (cut name = key) with
    | some i =>
      rw [found] at lookup find
      rw [number_found lookup]
      have hit : (firsts asked)[i]? = some name := by
        have there : i < (firsts asked).length := (List.findIdx?_eq_some_iff_getElem.mp found).1
        rcases clear with clear | ⟨none, -⟩
        · rw [find] at clear
          by_cases old : name ∈ firsts asked
          · rw [if_pos old] at clear
            exact clear
          · rw [if_neg old] at clear
            exact absurd (List.getElem?_eq_none_iff.mp clear) (Nat.not_le.mpr there)
        · rw [find] at none
          exact absurd (List.getElem?_eq_none_iff.mp none) (Nat.not_le.mpr there)
      have old : name ∈ firsts asked := List.mem_of_getElem? hit
      exact ⟨by rw [firsts_old old], placed.snoc_old hit⟩
    | none =>
      rw [found] at lookup find
      rcases clear with clear | ⟨-, full, head⟩
      · have new : name ∉ firsts asked := by
          intro old
          rw [find, if_pos old] at clear
          exact absurd clear.symm (Option.some_ne_none name)
        rw [firsts_new new, List.length_append] at few
        have space : ((firsts asked).map cut).length < room := by
          rw [List.length_map]
          exact few
        rw [number_new lookup space]
        refine ⟨?_, placed.snoc_new new (List.length_map _)⟩
        rw [firsts_new new, List.map_append, List.map_singleton, same]
      · have space : ¬ ((firsts asked).map cut).length < room := by
          rw [List.length_map, full]
          exact Nat.lt_irrefl room
        rw [number_full lookup space]
        have hit : (firsts asked)[0]? = some name := by
          rw [← List.head?_eq_getElem?]
          exact head
        have old : name ∈ firsts asked := List.mem_of_getElem? hit
        exact ⟨by rw [firsts_old old], placed.snoc_old hit⟩

/-- A table with room tells names apart only when every lookup is clear. -/
theorem Numbered.fits (some : 0 < room) (faithful : Faithful asked) : Fits cut room asked := by
  induction run with
  | nil => exact ⟨Nat.zero_le _, fun before a after equal => by cases before <;> cases equal⟩
  | @ask table asked name key same before ih =>
    have earlier := ih (faithful_of_snoc faithful)
    obtain ⟨rfl, placed⟩ := before.placed earlier
    have last : ∀ b ∈ asked, (number cut room ((firsts asked).map cut) key).1 = b.num ↔
        name = b.name := fun b listed =>
      faithful _ (List.mem_append_right _ List.mem_cons_self) b (List.mem_append_left _ listed)
    have lookup := findIdx_map cut (firsts asked) key
    have find := find_places (firsts asked) fun name => decide (cut name = key)
    refine fits_snoc.mpr ⟨earlier, ?_⟩
    cases found : (firsts asked).findIdx? fun name => decide (cut name = key) with
    | some i =>
      rw [found] at lookup find
      have there : i < (firsts asked).length := (List.findIdx?_eq_some_iff_getElem.mp found).1
      obtain ⟨b, listed, meant, num⟩ := placed.asked_at (List.getElem?_eq_getElem there)
      have own : name = b.name := (last b listed).mp (by rw [number_found lookup, num])
      have old : name ∈ firsts asked := (mem_firsts asked name).mpr ⟨b, listed, own.symm⟩
      refine ⟨?_, .inl ?_⟩
      · rw [firsts_old old]
        exact earlier.1
      · rw [find, if_pos old]
        change (firsts asked)[i]? = _
        rw [List.getElem?_eq_getElem there, own, meant]
    | none =>
      rw [found] at lookup find
      by_cases space : ((firsts asked).map cut).length < room
      · have new : name ∉ firsts asked := by
          intro old
          obtain ⟨b, listed, own⟩ := (mem_firsts asked name).mp old
          have equal := (last b listed).mpr own.symm
          rw [number_new lookup space, List.length_map] at equal
          have inside := (List.getElem?_eq_some_iff.mp (placed b listed)).1
          exact absurd inside (equal ▸ Nat.lt_irrefl _)
        refine ⟨?_, .inl ?_⟩
        · rw [firsts_new new, List.length_append]
          rw [List.length_map] at space
          exact space
        · rw [find, if_neg new]
          rfl
      · have full : (firsts asked).length = room := by
          rw [List.length_map] at space
          exact Nat.le_antisymm earlier.1 (Nat.not_lt.mp space)
        have there : 0 < (firsts asked).length := full ▸ some
        obtain ⟨b, listed, meant, num⟩ := placed.asked_at (List.getElem?_eq_getElem there)
        have own : name = b.name := (last b listed).mp (by rw [number_full lookup space, num])
        have old : name ∈ firsts asked := (mem_firsts asked name).mpr ⟨b, listed, own.symm⟩
        refine ⟨?_, .inr ⟨find, full, ?_⟩⟩
        · rw [firsts_old old]
          exact earlier.1
        · rw [List.head?_eq_getElem?, List.getElem?_eq_getElem there, own, meant]

theorem Numbered.faithful_iff (some : 0 < room) :
    Faithful asked ↔ Fits cut room asked :=
  ⟨run.fits some, fun fits => (run.placed fits).2.faithful⟩

end Lookups

end XinuRpi5.Lib.NameTable
