/- source: device/video/basic.c
   digest: The program store keeps the last text typed for each line number, in order. -/

import Mathlib
import XinuRpi5.Video.Basic

namespace XinuRpi5.Video.BasicStore

open Basic (Str Line bIsdigit)

def maxProg : Nat := 320

def plineLen : Nat := 96

/-- `prog` and `nprog`. -/
structure Store where
  prog : Nat → Line
  nprog : Nat

def isBlank (text : Str) : Bool := text.all fun c => c == ' ' || c == '\t'

/-- `for (j = i; j < nprog - 1; j++) prog[j] = prog[j + 1]`, by the number of rounds. -/
def shiftDown : Nat → Nat → (Nat → Line) → Nat → Line
  | 0, _, prog => prog
  | rounds + 1, j, prog => shiftDown rounds (j + 1) (Function.update prog j (prog (j + 1)))

/-- `for (j = nprog; j > pos; j--) prog[j] = prog[j - 1]`. -/
def shiftUp (pos : Nat) : Nat → (Nat → Line) → Nat → Line
  | 0, prog => prog
  | j + 1, prog =>
    if pos < j + 1 then shiftUp pos j (Function.update prog (j + 1) (prog j)) else prog

def findLine (s : Store) (no : Nat) : Option Nat :=
  (List.range s.nprog).find? fun i => (s.prog i).no == no

def findAfter (s : Store) (no : Nat) : Nat :=
  ((List.range s.nprog).find? fun j => no < (s.prog j).no).getD s.nprog

def progSet (s : Store) (no : Nat) (text : Str) : Store :=
  match findLine s no with
  | some i =>
    if isBlank text then ⟨shiftDown (s.nprog - 1 - i) i s.prog, s.nprog - 1⟩
    else { s with prog := Function.update s.prog i ⟨(s.prog i).no, text.take (plineLen - 1)⟩ }
  | none =>
    if isBlank text then s
    else if maxProg ≤ s.nprog then s
    else
      let pos := findAfter s no
      ⟨Function.update (shiftUp pos s.nprog s.prog) pos ⟨no, text.take (plineLen - 1)⟩, s.nprog + 1⟩

def digitValue (c : Char) : Nat := c.toNat - '0'.toNat

/-- The number in front of a line, which is an `int`. -/
def lineNo (digits : Str) : Nat :=
  digits.foldl (fun no c => (no * 10 + digitValue c) % 2 ^ 32) 0

def typed (line : Str) : Str × Str :=
  let line := line.dropWhile fun c => c == ' ' || c == '\t'
  (line.takeWhile bIsdigit, (line.dropWhile bIsdigit).dropWhile fun c => c == ' ')

/-- `basic_exec_line`, for a line with a number. -/
def basicExecLine (s : Store) (line : Str) : Store :=
  if (typed line).1 = [] then s else progSet s (lineNo (typed line).1) (typed line).2

def decimal (digits : Str) : Nat := digits.foldl (fun no c => no * 10 + digitValue c) 0

def number (line : Str) : Nat := decimal (typed line).1

def entry (line : Str) : Option Str :=
  if isBlank (typed line).2 then none else some ((typed line).2.take (plineLen - 1))

def Stored (s : Store) (no : Nat) (text : Str) : Prop := ∃ j, j < s.nprog ∧ s.prog j = ⟨no, text⟩

def Refused (s : Store) (line : Str) : Prop :=
  maxProg ≤ s.nprog ∧ isBlank (typed line).2 = false ∧ findLine s (number line) = none

instance (s : Store) (line : Str) : Decidable (Refused s line) := inferInstanceAs (Decidable (_ ∧ _))

def accepted : Store → List Str → List Str
  | _, [] => []
  | s, line :: lines =>
    if Refused s line then accepted s lines
    else line :: accepted (basicExecLine s line) lines

def lastTyped (lines : List Str) (no : Nat) : Option Str :=
  (lines.filter fun line => number line = no).getLast?.bind entry

theorem shiftDown_apply (rounds i k : Nat) (prog : Nat → Line) :
    shiftDown rounds i prog k = if i ≤ k ∧ k < i + rounds then prog (k + 1) else prog k := by
  induction rounds generalizing i prog with
  | zero => rw [shiftDown, if_neg (by omega)]
  | succ rounds ih =>
    rw [shiftDown, ih]
    by_cases here : k = i
    · subst here
      rw [if_neg (by omega), Function.update_self, if_pos (by omega)]
    · rw [Function.update_of_ne here]
      split_ifs with moved inside inside
      · rw [Function.update_of_ne (by omega)]
      · omega
      · omega
      · rfl

theorem shiftUp_apply (pos n k : Nat) (prog : Nat → Line) :
    shiftUp pos n prog k = if pos < k ∧ k ≤ n then prog (k - 1) else prog k := by
  induction n generalizing prog with
  | zero => rw [shiftUp, if_neg (by omega)]
  | succ n ih =>
    rw [shiftUp]
    split_ifs with more inside inside
    · rw [ih]
      by_cases top : k = n + 1
      · subst top
        rw [if_neg (by omega), Function.update_self, Nat.add_sub_cancel]
      · rw [if_pos (by omega), Function.update_of_ne (by omega)]
    · rw [ih, if_neg (by omega), Function.update_of_ne (by omega)]
    · omega
    · rfl

theorem lineNo_eq {digits : Str} (small : decimal digits < 2 ^ 31) :
    lineNo digits = decimal digits := by
  have wrap : ∀ (digits : Str) (a : Nat),
      digits.foldl (fun no c => (no * 10 + digitValue c) % 2 ^ 32) (a % 2 ^ 32) =
        digits.foldl (fun no c => no * 10 + digitValue c) a % 2 ^ 32 := by
    intro digits
    induction digits with
    | nil => exact fun _ => rfl
    | cons c digits ih =>
      intro a
      rw [List.foldl_cons, List.foldl_cons, ← ih]
      congr 1
      omega
  have whole := wrap digits 0
  rw [Nat.zero_mod] at whole
  rw [lineNo, whole, ← decimal]
  omega

section Steps

def Sorted (s : Store) : Prop :=
  ∀ j k, j < k → k < s.nprog → (s.prog j).no < (s.prog k).no

variable {s : Store} {no : Nat}

theorem Sorted.injective (sorted : Sorted s) {j k : Nat} (inside : j < s.nprog)
    (inside' : k < s.nprog) (same : (s.prog j).no = (s.prog k).no) : j = k := by
  rcases Nat.lt_trichotomy j k with less | eq | greater
  · exact absurd same (Nat.ne_of_lt (sorted j k less inside'))
  · exact eq
  · exact absurd same (Nat.ne_of_gt (sorted k j greater inside))

theorem findLine_some {i : Nat} (found : findLine s no = some i) :
    i < s.nprog ∧ (s.prog i).no = no :=
  ⟨List.mem_range.mp (List.mem_of_find?_eq_some found), by
    simpa using List.find?_some found⟩

theorem findLine_none (found : findLine s no = none) {j : Nat} (inside : j < s.nprog) :
    (s.prog j).no ≠ no := by
  simpa using List.find?_eq_none.mp found j (List.mem_range.mpr inside)

theorem findAfter_spec (sorted : Sorted s) (absent : findLine s no = none) :
    findAfter s no ≤ s.nprog ∧ (∀ j, j < findAfter s no → (s.prog j).no < no) ∧
      ∀ j, findAfter s no ≤ j → j < s.nprog → no < (s.prog j).no := by
  have other {j : Nat} (inside : j < s.nprog) := findLine_none absent inside
  rw [findAfter]
  cases found : (List.range s.nprog).find? fun j => no < (s.prog j).no with
  | none =>
    refine ⟨Nat.le_refl _, fun j inside => ?_, fun j above inside => absurd inside (by simpa using above)⟩
    have low := List.find?_eq_none.mp found j (List.mem_range.mpr inside)
    have apart := other inside
    simp only [decide_eq_true_eq] at low
    omega
  | some i =>
    have inside : i < s.nprog := List.mem_range.mp (List.mem_of_find?_eq_some found)
    have above : no < (s.prog i).no := by simpa using List.find?_some found
    refine ⟨Nat.le_of_lt inside, fun j below => ?_, fun j least inside' => ?_⟩
    · have low := (List.find?_range_eq_some.mp found).2.2 j below
      have apart := other (Nat.lt_trans below inside)
      simp only [Bool.not_eq_true', decide_eq_false_iff_not] at low
      omega
    · rcases Nat.eq_or_lt_of_le least with rfl | later
      · exact above
      · exact Nat.lt_trans above (sorted i j later inside')

/-- What setting a line leaves: the order, and for its number the new entry. -/
structure Sets (s s' : Store) (no : Nat) (text : Option Str) : Prop where
  sorted : Sorted s'
  stored : ∀ n t, Stored s' n t ↔ if n = no then text = some t else Stored s n t

theorem Sorted.delete (sorted : Sorted s) {i : Nat} (inside : i < s.nprog) :
    Sets s ⟨shiftDown (s.nprog - 1 - i) i s.prog, s.nprog - 1⟩ (s.prog i).no none := by
  have entry (k : Nat) (within : k < s.nprog - 1) :
      shiftDown (s.nprog - 1 - i) i s.prog k = s.prog (if k < i then k else k + 1) := by
    rw [shiftDown_apply]
    split_ifs <;> first | rfl | omega
  constructor
  · intro j k less within
    simp only at within
    simp only [entry j (by omega), entry k within]
    apply sorted <;> split_ifs <;> omega
  · intro n t
    constructor
    · rintro ⟨k, within, eq⟩
      simp only at within eq
      rw [entry k within] at eq
      have other : n ≠ (s.prog i).no := by
        rintro rfl
        have same := sorted.injective (j := if k < i then k else k + 1) (k := i)
          (by split_ifs <;> omega) inside (by rw [eq])
        split_ifs at same <;> omega
      rw [if_neg other]
      exact ⟨_, by split_ifs <;> omega, eq⟩
    · intro kept
      have other : n ≠ (s.prog i).no := by
        rintro rfl
        rw [if_pos rfl] at kept
        cases kept
      rw [if_neg other] at kept
      obtain ⟨k, within, eq⟩ := kept
      have apart : k ≠ i := by
        rintro rfl
        exact other (by rw [eq])
      by_cases front : k < i
      · refine ⟨k, by simp only; omega, (entry k (by omega)).trans ?_⟩
        rw [if_pos front, eq]
      · refine ⟨k - 1, by simp only; omega, (entry (k - 1) (by omega)).trans ?_⟩
        rw [if_neg (by omega), Nat.sub_add_cancel (by omega), eq]

theorem Sorted.replace (sorted : Sorted s) {i : Nat} (inside : i < s.nprog) (text : Str) :
    Sets s { s with prog := Function.update s.prog i ⟨(s.prog i).no, text⟩ } (s.prog i).no
      (some text) := by
  have number (k : Nat) :
      (Function.update s.prog i ⟨(s.prog i).no, text⟩ k).no = (s.prog k).no := by
    by_cases same : k = i
    · rw [same, Function.update_self]
    · rw [Function.update_of_ne same]
  constructor
  · intro j k less within
    simp only [number]
    exact sorted j k less within
  · intro n t
    constructor
    · rintro ⟨k, within, eq⟩
      have no := congrArg Line.no eq
      simp only [number] at no
      by_cases same : k = i
      · subst same
        rw [if_pos no.symm]
        simp only [Function.update_self] at eq
        rw [(Line.mk.inj eq).2]
      · rw [if_neg fun eq => same (sorted.injective within inside (no.trans eq))]
        simp only [Function.update_of_ne same] at eq
        exact ⟨k, within, eq⟩
    · intro kept
      split_ifs at kept with same
      · cases kept
        exact ⟨i, inside, by simp only [Function.update_self, same]⟩
      · obtain ⟨k, within, eq⟩ := kept
        refine ⟨k, within, ?_⟩
        rw [← eq]
        exact Function.update_of_ne (fun is => same (by rw [← is, eq])) _ _

theorem Sorted.insert (sorted : Sorted s) (absent : findLine s no = none) (text : Str) :
    Sets s ⟨Function.update (shiftUp (findAfter s no) s.nprog s.prog) (findAfter s no) ⟨no, text⟩,
      s.nprog + 1⟩ no (some text) := by
  obtain ⟨room, below, above⟩ := findAfter_spec sorted absent
  generalize findAfter s no = pos at *
  have front (k : Nat) (less : k < pos) :
      Function.update (shiftUp pos s.nprog s.prog) pos ⟨no, text⟩ k = s.prog k := by
    rw [Function.update_of_ne (by omega), shiftUp_apply, if_neg (by omega)]
  have behind (k : Nat) (least : pos ≤ k) (within : k < s.nprog) :
      Function.update (shiftUp pos s.nprog s.prog) pos ⟨no, text⟩ (k + 1) = s.prog k := by
    rw [Function.update_of_ne (by omega), shiftUp_apply, if_pos (by omega), Nat.add_sub_cancel]
  -- a place of the new table is a place of the old one or the new line's
  have place (k : Nat) (within : k < s.nprog + 1) : k = pos ∨
      ∃ j, j < s.nprog ∧ k = (if j < pos then j else j + 1) := by
    by_cases same : k = pos
    · exact .inl same
    · by_cases less : k < pos
      · exact .inr ⟨k, by omega, by rw [if_pos less]⟩
      · exact .inr ⟨k - 1, by omega, by rw [if_neg (by omega)]; omega⟩
  have entry (j : Nat) (within : j < s.nprog) :
      Function.update (shiftUp pos s.nprog s.prog) pos ⟨no, text⟩ (if j < pos then j else j + 1) =
        s.prog j := by
    split_ifs with less
    · exact front j less
    · exact behind j (by omega) within
  constructor
  · intro a b less within
    simp only at within ⊢
    rcases place a (by omega) with rfl | ⟨j, inside, rfl⟩
    · rcases place b within with rfl | ⟨k, inside', rfl⟩
      · omega
      · rw [Function.update_self, entry k inside']
        exact above k (by split_ifs at less <;> omega) inside'
    · rcases place b within with rfl | ⟨k, inside', rfl⟩
      · rw [Function.update_self, entry j inside]
        exact below j (by split_ifs at less <;> omega)
      · rw [entry j inside, entry k inside']
        exact sorted j k (by split_ifs at less <;> omega) inside'
  · intro n t
    constructor
    · rintro ⟨k, within, eq⟩
      simp only at within eq
      rcases place k within with rfl | ⟨j, inside, rfl⟩
      · rw [Function.update_self] at eq
        cases eq
        rw [if_pos rfl]
      · rw [entry j inside] at eq
        have other : n ≠ no := fun same => findLine_none absent inside (by rw [eq, same])
        rw [if_neg other]
        exact ⟨j, inside, eq⟩
    · intro kept
      split_ifs at kept with same
      · cases kept
        exact ⟨pos, by simp only; omega, by simp only [Function.update_self, same]⟩
      · obtain ⟨j, inside, eq⟩ := kept
        exact ⟨_, by simp only; split_ifs <;> omega, (entry j inside).trans eq⟩

variable {line : Str}

theorem basicExecLine_sets (sorted : Sorted s) (numbered : (typed line).1 ≠ [])
    (small : number line < 2 ^ 31) (taken : ¬ Refused s line) :
    Sets s (basicExecLine s line) (number line) (entry line) := by
  rw [basicExecLine, if_neg numbered, lineNo_eq small, ← number, progSet, entry]
  cases found : findLine s (number line) with
  | some i =>
    obtain ⟨inside, same⟩ := findLine_some found
    simp only
    rw [← same]
    split_ifs with blank
    · exact sorted.delete inside
    · exact sorted.replace inside _
  | none =>
    simp only
    split_ifs with blank full
    · refine ⟨sorted, fun n t => ⟨fun stored => ?_, fun kept => ?_⟩⟩
      · have other : n ≠ number line := by
          obtain ⟨j, inside, eq⟩ := stored
          rintro rfl
          exact findLine_none found inside (by rw [eq])
        rwa [if_neg other]
      · split_ifs at kept
        exact kept
    · exact absurd ⟨full, by simpa using blank, found⟩ taken
    · exact sorted.insert found _

theorem basicExecLine_refused (small : number line < 2 ^ 31) (refused : Refused s line) :
    basicExecLine s line = s := by
  obtain ⟨full, some', absent⟩ := refused
  rw [basicExecLine]
  split_ifs
  · rfl
  · rw [lineNo_eq small, ← number, progSet, absent]
    simp only [some', Bool.false_eq_true, if_false, if_pos full]

theorem lastTyped_snoc (lines : List Str) (line : Str) (no : Nat) :
    lastTyped (lines ++ [line]) no = if no = number line then entry line else lastTyped lines no := by
  rw [lastTyped, List.filter_append]
  by_cases same : no = number line
  · simp [same]
  · simp [same, Ne.symm same, lastTyped]

end Steps

/-- A line that starts, behind its blanks, with a number below `2 ^ 31`. -/
def Numbered (line : Str) : Prop := (typed line).1 ≠ [] ∧ number line < 2 ^ 31

theorem run_accepted (lines : List Str) (numbered : ∀ line ∈ lines, Numbered line) (s : Store)
    (seen : List Str) (sorted : Sorted s)
    (map : ∀ n t, Stored s n t ↔ lastTyped seen n = some t) :
    Sorted (lines.foldl basicExecLine s) ∧ ∀ n t, Stored (lines.foldl basicExecLine s) n t ↔
      lastTyped (seen ++ accepted s lines) n = some t := by
  induction lines generalizing s seen with
  | nil =>
    rw [accepted, List.append_nil]
    exact ⟨sorted, map⟩
  | cons line lines ih =>
    obtain ⟨starts, small⟩ := numbered line List.mem_cons_self
    have later : ∀ line ∈ lines, Numbered line := fun l listed =>
      numbered l (List.mem_cons_of_mem _ listed)
    rw [accepted, List.foldl_cons]
    split_ifs with refused
    · rw [basicExecLine_refused small refused]
      exact ih later s seen sorted map
    · have sets := basicExecLine_sets sorted starts small refused
      have next := ih later _ (seen ++ [line]) sets.sorted fun n t => by
        rw [sets.stored, lastTyped_snoc]
        split_ifs
        · exact Iff.rfl
        · exact map n t
      rwa [List.append_assoc, List.singleton_append] at next

/-- After any history of numbered lines the numbers stand in strictly increasing
order, each with what the last accepted line for it left; a line is refused only when
it brings a new number to a full table, and then nothing changes. -/
theorem program_store (prog : Nat → Line) (lines : List Str)
    (numbered : ∀ line ∈ lines, Numbered line) :
    let s := lines.foldl basicExecLine ⟨prog, 0⟩
    Sorted s ∧
      (∀ n t, Stored s n t ↔ lastTyped (accepted ⟨prog, 0⟩ lines) n = some t) ∧
      ∀ line, Numbered line →
        (Refused s line → basicExecLine s line = s) ∧
        (¬ Refused s line → ∀ n t, Stored (basicExecLine s line) n t ↔
          if n = number line then entry line = some t else Stored s n t) := by
  have empty : Sorted ⟨prog, 0⟩ := fun _ k _ inside => absurd inside (Nat.not_lt_zero k)
  have none' : ∀ n t, Stored ⟨prog, 0⟩ n t ↔ lastTyped [] n = some t := by
    intro n t
    exact ⟨fun ⟨j, inside, _⟩ => absurd inside (Nat.not_lt_zero j), nofun⟩
  obtain ⟨sorted, map⟩ := run_accepted lines numbered ⟨prog, 0⟩ [] empty none'
  refine ⟨sorted, map, fun line ⟨starts, small⟩ => ⟨basicExecLine_refused small, fun taken => ?_⟩⟩
  exact (basicExecLine_sets sorted starts small taken).stored

def threeLines : List Str := ["20 A".toList, "10 B".toList, "20".toList]

/-- `20 A`, then `10 B`, then `20` alone: the first line is gone. -/
theorem program_store_three :
    Stored (threeLines.foldl basicExecLine ⟨fun _ => ⟨0, []⟩, 0⟩) 10 "B".toList := by
  have all : ∀ line ∈ threeLines, (typed line).1 ≠ [] ∧ number line < 2 ^ 31 := by decide
  have last : lastTyped (accepted ⟨fun _ => ⟨0, []⟩, 0⟩ threeLines) 10 = some "B".toList := by
    decide
  exact ((program_store (fun _ => ⟨0, []⟩) threeLines all).2.1 10 _).mpr last

end XinuRpi5.Video.BasicStore
