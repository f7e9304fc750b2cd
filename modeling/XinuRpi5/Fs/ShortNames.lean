/- source: fs/fat32.c
   digest: The raw form of an 8.3 name determines the name up to case and a last dot. -/

import XinuRpi5.Fs.FatEntries

namespace XinuRpi5.Fs.ShortNames

open Fat32 FatEntries

/-- A base alone, or a base, a dot and an extension that may be empty. -/
structure Short (name base ext : List UInt8) : Prop where
  form : name = base ++ 46 :: ext ∨ name = base ∧ ext = []
  some : base ≠ []
  short : base.length ≤ 8
  shortExt : ext.length ≤ 3
  chars : ∀ c ∈ base ++ ext, c ≠ 0 ∧ c ≠ 32 ∧ c ≠ 46

def trimDot (name : List UInt8) : List UInt8 :=
  if name.getLast? = some 46 then name.dropLast else name

def SameIgnoringCase (s t : List UInt8) : Prop := s.map upper = t.map upper

variable {name base ext : List UInt8}

theorem upper_upper (c : UInt8) : upper (upper c) = upper c := by
  by_cases letter : 97 ≤ c ∧ c ≤ 122
  · obtain ⟨low, high, value⟩ := upper_letter letter
    have upperCase : ¬ (97 ≤ c - 32 ∧ c - 32 ≤ 122) := by
      rintro ⟨still, -⟩
      have still' : 97 ≤ (c - 32).toNat := UInt8.le_iff_toNat_le.mp still
      omega
    rw [show upper c = c - 32 from if_pos letter]
    exact if_neg upperCase
  · rw [show upper c = c from if_neg letter]
    exact if_neg letter

section

variable (short : Short name base ext)

include short

theorem Short.trimmed :
    trimDot name = if ext = [] then base else base ++ 46 :: ext := by
  have plainBase : ∀ c ∈ base, c ≠ 46 := fun c listed =>
    (short.chars c (List.mem_append_left ext listed)).2.2
  have plainExt : ∀ c ∈ ext, c ≠ 46 := fun c listed =>
    (short.chars c (List.mem_append_right base listed)).2.2
  obtain rfl | ⟨rfl, rfl⟩ := short.form
  · cases ext with
    | nil => simp [trimDot]
    | cons c ext =>
      have last : (base ++ 46 :: c :: ext).getLast? ≠ Option.some 46 := by
        rw [List.getLast?_append_of_ne_nil _ (by simp), List.getLast?_cons_cons]
        intro dot
        exact plainExt 46 (List.mem_of_getLast? dot) rfl
      simp only [trimDot, if_neg last, List.cons_ne_nil, if_false]
  · have last : name.getLast? ≠ Option.some 46 := fun dot =>
      plainBase 46 (List.mem_of_getLast? dot) rfl
    simp only [trimDot, if_neg last, if_true]

theorem Short.raw :
    nameTo83 name = pad 8 (base.map upper) ++ pad 3 (ext.map upper) :=
  nameTo83_parts (fun c listed => (short.chars c (List.mem_append_left ext listed)).2.2)
    short.short short.shortExt short.form

theorem Short.shown :
    format83 (nameTo83 name) = (trimDot name).map upper := by
  have plainBase := upper_visible fun c listed =>
    short.chars c (List.mem_append_left ext listed)
  have plainExt := upper_visible fun c listed =>
    short.chars c (List.mem_append_right base listed)
  have eight : (base.map upper).length ≤ 8 := by
    rw [List.length_map]
    exact short.short
  rw [short.raw, format83_parts plainBase plainExt eight, short.trimmed]
  cases ext with
  | nil => rfl
  | cons c ext =>
    have dot : upper 46 = 46 := rfl
    simp [dot]

theorem Short.upper :
    Short ((trimDot name).map upper) (base.map upper) (ext.map upper) where
  form := by
    rw [short.trimmed]
    cases ext with
    | nil => exact .inr ⟨rfl, rfl⟩
    | cons c ext =>
      have dot : Fat32.upper 46 = 46 := rfl
      exact .inl (by simp [dot])
  some := by simpa using short.some
  short := by
    rw [List.length_map]
    exact short.short
  shortExt := by
    rw [List.length_map]
    exact short.shortExt
  chars := by
    intro c listed
    rw [← List.map_append] at listed
    obtain ⟨d, member, rfl⟩ := List.mem_map.mp listed
    exact upper_ne (short.chars d member)

theorem Short.raw_shown :
    nameTo83 ((trimDot name).map Fat32.upper) = nameTo83 name := by
  have again : ∀ t : List UInt8, (t.map Fat32.upper).map Fat32.upper = t.map Fat32.upper := by
    intro t
    rw [List.map_map]
    exact List.map_congr_left fun c _ => upper_upper c
  rw [short.upper.raw, short.raw, again, again]

end

/-- Each 8.3 name reads back in capitals, without the dot of an empty extension, and
two names share their raw bytes exactly when what reads back is the same name up to case. -/
theorem short_names :
    (∀ name base ext, Short name base ext →
      format83 (nameTo83 name) = (trimDot name).map upper) ∧
    ∀ name base ext name' base' ext', Short name base ext → Short name' base' ext' →
      (nameTo83 name = nameTo83 name' ↔ SameIgnoringCase (trimDot name) (trimDot name')) := by
  refine ⟨fun _ _ _ short => short.shown, ?_⟩
  intro name base ext name' base' ext' short short'
  constructor
  · intro same
    rw [SameIgnoringCase, ← short.shown, ← short'.shown, same]
  · intro same
    rw [← short.raw_shown, ← short'.raw_shown, same]

theorem short_a_txt : Short [97, 46, 116] [97] [116] :=
  ⟨.inl rfl, by decide, by decide, by decide, by simp⟩

theorem short_names_a_txt :
    format83 (nameTo83 [97, 46, 116]) = [65, 46, 84] ∧
      nameTo83 [97, 46, 116] = nameTo83 [97, 46, 116] :=
  ⟨short_names.1 _ _ _ short_a_txt,
    (short_names.2 _ _ _ _ _ _ short_a_txt short_a_txt).mpr rfl⟩

/-- `a.` is shown as `A`, and shares its bytes with `a`. -/
theorem last_dot_lost :
    Short [97, 46] [97] [] ∧ Short [97] [97] [] ∧
      format83 (nameTo83 [97, 46]) ≠ ([97, 46] : List UInt8).map upper ∧
      nameTo83 [97, 46] = nameTo83 [97] ∧ ¬ SameIgnoringCase [97, 46] [97] := by
  refine ⟨⟨.inl rfl, by decide, by decide, by decide, by simp⟩,
    ⟨.inr ⟨rfl, rfl⟩, by decide, by decide, by decide, by simp⟩, by decide, by decide, ?_⟩
  rw [SameIgnoringCase]
  decide

end XinuRpi5.Fs.ShortNames
