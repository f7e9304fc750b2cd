/- source: fs/fat32.c
   digest: 8.3 names, directory slots and what writing one entry changes. -/

import Mathlib.Data.List.GetD
import Mathlib.Data.List.TakeWhile
import XinuRpi5.Fs.FatChains

namespace XinuRpi5.Fs.FatEntries

open Lib.LinkedChain Fat32 FatChains

section Names

/-- A base of one to eight characters, and an extension of at most three behind a
dot unless it is empty. -/
structure Is83 (name base ext : List UInt8) : Prop where
  split : name = if ext = [] then base else base ++ 46 :: ext
  some : base ≠ []
  short : base.length ≤ 8
  shortExt : ext.length ≤ 3
  chars : ∀ c ∈ base ++ ext, c ≠ 0 ∧ c ≠ 32 ∧ c ≠ 46
  first : base.head? ≠ Option.some 229

variable {name base ext : List UInt8}

theorem pad_length {n : Nat} {s : List UInt8} (short : s.length ≤ n) : (pad n s).length = n := by
  rw [pad, List.length_append, List.length_replicate]
  omega

theorem nameTo83_length (name : List UInt8) : (nameTo83 name).length = 11 := by
  rw [nameTo83, List.length_append, pad_length, pad_length]
  · rw [List.length_map]
    exact List.length_take_le 3 _
  · rw [List.length_map]
    exact List.length_take_le 8 _

theorem upper_letter {c : UInt8} (letter : 97 ≤ c ∧ c ≤ 122) :
    97 ≤ c.toNat ∧ c.toNat ≤ 122 ∧ (c - 32).toNat = c.toNat - 32 := by
  have low : 97 ≤ c.toNat := UInt8.le_iff_toNat_le.mp letter.1
  have high : c.toNat ≤ 122 := UInt8.le_iff_toNat_le.mp letter.2
  have value : (c - 32).toNat = c.toNat - 32 := UInt8.toNat_sub_of_le _ _ (by
    rw [UInt8.le_iff_toNat_le]
    exact Nat.le_trans (by decide) low)
  exact ⟨low, high, value⟩

theorem upper_ne {c : UInt8} (other : c ≠ 0 ∧ c ≠ 32 ∧ c ≠ 46) :
    upper c ≠ 0 ∧ upper c ≠ 32 ∧ upper c ≠ 46 := by
  obtain ⟨a, b, d⟩ := other
  unfold upper
  split_ifs with letter
  · obtain ⟨low, high, value⟩ := upper_letter letter
    refine ⟨?_, ?_, ?_⟩ <;> intro same <;> have number := congrArg UInt8.toNat same <;>
      rw [value] at number <;> simp at number <;> omega
  · exact ⟨a, b, d⟩

theorem upper_ne_deleted {c : UInt8} (other : c ≠ 229) : upper c ≠ 229 := by
  unfold upper
  split_ifs with letter
  · obtain ⟨low, high, value⟩ := upper_letter letter
    intro same
    have number := congrArg UInt8.toNat same
    rw [value] at number
    simp at number
    omega
  · exact other

theorem nameTo83_parts (plain : ∀ c ∈ base, c ≠ 46) (short : base.length ≤ 8)
    (shortExt : ext.length ≤ 3) (form : name = base ++ 46 :: ext ∨ name = base ∧ ext = []) :
    nameTo83 name = pad 8 (base.map upper) ++ pad 3 (ext.map upper) := by
  have accepted : ∀ c ∈ base, decide (c ≠ 46) = true := fun c listed =>
    decide_eq_true (plain c listed)
  have front : name.takeWhile (fun c => decide (c ≠ 46)) = base := by
    obtain rfl | ⟨rfl, -⟩ := form
    · rw [List.takeWhile_append_of_pos accepted]
      simp
    · exact List.takeWhile_eq_self_iff.mpr accepted
  have back : (name.dropWhile (fun c => decide (c ≠ 46))).drop 1 = ext := by
    obtain rfl | ⟨rfl, rfl⟩ := form
    · rw [List.dropWhile_append_of_pos accepted]
      simp
    · rw [List.dropWhile_eq_nil_iff.mpr accepted]
      rfl
  rw [nameTo83, front, back, List.take_of_length_le short, List.take_of_length_le shortExt]

theorem Is83.raw (is83 : Is83 name base ext) :
    nameTo83 name = pad 8 (base.map upper) ++ pad 3 (ext.map upper) := by
  have plain : ∀ c ∈ base, c ≠ 46 := fun c listed =>
    (is83.chars c (List.mem_append_left ext listed)).2.2
  apply nameTo83_parts plain is83.short is83.shortExt
  have split := is83.split
  split_ifs at split with none
  · exact .inr ⟨split, none⟩
  · exact .inl split

theorem takeWhile_pad {n : Nat} {s : List UInt8} (plain : ∀ c ∈ s, c ≠ 32) :
    (pad n s).takeWhile (fun c => decide (c ≠ 32)) = s := by
  rw [pad, List.takeWhile_append_of_pos fun c listed => decide_eq_true (plain c listed)]
  cases n - s.length with
  | zero => simp
  | succ k => simp [List.replicate_succ]

theorem format83_parts (plainBase : ∀ c ∈ base, c ≠ 32) (plainExt : ∀ c ∈ ext, c ≠ 32)
    (short : base.length ≤ 8) :
    format83 (pad 8 base ++ pad 3 ext) = if ext = [] then base else base ++ 46 :: ext := by
  have eight : (pad 8 base).length = 8 := pad_length short
  rw [format83, List.take_left' eight, List.drop_left' eight, takeWhile_pad plainBase,
    takeWhile_pad plainExt]
  cases ext with
  | nil => simp [pad]
  | cons c ext =>
    have visible : c ≠ 32 := plainExt c List.mem_cons_self
    simp [pad, visible]

theorem upper_visible {t : List UInt8} (chars : ∀ c ∈ t, c ≠ 0 ∧ c ≠ 32 ∧ c ≠ 46) :
    ∀ c ∈ t.map upper, c ≠ 32 := by
  intro c listed
  obtain ⟨d, member, rfl⟩ := List.mem_map.mp listed
  exact (upper_ne (chars d member)).2.1

theorem Is83.shown (is83 : Is83 name base ext) : format83 (nameTo83 name) = name.map upper := by
  have plainBase := upper_visible fun c listed => is83.chars c (List.mem_append_left ext listed)
  have plainExt := upper_visible fun c listed => is83.chars c (List.mem_append_right base listed)
  have short : (base.map upper).length ≤ 8 := by
    rw [List.length_map]
    exact is83.short
  rw [is83.raw, format83_parts plainBase plainExt short, is83.split]
  cases ext with
  | nil => rfl
  | cons c ext =>
    have dot : upper 46 = 46 := rfl
    simp [dot]

theorem Is83.first_byte (is83 : Is83 name base ext) :
    (nameTo83 name).getD 0 0 ≠ 0 ∧ (nameTo83 name).getD 0 0 ≠ 229 := by
  rw [is83.raw]
  have some := is83.some
  have first := is83.first
  have chars := is83.chars
  cases base with
  | nil => exact absurd rfl some
  | cons c base =>
    refine ⟨(upper_ne (chars c (by simp))).1, upper_ne_deleted fun same => first ?_⟩
    rw [same]
    rfl

theorem Is83.not_dots (is83 : Is83 name base ext) :
    format83 (nameTo83 name) ≠ [46] ∧ format83 (nameTo83 name) ≠ [46, 46] := by
  have head : ∃ c t, format83 (nameTo83 name) = c :: t ∧ c ≠ 46 := by
    rw [is83.shown, is83.split]
    have some := is83.some
    have chars := is83.chars
    cases base with
    | nil => exact absurd rfl some
    | cons c base =>
      refine ⟨upper c, ?_⟩
      have plain := (upper_ne (chars c (by simp))).2.2
      split_ifs
      · exact ⟨_, rfl, plain⟩
      · exact ⟨_, rfl, plain⟩
  obtain ⟨c, t, shape, plain⟩ := head
  rw [shape]
  exact ⟨fun same => plain (List.cons.inj same).1, fun same => plain (List.cons.inj same).1⟩

end Names

section Entries

variable {v v' w : Volume}

/-- The test of `fat32_walk_dir` on an entry in front of the end mark. -/
def shows (v : Volume) (s : Slot) : Bool :=
  byteAt v s 0 ≠ 229 ∧ attrOf v s % 16 ≠ 15 ∧ ¬ (attrOf v s).testBit 3 ∧
    format83 (rawName v s) ≠ [46] ∧ format83 (rawName v s) ≠ [46, 46]

theorem walkDir_eq (v : Volume) (head : Nat) :
    walkDir v head =
      ((slotsOf v head).takeWhile fun s => byteAt v s 0 ≠ 0).filter (shows v) := rfl

variable {u : Slot} {head : Nat}

theorem rawName_congr (same : ∀ i, i < 12 → byteAt v' u i = byteAt v u i) :
    rawName v' u = rawName v u ∧ attrOf v' u = attrOf v u := by
  constructor
  · apply List.map_congr_left
    intro i listed
    exact same i (Nat.lt_trans (List.mem_range.mp listed) (by decide))
  · rw [attrOf, attrOf, same 11 (by decide)]

theorem shows_congr (same : ∀ i, i < 12 → byteAt v' u i = byteAt v u i) :
    shows v' u = shows v u := by
  obtain ⟨name, attr⟩ := rawName_congr same
  rw [shows, shows, name, attr, same 0 (by decide)]

theorem entry_congr (same : ∀ i, i < 32 → byteAt v' u i = byteAt v u i) :
    firstOf v' u = firstOf v u ∧ sizeOf v' u = sizeOf v u ∧ isDir v' u = isDir v u := by
  refine ⟨?_, ?_, ?_⟩
  · rw [firstOf, firstOf, same 20 (by decide), same 21 (by decide), same 26 (by decide),
      same 27 (by decide)]
  · rw [Fat32.sizeOf, Fat32.sizeOf, same 28 (by decide), same 29 (by decide), same 30 (by decide),
      same 31 (by decide)]
  · rw [isDir, isDir, attrOf, attrOf, same 11 (by decide)]

theorem takeWhile_congr {α : Type} {p q : α → Bool} {l : List α} (same : ∀ a ∈ l, p a = q a) :
    l.takeWhile p = l.takeWhile q := by
  induction l with
  | nil => rfl
  | cons a l ih =>
    rw [List.takeWhile_cons, List.takeWhile_cons, same a List.mem_cons_self,
      ih fun b listed => same b (List.mem_cons_of_mem a listed)]

theorem walkDir_congr {head' : Nat} (slots : slotsOf v' head' = slotsOf v head)
    (same : ∀ u ∈ slotsOf v head, ∀ i, i < 12 → byteAt v' u i = byteAt v u i) :
    walkDir v' head' = walkDir v head := by
  rw [walkDir_eq, walkDir_eq, slots]
  have front : (slotsOf v head).takeWhile (fun s => decide (byteAt v' s 0 ≠ 0)) =
      (slotsOf v head).takeWhile (fun s => decide (byteAt v s 0 ≠ 0)) := by
    apply takeWhile_congr
    intro u listed
    rw [same u listed 0 (by decide)]
  rw [front]
  apply List.filter_congr
  intro u listed
  exact shows_congr (same u (List.takeWhile_sublist _ |>.subset listed))

theorem mem_slotsOf_iff :
    u ∈ slotsOf v head ↔ u.cluster ∈ walk 1024 v head ∧ u.sector < v.sectorsPerCluster ∧
      ∃ k, k < 16 ∧ u.off = 32 * k := by
  rw [slotsOf, List.mem_flatMap]
  constructor
  · rintro ⟨c, visited, rest⟩
    obtain ⟨t, small, rest⟩ := List.mem_flatMap.mp rest
    obtain ⟨k, less, rfl⟩ := List.mem_map.mp rest
    exact ⟨visited, List.mem_range.mp small, k, List.mem_range.mp less, rfl⟩
  · rintro ⟨visited, small, k, less, off⟩
    refine ⟨u.cluster, visited, List.mem_flatMap.mpr ⟨u.sector, List.mem_range.mpr small, ?_⟩⟩
    refine List.mem_map.mpr ⟨k, List.mem_range.mpr less, ?_⟩
    rw [← off]

theorem slotsOf_nodup {cs : List Nat} (narrow : v.total ≤ chainEnd)
    (chain : Chain v head cs) : (slotsOf v head).Nodup := by
  have once : (walk 1024 v head).Nodup := by
    rw [chain.walk narrow]
    exact (List.take_sublist 1024 cs).nodup (Seg.nodup (chain_functional narrow) chain)
  have inSector : ∀ c s : Nat, ((List.range (blockSize / 32)).map fun k =>
      (⟨c, s, 32 * k⟩ : Slot)).Nodup := by
    intro c s
    refine List.Nodup.map (fun k k' same => ?_) List.nodup_range
    have := congrArg Slot.off same
    simp only at this
    omega
  rw [slotsOf, List.nodup_flatMap]
  refine ⟨fun c _ => ?_, once.imp fun {c d} differs => ?_⟩
  · rw [List.nodup_flatMap]
    refine ⟨fun s _ => inSector c s, List.nodup_range.imp fun {s t} differs => ?_⟩
    refine List.disjoint_left.mpr ?_
    intro u inS inT
    obtain ⟨_, _, rfl⟩ := List.mem_map.mp inS
    obtain ⟨_, _, same⟩ := List.mem_map.mp inT
    exact differs (congrArg Slot.sector same).symm
  · refine List.disjoint_left.mpr ?_
    intro u inC inD
    obtain ⟨_, _, rest⟩ := List.mem_flatMap.mp inC
    obtain ⟨_, _, rfl⟩ := List.mem_map.mp rest
    obtain ⟨_, _, rest⟩ := List.mem_flatMap.mp inD
    obtain ⟨_, _, same⟩ := List.mem_map.mp rest
    exact differs (congrArg Slot.cluster same).symm

section Written

variable {s : Slot} {new : Bool} {name : List UInt8} {first len : Nat}

theorem walk_writeEntry (rounds head : Nat) :
    walk rounds (writeEntry w s new name first len) head = walk rounds w head := by
  induction rounds generalizing head with
  | zero => rfl
  | succ rounds ih =>
    rw [walk, walk, ih]
    rfl

theorem slotsOf_writeEntry (head : Nat) :
    slotsOf (writeEntry w s new name first len) head = slotsOf w head := by
  rw [slotsOf, slotsOf, walk_writeEntry]
  rfl

theorem bytes_writeEntry {c t i : Nat}
    (out : c = s.cluster → t = s.sector → ¬ (s.off ≤ i ∧ i < s.off + 32)) :
    (writeEntry w s new name first len).bytes c t i = w.bytes c t i := by
  simp only [writeEntry, writeSector]
  split_ifs with here
  · obtain ⟨rfl, rfl⟩ := here
    rw [entryBlock, if_neg (out rfl rfl)]
  · rfl

theorem byteAt_writeEntry_other {u : Slot} {j k : Nat} (uOff : u.off = 32 * j)
    (sOff : s.off = 32 * k) (differs : u ≠ s) {i : Nat} (small : i < 32) :
    byteAt (writeEntry w s new name first len) u i = byteAt w u i := by
  refine bytes_writeEntry fun cluster sector both => differs ?_
  have off : u.off = s.off := by omega
  cases u
  cases s
  simp_all

theorem byteAt_writeEntry_self {i : Nat} (small : i < 32) :
    byteAt (writeEntry w s new name first len) s i =
      if i = 20 then byteOf first 2 else if i = 21 then byteOf first 3
      else if i = 26 then byteOf first 0 else if i = 27 then byteOf first 1
      else if 28 ≤ i then byteOf len (i - 28)
      else if new then (if i < 11 then (nameTo83 name).getD i 0 else if i = 11 then 32 else 0)
      else byteAt w s i := by
  have inside : s.off ≤ s.off + i ∧ s.off + i < s.off + 32 := by omega
  simp only [byteAt, writeEntry, writeSector, and_self, if_true, entryBlock, if_pos inside,
    Nat.add_sub_cancel_left]

theorem byteOf_toNat (n k : Nat) : (byteOf n k).toNat = n / 256 ^ k % 256 := by
  rw [byteOf, UInt8.toNat_ofNat']

theorem writeEntry_first (small : first < 2 ^ 32) :
    firstOf (writeEntry w s new name first len) s = first := by
  rw [firstOf, byteAt_writeEntry_self (by decide), byteAt_writeEntry_self (by decide),
    byteAt_writeEntry_self (by decide), byteAt_writeEntry_self (by decide)]
  simp only [Nat.reduceEqDiff, if_true, if_false, byteOf_toNat]
  omega

theorem writeEntry_size (small : len < 2 ^ 32) :
    sizeOf (writeEntry w s new name first len) s = len := by
  rw [Fat32.sizeOf, byteAt_writeEntry_self (by decide), byteAt_writeEntry_self (by decide),
    byteAt_writeEntry_self (by decide), byteAt_writeEntry_self (by decide)]
  simp only [Nat.reduceEqDiff, Nat.reduceLeDiff, Nat.reduceSub, if_true, if_false, byteOf_toNat]
  omega

theorem writeEntry_kept {i : Nat} (small : i < 12) :
    byteAt (writeEntry w s false name first len) s i = byteAt w s i := by
  rw [byteAt_writeEntry_self (by omega)]
  simp (disch := omega) only [if_neg, Bool.false_eq_true, if_false]

theorem writeEntry_new :
    rawName (writeEntry w s true name first len) s = nameTo83 name ∧
      attrOf (writeEntry w s true name first len) s = 32 := by
  constructor
  · apply List.ext_getElem
    · rw [rawName, List.length_map, List.length_range, nameTo83_length]
    · intro i short _
      rw [rawName, List.length_map, List.length_range] at short
      rw [nameTo83_length] at *
      simp only [rawName, List.getElem_map, List.getElem_range]
      rw [byteAt_writeEntry_self (by omega)]
      simp (disch := omega) only [if_neg, if_pos, if_true]
      rw [List.getD_eq_getElem]
  · rw [attrOf, byteAt_writeEntry_self (by decide)]
    rfl

end Written

end Entries

end XinuRpi5.Fs.FatEntries
