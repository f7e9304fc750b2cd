/- source: fs/fat32.c
   digest: Setting a FAT entry changes its low 28 bits in every copy of the FAT and nothing else. -/

import XinuRpi5.Fs.FatSectorRuns

namespace XinuRpi5.Fs.FatMirror

open Lib.BlockIo FatSectors FatSectorRuns
open Fat32 (blockSize byteOf)

section Copies

variable (fs : Mounted)

/-- All 32 bits of an entry in copy `f`. -/
def copyEntry (d : Disk Block) (f c : Nat) : Nat :=
  le32 (d (entrySector fs f c)) (c * 4 % blockSize)

def OfEntry (c l i : Nat) : Prop :=
  ∃ f < fs.numFats, l = entrySector fs f c ∧ c * 4 % blockSize ≤ i ∧ i < c * 4 % blockSize + 4

def Agree (bits : Nat) (d : Disk Block) (f g : Nat) : Prop :=
  ∀ c < total fs, copyEntry fs d f c % 2 ^ bits = copyEntry fs d g c % 2 ^ bits

end Copies

section Sectors

variable {fs : Mounted} {c c' f g : Nat}

theorem entrySector_inj (inside : c < total fs) (inside' : c' < total fs)
    (same : entrySector fs f c = entrySector fs g c') :
    f = g ∧ c * 4 / blockSize = c' * 4 / blockSize := by
  have room (x : Nat) (less : x < total fs) : x * 4 / blockSize < fs.sectorsPerFat := by
    unfold total blockSize at less
    unfold blockSize
    omega
  have here := room c inside
  have there := room c' inside'
  have offsets : c * 4 / blockSize + fs.sectorsPerFat * f =
      c' * 4 / blockSize + fs.sectorsPerFat * g := by
    unfold entrySector at same
    rw [Nat.mul_comm fs.sectorsPerFat f, Nat.mul_comm fs.sectorsPerFat g]
    omega
  have copies := congrArg (· / fs.sectorsPerFat) offsets
  have sectors := congrArg (· % fs.sectorsPerFat) offsets
  have nonempty : 0 < fs.sectorsPerFat := Nat.zero_lt_of_lt here
  rw [Nat.add_mul_div_left _ _ nonempty, Nat.add_mul_div_left _ _ nonempty,
    Nat.div_eq_of_lt here, Nat.div_eq_of_lt there] at copies
  rw [Nat.add_mul_mod_self_left, Nat.add_mul_mod_self_left, Nat.mod_eq_of_lt here,
    Nat.mod_eq_of_lt there] at sectors
  exact ⟨by omega, sectors⟩

theorem putEntry_other (b : Block) {off v i : Nat} (other : i < off ∨ off + 4 ≤ i) :
    putEntry b off v i = b i := by
  unfold putEntry
  rw [if_neg (by omega), if_neg (by omega), if_neg (by omega), if_neg (by omega)]

theorem le32_putEntry_top (b : Block) (off v : Nat) :
    le32 (putEntry b off v) off / 2 ^ 28 = le32 b off / 2 ^ 28 := by
  have byte (w : Block) (k : Nat) : (w (off + k)).toNat < 256 := UInt8.toNat_lt (w (off + k))
  have top (w : Block) : le32 w off / 2 ^ 28 = (w (off + 3)).toNat / 16 := by
    have b0 := byte w 0
    have b1 := byte w 1
    have b2 := byte w 2
    rw [Nat.add_zero] at b0
    unfold le32
    omega
  have last : (putEntry b off v (off + 3)).toNat / 16 = (b (off + 3)).toNat / 16 := by
    have small := byte b 3
    simp [putEntry, byteOf]
    omega
  rw [top, top, last]

variable {v left : Nat} {d : Disk Block}

theorem putFrom_sector (inside : c < total fs) :
    (∀ g, f ≤ g → g < f + left → putFrom fs c v left f d (entrySector fs g c) =
      putEntry (d (entrySector fs g c)) (c * 4 % blockSize) v) ∧
    ∀ l, (∀ g, f ≤ g → g < f + left → l ≠ entrySector fs g c) →
      putFrom fs c v left f d l = d l := by
  induction left generalizing f d with
  | zero => exact ⟨fun g low high => by omega, fun l _ => rfl⟩
  | succ left ih =>
    obtain ⟨later, others⟩ := ih (f := f + 1) (d := put fs c v f d)
    have apart (l : Nat) (other : l ≠ entrySector fs f c) : put fs c v f d l = d l :=
      Function.update_of_ne other _ _
    constructor
    · intro g low high
      rw [putFrom]
      rcases Nat.eq_or_lt_of_le low with rfl | after
      · rw [others]
        · exact Function.update_self _ _ _
        · intro g low' _ same
          have := (entrySector_inj inside inside same).1
          omega
      · rw [later g after (by omega), apart]
        intro same
        have := (entrySector_inj inside inside same).1
        omega
    · intro l other
      rw [putFrom, others l fun g low high => other g (by omega) (by omega)]
      exact apart l (other f (Nat.le_refl f) (by omega))

end Sectors

section Update

variable {fs : Mounted} {c v : Nat} {d : Disk Block}

section

variable (inside : c < total fs)

include inside

theorem putAll_copy {f : Nat} (copy : f < fs.numFats) :
    putAll fs c v d (entrySector fs f c) =
      putEntry (d (entrySector fs f c)) (c * 4 % blockSize) v :=
  (putFrom_sector inside).1 f (Nat.zero_le f) (by omega)

theorem putAll_frame {l i : Nat} (other : ¬ OfEntry fs c l i) :
    putAll fs c v d l i = d l i := by
  by_cases there : ∃ f < fs.numFats, l = entrySector fs f c
  · obtain ⟨f, copy, rfl⟩ := there
    rw [putAll_copy inside copy]
    apply putEntry_other
    by_contra bytes
    exact other ⟨f, copy, rfl, by omega, by omega⟩
  · have same := (@putFrom_sector fs c 0 v fs.numFats d inside).2 l
      fun f _ copy is => there ⟨f, by omega, is⟩
    exact congrFun same i

theorem copyEntry_putAll {f c' : Nat} (copy : f < fs.numFats) (inside' : c' < total fs) :
    copyEntry fs (putAll fs c v d) f c' =
      if c' = c then copyEntry fs d f c / 2 ^ 28 * 2 ^ 28 + v % 2 ^ 28
      else copyEntry fs d f c' := by
  split_ifs with same
  · obtain rfl := same
    unfold copyEntry
    rw [putAll_copy inside copy, ← le32_putEntry_top _ _ v, ← le32_putEntry, Nat.div_add_mod']
  · have outside (k : Nat) (less : k < 4) :
        ¬ OfEntry fs c (entrySector fs f c') (c' * 4 % blockSize + k) := by
      rintro ⟨g, _, sector, low, high⟩
      have row := (entrySector_inj inside' inside sector).2
      unfold blockSize at row low high
      omega
    have kept (k : Nat) (less : k < 4) := putAll_frame (v := v) (d := d) inside (outside k less)
    have zero := kept 0 (by omega)
    rw [Nat.add_zero] at zero
    unfold copyEntry le32
    rw [zero, kept 1 (by omega), kept 2 (by omega), kept 3 (by omega)]

theorem putAll_agree {f g : Nat} (copy : f < fs.numFats) (copy' : g < fs.numFats) :
    (Agree fs 28 d f g → Agree fs 28 (putAll fs c v d) f g) ∧
      (Agree fs 32 d f g → Agree fs 32 (putAll fs c v d) f g) := by
  constructor
  · intro agree c' inside'
    rw [copyEntry_putAll inside copy inside', copyEntry_putAll inside copy' inside']
    split_ifs with same
    · omega
    · exact agree c' inside'
  · intro agree c' inside'
    rw [copyEntry_putAll inside copy inside', copyEntry_putAll inside copy' inside']
    split_ifs with same
    · have before := agree c inside
      omega
    · exact agree c' inside'

end

/-- Without device errors `fat_set_entry` writes the entry's sector of every copy: the low 28
bits become the value, the top four stay, and so do all other bytes of the card. Copies that
agree on all entries still do. -/
theorem set_entry_mirrored (fs : Mounted) (c v : Nat) (d : Disk Block) (inside : c < total fs) :
    ∃ e, exec (setEntry fs c v) d =
        ((List.range' 0 fs.numFats).map (entrySector fs · c), true, e) ∧
      (∀ f < fs.numFats, copyEntry fs e f c % 2 ^ 28 = v % 2 ^ 28 ∧
        copyEntry fs e f c / 2 ^ 28 = copyEntry fs d f c / 2 ^ 28) ∧
      (∀ l i, ¬ OfEntry fs c l i → e l i = d l i) ∧
      ∀ f < fs.numFats, ∀ g < fs.numFats, (Agree fs 28 d f g → Agree fs 28 e f g) ∧
        (Agree fs 32 d f g → Agree fs 32 e f g) := by
  refine ⟨putAll fs c v d, exec_setEntryFrom, ?_, ?_, ?_⟩
  · intro f copy
    rw [copyEntry_putAll inside copy inside, if_pos rfl]
    exact ⟨by omega, by omega⟩
  · intro l i other
    exact putAll_frame inside other
  · intro f copy g copy'
    exact putAll_agree inside copy copy'

theorem set_entry_mirrored_two :
    ∃ e, exec (setEntry ⟨1, 1, 2, 1, 2, 0, 1, 3⟩ 5 268435455) (fun _ _ => 0xA0) =
        ([1, 2], true, e) ∧
      (∀ f < 2, copyEntry ⟨1, 1, 2, 1, 2, 0, 1, 3⟩ e f 5 = 2952790015) ∧
      (∀ l i, ¬ OfEntry ⟨1, 1, 2, 1, 2, 0, 1, 3⟩ 5 l i → e l i = 0xA0) ∧
      Agree ⟨1, 1, 2, 1, 2, 0, 1, 3⟩ 32 e 0 1 := by
  obtain ⟨e, run, entries, frame, agree⟩ := set_entry_mirrored ⟨1, 1, 2, 1, 2, 0, 1, 3⟩ 5
    268435455 (fun _ _ => 0xA0) (by decide)
  have alike : Agree ⟨1, 1, 2, 1, 2, 0, 1, 3⟩ 32 (fun _ _ => 0xA0) 0 1 := by
    intro c' _
    simp [copyEntry]
  refine ⟨e, run, ?_, frame, (agree 0 (by decide) 1 (by decide)).2 alike⟩
  intro f copy
  obtain ⟨low, top⟩ := entries f copy
  have before : copyEntry ⟨1, 1, 2, 1, 2, 0, 1, 3⟩ (fun _ _ => 0xA0) f 5 = 2694881440 := by
    have byte : (0xA0 : UInt8).toNat = 160 := rfl
    unfold copyEntry le32
    dsimp only
    rw [byte]
    omega
  rw [before] at top
  omega

end Update

end XinuRpi5.Fs.FatMirror
