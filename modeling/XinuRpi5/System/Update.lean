/- source: system/update.c
   digest: The kernel update: the manifest, the download in ranges, and what is written. -/

import XinuRpi5.Lib.GuardedRuns
import Mathlib.Data.List.GetD
import Mathlib.Data.List.TakeWhile
import Mathlib.Data.Nat.Digits.Lemmas

/-!
Each request to the network is answered by what the environment has for its number, so an
environment is any pattern of short reads, failures and retries. The board is `pi5`.
-/

namespace XinuRpi5.System.Update

open Lib.GuardedRuns

abbrev Bytes := List UInt8

abbrev Text := List Char

def bytesOf (s : String) : Bytes := s.toList.map fun c => UInt8.ofNat c.toNat

def cstr (b : Bytes) : Bytes := b.takeWhile (· ≠ 0)

def uCpy (s : Text) (cap : Nat) : Text := s.take (cap - 1)

def uCat (d s : Text) (cap : Nat) : Text := d ++ s.take (cap - 1 - d.length)

/-- `u_catn` of a number that is not negative: fifteen digits have room. -/
def uCatn (d : Text) (v cap : Nat) : Text :=
  uCat d ((Nat.toDigits 10 v).reverse.take 15).reverse cap

def manifestUrl : Text := "http://airilab.app/api/xinu/manifest".toList

/-- The request for a range of the image, in `url[160]`. -/
def kernelUrl (off want : Nat) : Text :=
  uCatn (uCat (uCatn (uCat (uCat (uCpy "http://airilab.app/api/xinu/kernel?board=".toList 160)
    "pi5".toList 160) "&off=".toList 160) off 160) "&len=".toList 160) want 160

/-- The first place of a key that ends before `stop`. -/
def findKey (j key : Bytes) (start stop : Nat) : Option Nat :=
  (List.range' start (stop - start)).find? fun i =>
    i + key.length < stop ∧ (j.drop i).take key.length = key

def entryEnd : Bytes → Nat → Int → Nat
  | [], pos, _ => pos
  | b :: rest, pos, depth =>
    if b = 0x7B then entryEnd rest (pos + 1) (depth + 1)
    else if b = 0x7D then
      if depth - 1 = 0 then pos else entryEnd rest (pos + 1) (depth - 1)
    else entryEnd rest (pos + 1) depth

def isDigit (b : UInt8) : Bool := 0x30 ≤ b && b ≤ 0x39

def valueText (seg : Bytes) : Bytes :=
  let seg := seg.dropWhile fun b => b = 0x20 || b = 0x3A
  if seg.head? = some 0x22 then seg.tail.takeWhile (· ≠ 0x22) else seg.takeWhile isDigit

def field (j : Bytes) (p stop : Nat) (name : String) : Bytes :=
  let key := bytesOf ("\"" ++ name ++ "\"")
  match findKey j key p stop with
  | none => []
  | some i => valueText ((j.take stop).drop (i + key.length))

/-- What `upd_parse` reads, as far as the buffers go. -/
structure Entry where
  latest : Bytes
  md5 : Bytes
  fnv : Bytes
  size : UInt32

/-- The number in `sz[16]`; any character counts as a digit. -/
def sizeNumber (sz : Bytes) : UInt32 :=
  (cstr (sz.take 15)).foldl (fun n b => n * 10 + (b.toUInt32 - 0x30)) 0

def entryAt (j : Bytes) : Option (Nat × Nat) :=
  (findKey j (bytesOf "\"pi5\"") 0 j.length).map fun i =>
    (i + 5, entryEnd (j.drop (i + 5)) (i + 5) 0)

/-- `upd_parse`, when there is an entry. -/
def updParse (j : Bytes) : Option Entry :=
  (entryAt j).map fun (p, stop) =>
    ⟨(field j p stop "build").take 39, (field j p stop "md5").take 39,
      (field j p stop "fnv64").take 19, sizeNumber (field j p stop "size")⟩

section Install

def updMax : Nat := 3 * 1024 * 1024

def fnv64 (d : Bytes) : UInt64 :=
  d.foldl (fun h b => (h ^^^ b.toUInt64) * 0x100000001b3) 0xcbf29ce484222325

def hexDigit (v : UInt64) : UInt8 := if v < 10 then 0x30 + v.toUInt8 else 0x57 + v.toUInt8

def hexText (h : UInt64) : Bytes :=
  (List.range 16).map fun i => hexDigit (h >>> (UInt64.ofNat (60 - 4 * i)) &&& 15)

/-- The static variables of `update.c`, the number of requests so far, the manifest that
was read last, and the buffers that `update_write_kernel` got. -/
structure Upd where
  img : Nat → UInt8
  len : Nat
  entry : Entry
  result : Int
  state : String
  progress : Nat
  calls : Nat
  manifest : Option Bytes
  writes : List Bytes

/-- `browser_fetch_body`, by the number of the request, with `none` for failure;
`update_write_kernel` with its message when it fails; and `kernel_build_id`. -/
structure Env where
  net : Nat → Text → Option Bytes
  write : Bytes → Option String
  buildId : Bytes

variable (env : Env)

def updateCheck (s : Upd) : Int × Upd :=
  let t := { s with calls := s.calls + 1 }
  match env.net s.calls manifestUrl with
  | none => (-1, { t with state := "check failed: manifest unreachable", result := -1 })
  | some body =>
    match updParse body with
    | none => (-1, { t with state := "check failed: no entry for this board", result := -1 })
    | some e =>
      let t := { t with entry := e, manifest := some body }
      if cstr e.latest = [] then
        (-1, { t with state := "check failed: no entry for this board", result := -1 })
      else if env.buildId = cstr e.latest then
        (1, { t with state := "up to date", result := 1 })
      else (2, { t with state := "update available", result := 2 })

def tryFetch (url : Text) : Nat → Upd → Option Bytes × Upd
  | 0, s => (none, s)
  | t + 1, s =>
    match env.net s.calls url with
    | some (b :: rest) => (some (b :: rest), { s with calls := s.calls + 1 })
    | _ => tryFetch url t { s with calls := s.calls + 1 }

def keep (s : Upd) (body : Bytes) (got : Nat) : Upd :=
  { s with
    img := fun i => if s.len ≤ i ∧ i < s.len + got then body.getD (i - s.len) 0 else s.img i
    len := s.len + got
    progress := s.len + got
    state := "downloading " ++ toString ((s.len + got) / 1024) ++ " KB" }

/-- The loop of `update_install`; every round adds a byte at least. -/
def download : Nat → Upd → Bool × Upd
  | 0, s => (false, s)
  | rounds + 1, s =>
    if s.len < s.entry.size.toNat then
      let want := min (s.entry.size.toNat - s.len) 32768
      match tryFetch env (kernelUrl s.len want) 3 s with
      | (none, t) =>
        (false, { t with state := "download failed at " ++ toString t.len, result := -1 })
      | (some body, t) => download rounds (keep t body (min body.length want))
    else (true, s)

def image (s : Upd) : Bytes := (List.range s.len).map s.img

/-- `update_install` behind the check. -/
def install (s : Upd) : Int × Upd :=
  if s.entry.size = 0 ∨ updMax < s.entry.size.toNat then
    (-1, { s with state := "install failed: bad size" })
  else
    match download env (s.entry.size.toNat + 1) { s with len := 0, progress := 0 } with
    | (false, t) => (-1, t)
    | (true, t) =>
      if (t.entry.fnv ++ [0]).take 17 ≠ hexText (fnv64 (image t)) ++ [0] then
        (-1, { t with state := "verify failed: hash mismatch", result := -1 })
      else
        let u := { t with writes := t.writes ++ [image t] }
        match env.write (image t) with
        | some why => (-1, { u with state := "write failed: " ++ why, result := -1 })
        | none => (0, { u with state := "written; rebooting" })

def updateInstall (s : Upd) : Int × Upd :=
  if s.result = 2 then install env s
  else
    let (r, t) := updateCheck env s
    if r = 2 then install env t else (r, t)

def start : Upd := ⟨fun _ => 0, 0, ⟨[], [], [], 0⟩, 0, "not checked", 0, 0, none, []⟩

inductive Op where
  | check
  | install

def step (s : Upd) : Op → Option Upd
  | .check => some (updateCheck env s).2
  | .install => some (updateInstall env s).2

end Install

def request (off want : Nat) : Text :=
  "http://airilab.app/api/xinu/kernel?board=pi5&off=".toList ++ Nat.toDigits 10 off ++
    "&len=".toList ++ Nat.toDigits 10 want

def Honest (env : Env) (img : Nat → Option UInt8) : Prop :=
  ∀ n off want body, env.net n (request off want) = some body →
    ∀ i b, i < want → body[i]? = some b → img (off + i) = some b

def value (digits : Bytes) : Nat := digits.foldl (fun n b => n * 10 + (b.toNat - 0x30)) 0

/-- A manifest announces a size: at most fifteen digits, for a number of 32 bits. -/
def Announces (m : Bytes) (n : Nat) : Prop :=
  ∃ p stop, entryAt m = some (p, stop) ∧ (field m p stop "size").all isDigit ∧
    (field m p stop "size").length ≤ 15 ∧ value (field m p stop "size") = n ∧ n < 2 ^ 32

/-- A buffer that the manifest announces: its hash, its size, and its bytes. -/
structure Verified (img : Nat → Option UInt8) (m b : Bytes) : Prop where
  hash : ∃ e, updParse m = some e ∧ cstr e.fnv = hexText (fnv64 b) ∧ b.length = e.size.toNat
  size : ∀ n, Announces m n → b.length = n
  bytes : ∀ i x, b[i]? = some x → img i = some x

theorem uCat_fits {d s : Text} {cap : Nat} (fits : d.length + s.length < cap) :
    uCat d s cap = d ++ s := by
  unfold uCat
  rw [List.take_of_length_le (by omega)]

theorem uCatn_fits {d : Text} {v cap : Nat} (small : v < 10 ^ 15)
    (fits : d.length + (Nat.toDigits 10 v).length < cap) :
    uCatn d v cap = d ++ Nat.toDigits 10 v := by
  have short : (Nat.toDigits 10 v).length ≤ 15 :=
    (Nat.length_toDigits_le_iff (by decide) (by decide)).mpr small
  unfold uCatn
  rw [List.take_of_length_le (by rw [List.length_reverse]; exact short), List.reverse_reverse]
  exact uCat_fits fits

theorem kernelUrl_eq {off want : Nat} (inside : off < 10 ^ 15) (small : want < 10 ^ 15) :
    kernelUrl off want = request off want := by
  have digits (v : Nat) (less : v < 10 ^ 15) : (Nat.toDigits 10 v).length ≤ 15 :=
    (Nat.length_toDigits_le_iff (by decide) (by decide)).mpr less
  have first := digits off inside
  have second := digits want small
  have base : uCat (uCat (uCpy "http://airilab.app/api/xinu/kernel?board=".toList 160)
      "pi5".toList 160) "&off=".toList 160 =
      "http://airilab.app/api/xinu/kernel?board=pi5&off=".toList := by decide
  have length : "http://airilab.app/api/xinu/kernel?board=pi5&off=".toList.length = 49 := by decide
  have length' : "&len=".toList.length = 5 := by decide
  unfold kernelUrl request
  rw [base, uCatn_fits inside (by omega), uCat_fits, uCatn_fits small]
  · rw [List.length_append, List.length_append]
    omega
  · rw [List.length_append]
    omega

theorem digit_toNat {b : UInt8} (digit : isDigit b = true) : 0x30 ≤ b.toNat ∧ b.toNat ≤ 0x39 := by
  unfold isDigit at digit
  rw [Bool.and_eq_true, decide_eq_true_iff, decide_eq_true_iff] at digit
  exact ⟨UInt8.le_iff_toNat_le.mp digit.1, UInt8.le_iff_toNat_le.mp digit.2⟩

/-- The number is read in 32 bits. -/
theorem sizeNumber_digits {w : Bytes} (digits : w.all isDigit = true) (short : w.length ≤ 15) :
    (sizeNumber w).toNat = value w % 2 ^ 32 := by
  have plain : cstr (w.take 15) = w := by
    rw [List.take_of_length_le short]
    refine List.takeWhile_eq_self_iff.mpr fun b listed => ?_
    have := digit_toNat (List.all_eq_true.mp digits b listed)
    refine decide_eq_true fun zero => ?_
    rw [zero] at this
    exact absurd this.1 (by decide)
  have fold : ∀ (w : Bytes) (n : UInt32) (m : Nat), w.all isDigit = true →
      n.toNat = m % 2 ^ 32 →
      (w.foldl (fun n b => n * 10 + (b.toUInt32 - 0x30)) n).toNat =
        w.foldl (fun n b => n * 10 + (b.toNat - 0x30)) m % 2 ^ 32 := by
    intro w
    induction w with
    | nil => exact fun n m _ same => same
    | cons b w ih =>
      intro n m all same
      rw [List.all_cons, Bool.and_eq_true] at all
      refine ih _ _ all.2 ?_
      have range := digit_toNat all.1
      have digit : (b.toUInt32 - 0x30).toNat = b.toNat - 0x30 := by
        rw [UInt32.toNat_sub_of_le]
        · rfl
        · exact UInt32.le_iff_toNat_le.mpr range.1
      rw [UInt32.toNat_add, UInt32.toNat_mul, digit, same]
      change (m % 2 ^ 32 * 10 % 2 ^ 32 + (b.toNat - 0x30)) % 2 ^ 32 =
        (m * 10 + (b.toNat - 0x30)) % 2 ^ 32
      omega
  unfold sizeNumber value
  rw [plain]
  exact fold w 0 0 digits rfl

section Downloads

variable {env : Env} {img : Nat → Option UInt8}

theorem tryFetch_spec (url : Text) (tries : Nat) (s : Upd) :
    ∃ calls, (tryFetch env url tries s).2 = { s with calls := calls } ∧
      ∀ body, (tryFetch env url tries s).1 = some body →
        body ≠ [] ∧ ∃ n, env.net n url = some body := by
  induction tries generalizing s with
  | zero => exact ⟨s.calls, rfl, fun body found => by cases found⟩
  | succ tries ih =>
    unfold tryFetch
    split
    · next b rest answer =>
      refine ⟨s.calls + 1, rfl, fun body found => ?_⟩
      obtain rfl := Option.some.inj found
      exact ⟨List.cons_ne_nil b rest, s.calls, answer⟩
    · obtain ⟨calls, same, found⟩ := ih { s with calls := s.calls + 1 }
      exact ⟨calls, same, found⟩

structure Frame (s t : Upd) : Prop where
  entry : t.entry = s.entry
  manifest : t.manifest = s.manifest
  writes : t.writes = s.writes

structure Filled (img : Nat → Option UInt8) (s : Upd) : Prop where
  bytes : ∀ i < s.len, img i = some (s.img i)
  most : s.len ≤ s.entry.size.toNat

theorem Filled.keep {s : Upd} (filled : Filled img s) {body : Bytes} {got : Nat}
    (size : s.len + got ≤ s.entry.size.toNat) (within : got ≤ body.length)
    (honest : ∀ i b, i < got → body[i]? = some b → img (s.len + i) = some b) :
    Filled img (keep s body got) := by
  refine ⟨fun i below => ?_, size⟩
  change i < s.len + got at below
  change img i = some (if s.len ≤ i ∧ i < s.len + got then body.getD (i - s.len) 0 else s.img i)
  by_cases old : i < s.len
  · rw [if_neg (by omega)]
    exact filled.bytes i old
  · obtain ⟨k, rfl⟩ := Nat.exists_eq_add_of_le (Nat.not_lt.mp old)
    have inside : k < body.length := by omega
    rw [if_pos (by omega), Nat.add_sub_cancel_left,
      honest k body[k] (by omega) (List.getElem?_eq_getElem inside),
      List.getD_eq_getElem _ _ inside]

theorem download_spec (honest : Honest env img) (rounds : Nat) (s : Upd)
    (few : s.entry.size.toNat ≤ updMax) (filled : Filled img s) :
    Frame s (download env rounds s).2 ∧
      ((download env rounds s).1 = true →
        Filled img (download env rounds s).2 ∧
          (download env rounds s).2.len = s.entry.size.toNat) ∧
      ((download env rounds s).1 = false → s.entry.size.toNat < s.len + rounds →
        (download env rounds s).2.result = -1) := by
  induction rounds generalizing s with
  | zero =>
    refine ⟨⟨rfl, rfl, rfl⟩, fun done => ?_, fun _ less => ?_⟩
    · cases done
    · exact absurd filled.most (by omega)
  | succ rounds ih =>
    unfold download
    by_cases more : s.len < s.entry.size.toNat
    · rw [if_pos more]
      simp only
      have want : min (s.entry.size.toNat - s.len) 32768 ≤ s.entry.size.toNat - s.len :=
        Nat.min_le_left _ _
      have one : 0 < min (s.entry.size.toNat - s.len) 32768 :=
        Nat.lt_min.mpr ⟨Nat.sub_pos_of_lt more, by decide⟩
      generalize min (s.entry.size.toNat - s.len) 32768 = w at want one
      have most : updMax < 10 ^ 15 := by decide
      have url : kernelUrl s.len w = request s.len w := kernelUrl_eq (by omega) (by omega)
      obtain ⟨calls, same, found⟩ := @tryFetch_spec env (kernelUrl s.len w) 3 s
      generalize tryFetch env (kernelUrl s.len w) 3 s = x at same found
      obtain ⟨answer, t⟩ := x
      obtain rfl := same
      cases answer with
      | none =>
        refine ⟨⟨rfl, rfl, rfl⟩, fun done => ?_, fun _ _ => rfl⟩
        cases done
      | some body =>
        obtain ⟨some, n, net⟩ := found body rfl
        rw [url] at net
        have pos := List.length_pos_of_ne_nil some
        have size : s.len + min body.length w ≤ s.entry.size.toNat := by
          have := Nat.min_le_right body.length w
          omega
        have same : Filled img { s with calls := calls } := ⟨filled.bytes, filled.most⟩
        have next := same.keep size (Nat.min_le_left _ _) fun i b below at' =>
          honest n s.len w body net i b (Nat.lt_of_lt_of_le below (Nat.min_le_right _ _)) at'
        obtain ⟨frame, done, stopped⟩ := ih (keep { s with calls := calls } body
          (min body.length w)) few next
        refine ⟨⟨frame.entry, frame.manifest, frame.writes⟩, done, fun stop less => ?_⟩
        refine stopped stop ?_
        change s.entry.size.toNat < s.len + min body.length w + rounds
        have progress : 0 < min body.length w := Nat.lt_min.mpr ⟨pos, one⟩
        omega
    · rw [if_neg more]
      refine ⟨⟨rfl, rfl, rfl⟩, fun _ => ⟨filled, ?_⟩, fun stop => ?_⟩
      · exact Nat.le_antisymm filled.most (Nat.not_lt.mp more)
      · cases stop

end Downloads

section Reading

variable {env : Env} {img : Nat → Option UInt8}

theorem announced {m : Bytes} {n : Nat} {e : Entry} (read : updParse m = some e)
    (size : Announces m n) : e.size.toNat = n := by
  obtain ⟨p, stop, found, digits, short, value_eq, small⟩ := size
  have parsed : updParse m = (some (p, stop) : Option (Nat × Nat)).map fun (p, stop) =>
      ⟨(field m p stop "build").take 39, (field m p stop "md5").take 39,
        (field m p stop "fnv64").take 19, sizeNumber (field m p stop "size")⟩ := by
    rw [← found]
    rfl
  obtain rfl := Option.some.inj (parsed.symm.trans read)
  calc (sizeNumber (field m p stop "size")).toNat
      = value (field m p stop "size") % 2 ^ 32 := sizeNumber_digits digits short
    _ = n := by rw [value_eq, Nat.mod_eq_of_lt small]

theorem hexDigit_ne_zero (v : UInt64) : hexDigit (v &&& 15) ≠ 0 := by
  have small : (v &&& 15).toNat < 16 := by
    rw [UInt64.toNat_and]
    exact Nat.lt_of_le_of_lt Nat.and_le_right (by decide)
  generalize v &&& 15 = d at small
  have all : ∀ k < 16, hexDigit (UInt64.ofNat k) ≠ 0 := by decide
  have same := all d.toNat small
  rwa [UInt64.ofNat_toNat] at same

theorem cstr_hexText (h : UInt64) (rest : Bytes) : cstr (hexText h ++ 0 :: rest) = hexText h := by
  unfold cstr
  rw [List.takeWhile_append_of_pos, List.takeWhile_cons_of_neg, List.append_nil]
  · decide
  · intro b listed
    obtain ⟨i, _, rfl⟩ := List.mem_map.mp listed
    exact decide_eq_true (hexDigit_ne_zero _)

theorem cstr_of_hash {w : Bytes} {h : UInt64} (same : (w ++ [0]).take 17 = hexText h ++ [0]) :
    cstr w = hexText h := by
  have stops : cstr (w ++ [0]) = cstr w := by
    unfold cstr
    rw [List.takeWhile_append]
    split
    · next whole =>
      have all : w.takeWhile (· ≠ 0) = w := (List.takeWhile_prefix _).eq_of_length whole
      rw [List.takeWhile_cons_of_neg (by decide), List.append_nil, all]
    · rfl
  have split : w ++ [0] = hexText h ++ 0 :: (w ++ [0]).drop 17 := by
    have whole := List.take_append_drop 17 (w ++ [0])
    rw [same, List.append_assoc] at whole
    exact whole.symm
  rw [← stops, split]
  exact cstr_hexText h _

theorem image_length (s : Upd) : (image s).length = s.len := by
  unfold image
  rw [List.length_map, List.length_range]

theorem Filled.image {s : Upd} (filled : Filled img s) (i : Nat) (x : UInt8)
    (there : (image s)[i]? = some x) : img i = some x := by
  have below : i < s.len := by
    have := List.getElem?_eq_some_iff.mp there
    rw [← image_length s]
    exact this.1
  unfold Update.image at there
  rw [List.getElem?_map, List.getElem?_range below] at there
  rw [filled.bytes i below]
  exact there

end Reading

section Runs

variable {env : Env} {img : Nat → Option UInt8} {s : Upd}

/-- The entry is that of the manifest that was read last, and an update is only
announced from one. -/
structure Known (s : Upd) : Prop where
  entry : ∀ m, s.manifest = some m → updParse m = some s.entry
  read : s.result = 2 → s.manifest ≠ none

theorem start_known : Known start := by
  constructor
  · intro m none
    cases none
  · intro two
    exact absurd two (by decide)

theorem updateCheck_spec (known : Known s) :
    Known (updateCheck env s).2 ∧ (updateCheck env s).2.writes = s.writes ∧
      ((updateCheck env s).1 = -1 ∧ (updateCheck env s).2.result = -1 ∨
        (updateCheck env s).1 = 1 ∧ (updateCheck env s).2.state = "up to date" ∨
        (updateCheck env s).1 = 2 ∧ (updateCheck env s).2.result = 2) := by
  have read {m : Bytes} {e : Entry} (parsed : updParse m = some e) (m' : Bytes)
      (same : some m = some m') : updParse m' = some e := by
    rw [← Option.some.inj same]
    exact parsed
  have failed : (-1 : Int) ≠ 2 := by decide
  unfold updateCheck
  simp only
  split
  · exact ⟨⟨known.entry, fun two => absurd two failed⟩, rfl, Or.inl ⟨rfl, rfl⟩⟩
  · next body _ =>
    split
    · exact ⟨⟨known.entry, fun two => absurd two failed⟩, rfl, Or.inl ⟨rfl, rfl⟩⟩
    · next e parsed =>
      by_cases empty : cstr e.latest = []
      · rw [if_pos empty]
        exact ⟨⟨read parsed, fun _ => Option.some_ne_none body⟩, rfl, Or.inl ⟨rfl, rfl⟩⟩
      · rw [if_neg empty]
        by_cases same : env.buildId = cstr e.latest
        · rw [if_pos same]
          exact ⟨⟨read parsed, fun _ => Option.some_ne_none body⟩, rfl, Or.inr (Or.inl ⟨rfl, rfl⟩)⟩
        · rw [if_neg same]
          exact ⟨⟨read parsed, fun _ => Option.some_ne_none body⟩, rfl, Or.inr (Or.inr ⟨rfl, rfl⟩)⟩

def Failed (s t : Upd) (r : Int) : Prop :=
  t.writes = s.writes ∧ r = -1 ∧ (t.result = -1 ∨ t.state = "install failed: bad size")

/-- One buffer is written, and it is the one that the manifest announces. -/
def Wrote (img : Nat → Option UInt8) (s t : Upd) : Prop :=
  ∃ m b, t.manifest = some m ∧ t.writes = s.writes ++ [b] ∧ Verified img m b

/-- The part behind the check. -/
theorem install_spec (honest : Honest env img) (known : Known s) (read : s.manifest ≠ none) :
    Known (install env s).2 ∧
      (Failed s (install env s).2 (install env s).1 ∨ Wrote img s (install env s).2) := by
  obtain ⟨m, manifest⟩ := Option.ne_none_iff_exists'.mp read
  unfold install
  by_cases bad : s.entry.size = 0 ∨ updMax < s.entry.size.toNat
  · rw [if_pos bad]
    exact ⟨⟨known.entry, known.read⟩, Or.inl ⟨rfl, rfl, Or.inr rfl⟩⟩
  · rw [if_neg bad]
    have few : s.entry.size.toNat ≤ updMax := Nat.not_lt.mp (not_or.mp bad).2
    have empty : Filled img { s with len := 0, progress := 0 } :=
      ⟨fun i below => absurd below (Nat.not_lt_zero i), Nat.zero_le _⟩
    obtain ⟨frame, done, stopped⟩ :=
      download_spec honest (s.entry.size.toNat + 1) { s with len := 0, progress := 0 } few empty
    generalize download env (s.entry.size.toNat + 1) { s with len := 0, progress := 0 } = x
      at frame done stopped
    obtain ⟨whole, t⟩ := x
    obtain ⟨entry, same, writes⟩ := frame
    change t.entry = s.entry at entry
    change t.manifest = s.manifest at same
    change t.writes = s.writes at writes
    have kept : ∀ m, t.manifest = some m → updParse m = some t.entry := by
      rw [entry, same]
      exact known.entry
    have there : t.manifest ≠ none := by
      rw [same]
      exact read
    cases whole with
    | false =>
      have result : t.result = -1 := stopped rfl (by
        change s.entry.size.toNat < 0 + (s.entry.size.toNat + 1)
        omega)
      exact ⟨⟨kept, fun _ => there⟩, Or.inl ⟨writes, rfl, Or.inl result⟩⟩
    | true =>
      obtain ⟨filled, length⟩ := done rfl
      change t.len = s.entry.size.toNat at length
      simp only
      by_cases differs : (t.entry.fnv ++ [0]).take 17 ≠ hexText (fnv64 (image t)) ++ [0]
      · rw [if_pos differs]
        exact ⟨⟨kept, fun _ => there⟩, Or.inl ⟨writes, rfl, Or.inl rfl⟩⟩
      · rw [if_neg differs]
        have hash := cstr_of_hash (not_not.mp differs)
        have parsed := kept m (same.trans manifest)
        have size : (image t).length = t.entry.size.toNat := by
          rw [image_length, length, entry]
        have verified : Verified img m (image t) :=
          ⟨⟨t.entry, parsed, hash, size⟩,
            fun n told => size.trans (announced parsed told), filled.image⟩
        have wrote : t.writes ++ [image t] = s.writes ++ [image t] := by rw [writes]
        cases env.write (image t) with
        | some why =>
          exact ⟨⟨kept, fun _ => there⟩,
            Or.inr ⟨m, image t, same.trans manifest, wrote, verified⟩⟩
        | none =>
          exact ⟨⟨kept, fun _ => there⟩,
            Or.inr ⟨m, image t, same.trans manifest, wrote, verified⟩⟩

theorem updateInstall_spec (honest : Honest env img) (known : Known s) :
    Known (updateInstall env s).2 ∧
      (Failed s (updateInstall env s).2 (updateInstall env s).1 ∨
        (updateInstall env s).2.writes = s.writes ∧ (updateInstall env s).1 = 1 ∧
          (updateInstall env s).2.state = "up to date" ∨
        Wrote img s (updateInstall env s).2) := by
  unfold updateInstall
  by_cases two : s.result = 2
  · rw [if_pos two]
    obtain ⟨after, ends⟩ := install_spec honest known (known.read two)
    exact ⟨after, ends.imp_right Or.inr⟩
  · rw [if_neg two]
    obtain ⟨checked, writes, ends⟩ := @updateCheck_spec env s known
    generalize updateCheck env s = x at checked writes ends
    obtain ⟨r, t⟩ := x
    change t.writes = s.writes at writes
    simp only at checked ends ⊢
    obtain ⟨failed, result⟩ | ⟨one, state⟩ | ⟨available, result⟩ := ends
    · rw [if_neg (by omega)]
      exact ⟨checked, Or.inl ⟨writes, failed, Or.inl result⟩⟩
    · rw [if_neg (by omega)]
      exact ⟨checked, Or.inr (Or.inl ⟨writes, one, state⟩)⟩
    · rw [if_pos available]
      obtain ⟨after, ends⟩ := install_spec honest checked (checked.read result)
      unfold Failed Wrote at ends ⊢
      rw [writes] at ends
      exact ⟨after, ends.imp_right Or.inr⟩

theorem run_known (honest : Honest env img) (run : Runs (step env) (fun _ _ => True) start s) :
    Known s := by
  refine run.invariant start_known fun s op s' known _ next => ?_
  cases op with
  | check =>
    obtain rfl := Option.some.inj next
    exact (updateCheck_spec known).1
  | install =>
    obtain rfl := Option.some.inj next
    exact (updateInstall_spec honest known).1

/-- In every state that is reached, a request to install writes the announced image once,
or it writes nothing and says why. -/
theorem install_writes_announced (honest : Honest env img) {s : Upd}
    (run : Runs (step env) (fun _ _ => True) start s) :
    Failed s (updateInstall env s).2 (updateInstall env s).1 ∨
      (updateInstall env s).2.writes = s.writes ∧ (updateInstall env s).1 = 1 ∧
        (updateInstall env s).2.state = "up to date" ∨
      Wrote img s (updateInstall env s).2 :=
  (updateInstall_spec honest (run_known honest run)).2

end Runs

def oneByte (size build : String) : Bytes :=
  bytesOf ("\x7b\"pi5\":\x7b\"size\":" ++ size ++
    ",\"fnv64\":\"af63fc4c860222ec\",\"build\":\"" ++ build ++ "\"\x7d\x7d")

/-- The image is `A` everywhere and is sent a byte at a time. -/
def sender (manifest : Bytes) : Env where
  net _ url := some (if url = manifestUrl then manifest else [0x41])
  write _ := none
  buildId := bytesOf "b1"

theorem request_ne_manifest (off want : Nat) : request off want ≠ manifestUrl := by
  intro same
  have first := congrArg (List.take 49) same
  unfold request at first
  rw [List.append_assoc, List.append_assoc,
    List.take_append_of_le_length (by decide)] at first
  exact absurd first (by decide)

theorem sender_honest (manifest : Bytes) : Honest (sender manifest) fun _ => some 0x41 := by
  intro n off want body answer i b _ there
  have plain : (sender manifest).net n (request off want) = some [0x41] := by
    unfold sender
    exact congrArg some (if_neg (request_ne_manifest off want))
  obtain rfl := Option.some.inj (plain.symm.trans answer)
  obtain ⟨below, same⟩ := List.getElem?_eq_some_iff.mp there
  rw [List.getElem_singleton] at same
  rw [same]

theorem install_writes_announced_here :
    Failed start (updateInstall (sender (oneByte "1" "b2")) start).2
        (updateInstall (sender (oneByte "1" "b2")) start).1 ∨
      (updateInstall (sender (oneByte "1" "b2")) start).2.writes = start.writes ∧
        (updateInstall (sender (oneByte "1" "b2")) start).1 = 1 ∧
        (updateInstall (sender (oneByte "1" "b2")) start).2.state = "up to date" ∨
      Wrote (fun _ => some 0x41) start (updateInstall (sender (oneByte "1" "b2")) start).2 :=
  install_writes_announced (sender_honest _) (Runs.refl start)

/-- A manifest for the running kernel ends the request without a failure, and
a size beyond 32 bits is written as another length. -/
theorem up_to_date_no_failure :
    ((updateInstall (sender (oneByte "1" "b1")) start).1 = 1 ∧
      (updateInstall (sender (oneByte "1" "b1")) start).2.writes = []) ∧
    ((updateInstall (sender (oneByte "4294967297" "b2")) start).1 = 0 ∧
      (updateInstall (sender (oneByte "4294967297" "b2")) start).2.writes = [[0x41]]) := by
  decide +kernel

end XinuRpi5.System.Update
