/- source: system/browser.c
   digest: Which requests the page proxy answers with exactly the bytes they ask for. -/

import Mathlib

/-!
A string is the list of its bytes in front of the NUL. The fetch over the wire is a
parameter: its result, the header and the body that it leaves. Every index of the cached
body that a reply reads is noted.
-/

namespace XinuRpi5.System.ProxyReplies

abbrev Bytes := List UInt8

def proxyChunk : Int := 1200

/-- A value of type `int`, which wraps. -/
def int (x : Int) : Int := x.bmod 4294967296

def lower (c : UInt8) : UInt8 := if 65 ≤ c ∧ c ≤ 90 then c + 32 else c

/-- `b_eqn`: the first bytes of two strings are the same up to case. -/
def bEqn (a b : Bytes) (n : Nat) : Bool :=
  ((a ++ [0]).take n).map lower == ((b ++ [0]).take n).map lower

/-- The `br_px_` variables; the body has `bytes` in and around its array. -/
structure Proxy where
  url : Bytes
  body : Int → UInt8
  len : Int
  ctype : Bytes
  err : Bytes
  want : Bytes

/-- A datagram that is sent: whether it is a D reply, what stands in front of the body's
bytes, and the indices of these. -/
structure Reply where
  isData : Bool
  head : Bytes
  reads : List Int

def isDigit (c : UInt8) : Bool := 48 ≤ c && c ≤ 57

def digitOf (c : UInt8) : Int := (c.toNat : Int) - 48

def offDigits (pl : Bytes) : Bytes := (pl.drop 2).takeWhile isDigit

/-- `off`. -/
def offsetOf (pl : Bytes) : Int :=
  (offDigits pl).foldl (fun off c => int (off * 10 + digitOf c)) 0

def asked (pl : Bytes) : Bytes :=
  (((pl.drop 2).dropWhile isDigit).dropWhile (· == 32)).takeWhile (32 < ·)

def digits (n : Nat) : Bytes :=
  if n = 0 then [] else digits (n / 10) ++ [48 + UInt8.ofNat (n % 10)]

/-- `PUTNUM`, which writes no digit of a negative number. -/
def putNum (v : Int) : Bytes := (if v = 0 then [48] else digits v.toNat) ++ [32]

/-- What `browser_proxy_request` sends, and the variables behind it. -/
def request (s : Proxy) (pl : Bytes) : Option Reply × Proxy :=
  let url := (asked pl).take 255
  if pl.length < 4 ∨ pl.getD 0 0 ≠ 71 ∨ pl.getD 1 0 ≠ 32 ∨ url = [] then (none, s)
  else if 0 ≤ s.len ∧ bEqn url s.url (url.length + 1) then
    let off := offsetOf pl
    let n := min (max (int (s.len - off)) 0) proxyChunk
    (some ⟨true, [68, 32] ++ putNum off ++ putNum s.len ++ putNum n ++ s.ctype ++ [10],
      (List.range n.toNat).map fun (i : Nat) => off + (i : Int)⟩, s)
  else if s.err ≠ [] ∧ ¬ bEqn url s.want (url.length + 1) ∧ bEqn url s.url (url.length + 1) then
    (some ⟨false, [69, 32] ++ s.err, []⟩, s)
  else (some ⟨false, [87], []⟩, if s.want = [] then { s with want := url, err := [] } else s)

/-- `content-type:`. -/
def contentKey : Bytes := [99, 111, 110, 116, 101, 110, 116, 45, 116, 121, 112, 101, 58]

def contentType (header : Bytes) : Bytes :=
  let kl := contentKey.length
  match (List.range (header.length - kl)).find? fun i =>
    ((header.drop i).take kl).map lower == contentKey with
  | none => [116, 101, 120, 116, 47, 104, 116, 109, 108]
  | some i =>
    ((((header.drop (i + kl)).dropWhile (· == 32)).takeWhile fun c =>
      c ≠ 13 && c ≠ 10 && c ≠ 59).take 60).takeWhile (· ≠ 0)

inductive Fetch where
  | page (header body : Bytes)
  | failed (note : Bytes)

def poll (s : Proxy) (fetch : Fetch) : Proxy :=
  if s.want = [] then s
  else
    match fetch with
    | .page header body =>
      { url := s.want
        body := fun i => if 0 ≤ i ∧ i < min body.length 65536 then body.getD i.toNat 0 else s.body i
        len := min body.length 65536
        ctype := contentType header
        err := []
        want := [] }
    | .failed note => { s with url := s.want, len := -1, err := note.take 95, want := [] }

inductive Event where
  | request (pl : Bytes)
  | poll (fetch : Fetch)

def step (s : Proxy) : Event → Proxy
  | .request pl => (request s pl).2
  | .poll fetch => poll s fetch

def start (body : Int → UInt8) : Proxy := ⟨[], body, -1, [], [], []⟩

def written (pl : Bytes) : Nat := (offDigits pl).foldl (fun n c => n * 10 + (c.toNat - 48)) 0

def share (s : Proxy) (off : Nat) : Nat := min 1200 (s.len.toNat - off)

def slice (s : Proxy) (off n : Nat) : Bytes := (List.range n).map fun i => s.body (off + i : Nat)

structure Exact (s : Proxy) (pl : Bytes) (r : Reply) : Prop where
  url : r.isData = true → asked pl = s.url
  bytes : r.isData = true → r.reads.map s.body = slice s (written pl) (share s (written pl))
  inside : ∀ i ∈ r.reads, 0 ≤ i ∧ i < s.len
  room : r.head.length + r.reads.length ≤ 1500

def Good (s : Proxy) : Event → Prop
  | .request pl => ∀ r, (request s pl).1 = some r → Exact s pl r
  | .poll _ => True

/-- The wrapped offset is the one that is written, or at or behind the end of the body, or
so far in front of it that the difference wraps as well. -/
def OffsetFits (len : Int) (off : Nat) : Prop :=
  off < 2 ^ 31 ∨ len ≤ off % 2 ^ 32 ∧ (off % 2 ^ 32 : Nat) ≤ 2 ^ 31 + len

def Asks (pl : Bytes) : Prop :=
  4 ≤ pl.length ∧ pl.getD 0 0 = 71 ∧ pl.getD 1 0 = 32 ∧ (asked pl).take 255 ≠ []

instance (pl : Bytes) : Decidable (Asks pl) := inferInstanceAs (Decidable (_ ∧ _))

/-- A request for a url that agrees with that of the page up to case in its first 255
bytes asks for that url, and its offset fits. -/
def Meets (s : Proxy) : Event → Prop
  | .request pl => Asks pl → 0 ≤ s.len →
      bEqn ((asked pl).take 255) s.url (((asked pl).take 255).length + 1) →
      asked pl = s.url ∧ OffsetFits s.len (written pl)
  | .poll _ => True

def Along (P : Proxy → Event → Prop) : Proxy → List Event → Prop
  | _, [] => True
  | s, e :: es => P s e ∧ Along P (step s e) es

theorem int_eq {x : Int} (low : -2 ^ 31 ≤ x) (high : x < 2 ^ 31) : int x = x :=
  Int.bmod_eq_of_le (by omega) (by omega)

/-- The wrapped accumulator is the wrapped number. -/
theorem offsetOf_written (pl : Bytes) : offsetOf pl = int (written pl) := by
  have all : ∀ c ∈ offDigits pl, 48 ≤ c.toNat := by
    intro c listed
    have digit := List.mem_takeWhile_imp listed
    rw [isDigit, Bool.and_eq_true, decide_eq_true_eq] at digit
    exact UInt8.le_iff_toNat_le.mp digit.1
  have general : ∀ (l : Bytes) (a : Int) (n : Nat), (∀ c ∈ l, 48 ≤ c.toNat) → a = int n →
      l.foldl (fun off c => int (off * 10 + digitOf c)) a =
        int (l.foldl (fun n c => n * 10 + (c.toNat - 48)) n : Nat) := by
    intro l
    induction l with
    | nil => exact fun a n _ same => same
    | cons c l ih =>
      intro a n digits same
      have low := digits c List.mem_cons_self
      refine ih _ _ (fun d listed => digits d (List.mem_cons_of_mem c listed)) ?_
      simp only [same, int, digitOf]
      rw [← Int.bmod_add_bmod, Int.bmod_mul_bmod, Int.bmod_add_bmod]
      push_cast [low]
      rfl
  exact general _ 0 0 all rfl

theorem digits_length {n k : Nat} (small : n < 10 ^ k) : (digits n).length ≤ k := by
  induction k generalizing n with
  | zero =>
    obtain rfl : n = 0 := by omega
    rw [digits, if_pos rfl]
    exact Nat.le_refl _
  | succ k ih =>
    rw [digits]
    split_ifs
    · exact Nat.zero_le _
    · rw [List.length_append, List.length_singleton]
      exact Nat.succ_le_succ (ih (by rw [Nat.pow_succ] at small; omega))

theorem putNum_length {v : Int} (high : v < 10000000000) : (putNum v).length ≤ 11 := by
  have short : (digits v.toNat).length ≤ 10 := digits_length (by omega)
  rw [putNum, List.length_append, List.length_singleton]
  split_ifs
  · simp
  · omega

/-- Where the offset is no `int`, nothing is carried exactly when it fits. -/
theorem carried_iff {len : Int} (low : 0 ≤ len) (high : len ≤ 65536) {off : Nat}
    (large : 2 ^ 31 ≤ off) : int (len - int off) ≤ 0 ↔ OffsetFits len off := by
  rw [OffsetFits, int, int, Int.bmod_def, Int.bmod_def]
  split_ifs <;> omega

section Replies

variable {s : Proxy} {pl : Bytes}

structure Kept (s : Proxy) : Prop where
  len : s.len ≤ 65536
  url : s.url.length ≤ 255
  want : s.want.length ≤ 255
  ctype : s.ctype.length ≤ 60
  err : s.err.length ≤ 95

theorem contentType_length (header : Bytes) : (contentType header).length ≤ 60 := by
  rw [contentType]
  split
  · decide
  · exact ((List.takeWhile_sublist _).length_le).trans (List.length_take_le _ _)

theorem Kept.step (kept : Kept s) (e : Event) : Kept (step s e) := by
  cases e with
  | request pl =>
    have cut : ((asked pl).take 255).length ≤ 255 := List.length_take_le _ _
    simp only [ProxyReplies.step, request]
    split_ifs
    · exact kept
    · exact kept
    · exact kept
    · exact ⟨kept.len, kept.url, cut, kept.ctype, Nat.zero_le _⟩
    · exact kept
  | poll fetch =>
    simp only [ProxyReplies.step, poll]
    split_ifs
    · exact kept
    · cases fetch with
      | page header body =>
        exact ⟨by simp only; omega, kept.want, Nat.zero_le _, contentType_length header,
          Nat.zero_le _⟩
      | failed note =>
        exact ⟨by simp only; omega, kept.want, Nat.zero_le _, kept.ctype, List.length_take_le _ _⟩

def readsOf (len off : Int) : List Int :=
  (List.range (min (max (int (len - off)) 0) proxyChunk).toNat).map fun (i : Nat) => off + (i : Int)

theorem mem_readsOf {len off i : Int} (listed : i ∈ readsOf len off) :
    off ≤ i ∧ i < off + int (len - off) := by
  obtain ⟨k, inside, rfl⟩ := List.mem_map.mp listed
  have small := List.mem_range.mp inside
  have chunk : proxyChunk = 1200 := rfl
  omega

/-- The reply to an offset that is an `int` carries what is asked for. -/
theorem reads_small {off : Nat} (kept : Kept s) (page : 0 ≤ s.len) (small : off < 2 ^ 31) :
    (readsOf s.len (int off)).map s.body = slice s off (share s off) ∧
      ∀ i ∈ readsOf s.len (int off), 0 ≤ i ∧ i < s.len := by
  have high := kept.len
  have chunk : proxyChunk = 1200 := rfl
  rw [@int_eq off (by omega) (by omega)]
  have difference : int (s.len - off) = s.len - off := int_eq (by omega) (by omega)
  refine ⟨?_, fun i listed => ?_⟩
  · rw [readsOf, difference, slice, share, List.map_map]
    rw [show (min (max (s.len - (off : Int)) 0) proxyChunk).toNat = min 1200 (s.len.toNat - off) by
      omega]
    exact List.map_congr_left fun i _ => congrArg s.body (by simp)
  · have bounds := mem_readsOf listed
    omega

/-- To another offset nothing is to be carried, which is so exactly when it fits. -/
theorem reads_large {off : Nat} (kept : Kept s) (page : 0 ≤ s.len) (large : 2 ^ 31 ≤ off) :
    ((readsOf s.len (int off)).map s.body = slice s off (share s off) ∧
      ∀ i ∈ readsOf s.len (int off), 0 ≤ i ∧ i < s.len) ↔ OffsetFits s.len off := by
  have high := kept.len
  have chunk : proxyChunk = 1200 := rfl
  have none' : share s off = 0 := by
    rw [share]
    omega
  rw [none', ← carried_iff page high large]
  constructor
  · rintro ⟨bytes, -⟩
    have length := congrArg List.length bytes
    rw [readsOf, List.length_map, List.length_map, List.length_range, slice, List.length_map,
      List.length_range] at length
    omega
  · intro nothing
    have empty : readsOf s.len (int off) = [] := by
      rw [readsOf, show (min (max (int (s.len - int off)) 0) proxyChunk).toNat = 0 by omega]
      rfl
    rw [empty]
    exact ⟨rfl, nofun⟩

theorem reads_iff {off : Nat} (kept : Kept s) (page : 0 ≤ s.len) :
    ((readsOf s.len (int off)).map s.body = slice s off (share s off) ∧
      ∀ i ∈ readsOf s.len (int off), 0 ≤ i ∧ i < s.len) ↔ OffsetFits s.len off := by
  by_cases small : off < 2 ^ 31
  · exact iff_of_true (reads_small kept page small) (.inl small)
  · exact reads_large kept page (by omega)

theorem request_answers : (request s pl).1 ≠ none ↔ Asks pl := by
  simp only [request, Asks]
  split_ifs with bad
  · refine iff_of_false (fun some' => some' rfl) fun asks => ?_
    obtain ⟨size, g, space, url⟩ := asks
    rcases bad with bad | bad | bad | bad
    · omega
    · exact bad g
    · exact bad space
    · exact url bad
  all_goals
    simp only [not_or, Nat.not_lt, not_not] at bad
    exact iff_of_true (Option.some_ne_none _) bad

/-- A D reply, with the number of its bytes. -/
theorem request_hit (kept : Kept s) (page : 0 ≤ s.len)
    (same : bEqn ((asked pl).take 255) s.url (((asked pl).take 255).length + 1) = true)
    {r : Reply} (sent : (request s pl).1 = some r) : r.isData = true ∧
      r.reads = readsOf s.len (int (written pl)) ∧ r.head.length + r.reads.length ≤ 1500 := by
  simp only [request] at sent
  split_ifs at sent with bad hit
  · cases sent
    have high := kept.len
    have ctype := kept.ctype
    have chunk : proxyChunk = 1200 := rfl
    refine ⟨rfl, by rw [← offsetOf_written]; rfl, ?_⟩
    have wraps : offsetOf pl < 2 ^ 31 := by
      rw [offsetOf_written, int, Int.bmod_def]
      split_ifs <;> omega
    have first := @putNum_length (offsetOf pl) (by omega)
    have second := @putNum_length s.len (by omega)
    have third := @putNum_length
      (min (max (int (s.len - offsetOf pl)) 0) proxyChunk) (by omega)
    simp only [List.length_append, List.length_map, List.length_range, List.length_cons,
      List.length_nil]
    omega
  all_goals exact absurd ⟨page, same⟩ hit

theorem request_other (kept : Kept s) {r : Reply} (sent : (request s pl).1 = some r)
    (miss : ¬ (0 ≤ s.len ∧
      bEqn ((asked pl).take 255) s.url (((asked pl).take 255).length + 1) = true)) :
    Exact s pl r := by
  have err := kept.err
  simp only [request] at sent
  split_ifs at sent
  · cases sent
    refine ⟨nofun, nofun, nofun, ?_⟩
    simp only [List.length_append, List.length_cons, List.length_nil]
    omega
  all_goals
    cases sent
    exact ⟨nofun, nofun, nofun, by decide⟩

theorem Kept.good_iff (kept : Kept s) (e : Event) : Good s e ↔ Meets s e := by
  cases e with
  | poll fetch => exact iff_of_true trivial trivial
  | request pl =>
    by_cases hit : 0 ≤ s.len ∧
        bEqn ((asked pl).take 255) s.url (((asked pl).take 255).length + 1) = true
    · cases sent : (request s pl).1 with
      | none =>
        exact iff_of_true (fun r eq => by rw [sent] at eq; cases eq)
          fun asks => absurd sent (request_answers.mpr asks)
      | some r =>
        obtain ⟨data, reads, room⟩ := request_hit kept hit.1 hit.2 sent
        have carried := @reads_iff s (written pl) kept hit.1
        rw [← reads] at carried
        constructor
        · intro good _ _ _
          have exact' := good r sent
          exact ⟨exact'.url data, carried.mp ⟨exact'.bytes data, exact'.inside⟩⟩
        · intro meets r' eq
          cases sent.symm.trans eq
          have asks := request_answers.mp (by rw [sent]; exact Option.some_ne_none r)
          obtain ⟨url, fits⟩ := meets asks hit.1 hit.2
          obtain ⟨bytes, inside⟩ := carried.mpr fits
          exact ⟨fun _ => url, fun _ => bytes, inside, room⟩
    · exact iff_of_true (fun r sent => request_other kept sent hit)
        fun _ page same => absurd ⟨page, same⟩ hit

/-- The page `a` is kept, and `G 4294967296 a` asks for what is behind its end. -/
theorem wrapped_offset_inexact : ¬ Along Good (start fun _ => 0)
    [.request [71, 32, 48, 32, 97], .poll (.page [] [1]),
      .request [71, 32, 52, 50, 57, 52, 57, 54, 55, 50, 57, 54, 32, 97]] := by
  intro good
  have kept : Kept (start fun _ => 0) := by constructor <;> decide
  have third := (((kept.step _).step _).good_iff _).mp good.2.2.1
  exact absurd (third (by decide) (by decide) (by decide)).2 (by rw [OffsetFits]; decide)

/-- Chunk by chunk the slices are the body. -/
theorem slices_join (s : Proxy) (m : Nat) :
    (List.range m).flatMap (fun j => slice s (1200 * j) (share s (1200 * j))) =
      slice s 0 (min (1200 * m) s.len.toNat) := by
  induction m with
  | zero => simp [slice]
  | succ m ih =>
    rw [List.range_succ, List.flatMap_append, ih, List.flatMap_singleton]
    have next : min (1200 * (m + 1)) s.len.toNat =
        min (1200 * m) s.len.toNat + share s (1200 * m) := by
      rw [share]
      omega
    rw [next, slice, slice, slice, List.range_add, List.map_append, List.map_map]
    congr 1
    by_cases inside : 1200 * m ≤ s.len.toNat
    · rw [Nat.min_eq_left inside]
      exact List.map_congr_left fun i _ => by simp
    · have none' : share s (1200 * m) = 0 := by
        rw [share]
        omega
      rw [none']
      rfl

end Replies

/-- Over every sequence of requests and polls the replies are exact if and only if each
request that is answered from the page has the page's url and an offset that fits; and as
long as the page stays, good answers to consecutive offsets make up the body. -/
theorem replies_exact_iff (body : Int → UInt8) (es : List Event) :
    (Along Good (start body) es ↔ Along Meets (start body) es) ∧
    ∀ (s : Proxy) (m : Nat) (pl : Nat → Bytes) (r : Nat → Reply),
      (∀ j, j < m → written (pl j) = 1200 * j ∧ (request s (pl j)).1 = some (r j) ∧
        (r j).isData = true ∧ Good s (.request (pl j))) →
      (List.range m).flatMap (fun j => (r j).reads.map s.body) =
        slice s 0 (min (1200 * m) s.len.toNat) := by
  constructor
  · have general : ∀ s : Proxy, Kept s → (Along Good s es ↔ Along Meets s es) := by
      induction es with
      | nil => exact fun _ _ => Iff.rfl
      | cons e es ih =>
        intro s kept
        rw [Along, Along, kept.good_iff e, ih _ (kept.step e)]
    exact general _ ⟨(by decide : (-1 : Int) ≤ 65536), Nat.zero_le _, Nat.zero_le _, Nat.zero_le _, Nat.zero_le _⟩
  · intro s m pl r answers
    rw [← slices_join]
    refine List.flatMap_congr fun j listed => ?_
    obtain ⟨off, sent, data, good⟩ := answers j (List.mem_range.mp listed)
    rw [(good (r j) sent).bytes data, off]

end XinuRpi5.System.ProxyReplies
