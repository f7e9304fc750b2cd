/- source: llm/llm.c
   digest: The tokenizer's merges keep the text and end without a pair to merge. -/

import Mathlib
import XinuRpi5.Lib.WhileLoop

/-!
The scores are elements of a linear order, as floats that are numbers are; `floor` is the
`-1e30` that the search for the best pair starts from. An index outside its buffer, or a
loop that does not end, has no result.
-/

namespace XinuRpi5.Llm.Encode

open Lib.WhileLoop

section Model

abbrev Bytes := List UInt8

variable {F : Type} [LinearOrder F]

/-- `g_piece`, `g_plen` and `g_score`. -/
structure Piece (F : Type) where
  text : Bytes
  score : F

def findPiece (vocab : List (Piece F)) (s : Bytes) : Option Nat :=
  vocab.findIdx? fun p => p.text == s

def put {α : Type} (room : Nat) (used : List α) (x : α) : Option (List α) :=
  if used.length < room then some (used ++ [x]) else none

/-- The loop that copies the prompt into `tmp`. -/
def fillTmp : Bytes → Bytes → Option Bytes
  | [], tmp => some tmp
  | c :: rest, tmp => if tmp.length < 256 then put 260 tmp c >>= fillTmp rest else some tmp

def chars (vocab : List (Piece F)) (maxtoks : Nat) : Bytes → List Nat → Option (List Nat)
  | [], toks => some toks
  | c :: rest, toks =>
    if toks.length < maxtoks then
      match findPiece vocab [c] with
      | none => chars vocab maxtoks rest toks
      | some id => put 256 toks id >>= chars vocab maxtoks rest
    else some toks

/-- The round of the search for the pair at `i`; `buf` has 16 bytes. -/
def consider (vocab : List (Piece F)) (toks : List Nat) (best : F × Option (Nat × Nat)) (i : Nat) :
    Option (F × Option (Nat × Nat)) := do
  let a ← vocab[← toks[i]?]?
  let b ← vocab[← toks[i + 1]?]?
  if 15 < a.text.length + b.text.length then some best
  else do
    let buf ← (a.text ++ b.text).foldlM (put 16) []
    match findPiece vocab buf with
    | none => some best
    | some id => do
      let p ← vocab[id]?
      some (if best.1 < p.score then (p.score, some (i, id)) else best)

def bestPair (vocab : List (Piece F)) (floor : F) (toks : List Nat) :
    Option (F × Option (Nat × Nat)) :=
  (List.range (toks.length - 1)).foldlM (consider vocab toks) (floor, none)

/-- `toks[bi] = bid`, and what stands behind the pair moves up. -/
def join (toks : List Nat) (bi bid : Nat) : List Nat := (toks.set bi bid).eraseIdx (bi + 1)

def paired (vocab : List (Piece F)) (floor : F) (toks : List Nat) :
    Option (List Nat × Option (Nat × Nat)) := do
  let best ← bestPair vocab floor toks
  some (toks, best.2)

def merges (vocab : List (Piece F)) (floor : F) (toks : List Nat) : Option (List Nat) := do
  let first ← paired vocab floor toks
  let last ← whileLoop first (fun s => s.2.isSome) fun (toks, pair) => do
    let (bi, bid) ← pair
    paired vocab floor (join toks bi bid)
  some last.1

/-- `bpe_encode` without BOS. -/
def bpeEncode (vocab : List (Piece F)) (floor : F) (maxtoks : Nat) (prompt : Bytes) :
    Option (List Nat) := do
  let tmp ← fillTmp prompt [32]
  let toks ← chars vocab maxtoks tmp []
  merges vocab floor toks

def pieceOf (vocab : List (Piece F)) (id : Nat) : Bytes := (vocab[id]?).elim [] Piece.text

def textOf (vocab : List (Piece F)) (toks : List Nat) : Bytes := toks.flatMap (pieceOf vocab)

/-- The tokens at `i` and behind it make a piece of at most 15 bytes. -/
def Mergeable (vocab : List (Piece F)) (toks : List Nat) (i : Nat) : Prop :=
  ∃ a b, toks[i]? = some a ∧ toks[i + 1]? = some b ∧
    (pieceOf vocab a ++ pieceOf vocab b).length ≤ 15 ∧
    ∃ p ∈ vocab, p.text = pieceOf vocab a ++ pieceOf vocab b

end Model

section Buffers

variable {F : Type} {vocab : List (Piece F)}

theorem fill_put {α : Type} (room : Nat) (s used : List α) (fits : used.length + s.length ≤ room) :
    s.foldlM (put room) used = some (used ++ s) := by
  induction s generalizing used with
  | nil => rw [List.append_nil]; rfl
  | cons x s ih =>
    rw [List.length_cons] at fits
    have here : put room used x = some (used ++ [x]) := if_pos (by omega)
    rw [List.foldlM_cons, here]
    refine (ih _ ?_).trans ?_
    · rw [List.length_append, List.length_singleton]
      omega
    · rw [List.append_assoc, List.singleton_append]

theorem fillTmp_all (s tmp : Bytes) (fits : tmp.length + s.length ≤ 256) :
    fillTmp s tmp = some (tmp ++ s) := by
  induction s generalizing tmp with
  | nil => rw [List.append_nil]; rfl
  | cons c s ih =>
    rw [List.length_cons] at fits
    rw [fillTmp, if_pos (by omega), put, if_pos (by omega)]
    refine (ih _ ?_).trans ?_
    · rw [List.length_append, List.length_singleton]
      omega
    · rw [List.append_assoc, List.singleton_append]

theorem findPiece_some {s : Bytes} {id : Nat} (found : findPiece vocab s = some id) :
    ∃ p, vocab[id]? = some p ∧ p.text = s := by
  obtain ⟨inside, same, -⟩ := List.findIdx?_eq_some_iff_getElem.mp found
  exact ⟨vocab[id], List.getElem?_eq_getElem inside, by simpa using same⟩

theorem findPiece_none {s : Bytes} (missing : findPiece vocab s = none) :
    ∀ p ∈ vocab, p.text ≠ s := by
  intro p listed
  simpa using List.findIdx?_eq_none_iff.mp missing p listed

theorem pieceOf_eq {id : Nat} {p : Piece F} (is : vocab[id]? = some p) :
    pieceOf vocab id = p.text := by rw [pieceOf, is, Option.elim_some]

def Known (vocab : List (Piece F)) (toks : List Nat) : Prop :=
  ∀ id ∈ toks, ∃ p, vocab[id]? = some p

theorem chars_text {maxtoks : Nat} (limit : maxtoks ≤ 256) (s : Bytes) (toks : List Nat)
    (single : ∀ c ∈ s, ∃ p ∈ vocab, p.text = [c]) (fits : toks.length + s.length ≤ maxtoks)
    (known : Known vocab toks) : ∃ toks', chars vocab maxtoks s toks = some toks' ∧
      Known vocab toks' ∧ textOf vocab toks' = textOf vocab toks ++ s := by
  induction s generalizing toks with
  | nil => exact ⟨toks, rfl, known, (List.append_nil _).symm⟩
  | cons c s ih =>
    rw [List.length_cons] at fits
    rw [chars, if_pos (by omega)]
    cases found : findPiece vocab [c] with
    | none =>
      obtain ⟨p, listed, same⟩ := single c List.mem_cons_self
      exact absurd same (findPiece_none found p listed)
    | some id =>
      obtain ⟨p, is, same⟩ := findPiece_some found
      have here : put 256 toks id = some (toks ++ [id]) := if_pos (by omega)
      have known' : Known vocab (toks ++ [id]) := by
        intro x listed
        rcases List.mem_append.mp listed with old | new
        · exact known x old
        · exact ⟨p, by rwa [List.mem_singleton.mp new]⟩
      obtain ⟨toks', done, known'', text⟩ := ih (toks ++ [id])
        (fun c listed => single c (List.mem_cons_of_mem _ listed))
        (by rw [List.length_append, List.length_singleton]; omega) known'
      refine ⟨toks', ?_, known'', text.trans ?_⟩
      · simp only [here, Option.bind_eq_bind, Option.bind_some]
        exact done
      · rw [textOf, textOf, List.flatMap_append, List.flatMap_singleton, pieceOf_eq is, same,
          List.append_assoc, List.singleton_append]

end Buffers

section Merging

variable {F : Type} [LinearOrder F] {vocab : List (Piece F)} {floor : F} {toks : List Nat}

structure Searched (vocab : List (Piece F)) (floor : F) (toks : List Nat) (rounds : Nat)
    (best : F × Option (Nat × Nat)) : Prop where
  nothing : best.2 = none → best.1 = floor ∧ ∀ i, i < rounds → ¬ Mergeable vocab toks i
  pair : ∀ i id, best.2 = some (i, id) → ∃ a b p, toks[i]? = some a ∧ toks[i + 1]? = some b ∧
    vocab[id]? = some p ∧ p.text = pieceOf vocab a ++ pieceOf vocab b

theorem consider_searched (above : ∀ p ∈ vocab, floor < p.score) (known : Known vocab toks)
    {rounds : Nat} (inside : rounds + 1 < toks.length) {best : F × Option (Nat × Nat)}
    (searched : Searched vocab floor toks rounds best) :
    ∃ best', consider vocab toks best rounds = some best' ∧
      Searched vocab floor toks (rounds + 1) best' := by
  have first : toks[rounds]? = some toks[rounds] := List.getElem?_eq_getElem (by omega)
  have second : toks[rounds + 1]? = some toks[rounds + 1] := List.getElem?_eq_getElem inside
  obtain ⟨a, isA⟩ := known toks[rounds] (List.getElem_mem _)
  obtain ⟨b, isB⟩ := known toks[rounds + 1] (List.getElem_mem _)
  -- where nothing was found the pair of this round is not to be merged
  have skip (not : ¬ Mergeable vocab toks rounds) :
      Searched vocab floor toks (rounds + 1) best := by
    refine ⟨fun none' => ⟨(searched.nothing none').1, fun i below => ?_⟩, searched.pair⟩
    rcases Nat.lt_succ_iff_lt_or_eq.mp below with early | rfl
    · exact (searched.nothing none').2 i early
    · exact not
  have text : pieceOf vocab toks[rounds] ++ pieceOf vocab toks[rounds + 1] = a.text ++ b.text := by
    rw [pieceOf_eq isA, pieceOf_eq isB]
  have only {x y : Nat} (isX : toks[rounds]? = some x) (isY : toks[rounds + 1]? = some y) :
      pieceOf vocab x ++ pieceOf vocab y = a.text ++ b.text := by
    rw [first] at isX
    rw [second] at isY
    cases isX
    cases isY
    exact text
  simp only [consider, first, second, isA, isB, Option.bind_eq_bind, Option.bind_some]
  split_ifs with long
  · refine ⟨best, rfl, skip ?_⟩
    rintro ⟨x, y, isX, isY, short, -⟩
    rw [only isX isY, List.length_append] at short
    omega
  · rw [fill_put 16 _ _ (by rw [List.length_append, List.length_nil]; omega), List.nil_append]
    simp only [Option.bind_some]
    cases found : findPiece vocab (a.text ++ b.text) with
    | none =>
      refine ⟨best, rfl, skip ?_⟩
      rintro ⟨x, y, isX, isY, -, p, listed, same⟩
      exact findPiece_none found p listed (same.trans (only isX isY))
    | some id =>
      obtain ⟨p, is, same⟩ := findPiece_some found
      simp only [is, Option.bind_some]
      refine ⟨_, rfl, ?_⟩
      split_ifs with better
      · refine ⟨nofun, fun i id' eq => ?_⟩
        cases eq
        exact ⟨_, _, p, first, second, is, same.trans text.symm⟩
      · refine ⟨fun none' => absurd ?_ better, searched.pair⟩
        rw [(searched.nothing none').1]
        exact above p (List.mem_of_getElem? is)

theorem bestPair_searched (above : ∀ p ∈ vocab, floor < p.score) (known : Known vocab toks) :
    ∃ best, bestPair vocab floor toks = some best ∧
      Searched vocab floor toks (toks.length - 1) best := by
  have all : ∀ rounds, rounds ≤ toks.length - 1 →
      ∃ best, (List.range rounds).foldlM (consider vocab toks) (floor, none) = some best ∧
        Searched vocab floor toks rounds best := by
    intro rounds
    induction rounds with
    | zero => exact fun _ => ⟨_, rfl, fun _ => ⟨rfl, fun i below => absurd below (Nat.not_lt_zero i)⟩,
        fun _ _ => nofun⟩
    | succ rounds ih =>
      intro within
      obtain ⟨best, before, searched⟩ := ih (by omega)
      obtain ⟨best', here, searched'⟩ := consider_searched above known (by omega) searched
      refine ⟨best', ?_, searched'⟩
      rw [List.range_succ, List.foldlM_append, before]
      simpa using here
  exact all _ (Nat.le_refl _)

omit [LinearOrder F] in
/-- A merge replaces two tokens by one with the text of both. -/
theorem join_text {i id a b : Nat} {p : Piece F} (isA : toks[i]? = some a)
    (isB : toks[i + 1]? = some b) (is : vocab[id]? = some p)
    (text : p.text = pieceOf vocab a ++ pieceOf vocab b) (known : Known vocab toks) :
    textOf vocab (join toks i id) = textOf vocab toks ∧ Known vocab (join toks i id) ∧
      (join toks i id).length < toks.length := by
  obtain ⟨inside, eqA⟩ := List.getElem?_eq_some_iff.mp isA
  obtain ⟨inside', eqB⟩ := List.getElem?_eq_some_iff.mp isB
  have split : toks = toks.take i ++ a :: b :: toks.drop (i + 2) := by
    rw [← eqA, ← eqB, ← List.drop_eq_getElem_cons, ← List.drop_eq_getElem_cons,
      List.take_append_drop]
  have front : (toks.take i).length = i := List.length_take_of_le (by omega)
  have joined : join toks i id = toks.take i ++ id :: toks.drop (i + 2) := by
    rw [join]
    conv_lhs => rw [split]
    rw [List.set_append_right _ _ (by omega), List.eraseIdx_append_of_length_le (by omega)]
    simp [front]
  refine ⟨?_, ?_, ?_⟩
  · rw [joined]
    conv_rhs => rw [split]
    simp only [textOf, List.flatMap_append, List.flatMap_cons, pieceOf_eq is, text,
      List.append_assoc]
  · rw [joined]
    intro x listed
    rcases List.mem_append.mp listed with early | late
    · exact known x (List.mem_of_mem_take early)
    · rcases List.mem_cons.mp late with rfl | later
      · exact ⟨p, is⟩
      · exact known x (List.mem_of_mem_drop later)
  · rw [joined]
    simp only [List.length_append, List.length_cons, List.length_drop, front]
    omega

theorem merges_done {toks : List Nat} {score : F}
    (search : bestPair vocab floor toks = some (score, none)) :
    merges vocab floor toks = some toks := by
  simp only [merges, paired, search, Option.bind_eq_bind, Option.bind_some]
  rw [whileLoop_done rfl]
  rfl

theorem merges_round {toks : List Nat} {score : F} {i id : Nat} {next : F × Option (Nat × Nat)}
    (search : bestPair vocab floor toks = some (score, some (i, id)))
    (again : bestPair vocab floor (join toks i id) = some next) :
    merges vocab floor toks = merges vocab floor (join toks i id) := by
  simp only [merges, paired, search, again, Option.bind_eq_bind, Option.bind_some]
  refine congrArg (Option.bind · _) (whileLoop_round rfl ?_)
  exact congrArg (Option.bind · _) again

theorem merges_end (above : ∀ p ∈ vocab, floor < p.score) (toks : List Nat)
    (known : Known vocab toks) : ∃ toks', merges vocab floor toks = some toks' ∧
      textOf vocab toks' = textOf vocab toks ∧ ∀ i, ¬ Mergeable vocab toks' i := by
  induction size : toks.length using Nat.strongRecOn generalizing toks with
  | ind n ih =>
    obtain ⟨⟨score, pair⟩, search, searched⟩ := bestPair_searched above known
    cases pair with
    | none =>
      refine ⟨toks, merges_done search, rfl, fun i mergeable => ?_⟩
      obtain ⟨a, b, -, isB, -⟩ := id mergeable
      have within := (List.getElem?_eq_some_iff.mp isB).1
      exact (searched.nothing rfl).2 i (by omega) mergeable
    | some pair =>
      obtain ⟨i, id⟩ := pair
      obtain ⟨a, b, p, isA, isB, is, text⟩ := searched.pair i id rfl
      obtain ⟨same, known', shorter⟩ := join_text isA isB is text known
      obtain ⟨next, again, -⟩ := bestPair_searched above known'
      obtain ⟨toks', done, text', final⟩ := ih _ (size ▸ shorter) (join toks i id) known' rfl
      exact ⟨toks', (merges_round search again).trans done, text'.trans same, final⟩

/-- A prompt whose bytes are pieces becomes tokens with the text of a space and the
prompt, in which no two neighbours make a piece of at most 15 bytes. -/
theorem bpeEncode_text (above : ∀ p ∈ vocab, floor < p.score) (prompt : Bytes)
    (short : prompt.length ≤ 249) (single : ∀ c ∈ 32 :: prompt, ∃ p ∈ vocab, p.text = [c]) :
    ∃ toks, bpeEncode vocab floor 250 prompt = some toks ∧ textOf vocab toks = 32 :: prompt ∧
      ∀ i, ¬ Mergeable vocab toks i := by
  have copied : fillTmp prompt [32] = some (32 :: prompt) :=
    fillTmp_all prompt [32] (by rw [List.length_singleton]; omega)
  obtain ⟨toks, looked, known, text⟩ := chars_text (show 250 ≤ 256 by omega) (32 :: prompt) []
    single (by rw [List.length_nil, List.length_cons]; omega) nofun
  obtain ⟨toks', merged, text', final⟩ := merges_end above toks known
  refine ⟨toks', ?_, text'.trans text, final⟩
  rw [bpeEncode, copied]
  simp only [Option.bind_eq_bind, Option.bind_some, looked, merged]

def threePieces : List (Piece Nat) := [⟨[32], 1⟩, ⟨[97], 1⟩, ⟨[97, 97], 5⟩]

theorem bpeEncode_text_aa : ∃ toks, bpeEncode threePieces 0 250 [97, 97] = some toks ∧
    textOf threePieces toks = [32, 97, 97] ∧ ∀ i, ¬ Mergeable threePieces toks i :=
  bpeEncode_text (by simp [threePieces]) [97, 97] (by decide) (by simp [threePieces])

end Merging

end XinuRpi5.Llm.Encode
