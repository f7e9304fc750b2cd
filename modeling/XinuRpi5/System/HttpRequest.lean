/- source: system/tcp_server.c
   digest: http_complete on the prefixes of a request. -/

import XinuRpi5.System.TcpHandler
import Mathlib.Data.List.Infix
import Mathlib.Data.List.TakeWhile

namespace XinuRpi5.System.HttpRequest

open TcpHandler

section Search

variable {α : Type*} {f : Nat → Option α} {n i : Nat} {b : α}

theorem findSome_range_first (below : i < n) (found : f i = some b)
    (before : ∀ j < i, f j = none) : (List.range n).findSome? f = some b := by
  induction n with
  | zero => omega
  | succ n ih =>
    rw [List.range_succ, List.findSome?_append]
    by_cases earlier : i < n
    · rw [ih earlier]
      rfl
    · obtain rfl : i = n := by omega
      have missing : (List.range i).findSome? f = none := by
        rw [List.findSome?_eq_none_iff]
        intro j listed
        exact before j (List.mem_range.mp listed)
      rw [missing, List.findSome?_singleton, found]
      rfl

theorem findSome_range_none (missing : ∀ j < n, f j = none) :
    (List.range n).findSome? f = none := by
  rw [List.findSome?_eq_none_iff]
  intro j listed
  exact missing j (List.mem_range.mp listed)

end Search

section Request

def crlfcrlf : List UInt8 := [13, 10, 13, 10]

/-- The text `content-length:` in upper or lower case letters at an offset. -/
def NameAt (header : List UInt8) (i : Nat) : Prop :=
  ((header.drop i).take 15).map toLower = contentLengthName

def lengthAt (header : List UInt8) (i : Nat) : Nat :=
  decimal ((header.drop (i + 15)).dropWhile fun c => c = 32)

/-- A request that fits: the headers up to their first empty line and the body, whose
length is announced at most once, and is 0 when it is not. -/
structure IsRequest (header body : List UInt8) : Prop where
  ends : crlfcrlf <:+ header
  first : ∀ start, start <+: header → crlfcrlf <:+ start → start = header
  once : ∀ i j, NameAt header i → NameAt header j → i = j
  length : ∀ i, NameAt header i → lengthAt header i = body.length
  bare : (∀ i, ¬ NameAt header i) → body = []
  fits : header.length + body.length ≤ reqCap

variable {header body buf rest text : List UInt8} {i : Nat}

theorem occurs_of_start (start : buf <+: text) (occurs : (buf.drop i).take 4 = crlfcrlf) :
    (text.drop i).take 4 = crlfcrlf := by
  have inside : (buf.drop i).take 4 <+: (text.drop i).take 4 := (List.IsPrefix.drop start i).take 4
  have len : ((text.drop i).take 4).length ≤ ((buf.drop i).take 4).length := by
    rw [occurs]
    exact List.length_take_le 4 _
  rw [← inside.eq_of_length_le len]
  exact occurs

theorem suffix_of_occurs (occurs : (buf.drop i).take 4 = crlfcrlf) :
    crlfcrlf <:+ buf.take (i + 4) := by
  rw [← occurs]
  refine ⟨buf.take i, ?_⟩
  exact List.take_add.symm

theorem decimal_append (ends : 10 ∈ buf) :
    decimal ((buf ++ rest).dropWhile fun c => c = 32) =
      decimal (buf.dropWhile fun c => c = 32) := by
  have stays : 10 ∈ buf.dropWhile fun c => decide (c = 32) := by
    rw [← List.takeWhile_append_dropWhile (p := fun c => decide (c = 32)) (l := buf)] at ends
    rcases List.mem_append.mp ends with space | behind
    · exact absurd (List.mem_takeWhile_imp space) (by decide)
    · exact behind
  have kept : ((buf.dropWhile fun c => decide (c = 32)).isEmpty) = false := by
    rw [List.isEmpty_eq_false_iff]
    exact List.ne_nil_of_mem stays
  rw [List.dropWhile_append, kept]
  unfold decimal
  simp only [Bool.false_eq_true, if_false]
  rw [List.takeWhile_append, if_neg]
  intro len
  have all := List.takeWhile_prefix (fun c : UInt8 => decide (48 ≤ c ∧ c ≤ 57))
    (l := buf.dropWhile fun c => decide (c = 32))
  rw [← all.eq_of_length len] at stays
  exact absurd (List.mem_takeWhile_imp stays) (by decide)

theorem signed_of_small {w x : Nat} (small : x < 2 ^ (w - 1)) (wide : 2 ^ (w - 1) ≤ 2 ^ w) :
    signed w x = x := by
  unfold signed
  rw [Nat.mod_eq_of_lt (by omega), if_pos small]

variable (request : IsRequest header body)

include request

theorem IsRequest.header_length : 4 ≤ header.length :=
  request.ends.length_le

theorem IsRequest.not_before (early : i + 4 < header.length) :
    ((header ++ body).drop i).take 4 ≠ crlfcrlf := by
  intro occurs
  have suffix : crlfcrlf <:+ header.take (i + 4) := by
    have whole := suffix_of_occurs occurs
    rwa [List.take_append_of_le_length (by omega)] at whole
  have equal := request.first _ (List.take_prefix _ _) suffix
  have len := congrArg List.length equal
  rw [List.length_take] at len
  omega

theorem IsRequest.headerEnd (start : buf <+: header ++ body) :
    TcpHandler.headerEnd buf =
      if header.length ≤ buf.length then some header.length else none := by
  have long := request.header_length
  unfold TcpHandler.headerEnd
  split_ifs with reaches
  · have whole : header <+: buf :=
      List.prefix_of_prefix_length_le (List.prefix_append header body) start reaches
    apply findSome_range_first (i := header.length - 4) (by omega)
    · have occurs : (header.drop (header.length - 4)).take 4 = crlfcrlf := by
        have last := List.suffix_iff_eq_drop.mp request.ends
        change crlfcrlf = header.drop (header.length - 4) at last
        rw [← last]
        rfl
      refine (if_pos (occurs_of_start whole occurs)).trans ?_
      rw [Nat.sub_add_cancel long]
    · intro j before
      exact if_neg fun occurs => request.not_before (by omega) (occurs_of_start start occurs)
  · apply findSome_range_none
    intro j below
    refine if_neg fun occurs => ?_
    have inside : j + 4 ≤ buf.length := by
      have len := congrArg List.length occurs
      rw [List.length_take, List.length_drop] at len
      change min 4 (buf.length - j) = 4 at len
      omega
    exact request.not_before (by omega) (occurs_of_start start occurs)

theorem IsRequest.last :
    header[header.length - 1]? = some 10 := by
  obtain ⟨lines, equal⟩ := request.ends
  rw [← equal, List.length_append]
  change (lines ++ crlfcrlf)[lines.length + 3]? = some 10
  rw [List.getElem?_append_right (Nat.le_add_right _ _), Nat.add_sub_cancel_left]
  rfl

theorem IsRequest.name_inside (name : NameAt header i) :
    i + 15 < header.length := by
  have len := congrArg List.length name
  rw [List.length_map, List.length_take, List.length_drop] at len
  change min 15 (header.length - i) = 15 at len
  by_contra outside
  have colon := congrArg (fun l => l[14]?) name
  simp only [List.getElem?_map, List.getElem?_take, List.getElem?_drop] at colon
  rw [show i + 14 = header.length - 1 by omega, request.last] at colon
  exact absurd colon (by decide)

/-- `Content-Length` as the completed headers give it. -/
theorem IsRequest.contentLength (whole : header <+: buf) :
    (∀ i, ¬ NameAt header i) ∧ TcpHandler.contentLength buf header.length = none ∨
      (∃ i, NameAt header i) ∧
        TcpHandler.contentLength buf header.length = some body.length := by
  obtain ⟨rest, rfl⟩ := whole
  have name : ∀ i, i + 15 < header.length →
      (((header ++ rest).drop i).take 15).map toLower = ((header.drop i).take 15).map toLower := by
    intro i inside
    rw [List.drop_append_of_le_length (by omega),
      List.take_append_of_le_length (by rw [List.length_drop]; omega)]
  unfold TcpHandler.contentLength
  by_cases bare : ∀ i, ¬ NameAt header i
  · left
    refine ⟨bare, findSome_range_none fun j _ => if_neg ?_⟩
    rintro ⟨inside, named⟩
    rw [name j inside] at named
    exact bare j named
  · right
    obtain ⟨i, named⟩ := not_forall_not.mp bare
    have inside := request.name_inside named
    refine ⟨⟨i, named⟩, findSome_range_first (i := i) (by omega) ?_ ?_⟩
    · have ends : 10 ∈ header.drop (i + 15) := by
        apply List.mem_of_getElem? (i := header.length - 1 - (i + 15))
        rw [List.getElem?_drop, show i + 15 + (header.length - 1 - (i + 15)) = header.length - 1 by
          omega]
        exact request.last
      have number := request.length i named
      unfold lengthAt at number
      rw [if_pos ⟨inside, (name i inside).trans named⟩,
        List.drop_append_of_le_length (by omega), decimal_append ends, number]
    · intro j before
      refine if_neg ?_
      rintro ⟨inside', named'⟩
      rw [name j inside'] at named'
      have equal := request.once j i named' named
      omega

theorem IsRequest.httpComplete_iff (start : buf <+: header ++ body) :
    httpComplete buf = true ↔ buf = header ++ body := by
  have le := start.length_le
  have all : buf = header ++ body ↔ (header ++ body).length ≤ buf.length :=
    ⟨fun equal => Nat.le_of_eq (congrArg List.length equal.symm), start.eq_of_length_le⟩
  have fits := request.fits
  rw [all]
  rw [List.length_append] at le ⊢
  unfold httpComplete
  rw [request.headerEnd start]
  by_cases reaches : header.length ≤ buf.length
  · have whole : header <+: buf :=
      List.prefix_of_prefix_length_le (List.prefix_append header body) start reaches
    rw [if_pos reaches]
    rcases request.contentLength whole with ⟨bare, none⟩ | ⟨_, some⟩
    · have empty := request.bare bare
      rw [empty]
      simp only [none, List.length_nil, Nat.add_zero, reaches]
    · unfold reqCap at fits
      have wide := signed_of_small (w := 64) (x := body.length) (by omega) (by decide)
      have int := signed_of_small (w := 32) (x := body.length) (by omega) (by decide)
      simp only [some, wide, int, decide_eq_true_eq]
      omega
  · rw [if_neg reaches]
    refine ⟨fun impossible => Bool.noConfusion impossible, fun long => ?_⟩
    omega

end Request

end XinuRpi5.System.HttpRequest
