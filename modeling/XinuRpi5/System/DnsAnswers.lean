/- source: system/browser.c, device/wifi/wifi.c
   digest: The two readers of domain name answers against each other. -/

import XinuRpi5.Lib.DnsFormat
import XinuRpi5.System.BrowserPage
import XinuRpi5.Wifi.Resolve

/-!
Both are compared with the first address that the format gives the message.
-/

namespace XinuRpi5.System.DnsAnswers

open Lib.DnsFormat Lib.ReadLog Lib.ReadLog.Log TcpHandler
open Browser BrowserPage Wifi.Resolve

section Values

variable {f : Frame} {d len : Nat} {byte : Nat → Nat}

section

variable (same : ∀ i < len, f.at8 (d + i) = byte i)

include same

theorem word_eq {i : Nat} (inside : i + 1 < len) :
    f.at16 (d + i) = word byte i := by
  rw [Frame.at16, same i (by omega), Nat.add_assoc, same (i + 1) inside, word]

/-- The type and the length of a record. -/
theorem fields_eq {q : Nat} (inside : q + 10 ≤ len) :
    f.at16 (d + q) = word byte q ∧ f.at16 (d + q + 8) = word byte (q + 8) := by
  refine ⟨word_eq same (by omega), ?_⟩
  rw [Nat.add_assoc]
  exact word_eq same (by omega)

theorem dnsSkipName_value (rounds o : Nat) :
    (dnsSkipName f d len rounds o).value = (nameEnd byte len rounds o).getD len := by
  induction rounds generalizing o with
  | zero => rfl
  | succ rounds ih =>
    unfold dnsSkipName nameEnd
    by_cases inside : o < len
    · rw [if_pos inside, if_pos inside, Log.value_bind, value_at8, same o inside]
      by_cases zero : byte o = 0
      · rw [if_pos zero, if_neg (by omega), if_pos zero]
        rfl
      · rw [if_neg zero, if_neg zero]
        by_cases pointer : IsPointer (byte o)
        · rw [if_pos pointer, if_pos (show byte o / 64 = 3 from pointer)]
          rfl
        · have next : o + 1 + byte o = o + byte o + 1 := by omega
          rw [if_neg pointer, if_neg (show ¬byte o / 64 = 3 from pointer), ih, next]
    · rw [if_neg inside, if_neg inside]
      rfl

theorem findRecord_value (an o : Nat) :
    (findRecord f d len an o).value =
      (firstAddress byte len an o).map fun q => f.bytes (d + q) 4 := by
  induction an generalizing o with
  | zero => rfl
  | succ an ih =>
    by_cases room : o + 10 ≤ len
    · unfold findRecord firstAddress
      rw [if_pos room, Log.value_bind, dnsSkipName_value same]
      cases nameEnd byte len len o with
      | none => rw [Option.getD_none, if_pos (by omega)]; rfl
      | some q =>
        rw [Option.getD_some]
        by_cases cut : len < q + 10
        · simp only [if_pos cut]
          rfl
        · obtain ⟨type, size⟩ := fields_eq same (Nat.not_lt.mp cut)
          simp only [if_neg cut, Log.value_bind, value_at16, type, size]
          by_cases address : Address byte len q
          · rw [if_pos address, if_pos ⟨address.1, address.2.1, address.2.2⟩, Nat.add_assoc]
            rfl
          · rw [if_neg address, if_neg fun all => address ⟨all.1, all.2.1, all.2.2⟩]
            exact ih _
    · unfold findRecord
      rw [if_neg room, firstAddress_short byte len (by omega)]
      rfl

theorem skipLabels_value {rounds p : Nat} (enough : len ≤ p + rounds)
    (plain : Plain byte len rounds p) :
    (∃ q, nameEnd byte len rounds p = some q ∧ (skipLabels f d len rounds p).value + 1 = q) ∨
      nameEnd byte len rounds p = none ∧ len ≤ (skipLabels f d len rounds p).value := by
  induction rounds generalizing p with
  | zero => exact .inr ⟨rfl, enough⟩
  | succ rounds ih =>
    unfold skipLabels nameEnd
    by_cases inside : p < len
    · rw [if_pos inside, if_pos inside, Log.value_bind, value_at8, same p inside]
      by_cases zero : byte p = 0
      · rw [if_pos zero, if_pos zero]
        exact .inl ⟨p + 1, rfl, rfl⟩
      · obtain ⟨label, rest⟩ := plain inside zero
        rw [if_neg zero, if_neg zero, if_neg label]
        exact ih (by omega) rest
    · rw [if_neg inside, if_neg inside]
      exact .inr ⟨rfl, Nat.not_lt.mp inside⟩

/-- The browser finds the first address where the names up to it are direct. -/
theorem findAddress_value (an p : Nat) (direct : Direct byte len an p) :
    (findAddress f d len an p).value =
      (firstAddress byte len an p).map fun q => f.bytes (d + q) 4 := by
  induction an generalizing p with
  | zero => rfl
  | succ an ih =>
    by_cases room : p + 12 ≤ len
    · have name : ∃ q, (skipName f d len (byte p) p).value = q ∧
          (nameEnd byte len len p = some q ∨ nameEnd byte len len p = none ∧ len ≤ q) := by
        unfold skipName
        by_cases pointer : IsPointer (byte p)
        · rw [if_pos (show byte p / 64 = 3 from pointer)]
          refine ⟨p + 2, rfl, .inl ?_⟩
          obtain ⟨k, rounds⟩ : ∃ k, len = k + 1 := ⟨len - 1, by omega⟩
          have inside : p < len := by omega
          have used : nameEnd byte len (k + 1) p = some (p + 2) := by
            unfold nameEnd
            have label : byte p ≠ 0 := by
              intro zero
              rw [zero] at pointer
              exact absurd pointer (by decide)
            rw [if_pos inside, if_neg label, if_pos pointer]
          rwa [← rounds] at used
        · rw [if_neg (show ¬byte p / 64 = 3 from pointer)]
          have plain := (direct room).1.resolve_left pointer
          rcases skipLabels_value same (Nat.le_add_left len p) plain with
            ⟨q, ends, value⟩ | ⟨cut, value⟩
          · exact ⟨q, value, .inl ends⟩
          · exact ⟨_, rfl, .inr ⟨cut, Nat.le_succ_of_le value⟩⟩
      obtain ⟨q, value, ends⟩ := name
      unfold findAddress firstAddress
      rw [if_pos room, Log.value_bind, value_at8, same p (by omega), Log.value_bind, value]
      rcases ends with ends | ⟨ends, cut⟩
      · simp only [ends]
        by_cases cut : len < q + 10
        · rw [if_pos cut, if_pos cut]
          rfl
        · obtain ⟨type, size⟩ := fields_eq same (Nat.not_lt.mp cut)
          simp only [if_neg cut, Log.value_bind, value_at16, type, size]
          by_cases address : Address byte len q
          · rw [if_pos address, if_pos ⟨address.1, address.2.1, address.2.2⟩, Nat.add_assoc]
            rfl
          · rw [if_neg address, if_neg fun all => address ⟨all.1, all.2.1, all.2.2⟩]
            have later := (direct room).2
            simp only [ends] at later
            exact ih _ (later (by omega) address)
      · simp only [ends]
        rw [if_pos (by omega)]
        rfl
    · unfold findAddress
      rw [if_neg room, firstAddress_short byte len (by omega)]
      rfl

theorem skipQuestion_value {rounds p : Nat} (enough : len ≤ p + rounds)
    (straight : NoZeroBehind byte len rounds p) :
    (∃ q, nameEnd byte len rounds p = some (q + 1) ∧ q < len ∧ byte q = 0 ∧
        (skipQuestion f d len rounds p).value = q) ∨
      (∃ q, nameEnd byte len rounds p = some q ∧ (q < len → byte q ≠ 0) ∧
        (skipQuestion f d len rounds p).value = q) ∨
      nameEnd byte len rounds p = none ∧ len ≤ (skipQuestion f d len rounds p).value := by
  induction rounds generalizing p with
  | zero => exact .inr (.inr ⟨rfl, enough⟩)
  | succ rounds ih =>
    unfold skipQuestion nameEnd
    by_cases inside : p < len
    · rw [if_pos inside, if_pos inside, Log.value_bind, value_at8, same p inside]
      by_cases zero : byte p = 0
      · rw [if_pos zero, if_pos zero]
        exact .inl ⟨p, rfl, inside, zero, rfl⟩
      · obtain ⟨behind, rest⟩ := straight inside zero
        rw [if_neg zero, if_neg zero]
        by_cases pointer : IsPointer (byte p)
        · rw [if_pos pointer, if_pos (show byte p / 64 = 3 from pointer)]
          exact .inr (.inl ⟨p + 2, rfl, behind pointer, rfl⟩)
        · rw [if_neg pointer, if_neg (show ¬byte p / 64 = 3 from pointer)]
          exact ih (by omega) (rest pointer)
    · rw [if_neg inside, if_neg inside]
      exact .inr (.inr ⟨rfl, Nat.not_lt.mp inside⟩)

theorem skipQuestions_value {p : Nat} (straight : NoZeroBehind byte len len p) :
    (∃ q, nameEnd byte len len p = some q ∧ (skipQuestions f d len 1 p).value = q + 4) ∨
      nameEnd byte len len p = none ∧ len ≤ (skipQuestions f d len 1 p).value := by
  by_cases inside : p < len
  · have step : (skipQuestions f d len 1 p).value =
        if (skipQuestion f d len len p).value < len ∧
          byte (skipQuestion f d len len p).value = 0
        then (skipQuestion f d len len p).value + 1 + 4
        else (skipQuestion f d len len p).value + 4 := by
      unfold skipQuestions
      rw [if_pos inside, Log.value_bind]
      by_cases below : (skipQuestion f d len len p).value < len
      · rw [if_pos below, Log.value_bind, value_at8, same _ below]
        by_cases zero : byte (skipQuestion f d len len p).value = 0
        · rw [if_pos zero, if_pos ⟨below, zero⟩]
          rfl
        · rw [if_neg zero, if_neg fun both => zero both.2]
          rfl
      · rw [if_neg below, if_neg fun both => below both.1]
        rfl
    rcases skipQuestion_value same (Nat.le_add_left len p) straight with
      ⟨q, ends, below, zero, value⟩ | ⟨q, ends, label, value⟩ | ⟨ends, value⟩
    · rw [step, value, if_pos ⟨below, zero⟩]
      exact .inl ⟨q + 1, ends, rfl⟩
    · rw [step, value, if_neg fun both => label both.1 both.2]
      exact .inl ⟨q, ends, rfl⟩
    · rw [step, if_neg fun both => absurd both.1 (Nat.not_lt.mpr value)]
      exact .inr ⟨ends, Nat.le_add_right_of_le value⟩
  · have cut : nameEnd byte len len p = none := by
      cases len with
      | zero => rfl
      | succ k => exact if_neg inside
    unfold skipQuestions
    rw [if_neg inside]
    exact .inr ⟨cut, Nat.not_lt.mp inside⟩

end

theorem findRecord_stops {an o : Nat} (few : len < o + 10) :
    findRecord f d len an o = pure none := by
  cases an with
  | zero => rfl
  | succ an => exact if_neg (by omega)

theorem findAddress_stops {an p : Nat} (few : len < p + 12) :
    findAddress f d len an p = pure none := by
  cases an with
  | zero => rfl
  | succ an => exact if_neg (by omega)

theorem dnsSkipName_behind {o : Nat} (few : len < 24) (start : 12 ≤ o) :
    len < (dnsSkipName f d len len o).value + 4 + 10 := by
  have value : (dnsSkipName f d len len o).value =
      (nameEnd (fun i => f.at8 (d + i)) len len o).getD len :=
    dnsSkipName_value (fun _ _ => rfl) len o
  rw [value]
  cases ends : nameEnd (fun i => f.at8 (d + i)) len len o with
  | none =>
    rw [Option.getD_none]
    omega
  | some q =>
    have behind := nameEnd_behind _ _ ends
    rw [Option.getD_some]
    omega

theorem skipQuestion_behind (rounds p : Nat) : p ≤ (skipQuestion f d len rounds p).value := by
  induction rounds generalizing p with
  | zero => exact Nat.le_refl p
  | succ rounds ih =>
    unfold skipQuestion
    split_ifs
    · rw [Log.value_bind]
      split_ifs
      · exact Nat.le_refl p
      · exact Nat.le_add_right p 2
      · exact Nat.le_trans (by omega) (ih _)
    · exact Nat.le_refl p

theorem skipQuestions_behind (qd p : Nat) : p ≤ (skipQuestions f d len qd p).value := by
  induction qd generalizing p with
  | zero => exact Nat.le_refl p
  | succ qd ih =>
    have first : p ≤ (skipQuestion f d len len p).value := skipQuestion_behind len p
    unfold skipQuestions
    split_ifs
    · rw [Log.value_bind]
      split_ifs
      · rw [Log.value_bind]
        refine Nat.le_trans ?_ (ih _)
        split_ifs <;> omega
      · exact Nat.le_trans (by omega) (ih _)
    · exact Nat.le_refl p

end Values

section Inside

variable {f : Frame} {d len m : Nat} {byte : Nat → Nat}

theorem dnsSkipName_within (rounds o : Nat) :
    Within (· < d + len) (dnsSkipName f d len rounds o) := by
  induction rounds generalizing o with
  | zero => exact within_pure _ _
  | succ rounds ih =>
    unfold dnsSkipName
    split_ifs
    · rw [within_bind_of (within_at8 (by omega))]
      split_ifs
      · exact within_pure _ _
      · exact within_pure _ _
      · exact ih _
    · exact within_pure _ _

theorem findRecord_within (an o : Nat) : Within (· < d + len) (findRecord f d len an o) := by
  induction an generalizing o with
  | zero => exact within_pure _ _
  | succ an ih =>
    unfold findRecord
    split_ifs with room
    · rw [within_bind_of (dnsSkipName_within len o)]
      generalize (dnsSkipName f d len len o).value = q
      split_ifs with cut
      · exact within_pure _ _
      · rw [within_bind_of (within_at16 (by omega)), within_bind_of (within_at16 (by omega))]
        split_ifs with address
        · rw [within_bind_of (within_bytes.mpr fun k less => by omega)]
          exact within_pure _ _
        · exact ih _
    · exact within_pure _ _

variable (same : ∀ i < m, f.at8 (d + i) = byte i)

include same

theorem dnsSkipName_complete {k rounds o : Nat} (enough : k ≤ rounds)
    (complete : Complete byte m k o) :
    Within (· < d + m) (dnsSkipName f d len rounds o) := by
  induction k generalizing rounds o with
  | zero => exact complete.elim
  | succ k ih =>
    obtain ⟨rounds, rfl⟩ : ∃ r, rounds = r + 1 := ⟨rounds - 1, by omega⟩
    obtain ⟨inside, way⟩ := complete
    unfold dnsSkipName
    split_ifs
    · rw [within_bind_of (within_at8 (by omega)), value_at8, same o inside]
      split_ifs with pointer zero
      · exact within_pure _ _
      · exact within_pure _ _
      · have label := (way.resolve_left zero).resolve_left fun both => pointer both.1
        have next : o + 1 + byte o = o + byte o + 1 := by omega
        rw [next]
        exact ih (Nat.le_of_succ_le_succ enough) label.2
    · exact within_pure _ _

theorem skipQuestion_complete {k rounds p : Nat} (enough : k ≤ rounds)
    (complete : Complete byte m k p) :
    Within (· < d + m) (skipQuestion f d len rounds p) ∧
      ((skipQuestion f d len rounds p).value < len → (skipQuestion f d len rounds p).value < m) := by
  induction k generalizing rounds p with
  | zero => exact complete.elim
  | succ k ih =>
    obtain ⟨rounds, rfl⟩ : ∃ r, rounds = r + 1 := ⟨rounds - 1, by omega⟩
    obtain ⟨inside, way⟩ := complete
    unfold skipQuestion
    split_ifs with below
    · rw [within_bind_of (within_at8 (by omega)), Log.value_bind, value_at8, same p inside]
      split_ifs with zero pointer
      · exact ⟨within_pure _ _, fun _ => inside⟩
      · rcases way with zero' | ⟨_, behind⟩ | ⟨label, _⟩
        · exact absurd zero' zero
        · exact ⟨within_pure _ _, fun _ => behind⟩
        · exact absurd pointer label
      · have label := (way.resolve_left zero).resolve_left fun both => pointer both.1
        exact ih (Nat.le_of_succ_le_succ enough) label.2
    · exact ⟨within_pure _ _, fun _ => inside⟩

theorem skipQuestions_complete {p : Nat} (enough : m ≤ len) (complete : Complete byte m m p) :
    Within (· < d + m) (skipQuestions f d len 1 p) := by
  obtain ⟨labels, next⟩ : _ ∧ ((skipQuestion f d len len p).value < len → _) :=
    skipQuestion_complete same enough complete
  unfold skipQuestions
  split_ifs
  · rw [within_bind_of labels]
    split_ifs with below
    · have inside := next below
      rw [within_bind_of (within_at8 (by omega))]
      exact within_pure _ _
    · exact within_pure _ _
  · exact within_pure _ _

end Inside

section Messages

/-- The bytes of a message, which has its header; it can end anywhere behind that. -/
abbrev Message := { m : List UInt8 // 12 ≤ m.length }

namespace Message

variable (m : Message)

def size : Nat := m.val.length

def byte (i : Nat) : Nat := (m.val.getD i 0).toNat

def id : Nat := word m.byte 0

def ip (q : Nat) : Ip := (List.range 4).map fun i => m.val.getD (q + i) 0

def qd : Nat := word m.byte 4

def an : Nat := word m.byte 6

def first : Option Nat := answer m.byte m.size m.qd m.an

end Message

/-- Ethernet from `start` on brings the message at `d`, padded if the frame is short. -/
structure Brings (m : Message) (f : Frame) (start d : Nat) : Prop where
  holds : ∀ i < m.size, f.at8 (d + i) = m.byte i
  room : d + m.size ≤ f.len
  padding : f.len = d + m.size ∨ f.len ≤ start + 60

structure BrowserGets (m : Message) (f : Frame) : Prop where
  type : f.at16 12 = 0x0800
  header : 20 ≤ f.ipHeaderLen
  protocol : f.at8 23 = 17
  port : f.at16 f.tcpAt = 53
  brings : Brings m f 0 (f.tcpAt + 8)

/-- Where the Ethernet frame begins in what `wifi_read_frame` hands over. -/
def etherAt (f : Wifi.Tftp.Frame) : Nat := f.doff + (4 + (f.byte (f.doff + 3)).toNat * 4)

def udpAt (f : Wifi.Tftp.Frame) : Nat :=
  etherAt f + 14 + (buffer f).at8 (etherAt f + 14) % 16 * 4

/-- The message comes from the name server `dns` to the resolver. -/
structure ResolverGets (dns : Ip) (m : Message) (f : Wifi.Tftp.Frame) : Prop where
  chan : f.chan = 2
  type : (buffer f).at16 (etherAt f + 12) = 0x0800
  header : 20 ≤ (buffer f).at8 (etherAt f + 14) % 16 * 4
  protocol : (buffer f).at8 (etherAt f + 23) = 17
  port : (buffer f).at16 (udpAt f + 2) = Wifi.Resolve.sport
  source : (buffer f).bytes (etherAt f + 26) 4 = dns
  brings : Brings m (buffer f) (etherAt f) (udpAt f + 8)

def browserAnswer (s : Vars) (f : Frame) : Option Ip :=
  let r := (browserHandle s f).value
  if r.1 = 1 then some r.2.1.dnsIp else none

def resolverAnswer (dns : Ip) (f : Wifi.Tftp.Frame) : Option Ip :=
  match (wifiResolve dns f).value with
  | .address ip => some ip
  | _ => none

/-- What is asked of the two for a message: the same answer, no byte behind the message, and the
id of the query (`asked` for the browser) on what is taken for its answer. The resolver takes
every message that ends its waiting. -/
structure Agree (asked : Nat) (s : Vars) (dns : Ip) (m : Message) (f : Frame)
    (g : Wifi.Tftp.Frame) : Prop where
  same : browserAnswer s f = resolverAnswer dns g
  browser_inside : Within (· < f.tcpAt + 8 + m.size) (browserHandle s f)
  resolver_inside : Within (· < udpAt g + 8 + m.size) (wifiResolve dns g)
  browser_id : browserAnswer s f ≠ none → m.id = asked
  resolver_id : (wifiResolve dns g).value ≠ .waits → m.id = queryId

/-- One question, whose name has no pointer with a zero behind it, and up to the first address
names that are a lone pointer or have none. -/
structure Simple (m : Message) : Prop where
  one : m.qd = 1
  question : NoZeroBehind m.byte m.size m.size 12
  direct : ∀ q, nameEnd m.byte m.size m.size 12 = some q → Direct m.byte m.size m.an (q + 4)

/-- The condition: the id is that of the query; there are no answers, or no room for one, or the
message is simple; and the name of the question is complete where a padded frame is read. -/
structure Regular (asked : Nat) (m : Message) (f : Frame) (g : Wifi.Tftp.Frame) : Prop where
  resolver_id : m.id = queryId
  browser_id : m.first ≠ none → m.id = asked
  simple : m.an = 0 ∨ m.size < 24 ∨ Simple m
  browser_whole : m.an = 0 ∨ f.len = f.tcpAt + 8 + m.size ∨
    m.qd = 1 ∧ Complete m.byte m.size m.size 12
  resolver_whole : g.n = udpAt g + 8 + m.size ∨ Complete m.byte m.size m.size 12

end Messages

section Padding

variable {m : Message} {f : Frame} {start d : Nat}

theorem Brings.cases (brings : Brings m f start d) (behind : start + 42 ≤ d) :
    f.len - d = m.size ∨ f.len ≠ d + m.size ∧ f.len - d ≤ 18 := by
  have room := brings.room
  rcases brings.padding with exact_end | short
  · exact .inl (by omega)
  · omega

theorem Brings.ip_eq (brings : Brings m f start d) {q : Nat} (inside : q + 4 ≤ m.size) :
    f.bytes (d + q) 4 = m.ip q := by
  refine List.map_congr_left fun i mem => ?_
  have less := List.mem_range.mp mem
  have same := brings.holds (q + i) (by omega)
  rw [← Nat.add_assoc] at same
  exact UInt8.toNat_inj.mp same

theorem Message.first_none (empty : m.an = 0) : m.first = none := by
  unfold Message.first
  rw [empty, answer_none]

theorem Message.first_short (few : m.size < 24) : m.first = none := by
  unfold Message.first answer
  cases ends : questionsEnd m.byte m.size m.qd 12 with
  | none => rfl
  | some p =>
    have behind := questionsEnd_behind _ _ ends
    exact firstAddress_short _ _ (by omega)

theorem Brings.word_eq (brings : Brings m f start d) {i : Nat} (header : i + 1 < 12) :
    f.at16 (d + i) = word m.byte i :=
  DnsAnswers.word_eq brings.holds (Nat.lt_of_lt_of_le header m.property)

end Padding

/-- `x` comes to `y` after reads in front of `n`. -/
structure Reads {α : Type} (n : Nat) (x y : Log Nat α) : Prop where
  value : x.value = y.value
  within : Within (· < n) y → Within (· < n) x

theorem Reads.refl {α : Type} (n : Nat) (x : Log Nat α) : Reads n x x := ⟨rfl, id⟩

theorem reads_bind {α β : Type} {n : Nat} {x : Log Nat α} {g : α → Log Nat β} {y : Log Nat β}
    (first : Within (· < n) x) (later : Reads n (g x.value) y) : Reads n (x >>= g) y :=
  ⟨later.value, fun inside => within_bind.mpr ⟨first, later.within inside⟩⟩

section Resolver

variable {dns : Ip} {m : Message} {g : Wifi.Tftp.Frame}

theorem wifiResolve_reads (gets : ResolverGets dns m g) :
    Reads (udpAt g + 8 + m.size) (wifiResolve dns g)
      (readMessage (buffer g) (udpAt g + 8) (g.n - (udpAt g + 8))) := by
  have header := gets.header
  have room : udpAt g + 8 + m.size ≤ g.n := gets.brings.room
  have udp : etherAt g + 14 + (buffer g).at8 (etherAt g + 14) % 16 * 4 = udpAt g := rfl
  have ether : g.doff + (4 + (buffer g).at8 (g.doff + 3) * 4) = etherAt g := rfl
  have long : 12 ≤ m.size := m.property
  have enough : ¬(g.chan ≠ 2 ∨ g.n < g.doff + 4) := by
    have chan := gets.chan
    omega
  unfold wifiResolve
  rw [if_neg enough]
  apply reads_bind (within_at8 (by omega))
  rw [value_at8, ether, if_neg (by omega)]
  apply reads_bind (within_at16 (by omega))
  rw [value_at16, gets.type, if_neg (by decide)]
  apply reads_bind (within_at8 (by omega))
  rw [value_at8, udp]
  apply reads_bind (within_at16 (by omega))
  apply reads_bind (within_at8 (by omega))
  rw [value_at16, value_at8, gets.protocol, gets.port, if_neg (by decide)]
  apply reads_bind (within_bytes.mpr fun k less => by omega)
  rw [value_bytes, gets.source, if_neg (by simp)]
  exact .refl _ _

theorem resolverAnswer_message (gets : ResolverGets dns m g) :
    resolverAnswer dns g =
      (findRecord (buffer g) (udpAt g + 8) (g.n - (udpAt g + 8)) m.an
        ((dnsSkipName (buffer g) (udpAt g + 8) (g.n - (udpAt g + 8))
          (g.n - (udpAt g + 8)) 12).value + 4)).value := by
  have an : (buffer g).at16 (udpAt g + 8 + 6) = m.an := gets.brings.word_eq (by decide)
  unfold resolverAnswer
  rw [(wifiResolve_reads gets).value, readMessage, Log.value_bind, value_at16, an]
  simp only [Log.value_bind]
  generalize (findRecord _ _ _ _ _).value = found
  cases found <;> rfl

theorem resolverAnswer_first (gets : ResolverGets dns m g)
    (one : m.an = 0 ∨ m.size < 24 ∨ m.qd = 1) : resolverAnswer dns g = m.first.map m.ip := by
  have behind : etherAt g + 42 ≤ udpAt g + 8 := by
    have header := gets.header
    unfold udpAt
    omega
  rw [resolverAnswer_message gets]
  have room : udpAt g + 8 + m.size ≤ g.n := gets.brings.room
  rcases one with empty | one
  · rw [empty, Message.first_none empty]
    rfl
  by_cases few : g.n - (udpAt g + 8) < 24
  · rw [Message.first_short (by omega), findRecord_stops (dnsSkipName_behind few (Nat.le_refl 12))]
    rfl
  rcases gets.brings.cases behind with whole | ⟨padded, few'⟩
  · have fill : g.n - (udpAt g + 8) = m.size := whole
    have one := one.resolve_left (by omega)
    rw [fill, dnsSkipName_value gets.brings.holds, findRecord_value gets.brings.holds,
      Message.first, one, answer_one]
    cases nameEnd m.byte m.size m.size 12 with
    | none =>
      rw [Option.getD_none, firstAddress_short _ _ (by omega)]
      rfl
    | some q =>
      rw [Option.getD_some, Option.bind_some]
      cases found : firstAddress m.byte m.size m.an (q + 4) with
      | none => rfl
      | some r =>
        exact congrArg some (gets.brings.ip_eq (firstAddress_inside _ _ found))
  · -- A padded frame is too short for an address record.
    have size : g.n - (udpAt g + 8) ≤ 18 := few'
    omega

theorem readMessage_within {f : Frame} {d len n : Nat} (header : d + 8 ≤ n)
    (name : Within (· < n) (dnsSkipName f d len len 12))
    (records : ∀ an, Within (· < n)
      (findRecord f d len an ((dnsSkipName f d len len 12).value + 4))) :
    Within (· < n) (readMessage f d len) := by
  unfold readMessage
  rw [within_bind_of (within_at16 (by omega)), within_bind_of name, within_bind_of (records _)]
  split <;> exact within_pure _ _

theorem wifiResolve_within (gets : ResolverGets dns m g)
    (whole : g.n = udpAt g + 8 + m.size ∨ Complete m.byte m.size m.size 12) :
    Within (· < udpAt g + 8 + m.size) (wifiResolve dns g) := by
  have behind : etherAt g + 42 ≤ udpAt g + 8 := by
    have header := gets.header
    unfold udpAt
    omega
  have long : 12 ≤ m.size := m.property
  have room : udpAt g + 8 + m.size ≤ g.n := gets.brings.room
  apply (wifiResolve_reads gets).within
  rcases gets.brings.cases behind with fill | ⟨padded, few⟩
  · have fill : g.n - (udpAt g + 8) = m.size := fill
    rw [fill]
    exact readMessage_within (by omega) (dnsSkipName_within _ _) fun an => findRecord_within _ _
  · have few' : g.n - (udpAt g + 8) ≤ 18 := few
    have full := whole.resolve_left padded
    refine readMessage_within (by omega) (dnsSkipName_complete gets.brings.holds (by omega) full)
      fun an => ?_
    rw [findRecord_stops (dnsSkipName_behind (by omega) (Nat.le_refl 12))]
    exact within_pure _ _

end Resolver

section BrowserSide

variable {m : Message} {s : Vars} {f : Frame}

def walk (s : Vars) (f : Frame) (qd an : Nat) : Log Nat Handled := do
  let p ← skipQuestions f (f.tcpAt + 8) (f.len - (f.tcpAt + 8)) qd 12
  let found ← findAddress f (f.tcpAt + 8) (f.len - (f.tcpAt + 8)) an p
  match found with
  | some ip => return (1, { s with dnsGot := true, dnsIp := ip }, [])
  | none => return (0, s, [])

variable (gets : BrowserGets m f)

include gets

theorem browserHandle_reads :
    Reads (f.tcpAt + 8 + m.size) (browserHandle s f) (udpFrame s f f.ipHeaderLen) := by
  have header := gets.header
  have place : f.tcpAt = 14 + f.ipHeaderLen := rfl
  have long : 12 ≤ m.size := m.property
  have room := gets.brings.room
  have ihl : f.at8 14 % 16 * 4 = f.ipHeaderLen := rfl
  have arp : ¬((0x0800 : Nat) = 0x0806 ∧ 42 ≤ f.len) := by omega
  have other : ¬((0x0800 : Nat) ≠ 0x0800 ∨ f.len < 34) := by omega
  unfold browserHandle
  rw [if_neg (by omega)]
  apply reads_bind (within_at16 (by omega))
  rw [value_at16, gets.type, if_neg arp, if_neg other]
  apply reads_bind (within_at8 (by omega))
  rw [value_at8, ihl, if_neg (by omega)]
  apply reads_bind (within_at8 (by omega))
  rw [value_at8, gets.protocol, if_pos rfl]
  exact .refl _ _

theorem udpFrame_reads :
    Reads (f.tcpAt + 8 + m.size) (udpFrame s f f.ipHeaderLen)
      (if m.an < 1 then pure (0, s, []) else walk s f m.qd m.an) := by
  have header := gets.header
  have place : 14 + f.ipHeaderLen = f.tcpAt := rfl
  have long : 12 ≤ m.size := m.property
  have room := gets.brings.room
  have qd : f.at16 (f.tcpAt + 8 + 4) = m.qd := gets.brings.word_eq (by decide)
  have an : f.at16 (f.tcpAt + 8 + 6) = m.an := gets.brings.word_eq (by decide)
  unfold udpFrame
  rw [place, if_neg (by omega)]
  apply reads_bind (within_at16 (by omega))
  apply reads_bind (within_at16 (by omega))
  rw [value_at16, value_at16, gets.port, if_neg (by omega), if_neg (by omega)]
  apply reads_bind (within_at16 (by omega))
  apply reads_bind (within_at16 (by omega))
  rw [value_at16, value_at16, qd, an]
  exact .refl _ _

theorem browserAnswer_message :
    browserAnswer s f =
      if m.an < 1 then none
      else (findAddress f (f.tcpAt + 8) (f.len - (f.tcpAt + 8)) m.an
        (skipQuestions f (f.tcpAt + 8) (f.len - (f.tcpAt + 8)) m.qd 12).value).value := by
  unfold browserAnswer
  rw [(browserHandle_reads gets).value, (udpFrame_reads gets).value]
  split_ifs with empty
  · rfl
  · unfold walk
    simp only [Log.value_bind]
    generalize (findAddress _ _ _ _ _).value = found
    cases found <;> rfl

theorem browserAnswer_first (simple : m.an = 0 ∨ m.size < 24 ∨ Simple m) :
    browserAnswer s f = m.first.map m.ip := by
  have header := gets.header
  have behind : 0 + 42 ≤ f.tcpAt + 8 := by
    unfold Frame.tcpAt
    omega
  rw [browserAnswer_message gets]
  rcases simple with empty | simple
  · rw [if_pos (by omega), Message.first_none empty]
    rfl
  by_cases empty : m.an < 1
  · rw [if_pos empty, Message.first_none (by omega)]
    rfl
  rw [if_neg empty]
  have room := gets.brings.room
  by_cases few : f.len - (f.tcpAt + 8) < 24
  · have start : 12 ≤ (skipQuestions f (f.tcpAt + 8) (f.len - (f.tcpAt + 8)) m.qd 12).value :=
      skipQuestions_behind m.qd 12
    rw [findAddress_stops (by omega), Message.first_short (by omega)]
    rfl
  rcases gets.brings.cases behind with whole | ⟨padded, few'⟩
  · have simple := simple.resolve_left (by omega)
    rw [whole]
    unfold Message.first
    rw [simple.one, answer_one]
    rcases skipQuestions_value gets.brings.holds simple.question with
      ⟨q, ends, value⟩ | ⟨ends, value⟩
    · rw [value, findAddress_value gets.brings.holds _ _ (simple.direct q ends), ends,
        Option.bind_some]
      cases found : firstAddress m.byte m.size m.an (q + 4) with
      | none => rfl
      | some r => exact congrArg some (gets.brings.ip_eq (firstAddress_inside _ _ found))
    · rw [ends, findAddress_stops (by omega)]
      rfl
  · omega

theorem browserHandle_within
    (whole : m.an = 0 ∨
      f.len = f.tcpAt + 8 + m.size ∨ m.qd = 1 ∧ Complete m.byte m.size m.size 12) :
    Within (· < f.tcpAt + 8 + m.size) (browserHandle s f) := by
  have header := gets.header
  have behind : 0 + 42 ≤ f.tcpAt + 8 := by
    unfold Frame.tcpAt
    omega
  have room := gets.brings.room
  apply (browserHandle_reads gets).within
  apply (udpFrame_reads gets).within
  by_cases empty : m.an < 1
  · rw [if_pos empty]
    exact within_pure _ _
  rw [if_neg empty]
  have parts : Within (· < f.tcpAt + 8 + m.size)
        (skipQuestions f (f.tcpAt + 8) (f.len - (f.tcpAt + 8)) m.qd 12) ∧
      Within (· < f.tcpAt + 8 + m.size)
        (findAddress f (f.tcpAt + 8) (f.len - (f.tcpAt + 8)) m.an
          (skipQuestions f (f.tcpAt + 8) (f.len - (f.tcpAt + 8)) m.qd 12).value) := by
    rcases gets.brings.cases behind with filled | ⟨padded, few⟩
    · have fill : f.tcpAt + 8 + (f.len - (f.tcpAt + 8)) = f.len := by omega
      have ends : f.tcpAt + 8 + m.size = f.len := by omega
      rw [ends]
      exact ⟨skipQuestions_within fill m.qd 12, findAddress_within fill _ _⟩
    · obtain ⟨one, full⟩ := (whole.resolve_left (by omega)).resolve_left padded
      have start : 12 ≤ (skipQuestions f (f.tcpAt + 8) (f.len - (f.tcpAt + 8)) m.qd 12).value :=
        skipQuestions_behind m.qd 12
      rw [findAddress_stops (by omega), one]
      exact ⟨skipQuestions_complete gets.brings.holds (by omega) full, within_pure _ _⟩
  unfold walk
  rw [within_bind_of parts.1, within_bind_of parts.2]
  split <;> exact within_pure _ _

end BrowserSide

/-- Under the condition the two readers agree, stay inside the message and take only the answer
to their query. -/
theorem answers_agree {asked : Nat} {s : Vars} {dns : Ip} {m : Message} {f : Frame}
    {g : Wifi.Tftp.Frame} (browser : BrowserGets m f) (resolver : ResolverGets dns m g)
    (regular : Regular asked m f g) : Agree asked s dns m f g := by
  have one : m.an = 0 ∨ m.size < 24 ∨ m.qd = 1 :=
    regular.simple.imp_right (Or.imp_right Simple.one)
  have left := browserAnswer_first (s := s) browser regular.simple
  have right := resolverAnswer_first resolver one
  refine ⟨left.trans right.symm, browserHandle_within browser regular.browser_whole,
    wifiResolve_within resolver regular.resolver_whole, fun found => ?_,
    fun _ => regular.resolver_id⟩
  apply regular.browser_id
  intro missing
  rw [left, missing] at found
  exact found rfl

def nameServer : Ip := [192, 168, 3, 1]

/-- An Ethernet frame from the name server's port 53 to the port `high`, `low`. -/
def etherBytes (high low : UInt8) (m : Message) : List UInt8 :=
  List.replicate 12 0 ++ [8, 0, 0x45, 0, 0, 0, 0, 0, 0, 0, 64, 17, 0, 0] ++ nameServer ++
    [192, 168, 3, 101, 0, 53, high, low, 0, 0, 0, 0] ++ m.val

def browserFrame (m : Message) : Frame where
  byte i := (etherBytes 0x9C 0x40 m).getD i 0
  len := 42 + m.size

def resolverFrame (m : Message) : Wifi.Tftp.Frame where
  byte i := (List.replicate 16 0 ++ etherBytes 0xD0 0xE5 m).getD i 0
  n := 58 + m.size
  chan := 2
  doff := 12

def quiet : Vars := ⟨⟨.closed, [], [], 0, 0, 0, 0, false, false, false⟩, [], [], false, [], ⟨0, 0, 0, 0, 0⟩⟩

/-- An answer to the question for `a` whose record has the name `name`. -/
def answerFor (name : List UInt8) : Message :=
  ⟨[0x12, 0x34, 0x81, 0x80, 0, 1, 0, 1, 0, 0, 0, 0, 1, 97, 0, 0, 1, 0, 1] ++ name ++
    [0, 1, 0, 1, 0, 0, 0, 60, 0, 4, 1, 2, 3, 4], by simp⟩

theorem etherBytes_message (high low : UInt8) (m : Message) (i : Nat) :
    (etherBytes high low m).getD (42 + i) 0 = m.val.getD i 0 := by
  rw [etherBytes, List.getD_append_right _ _ _ _ (Nat.le_add_right 42 i)]
  exact congrArg (m.val.getD · 0) (Nat.add_sub_cancel_left 42 i)

section

variable (m : Message)

include m

theorem browserFrame_tcpAt : (browserFrame m).tcpAt = 34 := by
  have first : (browserFrame m).at8 14 = 0x45 := rfl
  rw [Frame.tcpAt, Frame.ipHeaderLen, first]

theorem browserFrame_gets : BrowserGets m (browserFrame m) where
  type := by
    have high : (browserFrame m).at8 12 = 8 := rfl
    have low : (browserFrame m).at8 13 = 0 := rfl
    rw [Frame.at16, high, low]
  header := by
    have first : (browserFrame m).at8 14 = 0x45 := rfl
    exact Nat.le_of_eq (congrArg (· % 16 * 4) first).symm
  protocol := rfl
  port := by
    have high : (browserFrame m).at8 34 = 0 := rfl
    have low : (browserFrame m).at8 35 = 53 := rfl
    rw [browserFrame_tcpAt, Frame.at16, high, low]
  brings := by
    rw [browserFrame_tcpAt]
    exact ⟨fun i _ => congrArg UInt8.toNat (etherBytes_message 0x9C 0x40 m i), Nat.le_refl _, .inl rfl⟩

theorem resolverFrame_etherAt : etherAt (resolverFrame m) = 16 := by
  have bdc : (resolverFrame m).byte (12 + 3) = 0 := rfl
  rw [etherAt, show (resolverFrame m).doff = 12 from rfl, bdc]
  decide

theorem resolverFrame_at8 (i : Nat) :
    (buffer (resolverFrame m)).at8 (16 + i) = ((etherBytes 0xD0 0xE5 m).getD i 0).toNat := by
  have place : (resolverFrame m).byte (16 + i) = (etherBytes 0xD0 0xE5 m).getD i 0 := by
    have drop := List.getD_append_right (List.replicate 16 0) (etherBytes 0xD0 0xE5 m) (0 : UInt8)
      (16 + i) (Nat.le_add_right 16 i)
    rwa [List.length_replicate, Nat.add_sub_cancel_left] at drop
  exact congrArg UInt8.toNat place

theorem resolverFrame_udpAt : udpAt (resolverFrame m) = 50 := by
  have first : (buffer (resolverFrame m)).at8 (16 + 14) = 0x45 := rfl
  rw [udpAt, resolverFrame_etherAt, first]

theorem resolverFrame_gets : ResolverGets nameServer m (resolverFrame m) where
  chan := rfl
  type := by
    have high : (buffer (resolverFrame m)).at8 (16 + 12) = 8 := rfl
    have low : (buffer (resolverFrame m)).at8 (16 + 12 + 1) = 0 := rfl
    rw [resolverFrame_etherAt, Frame.at16, high, low]
  header := by
    have first : (buffer (resolverFrame m)).at8 (16 + 14) = 0x45 := rfl
    rw [resolverFrame_etherAt]
    exact Nat.le_of_eq (congrArg (· % 16 * 4) first).symm
  protocol := by
    rw [resolverFrame_etherAt]
    rfl
  port := by
    have high : (buffer (resolverFrame m)).at8 (50 + 2) = 0xD0 := rfl
    have low : (buffer (resolverFrame m)).at8 (50 + 2 + 1) = 0xE5 := rfl
    rw [resolverFrame_udpAt, Frame.at16, high, low]
    rfl
  source := by
    rw [resolverFrame_etherAt]
    rfl
  brings := by
    rw [resolverFrame_etherAt, resolverFrame_udpAt]
    refine ⟨fun i _ => ?_, Nat.le_refl _, .inl rfl⟩
    have place : 50 + 8 + i = 16 + (42 + i) := by omega
    rw [place, resolverFrame_at8, etherBytes_message]
    rfl

end

theorem answers_agree_pointer :
    Agree 0x1234 quiet nameServer (answerFor [0xC0, 12]) (browserFrame (answerFor [0xC0, 12]))
      (resolverFrame (answerFor [0xC0, 12])) := by
  refine answers_agree (browserFrame_gets _) (resolverFrame_gets _)
    ⟨rfl, fun _ => rfl, .inr (.inr ⟨rfl, by decide, fun q ends => ?_⟩), .inr (.inl rfl), .inl rfl⟩
  have place : q = 15 := by
    have known : nameEnd (answerFor [0xC0, 12]).byte (answerFor [0xC0, 12]).size
        (answerFor [0xC0, 12]).size 12 = some 15 := by
      decide
    exact Option.some.inj (ends.symm.trans known)
  rw [place]
  decide

/-- A name of one label and a pointer: the browser takes the pointer for a label's length. -/
theorem compressed_name_missed :
    browserAnswer quiet (browserFrame (answerFor [3, 119, 119, 119, 0xC0, 12])) = none ∧
      resolverAnswer nameServer (resolverFrame (answerFor [3, 119, 119, 119, 0xC0, 12])) =
        some [1, 2, 3, 4] := by
  decide +kernel

end XinuRpi5.System.DnsAnswers
