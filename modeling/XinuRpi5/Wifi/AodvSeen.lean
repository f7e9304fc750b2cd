/- source: device/wifi/wifi.c
   digest: What aodv_seen and aodv_remember read and write, and when requests repeat. -/

import XinuRpi5.Lib.GuardedRuns
import XinuRpi5.Lib.RecentRing
import XinuRpi5.Wifi.Aodv

/-!
The ring is followed by other memory, which a lookup that runs past it reads and which may
hold anything each time.
-/

namespace XinuRpi5.Wifi.AodvSeen

open Lib.GuardedRuns Lib.RecentRing Aodv

abbrev Key := Ip × UInt16

/-- `g_seen_o` and `g_seen_id`, and the memory behind them. -/
def entryAt (n : Node) (behind : Nat → Key) (i : Nat) : Key :=
  if inside : i < 8 then n.seen ⟨i, inside⟩ else behind i

/-- The loop of `aodv_seen` from an index on: what it reads, and its result. -/
def lookup (entry : Nat → Key) (key : Key) : Nat → Nat → List Nat × Bool
  | 0, _ => ([], false)
  | left + 1, i =>
    if entry i = key then ([i], true)
    else (i :: (lookup entry key left (i + 1)).1, (lookup entry key left (i + 1)).2)

def beyond (n : Node) (behind : Nat → Key) (key : Key) : Bool :=
  (List.range n.seenN).any fun i => 8 ≤ i ∧ behind i = key

/-- `g_seen_n % 8` of an `int` that wraps around. -/
def slotIndex (n : Node) : Int := (Int.bmod n.seenN (2 ^ 32)).tmod 8

/-- The payload is a request for this node's `aodv_ip_in`. -/
def Request (f : Frame) : Prop := Control f ∧ f.body.type = aodvRreq

instance (f : Frame) : Decidable (Request f) := inferInstanceAs (Decidable (_ ∧ _))

def keyOf (f : Frame) : Key := (f.body.orig, f.body.rid)

inductive Op where
  | discover (dst : Ip)
  | receive (f : Frame) (behind : Nat → Key) (arp : Bool) (junk : UInt16)

def envOf (n : Node) (f : Frame) (behind : Nat → Key) (arp : Bool) (junk : UInt16) : Env :=
  ⟨beyond n behind (keyOf f), arp, junk⟩

/-- A request was seen before, as far as `aodv_seen` can tell. -/
def known (n : Node) (f : Frame) (behind : Nat → Key) : Bool :=
  aodvSeen n f.body.orig f.body.rid (beyond n behind (keyOf f))

def accesses (n : Node) : Op → List Int
  | .discover _ => [slotIndex n]
  | .receive f behind _ _ =>
    if Request f then
      (lookup (entryAt n behind) (keyOf f) n.seenN 0).1.map Int.ofNat ++
        if known n f behind then [] else [slotIndex n]
    else []

/-- A node, the requests that it entered into the ring with whether it rebroadcast them,
the last first, and the indices that were used. -/
structure State where
  node : Node
  log : List (Key × Bool)
  used : List Int

/-- What `aodv_ip_in` sends for a request of another node's. -/
def rebroadcast (me : Ip) (f : Frame) : Frame :=
  udpTx me broadcast { f.body with hop := f.body.hop + 1 }

def entered (me : Ip) (n : Node) : Op → List (Key × Bool)
  | .discover _ => [((me, n.rreqid + 1), false)]
  | .receive f behind arp junk =>
    if Request f ∧ known n f behind = false then
      [(keyOf f, (aodvIpIn me n f (envOf n f behind arp junk)).2.1 = some (rebroadcast me f))]
    else []

def nodeAfter (me : Ip) (n : Node) : Op → Node
  | .discover dst => (aodvSendRreq me n dst).1
  | .receive f behind arp junk => (aodvIpIn me n f (envOf n f behind arp junk)).1

def step (me : Ip) (s : State) (op : Op) : Option State :=
  some ⟨nodeAfter me s.node op, entered me s.node op ++ s.log, accesses s.node op ++ s.used⟩

def start : State := ⟨powerOn.nodes zeroIp, [], []⟩

def Spaced : List (Key × Bool) → Prop
  | [] => True
  | (key, again) :: older =>
    (again = true → ∀ between rest, older = between ++ (key, true) :: rest →
      8 ≤ (between.filter fun e => e.1 ≠ key).length) ∧ Spaced older

/-- The counter is an `int`, and a request that is looked up is in the ring, or no more
requests were entered than the ring has places. -/
def Careful (s : State) : Op → Prop
  | .discover _ => s.node.seenN < 2 ^ 31
  | .receive f _ _ _ => s.node.seenN < 2 ^ 31 ∧
      (Request f → s.node.seenN ≤ 8 ∨ ∃ i, s.node.seen i = keyOf f)

instance (s : State) (op : Op) : Decidable (Careful s op) := by
  cases op <;> unfold Careful <;> infer_instance

section Lookups

/-- An index is read unless an entry before it matches. -/
theorem lookup_reads (entry : Nat → Key) (key : Key) (left i j : Nat) :
    j ∈ (lookup entry key left i).1 ↔
      i ≤ j ∧ j < i + left ∧ ∀ k, i ≤ k → k < j → entry k ≠ key := by
  induction left generalizing i with
  | zero =>
    constructor
    · intro listed
      cases listed
    · rintro ⟨low, high, -⟩
      omega
  | succ left ih =>
    unfold lookup
    by_cases here : entry i = key
    · rw [if_pos here, List.mem_singleton]
      constructor
      · rintro rfl
        exact ⟨Nat.le_refl j, by omega, fun k low high => by omega⟩
      · rintro ⟨low, high, none⟩
        by_contra other
        exact none i (Nat.le_refl i) (by omega) here
    · rw [if_neg here, List.mem_cons, ih]
      constructor
      · rintro (rfl | ⟨low, high, none⟩)
        · exact ⟨Nat.le_refl j, by omega, fun k low high => by omega⟩
        · refine ⟨by omega, by omega, fun k from' below => ?_⟩
          by_cases first : k = i
          · exact first ▸ here
          · exact none k (by omega) below
      · rintro ⟨low, high, none⟩
        by_cases first : j = i
        · exact .inl first
        · exact .inr ⟨by omega, by omega, fun k from' below => none k (by omega) below⟩

variable {n : Node} {behind : Nat → Key} {key : Key}

theorem lookup_inside : (∀ i ∈ (lookup (entryAt n behind) key n.seenN 0).1, i < 8) ↔
    n.seenN ≤ 8 ∨ ∃ i, n.seen i = key := by
  constructor
  · intro inside
    by_contra neither
    obtain ⟨many, none⟩ := not_or.mp neither
    have eighth : 8 ∈ (lookup (entryAt n behind) key n.seenN 0).1 := by
      refine (lookup_reads _ _ _ _ _).mpr ⟨by omega, by omega, fun k _ below same => ?_⟩
      rw [entryAt, dif_pos below] at same
      exact none ⟨_, same⟩
    exact absurd (inside 8 eighth) (by omega)
  · rintro (few | ⟨k, same⟩) i listed
    · have := (lookup_reads _ _ _ _ _).mp listed
      omega
    · obtain ⟨-, -, none⟩ := (lookup_reads _ _ _ _ _).mp listed
      by_contra outside
      refine none k (Nat.zero_le _) (by omega) ?_
      rw [entryAt, dif_pos k.isLt]
      exact same

theorem slotIndex_eq (few : n.seenN < 2 ^ 31) : slotIndex n = (n.seenN % 8 : Nat) := by
  unfold slotIndex
  have fits : Int.bmod n.seenN (2 ^ 32) = n.seenN := by
    rw [Int.bmod_def]
    split_ifs
    · omega
    · omega
  rw [fits]
  rfl

end Lookups

section Ring

def ring (n : Node) : RingBuffer Key where
  slots j :=
    if inside : j < 8 then if j < n.seenN then some (n.seen ⟨j, inside⟩) else none else none
  next := n.seenN % 8

theorem ring_remember (n : Node) (o : Ip) (id : UInt16) :
    ring (aodvRemember n o id) = store 8 (ring n) (o, id) := by
  have next : (n.seenN + 1) % 8 = (n.seenN % 8 + 1) % 8 := by omega
  unfold ring store aodvRemember
  simp only [next, RingBuffer.mk.injEq, and_true]
  funext j
  by_cases here : j = n.seenN % 8
  · have inside : j < 8 := by omega
    have written : j < n.seenN + 1 := by omega
    have same : (⟨j, inside⟩ : Fin 8) = ⟨n.seenN % 8, Nat.mod_lt _ (by decide)⟩ :=
      Fin.ext here
    rw [if_pos here, dif_pos inside, if_pos written, same, Function.update_self]
  · rw [if_neg here]
    split
    · next inside =>
      have other : (⟨j, inside⟩ : Fin 8) ≠ ⟨n.seenN % 8, Nat.mod_lt _ (by decide)⟩ :=
        fun same => here (Fin.mk.inj same)
      have written : j < n.seenN + 1 ↔ j < n.seenN := by omega
      simp only [Function.update_of_ne other, written]
    · rfl

variable {n : Node} {history : List Key} {key : Key}

theorem Holds.unknown (holds : Holds 8 (ring n) history) {b : Bool}
    (unknown : aodvSeen n key.1 key.2 b = false) : key ∉ recent 8 history := by
  intro listed
  obtain ⟨i, found, near⟩ := mem_recent.mp listed
  have slot := holds.kept i key found near
  unfold ring at slot
  have inside : i % 8 < 8 := Nat.mod_lt i (by decide)
  simp only [dif_pos inside] at slot
  split_ifs at slot with written
  unfold aodvSeen at unknown
  rw [Bool.or_eq_false_iff, List.any_eq_false] at unknown
  refine unknown.1 ⟨i % 8, inside⟩ (List.mem_finRange _) ?_
  exact decide_eq_true ⟨written, Option.some.inj slot⟩

end Ring

section Runs

variable {me : Ip} {s s' : State}

/-- The ring holds the last entries of the log, and no access was outside it. -/
structure Inv (s : State) : Prop where
  count : s.node.seenN = s.log.length
  holds : Holds 8 (ring s.node) (s.log.reverse.map Prod.fst)
  inside : ∀ i ∈ s.used, 0 ≤ i ∧ i < 8
  spaced : Spaced s.log

theorem start_inv : Inv start := by
  refine ⟨rfl, ?_, fun i listed => (List.not_mem_nil listed).elim, trivial⟩
  have same : ring start.node = empty := by
    unfold ring empty
    congr 1
    funext j
    split_ifs with inside written
    · exact absurd written (Nat.not_lt_zero j)
    · rfl
    · rfl
  rw [same]
  exact holds_empty

/-- The accesses of an operation stay in the ring exactly when it is careful. -/
theorem accesses_inside (few : s.node.seenN < 2 ^ 31) (op : Op) :
    (∀ i ∈ accesses s.node op, 0 ≤ i ∧ i < 8) ↔ Careful s op := by
  have slot : 0 ≤ slotIndex s.node ∧ slotIndex s.node < 8 := by
    rw [slotIndex_eq few]
    omega
  cases op with
  | discover dst =>
    refine iff_of_true (fun i listed => ?_) few
    rw [List.mem_singleton.mp listed]
    exact slot
  | receive f behind arp junk =>
    simp only [accesses, Careful]
    by_cases request : Request f
    · rw [if_pos request]
      constructor
      · intro inside
        refine ⟨few, fun _ => (@lookup_inside s.node behind (keyOf f)).mp fun i listed => ?_⟩
        have := inside i (List.mem_append_left _ (List.mem_map_of_mem listed))
        omega
      · rintro ⟨-, found⟩ i used
        rcases List.mem_append.mp used with read | written
        · obtain ⟨j, listed, rfl⟩ := List.mem_map.mp read
          have := lookup_inside.mpr (found request) j listed
          exact ⟨Int.natCast_nonneg j, Int.ofNat_lt.mpr this⟩
        · split_ifs at written
          · cases written
          · rw [List.mem_singleton.mp written]
            exact slot
    · rw [if_neg request]
      exact iff_of_true (fun i listed => by cases listed)
        ⟨few, fun is => absurd is request⟩

/-- What `aodv_ip_in` does to the ring. -/
theorem aodvIpIn_seen (me : Ip) (n : Node) (f : Frame) (env : Env) :
    (Request f ∧ aodvSeen n f.body.orig f.body.rid env.beyond = false →
      ring (aodvIpIn me n f env).1 = store 8 (ring n) (keyOf f) ∧
        (aodvIpIn me n f env).1.seenN = n.seenN + 1) ∧
    (¬ (Request f ∧ aodvSeen n f.body.orig f.body.rid env.beyond = false) →
      ring (aodvIpIn me n f env).1 = ring n ∧ (aodvIpIn me n f env).1.seenN = n.seenN) := by
  unfold aodvIpIn
  constructor
  · rintro ⟨⟨⟨udp, port⟩, type⟩, fresh⟩
    rw [if_pos udp, if_neg (not_not.mpr port)]
    simp only [if_pos type, fresh, Bool.false_eq_true, if_false]
    split_ifs
    · exact ⟨ring_remember n _ _, rfl⟩
    · exact ⟨ring_remember n _ _, rfl⟩
  · intro other
    by_cases udp : f.proto = 17
    · rw [if_pos udp]
      by_cases port : f.dport = aodvPort
      · rw [if_neg (not_not.mpr port)]
        by_cases type : f.body.type = aodvRreq
        · have seen : aodvSeen n f.body.orig f.body.rid env.beyond = true := by
            rw [← Bool.not_eq_false]
            exact fun fresh => other ⟨⟨⟨udp, port⟩, type⟩, fresh⟩
          rw [if_pos type, if_pos seen]
          exact ⟨rfl, rfl⟩
        · simp only [if_neg type]
          split_ifs
          · exact ⟨rfl, rfl⟩
          · split
            · exact ⟨rfl, rfl⟩
            · exact ⟨rfl, rfl⟩
          · split
            · exact ⟨rfl, rfl⟩
            · exact ⟨rfl, rfl⟩
          · exact ⟨rfl, rfl⟩
      · rw [if_pos port]
        exact ⟨rfl, rfl⟩
    · rw [if_neg udp]
      split_ifs
      · split
        · exact ⟨rfl, rfl⟩
        · exact ⟨rfl, rfl⟩
      · split
        · exact ⟨rfl, rfl⟩
        · exact ⟨rfl, rfl⟩
      · exact ⟨rfl, rfl⟩

/-- A request that is not among the last eight may be entered. -/
theorem Spaced.cons {log : List (Key × Bool)} (spaced : Spaced log) {key : Key} {again : Bool}
    (fresh : again = true → key ∉ recent 8 (log.reverse.map Prod.fst)) :
    Spaced ((key, again) :: log) := by
  have same : recent 8 (log.reverse.map Prod.fst) = ((log.take 8).map Prod.fst).reverse := by
    unfold recent
    rw [List.length_map, List.length_reverse, ← List.map_drop, ← List.map_reverse,
      List.drop_reverse]
    by_cases few : log.length ≤ 8
    · rw [Nat.sub_eq_zero_of_le few, List.take_of_length_le few, Nat.sub_zero, List.take_length]
    · rw [Nat.sub_sub_self (Nat.le_of_not_le few)]
  refine ⟨fun is between rest equal => ?_, spaced⟩
  have absent := fresh is
  rw [same, List.mem_reverse, equal] at absent
  have many : 8 ≤ between.length := by
    by_contra few
    refine absent (List.mem_map.mpr ⟨(key, true), ?_, rfl⟩)
    rw [List.take_append, List.mem_append]
    refine .inr ?_
    have left : 8 - between.length = (7 - between.length) + 1 := by omega
    rw [left, List.take_succ_cons]
    exact List.mem_cons_self
  have others : ∀ e ∈ between.take 8, e.1 ≠ key := by
    intro e listed same
    refine absent (List.mem_map.mpr ⟨e, ?_, same⟩)
    rw [List.take_append_of_le_length many]
    exact listed
  calc 8 = (between.take 8).length := by rw [List.length_take, Nat.min_eq_left many]
    _ = ((between.take 8).filter fun e => e.1 ≠ key).length := by
      rw [List.filter_eq_self.mpr fun e listed => decide_eq_true (others e listed)]
    _ ≤ (between.filter fun e => e.1 ≠ key).length :=
      ((List.take_sublist 8 between).filter _).length_le

theorem step_inv {op : Op} (inv : Inv s) (careful : Careful s op) (goes : step me s op = some s') :
    Inv s' := by
  obtain rfl := Option.some.inj goes
  have few : s.node.seenN < 2 ^ 31 := by
    cases op with
    | discover dst => exact careful
    | receive f behind arp junk => exact careful.1
  have inside : ∀ i ∈ accesses s.node op ++ s.used, 0 ≤ i ∧ i < 8 := by
    intro i listed
    rcases List.mem_append.mp listed with new | old
    · exact (accesses_inside few op).mpr careful i new
    · exact inv.inside i old
  -- a new entry of the log is stored in the ring, and without one the ring stays
  have enter : ∀ (n : Node) (e : Key × Bool), ring n = store 8 (ring s.node) e.1 →
      n.seenN = s.node.seenN + 1 → (e.2 = true → e.1 ∉ recent 8 (s.log.reverse.map Prod.fst)) →
      Inv ⟨n, e :: s.log, accesses s.node op ++ s.used⟩ := by
    intro n e stored count fresh
    refine ⟨?_, ?_, inside, inv.spaced.cons fresh⟩
    · rw [count, inv.count]
      rfl
    · change Holds 8 (ring n) _
      rw [stored, List.reverse_cons, List.map_append]
      exact inv.holds.store (by decide) e.1
  cases op with
  | discover dst =>
    refine enter _ _ (ring_remember _ _ _) rfl fun again => ?_
    cases again
  | receive f behind arp junk =>
    obtain ⟨stores, stays⟩ := aodvIpIn_seen me s.node f (envOf s.node f behind arp junk)
    simp only [entered]
    by_cases new : Request f ∧ known s.node f behind = false
    · rw [if_pos new]
      obtain ⟨stored, count⟩ := stores new
      exact enter _ _ stored count fun _ => Holds.unknown inv.holds new.2
    · rw [if_neg new]
      obtain ⟨same, count⟩ := stays new
      refine ⟨count.trans inv.count, ?_, inside, inv.spaced⟩
      change Holds 8 (ring (aodvIpIn me s.node f _).1) _
      rw [same]
      exact inv.holds

/-- In every run of careful operations all accesses stay in the ring and the rebroadcasts
of a request have eight others between them; an operation that is not careful leaves it. -/
theorem requests_stay_seen {s : State} (run : Runs (step me) Careful start s) :
    (∀ i ∈ s.used, 0 ≤ i ∧ i < 8) ∧ Spaced s.log ∧
      ∀ op, s.node.seenN < 2 ^ 31 →
        ((∀ i ∈ accesses s.node op, 0 ≤ i ∧ i < 8) ↔ Careful s op) := by
  have inv : Inv s := run.invariant start_inv fun _ _ _ inv careful goes =>
    step_inv inv careful goes
  exact ⟨inv.inside, inv.spaced, fun op few => accesses_inside few op⟩

def request (id : UInt16) : Op :=
  .receive ⟨⟨10, 0, 0, 3⟩, broadcast, 17, aodvPort,
    ⟨aodvRreq, id, ⟨10, 0, 0, 2⟩, ⟨10, 0, 0, 9⟩, 0, 0⟩⟩ (fun _ => (zeroIp, 0)) false 0

def self : Ip := ⟨10, 0, 0, 1⟩

theorem requests_stay_seen_two : ∃ s : State, s.log = [((⟨10, 0, 0, 2⟩, 2), true),
    ((⟨10, 0, 0, 2⟩, 1), true)] ∧ (∀ i ∈ s.used, 0 ≤ i ∧ i < 8) ∧ Spaced s.log := by
  obtain ⟨s, goes, log⟩ : ∃ s, [request 1, request 1, request 2].foldlM
      (fun s op => if decide (Careful s op) then step self s op else none) start = some s ∧
      s.log = [((⟨10, 0, 0, 2⟩, 2), true), ((⟨10, 0, 0, 2⟩, 1), true)] := ⟨_, rfl, rfl⟩
  have run : Runs (step self) Careful start s :=
    Runs.of_checked _ (fun _ _ meets => of_decide_eq_true meets) _ goes
  obtain ⟨inside, spaced, -⟩ := requests_stay_seen run
  exact ⟨s, log, inside, spaced⟩

/-- The tenth request is looked up behind the ring. -/
theorem tenth_request_outside : ∃ s, Runs (step self) (fun _ _ => True) start s ∧
    ¬ ∀ i ∈ s.used, 0 ≤ i ∧ i < 8 := by
  obtain ⟨s, goes, eighth⟩ : ∃ s, [request 0, request 1, request 2, request 3, request 4,
      request 5, request 6, request 7, request 8, request 9].foldlM (step self) start = some s ∧
      8 ∈ s.used := ⟨_, rfl, by decide⟩
  refine ⟨s, Runs.of_steps _ (fun _ _ _ => trivial) goes, fun inside => ?_⟩
  exact absurd (inside 8 eighth).2 (by decide)

end Runs

end XinuRpi5.Wifi.AodvSeen
