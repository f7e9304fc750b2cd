/- source: device/wifi/wifi.c
   digest: Transfers one after the other from one server, over a network that keeps every packet. -/

import XinuRpi5.Lib.GuardedRuns
import XinuRpi5.Wifi.Tftp

/-!
Every DATA packet that was ever sent can be received at any later time, any number of times or
never. A server answers the first request and then each acknowledgement of its last block, or at
any moment once its transfer has ended; a repeated request has the same blocks sent again. Behind
block 65535 the numbers are any that the server likes.
-/

namespace XinuRpi5.Wifi.TftpRuns

open Lib.GuardedRuns Tftp

structure Packet where
  number : Nat
  payload : Bytes
  deriving DecidableEq

/-- Block `k`, counted from 1; the last block is the first that is shorter than 512 bytes. -/
def block (file : Bytes) (k : Nat) : Bytes := (file.drop (512 * (k - 1))).take 512

/-- A transfer at its server: the file, the number of blocks sent so far, their packets, the
latest first, and the numbers that the client acknowledged. -/
structure Job where
  file : Bytes
  top : Nat
  sent : List Packet
  acked : List Nat

def Job.fresh (file : Bytes) : Job := ⟨file, 0, [], []⟩

/-- The number of block `k`; where 16 bits do not hold it, it is `wrapped`. -/
def numberOf (k wrapped : Nat) : Nat := if k < 65536 then k else wrapped

def Job.sendNext (j : Job) (wrapped : Nat) : Job :=
  { j with
    top := j.top + 1
    sent := ⟨numberOf (j.top + 1) wrapped, block j.file (j.top + 1)⟩ :: j.sent }

/-- The next block: the first one, or the latest one was acknowledged and was not the last. -/
def Job.serve (j : Job) (wrapped : Nat) : Option Job :=
  if j.top = 0 ∨ 512 * j.top ≤ j.file.length ∧ ∃ p ∈ j.sent.head?, p.number ∈ j.acked then
    some (j.sendNext wrapped)
  else none

/-- A server that the client has left goes on at any moment: a later transfer answers a packet of
the earlier one, and its acknowledgement may reach that one's port. -/
def Job.serveOn (j : Job) (wrapped : Nat) : Option Job :=
  if 512 * j.top ≤ j.file.length then some (j.sendNext wrapped) else none

/-- The numbers of the acknowledgements among the packets that the client sent. -/
def acksOf (out : List (Nat × Bytes)) : List Nat :=
  out.filterMap fun p =>
    match p.2 with
    | [0, 4, high, low] => some (high.toNat * 256 + low.toNat)
    | _ => none

/-- The transfers that have ended, the one under way and the client's call for it. -/
structure World where
  earlier : List Job
  now : Job
  call : Call
  get : Get

inductive Op where
  | serve (wrapped : Nat)
  | serveEarlier (i wrapped : Nat)
  | turn (read : Option Frame)
  | next (file : Bytes) (call : Call)

def World.first (file : Bytes) (call : Call) : World := ⟨[], .fresh file, call, start call⟩

def World.carries (w : World) : Heard → Bool
  | .data _ blk payload => (w.now :: w.earlier).any fun j => decide (⟨blk, payload⟩ ∈ j.sent)
  | _ => true

def hears (srv : Bytes) (read : Option Frame) : Heard := (read.map (heard srv)).getD .other

def step (srv : Bytes) (w : World) : Op → Option World
  | .serve wrapped => (w.now.serve wrapped).map fun j => { w with now := j }
  | .serveEarlier i wrapped =>
    (w.earlier[i]?.bind fun j => j.serveOn wrapped).map fun j =>
      { w with earlier := w.earlier.set i j }
  | .turn read =>
    if w.get.running && w.carries (hears srv read) then
      let get := turn srv w.call w.get read
      some { w with get := get, now := { w.now with acked := acksOf get.out } }
    else none
  | .next file call =>
    if w.get.running then none
    else some ⟨w.earlier ++ [w.now], .fresh file, call, start call⟩

/-- A packet of an earlier transfer with the awaited number carries the bytes of the block. -/
def Harmless (srv : Bytes) (w : World) : Op → Prop
  | .turn read =>
    match hears srv read with
    | .data _ blk payload =>
      blk = w.get.nextblk → (∃ j ∈ w.earlier, ⟨blk, payload⟩ ∈ j.sent) →
        payload = block w.now.file blk
    | _ => True
  | _ => True

theorem acksOf_append (a b : List (Nat × Bytes)) : acksOf (a ++ b) = acksOf a ++ acksOf b :=
  List.filterMap_append

theorem acksOf_rrq (fname : Bytes) : acksOf [(69, rrq fname)] = [] := by
  simp [acksOf, rrq]

theorem acksOf_ack (port : Nat) {blk : Nat} (word : blk < 65536) :
    acksOf [(port, ack blk)] = [blk] := by
  simp only [acksOf, Tftp.ack, List.filterMap_cons, List.filterMap_nil, ofNat_pair word]

/-- Nothing is stored, and no more is acknowledged than the block before the awaited one. -/
structure Quiet (s s' : Get) : Prop where
  dst : s'.dst = s.dst
  nextblk : s'.nextblk = s.nextblk
  finished : s'.finished = s.finished
  acks : ∀ a ∈ acksOf s'.out, a ∈ acksOf s.out ∨ a = s.nextblk - 1

theorem Quiet.same {s s' : Get} (dst : s'.dst = s.dst) (nextblk : s'.nextblk = s.nextblk)
    (finished : s'.finished = s.finished) (out : s'.out = s.out) : Quiet s s' :=
  ⟨dst, nextblk, finished, fun _ mem => .inl (out ▸ mem)⟩

theorem Quiet.again {s : Get} (bound : s.nextblk ≤ 65536) :
    Quiet s (s.send s.srvTid (ack (s.nextblk - 1))) := by
  refine ⟨rfl, rfl, rfl, fun a mem => ?_⟩
  rw [Get.send, acksOf_append, acksOf_ack _ (by omega), List.mem_append, List.mem_singleton] at mem
  exact mem

theorem onIdle_quiet (c : Call) {s : Get} (bound : s.nextblk ≤ 65536) : Quiet s (onIdle c s) := by
  unfold onIdle
  split_ifs
  · refine ⟨rfl, rfl, rfl, fun a mem => .inl ?_⟩
    rwa [Get.send, acksOf_append, acksOf_rrq, List.append_nil] at mem
  · exact .again bound
  · exact .same rfl rfl rfl rfl
  · exact .same rfl rfl rfl rfl

theorem turn_cases (srv : Bytes) (c : Call) {s : Get} (bound : s.nextblk ≤ 65536)
    (read : Option Frame) :
    Quiet s (turn srv c s read) ∨
      ∃ ssport payload, hears srv read = .data ssport s.nextblk payload ∧
        turn srv c s read =
          { onBlock c s ssport s.nextblk payload with w := 1 } := by
  have counted : ∀ {t : Get}, Quiet s t → Quiet s { t with w := t.w + 1 } := fun quiet =>
    ⟨quiet.dst, quiet.nextblk, quiet.finished, quiet.acks⟩
  unfold turn
  cases read with
  | none => exact .inl (counted (onIdle_quiet c bound))
  | some f =>
    simp only [hears, Option.map_some, Option.getD_some]
    cases heard srv f with
    | other => exact .inl (counted (.same rfl rfl rfl rfl))
    | error code => exact .inl (counted (.same rfl rfl rfl rfl))
    | data ssport blk payload =>
      simp only [onFrame, onData]
      split_ifs with awaited known
      · subst awaited
        exact .inr ⟨ssport, payload, rfl, rfl⟩
      · exact .inl (counted (.again bound))
      · exact .inl (counted (.same rfl rfl rfl rfl))

theorem heard_word {srv : Bytes} {read : Option Frame} {ssport blk : Nat} {payload : Bytes}
    (data : hears srv read = .data ssport blk payload) : blk < 65536 := by
  cases read with
  | none => cases data
  | some f =>
    simp only [hears, Option.map_some, Option.getD_some, heard] at data
    split_ifs at data
    injection data with _ number _
    rw [← number]
    exact f.at16_lt _

section Invariant

/-- What stands in `dst`: the blocks in front of the awaited one, and in the end the file. -/
structure Stored (file : Bytes) (maxlen : Int) (s : Get) : Prop where
  low : 1 ≤ s.nextblk
  high : s.nextblk ≤ 65536
  blocks : s.finished = false → 512 * (s.nextblk - 1) ≤ file.length ∧
    s.dst = (file.take (512 * (s.nextblk - 1))).take maxlen.toNat
  whole : s.finished = true → s.dst = file.take maxlen.toNat

/-- What the network holds of a transfer whose client awaits block `next`. -/
structure Served (j : Job) (next : Nat) : Prop where
  reach : min j.top 65536 ≤ next
  packets : ∀ p ∈ j.sent, ∃ k, k ≤ j.top ∧ p.payload = block j.file k ∧
    (k < 65536 → p.number = k)
  last : j.top < 65536 → ∀ p ∈ j.sent.head?, p.number = j.top
  acks : ∀ a ∈ j.acked, a < next

theorem Served.next {j j' : Job} {next wrapped : Nat} (served : Served j next) (low : 1 ≤ next)
    (high : next ≤ 65536) (moves : j.serve wrapped = some j') :
    Served j' next ∧ j'.file = j.file ∧ j'.acked = j.acked := by
  unfold Job.serve at moves
  split_ifs at moves with allowed
  obtain rfl := Option.some.inj moves
  unfold Job.sendNext
  refine ⟨⟨?_, ?_, ?_, served.acks⟩, rfl, rfl⟩
  · rcases allowed with first | ⟨_, p, latest, acked⟩
    · simp only [first]
      omega
    · have known := served.acks p.number acked
      have reach := served.reach
      by_cases small : j.top < 65536
      · rw [served.last small p latest] at known
        exact Nat.le_trans (Nat.min_le_left _ _) known
      · simp only
        omega
  · intro p mem
    rcases List.mem_cons.mp mem with rfl | old
    · exact ⟨j.top + 1, Nat.le_refl _, rfl, fun small => if_pos small⟩
    · obtain ⟨k, le, payload, number⟩ := served.packets p old
      exact ⟨k, Nat.le_succ_of_le le, payload, number⟩
  · intro small p latest
    simp only [List.head?_cons, Option.mem_some_iff] at latest
    exact latest ▸ if_pos small

structure Inv (w : World) : Prop where
  stored : Stored w.now.file w.call.maxlen w.get
  served : Served w.now w.get.nextblk
  acked : w.now.acked = acksOf w.get.out

theorem Inv.fresh (earlier : List Job) (file : Bytes) (call : Call) :
    Inv ⟨earlier, .fresh file, call, start call⟩ where
  stored := ⟨Nat.le_refl 1, by simp [start], fun _ => ⟨Nat.zero_le _, by simp [start]⟩, nofun⟩
  served := ⟨Nat.zero_le _, nofun, nofun, nofun⟩
  acked := (acksOf_rrq call.fname).symm

theorem Stored.next_block {file : Bytes} {c : Call} {s : Get} (stored : Stored file c.maxlen s)
    (unfinished : s.finished = false) (below : s.nextblk < 65536) (ssport blk : Nat) :
    Stored file c.maxlen
      { onBlock c s ssport blk (block file s.nextblk) with w := 1 } := by
  obtain ⟨inside, dst⟩ := stored.blocks unfinished
  have low := stored.low
  generalize front : 512 * (s.nextblk - 1) = d at inside dst
  have places : 512 * (s.nextblk + 1 - 1) = d + 512 := by omega
  have piece : block file s.nextblk = (file.drop d).take 512 := by rw [block, front]
  have size : (block file s.nextblk).length = min 512 (file.length - d) := by
    rw [piece, List.length_take, List.length_drop]
  have room : (c.maxlen - s.dst.length).toNat = c.maxlen.toNat - d := by
    rw [dst, List.length_take, List.length_take]
    omega
  have grown : s.dst ++ (block file s.nextblk).take (c.maxlen - s.dst.length).toNat =
      (file.take (d + 512)).take c.maxlen.toNat := by
    rw [room, dst, piece, List.take_add, List.take_append, List.length_take, Nat.min_eq_left inside]
  refine ⟨Nat.le_succ_of_le low, below, fun more => ?_, fun last => ?_⟩
  · simp only [onBlock, unfinished, Bool.false_or, decide_eq_false_iff_not, size] at more
    refine ⟨?_, ?_⟩
    · simp only [onBlock, places]
      omega
    · simp only [onBlock, places]
      exact grown
  · simp only [onBlock, unfinished, Bool.false_or, decide_eq_true_eq, size] at last
    simp only [onBlock]
    rw [grown, List.take_of_length_le (by omega : file.length ≤ d + 512)]

theorem Stored.quiet {file : Bytes} {maxlen : Int} {s s' : Get} (stored : Stored file maxlen s)
    (quiet : Quiet s s') : Stored file maxlen s' := by
  obtain ⟨dst, nextblk, finished, _⟩ := quiet
  refine ⟨nextblk ▸ stored.low, nextblk ▸ stored.high, fun more => ?_, fun last => ?_⟩
  · rw [dst, nextblk]
    exact stored.blocks (finished ▸ more)
  · rw [dst]
    exact stored.whole (finished ▸ last)

variable {srv : Bytes} {w : World}

theorem awaited_block {read : Option Frame} {ssport : Nat} {payload : Bytes}
    (inv : Inv w) (harmless : Harmless srv w (.turn read))
    (data : hears srv read = .data ssport w.get.nextblk payload)
    (sent : w.carries (hears srv read) = true) : payload = block w.now.file w.get.nextblk := by
  have small := heard_word data
  rw [data, World.carries, List.any_eq_true] at sent
  obtain ⟨j, job, packet⟩ := sent
  have packet := of_decide_eq_true packet
  rcases List.mem_cons.mp job with same | old
  · subst same
    obtain ⟨k, le, content, number⟩ := inv.served.packets _ packet
    have reach := inv.served.reach
    have same : w.get.nextblk = k := number (by omega)
    rw [same]
    exact content
  · simp only [Harmless, data, true_imp_iff] at harmless
    exact harmless ⟨j, old, packet⟩

theorem Inv.turn {read : Option Frame} (inv : Inv w)
    (harmless : Harmless srv w (.turn read)) (running : w.get.running = true)
    (sent : w.carries (hears srv read) = true) :
    Inv { w with
      get := turn srv w.call w.get read
      now := { w.now with acked := acksOf (turn srv w.call w.get read).out } } := by
  have known := inv.served.acks
  rw [inv.acked] at known
  rcases turn_cases srv w.call inv.stored.high read with quiet | ⟨ssport, payload, data, result⟩
  · refine ⟨inv.stored.quiet quiet, ⟨?_, inv.served.packets, inv.served.last, ?_⟩, rfl⟩
    · simp only [quiet.nextblk]
      exact inv.served.reach
    · simp only [quiet.nextblk]
      intro a mem
      rcases quiet.acks a mem with old | again
      · exact known a old
      · have low := inv.stored.low
        omega
  · have content := awaited_block inv harmless data sent
    have unfinished : w.get.finished = false := by
      simp only [Get.running, Bool.and_eq_true, Bool.not_eq_true'] at running
      exact running.1.2
    have small := heard_word data
    rw [result, content]
    refine ⟨inv.stored.next_block unfinished small ssport _, ⟨?_, inv.served.packets,
      inv.served.last, ?_⟩, rfl⟩
    · exact Nat.le_succ_of_le inv.served.reach
    · intro a mem
      simp only [onBlock, acksOf_append, acksOf_ack ssport small, List.mem_append,
        List.mem_singleton] at mem
      rcases mem with old | new
      · exact Nat.lt_succ_of_lt (known a old)
      · rw [new]
        exact Nat.lt_succ_self w.get.nextblk

theorem Inv.step {w' : World} {op : Op} (inv : Inv w)
    (harmless : Harmless srv w op) (moves : step srv w op = some w') : Inv w' := by
  cases op with
  | serve wrapped =>
    obtain ⟨j, served, rfl⟩ := Option.map_eq_some_iff.mp moves
    obtain ⟨next, file, acked⟩ := inv.served.next inv.stored.low inv.stored.high served
    refine ⟨?_, next, acked.trans inv.acked⟩
    rw [file]
    exact inv.stored
  | serveEarlier i wrapped =>
    obtain ⟨j, _, rfl⟩ := Option.map_eq_some_iff.mp moves
    exact ⟨inv.stored, inv.served, inv.acked⟩
  | turn read =>
    simp only [TftpRuns.step] at moves
    split_ifs at moves with can
    obtain ⟨running, sent⟩ := Bool.and_eq_true_iff.mp can
    obtain rfl := Option.some.inj moves
    exact inv.turn harmless running sent
  | next file call =>
    simp only [TftpRuns.step] at moves
    split_ifs at moves
    obtain rfl := Option.some.inj moves
    exact .fresh _ file call

end Invariant

/-- In every run in which no packet of an earlier transfer is taken for a block that it is not, a
reported success means the file, as far as it was asked for, and its length. -/
theorem runs_transfer_file {srv file : Bytes} {call : Call} {w : World}
    (run : Runs (step srv) (Harmless srv) (World.first file call) w)
    (success : result w.get ≠ -1) :
    w.get.dst = w.now.file.take w.call.maxlen.toNat ∧
      result w.get = (w.now.file.take w.call.maxlen.toNat).length := by
  have inv : Inv w := run.invariant (Inv.fresh [] file call) fun s op s' inv harmless moves =>
    inv.step harmless moves
  have outcome : result w.get = w.get.dst.length ∧ w.get.finished = true := by
    unfold result at success ⊢
    split_ifs at success ⊢ with failed finished
    · exact absurd rfl success
    · exact ⟨rfl, finished⟩
    · exact absurd rfl success
  have whole := inv.stored.whole outcome.2
  exact ⟨whole, by rw [outcome.1, whole]⟩

def boardServer : Bytes := [10, 0, 0, 1]

def serverFrame (p : Packet) : Frame :=
  frameOf (List.replicate 28 0 ++ [8, 0])
    ([0x45, 0, 0, 0, 0, 0, 0, 0, 64, 17, 0, 0] ++ boardServer ++ [10, 0, 0, 2])
    (datagram 2000 p.number p.payload) 12

theorem harmless_first {srv : Bytes} {w : World} (first : w.earlier = []) (op : Op) :
    Harmless srv w op := by
  cases op with
  | turn read =>
    unfold Harmless
    simp only [first]
    split
    · exact fun _ other => absurd other (by simp)
    · trivial
  | _ => trivial

def alone (w : World) (_ : Op) : Bool := w.earlier.isEmpty

def oneBlock : Option World :=
  [.serve 0, .turn (some (serverFrame ⟨1, [1, 2, 3]⟩))].foldlM
    (fun w op => if alone w op then step boardServer w op else none)
    (World.first [1, 2, 3] ⟨[97], 2⟩)

theorem runs_transfer_file_cut : ∃ w, oneBlock = some w ∧ w.get.dst = [1, 2] ∧ result w.get = 2 := by
  have values : oneBlock.map (fun w => (w.now.file, w.call.maxlen, result w.get)) =
      some ([1, 2, 3], 2, 2) := by
    decide +kernel
  obtain ⟨w, goes, seen⟩ := Option.map_eq_some_iff.mp values
  have run : Runs (step boardServer) (Harmless boardServer) _ w :=
    Runs.of_checked alone
      (fun w op first => harmless_first (List.isEmpty_iff.mp first) op) _ goes
  injection seen with file rest
  injection rest with maxlen reported
  have stored := (runs_transfer_file run (by rw [reported]; decide)).1
  rw [file, maxlen] at stored
  exact ⟨w, goes, stored, reported⟩

def played (ops : List Op) : Option World :=
  ops.foldlM (step boardServer) (World.first [1, 2, 3] ⟨[97], 100⟩)

/-- The first transfer's only packet comes twice, the second time in the next transfer. -/
theorem delayed_packet_taken : ((played [.serve 0, .turn (some (serverFrame ⟨1, [1, 2, 3]⟩)),
    .next [4, 5, 6] ⟨[98], 100⟩, .turn (some (serverFrame ⟨1, [1, 2, 3]⟩))]).map fun w =>
      (w.now.file, result w.get, w.get.dst)) = some ([4, 5, 6], 3, [1, 2, 3]) := by
  decide +kernel

end XinuRpi5.Wifi.TftpRuns
