/- source: system/aipl_remote.c
   digest: The lists of aipl_mesh_probe and aipl_mesh_gather, over all runs of one host. -/

import XinuRpi5.Lib.GuardedRuns
import XinuRpi5.System.AiplRemote

/-!
A collection or a call may start at any moment, also while another one waits: the wait loop takes
frames in, and a request among them runs a method that may ask the mesh itself. A frame is
handled to its end before the next one. Of a `Q`, `B` or `H` line only that method matters here;
the answer table and the frames sent are left out. An id is a number, which `Meets` keeps an
`int`; a received number is read modulo 2^32.
-/

namespace XinuRpi5.System.MeshCollect

open Lib.GuardedRuns
open AiplRemote (Ip Text Datagram Accepted Kind bumpId bufferOf parseId idDigits
  skipSpace put putNum aiplPort ascii)

/-- `g_mwait_kind`: the tag of the lines that are collected. -/
inductive ReplyKind where
  | r
  | a
  deriving DecidableEq

structure Line where
  kind : ReplyKind
  number : Nat
  text : Text

/-- What the `R` and the `A` branch read. -/
def lineOf (d : Datagram) : Option Line :=
  match bufferOf d.payload with
  | 82 :: 32 :: rest =>
    some ⟨.r, parseId rest, skipSpace (rest.drop (idDigits rest).length)⟩
  | 65 :: 32 :: rest => some ⟨.a, parseId rest, []⟩
  | _ => none

/-- The number as the `int` that it is read into. -/
def readInt (number : Nat) : Int := Int.bmod number 4294967296

theorem readInt_again {n k : Nat} (reads : readInt n = (k : Int)) : readInt k = (k : Int) := by
  unfold readInt at *
  rw [← reads, Int.bmod_bmod]

def meshMax : Nat := 8

/-- A frame that comes in; `answers` is the place of the request that it was sent to answer
among the requests of the host, where it was sent to answer one. -/
structure Message where
  frame : Datagram
  answers : Option Nat

/-- `g_mip` and `g_mval`. -/
structure Entry where
  ip : Ip
  val : Text

structure Request where
  id : Nat
  reply : Option ReplyKind

/-- A call of `mesh_run` that has not returned: the place of its request, its kind and its id,
and the messages that the host accepted since it began. -/
structure Collection where
  serial : Nat
  kind : ReplyKind
  id : Nat
  seen : List Message

structure Handed where
  collection : Collection
  stride : Nat
  max : Nat
  texts : List Text

/-- `g_next_id`, `g_wait_id`, `g_have`, `g_reply`, `g_mwait_id`, `g_mwait_kind` (`none` for 0)
and the first `g_mn` places of the table, with all requests that were made, the collections
under way and the lists handed out, oldest first. -/
structure Host where
  myIp : Ip
  nextId : Nat
  waitId : Int
  have_ : Bool
  reply : Text
  mwaitId : Int
  mwaitKind : Option ReplyKind
  table : List Entry
  issued : List Request
  running : List Collection
  handed : List Handed

def boot (myIp : Ip) : Host := ⟨myIp, 1, -1, false, [], -1, none, [], [], [], []⟩

def meshCollectPut (table : List Entry) (ip : Ip) (val : Text) : List Entry :=
  if meshMax ≤ table.length then table
  else if ip ∈ table.map Entry.ip then table
  else table ++ [⟨ip, val.take 39⟩]

def collectLine (h : Host) (ip : Ip) (line : Line) : Host :=
  if h.mwaitId = readInt line.number ∧ h.mwaitKind = some line.kind then
    { h with table := meshCollectPut h.table ip line.text }
  else h

/-- An `R` line that a call waits for. -/
def answerCall (h : Host) (line : Line) : Host :=
  if line.kind = .r ∧ h.waitId = readInt line.number then
    { h with reply := line.text.take 191, have_ := true }
  else h

/-- The `R` and the `A` branch. -/
def takeLine (h : Host) (ip : Ip) (line : Line) : Host := answerCall (collectLine h ip line) line

def Collection.saw (m : Message) (c : Collection) : Collection := { c with seen := c.seen ++ [m] }

def aiplRemoteHandle (h : Host) (m : Message) : Host :=
  if Accepted h.myIp m.frame then
    let h := { h with running := h.running.map (Collection.saw m) }
    match lineOf m.frame with
    | some line => takeLine h m.frame.src line
    | none => h
  else h

def Host.ask (h : Host) (kind : Kind) (reply : Option ReplyKind) : Host :=
  { h with nextId := bumpId kind h.nextId, issued := h.issued ++ [⟨h.nextId, reply⟩] }

/-- `aipl_mesh_probe` and `aipl_mesh_gather` up to the wait loop of `mesh_run`. -/
def meshRun (h : Host) (kind : ReplyKind) : Host :=
  { h.ask .gather (some kind) with
    table := []
    mwaitKind := some kind
    mwaitId := h.nextId
    running := h.running ++ [⟨h.issued.length, kind, h.nextId, []⟩] }

/-- An address as `aipl_mesh_probe` writes it. -/
def dotted (stride : Nat) (ip : Ip) : Text :=
  let d := put stride (putNum stride [] ip.a.toNat) (ascii ".")
  let d := put stride (putNum stride d ip.b.toNat) (ascii ".")
  let d := put stride (putNum stride d ip.c.toNat) (ascii ".")
  putNum stride d ip.d.toNat

def textOf (kind : ReplyKind) (stride : Nat) (e : Entry) : Text :=
  match kind with
  | .a => dotted stride e.ip
  | .r => e.val.take (stride - 1)

/-- The end of `aipl_mesh_probe` and `aipl_mesh_gather`. -/
def textsOf (kind : ReplyKind) (stride max : Nat) (table : List Entry) : List Text :=
  (table.take max).map (textOf kind stride)

/-- The wait loop of a collection is left, and its caller gets the list. -/
def leave (h : Host) (k stride max : Nat) (c : Collection) : Host :=
  { h with
    mwaitId := -1
    mwaitKind := none
    running := h.running.eraseIdx k
    handed := h.handed ++ [⟨c, stride, max, textsOf c.kind stride max h.table⟩] }

/-- `aipl_remote_call` up to its wait loop. -/
def aiplRemoteCall (h : Host) (sent : Bool) : Host :=
  { h.ask .call (some .r) with have_ := false, waitId := if sent then h.nextId else -1 }

inductive Op where
  /-- `neighbors` or `gather` starts. -/
  | mesh (kind : ReplyKind)
  /-- A collection has eight replies, or its time is up. -/
  | leave (k stride max : Nat)
  | call (sent : Bool)
  /-- A call has its reply, or its time is up. -/
  | hangUp
  | send
  | broadcast
  | receive (m : Message)
  /-- The host starts again from nothing. -/
  | restart

def step (h : Host) : Op → Option Host
  | .mesh kind => some (meshRun h kind)
  | .leave k stride max => h.running[k]?.map (leave h k stride max)
  | .call sent => some (aiplRemoteCall h sent)
  | .hangUp => some { h with waitId := -1 }
  | .send => some (h.ask .send (some .r))
  | .broadcast => some (h.ask .bcast none)
  | .receive m => some (aiplRemoteHandle h m)
  | .restart => some { boot h.myIp with issued := h.issued, handed := h.handed }

/-- The message carries the kind and the number of the collection's request. -/
def Collection.named (c : Collection) (m : Message) : Bool :=
  (lineOf m.frame).any fun line => line.kind = c.kind ∧ line.number = c.id

def Collection.firstOf (c : Collection) (ip : Ip) : Option Message :=
  c.seen.find? fun m => decide (m.frame.src = ip) && c.named m

/-- The entry is the first reply of its sender, and that was sent to answer no other request. -/
def Collection.Reply (c : Collection) (e : Entry) : Prop :=
  ∃ m, c.firstOf e.ip = some m ∧ (∀ s ∈ m.answers, s = c.serial) ∧
    ∃ line ∈ lineOf m.frame, e.val = line.text.take 39

structure Right (c : Collection) (table : List Entry) : Prop where
  few : table.length ≤ meshMax
  senders : (table.map Entry.ip).Nodup
  replies : ∀ e ∈ table, c.Reply e

def Handed.IsRight (r : Handed) : Prop :=
  ∃ table, Right r.collection table ∧ r.texts = textsOf r.collection.kind r.stride r.max table

/-- The number that is read is that of the collection, which has room and nothing of the sender. -/
def Taken (h : Host) (c : Collection) (m : Message) : Prop :=
  Accepted h.myIp m.frame ∧
    (∃ line ∈ lineOf m.frame, line.kind = c.kind ∧ readInt line.number = c.id) ∧
    h.table.length < meshMax ∧ m.frame.src ∉ h.table.map Entry.ip

/-- The number is another one, which only became that of the collection by overflow. -/
def Overflowed (c : Collection) (m : Message) : Prop :=
  ∃ line ∈ lineOf m.frame, line.number ≠ c.id

/-- The message was sent to answer another request, which had the same number. -/
def ForAnother (c : Collection) (m : Message) : Prop := ∃ s ∈ m.answers, s ≠ c.serial

/-- A request takes an id that is an `int`, a collection starts only when none is under way,
and none of the two kinds of strange messages comes in for it. -/
def Meets (h : Host) : Op → Prop
  | .mesh _ => h.nextId < 2 ^ 31 ∧ h.running = []
  | .call _ | .send | .broadcast => h.nextId < 2 ^ 31
  | .receive m => ∀ c ∈ h.running, Taken h c m → ¬ Overflowed c m ∧ ¬ ForAnother c m
  | .leave .. | .hangUp | .restart => True

instance (h : Host) (c : Collection) (m : Message) : Decidable (Taken h c m) :=
  inferInstanceAs (Decidable (_ ∧ _))

instance (c : Collection) (m : Message) : Decidable (Overflowed c m) :=
  inferInstanceAs (Decidable (∃ _ ∈ _, _))

instance (c : Collection) (m : Message) : Decidable (ForAnother c m) :=
  inferInstanceAs (Decidable (∃ _ ∈ _, _))

instance (h : Host) : (op : Op) → Decidable (Meets h op)
  | .mesh _ => inferInstanceAs (Decidable (_ ∧ h.running = []))
  | .call _ | .send | .broadcast => inferInstanceAs (Decidable (h.nextId < 2 ^ 31))
  | .receive m => inferInstanceAs (Decidable (∀ c ∈ h.running, Taken h c m → _ ∧ _))
  | .leave .. | .hangUp | .restart => isTrue trivial

section Receive

variable {h : Host} {c : Collection} {m : Message}

theorem meshCollectPut_of_room {table : List Entry} {ip : Ip} {val : Text}
    (room : table.length < meshMax) (fresh : ip ∉ table.map Entry.ip) :
    meshCollectPut table ip val = table ++ [⟨ip, val.take 39⟩] := by
  rw [meshCollectPut, if_neg (Nat.not_le.mpr room), if_neg fresh]

theorem meshCollectPut_of_not {table : List Entry} {ip : Ip} {val : Text}
    (refused : ¬ (table.length < meshMax ∧ ip ∉ table.map Entry.ip)) :
    meshCollectPut table ip val = table := by
  unfold meshCollectPut
  split_ifs with full listed
  · rfl
  · rfl
  · exact absurd ⟨Nat.not_le.mp full, listed⟩ refused

theorem takeLine_table (ip : Ip) (line : Line) :
    (takeLine h ip line).table =
      if h.mwaitId = readInt line.number ∧ h.mwaitKind = some line.kind then
        meshCollectPut h.table ip line.text
      else h.table := by
  have answered : (takeLine h ip line).table = (collectLine h ip line).table := by
    unfold takeLine answerCall
    split_ifs <;> rfl
  rw [answered, collectLine]
  split_ifs <;> rfl

theorem takeLine_frame (h : Host) (ip : Ip) (line : Line) :
    ∃ table reply have_,
      takeLine h ip line = { h with table := table, reply := reply, have_ := have_ } := by
  unfold takeLine answerCall collectLine
  split_ifs <;> exact ⟨_, _, _, rfl⟩

theorem aiplRemoteHandle_frame (h : Host) (m : Message) :
    ∃ table reply have_, aiplRemoteHandle h m = { h with
      table := table, reply := reply, have_ := have_,
      running := if Accepted h.myIp m.frame then h.running.map (Collection.saw m)
        else h.running } := by
  unfold aiplRemoteHandle
  split_ifs with accepted
  · split
    · next line read => exact takeLine_frame _ m.frame.src line
    · exact ⟨_, _, _, rfl⟩
  · exact ⟨_, _, _, rfl⟩

def Awaits (h : Host) (c : Collection) : Prop :=
  h.mwaitId = (c.id : Int) ∧ h.mwaitKind = some c.kind

theorem table_taken (awaits : Awaits h c) (taken : Taken h c m) :
    ∃ line ∈ lineOf m.frame, line.kind = c.kind ∧
      (aiplRemoteHandle h m).table = h.table ++ [⟨m.frame.src, line.text.take 39⟩] := by
  obtain ⟨accepted, ⟨line, read, kind, number⟩, room, fresh⟩ := taken
  refine ⟨line, read, kind, ?_⟩
  have waited : h.mwaitId = readInt line.number ∧ h.mwaitKind = some line.kind :=
    ⟨awaits.1.trans number.symm, awaits.2.trans (congrArg some kind.symm)⟩
  unfold aiplRemoteHandle
  rw [if_pos accepted]
  simp only [Option.mem_def.mp read]
  rw [takeLine_table, if_pos waited]
  exact meshCollectPut_of_room room fresh

theorem table_left (awaits : Awaits h c) (left : ¬ Taken h c m) :
    (aiplRemoteHandle h m).table = h.table := by
  unfold aiplRemoteHandle
  split_ifs with accepted
  · split
    · next line read =>
      rw [takeLine_table]
      split_ifs with waited
      · have names : ∃ line ∈ lineOf m.frame, line.kind = c.kind ∧ readInt line.number = c.id :=
          ⟨line, read, Option.some.inj (waited.2.symm.trans awaits.2),
            waited.1.symm.trans awaits.1⟩
        exact meshCollectPut_of_not fun place => left ⟨accepted, names, place⟩
      · rfl
    · rfl
  · rfl

end Receive

section Lists

variable {h : Host} {c : Collection} {m : Message} {table : List Entry}

/-- A sender whose reply was seen is listed, unless there was no room or the id is no `int`. -/
def Complete (c : Collection) (table : List Entry) : Prop :=
  meshMax ≤ table.length ∨ (readInt c.id = c.id →
    ∀ m ∈ c.seen, c.named m = true → m.frame.src ∈ table.map Entry.ip)

theorem firstOf_saw (m : Message) (ip : Ip) :
    (c.saw m).firstOf ip =
      (c.firstOf ip).or (if m.frame.src = ip ∧ c.named m = true then some m else none) := by
  unfold Collection.firstOf
  rw [show (c.saw m).seen = c.seen ++ [m] from rfl, List.find?_append]
  congr 1
  rw [List.find?_singleton]
  simp only [Bool.and_eq_true, decide_eq_true_eq]
  rfl

theorem firstOf_fresh (complete : Complete c table) (int : readInt c.id = c.id)
    (room : table.length < meshMax) {ip : Ip} (fresh : ip ∉ table.map Entry.ip) :
    c.firstOf ip = none := by
  refine List.find?_eq_none.mpr fun m seen found => fresh ?_
  simp only [Bool.and_eq_true, decide_eq_true_eq] at found
  rcases complete with full | listed
  · exact absurd room (Nat.not_lt.mpr full)
  · exact found.1 ▸ listed int m seen found.2

theorem mem_of_firstOf {ip : Ip} (found : c.firstOf ip = some m) :
    m ∈ c.seen ∧ c.named m = true := by
  have holds := List.find?_some found
  rw [Bool.and_eq_true] at holds
  exact ⟨List.mem_of_find?_eq_some found, holds.2⟩

theorem Collection.Reply.saw {e : Entry} (reply : c.Reply e) (m : Message) : (c.saw m).Reply e := by
  obtain ⟨first, found, rest⟩ := reply
  refine ⟨first, ?_, rest⟩
  rw [firstOf_saw, found]
  rfl

theorem Right.saw (right : Right c table) (m : Message) : Right (c.saw m) table :=
  ⟨right.few, right.senders, fun e listed => (right.replies e listed).saw m⟩

theorem right_nil (c : Collection) : Right c [] :=
  ⟨Nat.zero_le _, List.nodup_nil, fun _ listed => absurd listed List.not_mem_nil⟩

theorem named_iff :
    c.named m = true ↔ ∃ line ∈ lineOf m.frame, line.kind = c.kind ∧ line.number = c.id := by
  unfold Collection.named
  cases lineOf m.frame with
  | none => simp
  | some line => simp

/-- Where the message is taken, the table stays right exactly if it is not a strange one. -/
theorem right_taken_iff (awaits : Awaits h c) (right : Right c h.table)
    (complete : Complete c h.table) (taken : Taken h c m) :
    Right (c.saw m) (aiplRemoteHandle h m).table ↔ ¬ Overflowed c m ∧ ¬ ForAnother c m := by
  obtain ⟨line, read, kind, grown⟩ := table_taken awaits taken
  obtain ⟨_, ⟨_, _, _, number⟩, room, fresh⟩ := taken
  rw [grown]
  have none : c.firstOf m.frame.src = none :=
    firstOf_fresh complete (readInt_again number) room fresh
  constructor
  · intro after
    obtain ⟨first, found, own, _⟩ := after.replies ⟨m.frame.src, line.text.take 39⟩ (by simp)
    rw [firstOf_saw, none, Option.none_or] at found
    split_ifs at found with named
    obtain rfl := Option.some.inj found
    refine ⟨?_, fun ⟨s, answers, other⟩ => other (own s answers)⟩
    rintro ⟨line', read', other⟩
    obtain ⟨line'', read'', _, number⟩ := named_iff.mp named.2
    obtain rfl := Option.mem_unique read' read''
    exact other number
  · rintro ⟨exactly, own⟩
    have named : c.named m = true :=
      named_iff.mpr ⟨line, read, kind, by_contra fun other => exactly ⟨line, read, other⟩⟩
    refine ⟨?_, ?_, ?_⟩
    · rw [List.length_append]
      exact room
    · rw [List.map_append, List.nodup_append]
      refine ⟨right.senders, List.pairwise_singleton _ _, ?_⟩
      rintro ip listed other new rfl
      obtain rfl := List.mem_singleton.mp new
      exact fresh listed
    · intro e listed
      rcases List.mem_append.mp listed with old | new
      · exact (right.replies e old).saw m
      · obtain rfl := List.mem_singleton.mp new
        refine ⟨m, ?_, fun s answers => by_contra fun other => own ⟨s, answers, other⟩,
          line, read, rfl⟩
        rw [firstOf_saw, none, Option.none_or, if_pos ⟨rfl, named⟩]

end Lists

section Runs

variable {h h' : Host}

structure Going (h : Host) (c : Collection) : Prop where
  awaits : Awaits h c
  right : Right c h.table
  complete : Complete c h.table

structure Inv (h : Host) : Prop where
  going : h.running = [] ∨ ∃ c, h.running = [c] ∧ Going h c
  handed : ∀ r ∈ h.handed, r.IsRight

theorem boot_inv (myIp : Ip) : Inv (boot myIp) :=
  ⟨Or.inl rfl, fun _ listed => absurd listed List.not_mem_nil⟩

theorem meshRun_inv (inv : Inv h) (idle : h.running = []) (kind : ReplyKind) :
    Inv (meshRun h kind) := by
  refine ⟨Or.inr ⟨⟨h.issued.length, kind, h.nextId, []⟩, ?_, ⟨rfl, rfl⟩, right_nil _, ?_⟩,
    inv.handed⟩
  · exact congrArg (· ++ [_]) idle
  · exact Or.inr fun _ _ seen => absurd seen List.not_mem_nil

theorem leave_inv (inv : Inv h) {k stride max : Nat} {c : Collection}
    (runs : h.running[k]? = some c) : Inv (leave h k stride max c) := by
  rcases inv.going with idle | ⟨c', one, going⟩
  · rw [idle] at runs
    exact absurd runs (by simp)
  · rw [one] at runs
    obtain ⟨rfl, rfl⟩ : k = 0 ∧ c = c' := by
      cases k with
      | zero => exact ⟨rfl, (Option.some.inj runs).symm⟩
      | succ k => exact absurd runs (by simp)
    refine ⟨Or.inl ?_, ?_⟩
    · exact congrArg (List.eraseIdx · 0) one
    · intro r listed
      rcases List.mem_append.mp listed with old | new
      · exact inv.handed r old
      · obtain rfl := List.mem_singleton.mp new
        exact ⟨h.table, going.right, rfl⟩

variable {c : Collection} {m : Message}

theorem complete_taken {table : List Entry} {val : Text}
    (complete : Complete c table) : Complete (c.saw m) (table ++ [⟨m.frame.src, val⟩]) := by
  rcases complete with full | listed
  · refine Or.inl (Nat.le_trans full ?_)
    rw [List.length_append]
    exact Nat.le_add_right _ _
  · refine Or.inr fun int m' seen named => ?_
    rw [List.map_append, List.mem_append]
    rcases List.mem_append.mp seen with old | new
    · exact Or.inl (listed int m' old named)
    · obtain rfl := List.mem_singleton.mp new
      exact Or.inr (List.mem_singleton_self _)

theorem complete_left (complete : Complete c h.table)
    (accepted : Accepted h.myIp m.frame) (left : ¬ Taken h c m) :
    Complete (c.saw m) h.table := by
  rcases complete with full | listed
  · exact Or.inl full
  · by_cases room : h.table.length < meshMax
    · refine Or.inr fun int m' seen named => ?_
      rcases List.mem_append.mp seen with old | new
      · exact listed int m' old named
      · obtain rfl := List.mem_singleton.mp new
        -- a named message of an unlisted sender would have been taken
        by_contra fresh
        obtain ⟨line, read, kind, number⟩ := named_iff.mp named
        have reads : readInt line.number = (c.id : Int) := by
          rw [show line.number = c.id from number]
          exact int
        exact left ⟨accepted, ⟨line, read, kind, reads⟩, room, fresh⟩
    · exact Or.inl (Nat.not_lt.mp room)

theorem receive_going (one : h.running = [c]) (going : Going h c)
    (meets : Taken h c m → ¬ Overflowed c m ∧ ¬ ForAnother c m) :
    ∃ c', (aiplRemoteHandle h m).running = [c'] ∧ Going (aiplRemoteHandle h m) c' := by
  obtain ⟨awaits, right, complete⟩ := going
  obtain ⟨table, reply, have_, equal⟩ := aiplRemoteHandle_frame h m
  have awaits' : Awaits (aiplRemoteHandle h m) c := by
    rw [equal]
    exact awaits
  by_cases accepted : Accepted h.myIp m.frame
  · have runs : (aiplRemoteHandle h m).running = [c.saw m] := by
      rw [equal, if_pos accepted, one]
      rfl
    refine ⟨c.saw m, runs, awaits', ?_, ?_⟩
    · by_cases taken : Taken h c m
      · exact (right_taken_iff awaits right complete taken).mpr (meets taken)
      · rw [table_left awaits taken]
        exact right.saw m
    · by_cases taken : Taken h c m
      · obtain ⟨line, _, _, grown⟩ := table_taken awaits taken
        rw [grown]
        exact complete_taken complete
      · rw [table_left awaits taken]
        exact complete_left complete accepted taken
  · have same : aiplRemoteHandle h m = h := if_neg accepted
    rw [same]
    exact ⟨c, one, awaits, right, complete⟩

theorem receive_inv (inv : Inv h) {m : Message} (meets : Meets h (.receive m)) :
    Inv (aiplRemoteHandle h m) := by
  obtain ⟨table, reply, have_, equal⟩ := aiplRemoteHandle_frame h m
  refine ⟨?_, ?_⟩
  · rcases inv.going with idle | ⟨c, one, going⟩
    · left
      rw [equal, idle]
      exact ite_self _
    · exact Or.inr (receive_going one going (meets c (one ▸ List.mem_singleton_self c)))
  · rw [equal]
    exact inv.handed

theorem Inv.of_same (inv : Inv h) (running : h'.running = h.running) (table : h'.table = h.table)
    (wait : h'.mwaitId = h.mwaitId) (kind : h'.mwaitKind = h.mwaitKind)
    (handed : h'.handed = h.handed) : Inv h' := by
  refine ⟨?_, handed ▸ inv.handed⟩
  rw [running]
  refine inv.going.imp_right ?_
  rintro ⟨c, one, awaits, right, complete⟩
  exact ⟨c, one, ⟨wait.trans awaits.1, kind.trans awaits.2⟩, table ▸ right, table ▸ complete⟩

theorem step_inv {op : Op} (inv : Inv h) (meets : Meets h op) (next : step h op = some h') :
    Inv h' := by
  cases op with
  | mesh kind =>
    obtain rfl := Option.some.inj next
    exact meshRun_inv inv meets.2 kind
  | leave k stride max =>
    obtain ⟨c, runs, rfl⟩ := Option.map_eq_some_iff.mp next
    exact leave_inv inv runs
  | call sent =>
    obtain rfl := Option.some.inj next
    exact inv.of_same rfl rfl rfl rfl rfl
  | hangUp =>
    obtain rfl := Option.some.inj next
    exact inv.of_same rfl rfl rfl rfl rfl
  | send =>
    obtain rfl := Option.some.inj next
    exact inv.of_same rfl rfl rfl rfl rfl
  | broadcast =>
    obtain rfl := Option.some.inj next
    exact inv.of_same rfl rfl rfl rfl rfl
  | receive m =>
    obtain rfl := Option.some.inj next
    exact receive_inv inv meets
  | restart =>
    obtain rfl := Option.some.inj next
    exact ⟨Or.inl rfl, inv.handed⟩

theorem runs_inv {myIp : Ip} (run : Runs step Meets (boot myIp) h) : Inv h :=
  run.invariant (boot_inv myIp) fun _ _ _ inv meets next => step_inv inv meets next

/-- In every run whose steps meet the condition, each list that was handed out holds the first
replies of different senders to its own request, at most eight. -/
theorem runs_lists_right {myIp : Ip} (run : Runs step Meets (boot myIp) h) :
    ∀ r ∈ h.handed, r.IsRight := (runs_inv run).handed

end Runs

private def node (n : UInt8) : Ip := ⟨192, 168, 3, n⟩

private def lineFrom (n : UInt8) (text : String) (s : Nat) : Message :=
  ⟨⟨node n, node 100, aiplPort, ascii text⟩, some s⟩

private def oneGather : List Op :=
  [.mesh .r, .receive (lineFrom 101 "R 1 4\n" 0), .receive (lineFrom 101 "R 1 5\n" 0),
    .receive (lineFrom 102 "R 1 6\n" 0), .leave 0 40 8, .receive (lineFrom 103 "R 1 7\n" 0)]

theorem runs_lists_right_gather :
    ∃ h, Runs step Meets (boot (node 100)) h ∧
      h.handed.map Handed.texts = [[ascii "4", ascii "6"]] ∧ ∀ r ∈ h.handed, r.IsRight := by
  have run : Runs step Meets (boot (node 100)) _ :=
    Runs.of_checked (fun h op => decide (Meets h op)) (fun _ _ => of_decide_eq_true) oneGather rfl
  exact ⟨_, run, rfl, runs_lists_right run⟩

private def nested : List Op :=
  [.mesh .r, .mesh .r, .receive (lineFrom 101 "R 2 9\n" 1), .leave 1 40 8, .leave 0 40 8]

/-- The outer gather hands out the reply to the inner one. -/
theorem nested_gather_mixes :
    ¬ ∀ myIp h, Runs step (fun _ _ => True) (boot myIp) h → ∀ r ∈ h.handed, r.IsRight := by
  intro all
  have run : Runs step (fun _ _ => True) (boot (node 100)) _ :=
    Runs.of_steps nested (fun _ _ _ => trivial) rfl
  obtain ⟨table, right, texts⟩ := all _ _ run
    ⟨⟨0, .r, 1, [lineFrom 101 "R 2 9\n" 1]⟩, 40, 8, [ascii "9"]⟩
    (List.mem_cons_of_mem _ List.mem_cons_self)
  cases table with
  | nil => exact absurd texts (List.cons_ne_nil _ _)
  | cons e rest =>
    obtain ⟨m, found, _⟩ := right.replies e List.mem_cons_self
    obtain ⟨seen, named⟩ := mem_of_firstOf found
    obtain rfl := List.mem_singleton.mp seen
    exact absurd named (by decide)

end XinuRpi5.System.MeshCollect
