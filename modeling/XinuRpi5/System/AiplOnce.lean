/- source: system/aipl_remote.c
   digest: When a request is dispatched at most once, over all runs of clients and server. -/

import Mathlib.Data.Nat.Digits.Lemmas
import XinuRpi5.System.AiplRemote

namespace XinuRpi5.System.AiplOnce

open Lib.RecentRing AiplRemote

theorem put_eq {cap : Nat} {d s : Text} (fits : d.length + s.length < cap) :
    put cap d s = d ++ s := by
  rw [put, List.take_of_length_le (by omega)]

theorem put_grows (cap : Nat) (d s : Text) : ∃ t, put cap d s = d ++ t := ⟨_, rfl⟩

private theorem digit_value {k : Nat} (small : k < 10) :
    (UInt8.ofNat (48 + k)).toNat = 48 + k := by
  rw [UInt8.toNat_ofNat']
  exact Nat.mod_eq_of_lt (by omega)

private theorem foldr_digits (ds : List Nat) (small : ∀ k ∈ ds, k < 10) :
    ds.foldr (fun k v => v * 10 + ((UInt8.ofNat (48 + k)).toNat - 48)) 0 = Nat.ofDigits 10 ds := by
  induction ds with
  | nil => rfl
  | cons k ds ih =>
    have first := digit_value (small k List.mem_cons_self)
    rw [List.foldr_cons, ih fun j listed => small j (List.mem_cons_of_mem k listed), first,
      Nat.ofDigits_cons]
    omega

theorem decimalText_read (v : Nat) :
    (decimalText v).foldl (fun v c => v * 10 + (c.toNat - 48)) 0 = v := by
  unfold decimalText
  split_ifs with zero
  · rw [zero]
    rfl
  · rw [List.foldl_map, List.foldl_reverse,
      foldr_digits _ fun k listed => Nat.digits_lt_base (by decide) listed]
    exact Nat.ofDigits_digits 10 v

theorem decimalText_digit {v : Nat} {c : UInt8} (listed : c ∈ decimalText v) :
    48 ≤ c ∧ c ≤ 57 := by
  unfold decimalText at listed
  split_ifs at listed with zero
  · rw [List.mem_singleton.mp listed]
    decide
  · obtain ⟨k, digit, rfl⟩ := List.mem_map.mp listed
    have small := Nat.digits_lt_base (by decide) (List.mem_reverse.mp digit)
    have value := digit_value small
    constructor
    · rw [UInt8.le_iff_toNat_le, value]
      change 48 ≤ 48 + k
      omega
    · rw [UInt8.le_iff_toNat_le, value]
      change 48 + k ≤ 57
      omega

theorem decimalText_short {v : Nat} (small : v < 10 ^ 10) : (decimalText v).length ≤ 10 := by
  unfold decimalText
  split_ifs with zero
  · decide
  · rw [List.length_map, List.length_reverse]
    exact Nat.digits_length_le_iff (by decide) v |>.mpr small

theorem idDigits_decimal (v : Nat) (rest : Text) :
    idDigits (decimalText v ++ 32 :: rest) = decimalText v := by
  have all : ∀ c ∈ decimalText v, decide (48 ≤ c ∧ c ≤ 57) = true :=
    fun c listed => decide_eq_true (decimalText_digit listed)
  have stop : (32 :: rest).takeWhile (fun c : UInt8 => decide (48 ≤ c ∧ c ≤ 57)) = [] := rfl
  rw [idDigits, List.takeWhile_append_of_pos all, stop, List.append_nil]

theorem buildLine_starts {tag : Text} {id : Nat} (actor meth arg : Text) (two : tag.length = 2)
    (small : id < 10 ^ 10) :
    ∃ rest, buildLine tag id actor meth arg = tag ++ (decimalText id ++ 32 :: rest) := by
  have short := decimalText_short small
  have first : put 288 [] tag = tag := put_eq (d := []) (by simp [two])
  have second : putNum 288 tag id = tag ++ decimalText id := put_eq (by omega)
  have third : put 288 (tag ++ decimalText id) (ascii " ") = tag ++ decimalText id ++ [32] :=
    put_eq (s := [32]) (by simp [two]; omega)
  unfold buildLine
  simp only [first, second, third]
  obtain ⟨a, ha⟩ := put_grows 288 (tag ++ decimalText id ++ [32]) actor
  obtain ⟨b, hb⟩ := put_grows 288 (tag ++ decimalText id ++ [32] ++ a) (ascii " ")
  obtain ⟨c, hc⟩ := put_grows 288 (tag ++ decimalText id ++ [32] ++ a ++ b) meth
  obtain ⟨d, hd⟩ := put_grows 288 (tag ++ decimalText id ++ [32] ++ a ++ b ++ c) (ascii " ")
  obtain ⟨e, he⟩ := put_grows 288 (tag ++ decimalText id ++ [32] ++ a ++ b ++ c ++ d) arg
  obtain ⟨f, hf⟩ := put_grows 288 (tag ++ decimalText id ++ [32] ++ a ++ b ++ c ++ d ++ e)
    (ascii "\n")
  rw [ha, hb, hc, hd, he, hf]
  exact ⟨a ++ b ++ c ++ d ++ e ++ f, by simp⟩

theorem bufferOf_append (start rest : Text) (short : start.length ≤ 512)
    (plain : ∀ c ∈ start, c ≠ 0 ∧ c ≠ 10 ∧ c ≠ 13) :
    ∃ rest', bufferOf (start ++ rest) = start ++ rest' := by
  have all : ∀ c ∈ start, decide (c ≠ 0 ∧ c ≠ 10 ∧ c ≠ 13) = true :=
    fun c listed => decide_eq_true (plain c listed)
  refine ⟨(rest.take (512 - start.length)).takeWhile fun c => c ≠ 0 ∧ c ≠ 10 ∧ c ≠ 13, ?_⟩
  rw [bufferOf, List.take_append, List.take_of_length_le short, List.takeWhile_append_of_pos all]

theorem bufferOf_line (tag : Text) {id : Nat} (actor meth arg : Text) (two : tag.length = 2)
    (plain : ∀ c ∈ tag, c ≠ 0 ∧ c ≠ 10 ∧ c ≠ 13) (small : id < 10 ^ 10) :
    ∃ rest, bufferOf (buildLine tag id actor meth arg) =
      tag ++ (decimalText id ++ 32 :: rest) := by
  obtain ⟨rest, starts⟩ := buildLine_starts actor meth arg two small
  have short := decimalText_short small
  obtain ⟨rest', kept⟩ := bufferOf_append (tag ++ decimalText id ++ [32]) rest
    (by simp [two]; omega) (by
      intro c listed
      rcases List.mem_append.mp listed with front | space
      · rcases List.mem_append.mp front with tagged | digit
        · exact plain c tagged
        · obtain ⟨low, high⟩ := decimalText_digit digit
          rw [UInt8.le_iff_toNat_le] at low high
          refine ⟨?_, ?_, ?_⟩ <;> rintro rfl <;> revert low <;> decide
      · rw [List.mem_singleton.mp space]
        decide)
  refine ⟨rest', ?_⟩
  rw [starts]
  simpa using kept

theorem requestOf_line (kind : Kind) {id : Nat} (actor meth arg : Text) (small : id < 10 ^ 10)
    {d : Datagram} (payload : d.payload = lineOf kind id actor meth arg) :
    ∃ asks req, requestOf d = some (asks, req) ∧ req.id = id := by
  have read : ∀ rest, (parseRequest (decimalText id ++ 32 :: rest)).id = id := by
    intro rest
    change parseId (decimalText id ++ 32 :: rest) = id
    rw [parseId, idDigits_decimal]
    exact decimalText_read id
  have asked : ∀ {d : Datagram}, d.payload = buildQ id actor meth arg →
      ∃ asks req, requestOf d = some (asks, req) ∧ req.id = id := by
    intro d line
    obtain ⟨rest, buffer⟩ := bufferOf_line (ascii "Q ") actor meth arg rfl (by decide +kernel) small
    refine ⟨true, _, ?_, read rest⟩
    unfold requestOf
    rw [line, buildQ, buffer]
    rfl
  cases kind with
  | call => exact asked payload
  | send => exact asked payload
  | gather => exact asked payload
  | bcast =>
    obtain ⟨rest, buffer⟩ := bufferOf_line (ascii "B ") actor meth arg rfl (by decide +kernel) small
    refine ⟨false, _, ?_, read rest⟩
    unfold requestOf
    rw [payload, lineOf, buildB, buffer]
    rfl

def Built (w : World) (d : Datagram) : Prop :=
  ∃ kind id actor meth arg, id ∈ (w.clients d.src).issued ∧
    d.payload = lineOf kind id actor meth arg

def Young (client : Client) : Prop := client.issued.length ≤ 1000000

structure ClientInv (w : World) : Prop where
  numbered : ∀ c, Young (w.clients c) →
    (w.clients c).issued = List.range' 1 (w.clients c).issued.length ∧
      ((w.clients c).issued.length < 1000000 →
        (w.clients c).nextId = (w.clients c).issued.length + 1)
  net : ∀ d ∈ w.net, Built w d
  waiting : ∀ c, ∀ d ∈ (w.clients c).waiting, Built w d
  log : ∀ key ∈ w.log, Young (w.clients key.1) → key.2 ∈ (w.clients key.1).issued

theorem boot_clientInv (myIp : Ip) : ClientInv (boot myIp) := by
  refine ⟨fun c _ => ⟨rfl, fun _ => rfl⟩, ?_, ?_, ?_⟩
  · intro d listed
    exact absurd listed List.not_mem_nil
  · intro c d listed
    exact absurd listed List.not_mem_nil
  · intro key listed
    exact absurd listed List.not_mem_nil

theorem ClientInv.issued_le {w : World} (h : ClientInv w) {c : Ip} (young : Young (w.clients c))
    {id : Nat} (listed : id ∈ (w.clients c).issued) : id ≤ 1000000 := by
  unfold Young at young
  rw [(h.numbered c young).1, List.mem_range'_1] at listed
  omega

theorem ClientInv.issued_nodup {w : World} (h : ClientInv w) {c : Ip}
    (young : Young (w.clients c)) : (w.clients c).issued.Nodup := by
  rw [(h.numbered c young).1]
  exact List.nodup_range'

variable {w w' : World}

theorem built_mono {d : Datagram} (built : Built w d)
    (grows : ∀ c, ∀ id ∈ (w.clients c).issued, id ∈ (w'.clients c).issued) : Built w' d := by
  obtain ⟨kind, id, actor, meth, arg, used, payload⟩ := built
  exact ⟨kind, id, actor, meth, arg, grows _ id used, payload⟩

theorem datagramOf_src (kind : Kind) (c host : Ip) (port id : Nat) (actor meth arg : Text) :
    (datagramOf kind c host port id actor meth arg).src = c ∧
      (datagramOf kind c host port id actor meth arg).payload = lineOf kind id actor meth arg := by
  cases kind <;> exact ⟨rfl, rfl⟩

theorem bumpId_young (kind : Kind) {next : Nat} (small : next < 1000000) :
    bumpId kind next = next + 1 := by
  have low : ¬ 1000000 < next + 1 := by omega
  cases kind with
  | send => rfl
  | call => exact if_neg low
  | gather => exact if_neg low
  | bcast => exact if_neg low

theorem issue_clientInv {w : World} (h : ClientInv w) (c : Ip) (kind : Kind) (host : Ip)
    (port : Nat) (actor meth arg : Text) :
    ClientInv (issue w c kind host port actor meth arg) := by
  have self : (issue w c kind host port actor meth arg).clients c =
      ⟨bumpId kind (w.clients c).nextId, (w.clients c).issued ++ [(w.clients c).nextId],
        if waits kind then (w.clients c).waiting ++ [datagramOf kind c host port
          (w.clients c).nextId actor meth arg] else (w.clients c).waiting⟩ := if_pos rfl
  have other : ∀ e, e ≠ c → (issue w c kind host port actor meth arg).clients e = w.clients e :=
    fun e differs => if_neg differs
  have grows : ∀ e, ∀ id ∈ (w.clients e).issued,
      id ∈ ((issue w c kind host port actor meth arg).clients e).issued := by
    intro e id used
    by_cases same : e = c
    · subst same
      rw [self]
      exact List.mem_append_left _ used
    · rw [other e same]
      exact used
  obtain ⟨src, payload⟩ := datagramOf_src kind c host port (w.clients c).nextId actor meth arg
  have fresh : Built (issue w c kind host port actor meth arg)
      (datagramOf kind c host port (w.clients c).nextId actor meth arg) := by
    refine ⟨kind, (w.clients c).nextId, actor, meth, arg, ?_, payload⟩
    rw [src, self]
    exact List.mem_append_right _ (List.mem_singleton.mpr rfl)
  refine ⟨?_, ?_, ?_, ?_⟩
  · intro e young
    by_cases same : e = c
    · subst same
      unfold Young at young
      rw [self] at young ⊢
      simp only [List.length_append, List.length_singleton] at young ⊢
      obtain ⟨ids, next⟩ := h.numbered e (by unfold Young; omega)
      have here := next (by omega)
      refine ⟨?_, fun room => ?_⟩
      · rw [List.range'_1_concat, here]
        nth_rewrite 1 [ids]
        rw [Nat.add_comm 1]
      · rw [here]
        exact bumpId_young kind (by omega)
    · rw [other e same] at young ⊢
      exact h.numbered e young
  · intro d listed
    rcases List.mem_append.mp listed with old | new
    · exact built_mono (h.net d old) grows
    · rw [List.mem_singleton.mp new]
      exact fresh
  · intro e d listed
    by_cases same : e = c
    · subst same
      rw [self] at listed
      simp only at listed
      split_ifs at listed
      · rcases List.mem_append.mp listed with old | new
        · exact built_mono (h.waiting e d old) grows
        · rw [List.mem_singleton.mp new]
          exact fresh
      · exact built_mono (h.waiting e d listed) grows
    · rw [other e same] at listed
      exact built_mono (h.waiting e d listed) grows
  · intro key listed young
    refine grows _ _ (h.log key listed ?_)
    by_cases same : key.1 = c
    · unfold Young at young ⊢
      rw [same] at young ⊢
      rw [self] at young
      simp only [List.length_append, List.length_singleton] at young
      omega
    · rwa [other _ same] at young

theorem complete_eq (w : World) (call : Call) (rc : Int) (val : Text) :
    ∃ answer replies, complete w call rc val =
      { w with
        ans := store ansMax w.ans answer
        stored := w.stored ++ [answer]
        replies := w.replies ++ replies } ∧ (replies = [] ↔ call.asks = false) := by
  unfold complete
  cases asks : call.asks with
  | true => exact ⟨_, [_], rfl, by simp⟩
  | false => exact ⟨answerOf call.ip call.id (ascii "ok"), [], by simp, by simp⟩

def RingInv (w : World) : Prop := Holds ansMax w.ans w.stored

theorem serve_ringInv {w : World} (h : RingInv w) (web : Web) (ip : Ip) (asks : Bool)
    (req : Request) : RingInv (serve w web ip asks req) := by
  unfold serve
  split
  · split_ifs
    · exact h
    · exact h
  · split_ifs
    · obtain ⟨answer, replies, equal, _⟩ := complete_eq w ⟨ip, req.id, asks⟩ (-1) []
      rw [equal]
      exact Holds.store h (by decide) answer
    · exact h

theorem serve_frame (w : World) (web : Web) (ip : Ip) (asks : Bool) (req : Request) :
    (serve w web ip asks req).clients = w.clients ∧ (serve w web ip asks req).net = w.net ∧
      ((serve w web ip asks req).log = w.log ∨
        (serve w web ip asks req).log = w.log ++ [(ip, req.id)]) := by
  unfold serve
  split
  · split_ifs
    · exact ⟨rfl, rfl, .inl rfl⟩
    · exact ⟨rfl, rfl, .inl rfl⟩
  · split_ifs
    · obtain ⟨answer, replies, equal, _⟩ := complete_eq w ⟨ip, req.id, asks⟩ (-1) []
      rw [equal]
      exact ⟨rfl, rfl, .inl rfl⟩
    · exact ⟨rfl, rfl, .inr rfl⟩

theorem serve_clientInv {w : World} (h : ClientInv w) (web : Web) {d : Datagram} {asks : Bool}
    {req : Request} (sent : d ∈ w.net) (request : requestOf d = some (asks, req)) :
    ClientInv (serve w web d.src asks req) := by
  obtain ⟨clients, net, log⟩ := serve_frame w web d.src asks req
  have same : ∀ e, Built w e → Built (serve w web d.src asks req) e := by
    intro e built
    apply built_mono built
    rw [clients]
    exact fun _ _ used => used
  refine ⟨?_, ?_, ?_, ?_⟩
  · rw [clients]
    exact h.numbered
  · rw [net]
    exact fun e listed => same e (h.net e listed)
  · rw [clients]
    exact fun c e listed => same e (h.waiting c e listed)
  · rw [clients]
    rcases log with equal | equal
    · rw [equal]
      exact h.log
    · rw [equal]
      intro key listed young
      rcases List.mem_append.mp listed with old | new
      · exact h.log key old young
      · rw [List.mem_singleton.mp new] at young ⊢
        -- The logged id is the one that the client wrote into the line.
        obtain ⟨kind, id, actor, meth, arg, used, payload⟩ := h.net d sent
        have small : id < 10 ^ 10 := Nat.lt_of_le_of_lt (h.issued_le young used) (by decide)
        obtain ⟨_, _, found, same⟩ := requestOf_line kind actor meth arg small payload
        obtain ⟨rfl, rfl⟩ := Prod.mk.inj (Option.some.inj (request.symm.trans found))
        rw [same]
        exact used

structure Inv (w : World) : Prop where
  clients : ClientInv w
  ring : RingInv w

theorem aiplRemoteHandle_cases (w : World) (web : Web) (d : Datagram) :
    aiplRemoteHandle w web d = w ∧ (Accepted w.myIp d → requestOf d = none) ∨
      ∃ asks req, Accepted w.myIp d ∧ requestOf d = some (asks, req) ∧
        aiplRemoteHandle w web d = serve w web d.src asks req := by
  unfold aiplRemoteHandle
  by_cases accepted : Accepted w.myIp d
  · rw [if_pos accepted]
    rcases request : requestOf d with _ | ⟨asks, req⟩
    · exact .inl ⟨rfl, fun _ => rfl⟩
    · exact .inr ⟨asks, req, accepted, rfl, rfl⟩
  · rw [if_neg accepted]
    exact .inl ⟨rfl, fun other => (accepted other).elim⟩

theorem step_inv {e : Event} (h : Inv w) (next : step w e = some w') : Inv w' := by
  cases e with
  | issue c kind host port actor meth arg =>
    obtain rfl := Option.some.inj next
    exact ⟨issue_clientInv h.clients c kind host port actor meth arg, h.ring⟩
  | resend c k =>
    obtain ⟨d, listed, rfl⟩ := Option.map_eq_some_iff.mp next
    refine ⟨⟨h.clients.numbered, ?_, h.clients.waiting, h.clients.log⟩, h.ring⟩
    intro e sent
    rcases List.mem_append.mp sent with old | new
    · exact h.clients.net e old
    · rw [List.mem_singleton.mp new]
      exact h.clients.waiting c d (List.mem_of_getElem? listed)
  | stop c k =>
    obtain rfl := Option.some.inj next
    have issued : ∀ e, ((fun e => if e = c then { w.clients c with
        waiting := (w.clients c).waiting.eraseIdx k } else w.clients e : Ip → Client) e).issued =
        (w.clients e).issued ∧ ((fun e => if e = c then { w.clients c with
        waiting := (w.clients c).waiting.eraseIdx k } else w.clients e : Ip → Client) e).nextId =
        (w.clients e).nextId := by
      intro e
      by_cases same : e = c
      · subst same
        simp
      · simp [same]
    have kept : ∀ d, Built w d → Built { w with clients := fun e => if e = c then
        { w.clients c with waiting := (w.clients c).waiting.eraseIdx k } else w.clients e } d := by
      intro d built
      apply built_mono built
      intro e id used
      exact (issued e).1 ▸ used
    refine ⟨⟨fun e young => ?_, fun d listed => kept d (h.clients.net d listed), ?_, ?_⟩, h.ring⟩
    · have before := h.clients.numbered e (by unfold Young at young ⊢; rwa [(issued e).1] at young)
      simp only [(issued e).1, (issued e).2]
      exact before
    · intro e d listed
      apply kept
      by_cases same : e = c
      · subst same
        simp only [if_true] at listed
        exact h.clients.waiting e d (List.mem_of_mem_eraseIdx listed)
      · simp only [if_neg same] at listed
        exact h.clients.waiting e d listed
    · intro key listed young
      have before := h.clients.log key listed
        (by unfold Young at young ⊢; rwa [(issued key.1).1] at young)
      simp only [(issued key.1).1]
      exact before
  | deliver k web =>
    obtain ⟨d, listed, rfl⟩ := Option.map_eq_some_iff.mp next
    rcases aiplRemoteHandle_cases w web d with ⟨same, _⟩ | ⟨asks, req, _, request, served⟩
    · rw [same]
      exact h
    · rw [served]
      exact ⟨serve_clientInv h.clients web (List.mem_of_getElem? listed) request,
        serve_ringInv h.ring web d.src asks req⟩
  | finish k rc val =>
    obtain ⟨call, listed, rfl⟩ := Option.map_eq_some_iff.mp next
    obtain ⟨answer, replies, equal, _⟩ :=
      complete_eq { w with running := w.running.eraseIdx k } call rc val
    rw [equal]
    refine ⟨⟨h.clients.numbered, h.clients.net, h.clients.waiting, h.clients.log⟩, ?_⟩
    exact Holds.store h.ring (by decide) answer

/-- A delivered request that was dispatched before is not dispatched again, and
what it is sent, if anything, is its answer in the table. -/
def Handled (w : World) : Event → Prop
  | .deliver k web => ∀ d asks req, w.net[k]? = some d → Accepted w.myIp d →
      requestOf d = some (asks, req) → (d.src, req.id) ∈ w.log →
      (aiplRemoteHandle w web d).log = w.log ∧
        ((aiplRemoteHandle w web d).replies = w.replies ∨
          ∃ a, ansLookup w.ans d.src req.id = some a ∧
            (aiplRemoteHandle w web d).replies =
              w.replies ++ [(d.src, replyLine req.id a.val)])
  | _ => True

/-- A delivered request that was dispatched before has its answer among the last
four that were stored, or is a broadcast to a name that is not published. -/
def Remembered (w : World) : Event → Prop
  | .deliver k web => ∀ d asks req, w.net[k]? = some d → Accepted w.myIp d →
      requestOf d = some (asks, req) → (d.src, req.id) ∈ w.log →
      (∃ a ∈ recent ansMax w.stored, a.ip = d.src ∧ a.id = req.id) ∨
        asks = false ∧ targetOf web req.actor < 0
  | _ => True

theorem serve_handled_iff {w : World} (h : RingInv w) (web : Web) (ip : Ip) (asks : Bool)
    (req : Request) :
    ((serve w web ip asks req).log = w.log ∧ ((serve w web ip asks req).replies = w.replies ∨
      ∃ a, ansLookup w.ans ip req.id = some a ∧
        (serve w web ip asks req).replies = w.replies ++ [(ip, replyLine req.id a.val)])) ↔
      ((∃ a ∈ recent ansMax w.stored, a.ip = ip ∧ a.id = req.id) ∨
        asks = false ∧ targetOf web req.actor < 0) := by
  rcases found : ansLookup w.ans ip req.id with _ | prev
  · have forgotten : ¬ ∃ a ∈ recent ansMax w.stored, a.ip = ip ∧ a.id = req.id := by
      rintro ⟨a, listed, sameIp, sameId⟩
      have miss := (Holds.find_eq_none h (by decide)).mp found a listed
      exact absurd ⟨sameId, sameIp⟩ (of_decide_eq_false miss)
    have none : ¬ ∃ a : Answer, (Option.none : Option Answer) = some a ∧
        (serve w web ip asks req).replies = w.replies ++ [(ip, replyLine req.id a.val)] := by
      rintro ⟨a, is, _⟩
      exact Option.some_ne_none a is.symm
    simp only [forgotten, none, or_false, false_or]
    unfold serve
    rw [found]
    simp only
    by_cases missing : targetOf web req.actor < 0
    · rw [if_pos missing]
      obtain ⟨answer, replies, equal, silent⟩ := complete_eq w ⟨ip, req.id, asks⟩ (-1) []
      rw [equal]
      simp only [missing, and_true, true_and, List.append_right_eq_self]
      exact silent
    · rw [if_neg missing]
      simp [missing]
  · obtain ⟨listed, test⟩ := Holds.find_mem h found
    obtain ⟨sameId, sameIp⟩ := of_decide_eq_true test
    refine iff_of_true ?_ (.inl ⟨prev, listed, sameIp, sameId⟩)
    unfold serve
    rw [found]
    simp only
    split_ifs
    · exact ⟨rfl, .inr ⟨prev, rfl, rfl⟩⟩
    · exact ⟨rfl, .inl rfl⟩

theorem handled_iff {w : World} (h : Inv w) (e : Event) : Handled w e ↔ Remembered w e := by
  cases e with
  | issue | resend | stop | finish => exact Iff.rfl
  | deliver k web =>
    have each : ∀ d asks req, Accepted w.myIp d → requestOf d = some (asks, req) →
        aiplRemoteHandle w web d = serve w web d.src asks req := by
      intro d asks req accepted request
      rw [aiplRemoteHandle, if_pos accepted, request]
    constructor
    · intro handled d asks req sent accepted request listed
      have done := handled d asks req sent accepted request listed
      rw [each d asks req accepted request] at done
      exact (serve_handled_iff h.ring web d.src asks req).mp done
    · intro remembered d asks req sent accepted request listed
      rw [each d asks req accepted request]
      exact (serve_handled_iff h.ring web d.src asks req).mpr
        (remembered d asks req sent accepted request listed)

theorem step_log {e : Event} (handled : Handled w e) (next : step w e = some w')
    (once : w.log.Nodup) : w'.log.Nodup := by
  cases e with
  | issue | stop =>
    obtain rfl := Option.some.inj next
    exact once
  | resend c k =>
    obtain ⟨d, _, rfl⟩ := Option.map_eq_some_iff.mp next
    exact once
  | finish k rc val =>
    obtain ⟨call, _, rfl⟩ := Option.map_eq_some_iff.mp next
    obtain ⟨answer, replies, equal, _⟩ :=
      complete_eq { w with running := w.running.eraseIdx k } call rc val
    rw [equal]
    exact once
  | deliver k web =>
    obtain ⟨d, listed, rfl⟩ := Option.map_eq_some_iff.mp next
    rcases aiplRemoteHandle_cases w web d with ⟨same, _⟩ | ⟨asks, req, accepted, request, served⟩
    · rw [same]
      exact once
    by_cases before : (d.src, req.id) ∈ w.log
    · rw [(handled d asks req listed accepted request before).1]
      exact once
    · rw [served]
      rcases (serve_frame w web d.src asks req).2.2 with equal | equal
      · rw [equal]
        exact once
      · rw [equal]
        exact once.append (List.nodup_singleton _) (by simpa using before)

/-- Every event of a run meets a condition in the world where it happens. -/
def Along (p : World → Event → Prop) (w : World) : List Event → Prop
  | [] => True
  | e :: es => p w e ∧ ∀ w', step w e = some w' → Along p w' es

theorem along_congr {p q : World → Event → Prop} (same : ∀ w e, Inv w → (p w e ↔ q w e))
    {w : World} (h : Inv w) (es : List Event) : Along p w es ↔ Along q w es := by
  induction es generalizing w with
  | nil => exact Iff.rfl
  | cons e es ih =>
    refine and_congr (same w e h) (forall_congr' fun w' => ?_)
    exact imp_congr_right fun next => ih (step_inv h next)

theorem exec_inv (h : Inv w) {es : List Event} (run : exec w es = some w') :
    Inv w' := by
  induction es generalizing w with
  | nil =>
    obtain rfl := Option.some.inj run
    exact h
  | cons e es ih =>
    obtain ⟨middle, next, rest⟩ := Option.bind_eq_some_iff.mp run
    exact ih (step_inv h next) rest

theorem exec_log {es : List Event} (handled : Along Handled w es) (run : exec w es = some w')
    (once : w.log.Nodup) : w'.log.Nodup := by
  induction es generalizing w with
  | nil =>
    obtain rfl := Option.some.inj run
    exact once
  | cons e es ih =>
    obtain ⟨middle, next, rest⟩ := Option.bind_eq_some_iff.mp run
    exact ih (handled.2 middle next) rest (step_log handled.1 next once)

/-- In every run of clients and server, each request is dispatched at most once
and its duplicates are answered from the table or dropped, exactly when every
delivery meets the condition. What is logged under a client whose counter has not
wrapped are ids that it issued, each for one request. -/
theorem dispatched_once_iff {myIp : Ip} {es : List Event} {w : World}
    (run : exec (boot myIp) es = some w) :
    (((∀ ip id, w.log.count (ip, id) ≤ 1) ∧ Along Handled (boot myIp) es) ↔
      Along Remembered (boot myIp) es) ∧
    ∀ ip, Young (w.clients ip) → (w.clients ip).issued.Nodup ∧
      ∀ id, (ip, id) ∈ w.log → id ∈ (w.clients ip).issued := by
  have start : Inv (boot myIp) := ⟨boot_clientInv myIp, holds_empty⟩
  have inv := exec_inv start run
  have same := along_congr (fun _ e h => handled_iff h e) start es
  refine ⟨⟨fun both => same.mp both.2, fun remembered => ?_⟩, fun ip young => ?_⟩
  · have handled := same.mpr remembered
    have once := exec_log handled run List.nodup_nil
    exact ⟨fun ip id => List.nodup_iff_count_le_one.mp once (ip, id), handled⟩
  · exact ⟨inv.clients.issued_nodup young, fun id listed => inv.clients.log (ip, id) listed young⟩

private def server : Ip := ⟨192, 168, 3, 100⟩

private def node : Ip := ⟨192, 168, 3, 101⟩

private def published : Web := [(some (ascii "/echo"), 0)]

private def echoCall : Event := .issue node .call server 9010 (ascii "echo") (ascii "say") []

/-- A call, its method, and a retransmission that comes after the method. -/
private def answeredTwice : List Event :=
  [echoCall, .deliver 0 published, .finish 0 0 (ascii "hi"), .resend node 0, .deliver 1 published]

theorem dispatched_once_iff_resent :
    ∃ w, exec (boot server) answeredTwice = some w ∧ w.log.count (node, 1) ≤ 1 ∧
      w.replies.length = 2 := by
  refine ⟨_, rfl, ?_, by decide⟩
  have run : exec (boot server) answeredTwice = some _ := rfl
  refine ((dispatched_once_iff run).1.mpr ?_).1 node 1
  refine ⟨trivial, fun w' next => ?_⟩
  obtain rfl := Option.some.inj next
  refine ⟨fun d asks req _ _ _ listed => absurd listed List.not_mem_nil, fun w' next => ?_⟩
  obtain rfl := Option.some.inj next
  refine ⟨trivial, fun w' next => ?_⟩
  obtain rfl := Option.some.inj next
  refine ⟨trivial, fun w' next => ?_⟩
  obtain rfl := Option.some.inj next
  refine ⟨fun d asks req sent _ request _ => .inl ⟨⟨node, 1, ascii "hi"⟩, by decide, ?_⟩,
    fun w' next => trivial⟩
  obtain rfl := Option.some.inj sent
  obtain ⟨_, rfl⟩ := Prod.mk.inj (Option.some.inj request)
  exact ⟨rfl, by decide⟩

/-- A retransmission that arrives while the method still runs is dispatched again,
and so is one that arrives after four later answers. -/
theorem echo_dispatched_twice :
    (∃ w, exec (boot server) [echoCall, .deliver 0 published, .deliver 0 published] = some w ∧
      w.log.count (node, 1) = 2) ∧
    ∃ w, exec (boot server) ((List.replicate 5 echoCall) ++
      ((List.range 5).flatMap fun k => [.deliver k published, .finish 0 0 (ascii "hi")]) ++
      [.deliver 0 published]) = some w ∧ w.log.count (node, 1) = 2 :=
  ⟨⟨_, rfl, by decide⟩, ⟨_, rfl, by decide⟩⟩

end XinuRpi5.System.AiplOnce
