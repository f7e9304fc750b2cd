/- source: system/aipl_remote.c
   digest: When a remote call returns the answer to its own request, over all runs of the hosts. -/

import XinuRpi5.Lib.GuardedRuns
import XinuRpi5.System.AiplCall
import XinuRpi5.System.AiplOnce

namespace XinuRpi5.System.AiplOwnAnswer

open Lib.GuardedRuns Lib.RecentRing
open AiplRemote hiding World Event step boot serve complete aiplRemoteHandle
open AiplCall
open AiplOnce (put_eq decimalText_short decimalText_digit idDigits_decimal
  decimalText_read requestOf_line datagramOf_src)

def Plain (t : Text) : Prop := t.length ≤ 159 ∧ ∀ c ∈ t, c ≠ 0 ∧ c ≠ 10 ∧ c ≠ 13

section

variable {id : Nat} {val : Text} (small : id < 10 ^ 10) (plain : Plain val)

include small plain

theorem bufferOf_replyLine :
    bufferOf (replyLine id val) = 82 :: 32 :: (decimalText id ++ 32 :: val) := by
  have short := decimalText_short small
  have fits := plain.1
  have line : replyLine id val = ([82, 32] ++ decimalText id ++ [32] ++ val) ++ [10] := by
    have first : put 224 [] (ascii "R ") = [82, 32] := by decide
    have second : putNum 224 [82, 32] id = [82, 32] ++ decimalText id := put_eq (by simp; omega)
    have third : put 224 ([82, 32] ++ decimalText id) (ascii " ") =
        [82, 32] ++ decimalText id ++ [32] := put_eq (s := [32]) (by simp; omega)
    have fourth : put 224 ([82, 32] ++ decimalText id ++ [32]) val =
        [82, 32] ++ decimalText id ++ [32] ++ val := put_eq (by simp; omega)
    have fifth : put 224 ([82, 32] ++ decimalText id ++ [32] ++ val) (ascii "\n") =
        [82, 32] ++ decimalText id ++ [32] ++ val ++ [10] := put_eq (s := [10]) (by simp; omega)
    unfold replyLine
    simp only [first, second, third, fourth, fifth]
  have all : ∀ c ∈ [82, 32] ++ decimalText id ++ [32] ++ val,
      decide (c ≠ 0 ∧ c ≠ 10 ∧ c ≠ 13) = true := by
    intro c listed
    apply decide_eq_true
    simp only [List.mem_append, List.mem_cons, List.not_mem_nil, or_false] at listed
    rcases listed with (((rfl | rfl) | digit) | rfl) | inside
    · decide
    · decide
    · obtain ⟨low, _⟩ := decimalText_digit digit
      rw [UInt8.le_iff_toNat_le] at low
      refine ⟨?_, ?_, ?_⟩ <;> rintro rfl <;> revert low <;> decide
    · decide
    · exact plain.2 c inside
  have length : (([82, 32] ++ decimalText id ++ [32] ++ val) ++ [10]).length ≤ 512 := by
    simp
    omega
  rw [bufferOf, line, List.take_of_length_le length, List.takeWhile_append_of_pos all]
  simp

theorem replyOf_replyTo {h c : Ip} : replyOf (replyTo h c id val) = some (id, val) := by
  have digits := idDigits_decimal id val
  have number : parseId (decimalText id ++ 32 :: val) = id := by
    rw [parseId, digits]
    exact decimalText_read id
  simp only [replyOf, replyTo, bufferOf_replyLine small plain, digits, number,
    List.drop_left, skipSpace]

theorem requestOf_replyTo {h c : Ip} : requestOf (replyTo h c id val) = none := by
  simp only [requestOf, replyTo, bufferOf_replyLine small plain]
  rfl

end

theorem replyOf_request {d : Datagram} {x : Bool × Request} (request : requestOf d = some x) :
    replyOf d = none := by
  unfold requestOf at request
  unfold replyOf
  split at request
  · next equal =>
    rw [equal]
    rfl
  · next equal =>
    rw [equal]
    rfl
  · cases request

def Asked (net : List Datagram) (h : Ip) (work : Work) : Prop :=
  ∃ d ∈ net, d.src = work.client ∧ Accepted h d ∧ requestOf d = some (work.asks, work.req)

/-- The call's line is on the net, is read as it was meant, and is the only
request of its client under its id. -/
structure Issued (net : List Datagram) (c : Ip) (p : Pending) : Prop where
  sent : p.datagram c ∈ net
  read : requestOf (p.datagram c) = some (true, ⟨p.id, p.actor, p.meth, p.arg⟩)
  only : ∀ d ∈ net, d.src = c → ∀ asks req, requestOf d = some (asks, req) → req.id = p.id →
    d = p.datagram c

structure HostInv (net : List Datagram) (computed : List Result) (h : Ip) (host : Host) :
    Prop where
  answers : ∀ i a, host.ans.slots i = some a → ∃ r ∈ computed,
    r.work.client = a.ip ∧ r.work.req.id = a.id ∧ a.val = r.val
  running : ∀ work ∈ host.running, Asked net h work
  single : host.waiting.length ≤ 1
  waits : ∀ p ∈ host.waiting, host.waitId = some p.id ∧ Issued net h p
  idle : host.waiting = [] → host.waitId = none
  got : host.have_ = true → ∀ id, host.waitId = some id → ∃ r ∈ computed,
    r.work.client = h ∧ r.work.req.id = id ∧ host.reply = r.val

structure Inv (w : World) : Prop where
  requests : ∀ d ∈ w.net, ∀ asks req, requestOf d = some (asks, req) →
    req.id < 10 ^ 10 ∧ d.src.d ≠ 255
  replies : ∀ d ∈ w.net, ∀ id text, replyOf d = some (id, text) → ∃ r ∈ w.computed,
    r.work.client = d.dst ∧ r.work.req.id = id ∧ text = r.val
  results : ∀ r ∈ w.computed, Asked w.net r.host r.work ∧ Plain r.val
  host : ∀ h, HostInv w.net w.computed h (w.hosts h)
  returned : ∀ x ∈ w.returned, OwnAnswer w x.1 x.2.1 x.2.2

section Growing

variable {net ds : List Datagram} {computed rs : List Result} {h : Ip} {host : Host} {w : World}

theorem Asked.mono {work : Work} (asked : Asked net h work) : Asked (net ++ ds) h work := by
  obtain ⟨d, listed, rest⟩ := asked
  exact ⟨d, List.mem_append_left ds listed, rest⟩

def Spares (ds : List Datagram) (c : Ip) (id : Nat) : Prop :=
  ∀ d ∈ ds, d.src = c → ∀ asks req, requestOf d = some (asks, req) → req.id ≠ id

theorem Issued.mono {p : Pending} (issued : Issued net h p) (spares : Spares ds h p.id) :
    Issued (net ++ ds) h p := by
  refine ⟨List.mem_append_left ds issued.sent, issued.read, ?_⟩
  intro d listed src asks req read same
  rcases List.mem_append.mp listed with old | new
  · exact issued.only d old src asks req read same
  · exact absurd same (spares d new src asks req read)

theorem HostInv.mono (inv : HostInv net computed h host)
    (spares : ∀ p ∈ host.waiting, Spares ds h p.id) :
    HostInv (net ++ ds) (computed ++ rs) h host := by
  refine ⟨fun i a slot => ?_, fun work listed => (inv.running work listed).mono, inv.single,
    fun p listed => ?_, inv.idle, fun have_ id waits => ?_⟩
  · obtain ⟨r, listed, rest⟩ := inv.answers i a slot
    exact ⟨r, List.mem_append_left rs listed, rest⟩
  · obtain ⟨waits, issued⟩ := inv.waits p listed
    exact ⟨waits, issued.mono (spares p listed)⟩
  · obtain ⟨r, listed, rest⟩ := inv.got have_ id waits
    exact ⟨r, List.mem_append_left rs listed, rest⟩

theorem ownAnswer_mono {w' : World} {c : Ip} {p : Pending} {text : Text}
    (own : OwnAnswer w c p text) (grows : w'.computed = w.computed ++ rs) :
    OwnAnswer w' c p text := by
  obtain ⟨r, listed, rest⟩ := own
  exact ⟨r, by rw [grows]; exact List.mem_append_left rs listed, rest⟩

/-- What a step has to show: its new datagrams and results, the host it changed,
and what it gave back. -/
theorem Inv.extend {w' : World} (inv : Inv w) (h : Ip) (ds : List Datagram) (rs : List Result)
    (others : ∀ e, e ≠ h → w'.hosts e = w.hosts e) (net : w'.net = w.net ++ ds)
    (computed : w'.computed = w.computed ++ rs)
    (requests : ∀ d ∈ ds, ∀ asks req, requestOf d = some (asks, req) →
      req.id < 10 ^ 10 ∧ d.src.d ≠ 255 ∧ d.src = h)
    (replies : ∀ d ∈ ds, ∀ id text, replyOf d = some (id, text) → ∃ r ∈ w'.computed,
      r.work.client = d.dst ∧ r.work.req.id = id ∧ text = r.val)
    (results : ∀ r ∈ rs, Asked w'.net r.host r.work ∧ Plain r.val)
    (changed : HostInv w'.net w'.computed h (w'.hosts h))
    (returned : ∀ x ∈ w'.returned, x ∈ w.returned ∨ OwnAnswer w' x.1 x.2.1 x.2.2) : Inv w' := by
  refine ⟨fun d listed asks req read => ?_, fun d listed id text read => ?_,
    fun r listed => ?_, fun e => ?_, fun x listed => ?_⟩
  · rw [net] at listed
    rcases List.mem_append.mp listed with old | new
    · exact inv.requests d old asks req read
    · obtain ⟨small, client, _⟩ := requests d new asks req read
      exact ⟨small, client⟩
  · rw [net] at listed
    rcases List.mem_append.mp listed with old | new
    · obtain ⟨r, known, rest⟩ := inv.replies d old id text read
      exact ⟨r, by rw [computed]; exact List.mem_append_left rs known, rest⟩
    · exact replies d new id text read
  · rw [computed] at listed
    rcases List.mem_append.mp listed with old | new
    · obtain ⟨asked, plain⟩ := inv.results r old
      rw [net]
      exact ⟨asked.mono, plain⟩
    · exact results r new
  · by_cases same : e = h
    · rw [same]
      exact changed
    · rw [others e same, net, computed]
      refine (inv.host e).mono fun p _ d new src asks req read => ?_
      exact absurd (src.symm.trans (requests d new asks req read).2.2) same
  · rcases returned x listed with old | own
    · exact ownAnswer_mono (inv.returned x old) computed
    · exact own

end Growing

/-- The condition on a step: a call starts while no other call of its node waits,
under an id that no request of that address carried, and its line is read back as
it was meant; another request does not take the id of a waiting call; the clients
have addresses of their own and the rendered results no line end. -/
def Meets (w : World) : Event → Prop
  | .call c host port actor meth arg _ _ =>
    (w.hosts c).nextId < 2 ^ 31 ∧ c.d ≠ 255 ∧ (w.hosts c).waiting = [] ∧
      Spares w.net c (w.hosts c).nextId ∧
      requestOf (datagramOf .call c host port (w.hosts c).nextId actor meth arg) =
        some (true, ⟨(w.hosts c).nextId, actor, meth, arg⟩)
  | .request c _ _ _ _ _ _ =>
    (w.hosts c).nextId < 2 ^ 31 ∧ c.d ≠ 255 ∧
      ∀ p ∈ (w.hosts c).waiting, p.id ≠ (w.hosts c).nextId
  | .finish h k rc val => ∀ work, (w.hosts h).running[k]? = some work → work.asks = true →
    rc = 0 → ∀ c ∈ val.take 159, c ≠ 0 ∧ c ≠ 10 ∧ c ≠ 13
  | _ => True

instance (ds : List Datagram) (c : Ip) (id : Nat) : Decidable (Spares ds c id) :=
  decidable_of_iff (∀ d ∈ ds, d.src = c → ∀ x ∈ requestOf d, x.2.id ≠ id)
    ⟨fun all d listed src _ _ read => all d listed src _ read,
      fun all d listed src x read => all d listed src x.1 x.2 read⟩

instance (w : World) : (e : Event) → Decidable (Meets w e)
  | .call .. => inferInstanceAs (Decidable (_ ∧ _))
  | .request .. => inferInstanceAs (Decidable (_ ∧ _))
  | .finish h k rc val =>
    have : Decidable (∀ c ∈ val.take 159, c ≠ 0 ∧ c ≠ 10 ∧ c ≠ 13) := List.decidableBAll _ _
    inferInstanceAs (Decidable (∀ work ∈ (w.hosts h).running[k]?, work.asks = true →
      rc = 0 → ∀ c ∈ val.take 159, c ≠ 0 ∧ c ≠ 10 ∧ c ≠ 13))
  | .take .. | .giveUp .. | .probe .. | .deliver .. | .reboot .. => isTrue trivial

section Steps

variable {w w' : World}

@[simp] theorem hosts_set_self (w : World) (h : Ip) (host : Host) :
    (w.set h host).hosts h = host := if_pos rfl

theorem hosts_set_other (w : World) (h : Ip) (host : Host) {e : Ip} (other : e ≠ h) :
    (w.set h host).hosts e = w.hosts e := if_neg other

theorem Inv.local {h : Ip} {host : Host} (inv : Inv w)
    (changed : HostInv w.net w.computed h host) : Inv (w.set h host) := by
  refine inv.extend h [] [] (fun e other => hosts_set_other w h host other)
    (List.append_nil _).symm (List.append_nil _).symm ?_ ?_ ?_ ?_ fun x listed => .inl listed
  · intro d listed
    cases listed
  · intro d listed
    cases listed
  · intro r listed
    cases listed
  · rw [hosts_set_self]
    exact changed

theorem freshHost_inv (net : List Datagram) (computed : List Result) (h : Ip) :
    HostInv net computed h freshHost := by
  refine ⟨fun i a slot => ?_, ?_, by decide, ?_, fun _ => rfl, ?_⟩
  · cases slot
  · intro work listed
    cases listed
  · intro p listed
    cases listed
  · intro got
    cases got

theorem boot_inv : Inv boot := by
  refine ⟨?_, ?_, ?_, fun h => freshHost_inv _ _ h, ?_⟩
  · intro d listed
    cases listed
  · intro d listed
    cases listed
  · intro r listed
    cases listed
  · intro x listed
    cases listed

variable {c : Ip}

theorem Inv.sendRequest {client : Host} {d : Datagram} {asks : Bool} {req : Request}
    (inv : Inv w) (src : d.src = c) (own : c.d ≠ 255) (read : requestOf d = some (asks, req))
    (small : req.id < 10 ^ 10)
    (changed : HostInv (w.net ++ [d]) w.computed c client) : Inv ((w.set c client).send d) := by
  refine inv.extend c [d] [] (fun e other => hosts_set_other w c client other) rfl
    (List.append_nil _).symm ?_ ?_ ?_ ?_ fun x listed => .inl listed
  · intro e listed asks' req' found
    obtain rfl := List.mem_singleton.mp listed
    obtain ⟨_, rfl⟩ := Prod.mk.inj (Option.some.inj (read.symm.trans found))
    exact ⟨small, by rwa [src], src⟩
  · intro e listed id text found
    obtain rfl := List.mem_singleton.mp listed
    rw [replyOf_request read] at found
    cases found
  · intro r listed
    cases listed
  · have self : ((w.set c client).send d).hosts c = client := hosts_set_self w c client
    rw [self]
    exact changed

theorem call_inv {host : Ip} {port : Nat} {actor meth arg : Text} {outcap : Nat} {sent : Bool}
    (inv : Inv w) (meets : Meets w (.call c host port actor meth arg outcap sent)) :
    Inv (aiplRemoteCall w c host port actor meth arg outcap sent) := by
  obtain ⟨bound, own, idle, spares, read⟩ := meets
  have here := inv.host c
  cases sent with
  | false =>
    refine inv.local ⟨here.answers, here.running, here.single, ?_, fun _ => rfl, ?_⟩
    · intro p listed
      rw [show (w.hosts c).waiting = [] from idle] at listed
      cases listed
    · intro got
      cases got
  | true =>
    refine inv.sendRequest rfl own read (Nat.lt_trans bound (by decide)) ?_
    refine ⟨here.answers, fun work listed => (here.running work listed).mono, ?_, ?_, ?_, ?_⟩
    · simp [idle]
    · intro p listed
      simp only [idle, List.nil_append, List.mem_singleton] at listed
      subst listed
      refine ⟨rfl, List.mem_append_right _ List.mem_cons_self, read, ?_⟩
      intro d known src asks req found same
      rcases List.mem_append.mp known with old | new
      · exact absurd same (spares d old src asks req found)
      · exact List.mem_singleton.mp new
    · intro empty
      simp at empty
    · intro got
      cases got

theorem leave_host {k : Nat} {p : Pending} (here : HostInv w.net w.computed c (w.hosts c))
    (waits : (w.hosts c).waiting[k]? = some p) :
    HostInv w.net w.computed c
      { w.hosts c with waitId := none, waiting := (w.hosts c).waiting.eraseIdx k } := by
  have none_left : (w.hosts c).waiting.eraseIdx k = [] := by
    have inside := (List.getElem?_eq_some_iff.mp waits).1
    apply List.eq_nil_of_length_eq_zero
    rw [List.length_eraseIdx_of_lt inside]
    have := here.single
    omega
  refine ⟨here.answers, here.running, ?_, ?_, fun _ => rfl, ?_⟩
  · simp [none_left]
  · intro q listed
    simp [none_left] at listed
  · intro _ id waitsFor
    cases waitsFor

theorem Inv.own {p : Pending} {r : Result} (inv : Inv w) (issued : Issued w.net c p)
    (known : r ∈ w.computed) (client : r.work.client = c) (id : r.work.req.id = p.id) :
    Accepted r.host (p.datagram c) ∧ r.work = ⟨c, true, ⟨p.id, p.actor, p.meth, p.arg⟩⟩ := by
  obtain ⟨d, sent, src, accepted, read⟩ := (inv.results r known).1
  obtain rfl := issued.only d sent (src.trans client) _ _ read id
  obtain ⟨asks, req⟩ := Prod.mk.inj (Option.some.inj (read.symm.trans issued.read))
  refine ⟨accepted, ?_⟩
  rw [← client, ← asks, ← req]

theorem take_inv {k : Nat} (inv : Inv w) (next : step w (.take c k) = some w') :
    Inv w' := by
  simp only [step] at next
  split_ifs at next with got
  obtain ⟨p, waits, rfl⟩ := Option.map_eq_some_iff.mp next
  have here := inv.host c
  have left := inv.local (leave_host here waits)
  obtain ⟨waitsFor, issued⟩ := here.waits p (List.mem_of_getElem? waits)
  obtain ⟨r, known, client, id, reply⟩ := here.got got p.id waitsFor
  obtain ⟨accepted, work⟩ := inv.own issued known client id
  refine ⟨left.requests, left.replies, left.results, left.host, fun x listed => ?_⟩
  rcases List.mem_append.mp listed with old | new
  · exact inv.returned x old
  · obtain rfl := List.mem_singleton.mp new
    exact ⟨r, known, accepted, work, by rw [reply]⟩

theorem request_inv {host : Ip} {kind : Kind} {port : Nat} {actor meth arg : Text}
    (inv : Inv w) (meets : Meets w (.request c kind host port actor meth arg))
    (next : step w (.request c kind host port actor meth arg) = some w') : Inv w' := by
  obtain ⟨bound, own, apart⟩ := meets
  obtain rfl := Option.some.inj next
  have small : (w.hosts c).nextId < 10 ^ 10 := Nat.lt_trans bound (by decide)
  obtain ⟨src, payload⟩ := datagramOf_src kind c host port (w.hosts c).nextId actor meth arg
  obtain ⟨asks, req, read, id⟩ := requestOf_line kind actor meth arg small payload
  refine inv.sendRequest src own read (id ▸ small) ?_
  have kept := @HostInv.mono _ [datagramOf kind c host port (w.hosts c).nextId actor meth arg]
    _ [] c _ (inv.host c) (by
      intro p listed d new _ asks' req' found
      obtain rfl := List.mem_singleton.mp new
      obtain ⟨_, rfl⟩ := Prod.mk.inj (Option.some.inj (read.symm.trans found))
      rw [id]
      exact (apart p listed).symm)
  rw [List.append_nil] at kept
  exact ⟨kept.answers, kept.running, kept.single, kept.waits, kept.idle, kept.got⟩

end Steps

section Serving

variable {w : World} {h : Ip} {work : Work} {d : Datagram}

variable (inv : Inv w)

include inv

theorem Inv.sendReply {r : Result} (known : r ∈ w.computed) (h : Ip) :
    Inv (w.send (replyTo h r.work.client r.work.req.id r.val)) := by
  obtain ⟨⟨d, sent, _, _, read⟩, plain⟩ := inv.results r known
  have small := (inv.requests d sent _ _ read).1
  have silent := @requestOf_replyTo _ _ small plain h r.work.client
  refine inv.extend h [replyTo h r.work.client r.work.req.id r.val] [] (fun e _ => rfl) rfl
    (List.append_nil _).symm ?_ ?_ ?_ ?_ fun x listed => .inl listed
  · intro e listed asks req found
    obtain rfl := List.mem_singleton.mp listed
    rw [silent] at found
    cases found
  · intro e listed id text found
    obtain rfl := List.mem_singleton.mp listed
    rw [replyOf_replyTo small plain] at found
    obtain ⟨rfl, rfl⟩ := Prod.mk.inj (Option.some.inj found)
    exact ⟨r, known, rfl, rfl, rfl⟩
  · intro r' listed
    cases listed
  · have kept := @HostInv.mono _ [replyTo h r.work.client r.work.req.id r.val] _ [] h _
      (inv.host h) (by
        intro p _ e new _ asks req found
        obtain rfl := List.mem_singleton.mp new
        rw [silent] at found
        cases found)
    rw [List.append_nil] at kept
    exact kept

theorem Inv.storeResult (asked : Asked w.net h work) {val : Text} (plain : Plain val) :
    Inv { w.set h { w.hosts h with
            ans := store ansMax (w.hosts h).ans (answerOf work.client work.req.id val) } with
          computed := w.computed ++ [⟨h, work, val⟩] } := by
  refine inv.extend h [] [⟨h, work, val⟩] (fun e other => hosts_set_other w h _ other)
    (List.append_nil _).symm rfl ?_ ?_ ?_ ?_ fun x listed => .inl listed
  · intro d listed
    cases listed
  · intro d listed
    cases listed
  · intro r listed
    obtain rfl := List.mem_singleton.mp listed
    exact ⟨asked, plain⟩
  · have kept := @HostInv.mono _ [] _ [⟨h, work, val⟩] h _ (inv.host h) (by
      intro p _ d new
      cases new)
    rw [List.append_nil] at kept
    show HostInv w.net (w.computed ++ [⟨h, work, val⟩]) h ((w.set h _).hosts h)
    rw [hosts_set_self]
    refine ⟨?_, kept.running, kept.single, kept.waits, kept.idle, kept.got⟩
    intro i a slot
    simp only [store] at slot
    split_ifs at slot with here
    · obtain rfl := Option.some.inj slot
      exact ⟨⟨h, work, val⟩, List.mem_append_right _ List.mem_cons_self, rfl, rfl,
        List.take_of_length_le plain.1⟩
    · exact kept.answers i a slot

theorem complete_inv (asked : Asked w.net h work) {rc : Int} {val : Text}
    (clean : work.asks = true → rc = 0 → ∀ c ∈ val.take 159, c ≠ 0 ∧ c ≠ 10 ∧ c ≠ 13) :
    Inv (complete w h work rc val) := by
  have err : Plain (ascii "err") := ⟨by decide, by decide +kernel⟩
  have ok : Plain (ascii "ok") := ⟨by decide, by decide +kernel⟩
  unfold complete
  cases asks : work.asks with
  | false => exact inv.storeResult asked ok
  | true =>
    by_cases failed : rc ≠ 0
    · simp only [if_pos failed]
      exact (inv.storeResult asked err).sendReply (List.mem_append_right _ List.mem_cons_self) h
    · have plain : Plain (val.take 159) :=
        ⟨List.length_take_le 159 val, clean asks (not_not.mp failed)⟩
      simp only [if_neg failed]
      exact (inv.storeResult asked plain).sendReply (List.mem_append_right _ List.mem_cons_self) h

theorem serve_inv (asked : Asked w.net h work) (web : Web) :
    Inv (serve w h web work) := by
  unfold serve
  split
  · next prev found =>
    obtain ⟨j, slot, test⟩ := find_slot found
    obtain ⟨id, client⟩ := of_decide_eq_true test
    obtain ⟨r, known, sameClient, sameId, val⟩ := (inv.host h).answers j prev slot
    split_ifs
    · rw [val, ← id, ← client, ← sameClient, ← sameId]
      exact inv.sendReply known h
    · exact inv
  · split_ifs
    · refine complete_inv inv asked fun _ zero => ?_
      cases zero
    · have here := inv.host h
      refine inv.local ⟨here.answers, ?_, here.single, here.waits, here.idle, here.got⟩
      intro other listed
      rcases List.mem_append.mp listed with old | new
      · exact here.running other old
      · rw [List.mem_singleton.mp new]
        exact asked

theorem Inv.addressed {r : Result} (known : r ∈ w.computed) (client : r.work.client = d.dst)
    (accepted : Accepted h d) : d.dst = h := by
  obtain ⟨⟨e, sent, src, _, read⟩, _⟩ := inv.results r known
  have own := (inv.requests e sent _ _ read).2
  rw [src, client] at own
  rcases accepted.1 with same | all | subnet
  · exact same
  · rw [all] at own
    exact absurd rfl own
  · rw [subnet] at own
    exact absurd rfl own

theorem takeReply_inv {id : Nat} {text : Text} (sent : d ∈ w.net) (accepted : Accepted h d)
    (read : replyOf d = some (id, text)) :
    Inv (takeReply w h id text) := by
  unfold takeReply
  split_ifs with waits
  · obtain ⟨r, known, client, same, rfl⟩ := inv.replies d sent id text read
    have plain := (inv.results r known).2
    have here := inv.host h
    refine inv.local ⟨here.answers, here.running, here.single, here.waits, here.idle, ?_⟩
    intro _ id' waitsFor
    obtain rfl := Option.some.inj (waits.symm.trans waitsFor)
    have short : r.val.length ≤ 191 := Nat.le_trans plain.1 (by decide)
    exact ⟨r, known, client.trans (inv.addressed known client accepted), same,
      List.take_of_length_le short⟩
  · exact inv

theorem aiplRemoteHandle_inv (sent : d ∈ w.net) (web : Web) :
    Inv (aiplRemoteHandle w h web d) := by
  unfold aiplRemoteHandle
  split_ifs with accepted
  · split
    · next id text read => exact takeReply_inv inv sent accepted read
    · split
      · next asks req read => exact serve_inv inv ⟨d, sent, rfl, accepted, read⟩ web
      · exact inv
  · exact inv

end Serving

theorem step_inv {w w' : World} {e : Event} (inv : Inv w) (meets : Meets w e)
    (next : step w e = some w') : Inv w' := by
  cases e with
  | call c host port actor meth arg outcap sent =>
    obtain rfl := Option.some.inj next
    exact call_inv inv meets
  | take c k => exact take_inv inv next
  | giveUp c k =>
    obtain ⟨p, waits, rfl⟩ := Option.map_eq_some_iff.mp next
    exact inv.local (leave_host (inv.host c) waits)
  | request c kind host port actor meth arg => exact request_inv inv meets next
  | probe c =>
    obtain rfl := Option.some.inj next
    have here := inv.host c
    exact inv.local
      ⟨here.answers, here.running, here.single, here.waits, here.idle, here.got⟩
  | deliver h k web =>
    obtain ⟨d, sent, rfl⟩ := Option.map_eq_some_iff.mp next
    exact aiplRemoteHandle_inv inv (List.mem_of_getElem? sent) web
  | finish h k rc val =>
    obtain ⟨work, runs, rfl⟩ := Option.map_eq_some_iff.mp next
    have here := inv.host h
    have asked := here.running work (List.mem_of_getElem? runs)
    have stopped : Inv (w.set h { w.hosts h with running := (w.hosts h).running.eraseIdx k }) :=
      inv.local ⟨here.answers,
        fun other listed => here.running other (List.mem_of_mem_eraseIdx listed),
        here.single, here.waits, here.idle, here.got⟩
    exact complete_inv stopped asked (meets work runs)
  | reboot h =>
    obtain rfl := Option.some.inj next
    exact inv.local (freshHost_inv w.net w.computed h)

/-- In every run of any number of hosts whose steps meet the condition, each call
that returned gave back the answer that a host it addressed computed for it. -/
theorem runs_own_answer {w : World} (run : Runs step Meets boot w) {c : Ip} {p : Pending}
    {text : Text} (back : (c, p, text) ∈ w.returned) : OwnAnswer w c p text :=
  (run.invariant boot_inv fun _ _ _ inv meets next => step_inv inv meets next).returned _ back

private def nodeA : Ip := ⟨192, 168, 3, 100⟩

private def nodeB : Ip := ⟨192, 168, 3, 101⟩

private def nodeC : Ip := ⟨192, 168, 3, 102⟩

private def published : Web := [(some (ascii "/calc"), 0)]

private def ask (host : Ip) (meth : String) : Event :=
  .call nodeC host 9010 (ascii "calc") (ascii meth) (ascii "3") 64 true

private def oneCall : List Event :=
  [ask nodeB "next", .deliver nodeB 0 published, .finish nodeB 0 0 (ascii "4"),
    .deliver nodeC 1 published, .take nodeC 0]

theorem runs_own_answer_one_call :
    ∃ w p, Runs step Meets boot w ∧ (nodeC, p, ascii "4") ∈ w.returned ∧
      OwnAnswer w nodeC p (ascii "4") := by
  have run : Runs step Meets boot _ :=
    Runs.of_checked (fun w e => decide (Meets w e)) (fun _ _ => of_decide_eq_true) oneCall rfl
  exact ⟨_, _, run, List.mem_cons_self, runs_own_answer run List.mem_cons_self⟩

/-- The node waits for `nodeA` when a method that it runs meanwhile calls `nodeB`;
the answer of `nodeB` ends both waits. -/
private def nested : List Event :=
  [ask nodeA "prev", ask nodeB "next", .deliver nodeB 1 published, .finish nodeB 0 0 (ascii "4"),
    .deliver nodeC 2 published, .take nodeC 1, .take nodeC 0]

/-- The outer call returns the answer to the inner one. -/
theorem nested_call_takes_answer :
    ¬ ∀ w, Runs step (fun _ _ => True) boot w → ∀ c p text, (c, p, text) ∈ w.returned →
      OwnAnswer w c p text := by
  intro all
  have run : Runs step (fun _ _ => True) boot _ := Runs.of_steps nested (fun _ _ _ => trivial) rfl
  obtain ⟨r, known, accepted, _⟩ := all _ run nodeC
    ⟨1, nodeA, 9010, ascii "calc", ascii "prev", ascii "3", 64⟩ (ascii "4")
    (List.mem_cons_of_mem _ List.mem_cons_self)
  obtain rfl := List.mem_singleton.mp known
  exact absurd accepted (by decide)

end XinuRpi5.System.AiplOwnAnswer
