/- source: device/wifi/wifi.c
   digest: Hop counts fall along next hops, so no packet meets a node twice. -/

import XinuRpi5.Lib.GuardedRuns
import XinuRpi5.Wifi.Aodv
import Mathlib.Data.Fintype.Card

namespace XinuRpi5.Wifi.AodvLoopFree

open Lib.GuardedRuns Aodv

section Tables

variable {t : Table} {d e nh : Ip} {hops : UInt8} {seq : UInt32} {i : Fin 16}

def Distinct (t : Table) : Prop :=
  ∀ i j, (t i).valid → (t j).valid → (t i).dst = (t j).dst → i = j

def Room (t : Table) (d : Ip) : Prop := findSlot t d = none → ∃ i, (t i).valid = false

theorem findSlot_some (found : findSlot t d = some i) : (t i).valid = true ∧ (t i).dst = d := by
  simpa using List.find?_some found

theorem findSlot_of_distinct (distinct : Distinct t) (valid : (t i).valid = true)
    (here : (t i).dst = d) : findSlot t d = some i := by
  cases found : findSlot t d with
  | none =>
    have nowhere := List.find?_eq_none.mp found i (List.mem_finRange i)
    simp [valid, here] at nowhere
  | some j =>
    obtain ⟨validJ, hereJ⟩ := findSlot_some found
    rw [distinct j i validJ valid (hereJ.trans here.symm)]

theorem findSlot_none (missing : findSlot t d = none) (valid : (t i).valid = true) :
    (t i).dst ≠ d := by
  have nowhere := List.find?_eq_none.mp missing i (List.mem_finRange i)
  simpa [valid] using nowhere

theorem addSlot_cases (room : Room t d) :
    findSlot t d = some (addSlot t d) ∨
      findSlot t d = none ∧ (t (addSlot t d)).valid = false := by
  unfold addSlot
  cases found : findSlot t d with
  | some i => exact .inl rfl
  | none =>
    obtain ⟨i, free⟩ := room found
    refine .inr ⟨rfl, ?_⟩
    cases first : (List.finRange 16).find? fun i => ¬ (t i).valid with
    | none =>
      have nowhere := List.find?_eq_none.mp first i (List.mem_finRange i)
      simp [free] at nowhere
    | some j => simpa using List.find?_some first

theorem aodvAdd_cases (room : Room t d) :
    (∃ r, aodvFind t d = some r ∧ r.hops ≤ hops ∧ aodvAdd t d nh hops seq = t) ∨
    ((∀ r, aodvFind t d = some r → hops < r.hops) ∧
      aodvAdd t d nh hops seq = Function.update t (addSlot t d) ⟨d, nh, hops, seq, true⟩) := by
  unfold aodvAdd
  rcases addSlot_cases room with own | ⟨missing, free⟩
  · obtain ⟨valid, here⟩ := findSlot_some own
    have entry : aodvFind t d = some (t (addSlot t d)) := by simp [aodvFind, own]
    by_cases short : (t (addSlot t d)).hops ≤ hops
    · refine .inl ⟨_, entry, short, ?_⟩
      simp [valid, short, here]
    · refine .inr ⟨fun r found => ?_, ?_⟩
      · obtain rfl := Option.some.inj (entry.symm.trans found)
        exact UInt8.not_le.mp short
      · simp [short]
  · refine .inr ⟨fun r found => ?_, ?_⟩
    · simp [aodvFind, missing] at found
    · simp [free]

theorem aodvAdd_distinct (distinct : Distinct t) (room : Room t d) :
    Distinct (aodvAdd t d nh hops seq) := by
  rcases @aodvAdd_cases t d nh hops seq room with ⟨r, _, _, kept⟩ | ⟨_, stored⟩
  · rw [kept]
    exact distinct
  · have others : ∀ j, j ≠ addSlot t d → (t j).valid = true → (t j).dst ≠ d := by
      intro j apart valid same
      rcases addSlot_cases room with own | ⟨missing, _⟩
      · obtain ⟨validOwn, here⟩ := findSlot_some own
        exact apart (distinct j _ valid validOwn (same.trans here.symm))
      · exact findSlot_none missing valid same
    rw [stored]
    intro i j validI validJ same
    by_cases slotI : i = addSlot t d
    · by_cases slotJ : j = addSlot t d
      · rw [slotI, slotJ]
      · simp only [slotI, Function.update_self, Function.update_of_ne slotJ] at validJ same
        exact absurd same.symm (others j slotJ validJ)
    · by_cases slotJ : j = addSlot t d
      · simp only [slotJ, Function.update_self, Function.update_of_ne slotI] at validI same
        exact absurd same (others i slotI validI)
      · simp only [Function.update_of_ne slotI, Function.update_of_ne slotJ] at validI validJ same
        exact distinct i j validI validJ same

theorem aodvFind_add_self (distinct : Distinct t) (room : Room t d) :
    ∃ r, aodvFind (aodvAdd t d nh hops seq) d = some r ∧ r.hops ≤ hops ∧
      (∀ old, aodvFind t d = some old → r.hops ≤ old.hops) ∧
      (aodvFind t d = some r ∨ r.nh = nh ∧ r.hops = hops) := by
  rcases @aodvAdd_cases t d nh hops seq room with ⟨r, found, short, kept⟩ | ⟨longer, stored⟩
  · refine ⟨r, ?_, short, fun old was => ?_, .inl found⟩
    · rw [kept]
      exact found
    · obtain rfl := Option.some.inj (found.symm.trans was)
      exact UInt8.le_refl _
  · have after := @aodvAdd_distinct t d nh hops seq distinct room
    refine ⟨⟨d, nh, hops, seq, true⟩, ?_, UInt8.le_refl _, fun old was => ?_, .inr ⟨rfl, rfl⟩⟩
    · rw [stored] at after ⊢
      have slot : findSlot (Function.update t (addSlot t d) ⟨d, nh, hops, seq, true⟩) d =
          some (addSlot t d) := findSlot_of_distinct after (by simp) (by simp)
      simp [aodvFind, slot]
    · exact UInt8.le_of_lt (longer old was)

theorem aodvFind_add_other (room : Room t d) (other : e ≠ d) :
    aodvFind (aodvAdd t d nh hops seq) e = aodvFind t e := by
  rcases @aodvAdd_cases t d nh hops seq room with ⟨_, _, _, kept⟩ | ⟨_, stored⟩
  · rw [kept]
  · have before : ¬ ((t (addSlot t d)).valid = true ∧ (t (addSlot t d)).dst = e) := by
      rintro ⟨valid, here⟩
      rcases addSlot_cases room with own | ⟨_, free⟩
      · exact other (here.symm.trans (findSlot_some own).2)
      · rw [free] at valid
        cases valid
    have slots : findSlot (aodvAdd t d nh hops seq) e = findSlot t e := by
      rw [stored]
      unfold findSlot
      congr 1
      funext i
      by_cases here : i = addSlot t d
      · subst here
        simp [other.symm, before]
      · simp [Function.update_of_ne here]
    unfold aodvFind
    rw [slots]
    cases found : findSlot t e with
    | none => rfl
    | some i =>
      have apart : i ≠ addSlot t d := by
        rintro rfl
        exact before (findSlot_some found)
      rw [stored]
      simp [Function.update_of_ne apart]

theorem aodvAdd_dst {S : Finset Ip} (inside : ∀ i, (t i).valid = true → (t i).dst ∈ S)
    (listed : d ∈ S) (i : Fin 16) (valid : (aodvAdd t d nh hops seq i).valid = true) :
    (aodvAdd t d nh hops seq i).dst ∈ S := by
  unfold aodvAdd at valid ⊢
  split_ifs at valid ⊢ with kept
  · exact inside i valid
  · by_cases slot : i = addSlot t d
    · simpa [slot] using listed
    · simp only [Function.update_of_ne slot] at valid ⊢
      exact inside i valid

theorem room_of_card {S : Finset Ip} (distinct : Distinct t)
    (inside : ∀ i, (t i).valid = true → (t i).dst ∈ S) (few : S.card ≤ 16) (listed : d ∈ S) :
    Room t d := by
  intro missing
  by_contra full
  have valid : ∀ i, (t i).valid = true := by
    intro i
    by_contra free
    exact full ⟨i, by simpa using free⟩
  have sub : Finset.univ.image (fun i => (t i).dst) ⊆ S.erase d := by
    intro x image
    obtain ⟨i, _, rfl⟩ := Finset.mem_image.mp image
    exact Finset.mem_erase.mpr ⟨findSlot_none missing (valid i), inside i (valid i)⟩
  have injective : Function.Injective fun i => (t i).dst :=
    fun i j same => distinct i j (valid i) (valid j) same
  have count := Finset.card_le_card sub
  rw [Finset.card_image_of_injective _ injective, Finset.card_univ, Fintype.card_fin,
    Finset.card_erase_of_mem listed] at count
  have positive := Finset.card_pos.mpr ⟨d, listed⟩
  omega

end Tables

def subject (p : Msg) : Ip := if p.type = aodvRreq then p.orig else p.dst

/-- `n` is `d`, or has a route to it of at most `k` hops. -/
def Near (net : Net) (n d : Ip) (k : Nat) : Prop :=
  n = d ∨ ∃ r, aodvFind (net.nodes n).rt d = some r ∧ r.hops.toNat ≤ k

def Carries (f : Frame) : Prop :=
  Control f ∧ (f.body.type = aodvRreq ∨ f.body.type = aodvRrep)

/-- Routes fall towards their destinations, and so does what is on the air. -/
structure Inv (D : Ip → Finset Ip) (net : Net) : Prop where
  distinct : ∀ n, Distinct (net.nodes n).rt
  inside : ∀ n i, ((net.nodes n).rt i).valid = true → ((net.nodes n).rt i).dst ∈ D n
  falls : ∀ n d r, aodvFind (net.nodes n).rt d = some r →
    ∃ k, r.hops.toNat = k + 1 ∧ Near net r.nh d k
  air : ∀ f ∈ net.air, Carries f → Near net f.src (subject f.body) f.body.hop.toNat

structure Told (me : Ip) (f g : Frame) : Prop where
  src : g.src = me
  about : subject g.body = me ∨
    subject g.body = subject f.body ∧ g.body.hop = f.body.hop + 1

/-- `aodv_ip_in` leaves the table alone, or takes over what the message says and
passes it on. -/
theorem aodvIpIn_spec (me : Ip) (n : Node) (f : Frame) (env : Env) :
    ((aodvIpIn me n f env).1.rt = n.rt ∧
      ∀ g, (aodvIpIn me n f env).2.1 = some g → ¬ Control g) ∨
    (Carries f ∧ (aodvIpIn me n f env).1.rt =
        aodvAdd n.rt (subject f.body) f.src (f.body.hop + 1) f.body.seq ∧
      ∀ g, (aodvIpIn me n f env).2.1 = some g → Told me f g) := by
  unfold aodvIpIn
  by_cases udp : f.proto = 17
  · rw [if_pos udp]
    by_cases port : f.dport = aodvPort
    · rw [if_neg (by simpa using port)]
      have control : Control f := ⟨udp, port⟩
      by_cases request : f.body.type = aodvRreq
      · simp only [if_pos request]
        have about : subject f.body = f.body.orig := if_pos request
        split_ifs with seen mine
        · exact .inl ⟨rfl, by rintro g ⟨⟩⟩
        · refine .inr ⟨⟨control, .inl request⟩, by rw [about]; rfl, ?_⟩
          rintro g ⟨⟩
          exact ⟨rfl, .inl rfl⟩
        · refine .inr ⟨⟨control, .inl request⟩, by rw [about]; rfl, ?_⟩
          rintro g ⟨⟩
          exact ⟨rfl, .inr ⟨rfl, rfl⟩⟩
      · simp only [if_neg request]
        have about : subject f.body = f.body.dst := if_neg request
        by_cases reply : f.body.type = aodvRrep
        · simp only [if_pos reply]
          refine .inr ⟨⟨control, .inr reply⟩, ?_⟩
          rw [about]
          by_cases mine : f.body.orig = me
          · rw [if_pos mine]
            exact ⟨rfl, by rintro g ⟨⟩⟩
          · rw [if_neg mine]
            cases aodvFind (aodvAdd n.rt f.body.dst f.src (f.body.hop + 1) f.body.seq)
              f.body.orig with
            | none => exact ⟨rfl, by rintro g ⟨⟩⟩
            | some rr =>
              cases env.arp with
              | false => exact ⟨rfl, by rintro g ⟨⟩⟩
              | true =>
                refine ⟨rfl, ?_⟩
                rintro g ⟨⟩
                exact ⟨rfl, .inr ⟨rfl, rfl⟩⟩
        · simp only [if_neg reply]
          exact .inl ⟨trivial, by rintro g ⟨⟩⟩
    · rw [if_pos (by simpa using port)]
      exact .inl ⟨rfl, by rintro g ⟨⟩⟩
  · rw [if_neg udp]
    have other : ¬ Control f := fun control => udp control.1
    refine .inl ?_
    by_cases transit : f.dst ≠ me ∧ f.dst.a ≠ 255
    · rw [if_pos transit]
      cases aodvFind n.rt f.dst with
      | none => exact ⟨rfl, by rintro g ⟨⟩⟩
      | some r =>
        cases env.arp with
        | false => exact ⟨rfl, by rintro g ⟨⟩⟩
        | true =>
          refine ⟨rfl, ?_⟩
          rintro g ⟨⟩
          exact other
    · rw [if_neg transit]
      exact ⟨rfl, by rintro g ⟨⟩⟩

/-- A received message is about one of the node's destinations and has
travelled fewer than 255 hops. -/
def Within (D : Ip → Finset Ip) (_ : Net) : Event → Prop
  | .receive me f _ => Carries f → subject f.body ∈ D me ∧ f.body.hop.toNat + 1 < 255
  | _ => True

section Steps

variable {D : Ip → Finset Ip} {net net' : Net}

theorem Near.mono {n d : Ip} {k : Nat} (near : Near net n d k)
    (shorter : ∀ old, aodvFind (net.nodes n).rt d = some old →
      ∃ r, aodvFind (net'.nodes n).rt d = some r ∧ r.hops ≤ old.hops) : Near net' n d k := by
  rcases near with same | ⟨old, found, small⟩
  · exact .inl same
  · obtain ⟨r, now, less⟩ := shorter old found
    exact .inr ⟨r, now, (UInt8.le_iff_toNat_le.mp less).trans small⟩

theorem Inv.same_tables (inv : Inv D net)
    (same : ∀ n, (net'.nodes n).rt = (net.nodes n).rt)
    (air : ∀ f ∈ net'.air, Carries f → f ∈ net.air ∨ f.src = subject f.body) : Inv D net' := by
  have mono : ∀ n d k, Near net n d k → Near net' n d k := by
    intro n d k near
    apply near.mono
    intro old found
    rw [same n]
    exact ⟨old, found, UInt8.le_refl _⟩
  refine ⟨fun n => ?_, fun n => ?_, fun n d r found => ?_, fun f listed carries => ?_⟩
  · rw [same n]
    exact inv.distinct n
  · rw [same n]
    exact inv.inside n
  · rw [same n] at found
    obtain ⟨k, hops, near⟩ := inv.falls n d r found
    exact ⟨k, hops, mono _ _ _ near⟩
  · rcases air f listed carries with old | own
    · exact mono _ _ _ (inv.air f old carries)
    · exact .inl own

/-- Taking over a route that falls. -/
theorem Inv.add {me d src : Ip} {hop : UInt8} {seq : UInt32} {n : Node} (inv : Inv D net)
    (few : (D me).card ≤ 16) (listed : d ∈ D me) (short : hop.toNat + 1 < 255)
    (near : Near net src d hop.toNat) (table : n.rt = aodvAdd (net.nodes me).rt d src (hop + 1) seq) :
    let net' : Net := ⟨Function.update net.nodes me n, net.air⟩
    Inv D net' ∧ Near net' me d (hop.toNat + 1) := by
  intro net'
  have room := room_of_card (inv.distinct me) (inv.inside me) few listed
  have grown : (hop + 1).toNat = hop.toNat + 1 := by
    rw [UInt8.toNat_add]
    exact Nat.mod_eq_of_lt (by simpa using Nat.lt_trans short (by decide))
  obtain ⟨r, found, least, shorter, source⟩ :=
    @aodvFind_add_self (net.nodes me).rt d src (hop + 1) seq (inv.distinct me) room
  have here : (net'.nodes me).rt = aodvAdd (net.nodes me).rt d src (hop + 1) seq := by
    simp only [net', Function.update_self, table]
  have away : ∀ m, m ≠ me → (net'.nodes m).rt = (net.nodes m).rt := by
    intro m other
    simp only [net', Function.update_of_ne other]
  have others : ∀ m e, ¬ (m = me ∧ e = d) →
      aodvFind (net'.nodes m).rt e = aodvFind (net.nodes m).rt e := by
    intro m e apart
    by_cases same : m = me
    · subst same
      rw [here]
      exact aodvFind_add_other room fun equal => apart ⟨rfl, equal⟩
    · rw [away m same]
  have mono : ∀ m e k, Near net m e k → Near net' m e k := by
    intro m e k old
    apply old.mono
    intro was before
    by_cases both : m = me ∧ e = d
    · obtain ⟨rfl, rfl⟩ := both
      rw [here]
      exact ⟨r, found, shorter was before⟩
    · rw [others m e both]
      exact ⟨was, before, UInt8.le_refl _⟩
  refine ⟨⟨fun m => ?_, fun m => ?_, fun m e q now => ?_, fun f flying carries => ?_⟩, ?_⟩
  · by_cases same : m = me
    · rw [same, here]
      exact aodvAdd_distinct (inv.distinct me) room
    · rw [away m same]
      exact inv.distinct m
  · by_cases same : m = me
    · rw [same, here]
      exact aodvAdd_dst (inv.inside me) listed
    · rw [away m same]
      exact inv.inside m
  · by_cases both : m = me ∧ e = d
    · obtain ⟨rfl, rfl⟩ := both
      rw [here] at now
      obtain rfl := Option.some.inj (found.symm.trans now)
      rcases source with old | ⟨via, hops⟩
      · obtain ⟨k, count, further⟩ := inv.falls m e r old
        exact ⟨k, count, mono _ _ _ further⟩
      · refine ⟨hop.toNat, ?_, ?_⟩
        · rw [hops, grown]
        · rw [via]
          exact mono _ _ _ near
    · rw [others m e both] at now
      obtain ⟨k, count, further⟩ := inv.falls m e q now
      exact ⟨k, count, mono _ _ _ further⟩
  · exact mono _ _ _ (inv.air f flying carries)
  · refine .inr ⟨r, ?_, ?_⟩
    · rw [here]
      exact found
    · rw [← grown]
      exact UInt8.le_iff_toNat_le.mp least

private theorem inv_discover {me dst : Ip} (inv : Inv D net)
    (next : step net (.discover me dst) = some net') : Inv D net' := by
  obtain rfl := Option.some.inj next
  refine inv.same_tables (fun n => ?_) (fun f flying _ => ?_)
  · by_cases same : n = me
    · subst same
      simp [aodvRemember]
    · simp [Function.update_of_ne same]
  · rcases List.mem_cons.mp flying with rfl | old
    · exact .inr rfl
    · exact .inl old

private theorem inv_receive {me : Ip} {f : Frame} {env : Env} (few : (D me).card ≤ 16)
    (inv : Inv D net) (within : Within D net (.receive me f env))
    (next : step net (.receive me f env) = some net') : Inv D net' := by
  simp only [step] at next
  by_cases flying : f ∈ net.air
  · rw [if_pos flying] at next
    obtain rfl := Option.some.inj next
    rcases aodvIpIn_spec me (net.nodes me) f env with ⟨kept, other⟩ | ⟨carries, table, told⟩
    · refine inv.same_tables (fun n => ?_) (fun g listed control => ?_)
      · by_cases same : n = me
        · subst same
          simp [kept]
        · simp [Function.update_of_ne same]
      · rcases List.mem_append.mp listed with sent | old
        · exact absurd control.1 (other g (Option.mem_toList.mp sent))
        · exact .inl old
    · obtain ⟨listed, short⟩ := within carries
      obtain ⟨grown, reached⟩ := inv.add few listed short (inv.air f flying carries) table
      refine ⟨grown.distinct, grown.inside, grown.falls, fun g listed control => ?_⟩
      rcases List.mem_append.mp listed with sent | old
      · obtain ⟨src, about⟩ := told g (Option.mem_toList.mp sent)
        rw [src]
        rcases about with own | ⟨same, hop⟩
        · exact .inl own.symm
        · have count : g.body.hop.toNat = f.body.hop.toNat + 1 := by
            rw [hop, UInt8.toNat_add]
            exact Nat.mod_eq_of_lt (by simpa using Nat.lt_trans short (by decide))
          rw [same, count]
          exact reached
      · exact grown.air g old control
  · rw [if_neg flying] at next
    cases next

private theorem inv_traffic {f : Frame} (inv : Inv D net)
    (next : step net (.traffic f) = some net') : Inv D net' := by
  simp only [step] at next
  by_cases control : Control f
  · rw [if_pos control] at next
    cases next
  · rw [if_neg control] at next
    obtain rfl := Option.some.inj next
    refine inv.same_tables (fun _ => rfl) (fun g listed carries => ?_)
    rcases List.mem_cons.mp listed with rfl | old
    · exact absurd carries.1 control
    · exact .inl old

theorem inv_step {ev : Event} (few : ∀ n, (D n).card ≤ 16) (inv : Inv D net)
    (within : Within D net ev) (next : step net ev = some net') : Inv D net' := by
  cases ev with
  | discover me dst => exact inv_discover inv next
  | receive me f env => exact inv_receive (few me) inv within next
  | traffic f => exact inv_traffic inv next

theorem inv_powerOn : Inv D powerOn := by
  have nothing : ∀ n d, aodvFind (powerOn.nodes n).rt d = none := by
    intro n d
    have slot : findSlot (powerOn.nodes n).rt d = none := by
      refine List.find?_eq_none.mpr fun i _ => ?_
      simp [powerOn]
    simp [aodvFind, slot]
  refine ⟨fun n i j valid => ?_, fun n i valid => ?_, fun n d r found => ?_, ?_⟩
  · cases valid
  · cases valid
  · rw [nothing] at found
    cases found
  · intro f listed
    cases listed

def distance (net : Net) (d n : Ip) : Nat :=
  if n = d then 0 else ((aodvFind (net.nodes n).rt d).map fun r => r.hops.toNat).getD 0

theorem distance_falls {d n m : Ip} (inv : Inv D net) (follows : Follows net d n m) :
    distance net d m < distance net d n := by
  obtain ⟨other, r, found, rfl⟩ := follows
  obtain ⟨k, hops, near⟩ := inv.falls n d r found
  have start : distance net d n = k + 1 := by simp [distance, other, found, hops]
  rw [start]
  rcases near with arrived | ⟨q, next, small⟩
  · simp [distance, arrived]
  · unfold distance
    split_ifs
    · omega
    · rw [next]
      exact Nat.lt_succ_of_le small

end Steps

/-- In every state that the nodes can reach, following the next hops towards a
destination meets no node twice. -/
theorem runs_loop_free (D : Ip → Finset Ip) (few : ∀ n, (D n).card ≤ 16) {net : Net}
    (run : Runs step (Within D) powerOn net) (d : Ip) (path : List Ip)
    (follows : path.IsChain (Follows net d)) : path.Nodup := by
  have inv : Inv D net := run.invariant inv_powerOn fun _ _ _ held within next =>
    inv_step few held within next
  have falling : path.IsChain fun n m => distance net d m < distance net d n :=
    follows.imp fun n m hop => distance_falls inv hop
  have ordered : path.Pairwise fun n m => distance net d m < distance net d n := by
    have : IsTrans Ip fun n m => distance net d m < distance net d n :=
      ⟨fun _ _ _ first second => Nat.lt_trans second first⟩
    exact List.isChain_iff_pairwise.mp falling
  refine ordered.imp fun less same => ?_
  rw [same] at less
  exact Nat.lt_irrefl _ less

def exchange : List Event :=
  let env : Env := ⟨false, true, 0⟩
  [.discover ⟨10, 0, 0, 1⟩ ⟨10, 0, 0, 2⟩,
    .receive ⟨10, 0, 0, 2⟩
      (udpTx ⟨10, 0, 0, 1⟩ broadcast ⟨1, 1, ⟨10, 0, 0, 1⟩, ⟨10, 0, 0, 2⟩, 1, 0⟩) env,
    .receive ⟨10, 0, 0, 1⟩
      (udpTx ⟨10, 0, 0, 2⟩ ⟨10, 0, 0, 1⟩ ⟨2, 0, ⟨10, 0, 0, 1⟩, ⟨10, 0, 0, 2⟩, 1, 0⟩) env]

theorem runs_loop_free_two_boards : ∃ net,
    Runs step (Within fun _ => {⟨10, 0, 0, 1⟩, ⟨10, 0, 0, 2⟩}) powerOn net ∧
      [⟨10, 0, 0, 1⟩, ⟨10, 0, 0, 2⟩].IsChain (Follows net ⟨10, 0, 0, 2⟩) ∧
      [(⟨10, 0, 0, 1⟩ : Ip), ⟨10, 0, 0, 2⟩].Nodup := by
  obtain ⟨net, played, route⟩ : ∃ net, exchange.foldlM step powerOn = some net ∧
      aodvFind (net.nodes ⟨10, 0, 0, 1⟩).rt ⟨10, 0, 0, 2⟩ =
        some ⟨⟨10, 0, 0, 2⟩, ⟨10, 0, 0, 2⟩, 1, 1, true⟩ := ⟨_, rfl, by decide⟩
  have run : Runs step (Within fun _ => {⟨10, 0, 0, 1⟩, ⟨10, 0, 0, 2⟩}) powerOn net := by
    refine Runs.of_steps exchange (fun s ev listed => ?_) played
    simp only [exchange, List.mem_cons, List.not_mem_nil, or_false] at listed
    rcases listed with rfl | rfl | rfl
    · trivial
    · exact fun _ => ⟨by decide, by decide⟩
    · exact fun _ => ⟨by decide, by decide⟩
  have chain : [⟨10, 0, 0, 1⟩, ⟨10, 0, 0, 2⟩].IsChain (Follows net ⟨10, 0, 0, 2⟩) := by
    have hop : Follows net ⟨10, 0, 0, 2⟩ ⟨10, 0, 0, 1⟩ ⟨10, 0, 0, 2⟩ := ⟨by decide, _, route, rfl⟩
    exact List.isChain_cons_cons.mpr ⟨hop, .singleton _⟩
  exact ⟨net, run, chain, runs_loop_free _ (fun _ => by decide) run ⟨10, 0, 0, 2⟩ _ chain⟩

end XinuRpi5.Wifi.AodvLoopFree
