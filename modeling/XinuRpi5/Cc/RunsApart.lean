/- source: cc/cc.c
   digest: Runs that start from states which differ only in unused reply slots are the same. -/

import XinuRpi5.Cc.Runtime

namespace XinuRpi5.Cc.RunsApart

open ActorQueue (asInt LiveAt)
open SelectRuns (vInt)
open Cc.Runtime

section Slots

/-- The same slots are in use, and the contents are the same where a run can still look: in the
slots in use, the current one, those on the stack and those that a `cc_now_pop` waits for. -/
structure Alike (waited : List (Fin 32)) (x y : Slots) : Prop where
  rcur : y.rcur = x.rcur
  rstack : y.rstack = x.rstack
  used : ∀ i, (y.rslot i).used = (x.rslot i).used
  same : ∀ i, (x.rslot i).used = true ∨ x.rcur = some i ∨ some i ∈ x.rstack.items ∨ i ∈ waited →
    y.rslot i = x.rslot i

variable {waited : List (Fin 32)} {x y : Slots}

section

variable (alike : Alike waited x y)

include alike

theorem Alike.alloc : rslotAlloc y.rslot = rslotAlloc x.rslot := by
  unfold rslotAlloc
  simp only [alike.used]

theorem Alike.update (i : Fin 32) (slot : RSlot) :
    Alike waited { x with rslot := Function.update x.rslot i slot }
      { y with rslot := Function.update y.rslot i slot } := by
  refine ⟨alike.rcur, alike.rstack, fun j => ?_, fun j seen => ?_⟩
  · by_cases here : j = i
    · rw [here]
      simp only [Function.update_self]
    · simp only [Function.update_of_ne here]
      exact alike.used j
  · by_cases here : j = i
    · rw [here]
      simp only [Function.update_self]
    · simp only [Function.update_of_ne here] at seen ⊢
      exact alike.same j seen

theorem Alike.moved {rcur : Option (Fin 32)} {rstack : Stack (Option (Fin 32))}
    (reach : ∀ j, rcur = some j ∨ some j ∈ rstack.items →
      (x.rslot j).used = true ∨ x.rcur = some j ∨ some j ∈ x.rstack.items) :
    Alike waited ⟨x.rslot, rcur, rstack⟩ ⟨y.rslot, rcur, rstack⟩ := by
  refine ⟨rfl, rfl, alike.used, fun j seen => alike.same j ?_⟩
  rcases seen with used | current | listed | wait
  · exact Or.inl used
  · rcases reach j (Or.inl current) with used | current | listed
    · exact Or.inl used
    · exact Or.inr (Or.inl current)
    · exact Or.inr (Or.inr (Or.inl listed))
  · rcases reach j (Or.inr listed) with used | current | listed
    · exact Or.inl used
    · exact Or.inr (Or.inl current)
    · exact Or.inr (Or.inr (Or.inl listed))
  · exact Or.inr (Or.inr (Or.inr wait))

theorem Alike.push : Alike waited (pushSlot x) (pushSlot y) := by
  unfold pushSlot
  rw [alike.alloc, alike.rcur, alike.rstack]
  have kept (j : Fin 32) (listed : some j ∈ (x.rstack.push x.rcur).items) :
      x.rcur = some j ∨ some j ∈ x.rstack.items := by
    unfold Stack.push at listed
    split_ifs at listed with room
    · exact (List.mem_cons.mp listed).imp Eq.symm id
    · exact Or.inr listed
  cases slot : rslotAlloc x.rslot with
  | none =>
    refine alike.moved fun j seen => Or.inr ?_
    exact seen.elim (fun none => absurd none (by simp)) (kept j)
  | some i =>
    refine (alike.update i ⟨true, false, false, vInt 0⟩).moved fun j seen => ?_
    rcases seen with current | listed
    · obtain rfl := Option.some.inj current
      left
      simp only [Function.update_self]
    · exact Or.inr (kept j listed)

theorem Alike.pop :
    Alike (x.rcur.toList ++ waited) (popSlot x) (popSlot y) := by
  unfold popSlot
  rw [alike.rstack]
  have wider : Alike (x.rcur.toList ++ waited) x y := by
    refine ⟨alike.rcur, alike.rstack, alike.used, fun j seen => alike.same j ?_⟩
    rcases seen with used | current | listed | wait
    · exact Or.inl used
    · exact Or.inr (Or.inl current)
    · exact Or.inr (Or.inr (Or.inl listed))
    · rcases List.mem_append.mp wait with current | wait
      · exact Or.inr (Or.inl (by simpa using current))
      · exact Or.inr (Or.inr (Or.inr wait))
  refine wider.moved fun j seen => Or.inr (Or.inr ?_)
  change x.rstack.items.headD none = some j ∨ some j ∈ x.rstack.items.tail at seen
  cases stack : x.rstack.items with
  | nil =>
    rw [stack] at seen
    simp at seen
  | cons top rest =>
    rw [stack] at seen
    simpa [eq_comm] using seen

end

theorem Alike.free {i : Fin 32} (alike : Alike (i :: waited) x y) :
    Alike waited (rslotFree x i) (rslotFree y i) := by
  have same : y.rslot i = x.rslot i :=
    alike.same i (Or.inr (Or.inr (Or.inr List.mem_cons_self)))
  unfold rslotFree
  rw [same]
  have wide := alike.update i { x.rslot i with used := false }
  refine ⟨wide.rcur, wide.rstack, wide.used, fun j seen => wide.same j ?_⟩
  exact seen.imp id (Or.imp id (Or.imp id (List.mem_cons_of_mem i)))

end Slots

section Runs

variable {env : Env} {blob : Blob}

def Same (waited : List (Fin 32)) (u v : Machine × Int) : Prop :=
  v.1.st = u.1.st ∧ Alike waited u.1.slots v.1.slots ∧ v.2 = u.2

theorem rel_bind {α β : Type} {r : α → α → Prop} {q : β → β → Prop} {a b : Option α}
    {f g : α → Option β} (first : Option.Rel r a b)
    (next : ∀ u v, r u v → Option.Rel q (f u) (g v)) : Option.Rel q (a.bind f) (b.bind g) := by
  cases first with
  | none => exact .none
  | some related => exact next _ _ related

/-- The slot that a loop of `cc_now_pop` looks at. -/
def waits : Task → List (Fin 32)
  | .settle _ slot _ => [slot]
  | _ => []

/-- What a part of a program does from a state is what it does from one that is alike. -/
theorem exec_alike (n : Nat) : ∀ (task : Task) (waited : List (Fin 32)) (s : State) (x y : Slots),
    Alike (waits task ++ waited) x y →
    Option.Rel (Same waited) (exec env blob n task ⟨s, x⟩) (exec env blob n task ⟨s, y⟩) := by
  induction n with
  | zero => exact fun task waited s x y alike => .none
  | succ n ih =>
    -- the rest of a program, after a part with the same outcome
    have next (waited : List (Fin 32)) (p : Int → Prog) (f : Machine × Int → Machine)
        (v : Machine × Int → Int)
        (state : ∀ a b : Machine × Int, Same waited a b → (f b).st = (f a).st ∧
          Alike waited (f a).slots (f b).slots ∧ v b = v a) (a b : Machine × Int)
        (same : Same waited a b) :
        Option.Rel (Same waited) (exec env blob n (.prog (p (v a))) (f a))
          (exec env blob n (.prog (p (v b))) (f b)) := by
      obtain ⟨st, slots, value⟩ := state a b same
      rw [value, show f b = ⟨(f a).st, (f b).slots⟩ by rw [← st]]
      exact ih (.prog (p (v a))) waited (f a).st (f a).slots (f b).slots slots
    intro task waited s x y alike
    cases task with
    | prog p =>
      have alike : Alike waited x y := alike
      cases p with
      | ret v => exact .some ⟨rfl, alike, rfl⟩
      | prim a k => exact ih (.prog _) waited _ x y alike
      | apply id arg k =>
        cases code : blob.apply with
        | none =>
          simp only [exec, code]
          exact ih (.prog _) waited s x y alike
        | some apply =>
          simp only [exec, code]
          refine rel_bind (ih (.prog _) waited s x y alike) ?_
          exact next waited k Prod.fst Prod.snd fun _ _ same => same
      | call dst mid a0 a1 a2 a3 k =>
        simp only [exec]
        split_ifs with live
        · refine rel_bind (ih (.prog _) waited _ x y alike) ?_
          exact next waited k Prod.fst Prod.snd fun _ _ same => same
        · exact ih (.prog _) waited s x y alike
      | future dst mid a0 a1 a2 a3 k =>
        simp only [exec]
        cases (List.finRange 8).find? fun i => !(s.fut i).used with
        | none => exact ih (.prog _) waited _ x y alike
        | some i =>
          refine rel_bind (ih (.prog _) waited _ x y alike) ?_
          refine next waited (fun _ => k (vInt (i : Nat))) (fun u => { u.1 with
            st.fut := Function.update u.1.st.fut i { u.1.st.fut i with val := u.2 } })
            Prod.snd ?_
          rintro a b ⟨st, slots, value⟩
          refine ⟨?_, slots, value⟩
          dsimp only
          rw [st, value]
      | pumpNow k =>
        simp only [exec]
        refine rel_bind (ih .pump waited s x y alike) ?_
        exact next waited (fun _ => k (vInt 0)) Prod.fst Prod.snd fun _ _ same => same
      | nowPush k => exact ih (.prog _) waited _ _ _ alike.push
      | replyto k =>
        simp only [exec, replyto]
        rw [alike.rcur]
        cases current : x.rcur with
        | none => exact ih (.prog _) waited s x y alike
        | some i =>
          have same : y.rslot i = x.rslot i := alike.same i (Or.inr (Or.inl current))
          have taken := alike.update i { x.rslot i with taken := true }
          rw [alike.rcur, current] at taken
          dsimp only
          rw [same]
          exact ih (.prog _) waited s _ _ taken
      | answer r v k =>
        simp only [exec, answer]
        cases index 32 r with
        | none => exact ih (.prog _) waited _ x y alike
        | some i =>
          dsimp only
          rw [alike.used i]
          by_cases free : (!(x.rslot i).used) = true
          · rw [if_pos free, if_pos free]
            exact ih (.prog _) waited _ x y alike
          rw [if_neg free, if_neg free]
          have same : y.rslot i = x.rslot i := alike.same i (Or.inl (by simpa using free))
          rw [same]
          by_cases filled : (x.rslot i).filled = true
          · rw [if_pos filled, if_pos filled]
            exact ih (.prog _) waited _ x y alike
          · rw [if_neg filled, if_neg filled]
            exact ih (.prog _) waited s _ _
              (alike.update i { x.rslot i with filled := true, val := v })
      | nowPop r k =>
        have popped := alike.pop
        simp only [exec]
        rw [alike.rcur]
        cases current : x.rcur with
        | none =>
          rw [current] at popped
          exact ih (.prog _) waited _ _ _ popped
        | some i =>
          have same : y.rslot i = x.rslot i := alike.same i (Or.inr (Or.inl current))
          rw [current] at popped
          dsimp only
          rw [same]
          by_cases taken : (x.rslot i).taken = true
          · rw [if_pos taken, if_pos taken]
            refine rel_bind (ih (.settle 64 i r) waited _ _ _ popped) ?_
            exact next waited k Prod.fst Prod.snd fun _ _ same => same
          · rw [if_neg taken, if_neg taken]
            exact ih (.prog _) waited _ _ _ popped.free
    | pump =>
      have alike : Alike waited x y := alike
      simp only [exec]
      cases s.mq with
      | nil => exact .some ⟨rfl, alike, rfl⟩
      | cons msg rest =>
        dsimp only
        split_ifs with late live
        · exact .some ⟨rfl, alike, rfl⟩
        · refine rel_bind (ih (.prog _) waited _ x y alike) ?_
          rintro a b ⟨st, slots, _⟩
          rw [st]
          exact ih .pump waited _ a.1.slots b.1.slots slots
        · exact ih .pump waited _ x y alike
    | settle rounds slot r =>
      have same : y.rslot slot = x.rslot slot :=
        alike.same slot (Or.inr (Or.inr (Or.inr List.mem_cons_self)))
      simp only [exec]
      rw [same]
      by_cases more : 0 < rounds ∧ (x.rslot slot).filled = false
      · rw [if_pos more, if_pos more]
        refine rel_bind (ih .pump (slot :: waited) s x y alike) ?_
        rintro ⟨⟨_, x'⟩, _⟩ ⟨⟨s', y'⟩, _⟩ ⟨rfl, slots, _⟩
        exact ih (.settle (rounds - 1) slot r) waited s' x' y' slots
      rw [if_neg more, if_neg more]
      by_cases filled : (x.rslot slot).filled = true
      · rw [if_pos filled, if_pos filled]
        exact .some ⟨rfl, alike.free, rfl⟩
      · rw [if_neg filled, if_neg filled]
        exact .some ⟨rfl, alike.free, rfl⟩

theorem observe_alike (setting : Setting) (fuel : Nat) (s : State) {x y : Slots}
    (alike : Alike [] x y) :
    observe setting blob fuel ⟨s, y⟩ = observe setting blob fuel ⟨s, x⟩ := by
  have whole : Option.Rel (Same []) (ccRunBlob setting blob fuel ⟨s, x⟩)
      (ccRunBlob setting blob fuel ⟨s, y⟩) := by
    refine rel_bind (exec_alike fuel (.prog blob.entry) [] (start s setting) x y alike) ?_
    rintro ⟨⟨_, x'⟩, _⟩ ⟨⟨s', y'⟩, v⟩ ⟨rfl, slots, rfl⟩
    have pumped := @exec_alike setting.env blob fuel .pump [] s' x' y' slots
    rw [Option.map_eq_bind, Option.map_eq_bind]
    refine rel_bind pumped ?_
    rintro ⟨⟨_, x''⟩, _⟩ ⟨⟨s'', y''⟩, _⟩ ⟨rfl, slots, _⟩
    exact .some ⟨rfl, slots, rfl⟩
  unfold observe
  generalize ccRunBlob setting blob fuel ⟨s, x⟩ = first at whole ⊢
  generalize ccRunBlob setting blob fuel ⟨s, y⟩ = second at whole ⊢
  cases whole with
  | none => rfl
  | some same =>
    obtain ⟨st, _, value⟩ := same
    rw [Option.map_some, Option.map_some, st, value]

end Runs

end XinuRpi5.Cc.RunsApart
