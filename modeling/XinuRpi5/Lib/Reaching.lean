/- source: none (library)
   digest: What holds behind a program unless its run comes to a place of some kind. -/

import XinuRpi5.Lib.RuledState

/-!
A site is a program in the state it is started in. A run comes to a site where it is that program,
or where a part of it does, the state being the one that the parts in front have left.
-/

namespace XinuRpi5.Lib.Reaching

open RuledState

variable {σ : Type} {r : Rule σ}

abbrev Site (r : Rule σ) := ∀ β : Type, Prog r β → σ → Prop

inductive Comes (site : Site r) : ∀ {α : Type}, Prog r α → σ → Prop
  | here {α : Type} {p : Prog r α} {s : σ} : site α p s → Comes site p s
  | first {α β : Type} {p : Prog r α} {q : α → Prog r β} {s : σ} :
    Comes site p s → Comes site (p >>= q) s
  | later {α β : Type} {p : Prog r α} {q : α → Prog r β} {s : σ} :
    Comes site (q (p.run s).1) (p.run s).2 → Comes site (p >>= q) s

theorem Comes.mono {site site' : Site r} (wider : ∀ α p s, site α p s → site' α p s) {α : Type}
    {p : Prog r α} {s : σ} (comes : Comes site p s) : Comes site' p s := by
  induction comes with
  | here is => exact .here (wider _ _ _ is)
  | first _ inner => exact .first inner
  | later _ inner => exact .later inner

theorem Comes.stays {site : Site r} {I : σ → Prop} (stable : ∀ s t, r.rel s t → I s → I t)
    (behind : ∀ β (p : Prog r β) s, site β p s → I (p.run s).2) {α : Type} {p : Prog r α} {s : σ}
    (comes : Comes site p s) : I (p.run s).2 := by
  induction comes with
  | here is => exact behind _ _ _ is
  | @first _ _ p q s _ inner => exact stable _ _ ((q (p.run s).1).keeps (p.run s).2) inner
  | later _ inner => exact inner

variable {α β : Type} {site : Site r}

def Triple (site : Site r) (pre : σ → Prop) (p : Prog r α) (post : α → σ → Prop) : Prop :=
  ∀ s, pre s → post (p.run s).1 (p.run s).2 ∨ Comes site p s

variable {pre pre' : σ → Prop} {p : Prog r α} {q : α → Prog r β} {mid post' : α → σ → Prop}
  {post : β → σ → Prop}

theorem Triple.pure {a : α} (holds : ∀ s, pre s → mid a s) : Triple site pre (pure a) mid :=
  fun s given => .inl (holds s given)

theorem Triple.bind (first : Triple site pre p mid) (rest : ∀ a, Triple site (mid a) (q a) post) :
    Triple site pre (p >>= q) post := by
  intro s given
  rcases first s given with holds | comes
  · rcases rest (p.run s).1 (p.run s).2 holds with holds' | comes
    · exact .inl holds'
    · exact .inr (.later comes)
  · exact .inr (.first comes)

theorem Triple.weaken (given : Triple site pre p mid) (stronger : ∀ s, pre' s → pre s)
    (weaker : ∀ a s, mid a s → post' a s) : Triple site pre' p post' := by
  intro s holds
  exact (given s (stronger s holds)).imp (weaker _ _) id

theorem Triple.gets (f : σ → α) : Triple site pre (.gets f) fun a s => a = f s ∧ pre s :=
  fun _ given => .inl ⟨rfl, given⟩

theorem Triple.same (kept : ∀ s, pre s → pre (p.run s).2) : Triple site pre p fun _ => pre :=
  fun s given => .inl (kept s given)

theorem Triple.along {I : σ → Prop} (stable : ∀ s t, r.rel s t → I s → I t)
    (triple : Triple site pre p mid) :
    Triple site (fun s => pre s ∧ I s) p fun a s => mid a s ∧ I s := by
  rintro s ⟨given, holds⟩
  exact (triple s given).imp (fun post => ⟨post, stable _ _ (p.keeps s) holds⟩) id

theorem Triple.never (never : ∀ s, ¬ pre s) : Triple site pre p mid :=
  fun s given => absurd given (never s)

end XinuRpi5.Lib.Reaching
