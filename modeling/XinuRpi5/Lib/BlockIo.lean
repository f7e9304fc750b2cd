/- source: none (library)
   digest: Programs on a block device whose transfers may fail, and what holds of all their runs. -/

import Mathlib.Logic.Function.Basic

namespace XinuRpi5.Lib.BlockIo

/-- A program that reads and writes blocks. The device answers a read with the block or
not at all, and tells whether a write succeeded. -/
inductive Io (B α : Type) where
  | done (a : α)
  | rd (lba : Nat) (k : Option B → Io B α)
  | wr (lba : Nat) (b : B) (k : Bool → Io B α)

namespace Io

variable {B α β : Type}

protected def bind (p : Io B α) (f : α → Io B β) : Io B β :=
  match p with
  | done a => f a
  | rd lba k => rd lba fun r => (k r).bind f
  | wr lba b k => wr lba b fun ok => (k ok).bind f

instance : Monad (Io B) where
  pure := done
  bind := Io.bind

def read (lba : Nat) : Io B (Option B) := rd lba done

def write (lba : Nat) (b : B) : Io B Bool := wr lba b done

end Io

section Runs

variable {B α β : Type} {p : Io B α}

abbrev Disk (B : Type) := Nat → B

/-- The written blocks, the result and the contents of the run in which every transfer
succeeds. -/
def exec : Io B α → Disk B → List Nat × α × Disk B
  | .done a, d => ([], a, d)
  | .rd lba k, d => exec (k (some (d lba))) d
  | .wr lba b k, d =>
    let (log, r) := exec (k true) (Function.update d lba b)
    (lba :: log, r)

theorem exec_bind (p : Io B α) (f : α → Io B β) (d : Disk B) :
    exec (p >>= f) d = ((exec p d).1 ++ (exec (f (exec p d).2.1) (exec p d).2.2).1,
      (exec (f (exec p d).2.1) (exec p d).2.2).2) := by
  change exec (p.bind f) d = _
  induction p generalizing d with
  | done a => rfl
  | rd lba k ih => exact ih (some (d lba)) d
  | wr lba b k ih =>
    have later := ih true (Function.update d lba b)
    exact congrArg (fun r => (lba :: r.1, r.2)) later

/-- Whatever transfers fail, only blocks in `I` are written and the run ends in `Q`. A
write that fails may have been done all the same. -/
def Safe (I : Nat → Prop) : Io B α → Disk B → (α → Disk B → Prop) → Prop
  | .done a, d, Q => Q a d
  | .rd lba k, d, Q => Safe I (k none) d Q ∧ Safe I (k (some (d lba))) d Q
  | .wr lba b k, d, Q =>
    I lba ∧ Safe I (k true) (Function.update d lba b) Q ∧ Safe I (k false) d Q ∧
      Safe I (k false) (Function.update d lba b) Q

/-- Only blocks in `I` are written, whatever transfers fail. -/
def Confined (I : Nat → Prop) (p : Io B α) (d : Disk B) : Prop := Safe I p d fun _ _ => True

variable {I : Nat → Prop} {d : Disk B}

@[simp] theorem safe_read (lba : Nat) (Q : Option B → Disk B → Prop) :
    Safe I (Io.read lba) d Q ↔ Q none d ∧ Q (some (d lba)) d := Iff.rfl

@[simp] theorem safe_write (lba : Nat) (b : B) (Q : Bool → Disk B → Prop) :
    Safe I (Io.write lba b) d Q ↔ I lba ∧ Q true (Function.update d lba b) ∧ Q false d ∧
      Q false (Function.update d lba b) := Iff.rfl

@[simp] theorem safe_bind (p : Io B α) (f : α → Io B β) (Q : β → Disk B → Prop) :
    Safe I (p >>= f) d Q ↔ Safe I p d fun a e => Safe I (f a) e Q := by
  change Safe I (p.bind f) d Q ↔ _
  induction p generalizing d with
  | done a => exact Iff.rfl
  | rd lba k ih => exact and_congr (ih none) (ih (some (d lba)))
  | wr lba b k ih =>
    exact and_congr Iff.rfl (and_congr (ih true) (and_congr (ih false) (ih false)))

theorem Safe.mono {Q R : α → Disk B → Prop} (safe : Safe I p d Q) (imp : ∀ a e, Q a e → R a e) :
    Safe I p d R := by
  induction p generalizing d with
  | done a => exact imp a d safe
  | rd lba k ih => exact ⟨ih none safe.1, ih (some (d lba)) safe.2⟩
  | wr lba b k ih =>
    exact ⟨safe.1, ih true safe.2.1, ih false safe.2.2.1, ih false safe.2.2.2⟩

/-- The run in which every transfer succeeds writes blocks in `I` only and ends in `Q`. -/
def Calm (I : Nat → Prop) (p : Io B α) (d : Disk B) (Q : α → Disk B → Prop) : Prop :=
  (∀ lba ∈ (exec p d).1, I lba) ∧ Q (exec p d).2.1 (exec p d).2.2

theorem calm_of_exec {log : List Nat} {a : α} {e : Disk B} {Q : α → Disk B → Prop}
    (run : exec p d = (log, a, e)) :
    Calm I p d Q ↔ (∀ lba ∈ log, I lba) ∧ Q a e := by
  rw [Calm, run]

theorem calm_pure (a : α) (Q : α → Disk B → Prop) : Calm I (pure a) d Q ↔ Q a d :=
  and_iff_right fun _ listed => (List.not_mem_nil listed).elim

theorem calm_write (lba : Nat) (b : B) (Q : Bool → Disk B → Prop) :
    Calm I (Io.write lba b) d Q ↔ I lba ∧ Q true (Function.update d lba b) := by
  rw [← List.forall_mem_singleton (p := I)]
  exact Iff.rfl

theorem calm_bind (p : Io B α) (f : α → Io B β) (Q : β → Disk B → Prop) :
    Calm I (p >>= f) d Q ↔ Calm I p d fun a e => Calm I (f a) e Q := by
  rw [Calm, exec_bind, List.forall_mem_append, and_assoc]
  exact Iff.rfl

theorem Safe.calm {Q : α → Disk B → Prop} (safe : Safe I p d Q) :
    Calm I p d Q := by
  induction p generalizing d with
  | done a => exact ⟨fun lba listed => (List.not_mem_nil listed).elim, safe⟩
  | rd lba k ih => exact ih (some (d lba)) safe.2
  | wr lba b k ih =>
    obtain ⟨inside, last⟩ := ih true safe.2.1
    refine ⟨fun l listed => ?_, last⟩
    rcases List.mem_cons.mp listed with rfl | later
    · exact safe.1
    · exact inside l later

end Runs

end XinuRpi5.Lib.BlockIo
