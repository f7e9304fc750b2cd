/- source: system/js.c
   digest: When a return statement ends its call at once. -/

import XinuRpi5.Lib.EventLog
import XinuRpi5.System.Js

/-!
What a run writes into the log is described piece by piece: behind the value of a return
statement comes the end of its call, except in a part of a loop behind which the loop
evaluates something again, where that comes. A statement may end with a return that is
still to be followed.
-/

namespace XinuRpi5.System.JsReturn

open Lib.EventLog JsStore Js

/-- Behind each return statement of a function comes the end of the call, with its value. -/
def EndsAtOnce : List Event → Prop
  | [] => True
  | .ret place _ v :: L => (place ≠ .top → L.head? = some (.leave v)) ∧ EndsAtOnce L
  | _ :: L => EndsAtOnce L

def Next : Event → Option Event → Prop
  | .ret .top _ _, _ => True
  | .ret .loop true _, h => h = some .eval
  | .ret _ _ v, h => h = some (.leave v)
  | _, _ => True

def Fits : List Event → Prop
  | [] => True
  | e :: L => Next e L.head? ∧ Fits L

theorem Next.of_none {e : Event} (last : Next e none) (h : Option Event) : Next e h := by
  cases e with
  | eval => trivial
  | leave v => trivial
  | ret place ok v =>
    cases place with
    | top => trivial
    | body => cases last
    | loop => cases ok <;> cases last

theorem Fits.append {L M : List Event} (here : Fits L) (there : Fits M) : Fits (L ++ M) := by
  induction L with
  | nil => exact there
  | cons e L ih =>
    obtain ⟨next, rest⟩ := here
    refine ⟨?_, ih rest⟩
    cases L with
    | nil => exact next.of_none _
    | cons => exact next

theorem fits_closed : Closed Fits := ⟨trivial, Fits.append⟩

theorem Fits.joint {L M : List Event} {e : Event} (here : Fits L) (next : Next e M.head?)
    (there : Fits M) : Fits (L ++ [e] ++ M) := by
  rw [List.append_assoc]
  exact here.append ⟨next, there⟩

theorem endsAtOnce_iff {L : List Event} (fits : Fits L) :
    EndsAtOnce L ↔ ∀ v, Event.ret .loop true v ∉ L := by
  induction L with
  | nil => simp [EndsAtOnce]
  | cons e L ih =>
    obtain ⟨next, rest⟩ := fits
    cases e with
    | eval => simpa [EndsAtOnce] using ih rest
    | leave v => simpa [EndsAtOnce] using ih rest
    | ret place ok v =>
      cases place with
      | top => simpa [EndsAtOnce] using ih rest
      | body => simpa [EndsAtOnce, show L.head? = some (.leave v) from next] using ih rest
      | loop =>
        cases ok with
        | false =>
          simpa [EndsAtOnce, show L.head? = some (.leave v) from next] using ih rest
        | true =>
          have again : L.head? = some .eval := next
          apply iff_of_false
          · rintro ⟨ends, -⟩
            rw [again] at ends
            cases ends (by decide)
          · intro never
            exact never v (List.mem_cons_self)

section Pieces

variable {H : Type} {k : JsM H β}

structure Pending (place : Place) (L : List Event) (s : State H) : Prop where
  ends : ∃ M p, L = M ++ [.ret p (!s.store.err.isSome) s.jsRetVal] ∧ Fits M ∧
    (s.store.err = none → p = place) ∧ (p = .top ↔ place = .top)
  flag : s.jsRetFlag = true
  going : s.stuck = false

def Piece (place : Place) (L : List Event) (s : State H) : Prop :=
  Fits L ∨ Pending place L s

def Returns {α : Type} (place : Place) (m : JsM H α) : Prop :=
  ∀ s, ∃ L, (m s).2.log = s.log ++ L ∧ Piece place L (m s).2

abbrev Settles {α : Type} (m : JsM H α) : Prop := Adds State.log Fits m

def Starts {α : Type} (m : JsM H α) : Prop :=
  ∀ s, s.stuck = false → s.store.err = none → ∃ L, (m s).2.log = s.log ++ .eval :: L

def Idle {α : Type} (m : JsM H α) : Prop :=
  ∀ s, s.store.err ≠ none → (m s).2 = s

variable {α β : Type}

variable {place : Place} {m : JsM H α}

theorem Returns.of_settles (settles : Settles m) :
    Returns place m := by
  intro s
  obtain ⟨L, log, fits⟩ := settles s
  exact ⟨L, log, .inl fits⟩

theorem Piece.before {L M : List Event} {s : State H} (here : Fits L)
    (there : Piece place M s) : Piece place (L ++ M) s := by
  rcases there with fits | ⟨⟨M', p, rfl, fits, same, top⟩, flag, going⟩
  · exact .inl (here.append fits)
  · exact .inr ⟨⟨L ++ M', p, (List.append_assoc _ _ _).symm, here.append fits, same, top⟩,
      flag, going⟩

theorem Piece.joint {L M : List Event} {e : Event} {s : State H}
    (here : Fits L) (next : Next e (some .eval)) (there : Piece place (.eval :: M) s) :
    Piece place (L ++ [e] ++ .eval :: M) s := by
  rcases there with fits | ⟨⟨M', p, eq, fits, same, top⟩, flag, going⟩
  · exact .inl (here.joint next fits)
  · cases M' with
    | nil => simp at eq
    | cons e' M' =>
      obtain ⟨rfl, rfl⟩ : Event.eval = e' ∧ M = M' ++ [_] := by simpa using eq
      exact .inr ⟨⟨L ++ [e] ++ .eval :: M', p, by simp, here.joint next fits, same, top⟩,
        flag, going⟩

theorem Returns.after {k : α → JsM H β} (first : Settles m)
    (later : ∀ a, Returns place (k a)) : Returns place (m >>= k) := by
  intro s
  obtain ⟨L, here, fits⟩ := first s
  obtain ⟨M, there, piece⟩ := later (m s).1 (m s).2
  refine ⟨L ++ M, ?_, piece.before fits⟩
  show (k (m s).1 (m s).2).2.log = s.log ++ (L ++ M)
  rw [there, here, List.append_assoc]

theorem Returns.result (first : Returns place m) (b : β) :
    Returns place (do let _ ← m; return b) := first

theorem Returns.ite {c : Prop} [Decidable c] {m n : JsM H α}
    (yes : Returns place m) (no : Returns place n) : Returns place (if c then m else n) := by
  split
  · exact yes
  · exact no

theorem Starts.bind {k : α → JsM H β} (first : Starts m)
    (grows : ∀ a s, ∃ L, (k a s).2.log = s.log ++ L) : Starts (m >>= k) := by
  intro s going fine
  obtain ⟨L, here⟩ := first s going fine
  obtain ⟨M, there⟩ := grows (m s).1 (m s).2
  refine ⟨L ++ M, ?_⟩
  show (k (m s).1 (m s).2).2.log = s.log ++ .eval :: (L ++ M)
  rw [there, here, List.append_assoc, List.cons_append]

theorem Returns.grows (returns : Returns place m) (s : State H) :
    ∃ L, (m s).2.log = s.log ++ L := by
  obtain ⟨L, log, -⟩ := returns s
  exact ⟨L, log⟩

theorem Returns.behind (later : Returns place k) {s t : State H} {L : List Event}
    (here : t.log = s.log ++ L) (fits : Fits L) :
    ∃ N, (k t).2.log = s.log ++ N ∧ Piece place N (k t).2 := by
  obtain ⟨M, there, piece⟩ := later t
  refine ⟨L ++ M, ?_, piece.before fits⟩
  rw [there, here, List.append_assoc]

theorem Returns.stop (first : Returns place m) (later : Returns place k)
    (stops : ∀ s : State H, s.jsRetFlag = true → (k s).2 = s) :
    Returns place (do let _ ← m; k) := by
  intro s
  obtain ⟨L, here, fits | pending⟩ := first s
  · exact later.behind here fits
  · refine ⟨L, ?_, .inr ?_⟩
    · show (k (m s).2).2.log = s.log ++ L
      rw [stops _ pending.flag, here]
    · show Pending place L (k (m s).2).2
      rw [stops _ pending.flag]
      exact pending

theorem inLoop_top : place.inLoop = .top ↔ place = .top := by
  cases place <;> decide

/-- A part of a loop behind which the loop evaluates something again. -/
theorem Returns.again {place : Place} {m : JsM H α} (first : Returns place.inLoop m)
    (later : Returns place k) (starts : Starts k) (idle : Idle k) :
    Returns place (do let _ ← m; k) := by
  intro s
  obtain ⟨L, here, fits | pending⟩ := first s
  · exact later.behind here fits
  · obtain ⟨⟨L', p, rfl, fits, same, top⟩, flag, going⟩ := pending
    cases fine : (m s).2.store.err with
    | none =>
      obtain ⟨M, there, piece⟩ := later (m s).2
      obtain ⟨M', there'⟩ := starts (m s).2 going fine
      obtain rfl : M = .eval :: M' := List.append_cancel_left (there.symm.trans there')
      rw [fine] at here
      refine ⟨L' ++ [.ret p true (m s).2.jsRetVal] ++ .eval :: M', ?_,
        Piece.joint fits ?_ piece⟩
      · show (k (m s).2).2.log = _
        rw [there, here]
        simp
      · rw [same fine]
        cases place with
        | top => trivial
        | body => rfl
        | loop => rfl
    | some e =>
      have stays : (k (m s).2).2 = (m s).2 := idle _ (by rw [fine]; exact Option.some_ne_none e)
      refine ⟨L' ++ [.ret p (!(m s).2.store.err.isSome) (m s).2.jsRetVal], ?_, .inr ?_⟩
      · show (k (m s).2).2.log = _
        rw [stays, here]
      · show Pending place _ (k (m s).2).2
        rw [stays]
        refine ⟨⟨L', p, rfl, fits, ?_, top.trans inLoop_top⟩, flag, going⟩
        intro none
        rw [fine] at none
        cases none

end Pieces

section Steps

variable {H α : Type}

theorem settles_onStore (m : StateM (Store Code H) α) : Settles (onStore m : JsM H α) :=
  Adds.of_same fits_closed (fun _ => rfl)

theorem settles_pure (a : α) : Settles (return a : JsM H α) := Adds.pure fits_closed a

theorem settles_get : Settles (get : JsM H (State H)) :=
  Adds.of_same fits_closed (fun _ => rfl)

theorem settles_setRet (flag : Bool) : Settles (setRet flag : JsM H Unit) :=
  Adds.of_same fits_closed (fun _ => rfl)

theorem note_log (e : Event) (s : State H) :
    (note e s).2.log = s.log ++ (if s.stuck then [] else [e]) := by
  show (if s.stuck then s else { s with log := s.log ++ [e] }).log = _
  cases s.stuck <;> simp

theorem settles_goesOn : Settles (goesOn : JsM H Bool) :=
  Adds.of_same fits_closed (fun _ => rfl)

end Steps

section Parts

variable {H : Type}

structure Good (ev : Eval H) : Prop where
  expr : ∀ e env, Settles (ev.expr e env)
  starts : ∀ e env, Starts (ev.expr e env)
  idle : ∀ e env, Idle (ev.expr e env)
  stmt : ∀ place s env, Returns place (ev.stmt place s env)
  call : ∀ f self args, Settles (ev.call f self args)

variable {ev : Eval H} (good : Good ev)
include good

theorem settles_runNative (native : Native H) : Settles (runNative ev native) := by
  induction native with
  | done v => exact settles_pure v
  | work f k ih =>
    intro s
    exact ih (f s.store) { s with store := f s.store }
  | call f self args k ih => exact Adds.bind fits_closed (good.call f self args) ih

/-- The call of a function: whatever return is pending behind its body, the call ends. -/
theorem settles_body (body : Stmt) (e : Nat) : Settles (do
    let _ ← ev.stmt .body body e
    let s ← get
    let r := if s.jsRetFlag then s.jsRetVal else JsStore.undef
    setRet false
    note (.leave r)
    return r : JsM H Jsv) := by
  intro s
  obtain ⟨L, log, piece⟩ := good.stmt .body body e s
  generalize after : (ev.stmt .body body e s).2 = s' at log piece
  let r := if s'.jsRetFlag then s'.jsRetVal else JsStore.undef
  refine ⟨L ++ (if s'.stuck then [] else [.leave r]), ?_, ?_⟩
  · show (note (.leave (if (ev.stmt .body body e s).2.jsRetFlag then
      (ev.stmt .body body e s).2.jsRetVal else JsStore.undef))
      { (ev.stmt .body body e s).2 with jsRetFlag := false }).2.log = _
    rw [after, note_log, ← List.append_assoc, ← log]
  · rcases piece with fits | ⟨⟨M, p, rfl, fits, same, top⟩, flag, going⟩
    · apply fits.append
      split
      · trivial
      · exact ⟨trivial, trivial⟩
    · rw [going]
      apply fits.joint
      · have value : r = s'.jsRetVal := if_pos flag
        cases fine : s'.store.err with
        | none =>
          rw [same fine]
          exact congrArg (fun v => some (Event.leave v)) value
        | some m =>
          cases p with
          | top => cases top.mp rfl
          | body => exact congrArg (fun v => some (Event.leave v)) value
          | loop => exact congrArg (fun v => some (Event.leave v)) value
      · exact ⟨trivial, trivial⟩

theorem settles_jsCall (host : Host H) (f self : Jsv) (args : List Jsv) :
    Settles (jsCall host ev f self args) := by
  unfold jsCall
  apply Adds.ite
  · exact settles_runNative good _
  · apply Adds.ite
    · exact Adds.bind fits_closed (settles_onStore _) (fun _ => settles_pure _)
    · refine Adds.bind fits_closed (settles_onStore _) (fun key => ?_)
      refine Adds.bind fits_closed settles_get (fun s => ?_)
      refine Adds.bind fits_closed (settles_onStore _) (fun key' => ?_)
      refine Adds.bind fits_closed settles_get (fun s' => ?_)
      refine Adds.bind fits_closed (settles_onStore _) (fun e => ?_)
      refine Adds.bind fits_closed settles_get (fun s'' => ?_)
      refine Adds.bind fits_closed (settles_onStore _) (fun _ => ?_)
      refine Adds.bind fits_closed (settles_onStore _) (fun this => ?_)
      refine Adds.bind fits_closed (settles_onStore _) (fun _ => ?_)
      refine Adds.bind fits_closed (settles_setRet false) (fun _ => ?_)
      exact settles_body good _ e

theorem settles_evalOpt (e : Option Expr) (env : Nat) : Settles (evalOpt ev e env) := by
  cases e with
  | none => exact settles_pure _
  | some e => exact good.expr e env

theorem returns_evalStmtOpt (place : Place) (s : Option Stmt) (env : Nat) :
    Returns place (evalStmtOpt ev place s env) := by
  cases s with
  | none => exact Returns.of_settles (settles_pure _)
  | some s => exact good.stmt place s env

theorem settles_evalFields (o env : Nat) (fields : List (Str × Expr)) :
    Settles (evalFields ev o env fields) := by
  induction fields with
  | nil => exact settles_pure _
  | cons field rest ih =>
    obtain ⟨key, e⟩ := field
    apply Adds.bind fits_closed (good.expr e env)
    intro v
    exact Adds.bind fits_closed (settles_onStore _) (fun _ => ih)

theorem settles_evalItems (o env : Nat) (i : Int64) (items : List Expr) :
    Settles (evalItems ev o env i items) := by
  induction items generalizing i with
  | nil => exact settles_pure _
  | cons e rest ih =>
    apply Adds.bind fits_closed (settles_onStore _)
    intro key
    apply Adds.bind fits_closed (good.expr e env)
    intro v
    exact Adds.bind fits_closed (settles_onStore _) (fun _ => ih (i + 1))

theorem settles_evalArgs (env : Nat) (args : List Expr) : Settles (evalArgs ev env args) := by
  induction args with
  | nil => exact settles_pure _
  | cons e rest ih =>
    apply Adds.bind fits_closed (good.expr e env)
    intro v
    exact Adds.bind fits_closed ih (fun _ => settles_pure _)

theorem settles_evalBin (op : BinOp) (a b : Expr) (env : Nat) :
    Settles (evalBin ev op a b env) := by
  apply Adds.bind fits_closed (good.expr a env)
  intro x
  cases op with
  | and => exact Adds.ite (good.expr b env) (settles_pure x)
  | or => exact Adds.ite (settles_pure x) (good.expr b env)
  | add => exact Adds.bind fits_closed (good.expr b env) (fun _ => settles_onStore _)
  | _ => exact Adds.bind fits_closed (good.expr b env) (fun _ => settles_pure _)

theorem settles_indexed {α : Type} (a b : Expr) (env : Nat) {k : Jsv → Str → JsM H α}
    (later : ∀ o key, Settles (k o key)) : Settles (do
      let o ← ev.expr a env
      let i ← ev.expr b env
      let key ← onStore (jsTostr i)
      k o key : JsM H α) := by
  apply Adds.bind fits_closed (good.expr a env)
  intro o
  apply Adds.bind fits_closed (good.expr b env)
  intro i
  exact Adds.bind fits_closed (settles_onStore _) (fun key => later o key)

theorem settles_assignTo (host : Host H) (target : Expr) (v : Jsv) (env : Nat) :
    Settles (assignTo host ev target v env) := by
  cases target with
  | name x =>
    apply Adds.bind fits_closed settles_get
    intro s
    split
    · exact settles_onStore _
    · exact settles_onStore _
  | member a key =>
    exact Adds.bind fits_closed (good.expr a env) (fun _ => settles_onStore _)
  | index a b => exact settles_indexed good a b env (fun _ _ => settles_onStore _)
  | _ => exact settles_onStore _

theorem settles_evalAssign (host : Host H) (plus' : Bool) (target value : Expr) (env : Nat) :
    Settles (evalAssign host ev plus' target value env) := by
  have stores : ∀ v, Settles (do assignTo host ev target v env; return v : JsM H Jsv) :=
    fun v => Adds.bind fits_closed (settles_assignTo good host target v env)
      (fun _ => settles_pure v)
  apply Adds.bind fits_closed (good.expr value env)
  intro v
  apply Adds.ite
  · apply Adds.bind fits_closed (good.expr target env)
    intro cur
    exact Adds.bind fits_closed (settles_onStore _) stores
  · exact stores v

theorem settles_evalCallee (host : Host H) (f : Expr) (env : Nat) :
    Settles (evalCallee host ev f env) := by
  have plain : ∀ f, Settles (do return (JsStore.undef, ← ev.expr f env) : JsM H (Jsv × Jsv)) :=
    fun f => Adds.bind fits_closed (good.expr f env) (fun _ => settles_pure _)
  cases f with
  | member a key =>
    apply Adds.bind fits_closed (good.expr a env)
    intro self
    exact Adds.bind fits_closed (settles_onStore _) (fun _ => settles_pure _)
  | index a b =>
    exact settles_indexed good a b env (fun self key =>
      Adds.bind fits_closed (settles_onStore (getMember host self key))
        (fun f => settles_pure (self, f)))
  | _ => exact plain _

theorem settles_evalExpr (host : Host H) (e : Expr) (env : Nat) :
    Settles (evalExpr host ev e env) := by
  cases e with
  | num | str | bool | null | undef => exact settles_pure _
  | name x =>
    apply Adds.bind fits_closed settles_get
    intro s
    dsimp only
    split
    · exact settles_pure _
    · exact settles_onStore _
  | obj fields =>
    apply Adds.bind fits_closed (settles_onStore _)
    intro o
    exact Adds.bind fits_closed (settles_evalFields good o env fields) (fun _ => settles_pure _)
  | arr items =>
    apply Adds.bind fits_closed (settles_onStore _)
    intro o
    apply Adds.bind fits_closed (settles_evalItems good o env 0 items)
    intro i
    apply Adds.bind fits_closed (settles_onStore _)
    intro key
    exact Adds.bind fits_closed (settles_onStore _) (fun _ => settles_pure _)
  | fn name params body => exact settles_onStore _
  | arrow params body => exact settles_onStore _
  | un op a =>
    apply Adds.bind fits_closed (good.expr a env)
    intro v
    cases op with
    | typeof => exact Adds.bind fits_closed (settles_onStore _) (fun _ => settles_pure _)
    | not => exact settles_pure _
    | neg => exact settles_pure _
  | bin op a b => exact settles_evalBin good op a b env
  | cond c a b =>
    apply Adds.bind fits_closed (good.expr c env)
    intro v
    exact Adds.ite (good.expr a env) (good.expr b env)
  | member a key =>
    exact Adds.bind fits_closed (good.expr a env) (fun _ => settles_onStore _)
  | index a b => exact settles_indexed good a b env (fun _ _ => settles_onStore _)
  | assign plus' target value => exact settles_evalAssign good host plus' target value env
  | call f args =>
    apply Adds.bind fits_closed (settles_evalCallee good host f env)
    rintro ⟨self, fv⟩
    apply Adds.bind fits_closed (settles_evalArgs good env (args.take 8))
    intro vs
    exact settles_jsCall good host fv self vs

theorem returns_blockLoop (place : Place) (e : Nat) (ss : List Stmt) :
    Returns place (blockLoop ev place e ss) := by
  induction ss with
  | nil => exact Returns.of_settles (settles_pure _)
  | cons s rest ih =>
    apply Returns.after settles_goesOn
    intro go
    apply Returns.ite
    · apply Returns.stop (good.stmt place s e) ih
      intro s flag
      cases rest with
      | nil => rfl
      | cons =>
        have stops : goesOn (H := H) s = (false, s) := by
          change (!s.jsRetFlag && !s.store.err.isSome, s) = _
          rw [flag]
          rfl
        simp only [blockLoop, bind, StateT.bind, stops]
        rfl
    · exact Returns.of_settles (settles_pure _)

theorem settles_varLoop (env : Nat) (ds : List (Str × Option Expr)) :
    Settles (varLoop ev env ds) := by
  induction ds with
  | nil => exact settles_pure _
  | cons d rest ih =>
    obtain ⟨x, init⟩ := d
    apply Adds.bind fits_closed (settles_evalOpt good init env)
    intro v
    exact Adds.bind fits_closed (settles_onStore _) (fun _ => ih)

theorem settles_loopTest (c : Option Expr) (env : Nat) : Settles (loopTest ev c env) := by
  apply Adds.bind fits_closed (settles_evalOpt good c env)
  intro v
  exact Adds.bind fits_closed settles_goesOn (fun _ => settles_pure _)

theorem loopTest_err (c : Option Expr) (env : Nat) (s : State H) (err : s.store.err ≠ none) :
    loopTest ev c env s = (false, s) := by
  have stays : (evalOpt ev c env s).2 = s := by
    cases c with
    | none => rfl
    | some e => exact good.idle e env s err
  have set : s.store.err.isSome = true := Option.isSome_iff_ne_none.mpr err
  show (_ && (!(evalOpt ev c env s).2.jsRetFlag && !(evalOpt ev c env s).2.store.err.isSome),
    (evalOpt ev c env s).2) = (false, s)
  rw [stays, set, Bool.not_true, Bool.and_false, Bool.and_false]

omit good in
theorem loopTest_flag (env : Nat) (s : State H) (flag : s.jsRetFlag = true) :
    loopTest ev none env s = (false, s) := by
  show (true && (!s.jsRetFlag && !s.store.err.isSome), s) = (false, s)
  rw [flag, Bool.not_true, Bool.false_and, Bool.and_false]

omit good in
theorem loop_over {inside : Place} {c step : Option Expr} {body : Stmt} {env : Nat}
    {fail : String} {s : State H} (atEnd : loopTest ev c env s = (false, s)) (guard : Nat) :
    (loop ev inside c step body env fail guard s).2 = s := by
  cases guard with
  | zero =>
    show ((if (loopTest ev c env s).1 then onStore (jsFail fail) else pure ())
      (loopTest ev c env s).2 : Unit × State H).2 = s
    rw [atEnd]
    rfl
  | succ guard =>
    show ((if (loopTest ev c env s).1 then (do
        let _ ← ev.stmt inside body env
        let _ ← evalOpt ev step env
        loop ev inside c step body env fail guard) else pure ())
      (loopTest ev c env s).2 : Unit × State H).2 = s
    rw [atEnd]
    rfl

theorem rest_idle (inside : Place) (c step : Option Expr) (body : Stmt) (env : Nat)
    (fail : String) (guard : Nat) : Idle (do
      let _ ← evalOpt ev step env
      loop ev inside c step body env fail guard) := by
  intro s err
  have stays : (evalOpt ev step env s).2 = s := by
    cases step with
    | none => rfl
    | some e => exact good.idle e env s err
  show (loop ev inside c step body env fail guard (evalOpt ev step env s).2).2 = s
  rw [stays]
  exact loop_over (loopTest_err good c env s err) guard

theorem starts_loop {inside : Place} {e : Expr} {step : Option Expr} {body : Stmt} {env : Nat}
    {fail : String} {place : Place} {guard : Nat}
    (later : ∀ guard' < guard, Returns place (loop ev inside (some e) step body env fail guard'))
    (bodies : Returns inside (ev.stmt inside body env)) :
    Starts (loop ev inside (some e) step body env fail guard) := by
  have head : Starts (loopTest ev (some e) env) := by
    apply Starts.bind (good.starts e env)
    intro v s
    exact ⟨[], (List.append_nil _).symm⟩
  cases guard with
  | zero =>
    apply Starts.bind head
    intro go s
    refine ⟨[], ?_⟩
    cases go with
    | false => exact (List.append_nil _).symm
    | true => exact (List.append_nil _).symm
  | succ guard =>
    apply Starts.bind head
    intro go s
    cases go with
    | false => exact ⟨[], (List.append_nil _).symm⟩
    | true =>
      obtain ⟨L, first⟩ := bodies.grows s
      obtain ⟨M, second⟩ := (Returns.after (settles_evalOpt good step env)
        (fun _ => later guard (Nat.lt_succ_self guard))).grows (ev.stmt inside body env s).2
      refine ⟨L ++ M, ?_⟩
      rw [← List.append_assoc, ← first]
      exact second

theorem returns_loop (place : Place) (c step : Option Expr) (body : Stmt) (env : Nat)
    (fail : String) (guard : Nat) :
    Returns place (loop ev (bodyPlace place c step) c step body env fail guard) := by
  induction guard using Nat.strongRecOn with
  | ind guard ih =>
  cases guard with
  | zero =>
    apply Returns.of_settles
    apply Adds.bind fits_closed (settles_loopTest good c env)
    intro go
    exact Adds.ite (settles_onStore _) (settles_pure _)
  | succ guard =>
    have bodies := good.stmt (bodyPlace place c step) body env
    have rest : Returns place (do
        let _ ← evalOpt ev step env
        loop ev (bodyPlace place c step) c step body env fail guard) :=
      Returns.after (settles_evalOpt good step env)
        (fun _ => ih guard (Nat.lt_succ_self guard))
    apply Returns.after (settles_loopTest good c env)
    intro go
    refine Returns.ite ?_ (Returns.of_settles (settles_pure _))
    have idle := rest_idle good (bodyPlace place c step) c step body env fail guard
    cases step with
    | some e =>
      have inside : bodyPlace place c (some e) = place.inLoop := by simp [bodyPlace]
      rw [inside] at bodies rest idle ⊢
      refine Returns.again bodies rest ?_ idle
      apply Starts.bind (good.starts e env)
      intro v s
      have after := ih guard (Nat.lt_succ_self guard)
      rw [inside] at after
      exact after.grows s
    | none =>
      cases c with
      | some e =>
        refine Returns.again bodies rest ?_ idle
        exact starts_loop good (fun guard' less => ih guard' (by omega)) bodies
      | none =>
        refine Returns.stop bodies rest ?_
        intro s flag
        exact loop_over (loopTest_flag env s flag) guard

theorem returns_evalStmt (place : Place) (s : Stmt) (env : Nat) :
    Returns place (evalStmt ev place s env) := by
  cases s with
  | block ss =>
    apply Returns.after (settles_onStore _)
    intro e
    exact (returns_blockLoop good place e ss).result _
  | var ds =>
    apply Returns.of_settles
    exact Adds.bind fits_closed (settles_varLoop good env ds) (fun _ => settles_pure _)
  | expr e => exact Returns.of_settles (good.expr e env)
  | bare e => exact Returns.of_settles (good.expr e env)
  | ret a =>
    apply Returns.after (settles_evalOpt good a env)
    intro v s
    have log : ((do
        modify fun s => { s with jsRetVal := v, jsRetFlag := true }
        note (.ret place (!(← get).store.err.isSome) v)
        return v : JsM H Jsv) s).2.log =
        s.log ++ (if s.stuck then [] else [.ret place (!s.store.err.isSome) v]) :=
      note_log _ { s with jsRetVal := v, jsRetFlag := true }
    cases stuck : s.stuck with
    | true =>
      rw [stuck] at log
      exact ⟨[], log, .inl trivial⟩
    | false =>
      rw [stuck] at log
      refine ⟨_, log, .inr ?_⟩
      have after : ((do
          modify fun s => { s with jsRetVal := v, jsRetFlag := true }
          note (.ret place (!(← get).store.err.isSome) v)
          return v : JsM H Jsv) s).2 =
          { s with
            jsRetVal := v
            jsRetFlag := true
            log := s.log ++ [.ret place (!s.store.err.isSome) v] } := by
        show (if s.stuck then _ else _) = _
        rw [stuck]
        rfl
      show Pending place _ ((do
          modify fun s => { s with jsRetVal := v, jsRetFlag := true }
          note (.ret place (!(← get).store.err.isSome) v)
          return v : JsM H Jsv) s).2
      rw [after]
      exact ⟨⟨[], place, rfl, trivial, fun _ => rfl, Iff.rfl⟩, rfl, stuck⟩
  | ifte c t e =>
    apply Returns.after (good.expr c env)
    intro v
    exact Returns.ite ((good.stmt place t env).result JsStore.undef)
      ((returns_evalStmtOpt good place e env).result JsStore.undef)
  | «while» c body =>
    exact (returns_loop good place (some c) none body env _ _).result _
  | «for» init c step body =>
    apply Returns.after (settles_onStore _)
    intro e
    let again := loop ev (bodyPlace place c step) c step body e "for が終わりません" 2000000
    have rest : Returns place again := returns_loop good place c step body e _ _
    have first := returns_evalStmtOpt good (if c.isSome then place.inLoop else place) init e
    refine Returns.result (m := (do
      let _ ← evalStmtOpt ev (if c.isSome then place.inLoop else place) init e
      again)) ?_ JsStore.undef
    cases c with
    | some c =>
      refine Returns.again first rest ?_ ?_
      · exact starts_loop good
          (fun guard' _ => returns_loop good place (some c) step body e _ guard')
          (good.stmt _ body e)
      · intro s err
        exact loop_over (loopTest_err good (some c) e s err) _
    | none =>
      refine Returns.stop first rest ?_
      intro s flag
      exact loop_over (loopTest_flag e s flag) _

end Parts

section Runs

variable {H : Type}

theorem unlessErr_err (m : JsM H Jsv) (s : State H) (err : s.store.err ≠ none) :
    unlessErr m s = (JsStore.undef, s) :=
  if_pos (Option.isSome_iff_ne_none.mpr err)

theorem unlessErr_none (m : JsM H Jsv) (s : State H) (fine : s.store.err = none) :
    unlessErr m s = m { s with log := s.log ++ (if s.stuck then [] else [.eval]) } := by
  have open' : ¬ s.store.err.isSome := by
    rw [fine]
    decide
  have noted : (note .eval s).2 =
      { s with log := s.log ++ (if s.stuck then [] else [.eval]) } := by
    obtain ⟨store, flag, val, log, stuck⟩ := s
    cases stuck with
    | true => simp [note, modify, modifyGet, MonadStateOf.modifyGet, StateT.modifyGet, pure]
    | false => rfl
  show (if s.store.err.isSome then _ else m (note .eval s).2) = _
  rw [if_neg open', noted]

variable {m : JsM H Jsv}

theorem starts_unlessErr (grows : ∀ s, ∃ L, (m s).2.log = s.log ++ L) :
    Starts (unlessErr m) := by
  intro s going fine
  obtain ⟨L, log⟩ := grows { s with log := s.log ++ (if s.stuck then [] else [.eval]) }
  refine ⟨L, ?_⟩
  rw [unlessErr_none m s fine, log]
  simp [going]

theorem idle_unlessErr (m : JsM H Jsv) : Idle (unlessErr m) := by
  intro s err
  rw [unlessErr_err m s err]

theorem returns_unlessErr {place : Place} (returns : Returns place m) :
    Returns place (unlessErr m) := by
  intro s
  by_cases fine : s.store.err = none
  · rw [unlessErr_none m s fine]
    obtain ⟨L, log, piece⟩ := returns { s with
      log := s.log ++ (if s.stuck then [] else [.eval]) }
    refine ⟨(if s.stuck then [] else [.eval]) ++ L, ?_, piece.before ?_⟩
    · rw [log, List.append_assoc]
    · cases s.stuck with
      | true => trivial
      | false => exact ⟨trivial, trivial⟩
  · rw [unlessErr_err m s fine]
    exact ⟨[], (List.append_nil _).symm, .inl trivial⟩

theorem settles_unlessErr (settles : Settles m) : Settles (unlessErr m) := by
  intro s
  by_cases fine : s.store.err = none
  · rw [unlessErr_none m s fine]
    obtain ⟨L, log, fits⟩ := settles { s with
      log := s.log ++ (if s.stuck then [] else [.eval]) }
    refine ⟨(if s.stuck then [] else [.eval]) ++ L, ?_, Fits.append ?_ fits⟩
    · rw [log, List.append_assoc]
    · cases s.stuck with
      | true => trivial
      | false => exact ⟨trivial, trivial⟩
  · rw [unlessErr_err m s fine]
    exact ⟨[], (List.append_nil _).symm, trivial⟩

theorem eval_good (host : Host H) (fuel : Nat) : Good (eval host fuel) := by
  induction fuel with
  | zero =>
    have off : Settles (do
        modify fun s => { s with stuck := true }
        return JsStore.undef : JsM H Jsv) := Adds.of_same fits_closed (fun _ => rfl)
    exact
      { expr := fun _ _ => settles_unlessErr off
        starts := fun _ _ => starts_unlessErr fun s =>
          let ⟨L, log, _⟩ := off s
          ⟨L, log⟩
        idle := fun _ _ => idle_unlessErr _
        stmt := fun _ _ _ => Returns.of_settles (settles_unlessErr off)
        call := fun _ _ _ => settles_unlessErr off }
  | succ fuel ih =>
    exact
      { expr := fun e env => settles_unlessErr (settles_evalExpr ih host e env)
        starts := fun e env => starts_unlessErr fun s =>
          let ⟨L, log, _⟩ := settles_evalExpr ih host e env s
          ⟨L, log⟩
        idle := fun _ _ => idle_unlessErr _
        stmt := fun place s env => returns_unlessErr (returns_evalStmt ih place s env)
        call := settles_jsCall ih host }

theorem Piece.top {L : List Event} {s : State H} (piece : Piece .top L s) : Fits L := by
  rcases piece with fits | ⟨⟨M, p, rfl, fits, -, top⟩, -, -⟩
  · exact fits
  · rw [top.mpr rfl]
    exact fits.append ⟨trivial, trivial⟩

theorem settles_runLines {ev : Eval H} (good : Good ev) (env : Nat) (last : Jsv)
    (lines : List Line) : Settles (runLines ev env last lines) := by
  induction lines generalizing last with
  | nil => exact settles_pure _
  | cons line rest ih =>
    apply Adds.bind fits_closed settles_get
    intro s
    refine Adds.ite (settles_pure _) ?_
    apply Adds.bind fits_closed (settles_onStore _)
    intro _
    have stmt : Settles (ev.stmt .top line.stmt env) := by
      intro s
      obtain ⟨L, log, piece⟩ := good.stmt .top line.stmt env s
      exact ⟨L, log, piece.top⟩
    apply Adds.bind fits_closed stmt
    intro v
    apply Adds.bind fits_closed settles_get
    intro s
    exact Adds.ite (settles_pure _) (ih v)

def runLog (host : Host H) (fuel : Nat) (program : List Line) (s : State H) : List Event :=
  (jsRun host fuel program { s with log := [] }).2.log

theorem runLog_fits (host : Host H) (fuel : Nat) (program : List Line) (s : State H) :
    Fits (runLog host fuel program s) := by
  have settles : Settles (jsRun host fuel program) :=
    Adds.bind fits_closed (settles_runLines (eval_good host fuel) 0 JsStore.undef program)
      (fun _ => settles_onStore _)
  obtain ⟨L, log, fits⟩ := settles { s with log := [] }
  show Fits (jsRun host fuel program { s with log := [] }).2.log
  rw [log]
  exact fits

theorem not_endsAtOnce {host : Host H} {fuel : Nat} {program : List Line} {s : State H} {v : Jsv}
    (there : Event.ret .loop true v ∈ runLog host fuel program s) :
    ¬ EndsAtOnce (runLog host fuel program s) := by
  rw [endsAtOnce_iff (runLog_fits host fuel program s)]
  intro never
  exact never v there

/-- Every return ends its call at once exactly in the runs that execute no return in a part
of a loop behind which the loop evaluates something again. -/
theorem return_ends_call_iff (host : Host H) (fuel : Nat) (program : List Line)
    (s : State H) :
    EndsAtOnce (runLog host fuel program s) ↔
      ∀ v, Event.ret .loop true v ∉ runLog host fuel program s :=
  endsAtOnce_iff (runLog_fits host fuel program s)

end Runs

def bareHost : Host Unit where
  jsHostGlobal _ := return JsStore.undef
  jsHostMember _ _ := return JsStore.undef
  jsHostSetmember _ _ _ := return false
  jsNat _ _ _ := .done JsStore.undef

/-- `var k = 1; function f() { k = k - 1; return k + 1; }
function g() { while (f()) return 5; } g();` -/
def whileReturn : List Line :=
  let k := Expr.name ['k']
  [⟨[], .var [(['k'], some (.num 1))]⟩,
    ⟨[], .bare (.fn (some ['f']) [] (.block
      [.expr (.assign false k (.bin .sub k (.num 1))), .ret (some (.bin .add k (.num 1)))]))⟩,
    ⟨[], .bare (.fn (some ['g']) [] (.block
      [.while (.call (.name ['f']) []) (.ret (some (.num 5)))]))⟩,
    ⟨[], .expr (.call (.name ['g']) [])⟩]

/-- The return of `g` is lost in the call of the condition: the result is `undefined`. -/
theorem return_lost :
    (jsRun bareHost 20 whileReturn (jsReset ())).1 = "undefined".toList ∧
      (jsRun bareHost 20 whileReturn (jsReset ())).2.stuck = false ∧
      ¬ EndsAtOnce (runLog bareHost 20 whileReturn (jsReset ())) := by
  refine ⟨by decide +kernel, by decide +kernel, ?_⟩
  have lost : Event.ret .loop true (ofNum 5) ∈ runLog bareHost 20 whileReturn (jsReset ()) := by
    decide +kernel
  exact not_endsAtOnce lost

end XinuRpi5.System.JsReturn
