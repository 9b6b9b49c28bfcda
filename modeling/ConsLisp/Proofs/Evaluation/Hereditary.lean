import ConsLisp.Evaluation.Basic

/-!
# Properties that evaluation hands on

Many laws of evaluation have the same proof: a property holds of every elementary action, sequences
of actions have it when their parts do, and so all evaluation has it. This module carries out that
induction once. A property may depend on the frame in which an action is taken. Calling a closure
changes the frame, so the call has to inherit the property that its body has in the new frame,
whichever frame that is.

The most common such property relates the state after an action to the one before it, however the
action ends. For these the conditions come down to what single changes of the store do.

## Main definitions

* `Action.Hereditary`: the closure conditions on a property of actions.
* `Action.Moves`: an action relates the state before it and the state after it.
* `State.Accumulates`: the conditions on a relation of states under which evaluation meets it.

## Main results

* `Action.Hereditary.step`: the rules of evaluation hand a hereditary property on.
* `Action.Hereditary.eval`: evaluation has every hereditary property.
* `State.Accumulates.hereditary`: a relation that single changes of the store meet is hereditary.
-/

namespace ConsLisp

/-- A property of the actions taken in a frame is *hereditary* when elementary actions have it and
composite ones inherit it from their parts. -/
structure Action.Hereditary (P : FrameId → ∀ {α : Type}, Action α → Prop) : Prop where
  pure {i : FrameId} {α : Type} (a : α) : P i (pure a : Action α)
  bind {i : FrameId} {α β : Type} {m : Action α} {f : α → Action β} :
    P i m → (∀ a, P i (f a)) → P i (m >>= f)
  fail {i : FrameId} {α : Type} (e : Error) : P i (Action.fail e : Action α)
  exhausted {i : FrameId} {α : Type} : P i (Action.exhausted : Action α)
  mapError {i : FrameId} {α : Type} {m : Action α} (f : Error → Error) :
    P i m → P i (m.mapError f)
  lookup (i : FrameId) (x : String) : P i (Action.lookup i x)
  define (i : FrameId) (x : String) (v : Value) : P i (Action.define i x v)
  increment (i : FrameId) (x : String) : P i (Action.increment i x)
  newClosure (i : FrameId) (role : Role) (name : String) (params body : Value) :
    P i (Action.newClosure role name params body i)
  print {i : FrameId} (text : String) : P i (Action.print text)
  /-- What is done in a new frame is part of the action that makes the frame. -/
  derive {i : FrameId} {α : Type} (frame : FrameId) (b : Bindings) {body : FrameId → Action α} :
    (∀ j, P j (body j)) → P i (Action.derive frame b >>= body)

namespace Action.Hereditary

variable {P : FrameId → ∀ {α : Type}, Action α → Prop} (hP : Hereditary P)
include hP

theorem ofExcept {i : FrameId} {α : Type} (result : Except Error α) :
    P i (Action.ofExcept result) := by
  cases result with
  | ok a => exact hP.pure a
  | error e => exact hP.fail e

theorem checkLambdaList {i : FrameId} (params : Value) : P i (checkLambdaList params) := by
  rw [ConsLisp.checkLambdaList]
  split
  · exact hP.pure ()
  · exact hP.fail _

theorem makeClosure (role : Role) (name : String) (i : FrameId) (operands : Value) :
    P i (Evaluator.makeClosure role name i operands) :=
  hP.bind (hP.checkLambdaList _) fun _ => hP.newClosure i role name _ _

theorem defineCallable (role : Role) (form : String) (i : FrameId) (operands : Value) :
    P i (Evaluator.defineCallable role form i operands) := by
  unfold Evaluator.defineCallable
  split
  · refine hP.bind (hP.checkLambdaList _) fun _ => ?_
    refine hP.bind (hP.newClosure i role _ _ _) fun f => ?_
    exact hP.bind (hP.define i _ f) fun _ => hP.pure _
  · exact hP.fail _
  · exact hP.fail _

theorem incrementOperand (i : FrameId) (operands : Value) :
    P i (Evaluator.increment i operands) := by
  rw [Evaluator.increment]
  split
  · exact hP.increment i _
  · exact hP.fail _

theorem primitive {i : FrameId} (op : Primitive) (args : Value) : P i (op.apply args) := by
  refine hP.bind (hP.ofExcept _) fun _ => ?_
  cases op with
  | println => exact hP.bind (hP.print _) fun _ => hP.ofExcept _
  | list | isEmpty | typeOf => exact hP.pure _
  | _ => exact hP.ofExcept _

/-! ### Rules that evaluate the expressions inside an expression -/

section Rules

variable {ev : Evaluator} (hev : ∀ i e, P i (ev i e))
include hev

theorem evaluateOnto (i : FrameId) (values : List Value) (operands : Value) :
    P i (ev.evaluateOnto i values operands) := by
  induction operands generalizing values with
  | cons first rest _ ih => exact hP.bind (hev i first) fun v => ih (v :: values)
  | _ => exact hP.pure _

theorem evaluateAfter (i : FrameId) (last body : Value) :
    P i (ev.evaluateAfter i last body) := by
  induction body generalizing last with
  | cons first rest _ ih => exact hP.bind (hev i first) ih
  | _ => exact hP.pure _

theorem expandOnto (i : FrameId) (heads : List Value) (template : Value) :
    P i (ev.expandOnto i heads template) := by
  induction template generalizing heads with
  | quoted kind inner =>
    cases kind with
    | unquote => exact hP.bind (hev i inner) fun _ => hP.pure _
    | _ => exact hP.pure _
  | cons first rest ihf ihr =>
    rw [Evaluator.expandOnto]
    refine hP.bind (ihf []) fun head => ?_
    split
    · refine hP.bind (hev i _) fun tail => ?_
      split
      · exact hP.pure _
      · exact hP.fail _
    · exact ihr (head :: heads)
  | _ => exact hP.pure _

/-- The body of a closure is evaluated in a frame of its own. -/
theorem apply {i : FrameId} (f : Callable) (args : Value) : P i (f.apply ev args) := by
  cases f with
  | primitive name op => exact hP.primitive op args
  | closure name params body frame =>
    refine hP.bind (hP.ofExcept _) fun b => ?_
    exact hP.derive frame b fun j => hP.evaluateAfter hev j _ body

theorem evaluateFormsAfter (i : FrameId) (error? : Option Source.SyntaxError) (last : Value)
    (forms : List Source.Form) : P i (ev.evaluateFormsAfter i error? last forms) := by
  induction forms generalizing last with
  | nil =>
    cases error? with
    | none => exact hP.pure last
    | some e => exact hP.fail _
  | cons form forms ih => exact hP.bind (hev i form.value) ih

theorem evaluateSource (i : FrameId) (comments : Bool) (source : String) :
    P i (ev.evaluateSource i comments source) :=
  hP.evaluateFormsAfter hev i _ _ _

theorem loadBytes (i : FrameId) (path : String) (contents : ByteArray) :
    P i (ev.loadBytes i path contents) := by
  rw [Evaluator.loadBytes]
  split
  · exact hP.fail _
  · exact hP.mapError _ (hP.evaluateSource hev i true _)

theorem loadFile (files : Files) (i : FrameId) (path : String) :
    P i (ev.loadFile files i path) := by
  rw [Evaluator.loadFile]
  split
  · exact hP.fail _
  · exact hP.loadBytes hev i path _

theorem loadAll (files : Files) (i : FrameId) (operands : Value) :
    P i (ev.loadAll files i operands) := by
  induction operands with
  | cons first rest _ ih =>
    cases first with
    | string path => exact hP.bind (hP.loadFile hev files i path) fun _ => ih
    | _ => exact hP.fail _
  | _ => exact hP.pure _

theorem defineName (i : FrameId) (operands : Value) : P i (ev.defineName i operands) := by
  unfold Evaluator.defineName
  split
  · split
    · refine hP.bind (hev i _) fun v => ?_
      exact hP.bind (hP.define i _ _) fun _ => hP.pure _
    · exact hP.fail _
    · exact hP.fail _
  · exact hP.defineCallable _ _ i _
  · exact hP.fail _
  · exact hP.fail _

theorem branch (i : FrameId) (operands : Value) : P i (ev.branch i operands) := by
  unfold Evaluator.branch
  split
  · refine hP.bind (hev i _) fun v => ?_
    split
    · exact hev i _
    · split
      · exact hev i _
      · exact hP.pure _
  · exact hP.fail _

theorem run (files : Files) (form : SpecialForm) (i : FrameId) (operands : Value) :
    P i (form.run ev files i operands) := by
  cases form with
  | define => exact hP.defineName hev i operands
  | defineFunction | defineMacro => exact hP.defineCallable _ _ i operands
  | lambda | fn | makeMacro => exact hP.makeClosure _ _ i operands
  | branch => exact hP.branch hev i operands
  | increment => exact hP.incrementOperand i operands
  | load => exact hP.loadAll hev files i operands

theorem call (files : Files) (i : FrameId) (head operands : Value) :
    P i (ev.call files i head operands) := by
  rw [Evaluator.call]
  refine hP.bind (hev i head) fun v => ?_
  split
  · exact hP.bind (hP.ofExcept _) fun _ => hP.run hev files _ i operands
  · exact hP.bind (hP.evaluateOnto hev i [] operands) fun args => hP.apply hev _ args
  · exact hP.bind (hP.evaluateOnto hev i [] operands) fun args => hP.apply hev _ args
  · exact hP.bind (hP.apply hev _ operands) fun expansion => hev i expansion
  · exact hP.fail _

/-- The rules of evaluation hand a hereditary property on from the expressions inside. -/
theorem step (files : Files) (i : FrameId) (e : Value) : P i (ev.step files i e) := by
  unfold Evaluator.step
  split
  case h_4 x => exact hP.lookup i x
  case h_6 template => exact hP.expandOnto hev i [] template
  case h_7 head operands => exact hP.call hev files i head operands
  case h_8 => exact hP.fail _
  all_goals exact hP.pure _

end Rules

/-- Evaluation has every hereditary property. -/
theorem eval (files : Files) (depth : Nat) (i : FrameId) (e : Value) :
    P i (eval files depth i e) := by
  induction depth generalizing i e with
  | zero => exact hP.exhausted
  | succ depth ih => exact hP.step ih files i e

end Action.Hereditary

/-! ### Relations between the state before and the state after -/

/-- However the action ends, the state before it and the state after it are related. -/
def Action.Moves (R : State → State → Prop) {α : Type} (m : Action α) : Prop :=
  ∀ σ τ, (m σ).state? = some τ → R σ τ

/-- A relation of states that goes along with the frame of the evaluation *accumulates* when it is
transitive, holds of every single change that an evaluation in this frame makes to the store, and
holds across the making of a new frame when it does so from there in that frame. -/
structure State.Accumulates (R : FrameId → State → State → Prop) : Prop where
  of_frames_eq {i : FrameId} {σ τ : State} : τ.frames = σ.frames → R i σ τ
  trans {i : FrameId} {ρ σ τ : State} : R i ρ σ → R i σ τ → R i ρ τ
  bind {i : FrameId} {σ : State} {x : String} (v : Value) :
    σ.local? i x = none → R i σ (σ.bind i x v)
  assign {i j : FrameId} {σ : State} {x : String} {n m : Fixnum} :
    σ.local? j x = some (.integer n) → m.val = n.val + 1 → R i σ (σ.assign j x (.integer m))
  derive {i k : FrameId} {σ τ : State} {b : Bindings} :
    R σ.frameCount (σ.derive k b) τ → R i σ τ

namespace Action

variable {α β : Type} {R : State → State → Prop}

theorem Moves.bind {m : Action α} {f : α → Action β} (hm : m.Moves R) (hf : ∀ a, (f a).Moves R)
    (hR : ∀ ρ σ τ, R ρ σ → R σ τ → R ρ τ) : (m >>= f).Moves R := by
  intro ρ τ hτ
  rw [bind_apply] at hτ
  have hρ := hm ρ
  cases hmρ : m ρ with
  | done a σ =>
    rw [hmρ] at hτ hρ
    exact hR ρ σ τ (hρ σ rfl) (hf a σ τ hτ)
  | failed e σ =>
    rw [hmρ] at hτ hρ
    obtain rfl : σ = τ := Option.some.inj hτ
    exact hρ σ rfl
  | exhausted =>
    rw [hmρ] at hτ
    cases hτ

theorem Moves.mapError (f : Error → Error) {m : Action α} (hm : m.Moves R) :
    (m.mapError f).Moves R := by
  intro σ τ hτ
  have hσ := hm σ
  simp only [Action.mapError] at hτ
  cases hmσ : m σ <;> rw [hmσ] at hτ hσ <;> exact hσ τ hτ

end Action

/-- A relation that accumulates is met by evaluation. -/
theorem State.Accumulates.hereditary {R : FrameId → State → State → Prop} (hR : Accumulates R) :
    Action.Hereditary fun i _ m => m.Moves (R i) where
  pure a σ τ hτ := by
    cases hτ
    exact hR.of_frames_eq rfl
  bind hm hf := hm.bind hf fun _ _ _ => hR.trans
  fail e σ τ hτ := by
    cases hτ
    exact hR.of_frames_eq rfl
  exhausted σ τ hτ := by cases hτ
  mapError f hm := hm.mapError f
  lookup i x σ τ hτ := by
    unfold Action.lookup at hτ
    split at hτ <;> cases hτ <;> exact hR.of_frames_eq rfl
  define i x v σ τ hτ := by
    unfold Action.define at hτ
    split at hτ <;> cases hτ
    · exact hR.of_frames_eq rfl
    · exact hR.bind v ‹_›
  increment i x σ τ hτ := by
    unfold Action.increment at hτ
    split at hτ
    · cases hτ
      exact hR.of_frames_eq rfl
    · next j n hn =>
      split at hτ <;> cases hτ
      · next m hm =>
        exact hR.assign (local?_of_resolve? hn) (Fixnum.ofInt?_eq_some_iff.1 hm).symm
      · exact hR.of_frames_eq rfl
    · cases hτ
      exact hR.of_frames_eq rfl
  newClosure i role name params body σ τ hτ := by
    cases hτ
    exact hR.of_frames_eq rfl
  print text σ τ hτ := by
    cases hτ
    exact hR.of_frames_eq rfl
  derive frame b _ hbody σ τ hτ := hR.derive (hbody σ.frameCount _ τ hτ)

end ConsLisp
