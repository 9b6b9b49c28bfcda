import ConsLisp.Proofs.Evaluation.Observation
import ConsLisp.Proofs.Source.Joining
import ConsLisp.Proofs.Store.BoundValues
import ConsLisp.Proofs.Value.Callables

/-!
# The record of closures

A closure is told from others by its number, which is the number of closures made before it. So the
closures that a program has made can be put on record in order, each with what it was made of. A run
adds closures at the end of the record and changes nothing in it. Everything that comes up in the
run is on record: a closure with number `n`, wherever it is found and whatever name it has got, is
made of what the record tells under `n`.

This module proves that rule by rule. The record at the end of a run depends on the run, and so does
the record that the next action finds: what is known about a value that an action returns is known
of the record after it. The run is compared with observed runs, so that the law also covers the
moments in the middle of it. An observer that does nothing at moments that are on record makes no
difference, hence there are no others.

## Main definitions

* `Making`, `Record`: what a closure was made of; the closures made so far, in order.
* `Value.IsFrom`, `Value.IsOnRecord`, `State.IsOnRecord`: the record tells what closures are made
  of.
* `Event.Shows`, `State.Holds`: the callables that are part of an event and of bound values.
* `IsMomentOn`: all that is found at a moment of a run is on record.
* `Action.KeepsRecord`: an action adds to the record, and nothing comes up in it that is not on
  record.

## Main results

* `Value.equals_iff_of_isFrom`: callables on one record are equal only if they are the same.
* `Action.KeepsRecord.newClosure`: a new closure is put on record.
* `Action.KeepsRecord.step`: the rules of evaluation keep the record.
* `keepsRecord_eval`: evaluation keeps the record.
-/

namespace ConsLisp

/-! ### Records -/

/-- What a closure was made of. -/
structure Making where
  role : Role
  params : Value
  body : Value
  frame : FrameId

/-- The closures made so far, in the order of their numbers. -/
abbrev Record := List Making

variable {R R' S : Record}

/-- If the value is a closure, it is the one that the record tells under its number. -/
def Value.IsFrom (R : Record) : Value → Prop
  | .closure role _ id params body frame => R[id]? = some ⟨role, params, body, frame⟩
  | _ => True

/-- A record that goes on tells of the closures before what it told. -/
theorem Value.IsFrom.mono {u : Value} (h : u.IsFrom R) (hR : R <+: R') : u.IsFrom R' := by
  cases u with
  | closure =>
    obtain ⟨more, rfl⟩ := hR
    rw [IsFrom] at h ⊢
    rw [List.getElem?_append_left (List.getElem?_eq_some_iff.1 h).1, h]
  | _ => trivial

theorem Value.IsFrom.of_unnamed_eq {u w : Value} (h : u.IsFrom R) (huw : u.unnamed = w.unnamed) :
    w.IsFrom R := by
  cases w with
  | closure =>
    cases u <;> cases huw
    exact h
  | _ => trivial

/-- The closures in the value are on record. -/
abbrev Value.IsOnRecord (R : Record) (v : Value) : Prop :=
  v.HoldsOnly (Value.IsFrom R)

theorem Value.HoldsOnly.extend {v : Value} (h : v.IsOnRecord R) (hR : R <+: R') : v.IsOnRecord R' :=
  fun u hu => (h u hu).mono hR

/-- The record tells of as many closures as were made, and the closures in all bound values are on
it. -/
structure State.IsOnRecord (R : Record) (σ : State) : Prop where
  length_eq : R.length = σ.closures
  bindsOnly : σ.BindsOnly (Value.IsOnRecord R)

/-! ### Moments -/

/-- The callable is part of what an event tells of. -/
def Event.Shows (u : Value) : Event → Prop
  | .evaluated v => u ∈ v.callables
  | .passing list => u ∈ list.callables
  | .loading _ => False

/-- The callable is part of a bound value. -/
def State.Holds (u : Value) (σ : State) : Prop :=
  ∃ i x v, σ.local? i x = some v ∧ u ∈ v.callables

/-- All that is found when the event happens in the state is on record. -/
structure IsMomentOn (R : Record) (event : Event) (σ : State) : Prop where
  state : σ.IsOnRecord R
  event : ∀ u, event.Shows u → u.IsFrom R

/-- The observer does nothing at moments that are on a record between the two. -/
def Observer.IdleBetween (R R' : Record) (O : Observer) : Prop :=
  ∀ S event σ, R <+: S → S <+: R' → IsMomentOn S event σ → O event σ = .done () σ

theorem Observer.IdleBetween.mono {O : Observer} {S' : Record} (h : O.IdleBetween R R')
    (hS : R <+: S) (hS' : S' <+: R') : O.IdleBetween S S' :=
  fun T event σ hT hT' hmoment => h T event σ (hS.trans hT) (hT'.trans hS') hmoment

/-! ### Actions that keep the record -/

/-- The outcome is on record, and its result has the property. -/
def Outcome.IsOnRecord {α : Type} (R : Record) (Q : α → Prop) : Outcome α → Prop
  | .done a τ => τ.IsOnRecord R ∧ Q a
  | .failed _ τ => τ.IsOnRecord R
  | .exhausted => True

theorem Outcome.IsOnRecord.state {α : Type} {Q : α → Prop} {r : Outcome α} (h : r.IsOnRecord R Q)
    {τ : State} (hτ : r.state? = some τ) : τ.IsOnRecord R := by
  cases r with
  | done a τ' =>
    obtain rfl := Option.some.inj hτ
    exact h.1
  | failed e τ' =>
    obtain rfl := Option.some.inj hτ
    exact h
  | exhausted => cases hτ

namespace Action

variable {α β : Type}

/-- Taken where the closures are on the record `R`, the action ends with a record that goes on from
`R`. The action is the same when it is observed, unless the observer does something at a moment that
is on none of the records between the two. -/
def KeepsRecord (R : Record) (Q : Record → α → Prop) (observed : Observer → Action α)
    (m : Action α) : Prop :=
  ∀ σ, σ.IsOnRecord R → ∃ R', R <+: R' ∧
    (∀ O : Observer, O.IdleBetween R R' → observed O σ = m σ) ∧ (m σ).IsOnRecord R' (Q R')

/-- An action that keeps the record and returns a value on record. -/
abbrev KeepsRecordIn (R : Record) (observed : Observer → Action Value) (m : Action Value) : Prop :=
  KeepsRecord R Value.IsOnRecord observed m

/-- The action makes no closure: the record after it is the one before it. -/
def IsSteady (R : Record) (Q : α → Prop) (m : Action α) : Prop :=
  ∀ σ, σ.IsOnRecord R → (m σ).IsOnRecord R Q

variable {Q : Record → α → Prop} {Q' : Record → β → Prop}

/-! ### Actions that make no closure -/

namespace IsSteady

theorem keepsRecord {m : Action α} (h : IsSteady R (Q R) m) : KeepsRecord R Q (fun _ => m) m :=
  fun σ hσ => ⟨R, List.prefix_rfl, fun _ _ => rfl, h σ hσ⟩

theorem bind {P : α → Prop} {m : Action α} {observed : Observer → α → Action β} {f : α → Action β}
    (hm : IsSteady R P m) (hf : ∀ a, P a → KeepsRecord R Q' (fun O => observed O a) (f a)) :
    KeepsRecord R Q' (fun O => m >>= observed O) (m >>= f) := by
  intro σ hσ
  have hr := hm σ hσ
  simp only [bind_apply]
  cases hmσ : m σ with
  | done a τ =>
    rw [hmσ] at hr
    exact hf a hr.2 τ hr.1
  | failed e τ =>
    rw [hmσ] at hr
    exact ⟨R, List.prefix_rfl, fun _ _ => rfl, hr⟩
  | exhausted => exact ⟨R, List.prefix_rfl, fun _ _ => rfl, trivial⟩

theorem pure {P : α → Prop} {a : α} (h : P a) : IsSteady R P (Pure.pure a) :=
  fun _ hσ => ⟨hσ, h⟩

theorem fail {P : α → Prop} (e : Error) : IsSteady R P (Action.fail e) :=
  fun _ hσ => hσ

theorem ofExcept {P : α → Prop} {result : Except Error α} (h : ∀ a, result = .ok a → P a) :
    IsSteady R P (Action.ofExcept result) := by
  cases result with
  | ok a => exact pure (h a rfl)
  | error e => exact fail e

theorem lookup (i : FrameId) (x : String) : IsSteady R (Value.IsOnRecord R) (Action.lookup i x) := by
  intro σ hσ
  unfold Action.lookup State.lookup?
  cases hv : σ.resolve? i x with
  | none => exact hσ
  | some p => exact ⟨hσ, hσ.bindsOnly _ _ _ (State.local?_of_resolve? hv)⟩

theorem define (i : FrameId) (x : String) {v : Value} (hv : v.IsOnRecord R) :
    IsSteady R (fun _ => True) (Action.define i x v) := by
  intro σ hσ
  unfold Action.define
  cases σ.local? i x with
  | none => exact ⟨⟨hσ.length_eq, hσ.bindsOnly.bind i x hv⟩, trivial⟩
  | some w => exact hσ

theorem increment (i : FrameId) (x : String) :
    IsSteady R (Value.IsOnRecord R) (Action.increment i x) := by
  intro σ hσ
  have hinteger (n : Fixnum) : (Value.integer n).IsOnRecord R := .of_callables_eq_nil rfl
  unfold Action.increment
  split
  · exact hσ
  · split
    · exact ⟨⟨hσ.length_eq, hσ.bindsOnly.assign _ x (hinteger _)⟩, hinteger _⟩
    · exact hσ
  · exact hσ

theorem print (text : String) : IsSteady R (fun _ => True) (Action.print text) :=
  fun _ hσ => ⟨⟨hσ.length_eq, hσ.bindsOnly.of_frames_eq rfl⟩, trivial⟩

theorem derive (i : FrameId) {b : Bindings} (hb : ∀ p ∈ b, p.2.IsOnRecord R) :
    IsSteady R (fun _ => True) (Action.derive i b) :=
  fun _ hσ => ⟨⟨hσ.length_eq, hσ.bindsOnly.derive i hb⟩, trivial⟩

theorem checkLambdaList (params : Value) :
    IsSteady R (fun _ => True) (checkLambdaList params) := by
  unfold ConsLisp.checkLambdaList
  split
  · exact pure trivial
  · exact fail _

end IsSteady

/-! ### Sequences and new closures -/

namespace KeepsRecord

theorem pure {a : α} (h : Q R a) : KeepsRecord R Q (fun _ => Pure.pure a) (Pure.pure a) :=
  (IsSteady.pure h).keepsRecord

theorem fail (e : Error) : KeepsRecord R Q (fun _ => Action.fail e) (Action.fail e) :=
  (IsSteady.fail e).keepsRecord

/-- What follows an action finds the record that the action has left. -/
theorem bind {observed : Observer → Action α} {m : Action α} {observed' : Observer → α → Action β}
    {f : α → Action β} (hm : KeepsRecord R Q observed m)
    (hf : ∀ R', R <+: R' → ∀ a, Q R' a → KeepsRecord R' Q' (fun O => observed' O a) (f a)) :
    KeepsRecord R Q' (fun O => observed O >>= observed' O) (m >>= f) := by
  intro σ hσ
  obtain ⟨R', hR, hsame, hr⟩ := hm σ hσ
  simp only [bind_apply]
  cases hmσ : m σ with
  | done a τ =>
    rw [hmσ] at hr hsame
    obtain ⟨R'', hR', hsame', hr'⟩ := hf R' hR a hr.2 τ hr.1
    refine ⟨R'', hR.trans hR', fun O hO => ?_, hr'⟩
    rw [hsame O (hO.mono List.prefix_rfl hR')]
    exact hsame' O (hO.mono hR List.prefix_rfl)
  | failed e τ =>
    rw [hmσ] at hr hsame
    exact ⟨R', hR, fun O hO => by rw [hsame O hO], hr⟩
  | exhausted =>
    rw [hmσ] at hsame
    exact ⟨R', hR, fun O hO => by rw [hsame O hO], trivial⟩

theorem mapError {observed : Observer → Action α} {m : Action α} (f : Error → Error)
    (hm : KeepsRecord R Q observed m) :
    KeepsRecord R Q (fun O => (observed O).mapError f) (m.mapError f) := by
  intro σ hσ
  obtain ⟨R', hR, hsame, hr⟩ := hm σ hσ
  refine ⟨R', hR, fun O hO => ?_, ?_⟩
  · simp only [Action.mapError, hsame O hO]
  · rw [Action.mapError]
    cases hmσ : m σ <;> rw [hmσ] at hr <;> exact hr

/-- What an observer is told of is on record. -/
theorem observed {event : Event} {observed : Observer → Action α} {m : Action α}
    (hevent : ∀ u, event.Shows u → u.IsFrom R) (hm : KeepsRecord R Q observed m) :
    KeepsRecord R Q (fun O => O event >>= fun _ => observed O) m := by
  intro σ hσ
  obtain ⟨R', hR, hsame, hr⟩ := hm σ hσ
  refine ⟨R', hR, fun O hO => ?_, hr⟩
  have hidle := hO R event σ List.prefix_rfl hR ⟨hσ, hevent⟩
  simp only [bind_apply, hidle]
  exact hsame O hO

/-- A new closure is put on record. -/
theorem newClosure (role : Role) (name : String) {params body : Value}
    (hparams : params.IsOnRecord R) (hbody : body.IsOnRecord R) (i : FrameId) :
    KeepsRecordIn R (fun _ => Action.newClosure role name params body i)
      (Action.newClosure role name params body i) := by
  intro σ hσ
  have hR : R <+: R ++ [⟨role, params, body, i⟩] := List.prefix_append _ _
  refine ⟨_, hR, fun _ _ => rfl, ⟨?_, ?_⟩, ?_⟩
  · rw [List.length_append, hσ.length_eq]
    rfl
  · exact State.BindsOnly.of_frames_eq (fun j x v hv => (hσ.bindsOnly j x v hv).extend hR) rfl
  · refine Value.holdsOnly_closure.2 ⟨?_, hparams.extend hR, hbody.extend hR⟩
    rw [Value.IsFrom, ← hσ.length_eq, List.getElem?_concat_length]

theorem makeClosure (role : Role) (name : String) (i : FrameId) {operands : Value}
    (hoperands : operands.IsOnRecord R) :
    KeepsRecordIn R (fun _ => Evaluator.makeClosure role name i operands)
      (Evaluator.makeClosure role name i operands) :=
  (IsSteady.checkLambdaList _).bind fun _ _ =>
    newClosure role name hoperands.first? hoperands.rest? i

theorem defineCallable (role : Role) (form : String) (i : FrameId) {operands : Value}
    (hoperands : operands.IsOnRecord R) :
    KeepsRecordIn R (fun _ => Evaluator.defineCallable role form i operands)
      (Evaluator.defineCallable role form i operands) := by
  unfold Evaluator.defineCallable
  split
  · obtain ⟨hsignature, hbody⟩ := Value.holdsOnly_cons.1 hoperands
    obtain ⟨-, hparams⟩ := Value.holdsOnly_cons.1 hsignature
    refine (IsSteady.checkLambdaList _).bind fun _ _ => ?_
    refine (newClosure role _ hparams hbody i).bind fun R' _ f hf => ?_
    exact (IsSteady.define i _ hf).bind fun _ _ => pure (.of_callables_eq_nil rfl)
  · exact fail _
  · exact fail _

theorem primitive (op : Primitive) {args : Value} (hargs : args.IsOnRecord R) :
    KeepsRecordIn R (fun _ => op.apply args) (op.apply args) := by
  have hcompute : IsSteady R (Value.IsOnRecord R) (Action.ofExcept (op.compute args)) :=
    IsSteady.ofExcept fun _ hv => hargs.of_compute hv
  refine (IsSteady.ofExcept (P := fun _ => True) fun _ _ => trivial).bind fun _ _ => ?_
  cases op with
  | println => exact (IsSteady.print _).bind fun _ _ => hcompute.keepsRecord
  | _ => exact hcompute.keepsRecord

theorem incrementOperand (i : FrameId) (operands : Value) :
    KeepsRecordIn R (fun _ => Evaluator.increment i operands) (Evaluator.increment i operands) := by
  unfold Evaluator.increment
  split
  · exact (IsSteady.increment i _).keepsRecord
  · exact fail _

/-! ### Rules that evaluate the expressions inside an expression -/

section Rules

variable {files : Files} {ev : Evaluator} {evs : Observer → Evaluator}
  (hev : ∀ {R : Record} (i : FrameId) {e : Value}, e.IsOnRecord R →
    KeepsRecordIn R (fun O => evs O i e) (ev i e))
include hev

theorem evaluateOnto (i : FrameId) {values : List Value} {operands : Value}
    (hvalues : ∀ v ∈ values, v.IsOnRecord R) (hoperands : operands.IsOnRecord R) :
    KeepsRecordIn R (fun O => (evs O).evaluateOnto i values operands)
      (ev.evaluateOnto i values operands) := by
  induction operands generalizing values R with
  | cons first rest _ ih =>
    obtain ⟨hfirst, hrest⟩ := Value.holdsOnly_cons.1 hoperands
    refine (hev i hfirst).bind fun R' hR v hv => ?_
    exact ih (List.forall_mem_cons.2 ⟨hv, fun u hu => (hvalues u hu).extend hR⟩) (hrest.extend hR)
  | _ => exact pure (Value.holdsOnly_unwind hvalues (.of_callables_eq_nil rfl))

theorem evaluateAfter (i : FrameId) {last body : Value} (hlast : last.IsOnRecord R)
    (hbody : body.IsOnRecord R) :
    KeepsRecordIn R (fun O => (evs O).evaluateAfter i last body) (ev.evaluateAfter i last body) := by
  induction body generalizing last R with
  | cons first rest _ ih =>
    obtain ⟨hfirst, hrest⟩ := Value.holdsOnly_cons.1 hbody
    exact (hev i hfirst).bind fun R' hR v hv => ih hv (hrest.extend hR)
  | _ => exact pure hlast

theorem expandOnto (i : FrameId) {heads : List Value} {template : Value}
    (hheads : ∀ v ∈ heads, v.IsOnRecord R) (htemplate : template.IsOnRecord R) :
    KeepsRecordIn R (fun O => (evs O).expandOnto i heads template)
      (ev.expandOnto i heads template) := by
  induction template generalizing heads R with
  | quoted kind inner =>
    cases kind with
    | unquote =>
      have hinner : inner.IsOnRecord R := htemplate
      refine (hev i hinner).bind fun R' hR tail htail => ?_
      exact pure (Value.holdsOnly_unwind (fun u hu => (hheads u hu).extend hR) htail)
    | _ => exact pure (Value.holdsOnly_unwind hheads htemplate)
  | cons first rest ihfirst ihrest =>
    obtain ⟨hfirst, hrest⟩ := Value.holdsOnly_cons.1 htemplate
    unfold Evaluator.expandOnto
    refine (ihfirst (List.forall_mem_nil _) hfirst).bind fun R' hR head hhead => ?_
    have hheads' : ∀ v ∈ head :: heads, v.IsOnRecord R' :=
      List.forall_mem_cons.2 ⟨hhead, fun u hu => (hheads u hu).extend hR⟩
    split
    · next e _ =>
      have he : e.IsOnRecord R' := (Value.holdsOnly_cons.1 hrest).1.extend hR
      refine (hev i he).bind fun R'' hR' tail htail => ?_
      split
      · exact pure (Value.holdsOnly_unwind (fun u hu => (hheads' u hu).extend hR') htail)
      · exact fail _
    · exact ihrest hheads' (hrest.extend hR)
  | _ => exact pure (Value.holdsOnly_unwind hheads htemplate)

/-- Calls a callable whose lambda list and body, if it has any, are on record. -/
theorem apply {f : Callable} {args : Value} (hargs : args.IsOnRecord R)
    (hf : ∀ name params body frame, f = .closure name params body frame →
      params.IsOnRecord R ∧ body.IsOnRecord R) :
    KeepsRecordIn R (fun O => f.apply (evs O) args) (f.apply ev args) := by
  cases f with
  | primitive name op => exact primitive op hargs
  | closure name params body frame =>
    obtain ⟨hparams, hbody⟩ := hf name params body frame rfl
    refine (IsSteady.ofExcept fun b hb => ?_).bind fun b hb =>
      (IsSteady.derive frame hb).bind fun i _ => ?_
    · exact Value.holdsOnly_of_bindParameters hparams hargs hb
    · exact evaluateAfter hev i (.of_callables_eq_nil rfl) hbody

theorem evaluateFormsAfter (i : FrameId) (error? : Option Source.SyntaxError) {last : Value}
    {forms : List Source.Form} (hlast : last.IsOnRecord R)
    (hforms : ∀ form ∈ forms, form.value.IsSyntax) :
    KeepsRecordIn R (fun O => (evs O).evaluateFormsAfter i error? last forms)
      (ev.evaluateFormsAfter i error? last forms) := by
  induction forms generalizing last R with
  | nil =>
    cases error? with
    | none => exact pure hlast
    | some e => exact fail _
  | cons form forms ih =>
    obtain ⟨hform, hforms⟩ := List.forall_mem_cons.1 hforms
    exact (hev i (Value.holdsOnly_of_isSyntax hform)).bind fun R' _ v hv => ih hv hforms

theorem evaluateSource (i : FrameId) (comments : Bool) (source : String) :
    KeepsRecordIn R (fun O => (evs O).evaluateSource i comments source)
      (ev.evaluateSource i comments source) :=
  evaluateFormsAfter hev i _ (.of_callables_eq_nil rfl)
    fun _ hform => Source.isSyntax_of_mem_readForms hform

theorem loadBytes (i : FrameId) (path : String) (contents : ByteArray) :
    KeepsRecordIn R (fun O => (evs O).loadBytes i path contents) (ev.loadBytes i path contents) := by
  unfold Evaluator.loadBytes
  split
  · exact fail _
  · exact (evaluateSource hev i true _).mapError (Error.whileLoading path)

theorem loadFile (i : FrameId) (path : String) :
    KeepsRecordIn R (fun O => (evs O).loadFile files i path) (ev.loadFile files i path) := by
  unfold Evaluator.loadFile
  split
  · exact fail _
  · exact loadBytes hev i path _

theorem loadAll (i : FrameId) {operands : Value} :
    KeepsRecordIn R (fun O => O.loadAll (evs O) files i operands) (ev.loadAll files i operands) := by
  induction operands generalizing R with
  | cons first rest _ ih =>
    cases first with
    | string path => exact observed nofun ((loadFile hev i path).bind fun _ _ _ _ => ih)
    | _ => exact fail _
  | _ => exact pure (.of_callables_eq_nil rfl)

theorem defineName (i : FrameId) {operands : Value} (hoperands : operands.IsOnRecord R) :
    KeepsRecordIn R (fun O => (evs O).defineName i operands) (ev.defineName i operands) := by
  unfold Evaluator.defineName
  split
  · next name _ =>
    split
    · next e hparts =>
      have he : e.IsOnRecord R := hoperands.of_properElements hparts e (by simp)
      refine (hev i he).bind fun R' hR v hv => ?_
      refine (IsSteady.define i name ?_).bind fun _ _ => pure (.of_callables_eq_nil rfl)
      exact hv.named Value.IsFrom.of_unnamed_eq name
    · exact fail _
    · exact fail _
  · exact defineCallable _ _ i hoperands
  · exact fail _
  · exact fail _

theorem branch (i : FrameId) {operands : Value} (hoperands : operands.IsOnRecord R) :
    KeepsRecordIn R (fun O => (evs O).branch i operands) (ev.branch i operands) := by
  unfold Evaluator.branch
  split
  · obtain ⟨htest, hrest⟩ := Value.holdsOnly_cons.1 hoperands
    obtain ⟨hconsequent, hrest⟩ := Value.holdsOnly_cons.1 hrest
    refine (hev i htest).bind fun R' hR v _ => ?_
    split
    · exact hev i (hconsequent.extend hR)
    · split
      · exact hev i ((Value.holdsOnly_cons.1 hrest).1.extend hR)
      · exact pure (.of_callables_eq_nil rfl)
  · exact fail _

theorem run (form : SpecialForm) (i : FrameId) {operands : Value}
    (hoperands : operands.IsOnRecord R) :
    KeepsRecordIn R (fun O => O.run (evs O) files form i operands)
      (form.run ev files i operands) := by
  cases form with
  | define => exact defineName hev i hoperands
  | defineFunction | defineMacro => exact defineCallable _ _ i hoperands
  | lambda | fn | makeMacro => exact makeClosure _ _ i hoperands
  | branch => exact branch hev i hoperands
  | increment => exact incrementOperand i operands
  | load => exact loadAll hev i

theorem call (i : FrameId) {head operands : Value} (hhead : head.IsOnRecord R)
    (hoperands : operands.IsOnRecord R) :
    KeepsRecordIn R (fun O => O.call (evs O) files i head operands)
      (ev.call files i head operands) := by
  refine (hev i hhead).bind fun R' hR v hv => ?_
  have hoperands' := hoperands.extend hR
  have hargs := evaluateOnto hev i (List.forall_mem_nil _) hoperands'
  cases v with
  | specialForm form =>
    refine observed hoperands' ?_
    refine (IsSteady.ofExcept (P := fun _ => True) fun _ _ => trivial).bind fun _ _ => ?_
    exact run hev form i hoperands'
  | primitive name op =>
    exact hargs.bind fun R'' _ args hargs => observed hargs (primitive op hargs)
  | closure role name id params body frame =>
    obtain ⟨-, hparams, hbody⟩ := Value.holdsOnly_closure.1 hv
    have hf {S : Record} (hS : R' <+: S) : ∀ name' params' body' frame',
        Callable.closure name params body frame = .closure name' params' body' frame' →
          params'.IsOnRecord S ∧ body'.IsOnRecord S := by
      rintro _ _ _ _ ⟨⟩
      exact ⟨hparams.extend hS, hbody.extend hS⟩
    cases role with
    | function =>
      exact hargs.bind fun R'' hR' args hargs => observed hargs (apply hev hargs (hf hR'))
    | expander =>
      refine observed hoperands' ?_
      exact (apply hev hoperands' (hf List.prefix_rfl)).bind fun R'' _ expansion hexpansion =>
        hev i hexpansion
  | _ => exact fail _

theorem answer (i : FrameId) {e : Value} (he : e.IsOnRecord R) :
    KeepsRecordIn R (fun O => O.answer (evs O) files i e) (ev.step files i e) := by
  cases e with
  | symbol x => exact (IsSteady.lookup i x).keepsRecord
  | cons head operands =>
    obtain ⟨hhead, hoperands⟩ := Value.holdsOnly_cons.1 he
    exact call hev i hhead hoperands
  | quoted kind inner =>
    cases kind with
    | quote => exact pure he
    | quasiquote => exact expandOnto hev i (List.forall_mem_nil _) he
    | _ => exact fail _
  | empty | integer | string => exact pure (.of_callables_eq_nil rfl)
  | _ => exact fail _

/-- The rules of evaluation keep the record. -/
theorem step (i : FrameId) {e : Value} (he : e.IsOnRecord R) :
    KeepsRecordIn R (fun O => O.step (evs O) files i e) (ev.step files i e) := by
  rw [← bind_pure (ev.step files i e)]
  exact (answer hev i he).bind fun R' _ v hv => observed hv (pure hv)

end Rules

end KeepsRecord

end Action

/-- Evaluation keeps the record. -/
theorem keepsRecord_eval (files : Files) (depth : Nat) (i : FrameId) {e : Value}
    (he : e.IsOnRecord R) :
    Action.KeepsRecordIn R (fun O => O.eval files depth i e) (eval files depth i e) := by
  induction depth generalizing R i e with
  | zero => exact fun σ _ => ⟨R, List.prefix_rfl, fun _ _ => rfl, trivial⟩
  | succ depth ih => exact .step (fun i _ he => ih i he) i he

end ConsLisp
