import ConsLisp.Proofs.Evaluation.BigSteps
import ConsLisp.Proofs.Session.Reachable
import ConsLisp.Proofs.Source.Continuation
import ConsLisp.Proofs.Source.Joining
import ConsLisp.Proofs.Store.Relocation

/-!
# Evaluation does not depend on the places of frames

The same expression, up to places, is evaluated in two states of which one is found in the other.
Then both evaluations end alike, at the same depth: with the same error or with the same value up to
places, with the same output, and in states of which one is again found in the other. The frames
that were there before keep their places, and those that are made on the way get places behind them.
Frames that only the other state has make no difference.

## Main definitions

* `Outcome.RelocatesTo`, `Action.RelocatesTo`: outcomes and actions that are the same up to places.
* `Action.AnswersAs`: such actions with values as their results.
* `OutcomesMatch`: the outcomes that two actions may have are the same up to places.

## Main results

* `Action.AnswersAs.step`: the rules of evaluation do not depend on places.
* `eval_answersAs`, `apply_answersAs`: evaluations and calls do not.
* `evaluates_match`, `applies_match`, `OutcomesMatch.sequel`: evaluations, calls, and what is done
  after something, at any depth.
* `Reachable.relocatesTo_range`: a reachable state is found in itself, with every frame in its
  place.
-/

namespace ConsLisp

variable {α β γ δ : Type} {R S : Places} {i i' : FrameId}

/-- The outcomes are the same up to places: both actions have ended with the same error or with
related results, or neither has ended. -/
inductive Outcome.RelocatesTo (R : Places) (Q : α → β → Prop) : Outcome α → Outcome β → Prop
  | done {a : α} {b : β} {τ τ' : State} (h : Q a b) (hτ : τ.RelocatesTo R τ') :
      RelocatesTo R Q (.done a τ) (.done b τ')
  | failed (e : Error) {τ τ' : State} (hτ : τ.RelocatesTo R τ') :
      RelocatesTo R Q (.failed e τ) (.failed e τ')
  | exhausted : RelocatesTo R Q .exhausted .exhausted

theorem Outcome.RelocatesTo.ne_exhausted_iff {Q : α → β → Prop} {r : Outcome α} {r' : Outcome β}
    (h : r.RelocatesTo R Q r') : r ≠ .exhausted ↔ r' ≠ .exhausted := by
  cases h with
  | exhausted => exact ⟨fun h => absurd rfl h, fun h => absurd rfl h⟩
  | _ => exact ⟨nofun, nofun⟩

/-- Wherever the first state is found in the second, the actions have the same outcomes up to
places, and the frames that were there before keep their places. -/
def Action.RelocatesTo (R : Places) (Q : Places → α → β → Prop) (m : Action α) (m' : Action β) :
    Prop :=
  ∀ σ σ', σ.RelocatesTo R σ' → ∃ S, R <+: S ∧ (m σ).RelocatesTo S (Q S) (m' σ')

/-- The same callable, up to places. -/
inductive Callable.RelocatesTo (R : Places) : Callable → Callable → Prop
  | primitive (name : String) (op : Primitive) :
      RelocatesTo R (.primitive name op) (.primitive name op)
  | closure (name : String) {params params' body body' : Value} {frame frame' : FrameId}
      (hparams : params.RelocatesTo R params') (hbody : body.RelocatesTo R body')
      (hframe : R[frame]? = some frame') :
      RelocatesTo R (.closure name params body frame) (.closure name params' body' frame')

theorem Callable.RelocatesTo.mono {f f' : Callable} (h : f.RelocatesTo R f') (hR : R <+: S) :
    f.RelocatesTo S f' := by
  cases h with
  | primitive name op => exact .primitive name op
  | closure name hparams hbody hframe =>
    exact .closure name (hparams.mono hR) (hbody.mono hR) (Places.getElem?_of_prefix hR hframe)

/-- The actions return the same value up to places. -/
abbrev Action.AnswersAs (R : Places) (m m' : Action Value) : Prop :=
  RelocatesTo R Value.RelocatesTo m m'

namespace Action.RelocatesTo

variable {Q : Places → α → β → Prop} {P : Places → γ → δ → Prop}

/-! ### Sequences -/

theorem pure {a : α} {b : β} (h : Q R a b) : RelocatesTo R Q (Pure.pure a) (Pure.pure b) :=
  fun _ _ hσ => ⟨R, List.prefix_rfl, .done h hσ⟩

theorem fail (e : Error) : RelocatesTo R Q (Action.fail e) (Action.fail e) :=
  fun _ _ hσ => ⟨R, List.prefix_rfl, .failed e hσ⟩

/-- What follows an action finds the places that the action has left. -/
theorem bind {m : Action α} {m' : Action β} {f : α → Action γ} {f' : β → Action δ}
    (hm : RelocatesTo R Q m m')
    (hf : ∀ {S a b}, R <+: S → Q S a b → RelocatesTo S P (f a) (f' b)) :
    RelocatesTo R P (m >>= f) (m' >>= f') := by
  intro σ σ' hσ
  obtain ⟨S, hR, hr⟩ := hm σ σ' hσ
  rw [bind_apply, bind_apply]
  generalize m σ = r at hr
  generalize m' σ' = r' at hr
  cases hr with
  | done h hτ =>
    obtain ⟨T, hS, hr⟩ := hf hR h _ _ hτ
    exact ⟨T, hR.trans hS, hr⟩
  | failed e hτ => exact ⟨S, hR, .failed e hτ⟩
  | exhausted => exact ⟨S, hR, .exhausted⟩

theorem mapError {m : Action α} {m' : Action β} (hm : RelocatesTo R Q m m') (f : Error → Error) :
    RelocatesTo R Q (m.mapError f) (m'.mapError f) := by
  intro σ σ' hσ
  obtain ⟨S, hR, hr⟩ := hm σ σ' hσ
  refine ⟨S, hR, ?_⟩
  unfold Action.mapError
  generalize m σ = r at hr
  generalize m' σ' = r' at hr
  cases hr with
  | done h hτ => exact .done h hτ
  | failed e hτ => exact .failed (f e) hτ
  | exhausted => exact .exhausted

theorem ofExcept {result : Except Error α} {result' : Except Error β}
    (h : ResultsMatch (Q R) result result') :
    RelocatesTo R Q (Action.ofExcept result) (Action.ofExcept result') := by
  cases h with
  | ok h => exact pure h
  | error e => exact fail e

/-! ### Elementary actions -/

theorem lookup (hi : R[i]? = some i') (x : String) :
    AnswersAs R (Action.lookup i x) (Action.lookup i' x) := by
  intro σ σ' hσ
  refine ⟨R, List.prefix_rfl, ?_⟩
  have hx := hσ.resolve? hi x
  unfold Action.lookup State.lookup?
  generalize σ.resolve? i x = p? at hx
  generalize σ'.resolve? i' x = p?' at hx
  cases hx with
  | none => exact .failed _ hσ
  | some h => exact .done h.2 hσ

theorem define (hi : R[i]? = some i') (x : String) {v v' : Value} (hv : v.RelocatesTo R v') :
    RelocatesTo R (fun _ _ _ => True) (Action.define i x v) (Action.define i' x v') := by
  intro σ σ' hσ
  refine ⟨R, List.prefix_rfl, ?_⟩
  have hx := hσ.local? hi x
  unfold Action.define
  generalize σ.local? i x = v? at hx
  generalize σ'.local? i' x = v?' at hx
  cases hx with
  | none => exact .done trivial (hσ.bind hi x hv)
  | some h => exact .failed _ hσ

theorem increment (hi : R[i]? = some i') (x : String) :
    AnswersAs R (Action.increment i x) (Action.increment i' x) := by
  intro σ σ' hσ
  refine ⟨R, List.prefix_rfl, ?_⟩
  have hx := hσ.resolve? hi x
  unfold Action.increment
  generalize σ.resolve? i x = p? at hx
  generalize σ'.resolve? i' x = p?' at hx
  cases hx with
  | none => exact .failed _ hσ
  | @some p p' h =>
    obtain ⟨j, v⟩ := p
    obtain ⟨j', v'⟩ := p'
    obtain ⟨hj, hv⟩ := h
    have htype := hv.typeName_eq
    cases hv with
    | integer n =>
      simp only
      split
      · exact .done (.integer _) (hσ.assign hj x (.integer _))
      · exact .failed _ hσ
    | _ =>
      simp only [htype]
      exact .failed _ hσ

theorem newClosure (role : Role) (name : String) {params params' body body' : Value}
    (hparams : params.RelocatesTo R params') (hbody : body.RelocatesTo R body')
    (hi : R[i]? = some i') :
    AnswersAs R (Action.newClosure role name params body i)
      (Action.newClosure role name params' body' i') := by
  intro σ σ' hσ
  refine ⟨R, List.prefix_rfl, ?_⟩
  unfold Action.newClosure
  rw [← hσ.closures_eq]
  exact .done (.closure role name σ.closures hparams hbody hi)
    (hσ.of_frames_eq rfl rfl rfl hσ.printed_eq)

theorem print (text : String) :
    RelocatesTo R (fun _ _ _ => True) (Action.print text) (Action.print text) := by
  intro σ σ' hσ
  refine ⟨R, List.prefix_rfl, .done trivial (hσ.of_frames_eq rfl rfl hσ.closures_eq ?_)⟩
  exact congrArg (· ++ text) hσ.printed_eq

/-- A new frame gets a place behind all others. -/
theorem derive (hi : R[i]? = some i') {b b' : Bindings} (hb : Bindings.RelocatesTo R b b') :
    RelocatesTo R (fun S j j' => S[j]? = some j') (Action.derive i b) (Action.derive i' b') := by
  intro σ σ' hσ
  refine ⟨R ++ [σ'.frameCount], List.prefix_append _ _, .done ?_ (hσ.derive hi hb)⟩
  change (R ++ [σ'.frameCount])[σ.frameCount]? = some σ'.frameCount
  rw [← hσ.length_eq, List.getElem?_concat_length]

theorem checkLambdaList {params params' : Value} (h : params.RelocatesTo R params') :
    RelocatesTo R (fun _ _ _ => True) (checkLambdaList params) (checkLambdaList params') := by
  unfold ConsLisp.checkLambdaList
  rw [h.isList_eq, h.text_eq]
  split
  · exact pure trivial
  · exact fail _

theorem makeClosure (role : Role) (name : String) (hi : R[i]? = some i') {operands operands' : Value}
    (h : operands.RelocatesTo R operands') :
    AnswersAs R (Evaluator.makeClosure role name i operands)
      (Evaluator.makeClosure role name i' operands') :=
  (checkLambdaList h.first?).bind fun hR _ =>
    .newClosure role name (h.first?.mono hR) (h.rest?.mono hR) (Places.getElem?_of_prefix hR hi)

theorem defineCallable (role : Role) (form : String) (hi : R[i]? = some i')
    {operands operands' : Value} (h : operands.RelocatesTo R operands') :
    AnswersAs R (Evaluator.defineCallable role form i operands)
      (Evaluator.defineCallable role form i' operands') := by
  have htext := h.text_eq
  unfold Evaluator.defineCallable
  cases h with
  | cons hsignature hbody =>
    cases hsignature with
    | cons hhead hparams =>
      have hheadText := hhead.text_eq
      cases hhead with
      | symbol name =>
        refine (checkLambdaList hparams).bind fun hR _ => ?_
        have hi := Places.getElem?_of_prefix hR hi
        refine (newClosure role name (hparams.mono hR) (hbody.mono hR) hi).bind
          fun hR hf => ?_
        exact (define (Places.getElem?_of_prefix hR hi) name hf).bind
          fun _ _ => pure (.symbol name)
      | _ =>
        simp only [hheadText]
        exact fail _
    | _ =>
      simp only [htext]
      exact fail _
  | _ =>
    simp only [htext]
    exact fail _

theorem primitive (op : Primitive) {args args' : Value} (h : args.RelocatesTo R args') :
    AnswersAs R (op.apply args) (op.apply args') := by
  unfold Primitive.apply
  rw [h.length_eq]
  refine (ofExcept (Q := fun _ _ _ => True) ?_).bind fun hR _ => ?_
  · cases op.arity.check op.name args'.length with
    | ok => exact .ok trivial
    | error e => exact .error e
  · have hcompute := compute_match (h.mono hR) op
    cases op with
    | println =>
      unfold Primitive.run
      rw [lines_eq h.elements]
      exact (print _).bind fun hR' _ =>
        .ofExcept (compute_match ((h.mono hR).mono hR') .println)
    | _ => exact .ofExcept hcompute

theorem incrementOperand (hi : R[i]? = some i') {operands operands' : Value}
    (h : operands.RelocatesTo R operands') :
    AnswersAs R (Evaluator.increment i operands) (Evaluator.increment i' operands') := by
  unfold Evaluator.increment
  cases h with
  | cons hfirst =>
    have htext := hfirst.text_eq
    cases hfirst with
    | symbol x => exact .increment hi x
    | _ =>
      simp only [Value.first?, Option.getD_some, htext]
      exact fail _
  | _ => exact fail _

/-! ### Rules that evaluate the expressions inside an expression -/

section Rules

variable {files : Files} {ev : Evaluator}
  (hev : ∀ {R : Places} {i i' : FrameId} {e e' : Value}, R[i]? = some i' → e.RelocatesTo R e' →
    AnswersAs R (ev i e) (ev i' e'))
include hev

theorem evaluateOnto (hi : R[i]? = some i') {values values' : List Value} {operands operands' : Value}
    (hvalues : List.Forall₂ (Value.RelocatesTo R) values values')
    (h : operands.RelocatesTo R operands') :
    AnswersAs R (ev.evaluateOnto i values operands) (ev.evaluateOnto i' values' operands') := by
  induction operands generalizing R operands' values values' with
  | cons first rest _ ih =>
    cases h with
    | cons hfirst hrest =>
      refine (hev hi hfirst).bind fun hR hv => ?_
      exact ih (Places.getElem?_of_prefix hR hi)
        (.cons hv (hvalues.imp fun _ _ hu => hu.mono hR)) (hrest.mono hR)
  | _ =>
    cases h
    exact pure (.unwind hvalues .empty)

theorem evaluateAfter (hi : R[i]? = some i') {last last' body body' : Value}
    (hlast : last.RelocatesTo R last') (h : body.RelocatesTo R body') :
    AnswersAs R (ev.evaluateAfter i last body) (ev.evaluateAfter i' last' body') := by
  induction body generalizing R body' last last' with
  | cons first rest _ ih =>
    cases h with
    | cons hfirst hrest =>
      exact (hev hi hfirst).bind fun hR hv =>
        ih (Places.getElem?_of_prefix hR hi) hv (hrest.mono hR)
  | _ =>
    cases h
    exact pure hlast

theorem expand (hi : R[i]? = some i') {template template' : Value}
    (h : template.RelocatesTo R template') :
    AnswersAs R (ev.expand i template) (ev.expand i' template') := by
  rw [Evaluator.expand_eq_expandPlainly, Evaluator.expand_eq_expandPlainly]
  induction template generalizing R template' with
  | quoted kind inner =>
    cases h with
    | quoted kind hinner =>
      cases kind with
      | unquote => exact hev hi hinner
      | _ => exact pure (.quoted _ hinner)
  | cons first rest ihfirst ihrest =>
    cases h with
    | cons hfirst hrest =>
      obtain ⟨e, e', dropped, dropped', rfl, rfl, he⟩ | ⟨hother, hother'⟩ := hrest.splice_cases
      · refine (ihfirst hi hfirst).bind fun hR hhead => ?_
        refine (hev (Places.getElem?_of_prefix hR hi) (he.mono hR)).bind fun hR' htail => ?_
        rw [htail.isList_eq, htail.text_eq]
        split
        · exact pure (.cons (hhead.mono hR') htail)
        · exact fail _
      · rw [Evaluator.expandPlainly_cons ev i hother, Evaluator.expandPlainly_cons ev i' hother']
        refine (ihfirst hi hfirst).bind fun hR hhead => ?_
        refine (ihrest (Places.getElem?_of_prefix hR hi) (hrest.mono hR)).bind fun hR' htail => ?_
        exact pure (.cons (hhead.mono hR') htail)
  | _ =>
    have hsame := h
    cases h
    exact pure hsame

theorem apply {f f' : Callable} (hf : f.RelocatesTo R f') {args args' : Value}
    (h : args.RelocatesTo R args') : AnswersAs R (f.apply ev args) (f'.apply ev args') := by
  cases hf with
  | primitive name op => exact primitive op h
  | closure name hparams hbody hframe =>
    refine (ofExcept (Q := Bindings.RelocatesTo) (bindParameters_match name hparams h)).bind
      fun hR hb => ?_
    refine (derive (Places.getElem?_of_prefix hR hframe) hb).bind fun hR' hi => ?_
    exact evaluateAfter hev hi .empty ((hbody.mono hR).mono hR')

theorem evaluateFormsAfter (hi : R[i]? = some i') (error? : Option Source.SyntaxError)
    {last last' : Value} (hlast : last.RelocatesTo R last') {forms : List Source.Form}
    (hforms : ∀ form ∈ forms, form.value.IsSyntax) :
    AnswersAs R (ev.evaluateFormsAfter i error? last forms)
      (ev.evaluateFormsAfter i' error? last' forms) := by
  induction forms generalizing R last last' with
  | nil =>
    cases error? with
    | none => exact pure hlast
    | some e => exact fail _
  | cons form forms ih =>
    obtain ⟨hform, hforms⟩ := List.forall_mem_cons.1 hforms
    exact (hev hi (.of_isSyntax hform)).bind fun hR hv =>
      ih (Places.getElem?_of_prefix hR hi) hv hforms

theorem evaluateSource (hi : R[i]? = some i') (comments : Bool) (source : String) :
    AnswersAs R (ev.evaluateSource i comments source) (ev.evaluateSource i' comments source) :=
  evaluateFormsAfter hev hi _ .empty fun _ hform => Source.isSyntax_of_mem_readForms hform

theorem loadBytes (hi : R[i]? = some i') (path : String) (contents : ByteArray) :
    AnswersAs R (ev.loadBytes i path contents) (ev.loadBytes i' path contents) := by
  unfold Evaluator.loadBytes
  split
  · exact fail _
  · exact (evaluateSource hev hi true _).mapError _

theorem loadFile (hi : R[i]? = some i') (path : String) :
    AnswersAs R (ev.loadFile files i path) (ev.loadFile files i' path) := by
  unfold Evaluator.loadFile
  split
  · exact fail _
  · exact loadBytes hev hi path _

theorem loadAll (hi : R[i]? = some i') {operands operands' : Value}
    (h : operands.RelocatesTo R operands') :
    AnswersAs R (ev.loadAll files i operands) (ev.loadAll files i' operands') := by
  induction operands generalizing R operands' with
  | cons first rest _ ih =>
    cases h with
    | cons hfirst hrest =>
      have htext := hfirst.text_eq
      cases hfirst with
      | string path =>
        exact (loadFile hev hi path).bind fun hR _ =>
          ih (Places.getElem?_of_prefix hR hi) (hrest.mono hR)
      | _ =>
        simp only [Evaluator.loadAll, htext]
        exact fail _
  | _ =>
    cases h
    exact pure (.bool true)

/-- The definition of a name: there have to be two operands, of which the second is evaluated. -/
theorem defineSymbol (hi : R[i]? = some i') (name : String) {rest rest' : Value}
    (h : rest.RelocatesTo R rest') :
    AnswersAs R (ev.defineName i (.cons (.symbol name) rest))
      (ev.defineName i' (.cons (.symbol name) rest')) := by
  have hparts := properElements_match (.cons (.symbol name) h)
  simp only [Evaluator.defineName]
  generalize Value.properElements _ = parts at hparts
  generalize Value.properElements _ = parts' at hparts
  cases hparts with
  | error e => exact fail e
  | ok hparts =>
    have hlength := hparts.length_eq
    rcases hparts with _ | ⟨_, _ | ⟨he, _ | _⟩⟩
    · exact fail _
    · exact fail _
    · refine (hev hi he).bind fun hR hv => ?_
      exact (define (Places.getElem?_of_prefix hR hi) name (hv.named name)).bind
        fun _ _ => pure (.symbol name)
    · simp only [hlength]
      exact fail _

theorem defineName (hi : R[i]? = some i') {operands operands' : Value}
    (h : operands.RelocatesTo R operands') :
    AnswersAs R (ev.defineName i operands) (ev.defineName i' operands') := by
  cases h with
  | cons hfirst hrest =>
    have htext := hfirst.text_eq
    cases hfirst with
    | symbol name => exact defineSymbol hev hi name hrest
    | cons hhead hparams => exact defineCallable _ _ hi (.cons (.cons hhead hparams) hrest)
    | _ =>
      simp only [Evaluator.defineName, htext]
      exact fail _
  | _ => exact fail _

theorem branch (hi : R[i]? = some i') {operands operands' : Value}
    (h : operands.RelocatesTo R operands') :
    AnswersAs R (ev.branch i operands) (ev.branch i' operands') := by
  have hlength := h.length_eq
  unfold Evaluator.branch
  cases h with
  | cons htest hrest =>
    cases hrest with
    | cons hconsequent hrest =>
      refine (hev hi htest).bind fun hR hv => ?_
      have hi := Places.getElem?_of_prefix hR hi
      rw [hv.isTruthy_eq]
      split
      · exact hev hi (hconsequent.mono hR)
      · cases hrest with
        | cons halternative => exact hev hi (halternative.mono hR)
        | _ => exact pure .empty
    | _ =>
      simp only [hlength]
      exact fail _
  | _ => exact fail _

theorem run (form : SpecialForm) (hi : R[i]? = some i') {operands operands' : Value}
    (h : operands.RelocatesTo R operands') :
    AnswersAs R (form.run ev files i operands) (form.run ev files i' operands') := by
  cases form with
  | define => exact defineName hev hi h
  | defineFunction | defineMacro => exact defineCallable _ _ hi h
  | lambda | fn | makeMacro => exact makeClosure _ _ hi h
  | branch => exact branch hev hi h
  | increment => exact incrementOperand hi h
  | load => exact loadAll hev hi h

theorem call (hi : R[i]? = some i') {head head' operands operands' : Value}
    (hhead : head.RelocatesTo R head') (h : operands.RelocatesTo R operands') :
    AnswersAs R (ev.call files i head operands) (ev.call files i' head' operands') := by
  refine (hev hi hhead).bind fun hR hv => ?_
  have hi := Places.getElem?_of_prefix hR hi
  have h := h.mono hR
  have hargs := evaluateOnto hev hi .nil h
  have htext := hv.text_eq
  cases hv with
  | specialForm form =>
    simp only [h.length_eq]
    refine (ofExcept (Q := fun _ _ _ => True) ?_).bind fun hR' _ =>
      run hev form (Places.getElem?_of_prefix hR' hi) (h.mono hR')
    cases form.arity.check form.name _ with
    | ok => exact .ok trivial
    | error e => exact .error e
  | primitive name op => exact hargs.bind fun _ hvs => primitive op hvs
  | closure role name id hparams hbody hframe =>
    have hf := Callable.RelocatesTo.closure name hparams hbody hframe
    cases role with
    | function => exact hargs.bind fun hR' hvs => apply hev (hf.mono hR') hvs
    | expander =>
      exact (apply hev hf h).bind fun hR' he => hev (Places.getElem?_of_prefix hR' hi) he
  | _ =>
    simp only [htext]
    exact fail _

/-- The rules of evaluation do not depend on the places of frames. -/
theorem step (hi : R[i]? = some i') {e e' : Value} (h : e.RelocatesTo R e') :
    AnswersAs R (ev.step files i e) (ev.step files i' e') := by
  have htext := h.text_eq
  cases h with
  | symbol x => exact lookup hi x
  | cons hhead hoperands => exact call hev hi hhead hoperands
  | quoted kind hinner =>
    cases kind with
    | quote => exact pure hinner
    | quasiquote => exact expand hev hi hinner
    | _ =>
      simp only [Evaluator.step, htext]
      exact fail _
  | empty => exact pure .empty
  | integer n => exact pure (.integer n)
  | string text => exact pure (.string text)
  | _ =>
    simp only [Evaluator.step, htext]
    exact fail _

/-- A request is answered by evaluating what was read. -/
theorem request (files : Files) (hi : R[i]? = some i') (request : Request) :
    AnswersAs R (request.run ev files i) (request.run ev files i') := by
  cases request with
  | expression text =>
    rw [Request.run, Request.run, Evaluator.evaluateText, Evaluator.evaluateText]
    split
    · next hform => exact hev hi (.of_isSyntax (Source.isSyntax_of_readOne hform))
    · exact fail _
  | source comments text => exact evaluateSource hev hi comments text
  | input contents => exact loadBytes hev hi inputName contents
  | file path => exact loadFile hev hi path

theorem start (hi : R[globalFrame]? = some globalFrame) (prelude : String) :
    RelocatesTo R (fun _ _ _ => True) (ev.start prelude) (ev.start prelude) :=
  (evaluateSource hev hi true prelude).bind fun _ _ => pure trivial

end Rules

end Action.RelocatesTo

/-- Evaluation does not depend on the places of frames. -/
theorem eval_answersAs (files : Files) (depth : Nat) {e e' : Value} (hi : R[i]? = some i')
    (h : e.RelocatesTo R e') :
    Action.AnswersAs R (eval files depth i e) (eval files depth i' e') := by
  induction depth generalizing R i i' e e' with
  | zero => exact fun _ _ _ => ⟨R, List.prefix_rfl, .exhausted⟩
  | succ depth ih => exact .step ih hi h

/-- Calls do not depend on the places of frames. -/
theorem apply_answersAs (files : Files) (depth : Nat) {f f' : Callable} (hf : f.RelocatesTo R f')
    {args args' : Value} (h : args.RelocatesTo R args') :
    Action.AnswersAs R (f.apply (eval files depth) args) (f'.apply (eval files depth) args') :=
  .apply (eval_answersAs files depth) hf h

/-! ### Outcomes at some depth -/

/-- Each outcome that one of two actions may have is, up to places, an outcome that the other may
have. -/
structure OutcomesMatch (R : Places) (Q : Places → α → β → Prop) (P : Outcome α → Prop)
    (P' : Outcome β → Prop) : Prop where
  forth {r : Outcome α} : P r → ∃ r', P' r' ∧ ∃ S, R <+: S ∧ r.RelocatesTo S (Q S) r'
  back {r' : Outcome β} : P' r' → ∃ r, P r ∧ ∃ S, R <+: S ∧ r.RelocatesTo S (Q S) r'

/-- Evaluations in two states of which one is found in the other come to the same, if they come to
anything. -/
theorem evaluates_match (files : Files) {σ σ' : State} (hσ : σ.RelocatesTo R σ')
    (hi : R[i]? = some i') {e e' : Value} (h : e.RelocatesTo R e') :
    OutcomesMatch R Value.RelocatesTo (Evaluates files i e σ) (Evaluates files i' e' σ') where
  forth := by
    rintro r ⟨hr, depth, rfl⟩
    obtain ⟨S, hR, hrel⟩ := eval_answersAs files depth hi h σ σ' hσ
    exact ⟨_, ⟨hrel.ne_exhausted_iff.1 hr, depth, rfl⟩, S, hR, hrel⟩
  back := by
    rintro r' ⟨hr', depth, rfl⟩
    obtain ⟨S, hR, hrel⟩ := eval_answersAs files depth hi h σ σ' hσ
    exact ⟨_, ⟨hrel.ne_exhausted_iff.2 hr', depth, rfl⟩, S, hR, hrel⟩

/-- Calls in two states of which one is found in the other come to the same, if they come to
anything. -/
theorem applies_match (files : Files) {σ σ' : State} (hσ : σ.RelocatesTo R σ') {f f' : Callable}
    (hf : f.RelocatesTo R f') {args args' : Value} (h : args.RelocatesTo R args') :
    OutcomesMatch R Value.RelocatesTo (Applies files f args σ) (Applies files f' args' σ') where
  forth := by
    rintro r ⟨hr, depth, rfl⟩
    obtain ⟨S, hR, hrel⟩ := apply_answersAs files depth hf h σ σ' hσ
    exact ⟨_, ⟨hrel.ne_exhausted_iff.1 hr, depth, rfl⟩, S, hR, hrel⟩
  back := by
    rintro r' ⟨hr', depth, rfl⟩
    obtain ⟨S, hR, hrel⟩ := apply_answersAs files depth hf h σ σ' hσ
    exact ⟨_, ⟨hrel.ne_exhausted_iff.2 hr', depth, rfl⟩, S, hR, hrel⟩

/-- What is done after something is done in the places that are left then. -/
theorem OutcomesMatch.sequel {Q : Places → α → β → Prop} {Q' : Places → γ → δ → Prop}
    {first : Outcome α → Prop} {first' : Outcome β → Prop} {next : α → State → Outcome γ → Prop}
    {next' : β → State → Outcome δ → Prop} (hfirst : OutcomesMatch R Q first first')
    (hnext : ∀ {S a b τ τ'}, R <+: S → Q S a b → τ.RelocatesTo S τ' → first' (.done b τ') →
      OutcomesMatch S Q' (next a τ) (next' b τ')) :
    OutcomesMatch R Q' (Sequel first next) (Sequel first' next') where
  forth {r} h := by
    cases h with
    | failed h =>
      obtain ⟨_, h', S, hR, hrel⟩ := hfirst.forth h
      cases hrel with
      | failed _ hτ => exact ⟨_, .failed h', S, hR, .failed _ hτ⟩
    | done h hr =>
      obtain ⟨_, h', S, hR, hrel⟩ := hfirst.forth h
      cases hrel with
      | done hQ hτ =>
        obtain ⟨r', hr', T, hS, hrel⟩ := (hnext hR hQ hτ h').forth hr
        exact ⟨r', .done h' hr', T, hR.trans hS, hrel⟩
  back {r'} h' := by
    cases h' with
    | failed h' =>
      obtain ⟨_, h, S, hR, hrel⟩ := hfirst.back h'
      cases hrel with
      | failed _ hτ => exact ⟨_, .failed h, S, hR, .failed _ hτ⟩
    | done h' hr' =>
      obtain ⟨_, h, S, hR, hrel⟩ := hfirst.back h'
      cases hrel with
      | done hQ hτ =>
        obtain ⟨r, hr, T, hS, hrel⟩ := (hnext hR hQ hτ h').back hr'
        exact ⟨r, .done h hr, T, hR.trans hS, hrel⟩

/-- Actions that have one outcome each. -/
theorem OutcomesMatch.of_eq {Q : Places → α → β → Prop} {r : Outcome α} {r' : Outcome β}
    (h : r.RelocatesTo R (Q R) r') : OutcomesMatch R Q (· = r) (· = r') where
  forth {_} hr := ⟨r', rfl, R, List.prefix_rfl, hr ▸ h⟩
  back {_} hr := ⟨r, rfl, R, List.prefix_rfl, hr ▸ h⟩

theorem OutcomesMatch.congr {Q : Places → α → β → Prop} {P P₁ : Outcome α → Prop}
    {P' P₁' : Outcome β → Prop} (h : OutcomesMatch R Q P P') (hP : ∀ r, P₁ r ↔ P r)
    (hP' : ∀ r, P₁' r ↔ P' r) : OutcomesMatch R Q P₁ P₁' where
  forth {r} hr := by
    obtain ⟨r', hr', hrel⟩ := h.forth ((hP r).1 hr)
    exact ⟨r', (hP' r').2 hr', hrel⟩
  back {r'} hr' := by
    obtain ⟨r, hr, hrel⟩ := h.back ((hP' r').1 hr')
    exact ⟨r, (hP r).2 hr, hrel⟩

/-! ### Sessions -/

theorem Outcome.RelocatesTo.state {Q : α → β → Prop} {r : Outcome α} {r' : Outcome β}
    (h : r.RelocatesTo R Q r') {τ : State} (hτ : r.state? = some τ) :
    ∃ τ', r'.state? = some τ' ∧ τ.RelocatesTo R τ' := by
  cases h with
  | done _ h | failed _ h =>
    obtain rfl := Option.some.inj hτ
    exact ⟨_, rfl, h⟩
  | exhausted => cases hτ

/-- The builtin operations and truth values have no closures in them. -/
theorem relocatesTo_of_mem_globalBindings {p : String × Value} (hp : p ∈ globalBindings) :
    p.2.RelocatesTo R p.2 := by
  obtain hp | hp := List.mem_append.1 hp
  · obtain hp | hp := List.mem_append.1 hp
    · simp only [List.mem_cons, List.not_mem_nil, or_false] at hp
      rcases hp with rfl | rfl <;> exact .bool _
    · obtain ⟨form, -, rfl⟩ := List.mem_map.1 hp
      exact .specialForm form
  · obtain ⟨op, -, rfl⟩ := List.mem_map.1 hp
    exact .primitive op.name op

theorem relocatesTo_initial : State.initial.RelocatesTo [globalFrame] State.initial where
  length_eq := rfl
  nodup := by simp
  frame {i i'} hi := by
    obtain ⟨hlt, hi⟩ := List.getElem?_eq_some_iff.1 hi
    obtain rfl : i = 0 := Nat.lt_one_iff.1 hlt
    obtain rfl : globalFrame = i' := hi
    exact ⟨_, _, rfl, rfl,
      List.forall₂_same.2 fun _ hp => ⟨rfl, relocatesTo_of_mem_globalBindings hp⟩, .nil⟩
  closures_eq := rfl
  printed_eq := rfl

/-- A reachable state is found in itself, with every frame in its place. -/
theorem Reachable.relocatesTo_range {prelude : String} {σ : State} (h : Reachable prelude σ) :
    σ.RelocatesTo (List.range σ.frameCount) σ := by
  induction h with
  | @started files depth τ h =>
    obtain ⟨S, -, hr⟩ := Action.RelocatesTo.start (eval_answersAs files depth)
      (R := [globalFrame]) rfl prelude _ _ relocatesTo_initial
    obtain ⟨τ', -, hτ⟩ := hr.state h
    exact hτ.range
  | @answered files depth i request σ τ _ hi h ih =>
    obtain ⟨S, -, hr⟩ := Action.RelocatesTo.request (eval_answersAs files depth) files
      (List.getElem?_range hi) request _ _ ih
    obtain ⟨τ', -, hτ⟩ := hr.state h
    exact hτ.range
  | derived _ hi ih => exact (ih.derive (List.getElem?_range hi) .nil).range

end ConsLisp
