import ConsLisp.Proofs.Evaluation.Lockstep

/-!
# The errors in which evaluation ends

An error passes through every rule of evaluation on its way out, and only loading makes another one
of it. So what can be said of the errors that the rules themselves report can be said of all errors
in which an evaluation ends. Three kinds of errors are told apart: syntax errors, refusals of a
number of arguments, and all others, which are called ordinary. The rules report any ordinary error,
they refuse a number of arguments only if the arity does not admit it, and they report no syntax
error: that of a loaded source becomes an error of loading.

This leaves the binding of parameters, whose refusals depend on the lambda list. A closure that is
called has come up as the value of its expression, so that an observer can stop a run before a
closure with an unwanted lambda list is called.

## Main definitions

* `Action.EndsIn`: an action ends with certain results or in certain errors only.
* `Error.IsOrdinary`: neither a syntax error nor a refusal of a number of arguments.
* `LambdaList.plainFirst`: no plain parameter stands after an optional one.
* `Failures`: errors that can be expected as long as closures have certain lambda lists.
* `Failures.Tolerates`: an observer that stops a run before a closure with any other lambda list is
  called.

## Main results

* `LambdaList.isOrdinary_or_eq_arity_of_bindFormals`: the errors of binding parameters.
* `Failures.endsIn_step`: the rules of evaluation report expected errors.
* `Failures.endsIn_eval`: an observed evaluation ends in expected errors.
-/

namespace ConsLisp

variable {α β : Type}

/-! ### Actions that end in certain ways -/

/-- The outcome is a result with the property `Q`, an error with the property `F`, or no answer. -/
def Outcome.IsIn (Q : α → Prop) (F : Error → Prop) : Outcome α → Prop
  | .done a _ => Q a
  | .failed e _ => F e
  | .exhausted => True

/-- In whatever state the action is taken, it ends with a result that has the property `Q` or in an
error that has the property `F`. -/
def Action.EndsIn (Q : α → Prop) (F : Error → Prop) (m : Action α) : Prop :=
  ∀ σ, (m σ).IsIn Q F

namespace Action.EndsIn

variable {Q : α → Prop} {Q' : β → Prop} {F F' : Error → Prop}

theorem pure {a : α} (h : Q a) : (Pure.pure a : Action α).EndsIn Q F :=
  fun _ => h

theorem fail {e : Error} (h : F e) : (Action.fail e : Action α).EndsIn Q F :=
  fun _ => h

theorem bind {m : Action α} {f : α → Action β} (hm : m.EndsIn Q F)
    (hf : ∀ a, Q a → (f a).EndsIn Q' F) : (m >>= f).EndsIn Q' F := by
  intro σ
  have hσ := hm σ
  rw [bind_apply]
  generalize m σ = r at hσ
  cases r with
  | done a τ => exact hf a hσ τ
  | failed e τ => exact hσ
  | exhausted => trivial

theorem mono {P : α → Prop} {m : Action α} (hm : m.EndsIn P F') (hQ : ∀ a, P a → Q a)
    (hF : ∀ e, F' e → F e) : m.EndsIn Q F := by
  intro σ
  have hσ := hm σ
  generalize m σ = r at hσ ⊢
  cases r with
  | done a τ => exact hQ a hσ
  | failed e τ => exact hF e hσ
  | exhausted => trivial

theorem mapError {m : Action α} {f : Error → Error} (hm : m.EndsIn Q F')
    (hF : ∀ e, F' e → F (f e)) : (m.mapError f).EndsIn Q F := by
  intro σ
  have hσ := hm σ
  simp only [Action.mapError]
  generalize m σ = r at hσ ⊢
  cases r with
  | done a τ => exact hσ
  | failed e τ => exact hF e hσ
  | exhausted => trivial

theorem ofExcept {result : Except Error α} (hQ : ∀ a, result = .ok a → Q a)
    (hF : ∀ e, result = .error e → F e) : (Action.ofExcept result).EndsIn Q F := by
  cases result with
  | ok a => exact pure (hQ a rfl)
  | error e => exact fail (hF e rfl)

/-- The error in which such an action ends has the property. -/
theorem of_failed {m : Action α} (hm : m.EndsIn Q F) {σ τ : State} {e : Error}
    (h : m σ = .failed e τ) : F e := by
  have hσ := hm σ
  rw [h] at hσ
  exact hσ

end Action.EndsIn

/-- An error that concerns neither the syntax of a text nor the number of arguments. -/
def Error.IsOrdinary : Error → Prop
  | .reading _ | .arity _ _ _ => False
  | _ => True

/-- Two computations in sequence fail in an error of the first one or in an error of the second
one. -/
theorem of_bind_eq_error {m : Except Error α} {f : α → Except Error β} {e : Error} {P : Prop}
    (h : (m >>= f) = .error e) (hm : m = .error e → P) (hf : ∀ a, f a = .error e → P) : P := by
  cases m with
  | error e' =>
    obtain rfl : e' = e := Except.error.inj h
    exact hm rfl
  | ok a => exact hf a h

theorem Value.exists_cons {v : Value} (h : 0 < v.length) : ∃ first rest, v = .cons first rest := by
  cases v with
  | cons first rest => exact ⟨first, rest, rfl⟩
  | _ => exact (Nat.lt_irrefl 0 h).elim

/-- A chain of two pairs or more has a first and a second element. -/
theorem Value.exists_cons_cons {v : Value} (h : 2 ≤ v.length) :
    ∃ first second rest, v = .cons first (.cons second rest) := by
  obtain ⟨first, rest, rfl⟩ := exists_cons (Nat.lt_of_succ_le (Nat.le_of_succ_le h))
  rw [length_cons] at h
  obtain ⟨second, rest, rfl⟩ := exists_cons (Nat.le_of_succ_le_succ h)
  exact ⟨first, second, rest, rfl⟩

/-! ### Errors of binding parameters -/

namespace LambdaList

/-- No plain parameter stands after an optional one, as far as the marker for the remaining
arguments. -/
def plainFirst : Value → Bool
  | .cons (.symbol x) formals => x == restMarker || plainFirst formals
  | .cons _ formals => requiredCount formals == 0
  | _ => true

theorem plainFirst_of_requiredCount_eq_zero {formals : Value} (h : requiredCount formals = 0) :
    plainFirst formals = true := by
  fun_induction requiredCount formals with
  | case1 formals => simp [plainFirst]
  | case2 => cases h
  | case3 first formals hfirst =>
    rw [plainFirst.eq_2 _ _ hfirst, h]
    rfl
  | case4 v hsymbol hcons => rw [plainFirst.eq_3 v hsymbol hcons]

/-- After an optional parameter that no plain one follows there is no want of arguments. -/
theorem false_of_nothing_required {formals : Value} {got : Nat}
    (h : (requiredCount formals == 0) = true)
    (hgot : plainFirst formals = true → got < requiredCount formals) : False := by
  have hnone : requiredCount formals = 0 := beq_iff_eq.1 h
  have hlt := hgot (plainFirst_of_requiredCount_eq_zero hnone)
  omega

theorem isOrdinary_of_bind? {b : Bindings} {x : String} {v : Value} {e : Error}
    (h : b.bind? x v = .error e) : e.IsOrdinary := by
  rw [(Bindings.bind?_eq_error_iff.1 h).1]
  trivial

/-- Parameters cannot be bound because of an ordinary fault or for want of arguments. The refusal
tells how many plain parameters the whole lambda list has and how many arguments there are in all;
if no plain parameter stands after an optional one, there are too few of them for those that are
left. -/
theorem isOrdinary_or_eq_arity_of_bindFormals {name : String} {params args : Value}
    {bound : Bindings} {formals actuals : Value} {e : Error}
    (h : bindFormals name params args bound formals actuals = .error e) :
    e.IsOrdinary ∨ e = .arity name (.atLeast (requiredCount params)) args.length ∧
      (plainFirst formals = true → actuals.length < requiredCount formals) := by
  fun_induction bindFormals name params args bound formals actuals with
  | case1 => exact .inl (isOrdinary_of_bind? h)
  | case3 bound x formals hx actual actuals ih =>
    refine of_bind_eq_error h (fun hx => .inl (isOrdinary_of_bind? hx)) fun c hc => ?_
    refine (ih c hc).imp_right ?_
    rintro ⟨rfl, hcount⟩
    refine ⟨rfl, fun hplain => ?_⟩
    rw [plainFirst, beq_false_of_ne hx, Bool.false_or] at hplain
    rw [Value.length_cons, requiredCount, if_neg hx]
    exact Nat.succ_lt_succ (hcount hplain)
  | case4 bound x formals actuals hx hactuals =>
    refine .inr ⟨(Except.error.inj h).symm, fun _ => ?_⟩
    have hlength : actuals.length = 0 := by
      cases actuals with
      | cons actual actuals => exact (hactuals actual actuals rfl).elim
      | _ => rfl
    rw [hlength, requiredCount, if_neg hx]
    exact Nat.succ_pos _
  | case5 bound x default rest formals _ _ ih | case6 bound x default rest formals _ _ ih =>
    -- With an argument for the optional parameter or without one.
    refine of_bind_eq_error h (fun hx => .inl (isOrdinary_of_bind? hx)) fun c hc => ?_
    refine (ih c hc).imp_right ?_
    rintro ⟨rfl, hcount⟩
    exact ⟨rfl, fun hplain => (false_of_nothing_required hplain hcount).elim⟩
  | case9 => cases h
  | _ =>
    obtain rfl := Except.error.inj h
    exact .inl trivial

end LambdaList

/-! ### Expected errors -/

/-- Errors that can be expected of a run, as long as the closures that are called in it have certain
lambda lists. -/
structure Failures where
  /-- The lambda lists that closures have. -/
  lists : Value → Prop
  /-- The errors that can be expected. -/
  errors : Error → Prop
  ordinary {e : Error} : e.IsOrdinary → errors e
  refused {name : String} {expected : Arity} {got : Nat} :
    ¬ expected.Admits got → errors (.arity name expected got)
  unbindable {name : String} {params args : Value} {e : Error} :
    lists params → LambdaList.bindParameters name params args = .error e → errors e

namespace Failures

open ConsLisp.Action

variable (X : Failures)

/-- If the value is a closure, it has one of the lambda lists. -/
def Callable : Value → Prop
  | .closure _ _ _ params _ _ => X.lists params
  | _ => True

/-- The action ends with any result or in an expected error. -/
abbrev Allows (m : Action α) : Prop :=
  m.EndsIn (fun _ => True) X.errors

/-- An observer that adds only expected errors to a run, and that lets a run go on after an
evaluation only if its value is no closure with any other lambda list. -/
structure Tolerates (O : Observer) : Prop where
  evaluated (v : Value) : (O (.evaluated v)).EndsIn (fun _ => X.Callable v) X.errors
  passing (list : Value) : X.Allows (O (.passing list))
  loading (path : String) : X.Allows (O (.loading path))

variable {X}

/-! ### Rules that evaluate no expression -/

theorem allows_ofExcept {result : Except Error α}
    (h : ∀ e, result = .error e → X.errors e) : X.Allows (Action.ofExcept result) :=
  .ofExcept (fun _ _ => trivial) h

theorem allows_check (expected : Arity) (name : String) (got : Nat) :
    X.Allows (Action.ofExcept (expected.check name got)) := by
  refine allows_ofExcept fun e he => ?_
  unfold Arity.check at he
  split at he <;> cases he
  exact X.refused ‹_›

theorem allows_lookup (i : FrameId) (x : String) : X.Allows (Action.lookup i x) := by
  intro σ
  unfold Action.lookup
  split
  · trivial
  · exact X.ordinary trivial

theorem allows_define (i : FrameId) (x : String) (v : Value) : X.Allows (Action.define i x v) := by
  intro σ
  unfold Action.define
  split
  · exact X.ordinary trivial
  · trivial

theorem allows_increment (i : FrameId) (x : String) : X.Allows (Action.increment i x) := by
  intro σ
  unfold Action.increment
  split
  · exact X.ordinary trivial
  · split
    · trivial
    · exact X.ordinary trivial
  · exact X.ordinary trivial

theorem allows_checkLambdaList (params : Value) : X.Allows (checkLambdaList params) := by
  unfold checkLambdaList
  split
  · exact .pure trivial
  · exact .fail (X.ordinary trivial)

theorem allows_newClosure (role : Role) (name : String) (params body : Value) (i : FrameId) :
    X.Allows (Action.newClosure role name params body i) :=
  fun _ => trivial

theorem allows_makeClosure (role : Role) (name : String) (i : FrameId) (operands : Value) :
    X.Allows (Evaluator.makeClosure role name i operands) :=
  (allows_checkLambdaList _).bind fun _ _ => allows_newClosure role name _ _ i

theorem allows_defineCallable (role : Role) (form : String) (i : FrameId) (operands : Value) :
    X.Allows (Evaluator.defineCallable role form i operands) := by
  unfold Evaluator.defineCallable
  split
  · refine (allows_checkLambdaList _).bind fun _ _ => ?_
    refine (allows_newClosure role _ _ _ i).bind fun f _ => ?_
    exact (allows_define i _ f).bind fun _ _ => .pure trivial
  · exact .fail (X.ordinary trivial)
  · exact .fail (X.ordinary trivial)

theorem allows_incrementOperand (i : FrameId) (operands : Value) :
    X.Allows (Evaluator.increment i operands) := by
  unfold Evaluator.increment
  split
  · exact allows_increment i _
  · exact .fail (X.ordinary trivial)

theorem isOrdinary_of_properElements {v : Value} {e : Error} (h : v.properElements = .error e) :
    e.IsOrdinary := by
  unfold Value.properElements at h
  split at h <;> cases h
  trivial

/-! ### Primitives -/

theorem isOrdinary_of_orOverflow {computation : String} {n : Int} {e : Error}
    (h : Fixnum.orOverflow computation n = .error e) : e.IsOrdinary := by
  unfold Fixnum.orOverflow at h
  split at h <;> cases h
  trivial

theorem isOrdinary_of_divide {a b : Fixnum} {e : Error} (h : a.divide b = .error e) :
    e.IsOrdinary := by
  unfold Fixnum.divide at h
  split at h
  · cases h
    trivial
  · exact isOrdinary_of_orOverflow h

theorem isOrdinary_of_integerOf {op : String} {v : Value} {e : Error}
    (h : integerOf op v = .error e) : e.IsOrdinary := by
  cases v with
  | integer n => cases h
  | _ =>
    obtain rfl := Except.error.inj h
    trivial

theorem isOrdinary_of_foldIntegers {op : String} {combine : Fixnum → Fixnum → Except Error Fixnum}
    (hcombine : ∀ a b e, combine a b = .error e → e.IsOrdinary) {start : Fixnum}
    {args : List Value} {e : Error} (h : foldIntegers op combine start args = .error e) :
    e.IsOrdinary := by
  induction args generalizing start with
  | nil => cases h
  | cons v args ih =>
    rw [foldIntegers, List.foldlM_cons] at h
    refine of_bind_eq_error h (fun hv => ?_) fun acc hacc => ih hacc
    exact of_bind_eq_error hv isOrdinary_of_integerOf fun n hn => hcombine start n e hn

/-- The error of a computation whose result is made into a value. -/
theorem eq_error_of_map {n? : Except Error Fixnum} {e : Error}
    (h : .integer <$> n? = (.error e : Except Error Value)) : n? = .error e := by
  cases n? with
  | error e' => rw [Except.error.inj h]
  | ok n => cases h

theorem errors_of_difference {args : List Value} {e : Error}
    (h : Primitive.difference args = .error e) : X.errors e := by
  unfold Primitive.difference at h
  split at h
  · cases h
    exact X.refused (by decide)
  · refine X.ordinary (of_bind_eq_error h isOrdinary_of_integerOf fun n hn => ?_)
    exact isOrdinary_of_orOverflow hn
  · refine X.ordinary (of_bind_eq_error h isOrdinary_of_integerOf fun n hn => ?_)
    exact isOrdinary_of_foldIntegers (fun _ _ _ => isOrdinary_of_orOverflow) hn

theorem errors_of_quotient {args : List Value} {e : Error}
    (h : Primitive.quotient args = .error e) : X.errors e := by
  unfold Primitive.quotient at h
  split at h
  · cases h
    exact X.refused (by decide)
  · exact X.ordinary (isOrdinary_of_foldIntegers (fun _ _ _ => isOrdinary_of_divide) h)
  · refine X.ordinary (of_bind_eq_error h isOrdinary_of_integerOf fun n hn => ?_)
    exact isOrdinary_of_foldIntegers (fun _ _ _ => isOrdinary_of_divide) hn

/-- The errors of a primitive, on any number of arguments. -/
theorem errors_of_compute {op : Primitive} {args : Value} {e : Error}
    (h : op.compute args = .error e) : X.errors e := by
  cases op with
  | add | multiply =>
    have hfold := eq_error_of_map h
    exact X.ordinary (isOrdinary_of_foldIntegers (fun _ _ _ => isOrdinary_of_orOverflow) hfold)
  | subtract => exact errors_of_difference (eq_error_of_map h)
  | divide => exact errors_of_quotient (eq_error_of_map h)
  | car | cdr =>
    rw [Primitive.compute] at h
    split at h <;> cases h
    exact X.ordinary trivial
  | cons =>
    rw [Primitive.compute.eq_def] at h
    simp only at h
    split at h
    · split at h <;> cases h
      exact X.ordinary trivial
    · next hargs =>
      obtain rfl := Except.error.inj h
      refine X.refused fun hlength => ?_
      obtain ⟨first, rest, more, rfl⟩ := Value.exists_cons_cons (Nat.le_of_eq hlength.symm)
      exact hargs first rest more rfl
  | list | isEmpty | typeOf | println => cases h

theorem allows_primitive (op : Primitive) (args : Value) : X.Allows (op.apply args) := by
  have hcompute : X.Allows (Action.ofExcept (op.compute args)) :=
    allows_ofExcept fun _ => errors_of_compute
  refine (allows_check _ _ _).bind fun _ _ => ?_
  cases op with
  | println => exact .bind (Q := fun _ => True) (fun _ => trivial) fun _ _ => hcompute
  | _ => exact hcompute

/-! ### Rules that evaluate the expressions inside an expression -/

section Rules

variable {ev : Evaluator} (hev : ∀ i e, (ev i e).EndsIn X.Callable X.errors)
include hev

/-- An evaluation ends in expected errors, whatever its value. -/
theorem allows_evaluation (i : FrameId) (e : Value) : X.Allows (ev i e) :=
  (hev i e).mono (fun _ _ => trivial) fun _ => id

theorem allows_evaluateOnto (i : FrameId) (values : List Value) (operands : Value) :
    X.Allows (ev.evaluateOnto i values operands) := by
  induction operands generalizing values with
  | cons first rest _ ih => exact (hev i first).bind fun v _ => ih (v :: values)
  | _ => exact .pure trivial

theorem allows_evaluateAfter (i : FrameId) (last body : Value) :
    X.Allows (ev.evaluateAfter i last body) := by
  induction body generalizing last with
  | cons first rest _ ih => exact (hev i first).bind fun v _ => ih v
  | _ => exact .pure trivial

theorem allows_expandOnto (i : FrameId) (heads : List Value) (template : Value) :
    X.Allows (ev.expandOnto i heads template) := by
  induction template generalizing heads with
  | quoted kind inner =>
    cases kind with
    | unquote => exact (hev i inner).bind fun _ _ => .pure trivial
    | _ => exact .pure trivial
  | cons first rest ihfirst ihrest =>
    unfold Evaluator.expandOnto
    refine (ihfirst []).bind fun head _ => ?_
    split
    · refine (hev i _).bind fun tail _ => ?_
      split
      · exact .pure trivial
      · exact .fail (X.ordinary trivial)
    · exact ihrest (head :: heads)
  | _ => exact .pure trivial

/-- Calls a callable that is no closure with any other lambda list. -/
theorem allows_apply {f : ConsLisp.Callable} (args : Value)
    (hf : ∀ name params body frame, f = .closure name params body frame → X.lists params) :
    X.Allows (f.apply ev args) := by
  cases f with
  | primitive name op => exact allows_primitive op args
  | closure name params body frame =>
    have hparams := hf name params body frame rfl
    refine (allows_ofExcept fun e he => X.unbindable hparams he).bind fun b _ => ?_
    refine .bind (Q := fun _ => True) (fun _ => trivial) fun j _ => ?_
    exact allows_evaluateAfter hev j _ body

/-- The only syntax error that evaluating forms ends in is the one after the forms. -/
theorem endsIn_evaluateFormsAfter (i : FrameId) (error? : Option Source.SyntaxError) (last : Value)
    (forms : List Source.Form) :
    (ev.evaluateFormsAfter i error? last forms).EndsIn (fun _ => True)
      fun e => (∃ s, e = .reading s) ∨ X.errors e := by
  induction forms generalizing last with
  | nil =>
    cases error? with
    | none => exact .pure trivial
    | some e => exact .fail (.inl ⟨e, rfl⟩)
  | cons form forms ih =>
    exact ((hev i form.value).mono (fun _ => id) fun _ => .inr).bind fun v _ => ih v

/-- A syntax error in what is loaded becomes an error of loading. -/
theorem allows_loadBytes (i : FrameId) (path : String) (contents : ByteArray) :
    X.Allows (ev.loadBytes i path contents) := by
  unfold Evaluator.loadBytes
  split
  · exact .fail (X.ordinary trivial)
  · refine (endsIn_evaluateFormsAfter hev i _ _ _).mapError fun e he => ?_
    rcases he with ⟨s, rfl⟩ | he
    · exact X.ordinary trivial
    · cases e with
      | reading s => exact X.ordinary trivial
      | _ => exact he

theorem allows_loadFile (files : Files) (i : FrameId) (path : String) :
    X.Allows (ev.loadFile files i path) := by
  unfold Evaluator.loadFile
  split
  · exact .fail (X.ordinary trivial)
  · exact allows_loadBytes hev i path _

theorem allows_defineName (i : FrameId) (operands : Value) :
    X.Allows (ev.defineName i operands) := by
  unfold Evaluator.defineName
  split
  · split
    · refine (hev i _).bind fun v _ => ?_
      exact (allows_define i _ _).bind fun _ _ => .pure trivial
    · next parts hother _ =>
      -- Two parts are accepted, so the refused number is another one.
      refine .fail (X.refused fun htwo => ?_)
      match parts, htwo with
      | [name, e], _ => exact hother name e rfl
    · next he => exact .fail (X.ordinary (isOrdinary_of_properElements he))
  · exact allows_defineCallable _ _ i _
  · exact .fail (X.ordinary trivial)
  · exact .fail (X.refused (by decide))

theorem allows_branch (i : FrameId) (operands : Value) : X.Allows (ev.branch i operands) := by
  unfold Evaluator.branch
  split
  · refine (hev i _).bind fun v _ => ?_
    split
    · exact allows_evaluation hev i _
    · split
      · exact allows_evaluation hev i _
      · exact .pure trivial
  · next hother =>
    refine .fail (X.refused fun hlength => ?_)
    obtain ⟨test, consequent, rest, rfl⟩ := Value.exists_cons_cons hlength.1
    exact hother test consequent rest rfl

/-! ### Observed rules -/

section Observed

variable {O : Observer} (hO : X.Tolerates O) {files : Files}
include hO

theorem allows_loadAll (i : FrameId) (operands : Value) :
    X.Allows (O.loadAll ev files i operands) := by
  induction operands with
  | cons first rest _ ih =>
    cases first with
    | string path =>
      refine (hO.loading path).bind fun _ _ => ?_
      exact (allows_loadFile hev files i path).bind fun _ _ => ih
    | _ => exact .fail (X.ordinary trivial)
  | _ => exact .pure trivial

theorem allows_run (form : SpecialForm) (i : FrameId) (operands : Value) :
    X.Allows (O.run ev files form i operands) := by
  cases form with
  | define => exact allows_defineName hev i operands
  | defineFunction | defineMacro => exact allows_defineCallable _ _ i operands
  | lambda | fn | makeMacro => exact allows_makeClosure _ _ i operands
  | branch => exact allows_branch hev i operands
  | increment => exact allows_incrementOperand i operands
  | load => exact allows_loadAll hev hO i operands

theorem allows_call (i : FrameId) (head operands : Value) :
    X.Allows (O.call ev files i head operands) := by
  refine (hev i head).bind fun v hv => ?_
  have hargs := allows_evaluateOnto hev i [] operands
  cases v with
  | specialForm form =>
    refine (hO.passing operands).bind fun _ _ => ?_
    exact (allows_check _ _ _).bind fun _ _ => allows_run hev hO form i operands
  | primitive name op =>
    exact hargs.bind fun args _ => (hO.passing args).bind fun _ _ => allows_primitive op args
  | closure role name id params body frame =>
    have hf : ∀ name' params' body' frame', ConsLisp.Callable.closure name params body frame =
        .closure name' params' body' frame' → X.lists params' := by
      rintro _ _ _ _ ⟨⟩
      exact hv
    cases role with
    | function =>
      exact hargs.bind fun args _ => (hO.passing args).bind fun _ _ => allows_apply hev args hf
    | expander =>
      refine (hO.passing operands).bind fun _ _ => ?_
      exact (allows_apply hev operands hf).bind fun e _ => allows_evaluation hev i e
  | _ => exact .fail (X.ordinary trivial)

theorem allows_answer (i : FrameId) (e : Value) : X.Allows (O.answer ev files i e) := by
  cases e with
  | symbol x => exact allows_lookup i x
  | cons head operands => exact allows_call hev hO i head operands
  | quoted kind inner =>
    cases kind with
    | quote => exact .pure trivial
    | quasiquote => exact allows_expandOnto hev i [] inner
    | _ => exact .fail (X.ordinary trivial)
  | empty | integer | string => exact .pure trivial
  | _ => exact .fail (X.ordinary trivial)

/-- The rules of evaluation report expected errors, and a value that they leave to the observer
comes out of them only if it is no closure with any other lambda list. -/
theorem endsIn_step (i : FrameId) (e : Value) :
    (O.step ev files i e).EndsIn X.Callable X.errors :=
  (allows_answer hev hO i e).bind fun v _ => (hO.evaluated v).bind fun _ hv => .pure hv

end Observed

end Rules

/-- An observed evaluation ends in expected errors. -/
theorem endsIn_eval {O : Observer} (hO : X.Tolerates O) (files : Files) (depth : Nat) (i : FrameId)
    (e : Value) : (O.eval files depth i e).EndsIn X.Callable X.errors := by
  induction depth generalizing i e with
  | zero => exact fun _ => trivial
  | succ depth ih => exact endsIn_step ih hO i e

end Failures

end ConsLisp
