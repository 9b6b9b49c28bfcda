import ConsLisp.Proofs.Evaluation.BigSteps
import ConsLisp.Proofs.Evaluation.SingleWrites
import ConsLisp.Session

/-!
# Three ways to define a function

A function can be defined by `defn` with a signature, by `def` with a signature, and by `def` with
a name and a `lambda` expression. With a signature the function is made under its name. A `lambda`
expression makes it under a display name of its own, and `def` gives it the other name when it
binds it. The checks of the lambda list and of the name are made in different places on the two
ways, but come in the same order: both ways are the same action.

So the three expressions have the same outcome. Either the lambda list is no list, or the name is
bound in the frame already, and nothing is written; or the frame gains a binding of the name to
the function. Calls of the function do not depend on its identity, but only on its name, its
lambda list, its body and the frame that it was made in.

## Main definitions

* `FunctionDefinition`: the name, the lambda list and the body forms of a function.
* `FunctionDefinition.expressions`: the three ways to write the definition.
* `FunctionDefinition.outcome`: what the definition comes to.

## Main results

* `evaluates_lambda_iff`, `evaluates_define_iff`: the rules of the two special forms.
* `Evaluator.makeClosure_bind_bindAs`: the two ways to make and bind a function are the same
  action.
* `defn_is_def_of_lambda`: the outcome of all three expressions.
-/

namespace ConsLisp

variable {files : Files} {i : FrameId} {σ : State}

/-! ### The special forms `lambda` and `def` -/

theorem evaluates_lambda_iff {x : String} (hx : σ.lookup? i x = some (.specialForm .lambda))
    {params body : Value} {r : Outcome Value} :
    Evaluates files i (.cons (.symbol x) (.cons params body)) σ r ↔
      ComesTo (fun _ => Evaluator.makeClosure .function anonymousFunction i (.cons params body)) σ
        r := by
  have hadmits : SpecialForm.lambda.arity.Admits (Value.cons params body).length := by
    rw [Value.length_cons]
    exact Nat.succ_pos _
  exact evaluates_specialForm_iff hx hadmits

/-- Binds a name to a value. A function takes the name as its display name. -/
def Evaluator.bindAs (i : FrameId) (name : String) (v : Value) : Action Value := do
  Action.define i name (v.named name)
  return .symbol name

/-- `def` with a name: the expression is evaluated, and then its value is bound. -/
theorem evaluates_define_iff {x : String} (hx : σ.lookup? i x = some (.specialForm .define))
    {name : String} {e : Value} {r : Outcome Value} :
    Evaluates files i (.callOf x [.symbol name, e]) σ r ↔
      Sequel (Evaluates files i e σ) (fun v => ComesTo fun _ => Evaluator.bindAs i name v) r := by
  have hadmits : SpecialForm.define.arity.Admits (Value.ofList [.symbol name, e]).length := by
    rw [Value.length, Value.elements_ofList]
    exact Nat.le_succ 1
  have hbind (v : Value) : Deepens fun _ => Evaluator.bindAs i name v := deepens_const _
  rw [Value.callOf, evaluates_specialForm_iff hx hadmits]
  exact comesTo_bind_iff (f := fun _ => Evaluator.bindAs i name) (deepens_eval files i e) hbind

/-! ### Two ways to make and bind a function -/

/-- A closure that is bound under a name could have been made under that name. -/
theorem Evaluator.newClosure_bind_bindAs (display name : String) (params body : Value) :
    Action.newClosure .function display params body i >>= Evaluator.bindAs i name =
      Action.newClosure .function name params body i >>= fun f => do
        Action.define i name f
        return .symbol name := rfl

/-- Making a function without a name and binding it under one is the same as making it under that
name and binding it, down to the errors. -/
theorem Evaluator.makeClosure_bind_bindAs (form name : String) (params body : Value) :
    Evaluator.makeClosure .function anonymousFunction i (.cons params body) >>=
        Evaluator.bindAs i name =
      Evaluator.defineCallable .function form i (.cons (.cons (.symbol name) params) body) := by
  have hmake : Evaluator.makeClosure .function anonymousFunction i (.cons params body) =
      checkLambdaList params >>= fun _ =>
        Action.newClosure .function anonymousFunction params body i := rfl
  rw [hmake, Action.bind_assoc, newClosure_bind_bindAs]
  rfl

/-! ### The three expressions -/

/-- What the definition of a function tells: its name, its lambda list and its body forms. Any value
may stand in the place of the lambda list. -/
structure FunctionDefinition where
  name : String
  params : Value
  forms : List Value

namespace FunctionDefinition

variable (d : FunctionDefinition)

/-- The signature `(name . params)`. -/
def signature : Value :=
  .cons (.symbol d.name) d.params

/-- `(defn (name . params) form ...)` -/
def byDefn : Value :=
  .callOf "defn" (d.signature :: d.forms)

/-- `(def (name . params) form ...)` -/
def bySignature : Value :=
  .callOf "def" (d.signature :: d.forms)

/-- `(def name (lambda params form ...))` -/
def byLambda : Value :=
  .callOf "def" [.symbol d.name, .callOf "lambda" (d.params :: d.forms)]

/-- The three ways to write the definition. -/
def expressions : List Value :=
  [d.byDefn, d.bySignature, d.byLambda]

/-- The function as a value, in the frame that it was made in. The number tells it apart from
others. -/
def function (i : FrameId) (id : Nat) : Value :=
  .closure .function d.name id d.params (.ofList d.forms) i

/-- The function as something that can be called. -/
def callable (i : FrameId) : Callable :=
  .closure d.name d.params (.ofList d.forms) i

/-- What the definition comes to in frame `i`. The lambda list is looked at before the name. -/
def outcome (i : FrameId) (σ : State) : Outcome Value :=
  let counted : State := { σ with closures := σ.closures + 1 }
  if d.params.isList then
    match σ.local? i d.name with
    | some _ => .failed (.alreadyBound d.name) counted
    | none => .done (.symbol d.name) (counted.bind i d.name (d.function i σ.closures))
  else .failed (.typing (.paramsNotList d.params.text)) σ

theorem defineCallable_eq_outcome (form : String) :
    Evaluator.defineCallable .function form i (.cons d.signature (.ofList d.forms)) σ =
      d.outcome i σ := by
  rw [signature, Evaluator.defineCallable, outcome, checkLambdaList]
  by_cases hparams : d.params.isList = true
  · rw [if_pos hparams, if_pos hparams]
    simp only [Action.bind_apply, Action.pure_apply, Action.newClosure, Action.define]
    have hlocal : State.local? { σ with closures := σ.closures + 1 } i d.name =
      σ.local? i d.name := rfl
    rw [hlocal]
    cases σ.local? i d.name <;> rfl
  · rw [if_neg hparams, if_neg hparams]
    rfl

theorem outcome_ne_exhausted : d.outcome i σ ≠ .exhausted := by
  unfold outcome
  split
  · split <;> nofun
  · nofun

/-- With a signature the function is made under its name at once. -/
theorem evaluates_bySignature_iff {x : String} {form : SpecialForm}
    (hx : σ.lookup? i x = some (.specialForm form)) (harity : form.arity = .atLeast 1)
    (hform : form.definedRole? (.cons d.signature (.ofList d.forms)) = some .function)
    {r : Outcome Value} :
    Evaluates files i (.callOf x (d.signature :: d.forms)) σ r ↔ r = d.outcome i σ := by
  have hadmits : form.arity.Admits (Value.cons d.signature (.ofList d.forms)).length := by
    rw [harity, Value.length_cons]
    exact Nat.succ_pos _
  refine (evaluates_specialForm_iff hx hadmits).trans
    (comesTo_iff_eq_of_forall (fun depth => ?_) d.outcome_ne_exhausted)
  obtain ⟨name, hrun⟩ := SpecialForm.exists_run_eq_defineCallable (eval files depth) files i hform
  rw [hrun, defineCallable_eq_outcome]

/-- With a `lambda` expression the function is made first, and gets its name when it is bound. -/
theorem evaluates_byLambda_iff (hdef : σ.lookup? i "def" = some (.specialForm .define))
    (hlambda : σ.lookup? i "lambda" = some (.specialForm .lambda)) {r : Outcome Value} :
    Evaluates files i d.byLambda σ r ↔ r = d.outcome i σ := by
  let make := Evaluator.makeClosure .function anonymousFunction i (.cons d.params (.ofList d.forms))
  have hbind (v : Value) : Deepens fun _ => Evaluator.bindAs i d.name v := deepens_const _
  calc Evaluates files i d.byLambda σ r
    _ ↔ Sequel (ComesTo (fun _ => make) σ)
          (fun v => ComesTo fun _ => Evaluator.bindAs i d.name v) r :=
        (evaluates_define_iff hdef).trans
          (sequel_congr (fun _ => evaluates_lambda_iff hlambda) fun _ _ _ _ => Iff.rfl)
    _ ↔ ComesTo (fun _ => make >>= Evaluator.bindAs i d.name) σ r :=
        (comesTo_bind_iff (f := fun _ => Evaluator.bindAs i d.name) (deepens_const make) hbind).symm
    _ ↔ r = d.outcome i σ := by
        rw [Evaluator.makeClosure_bind_bindAs SpecialForm.defineFunction.name]
        exact comesTo_iff_eq_of_forall (fun _ => d.defineCallable_eq_outcome _)
          d.outcome_ne_exhausted

/-- All three expressions have the same outcome. -/
theorem evaluates_iff_eq_outcome (hdef : σ.lookup? i "def" = some (.specialForm .define))
    (hdefn : σ.lookup? i "defn" = some (.specialForm .defineFunction))
    (hlambda : σ.lookup? i "lambda" = some (.specialForm .lambda)) {e : Value}
    (he : e ∈ d.expressions) {r : Outcome Value} :
    Evaluates files i e σ r ↔ r = d.outcome i σ := by
  simp only [expressions, List.mem_cons, List.not_mem_nil, or_false] at he
  obtain rfl | rfl | rfl := he
  · exact d.evaluates_bySignature_iff hdefn rfl rfl
  · exact d.evaluates_bySignature_iff hdef rfl rfl
  · exact d.evaluates_byLambda_iff hdef hlambda

/-- The definition binds its name in the frame if it is not refused, and writes nothing else. -/
theorem writes_outcome (hi : i < σ.frameCount) :
    (d.outcome i σ).Writes σ fun v τ =>
      v = .symbol d.name ∧ σ.GainsBinding i d.name (d.function i σ.closures) τ := by
  have hcounted : σ.Untouched { σ with closures := σ.closures + 1 } := ⟨rfl, rfl⟩
  unfold outcome
  split
  · split
    · exact .failed hcounted
    · next hx => exact .done ⟨rfl, .of_bind hcounted _ hi hx⟩
  · exact .failed (.refl σ)

end FunctionDefinition

/-- Only a frame of the store sees names. -/
theorem State.lt_frameCount_of_lookup? {x : String} {v : Value} (h : σ.lookup? i x = some v) :
    i < σ.frameCount := by
  rcases Nat.lt_or_ge i σ.frameCount with hi | hi
  · exact hi
  · have hnone : σ.frames[i]? = none := Array.getElem?_eq_none hi
    simp [lookup?, resolve?, chain, hnone] at h

/-- Defining a function by `defn`, by `def` with a signature or by `def` with a `lambda` expression
has the same outcome, where these names stand for the special forms. A lambda list that is no list
and a name that the frame binds already are refused, and nothing is written. Otherwise the name is
bound to the function. Wherever the function is called, the name, the lambda list, the body and the
frame of the function tell what the call comes to. -/
theorem defn_is_def_of_lambda (files : Files) (d : FunctionDefinition)
    (hdef : σ.lookup? i "def" = some (.specialForm .define))
    (hdefn : σ.lookup? i "defn" = some (.specialForm .defineFunction))
    (hlambda : σ.lookup? i "lambda" = some (.specialForm .lambda)) :
    (∀ e ∈ d.expressions, ∀ r, Evaluates files i e σ r ↔ r = d.outcome i σ) ∧
    ((d.outcome i σ).Writes σ fun v τ =>
      v = .symbol d.name ∧ σ.GainsBinding i d.name (d.function i σ.closures) τ) ∧
    ∀ id j head ρ ρ', Evaluates files j head ρ (.done (d.function i id) ρ') → ∀ operands r,
      Evaluates files j (.cons head operands) ρ r ↔
        Sequel (EvaluatesEach files j operands ρ')
          (fun args => Applies files (d.callable i) args) r :=
  ⟨fun _ he _ => d.evaluates_iff_eq_outcome hdef hdefn hlambda he,
    d.writes_outcome (State.lt_frameCount_of_lookup? hdef),
    fun _ _ _ _ _ hhead _ _ => evaluates_functionCall_iff hhead ⟨rfl, rfl⟩⟩

/-- The function `f` that returns its only argument. -/
def definitionOfF : FunctionDefinition where
  name := "f"
  params := .ofList [.symbol "x"]
  forms := [.symbol "x"]

/-- A definition with the signature `(f . 3)` and an empty body. -/
def malformedDefinition : FunctionDefinition where
  name := "f"
  params := .integer 3
  forms := []

theorem defn_is_def_of_lambda_definitionOfF :
    (∃ τ, (∀ e ∈ definitionOfF.expressions,
        Evaluates .empty globalFrame e .initial (.done (.symbol "f") τ)) ∧
      τ.local? globalFrame "f" = some (definitionOfF.function globalFrame 0) ∧
      ∀ r, Evaluates .empty globalFrame (.callOf "f" [.integer 5]) τ r ↔
        Applies .empty (definitionOfF.callable globalFrame) (.ofList [.integer 5]) τ r) ∧
    ∀ e ∈ malformedDefinition.expressions,
      Evaluates .empty globalFrame e .initial (.failed (.typing (.paramsNotList "3")) .initial) := by
  have hlookup (form : SpecialForm) :
      State.initial.lookup? globalFrame form.name = some (.specialForm form) := by
    cases form <;> rfl
  have hagree (d : FunctionDefinition) :=
    defn_is_def_of_lambda .empty d (hlookup .define) (hlookup .defineFunction) (hlookup .lambda)
  let counted : State := { State.initial with closures := 1 }
  let τ := counted.bind globalFrame "f" (definitionOfF.function globalFrame 0)
  have hdone : definitionOfF.outcome globalFrame .initial = .done (.symbol "f") τ := rfl
  have hfailed : malformedDefinition.outcome globalFrame .initial =
    .failed (.typing (.paramsNotList "3")) .initial := by
    with_unfolding_all rfl
  have hlocal : τ.local? globalFrame "f" = some (definitionOfF.function globalFrame 0) := rfl
  refine ⟨⟨τ, fun e he => ?_, hlocal, fun r => ?_⟩, fun e he => ?_⟩
  · exact ((hagree definitionOfF).1 e he _).2 hdone.symm
  · have hargs :
        List.Forall₂ (fun e v => Yields .empty globalFrame e τ v) [.integer 5] [.integer 5] :=
      .cons (yields_integer 5) .nil
    have hhead : Yields .empty globalFrame (.symbol "f") τ (definitionOfF.function globalFrame 0) :=
      yields_symbol rfl
    exact ((hagree definitionOfF).2.2 _ _ _ _ _ hhead _ r).trans
      (sequel_of_done fun _ => evaluatesEach_of_yields hargs)
  · exact ((hagree malformedDefinition).1 e he _).2 hfailed.symm

end ConsLisp
