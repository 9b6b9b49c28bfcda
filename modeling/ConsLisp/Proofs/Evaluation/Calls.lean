import ConsLisp.Evaluation.Depth

/-!
# Expressions that call

What the evaluation of an expression comes to when it is known what its head stands for: a special
form that a name stands for, or a function. For the special form `lambda` this is a closure, and for
a function whose body is one expression it is the value of that expression in a new frame.

## Main definitions

* `Value.callOf`: the expression that calls what a name stands for.

## Main results

* `eval_specialForm`, `eval_lambda`: names of special forms as heads.
* `eval_functionCall`: functions as heads.
* `Callable.apply_closure_sole`: a function whose body is one expression.
-/

namespace ConsLisp

variable {files : Files} {i : FrameId} {ρ σ τ : State}

/-- The expression that calls what a name stands for. -/
def Value.callOf (name : String) (operands : List Value) : Value :=
  .cons (.symbol name) (.ofList operands)

/-! ### Names -/

theorem eval_symbol {x : String} {v : Value} (hx : σ.lookup? i x = some v) (depth : Nat) :
    eval files (depth + 1) i (.symbol x) σ = .done v σ := by
  rw [eval, Evaluator.step, Action.lookup, hx]

/-! ### Special forms -/

/-- A special form that is called by its name is run on its operands. -/
theorem eval_specialForm {x : String} {form : SpecialForm} {operands : Value}
    (hx : σ.lookup? i x = some (.specialForm form))
    (hadmits : form.arity.Admits operands.length) (depth : Nat) :
    eval files (depth + 2) i (.cons (.symbol x) operands) σ =
      form.run (eval files (depth + 1)) files i operands σ := by
  have hcheck : form.arity.check form.name operands.length = .ok () := if_pos hadmits
  rw [eval, Evaluator.step, Evaluator.call, Action.bind_apply, eval_symbol hx]
  simp only
  rw [hcheck]
  rfl

theorem eval_lambda (hlambda : σ.lookup? i "lambda" = some (.specialForm .lambda)) {params : Value}
    (hparams : params.isList) (body : Value) (depth : Nat) :
    eval files (depth + 2) i (.cons (.symbol "lambda") (.cons params body)) σ =
      .done (.closure .function anonymousFunction σ.closures params body i)
        { σ with closures := σ.closures + 1 } := by
  rw [eval_specialForm hlambda (by simp [SpecialForm.arity, Arity.Admits])]
  have hcheck : checkLambdaList params = pure () := if_pos hparams
  rw [SpecialForm.run, Evaluator.makeClosure, Value.first?, Option.getD_some, hcheck]
  rfl

/-! ### Functions -/

section Function

variable {head operands args params body : Value} {name : String} {id : Nat} {frame : FrameId}

/-- An expression whose head stands for a function calls the function on the values of its
operands. -/
theorem eval_functionCall {depth : Nat}
    (hhead : eval files depth i head ρ = .done (.closure .function name id params body frame) σ)
    (hargs : (eval files depth).evaluateEach i operands σ = .done args τ) :
    eval files (depth + 1) i (.cons head operands) ρ =
      (Callable.closure name params body frame).apply (eval files depth) args τ := by
  rw [eval, Evaluator.step, Evaluator.call, Action.bind_apply, hhead]
  simp only
  rw [Action.bind_apply, hargs]

/-- A call binds the parameters in a new frame and evaluates the body there. -/
theorem Callable.apply_closure_sole {b : Bindings} {form : Value} (ev : Evaluator)
    (hb : LambdaList.bindParameters name params args = .ok b) (σ : State) :
    (Callable.closure name params (.ofList [form]) frame).apply ev args σ =
      ev σ.frameCount form (σ.derive frame b) := by
  rw [Callable.apply, hb]
  exact congrFun (Action.bind_pure_right (ev σ.frameCount form)) (σ.derive frame b)

end Function

end ConsLisp
