import ConsLisp.Evaluation.Call
import ConsLisp.Evaluation.Quasiquote
import ConsLisp.Evaluation.SpecialForm

/-!
# Evaluation

Integers, strings and the empty list evaluate to themselves, a symbol to what it stands for, a
quoted expression to itself without the mark, and a quasiquoted template to its expansion. A pair is
a call. Its head is evaluated first: a special form receives the operands as they are, a function
receives their values, and a macro receives them as they are and has its result evaluated in the
frame of the call. Any other value has no evaluation rule.

`Evaluator.step` states these rules for one expression and leaves the expressions inside it to
another evaluator; `eval` ties the knot. Its first argument bounds how deep evaluations may nest, so
that every evaluation ends; the bound does not limit how many evaluations there are side by side.

## Main definitions

* `Evaluator.step`: the rules of evaluation.
* `eval`: evaluation.
* `Evaluates`: what an evaluation of an expression comes to.
* `Applies`: what a call of a callable comes to.
-/

namespace ConsLisp

namespace Evaluator

/-- A call: the head decides what becomes of the operands. -/
def call (ev : Evaluator) (files : Files) (i : FrameId) (head operands : Value) :
    Action Value := do
  match ← ev i head with
  | .specialForm form =>
    Action.ofExcept (form.arity.check form.name operands.length)
    form.run ev files i operands
  | .primitive name op => do
    let args ← ev.evaluateEach i operands
    (Callable.primitive name op).apply ev args
  | .closure .function name _ params body frame => do
    let args ← ev.evaluateEach i operands
    (Callable.closure name params body frame).apply ev args
  | .closure .expander name _ params body frame => do
    let expansion ← (Callable.closure name params body frame).apply ev operands
    ev i expansion
  | other => Action.fail (.calling (.notCallable other.text))

/-- Evaluates an expression, using `ev` for the expressions inside it. -/
def step (ev : Evaluator) (files : Files) : Evaluator := fun i e =>
  match e with
  | .empty | .integer _ | .string _ => return e
  | .symbol x => Action.lookup i x
  | .quoted .quote inner => return inner
  | .quoted .quasiquote template => ev.expand i template
  | .cons head operands => ev.call files i head operands
  | _ => Action.fail (.evaluation (.notEvaluable e.text))

end Evaluator

/-- Evaluates an expression in a frame, with evaluations nested at most `depth` deep. -/
def eval (files : Files) : (depth : Nat) → Evaluator
  | 0 => fun _ _ => Action.exhausted
  | depth + 1 => (eval files depth).step files

/-- The action of evaluating `e` in frame `i` takes the state `σ` to the outcome `r`, at some
depth. -/
def Evaluates (files : Files) (i : FrameId) (e : Value) (σ : State) (r : Outcome Value) : Prop :=
  r ≠ .exhausted ∧ ∃ depth, eval files depth i e σ = r

/-- Calling `f` on the argument list `args` takes the state `σ` to the outcome `r`, at some depth of
the evaluations inside. -/
def Applies (files : Files) (f : Callable) (args : Value) (σ : State) (r : Outcome Value) : Prop :=
  r ≠ .exhausted ∧ ∃ depth, f.apply (eval files depth) args σ = r

end ConsLisp
