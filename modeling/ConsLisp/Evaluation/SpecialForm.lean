import ConsLisp.Evaluation.Loading
import ConsLisp.Value.Text

/-!
# Special forms

A special form receives the frame of the call and its operands as they were written, and decides
itself what to evaluate.

## Main definitions

* `Evaluator.makeClosure`: `lambda`, `fn` and `macro`.
* `Evaluator.defineCallable`: `defn` and `defmacro`, and `def` with a signature.
* `Evaluator.defineName`: `def`.
* `Evaluator.branch`, `Evaluator.increment`, `Evaluator.loadAll`: `if`, `inc!` and `load`.
* `SpecialForm.run`: the work of each special form.
-/

namespace ConsLisp

/-- Refuses a lambda list that is no list. -/
def checkLambdaList (params : Value) : Action Unit :=
  if params.isList then pure ()
  else Action.fail (.typing (.paramsNotList params.text))

namespace Evaluator

/-- Makes a closure from a lambda list followed by body forms. -/
def makeClosure (role : Role) (name : String) (i : FrameId) (operands : Value) : Action Value := do
  let params := operands.first?.getD .empty
  checkLambdaList params
  Action.newClosure role name params (operands.rest?.getD .empty) i

/-- Makes a closure from a signature `(name . lambda-list)` followed by body forms, and binds its
name. The errors tell the name of the special form. -/
def defineCallable (role : Role) (form : String) (i : FrameId) (operands : Value) :
    Action Value := do
  match operands with
  | .cons (.cons (.symbol name) params) body =>
    checkLambdaList params
    let f ← Action.newClosure role name params body i
    Action.define i name f
    return .symbol name
  | .cons (.cons head _) _ => Action.fail (.typing (.nameNotSymbol form head.text))
  | _ => Action.fail (.typing (.signatureRequired form operands.text))

/-- Binds a name to the value of an expression, or a callable to the name in its signature. A
function takes the name it is bound to as its display name. -/
def defineName (ev : Evaluator) (i : FrameId) (operands : Value) : Action Value :=
  match operands with
  | .cons (.symbol name) _ =>
    match operands.properElements with
    | .ok [_, e] => do
      let v ← ev i e
      Action.define i name (v.named name)
      return .symbol name
    | .ok parts => Action.fail (.arity SpecialForm.define.name (.exactly 2) parts.length)
    | .error e => Action.fail e
  | .cons (.cons _ _) _ => defineCallable .function SpecialForm.defineFunction.name i operands
  | .cons other _ => Action.fail (.typing (.definedNameNotSymbol other.text))
  | _ => Action.fail (.arity SpecialForm.define.name SpecialForm.define.arity 0)

/-- Evaluates the second operand if the value of the first counts as true, and otherwise the third.
A third operand that is missing stands for the empty list. -/
def branch (ev : Evaluator) (i : FrameId) (operands : Value) : Action Value :=
  match operands with
  | .cons test (.cons consequent rest) => do
    let v ← ev i test
    if v.isTruthy then ev i consequent
    else
      match rest with
      | .cons alternative _ => ev i alternative
      | _ => return .empty
  | _ => Action.fail (.arity SpecialForm.branch.name SpecialForm.branch.arity operands.length)

/-- Adds one to the integer that a symbol stands for. -/
def increment (i : FrameId) (operands : Value) : Action Value :=
  match operands.first? with
  | some (.symbol x) => Action.increment i x
  | other => Action.fail (.typing (.incrementedNotSymbol (other.getD .empty).text))

/-- Loads the files at the given paths, which have to be written as strings. -/
def loadAll (ev : Evaluator) (files : Files) (i : FrameId) : Value → Action Value
  | .cons (.string path) rest => do
    let _ ← ev.loadFile files i path
    loadAll ev files i rest
  | .cons other _ => Action.fail (.loading other.text .pathNotString)
  | _ => return .bool true

end Evaluator

/-- The display name of a function that has not been given one. -/
def anonymousFunction : String := "#lambda"

/-- The display name of a macro that has not been given one. -/
def anonymousMacro : String := "#macro"

/-- Runs a special form on its operands. -/
def SpecialForm.run (ev : Evaluator) (files : Files) (form : SpecialForm) (i : FrameId)
    (operands : Value) : Action Value :=
  match form with
  | define => ev.defineName i operands
  | defineFunction => Evaluator.defineCallable .function defineFunction.name i operands
  | defineMacro => Evaluator.defineCallable .expander defineMacro.name i operands
  | lambda | fn => Evaluator.makeClosure .function anonymousFunction i operands
  | makeMacro => Evaluator.makeClosure .expander anonymousMacro i operands
  | branch => ev.branch i operands
  | increment => Evaluator.increment i operands
  | load => ev.loadAll files i operands

end ConsLisp
