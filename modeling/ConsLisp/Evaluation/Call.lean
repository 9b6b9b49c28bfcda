import ConsLisp.Evaluation.LambdaList
import ConsLisp.Evaluation.Primitive
import ConsLisp.Evaluation.Sequence

/-!
# Calls

Calling a closure binds its parameters in a new frame inside the frame that the closure was made in,
and evaluates its body there. Calling a primitive runs it. Neither evaluates the argument list: for
a function it holds values, and for a macro the operands as they were written.

## Main definitions

* `Callable`: what can be called, under its display name.
* `Value.callable?`: the callable that a function or a macro is.
* `Callable.apply`: a call.
-/

namespace ConsLisp

/-- Something that can be called on a list of arguments. -/
inductive Callable where
  | primitive (name : String) (op : Primitive)
  | closure (name : String) (params body : Value) (frame : FrameId)

/-- The callable that a function or a macro is. -/
def Value.callable? : Value → Option Callable
  | .primitive name op => some (.primitive name op)
  | .closure _ name _ params body frame => some (.closure name params body frame)
  | _ => none

namespace Callable

/-- The display name of a callable. -/
def name : Callable → String
  | primitive name _ => name
  | closure name _ _ _ => name

/-- Calls a callable on a list of arguments. -/
def apply (ev : Evaluator) (f : Callable) (args : Value) : Action Value :=
  match f with
  | primitive _ op => op.apply args
  | closure name params body frame => do
    let bindings ← Action.ofExcept (LambdaList.bindParameters name params args)
    let i ← Action.derive frame bindings
    ev.evaluateBody i body

end Callable

end ConsLisp
