import ConsLisp.Evaluation.Action

/-!
# Evaluating the elements of a list

Operands and body forms are evaluated from left to right in one frame, and the first that fails ends
the sequence. Both kinds of sequence go along the pairs of a chain and ignore what it ends in.

The rules of this folder do not say how an expression is evaluated. They take that as a parameter of
type `Evaluator`.

## Main definitions

* `Evaluator`: how to evaluate an expression in a frame.
* `Evaluator.evaluateEach`: the list of the values of all elements.
* `Evaluator.evaluateBody`: the value of the last element.

## Main results

* `Evaluator.evaluateEach_cons`: the first element is evaluated first.
-/

namespace ConsLisp

/-- How to evaluate an expression in a frame. -/
abbrev Evaluator := FrameId → Value → Action Value

namespace Evaluator

/-- Evaluates the elements of a chain behind those evaluated before, whose values are given last one
first. -/
def evaluateOnto (ev : Evaluator) (i : FrameId) (values : List Value) : Value → Action Value
  | .cons first rest => do
    let v ← ev i first
    evaluateOnto ev i (v :: values) rest
  | _ => return .unwind values .empty

/-- The list of the values of the elements of a chain. -/
def evaluateEach (ev : Evaluator) (i : FrameId) (operands : Value) : Action Value :=
  ev.evaluateOnto i [] operands

theorem evaluateOnto_eq (ev : Evaluator) (i : FrameId) (values : List Value) (operands : Value) :
    ev.evaluateOnto i values operands =
      (do return .unwind values (← ev.evaluateEach i operands)) := by
  induction operands generalizing values with
  | cons first rest _ ih =>
    simp only [evaluateEach, evaluateOnto, bind_assoc]
    refine congrArg _ (funext fun v => ?_)
    rw [ih, ih [v]]
    simp
  | _ => rfl

theorem evaluateEach_cons (ev : Evaluator) (i : FrameId) (first rest : Value) :
    ev.evaluateEach i (.cons first rest) =
      (do
        let v ← ev i first
        return .cons v (← ev.evaluateEach i rest)) := by
  rw [evaluateEach, evaluateOnto]
  exact congrArg _ (funext fun v => evaluateOnto_eq ev i [v] rest)

/-- Evaluates the elements of a chain after one whose value is `last`. -/
def evaluateAfter (ev : Evaluator) (i : FrameId) (last : Value) : Value → Action Value
  | .cons first rest => do
    let v ← ev i first
    evaluateAfter ev i v rest
  | _ => return last

/-- The value of the last element of a chain, after evaluating all of them. A chain without elements
has the empty list as its value. -/
def evaluateBody (ev : Evaluator) (i : FrameId) (body : Value) : Action Value :=
  ev.evaluateAfter i .empty body

end Evaluator

end ConsLisp
