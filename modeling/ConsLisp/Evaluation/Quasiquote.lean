import ConsLisp.Evaluation.Sequence
import ConsLisp.Value.Text

/-!
# Quasiquotation

A template stands for itself, except that an expression under an unquote mark stands for its value.
Along a list the elements are expanded from left to right. Where the next element of the list is an
expression under a splice mark, its value, which has to be a list, becomes all the rest, and
whatever follows in the template is dropped. A splice mark in any other position stands for itself,
and so do the other quote marks with all that is under them.

## Main definitions

* `Evaluator.expandOnto`: expands a template as the rest of a list.
* `Evaluator.expand`: the value of a template.

## Main results

* `Evaluator.expandOnto_eq`: elements expanded before do not matter to the rest of a template.
-/

namespace ConsLisp.Evaluator

/-- Expands a template as what follows elements that were expanded before. Those are given last one
first. -/
def expandOnto (ev : Evaluator) (i : FrameId) (heads : List Value) : Value → Action Value
  | .quoted .unquote e => do
    let tail ← ev i e
    return .unwind heads tail
  | .cons first rest => do
    let head ← expandOnto ev i [] first
    match rest with
    | .cons (.quoted .splice e) _ => do
      let tail ← ev i e
      if tail.isList then return .unwind (head :: heads) tail
      else Action.fail (.typing (.spliceOfNonList tail.text))
    | _ => expandOnto ev i (head :: heads) rest
  | template => return .unwind heads template

/-- The value of a template. -/
def expand (ev : Evaluator) (i : FrameId) (template : Value) : Action Value :=
  ev.expandOnto i [] template

theorem expandOnto_eq (ev : Evaluator) (i : FrameId) (heads : List Value) (template : Value) :
    ev.expandOnto i heads template = (do return .unwind heads (← ev.expand i template)) := by
  induction template generalizing heads with
  | quoted kind inner => cases kind <;> simp [expand, expandOnto]
  | cons first rest _ ih =>
    simp only [expand, expandOnto, bind_assoc]
    refine congrArg _ (funext fun head => ?_)
    split
    · simp only [bind_assoc]
      refine congrArg _ (funext fun tail => ?_)
      split <;> rfl
    · rw [ih, ih [head]]
      simp
  | _ => rfl

end ConsLisp.Evaluator
