/-!
# Argument counts

Every builtin operation declares how many arguments it takes. A count that the declaration does not
admit is refused before the operation runs.

## Main definitions

* `Arity`: the declarations.
* `Arity.Admits`: the counts that a declaration admits.
* `Arity.text`: the words used in error messages.
* `Arity.fieldText`: the form shown when an operation is described field by field.
-/

namespace ConsLisp

/-- How many arguments an operation takes. -/
inductive Arity where
  | exactly (n : Nat)
  | atLeast (n : Nat)
  /-- From `lo` to `hi`, both included. -/
  | between (lo hi : Nat)
  | any
deriving DecidableEq, Inhabited

namespace Arity

/-- The argument counts that an arity admits. -/
def Admits : Arity → Nat → Prop
  | exactly n, got => got = n
  | atLeast n, got => n ≤ got
  | between lo hi, got => lo ≤ got ∧ got ≤ hi
  | any, _ => True

instance (a : Arity) (got : Nat) : Decidable (a.Admits got) := by
  cases a <;> unfold Admits <;> infer_instance

/-- The words that an error message uses for an arity. -/
def text : Arity → String
  | exactly n => toString n
  | atLeast n => "at least " ++ toString n
  | between lo hi => toString lo ++ " to " ++ toString hi
  | any => "any number"

/-- The form of an arity in the description of an operation. -/
def fieldText : Arity → String
  | exactly n => "Exact(" ++ toString n ++ ")"
  | atLeast n => "AtLeast(" ++ toString n ++ ")"
  | between lo hi => "Range(" ++ toString lo ++ ", " ++ toString hi ++ ")"
  | any => "Any"

end Arity

end ConsLisp
