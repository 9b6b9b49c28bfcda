import ConsLisp.Evaluation.Action
import ConsLisp.Value.Text

/-!
# Primitive functions

A primitive receives the list of its evaluated arguments. All but `println` compute their result
from the arguments alone. Arithmetic goes through the arguments from left to right and stops at the
first argument that is no integer, divides by zero, or takes the result out of range.

## Main definitions

* `integerOf`: the integer that an argument of an arithmetic primitive is.
* `Fixnum.add`, `Fixnum.subtract`, `Fixnum.multiply`, `Fixnum.divide`, `Fixnum.negate`: exact
  arithmetic on machine integers.
* `Primitive.compute`: the result of a primitive.
* `Primitive.apply`: a call of a primitive, which checks the number of arguments.

## Main results

* `Primitive.run_eq`: which primitives only compute.
-/

namespace ConsLisp

/-! ### Exact arithmetic -/

namespace Fixnum

/-- The machine integer `n`, which the named computation produced. -/
def orOverflow (computation : String) (n : Int) : Except Error Fixnum :=
  match ofInt? n with
  | some a => .ok a
  | none => .error (.evaluation (.overflow computation))

/-- The sum of two integers. -/
def add (a b : Fixnum) : Except Error Fixnum :=
  orOverflow "addition" (a.val + b.val)

/-- The difference of two integers. -/
def subtract (a b : Fixnum) : Except Error Fixnum :=
  orOverflow "subtraction" (a.val - b.val)

/-- The product of two integers. -/
def multiply (a b : Fixnum) : Except Error Fixnum :=
  orOverflow "multiplication" (a.val * b.val)

/-- The opposite of an integer. -/
def negate (a : Fixnum) : Except Error Fixnum :=
  orOverflow "negation" (-a.val)

/-- The quotient of two integers, rounded toward zero. -/
def divide (a b : Fixnum) : Except Error Fixnum :=
  if b.val = 0 then .error (.evaluation .divisionByZero)
  else orOverflow "division" (a.val.tdiv b.val)

end Fixnum

/-- The integer that an argument of the arithmetic primitive `op` is. -/
def integerOf (op : String) : Value → Except Error Fixnum
  | .integer n => .ok n
  | v => .error (.typing (.integersRequired op v.typeName v.text))

/-- Combines integer arguments from left to right, starting from `start`. -/
def foldIntegers (op : String) (combine : Fixnum → Fixnum → Except Error Fixnum) (start : Fixnum)
    (args : List Value) : Except Error Fixnum :=
  args.foldlM (fun acc v => do combine acc (← integerOf op v)) start

/-! ### Results -/

namespace Primitive

/-- `-`: the opposite of one argument, or the first argument less all others. -/
def difference : List Value → Except Error Fixnum
  | [] => .error (.arity subtract.name subtract.arity 0)
  | [v] => do Fixnum.negate (← integerOf subtract.name v)
  | v :: vs => do foldIntegers subtract.name Fixnum.subtract (← integerOf subtract.name v) vs

/-- `/`: the reciprocal of one argument, or the first argument divided by each other in turn. -/
def quotient : List Value → Except Error Fixnum
  | [] => .error (.arity divide.name divide.arity 0)
  | [v] => foldIntegers divide.name Fixnum.divide 1 [v]
  | v :: vs => do foldIntegers divide.name Fixnum.divide (← integerOf divide.name v) vs

/-- The text that `println` prints: one line for each argument, a string without its quotes. -/
def lines (args : List Value) : String :=
  args.foldl (fun printed v =>
    match v with
    | .string text => printed ++ text ++ "\n"
    | v => printed ++ v.text ++ "\n") ""

/-- The first argument, or the empty list if there is none. -/
def soleArgument (args : Value) : Value :=
  args.first?.getD .empty

/-- The result of a primitive on an argument list. -/
def compute : Primitive → Value → Except Error Value
  | add, args => .integer <$> foldIntegers add.name Fixnum.add 0 args.elements
  | subtract, args => .integer <$> difference args.elements
  | multiply, args => .integer <$> foldIntegers multiply.name Fixnum.multiply 1 args.elements
  | divide, args => .integer <$> quotient args.elements
  | car, args =>
    match soleArgument args with
    | .cons first _ => .ok first
    | v => .error (.typing (.pairRequired v.text))
  | cdr, args =>
    match soleArgument args with
    | .cons _ rest => .ok rest
    | v => .error (.typing (.pairRequired v.text))
  | cons, args =>
    match args with
    | .cons first (.cons rest _) =>
      if rest.isList then .ok (.cons first rest)
      else .error (.typing (.consOntoNonList rest.text))
    | _ => .error (.arity cons.name cons.arity args.length)
  | list, args => .ok args
  | isEmpty, args => .ok (.bool (soleArgument args).isEmptyList)
  | typeOf, args => .ok (.typeTag (soleArgument args).typeOf)
  | println, _ => .ok (.bool true)

/-- Runs a primitive on an argument list. -/
def run (op : Primitive) (args : Value) : Action Value :=
  match op with
  | println => do
    Action.print (lines args.elements)
    Action.ofExcept (println.compute args)
  | op => Action.ofExcept (op.compute args)

/-- All primitives but `println` only compute. -/
theorem run_eq {op : Primitive} (hop : op ≠ .println) (args : Value) :
    op.run args = Action.ofExcept (op.compute args) := by
  cases op <;> first | rfl | exact absurd rfl hop

/-- Calls a primitive, which refuses a number of arguments that its arity does not admit. -/
def apply (op : Primitive) (args : Value) : Action Value := do
  Action.ofExcept (op.arity.check op.name args.length)
  op.run args

end Primitive

end ConsLisp
