import ConsLisp.Store.Bindings
import ConsLisp.Value.Text

/-!
# Lambda lists

A closure names its parameters in a lambda list. A symbol takes the next argument. A list
`(name default)` takes the next argument as well, or its default expression, unevaluated, once the
arguments have run out. The marker `.` gives the list of all remaining arguments to the symbol after
it and ends the lambda list. Arguments that nothing takes are ignored.

Parameters are bound from left to right, and the first one that cannot be bound decides the error.

## Main definitions

* `requiredCount`: how many arguments a lambda list insists on.
* `bindParameters`: the bindings of a call.
-/

namespace ConsLisp.LambdaList

/-- The symbol that announces the parameter for the remaining arguments. -/
def restMarker : String := "."

/-- The number of plain parameters before the marker. -/
def requiredCount : Value → Nat
  | .cons (.symbol x) formals => if x = restMarker then 0 else requiredCount formals + 1
  | .cons _ formals => requiredCount formals
  | _ => 0

/-- Binds the parameters `formals` to the arguments `actuals`, in addition to the bindings made
before. These are what is left of the whole lambda list `params` and of the argument list `args` of
the callable called `name`, which the errors tell. -/
def bindFormals (name : String) (params args : Value) (bound : Bindings) :
    (formals actuals : Value) → Except Error Bindings
  | .cons (.symbol x) formals, actuals =>
    if x = restMarker then
      match formals with
      | .cons (.symbol rest) _ => bound.bind? rest actuals
      | _ => .error (.typing (.restWithoutName params.text))
    else
      match actuals with
      | .cons actual actuals => do
        bindFormals name params args (← bound.bind? x actual) formals actuals
      | _ => .error (.arity name (.atLeast (requiredCount params)) args.length)
  | .cons (.cons (.symbol x) (.cons default _)) formals, actuals =>
    match actuals with
    | .cons actual actuals => do
      bindFormals name params args (← bound.bind? x actual) formals actuals
    | _ => do
      bindFormals name params args (← bound.bind? x default) formals actuals
  | .cons formal@(.cons _ _) _, _ => .error (.typing (.malformedOptional formal.text))
  | .cons formal _, _ => .error (.typing (.malformedParameter formal.text))
  | _, _ => .ok bound

/-- The bindings of a call of the callable `name` with the lambda list `params`. -/
def bindParameters (name : String) (params args : Value) : Except Error Bindings :=
  bindFormals name params args [] params args

end ConsLisp.LambdaList
