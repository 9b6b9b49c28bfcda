import ConsLisp.Arity

/-!
# The catalogue of builtin operations

A fresh global frame binds nine special forms and eleven primitive functions. Both catalogues are
fixed enumerations, so two operations are the same operation exactly when they are the same
constructor. `lambda` and `fn` do the same work and are nevertheless two entries.

## Main definitions

* `SpecialForm`, `Primitive`: the two catalogues.
* `SpecialForm.name`, `Primitive.name`: the names bound in a fresh global frame.
* `SpecialForm.arity`, `Primitive.arity`: how many operands or arguments each entry takes.
-/

namespace ConsLisp

/-- An operation that receives its operands unevaluated, together with the calling frame. -/
inductive SpecialForm where
  | define
  | defineFunction
  | defineMacro
  | lambda
  | fn
  | makeMacro
  | branch
  | increment
  | load
deriving DecidableEq, Inhabited

/-- An operation that receives the list of its evaluated arguments. -/
inductive Primitive where
  | add
  | subtract
  | multiply
  | divide
  | car
  | cdr
  | cons
  | list
  | isEmpty
  | typeOf
  | println
deriving DecidableEq, Inhabited

namespace SpecialForm

/-- The name that a fresh global frame binds to a special form. -/
def name : SpecialForm → String
  | define => "def"
  | defineFunction => "defn"
  | defineMacro => "defmacro"
  | lambda => "lambda"
  | fn => "fn"
  | makeMacro => "macro"
  | branch => "if"
  | increment => "inc!"
  | load => "load"

/-- How many operands a special form takes. -/
def arity : SpecialForm → Arity
  | define | defineFunction | defineMacro | lambda | fn | makeMacro => .atLeast 1
  | branch => .between 2 3
  | increment => .exactly 1
  | load => .any

/-- All special forms. -/
def all : List SpecialForm :=
  [define, defineFunction, defineMacro, lambda, fn, makeMacro, branch, increment, load]

/-- The description of a catalogue entry, field by field. -/
def fieldText (form : SpecialForm) : String :=
  "BuiltinOp \x7b id: \"" ++ form.name ++ "\", op_kind: SpecialForm(<fn>), arity: " ++
    form.arity.fieldText ++ " \x7d"

theorem mem_all (form : SpecialForm) : form ∈ all := by
  cases form <;> decide

end SpecialForm

namespace Primitive

/-- The name that a fresh global frame binds to a primitive. -/
def name : Primitive → String
  | add => "+"
  | subtract => "-"
  | multiply => "*"
  | divide => "/"
  | car => "car"
  | cdr => "cdr"
  | cons => "cons"
  | list => "list"
  | isEmpty => "empty?"
  | typeOf => "type-of"
  | println => "println"

/-- How many arguments a primitive takes. -/
def arity : Primitive → Arity
  | add | multiply | list | println => .any
  | subtract | divide => .atLeast 1
  | car | cdr | isEmpty | typeOf => .exactly 1
  | cons => .exactly 2

/-- All primitives. -/
def all : List Primitive :=
  [add, subtract, multiply, divide, car, cdr, cons, list, isEmpty, typeOf, println]

theorem mem_all (op : Primitive) : op ∈ all := by
  cases op <;> decide

end Primitive

end ConsLisp
