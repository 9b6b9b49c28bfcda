import ConsLisp.Fixnum
import ConsLisp.Error
import ConsLisp.Builtin

/-!
# Values

Programs and data are the same values: lists are chains of pairs, and a chain may end in a value
that is no list. A callable is a primitive function or a closure; a closure carries its parameter
list, its body, the frame it was made in, and an identity of its own.

## Main definitions

* `Value`: the values.
* `Value.ofList`, `Value.elements`, `Value.toList?`: lists of values and chains of pairs.
* `Value.length`: the number of pairs along a chain.
* `Value.isList`: the values that are a pair or the empty list.
* `Value.typeOf`: the type of a value, as `type-of` answers it.

## Main results

* `Value.elements_ofList`: reading off the elements of a list gives the list back.
* `Value.length_elements`: there is one element for each pair.
-/

namespace ConsLisp

/-- The marks that wrap the expression after them. -/
inductive QuoteKind where
  | quote
  | quasiquote
  | unquote
  | splice
deriving DecidableEq, Inhabited

/-- What becomes of the result of a closure. -/
inductive Role where
  /-- The closure receives evaluated arguments and its result is the answer. -/
  | function
  /-- The closure receives raw operands and its result is evaluated in the calling frame. -/
  | expander
deriving DecidableEq, Inhabited

/-- The types that a program can ask for. -/
inductive ValueType where
  | cell
  | symbol
  | integer
  | string
  | function
  | expander
  | specialForm
  | bool
  | typeTag
  /-- The type of an expression under a quote mark. -/
  | unknown
deriving DecidableEq, Inhabited

/-- The name of a type. -/
def ValueType.name : ValueType → String
  | cell => "cell"
  | symbol => "symbol"
  | integer => "integer"
  | string => "string"
  | function => "function"
  | expander => "macro"
  | specialForm => "special-form"
  | bool => "bool"
  | typeTag => "type"
  | unknown => "unknown"

/-- All types. -/
def ValueType.all : List ValueType :=
  [cell, symbol, integer, string, function, expander, specialForm, bool, typeTag, unknown]

/-- The place of a binding frame in the store. -/
abbrev FrameId := Nat

/-- A value of the language. -/
inductive Value where
  /-- The empty list, which also ends every proper list. -/
  | empty
  /-- A pair. -/
  | cons (first rest : Value)
  | symbol (name : String)
  | integer (n : Fixnum)
  /-- A string; backslashes are kept as they were written. -/
  | string (text : String)
  | bool (b : Bool)
  /-- An expression under a quote mark. -/
  | quoted (kind : QuoteKind) (inner : Value)
  /-- A builtin function under a display name. -/
  | primitive (name : String) (op : Primitive)
  /-- A closure under a display name. The number `id` tells closures apart. -/
  | closure (role : Role) (name : String) (id : Nat) (params body : Value) (frame : FrameId)
  | specialForm (form : SpecialForm)
  | typeTag (tag : ValueType)
deriving DecidableEq, Inhabited

namespace Value

/-! ### Chains of pairs -/

/-- The chain with the given elements that ends in `tail`. -/
def chain (vs : List Value) (tail : Value) : Value :=
  vs.foldr cons tail

/-- The proper list with the given elements. -/
def ofList (vs : List Value) : Value :=
  chain vs empty

/-- The chain whose elements, last one first, are given, and which ends in `tail`. -/
def unwind (reversed : List Value) (tail : Value) : Value :=
  reversed.foldl (fun rest first => cons first rest) tail

@[simp] theorem unwind_nil (tail : Value) : unwind [] tail = tail := rfl

@[simp] theorem unwind_cons (v : Value) (reversed : List Value) (tail : Value) :
    unwind (v :: reversed) tail = unwind reversed (cons v tail) := rfl

/-- Collects the elements of a chain behind those already found, which are given last one first. -/
def collect (found : List Value) : Value → List Value
  | cons first rest => collect (first :: found) rest
  | _ => found.reverse

/-- The elements along a chain of pairs. What the chain ends in is not among them. -/
def elements (v : Value) : List Value :=
  collect [] v

theorem collect_eq (found : List Value) (v : Value) :
    collect found v = found.reverse ++ elements v := by
  induction v generalizing found with
  | cons first rest _ ih =>
    rw [elements, collect, collect, ih (first :: found), ih [first]]
    simp
  | _ => simp [elements, collect]

@[simp] theorem elements_cons (first rest : Value) :
    elements (cons first rest) = first :: elements rest := by
  rw [elements, collect, collect_eq]
  rfl

@[simp] theorem elements_empty : elements empty = [] := rfl

@[simp] theorem elements_ofList (vs : List Value) : elements (ofList vs) = vs := by
  induction vs with
  | nil => rfl
  | cons v vs ih => simpa [ofList, chain] using ih

/-- The number of pairs along a chain. -/
def length (v : Value) : Nat :=
  v.elements.length

@[simp] theorem length_cons (first rest : Value) : length (cons first rest) = length rest + 1 := by
  simp [length]

/-- What a chain of pairs ends in. -/
def terminator : Value → Value
  | cons _ rest => terminator rest
  | v => v

/-- The elements of a proper list. -/
def toList? (v : Value) : Option (List Value) :=
  match v.terminator with
  | empty => some v.elements
  | _ => none

/-- A pair or the empty list. -/
def isList : Value → Bool
  | empty | cons _ _ => true
  | _ => false

/-- The first component of a pair. -/
def first? : Value → Option Value
  | cons first _ => some first
  | _ => none

/-- The second component of a pair. -/
def rest? : Value → Option Value
  | cons _ rest => some rest
  | _ => none

/-- Whether a value is the empty list. -/
def isEmptyList : Value → Bool
  | empty => true
  | _ => false

/-- Whether a value has no elements, which is so for everything but pairs. -/
def isEmpty : Value → Bool
  | cons _ _ => false
  | _ => true

/-- Every value but `#f` counts as true. -/
def isTruthy : Value → Bool
  | bool b => b
  | _ => true

/-! ### Types -/

/-- The type of a value. -/
def typeOf : Value → ValueType
  | empty | cons _ _ => .cell
  | symbol _ => .symbol
  | integer _ => .integer
  | string _ => .string
  | bool _ => .bool
  | quoted _ _ => .unknown
  | primitive _ _ => .function
  | closure .function _ _ _ _ _ => .function
  | closure .expander _ _ _ _ _ => .expander
  | specialForm _ => .specialForm
  | typeTag _ => .typeTag

/-- The name of the type of a value. -/
def typeName (v : Value) : String :=
  v.typeOf.name

/-- A function under a new display name. Other values keep theirs. -/
def named (name : String) : Value → Value
  | primitive _ op => primitive name op
  | closure .function _ id params body frame => closure .function name id params body frame
  | v => v

end Value

end ConsLisp
