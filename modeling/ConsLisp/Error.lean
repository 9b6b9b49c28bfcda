import ConsLisp.Arity
import ConsLisp.Source.SyntaxError

/-!
# Errors of a program

An error names its cause. Where the cause involves a value, the error keeps the printed form of
that value, so that an error is plain data and outlives the program state it came from. All wording
is in `Error.text` and the functions it calls.

## Main definitions

* `TypeFault`, `CallFault`, `EvalFault`, `LoadFault`: the causes within one class of error.
* `Error`: the errors.
* `Error.text`: the printed form of an error.
* `Error.isIncompleteInput`: the errors that more input could repair.
-/

namespace ConsLisp

open Source (SyntaxError)

/-- An operation met a value of the wrong type or shape. Each argument called `got` is the printed
form of the value that was met. -/
inductive TypeFault where
  | properListExpected (got : String)
  | integersRequired (op typeName got : String)
  | pairRequired (got : String)
  | consOntoNonList (got : String)
  | spliceOfNonList (got : String)
  | restWithoutName (params : String)
  | malformedOptional (got : String)
  | malformedParameter (got : String)
  | paramsNotList (got : String)
  | signatureRequired (form got : String)
  | nameNotSymbol (form got : String)
  | definedNameNotSymbol (got : String)
  | incrementedNotSymbol (got : String)
  | incrementedNotInteger (name typeName : String)
  /-- A fault reported by the embedding program in its own words. -/
  | other (message : String)
deriving DecidableEq, Inhabited

/-- The head of a call cannot be called. -/
inductive CallFault where
  | notCallable (got : String)
  /-- A fault reported by the embedding program in its own words. -/
  | other (message : String)
deriving DecidableEq, Inhabited

/-- Evaluation has no result. -/
inductive EvalFault where
  /-- The expression is a value that has no evaluation rule. -/
  | notEvaluable (got : String)
  | divisionByZero
  /-- The result of the named computation is not a machine integer. -/
  | overflow (computation : String)
  /-- A fault reported by the embedding program in its own words. -/
  | other (message : String)
deriving DecidableEq, Inhabited

/-- A source could not be loaded. -/
inductive LoadFault where
  | missing
  | isDirectory
  | notDirectory
  /-- A name on the path, or the path itself, is longer than a file system takes. -/
  | nameTooLong
  /-- The path holds the character that ends a path. -/
  | nulInPath
  | notText
  | pathNotString
  | malformed (e : SyntaxError)
  /-- A fault reported by the embedding program in its own words. -/
  | other (message : String)
deriving DecidableEq, Inhabited

/-- The errors in which reading or evaluation can end. -/
inductive Error where
  | reading (e : SyntaxError)
  | unbound (name : String)
  | typing (fault : TypeFault)
  | calling (fault : CallFault)
  /-- An operation got a number of arguments that its arity does not admit. -/
  | arity (name : String) (expected : Arity) (got : Nat)
  /-- A name was to be bound a second time in one frame. -/
  | alreadyBound (name : String)
  | loading (path : String) (fault : LoadFault)
  | evaluation (fault : EvalFault)
deriving DecidableEq, Inhabited

/-- The wording of a type fault. -/
def TypeFault.text : TypeFault → String
  | properListExpected got => "expected a proper list, got " ++ got
  | integersRequired op typeName got =>
      "'" ++ op ++ "' requires integers, got " ++ typeName ++ ": " ++ got
  | pairRequired got => "pair required, but got " ++ got
  | consOntoNonList got => "cons requires a list as second argument, got " ++ got
  | spliceOfNonList got => ",@ requires a list, but got " ++ got
  | restWithoutName params => "'.' must be followed by a symbol in lambda list " ++ params
  | malformedOptional got => "optional parameter must be (name default), got " ++ got
  | malformedParameter got => "invalid lambda list element: " ++ got
  | paramsNotList got => "lambda list must be a list, got " ++ got
  | signatureRequired form got => form ++ " requires (name . lambda-list), got " ++ got
  | nameNotSymbol form got => form ++ " requires a symbol as name, got " ++ got
  | definedNameNotSymbol got => "def requires a symbol, got " ++ got
  | incrementedNotSymbol got => "inc! requires a symbol, got " ++ got
  | incrementedNotInteger name typeName =>
      "inc! requires an integer, but " ++ name ++ " is " ++ typeName
  | other message => message

/-- The wording of a fault in the head of a call. -/
def CallFault.text : CallFault → String
  | notCallable got => got ++ " is not callable"
  | other message => message

/-- The wording of a fault of evaluation. -/
def EvalFault.text : EvalFault → String
  | notEvaluable got => "Failed to eval " ++ got
  | divisionByZero => "Division by zero"
  | overflow computation => "Integer overflow in " ++ computation
  | other message => message

/-- The wording of a fault of loading. -/
def LoadFault.text : LoadFault → String
  | missing => "No such file or directory (os error 2)"
  | isDirectory => "Is a directory (os error 21)"
  | notDirectory => "Not a directory (os error 20)"
  | nameTooLong => "File name too long (os error 36)"
  | nulInPath => "file name contained an unexpected NUL byte"
  | notText => "stream did not contain valid UTF-8"
  | pathNotString => "load requires string paths"
  | malformed e => e.text
  | other message => message

namespace Error

/-- The printed form of an error. -/
def text : Error → String
  | reading e => e.text
  | unbound name => "Unbound variable: " ++ name
  | typing fault => "Type error: " ++ fault.text
  | calling fault => "Failed to evaluate: " ++ fault.text
  | arity name expected got =>
      "Wrong number of arguments to '" ++ name ++ "': expected " ++ expected.text ++ ", got " ++
        toString got
  | alreadyBound name => "Can't overwrite " ++ name
  | loading path fault => "Cannot load " ++ path ++ ": " ++ fault.text
  | evaluation fault => "Evaluation error: " ++ fault.text

/-- Whether the error is a syntax error that more input could repair. -/
def isIncompleteInput : Error → Bool
  | reading e => e.isIncomplete
  | _ => false

end Error

/-- Refuses an argument count that the arity of the named operation does not admit. -/
def Arity.check (expected : Arity) (name : String) (got : Nat) : Except Error Unit :=
  if expected.Admits got then .ok () else .error (.arity name expected got)

end ConsLisp
