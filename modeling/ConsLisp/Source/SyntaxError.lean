import ConsLisp.Source.Excerpt

/-!
# Syntax errors

Reading fails in one of three ways: the text is wrong, it stops too early, or it nests too deeply.
The reader itself knows six faults, each of one kind and with one wording.

## Main definitions

* `SyntaxError`: the kind of a failure, its wording, and an excerpt of the text around it.
* `SyntaxError.around`: a failure together with the excerpt around a byte position.
* `ReadFault`: the faults that the reader reports.
* `maxNesting`: how many lists and quote marks may enclose an expression.
-/

namespace ConsLisp.Source

/-- The greatest number of lists and quote marks that may be open at once. -/
def maxNesting : Nat := 256

/-- The kinds of syntax error. -/
inductive SyntaxErrorKind where
  /-- No continuation of the text could be read. -/
  | invalid
  /-- The text ended before its expression did. -/
  | incomplete
  /-- More than `maxNesting` levels were opened. -/
  | tooDeep
deriving DecidableEq, Inhabited

/-- A failure to read a text. -/
structure SyntaxError where
  kind : SyntaxErrorKind
  message : String
  /-- The text around the failure, if its place is known. -/
  excerpt? : Option String
deriving DecidableEq, Inhabited

namespace SyntaxError

/-- A failure at the byte position `offset` of a text. -/
def around (kind : SyntaxErrorKind) (message : String) (text : List Char) (offset : Nat) :
    SyntaxError :=
  ⟨kind, message, some (String.ofList (excerpt text offset))⟩

/-- Whether more text could repair the failure. -/
def isIncomplete (e : SyntaxError) : Bool :=
  e.kind == .incomplete

/-- The printed form of a failure. -/
def text (e : SyntaxError) : String :=
  "Syntax error: " ++ e.message ++
    match e.excerpt? with
    | some shown => "\nContext: " ++ shown
    | none => ""

end SyntaxError

/-- The faults that the reader reports. -/
inductive ReadFault where
  /-- A string literal has no closing quote. -/
  | openString
  /-- The text ends inside a list. -/
  | openList
  /-- The text ends after a quote mark. -/
  | openQuote
  /-- The text holds no expression. -/
  | blank
  /-- A closing parenthesis stands where an expression has to start. -/
  | strayClosing
  /-- One level too many is opened. -/
  | nesting
deriving DecidableEq, Inhabited

namespace ReadFault

/-- The kind of syntax error that a fault is. -/
def kind : ReadFault → SyntaxErrorKind
  | openString | openList | openQuote | blank => .incomplete
  | strayClosing => .invalid
  | nesting => .tooDeep

/-- The wording of a fault. -/
def message : ReadFault → String
  | openString => "Unexpected end of input in string"
  | openList => "Unexpected end of input in list"
  | openQuote => "Unexpected end of input after quote"
  | blank => "Unexpected end of input"
  | strayClosing => "Unexpected ')'"
  | nesting => "Expression too deeply nested (max depth: " ++ toString maxNesting ++ ")"

/-- The syntax error of a fault met at the byte position `offset` of a text. -/
def inText (fault : ReadFault) (text : List Char) (offset : Nat) : SyntaxError :=
  .around fault.kind fault.message text offset

end ReadFault

end ConsLisp.Source
