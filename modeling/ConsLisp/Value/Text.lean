import ConsLisp.Value.Basic

/-!
# Printed forms of values

There are two printed forms. `Value.text` is the notation of programs: reading it gives the value
back wherever the reader can produce the value at all. `Value.structureText` names the constructor
of every part, so that it also tells apart values whose program text is the same.

Both forms walk a value in the same way and differ only in their marks, which a `TextStyle`
collects. A value is written either as a whole or as what follows the elements of a list that was
already opened; in the second place a pair continues the list and the empty list closes it.

## Main definitions

* `TextStyle`: the marks of a printed form.
* `Value.write`: appends the printed form of a value to a text.
* `Value.text`, `Value.structureText`: the two printed forms.

## Main results

* `Value.toList_write`: writing only appends, and what it appends does not depend on the text
  written before.
-/

namespace ConsLisp

/-- The marks of a printed form. -/
structure TextStyle where
  /-- The empty list standing alone. -/
  emptyList : String
  opening : String
  separator : String
  closing : String
  /-- What stands before an expression under a quote mark. -/
  quoteOpening : QuoteKind → String
  /-- What stands after an expression under a quote mark. -/
  quoteClosing : String
  /-- The printed form of a value that is no list and stands under no quote mark. -/
  leaf : Value → String

/-- Where in the printed form of a value a part of it stands. -/
inductive Place where
  /-- On its own. -/
  | whole
  /-- After the elements of an open list. -/
  | tail
deriving DecidableEq

namespace TextStyle

/-- What stands before a pair. -/
def beforePair (style : TextStyle) : Place → String
  | .whole => style.opening
  | .tail => style.separator

/-- How the empty list is written. -/
def atEnd (style : TextStyle) : Place → String
  | .whole => style.emptyList
  | .tail => style.closing

/-- What stands before a value that is no list. -/
def beforeDotted : Place → String
  | .whole => ""
  | .tail => " . "

/-- What stands after a value that is no list. -/
def afterDotted (style : TextStyle) : Place → String
  | .whole => ""
  | .tail => style.closing

end TextStyle

namespace Value

/-- Appends the printed form of a value to the text written so far. -/
def write (style : TextStyle) (place : Place) (written : String) : Value → String
  | empty => written ++ style.atEnd place
  | cons first rest =>
      write style .tail (write style .whole (written ++ style.beforePair place) first) rest
  | quoted kind inner =>
      write style .whole (written ++ TextStyle.beforeDotted place ++ style.quoteOpening kind)
        inner ++ style.quoteClosing ++ style.afterDotted place
  | v => written ++ TextStyle.beforeDotted place ++ style.leaf v ++ style.afterDotted place

theorem toList_write (style : TextStyle) (place : Place) (written : String) (v : Value) :
    (write style place written v).toList = written.toList ++ (write style place "" v).toList := by
  induction v generalizing place written with
  | cons first rest ihf ihr =>
    rw [write, write, ihr, ihf, ihr _ (write _ _ _ _), ihf _ ("" ++ _)]
    simp
  | quoted kind inner ih =>
    simp only [write, String.toList_append]
    rw [ih, ih _ ("" ++ _ ++ _)]
    simp
  | _ => simp [write]

/-! ### Program text -/

end Value

/-- The mark before an expression in program text. -/
def QuoteKind.mark : QuoteKind → String
  | quote => "'"
  | quasiquote => "`"
  | unquote => ","
  | splice => ",@"

namespace Value

/-- The program text of a value without parts. -/
def leafText : Value → String
  | symbol name => name
  | integer n => n.text
  | string text => "\"" ++ text ++ "\""
  | bool b => if b then "#t" else "#f"
  | primitive name _ => "<function " ++ name ++ ">"
  | closure .function name _ _ _ _ => "<function " ++ name ++ ">"
  | closure .expander name _ _ _ _ => "<macro " ++ name ++ ">"
  | specialForm form => "<special-form " ++ form.name ++ ">"
  | typeTag tag => "<" ++ tag.name ++ ">"
  | empty | cons _ _ | quoted _ _ => ""

/-- The marks of program text. -/
def programStyle : TextStyle where
  emptyList := "()"
  opening := "("
  separator := " "
  closing := ")"
  quoteOpening := QuoteKind.mark
  quoteClosing := ""
  leaf := leafText

/-- The program text of a value. -/
def text (v : Value) : String :=
  write programStyle .whole "" v

/-- The elements of a proper list. Any other value is a type fault, which shows the value. -/
def properElements (v : Value) : Except Error (List Value) :=
  match v.toList? with
  | some vs => .ok vs
  | none => .error (.typing (.properListExpected v.text))

/-! ### Structure text -/

end Value

/-- The name of a quote mark in structure text. -/
def QuoteKind.constructorName : QuoteKind → String
  | quote => "Quoted"
  | quasiquote => "Quasiquoted"
  | unquote => "Unquoted"
  | splice => "SplicingUnquoted"

namespace Value

/-- The structure text of a value without parts. Nothing inside it is escaped. -/
def leafStructureText : Value → String
  | symbol name => "Symbol(" ++ name ++ ")"
  | integer n => "Integer(" ++ n.text ++ ")"
  | string text => "String(\"" ++ text ++ "\")"
  | bool b => if b then "Bool(true)" else "Bool(false)"
  | primitive name _ => "Function(" ++ name ++ ")"
  | closure .function name _ _ _ _ => "Function(" ++ name ++ ")"
  | closure .expander name _ _ _ _ => "Macro(" ++ name ++ ")"
  | specialForm form => "SpecialForm(" ++ form.name ++ ")"
  | typeTag tag => "Type(" ++ tag.name ++ ")"
  | empty | cons _ _ | quoted _ _ => ""

/-- The marks of structure text. -/
def structureStyle : TextStyle where
  emptyList := "Empty"
  opening := "List["
  separator := ", "
  closing := "]"
  quoteOpening := fun kind => kind.constructorName ++ "("
  quoteClosing := ")"
  leaf := leafStructureText

/-- The structure text of a value. -/
def structureText (v : Value) : String :=
  write structureStyle .whole "" v

end Value

end ConsLisp
