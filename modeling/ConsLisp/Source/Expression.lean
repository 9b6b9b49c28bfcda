import ConsLisp.Source.SyntaxError
import ConsLisp.Source.Token

/-!
# Expressions

The reader keeps the lists and quote marks that are open, innermost first, and takes one token
after the other. A token opens a level, closes one, or is an expression of its own; a complete
expression goes into the innermost level, which may complete that level in turn. Reading stops at
the first expression that completes with no level left open.

A text nests too deeply as soon as a token opens a level while `maxNesting` levels are open.

## Main definitions

* `Level`: an open list or quote mark.
* `shift`: the effect of one token on the open levels.
* `read`: the first expression of a text.

## Main results

* `rest_length_lt_of_read`: the rest after an expression is shorter than the text.
-/

namespace ConsLisp.Source

/-- A list or quote mark whose contents are being read. -/
inductive Level where
  /-- An open list and the elements found so far, last one first. -/
  | list (found : List Value)
  /-- A quote mark that waits for its expression. -/
  | mark (kind : QuoteKind)
deriving DecidableEq

/-- What a token leads to. -/
inductive Progress where
  /-- An expression is complete and no level is open. -/
  | complete (v : Value)
  /-- More tokens are needed; the open levels are given innermost first. -/
  | pending (levels : List Level)
deriving DecidableEq

/-- Puts a complete expression into the innermost open level. -/
def place : List Level → Value → Progress
  | [], v => .complete v
  | .list found :: levels, v => .pending (.list (v :: found) :: levels)
  | .mark kind :: levels, v => place levels (.quoted kind v)

/-- Opens one more level, unless `maxNesting` levels are open already. -/
def openLevel (levels : List Level) (level : Level) : Except ReadFault Progress :=
  if levels.length < maxNesting then .ok (.pending (level :: levels)) else .error .nesting

/-- The value of a word: an integer if the word spells one, and otherwise a symbol. -/
def wordValue (letters : List Char) : Value :=
  match Fixnum.ofWord? letters with
  | some n => .integer n
  | none => .symbol (String.ofList letters)

/-- The effect of one token on the open levels. -/
def shift (levels : List Level) : Token → Except ReadFault Progress
  | .opening => openLevel levels (.list [])
  | .mark kind => openLevel levels (.mark kind)
  | .closing =>
    match levels with
    | .list found :: levels => .ok (place levels (.unwind found .empty))
    | _ => .error .strayClosing
  | .literal body => .ok (place levels (.string (String.ofList body)))
  | .word letters => .ok (place levels (wordValue letters))

/-- What is missing when a text ends while the given levels are open. -/
def missingAtEnd? : List Level → Option ReadFault
  | [] => none
  | .list _ :: _ => some .openList
  | .mark _ :: _ => some .openQuote

/-- The first expression of a text. Positions count bytes from the start of the source. -/
inductive Reading where
  /-- Only blanks were left. -/
  | finished (stop : Nat)
  /-- An expression ends before `stop`, where `rest` begins. -/
  | complete (v : Value) (stop : Nat) (rest : List Char)
  /-- Reading failed at a position. -/
  | failed (fault : ReadFault) (place : Nat)

/-- Reads the rest of an expression of which the given levels are open. The text starts at the byte
position `start` of the source. -/
def read (comments : Bool) (levels : List Level) (start : Nat) (text : List Char) : Reading :=
  match _h : scan comments text with
  | .finished blank =>
    match missingAtEnd? levels with
    | none => .finished (start + byteSize blank)
    | some fault => .failed fault (start + byteSize blank)
  | .unclosed blank _ => .failed .openString (start + byteSize blank)
  | .found blank l =>
    let stop := start + byteSize blank + byteSize l.token.spelling + byteSize l.trailing
    match shift levels l.token with
    | .error fault => .failed fault stop
    | .ok (.complete v) => .complete v stop l.rest
    | .ok (.pending levels) => read comments levels stop l.rest
termination_by text.length
decreasing_by exact rest_length_lt_of_scan ‹_›

/-- After an expression less text is left than before. -/
theorem rest_length_lt_of_read {comments : Bool} {levels : List Level} {start stop : Nat}
    {text rest : List Char} {v : Value}
    (h : read comments levels start text = .complete v stop rest) : rest.length < text.length := by
  fun_induction read comments levels start text with
  | case5 levels start text blank l hscan _ v' hshift =>
    exact (Reading.complete.inj h).2.2 ▸ rest_length_lt_of_scan hscan
  | case6 levels start text blank l hscan _ levels' hshift ih =>
    exact Nat.lt_trans (ih h) (rest_length_lt_of_scan hscan)
  | _ => cases h

end ConsLisp.Source
