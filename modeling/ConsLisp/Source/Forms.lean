import ConsLisp.Source.Expression

/-!
# The forms of a source

A source is a sequence of top-level expressions, its forms. A stream yields them one at a time; it
ends when only blanks are left, and it yields nothing more once it has yielded a syntax error.

## Main definitions

* `Stream`: a source and how far it has been read.
* `Stream.next`: the next form or error of a stream, and the stream after it.
* `Stream.drain`: everything that a stream yields.
* `readForms`: the forms of a whole source.
* `readOne`: the first form of a text, which has to hold one.

## Main results

* `Stream.rest_length_lt_of_next`: a stream that yields a form has less text left.
-/

namespace ConsLisp.Source

/-- A source that is being read. -/
structure Stream where
  /-- Whether a semicolon at the start of a token begins a comment. -/
  comments : Bool
  source : List Char
  /-- The part of the source that has not been read. -/
  rest : List Char
  /-- The byte position of that part. -/
  position : Nat
  /-- Whether a syntax error has been met. -/
  failed : Bool

namespace Stream

/-- The stream at the start of a source. -/
def ofText (comments : Bool) (source : String) : Stream where
  comments := comments
  source := source.toList
  rest := source.toList
  position := 0
  failed := false

/-- What a stream yields next, if it yields anything, and the stream after that. -/
def next (s : Stream) : Option (Except SyntaxError Value) × Stream :=
  if s.failed then (none, s)
  else
    match read s.comments [] s.position s.rest with
    | .finished stop => (none, { s with rest := [], position := stop })
    | .complete v stop rest => (some (.ok v), { s with rest := rest, position := stop })
    | .failed fault place =>
      (some (.error (fault.inText s.source place)), { s with failed := true })

theorem rest_length_lt_of_next {s s' : Stream} {v : Value} (h : s.next = (some (.ok v), s')) :
    s'.rest.length < s.rest.length := by
  unfold next at h
  split at h
  · cases h
  · split at h <;> cases h
    exact rest_length_lt_of_read ‹_›

end Stream

/-- A form and the byte position after it. -/
structure Form where
  value : Value
  stop : Nat

/-- Everything that a stream yields: its forms, then the syntax error in which it ends, if any, and
the stream after all that. -/
structure Forms where
  forms : List Form
  error? : Option SyntaxError
  after : Stream

namespace Stream

/-- Collects what a stream yields behind the forms found before, which are given last one first. -/
def collect (found : List Form) (s : Stream) : Forms :=
  match _h : s.next with
  | (none, s') => ⟨found.reverse, none, s'⟩
  | (some (.error e), s') => ⟨found.reverse, some e, s'⟩
  | (some (.ok v), s') => collect (⟨v, s'.position⟩ :: found) s'
termination_by s.rest.length
decreasing_by exact rest_length_lt_of_next ‹_›

/-- Everything that a stream yields. -/
def drain (s : Stream) : Forms :=
  s.collect []

end Stream

/-- The forms of a whole source. -/
def readForms (comments : Bool) (source : String) : Forms :=
  (Stream.ofText comments source).drain

/-- The first form of a text and the byte position after it. What follows the form is not looked
at, and a semicolon begins no comment. A blank text is incomplete. -/
def readOne (text : String) : Except SyntaxError Form :=
  match (Stream.ofText false text).next with
  | (some (.ok v), s) => .ok ⟨v, s.position⟩
  | (some (.error e), _) => .error e
  | (none, _) => .error ⟨ReadFault.blank.kind, ReadFault.blank.message, none⟩

end ConsLisp.Source
