/-!
# Excerpts of a text around a byte position

A syntax error shows the part of the text where it was met. The excerpt starts twenty bytes before
the error, at the next whole character, holds at most sixty characters, and marks with `[...]`
where text was cut off. It is a single line: a newline is written as the two characters `\n`, and a
carriage return is left out.

## Main definitions

* `byteSize`: the length of a text in bytes.
* `dropBytes`: the text from the first whole character at or after a byte position.
* `excerpt`: the excerpt around a byte position.

## Main results

* `byteSize_append`: byte lengths add up.
-/

namespace ConsLisp.Source

/-- The number of bytes that a text occupies. -/
def byteSize (cs : List Char) : Nat :=
  cs.foldr (fun c size => c.utf8Size + size) 0

@[simp] theorem byteSize_nil : byteSize [] = 0 := rfl

@[simp] theorem byteSize_cons (c : Char) (cs : List Char) :
    byteSize (c :: cs) = c.utf8Size + byteSize cs := rfl

@[simp] theorem byteSize_append (cs ds : List Char) :
    byteSize (cs ++ ds) = byteSize cs + byteSize ds := by
  induction cs with
  | nil => rw [List.nil_append, byteSize_nil, Nat.zero_add]
  | cons c cs ih => rw [List.cons_append, byteSize_cons, byteSize_cons, ih, Nat.add_assoc]

theorem byteSize_pos {cs : List Char} (h : cs ≠ []) : 0 < byteSize cs := by
  obtain ⟨c, cs, rfl⟩ := List.exists_cons_of_ne_nil h
  rw [byteSize_cons]
  exact Nat.add_pos_left c.utf8Size_pos _

/-- The text from the first whole character that starts at byte `n` or later. -/
def dropBytes : Nat → List Char → List Char
  | 0, cs => cs
  | _ + 1, [] => []
  | n + 1, c :: cs => dropBytes (n + 1 - c.utf8Size) cs

/-- How many bytes of text before the error an excerpt shows. -/
def excerptLead : Nat := 20

/-- The greatest number of characters in an excerpt. -/
def excerptLength : Nat := 60

/-- The mark for text that an excerpt leaves out. -/
def cutMark : List Char := "[...]".toList

/-- The spelling of a character inside a single line. -/
def inLine (c : Char) : List Char :=
  if c = '\n' then ['\\', 'n'] else if c = '\r' then [] else [c]

/-- The excerpt of a text around the byte position `offset`, which may lie inside a character or
beyond the end. -/
def excerpt (text : List Char) (offset : Nat) : List Char :=
  let start := offset - excerptLead
  let window := (dropBytes start text).take excerptLength
  let before := if 0 < start then cutMark else []
  let after := if start + byteSize window < byteSize text then cutMark else []
  before ++ window.flatMap inLine ++ after

end ConsLisp.Source
