import ConsLisp.Source.Excerpt
import ConsLisp.Value.Basic

/-!
# Tokens

A program text is a sequence of tokens: parentheses, quote marks, string literals and words. Blanks
may stand before a token, and where comments are enabled a comment from a semicolon to the end of
its line counts as blank. A word reaches to the next blank or delimiter, and takes the one blank
after it along; a bracket is a word of its own.

`scan` splits a text into what stands before its first token, that token, the blank that it takes
along, and the rest. Nothing of the text is lost, and each token makes the rest shorter.

## Main definitions

* `isBlank`, `isDelimiter`, `endsWord`: the classes of characters.
* `Token`: the tokens; `Token.spelling`: the text of a token.
* `literalBody?`: the body of a string literal and the text after its closing quote.
* `scan`: the first token of a text.

## Main results

* `text_scan`: the parts that `scan` returns make up the text.
* `rest_length_lt_of_scan`: the rest after a token is shorter than the text.
-/

namespace ConsLisp.Source

/-! ### Characters -/

/-- The characters that separate tokens. -/
def isBlank (c : Char) : Bool :=
  c == ' ' || c == '\t' || c == '\r' || c == '\n'

/-- The characters that start a token of their own. -/
def isDelimiter (c : Char) : Bool :=
  c == '(' || c == ')' || c == '[' || c == ']' || c == '\x27' || c == '\x60' || c == ',' ||
    c == '\x22'

/-- The characters that end a word. -/
def endsWord (c : Char) : Bool :=
  isBlank c || isDelimiter c

/-! ### Tokens and their spelling -/

/-- A token of a program text. -/
inductive Token where
  | opening
  | closing
  | mark (kind : QuoteKind)
  /-- A string literal, without its quotes. -/
  | literal (body : List Char)
  /-- A word, or a bracket. -/
  | word (letters : List Char)
deriving DecidableEq, Inhabited

/-- The characters of a quote mark. -/
def markSpelling : QuoteKind → List Char
  | .quote => ['\x27']
  | .quasiquote => ['\x60']
  | .unquote => [',']
  | .splice => [',', '@']

/-- The text of a token. -/
def Token.spelling : Token → List Char
  | opening => ['(']
  | closing => [')']
  | mark kind => markSpelling kind
  | literal body => '\x22' :: (body ++ ['\x22'])
  | word letters => letters

/-! ### Blanks before a token -/

/-- Splits off the blanks at the start of a text. `inComment` says that the text starts inside a
comment, and `skipped` holds the characters skipped before, last one first. -/
def splitBlank (comments : Bool) :
    (inComment : Bool) → (skipped : List Char) → List Char → List Char × List Char
  | _, skipped, [] => (skipped.reverse, [])
  | true, skipped, c :: cs => splitBlank comments (c != '\n') (c :: skipped) cs
  | false, skipped, c :: cs =>
    if isBlank c then splitBlank comments false (c :: skipped) cs
    else if comments && c == ';' then splitBlank comments true (c :: skipped) cs
    else (skipped.reverse, c :: cs)

theorem splitBlank_append (comments inComment : Bool) (skipped cs : List Char) :
    (splitBlank comments inComment skipped cs).1 ++ (splitBlank comments inComment skipped cs).2 =
      skipped.reverse ++ cs := by
  induction cs generalizing inComment skipped with
  | nil => cases inComment <;> simp [splitBlank]
  | cons c cs ih =>
    cases inComment with
    | true => rw [splitBlank, ih]; simp
    | false =>
      rw [splitBlank]
      split
      · rw [ih]; simp
      · split
        · rw [ih]; simp
        · rfl

/-! ### String literals and words -/

/-- The body of a string literal and the text after its closing quote, for a text that starts after
the opening quote. A backslash takes the character after it along, and both stay in the body. There
is none when the literal is not closed. `body` holds the characters read before, last one first. -/
def literalBody? (body : List Char) : List Char → Option (List Char × List Char)
  | [] => none
  | '\\' :: [] => none
  | '\\' :: c :: cs => literalBody? (c :: '\\' :: body) cs
  | c :: cs => if c = '\x22' then some (body.reverse, cs) else literalBody? (c :: body) cs

theorem literalBody?_append {body cs found rest : List Char}
    (h : literalBody? body cs = some (found, rest)) :
    found ++ '\x22' :: rest = body.reverse ++ cs := by
  fun_induction literalBody? body cs with
  | case1 => cases h
  | case2 => cases h
  | case3 body c cs ih => simpa using ih h
  | case4 body cs =>
    obtain ⟨rfl, rfl⟩ := Prod.mk.injEq .. ▸ Option.some.inj h
    simp
  | case5 body c cs _ _ _ ih => simpa using ih h

/-- The characters of a text before the first one that ends a word, and the text from there. -/
def splitWord (cs : List Char) : List Char × List Char :=
  (cs.takeWhile (fun c => !endsWord c), cs.dropWhile (fun c => !endsWord c))

/-- The blank that a word takes along, if one follows it, and the text after it. -/
def splitTrailing : List Char → List Char × List Char
  | [] => ([], [])
  | c :: cs => if isBlank c then ([c], cs) else ([], c :: cs)

theorem splitTrailing_append (cs : List Char) :
    (splitTrailing cs).1 ++ (splitTrailing cs).2 = cs := by
  cases cs with
  | nil => rfl
  | cons c cs => rw [splitTrailing]; split <;> rfl

/-! ### The first token of a text -/

/-- A token at the start of a text, the blank that it takes along, and the rest of the text. -/
structure Lexeme where
  token : Token
  trailing : List Char
  rest : List Char

/-- The word at the start of a text. -/
def wordLexeme (cs : List Char) : Lexeme :=
  let (letters, after) := splitWord cs
  let (trailing, rest) := splitTrailing after
  ⟨.word letters, trailing, rest⟩

/-- The token at the start of the text `c :: cs`, where `c` is no blank and starts no comment. There
is none when a string literal starts there that is not closed. -/
def lexeme? (c : Char) (cs : List Char) : Option Lexeme :=
  match c, cs with
  | '(', cs => some ⟨.opening, [], cs⟩
  | ')', cs => some ⟨.closing, [], cs⟩
  | '\x27', cs => some ⟨.mark .quote, [], cs⟩
  | '\x60', cs => some ⟨.mark .quasiquote, [], cs⟩
  | ',', '@' :: cs => some ⟨.mark .splice, [], cs⟩
  | ',', cs => some ⟨.mark .unquote, [], cs⟩
  | '[', cs => some ⟨.word ['['], [], cs⟩
  | ']', cs => some ⟨.word [']'], [], cs⟩
  | '\x22', cs => (literalBody? [] cs).map fun (body, rest) => ⟨.literal body, [], rest⟩
  | c, cs => some (wordLexeme (c :: cs))

/-- The text of a lexeme: its token, the blank taken along, and the rest. -/
def Lexeme.text (l : Lexeme) : List Char :=
  l.token.spelling ++ l.trailing ++ l.rest

theorem wordLexeme_text (cs : List Char) : (wordLexeme cs).text = cs := by
  simp only [wordLexeme, Lexeme.text, Token.spelling, splitWord, List.append_assoc,
    splitTrailing_append, List.takeWhile_append_dropWhile]

theorem lexeme?_text {c : Char} {cs : List Char} {l : Lexeme} (h : lexeme? c cs = some l) :
    l.text = c :: cs := by
  unfold lexeme? at h
  split at h
  case h_9 =>
    obtain ⟨⟨body, rest⟩, hbody, rfl⟩ := Option.map_eq_some_iff.1 h
    simpa [Lexeme.text, Token.spelling] using literalBody?_append hbody
  case h_10 => rw [← Option.some.inj h, wordLexeme_text]
  all_goals cases h; rfl

theorem wordLexeme_rest_length_le {c : Char} (cs : List Char) (hc : isDelimiter c = false) :
    (wordLexeme (c :: cs)).rest.length ≤ cs.length := by
  have htext := congrArg List.length (wordLexeme_text (c :: cs))
  by_cases hb : isBlank c
  · simp [wordLexeme, splitWord, endsWord, hb, splitTrailing]
  · have hend : endsWord c = false := by simp [endsWord, hb, hc]
    have hpos : 0 < (wordLexeme (c :: cs)).token.spelling.length := by
      simp [wordLexeme, splitWord, Token.spelling, hend]
    simp only [Lexeme.text, List.length_append, List.length_cons] at htext
    omega

/-- A token makes the rest of the text shorter. -/
theorem lexeme?_rest_length_le {c : Char} {cs : List Char} {l : Lexeme}
    (h : lexeme? c cs = some l) : l.rest.length ≤ cs.length := by
  unfold lexeme? at h
  split at h
  case h_9 =>
    obtain ⟨⟨body, rest⟩, hbody, rfl⟩ := Option.map_eq_some_iff.1 h
    have := congrArg List.length (literalBody?_append hbody)
    simp only [List.length_append, List.length_cons, List.reverse_nil, List.nil_append] at this
    simp only
    omega
  case h_10 =>
    rw [← Option.some.inj h]
    exact wordLexeme_rest_length_le _ (by simp_all [isDelimiter])
  all_goals cases h; simp

/-- What stands at the start of a text. -/
inductive Scan where
  /-- The text is all blank. -/
  | finished (blank : List Char)
  /-- After some blanks a string literal starts that is not closed. -/
  | unclosed (blank rest : List Char)
  /-- After some blanks there is a token. -/
  | found (blank : List Char) (lexeme : Lexeme)

/-- The first token of a text. -/
def scan (comments : Bool) (text : List Char) : Scan :=
  match splitBlank comments false [] text with
  | (blank, []) => .finished blank
  | (blank, c :: cs) =>
    match lexeme? c cs with
    | none => .unclosed blank (c :: cs)
    | some lexeme => .found blank lexeme

/-- The text of which a scan tells the start. -/
def Scan.text : Scan → List Char
  | finished blank => blank
  | unclosed blank rest => blank ++ rest
  | found blank lexeme => blank ++ lexeme.text

/-- Scanning loses nothing of the text. -/
theorem text_scan (comments : Bool) (text : List Char) : (scan comments text).text = text := by
  have hsplit := splitBlank_append comments false [] text
  unfold scan
  split <;> rename_i blank _ heq <;> rw [heq] at hsplit
  · simpa [Scan.text] using hsplit
  · split <;> rename_i hlex
    · simpa [Scan.text] using hsplit
    · simpa [Scan.text, lexeme?_text hlex] using hsplit

/-- After a token less text is left than before. -/
theorem rest_length_lt_of_scan {comments : Bool} {text blank : List Char} {l : Lexeme}
    (h : scan comments text = .found blank l) : l.rest.length < text.length := by
  have hsplit := congrArg List.length (splitBlank_append comments false [] text)
  unfold scan at h
  split at h
  · cases h
  · rename_i heq
    split at h
    · cases h
    · rename_i hlex
      cases h
      have hle := lexeme?_rest_length_le hlex
      simp only [heq, List.length_append, List.length_cons, List.reverse_nil, List.nil_append]
        at hsplit
      omega

end ConsLisp.Source
