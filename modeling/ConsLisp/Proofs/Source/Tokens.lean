import ConsLisp.Proofs.Source.Joining

/-!
# The tokens of a text

Apart from positions, only the tokens of a text matter to what is read from it: the blanks and
comments between them do not, and neither does the way in which a text goes on inside a string
literal that it leaves open. A newline keeps the tokens of two texts apart.

## Main definitions

* `Tokenization`, `tokenize`: the tokens of a text, and whether it ends inside a string literal.
* `Outcome.ofTokens`: the first expression of some tokens, and the tokens after it.
* `Forms.Alike`: the same values, and the same syntax error apart from the excerpt.

## Main results

* `outcome_read`: what reading a text comes to, by the tokens of the text.
* `readForms_alike`: texts with the same tokens are read alike.
* `tokenize_append_newline`: the tokens of two texts joined by a newline.
-/

namespace ConsLisp.Source

variable {comments : Bool}

/-- What a text is made of: its tokens in order, and whether it ends inside a string literal. -/
structure Tokenization where
  tokens : List Token
  openLiteral : Bool
deriving DecidableEq

namespace Tokenization

/-- One more token in front. -/
def cons (token : Token) (t : Tokenization) : Tokenization :=
  { t with tokens := token :: t.tokens }

/-- The tokens of a text that ends outside a string literal, and then those of another text. -/
def append (tokens : List Token) (t : Tokenization) : Tokenization :=
  { t with tokens := tokens ++ t.tokens }

end Tokenization

/-- The tokens of a text. -/
def tokenize (comments : Bool) (text : List Char) : Tokenization :=
  match _h : scan comments text with
  | .finished _ => ⟨[], false⟩
  | .unclosed _ _ => ⟨[], true⟩
  | .found _ l => .cons l.token (tokenize comments l.rest)
termination_by text.length
decreasing_by exact rest_length_lt_of_scan ‹_›

theorem tokenize_eq (text : List Char) :
    tokenize comments text =
      match scan comments text with
      | .finished _ => ⟨[], false⟩
      | .unclosed _ _ => ⟨[], true⟩
      | .found _ l => .cons l.token (tokenize comments l.rest) := by
  rw [tokenize]
  split <;> next hscan => rw [hscan]

theorem tokenize_nil : tokenize comments [] = ⟨[], false⟩ := by
  rw [tokenize_eq]
  rfl

theorem tokenize_of_tokenAt {token : Token} {text rest : List Char}
    (h : TokenAt comments token text rest) :
    tokenize comments text = .cons token (tokenize comments rest) := by
  obtain ⟨blank, trailing, hscan⟩ := scan_of_tokenAt h
  rw [tokenize_eq, hscan]

/-- What is skipped at the start of a text does not matter to its tokens. -/
theorem tokenize_of_splitBlank {text text' : List Char}
    (h : (splitBlank comments false [] text).2 = (splitBlank comments false [] text').2) :
    tokenize comments text = tokenize comments text' := by
  rw [tokenize_eq, tokenize_eq, scan, scan]
  generalize splitBlank comments false [] text = split at h
  generalize splitBlank comments false [] text' = split' at h
  obtain ⟨blank, after⟩ := split
  obtain ⟨blank', after'⟩ := split'
  obtain rfl : after = after' := h
  cases after with
  | nil => rfl
  | cons c cs =>
    simp only
    cases lexeme? c cs <;> rfl

/-! ### Reading the tokens -/

/-- What reading comes to, as far as the tokens decide it. -/
inductive Outcome where
  | finished
  | complete (v : Value) (rest : Tokenization)
  | failed (fault : ReadFault)

/-- The first expression of the given tokens, of which the given levels are open, and the tokens
after it. -/
def Outcome.ofTokens (openLiteral : Bool) : List Level → List Token → Outcome
  | levels, [] =>
    if openLiteral then .failed .openString
    else
      match missingAtEnd? levels with
      | none => .finished
      | some fault => .failed fault
  | levels, token :: tokens =>
    match shift levels token with
    | .error fault => .failed fault
    | .ok (.complete v) => .complete v ⟨tokens, openLiteral⟩
    | .ok (.pending levels) => ofTokens openLiteral levels tokens

/-- A reading without its positions, and with the tokens of the rest for the rest itself. -/
def Reading.outcome (comments : Bool) : Reading → Outcome
  | .finished _ => .finished
  | .complete v _ rest => .complete v (tokenize comments rest)
  | .failed fault _ => .failed fault

/-- What reading a text comes to, by the tokens of the text. -/
theorem outcome_read (levels : List Level) (start : Nat) (text : List Char) :
    (read comments levels start text).outcome comments =
      .ofTokens (tokenize comments text).openLiteral levels (tokenize comments text).tokens := by
  fun_induction read comments levels start text with
  | case1 levels start text blank hscan hmissing =>
    rw [tokenize_eq, hscan]
    simp [Outcome.ofTokens, hmissing, Reading.outcome]
  | case2 levels start text blank hscan fault hmissing =>
    rw [tokenize_eq, hscan]
    simp [Outcome.ofTokens, hmissing, Reading.outcome]
  | case3 levels start text blank rest hscan =>
    rw [tokenize_eq, hscan]
    rfl
  | case4 levels start text blank l hscan stop fault hshift =>
    rw [tokenize_eq, hscan]
    simp [Outcome.ofTokens, Tokenization.cons, hshift, Reading.outcome]
  | case5 levels start text blank l hscan stop v hshift =>
    rw [tokenize_eq, hscan]
    simp [Outcome.ofTokens, Tokenization.cons, hshift, Reading.outcome]
  | case6 levels start text blank l hscan stop levels' hshift ih =>
    rw [ih, tokenize_eq text, hscan]
    simp [Outcome.ofTokens, Tokenization.cons, hshift]

/-- Reading from the start of a text comes to the same on every text with the same tokens. -/
theorem outcome_read_eq {text text' : List Char}
    (h : tokenize comments text' = tokenize comments text) :
    (read comments [] 0 text').outcome comments = (read comments [] 0 text).outcome comments := by
  rw [outcome_read, outcome_read, h]

/-- A text yields what every text with the same tokens yields. -/
theorem Yields.of_tokenize {text text' : List Char} {vs : List Value} {fault? : Option ReadFault}
    (h : Yields comments text vs fault?) (htokens : tokenize comments text' = tokenize comments text) :
    Yields comments text' vs fault? := by
  induction h generalizing text' with
  | finished h =>
    have houtcome := outcome_read_eq htokens
    rw [h] at houtcome
    cases hread : read comments [] 0 text' with
    | finished stop => exact .finished hread
    | complete | failed => cases hread ▸ houtcome
  | failed h =>
    have houtcome := outcome_read_eq htokens
    rw [h] at houtcome
    cases hread : read comments [] 0 text' with
    | failed fault place =>
      rw [hread] at houtcome
      obtain rfl := Outcome.failed.inj houtcome
      exact .failed hread
    | complete | finished => cases hread ▸ houtcome
  | form h _ ih =>
    have houtcome := outcome_read_eq htokens
    rw [h] at houtcome
    cases hread : read comments [] 0 text' with
    | complete v stop rest =>
      rw [hread] at houtcome
      obtain ⟨rfl, hrest⟩ := Outcome.complete.inj houtcome
      exact .form hread (ih hrest)
    | finished | failed => cases hread ▸ houtcome

/-- Two sources have the same forms and end in the same syntax error or in none. Only positions, and
so the excerpt that a syntax error shows, may differ. -/
structure Forms.Alike (r r' : Forms) : Prop where
  values_eq : r.values = r'.values
  error_eq : r.error?.map SyntaxError.bare = r'.error?.map SyntaxError.bare

/-- Sources with the same tokens are read alike. -/
theorem readForms_alike {source source' : String}
    (h : tokenize comments source.toList = tokenize comments source'.toList) :
    (readForms comments source).Alike (readForms comments source') := by
  obtain ⟨fault?, hyields, herror⟩ := exists_yields_readForms comments source
  obtain ⟨fault?', hyields', herror'⟩ := exists_yields_readForms comments source'
  obtain ⟨hvalues, rfl⟩ := hyields.unique (hyields'.of_tokenize h)
  exact ⟨hvalues, herror.trans herror'.symm⟩

/-! ### Two texts -/

theorem tokenize_cons_blank {c : Char} (hc : isBlank c = true) (text : List Char) :
    tokenize comments (c :: text) = tokenize comments text := by
  refine tokenize_of_splitBlank ?_
  rw [splitBlank, if_pos hc, splitBlank_eq]

theorem UpToBlank.tokenize_eq {text rest : List Char} (h : UpToBlank text rest) :
    tokenize comments text = tokenize comments rest := by
  cases h with
  | same => rfl
  | blank hc => exact tokenize_cons_blank hc rest

/-- A newline keeps the tokens of two texts apart. -/
theorem tokenize_append_newline {text : List Char}
    (h : (tokenize comments text).openLiteral = false) (more : List Char) :
    tokenize comments (text ++ '\n' :: more) =
      .append (tokenize comments text).tokens (tokenize comments more) := by
  fun_induction tokenize comments text with
  | case1 text blank hscan =>
    refine tokenize_of_splitBlank ?_
    rw [splitBlank_append_newline (splitBlank_of_scan_eq_finished hscan), splitBlank_eq]
  | case2 => cases h
  | case3 text blank l hscan ih =>
    have htoken := tokenAt_of_scan hscan
    by_cases hrest : l.rest = []
    · rw [hrest] at htoken ⊢
      obtain ⟨mid, hmid, hjoined⟩ := htoken.append_blank (show isBlank '\n' = true from rfl) more
      rw [tokenize_of_tokenAt hjoined, ← hmid.tokenize_eq, tokenize_cons_blank rfl, tokenize_nil]
      rfl
    · rw [tokenize_of_tokenAt (htoken.append (.more hrest _)), ih h]
      rfl

end ConsLisp.Source
