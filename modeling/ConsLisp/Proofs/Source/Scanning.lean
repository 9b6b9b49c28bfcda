import ConsLisp.Proofs.Source.Comments
import ConsLisp.Proofs.Source.Continuation
import ConsLisp.Proofs.Source.Literals

/-!
# Scanning is total and loses nothing

Whatever a text holds, the scanner comes to one of three results, and each says what the text is.
It is at the end exactly where only blanks and comments are left, and it fails exactly where a
string literal starts after them that is not closed. Everywhere else it finds a token, and the
text is what was skipped, the token, the blank that a word takes along, and the rest.

A tokenizer that tries one alternative after the other comes to the same. For want of an
alternative it would have to report a token that it does not recognize, but each character that is
not skipped starts a token of some kind, so this never happens. The only text that is wrong
whatever follows, and not merely too deep, holds a closing parenthesis where an expression has to
start.

## Main definitions

* `IsSkipped`: the texts that hold no token.
* `Lexeme.IsCutFrom`: a lexeme is what stands in a text after a gap.
* `Alternative`, `firstAlternative`, `attempt`: a tokenizer that tries alternatives in order.
* `Advances`: the reader gets from one place of a text to a later one.
* `StrayClosing`: a closing parenthesis stands where an expression has to start.

## Main results

* `scan_eq_finished_iff`, `scan_eq_unclosed_iff`, `isCutFrom_of_scan`: what each result says.
* `firstAlternative_eq`, `attempt_eq`: the alternatives cover every character that is not skipped.
* `read_eq_strayClosing_iff`: when a text is wrong whatever follows.
* `scan_total_lossless`: all of this for every text.
-/

namespace ConsLisp.Source

variable {comments : Bool}

/-! ### Texts without a token -/

/-- A text that holds no token: a gap, and where comments are enabled perhaps a comment that goes on
to the end of the text. -/
inductive IsSkipped (comments : Bool) : List Char → Prop
  | gap {text : List Char} (h : Gap comments text) : IsSkipped comments text
  | comment {gap line : List Char} (hcomments : comments = true) (h : Gap comments gap)
      (hline : '\n' ∉ line) : IsSkipped comments (gap ++ ';' :: line)

theorem IsSkipped.cons_blank {c : Char} {text : List Char} (h : IsSkipped comments text)
    (hc : isBlank c = true) : IsSkipped comments (c :: text) := by
  cases h with
  | gap h => exact .gap (.blank hc h)
  | comment hcomments h hline => exact .comment hcomments (.blank hc h) hline

theorem IsSkipped.behind_line {line text : List Char} (h : IsSkipped comments text)
    (hcomments : comments = true) (hline : '\n' ∉ line) :
    IsSkipped comments (';' :: (line ++ '\n' :: text)) := by
  cases h with
  | gap h => exact .gap (.comment hcomments hline h)
  | comment _ h hlast =>
    have hskipped := IsSkipped.comment hcomments (.comment hcomments hline h) hlast
    simpa using hskipped

/-- A text that holds no token, or the rest of one that starts inside a comment. -/
def SkippedFrom (comments : Bool) : (inComment : Bool) → List Char → Prop
  | false, cs => IsSkipped comments cs
  | true, cs => '\n' ∉ cs ∨
      ∃ line rest, cs = line ++ '\n' :: rest ∧ '\n' ∉ line ∧ IsSkipped comments rest

/-- What is skipped up to its end holds no token. -/
theorem skippedFrom_of_splitBlank {inComment : Bool} {skipped cs : List Char}
    (h : (splitBlank comments inComment skipped cs).2 = []) :
    SkippedFrom comments inComment cs := by
  induction cs generalizing inComment skipped with
  | nil =>
    cases inComment with
    | false => exact .gap .nil
    | true => exact .inl List.not_mem_nil
  | cons c cs ih =>
    cases inComment with
    | true =>
      have hrest := ih h
      by_cases hc : c = '\n'
      · subst hc
        exact .inr ⟨[], cs, rfl, List.not_mem_nil, hrest⟩
      · rw [bne_iff_ne.2 hc] at hrest
        rcases hrest with hline | ⟨line, rest, rfl, hline, hskipped⟩
        · exact .inl (by simp [hline, Ne.symm hc])
        · exact .inr ⟨c :: line, rest, rfl, by simp [hline, Ne.symm hc], hskipped⟩
    | false =>
      rw [splitBlank] at h
      split at h
      · next hc => exact (show IsSkipped comments cs from ih h).cons_blank hc
      · split at h
        · next hcomment =>
          obtain ⟨hcomments, hc⟩ := Bool.and_eq_true_iff.1 hcomment
          obtain rfl : c = ';' := eq_of_beq hc
          rcases (show SkippedFrom comments true cs from ih h) with
            hline | ⟨line, rest, rfl, hline, hskipped⟩
          · exact .comment hcomments .nil hline
          · exact hskipped.behind_line hcomments hline
        · cases h

/-- A gap at the end of a text is skipped. -/
theorem splitBlank_gap {gap : List Char} (h : Gap comments gap) (skipped : List Char) :
    (splitBlank comments false skipped gap).2 = [] := by
  induction h generalizing skipped with
  | nil => rfl
  | blank hc _ ih =>
    rw [splitBlank, if_pos hc]
    exact ih _
  | comment hcomments hline _ ih =>
    subst hcomments
    have hsemi : isBlank ';' = false := rfl
    rw [splitBlank, hsemi, if_neg Bool.false_ne_true, if_pos (by rfl), splitBlank_line _ _ hline]
    exact ih _

theorem splitBlank_of_isSkipped {text : List Char} (h : IsSkipped comments text) :
    (splitBlank comments false [] text).2 = [] := by
  cases h with
  | gap h => exact splitBlank_gap h []
  | comment hcomments h hline =>
    subst hcomments
    exact splitBlank_append_comment hline (splitBlank_gap h [])

/-- The scanner is at the end exactly where no token is left. -/
theorem scan_eq_finished_iff {text blank : List Char} :
    scan comments text = .finished blank ↔ blank = text ∧ IsSkipped comments text := by
  constructor
  · intro h
    have htext := text_scan comments text
    rw [h] at htext
    have hsplit := splitBlank_of_scan_eq_finished h
    have hskipped : SkippedFrom comments false text :=
      skippedFrom_of_splitBlank (congrArg Prod.snd hsplit)
    exact ⟨htext, hskipped⟩
  · rintro ⟨rfl, h⟩
    have hsplit := splitBlank_of_isSkipped h
    have happend := splitBlank_append comments false [] blank
    rw [hsplit, List.append_nil] at happend
    rw [scan, ← Prod.eta (splitBlank comments false [] blank), hsplit, happend]
    rfl

/-! ### String literals that are not closed -/

/-- The scanner fails exactly where a string literal starts that is not closed. -/
theorem scan_eq_unclosed_iff {text gap start : List Char} :
    scan comments text = .unclosed gap start ↔
      text = gap ++ start ∧ Gap comments gap ∧
        ∃ cs, start = '\x22' :: cs ∧ ¬∃ before after, UnescapedQuote cs before after := by
  constructor
  · intro h
    obtain ⟨cs, htext, hgap, hcs⟩ := exists_of_scan_eq_unclosed h
    have hstart : text = gap ++ start := by
      have hlossless := text_scan comments text
      rw [h] at hlossless
      exact hlossless.symm
    refine ⟨hstart, hgap, cs, ?_, literalBody?_eq_none_iff.1 hcs⟩
    exact List.append_cancel_left (hstart.symm.trans htext)
  · rintro ⟨rfl, hgap, cs, rfl, hquote⟩
    have hc : StartsToken comments '\x22' := startsToken_of_isDelimiter rfl
    simp [scan, splitBlank_of_gap hgap [] hc, lexeme?, literalBody?_eq_none_iff.2 hquote]

/-! ### Tokens -/

/-- The lexeme is what stands in the text after a gap. Its token has a text of its own, and only a
word takes a blank along. -/
structure Lexeme.IsCutFrom (comments : Bool) (gap : List Char) (l : Lexeme) (text : List Char) :
    Prop where
  text_eq : text = gap ++ (l.token.spelling ++ (l.trailing ++ l.rest))
  gap : Gap comments gap
  spelling_ne_nil : l.token.spelling ≠ []
  trailing : l.trailing = [] ∨ ∃ blank letters, l.trailing = [blank] ∧ isBlank blank = true ∧
    l.token = .word letters ∧ IsWord comments letters

theorem splitTrailing_cases (cs : List Char) :
    (splitTrailing cs).1 = [] ∨ ∃ blank, (splitTrailing cs).1 = [blank] ∧ isBlank blank = true := by
  cases cs with
  | nil => exact .inl rfl
  | cons c cs =>
    rw [splitTrailing]
    split
    · next hc => exact .inr ⟨c, rfl, hc⟩
    · exact .inl rfl

/-- A token has a text of its own, and only a word takes a blank along. -/
theorem lexeme?_cases {c : Char} {cs : List Char} {l : Lexeme} (hc : StartsToken comments c)
    (h : lexeme? c cs = some l) :
    l.token.spelling ≠ [] ∧
      (l.trailing = [] ∨ ∃ blank letters, l.trailing = [blank] ∧ isBlank blank = true ∧
        l.token = .word letters ∧ IsWord comments letters) := by
  unfold lexeme? at h
  split at h
  case h_9 =>
    obtain ⟨_, -, rfl⟩ := Option.map_eq_some_iff.1 h
    exact ⟨List.cons_ne_nil _ _, .inl rfl⟩
  case h_10 =>
    obtain rfl := Option.some.inj h
    have hend : endsWord c = false := by
      have hblank := hc.1
      simp_all [endsWord, isDelimiter]
    have hword := isWord_splitWord hc hend cs
    refine ⟨hword.nonempty, ?_⟩
    rcases splitTrailing_cases (splitWord (c :: cs)).2 with htrailing | ⟨blank, htrailing, hblank⟩
    · exact .inl htrailing
    · exact .inr ⟨blank, _, htrailing, hblank, rfl, hword⟩
  all_goals
    cases h
    exact ⟨List.cons_ne_nil _ _, .inl rfl⟩

/-- Where the scanner finds a token it cuts the text and loses nothing of it. -/
theorem isCutFrom_of_scan {text gap : List Char} {l : Lexeme}
    (h : scan comments text = .found gap l) : l.IsCutFrom comments gap text := by
  have htext := text_scan comments text
  rw [h, Scan.text, Lexeme.text, List.append_assoc] at htext
  rw [scan] at h
  split at h
  · cases h
  · next gap' c cs hsplit =>
    split at h
    · cases h
    · next l' hlexeme =>
      obtain ⟨rfl, rfl⟩ := Scan.found.inj h
      obtain ⟨-, hgap, hc⟩ := gap_of_splitBlank hsplit
      obtain ⟨hspelling, htrailing⟩ := lexeme?_cases hc hlexeme
      exact ⟨htext.symm, hgap, hspelling, htrailing⟩

/-! ### Trying alternatives in order -/

/-- One way to find a token at the start of a text. -/
abbrev Alternative := List Char → Option Lexeme

namespace Alternative

/-- A token that is always spelled alike. -/
def fixed (token : Token) : Alternative := fun text =>
  if token.spelling.isPrefixOf text then
    some ⟨token, [], text.drop token.spelling.length⟩
  else none

/-- A string literal. -/
def literal : Alternative
  | '\x22' :: cs => (literalBody? [] cs).map fun (body, rest) => ⟨.literal body, [], rest⟩
  | _ => none

/-- A word, which has at least one letter. -/
def word : Alternative := fun text =>
  if (splitWord text).1 = [] then none else some (wordLexeme text)

/-- The tokens that are always spelled alike. A splice mark comes before the unquote mark that it
starts with. -/
def fixedTokens : List Token :=
  [.opening, .closing, .mark .quote, .mark .quasiquote, .mark .splice, .mark .unquote, .word ['['],
    .word [']']]

/-- The alternatives in the order in which they are tried. -/
def all : List Alternative :=
  fixedTokens.map fixed ++ [literal, word]

end Alternative

/-- The token that the first fitting alternative finds. -/
def firstAlternative (text : List Char) : Option Lexeme :=
  Alternative.all.findSome? fun alternative => alternative text

/-- What a tokenizer comes to that tries alternatives. -/
inductive Attempt where
  | finished (blank : List Char)
  | found (gap : List Char) (lexeme : Lexeme)
  /-- No alternative fits the text `start`. -/
  | failed (kind : SyntaxErrorKind) (message : String) (gap start : List Char)

/-- The report of a text that no alternative fits although it starts no string literal. -/
def unrecognizedToken : String :=
  "Unrecognized token"

/-- Tries the alternatives in order after what is skipped. -/
def attempt (comments : Bool) (text : List Char) : Attempt :=
  match splitBlank comments false [] text with
  | (blank, []) => .finished blank
  | (gap, c :: cs) =>
    match firstAlternative (c :: cs) with
    | some lexeme => .found gap lexeme
    | none =>
      if c = '\x22' then
        .failed ReadFault.openString.kind ReadFault.openString.message gap (c :: cs)
      else .failed .invalid unrecognizedToken gap (c :: cs)

/-- The result of a scan in terms of attempts. -/
def Scan.toAttempt : Scan → Attempt
  | .finished blank => .finished blank
  | .unclosed gap start =>
    .failed ReadFault.openString.kind ReadFault.openString.message gap start
  | .found gap lexeme => .found gap lexeme

/-- An alternative of fixed spelling does not fit a text that starts with another character. -/
theorem Alternative.fixed_of_head?_ne {token : Token} {c : Char} (hne : token.spelling ≠ [])
    (hc : token.spelling.head? ≠ some c) (cs : List Char) : fixed token (c :: cs) = none := by
  obtain ⟨d, ds, hspelling⟩ := List.exists_cons_of_ne_nil hne
  have hd : d ≠ c := fun h => hc (by rw [hspelling, h]; rfl)
  simp [fixed, hspelling, List.isPrefixOf, hd]

/-- Only a string literal and a word fit a text that starts with no token of fixed spelling. -/
theorem firstAlternative_of_head?_ne {c : Char}
    (hc : ∀ token ∈ Alternative.fixedTokens, token.spelling.head? ≠ some c) (cs : List Char) :
    firstAlternative (c :: cs) =
      (Alternative.literal (c :: cs)).or (Alternative.word (c :: cs)) := by
  have hspelling : ∀ token ∈ Alternative.fixedTokens, token.spelling ≠ [] := by decide
  have hfixed : (Alternative.fixedTokens.map Alternative.fixed).findSome?
      (fun alternative => alternative (c :: cs)) = none := by
    rw [List.findSome?_eq_none_iff]
    intro alternative halternative
    obtain ⟨token, htoken, rfl⟩ := List.mem_map.1 halternative
    exact Alternative.fixed_of_head?_ne (hspelling token htoken) (hc token htoken) cs
  rw [firstAlternative, Alternative.all, List.findSome?_append, hfixed, Option.none_or]
  cases hliteral : Alternative.literal (c :: cs) with
  | some l => simp [hliteral]
  | none => cases hword : Alternative.word (c :: cs) <;> simp [hliteral, hword]

/-- All tokens of fixed spelling start with a delimiter. -/
theorem Alternative.head?_ne_of_not_isDelimiter {c : Char} (hc : isDelimiter c = false) :
    ∀ token ∈ fixedTokens, token.spelling.head? ≠ some c := by
  have hstart : ∀ token ∈ fixedTokens, token.spelling.head?.all isDelimiter = true := by decide
  intro token htoken hhead
  have hdelimiter := hstart token htoken
  rw [hhead, Option.all_some, hc] at hdelimiter
  cases hdelimiter

theorem Alternative.literal_of_ne {c : Char} (hc : c ≠ '\x22') (cs : List Char) :
    literal (c :: cs) = none := by
  unfold literal
  split
  · next htext => exact absurd (List.cons.inj htext).1 hc
  · rfl

theorem Alternative.word_of_endsWord {c : Char} (hc : endsWord c = true) (cs : List Char) :
    word (c :: cs) = none := by
  simp [word, splitWord, hc]

theorem Alternative.word_of_not_endsWord {c : Char} (hc : endsWord c = false) (cs : List Char) :
    word (c :: cs) = some (wordLexeme (c :: cs)) := by
  simp [word, splitWord, hc]

/-- The alternatives cover every character that is not skipped: the first one that fits finds the
same token as a decision by the first character. -/
theorem firstAlternative_eq {c : Char} (hc : isBlank c = false) (cs : List Char) :
    firstAlternative (c :: cs) = lexeme? c cs := by
  unfold lexeme?
  split
  case h_6 hat =>
    cases cs with
    | nil => rfl
    | cons d cs =>
      have hd : d ≠ '@' := fun h => hat cs (by rw [h])
      simp [firstAlternative, Alternative.all, Alternative.fixedTokens, Alternative.fixed,
        Token.spelling, markSpelling, List.isPrefixOf, Ne.symm hd]
  case h_9 =>
    rw [firstAlternative_of_head?_ne (by decide), Alternative.word_of_endsWord rfl, Option.or_none]
    rfl
  case h_10 =>
    have hdelimiter : isDelimiter c = false := by simp_all [isDelimiter]
    have hend : endsWord c = false := by simp [endsWord, hc, hdelimiter]
    have hquote : c ≠ '\x22' := by
      rintro rfl
      cases hdelimiter
    rw [firstAlternative_of_head?_ne (Alternative.head?_ne_of_not_isDelimiter hdelimiter),
      Alternative.literal_of_ne hquote, Alternative.word_of_not_endsWord hend, Option.none_or]
  all_goals rfl

/-- The attempts come to what the scanner finds. -/
theorem attempt_eq (text : List Char) :
    attempt comments text = (scan comments text).toAttempt := by
  rw [attempt, scan]
  rcases hsplit : splitBlank comments false [] text with ⟨gap, _ | ⟨c, cs⟩⟩
  · rfl
  · obtain ⟨-, -, hc⟩ := gap_of_splitBlank hsplit
    simp only [firstAlternative_eq hc.1]
    cases hlexeme : lexeme? c cs with
    | some l => rfl
    | none =>
      obtain ⟨rfl, -⟩ := literalBody?_eq_none_of_lexeme?_eq_none hlexeme
      rfl

/-- The attempts fail only at a string literal that is not closed. -/
theorem attempt_eq_failed {text gap start : List Char} {kind : SyntaxErrorKind} {message : String}
    (h : attempt comments text = .failed kind message gap start) :
    kind = ReadFault.openString.kind ∧ message = ReadFault.openString.message ∧
      scan comments text = .unclosed gap start := by
  rw [attempt_eq] at h
  cases hscan : scan comments text with
  | finished | found => cases hscan ▸ h
  | unclosed gap' start' =>
    rw [hscan] at h
    obtain ⟨rfl, rfl, rfl, rfl⟩ := Attempt.failed.inj h
    exact ⟨rfl, rfl, rfl⟩

/-! ### Where an expression has to start -/

/-- The reader gets from a place of the text to a later one, token by token: it shifts each token on
the levels that are open there, and no token completes the expression. -/
inductive Advances (comments : Bool) (levels : List Level) (text : List Char) :
    List Level → List Char → Prop
  | here : Advances comments levels text levels text
  | token {levels' opened : List Level} {token : Token} {mid rest : List Char}
      (hbefore : Advances comments levels text levels' mid) (h : TokenAt comments token mid rest)
      (hshift : shift levels' token = .ok (.pending opened)) :
      Advances comments levels text opened rest

/-- The reader goes on from where it gets to. -/
theorem Advances.read_eq {levels levels' : List Level} {text rest : List Char}
    (h : Advances comments levels text levels' rest) (start : Nat) :
    ∃ start', read comments levels start text = read comments levels' start' rest := by
  induction h with
  | here => exact ⟨start, rfl⟩
  | token _ h hshift ih =>
    obtain ⟨start', hbefore⟩ := ih
    obtain ⟨stop, hread⟩ := read_of_shift_ok h hshift start'
    exact ⟨stop, hbefore.trans hread⟩

theorem Advances.behind {levels opened levels' : List Level} {token : Token}
    {text mid rest : List Char} (hmore : Advances comments opened mid levels' rest)
    (h : TokenAt comments token text mid) (hshift : shift levels token = .ok (.pending opened)) :
    Advances comments levels text levels' rest := by
  induction hmore with
  | here => exact .token .here h hshift
  | token _ hlast hshiftLast ih => exact .token ih hlast hshiftLast

/-- A value that goes into an open level leaves a list innermost. -/
theorem exists_list_of_place {levels outer : List Level} {level : Level} {v : Value}
    (h : place levels v = .pending (level :: outer)) : ∃ found, level = .list found := by
  induction levels generalizing v with
  | nil => cases h
  | cons inner levels ih =>
    cases inner with
    | list found =>
      obtain ⟨rfl, -⟩ := List.cons.inj (Progress.pending.inj h)
      exact ⟨_, rfl⟩
    | mark kind => exact ih h

/-- A quote mark is innermost only right after its token. -/
theorem eq_mark_of_shift {levels outer : List Level} {token : Token} {kind : QuoteKind}
    (h : shift levels token = .ok (.pending (.mark kind :: outer))) :
    token = .mark kind ∧ levels = outer ∧ outer.length < maxNesting := by
  cases token with
  | opening => cases (openLevel_eq_ok h).2
  | mark kind' =>
    obtain ⟨hlength, hlevels⟩ := openLevel_eq_ok h
    obtain ⟨hkind, rfl⟩ := List.cons.inj (Progress.pending.inj hlevels)
    obtain rfl := Level.mark.inj hkind
    exact ⟨rfl, rfl, hlength⟩
  | closing =>
    obtain ⟨_, _, -, hplace⟩ := shift_closing_eq_ok h
    obtain ⟨_, hlist⟩ := exists_list_of_place hplace.symm
    cases hlist
  | literal | word =>
    obtain ⟨_, hlist⟩ := exists_list_of_place (Except.ok.inj h)
    cases hlist

/-- An expression has to start: no level is open, or a quote mark is innermost. -/
def NeedsExpression : List Level → Prop
  | [] | .mark _ :: _ => True
  | .list _ :: _ => False

theorem shift_eq_strayClosing_iff {levels : List Level} {token : Token} :
    shift levels token = .error .strayClosing ↔ token = .closing ∧ NeedsExpression levels := by
  cases token with
  | opening | mark => simp [shift, openLevel_eq_error_iff]
  | literal | word => simp [shift]
  | closing =>
    cases levels with
    | nil => simp [shift, NeedsExpression]
    | cons level levels => cases level <;> simp [shift, NeedsExpression]

theorem kind_eq_invalid_iff {fault : ReadFault} :
    fault.kind = .invalid ↔ fault = .strayClosing := by
  cases fault <;> simp [ReadFault.kind]

/-- Reading fails for a stray closing parenthesis where the reader gets to one while an expression
has to start. -/
theorem read_eq_strayClosing_iff {levels : List Level} {start : Nat} {text : List Char} :
    (∃ place, read comments levels start text = .failed .strayClosing place) ↔
      ∃ levels' mid rest, Advances comments levels text levels' mid ∧
        TokenAt comments .closing mid rest ∧ NeedsExpression levels' := by
  constructor
  · rintro ⟨place, h⟩
    fun_induction read comments levels start text with
    | case1 => cases h
    | case2 levels start text blank hscan fault hmissing =>
      obtain ⟨rfl, -⟩ := Reading.failed.inj h
      cases kind_eq_incomplete_of_missingAtEnd? hmissing
    | case3 => cases h
    | case4 levels start text blank l hscan _ fault hshift =>
      obtain ⟨rfl, -⟩ := Reading.failed.inj h
      obtain ⟨htoken, hlevels⟩ := shift_eq_strayClosing_iff.1 hshift
      exact ⟨levels, text, l.rest, .here, htoken ▸ tokenAt_of_scan hscan, hlevels⟩
    | case5 => cases h
    | case6 levels start text blank l hscan _ opened hshift ih =>
      obtain ⟨levels', mid, rest, hmid, hclosing, hlevels⟩ := ih h
      exact ⟨levels', mid, rest, hmid.behind (tokenAt_of_scan hscan) hshift, hclosing, hlevels⟩
  · rintro ⟨levels', mid, rest, hmid, hclosing, hlevels⟩
    obtain ⟨start', hread⟩ := hmid.read_eq start
    obtain ⟨place, hfailed⟩ := read_of_tokenAt hclosing levels' start'
    rw [shift_eq_strayClosing_iff.2 ⟨rfl, hlevels⟩] at hfailed
    exact ⟨place, hread.trans hfailed⟩

/-- A closing parenthesis stands in the text where an expression has to start: first of all, or
right after a quote mark. -/
inductive StrayClosing (comments : Bool) (text : List Char) : Prop
  | first {rest : List Char} (h : TokenAt comments .closing text rest)
  | afterMark {levels : List Level} {kind : QuoteKind} {before mid rest : List Char}
      (hbefore : Advances comments [] text levels before)
      (hmark : TokenAt comments (.mark kind) before mid) (hlevels : levels.length < maxNesting)
      (hclosing : TokenAt comments .closing mid rest)

/-- At the start of an expression reading fails for a stray closing parenthesis exactly if there is
one. -/
theorem read_eq_strayClosing_iff_strayClosing {start : Nat} {text : List Char} :
    (∃ place, read comments [] start text = .failed .strayClosing place) ↔
      StrayClosing comments text := by
  rw [read_eq_strayClosing_iff]
  constructor
  · rintro ⟨levels, mid, rest, hmid, hclosing, hlevels⟩
    cases hmid with
    | here => exact .first hclosing
    | token hbefore h hshift =>
      match levels, hlevels with
      | [], _ => exact absurd rfl (ne_nil_of_shift hshift)
      | .mark kind :: outer, _ =>
        obtain ⟨rfl, rfl, hlength⟩ := eq_mark_of_shift hshift
        exact .afterMark hbefore h hlength hclosing
  · intro h
    cases h with
    | first h => exact ⟨[], text, _, .here, h, trivial⟩
    | afterMark hbefore hmark hlevels hclosing =>
      have hmid := hbefore.token hmark (openLevel_of_lt hlevels (.mark _))
      exact ⟨_, _, _, hmid, hclosing, trivial⟩

/-! ### Streams -/

/-- The error that a stream yields is a fault of reading, told with the text around it. -/
theorem exists_of_next_eq_error {s s' : Stream} {e : SyntaxError}
    (h : s.next = (some (.error e), s')) :
    ∃ fault place, read s.comments [] s.position s.rest = .failed fault place ∧
      e = fault.inText s.source place := by
  cases hs : s.failed with
  | true =>
    rw [Stream.next, if_pos hs] at h
    cases h
  | false =>
    rw [Stream.next_eq hs] at h
    split at h
    · cases h
    · cases h
    · next fault place hread =>
      obtain ⟨he, -⟩ := Prod.mk.inj h
      exact ⟨fault, place, hread, (Except.error.inj (Option.some.inj he)).symm⟩

theorem message_ne_unrecognizedToken (fault : ReadFault) : fault.message ≠ unrecognizedToken := by
  cases fault <;> decide

/-- A stream yields an error that no continuation of its source repairs, and that is not one of
nesting, exactly if a closing parenthesis stands where an expression has to start. -/
theorem next_eq_invalid_iff {s : Stream} (hs : s.failed = false) :
    (∃ e s', s.next = (some (.error e), s') ∧ e.kind = .invalid) ↔
      StrayClosing s.comments s.rest := by
  have hstray : (∃ place, read s.comments [] s.position s.rest = .failed .strayClosing place) ↔
      StrayClosing s.comments s.rest := read_eq_strayClosing_iff_strayClosing
  rw [← hstray]
  constructor
  · rintro ⟨e, s', h, hkind⟩
    obtain ⟨fault, place, hread, rfl⟩ := exists_of_next_eq_error h
    obtain rfl := kind_eq_invalid_iff.1 hkind
    exact ⟨place, hread⟩
  · rintro ⟨place, hread⟩
    have hnext := Stream.next_eq hs
    rw [hread] at hnext
    exact ⟨_, _, hnext, rfl⟩

/-! ### All texts -/

/-- Scanning is total and loses nothing. The scanner is at the end exactly where only blanks and
comments are left, it fails exactly where a string literal starts after them that is not closed, and
otherwise it cuts the text into what is skipped, a token, at most one blank that a word takes along,
and the rest. Trying alternatives in order comes to the same, and there is always one that fits. A
stream yields an error of the invalid kind exactly where a closing parenthesis stands while an
expression has to start. -/
theorem scan_total_lossless (comments : Bool) (text : List Char) :
    (∀ blank, scan comments text = .finished blank ↔ blank = text ∧ IsSkipped comments text) ∧
    (∀ gap start, scan comments text = .unclosed gap start ↔
      text = gap ++ start ∧ Gap comments gap ∧
        ∃ cs, start = '\x22' :: cs ∧ ¬∃ before after, UnescapedQuote cs before after) ∧
    (∀ gap l, scan comments text = .found gap l → l.IsCutFrom comments gap text) ∧
    attempt comments text = (scan comments text).toAttempt ∧
    (∀ kind message gap start, attempt comments text = .failed kind message gap start →
      kind = .incomplete ∧ message ≠ unrecognizedToken) ∧
    ∀ s : Stream, s.comments = comments → s.rest = text → s.failed = false →
      ((∃ e s', s.next = (some (.error e), s') ∧ e.kind = .invalid) ↔ StrayClosing comments text) ∧
      ∀ e s', s.next = (some (.error e), s') → e.message ≠ unrecognizedToken := by
  refine ⟨fun _ => scan_eq_finished_iff, fun _ _ => scan_eq_unclosed_iff,
    fun _ _ => isCutFrom_of_scan, attempt_eq text, fun kind message gap start h => ?_,
    fun s hcomments hrest hs => ⟨?_, fun e s' h => ?_⟩⟩
  · obtain ⟨rfl, rfl, -⟩ := attempt_eq_failed h
    exact ⟨rfl, message_ne_unrecognizedToken _⟩
  · subst hcomments hrest
    exact next_eq_invalid_iff hs
  · obtain ⟨fault, place, -, rfl⟩ := exists_of_next_eq_error h
    exact message_ne_unrecognizedToken fault

/-- A word between a blank and a comment, the comment alone, and a list in which a quote mark stands
before the closing parenthesis. -/
theorem scan_total_lossless_wordBeforeComment :
    Lexeme.IsCutFrom true [' '] ⟨.word ['a', 'b'], [' '], "; c".toList⟩ " ab ; c".toList ∧
      scan true "; c".toList = .finished "; c".toList ∧ StrayClosing false strayText.toList := by
  have hfound : scan true " ab ; c".toList =
      .found [' '] ⟨.word ['a', 'b'], [' '], "; c".toList⟩ := by
    with_unfolding_all rfl
  have hskipped : IsSkipped true "; c".toList := .comment rfl .nil (by decide : '\n' ∉ [' ', 'c'])
  have hread : read false [] 0 strayText.toList = .failed .strayClosing 5 := by
    with_unfolding_all rfl
  have hnext := Stream.next_eq (s := .ofText false strayText) rfl
  obtain ⟨-, -, hcut, -⟩ := scan_total_lossless true " ab ; c".toList
  obtain ⟨hfinished, -⟩ := scan_total_lossless true "; c".toList
  obtain ⟨-, -, -, -, -, hstream⟩ := scan_total_lossless false strayText.toList
  refine ⟨hcut _ _ hfound, (hfinished _).2 ⟨rfl, hskipped⟩, ?_⟩
  rw [Stream.ofText, hread] at hnext
  exact (hstream (.ofText false strayText) rfl rfl rfl).1.1 ⟨_, _, hnext, rfl⟩

end ConsLisp.Source
