import ConsLisp.Source.Token

/-!
# How tokens are spelled

The scanner finds tokens by its own means: it goes along the text and decides at each character.
This module says what it looks for. A token is preceded by a gap, which is any number of blanks and,
where comments are enabled, of comments that end with their line. A string literal has a body in
which every quote and every backslash belongs to an escape pair. A word is followed by a delimiter,
by a blank, which it takes along, or by the end of the text.

## Main definitions

* `Gap`: what may stand before a token.
* `LiteralBody`: the bodies of string literals.
* `IsWord`: the words that start a token; `TakesAlong`: what a word takes along.
* `Spelled`: a text starts with a token.
* `TokenAt`: a text starts with a gap and a token.
* `UpToBlank`: what a word leaves of the text after it.

## Main results

* `tokenAt_of_scan`, `scan_of_tokenAt`: the scanner finds exactly the token that the text starts
  with.
* `TokenAt.unique`: a text starts with at most one token.
* `TokenAt.append`: more text after the rest does not change the token.
* `TokenAt.append_blank`: a blank after the last token of a text does not change the token.
-/

namespace ConsLisp.Source

/-! ### Gaps -/

/-- A character with which a token can start. -/
def StartsToken (comments : Bool) (c : Char) : Prop :=
  isBlank c = false ∧ (comments = true → c ≠ ';')

/-- What may stand before a token: blanks, and comments that end with their line. -/
inductive Gap (comments : Bool) : List Char → Prop
  | nil : Gap comments []
  | blank {c : Char} {cs : List Char} (hc : isBlank c = true) (h : Gap comments cs) :
      Gap comments (c :: cs)
  | comment {line cs : List Char} (hcomments : comments = true) (hline : '\n' ∉ line)
      (h : Gap comments cs) : Gap comments (';' :: (line ++ '\n' :: cs))

theorem Gap.of_cons_blank {comments : Bool} {c : Char} {cs : List Char}
    (h : Gap comments (c :: cs)) (hc : isBlank c = true) : Gap comments cs := by
  cases h with
  | blank _ h => exact h
  | comment => exact absurd hc (by decide)

/-- A comment is skipped up to the end of its line. -/
theorem splitBlank_line (comments : Bool) (skipped : List Char) {line : List Char}
    (hline : '\n' ∉ line) (cs : List Char) :
    splitBlank comments true skipped (line ++ '\n' :: cs) =
      splitBlank comments false ('\n' :: (line.reverse ++ skipped)) cs := by
  induction line generalizing skipped with
  | nil => rfl
  | cons c line ih =>
    have hc : c ≠ '\n' := fun h => hline (h ▸ List.mem_cons_self)
    have hrest : '\n' ∉ line := fun h => hline (List.mem_cons_of_mem c h)
    rw [List.cons_append, splitBlank, bne_iff_ne.2 hc, ih (c :: skipped) hrest]
    simp

/-- A gap before a token is skipped. -/
theorem splitBlank_of_gap {comments : Bool} {gap : List Char} (hgap : Gap comments gap)
    (skipped : List Char) {c : Char} (hc : StartsToken comments c) (cs : List Char) :
    splitBlank comments false skipped (gap ++ c :: cs) = (skipped.reverse ++ gap, c :: cs) := by
  induction hgap generalizing skipped with
  | nil =>
    have hcomment : (comments && c == ';') = false := by
      cases comments <;> simp [hc.2]
    simp [splitBlank, hc.1, hcomment]
  | blank hb _ ih => simp [splitBlank, hb, ih]
  | @comment line gap hcomments hline _ ih =>
    have hsemi : isBlank ';' = false := by decide
    rw [List.cons_append, splitBlank, hsemi]
    simp only [hcomments, beq_self_eq_true, Bool.and_self, if_true, Bool.false_eq_true, if_false]
    rw [hcomments] at ih
    rw [List.append_assoc, List.cons_append, splitBlank_line _ _ hline, ih]
    simp

/-- What is skipped of a text: a gap, after the rest of its line when the text starts inside a
comment. -/
def GapFrom (comments : Bool) : (inComment : Bool) → List Char → Prop
  | false, cs => Gap comments cs
  | true, cs => ∃ line gap, cs = line ++ '\n' :: gap ∧ '\n' ∉ line ∧ Gap comments gap

/-- Skipping stops at the first character after a gap. -/
theorem gapFrom_of_splitBlank {comments inComment : Bool} {skipped found cs : List Char} {c : Char}
    {rest : List Char} (h : splitBlank comments inComment skipped cs = (found, c :: rest)) :
    StartsToken comments c ∧
      ∃ gap, found = skipped.reverse ++ gap ∧ GapFrom comments inComment gap := by
  induction cs generalizing inComment skipped with
  | nil => cases inComment <;> simp [splitBlank] at h
  | cons d cs ih =>
    cases inComment with
    | true =>
      rw [splitBlank] at h
      obtain ⟨hc, gap, rfl, hgap⟩ := ih h
      refine ⟨hc, d :: gap, by simp, ?_⟩
      by_cases hd : d = '\n'
      · subst hd
        exact ⟨[], gap, rfl, List.not_mem_nil, hgap⟩
      · rw [bne_iff_ne.2 hd] at hgap
        obtain ⟨line, gap, rfl, hline, hgap⟩ := hgap
        exact ⟨d :: line, gap, rfl, by simp [hline, Ne.symm hd], hgap⟩
    | false =>
      rw [splitBlank] at h
      split at h
      · next hd =>
        obtain ⟨hc, gap, rfl, hgap⟩ := ih h
        exact ⟨hc, d :: gap, by simp, .blank hd hgap⟩
      · split at h
        · next hd =>
          obtain ⟨hcomments, hsemi⟩ := Bool.and_eq_true_iff.1 hd
          obtain ⟨hc, cs', rfl, line, gap, rfl, hline, hgap⟩ := ih h
          obtain rfl : d = ';' := eq_of_beq hsemi
          exact ⟨hc, ';' :: (line ++ '\n' :: gap), by simp, .comment hcomments hline hgap⟩
        · next hblank hcomment =>
          obtain ⟨rfl, hrest⟩ := Prod.mk.inj h
          obtain ⟨rfl, rfl⟩ := List.cons.inj hrest
          refine ⟨⟨Bool.eq_false_iff.2 hblank, fun hcomments hsemi => hcomment ?_⟩, [], by simp,
            .nil⟩
          simp [hcomments, hsemi]

/-- What is skipped before a token is a gap, and nothing of the text is lost. -/
theorem gap_of_splitBlank {comments : Bool} {text blank : List Char} {c : Char} {cs : List Char}
    (h : splitBlank comments false [] text = (blank, c :: cs)) :
    text = blank ++ c :: cs ∧ Gap comments blank ∧ StartsToken comments c := by
  have hsplit := splitBlank_append comments false [] text
  obtain ⟨hc, gap, hgap, hskipped⟩ := gapFrom_of_splitBlank h
  rw [h] at hsplit
  simp only [List.reverse_nil, List.nil_append] at hgap hsplit
  subst hgap
  exact ⟨hsplit.symm, hskipped, hc⟩

/-! ### String literals and words -/

/-- The bodies of string literals: every quote and every backslash belongs to an escape pair. -/
inductive LiteralBody : List Char → Prop
  | nil : LiteralBody []
  | plain {c : Char} {cs : List Char} (hquote : c ≠ '\x22') (hbackslash : c ≠ '\\')
      (h : LiteralBody cs) : LiteralBody (c :: cs)
  | escape {c : Char} {cs : List Char} (h : LiteralBody cs) : LiteralBody ('\\' :: c :: cs)

theorem literalBody?_of_literalBody {body : List Char} (hbody : LiteralBody body)
    (before rest : List Char) :
    literalBody? before (body ++ '\x22' :: rest) = some (before.reverse ++ body, rest) := by
  induction hbody generalizing before with
  | nil => simp [literalBody?]
  | @plain c cs hquote hbackslash _ ih => simp [literalBody?, hquote, hbackslash, ih]
  | escape _ ih => simp [literalBody?, ih]

theorem literalBody_of_literalBody? {before cs found rest : List Char}
    (h : literalBody? before cs = some (found, rest)) :
    ∃ body, found = before.reverse ++ body ∧ LiteralBody body := by
  fun_induction literalBody? before cs with
  | case1 => cases h
  | case2 => cases h
  | case3 before c cs ih =>
    obtain ⟨body, rfl, hbody⟩ := ih h
    exact ⟨'\\' :: c :: body, by simp, .escape hbody⟩
  | case4 before cs =>
    obtain ⟨rfl, -⟩ := Prod.mk.inj (Option.some.inj h)
    exact ⟨[], by simp, .nil⟩
  | case5 before c cs hend hpair hquote ih =>
    obtain ⟨body, rfl, hbody⟩ := ih h
    refine ⟨c :: body, by simp, .plain hquote (fun hc => ?_) hbody⟩
    cases cs with
    | nil => exact hend hc rfl
    | cons d cs => exact hpair d cs hc rfl

/-- The words that can start a token: they hold no blank and no delimiter, and they are not taken
for a comment. -/
structure IsWord (comments : Bool) (letters : List Char) : Prop where
  nonempty : letters ≠ []
  noEnd : ∀ c ∈ letters, endsWord c = false
  noComment : comments = true → letters.head? ≠ some ';'

/-- A word before `rest` takes along the blank that follows it. It needs none before a delimiter or
at the end of the text. -/
inductive TakesAlong : (trailing rest : List Char) → Prop
  | blank {c : Char} (hc : isBlank c = true) (rest : List Char) : TakesAlong [c] rest
  | delimiter {c : Char} (hc : isDelimiter c = true) (rest : List Char) : TakesAlong [] (c :: rest)
  | atEnd : TakesAlong [] []

theorem isBlank_eq_false_of_isDelimiter {c : Char} (hc : isDelimiter c = true) :
    isBlank c = false := by
  simp only [isDelimiter, Bool.or_eq_true, beq_iff_eq] at hc
  rcases hc with ((((((rfl | rfl) | rfl) | rfl) | rfl) | rfl) | rfl) | rfl <;> rfl

/-- A word can end before the text: its first character, if it has one, ends a word. -/
def MayFollowWord (cs : List Char) : Prop :=
  ∀ c, cs.head? = some c → endsWord c = true

theorem takesAlong_splitTrailing {cs : List Char} (h : MayFollowWord cs) :
    TakesAlong (splitTrailing cs).1 (splitTrailing cs).2 := by
  cases cs with
  | nil => exact .atEnd
  | cons c cs =>
    have hc := h c rfl
    rw [splitTrailing]
    split
    · next hb => exact .blank hb cs
    · next hb => exact .delimiter (by simpa [endsWord, hb] using hc) cs

theorem splitTrailing_of_takesAlong {trailing rest : List Char} (h : TakesAlong trailing rest) :
    splitTrailing (trailing ++ rest) = (trailing, rest) := by
  cases h with
  | blank hc rest => simp [splitTrailing, hc]
  | delimiter hc rest => simp [splitTrailing, isBlank_eq_false_of_isDelimiter hc]
  | atEnd => rfl

theorem TakesAlong.mayFollowWord {trailing rest : List Char} (h : TakesAlong trailing rest) :
    MayFollowWord (trailing ++ rest) := by
  intro c hc
  cases h with
  | blank hb rest => simp_all [endsWord]
  | delimiter hd rest => simp_all [endsWord]
  | atEnd => cases hc

theorem wordLexeme_of_isWord {comments : Bool} {letters trailing rest : List Char}
    (hword : IsWord comments letters) (h : TakesAlong trailing rest) :
    wordLexeme (letters ++ (trailing ++ rest)) = ⟨.word letters, trailing, rest⟩ := by
  have hletters : ∀ c ∈ letters, (!endsWord c) = true := fun c hc => by simp [hword.noEnd c hc]
  have hafter : (trailing ++ rest).takeWhile (fun c => !endsWord c) = [] ∧
      (trailing ++ rest).dropWhile (fun c => !endsWord c) = trailing ++ rest := by
    cases hcs : trailing ++ rest with
    | nil => exact ⟨rfl, rfl⟩
    | cons c cs => simp [h.mayFollowWord c (by rw [hcs]; rfl)]
  simp only [wordLexeme, splitWord, List.takeWhile_append_of_pos hletters,
    List.dropWhile_append_of_pos hletters, hafter.1, hafter.2, splitTrailing_of_takesAlong h,
    List.append_nil]

/-! ### Tokens -/

/-- The text starts with the token, and `rest` is what follows. An unquote mark is not followed by
an at sign, which would make it a splice mark. -/
inductive Spelled (comments : Bool) : Token → (text rest : List Char) → Prop
  | opening (rest : List Char) : Spelled comments .opening ('(' :: rest) rest
  | closing (rest : List Char) : Spelled comments .closing (')' :: rest) rest
  | mark {kind : QuoteKind} {rest : List Char} (h : kind = .unquote → rest.head? ≠ some '@') :
      Spelled comments (.mark kind) (markSpelling kind ++ rest) rest
  | literal {body : List Char} (h : LiteralBody body) (rest : List Char) :
      Spelled comments (.literal body) ('\x22' :: (body ++ '\x22' :: rest)) rest
  | bracket {c : Char} (h : c = '[' ∨ c = ']') (rest : List Char) :
      Spelled comments (.word [c]) (c :: rest) rest
  | word {letters trailing rest : List Char} (hword : IsWord comments letters)
      (h : TakesAlong trailing rest) :
      Spelled comments (.word letters) (letters ++ (trailing ++ rest)) rest

/-- The text starts with a gap and the token, and `rest` is what follows. -/
def TokenAt (comments : Bool) (token : Token) (text rest : List Char) : Prop :=
  ∃ gap start, text = gap ++ start ∧ Gap comments gap ∧ Spelled comments token start rest

theorem startsToken_of_isDelimiter {comments : Bool} {c : Char} (hc : isDelimiter c = true) :
    StartsToken comments c :=
  ⟨isBlank_eq_false_of_isDelimiter hc, fun _ hsemi => absurd hc (by rw [hsemi]; decide)⟩

theorem IsWord.startsToken {comments : Bool} {c : Char} {letters : List Char}
    (h : IsWord comments (c :: letters)) : StartsToken comments c := by
  have hc := h.noEnd c List.mem_cons_self
  simp only [endsWord, Bool.or_eq_false_iff] at hc
  exact ⟨hc.1, fun hcomments hsemi => h.noComment hcomments (congrArg some hsemi)⟩

/-- A token starts with a character of its own. -/
theorem Spelled.exists_startsToken {comments : Bool} {token : Token} {text rest : List Char}
    (h : Spelled comments token text rest) : ∃ c cs, text = c :: cs ∧ StartsToken comments c := by
  cases h with
  | opening | closing | literal => exact ⟨_, _, rfl, startsToken_of_isDelimiter rfl⟩
  | @mark kind _ h => cases kind <;> exact ⟨_, _, rfl, startsToken_of_isDelimiter rfl⟩
  | bracket h => rcases h with rfl | rfl <;> exact ⟨_, _, rfl, startsToken_of_isDelimiter rfl⟩
  | @word letters _ _ hword h =>
    cases letters with
    | nil => exact absurd rfl hword.nonempty
    | cons c letters => exact ⟨c, _, rfl, hword.startsToken⟩

/-- A character that ends no word starts one. -/
theorem lexeme?_of_not_endsWord {c : Char} (hc : endsWord c = false) (cs : List Char) :
    lexeme? c cs = some (wordLexeme (c :: cs)) := by
  unfold lexeme?
  split
  case h_10 => rfl
  all_goals exact absurd hc (by decide)

theorem lexeme?_of_spelled {comments : Bool} {token : Token} {c : Char} {cs rest : List Char}
    (h : Spelled comments token (c :: cs) rest) :
    ∃ trailing, lexeme? c cs = some ⟨token, trailing, rest⟩ := by
  generalize htext : c :: cs = text at h
  cases h with
  | opening | closing =>
    obtain ⟨rfl, rfl⟩ := List.cons.inj htext
    exact ⟨[], rfl⟩
  | @mark kind rest h =>
    cases kind with
    | unquote =>
      obtain ⟨rfl, rfl⟩ := List.cons.inj htext
      cases cs with
      | nil => exact ⟨[], rfl⟩
      | cons d cs =>
        have hd : d ≠ '@' := fun hd => h rfl (congrArg some hd)
        exact ⟨[], by simp [lexeme?, hd]⟩
    | _ =>
      obtain ⟨rfl, rfl⟩ := List.cons.inj htext
      exact ⟨[], rfl⟩
  | literal h =>
    obtain ⟨rfl, rfl⟩ := List.cons.inj htext
    exact ⟨[], by simp [lexeme?, literalBody?_of_literalBody h]⟩
  | bracket h =>
    obtain ⟨rfl, rfl⟩ := List.cons.inj htext
    rcases h with rfl | rfl <;> exact ⟨[], rfl⟩
  | @word letters trailing rest hword h =>
    have hlexeme := wordLexeme_of_isWord hword h
    cases letters with
    | nil => exact absurd rfl hword.nonempty
    | cons d letters =>
      obtain ⟨rfl, rfl⟩ := List.cons.inj htext
      rw [lexeme?_of_not_endsWord (hword.noEnd c List.mem_cons_self)]
      exact ⟨trailing, congrArg some hlexeme⟩

/-- The letters at the start of a text are a word if there are any. -/
theorem isWord_splitWord {comments : Bool} {c : Char} (hc : StartsToken comments c)
    (hend : endsWord c = false) (cs : List Char) : IsWord comments (splitWord (c :: cs)).1 := by
  refine ⟨by simp [splitWord, hend], fun d hd => ?_, fun hcomments => ?_⟩
  · simpa using List.all_eq_true.1 List.all_takeWhile d hd
  · simpa [splitWord, hend] using hc.2 hcomments

theorem spelled_wordLexeme {comments : Bool} {c : Char} (hc : StartsToken comments c)
    (hend : endsWord c = false) (cs : List Char) :
    Spelled comments (wordLexeme (c :: cs)).token (c :: cs) (wordLexeme (c :: cs)).rest := by
  have hafter : MayFollowWord ((c :: cs).dropWhile fun c => !endsWord c) := fun d hd => by
    have hstop := List.head?_dropWhile_not (fun c => !endsWord c) (c :: cs)
    simpa [hd] using hstop
  have hspelled := Spelled.word (isWord_splitWord hc hend cs) (takesAlong_splitTrailing hafter)
  rw [splitTrailing_append, splitWord, List.takeWhile_append_dropWhile] at hspelled
  exact hspelled

theorem spelled_of_lexeme? {comments : Bool} {c : Char} (hc : StartsToken comments c)
    {cs : List Char} {l : Lexeme} (h : lexeme? c cs = some l) :
    Spelled comments l.token (c :: cs) l.rest := by
  unfold lexeme? at h
  split at h
  case h_1 => cases h; exact .opening _
  case h_2 => cases h; exact .closing _
  case h_3 | h_4 | h_5 => cases h; exact .mark nofun
  case h_6 hat =>
    cases h
    refine .mark fun _ hhead => ?_
    obtain ⟨tail, htail⟩ := List.head?_eq_some_iff.1 hhead
    exact hat tail htail
  case h_7 => cases h; exact .bracket (.inl rfl) _
  case h_8 => cases h; exact .bracket (.inr rfl) _
  case h_9 =>
    obtain ⟨⟨body, rest⟩, hbody, rfl⟩ := Option.map_eq_some_iff.1 h
    obtain ⟨found, rfl, hfound⟩ := literalBody_of_literalBody? hbody
    have happend := literalBody?_append hbody
    simp only [List.reverse_nil, List.nil_append] at happend
    rw [← happend]
    exact .literal hfound rest
  case h_10 =>
    obtain rfl := Option.some.inj h
    refine spelled_wordLexeme hc ?_ _
    have hblank := hc.1
    simp_all [endsWord, isDelimiter]

/-! ### Tokens at the start of a text -/

theorem tokenAt_of_scan {comments : Bool} {text blank : List Char} {l : Lexeme}
    (h : scan comments text = .found blank l) : TokenAt comments l.token text l.rest := by
  rw [scan] at h
  split at h
  · cases h
  · next blank' c cs heq =>
    split at h
    · cases h
    · next l' hlexeme =>
      obtain ⟨rfl, rfl⟩ := Scan.found.inj h
      obtain ⟨htext, hgap, hc⟩ := gap_of_splitBlank heq
      exact ⟨blank', c :: cs, htext, hgap, spelled_of_lexeme? hc hlexeme⟩

theorem scan_of_tokenAt {comments : Bool} {token : Token} {text rest : List Char}
    (h : TokenAt comments token text rest) :
    ∃ blank trailing, scan comments text = .found blank ⟨token, trailing, rest⟩ := by
  obtain ⟨gap, start, rfl, hgap, hspelled⟩ := h
  obtain ⟨c, cs, rfl, hc⟩ := hspelled.exists_startsToken
  obtain ⟨trailing, hlexeme⟩ := lexeme?_of_spelled hspelled
  refine ⟨gap, trailing, ?_⟩
  simp [scan, splitBlank_of_gap hgap [] hc, hlexeme]

/-- A text starts with at most one token. -/
theorem TokenAt.unique {comments : Bool} {token token' : Token} {text rest rest' : List Char}
    (h : TokenAt comments token text rest) (h' : TokenAt comments token' text rest') :
    token = token' ∧ rest = rest' := by
  obtain ⟨_, _, hscan⟩ := scan_of_tokenAt h
  obtain ⟨_, _, hscan'⟩ := scan_of_tokenAt h'
  obtain ⟨-, hlexeme⟩ := Scan.found.inj (hscan.symm.trans hscan')
  obtain ⟨htoken, -, hrest⟩ := Lexeme.mk.inj hlexeme
  exact ⟨htoken, hrest⟩

/-- A blank may be added to the gap before a token or taken away from it. -/
theorem tokenAt_cons_blank_iff {comments : Bool} {token : Token} {c : Char}
    (hc : isBlank c = true) {text rest : List Char} :
    TokenAt comments token (c :: text) rest ↔ TokenAt comments token text rest := by
  constructor
  · rintro ⟨gap, start, htext, hgap, hspelled⟩
    cases gap with
    | nil =>
      obtain ⟨d, ds, rfl, hd⟩ := hspelled.exists_startsToken
      obtain ⟨rfl, -⟩ := List.cons.inj htext
      exact absurd hc (by simp [hd.1])
    | cons d gap =>
      obtain ⟨rfl, rfl⟩ := List.cons.inj htext
      exact ⟨gap, start, rfl, hgap.of_cons_blank hc, hspelled⟩
  · rintro ⟨gap, start, rfl, hgap, hspelled⟩
    exact ⟨c :: gap, start, rfl, .blank hc hgap, hspelled⟩

theorem Spelled.tokenAt {comments : Bool} {token : Token} {text rest : List Char}
    (h : Spelled comments token text rest) : TokenAt comments token text rest :=
  ⟨[], text, rfl, .nil, h⟩

/-! ### Other text after a token -/

/-- Whatever token stands before `rest`, it stands before `rest'` as well. -/
structure Interchangeable (rest rest' : List Char) : Prop where
  takesAlong : TakesAlong [] rest → TakesAlong [] rest'
  noAtSign : rest.head? ≠ some '@' → rest'.head? ≠ some '@'

namespace Interchangeable

theorem atEnd (rest : List Char) : Interchangeable rest [] :=
  ⟨fun _ => .atEnd, fun _ => nofun⟩

/-- Only the first character after a token matters. -/
theorem of_append {before : List Char} (hbefore : before ≠ []) (rest rest' : List Char) :
    Interchangeable (before ++ rest) (before ++ rest') := by
  obtain ⟨c, cs, rfl⟩ := List.exists_cons_of_ne_nil hbefore
  refine ⟨fun h => ?_, id⟩
  cases h with
  | delimiter hc _ => exact .delimiter hc _

theorem more {rest : List Char} (hrest : rest ≠ []) (more : List Char) :
    Interchangeable rest (rest ++ more) := by
  have h := of_append hrest [] more
  rwa [List.append_nil] at h

theorem moreFromDelimiter (rest : List Char) {c : Char} (hc : isDelimiter c = true)
    (more : List Char) : Interchangeable rest (rest ++ c :: more) := by
  cases rest with
  | nil =>
    refine ⟨fun _ => .delimiter hc more, fun _ hat => ?_⟩
    obtain rfl : c = '@' := Option.some.inj hat
    exact absurd hc (by decide)
  | cons d ds => exact Interchangeable.more (List.cons_ne_nil d ds) (c :: more)

end Interchangeable

theorem TakesAlong.interchange {trailing rest rest' : List Char} (h : TakesAlong trailing rest)
    (hrest : Interchangeable rest rest') : TakesAlong trailing rest' := by
  cases h with
  | blank hc => exact .blank hc rest'
  | delimiter hc _ => exact hrest.takesAlong (.delimiter hc _)
  | atEnd => exact hrest.takesAlong .atEnd

theorem Spelled.interchange {comments : Bool} {token : Token} {text rest : List Char}
    (h : Spelled comments token text rest) :
    ∃ used, used ≠ [] ∧ text = used ++ rest ∧
      ∀ rest', Interchangeable rest rest' → Spelled comments token (used ++ rest') rest' := by
  cases h with
  | opening => exact ⟨['('], nofun, rfl, fun rest' _ => .opening rest'⟩
  | closing => exact ⟨[')'], nofun, rfl, fun rest' _ => .closing rest'⟩
  | @mark kind _ h =>
    refine ⟨markSpelling kind, by cases kind <;> nofun, rfl, fun rest' hrest => ?_⟩
    exact .mark fun hkind => hrest.noAtSign (h hkind)
  | @literal body h =>
    refine ⟨'\x22' :: (body ++ ['\x22']), nofun, by simp, fun rest' _ => ?_⟩
    have hspelled : Spelled comments (.literal body) _ rest' := .literal h rest'
    simpa using hspelled
  | @bracket c h => exact ⟨[c], nofun, rfl, fun rest' _ => .bracket h rest'⟩
  | @word letters trailing _ hword h =>
    refine ⟨letters ++ trailing, by simp [hword.nonempty], by simp, fun rest' hrest => ?_⟩
    have hspelled := Spelled.word hword (h.interchange hrest)
    simpa using hspelled

/-- A token is spelled by some text of its own, and stays the same when the rest is interchanged. -/
theorem TokenAt.interchange {comments : Bool} {token : Token} {text rest : List Char}
    (h : TokenAt comments token text rest) :
    ∃ used, used ≠ [] ∧ text = used ++ rest ∧
      ∀ rest', Interchangeable rest rest' → TokenAt comments token (used ++ rest') rest' := by
  obtain ⟨gap, start, rfl, hgap, hspelled⟩ := h
  obtain ⟨used, hused, rfl, hinterchange⟩ := hspelled.interchange
  refine ⟨gap ++ used, by simp [hused], by simp, fun rest' hrest => ?_⟩
  exact ⟨gap, used ++ rest', by simp, hgap, hinterchange rest' hrest⟩

/-- More text after the rest does not change the token. -/
theorem TokenAt.append {comments : Bool} {token : Token} {text rest more : List Char}
    (h : TokenAt comments token text rest) (hrest : Interchangeable rest (rest ++ more)) :
    TokenAt comments token (text ++ more) (rest ++ more) := by
  obtain ⟨used, -, rfl, hinterchange⟩ := h.interchange
  rw [List.append_assoc]
  exact hinterchange _ hrest

/-- The same text, or what is left of it after its first blank. -/
inductive UpToBlank : (text rest : List Char) → Prop
  | same (text : List Char) : UpToBlank text text
  | blank {c : Char} (hc : isBlank c = true) (rest : List Char) : UpToBlank (c :: rest) rest

/-- A blank after the last token of a text does not change the token. A word that the text ends with
takes the blank along. -/
theorem TokenAt.append_blank {comments : Bool} {token : Token} {text : List Char}
    (h : TokenAt comments token text []) {c : Char} (hc : isBlank c = true) (more : List Char) :
    ∃ mid, UpToBlank (c :: more) mid ∧ TokenAt comments token (text ++ c :: more) mid := by
  obtain ⟨gap, start, rfl, hgap, hspelled⟩ := h
  rw [List.append_assoc]
  cases hspelled with
  | opening => exact ⟨_, .same _, gap, _, rfl, hgap, .opening _⟩
  | closing => exact ⟨_, .same _, gap, _, rfl, hgap, .closing _⟩
  | bracket hbracket => exact ⟨_, .same _, gap, _, rfl, hgap, .bracket hbracket _⟩
  | @mark kind =>
    have hspelled : Spelled comments (.mark kind) _ (c :: more) := .mark fun _ hat => by
      obtain rfl := Option.some.inj hat
      cases hc
    refine ⟨_, .same _, gap, _, ?_, hgap, hspelled⟩
    rw [List.append_nil]
  | @literal body hbody =>
    have hspelled : Spelled comments (.literal body) _ (c :: more) := .literal hbody _
    refine ⟨_, .same _, gap, _, ?_, hgap, hspelled⟩
    simp
  | @word letters trailing _ hword htrailing =>
    cases htrailing with
    | @blank b hb =>
      have hspelled : Spelled comments (.word letters) _ (c :: more) := .word hword (.blank hb _)
      refine ⟨_, .same _, gap, _, ?_, hgap, hspelled⟩
      simp
    | atEnd =>
      have hspelled : Spelled comments (.word letters) _ more := .word hword (.blank hc _)
      refine ⟨_, .blank hc _, gap, _, ?_, hgap, hspelled⟩
      simp

end ConsLisp.Source
