import ConsLisp.Proofs.Source.Tokens

/-!
# Comments

Where comments are enabled, a semicolon that is no part of a word or of a string literal begins a
comment, which ends with its line. It does not matter what is written in the comment, or whether it
is there at all: the tokens around it are the same, and so are the forms that are read and the
syntax error that is met.

A word goes on with a semicolon. So the text before a comment has to end in something else: in a
blank, a parenthesis, a bracket, a quote mark or the quote of a string literal.

## Main definitions

* `EndsApart`: the ends of texts after which a semicolon outside a string literal starts a comment.

## Main results

* `EndsApart.of_tokenAt`: what is left after a token ends apart if the text does.
* `TokenAt.append_comment`: the last token of a text before a comment.
* `tokenize_append_comment`: a comment at the end of a text has no tokens.
* `readForms_ignores_comment`: a comment does not matter to what is read.
-/

namespace ConsLisp.Source

variable {comments : Bool}

/-- The text is empty or ends in a blank, a delimiter or a splice mark. -/
def EndsApart (text : List Char) : Prop :=
  (∀ c, text.getLast? = some c → endsWord c = true) ∨ markSpelling .splice <:+ text

theorem EndsApart.nil : EndsApart [] :=
  .inl nofun

/-! ### A comma before an at sign -/

/-- Where a text that ends in a splice mark can be parted. -/
theorem splice_suffix_append {before after : List Char}
    (h : markSpelling .splice <:+ before ++ after) :
    markSpelling .splice <:+ after ∨ (before.getLast? = some ',' ∧ after = ['@']) ∨ after = [] := by
  obtain ⟨start, htext⟩ := h
  obtain ⟨as, rfl, hsplice⟩ | ⟨bs, -, rfl⟩ := List.append_eq_append_iff.1 htext
  · match as, hsplice with
    | [], hsplice => exact .inl ⟨[], hsplice⟩
    | [_], hsplice =>
      obtain ⟨rfl, rfl⟩ := List.cons.inj hsplice
      exact .inr (.inl ⟨List.getLast?_concat, rfl⟩)
    | _ :: _ :: as, hsplice =>
      obtain ⟨-, htail⟩ := List.cons.inj hsplice
      obtain ⟨-, hnil⟩ := List.cons.inj htail
      exact .inr (.inr (List.append_eq_nil_iff.1 hnil.symm).2)
  · exact .inl ⟨bs, rfl⟩

/-- A gap ends in a blank, be it the newline after a comment. -/
theorem Gap.isBlank_getLast? {gap : List Char} (h : Gap comments gap) {c : Char}
    (hc : gap.getLast? = some c) : isBlank c = true := by
  induction h with
  | nil => cases hc
  | @blank b cs hb _ ih =>
    cases cs with
    | nil =>
      obtain rfl := Option.some.inj hc
      exact hb
    | cons d ds => exact ih (by simpa using hc)
  | @comment line cs _ _ _ ih =>
    rw [← List.cons_append, List.getLast?_append] at hc
    cases cs with
    | nil =>
      obtain rfl := Option.some.inj hc
      rfl
    | cons d ds => exact ih (by simpa using hc)

theorem IsWord.comma_notMem {letters : List Char} (h : IsWord comments letters) :
    ',' ∉ letters := by
  intro hc
  cases h.noEnd _ hc

/-- The last character of a token. It is a comma only where no at sign is left after it. -/
theorem Spelled.exists_getLast? {token : Token} {text rest : List Char}
    (h : Spelled comments token text rest) :
    ∃ own c, text = own ++ rest ∧ own.getLast? = some c ∧ (c = ',' → rest.head? ≠ some '@') := by
  cases h with
  | opening => exact ⟨['('], '(', rfl, rfl, by simp⟩
  | closing => exact ⟨[')'], ')', rfl, rfl, by simp⟩
  | @mark kind _ hmark =>
    cases kind with
    | quote => exact ⟨['\x27'], '\x27', rfl, rfl, by simp⟩
    | quasiquote => exact ⟨['\x60'], '\x60', rfl, rfl, by simp⟩
    | unquote => exact ⟨[','], ',', rfl, rfl, fun _ => hmark rfl⟩
    | splice => exact ⟨[',', '@'], '@', rfl, rfl, by simp⟩
  | @literal body =>
    refine ⟨'\x22' :: (body ++ ['\x22']), '\x22', by simp, ?_, by simp⟩
    rw [← List.cons_append, List.getLast?_concat]
  | @bracket c hc =>
    refine ⟨[c], c, rfl, rfl, ?_⟩
    rcases hc with rfl | rfl <;> simp
  | @word letters trailing _ hword htrailing =>
    cases htrailing with
    | @blank b hb =>
      refine ⟨letters ++ [b], b, by simp, List.getLast?_concat, ?_⟩
      rintro rfl
      cases hb
    | delimiter | atEnd =>
      refine ⟨letters, letters.getLast hword.nonempty, rfl, List.getLast?_eq_some_getLast _,
        fun hc => ?_⟩
      exact absurd (hc ▸ List.getLast_mem hword.nonempty) hword.comma_notMem

/-- The comma of a splice mark is not a token of its own, nor the end of another one. -/
theorem TokenAt.head?_ne_of_comma {token : Token} {used rest : List Char}
    (h : TokenAt comments token (used ++ rest) rest) (hused : used.getLast? = some ',') :
    rest.head? ≠ some '@' := by
  obtain ⟨gap, start, htext, -, hspelled⟩ := h
  obtain ⟨own, c, rfl, hc, hcomma⟩ := hspelled.exists_getLast?
  rw [← List.append_assoc] at htext
  rw [List.append_cancel_right htext, List.getLast?_append, hc] at hused
  exact hcomma (Option.some.inj hused)

/-- A text that ends in the letter of a word does not end apart. The comma of a splice mark is
neither in a word nor in the gap before one. -/
theorem IsWord.not_endsApart {gap letters : List Char} (h : IsWord comments letters)
    (hgap : Gap comments gap) : ¬EndsApart (gap ++ letters) := by
  rintro (hlast | hsplice)
  · have hletter := List.getLast?_eq_some_getLast h.nonempty
    have hend := hlast _ (by rw [List.getLast?_append, hletter]; rfl)
    rw [h.noEnd _ (List.mem_of_getLast? hletter)] at hend
    cases hend
  · obtain ⟨as, rfl⟩ | ⟨hcomma, -⟩ | hnil := splice_suffix_append hsplice
    · exact h.comma_notMem (List.mem_append_right _ List.mem_cons_self)
    · cases hgap.isBlank_getLast? hcomma
    · exact h.nonempty hnil

/-- What is left after a token ends apart if the text does. -/
theorem EndsApart.of_tokenAt {token : Token} {text rest : List Char} (hend : EndsApart text)
    (h : TokenAt comments token text rest) : EndsApart rest := by
  obtain ⟨used, -, rfl, -⟩ := h.interchange
  obtain hlast | hsplice := hend
  · refine .inl fun c hc => hlast c ?_
    rw [List.getLast?_append, hc]
    rfl
  · obtain hrest | ⟨hcomma, rfl⟩ | rfl := splice_suffix_append hsplice
    · exact .inr hrest
    · exact absurd rfl (h.head?_ne_of_comma hcomma)
    · exact .nil

/-! ### A comment after a text -/

/-- The last token of a text before a comment. -/
theorem TokenAt.append_comment {token : Token} {text : List Char}
    (h : TokenAt comments token text []) (hend : EndsApart text) (line : List Char) :
    TokenAt comments token (text ++ ';' :: line) (';' :: line) := by
  obtain ⟨gap, start, rfl, hgap, hspelled⟩ := h
  rw [List.append_assoc]
  refine ⟨gap, _, rfl, hgap, ?_⟩
  cases hspelled with
  | opening => exact .opening _
  | closing => exact .closing _
  | bracket hc => exact .bracket hc _
  | mark =>
    rw [List.append_nil]
    exact .mark fun _ => by simp
  | @literal body hbody =>
    have hspelled : Spelled comments (.literal body) _ (';' :: line) := .literal hbody _
    simpa using hspelled
  | @word letters trailing _ hword htrailing =>
    cases htrailing with
    | @blank b hb =>
      have hspelled : Spelled comments (.word letters) _ (';' :: line) := .word hword (.blank hb _)
      simpa using hspelled
    | atEnd => exact absurd (by simpa using hend) (hword.not_endsApart hgap)

/-- A comment goes on to the end of the text if no newline ends it. -/
theorem splitBlank_comment {line : List Char} (hline : '\n' ∉ line) (skipped : List Char) :
    (splitBlank true true skipped line).2 = [] := by
  induction line generalizing skipped with
  | nil => rfl
  | cons c line ih =>
    have hc : c ≠ '\n' := fun h => hline (h ▸ List.mem_cons_self)
    rw [splitBlank, bne_iff_ne.2 hc]
    exact ih (fun h => hline (List.mem_cons_of_mem c h)) _

/-- A comment after a blank text, which may end in a comment itself. -/
theorem splitBlank_append_comment {inComment : Bool} {skipped text line : List Char}
    (hline : '\n' ∉ line) (h : (splitBlank true inComment skipped text).2 = []) :
    (splitBlank true inComment skipped (text ++ ';' :: line)).2 = [] := by
  induction text generalizing inComment skipped with
  | nil => cases inComment <;> exact splitBlank_comment hline _
  | cons c text ih =>
    cases inComment with
    | true => exact ih h
    | false =>
      rw [List.cons_append, splitBlank]
      rw [splitBlank] at h
      split
      · next hc =>
        rw [if_pos hc] at h
        exact ih h
      · next hc =>
        rw [if_neg hc] at h
        split
        · next hcomment =>
          rw [if_pos hcomment] at h
          exact ih h
        · next hcomment =>
          rw [if_neg hcomment] at h
          cases h

/-- A comment at the end of a text has no tokens. -/
theorem tokenize_append_comment {text line : List Char} (hline : '\n' ∉ line)
    (hliteral : (tokenize true text).openLiteral = false) (hend : EndsApart text) :
    tokenize true (text ++ ';' :: line) = tokenize true text := by
  fun_induction tokenize true text with
  | case1 text blank hscan =>
    have hblank := congrArg Prod.snd (splitBlank_of_scan_eq_finished hscan)
    exact (tokenize_of_splitBlank (splitBlank_append_comment hline hblank)).trans tokenize_nil
  | case2 => cases hliteral
  | case3 text blank l hscan ih =>
    have htoken := tokenAt_of_scan hscan
    by_cases hrest : l.rest = []
    · rw [hrest] at htoken ⊢
      have hcomment : tokenize true (';' :: line) = tokenize true [] :=
        tokenize_of_splitBlank (splitBlank_comment hline [';'])
      rw [tokenize_of_tokenAt (htoken.append_comment hend line), hcomment]
    · rw [tokenize_of_tokenAt (htoken.append (.more hrest _)),
        ih hliteral (hend.of_tokenAt htoken)]

/-- A comment after a text does not matter to what is read, neither before another line nor at the
end of the source: with the comment and without it the forms are the same, and so is the syntax
error. The text ends outside a string literal and apart from the comment. -/
theorem readForms_ignores_comment {before comment : String} (hcomment : '\n' ∉ comment.toList)
    (hliteral : (tokenize true before.toList).openLiteral = false)
    (hend : EndsApart before.toList) (after : String) :
    (readForms true (before ++ ";" ++ comment ++ "\n" ++ after)).Alike
        (readForms true (before ++ "\n" ++ after)) ∧
      (readForms true (before ++ ";" ++ comment)).Alike (readForms true before) := by
  have htokens := tokenize_append_comment hcomment hliteral hend
  constructor
  · refine readForms_alike ?_
    have hcommented := congrArg Tokenization.openLiteral htokens
    rw [hliteral] at hcommented
    have hjoined : (before ++ ";" ++ comment ++ "\n" ++ after).toList =
        (before.toList ++ ';' :: comment.toList) ++ '\n' :: after.toList := by simp
    have hjoined' : (before ++ "\n" ++ after).toList = before.toList ++ '\n' :: after.toList := by
      simp
    rw [hjoined, hjoined', tokenize_append_newline hcommented, tokenize_append_newline hliteral,
      htokens]
  · refine readForms_alike ?_
    have hjoined : (before ++ ";" ++ comment).toList = before.toList ++ ';' :: comment.toList := by
      simp
    rw [hjoined, htokens]

/-- A comment between a splice mark and its expression. -/
theorem readForms_ignores_comment_splice :
    (readForms true ("(a ,@" ++ ";" ++ " )\"" ++ "\n" ++ "b) c")).values =
      [.ofList [.symbol "a", .quoted .splice (.symbol "b")], .symbol "c"] := by
  have hliteral : (tokenize true "(a ,@".toList).openLiteral = false := by
    with_unfolding_all rfl
  have hvalues : (readForms true ("(a ,@" ++ "\n" ++ "b) c")).values =
      [.ofList [.symbol "a", .quoted .splice (.symbol "b")], .symbol "c"] := by
    with_unfolding_all rfl
  rw [← hvalues]
  exact (readForms_ignores_comment (by decide) hliteral (.inr ⟨['(', 'a', ' '], rfl⟩)
    "b) c").1.values_eq

end ConsLisp.Source
