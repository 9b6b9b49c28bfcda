import ConsLisp.Proofs.Source.Joining

/-!
# Where a string literal ends

The scanner goes along a string literal and takes the character after each backslash along with
it. There is another way to find the closing quote, which needs no start: it is the first double
quote that stands after an even number of backslashes, and it does not matter what stands before
those. An escape pair keeps the number of backslashes at its end even, whether its second
character is a backslash, which makes two more, or another one, which leaves none.

## Main definitions

* `trailingBackslashes`: how many backslashes a text ends in.
* `UnescapedQuote`, `FirstUnescapedQuote`: the double quotes that no backslash escapes, and the
  first of them.

## Main results

* `LiteralBody.even_trailingBackslashes`: escape pairs keep the number of backslashes even.
* `literalBody?_eq_some_iff`: the body of a literal ends before its first unescaped quote.
* `literal_ends_at_unescaped_quote`: the string literal at the start of a text, and when there is
  none.
-/

namespace ConsLisp.Source

/-! ### Backslashes at the end of a text -/

/-- How many backslashes a text ends in. -/
def trailingBackslashes (cs : List Char) : Nat :=
  (cs.reverse.takeWhile (· == '\\')).length

@[simp] theorem trailingBackslashes_nil : trailingBackslashes [] = 0 := rfl

theorem trailingBackslashes_concat (cs : List Char) (c : Char) :
    trailingBackslashes (cs ++ [c]) = if c = '\\' then trailingBackslashes cs + 1 else 0 := by
  rw [trailingBackslashes, List.reverse_concat, List.takeWhile_cons]
  by_cases hc : c = '\\' <;> simp [hc, trailingBackslashes]

/-- A backslash and the character after it keep the number of backslashes even. -/
theorem trailingBackslashes_escape {before : List Char} (h : trailingBackslashes before % 2 = 0)
    (c : Char) : trailingBackslashes (before ++ ['\\', c]) % 2 = 0 := by
  have hsplit : before ++ ['\\', c] = (before ++ ['\\']) ++ [c] := by simp
  rw [hsplit, trailingBackslashes_concat, trailingBackslashes_concat, if_pos rfl]
  split <;> omega

/-- The body of a string literal keeps the number of backslashes even. -/
theorem LiteralBody.even_trailingBackslashes {body : List Char} (hbody : LiteralBody body)
    {before : List Char} (h : trailingBackslashes before % 2 = 0) :
    trailingBackslashes (before ++ body) % 2 = 0 := by
  induction hbody generalizing before with
  | nil => rwa [List.append_nil]
  | @plain c cs _ hbackslash _ ih =>
    have hc : trailingBackslashes (before ++ [c]) % 2 = 0 := by
      rw [trailingBackslashes_concat, if_neg hbackslash]
    simpa using ih hc
  | @escape c cs _ ih => simpa using ih (trailingBackslashes_escape h c)

/-! ### Unescaped quotes -/

/-- A double quote of the text that no backslash escapes, between `before` and `after`. -/
structure UnescapedQuote (text before after : List Char) : Prop where
  text_eq : text = before ++ '\x22' :: after
  even : trailingBackslashes before % 2 = 0

/-- The first double quote of the text that no backslash escapes. -/
structure FirstUnescapedQuote (text before after : List Char) : Prop
    extends UnescapedQuote text before after where
  first : ∀ before' after', UnescapedQuote text before' after' → before.length ≤ before'.length

theorem FirstUnescapedQuote.unique {text before after before' after' : List Char}
    (h : FirstUnescapedQuote text before after) (h' : FirstUnescapedQuote text before' after') :
    before = before' ∧ after = after' := by
  have hlength : before.length = before'.length :=
    Nat.le_antisymm (h.first _ _ h'.toUnescapedQuote) (h'.first _ _ h.toUnescapedQuote)
  obtain ⟨hbefore, hafter⟩ := List.append_inj (h.text_eq.symm.trans h'.text_eq) hlength
  exact ⟨hbefore, (List.cons.inj hafter).2⟩

/-- The scanner does not go past an unescaped quote. It has read `read` before, last character
first, which ends in an even number of backslashes. -/
theorem exists_literalBody?_of_unescaped (read : List Char) {text before after : List Char}
    (hread : trailingBackslashes read.reverse % 2 = 0) (htext : text = before ++ '\x22' :: after)
    (hbefore : trailingBackslashes (read.reverse ++ before) % 2 = 0) :
    ∃ found rest, literalBody? read text = some (found, rest) ∧
      found.length ≤ read.length + before.length := by
  fun_induction literalBody? read text generalizing before with
  | case1 => simp at htext
  | case2 =>
    cases before with
    | nil => cases htext
    | cons c before => simp at htext
  | case3 read c cs ih =>
    have hpair : trailingBackslashes (c :: '\\' :: read).reverse % 2 = 0 := by
      simpa using trailingBackslashes_escape hread c
    cases before with
    | nil => cases htext
    | cons d before =>
      obtain ⟨rfl, hafter⟩ := List.cons.inj htext
      cases before with
      | nil =>
        -- The quote is the second character of an escape pair.
        rw [trailingBackslashes_concat, if_pos rfl] at hbefore
        omega
      | cons d before =>
        obtain ⟨rfl, hcs⟩ := List.cons.inj hafter
        obtain ⟨found, rest, hfound, hle⟩ := ih hpair hcs (by simpa using hbefore)
        refine ⟨found, rest, hfound, ?_⟩
        simp only [List.length_cons] at hle ⊢
        omega
  | case4 read cs => exact ⟨_, _, rfl, by simp⟩
  | case5 read c cs hend hpair hquote ih =>
    cases before with
    | nil =>
      obtain ⟨rfl, -⟩ := List.cons.inj htext
      exact absurd rfl hquote
    | cons d before =>
      obtain ⟨rfl, rfl⟩ := List.cons.inj htext
      have hbackslash : c ≠ '\\' := fun hc => by
        cases hcs : before ++ '\x22' :: after with
        | nil => simp at hcs
        | cons d ds => exact hpair d ds hc hcs
      have hplain : trailingBackslashes (c :: read).reverse % 2 = 0 := by
        rw [List.reverse_cons, trailingBackslashes_concat, if_neg hbackslash]
      obtain ⟨found, rest, hfound, hle⟩ := ih hplain rfl (by simpa using hbefore)
      refine ⟨found, rest, hfound, ?_⟩
      simp only [List.length_cons] at hle ⊢
      omega

/-- The closing quote of a string literal is not escaped. -/
theorem unescapedQuote_of_literalBody? {text body rest : List Char}
    (h : literalBody? [] text = some (body, rest)) : UnescapedQuote text body rest := by
  obtain ⟨body', hfound, hbody⟩ := literalBody_of_literalBody? h
  obtain rfl : body = body' := hfound
  have hstart : trailingBackslashes [] % 2 = 0 := rfl
  exact ⟨(literalBody?_append h).symm, hbody.even_trailingBackslashes hstart⟩

theorem firstUnescapedQuote_of_literalBody? {text body rest : List Char}
    (h : literalBody? [] text = some (body, rest)) : FirstUnescapedQuote text body rest := by
  refine ⟨unescapedQuote_of_literalBody? h, fun before after hquote => ?_⟩
  obtain ⟨found, rest', hfound, hle⟩ :=
    exists_literalBody?_of_unescaped [] rfl hquote.text_eq hquote.even
  obtain ⟨rfl, -⟩ := Prod.mk.inj (Option.some.inj (h.symm.trans hfound))
  simpa using hle

/-- The body of a string literal ends before the first unescaped quote. -/
theorem literalBody?_eq_some_iff {text body rest : List Char} :
    literalBody? [] text = some (body, rest) ↔ FirstUnescapedQuote text body rest := by
  refine ⟨firstUnescapedQuote_of_literalBody?, fun h => ?_⟩
  obtain ⟨found, rest', hfound, -⟩ :=
    exists_literalBody?_of_unescaped [] rfl h.text_eq h.even
  obtain ⟨rfl, rfl⟩ := h.unique (firstUnescapedQuote_of_literalBody? hfound)
  exact hfound

/-- A string literal is not closed if no quote after its start is unescaped. -/
theorem literalBody?_eq_none_iff {text : List Char} :
    literalBody? [] text = none ↔ ¬∃ before after, UnescapedQuote text before after := by
  constructor
  · rintro h ⟨before, after, hquote⟩
    obtain ⟨found, rest, hfound, -⟩ :=
      exists_literalBody?_of_unescaped [] rfl hquote.text_eq hquote.even
    cases h.symm.trans hfound
  · intro h
    cases hbody : literalBody? [] text with
    | none => rfl
    | some p => exact absurd ⟨p.1, p.2, unescapedQuote_of_literalBody? hbody⟩ h

/-! ### The string literal at the start of a text -/

/-- What the scanner finds in a text that starts with a double quote. -/
theorem scan_quote (comments : Bool) (cs : List Char) :
    scan comments ('\x22' :: cs) =
      match literalBody? [] cs with
      | some (body, rest) => .found [] ⟨.literal body, [], rest⟩
      | none => .unclosed [] ('\x22' :: cs) := by
  have hblank : splitBlank comments false [] ('\x22' :: cs) = ([], '\x22' :: cs) :=
    splitBlank_of_gap .nil [] (startsToken_of_isDelimiter rfl) cs
  rw [scan, hblank]
  simp only [lexeme?]
  cases literalBody? [] cs <;> rfl

/-- A string literal at the start of a text ends at the first double quote with an even number of
backslashes before it, and its value is the text between the two quotes as it stands. The reader
waits for more text exactly if there is no such quote. -/
theorem literal_ends_at_unescaped_quote {s : Stream} {cs : List Char} (hs : s.failed = false)
    (hrest : s.rest = '\x22' :: cs) :
    ((∃ before after, UnescapedQuote cs before after) →
      ∃ body rest, FirstUnescapedQuote cs body rest ∧
        scan s.comments s.rest = .found [] ⟨.literal body, [], rest⟩ ∧
        s.next = (some (.ok (.string (String.ofList body))),
          { s with
            rest := rest
            position := s.position + byteSize ('\x22' :: (body ++ ['\x22'])) })) ∧
    ((∃ e s', s.next = (some (.error e), s') ∧ e.kind = .incomplete) ↔
      ¬∃ before after, UnescapedQuote cs before after) := by
  have hscan := scan_quote s.comments cs
  have hnext := Stream.next_eq hs
  rw [hrest, read_eq, hscan] at hnext
  cases hbody : literalBody? [] cs with
  | none =>
    have hnone := literalBody?_eq_none_iff.1 hbody
    rw [hbody] at hnext
    exact ⟨fun hquote => absurd hquote hnone, fun _ => hnone, fun _ => ⟨_, _, hnext, rfl⟩⟩
  | some p =>
    obtain ⟨body, rest⟩ := p
    have hfirst := literalBody?_eq_some_iff.1 hbody
    have hquote := hfirst.toUnescapedQuote
    rw [hbody] at hnext hscan
    refine ⟨fun _ => ⟨body, rest, hfirst, ?_, hnext⟩, ?_, fun hnone => absurd ⟨_, _, hquote⟩ hnone⟩
    · rw [hrest, hscan]
    · rintro ⟨e, s', herror, -⟩
      cases hnext.symm.trans herror

/-- A literal with an escaped quote, a newline and two backslashes before its closing quote. -/
def escapingLiteral : String :=
  "\x22\u00e9\\\x22\n\\\\\x22 b"

/-- A literal in which three backslashes stand before the last quote. -/
def escapedAtEnd : String :=
  "\x22\\\\\\\x22"

theorem literal_ends_at_unescaped_quote_escapingLiteral :
    (Stream.ofText true escapingLiteral).next.1 =
        some (.ok (.string "\u00e9\\\x22\n\\\\")) ∧
      ∃ e s', (Stream.ofText true escapedAtEnd).next = (some (.error e), s') ∧
        e.kind = .incomplete := by
  have hclosed : literalBody? [] escapingLiteral.toList.tail =
      some ("\u00e9\\\x22\n\\\\".toList, " b".toList) := by
    with_unfolding_all rfl
  have hopen : literalBody? [] escapedAtEnd.toList.tail = none := by
    with_unfolding_all rfl
  have hfirst := literalBody?_eq_some_iff.1 hclosed
  constructor
  · obtain ⟨body, rest, hfirst', -, hnext⟩ :=
      (literal_ends_at_unescaped_quote (s := .ofText true escapingLiteral) rfl rfl).1
        ⟨_, _, hfirst.toUnescapedQuote⟩
    obtain ⟨rfl, rfl⟩ := hfirst.unique hfirst'
    exact congrArg Prod.fst hnext
  · exact (literal_ends_at_unescaped_quote (s := .ofText true escapedAtEnd) rfl rfl).2.2
      (literalBody?_eq_none_iff.1 hopen)

end ConsLisp.Source
