import ConsLisp.Proofs.Source.Continuation

/-!
# What follows an expression

Reading an expression looks at no more than one character after it. If the text of an expression
ends in a parenthesis, a bracket, the quote of a string literal, or a blank that its last word took
along, then it does not matter at all what follows. If it ends in the letter of a word, what follows
must not make the word longer: it is nothing, or it starts with a delimiter or with a blank, and the
word takes that blank along.

## Main definitions

* `LeftAfter`: what a token leaves of the text after it.

## Main results

* `Layout.followed_by`: a value stays laid out whatever the character it ends in leaves to follow
  it.
* `readOne_same_before`: what follows a complete expression does not change it.
-/

namespace ConsLisp.Source

variable {comments : Bool}

/-- What is left of the text `more` after a token that ends in the character `c`. A word leaves all
but the blank that it takes along, and it can only be followed by text that does not make it
longer. -/
inductive LeftAfter (c : Char) : (more rest : List Char) → Prop
  | ended (hc : endsWord c = true) (more : List Char) : LeftAfter c more more
  | word (hc : endsWord c = false) {trailing rest : List Char} (h : TakesAlong trailing rest) :
      LeftAfter c (trailing ++ rest) rest

theorem LeftAfter.eq_of_endsWord {c : Char} {more rest : List Char} (h : LeftAfter c more rest)
    (hc : endsWord c = true) : rest = more := by
  cases h with
  | ended => rfl
  | word hc' => exact absurd hc (by simp [hc'])

/-- A token other than a quote mark stays the same before any text that its last character
allows. -/
theorem Spelled.followed_by {token : Token} {text rest : List Char}
    (h : Spelled comments token text rest) (hmark : ∀ kind, token ≠ .mark kind) :
    ∃ used c, used.getLast? = some c ∧ text = used ++ rest ∧
      ∀ more rest', LeftAfter c more rest' → Spelled comments token (used ++ more) rest' := by
  cases h with
  | opening =>
    refine ⟨['('], '(', rfl, rfl, fun more rest' hleft => ?_⟩
    obtain rfl := hleft.eq_of_endsWord rfl
    exact .opening _
  | closing =>
    refine ⟨[')'], ')', rfl, rfl, fun more rest' hleft => ?_⟩
    obtain rfl := hleft.eq_of_endsWord rfl
    exact .closing _
  | @mark kind => exact absurd rfl (hmark kind)
  | @literal body hbody =>
    refine ⟨'\x22' :: (body ++ ['\x22']), '\x22', ?_, by simp, fun more rest' hleft => ?_⟩
    · rw [← List.cons_append, List.getLast?_concat]
    · obtain rfl := hleft.eq_of_endsWord rfl
      have hspelled : Spelled comments (.literal body) _ rest' := .literal hbody rest'
      simpa using hspelled
  | @bracket c hc =>
    refine ⟨[c], c, rfl, rfl, fun more rest' hleft => ?_⟩
    obtain rfl := hleft.eq_of_endsWord (by rcases hc with rfl | rfl <;> rfl)
    exact .bracket hc _
  | @word letters trailing rest hword htrailing =>
    have hletters : trailing = [] → ∃ used c, used.getLast? = some c ∧
        letters ++ (trailing ++ rest) = used ++ rest ∧
        ∀ more rest', LeftAfter c more rest' →
          Spelled comments (.word letters) (used ++ more) rest' := by
      rintro rfl
      refine ⟨letters, letters.getLast hword.nonempty, List.getLast?_eq_some_getLast _, rfl,
        fun more rest' hleft => ?_⟩
      cases hleft with
      | ended hc => exact absurd hc (by simp [hword.noEnd _ (List.getLast_mem _)])
      | word _ h => exact .word hword h
    cases htrailing with
    | @blank b hb =>
      refine ⟨letters ++ [b], b, List.getLast?_concat, by simp, fun more rest' hleft => ?_⟩
      obtain rfl := hleft.eq_of_endsWord (by simp [endsWord, hb])
      have hspelled : Spelled comments (.word letters) _ rest' := .word hword (.blank hb rest')
      simpa using hspelled
    | delimiter | atEnd => exact hletters rfl

theorem TokenAt.followed_by {token : Token} {text rest : List Char}
    (h : TokenAt comments token text rest) (hmark : ∀ kind, token ≠ .mark kind) :
    ∃ used c, used.getLast? = some c ∧ text = used ++ rest ∧
      ∀ more rest', LeftAfter c more rest' → TokenAt comments token (used ++ more) rest' := by
  obtain ⟨gap, start, rfl, hgap, hspelled⟩ := h
  obtain ⟨used, c, hc, rfl, hfollowed⟩ := hspelled.followed_by hmark
  refine ⟨gap ++ used, c, by simp [hc], by simp, fun more rest' hleft => ?_⟩
  exact ⟨gap, used ++ more, by simp, hgap, hfollowed more rest' hleft⟩

/-- A value stays laid out before any text that the last character of its layout allows. -/
theorem Layout.followed_by {place : Place} {v : Value} {text rest : List Char}
    (h : Layout comments place v text rest) :
    ∃ used c, used.getLast? = some c ∧ text = used ++ rest ∧
      ∀ more rest', LeftAfter c more rest' → Layout comments place v (used ++ more) rest' := by
  induction h with
  | symbol h hletters =>
    obtain ⟨used, c, hc, rfl, hfollowed⟩ := h.followed_by nofun
    exact ⟨used, c, hc, rfl, fun _ _ hleft => .symbol (hfollowed _ _ hleft) hletters⟩
  | integer h ha =>
    obtain ⟨used, c, hc, rfl, hfollowed⟩ := h.followed_by nofun
    exact ⟨used, c, hc, rfl, fun _ _ hleft => .integer (hfollowed _ _ hleft) ha⟩
  | string h =>
    obtain ⟨used, c, hc, rfl, hfollowed⟩ := h.followed_by nofun
    exact ⟨used, c, hc, rfl, fun _ _ hleft => .string (hfollowed _ _ hleft)⟩
  | closing h =>
    obtain ⟨used, c, hc, rfl, hfollowed⟩ := h.followed_by nofun
    exact ⟨used, c, hc, rfl, fun _ _ hleft => .closing (hfollowed _ _ hleft)⟩
  | quoted h _ ih =>
    obtain ⟨mark, -, rfl, htoken⟩ := h.interchange
    obtain ⟨used, c, hc, rfl, hinner⟩ := ih
    have hused : used ≠ [] := by rintro rfl; cases hc
    refine ⟨mark ++ used, c, by simp [hc], by simp, fun more rest' hleft => ?_⟩
    rw [List.append_assoc]
    exact .quoted (htoken _ (.of_append hused _ _)) (hinner more rest' hleft)
  | list h _ ih =>
    obtain ⟨opening, -, rfl, htoken⟩ := h.interchange
    obtain ⟨used, c, hc, rfl, hinner⟩ := ih
    have hused : used ≠ [] := by rintro rfl; cases hc
    refine ⟨opening ++ used, c, by simp [hc], by simp, fun more rest' hleft => ?_⟩
    rw [List.append_assoc]
    exact .list (htoken _ (.of_append hused _ _)) (hinner more rest' hleft)
  | element hfirst _ _ ih =>
    obtain ⟨before, -, rfl, hbefore⟩ := hfirst.interchange
    obtain ⟨used, c, hc, rfl, hothers⟩ := ih
    have hused : used ≠ [] := by rintro rfl; cases hc
    refine ⟨before ++ used, c, by simp [hc], by simp, fun more rest' hleft => ?_⟩
    rw [List.append_assoc]
    exact .element (hbefore _ (.of_append hused _ _)) (hothers more rest' hleft)

/-! ### Reading before other text -/

theorem readOne_eq_ok {text : String} {form : Form} (h : readOne text = .ok form) :
    ∃ rest, read false [] 0 text.toList = .complete form.value form.stop rest := by
  rw [readOne_eq] at h
  split at h
  · cases h
  · next hread =>
    obtain rfl := Except.ok.inj h
    exact ⟨_, hread⟩
  · cases h

/-- A text that starts with a layout of a value is read as the value. -/
theorem readOne_of_layout {text : String} {used rest : List Char} {v : Value}
    (h : Layout false .whole v text.toList rest) (hnesting : v.nesting ≤ maxNesting)
    (hused : text.toList = used ++ rest) : readOne text = .ok ⟨v, byteSize used⟩ := by
  have hread : read false [] 0 text.toList = .complete v (byteSize used) rest :=
    read_eq_complete_iff.2 ⟨h, hnesting, used, hused, (Nat.zero_add _).symm⟩
  rw [readOne_eq, hread]

theorem utf8Size_of_isBlank {c : Char} (hc : isBlank c = true) : c.utf8Size = 1 := by
  simp only [isBlank, Bool.or_eq_true, beq_iff_eq] at hc
  rcases hc with ((rfl | rfl) | rfl) | rfl <;> rfl

/-- A word takes nothing along at the end of the text and before a delimiter. -/
theorem takesAlong_nil_of_head? {rest : List Char} (h : rest.head?.all isDelimiter = true) :
    TakesAlong [] rest := by
  cases rest with
  | nil => exact .atEnd
  | cons c cs => exact .delimiter h cs

/-- The part of a text that its first expression takes is read as this expression before any other
text. Only if that part ends in the letter of a word does it matter how the text after it starts: at
its end or before a delimiter the expression is the same, and a blank is taken along. -/
theorem readOne_same_before {text : String} {form : Form} (h : readOne text = .ok form) :
    ∃ used rest : String, text = used ++ rest ∧ byteSize used.toList = form.stop ∧
      ∃ c, used.toList.getLast? = some c ∧
        (endsWord c = true → ∀ more, readOne (used ++ more) = .ok form) ∧
        (endsWord c = false → ∀ more : String,
          (more.toList.head?.all isDelimiter = true → readOne (used ++ more) = .ok form) ∧
          (more.toList.head?.any isBlank = true →
            readOne (used ++ more) = .ok ⟨form.value, form.stop + 1⟩)) := by
  obtain ⟨rest, hread⟩ := readOne_eq_ok h
  obtain ⟨hlayout, hnesting, used, htext, hstop⟩ := read_eq_complete_iff.1 hread
  rw [Nat.zero_add] at hstop
  obtain ⟨used', c, hc, htext', hfollowed⟩ := hlayout.followed_by
  obtain rfl := List.append_cancel_right (htext.symm.trans htext')
  -- The expression before the text `more`, of which it takes `trailing` along and leaves `after`.
  have hbefore (more : String) (trailing after : List Char)
      (hmore : more.toList = trailing ++ after) (hleft : LeftAfter c more.toList after) :
      readOne (String.ofList used ++ more) = .ok ⟨form.value, form.stop + byteSize trailing⟩ := by
    rw [hstop, ← byteSize_append]
    have hlayout' : Layout false .whole form.value (String.ofList used ++ more).toList after := by
      simpa using hfollowed _ _ hleft
    exact readOne_of_layout hlayout' hnesting (by simp [hmore])
  refine ⟨String.ofList used, String.ofList rest, ?_, ?_, c, ?_, fun hend more => ?_,
    fun hend more => ⟨fun hmore => ?_, fun hmore => ?_⟩⟩
  · rw [← String.toList_inj]
    simpa using htext
  · rw [String.toList_ofList, hstop]
  · rwa [String.toList_ofList]
  · exact hbefore more [] _ rfl (.ended hend _)
  · exact hbefore more [] _ rfl (.word hend (takesAlong_nil_of_head? hmore))
  · obtain ⟨b, cs, hcs⟩ : ∃ b cs, more.toList = b :: cs :=
      List.exists_cons_of_ne_nil fun hnil => by simp [hnil] at hmore
    have hb : isBlank b = true := by simpa [hcs] using hmore
    rw [hbefore more [b] cs hcs (hcs ▸ .word hend (.blank hb cs)), byteSize_cons,
      utf8Size_of_isBlank hb]
    rfl

/-- A quoted word is the same before a delimiter and takes a blank along. -/
theorem readOne_same_before_quotedWord :
    readOne ("'ab" ++ ")") = .ok ⟨.quoted .quote (.symbol "ab"), 3⟩ ∧
      readOne ("'ab" ++ " c") = .ok ⟨.quoted .quote (.symbol "ab"), 4⟩ := by
  have hread : readOne "'ab" = .ok ⟨.quoted .quote (.symbol "ab"), 3⟩ := by
    with_unfolding_all rfl
  obtain ⟨used, rest, htext, hsize, c, hc, -, hword⟩ := readOne_same_before hread
  have hsizes := congrArg (fun text => byteSize text.toList) htext
  simp only [String.toList_append, byteSize_append, hsize] at hsizes
  have htotal : byteSize "'ab".toList = 3 := rfl
  have hrest : rest.toList = [] := Decidable.byContradiction fun hrest => by
    have hpos := byteSize_pos hrest
    omega
  obtain rfl : "'ab" = used := by simpa [String.toList_eq_nil_iff.1 hrest] using htext
  obtain rfl : 'b' = c := Option.some.inj hc
  exact ⟨(hword rfl ")").1 rfl, (hword rfl " c").2 rfl⟩

end ConsLisp.Source
