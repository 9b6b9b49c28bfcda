import ConsLisp.Proofs.Source.Reading
import ConsLisp.Value.Equality

/-!
# Printed values read back

The program text of a value that was read is a layout of the same value, with one exception: an
unquote mark and a symbol that starts with an at sign run together into a splice mark. So a value
reads back from its program text if and only if no unquote mark in it stands before such a symbol.

## Main definitions

* `Value.written`: the program text of a value in a place.
* `Value.MarksApart`: no unquote mark runs together with a symbol.
* `LaysOut`: the program text of a value is a layout of it, whatever follows.

## Main results

* `layout_written`: the program text of a value is a layout of it.
* `marksApart_of_layout_written`: if it is, all marks stand apart.
* `reads_back_iff_marksApart`: a value that was read reads back exactly if all marks stand apart.
-/

namespace ConsLisp

namespace Value

/-! ### Program text in a place -/

/-- The program text of a value that stands alone or after the elements of an open list. -/
def written (p : Place) (v : Value) : List Char :=
  (write programStyle p "" v).toList

theorem toList_text (v : Value) : v.text.toList = v.written .whole := rfl

theorem written_whole_cons (first rest : Value) :
    (cons first rest).written .whole = '(' :: (first.written .whole ++ rest.written .tail) := by
  rw [written, write, toList_write, toList_write]
  rfl

theorem written_tail_cons (first rest : Value) :
    (cons first rest).written .tail = ' ' :: (first.written .whole ++ rest.written .tail) := by
  rw [written, write, toList_write, toList_write]
  rfl

theorem written_quoted (kind : QuoteKind) (inner : Value) :
    (quoted kind inner).written .whole = Source.markSpelling kind ++ inner.written .whole := by
  rw [written, write, String.toList_append, String.toList_append, toList_write]
  cases kind <;> simp [written, programStyle, TextStyle.beforeDotted, TextStyle.afterDotted,
    QuoteKind.mark, Source.markSpelling]

/-- A value without parts that stands alone is written as its own text. -/
theorem written_whole_of_leaf {v : Value}
    (h : write programStyle .whole "" v = "" ++ "" ++ leafText v ++ "") :
    v.written .whole = (leafText v).toList := by
  rw [written, h]
  simp

theorem written_symbol (letters : List Char) :
    (symbol (String.ofList letters)).written .whole = letters := by
  rw [written_whole_of_leaf rfl]
  exact String.toList_ofList

theorem written_integer (a : Fixnum) : (integer a).written .whole = a.digits := by
  rw [written_whole_of_leaf rfl]
  exact String.toList_ofList

theorem written_string (body : List Char) :
    (string (String.ofList body)).written .whole = '\x22' :: (body ++ ['\x22']) := by
  have hleaf : leafText (string (String.ofList body)) = "\"" ++ String.ofList body ++ "\"" := rfl
  rw [written_whole_of_leaf rfl, hleaf]
  simp

/-- A list is written alike in both places, apart from what stands before its first element. -/
theorem exists_written_of_isList {v : Value} (h : v.isList = true) :
    ∃ inner, v.written .whole = '(' :: inner ∧
      (v.written .tail = inner ∨ v.written .tail = ' ' :: inner) := by
  cases v with
  | empty => exact ⟨[')'], rfl, .inl rfl⟩
  | cons first rest =>
    exact ⟨_, written_whole_cons first rest, .inr (written_tail_cons first rest)⟩
  | _ => cases h

/-! ### Marks and symbols -/

/-- No unquote mark in the value stands before a symbol whose name starts with an at sign. -/
def MarksApart : Value → Prop
  | cons first rest => first.MarksApart ∧ rest.MarksApart
  | quoted kind inner =>
    (kind = .unquote → ∀ name, inner = symbol name → name.toList.head? ≠ some '@') ∧
      inner.MarksApart
  | _ => True

/-- Values without callables are equal only if they are the same. -/
theorem eq_of_equals {v w : Value} (hv : v.IsSyntax) (h : equals w v = true) : w = v := by
  induction v generalizing w with
  | cons first rest ihfirst ihrest =>
    cases w with
    | cons first' rest' =>
      obtain ⟨hfirst, hrest⟩ := Bool.and_eq_true_iff.1 h
      rw [ihfirst hv.1 hfirst, ihrest hv.2.2 hrest]
    | _ => cases h
  | quoted kind inner ih =>
    cases w with
    | quoted kind' inner' =>
      obtain ⟨hkind, hinner⟩ := Bool.and_eq_true_iff.1 h
      rw [eq_of_beq hkind, ih hv hinner]
    | _ => cases h
  | empty => cases w <;> first | rfl | cases h
  | symbol name =>
    cases w with
    | symbol name' => rw [eq_of_beq (show (name' == name) = true from h)]
    | _ => cases h
  | integer a =>
    cases w with
    | integer b => rw [eq_of_beq (show (b == a) = true from h)]
    | _ => cases h
  | string text =>
    cases w with
    | string text' => rw [eq_of_beq (show (text' == text) = true from h)]
    | _ => cases h
  | bool | primitive | closure | specialForm | typeTag => exact hv.elim

end Value

namespace Source

variable {comments : Bool}

/-! ### Words in another place -/

/-- A word takes along one blank at most. -/
theorem exists_spelled_of_isWord {letters after : List Char} (hword : IsWord comments letters)
    (hafter : MayFollowWord after) :
    ∃ mid, UpToBlank after mid ∧ Spelled comments (.word letters) (letters ++ after) mid := by
  have htrailing := takesAlong_splitTrailing hafter
  have hafter' := splitTrailing_append after
  generalize (splitTrailing after).1 = trailing at htrailing hafter'
  generalize (splitTrailing after).2 = mid at htrailing hafter'
  subst hafter'
  refine ⟨mid, ?_, .word hword htrailing⟩
  cases htrailing with
  | blank hc => exact .blank hc mid
  | delimiter | atEnd => exact .same _

/-- The word at the start of a text is a word before any text that may follow it. -/
theorem TokenAt.exists_spelled_word {letters text rest after : List Char}
    (h : TokenAt comments (.word letters) text rest) (hafter : MayFollowWord after) :
    ∃ mid, UpToBlank after mid ∧ Spelled comments (.word letters) (letters ++ after) mid := by
  obtain ⟨gap, start, -, -, hspelled⟩ := h
  cases hspelled with
  | bracket hc => exact ⟨after, .same after, .bracket hc after⟩
  | word hword => exact exists_spelled_of_isWord hword hafter

theorem endsWord_eq_false_of_isDigit {c : Char} (hc : c.isDigit = true) : endsWord c = false := by
  cases hend : endsWord c with
  | false => rfl
  | true =>
    simp only [endsWord, isBlank, isDelimiter, Bool.or_eq_true, beq_iff_eq] at hend
    rcases hend with (((rfl | rfl) | rfl) | rfl) |
      (((((((rfl | rfl) | rfl) | rfl) | rfl) | rfl) | rfl) | rfl) <;> cases hc

theorem isWord_of_isNumeral {n : Nat} {ds : List Char} (h : IsNumeral n ds) :
    IsWord comments ds where
  nonempty := h.nonempty
  noEnd c hc := endsWord_eq_false_of_isDigit (h.digits c hc)
  noComment _ hhead := absurd (h.digits ';' (List.mem_of_head? hhead)) (by decide)

theorem isWord_digits (a : Fixnum) : IsWord comments a.digits := by
  have hword : IsWord comments (Nat.toDigits 10 a.val.natAbs) :=
    isWord_of_isNumeral (Fixnum.isNumeral_toDigits a.val.natAbs)
  rw [Fixnum.digits]
  split
  · refine ⟨List.cons_ne_nil _ _, fun c hc => ?_, fun _ hhead => ?_⟩
    · rcases List.mem_cons.1 hc with rfl | hc
      · rfl
      · exact hword.noEnd c hc
    · cases hhead
  · exact hword

/-! ### At signs -/

/-- Only a word starts with an at sign. -/
theorem TokenAt.eq_word_of_head {token : Token} {text rest : List Char}
    (h : TokenAt comments token text rest) (hat : text.head? = some '@') :
    ∃ letters, token = .word letters ∧ letters.head? = some '@' := by
  obtain ⟨gap, start, rfl, hgap, hspelled⟩ := h
  cases hgap with
  | blank hc =>
    obtain rfl := Option.some.inj hat
    cases hc
  | comment => cases hat
  | nil =>
    cases hspelled with
    | opening | closing | literal => cases hat
    | @mark kind => cases kind <;> cases hat
    | bracket hc => rcases hc with rfl | rfl <;> cases hat
    | @word letters _ _ hword =>
      cases letters with
      | nil => exact absurd rfl hword.nonempty
      | cons c letters => exact ⟨c :: letters, rfl, hat⟩

theorem not_spelledBy_of_head {a : Fixnum} {letters : List Char}
    (hat : letters.head? = some '@') : ¬a.SpelledBy letters := by
  intro ha
  cases ha with
  | plus | minus => cases hat
  | plain h => exact absurd (h.digits '@' (List.mem_of_head? hat)) (by decide)

/-- Only a symbol has a layout that starts with an at sign. -/
theorem Layout.eq_symbol_of_head {v : Value} {text rest : List Char}
    (h : Layout comments .whole v text rest) (hat : text.head? = some '@') :
    ∃ name, v = .symbol name ∧ name.toList.head? = some '@' := by
  cases h with
  | @symbol letters _ _ h =>
    obtain ⟨letters', hletters, hhead⟩ := h.eq_word_of_head hat
    obtain rfl := Token.word.inj hletters
    exact ⟨_, rfl, by rwa [String.toList_ofList]⟩
  | integer h ha =>
    obtain ⟨letters', hletters, hhead⟩ := h.eq_word_of_head hat
    obtain rfl := Token.word.inj hletters
    exact absurd ha (not_spelledBy_of_head hhead)
  | string h | quoted h | list h =>
    obtain ⟨letters, hletters, -⟩ := h.eq_word_of_head hat
    cases hletters

/-! ### Program text is a layout -/

/-- The program text of the value is a layout of it, before any text that may follow. -/
def LaysOut (comments : Bool) (p : Place) (v : Value) : Prop :=
  match p with
  | .whole => ∀ after, MayFollowWord after →
      ∃ mid, UpToBlank after mid ∧ Layout comments .whole v (v.written .whole ++ after) mid
  | .tail => ∀ after, Layout comments .tail v (v.written .tail ++ after) after

/-- What is written after the elements of an open list may follow a word. -/
theorem mayFollowWord_written {v : Value} (hv : v.isList = true) (after : List Char) :
    MayFollowWord (v.written .tail ++ after) := by
  intro c hc
  cases v with
  | empty =>
    obtain rfl := Option.some.inj hc
    rfl
  | cons first rest =>
    rw [Value.written_tail_cons] at hc
    obtain rfl := Option.some.inj hc
    rfl
  | _ => cases hv

/-- After an opening parenthesis the elements of a list are laid out. -/
theorem layout_opening_iff {v : Value} {text rest : List Char} :
    Layout comments .whole v ('(' :: text) rest ↔ Layout comments .tail v text rest := by
  have hopening : TokenAt comments .opening ('(' :: text) text := (Spelled.opening text).tokenAt
  constructor
  · intro h
    cases h with
    | list h hv =>
      obtain ⟨-, rfl⟩ := h.unique hopening
      exact hv
    | symbol h | integer h | string h | quoted h => cases (h.unique hopening).1
  · intro h
    exact .list hopening h

/-- A list that is laid out after its opening parenthesis is laid out as it is written in a tail. -/
theorem layout_tail_written_iff {v w : Value} {inner after rest : List Char}
    (h : w.written .tail = inner ∨ w.written .tail = ' ' :: inner) :
    Layout comments .tail v (w.written .tail ++ after) rest ↔
      Layout comments .tail v (inner ++ after) rest := by
  rcases h with h | h
  · rw [h]
  · rw [h, List.cons_append]
    exact Layout.cons_blank_iff rfl

/-- The program text of a value is a layout of it if all marks stand apart. -/
theorem layout_written {p : Place} {v : Value} {text rest : List Char}
    (h : Layout comments p v text rest) (hv : v.MarksApart) : LaysOut comments p v := by
  induction h with
  | symbol h hletters =>
    intro after hafter
    obtain ⟨mid, hmid, hspelled⟩ := h.exists_spelled_word hafter
    refine ⟨mid, hmid, ?_⟩
    rw [Value.written_symbol]
    exact .symbol hspelled.tokenAt hletters
  | @integer a letters text rest h ha =>
    intro after hafter
    obtain ⟨mid, hmid, hspelled⟩ := exists_spelled_of_isWord (isWord_digits a) hafter
    refine ⟨mid, hmid, ?_⟩
    rw [Value.written_integer]
    exact .integer hspelled.tokenAt a.spelledBy_digits
  | @string body text rest h =>
    intro after _
    obtain ⟨gap, start, -, -, hspelled⟩ := h
    cases hspelled with
    | literal hbody =>
      have hspelled : Spelled comments (.literal body) _ after := .literal hbody after
      refine ⟨after, .same after, ?_⟩
      rw [Value.written_string]
      simpa using Layout.string hspelled.tokenAt
  | @quoted kind inner text mid rest h hinner ih =>
    intro after hafter
    obtain ⟨hat, hv⟩ := hv
    obtain ⟨stop, hstop, hwritten⟩ := ih hv after hafter
    -- An unquote mark stays one, for what is written after it does not start with an at sign.
    have hspelled : Spelled comments (.mark kind) _ (inner.written .whole ++ after) :=
      .mark fun hkind hhead => by
        obtain ⟨name, hname, hfirst⟩ := hwritten.eq_symbol_of_head hhead
        exact hat hkind name hname hfirst
    refine ⟨stop, hstop, ?_⟩
    rw [Value.written_quoted, List.append_assoc]
    exact .quoted hspelled.tokenAt hwritten
  | list h hlist ih =>
    intro after _
    obtain ⟨inner, hwhole, htail⟩ := Value.exists_written_of_isList hlist.isList
    refine ⟨after, .same after, ?_⟩
    rw [hwhole, List.cons_append, layout_opening_iff]
    exact (layout_tail_written_iff htail).1 (ih hv after)
  | closing h =>
    intro after
    exact .closing (Spelled.closing after).tokenAt
  | @element first others text mid rest hfirst hothers ihfirst ihothers =>
    intro after
    obtain ⟨stop, hstop, hwritten⟩ :=
      ihfirst hv.1 (others.written .tail ++ after) (mayFollowWord_written hothers.isList after)
    have hrest := hstop.layout_iff.1 (ihothers hv.2 after)
    rw [Value.written_tail_cons, List.cons_append, List.append_assoc]
    exact (Layout.cons_blank_iff rfl).2 (.element hwritten hrest)

/-- All marks in the value stand apart, if its program text is a layout of it before some text that
may follow. -/
def ApartIfLaidOut (comments : Bool) (p : Place) (v : Value) : Prop :=
  match p with
  | .whole => ∀ after mid, MayFollowWord after →
      Layout comments .whole v (v.written .whole ++ after) mid → v.MarksApart
  | .tail => ∀ after mid, Layout comments .tail v (v.written .tail ++ after) mid → v.MarksApart

/-- The program text of a value is a layout of it only if all marks stand apart. -/
theorem marksApart_of_layout_written {p : Place} {v : Value} {text rest : List Char}
    (h : Layout comments p v text rest) : ApartIfLaidOut comments p v := by
  induction h with
  | symbol | integer | string => exact fun _ _ _ _ => trivial
  | closing => exact fun _ _ _ => trivial
  | @quoted kind inner text mid rest _ _ ih =>
    intro after stop hafter hwritten
    rw [Value.written_quoted, List.append_assoc] at hwritten
    cases hwritten with
    | list _ hlist => cases hlist.isList
    | quoted hmark hinner =>
      have hat : kind = .unquote → (inner.written .whole ++ after).head? ≠ some '@' := by
        rintro rfl hhead
        obtain ⟨cs, hcs⟩ := List.head?_eq_some_iff.1 hhead
        have hsplice : Spelled comments (.mark .splice) (markSpelling .splice ++ cs) cs :=
          .mark nofun
        rw [hcs] at hmark
        cases (hmark.unique hsplice.tokenAt).1
      have hspelled : Spelled comments (.mark kind) _ (inner.written .whole ++ after) := .mark hat
      obtain ⟨-, rfl⟩ := hmark.unique hspelled.tokenAt
      refine ⟨fun hkind name hname hfirst => hat hkind ?_, ih after stop hafter hinner⟩
      subst hname
      obtain ⟨cs, hcs⟩ := List.head?_eq_some_iff.1 hfirst
      rw [← String.ofList_toList (s := name), Value.written_symbol, hcs]
      rfl
  | @list v text mid rest h hlist ih =>
    intro after stop _ hwritten
    obtain ⟨inner, hwhole, htail⟩ := Value.exists_written_of_isList hlist.isList
    rw [hwhole, List.cons_append, layout_opening_iff] at hwritten
    exact ih after stop ((layout_tail_written_iff htail).2 hwritten)
  | @element first others text mid rest hfirst hothers ihfirst ihothers =>
    intro after stop hwritten
    rw [Value.written_tail_cons, List.cons_append, List.append_assoc,
      Layout.cons_blank_iff rfl] at hwritten
    cases hwritten with
    | element hfirst' hothers' =>
      have hfollow := mayFollowWord_written hothers.isList after
      have happart := ihfirst _ _ hfollow hfirst'
      obtain ⟨mid', hmid', hfirst''⟩ := layout_written hfirst happart _ hfollow
      obtain ⟨-, rfl⟩ := hfirst'.unique hfirst''
      exact ⟨happart, ihothers after stop (hmid'.layout_iff.2 hothers')⟩

/-! ### Reading printed values -/

/-- A value that was read reads back from its program text, and uses up all of it, exactly if no
unquote mark in it runs together with a symbol. -/
theorem reads_back_iff_marksApart {start stop : Nat} {text rest : List Char} {v : Value}
    (h : read comments [] start text = .complete v stop rest) :
    (∃ w, read comments [] 0 v.text.toList = .complete w (byteSize v.text.toList) [] ∧
      w.equals v = true) ↔ v.MarksApart := by
  obtain ⟨hlayout, hnesting, -⟩ := read_eq_complete_iff.1 h
  have hend : MayFollowWord [] := nofun
  rw [Value.toList_text]
  constructor
  · rintro ⟨w, hread, hequals⟩
    obtain rfl := Value.eq_of_equals hlayout.isSyntax hequals
    obtain ⟨hwritten, -, -⟩ := read_eq_complete_iff.1 hread
    rw [← List.append_nil (w.written .whole)] at hwritten
    exact marksApart_of_layout_written hlayout [] [] hend hwritten
  · intro hv
    obtain ⟨mid, hmid, hwritten⟩ := layout_written hlayout hv [] hend
    cases hmid
    rw [List.append_nil] at hwritten
    refine ⟨v, read_eq_complete_iff.2 ⟨hwritten, hnesting, v.written .whole, ?_, ?_⟩, v.equals_refl⟩
    · rw [List.append_nil]
    · rw [Nat.zero_add]

/-- A list in which an unquote mark stands before a symbol with an at sign. -/
def unquotedAtSign : Value :=
  .ofList [.quoted .unquote (.symbol "@x")]

theorem reads_back_iff_marksApart_unquotedAtSign :
    read true [] 0 "(, @x) y".toList = .complete unquotedAtSign 6 " y".toList ∧
      ¬∃ w, read true [] 0 unquotedAtSign.text.toList =
            .complete w (byteSize unquotedAtSign.text.toList) [] ∧
          w.equals unquotedAtSign = true := by
  have hread : read true [] 0 "(, @x) y".toList = .complete unquotedAtSign 6 " y".toList := by
    with_unfolding_all rfl
  refine ⟨hread, fun hback => ?_⟩
  obtain ⟨⟨hat, -⟩, -⟩ := (reads_back_iff_marksApart hread).1 hback
  exact hat rfl "@x" rfl rfl

end Source

end ConsLisp
