import ConsLisp.Proofs.Source.Reading
import ConsLisp.Source.Forms

/-!
# Continuing a text that was not read

Reading a text can fail because the text stops too early, or because it is wrong already. In the
first case some continuation of the text is read. It is always of one form: a quote that closes the
string literal in which the text stops, or else an empty string literal, and then a closing
parenthesis for every open list. In the second case a token like the one at which reading failed
stands in the same place of every continuation, and what was read before it is still read.

A continuation can change the last token of a text: a word can grow, and an unquote mark can become
a splice mark. The continuation above starts with a quote, which no token takes in, and the token at
which reading fails does not matter beyond the level that it opens or closes.

## Main definitions

* `closings`: the closing parentheses of the open lists.
* `Reading.IsIncomplete`: reading stopped at the end of the text.

## Main results

* `exists_read_append`: a text that stops too early has a continuation that is read.
* `read_append_of_failed`: any other failure stays in every continuation.
* `incomplete_iff_exists_append`: a text that is not read is incomplete exactly if it has a
  continuation that is read; if it is not incomplete, all its continuations fail in the same way.
-/

namespace ConsLisp.Source

variable {comments : Bool}

/-! ### Failures that stay -/

theorem openLevel_eq_error_iff {levels : List Level} {level : Level} {fault : ReadFault} :
    openLevel levels level = .error fault ↔ maxNesting ≤ levels.length ∧ fault = .nesting := by
  rw [openLevel]
  split
  · next hlevels =>
    constructor
    · intro h
      cases h
    · rintro ⟨hmax, -⟩
      omega
  · next hlevels =>
    constructor
    · intro h
      exact ⟨by omega, (Except.error.inj h).symm⟩
    · rintro ⟨-, rfl⟩
      rfl

/-- A token that cannot be shifted is wrong whatever follows it. -/
theorem kind_ne_incomplete_of_shift_error {levels : List Level} {token : Token} {fault : ReadFault}
    (h : shift levels token = .error fault) : fault.kind ≠ .incomplete := by
  cases token with
  | opening | mark =>
    obtain ⟨-, rfl⟩ := openLevel_eq_error_iff.1 h
    nofun
  | literal | word => cases h
  | closing =>
    cases levels with
    | nil =>
      obtain rfl := Except.error.inj h
      nofun
    | cons level levels =>
      cases level with
      | list => cases h
      | mark =>
        obtain rfl := Except.error.inj h
        nofun

/-- Where a token stands that cannot be shifted, every continuation of the text has a token that
cannot be shifted either. -/
theorem TokenAt.append_of_shift_error {token : Token} {text rest : List Char} {levels : List Level}
    {fault : ReadFault} (h : TokenAt comments token text rest)
    (hshift : shift levels token = .error fault) (more : List Char) :
    ∃ token' rest', TokenAt comments token' (text ++ more) rest' ∧
      shift levels token' = .error fault := by
  obtain ⟨gap, start, rfl, hgap, hspelled⟩ := h
  rw [List.append_assoc]
  cases hspelled with
  | opening => exact ⟨.opening, rest ++ more, ⟨gap, _, rfl, hgap, .opening _⟩, hshift⟩
  | closing => exact ⟨.closing, rest ++ more, ⟨gap, _, rfl, hgap, .closing _⟩, hshift⟩
  | literal | bracket | word => cases hshift
  | @mark kind =>
    by_cases hat : kind = .unquote ∧ (rest ++ more).head? = some '@'
    · obtain ⟨rfl, hat⟩ := hat
      obtain ⟨cs, hcs⟩ := List.head?_eq_some_iff.1 hat
      refine ⟨.mark .splice, cs, ⟨gap, markSpelling .splice ++ cs, ?_, hgap, .mark nofun⟩,
        openLevel_eq_error_iff.2 (openLevel_eq_error_iff.1 hshift)⟩
      rw [List.append_assoc, hcs]
      rfl
    · have hspelled : Spelled comments (.mark kind) _ (rest ++ more) :=
        .mark fun hkind hhead => hat ⟨hkind, hhead⟩
      refine ⟨.mark kind, rest ++ more, ⟨gap, _, ?_, hgap, hspelled⟩, hshift⟩
      rw [List.append_assoc]

/-- At the end of a text reading is at most incomplete. -/
theorem kind_eq_incomplete_of_missingAtEnd? {levels : List Level} {fault : ReadFault}
    (h : missingAtEnd? levels = some fault) : fault.kind = .incomplete := by
  cases levels with
  | nil => cases h
  | cons level levels =>
    cases level with
    | list | mark =>
      obtain rfl := Option.some.inj h
      rfl

theorem ne_nil_of_read_eq_failed {levels : List Level} {start place : Nat} {text : List Char}
    {fault : ReadFault} (h : read comments levels start text = .failed fault place)
    (hfault : fault.kind ≠ .incomplete) : text ≠ [] := by
  rintro rfl
  rw [read] at h
  simp only [scan, splitBlank] at h
  split at h
  · cases h
  · next hmissing =>
    obtain ⟨rfl, -⟩ := Reading.failed.inj h
    exact hfault (kind_eq_incomplete_of_missingAtEnd? hmissing)

/-- A failure that is not due to the end of the text stays in every continuation. -/
theorem read_append_of_failed {levels : List Level} {start place : Nat} {text : List Char}
    {fault : ReadFault} (h : read comments levels start text = .failed fault place)
    (hfault : fault.kind ≠ .incomplete) (more : List Char) (start' : Nat) :
    ∃ place', read comments levels start' (text ++ more) = .failed fault place' := by
  fun_induction read comments levels start text generalizing start' with
  | case1 => cases h
  | case2 levels start text blank hscan fault' hmissing =>
    obtain ⟨rfl, -⟩ := Reading.failed.inj h
    exact absurd (kind_eq_incomplete_of_missingAtEnd? hmissing) hfault
  | case3 =>
    obtain ⟨rfl, -⟩ := Reading.failed.inj h
    exact absurd rfl hfault
  | case4 levels start text blank l hscan _ fault' hshift =>
    obtain ⟨rfl, -⟩ := Reading.failed.inj h
    obtain ⟨token', rest', htoken, hshift'⟩ :=
      (tokenAt_of_scan hscan).append_of_shift_error hshift more
    obtain ⟨place', hread⟩ := read_of_tokenAt htoken levels start'
    rw [hshift'] at hread
    exact ⟨place', hread⟩
  | case5 => cases h
  | case6 levels start text blank l hscan _ levels' hshift ih =>
    -- Something is left after the token, so the continuation does not touch it.
    have hrest := Interchangeable.more (ne_nil_of_read_eq_failed h hfault) more
    obtain ⟨stop, hread⟩ :=
      read_of_shift_ok ((tokenAt_of_scan hscan).append hrest) hshift start'
    obtain ⟨place', hfailed⟩ := ih h stop
    exact ⟨place', hread.trans hfailed⟩

/-! ### Texts that stop too early -/

/-- Reading stopped at the end of the text. -/
def Reading.IsIncomplete : Reading → Prop
  | .finished _ => True
  | .complete _ _ _ => False
  | .failed fault _ => fault.kind = .incomplete

/-- The closing parentheses of the open lists. -/
def closings : List Level → List Char
  | [] => []
  | .list _ :: levels => ')' :: closings levels
  | .mark _ :: levels => closings levels

/-- A value in the innermost level needs only the closing parentheses after it. -/
theorem exists_complete_of_closings (levels : List Level) (v : Value) (start : Nat) :
    ∃ w stop, (place levels v).resume comments start (closings levels) = .complete w stop [] := by
  induction levels generalizing v start with
  | nil => exact ⟨v, start, rfl⟩
  | cons level levels ih =>
    cases level with
    | mark kind => exact ih (.quoted kind v) start
    | list found =>
      have hclosing : TokenAt comments .closing (')' :: closings levels) (closings levels) :=
        (Spelled.closing _).tokenAt
      obtain ⟨stop, hread⟩ := read_of_shift_ok hclosing
        (show shift (.list (v :: found) :: levels) .closing = .ok _ from rfl) start
      obtain ⟨w, stop', hrest⟩ := ih (.unwind (v :: found) .empty) stop
      exact ⟨w, stop', hread.trans hrest⟩

/-- A string literal needs only the closing parentheses after it. -/
theorem exists_complete_of_literal {gap body : List Char} (hgap : Gap comments gap)
    (hbody : LiteralBody body) (levels : List Level) (start : Nat) :
    ∃ w stop, read comments levels start
      (gap ++ '\x22' :: (body ++ '\x22' :: closings levels)) = .complete w stop [] := by
  have hliteral : TokenAt comments (.literal body) _ (closings levels) :=
    ⟨gap, _, rfl, hgap, .literal hbody _⟩
  obtain ⟨stop, hread⟩ := read_of_shift_ok hliteral
    (show shift levels (.literal body) = .ok _ from rfl) start
  obtain ⟨w, stop', hrest⟩ := exists_complete_of_closings levels (.string (String.ofList body)) stop
  exact ⟨w, stop', hread.trans hrest⟩

/-- A body that is not closed needs a quote, and another one before it if its last backslash has no
character to take along. -/
theorem exists_literalBody_of_literalBody?_eq_none {before cs : List Char}
    (h : literalBody? before cs = none) :
    ∃ body more, LiteralBody body ∧ cs ++ '\x22' :: more = body ++ ['\x22'] := by
  fun_induction literalBody? before cs with
  | case1 => exact ⟨[], [], .nil, rfl⟩
  | case2 => exact ⟨['\\', '\x22'], ['\x22'], .escape .nil, rfl⟩
  | case3 before c cs ih =>
    obtain ⟨body, more, hbody, hmore⟩ := ih h
    exact ⟨'\\' :: c :: body, more, .escape hbody, congrArg ('\\' :: c :: ·) hmore⟩
  | case4 => cases h
  | case5 before c cs hend hpair hquote ih =>
    obtain ⟨body, more, hbody, hmore⟩ := ih h
    refine ⟨c :: body, more, .plain hquote (fun hc => ?_) hbody, congrArg (c :: ·) hmore⟩
    cases cs with
    | nil => exact hend hc rfl
    | cons d cs => exact hpair d cs hc rfl

/-- Where no comments are enabled, a text that holds only what is skipped is a gap. -/
theorem gap_of_splitBlank_eq_nil {skipped cs : List Char}
    (h : (splitBlank false false skipped cs).2 = []) : Gap false cs := by
  induction cs generalizing skipped with
  | nil => exact .nil
  | cons c cs ih =>
    rw [splitBlank] at h
    split at h
    · next hc => exact .blank hc (ih h)
    · cases h

theorem gap_of_scan_eq_finished {text blank : List Char} (h : scan false text = .finished blank) :
    Gap false text := by
  rw [scan] at h
  split at h
  · next heq => exact gap_of_splitBlank_eq_nil (congrArg Prod.snd heq)
  · split at h <;> cases h

theorem literalBody?_eq_none_of_lexeme?_eq_none {c : Char} {cs : List Char}
    (h : lexeme? c cs = none) : c = '\x22' ∧ literalBody? [] cs = none := by
  unfold lexeme? at h
  split at h
  case h_9 => exact ⟨rfl, Option.map_eq_none_iff.1 h⟩
  all_goals cases h

/-- Where no token can be made out after a gap, a string literal starts that is not closed. -/
theorem exists_of_scan_eq_unclosed {text blank rest : List Char}
    (h : scan comments text = .unclosed blank rest) :
    ∃ cs, text = blank ++ '\x22' :: cs ∧ Gap comments blank ∧ literalBody? [] cs = none := by
  rw [scan] at h
  split at h
  · cases h
  · next blank' c cs heq =>
    split at h
    · next hlexeme =>
      obtain ⟨rfl, -⟩ := Scan.unclosed.inj h
      obtain ⟨htext, hgap, -⟩ := gap_of_splitBlank heq
      obtain ⟨rfl, hcs⟩ := literalBody?_eq_none_of_lexeme?_eq_none hlexeme
      exact ⟨cs, htext, hgap, hcs⟩
    · cases h

/-- A text that stops too early has a continuation that is read. It starts with a quote. -/
theorem exists_read_append {levels : List Level} {start : Nat} {text : List Char}
    (h : (read false levels start text).IsIncomplete) :
    ∃ more, ∀ start', ∃ v stop,
      read false levels start' (text ++ '\x22' :: more) = .complete v stop [] := by
  fun_induction read false levels start text with
  | case1 levels start text blank hscan | case2 levels start text blank hscan =>
    exact ⟨'\x22' :: closings levels,
      exists_complete_of_literal (gap_of_scan_eq_finished hscan) .nil levels⟩
  | case3 levels start text blank rest hscan =>
    obtain ⟨cs, rfl, hgap, hcs⟩ := exists_of_scan_eq_unclosed hscan
    obtain ⟨body, more, hbody, hmore⟩ := exists_literalBody_of_literalBody?_eq_none hcs
    refine ⟨more ++ closings levels, fun start' => ?_⟩
    have htext : blank ++ '\x22' :: cs ++ '\x22' :: (more ++ closings levels) =
        blank ++ '\x22' :: (body ++ '\x22' :: closings levels) := by
      have hcont := congrArg (· ++ closings levels) hmore
      simpa using hcont
    rw [htext]
    exact exists_complete_of_literal hgap hbody levels start'
  | case4 levels start text blank l hscan _ fault hshift =>
    exact absurd h (kind_ne_incomplete_of_shift_error hshift)
  | case5 => exact h.elim
  | case6 levels start text blank l hscan _ levels' hshift ih =>
    obtain ⟨more, hmore⟩ := ih h
    refine ⟨more, fun start' => ?_⟩
    have hrest : Interchangeable l.rest (l.rest ++ '\x22' :: more) := .moreFromDelimiter _ rfl more
    obtain ⟨stop, hread⟩ :=
      read_of_shift_ok ((tokenAt_of_scan hscan).append hrest) hshift start'
    obtain ⟨v, stop', hcomplete⟩ := hmore stop
    exact ⟨v, stop', hread.trans hcomplete⟩

/-! ### Reading one form -/

/-- The outcome of reading one form, by what reading comes to at the start of the text. -/
theorem readOne_eq (text : String) :
    readOne text =
      match read false [] 0 text.toList with
      | .finished _ => .error ⟨ReadFault.blank.kind, ReadFault.blank.message, none⟩
      | .complete v stop _ => .ok ⟨v, stop⟩
      | .failed fault place => .error (fault.inText text.toList place) := by
  rw [readOne, Stream.next, Stream.ofText]
  simp only [Bool.false_eq_true, if_false]
  cases read false [] 0 text.toList <;> rfl

theorem isSyntax_of_readOne {text : String} {form : Form} (h : readOne text = .ok form) :
    form.value.IsSyntax := by
  rw [readOne_eq] at h
  split at h <;> cases h
  next hread =>
    obtain ⟨hlayout, -, -⟩ := read_eq_complete_iff.1 hread
    exact hlayout.isSyntax

/-- A form is not read because the text stops too early or because it is wrong. -/
theorem readOne_error_cases {text : String} {e : SyntaxError} (h : readOne text = .error e) :
    (read false [] 0 text.toList).IsIncomplete ∧ e.kind = .incomplete ∨
      ∃ fault place, read false [] 0 text.toList = .failed fault place ∧
        fault.kind ≠ .incomplete ∧ e.kind = fault.kind := by
  rw [readOne_eq] at h
  cases hread : read false [] 0 text.toList with
  | finished stop =>
    rw [hread] at h
    obtain rfl := Except.error.inj h
    exact .inl ⟨trivial, rfl⟩
  | complete =>
    rw [hread] at h
    cases h
  | failed fault place =>
    rw [hread] at h
    obtain rfl := Except.error.inj h
    by_cases hfault : fault.kind = .incomplete
    · exact .inl ⟨hfault, hfault⟩
    · exact .inr ⟨fault, place, rfl, hfault, rfl⟩

/-- A text that is not read is incomplete exactly if it has a continuation that is read. If it is
invalid or nests too deeply, so do all its continuations. -/
theorem incomplete_iff_exists_append {text : String} {e : SyntaxError}
    (h : readOne text = .error e) :
    (e.kind = .incomplete ↔ ∃ more form, readOne (text ++ more) = .ok form) ∧
      (e.kind = .invalid ∨ e.kind = .tooDeep →
        ∀ more, ∃ e', readOne (text ++ more) = .error e' ∧ e'.kind = e.kind) := by
  rcases readOne_error_cases h with ⟨hread, he⟩ | ⟨fault, place, hread, hfault, he⟩
  · obtain ⟨more, hmore⟩ := exists_read_append hread
    obtain ⟨v, stop, hcomplete⟩ := hmore 0
    refine ⟨⟨fun _ => ⟨String.ofList ('\x22' :: more), ⟨v, stop⟩, ?_⟩, fun _ => he⟩, ?_⟩
    · rw [readOne_eq, String.toList_append, String.toList_ofList, hcomplete]
    · rintro (hkind | hkind) <;> cases he.symm.trans hkind
  · have hfailed : ∀ more, ∃ e', readOne (text ++ more) = .error e' ∧ e'.kind = e.kind := by
      intro more
      obtain ⟨place', hread'⟩ := read_append_of_failed hread hfault more.toList 0
      refine ⟨fault.inText (text ++ more).toList place', ?_, he.symm⟩
      rw [readOne_eq, String.toList_append, hread']
    refine ⟨⟨fun hkind => absurd (he.symm.trans hkind) hfault, ?_⟩, fun _ => hfailed⟩
    rintro ⟨more, form, hform⟩
    obtain ⟨e', herror, -⟩ := hfailed more
    cases hform.symm.trans herror

/-- A list that ends inside a string literal, after a backslash. -/
def openText : String :=
  "('a \x22b\\"

/-- A list with a quote mark before its closing parenthesis. -/
def strayText : String :=
  "(a ')"

theorem incomplete_iff_exists_append_openText :
    (∃ e, readOne openText = .error e ∧ e.kind = .incomplete ∧
        ∃ more form, readOne (openText ++ more) = .ok form) ∧
      ∃ e, readOne strayText = .error e ∧
        ∀ more, ∃ e', readOne (strayText ++ more) = .error e' ∧ e'.kind = .invalid := by
  have hreadOpen : read false [] 0 openText.toList = .failed .openString 4 := by
    with_unfolding_all rfl
  have hopen : readOne openText = .error (ReadFault.openString.inText openText.toList 4) := by
    rw [readOne_eq, hreadOpen]
  have hreadStray : read false [] 0 strayText.toList = .failed .strayClosing 5 := by
    with_unfolding_all rfl
  have hstray : readOne strayText = .error (ReadFault.strayClosing.inText strayText.toList 5) := by
    rw [readOne_eq, hreadStray]
  refine ⟨⟨_, hopen, rfl, (incomplete_iff_exists_append hopen).1.1 rfl⟩, _, hstray, fun more => ?_⟩
  exact (incomplete_iff_exists_append hstray).2 (.inl rfl) more

end ConsLisp.Source
