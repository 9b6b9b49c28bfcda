import ConsLisp.Proofs.Source.Reading
import ConsLisp.Source.Forms

/-!
# Sources joined by a newline

Reading a source to its end and then another one yields the same forms as reading both as one
source, with a newline in between. The newline keeps the last token of the first source apart from
the first token of the second: a word takes it along, and a comment ends with it. The second source
ends in the same fault alone and after the first, or in none; only positions, and so the excerpt
that a syntax error shows, differ.

## Main definitions

* `Reading.moved`: a reading whose positions count from further ahead.
* `Scan.behind`: a scan with a gap before what it found.
* `Yields`: the values of the forms of a text, and the fault in which it ends.
* `SyntaxError.bare`: a syntax error without the excerpt that it shows.

## Main results

* `read_moved`: reading does not depend on where a text stands in its source.
* `Yields.unique`: a text yields one sequence of values and ends in one way.
* `Yields.append`: what two texts yield when a newline joins them.
* `Yields.isSyntax`: a text yields nothing but what can be written down.
* `exists_yields_readForms`: the forms of a source are those that its text yields.
* `readForms_joined`: the forms of two sources joined by a newline, and the syntax error in which
  they end.
-/

namespace ConsLisp.Source

variable {comments : Bool}

/-! ### Reading at another position -/

/-- The reading whose positions lie `n` bytes further. -/
def Reading.moved (n : Nat) : Reading → Reading
  | .finished stop => .finished (stop + n)
  | .complete v stop rest => .complete v (stop + n) rest
  | .failed fault place => .failed fault (place + n)

/-- Reading does not depend on where a text stands in its source. -/
theorem read_moved (levels : List Level) (start n : Nat) (text : List Char) :
    read comments levels (start + n) text = (read comments levels start text).moved n := by
  fun_induction read comments levels start text with
  | case1 levels start text blank hscan hmissing =>
    rw [read_eq, hscan]
    simp only [hmissing, Reading.moved]
    rw [Nat.add_right_comm]
  | case2 levels start text blank hscan fault hmissing =>
    rw [read_eq, hscan]
    simp only [hmissing, Reading.moved]
    rw [Nat.add_right_comm]
  | case3 levels start text blank rest hscan =>
    rw [read_eq, hscan]
    simp only [Reading.moved]
    rw [Nat.add_right_comm]
  | case4 levels start text blank l hscan stop fault hshift =>
    rw [read_eq, hscan]
    simp only [hshift, Reading.moved, stop]
    congr 1
    omega
  | case5 levels start text blank l hscan stop v hshift =>
    rw [read_eq, hscan]
    simp only [hshift, Progress.resume, Reading.moved, stop]
    congr 1
    omega
  | case6 levels start text blank l hscan stop levels' hshift ih =>
    rw [← ih, read_eq, hscan]
    simp only [hshift, Progress.resume, stop]
    congr 1
    omega

/-- Reading from a position is reading from the start, with the positions moved. -/
theorem read_eq_moved (levels : List Level) (start : Nat) (text : List Char) :
    read comments levels start text = (read comments levels 0 text).moved start := by
  rw [← read_moved, Nat.zero_add]

/-! ### Blanks between two texts -/

/-- A newline ends the comment in which a blank text may end. -/
theorem splitBlank_append_newline {inComment : Bool} {skipped blank text : List Char}
    (h : splitBlank comments inComment skipped text = (blank, [])) (more : List Char) :
    splitBlank comments inComment skipped (text ++ '\n' :: more) =
      splitBlank comments false ('\n' :: blank.reverse) more := by
  induction text generalizing inComment skipped with
  | nil =>
    obtain rfl : skipped.reverse = blank := by
      cases inComment <;> exact congrArg Prod.fst h
    rw [List.reverse_reverse]
    cases inComment <;> rfl
  | cons c text ih =>
    cases inComment with
    | true => exact ih h
    | false =>
      rw [List.cons_append, splitBlank]
      rw [splitBlank] at h
      split
      · next hc =>
        rw [if_pos hc] at h
        exact ih h
      · next hc =>
        rw [if_neg hc] at h
        split
        · next hcomment =>
          rw [if_pos hcomment] at h
          exact ih h
        · next hcomment =>
          rw [if_neg hcomment] at h
          cases h

/-- What was skipped before does not matter to what is skipped. -/
theorem splitBlank_eq (inComment : Bool) (skipped text : List Char) :
    splitBlank comments inComment skipped text =
      (skipped.reverse ++ (splitBlank comments inComment [] text).1,
        (splitBlank comments inComment [] text).2) := by
  induction text generalizing inComment skipped with
  | nil => cases inComment <;> simp [splitBlank]
  | cons c text ih =>
    cases inComment with
    | true =>
      simp only [splitBlank]
      rw [ih _ (c :: skipped), ih _ [c]]
      simp
    | false =>
      simp only [splitBlank]
      split
      · rw [ih _ (c :: skipped), ih _ [c]]
        simp
      · split
        · rw [ih _ (c :: skipped), ih _ [c]]
          simp
        · simp

/-- The scan of a text that has a gap before it. -/
def Scan.behind (gap : List Char) : Scan → Scan
  | .finished blank => .finished (gap ++ blank)
  | .unclosed blank rest => .unclosed (gap ++ blank) rest
  | .found blank l => .found (gap ++ blank) l

/-- A text after which the blanks of a second one are skipped as if they stood at its start. -/
theorem read_eq_moved_of_splitBlank {gap text text' : List Char}
    (h : splitBlank comments false [] text' = splitBlank comments false gap.reverse text)
    (levels : List Level) (start : Nat) :
    read comments levels start text' = (read comments levels start text).moved (byteSize gap) := by
  have hscan : scan comments text' = (scan comments text).behind gap := by
    rw [scan, h, splitBlank_eq, List.reverse_reverse, scan]
    generalize splitBlank comments false [] text = split
    obtain ⟨blank, rest⟩ := split
    cases rest with
    | nil => rfl
    | cons c cs =>
      simp only
      cases lexeme? c cs <;> rfl
  rw [← read_moved, read_eq, hscan, read_eq]
  cases scan comments text with
  | finished blank =>
    simp only [Scan.behind, byteSize_append, Nat.add_assoc]
  | unclosed blank rest =>
    simp only [Scan.behind, byteSize_append, Nat.add_assoc]
  | found blank l =>
    simp only [Scan.behind, byteSize_append, Nat.add_assoc]

/-! ### Readings that find no expression -/

theorem ne_nil_of_place {levels levels' : List Level} {v : Value}
    (h : place levels v = .pending levels') : levels' ≠ [] := by
  induction levels generalizing v with
  | nil => cases h
  | cons level levels ih =>
    cases level with
    | list found =>
      obtain rfl := Progress.pending.inj h
      exact List.cons_ne_nil _ _
    | mark kind => exact ih h

/-- A token that does not complete an expression leaves a level open. -/
theorem ne_nil_of_shift {levels levels' : List Level} {token : Token}
    (h : shift levels token = .ok (.pending levels')) : levels' ≠ [] := by
  cases token with
  | opening | mark =>
    obtain ⟨-, hlevels⟩ := openLevel_eq_ok h
    obtain rfl := Progress.pending.inj hlevels
    exact List.cons_ne_nil _ _
  | closing =>
    obtain ⟨found, outer, -, hplace⟩ := shift_closing_eq_ok h
    exact ne_nil_of_place hplace.symm
  | literal | word => exact ne_nil_of_place (Except.ok.inj h)

/-- Reading finds no expression only where nothing but blanks is left. -/
theorem scan_of_read_eq_finished {levels : List Level} {start stop : Nat} {text : List Char}
    (h : read comments levels start text = .finished stop) :
    levels = [] ∧ scan comments text = .finished text := by
  fun_induction read comments levels start text with
  | case1 levels start text blank hscan hmissing =>
    have htext := text_scan comments text
    rw [hscan] at htext
    obtain rfl : blank = text := htext
    refine ⟨?_, hscan⟩
    cases levels with
    | nil => rfl
    | cons level levels => cases level <;> cases hmissing
  | case6 levels start text blank l hscan _ levels' hshift ih =>
    exact absurd (ih h).1 (ne_nil_of_shift hshift)
  | _ => cases h

theorem splitBlank_of_scan_eq_finished {text blank : List Char}
    (h : scan comments text = .finished blank) : splitBlank comments false [] text = (blank, []) := by
  rw [scan] at h
  split at h
  · next hsplit =>
    obtain rfl := Scan.finished.inj h
    exact hsplit
  · split at h <;> cases h

/-- A text of blanks and the newline after it are skipped. -/
theorem read_append_of_finished {text : List Char} {stop : Nat}
    (h : read comments [] 0 text = .finished stop) (more : List Char) :
    read comments [] 0 (text ++ '\n' :: more) =
      (read comments [] 0 more).moved (byteSize (text ++ ['\n'])) := by
  refine read_eq_moved_of_splitBlank ?_ [] 0
  rw [List.reverse_append, List.reverse_singleton, List.singleton_append]
  exact splitBlank_append_newline
    (splitBlank_of_scan_eq_finished (scan_of_read_eq_finished h).2) more

theorem read_nil : read comments [] 0 [] = .finished 0 := by
  rw [read_eq]
  rfl

/-! ### Readings that find an expression -/

/-- Reading takes a value that the text starts with. -/
theorem exists_read_of_layout {v : Value} {text rest : List Char}
    (h : Layout comments .whole v text rest) (hv : v.nesting ≤ maxNesting) :
    ∃ stop, read comments [] 0 text = .complete v stop rest :=
  read_of_layout h [] 0 (by simpa using hv)

/-- Reading takes the same value when a newline and more text follow. If the value ends the text, it
may take the newline along. -/
theorem read_append_of_complete {text rest : List Char} {v : Value} {stop : Nat}
    (h : read comments [] 0 text = .complete v stop rest) (more : List Char) :
    ∃ stop' mid, read comments [] 0 (text ++ '\n' :: more) = .complete v stop' mid ∧
      (mid = rest ++ '\n' :: more ∨ rest = [] ∧ mid = more) := by
  obtain ⟨hlayout, hnesting, -⟩ := read_eq_complete_iff.1 h
  by_cases hrest : rest = []
  · subst hrest
    obtain ⟨mid, hmid, hjoined⟩ := hlayout.append_blank (show isBlank '\n' = true from rfl) more
    obtain ⟨stop', hread⟩ := exists_read_of_layout hjoined hnesting
    refine ⟨stop', mid, hread, ?_⟩
    cases hmid with
    | same => exact .inl rfl
    | blank => exact .inr ⟨rfl, rfl⟩
  · obtain ⟨stop', hread⟩ := exists_read_of_layout (hlayout.append hrest ('\n' :: more)) hnesting
    exact ⟨stop', _, hread, .inl rfl⟩

/-! ### What a text yields -/

/-- The text yields the given values one after the other and then ends, in a fault or at its end. -/
inductive Yields (comments : Bool) : List Char → List Value → Option ReadFault → Prop
  | finished {text : List Char} {stop : Nat} (h : read comments [] 0 text = .finished stop) :
      Yields comments text [] none
  | failed {text : List Char} {fault : ReadFault} {place : Nat}
      (h : read comments [] 0 text = .failed fault place) : Yields comments text [] (some fault)
  | form {text rest : List Char} {v : Value} {vs : List Value} {stop : Nat}
      {fault? : Option ReadFault} (h : read comments [] 0 text = .complete v stop rest)
      (hrest : Yields comments rest vs fault?) : Yields comments text (v :: vs) fault?

namespace Yields

variable {text text' : List Char} {vs vs' : List Value} {fault? fault?' : Option ReadFault}

/-- A text yields one sequence of values and ends in one way. -/
theorem unique (h : Yields comments text vs fault?) (h' : Yields comments text vs' fault?') :
    vs = vs' ∧ fault? = fault?' := by
  induction h generalizing vs' fault?' with
  | finished h =>
    cases h' with
    | finished => exact ⟨rfl, rfl⟩
    | failed h' | form h' => cases h.symm.trans h'
  | failed h =>
    cases h' with
    | failed h' =>
      obtain ⟨rfl, -⟩ := Reading.failed.inj (h.symm.trans h')
      exact ⟨rfl, rfl⟩
    | finished h' | form h' => cases h.symm.trans h'
  | form h _ ih =>
    cases h' with
    | form h' hrest' =>
      obtain ⟨rfl, -, rfl⟩ := Reading.complete.inj (h.symm.trans h')
      obtain ⟨rfl, rfl⟩ := ih hrest'
      exact ⟨rfl, rfl⟩
    | finished h' | failed h' => cases h.symm.trans h'

/-- A text on which reading comes to the same, positions apart, yields the same. -/
theorem of_read_eq_moved (h : Yields comments text vs fault?) {n : Nat}
    (hread : read comments [] 0 text' = (read comments [] 0 text).moved n) :
    Yields comments text' vs fault? := by
  cases h with
  | finished h => exact .finished (hread.trans (congrArg (Reading.moved n) h))
  | failed h => exact .failed (hread.trans (congrArg (Reading.moved n) h))
  | form h hrest => exact .form (hread.trans (congrArg (Reading.moved n) h)) hrest

/-- What two texts yield when a newline joins them, the first one being read to its end. -/
theorem append (h : Yields comments text vs none) (h' : Yields comments text' vs' fault?) :
    Yields comments (text ++ '\n' :: text') (vs ++ vs') fault? := by
  generalize hend : none = fault?' at h
  induction h with
  | finished h => exact h'.of_read_eq_moved (read_append_of_finished h text')
  | failed => cases hend
  | form h hrest ih =>
    obtain ⟨stop, mid, hread, rfl | ⟨rfl, rfl⟩⟩ := read_append_of_complete h text'
    · exact .form hread (ih hend)
    · obtain ⟨rfl, -⟩ := hrest.unique (.finished read_nil)
      exact .form hread h'

/-- A text yields nothing but what can be written down. -/
theorem isSyntax (h : Yields comments text vs fault?) : ∀ v ∈ vs, v.IsSyntax := by
  induction h with
  | finished | failed => exact List.forall_mem_nil _
  | form h _ ih =>
    obtain ⟨hlayout, -, -⟩ := read_eq_complete_iff.1 h
    exact List.forall_mem_cons.2 ⟨hlayout.isSyntax, ih⟩

end Yields

/-! ### The forms of a source -/

/-- The failure without the excerpt that it shows. -/
def SyntaxError.bare (e : SyntaxError) : SyntaxError :=
  { e with excerpt? := none }

/-- The syntax error of a fault, without an excerpt. -/
def ReadFault.bare (fault : ReadFault) : SyntaxError :=
  ⟨fault.kind, fault.message, none⟩

namespace Forms

/-- The values of the forms. -/
def values (source : Forms) : List Value :=
  source.forms.map Form.value

end Forms

namespace Stream

/-- What a stream yields next, by what reading comes to. -/
theorem next_eq {s : Stream} (hs : s.failed = false) :
    s.next =
      match read s.comments [] s.position s.rest with
      | .finished stop => (none, { s with rest := [], position := stop })
      | .complete v stop rest => (some (.ok v), { s with rest := rest, position := stop })
      | .failed fault place =>
        (some (.error (fault.inText s.source place)), { s with failed := true }) := by
  rw [next, hs]
  rfl

/-- A stream collects what its text yields. -/
theorem exists_yields_collect {s : Stream} (hs : s.failed = false) (found : List Form) :
    ∃ vs fault?, Yields s.comments s.rest vs fault? ∧
      (s.collect found).values = found.reverse.map Form.value ++ vs ∧
      (s.collect found).error?.map SyntaxError.bare = fault?.map ReadFault.bare := by
  fun_induction Stream.collect found s with
  | case1 found s s' hnext =>
    rw [next_eq hs, read_eq_moved] at hnext
    refine ⟨[], none, ?_, (List.append_nil _).symm, rfl⟩
    cases hread : read s.comments [] 0 s.rest with
    | finished stop => exact .finished hread
    | complete | failed =>
      rw [hread] at hnext
      cases congrArg Prod.fst hnext
  | case2 found s e s' hnext =>
    rw [next_eq hs, read_eq_moved] at hnext
    cases hread : read s.comments [] 0 s.rest with
    | failed fault place =>
      rw [hread] at hnext
      obtain ⟨he, -⟩ := Prod.mk.inj hnext
      obtain rfl := Except.error.inj (Option.some.inj he)
      exact ⟨[], some fault, .failed hread, (List.append_nil _).symm, rfl⟩
    | complete | finished =>
      rw [hread] at hnext
      cases congrArg Prod.fst hnext
  | case3 found s v s' hnext ih =>
    rw [next_eq hs, read_eq_moved] at hnext
    cases hread : read s.comments [] 0 s.rest with
    | complete w stop rest =>
      rw [hread] at hnext
      obtain ⟨hv, rfl⟩ := Prod.mk.inj hnext
      obtain rfl := Except.ok.inj (Option.some.inj hv)
      obtain ⟨vs, fault?, hyields, hvalues, herror⟩ := ih hs
      refine ⟨w :: vs, fault?, .form hread hyields, ?_, herror⟩
      rw [hvalues]
      simp
    | finished | failed =>
      rw [hread] at hnext
      cases congrArg Prod.fst hnext

end Stream

/-- Reading a source gives the forms that its text yields. -/
theorem exists_yields_readForms (comments : Bool) (source : String) :
    ∃ fault?, Yields comments source.toList (readForms comments source).values fault? ∧
      (readForms comments source).error?.map SyntaxError.bare = fault?.map ReadFault.bare := by
  obtain ⟨vs, fault?, hyields, hvalues, herror⟩ :=
    Stream.exists_yields_collect (s := Stream.ofText comments source) rfl []
  rw [List.reverse_nil, List.map_nil, List.nil_append] at hvalues
  exact ⟨fault?, hvalues ▸ hyields, herror⟩

theorem isSyntax_of_mem_readForms {source : String} {form : Form}
    (h : form ∈ (readForms comments source).forms) : form.value.IsSyntax := by
  obtain ⟨fault?, hyields, -⟩ := exists_yields_readForms comments source
  exact hyields.isSyntax form.value (List.mem_map_of_mem h)

/-- The forms of two sources joined by a newline, and the syntax error in which they end, positions
apart. The first source is read to its end without a syntax error. -/
theorem readForms_joined {s₁ s₂ : String} (h : (readForms comments s₁).error? = none) :
    (readForms comments (s₁ ++ "\n" ++ s₂)).values =
        (readForms comments s₁).values ++ (readForms comments s₂).values ∧
      (readForms comments (s₁ ++ "\n" ++ s₂)).error?.map SyntaxError.bare =
        (readForms comments s₂).error?.map SyntaxError.bare := by
  obtain ⟨fault₁, hyields₁, herror₁⟩ := exists_yields_readForms comments s₁
  obtain ⟨fault₂, hyields₂, herror₂⟩ := exists_yields_readForms comments s₂
  obtain ⟨fault, hyields, herror⟩ := exists_yields_readForms comments (s₁ ++ "\n" ++ s₂)
  obtain rfl : fault₁ = none := by
    rw [h] at herror₁
    exact Option.map_eq_none_iff.1 herror₁.symm
  have hjoined : (s₁ ++ "\n" ++ s₂).toList = s₁.toList ++ '\n' :: s₂.toList := by
    simp
  rw [hjoined] at hyields
  obtain ⟨hvalues, rfl⟩ := hyields.unique (hyields₁.append hyields₂)
  exact ⟨hvalues, herror.trans herror₂.symm⟩

end ConsLisp.Source
