import ConsLisp.Proofs.Source.Layout

/-!
# Reading accepts exactly the layouts

The reader keeps a stack of open levels and shifts one token after the other. Against the grammar of
layouts this is a machine, and the two are compared level by level. In one direction a layout drives
the machine from any stack that is low enough to the same stack with the value placed on it. In the
other, what a stack still demands of the text is written down as `Awaits` and `Closes`, and every
run that completes an expression meets the demand.

## Main definitions

* `Progress.resume`: what reading comes to after a token.
* `Closes`, `Awaits`: what the open levels demand of the text.
* `LevelsFit`: stacks from which no expression nests too deeply.

## Main results

* `read_of_layout`: the reader goes through a layout.
* `awaits_of_read`, `nesting_le_of_read`: an expression that is read meets what the levels demand,
  and does not nest too deeply.
* `read_eq_complete_iff`: reading completes a value exactly on its layouts.
* `read_accepts_layouts`: every layout is read, and whatever is read is a layout.
-/

namespace ConsLisp.Source

variable {comments : Bool}

/-! ### Reading one token -/

/-- What reading comes to after a token that was shifted with this effect. -/
def Progress.resume (comments : Bool) (stop : Nat) (rest : List Char) : Progress → Reading
  | .complete v => .complete v stop rest
  | .pending levels => read comments levels stop rest

/-- What reading comes to, by what stands at the start of the text. -/
theorem read_eq (levels : List Level) (start : Nat) (text : List Char) :
    read comments levels start text =
      match scan comments text with
      | .finished blank =>
        match missingAtEnd? levels with
        | none => .finished (start + byteSize blank)
        | some fault => .failed fault (start + byteSize blank)
      | .unclosed blank _ => .failed .openString (start + byteSize blank)
      | .found blank l =>
        let stop := start + byteSize blank + byteSize l.token.spelling + byteSize l.trailing
        match shift levels l.token with
        | .error fault => .failed fault stop
        | .ok progress => progress.resume comments stop l.rest := by
  rw [read]
  split
  · next hscan => cases missingAtEnd? levels <;> simp only [hscan]
  · next hscan => simp only [hscan]
  · next l hscan =>
    simp only [hscan]
    cases shift levels l.token with
    | error fault => rfl
    | ok progress => cases progress <;> rfl

/-- Reading takes the token at the start of the text. -/
theorem read_of_tokenAt {token : Token} {text mid : List Char} (h : TokenAt comments token text mid)
    (levels : List Level) (start : Nat) :
    ∃ stop, read comments levels start text =
      match shift levels token with
      | .error fault => .failed fault stop
      | .ok progress => progress.resume comments stop mid := by
  obtain ⟨blank, trailing, hscan⟩ := scan_of_tokenAt h
  refine ⟨start + byteSize blank + byteSize token.spelling + byteSize trailing, ?_⟩
  rw [read_eq, hscan]

theorem read_of_shift_ok {token : Token} {text mid : List Char} {levels : List Level}
    {progress : Progress} (h : TokenAt comments token text mid)
    (hshift : shift levels token = .ok progress) (start : Nat) :
    ∃ stop, read comments levels start text = progress.resume comments stop mid := by
  obtain ⟨stop, hread⟩ := read_of_tokenAt h levels start
  rw [hshift] at hread
  exact ⟨stop, hread⟩

/-- Reading an expression uses up a part of the text. -/
theorem exists_used_of_read {levels : List Level} {start stop : Nat} {text rest : List Char}
    {v : Value} (h : read comments levels start text = .complete v stop rest) :
    ∃ used, text = used ++ rest ∧ stop = start + byteSize used := by
  fun_induction read comments levels start text with
  | case5 levels start text blank l hscan _ v' hshift =>
    obtain ⟨-, rfl, rfl⟩ := Reading.complete.inj h
    have htext := text_scan comments text
    rw [hscan] at htext
    refine ⟨blank ++ (l.token.spelling ++ l.trailing), ?_, ?_⟩
    · rw [← htext, Scan.text, Lexeme.text]
      simp
    · simp only [byteSize_append]
      omega
  | case6 levels start text blank l hscan _ levels' hshift ih =>
    obtain ⟨used, hused, rfl⟩ := ih h
    have htext := text_scan comments text
    rw [hscan] at htext
    refine ⟨blank ++ (l.token.spelling ++ (l.trailing ++ used)), ?_, ?_⟩
    · rw [← htext, Scan.text, Lexeme.text, hused]
      simp
    · simp only [byteSize_append]
      omega
  | _ => cases h

theorem openLevel_of_lt {levels : List Level} (h : levels.length < maxNesting) (level : Level) :
    openLevel levels level = .ok (.pending (level :: levels)) :=
  if_pos h

theorem wordValue_of_spelledBy {a : Fixnum} {letters : List Char} (h : a.SpelledBy letters) :
    wordValue letters = .integer a := by
  rw [wordValue, Fixnum.ofWord?_eq_some_iff.2 h]

theorem wordValue_of_forall_not {letters : List Char} (h : ∀ a : Fixnum, ¬a.SpelledBy letters) :
    wordValue letters = .symbol (String.ofList letters) := by
  have hnone : Fixnum.ofWord? letters = none := by
    cases hword : Fixnum.ofWord? letters with
    | none => rfl
    | some a => exact absurd (Fixnum.ofWord?_eq_some_iff.1 hword) (h a)
  rw [wordValue, hnone]

/-! ### The reader goes through a layout -/

/-- The reader takes the value at the start of the text, with any levels open in which the value
does not nest too deeply, and goes on with `rest`. -/
def GoesThrough (comments : Bool) (p : Place) (v : Value) (text rest : List Char) : Prop :=
  match p with
  | .whole => ∀ levels start, levels.length + v.nesting ≤ maxNesting →
      ∃ stop, read comments levels start text = (place levels v).resume comments stop rest
  | .tail => ∀ found levels start, levels.length + v.nesting ≤ maxNesting →
      ∃ stop, read comments (.list found :: levels) start text =
        (place levels (.unwind found v)).resume comments stop rest

theorem nesting_pos_of_isList {v : Value} (h : v.isList = true) : 0 < v.nesting := by
  cases v with
  | empty => exact Nat.one_pos
  | cons first rest => exact Nat.lt_of_lt_of_le (Nat.succ_pos _) (Nat.le_max_left _ _)
  | _ => cases h

theorem read_of_layout {p : Place} {v : Value} {text rest : List Char}
    (h : Layout comments p v text rest) : GoesThrough comments p v text rest := by
  induction h with
  | symbol h hletters =>
    intro levels start _
    refine read_of_shift_ok h ?_ start
    rw [shift, wordValue_of_forall_not hletters]
  | integer h ha =>
    intro levels start _
    refine read_of_shift_ok h ?_ start
    rw [shift, wordValue_of_spelledBy ha]
  | string h =>
    intro levels start _
    exact read_of_shift_ok h rfl start
  | @quoted kind inner text mid rest h _ ih =>
    intro levels start hfit
    have hlevels : levels.length < maxNesting := by
      rw [Value.nesting] at hfit
      omega
    obtain ⟨stop, hread⟩ := read_of_shift_ok h (openLevel_of_lt hlevels (.mark kind)) start
    obtain ⟨stop', hrest⟩ := ih (.mark kind :: levels) stop (by
      rw [Value.nesting] at hfit
      rw [List.length_cons]
      omega)
    exact ⟨stop', hread.trans hrest⟩
  | @list v text mid rest h hv ih =>
    intro levels start hfit
    have hpos := nesting_pos_of_isList hv.isList
    have hlevels : levels.length < maxNesting := by omega
    obtain ⟨stop, hread⟩ := read_of_shift_ok h (openLevel_of_lt hlevels (.list [])) start
    obtain ⟨stop', hrest⟩ := ih [] levels stop hfit
    exact ⟨stop', hread.trans hrest⟩
  | closing h =>
    intro found levels start _
    exact read_of_shift_ok h rfl start
  | @element first others text mid rest _ _ ihfirst ihothers =>
    intro found levels start hfit
    have hmax := Nat.max_le.1 (Nat.le_sub_of_add_le' hfit)
    obtain ⟨stop, hread⟩ := ihfirst (.list found :: levels) start (by
      rw [List.length_cons]
      omega)
    obtain ⟨stop', hrest⟩ := ihothers (first :: found) levels stop (by omega)
    exact ⟨stop', hread.trans hrest⟩

/-! ### What is read is a layout -/

/-- The text that has to follow a value inside the given levels: it completes them, innermost first,
to the value `v`, before `rest`. -/
def Closes (comments : Bool) : List Level → Value → List Char → Value → List Char → Prop
  | [], w, text, v, rest => w = v ∧ text = rest
  | .list found :: levels, w, text, v, rest =>
    ∃ others mid, Layout comments .tail others text mid ∧
      Closes comments levels (.unwind (w :: found) others) mid v rest
  | .mark kind :: levels, w, text, v, rest => Closes comments levels (.quoted kind w) text v rest

/-- The text that has to follow while the given levels are open: it completes them, innermost first,
to the value `v`, before `rest`. -/
def Awaits (comments : Bool) : List Level → List Char → Value → List Char → Prop
  | .list found :: levels, text, v, rest =>
    ∃ others mid, Layout comments .tail others text mid ∧
      Closes comments levels (.unwind found others) mid v rest
  | levels, text, v, rest =>
    ∃ w mid, Layout comments .whole w text mid ∧ Closes comments levels w mid v rest

/-- A whole value meets the demand of open levels when the text after it closes them. -/
theorem awaits_of_layout {levels : List Level} {w v : Value} {text mid rest : List Char}
    (h : Layout comments .whole w text mid) (hcloses : Closes comments levels w mid v rest) :
    Awaits comments levels text v rest := by
  cases levels with
  | nil => exact ⟨w, mid, h, hcloses⟩
  | cons level levels =>
    cases level with
    | mark kind => exact ⟨w, mid, h, hcloses⟩
    | list found =>
      obtain ⟨others, mid', hothers, hcloses⟩ := hcloses
      exact ⟨.cons w others, mid', .element h hothers, hcloses⟩

/-- What is demanded of the text after a token. -/
def Progress.Demands (comments : Bool) (text : List Char) (v : Value) (rest : List Char) :
    Progress → Prop
  | .complete w => w = v ∧ text = rest
  | .pending levels => Awaits comments levels text v rest

theorem closes_of_demands {levels : List Level} {w v : Value} {text rest : List Char}
    (h : (place levels w).Demands comments text v rest) : Closes comments levels w text v rest := by
  induction levels generalizing w with
  | nil => exact h
  | cons level levels ih =>
    cases level with
    | list found => exact h
    | mark kind => exact ih h

theorem openLevel_eq_ok {levels : List Level} {level : Level} {progress : Progress}
    (h : openLevel levels level = .ok progress) :
    levels.length < maxNesting ∧ progress = .pending (level :: levels) := by
  rw [openLevel] at h
  split at h
  · next hlevels => exact ⟨hlevels, (Except.ok.inj h).symm⟩
  · cases h

theorem shift_closing_eq_ok {levels : List Level} {progress : Progress}
    (h : shift levels .closing = .ok progress) :
    ∃ found outer, levels = .list found :: outer ∧
      progress = place outer (.unwind found .empty) := by
  cases levels with
  | nil => cases h
  | cons level outer =>
    cases level with
    | list found => exact ⟨found, outer, rfl, (Except.ok.inj h).symm⟩
    | mark kind => cases h

/-- The layout of the value of a word. -/
theorem layout_wordValue {letters text rest : List Char}
    (h : TokenAt comments (.word letters) text rest) :
    Layout comments .whole (wordValue letters) text rest := by
  cases hword : Fixnum.ofWord? letters with
  | some a =>
    have ha := Fixnum.ofWord?_eq_some_iff.1 hword
    rw [wordValue_of_spelledBy ha]
    exact .integer h ha
  | none =>
    have hletters : ∀ a : Fixnum, ¬a.SpelledBy letters := fun a ha => by
      rw [Fixnum.ofWord?_eq_some_iff.2 ha] at hword
      cases hword
    rw [wordValue_of_forall_not hletters]
    exact .symbol h hletters

/-- A token that is shifted meets the demand of the levels before it together with the text that
meets the demand after it. -/
theorem awaits_of_shift {levels : List Level} {token : Token} {progress : Progress}
    {text mid rest : List Char} {v : Value} (h : TokenAt comments token text mid)
    (hshift : shift levels token = .ok progress)
    (hdemands : progress.Demands comments mid v rest) : Awaits comments levels text v rest := by
  cases token with
  | opening =>
    obtain ⟨-, rfl⟩ := openLevel_eq_ok hshift
    obtain ⟨elements, mid', helements, hcloses⟩ := hdemands
    exact awaits_of_layout (.list h helements) hcloses
  | mark kind =>
    obtain ⟨-, rfl⟩ := openLevel_eq_ok hshift
    obtain ⟨inner, mid', hinner, hcloses⟩ := hdemands
    exact awaits_of_layout (.quoted h hinner) hcloses
  | closing =>
    obtain ⟨found, outer, rfl, rfl⟩ := shift_closing_eq_ok hshift
    exact ⟨.empty, mid, .closing h, closes_of_demands hdemands⟩
  | literal body =>
    obtain rfl := Except.ok.inj hshift
    exact awaits_of_layout (.string h) (closes_of_demands hdemands)
  | word letters =>
    obtain rfl := Except.ok.inj hshift
    exact awaits_of_layout (layout_wordValue h) (closes_of_demands hdemands)

/-- Reading completes an expression only when the text meets what the open levels demand. -/
theorem awaits_of_read {levels : List Level} {start stop : Nat} {text rest : List Char} {v : Value}
    (h : read comments levels start text = .complete v stop rest) :
    Awaits comments levels text v rest := by
  fun_induction read comments levels start text with
  | case5 levels start text blank l hscan _ w hshift =>
    obtain ⟨rfl, -, rfl⟩ := Reading.complete.inj h
    exact awaits_of_shift (tokenAt_of_scan hscan) hshift ⟨rfl, rfl⟩
  | case6 levels start text blank l hscan _ levels' hshift ih =>
    exact awaits_of_shift (tokenAt_of_scan hscan) hshift (ih h)
  | _ => cases h

/-! ### The bound on nesting -/

/-- No level is open beyond the bound, and none holds an element that nests too deeply. -/
def LevelsFit : List Level → Prop
  | [] => True
  | .list found :: levels =>
    levels.length < maxNesting ∧ (∀ v ∈ found, levels.length + (v.nesting + 1) ≤ maxNesting) ∧
      LevelsFit levels
  | .mark _ :: levels => levels.length < maxNesting ∧ LevelsFit levels

/-- The result of a step respects the bound. -/
def Progress.Fits : Progress → Prop
  | .complete v => v.nesting ≤ maxNesting
  | .pending levels => LevelsFit levels

theorem fits_place {levels : List Level} {v : Value} (hlevels : LevelsFit levels)
    (hv : levels.length + v.nesting ≤ maxNesting) : (place levels v).Fits := by
  induction levels generalizing v with
  | nil =>
    rw [List.length_nil, Nat.zero_add] at hv
    exact hv
  | cons level levels ih =>
    rw [List.length_cons] at hv
    cases level with
    | list found =>
      obtain ⟨hlength, hfound, hlevels⟩ := hlevels
      refine ⟨hlength, fun w hw => ?_, hlevels⟩
      rcases List.mem_cons.1 hw with rfl | hw
      · omega
      · exact hfound w hw
    | mark kind =>
      refine ih hlevels.2 ?_
      rw [Value.nesting]
      omega

theorem fits_of_shift {levels : List Level} {token : Token} {progress : Progress}
    (hlevels : LevelsFit levels) (hlength : levels.length ≤ maxNesting)
    (hshift : shift levels token = .ok progress) : progress.Fits := by
  cases token with
  | opening =>
    obtain ⟨hlt, rfl⟩ := openLevel_eq_ok hshift
    exact ⟨hlt, nofun, hlevels⟩
  | mark kind =>
    obtain ⟨hlt, rfl⟩ := openLevel_eq_ok hshift
    exact ⟨hlt, hlevels⟩
  | closing =>
    obtain ⟨found, outer, rfl, rfl⟩ := shift_closing_eq_ok hshift
    obtain ⟨houter, hfound, hlevels⟩ := hlevels
    refine fits_place hlevels ?_
    have hnesting : (Value.unwind found .empty).nesting ≤ maxNesting - outer.length := by
      refine Value.nesting_unwind_le_iff.2 ⟨fun v hv => ?_, ?_⟩
      · exact Nat.le_sub_of_add_le' (hfound v hv)
      · exact Nat.le_sub_of_add_le' houter
    omega
  | literal body =>
    obtain rfl := Except.ok.inj hshift
    exact fits_place hlevels hlength
  | word letters =>
    obtain rfl := Except.ok.inj hshift
    refine fits_place hlevels ?_
    have hword : (wordValue letters).nesting = 0 := by
      rw [wordValue]
      split <;> rfl
    omega

theorem LevelsFit.length_le {levels : List Level} (h : LevelsFit levels) :
    levels.length ≤ maxNesting := by
  cases levels with
  | nil => exact Nat.zero_le _
  | cons level levels =>
    cases level with
    | list found => exact h.1
    | mark kind => exact h.1

/-- An expression that is read does not nest too deeply. -/
theorem nesting_le_of_read {levels : List Level} {start stop : Nat} {text rest : List Char}
    {v : Value} (hlevels : LevelsFit levels)
    (h : read comments levels start text = .complete v stop rest) : v.nesting ≤ maxNesting := by
  fun_induction read comments levels start text with
  | case5 levels start text blank l hscan _ w hshift =>
    obtain ⟨rfl, -, -⟩ := Reading.complete.inj h
    exact fits_of_shift hlevels hlevels.length_le hshift
  | case6 levels start text blank l hscan _ levels' hshift ih =>
    exact ih (fits_of_shift hlevels hlevels.length_le hshift) h
  | _ => cases h

/-! ### Reading an expression -/

/-- Reading completes a value exactly when the text starts with a layout of it, provided the value
does not nest too deeply. -/
theorem read_eq_complete_iff {start stop : Nat} {text rest : List Char} {v : Value} :
    read comments [] start text = .complete v stop rest ↔
      Layout comments .whole v text rest ∧ v.nesting ≤ maxNesting ∧
        ∃ used, text = used ++ rest ∧ stop = start + byteSize used := by
  constructor
  · intro h
    obtain ⟨w, mid, hlayout, rfl, rfl⟩ := awaits_of_read h
    exact ⟨hlayout, nesting_le_of_read (show LevelsFit [] from trivial) h, exists_used_of_read h⟩
  · rintro ⟨hlayout, hnesting, used, hused, rfl⟩
    obtain ⟨stop, hread⟩ := read_of_layout hlayout [] start (by simpa using hnesting)
    obtain ⟨used', hused', rfl⟩ := exists_used_of_read hread
    obtain rfl := List.append_cancel_right (hused.symm.trans hused')
    exact hread

/-- The reader accepts exactly the layouts of values: a layout of a value that does not nest too
deeply is read as this value, and what is used up for a value that is read is a layout of it. -/
theorem read_accepts_layouts (comments : Bool) (start : Nat) (text : List Char) (v : Value) :
    (Layout comments .whole v text [] → v.nesting ≤ maxNesting →
        read comments [] start text = .complete v (start + byteSize text) []) ∧
      ∀ stop rest, read comments [] start text = .complete v stop rest →
        v.IsSyntax ∧ v.nesting ≤ maxNesting ∧
          ∃ used, text = used ++ rest ∧ stop = start + byteSize used ∧
            Layout comments .whole v used [] := by
  constructor
  · intro hlayout hnesting
    exact read_eq_complete_iff.2 ⟨hlayout, hnesting, text, (List.append_nil text).symm, rfl⟩
  · intro stop rest h
    obtain ⟨hlayout, hnesting, used, rfl, rfl⟩ := read_eq_complete_iff.1 h
    obtain ⟨used', -, hused', hinterchange⟩ := hlayout.interchange
    obtain rfl := List.append_cancel_right hused'
    have halone := hinterchange [] (.atEnd rest)
    rw [List.append_nil] at halone
    exact ⟨hlayout.isSyntax, hnesting, used, rfl, rfl, halone⟩

/-- A list with a comment before it, a string with an escaped quote, a bracket, an integer with a
sign and a leading zero, and two quote marks. -/
def mixedText : List Char :=
  "; c\n ('a \"q\\\"\" [+07,@b) x".toList

/-- The list in `mixedText`. -/
def mixedValue : Value :=
  .ofList [.quoted .quote (.symbol "a"), .string "q\\\"", .symbol "[", .integer 7,
    .quoted .splice (.symbol "b")]

theorem read_accepts_layouts_mixedText :
    read true [] 0 mixedText = .complete mixedValue 23 " x".toList ∧
      ∃ used, mixedText = used ++ " x".toList ∧ Layout true .whole mixedValue used [] ∧
        read true [] 0 used = .complete mixedValue (0 + byteSize used) [] := by
  have hread : read true [] 0 mixedText = .complete mixedValue 23 " x".toList := by
    with_unfolding_all rfl
  obtain ⟨-, hnesting, used, htext, -, hlayout⟩ :=
    (read_accepts_layouts true 0 mixedText mixedValue).2 23 " x".toList hread
  exact ⟨hread, used, htext, hlayout,
    (read_accepts_layouts true 0 used mixedValue).1 hlayout hnesting⟩

end ConsLisp.Source
