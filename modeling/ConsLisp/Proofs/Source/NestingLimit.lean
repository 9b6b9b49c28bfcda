import ConsLisp.Proofs.Source.Continuation
import ConsLisp.Proofs.Source.RoundTrip

/-!
# The limit on nesting is exact

What is read never has more than `maxNesting` levels. In the other direction the limit is the only
thing that keeps the text of a value from being read: if the symbols and strings in a value are ones
that the reader yields, and its marks stand apart, then its text is read as this value when the
value has at most `maxNesting` levels, and it is refused for its nesting when it has more. The
levels of different elements of a list do not add up.

## Main definitions

* `Value.IsReadable`: a value made of lists, quote marks, integers, and symbols and strings that the
  reader yields.
* `StopsAtLimit`: the reader refuses a text for its nesting, with the given number of levels open.

## Main results

* `exists_layout`: a readable value is laid out in some text.
* `read_of_deep_layout`: the reader stops in a layout of a value that nests too deeply.
* `nesting_limit_exact`: what is read, and what is refused for its nesting only.
-/

namespace ConsLisp

open Source (readOne Layout)

namespace Value

/-- The reader yields the value for some text. -/
def IsYielded (v : Value) : Prop :=
  ∃ text form, readOne text = .ok form ∧ form.value = v

/-- A value made of proper lists, quote marks, integers, and symbols and strings that the reader
yields. -/
def IsReadable : Value → Prop
  | empty | integer _ => True
  | symbol name => (symbol name).IsYielded
  | string text => (string text).IsYielded
  | cons first rest => first.IsReadable ∧ rest.isList = true ∧ rest.IsReadable
  | quoted _ inner => inner.IsReadable
  | bool _ | primitive _ _ | closure _ _ _ _ _ _ | specialForm _ | typeTag _ => False

end Value

namespace Source

/-! ### Readable values have layouts -/

theorem exists_layout_of_isYielded {v : Value} (h : v.IsYielded) :
    ∃ text, Layout false .whole v text [] := by
  obtain ⟨text, form, hread, rfl⟩ := h
  rw [readOne_eq] at hread
  split at hread <;> cases hread
  next v stop rest hread =>
    obtain ⟨-, -, used, -, -, hlayout⟩ :=
      (read_accepts_layouts false 0 text.toList v).2 stop rest hread
    exact ⟨used, hlayout⟩

/-- A mark before a blank is that mark, whatever follows. -/
theorem tokenAt_mark_blank (kind : QuoteKind) (text : List Char) :
    TokenAt false (.mark kind) (markSpelling kind ++ ' ' :: text) (' ' :: text) := by
  have hspelled : Spelled false (.mark kind) _ (' ' :: text) :=
    .mark fun _ => by simp
  exact hspelled.tokenAt

/-- A list that is laid out after an opening parenthesis is laid out with it. -/
theorem exists_layout_of_tail {v : Value} (h : ∃ text, Layout false .tail v text []) :
    (∃ text, Layout false .whole v text []) ∧
      (v.isList = true → ∃ text, Layout false .tail v text []) := by
  obtain ⟨text, htail⟩ := h
  exact ⟨⟨'(' :: text, layout_opening_iff.2 htail⟩, fun _ => ⟨text, htail⟩⟩

/-- A readable value is laid out in some text, and a list also after an opening parenthesis. Blanks
keep apart what might run together. -/
theorem exists_layout {v : Value} (hv : v.IsReadable) :
    (∃ text, Layout false .whole v text []) ∧
      (v.isList = true → ∃ text, Layout false .tail v text []) := by
  induction v with
  | empty => exact exists_layout_of_tail ⟨[')'], .closing (Spelled.closing []).tokenAt⟩
  | cons first rest ihfirst ihrest =>
    obtain ⟨hfirst, hisList, hrest⟩ := hv
    obtain ⟨text, hfirst⟩ := (ihfirst hfirst).1
    obtain ⟨others, hothers⟩ := (ihrest hrest).2 hisList
    have hblank : isBlank ' ' = true := rfl
    obtain ⟨mid, hmid, hfirst⟩ := hfirst.append_blank hblank others
    have hothers := hmid.layout_iff.1 ((Layout.cons_blank_iff hblank).2 hothers)
    exact exists_layout_of_tail ⟨_, .element hfirst hothers⟩
  | quoted kind inner ih =>
    obtain ⟨text, hinner⟩ := (ih hv).1
    have hblank : isBlank ' ' = true := rfl
    exact ⟨⟨_, .quoted (tokenAt_mark_blank kind text) ((Layout.cons_blank_iff hblank).2 hinner)⟩,
      nofun⟩
  | integer a =>
    have hend : MayFollowWord [] := nofun
    obtain ⟨mid, hmid, hspelled⟩ := exists_spelled_of_isWord (isWord_digits a) hend
    cases hmid
    exact ⟨⟨_, .integer hspelled.tokenAt a.spelledBy_digits⟩, nofun⟩
  | symbol name => exact ⟨exists_layout_of_isYielded hv, nofun⟩
  | string text => exact ⟨exists_layout_of_isYielded hv, nofun⟩
  | bool | primitive | closure | specialForm | typeTag => exact hv.elim

theorem Layout.isYielded {v : Value} {text rest : List Char}
    (h : Layout false .whole v text rest) (hnesting : v.nesting ≤ maxNesting) : v.IsYielded := by
  obtain ⟨used, -, rfl, -⟩ := h.interchange
  have hread : read false [] 0 (used ++ rest) = .complete v (0 + byteSize used) rest :=
    read_eq_complete_iff.2 ⟨h, hnesting, used, rfl, rfl⟩
  refine ⟨String.ofList (used ++ rest), ⟨v, 0 + byteSize used⟩, ?_, rfl⟩
  rw [readOne_eq, String.toList_ofList, hread]

/-- Whatever is laid out is readable. -/
theorem Layout.isReadable {p : Place} {v : Value} {text rest : List Char}
    (h : Layout false p v text rest) : v.IsReadable := by
  induction h with
  | symbol h hletters => exact (Layout.symbol h hletters).isYielded (Nat.zero_le _)
  | string h => exact (Layout.string h).isYielded (Nat.zero_le _)
  | integer | closing => trivial
  | quoted _ _ ih | list _ _ ih => exact ih
  | element _ hothers ihfirst ihothers => exact ⟨ihfirst, hothers.isList, ihothers⟩

/-! ### Values that nest too deeply -/

variable {comments : Bool}

/-- The reader refuses the text for its nesting, with any levels open in which the value nests too
deeply. -/
def StopsAtLimit (comments : Bool) (p : Place) (v : Value) (text : List Char) : Prop :=
  match p with
  | .whole => ∀ levels start, levels.length ≤ maxNesting → maxNesting < levels.length + v.nesting →
      ∃ stop, read comments levels start text = .failed .nesting stop
  | .tail => ∀ found levels start, levels.length < maxNesting →
      maxNesting < levels.length + v.nesting →
      ∃ stop, read comments (.list found :: levels) start text = .failed .nesting stop

/-- A token that opens one level too many is refused. -/
theorem read_of_openLevel {token : Token} {text mid : List Char} {levels : List Level}
    (level : Level) (h : TokenAt comments token text mid)
    (hshift : shift levels token = openLevel levels level) (hlevels : levels.length ≤ maxNesting)
    (hopened : levels.length < maxNesting → ∀ start,
      ∃ stop, read comments (level :: levels) start mid = .failed .nesting stop) (start : Nat) :
    ∃ stop, read comments levels start text = .failed .nesting stop := by
  obtain hlt | heq := Nat.lt_or_eq_of_le hlevels
  · obtain ⟨stop, hread⟩ := read_of_shift_ok h (hshift.trans (openLevel_of_lt hlt level)) start
    obtain ⟨stop', hfailed⟩ := hopened hlt stop
    exact ⟨stop', hread.trans hfailed⟩
  · obtain ⟨stop, hread⟩ := read_of_tokenAt h levels start
    rw [hshift, openLevel, if_neg (by omega)] at hread
    exact ⟨stop, hread⟩

/-- The reader stops in a layout of a value that nests too deeply. -/
theorem read_of_deep_layout {p : Place} {v : Value} {text rest : List Char}
    (h : Layout comments p v text rest) : StopsAtLimit comments p v text := by
  induction h with
  | symbol | integer | string =>
    intro levels start hlevels hdeep
    exact absurd hlevels (Nat.not_le_of_lt hdeep)
  | @quoted kind inner text mid rest h _ ih =>
    intro levels start hlevels hdeep
    rw [Value.nesting] at hdeep
    refine read_of_openLevel (.mark kind) h rfl hlevels (fun hlt stop => ?_) start
    refine ih (.mark kind :: levels) stop hlt ?_
    rw [List.length_cons]
    omega
  | @list v text mid rest h _ ih =>
    intro levels start hlevels hdeep
    exact read_of_openLevel (.list []) h rfl hlevels (fun hlt stop => ih [] levels stop hlt hdeep)
      start
  | closing =>
    intro found levels start hlevels hdeep
    rw [Value.nesting] at hdeep
    omega
  | @element first others text mid rest hfirst _ ihfirst ihothers =>
    intro found levels start hlevels hdeep
    rw [Value.nesting] at hdeep
    obtain hfits | hdeeper := Nat.lt_or_ge maxNesting (levels.length + 1 + first.nesting) |>.symm
    · -- The reader gets past the first element and stops in another one.
      obtain ⟨stop, hread⟩ := read_of_layout hfirst (.list found :: levels) start hfits
      obtain ⟨stop', hfailed⟩ := ihothers (first :: found) levels stop hlevels (by omega)
      exact ⟨stop', hread.trans hfailed⟩
    · exact ihfirst (.list found :: levels) start hlevels hdeeper

/-! ### The limit -/

theorem nesting_le_of_next {s s' : Stream} {v : Value} (h : s.next = (some (.ok v), s')) :
    v.nesting ≤ maxNesting := by
  unfold Stream.next at h
  split at h
  · cases h
  · split at h <;> cases h
    next hread => exact nesting_le_of_read (show LevelsFit [] from trivial) hread

/-- The limit on nesting is exact. Wherever a stream stands in its source, and whether or not there
are comments, what it yields has at most 256 levels. The text of a readable value whose marks stand
apart is read as this value if it has at most 256 levels, and otherwise it is refused for its
nesting. All that is read is readable. -/
theorem nesting_limit_exact :
    (∀ (s s' : Stream) (v : Value), s.next = (some (.ok v), s') → v.nesting ≤ 256) ∧
    (∀ (text : String) (form : Form), readOne text = .ok form → form.value.IsReadable) ∧
    ∀ v : Value, v.IsReadable → v.MarksApart →
      (v.nesting ≤ 256 → readOne v.text = .ok ⟨v, byteSize v.text.toList⟩) ∧
      (256 < v.nesting → ∃ e, readOne v.text = .error e ∧ e.kind = .tooDeep) := by
  refine ⟨fun s s' v => nesting_le_of_next, fun text form h => ?_, fun v hreadable hapart => ?_⟩
  · rw [readOne_eq] at h
    split at h <;> cases h
    next hread => exact (read_eq_complete_iff.1 hread).1.isReadable
  obtain ⟨text, hsome⟩ := (exists_layout hreadable).1
  have hend : MayFollowWord [] := nofun
  obtain ⟨mid, hmid, hlayout⟩ := layout_written hsome hapart [] hend
  cases hmid
  rw [List.append_nil, ← Value.toList_text] at hlayout
  rw [readOne_eq]
  refine ⟨fun hnesting => ?_, fun hdeep => ?_⟩
  · have hread := (read_accepts_layouts false 0 v.text.toList v).1 hlayout hnesting
    rw [hread, Nat.zero_add]
  · have hdeep : maxNesting < 0 + v.nesting := (Nat.zero_add v.nesting).symm ▸ hdeep
    obtain ⟨stop, hread⟩ := read_of_deep_layout hlayout [] 0 (Nat.zero_le _) hdeep
    rw [hread]
    exact ⟨_, rfl, rfl⟩

/-- A symbol in `n` lists, each after a quote mark. -/
def alternating : (n : Nat) → Value
  | 0 => .symbol "x"
  | n + 1 => .quoted .quote (.ofList [alternating n])

theorem isReadable_alternating (n : Nat) : (alternating n).IsReadable := by
  induction n with
  | zero =>
    have hread : read false [] 0 "x".toList = .complete (.symbol "x") 1 [] := by
      with_unfolding_all rfl
    exact (read_eq_complete_iff.1 hread).1.isReadable
  | succ n ih => exact ⟨ih, rfl, trivial⟩

theorem marksApart_alternating (n : Nat) : (alternating n).MarksApart := by
  induction n with
  | zero => trivial
  | succ n ih => exact ⟨nofun, ih, trivial⟩

theorem nesting_alternating (n : Nat) : (alternating n).nesting = 2 * n := by
  induction n with
  | zero => rfl
  | succ n ih =>
    change max ((alternating n).nesting + 1) 1 + 1 = 2 * (n + 1)
    omega

theorem nesting_limit_exact_alternating :
    readOne (alternating 128).text = .ok ⟨alternating 128, byteSize (alternating 128).text.toList⟩ ∧
      ∃ e, readOne (Value.ofList [alternating 128]).text = .error e ∧ e.kind = .tooDeep := by
  have hnesting := nesting_alternating 128
  have hreadable := isReadable_alternating 128
  have hapart := marksApart_alternating 128
  have hlist : (Value.ofList [alternating 128]).IsReadable := ⟨hreadable, rfl, trivial⟩
  have hlistApart : (Value.ofList [alternating 128]).MarksApart := ⟨hapart, trivial⟩
  have hdeep : 256 < (Value.ofList [alternating 128]).nesting := by
    change 256 < max ((alternating 128).nesting + 1) 1
    omega
  exact ⟨(nesting_limit_exact.2.2 _ hreadable hapart).1 (by omega),
    (nesting_limit_exact.2.2 _ hlist hlistApart).2 hdeep⟩

end Source

end ConsLisp
