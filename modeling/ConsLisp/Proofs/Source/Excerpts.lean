import ConsLisp.Source.SyntaxError

/-!
# What an excerpt shows

An excerpt shows the text from the first whole character at or after a byte position, as far as its
length allows, on a single line. A mark at its start tells that text before it is left out, and a
mark at its end that text after it is. The mark at the start is honest. The mark at the end is
honest if a character starts at the byte position; if the position lies inside a character, the mark
stands there even when the excerpt reaches the end of the text.

## Main definitions

* `IsBoundary`: the byte positions between the characters of a text.
* `Window`: a text cut in three; `Window.IsAt`: the cut that an excerpt makes.
* `Window.marked`: a window on a single line, between marks.

## Main results

* `Window.IsAt.unique`: there is one cut at a byte position.
* `around_shows_window`: the excerpt of a syntax error, with its marks.
* `marked_though_complete`: the mark at the end of an excerpt that reaches the end of the text.
-/

namespace ConsLisp.Source

/-- A byte position at which a character of the text starts, or at which the text ends. -/
def IsBoundary (text : List Char) (n : Nat) : Prop :=
  ∃ before after, text = before ++ after ∧ byteSize before = n

/-- A text in three parts, of which the one in the middle is shown. -/
structure Window where
  before : List Char
  shown : List Char
  after : List Char

namespace Window

/-- The part that is shown starts at the first boundary at or after the byte position `start`, and
has the length of an excerpt, or less if the text ends before. -/
structure IsAt (w : Window) (text : List Char) (start : Nat) : Prop where
  text_eq : text = w.before ++ (w.shown ++ w.after)
  start_le : start ≤ byteSize w.before
  first {n : Nat} : IsBoundary text n → start ≤ n → byteSize w.before ≤ n
  length_le : w.shown.length ≤ excerptLength
  length_eq : w.after ≠ [] → w.shown.length = excerptLength

/-- What is shown, on a single line, with a mark before it and a mark after it as is told. -/
def marked (w : Window) (cutBefore cutAfter : Prop) [Decidable cutBefore] [Decidable cutAfter] :
    List Char :=
  (if cutBefore then cutMark else []) ++ w.shown.flatMap inLine ++ (if cutAfter then cutMark else [])

end Window

/-! ### Boundaries -/

/-- The text up to the first whole character that starts at byte `n` or later. -/
def takeBytes : Nat → List Char → List Char
  | 0, _ => []
  | _ + 1, [] => []
  | n + 1, c :: cs => c :: takeBytes (n + 1 - c.utf8Size) cs

theorem takeBytes_append_dropBytes (n : Nat) (text : List Char) :
    takeBytes n text ++ dropBytes n text = text := by
  fun_induction takeBytes n text with
  | case1 text => rw [dropBytes, List.nil_append]
  | case2 => rfl
  | case3 n c cs ih => rw [dropBytes, List.cons_append, ih]

/-- The first whole character at or after a byte of the text starts there or later. -/
theorem le_byteSize_takeBytes {n : Nat} {text : List Char} (h : n ≤ byteSize text) :
    n ≤ byteSize (takeBytes n text) := by
  fun_induction takeBytes n text with
  | case1 => exact Nat.zero_le _
  | case2 n => exact h
  | case3 n c cs ih =>
    rw [byteSize_cons] at h ⊢
    have hrest := ih (by omega)
    omega

/-- No character starts in between. -/
theorem byteSize_takeBytes_le {n k : Nat} {text : List Char} (hk : IsBoundary text k) (hn : n ≤ k) :
    byteSize (takeBytes n text) ≤ k := by
  obtain ⟨before, after, rfl, rfl⟩ := hk
  induction before generalizing n with
  | nil =>
    obtain rfl : n = 0 := Nat.le_zero.1 hn
    simp only [takeBytes, Nat.le_refl]
  | cons c before ih =>
    cases n with
    | zero =>
      rw [takeBytes]
      exact Nat.zero_le _
    | succ n =>
      rw [byteSize_cons] at hn
      have hrest := ih (n := n + 1 - c.utf8Size) (by omega)
      rw [List.cons_append, takeBytes, byteSize_cons, byteSize_cons]
      omega

/-- Two parts of one text that start it and have the same size are the same. -/
theorem eq_of_append_eq_of_byteSize_eq {p p' q q' : List Char} (h : p ++ q = p' ++ q')
    (hsize : byteSize p = byteSize p') : p = p' ∧ q = q' := by
  induction p generalizing p' with
  | nil =>
    cases p' with
    | nil => exact ⟨rfl, h⟩
    | cons c p' =>
      have hpos : 0 < byteSize (c :: p') := byteSize_pos (List.cons_ne_nil c p')
      rw [← hsize] at hpos
      exact absurd hpos (Nat.lt_irrefl 0)
  | cons c p ih =>
    cases p' with
    | nil =>
      have hpos : 0 < byteSize (c :: p) := byteSize_pos (List.cons_ne_nil c p)
      rw [hsize] at hpos
      exact absurd hpos (Nat.lt_irrefl 0)
    | cons d p' =>
      rw [List.cons_append, List.cons_append] at h
      obtain ⟨rfl, hrest⟩ := List.cons.inj h
      rw [byteSize_cons, byteSize_cons] at hsize
      obtain ⟨rfl, rfl⟩ := ih hrest (Nat.add_left_cancel hsize)
      exact ⟨rfl, rfl⟩

/-! ### Windows -/

/-- The window of a text that an excerpt shows. -/
def windowAt (text : List Char) (start : Nat) : Window where
  before := takeBytes start text
  shown := (dropBytes start text).take excerptLength
  after := (dropBytes start text).drop excerptLength

theorem isAt_windowAt {text : List Char} {start : Nat} (h : start ≤ byteSize text) :
    (windowAt text start).IsAt text start where
  text_eq := by
    rw [windowAt, List.take_append_drop, takeBytes_append_dropBytes]
  start_le := le_byteSize_takeBytes h
  first := byteSize_takeBytes_le
  length_le := List.length_take_le _ _
  length_eq hafter := by
    have hlt : excerptLength < (dropBytes start text).length := by
      rw [← Nat.not_le, ← List.drop_eq_nil_iff]
      exact hafter
    exact List.length_take_of_le (Nat.le_of_lt hlt)

namespace Window.IsAt

variable {w w' : Window} {text : List Char} {start : Nat}

/-- The part that is shown is as long as it may be. -/
theorem shown_eq (h : w.IsAt text start) : (w.shown ++ w.after).take excerptLength = w.shown := by
  by_cases hafter : w.after = []
  · rw [hafter, List.append_nil]
    exact List.take_of_length_le h.length_le
  · exact List.take_left' (h.length_eq hafter)

/-- There is one window at a byte position. -/
theorem unique (h : w.IsAt text start) (h' : w'.IsAt text start) : w = w' := by
  have hsize : byteSize w.before = byteSize w'.before :=
    Nat.le_antisymm (h.first ⟨_, _, h'.text_eq, rfl⟩ h'.start_le)
      (h'.first ⟨_, _, h.text_eq, rfl⟩ h.start_le)
  obtain ⟨hbefore, hrest⟩ :=
    eq_of_append_eq_of_byteSize_eq (h.text_eq.symm.trans h'.text_eq) hsize
  have hshown : w.shown = w'.shown := by
    rw [← h.shown_eq, ← h'.shown_eq, hrest]
  rw [hshown] at hrest
  have hafter : w.after = w'.after := List.append_cancel_left hrest
  cases w
  cases w'
  cases hbefore
  cases hshown
  cases hafter
  rfl

/-- Nothing stands before what is shown exactly if it starts with the text. -/
theorem before_ne_nil_iff (h : w.IsAt text start) : w.before ≠ [] ↔ 0 < start := by
  constructor
  · intro hbefore
    refine Nat.pos_of_ne_zero fun hstart => ?_
    have hle : byteSize w.before ≤ 0 := h.first ⟨[], text, rfl, rfl⟩ (Nat.le_of_eq hstart)
    exact absurd (byteSize_pos hbefore) (Nat.not_lt.2 hle)
  · rintro hstart hbefore
    have hle := h.start_le
    rw [hbefore, byteSize_nil] at hle
    omega

/-- What is shown starts after the byte position exactly if this lies inside a character. -/
theorem start_lt_iff (h : w.IsAt text start) :
    start < byteSize w.before ↔ ¬IsBoundary text start := by
  constructor
  · intro hlt hstart
    exact absurd (h.first hstart (Nat.le_refl _)) (Nat.not_le.2 hlt)
  · intro hstart
    refine Nat.lt_of_le_of_ne h.start_le fun heq => ?_
    exact hstart ⟨_, _, h.text_eq, heq.symm⟩

/-- The sum of the byte position and of the size of what is shown falls short of the text if
something stands after what is shown, but also if what is shown starts after the byte position. -/
theorem size_lt_iff (h : w.IsAt text start) :
    start + byteSize w.shown < byteSize text ↔ w.after ≠ [] ∨ start < byteSize w.before := by
  have hstart := h.start_le
  have hsize : byteSize text = byteSize w.before + (byteSize w.shown + byteSize w.after) := by
    rw [h.text_eq, byteSize_append, byteSize_append]
  by_cases hafter : w.after = []
  · rw [hafter, byteSize_nil] at hsize
    simp only [hafter, ne_eq, not_true_eq_false, false_or]
    omega
  · have hpos := byteSize_pos hafter
    simp only [hafter, ne_eq, not_false_eq_true, true_or, iff_true]
    omega

end Window.IsAt

/-- An excerpt shows the window that starts twenty bytes before the error. -/
theorem excerpt_eq_marked {text : List Char} {offset : Nat} {w : Window}
    (h : w.IsAt text (offset - excerptLead)) (hoffset : offset ≤ byteSize text) :
    excerpt text offset =
      w.marked (w.before ≠ []) (w.after ≠ [] ∨ offset - excerptLead < byteSize w.before) := by
  have hle : offset - excerptLead ≤ byteSize text := Nat.le_trans (Nat.sub_le _ _) hoffset
  obtain rfl := h.unique (isAt_windowAt hle)
  have hbefore := h.before_ne_nil_iff
  have hafter := h.size_lt_iff
  rw [Window.marked, excerpt]
  simp only [hbefore, ← hafter]
  rfl

/-- A syntax error shows the window of the text that starts twenty bytes before the error, with a
mark before it exactly if something stands before it. The mark after it stands there exactly if
something stands after it or if its byte position lies inside a character. -/
theorem around_shows_window (kind : SyntaxErrorKind) (message : String) (text : List Char)
    (offset : Nat) (hoffset : offset ≤ byteSize text) :
    ∃ w : Window, w.IsAt text (offset - excerptLead) ∧
      (SyntaxError.around kind message text offset).excerpt? = some (String.ofList
        (w.marked (w.before ≠ []) (w.after ≠ [] ∨ offset - excerptLead < byteSize w.before))) ∧
      (offset - excerptLead < byteSize w.before ↔ ¬IsBoundary text (offset - excerptLead)) := by
  have hle : offset - excerptLead ≤ byteSize text := Nat.le_trans (Nat.sub_le _ _) hoffset
  have hwindow := isAt_windowAt hle
  refine ⟨_, hwindow, ?_, hwindow.start_lt_iff⟩
  rw [SyntaxError.around, excerpt_eq_marked hwindow hoffset]

/-- A list that is not closed, with an accent in front of nineteen other letters. -/
def openAccentedList : List Char :=
  '(' :: 'é' :: List.replicate 19 'a'

/-- Twenty bytes before the end of this text is the second byte of the accented letter. -/
theorem around_shows_window_openAccentedList :
    22 ≤ byteSize openAccentedList ∧
      (ReadFault.openList.inText openAccentedList 22).excerpt? = some "[...]aaaaaaaaaaaaaaaaaaa[...]" ∧
      ∃ w : Window, w.IsAt openAccentedList 2 ∧
        (ReadFault.openList.inText openAccentedList 22).excerpt? = some (String.ofList
          (w.marked (w.before ≠ []) (w.after ≠ [] ∨ 2 < byteSize w.before))) ∧
        (2 < byteSize w.before ↔ ¬IsBoundary openAccentedList 2) :=
  ⟨by decide, by decide, around_shows_window _ _ openAccentedList 22 (by decide)⟩

/-- The mark at the end is not always honest: the excerpt of this text at its end shows all nineteen
letters, and yet a mark follows them. -/
theorem marked_though_complete :
    ¬∀ (text : List Char) (offset : Nat), offset ≤ byteSize text →
      ∃ w : Window, w.IsAt text (offset - excerptLead) ∧
        excerpt text offset = w.marked (w.before ≠ []) (w.after ≠ []) := by
  intro h
  have hsize : 22 ≤ byteSize openAccentedList := by decide
  obtain ⟨w, hw, hmarks⟩ := h openAccentedList 22 hsize
  obtain rfl := hw.unique (isAt_windowAt (Nat.le_trans (Nat.sub_le _ _) hsize))
  revert hmarks
  decide

end ConsLisp.Source
