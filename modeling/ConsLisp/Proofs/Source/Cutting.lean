import ConsLisp.Proofs.Source.Joining

/-!
# How a stream cuts its source

A stream of forms is asked for one item after the other. It yields finitely many: the forms of its
source, then a syntax error if it meets one, and nothing ever after. The positions after the forms
cut the source into pieces at whole characters. Each piece holds at least one character, and a piece
on its own is read as its form and is used up by it: what stands before a form in its piece is
skipped in the same way, and no form needs to see what follows its piece. Without a syntax error the
stream gets to the end of its source.

## Main definitions

* `Stream.advance`: a stream that has been asked for a number of items.
* `Forms.items`: the items of a source, its forms and the syntax error that it ends in.
* `Stream.Runs`: what a stream comes to, item by item.
* `Stream.IsAt`: how far a stream is in its source.
* `IsSlice`: the part of a text between two byte positions.
* `Stream.CutsInto`: the items of a source and the pieces into which its forms cut it.

## Main results

* `Stream.Runs.next_advance`: a stream yields its items and then nothing ever after.
* `Stream.IsAt.exists_slice`: the part of the source that a form takes is read alone as the form.
* `readForms_cut_source`: a stream over a source cuts it into the pieces that its forms take.
-/

namespace ConsLisp.Source

variable {comments : Bool}

/-- The items that a source yields: its forms and the syntax error that it ends in, if any. -/
def Forms.items (source : Forms) : List (Except SyntaxError Value) :=
  source.forms.map (fun form => .ok form.value) ++ source.error?.toList.map .error

/-- The piece is what stands in a text between two byte positions, at both of which a character
starts or the text ends. -/
def IsSlice (text : List Char) (start stop : Nat) (piece : List Char) : Prop :=
  ∃ before after, text = before ++ (piece ++ after) ∧ byteSize before = start ∧
    byteSize (before ++ piece) = stop

theorem IsSlice.lt {text piece : List Char} {start stop : Nat} (h : IsSlice text start stop piece)
    (hpiece : piece ≠ []) : start < stop := by
  obtain ⟨before, after, -, rfl, rfl⟩ := h
  rw [byteSize_append]
  exact Nat.lt_add_of_pos_right (byteSize_pos hpiece)

theorem read_nil_from (start : Nat) : read comments [] start [] = .finished start := by
  rw [read_eq_moved, read_nil, Reading.moved, Nat.zero_add]

/-- The part of a text that an expression takes is read alone as the expression, and is used up. -/
theorem exists_piece_of_read {start stop : Nat} {text rest : List Char} {v : Value}
    (h : read comments [] start text = .complete v stop rest) :
    ∃ piece, piece ≠ [] ∧ text = piece ++ rest ∧ stop = start + byteSize piece ∧
      read comments [] 0 piece = .complete v (byteSize piece) [] := by
  obtain ⟨-, hnesting, piece, rfl, rfl, hlayout⟩ := (read_accepts_layouts comments start text v).2 _ _ h
  refine ⟨piece, hlayout.ne_nil, rfl, rfl, ?_⟩
  have halone := (read_accepts_layouts comments 0 piece v).1 hlayout hnesting
  rwa [Nat.zero_add] at halone

namespace Stream

variable {s s' : Stream} {r : Forms} {v : Value} {before : List Char}

/-- The stream after it has been asked for `n` items. -/
def advance : (n : Nat) → Stream → Stream
  | 0, s => s
  | n + 1, s => advance n s.next.2

theorem advance_add (m n : Nat) (s : Stream) : s.advance (m + n) = (s.advance m).advance n := by
  induction m generalizing s with
  | zero => rw [Nat.zero_add, advance]
  | succ m ih => rw [Nat.succ_add, advance, advance, ih]

theorem advance_succ (n : Nat) (s : Stream) : s.advance (n + 1) = (s.advance n).next.2 :=
  advance_add n 1 s

/-- A text that holds one form yields this form and is used up. -/
theorem next_ofText_of_read {piece : List Char}
    (h : read comments [] 0 piece = .complete v (byteSize piece) []) :
    (ofText comments (String.ofList piece)).next = (some (.ok v),
      { ofText comments (String.ofList piece) with rest := [], position := byteSize piece }) := by
  rw [next_eq rfl]
  simp only [ofText, String.toList_ofList, h]

/-! ### The end of a stream -/

theorem next_of_failed (h : s.failed = true) : s.next = (none, s) := by
  rw [next, h]
  rfl

theorem next_at_end (hs : s.failed = false) (hrest : s.rest = []) : s.next = (none, s) := by
  rw [next_eq hs, hrest, read_nil_from]
  simp [← hrest]

/-- A stream that has nothing more to yield stays as it is. -/
theorem next_of_next_eq_none (h : s.next = (none, s')) : s'.next = (none, s') := by
  cases hs : s.failed with
  | true =>
    rw [next_of_failed hs] at h
    obtain ⟨-, rfl⟩ := Prod.mk.inj h
    exact next_of_failed hs
  | false =>
    rw [next_eq hs] at h
    split at h
    · obtain ⟨-, rfl⟩ := Prod.mk.inj h
      exact next_at_end hs rfl
    · cases congrArg Prod.fst h
    · cases congrArg Prod.fst h

/-- A stream that has met a syntax error has nothing more to yield. -/
theorem next_of_next_eq_error {e : SyntaxError} (h : s.next = (some (.error e), s')) :
    s'.next = (none, s') := by
  cases hs : s.failed with
  | true =>
    rw [next_of_failed hs] at h
    cases congrArg Prod.fst h
  | false =>
    rw [next_eq hs] at h
    split at h
    · cases congrArg Prod.fst h
    · cases congrArg Prod.fst h
    · obtain ⟨-, rfl⟩ := Prod.mk.inj h
      exact next_of_failed rfl

theorem advance_of_next_eq_none (h : s.next = (none, s)) (n : Nat) : s.advance n = s := by
  induction n with
  | zero => rfl
  | succ n ih =>
    rw [advance, h]
    exact ih

/-! ### Item by item -/

/-- What a stream comes to: it yields forms, each with the position after it, and then a syntax
error or nothing more. -/
inductive Runs : Stream → Forms → Prop
  | ended {s s' : Stream} (h : s.next = (none, s')) : Runs s ⟨[], none, s'⟩
  | failed {s s' : Stream} {e : SyntaxError} (h : s.next = (some (.error e), s')) :
      Runs s ⟨[], some e, s'⟩
  | form {s s' : Stream} {v : Value} {r : Forms} (h : s.next = (some (.ok v), s'))
      (hrest : Runs s' r) : Runs s { r with forms := ⟨v, s'.position⟩ :: r.forms }

theorem exists_runs_collect (found : List Form) (s : Stream) :
    ∃ r, Runs s r ∧ s.collect found = { r with forms := found.reverse ++ r.forms } := by
  fun_induction Stream.collect found s with
  | case1 found s s' hnext => exact ⟨_, .ended hnext, by simp⟩
  | case2 found s e s' hnext => exact ⟨_, .failed hnext, by simp⟩
  | case3 found s v s' hnext ih =>
    obtain ⟨r, hrest, hr⟩ := ih
    exact ⟨_, .form hnext hrest, by simp [hr]⟩

theorem runs_drain (s : Stream) : s.Runs s.drain := by
  obtain ⟨r, hr, hdrain⟩ := exists_runs_collect [] s
  rw [drain, hdrain]
  exact hr

namespace Runs

/-- A stream yields its items, one each time that it is asked, and then nothing ever after. -/
theorem next_advance (h : s.Runs r) (k : Nat) : (s.advance k).next.1 = r.items[k]? := by
  induction h generalizing k with
  | ended h =>
    cases k with
    | zero => rw [advance, h]; rfl
    | succ k =>
      have hend := next_of_next_eq_none h
      rw [advance, h, advance_of_next_eq_none hend, hend]
      rfl
  | failed h =>
    cases k with
    | zero => rw [advance, h]; rfl
    | succ k =>
      have hend := next_of_next_eq_error h
      rw [advance, h, advance_of_next_eq_none hend, hend]
      rfl
  | form h _ ih =>
    cases k with
    | zero => rw [advance, h]; rfl
    | succ k =>
      rw [advance, h]
      exact ih k

theorem position_advance (h : s.Runs r) {k : Nat} (hk : k < r.forms.length) :
    (s.advance (k + 1)).position = r.forms[k].stop := by
  induction h generalizing k with
  | ended | failed => cases hk
  | form h _ ih =>
    cases k with
    | zero => rw [advance, h]; rfl
    | succ k =>
      rw [advance, h]
      exact ih (Nat.lt_of_succ_lt_succ hk)

end Runs

/-! ### Where a stream is in its source -/

/-- The stream has read `before` without a syntax error, and the rest of its source is left. -/
structure IsAt (s : Stream) (before : List Char) : Prop where
  source_eq : s.source = before ++ s.rest
  position_eq : s.position = byteSize before
  failed_eq : s.failed = false

theorem isAt_ofText (comments : Bool) (source : String) : (ofText comments source).IsAt [] :=
  ⟨rfl, rfl, rfl⟩

namespace IsAt

/-- A form takes a piece of the source, which alone is read as the form. -/
theorem of_form (hs : s.IsAt before) (h : s.next = (some (.ok v), s')) :
    s'.comments = s.comments ∧ s'.source = s.source ∧
      ∃ piece, piece ≠ [] ∧ s'.IsAt (before ++ piece) ∧
        read s.comments [] 0 piece = .complete v (byteSize piece) [] := by
  rw [next_eq hs.failed_eq] at h
  split at h
  · cases congrArg Prod.fst h
  · next hread =>
    obtain ⟨hv, rfl⟩ := Prod.mk.inj h
    obtain rfl := Except.ok.inj (Option.some.inj hv)
    obtain ⟨piece, hpiece, hrest, hstop, halone⟩ := exists_piece_of_read hread
    refine ⟨rfl, rfl, piece, hpiece, ⟨?_, ?_, hs.failed_eq⟩, halone⟩
    · rw [hs.source_eq, hrest, List.append_assoc]
    · rw [byteSize_append, ← hs.position_eq]
      exact hstop
  · cases congrArg Prod.fst h

/-- At its end a stream that has met no syntax error has read the whole source. -/
theorem position_of_ended (hs : s.IsAt before) (h : s.next = (none, s')) :
    s'.position = byteSize s.source := by
  rw [next_eq hs.failed_eq] at h
  split at h
  · next stop hread =>
    obtain ⟨-, rfl⟩ := Prod.mk.inj h
    have hscan := (scan_of_read_eq_finished hread).2
    rw [read_eq, hscan] at hread
    rw [hs.source_eq, byteSize_append, ← hs.position_eq]
    exact (Reading.finished.inj hread).symm
  · cases congrArg Prod.fst h
  · cases congrArg Prod.fst h

end IsAt

theorem items_getElem?_of_lt {k : Nat} (hk : k < r.forms.length) :
    r.items[k]? = some (.ok r.forms[k].value) := by
  rw [Forms.items, List.getElem?_append_left (by simpa using hk)]
  simp [hk]

namespace Runs

/-- After each of its forms a stream is at the end of a piece of its source. -/
theorem exists_isAt (h : s.Runs r) (hs : s.IsAt before) {k : Nat} (hk : k ≤ r.forms.length) :
    (s.advance k).comments = s.comments ∧ (s.advance k).source = s.source ∧
      ∃ before', (s.advance k).IsAt before' := by
  induction k with
  | zero => exact ⟨rfl, rfl, before, hs⟩
  | succ k ih =>
    obtain ⟨hcomments, hsource, before', hbefore⟩ := ih (Nat.le_of_succ_le hk)
    have hitem := h.next_advance k
    rw [items_getElem?_of_lt hk] at hitem
    obtain ⟨hcomments', hsource', piece, -, hat, -⟩ :=
      hbefore.of_form (Prod.ext hitem rfl : _ = (_, (s.advance k).next.2))
    rw [advance_succ, hcomments', hsource']
    exact ⟨hcomments, hsource, _, hat⟩

/-- The part of the source that a form takes is not empty, and is read alone as the form. -/
theorem exists_slice (h : s.Runs r) (hs : s.IsAt before) {k : Nat} (hk : k < r.forms.length) :
    ∃ piece, piece ≠ [] ∧
      IsSlice s.source (s.advance k).position (s.advance (k + 1)).position piece ∧
      read s.comments [] 0 piece = .complete r.forms[k].value (byteSize piece) [] := by
  obtain ⟨hcomments, hsource, before', hbefore⟩ := h.exists_isAt hs (Nat.le_of_lt hk)
  have hitem := h.next_advance k
  rw [items_getElem?_of_lt hk] at hitem
  obtain ⟨-, hsource', piece, hpiece, hat, halone⟩ :=
    hbefore.of_form (Prod.ext hitem rfl : _ = (_, (s.advance k).next.2))
  rw [hcomments] at halone
  refine ⟨piece, hpiece, ⟨before', (s.advance k).next.2.rest, ?_, hbefore.position_eq.symm, ?_⟩, halone⟩
  · rw [← hsource, ← hsource', hat.source_eq, List.append_assoc]
  · rw [advance_succ, hat.position_eq]

/-- A stream that meets no syntax error gets to the end of its source, and stays there. -/
theorem position_of_error?_eq_none (h : s.Runs r) (hs : s.IsAt before) (herror : r.error? = none)
    {k : Nat} (hk : r.forms.length < k) : (s.advance k).position = byteSize s.source := by
  obtain ⟨-, hsource, before', hbefore⟩ := h.exists_isAt hs (Nat.le_refl _)
  have hitem : (s.advance r.forms.length).next.1 = none := by
    rw [h.next_advance, Forms.items, herror]
    simp
  have hnext : (s.advance r.forms.length).next = (none, s.advance (r.forms.length + 1)) :=
    Prod.ext hitem (advance_succ _ s).symm
  have hend := next_of_next_eq_none hnext
  obtain ⟨n, rfl⟩ := Nat.exists_eq_add_of_le hk
  rw [advance_add, advance_of_next_eq_none hend, ← hsource]
  exact hbefore.position_of_ended hnext

end Runs

end Stream

/-! ### The items of a source and its pieces -/

/-- How a stream cuts its source into the pieces that its forms take. -/
structure Stream.CutsInto (s : Stream) (r : Forms) : Prop where
  /-- The items come one after the other, and then nothing ever after. -/
  next_eq : ∀ k, (s.advance k).next.1 = r.items[k]?
  start_eq : s.position = 0
  stop_eq : ∀ k (hk : k < r.forms.length), (s.advance (k + 1)).position = r.forms[k].stop
  lt : ∀ k, k < r.forms.length → (s.advance k).position < (s.advance (k + 1)).position
  /-- The piece between two positions alone holds the form, and nothing is left of it. -/
  piece : ∀ k (hk : k < r.forms.length), ∃ piece,
    IsSlice s.source (s.advance k).position (s.advance (k + 1)).position piece ∧
      (ofText s.comments (String.ofList piece)).next = (some (.ok r.forms[k].value),
        { ofText s.comments (String.ofList piece) with rest := [], position := byteSize piece })
  /-- Without a syntax error the whole source is read. -/
  end_eq : r.error? = none → ∀ k, r.forms.length < k → (s.advance k).position = byteSize s.source

/-- A stream over a source yields the items of the source one after the other, and nothing ever
after: its forms and then at most one syntax error. The positions after the forms increase. They cut
the source into pieces, each of which alone is read as its form and is used up; without a syntax
error the stream gets to the end of the source. -/
theorem readForms_cut_source (comments : Bool) (source : String) :
    (Stream.ofText comments source).CutsInto (readForms comments source) := by
  have hruns := (Stream.ofText comments source).runs_drain
  have hat := Stream.isAt_ofText comments source
  refine ⟨hruns.next_advance, rfl, fun k hk => hruns.position_advance hk, fun k hk => ?_,
    fun k hk => ?_, fun herror k hk => hruns.position_of_error?_eq_none hat herror hk⟩
  · obtain ⟨piece, hpiece, hslice, -⟩ := hruns.exists_slice hat hk
    exact hslice.lt hpiece
  · obtain ⟨piece, -, hslice, halone⟩ := hruns.exists_slice hat hk
    exact ⟨piece, hslice, Stream.next_ofText_of_read halone⟩

/-- A form before a comment, with a character of two bytes, and a form after it. -/
example : (readForms true "'\u00e9 ; c\n()").forms =
    [⟨.quoted .quote (.symbol "\u00e9"), 4⟩, ⟨.empty, 10⟩] := by
  with_unfolding_all rfl

end ConsLisp.Source
