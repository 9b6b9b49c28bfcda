import ConsLisp.Proofs.Source.Spelling
import ConsLisp.Source.Expression
import ConsLisp.Value.Text

/-!
# Layouts of values

A text is a layout of a value when it holds the tokens of the value in order, with gaps before them.
The tokens of a list are an opening parenthesis, those of its elements and a closing parenthesis; a
quote mark stands before the tokens of what it marks. An integer may be spelled with leading zeros
and with a sign, and a word that spells no integer is a symbol.

This is a grammar: it does not say how a layout is found. A layout is followed by further text, and
`Place` tells whether a whole value is laid out or what follows the elements of an open list.

## Main definitions

* `Fixnum.SpelledBy`: the words that spell an integer.
* `Layout`: the layouts of values.
* `Value.IsSyntax`: the values that are made of proper lists, symbols, integers, strings and quote
  marks.
* `Value.nesting`: how many levels of lists and quote marks a value has.

## Main results

* `Layout.unique`: a text lays out at most one value at its start.
* `Layout.interchange`: the text after a layout may be interchanged.
* `Layout.append_blank`: a blank after a layout at the end of a text does not change the value.
* `Layout.isSyntax`: only syntax has layouts.
-/

namespace ConsLisp

/-! ### The words that spell an integer -/

/-- A non-empty sequence of decimal digits that stands for the number `n`. -/
structure IsNumeral (n : Nat) (ds : List Char) : Prop where
  nonempty : ds ≠ []
  digits : ∀ c ∈ ds, c.isDigit = true
  value : Nat.ofDigitChars 10 ds 0 = n

/-- A word that spells an integer: decimal digits after an optional sign. -/
inductive Fixnum.SpelledBy (a : Fixnum) : List Char → Prop
  | plain {n : Nat} {ds : List Char} (h : IsNumeral n ds) (ha : a.val = n) : SpelledBy a ds
  | plus {n : Nat} {ds : List Char} (h : IsNumeral n ds) (ha : a.val = n) : SpelledBy a ('+' :: ds)
  | minus {n : Nat} {ds : List Char} (h : IsNumeral n ds) (ha : a.val = -n) :
      SpelledBy a ('-' :: ds)

namespace Fixnum

theorem natOfDigits?_eq_some_iff {ds : List Char} {n : Nat} :
    natOfDigits? ds = some n ↔ IsNumeral n ds := by
  rw [natOfDigits?]
  constructor
  · intro h
    split at h
    · next hds => exact ⟨hds.1, List.all_eq_true.1 hds.2, Option.some.inj h⟩
    · cases h
  · rintro ⟨hne, hds, rfl⟩
    rw [if_pos ⟨hne, List.all_eq_true.2 hds⟩]

theorem bind_natOfDigits?_eq_some_iff {ds : List Char} {f : Nat → Int} {a : Fixnum} :
    ((natOfDigits? ds).bind fun n => ofInt? (f n)) = some a ↔
      ∃ n, IsNumeral n ds ∧ a.val = f n := by
  rw [Option.bind_eq_some_iff]
  exact exists_congr fun n =>
    and_congr natOfDigits?_eq_some_iff (ofInt?_eq_some_iff.trans eq_comm)

/-- Reading a word as an integer succeeds exactly on the words that spell one. -/
theorem ofWord?_eq_some_iff {letters : List Char} {a : Fixnum} :
    ofWord? letters = some a ↔ a.SpelledBy letters := by
  constructor
  · intro h
    unfold ofWord? at h
    split at h
    · obtain ⟨n, hn, ha⟩ := bind_natOfDigits?_eq_some_iff.1 h
      exact .minus hn ha
    · obtain ⟨n, hn, ha⟩ := bind_natOfDigits?_eq_some_iff.1 h
      exact .plus hn ha
    · obtain ⟨n, hn, ha⟩ := bind_natOfDigits?_eq_some_iff.1 h
      exact .plain hn ha
  · intro h
    cases h with
    | plus hn ha => exact bind_natOfDigits?_eq_some_iff.2 ⟨_, hn, ha⟩
    | minus hn ha => exact bind_natOfDigits?_eq_some_iff.2 ⟨_, hn, ha⟩
    | @plain n _ hn ha =>
      unfold ofWord?
      split
      · exact absurd (hn.digits '-' List.mem_cons_self) (by decide)
      · exact absurd (hn.digits '+' List.mem_cons_self) (by decide)
      · exact bind_natOfDigits?_eq_some_iff.2 ⟨n, hn, ha⟩

/-- A word spells at most one integer. -/
theorem SpelledBy.unique {a b : Fixnum} {letters : List Char} (ha : a.SpelledBy letters)
    (hb : b.SpelledBy letters) : a = b :=
  Option.some.inj ((ofWord?_eq_some_iff.2 ha).symm.trans (ofWord?_eq_some_iff.2 hb))

theorem isNumeral_toDigits (n : Nat) : IsNumeral n (Nat.toDigits 10 n) where
  nonempty := Nat.toDigits_ne_nil
  digits _ hc := Nat.isDigit_of_mem_toDigits (by decide) (by decide) hc
  value := Nat.ofDigitChars_ten_toDigits

/-- An integer is spelled by its decimal digits. -/
theorem spelledBy_digits (a : Fixnum) : a.SpelledBy a.digits := by
  rw [digits]
  split
  · exact .minus (isNumeral_toDigits _) (by omega)
  · exact .plain (isNumeral_toDigits _) (by omega)

end Fixnum

/-! ### Values without callables -/

namespace Value

/-- The values that are made of proper lists, symbols, integers, strings and quote marks. -/
def IsSyntax : Value → Prop
  | empty | symbol _ | integer _ | string _ => True
  | cons first rest => first.IsSyntax ∧ rest.isList = true ∧ rest.IsSyntax
  | quoted _ inner => inner.IsSyntax
  | bool _ | primitive _ _ | closure _ _ _ _ _ _ | specialForm _ | typeTag _ => False

/-- The number of levels of lists and quote marks in a value, the empty list being one level. -/
def nesting : Value → Nat
  | empty => 1
  | cons first rest => max (first.nesting + 1) rest.nesting
  | quoted _ inner => inner.nesting + 1
  | _ => 0

/-- A list has one level more than the deepest of its elements. -/
theorem nesting_unwind_le_iff {reversed : List Value} {tail : Value} {n : Nat} :
    (unwind reversed tail).nesting ≤ n ↔
      (∀ v ∈ reversed, v.nesting + 1 ≤ n) ∧ tail.nesting ≤ n := by
  induction reversed generalizing tail with
  | nil => simp
  | cons v reversed ih =>
    rw [unwind_cons, ih, nesting]
    simp only [List.mem_cons, forall_eq_or_imp, Nat.max_le, and_assoc, and_left_comm]

end Value

/-! ### Layouts -/

namespace Source

/-- The text is a layout of the value, followed by `rest`. In the place `tail` it holds what follows
the elements of an open list: the elements of the value and the closing parenthesis. -/
inductive Layout (comments : Bool) : Place → Value → (text rest : List Char) → Prop
  | symbol {letters text rest : List Char} (h : TokenAt comments (.word letters) text rest)
      (hletters : ∀ a : Fixnum, ¬a.SpelledBy letters) :
      Layout comments .whole (.symbol (String.ofList letters)) text rest
  | integer {a : Fixnum} {letters text rest : List Char}
      (h : TokenAt comments (.word letters) text rest) (ha : a.SpelledBy letters) :
      Layout comments .whole (.integer a) text rest
  | string {body text rest : List Char} (h : TokenAt comments (.literal body) text rest) :
      Layout comments .whole (.string (String.ofList body)) text rest
  | quoted {kind : QuoteKind} {inner : Value} {text mid rest : List Char}
      (h : TokenAt comments (.mark kind) text mid)
      (hinner : Layout comments .whole inner mid rest) :
      Layout comments .whole (.quoted kind inner) text rest
  | list {v : Value} {text mid rest : List Char} (h : TokenAt comments .opening text mid)
      (hv : Layout comments .tail v mid rest) : Layout comments .whole v text rest
  | closing {text rest : List Char} (h : TokenAt comments .closing text rest) :
      Layout comments .tail .empty text rest
  | element {first others : Value} {text mid rest : List Char}
      (hfirst : Layout comments .whole first text mid)
      (hothers : Layout comments .tail others mid rest) :
      Layout comments .tail (.cons first others) text rest

namespace Layout

variable {comments : Bool} {place : Place} {v : Value} {text rest : List Char}

/-- What is laid out after the elements of an open list is a list. -/
theorem isList (h : Layout comments .tail v text rest) : v.isList = true := by
  cases h <;> rfl

/-- Only syntax has layouts. -/
theorem isSyntax (h : Layout comments place v text rest) : v.IsSyntax := by
  induction h with
  | symbol | integer | string | closing => trivial
  | quoted _ _ ih | list _ _ ih => exact ih
  | element _ hothers ihfirst ihothers => exact ⟨ihfirst, hothers.isList, ihothers⟩

/-- A value starts with a token that closes no list. -/
theorem exists_tokenAt (h : Layout comments .whole v text rest) :
    ∃ token mid, token ≠ .closing ∧ TokenAt comments token text mid := by
  cases h with
  | symbol h | integer h | string h | quoted h | list h =>
    refine ⟨_, _, ?_, h⟩
    nofun

/-- A text has at most one value at its start, and that value ends in one place. -/
theorem unique {v' : Value} {rest' : List Char} (h : Layout comments place v text rest)
    (h' : Layout comments place v' text rest') : v = v' ∧ rest = rest' := by
  induction h generalizing v' rest' with
  | symbol h hletters =>
    cases h' with
    | symbol h' =>
      obtain ⟨htoken, rfl⟩ := h.unique h'
      obtain rfl := Token.word.inj htoken
      exact ⟨rfl, rfl⟩
    | integer h' ha =>
      obtain rfl := Token.word.inj (h.unique h').1
      exact absurd ha (hletters _)
    | string h' | quoted h' | list h' => cases (h.unique h').1
  | integer h ha =>
    cases h' with
    | symbol h' hletters =>
      obtain rfl := Token.word.inj (h.unique h').1
      exact absurd ha (hletters _)
    | integer h' ha' =>
      obtain ⟨htoken, rfl⟩ := h.unique h'
      obtain rfl := Token.word.inj htoken
      exact ⟨congrArg Value.integer (ha.unique ha'), rfl⟩
    | string h' | quoted h' | list h' => cases (h.unique h').1
  | string h =>
    cases h' with
    | string h' =>
      obtain ⟨htoken, rfl⟩ := h.unique h'
      obtain rfl := Token.literal.inj htoken
      exact ⟨rfl, rfl⟩
    | symbol h' | integer h' | quoted h' | list h' => cases (h.unique h').1
  | quoted h _ ih =>
    cases h' with
    | quoted h' hinner' =>
      obtain ⟨htoken, rfl⟩ := h.unique h'
      obtain rfl := Token.mark.inj htoken
      obtain ⟨rfl, rfl⟩ := ih hinner'
      exact ⟨rfl, rfl⟩
    | symbol h' | integer h' | string h' | list h' => cases (h.unique h').1
  | list h _ ih =>
    cases h' with
    | list h' hv' =>
      obtain ⟨-, rfl⟩ := h.unique h'
      exact ih hv'
    | symbol h' | integer h' | string h' | quoted h' => cases (h.unique h').1
  | closing h =>
    cases h' with
    | closing h' => exact ⟨rfl, (h.unique h').2⟩
    | element hfirst' =>
      obtain ⟨token, _, htoken, h'⟩ := hfirst'.exists_tokenAt
      exact absurd (h.unique h').1.symm htoken
  | element hfirst _ ihfirst ihothers =>
    cases h' with
    | closing h' =>
      obtain ⟨token, _, htoken, h⟩ := hfirst.exists_tokenAt
      exact absurd (h.unique h').1 htoken
    | element hfirst' hothers' =>
      obtain ⟨rfl, rfl⟩ := ihfirst hfirst'
      obtain ⟨rfl, rfl⟩ := ihothers hothers'
      exact ⟨rfl, rfl⟩

/-- Only the tokens at the start of a text matter to what is laid out there. -/
theorem of_tokenAt {text' : List Char} (h : Layout comments place v text rest)
    (htext : ∀ token mid, TokenAt comments token text mid → TokenAt comments token text' mid) :
    Layout comments place v text' rest := by
  induction h with
  | symbol h hletters => exact .symbol (htext _ _ h) hletters
  | integer h ha => exact .integer (htext _ _ h) ha
  | string h => exact .string (htext _ _ h)
  | quoted h hinner => exact .quoted (htext _ _ h) hinner
  | list h hv => exact .list (htext _ _ h) hv
  | closing h => exact .closing (htext _ _ h)
  | element _ hothers ih => exact .element (ih htext) hothers

/-- A blank may be added before a layout or taken away from it. -/
theorem cons_blank_iff {c : Char} (hc : isBlank c = true) :
    Layout comments place v (c :: text) rest ↔ Layout comments place v text rest := by
  constructor
  · intro h
    exact h.of_tokenAt fun _ _ => (tokenAt_cons_blank_iff hc).1
  · intro h
    exact h.of_tokenAt fun _ _ => (tokenAt_cons_blank_iff hc).2

/-- A value is laid out in some text of its own, and it stays there when the rest is
interchanged. -/
theorem interchange (h : Layout comments place v text rest) :
    ∃ used, used ≠ [] ∧ text = used ++ rest ∧
      ∀ rest', Interchangeable rest rest' → Layout comments place v (used ++ rest') rest' := by
  induction h with
  | symbol h hletters =>
    obtain ⟨used, hused, rfl, htoken⟩ := h.interchange
    exact ⟨used, hused, rfl, fun rest' hrest => .symbol (htoken rest' hrest) hletters⟩
  | integer h ha =>
    obtain ⟨used, hused, rfl, htoken⟩ := h.interchange
    exact ⟨used, hused, rfl, fun rest' hrest => .integer (htoken rest' hrest) ha⟩
  | string h =>
    obtain ⟨used, hused, rfl, htoken⟩ := h.interchange
    exact ⟨used, hused, rfl, fun rest' hrest => .string (htoken rest' hrest)⟩
  | closing h =>
    obtain ⟨used, hused, rfl, htoken⟩ := h.interchange
    exact ⟨used, hused, rfl, fun rest' hrest => .closing (htoken rest' hrest)⟩
  | quoted h _ ih =>
    obtain ⟨mark, hmark, rfl, htoken⟩ := h.interchange
    obtain ⟨used, hused, rfl, hinner⟩ := ih
    refine ⟨mark ++ used, by simp [hmark], by simp, fun rest' hrest => ?_⟩
    rw [List.append_assoc]
    exact .quoted (htoken _ (.of_append hused _ _)) (hinner rest' hrest)
  | list h _ ih =>
    obtain ⟨opening, hopening, rfl, htoken⟩ := h.interchange
    obtain ⟨used, hused, rfl, hinner⟩ := ih
    refine ⟨opening ++ used, by simp [hopening], by simp, fun rest' hrest => ?_⟩
    rw [List.append_assoc]
    exact .list (htoken _ (.of_append hused _ _)) (hinner rest' hrest)
  | element _ _ ihfirst ihothers =>
    obtain ⟨before, hbefore, rfl, hfirst⟩ := ihfirst
    obtain ⟨used, hused, rfl, hothers⟩ := ihothers
    refine ⟨before ++ used, by simp [hbefore], by simp, fun rest' hrest => ?_⟩
    rw [List.append_assoc]
    exact .element (hfirst _ (.of_append hused _ _)) (hothers rest' hrest)

theorem ne_nil (h : Layout comments place v text rest) : text ≠ [] := by
  obtain ⟨used, hused, rfl, -⟩ := h.interchange
  simp [hused]

/-- More text after the rest does not change the value, if there is a rest. -/
theorem append (h : Layout comments place v text rest) (hrest : rest ≠ []) (more : List Char) :
    Layout comments place v (text ++ more) (rest ++ more) := by
  obtain ⟨used, -, rfl, hinterchange⟩ := h.interchange
  rw [List.append_assoc]
  exact hinterchange _ (.more hrest more)

/-- A blank after a layout at the end of a text does not change the value. -/
theorem append_blank (h : Layout comments place v text []) {c : Char} (hc : isBlank c = true)
    (more : List Char) :
    ∃ mid, UpToBlank (c :: more) mid ∧ Layout comments place v (text ++ c :: more) mid := by
  generalize hend : [] = rest at h
  induction h with
  | symbol h hletters =>
    subst hend
    obtain ⟨mid, hmid, htoken⟩ := h.append_blank hc more
    exact ⟨mid, hmid, .symbol htoken hletters⟩
  | integer h ha =>
    subst hend
    obtain ⟨mid, hmid, htoken⟩ := h.append_blank hc more
    exact ⟨mid, hmid, .integer htoken ha⟩
  | string h =>
    subst hend
    obtain ⟨mid, hmid, htoken⟩ := h.append_blank hc more
    exact ⟨mid, hmid, .string htoken⟩
  | closing h =>
    subst hend
    obtain ⟨mid, hmid, htoken⟩ := h.append_blank hc more
    exact ⟨mid, hmid, .closing htoken⟩
  | quoted h hinner ih =>
    obtain ⟨mid, hmid, hlayout⟩ := ih hend
    exact ⟨mid, hmid, .quoted (h.append (.more hinner.ne_nil _)) hlayout⟩
  | list h hv ih =>
    obtain ⟨mid, hmid, hlayout⟩ := ih hend
    exact ⟨mid, hmid, .list (h.append (.more hv.ne_nil _)) hlayout⟩
  | element hfirst hothers _ ih =>
    obtain ⟨mid, hmid, hlayout⟩ := ih hend
    exact ⟨mid, hmid, .element (hfirst.append hothers.ne_nil _) hlayout⟩

end Layout

theorem UpToBlank.layout_iff {comments : Bool} {text rest after : List Char}
    (h : UpToBlank text rest) {p : Place} {v : Value} :
    Layout comments p v text after ↔ Layout comments p v rest after := by
  cases h with
  | same => rfl
  | blank hc => exact Layout.cons_blank_iff hc

end Source

end ConsLisp
