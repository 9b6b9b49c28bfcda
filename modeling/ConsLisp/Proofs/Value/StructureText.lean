import ConsLisp.Proofs.Source.RoundTrip
import ConsLisp.Proofs.Value.Equality
import Mathlib.Data.List.Basic

/-!
# Structure text tells values apart

Structure text names the constructor of every part of a value, and escapes nothing. So a name with
a closing parenthesis in it, or a string with a bare double quote, could imitate the text of other
parts. The reader produces neither: the letters of a symbol are a word or a bracket, and the body
of a string literal escapes its quotes. Among values with such names and strings, and without
callables, structure text is unambiguous: at each place the text tells with which constructor it
goes on, and where a part of it ends does not depend on what follows.

Program text is ambiguous. A dotted pair is written like a list that holds the symbol `.`, and
truth values and types are written like symbols.

## Main definitions

* `Value.IsLegible`: values of which the reader can produce the symbols and the strings.
* `Heading`: what structure text starts with; `Value.heading`, `Value.content`: the structure text
  of a value in two parts.
* `Value.DeterminedIn`: the text of a value in a place tells the value, and where the text ends.
* `Value.Conflated`: different values that have the same program text.

## Main results

* `Source.Layout.isLegible`: the reader produces legible values.
* `Heading.spelling_append_inj`: what structure text starts with can be told.
* `Value.IsLegible.determinedIn`: the structure text of a legible value determines it.
* `structureText_unambiguous`: legible values with the same structure text are equal.
-/

namespace ConsLisp

/-! ### Legible values -/

namespace Source

/-- The letters of the symbols that can be read: a word, or a bracket. -/
def IsSymbolName (letters : List Char) : Prop :=
  IsWord false letters ∨ letters = ['['] ∨ letters = [']']

theorem IsWord.withoutComments {comments : Bool} {letters : List Char}
    (h : IsWord comments letters) : IsWord false letters :=
  ⟨h.nonempty, h.noEnd, nofun⟩

/-- Any letters will do that do not end a word. -/
theorem isSymbolName_of_all {letters : List Char} (hne : letters.isEmpty = false)
    (hall : (letters.all fun c => !endsWord c) = true) : IsSymbolName letters := by
  refine .inl ⟨?_, fun c hc => ?_, nofun⟩
  · rintro rfl
    cases hne
  · simpa using List.all_eq_true.1 hall c hc

theorem isSymbolName_of_tokenAt {comments : Bool} {letters text rest : List Char}
    (h : TokenAt comments (.word letters) text rest) : IsSymbolName letters := by
  obtain ⟨gap, start, -, -, hspelled⟩ := h
  cases hspelled with
  | bracket hc => exact .inr (hc.imp (congrArg (fun c => [c])) (congrArg (fun c => [c])))
  | word hword => exact .inl hword.withoutComments

theorem literalBody_of_tokenAt {comments : Bool} {body text rest : List Char}
    (h : TokenAt comments (.literal body) text rest) : LiteralBody body := by
  obtain ⟨gap, start, -, -, hspelled⟩ := h
  cases hspelled with
  | literal hbody => exact hbody

/-- No parenthesis closes inside a symbol. -/
theorem IsSymbolName.closing_notMem {letters : List Char} (h : IsSymbolName letters) :
    ')' ∉ letters := by
  rcases h with hword | rfl | rfl
  · intro hmem
    cases hword.noEnd _ hmem
  · decide
  · decide

end Source

/-- The value holds no callables, and the reader can produce its symbols and its strings. -/
def Value.IsLegible : Value → Prop
  | empty | integer _ | bool _ | typeTag _ => True
  | cons first rest => first.IsLegible ∧ rest.IsLegible
  | symbol name => Source.IsSymbolName name.toList
  | string text => Source.LiteralBody text.toList
  | quoted _ inner => inner.IsLegible
  | primitive _ _ | closure _ _ _ _ _ _ | specialForm _ => False

theorem Value.IsLegible.holdsOnly {p : Value → Prop} {v : Value} (h : v.IsLegible) :
    v.HoldsOnly p := by
  induction v with
  | cons first rest ihfirst ihrest => exact holdsOnly_cons.2 ⟨ihfirst h.1, ihrest h.2⟩
  | quoted kind inner ih => exact ih h
  | primitive | closure | specialForm => exact h.elim
  | _ => exact .of_callables_eq_nil rfl

/-- The reader produces legible values. -/
theorem Source.Layout.isLegible {comments : Bool} {place : Place} {v : Value}
    {text rest : List Char} (h : Layout comments place v text rest) : v.IsLegible := by
  induction h with
  | symbol h =>
    rw [Value.IsLegible, String.toList_ofList]
    exact isSymbolName_of_tokenAt h
  | string h =>
    rw [Value.IsLegible, String.toList_ofList]
    exact literalBody_of_tokenAt h
  | integer | closing => trivial
  | quoted _ _ ih | list _ _ ih => exact ih
  | element _ _ ihfirst ihothers => exact ⟨ihfirst, ihothers⟩

/-! ### Headings -/

/-- What the structure text of a value starts with. It tells the constructor of the value. -/
inductive Heading where
  | empty
  | list
  | symbol
  | integer
  | string
  | bool
  | quoted (kind : QuoteKind)
  | callable (role : Role)
  | specialForm
  | typeTag
deriving DecidableEq

namespace Heading

/-- The text of a heading. -/
def spelling : Heading → String
  | empty => "Empty"
  | list => "List["
  | symbol => "Symbol("
  | integer => "Integer("
  | string => "String(\""
  | bool => "Bool("
  | quoted kind => kind.constructorName ++ "("
  | callable .function => "Function("
  | callable .expander => "Macro("
  | specialForm => "SpecialForm("
  | typeTag => "Type("

/-- All headings. -/
def all : List Heading :=
  [empty, list, symbol, integer, string, bool, quoted .quote, quoted .quasiquote, quoted .unquote,
    quoted .splice, callable .function, callable .expander, specialForm, typeTag]

theorem mem_all (heading : Heading) : heading ∈ all := by
  cases heading with
  | quoted kind => cases kind <;> decide
  | callable role => cases role <;> decide
  | _ => decide

/-- No heading is the start of another one. -/
theorem spelling_prefixFree {a b : Heading} (h : a.spelling.toList <+: b.spelling.toList) :
    a = b := by
  have hall : ∀ a ∈ all, ∀ b ∈ all, a.spelling.toList <+: b.spelling.toList → a = b := by decide
  exact hall a a.mem_all b b.mem_all h

/-- The heading of a text can be told, whatever follows it. -/
theorem spelling_append_inj {a b : Heading} {r s : List Char}
    (h : a.spelling.toList ++ r = b.spelling.toList ++ s) : a = b ∧ r = s := by
  have ha : a.spelling.toList <+: b.spelling.toList ++ s := ⟨r, h⟩
  obtain rfl : a = b := by
    obtain hprefix | hprefix := List.prefix_or_prefix_of_prefix ha (List.prefix_append _ _)
    · exact spelling_prefixFree hprefix
    · exact (spelling_prefixFree hprefix).symm
  exact ⟨rfl, List.append_cancel_left h⟩

end Heading

namespace Value

/-! ### The parts of structure text -/

/-- The structure text of a value that stands alone or after the elements of an open list. -/
def shown (p : Place) (v : Value) : List Char :=
  (write structureStyle p "" v).toList

/-- A value that is no list is written after a dot, and the open list is closed after it. -/
theorem toList_write_tail_of_not_isList (style : TextStyle) {v : Value} (h : v.isList = false) :
    (write style .tail "" v).toList =
      ' ' :: '.' :: ' ' :: ((write style .whole "" v).toList ++ style.closing.toList) := by
  cases v with
  | empty | cons => cases h
  | quoted kind inner =>
    rw [write, write]
    simp only [String.toList_append]
    rw [toList_write, toList_write _ _ ("" ++ TextStyle.beforeDotted .whole ++ _)]
    simp [TextStyle.beforeDotted, TextStyle.afterDotted]
  | _ => simp [write, TextStyle.beforeDotted, TextStyle.afterDotted]

theorem toList_structureText (v : Value) : v.structureText.toList = v.shown .whole := rfl

/-- The heading of a value, which stands for its constructor. -/
def heading : Value → Heading
  | empty => .empty
  | cons _ _ => .list
  | symbol _ => .symbol
  | integer _ => .integer
  | string _ => .string
  | bool _ => .bool
  | quoted kind _ => .quoted kind
  | primitive _ _ => .callable .function
  | closure role _ _ _ _ _ => .callable role
  | specialForm _ => .specialForm
  | typeTag _ => .typeTag

/-- What structure text shows of a value after its heading. -/
def content : Value → List Char
  | empty => []
  | cons first rest => first.shown .whole ++ rest.shown .tail
  | symbol name => name.toList ++ [')']
  | integer n => n.digits ++ [')']
  | string text => text.toList ++ ['\x22', ')']
  | bool b => (if b then "true" else "false").toList ++ [')']
  | quoted _ inner => inner.shown .whole ++ [')']
  | primitive name _ | closure _ name _ _ _ _ => name.toList ++ [')']
  | specialForm form => form.name.toList ++ [')']
  | typeTag tag => tag.name.toList ++ [')']

/-- A value without parts that stands alone is shown as its own text. -/
theorem shown_whole_of_leaf {v : Value}
    (h : write structureStyle .whole "" v = "" ++ "" ++ leafStructureText v ++ "") :
    v.shown .whole = (leafStructureText v).toList := by
  rw [shown, h]
  simp

theorem shown_whole (v : Value) : v.shown .whole = v.heading.spelling.toList ++ v.content := by
  cases v with
  | empty => rfl
  | cons first rest =>
    rw [shown, write, toList_write, toList_write, List.append_assoc]
    rfl
  | quoted kind inner =>
    rw [shown, write, String.toList_append, String.toList_append, toList_write]
    simp [TextStyle.beforeDotted, TextStyle.afterDotted, structureStyle, heading, content, shown,
      Heading.spelling]
  | bool b =>
    rw [shown_whole_of_leaf (v := bool b) rfl]
    cases b <;> decide
  | closure role =>
    rw [shown_whole_of_leaf (by cases role <;> rfl)]
    cases role <;> simp [leafStructureText, heading, content, Heading.spelling]
  | _ =>
    rw [shown_whole_of_leaf rfl]
    simp [leafStructureText, heading, content, Heading.spelling, Fixnum.text]

/-- The three ways to go on after the elements of an open list. Their first characters differ. -/
theorem shown_tail_cases (v : Value) :
    (v = empty ∧ v.shown .tail = [']']) ∨
    (∃ first rest, v = cons first rest ∧
      v.shown .tail = ',' :: ' ' :: (cons first rest).content) ∨
    (v.isList = false ∧ v.shown .tail = ' ' :: '.' :: ' ' :: (v.shown .whole ++ [']'])) := by
  cases v with
  | empty => exact .inl ⟨rfl, rfl⟩
  | cons first rest =>
    refine .inr (.inl ⟨first, rest, rfl, ?_⟩)
    rw [shown, write, toList_write, toList_write, List.append_assoc]
    rfl
  | _ => exact .inr (.inr ⟨rfl, toList_write_tail_of_not_isList structureStyle rfl⟩)

/-- Which constructor a structure text starts with, and what it shows after the heading. -/
theorem shown_whole_append_inj {v w : Value} {r s : List Char}
    (h : v.shown .whole ++ r = w.shown .whole ++ s) :
    v.heading = w.heading ∧ v.content ++ r = w.content ++ s := by
  rw [shown_whole, shown_whole, List.append_assoc, List.append_assoc] at h
  exact Heading.spelling_append_inj h

/-- Which of the three ways a structure text goes on after the elements of an open list, and what it
shows after the first characters. -/
theorem shown_tail_append_inj {v w : Value} {r s : List Char}
    (h : v.shown .tail ++ r = w.shown .tail ++ s) :
    (v = empty ∧ w = empty ∧ r = s) ∨
    (∃ first rest first' rest', v = cons first rest ∧ w = cons first' rest' ∧
      (cons first rest).content ++ r = (cons first' rest').content ++ s) ∨
    (v.isList = false ∧ v.shown .whole ++ ']' :: r = w.shown .whole ++ ']' :: s) := by
  obtain ⟨rfl, hv⟩ | ⟨first, rest, rfl, hv⟩ | ⟨hlist, hv⟩ := v.shown_tail_cases <;>
    obtain ⟨rfl, hw⟩ | ⟨first', rest', rfl, hw⟩ | ⟨-, hw⟩ := w.shown_tail_cases <;>
    simp only [hv, hw] at h
  case inl.inl => exact .inl ⟨rfl, rfl, (List.cons.inj h).2⟩
  case inr.inl.inr.inl =>
    exact .inr (.inl ⟨_, _, _, _, rfl, rfl, (List.cons.inj (List.cons.inj h).2).2⟩)
  case inr.inr.inr.inr => exact .inr (.inr ⟨hlist, by simpa using h⟩)
  all_goals cases h

end Value

/-! ### Where names and strings end -/

/-- A name without closing parentheses ends at the first one. -/
theorem append_closing_inj {x y r s : List Char} (hx : ')' ∉ x) (hy : ')' ∉ y)
    (h : (x ++ [')']) ++ r = (y ++ [')']) ++ s) : x = y ∧ r = s := by
  rw [List.append_assoc, List.append_assoc] at h
  have hlength := congrArg (List.idxOf ')') h
  rw [List.idxOf_append_of_notMem hx, List.idxOf_append_of_notMem hy] at hlength
  obtain ⟨rfl, hrest⟩ := List.append_inj h (by simpa using hlength)
  exact ⟨rfl, (List.cons.inj hrest).2⟩

/-- A string ends at its first unescaped quote. -/
theorem Source.LiteralBody.append_quote_inj {x y r s : List Char} (hx : LiteralBody x)
    (hy : LiteralBody y) (h : (x ++ ['\x22', ')']) ++ r = (y ++ ['\x22', ')']) ++ s) :
    x = y ∧ r = s := by
  rw [List.append_assoc, List.append_assoc] at h
  have hx := literalBody?_of_literalBody hx [] (')' :: r)
  have hy := literalBody?_of_literalBody hy [] (')' :: s)
  have hfound := (hx.symm.trans (congrArg (literalBody? []) h)).trans hy
  obtain ⟨hbody, hrest⟩ := Prod.mk.inj (Option.some.inj hfound)
  exact ⟨hbody, (List.cons.inj hrest).2⟩

theorem Fixnum.closing_notMem_digits (a : Fixnum) : ')' ∉ a.digits :=
  Source.IsSymbolName.closing_notMem (.inl (Source.isWord_digits a))

theorem Fixnum.digits_inj {a b : Fixnum} (h : a.digits = b.digits) : a = b :=
  a.spelledBy_digits.unique (h ▸ b.spelledBy_digits)

theorem ValueType.mem_all (tag : ValueType) : tag ∈ all := by
  cases tag <;> decide

/-- Types have different names. -/
theorem ValueType.name_inj {s t : ValueType} (h : s.name = t.name) : s = t := by
  have hall : ∀ s ∈ all, ∀ t ∈ all, s.name = t.name → s = t := by decide
  exact hall s s.mem_all t t.mem_all h

theorem ValueType.closing_notMem_name (tag : ValueType) : ')' ∉ tag.name.toList := by
  cases tag <;> decide

/-! ### Structure text determines values -/

namespace Value

variable {v : Value}

/-- The structure text of the value in a place tells the value among all legible ones, and where the
text ends, whatever follows. -/
def DeterminedIn (p : Place) (v : Value) : Prop :=
  ∀ w : Value, w.IsLegible → ∀ r s, v.shown p ++ r = w.shown p ++ s → v = w ∧ r = s

/-- Where the own text of a value that is no list ends, the open list before it is closed. -/
theorem DeterminedIn.tail (h : v.DeterminedIn .whole) (hv : v.isList = false) :
    v.DeterminedIn .tail := by
  intro w hw r s heq
  obtain ⟨rfl, -⟩ | ⟨first, rest, _, _, rfl, -⟩ | ⟨-, hwhole⟩ := shown_tail_append_inj heq
  · cases hv
  · cases hv
  · obtain ⟨rfl, hrest⟩ := h w hw _ _ hwhole
    exact ⟨rfl, (List.cons.inj hrest).2⟩

theorem DeterminedIn.both (h : v.DeterminedIn .whole) (hv : v.isList = false) :
    v.DeterminedIn .whole ∧ v.DeterminedIn .tail :=
  ⟨h, h.tail hv⟩

/-- Values with another heading need not be considered for a value that stands alone. -/
theorem determinedIn_whole
    (h : ∀ w : Value, w.IsLegible → v.heading = w.heading →
      ∀ r s, v.content ++ r = w.content ++ s → v = w ∧ r = s) : v.DeterminedIn .whole := by
  intro w hw r s heq
  obtain ⟨hheading, hcontent⟩ := shown_whole_append_inj heq
  exact h w hw hheading r s hcontent

theorem determinedIn_symbol {name : String} (hname : Source.IsSymbolName name.toList) :
    (symbol name).DeterminedIn .whole := by
  refine determinedIn_whole fun w hw hheading r s h => ?_
  cases w with
  | symbol name' =>
    obtain ⟨hletters, hrest⟩ := append_closing_inj hname.closing_notMem hw.closing_notMem h
    exact ⟨congrArg symbol (String.toList_inj.1 hletters), hrest⟩
  | _ => cases hheading

theorem determinedIn_integer (n : Fixnum) : (integer n).DeterminedIn .whole := by
  refine determinedIn_whole fun w _ hheading r s h => ?_
  cases w with
  | integer m =>
    obtain ⟨hdigits, hrest⟩ :=
      append_closing_inj n.closing_notMem_digits m.closing_notMem_digits h
    exact ⟨congrArg integer (Fixnum.digits_inj hdigits), hrest⟩
  | _ => cases hheading

theorem determinedIn_string {text : String} (htext : Source.LiteralBody text.toList) :
    (string text).DeterminedIn .whole := by
  refine determinedIn_whole fun w hw hheading r s h => ?_
  cases w with
  | string text' =>
    obtain ⟨hbody, hrest⟩ := htext.append_quote_inj hw h
    exact ⟨congrArg string (String.toList_inj.1 hbody), hrest⟩
  | _ => cases hheading

theorem determinedIn_bool (b : Bool) : (bool b).DeterminedIn .whole := by
  have hclosing (b : Bool) : ')' ∉ (if b then "true" else "false").toList := by
    cases b <;> decide
  refine determinedIn_whole fun w _ hheading r s h => ?_
  cases w with
  | bool c =>
    obtain ⟨hletters, hrest⟩ := append_closing_inj (hclosing b) (hclosing c) h
    refine ⟨congrArg bool ?_, hrest⟩
    cases b <;> cases c <;> first | rfl | exact absurd hletters (by decide)
  | _ => cases hheading

theorem determinedIn_typeTag (tag : ValueType) : (typeTag tag).DeterminedIn .whole := by
  refine determinedIn_whole fun w _ hheading r s h => ?_
  cases w with
  | typeTag tag' =>
    obtain ⟨hletters, hrest⟩ :=
      append_closing_inj tag.closing_notMem_name tag'.closing_notMem_name h
    exact ⟨congrArg typeTag (ValueType.name_inj (String.toList_inj.1 hletters)), hrest⟩
  | _ => cases hheading

theorem determinedIn_quoted (kind : QuoteKind) {inner : Value}
    (hinner : inner.DeterminedIn .whole) : (quoted kind inner).DeterminedIn .whole := by
  refine determinedIn_whole fun w hw hheading r s h => ?_
  cases w with
  | quoted kind' inner' =>
    obtain rfl := Heading.quoted.inj hheading
    rw [content, content, List.append_assoc, List.append_assoc] at h
    obtain ⟨rfl, hrest⟩ := hinner inner' hw _ _ h
    exact ⟨rfl, (List.cons.inj hrest).2⟩
  | _ => cases hheading

/-- The empty list is determined by its heading alone, and closes an open list. -/
theorem determinedIn_empty : empty.DeterminedIn .whole ∧ empty.DeterminedIn .tail := by
  constructor
  · refine determinedIn_whole fun w _ hheading r s h => ?_
    cases w with
    | empty => exact ⟨rfl, h⟩
    | _ => cases hheading
  · intro w _ r s h
    obtain ⟨-, rfl, hrest⟩ | ⟨_, _, _, _, hempty, -⟩ | ⟨hlist, -⟩ := shown_tail_append_inj h
    · exact ⟨rfl, hrest⟩
    · cases hempty
    · cases hlist

/-- A pair is determined by its components, one after the other, in both places. -/
theorem determinedIn_cons {first rest : Value} (hfirst : first.DeterminedIn .whole)
    (hrest : rest.DeterminedIn .tail) :
    (cons first rest).DeterminedIn .whole ∧ (cons first rest).DeterminedIn .tail := by
  have hcomponents {first' rest' : Value} (h' : (cons first' rest').IsLegible) {r s : List Char}
      (h : (cons first rest).content ++ r = (cons first' rest').content ++ s) :
      cons first rest = cons first' rest' ∧ r = s := by
    rw [content, content, List.append_assoc, List.append_assoc] at h
    obtain ⟨rfl, hafter⟩ := hfirst first' h'.1 _ _ h
    obtain ⟨rfl, hend⟩ := hrest rest' h'.2 _ _ hafter
    exact ⟨rfl, hend⟩
  constructor
  · refine determinedIn_whole fun w hw hheading r s h => ?_
    cases w with
    | cons first' rest' => exact hcomponents hw h
    | _ => cases hheading
  · intro w hw r s h
    obtain ⟨hempty, -⟩ | ⟨_, _, first', rest', hv, rfl, hcontent⟩ | ⟨hlist, -⟩ :=
      shown_tail_append_inj h
    · cases hempty
    · cases hv
      exact hcomponents hw hcontent
    · cases hlist

/-- The structure text of a legible value determines it, in both places. -/
theorem IsLegible.determinedIn (hv : v.IsLegible) :
    v.DeterminedIn .whole ∧ v.DeterminedIn .tail := by
  induction v with
  | empty => exact determinedIn_empty
  | cons first rest ihfirst ihrest => exact determinedIn_cons (ihfirst hv.1).1 (ihrest hv.2).2
  | symbol name => exact (determinedIn_symbol hv).both rfl
  | integer n => exact (determinedIn_integer n).both rfl
  | string text => exact (determinedIn_string hv).both rfl
  | bool b => exact (determinedIn_bool b).both rfl
  | quoted kind inner ih => exact (determinedIn_quoted kind (ih hv).1).both rfl
  | typeTag tag => exact (determinedIn_typeTag tag).both rfl
  | primitive | closure | specialForm => exact hv.elim

theorem eq_of_structureText_eq {w : Value} (hv : v.IsLegible) (hw : w.IsLegible)
    (h : v.structureText = w.structureText) : v = w := by
  have hshown : v.shown .whole ++ [] = w.shown .whole ++ [] := by
    rw [← toList_structureText, ← toList_structureText, h]
  exact (hv.determinedIn.1 w hw _ _ hshown).1

/-! ### What program text does not tell apart -/

/-- The values are legible and different, but have the same program text. -/
structure Conflated (v w : Value) : Prop where
  left : v.IsLegible
  right : w.IsLegible
  text_eq : v.text = w.text
  differ : v.equals w = false

/-- A dotted pair is written like a list with a dot in it. -/
theorem conflated_dotted {first rest : Value} (hfirst : first.IsLegible) (hrest : rest.IsLegible)
    (h : rest.isList = false) : (cons first rest).Conflated (ofList [first, symbol ".", rest]) where
  left := ⟨hfirst, hrest⟩
  right := ⟨hfirst, Source.isSymbolName_of_all rfl rfl, hrest, trivial⟩
  text_eq := by
    have htail : rest.written .tail = ' ' :: '.' :: ' ' :: (rest.written .whole ++ [')']) :=
      toList_write_tail_of_not_isList programStyle h
    have hdot : (symbol ".").written .whole = ['.'] := written_symbol ['.']
    have hlist : ofList [first, symbol ".", rest] =
      cons first (cons (symbol ".") (cons rest empty)) := rfl
    have hempty : empty.written .tail = [')'] := rfl
    rw [← String.toList_inj, toList_text, toList_text, hlist, written_whole_cons,
      written_whole_cons, written_tail_cons, written_tail_cons, htail, hdot, hempty]
    rfl
  differ := by
    have hpair (first' rest' : Value) : rest.equals (cons first' rest') = false := by
      cases rest with
      | empty | cons => cases h
      | _ => rfl
    exact Bool.and_eq_false_iff.2 (.inr (hpair _ _))

theorem text_symbol (name : String) : (symbol name).text = name := by
  have hletters := written_symbol name.toList
  rw [String.ofList_toList] at hletters
  rw [← String.toList_inj, toList_text, hletters]

/-- A truth value is written like a symbol. -/
theorem conflated_bool (b : Bool) : (bool b).Conflated (symbol (bool b).text) where
  left := trivial
  right := Source.isSymbolName_of_all (by cases b <;> decide) (by cases b <;> decide)
  text_eq := (text_symbol _).symm
  differ := rfl

/-- A type is written like a symbol. -/
theorem conflated_typeTag (tag : ValueType) :
    (typeTag tag).Conflated (symbol (typeTag tag).text) where
  left := trivial
  right := Source.isSymbolName_of_all (by cases tag <;> decide) (by cases tag <;> decide)
  text_eq := (text_symbol _).symm
  differ := rfl

end Value

/-- Legible values have the same structure text if and only if they are equal, and all values that
are read are legible. Program text is the same for a dotted pair and a list with the symbol `.` in
it, and for a truth value or a type and a symbol, which are different. -/
theorem structureText_unambiguous :
    (∀ a b : Value, a.IsLegible → b.IsLegible →
      (a.structureText = b.structureText ↔ a.equals b = true)) ∧
    (∀ comments text start v stop rest,
      Source.read comments [] start text = .complete v stop rest → v.IsLegible) ∧
    (∀ first rest : Value, first.IsLegible → rest.IsLegible → rest.isList = false →
      (Value.cons first rest).Conflated (.ofList [first, .symbol ".", rest])) ∧
    (∀ b, (Value.bool b).Conflated (.symbol (Value.bool b).text)) ∧
    ∀ tag, (Value.typeTag tag).Conflated (.symbol (Value.typeTag tag).text) := by
  refine ⟨fun a b ha hb => ⟨fun h => ?_, fun h => ?_⟩, fun comments text start v stop rest h => ?_,
    fun first rest => Value.conflated_dotted, Value.conflated_bool, Value.conflated_typeTag⟩
  · rw [Value.eq_of_structureText_eq ha hb h, Value.equals_refl]
  · rw [Value.eq_of_equals_of_holdsOnly ha.holdsOnly h]
  · exact (Source.read_eq_complete_iff.1 h).1.isLegible

/-- A pair whose second component is a truth value. -/
def dottedTruth : Value :=
  .cons (.symbol "a") (.bool true)

/-- The list of three symbols that is read from the program text of `dottedTruth`. -/
def listWithDot : Value :=
  .ofList [.symbol "a", .symbol ".", .symbol "#t"]

theorem structureText_unambiguous_dottedTruth :
    Source.read true [] 0 dottedTruth.text.toList = .complete listWithDot 8 [] ∧
      dottedTruth.text = (Value.ofList [.symbol "a", .symbol ".", .bool true]).text ∧
      dottedTruth.structureText ≠
        (Value.ofList [.symbol "a", .symbol ".", .bool true]).structureText ∧
      dottedTruth.structureText ≠ listWithDot.structureText := by
  have hread : Source.read true [] 0 dottedTruth.text.toList = .complete listWithDot 8 [] := by
    with_unfolding_all rfl
  obtain ⟨htold, hlegible, hdotted, hbool, -⟩ := structureText_unambiguous
  have hlist := hlegible _ _ _ _ _ _ hread
  have hconflated := hdotted (.symbol "a") (.bool true) hlist.1 (hbool true).left rfl
  refine ⟨hread, hconflated.text_eq, fun h => ?_, fun h => ?_⟩
  · have hequals := (htold _ _ hconflated.left hconflated.right).1 h
    rw [hconflated.differ] at hequals
    cases hequals
  · cases (htold _ _ hconflated.left hlist).1 h

end ConsLisp
