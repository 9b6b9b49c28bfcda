import ConsLisp.Proofs.Source.Layout
import ConsLisp.Proofs.Value.Callables
import Mathlib.Data.List.Forall2

/-!
# Values with their frames in other places

A closure remembers the place of the frame that it was made in. The same program may run in two
states that have the same frames in different places, for instance because one of them has frames
that the other does not have. Then the values that come up in the two runs are the same up to the
places of frames. Nothing that is computed from values depends on these: not their texts, not the
numbers of arguments, not the bindings of a call and not the results of primitives.

## Main definitions

* `Places`: where the frames of one state are found in another.
* `Value.IsWithin`: the closures in a value were made in some of the first frames.
* `Value.RelocatesTo`, `Bindings.RelocatesTo`: the same value and the same bindings, up to places.
* `ResultsMatch`: two computations fail alike or have matching results.

## Main results

* `Value.RelocatesTo.text_eq`: values that are the same up to places have one text.
* `bindParameters_match`, `compute_match`: the bindings of calls and the results of primitives
  match.
* `Value.IsWithin.relocatesTo_range`, `Value.RelocatesTo.eq_of_isWithin`: values are in place if the
  frames of their closures are.
-/

namespace ConsLisp

/-- Where the frames of one state are found in another: frame `i` at the `i`th of the places. -/
abbrev Places := List FrameId

variable {R S : Places}

theorem Places.getElem?_of_prefix (hR : R <+: S) {i j : FrameId} (h : R[i]? = some j) :
    S[i]? = some j := by
  obtain ⟨more, rfl⟩ := hR
  rw [List.getElem?_append_left (List.getElem?_eq_some_iff.1 h).1, h]

/-- The second value is the first one with the frames of closures in their places. -/
inductive Value.RelocatesTo (R : Places) : Value → Value → Prop
  | empty : RelocatesTo R .empty .empty
  | cons {first first' rest rest' : Value} (hfirst : RelocatesTo R first first')
      (hrest : RelocatesTo R rest rest') : RelocatesTo R (.cons first rest) (.cons first' rest')
  | symbol (name : String) : RelocatesTo R (.symbol name) (.symbol name)
  | integer (n : Fixnum) : RelocatesTo R (.integer n) (.integer n)
  | string (text : String) : RelocatesTo R (.string text) (.string text)
  | bool (b : Bool) : RelocatesTo R (.bool b) (.bool b)
  | quoted (kind : QuoteKind) {inner inner' : Value} (hinner : RelocatesTo R inner inner') :
      RelocatesTo R (.quoted kind inner) (.quoted kind inner')
  | primitive (name : String) (op : Primitive) :
      RelocatesTo R (.primitive name op) (.primitive name op)
  | closure (role : Role) (name : String) (id : Nat) {params params' body body' : Value}
      {frame frame' : FrameId} (hparams : RelocatesTo R params params')
      (hbody : RelocatesTo R body body') (hframe : R[frame]? = some frame') :
      RelocatesTo R (.closure role name id params body frame)
        (.closure role name id params' body' frame')
  | specialForm (form : SpecialForm) : RelocatesTo R (.specialForm form) (.specialForm form)
  | typeTag (tag : ValueType) : RelocatesTo R (.typeTag tag) (.typeTag tag)

namespace Value.RelocatesTo

variable {v v' : Value}

theorem mono (h : v.RelocatesTo R v') (hR : R <+: S) : v.RelocatesTo S v' := by
  induction h with
  | empty => exact .empty
  | cons _ _ ihfirst ihrest => exact .cons ihfirst ihrest
  | symbol name => exact .symbol name
  | integer n => exact .integer n
  | string text => exact .string text
  | bool b => exact .bool b
  | quoted kind _ ih => exact .quoted kind ih
  | primitive name op => exact .primitive name op
  | closure role name id _ _ hframe ihparams ihbody =>
    exact .closure role name id ihparams ihbody (Places.getElem?_of_prefix hR hframe)
  | specialForm form => exact .specialForm form
  | typeTag tag => exact .typeTag tag

/-- What can be written down has no closures in it. -/
theorem of_isSyntax (h : v.IsSyntax) : v.RelocatesTo R v := by
  induction v with
  | empty => exact .empty
  | cons first rest ihfirst ihrest => exact .cons (ihfirst h.1) (ihrest h.2.2)
  | symbol name => exact .symbol name
  | integer n => exact .integer n
  | string text => exact .string text
  | quoted kind inner ih => exact .quoted kind (ih h)
  | _ => exact absurd h id

/-! ### What does not depend on places -/

theorem write_eq (h : v.RelocatesTo R v') (place : Place) (written : String) :
    write programStyle place written v = write programStyle place written v' := by
  induction h generalizing place written with
  | cons _ _ ihfirst ihrest => rw [write, write, ihfirst, ihrest]
  | quoted kind _ ih => rw [write, write, ih]
  | closure role => cases role <;> rfl
  | _ => rfl

/-- The text of a value does not tell the places of frames. -/
theorem text_eq (h : v.RelocatesTo R v') : v.text = v'.text :=
  h.write_eq .whole ""

theorem typeOf_eq (h : v.RelocatesTo R v') : v.typeOf = v'.typeOf := by
  cases h with
  | closure role => cases role <;> rfl
  | _ => rfl

theorem typeName_eq (h : v.RelocatesTo R v') : v.typeName = v'.typeName :=
  congrArg ValueType.name h.typeOf_eq

theorem isList_eq (h : v.RelocatesTo R v') : v.isList = v'.isList := by
  cases h <;> rfl

theorem isEmptyList_eq (h : v.RelocatesTo R v') : v.isEmptyList = v'.isEmptyList := by
  cases h <;> rfl

theorem isTruthy_eq (h : v.RelocatesTo R v') : v.isTruthy = v'.isTruthy := by
  cases h <;> rfl

/-! ### Lists -/

theorem elements (h : v.RelocatesTo R v') :
    List.Forall₂ (Value.RelocatesTo R) v.elements v'.elements := by
  induction h with
  | cons hfirst _ _ ihrest =>
    rw [elements_cons, elements_cons]
    exact .cons hfirst ihrest
  | _ => exact .nil

theorem length_eq (h : v.RelocatesTo R v') : v.length = v'.length :=
  h.elements.length_eq

theorem unwind {vs vs' : List Value} (hvs : List.Forall₂ (Value.RelocatesTo R) vs vs')
    (h : v.RelocatesTo R v') : (Value.unwind vs v).RelocatesTo R (Value.unwind vs' v') := by
  induction hvs generalizing v v' with
  | nil => exact h
  | cons hfirst _ ih => exact ih (.cons hfirst h)

theorem ofList {vs vs' : List Value} (hvs : List.Forall₂ (Value.RelocatesTo R) vs vs') :
    (Value.ofList vs).RelocatesTo R (Value.ofList vs') := by
  induction hvs with
  | nil => exact .empty
  | cons hfirst _ ih => exact .cons hfirst ih

theorem first? (h : v.RelocatesTo R v') :
    (v.first?.getD .empty).RelocatesTo R (v'.first?.getD .empty) := by
  cases h with
  | cons hfirst => exact hfirst
  | _ => exact .empty

theorem rest? (h : v.RelocatesTo R v') :
    (v.rest?.getD .empty).RelocatesTo R (v'.rest?.getD .empty) := by
  cases h with
  | cons _ hrest => exact hrest
  | _ => exact .empty

theorem named (h : v.RelocatesTo R v') (name : String) :
    (v.named name).RelocatesTo R (v'.named name) := by
  cases h with
  | primitive _ op => exact .primitive name op
  | closure role old id hparams hbody hframe =>
    cases role with
    | function => exact .closure .function name id hparams hbody hframe
    | expander => exact .closure .expander old id hparams hbody hframe
  | cons hfirst hrest => exact .cons hfirst hrest
  | quoted kind hinner => exact .quoted kind hinner
  | empty => exact .empty
  | symbol name => exact .symbol name
  | integer n => exact .integer n
  | string text => exact .string text
  | bool b => exact .bool b
  | specialForm form => exact .specialForm form
  | typeTag tag => exact .typeTag tag

theorem terminator (h : v.RelocatesTo R v') : v.terminator.RelocatesTo R v'.terminator := by
  induction h with
  | cons _ _ _ ihrest => exact ihrest
  | empty => exact .empty
  | symbol name => exact .symbol name
  | integer n => exact .integer n
  | string text => exact .string text
  | bool b => exact .bool b
  | quoted kind hinner => exact .quoted kind hinner
  | primitive name op => exact .primitive name op
  | closure role name id hparams hbody hframe => exact .closure role name id hparams hbody hframe
  | specialForm form => exact .specialForm form
  | typeTag tag => exact .typeTag tag

/-- Both values begin with an expression under a splice mark, or neither does. -/
theorem splice_cases (h : v.RelocatesTo R v') :
    (∃ e e' dropped dropped', v = .cons (.quoted .splice e) dropped ∧
      v' = .cons (.quoted .splice e') dropped' ∧ e.RelocatesTo R e') ∨
    (∀ e dropped, v ≠ .cons (.quoted .splice e) dropped) ∧
      ∀ e dropped, v' ≠ .cons (.quoted .splice e) dropped := by
  cases h with
  | cons hfirst =>
    cases hfirst with
    | quoted kind hinner =>
      cases kind with
      | splice => exact .inl ⟨_, _, _, _, rfl, rfl, hinner⟩
      | _ => exact .inr ⟨nofun, nofun⟩
    | _ => exact .inr ⟨nofun, nofun⟩
  | _ => exact .inr ⟨nofun, nofun⟩

end Value.RelocatesTo

/-! ### Values in place -/

/-- The closures in the value were made in some of the first `n` frames. -/
def Value.IsWithin (n : Nat) : Value → Prop
  | .cons first rest => first.IsWithin n ∧ rest.IsWithin n
  | .quoted _ inner => inner.IsWithin n
  | .closure _ _ _ params body frame => params.IsWithin n ∧ body.IsWithin n ∧ frame < n
  | _ => True

/-- Only values of the state that is moved have a place in the other one. -/
theorem Value.RelocatesTo.isWithin {v v' : Value} (h : v.RelocatesTo R v') :
    v.IsWithin R.length := by
  induction h with
  | cons _ _ ihfirst ihrest => exact ⟨ihfirst, ihrest⟩
  | quoted _ _ ih => exact ih
  | closure _ _ _ _ _ hframe ihparams ihbody =>
    exact ⟨ihparams, ihbody, (List.getElem?_eq_some_iff.1 hframe).1⟩
  | _ => trivial

/-- A value is in place if all frames are. -/
theorem Value.IsWithin.relocatesTo_range {n : Nat} {v : Value} (h : v.IsWithin n) :
    v.RelocatesTo (List.range n) v := by
  induction v with
  | empty => exact .empty
  | cons first rest ihfirst ihrest => exact .cons (ihfirst h.1) (ihrest h.2)
  | symbol name => exact .symbol name
  | integer n => exact .integer n
  | string text => exact .string text
  | bool b => exact .bool b
  | quoted kind inner ih => exact .quoted kind (ih h)
  | primitive name op => exact .primitive name op
  | closure role name id params body frame ihparams ihbody =>
    exact .closure role name id (ihparams h.1) (ihbody h.2.1) (List.getElem?_range h.2.2)
  | specialForm form => exact .specialForm form
  | typeTag tag => exact .typeTag tag

/-- A value in which all closures are from frames in place is in place itself. -/
theorem Value.RelocatesTo.eq_of_isWithin {n : Nat} {v v' : Value} (h : v.RelocatesTo R v')
    (hR : List.range n <+: R) (hv : v.IsWithin n) : v' = v := by
  induction h with
  | cons _ _ ihfirst ihrest => rw [ihfirst hv.1, ihrest hv.2]
  | quoted _ _ ih => rw [ih hv]
  | closure _ _ _ _ _ hframe ihparams ihbody =>
    obtain ⟨hparams, hbody, hlt⟩ := hv
    have hplace := Places.getElem?_of_prefix hR (List.getElem?_range hlt)
    rw [ihparams hparams, ihbody hbody, Option.some.inj (hframe.symm.trans hplace)]
  | _ => rfl

/-! ### Computations -/

/-- The computations fail with the same error, or their results are related. -/
inductive ResultsMatch {α β : Type} (Q : α → β → Prop) : Except Error α → Except Error β → Prop
  | ok {a : α} {b : β} (h : Q a b) : ResultsMatch Q (.ok a) (.ok b)
  | error (e : Error) : ResultsMatch Q (.error e) (.error e)

theorem ResultsMatch.bind {α β γ δ : Type} {Q : α → β → Prop} {P : γ → δ → Prop}
    {m : Except Error α} {m' : Except Error β} {f : α → Except Error γ} {f' : β → Except Error δ}
    (hm : ResultsMatch Q m m') (hf : ∀ a b, Q a b → ResultsMatch P (f a) (f' b)) :
    ResultsMatch P (m >>= f) (m' >>= f') := by
  cases hm with
  | ok h => exact hf _ _ h
  | error e => exact .error e

/-- The elements of proper lists match. -/
theorem properElements_match {v v' : Value} (h : v.RelocatesTo R v') :
    ResultsMatch (List.Forall₂ (Value.RelocatesTo R)) v.properElements v'.properElements := by
  unfold Value.properElements Value.toList?
  rw [h.text_eq]
  have hend := h.terminator
  generalize v.terminator = last at hend
  generalize v'.terminator = last' at hend
  cases hend with
  | empty => exact .ok h.elements
  | _ => exact .error _

/-- The same names are bound, to values that are the same up to places. -/
abbrev Bindings.RelocatesTo (R : Places) (b b' : Bindings) : Prop :=
  List.Forall₂ (fun p p' => p.1 = p'.1 ∧ p.2.RelocatesTo R p'.2) b b'

section Bindings

variable {b b' : Bindings}

theorem Bindings.RelocatesTo.find? (h : Bindings.RelocatesTo R b b') (x : String) :
    Option.Rel (Value.RelocatesTo R) (b.find? x) (b'.find? x) := by
  induction h with
  | nil => exact .none
  | cons hp _ ih =>
    rw [find?_cons, find?_cons, ← hp.1]
    split
    · exact .some hp.2
    · exact ih

theorem Bindings.RelocatesTo.bind? (h : Bindings.RelocatesTo R b b') (x : String) {v v' : Value}
    (hv : v.RelocatesTo R v') :
    ResultsMatch (Bindings.RelocatesTo R) (b.bind? x v) (b'.bind? x v') := by
  have hx := h.find? x
  unfold Bindings.bind?
  generalize b.find? x = bound at hx
  generalize b'.find? x = bound' at hx
  cases hx with
  | none => exact .ok (.cons ⟨rfl, hv⟩ h)
  | some _ => exact .error _

theorem requiredCount_eq {params params' : Value} (h : params.RelocatesTo R params') :
    LambdaList.requiredCount params = LambdaList.requiredCount params' := by
  induction h with
  | cons hfirst _ _ ih =>
    cases hfirst <;> simp only [LambdaList.requiredCount, ih]
  | _ => rfl

section Formals

variable (name : String) {params params' args args' formals formals' actuals actuals' : Value}
  (hparams : params.RelocatesTo R params') (hargs : args.RelocatesTo R args')
include hparams

/-- The parameter for the remaining arguments. -/
theorem bindFormals_rest_match (h : Bindings.RelocatesTo R b b')
    (hformals : formals.RelocatesTo R formals') (hactuals : actuals.RelocatesTo R actuals') :
    ResultsMatch (Bindings.RelocatesTo R)
      (LambdaList.bindFormals name params args b
        (.cons (.symbol LambdaList.restMarker) formals) actuals)
      (LambdaList.bindFormals name params' args' b'
        (.cons (.symbol LambdaList.restMarker) formals') actuals') := by
  unfold LambdaList.bindFormals
  rw [if_pos rfl, if_pos rfl, hparams.text_eq]
  cases hformals with
  | cons hname =>
    cases hname with
    | symbol rest => exact h.bind? rest hactuals
    | _ => exact .error _
  | _ => exact .error _

include hargs

/-- The bindings of calls match. -/
theorem bindFormals_match (h : Bindings.RelocatesTo R b b')
    (hformals : formals.RelocatesTo R formals') (hactuals : actuals.RelocatesTo R actuals') :
    ResultsMatch (Bindings.RelocatesTo R)
      (LambdaList.bindFormals name params args b formals actuals)
      (LambdaList.bindFormals name params' args' b' formals' actuals') := by
  induction hformals generalizing b b' actuals actuals' with
  | cons hformal hrest _ ih =>
    have htext := hformal.text_eq
    cases hformal with
    | symbol x =>
      by_cases hx : x = LambdaList.restMarker
      · subst hx
        exact bindFormals_rest_match name hparams h hrest hactuals
      · unfold LambdaList.bindFormals
        rw [if_neg hx, if_neg hx, requiredCount_eq hparams, hargs.length_eq]
        cases hactuals with
        | cons hactual hmore => exact (h.bind? x hactual).bind fun _ _ hb => ih hb hmore
        | _ => exact .error _
    | cons hname hdefault =>
      cases hname with
      | symbol x =>
        cases hdefault with
        | cons hdefault =>
          have hsame := hactuals
          cases hactuals with
          | cons hactual hmore => exact (h.bind? x hactual).bind fun _ _ hb => ih hb hmore
          | _ => exact (h.bind? x hdefault).bind fun _ _ hb => ih hb hsame
        | _ =>
          unfold LambdaList.bindFormals
          rw [htext]
          exact .error _
      | _ =>
        unfold LambdaList.bindFormals
        rw [htext]
        exact .error _
    | _ =>
      unfold LambdaList.bindFormals
      rw [htext]
      exact .error _
  | _ => exact .ok h

theorem bindParameters_match :
    ResultsMatch (Bindings.RelocatesTo R) (LambdaList.bindParameters name params args)
      (LambdaList.bindParameters name params' args') :=
  bindFormals_match name hparams hargs .nil hparams hargs

end Formals

end Bindings

/-! ### Primitives -/

section Primitives

variable {v v' args args' : Value} {vs vs' : List Value}

theorem integerOf_eq (h : v.RelocatesTo R v') (op : String) : integerOf op v = integerOf op v' := by
  have htype := h.typeName_eq
  have htext := h.text_eq
  cases h with
  | integer n => rfl
  | _ => simp only [integerOf, htype, htext]

theorem foldIntegers_eq (h : List.Forall₂ (Value.RelocatesTo R) vs vs') (op : String)
    (combine : Fixnum → Fixnum → Except Error Fixnum) (start : Fixnum) :
    foldIntegers op combine start vs = foldIntegers op combine start vs' := by
  induction h generalizing start with
  | nil => rfl
  | cons hv _ ih =>
    unfold foldIntegers at ih ⊢
    rw [List.foldlM_cons, List.foldlM_cons, integerOf_eq hv]
    exact congrArg _ (funext ih)

theorem difference_eq (h : List.Forall₂ (Value.RelocatesTo R) vs vs') :
    Primitive.difference vs = Primitive.difference vs' := by
  cases h with
  | nil => rfl
  | cons hv hmore =>
    cases hmore with
    | nil => rw [Primitive.difference, Primitive.difference, integerOf_eq hv]
    | cons hw hmore =>
      have hfold := foldIntegers_eq (.cons hw hmore) Primitive.subtract.name Fixnum.subtract
      rw [Primitive.difference, Primitive.difference, integerOf_eq hv]
      · exact congrArg _ (funext hfold)
      · nofun
      · nofun

theorem quotient_eq (h : List.Forall₂ (Value.RelocatesTo R) vs vs') :
    Primitive.quotient vs = Primitive.quotient vs' := by
  cases h with
  | nil => rfl
  | cons hv hmore =>
    cases hmore with
    | nil => exact foldIntegers_eq (.cons hv .nil) _ _ _
    | cons hw hmore =>
      have hfold := foldIntegers_eq (.cons hw hmore) Primitive.divide.name Fixnum.divide
      rw [Primitive.quotient, Primitive.quotient, integerOf_eq hv]
      · exact congrArg _ (funext hfold)
      · nofun
      · nofun

/-- What is printed does not tell the places of frames. -/
theorem lines_eq (h : List.Forall₂ (Value.RelocatesTo R) vs vs') :
    Primitive.lines vs = Primitive.lines vs' := by
  unfold Primitive.lines
  generalize "" = printed
  induction h generalizing printed with
  | nil => rfl
  | cons hv _ ih =>
    rw [List.foldl_cons, List.foldl_cons, ih]
    have htext := hv.text_eq
    cases hv with
    | string text => rfl
    | _ => simp only [htext]

theorem integer_match (n? : Except Error Fixnum) :
    ResultsMatch (Value.RelocatesTo R) (.integer <$> n?) (.integer <$> n?) := by
  cases n? with
  | ok n => exact .ok (.integer n)
  | error e => exact .error e

/-- A component of the only argument, if this is a pair. -/
theorem pair_match (component : Value → Value → Value)
    (hcomponent : ∀ {first first' rest rest' : Value}, first.RelocatesTo R first' →
      rest.RelocatesTo R rest' → (component first rest).RelocatesTo R (component first' rest')) :
    v.RelocatesTo R v' → ResultsMatch (Value.RelocatesTo R)
      (match v with
        | .cons first rest => .ok (component first rest)
        | v => .error (.typing (.pairRequired v.text)))
      (match v' with
        | .cons first rest => .ok (component first rest)
        | v => .error (.typing (.pairRequired v.text))) := by
  intro h
  have htext := h.text_eq
  cases h with
  | cons hfirst hrest => exact .ok (hcomponent hfirst hrest)
  | _ =>
    simp only [htext]
    exact .error _

theorem cons_match (h : args.RelocatesTo R args') :
    ResultsMatch (Value.RelocatesTo R) (Primitive.cons.compute args)
      (Primitive.cons.compute args') := by
  have hlength := h.length_eq
  rw [Primitive.compute.eq_def, Primitive.compute.eq_def]
  cases h with
  | cons hfirst hrest =>
    cases hrest with
    | cons hrest =>
      simp only [hrest.isList_eq, hrest.text_eq]
      split
      · exact .ok (.cons hfirst hrest)
      · exact .error _
    | _ =>
      simp only [hlength]
      exact .error _
  | _ =>
    simp only [hlength]
    exact .error _

/-- The results of primitives match. -/
theorem compute_match (h : args.RelocatesTo R args') (op : Primitive) :
    ResultsMatch (Value.RelocatesTo R) (op.compute args) (op.compute args') := by
  have hsole : (Primitive.soleArgument args).RelocatesTo R (Primitive.soleArgument args') :=
    h.first?
  cases op with
  | add | multiply =>
    rw [Primitive.compute, Primitive.compute, foldIntegers_eq h.elements]
    exact integer_match _
  | subtract =>
    rw [Primitive.compute, Primitive.compute, difference_eq h.elements]
    exact integer_match _
  | divide =>
    rw [Primitive.compute, Primitive.compute, quotient_eq h.elements]
    exact integer_match _
  | car => exact pair_match (fun first _ => first) (fun hfirst _ => hfirst) hsole
  | cdr => exact pair_match (fun _ rest => rest) (fun _ hrest => hrest) hsole
  | cons => exact cons_match h
  | list => exact .ok h
  | isEmpty =>
    rw [Primitive.compute, Primitive.compute, hsole.isEmptyList_eq]
    exact .ok (.bool _)
  | typeOf =>
    rw [Primitive.compute, Primitive.compute, hsole.typeOf_eq]
    exact .ok (.typeTag _)
  | println => exact .ok (.bool true)

end Primitives

end ConsLisp
