import ConsLisp.Evaluation.Primitive
import ConsLisp.Proofs.Value.Callables
import Mathlib.Data.List.Forall2

/-!
# Equality sees the essence of a value

Equality does not look at the display names of callables, nor into closures. What remains of a value
without these is its essence, and two values are equal if and only if they have the same essence. So
equality is an equivalence relation, and agrees with everything that can be told from the essence.

Primitives other than `println` find the essence of their result in the essence of their arguments.
Their errors show the arguments with the names that equality does not see, but are of the same
variant.

Lists are compared in a loop along both spines, which stops where the spines are the same object.
This comes to comparing first and rest.

## Main definitions

* `Value.essence`: what equality sees of a value.
* `Value.equalsByLoop`, `Value.listsEqual`: equality with a loop along two lists.
* `Error.variant`: the variants of errors.
* `ResultsCorrespond`: the second result is found from the first, or both are errors of one variant.
* `Outcome.EqualIn`: equal results or errors of one variant, in a given state.

## Main results

* `Value.equals_iff_essence_eq`: values are equal if and only if their essences are the same.
* `Value.equalsByLoop_eq`: the loop gives the answer of the recursion.
* `Value.eq_of_equals_of_holdsOnly`: equal values without functions and macros are the same.
* `Primitive.compute_essence`: what primitives do with the essence of their arguments.
* `equality_is_congruence`: equality of values as a whole.
-/

namespace ConsLisp

namespace Value

variable {v w : Value}

/-- What equality sees of a value: of a callable, only what tells it apart from others. -/
def essence : Value → Value
  | cons first rest => cons first.essence rest.essence
  | quoted kind inner => quoted kind inner.essence
  | primitive _ op => primitive "" op
  | closure role _ id _ _ _ => closure role "" id empty empty 0
  | v => v

theorem equals_iff_essence_eq : v.equals w = true ↔ v.essence = w.essence := by
  induction v generalizing w with
  | cons first rest ihfirst ihrest =>
    cases w <;> simp [equals, essence, ihfirst, ihrest]
  | quoted kind inner ih => cases w <;> simp [equals, essence, ih]
  | _ => cases w <;> simp [equals, essence]

theorem equals_symm (h : v.equals w = true) : w.equals v = true :=
  equals_iff_essence_eq.2 (equals_iff_essence_eq.1 h).symm

theorem equals_trans {u : Value} (h : u.equals v = true) (h' : v.equals w = true) :
    u.equals w = true :=
  equals_iff_essence_eq.2 ((equals_iff_essence_eq.1 h).trans (equals_iff_essence_eq.1 h'))

/-! ### The loop along two lists -/

theorem sizeOf_pos (v : Value) : 0 < sizeOf v := by
  cases v <;> simp +arith

mutual

/-- Whether two values are equal, where two pairs are compared by the loop `listsEqual`. -/
def equalsByLoop (same : Value → Value → Bool) (v w : Value) : Bool :=
  match v, w with
  | cons a as, cons b bs => listsEqual same a as b bs
  | quoted j a, quoted k b => j == k && equalsByLoop same a b
  | v, w => equals v w
termination_by sizeOf v

/-- Goes along the lists `(a . as)` and `(b . bs)`, and stops with the answer `true` at two pairs
that are the same object. What both lists end in is compared as any two values are. -/
def listsEqual (same : Value → Value → Bool) (a as b bs : Value) : Bool :=
  if same (cons a as) (cons b bs) then true
  else if !equalsByLoop same a b then false
  else
    match as, bs with
    | cons a as, cons b bs => listsEqual same a as b bs
    | as, bs => equalsByLoop same as bs
termination_by sizeOf a + sizeOf as
decreasing_by
  · have := sizeOf_pos as
    omega
  · rw [cons.sizeOf_spec]
    have := sizeOf_pos a
    omega
  · have := sizeOf_pos a
    omega

end

/-- One round of the loop. Going on with the next pairs is comparing what is left of both lists. -/
theorem listsEqual_eq_or (same : Value → Value → Bool) (a as b bs : Value) :
    listsEqual same a as b bs =
      (same (cons a as) (cons b bs) || (equalsByLoop same a b && equalsByLoop same as bs)) := by
  have hrest : (match as, bs with
      | cons a as, cons b bs => listsEqual same a as b bs
      | as, bs => equalsByLoop same as bs) = equalsByLoop same as bs := by
    split
    · rw [equalsByLoop]
    · rfl
  rw [listsEqual.eq_def, hrest]
  cases same (cons a as) (cons b bs) <;> cases equalsByLoop same a b <;> rfl

/-- The loop gives the same answer as comparing first and rest, whichever pairs are known to be the
same objects. -/
theorem equalsByLoop_eq {same : Value → Value → Bool} (hsame : ∀ v w, same v w = true → v = w)
    (v w : Value) : equalsByLoop same v w = equals v w := by
  induction v generalizing w with
  | cons a as iha ihas =>
    cases w with
    | cons b bs =>
      rw [equalsByLoop, listsEqual_eq_or, iha, ihas, ← equals]
      cases hshared : same (cons a as) (cons b bs) with
      | true => rw [← hsame _ _ hshared, equals_refl, Bool.true_or]
      | false => rw [Bool.false_or]
    | _ => simp [equalsByLoop]
  | quoted k a ih => cases w <;> simp [equalsByLoop, equals, ih]
  | _ => cases w <;> simp [equalsByLoop]

/-! ### What can be told from the essence -/

@[simp] theorem typeOf_essence (v : Value) : v.essence.typeOf = v.typeOf := by
  cases v with
  | closure role => cases role <;> rfl
  | _ => rfl

@[simp] theorem isList_essence (v : Value) : v.essence.isList = v.isList := by
  cases v <;> rfl

@[simp] theorem isEmptyList_essence (v : Value) : v.essence.isEmptyList = v.isEmptyList := by
  cases v <;> rfl

@[simp] theorem elements_essence (v : Value) : v.essence.elements = v.elements.map essence := by
  induction v with
  | cons first rest _ ih => simp only [essence, elements_cons, ih, List.map_cons]
  | _ => rfl

@[simp] theorem length_essence (v : Value) : v.essence.length = v.length := by
  rw [length, elements_essence, List.length_map, length]

/-- Lists are equal if their elements are, one by one. -/
theorem equals_ofList {vs ws : List Value} (h : List.Forall₂ (fun v w => v.equals w = true) vs ws) :
    (ofList vs).equals (ofList ws) = true := by
  induction h with
  | nil => rfl
  | cons hv _ ih => exact Bool.and_eq_true_iff.2 ⟨hv, ih⟩

/-! ### Values without functions and macros -/

/-- The callable is a special form. Equality sees all of it. -/
def IsSpecialForm (v : Value) : Prop :=
  ∃ form, v = specialForm form

theorem essence_eq_self (h : v.HoldsOnly IsSpecialForm) : v.essence = v := by
  induction v with
  | cons first rest ihfirst ihrest =>
    rw [holdsOnly_cons] at h
    rw [essence, ihfirst h.1, ihrest h.2]
  | quoted kind inner ih => rw [essence, ih h]
  | primitive | closure =>
    obtain ⟨form, hform⟩ := h _ List.mem_cons_self
    cases hform
  | _ => rfl

/-- If the essence of a value has no functions and macros, then nor has the value. -/
theorem essence_eq_self_of_holdsOnly_essence (h : v.essence.HoldsOnly IsSpecialForm) :
    v.essence = v := by
  induction v with
  | cons first rest ihfirst ihrest =>
    rw [essence, holdsOnly_cons] at h
    rw [essence, ihfirst h.1, ihrest h.2]
  | quoted kind inner ih => rw [essence, ih h]
  | primitive | closure =>
    obtain ⟨form, hform⟩ := h _ List.mem_cons_self
    cases hform
  | _ => rfl

theorem eq_of_equals_of_holdsOnly (hv : v.HoldsOnly IsSpecialForm) (h : v.equals w = true) :
    v = w := by
  have hessence := (essence_eq_self hv).symm.trans (equals_iff_essence_eq.1 h)
  rw [hessence] at hv
  exact hessence.trans (essence_eq_self_of_holdsOnly_essence hv)

end Value

/-! ### Primitives -/

/-- The variants of errors. -/
inductive ErrorVariant where
  | reading
  | unbound
  | typing
  | calling
  | arity
  | alreadyBound
  | loading
  | evaluation
deriving DecidableEq

/-- The variant of an error, which leaves out what the error tells about its cause. -/
def Error.variant : Error → ErrorVariant
  | reading _ => .reading
  | unbound _ => .unbound
  | typing _ => .typing
  | calling _ => .calling
  | arity _ _ _ => .arity
  | alreadyBound _ => .alreadyBound
  | loading _ _ => .loading
  | evaluation _ => .evaluation

/-- The second computation has the result that `f` finds from the result of the first, or both fail
with errors of one variant. -/
inductive ResultsCorrespond {α β : Type} (f : α → β) : Except Error α → Except Error β → Prop
  | ok {a : α} {b : β} (h : f a = b) : ResultsCorrespond f (.ok a) (.ok b)
  | error {e e' : Error} (h : e.variant = e'.variant) : ResultsCorrespond f (.error e) (.error e')

namespace ResultsCorrespond

variable {α β γ δ : Type} {f : α → β} {g : γ → δ}

theorem refl (m : Except Error α) : ResultsCorrespond id m m := by
  cases m with
  | ok a => exact .ok rfl
  | error e => exact .error rfl

/-- Type errors are of one variant, whatever they tell. -/
theorem typing (fault fault' : TypeFault) :
    ResultsCorrespond f (.error (.typing fault)) (.error (.typing fault')) :=
  .error rfl

theorem bind {m : Except Error α} {m' : Except Error β} {k : α → Except Error γ}
    {k' : β → Except Error δ} (hm : ResultsCorrespond f m m')
    (hk : ∀ a, ResultsCorrespond g (k a) (k' (f a))) :
    ResultsCorrespond g (m >>= k) (m' >>= k') := by
  cases hm with
  | @ok a _ h =>
    subst h
    exact hk a
  | error h => exact .error h

theorem integer {n? n?' : Except Error Fixnum} (h : ResultsCorrespond id n? n?') :
    ResultsCorrespond Value.essence (.integer <$> n?) (.integer <$> n?') := by
  cases h with
  | ok h => exact .ok (congrArg Value.integer h)
  | error h => exact .error h

end ResultsCorrespond

theorem integerOf_essence (op : String) (v : Value) :
    ResultsCorrespond id (integerOf op v) (integerOf op v.essence) := by
  cases v with
  | integer n => exact .ok rfl
  | _ => exact .typing _ _

theorem foldIntegers_essence (op : String) (combine : Fixnum → Fixnum → Except Error Fixnum)
    (start : Fixnum) (vs : List Value) :
    ResultsCorrespond id (foldIntegers op combine start vs)
      (foldIntegers op combine start (vs.map Value.essence)) := by
  induction vs generalizing start with
  | nil => exact .ok rfl
  | cons v vs ih =>
    rw [List.map_cons, foldIntegers, foldIntegers, List.foldlM_cons, List.foldlM_cons]
    exact ((integerOf_essence op v).bind fun n => .refl (combine start n)).bind ih

namespace Primitive

theorem difference_essence (vs : List Value) :
    ResultsCorrespond id (difference vs) (difference (vs.map Value.essence)) := by
  match vs with
  | [] => exact .error rfl
  | [v] => exact (integerOf_essence _ v).bind fun n => .refl n.negate
  | v :: w :: vs =>
    exact (integerOf_essence _ v).bind fun n => foldIntegers_essence _ Fixnum.subtract n (w :: vs)

theorem quotient_essence (vs : List Value) :
    ResultsCorrespond id (quotient vs) (quotient (vs.map Value.essence)) := by
  match vs with
  | [] => exact .error rfl
  | [v] => exact foldIntegers_essence _ Fixnum.divide 1 [v]
  | v :: w :: vs =>
    exact (integerOf_essence _ v).bind fun n => foldIntegers_essence _ Fixnum.divide n (w :: vs)

theorem soleArgument_essence (args : Value) :
    soleArgument args.essence = (soleArgument args).essence := by
  cases args <;> rfl

/-- A component of the only argument, if this is a pair. -/
theorem component_essence (component : Value → Value → Value)
    (hcomponent : ∀ first rest,
      (component first rest).essence = component first.essence rest.essence) (v : Value) :
    ResultsCorrespond Value.essence
      (match v with
        | .cons first rest => .ok (component first rest)
        | v => .error (.typing (.pairRequired v.text)))
      (match v.essence with
        | .cons first rest => .ok (component first rest)
        | v => .error (.typing (.pairRequired v.text))) := by
  cases v with
  | cons first rest =>
    rw [Value.essence]
    exact .ok (hcomponent first rest)
  | _ => exact .typing _ _

theorem cons_essence (args : Value) :
    ResultsCorrespond Value.essence (cons.compute args) (cons.compute args.essence) := by
  cases args with
  | cons first args =>
    cases args with
    | cons rest _ =>
      rw [Value.essence, Value.essence, compute, compute, Value.isList_essence]
      split
      · exact .ok rfl
      · exact .typing _ _
    | _ => exact .error rfl
  | _ => exact .error rfl

/-- The result of a primitive on the essence of the arguments is the essence of its result. -/
theorem compute_essence (op : Primitive) (args : Value) :
    ResultsCorrespond Value.essence (op.compute args) (op.compute args.essence) := by
  cases op with
  | add | multiply =>
    rw [compute, compute, Value.elements_essence]
    exact (foldIntegers_essence _ _ _ _).integer
  | subtract =>
    rw [compute, compute, Value.elements_essence]
    exact (difference_essence _).integer
  | divide =>
    rw [compute, compute, Value.elements_essence]
    exact (quotient_essence _).integer
  | car =>
    rw [compute, compute, soleArgument_essence]
    exact component_essence (fun first _ => first) (fun _ _ => rfl) _
  | cdr =>
    rw [compute, compute, soleArgument_essence]
    exact component_essence (fun _ rest => rest) (fun _ _ => rfl) _
  | cons => exact cons_essence args
  | list => exact .ok rfl
  | isEmpty =>
    rw [compute, compute, soleArgument_essence, Value.isEmptyList_essence]
    exact .ok rfl
  | typeOf =>
    rw [compute, compute, soleArgument_essence, Value.typeOf_essence]
    exact .ok rfl
  | println => exact .ok rfl

/-- The result of a call of a primitive, or its error, where the number of arguments is checked. -/
def answer (op : Primitive) (args : Value) : Except Error Value := do
  op.arity.check op.name args.length
  op.compute args

/-- A primitive that prints nothing leaves the state as it was. -/
theorem apply_eq_answer {op : Primitive} (h : op ≠ .println) (args : Value) (σ : State) :
    op.apply args σ = Action.ofExcept (op.answer args) σ := by
  rw [apply, Action.bind_apply, run_eq h, answer]
  cases op.arity.check op.name args.length <;> rfl

theorem answer_essence (op : Primitive) (args : Value) :
    ResultsCorrespond Value.essence (op.answer args) (op.answer args.essence) := by
  rw [answer, answer, Value.length_essence]
  exact (ResultsCorrespond.refl _).bind fun _ => compute_essence op args

end Primitive

/-- The outcomes are equal results or errors of one variant, and both end in the state `σ`. -/
inductive Outcome.EqualIn (σ : State) : Outcome Value → Outcome Value → Prop
  | done {v w : Value} (h : v.equals w = true) : EqualIn σ (.done v σ) (.done w σ)
  | failed {e e' : Error} (h : e.variant = e'.variant) : EqualIn σ (.failed e σ) (.failed e' σ)

/-- Primitives give equal answers to equal argument lists. -/
theorem Primitive.apply_equalIn {op : Primitive} (hop : op ≠ .println) {args args' : Value}
    (h : args.equals args' = true) (σ : State) :
    Outcome.EqualIn σ (op.apply args σ) (op.apply args' σ) := by
  have hargs := answer_essence op args
  have hargs' := answer_essence op args'
  rw [← Value.equals_iff_essence_eq.1 h] at hargs'
  rw [apply_eq_answer hop, apply_eq_answer hop]
  generalize op.answer args.essence = r at hargs hargs'
  generalize op.answer args = r₁ at hargs ⊢
  generalize op.answer args' = r₂ at hargs' ⊢
  cases hargs with
  | ok hv =>
    cases hargs' with
    | ok hw => exact .done (Value.equals_iff_essence_eq.2 (hv.trans hw.symm))
  | error he =>
    cases hargs' with
    | error he' => exact .failed (he.trans he'.symm)

/-- Equality of values is reflexive, symmetric and transitive. Comparing two lists in a loop, where
pairs may be known to be the same object, gives the answer of comparing first and rest. Equal values
have the same type and the same length, and the same printed forms unless a function or a macro
occurs in them. A primitive other than `println` gives equal results for argument lists with equal
elements, or errors of one variant, and changes nothing. -/
theorem equality_is_congruence :
    (∀ a : Value, a.equals a = true) ∧
    (∀ a b : Value, a.equals b = true → b.equals a = true) ∧
    (∀ a b c : Value, a.equals b = true → b.equals c = true → a.equals c = true) ∧
    (∀ same : Value → Value → Bool, (∀ v w, same v w = true → v = w) →
      (∀ a b, Value.equalsByLoop same a b = a.equals b) ∧
      ∀ a as b bs, Value.listsEqual same a as b bs = (a.equals b && as.equals bs)) ∧
    (∀ a b : Value, a.equals b = true →
      a.typeOf = b.typeOf ∧ a.length = b.length ∧
      (a.HoldsOnly Value.IsSpecialForm → a.text = b.text ∧ a.structureText = b.structureText)) ∧
    ∀ op ≠ Primitive.println, ∀ vs ws : List Value,
      List.Forall₂ (fun v w => v.equals w = true) vs ws →
      ∀ σ, Outcome.EqualIn σ (op.apply (.ofList vs) σ) (op.apply (.ofList ws) σ) := by
  refine ⟨Value.equals_refl, fun a b h => Value.equals_symm h,
    fun a b c hab hbc => Value.equals_trans hab hbc,
    fun same hsame => ⟨Value.equalsByLoop_eq hsame, fun a as b bs => ?_⟩,
    fun a b h => ⟨Value.typeOf_eq_of_equals h, ?_, fun ha => ?_⟩,
    fun op hop vs ws h σ => Primitive.apply_equalIn hop (Value.equals_ofList h) σ⟩
  · rw [← Value.equals, ← Value.equalsByLoop_eq hsame, Value.equalsByLoop]
  · rw [← Value.length_essence, Value.equals_iff_essence_eq.1 h, Value.length_essence]
  · rw [Value.eq_of_equals_of_holdsOnly ha h]
    exact ⟨rfl, rfl⟩

/-- The function `car` under its own name. -/
def originalCar : Value :=
  .primitive "car" .car

/-- The function `car` under another name. -/
def renamedCar : Value :=
  .primitive "head" .car

/-- A state without frames. -/
def stateWithoutFrames : State :=
  ⟨#[], 0, ""⟩

/-- The names of a function make no difference to equality. They are shown in the errors of `+`,
which are of one variant. -/
theorem equality_is_congruence_renamedCar :
    renamedCar.equals originalCar = true ∧ originalCar.equals renamedCar = true ∧
    renamedCar.typeOf = originalCar.typeOf ∧
    Value.listsEqual (fun _ _ => false) renamedCar .empty originalCar .empty = true ∧
    (Value.ofList [.specialForm .branch]).HoldsOnly Value.IsSpecialForm ∧
    (Value.ofList [.specialForm .branch]).text = (Value.cons (.specialForm .branch) .empty).text ∧
    Outcome.EqualIn stateWithoutFrames
      (.failed (.typing (.integersRequired "+" "function" "<function head>")) stateWithoutFrames)
      (.failed (.typing (.integersRequired "+" "function" "<function car>")) stateWithoutFrames) := by
  have hequals : renamedCar.equals originalCar = true := rfl
  have hform : (Value.ofList [.specialForm .branch]).HoldsOnly Value.IsSpecialForm := by
    simp [Value.ofList, Value.chain, Value.HoldsOnly, Value.callables, Value.IsSpecialForm]
  obtain ⟨-, hsymm, -, hloop, htold, hprimitive⟩ := equality_is_congruence
  have hlists := (hloop (fun _ _ => false) (by simp)).2 renamedCar .empty originalCar .empty
  exact ⟨hequals, hsymm _ _ hequals, (htold _ _ hequals).1, hlists, hform,
    ((htold _ (.cons (.specialForm .branch) .empty) rfl).2.2 hform).1,
    hprimitive .add (by decide) [renamedCar] [originalCar] (.cons hequals .nil) stateWithoutFrames⟩

end ConsLisp
