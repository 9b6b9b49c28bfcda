import ConsLisp.Proofs.Evaluation.Failures
import ConsLisp.Session

/-!
# Refusals of a number of arguments

A refusal tells how many arguments are expected and how many there are. It is *truthful* when the
number of arguments is one that is not expected. Special forms and primitives are truthful. A
closure tells how many plain parameters it has, but it takes its arguments from left to right, and
an optional parameter takes one too as long as there are any. So a closure is truthful if all of its
plain parameters stand before the optional ones, and otherwise there are arguments that it refuses
although there are as many of them as it says it expects.

## Main definitions

* `Event.putsPlainFirst`: no closure comes up that has a plain parameter after an optional one.

## Main results

* `LambdaList.truthful_iff_plainFirst`: the lambda lists with which a closure is truthful.
* `refusals_truthful`: all refusals are truthful as long as no other closure is called.
* `refused_as_expected`: a refusal that is not truthful.
-/

namespace ConsLisp

/-- The value of an evaluation is no closure that has a plain parameter after an optional one. -/
def Event.putsPlainFirst : Event → Bool
  | .evaluated (.closure _ _ _ params _ _) => LambdaList.plainFirst params
  | _ => true

/-! ### Closures -/

/-- Two sets of bindings bind the same names. -/
def Bindings.SameNames (b b' : Bindings) : Prop :=
  ∀ x, b'.find? x = none ↔ b.find? x = none

/-- Where a name can be bound to one value, it can be bound to another. -/
theorem Bindings.SameNames.bind? {b b' c : Bindings} (h : b.SameNames b') {x : String} {v : Value}
    (hc : b.bind? x v = .ok c) (v' : Value) :
    ∃ c', b'.bind? x v' = .ok c' ∧ c.SameNames c' := by
  have hx : b.find? x = none := by
    unfold Bindings.bind? at hc
    split at hc <;> cases hc
    assumption
  have hc' : b'.bind? x v' = .ok ((x, v') :: b') := by
    rw [Bindings.bind?, (h x).2 hx]
  refine ⟨_, hc', fun y => ?_⟩
  rw [find?_of_bind? hc, find?_of_bind? hc']
  split
  · simp
  · exact h y

namespace LambdaList

theorem exists_of_bind?_bind_eq_ok {b : Bindings} {x : String} {v : Value} {α : Type}
    {more : Bindings → Except Error α} {a : α} (h : (b.bind? x v >>= more) = .ok a) :
    ∃ c, b.bind? x v = .ok c ∧ more c = .ok a := by
  cases hc : b.bind? x v with
  | error e =>
    rw [hc] at h
    cases h
  | ok c =>
    rw [hc] at h
    exact ⟨c, rfl, h⟩

/-- The refusal of a closure. -/
abbrev refusal (name : String) (params args : Value) : Error :=
  .arity name (.atLeast (requiredCount params)) args.length

/-- A closure with its plain parameters first is truthful. -/
theorem not_admits_of_bindParameters {name name' : String} {params args : Value} {expected : Arity}
    {got : Nat} (hparams : plainFirst params = true)
    (h : bindParameters name params args = .error (.arity name' expected got)) :
    ¬ expected.Admits got := by
  rcases isOrdinary_or_eq_arity_of_bindFormals h with hordinary | ⟨hrefusal, hcount⟩
  · exact hordinary.elim
  · obtain ⟨-, rfl, rfl⟩ := Error.arity.inj hrefusal
    exact Nat.not_le_of_lt (hcount hparams)

section Refused

variable {name : String} {params params' args args' : Value} {bound bound' b : Bindings}
  {formals actuals : Value}

/-- A plain parameter takes an argument. -/
theorem bindFormals_plain {x : String} (hx : x ≠ restMarker) (formals actual actuals : Value) :
    bindFormals name params args bound (.cons (.symbol x) formals) (.cons actual actuals) =
      (bound.bind? x actual >>= fun c => bindFormals name params args c formals actuals) :=
  if_neg hx

/-- An optional parameter takes an argument if there is one. -/
theorem bindFormals_optional (x : String) (default rest formals actuals : Value) :
    bindFormals name params args bound (.cons (.cons (.symbol x) (.cons default rest)) formals)
        actuals =
      (bound.bind? x (actuals.first?.getD default) >>= fun c =>
        bindFormals name params args c formals (actuals.rest?.getD actuals)) := by
  cases actuals <;> rfl

theorem length_rest? (v : Value) : (v.rest?.getD v).length = v.length - 1 := by
  cases v with
  | cons first rest => rw [Value.length_cons]; rfl
  | _ => rfl

/-- A plain parameter that finds no argument left is refused. -/
theorem bindFormals_plain_of_length_eq_zero {x : String} (hx : x ≠ restMarker) (formals : Value)
    {few : Value} (hfew : few.length = 0) :
    bindFormals name params args bound (.cons (.symbol x) formals) few =
      .error (refusal name params args) := by
  cases few with
  | cons first rest =>
    rw [Value.length_cons] at hfew
    cases hfew
  | _ => exact if_neg hx

/-- If the parameters after an optional one are refused for want of arguments, they are so with the
optional one before them, whether it takes an argument or not. -/
theorem bindFormals_optional_of_length_lt {c : Bindings} {x : String}
    {v default rest few : Value} (hc : bound.bind? x v = .ok c) (hbound : bound.SameNames bound')
    (h : ∀ {c' : Bindings}, c.SameNames c' → ∀ few : Value, few.length < requiredCount formals →
      bindFormals name params' args' c' formals few = .error (refusal name params' args'))
    (hfew : few.length < requiredCount formals) :
    bindFormals name params' args' bound' (.cons (.cons (.symbol x) (.cons default rest)) formals)
      few = .error (refusal name params' args') := by
  obtain ⟨c', hc', hsame⟩ := hbound.bind? hc (few.first?.getD default)
  rw [bindFormals_optional, hc']
  refine h hsame _ (Nat.lt_of_le_of_lt ?_ hfew)
  rw [length_rest?]
  exact Nat.sub_le _ _

/-- Parameters that can be bound are refused if fewer arguments are left than there are plain
ones. -/
theorem bindFormals_of_length_lt
    (h : bindFormals name params args bound formals actuals = .ok b)
    (hbound : bound.SameNames bound') {few : Value} (hfew : few.length < requiredCount formals) :
    bindFormals name params' args' bound' formals few = .error (refusal name params' args') := by
  fun_induction bindFormals name params args bound formals actuals generalizing bound' few with
  | case1 =>
    rw [requiredCount, if_pos rfl] at hfew
    exact absurd hfew (Nat.not_lt_zero _)
  | case3 bound x formals hx actual actuals ih =>
    rw [requiredCount, if_neg hx] at hfew
    obtain ⟨c, hc, hrest⟩ := exists_of_bind?_bind_eq_ok h
    rcases Nat.eq_zero_or_pos few.length with hzero | hpos
    · exact bindFormals_plain_of_length_eq_zero hx formals hzero
    · obtain ⟨first, few, rfl⟩ := Value.exists_cons hpos
      obtain ⟨c', hc', hsame⟩ := hbound.bind? hc first
      rw [Value.length_cons] at hfew
      rw [bindFormals_plain hx, hc']
      exact ih c hrest hsame (Nat.lt_of_succ_lt_succ hfew)
  | case5 bound x default rest formals _ _ ih | case6 bound x default rest formals _ _ ih =>
    obtain ⟨c, hc, hrest⟩ := exists_of_bind?_bind_eq_ok h
    exact bindFormals_optional_of_length_lt hc hbound (fun hsame _ => ih c hrest hsame) hfew
  | case9 bound formals actuals hsymbol hoptional hpair hother =>
    rw [requiredCount.eq_3 _ hsymbol hother] at hfew
    exact absurd hfew (Nat.not_lt_zero _)
  | _ => cases h

/-- An optional parameter takes an argument that a plain one after it would need. -/
theorem exists_refused_after_optional {c : Bindings} {x : String} {v default rest : Value}
    (hc : bound.bind? x v = .ok c)
    (h : bindFormals name params args c formals actuals = .ok b)
    (hbound : bound.SameNames bound') (hplain : requiredCount formals ≠ 0) :
    ∃ few : Value, requiredCount formals ≤ few.length ∧ ∀ params' args' : Value,
      bindFormals name params' args' bound' (.cons (.cons (.symbol x) (.cons default rest)) formals)
        few = .error (refusal name params' args') := by
  let few : Value := .ofList (List.replicate (requiredCount formals) .empty)
  have hlength : few.length = requiredCount formals := by
    rw [Value.length, Value.elements_ofList, List.length_replicate]
  refine ⟨few, Nat.le_of_eq hlength.symm, fun params' args' => ?_⟩
  obtain ⟨c', hc', hsame⟩ := hbound.bind? hc (few.first?.getD default)
  rw [bindFormals_optional, hc']
  refine bindFormals_of_length_lt h hsame ?_
  rw [length_rest?, hlength]
  exact Nat.sub_one_lt hplain

/-- If a plain parameter stands after an optional one, there is an argument list with as many
elements as there are plain parameters that does not suffice. -/
theorem exists_refused
    (h : bindFormals name params args bound formals actuals = .ok b)
    (hbound : bound.SameNames bound') (hmisplaced : plainFirst formals = false) :
    ∃ few : Value, requiredCount formals ≤ few.length ∧ ∀ params' args' : Value,
      bindFormals name params' args' bound' formals few = .error (refusal name params' args') := by
  fun_induction bindFormals name params args bound formals actuals generalizing bound' with
  | case1 => cases hmisplaced
  | case3 bound x formals hx actual actuals ih =>
    rw [plainFirst, beq_false_of_ne hx, Bool.false_or] at hmisplaced
    obtain ⟨c, hc, hrest⟩ := exists_of_bind?_bind_eq_ok h
    obtain ⟨c', hc', hsame⟩ := hbound.bind? hc actual
    obtain ⟨few, hcount, hfew⟩ := ih c hrest hsame hmisplaced
    refine ⟨.cons actual few, ?_, fun params' args' => ?_⟩
    · rw [requiredCount, if_neg hx, Value.length_cons]
      exact Nat.succ_le_succ hcount
    · rw [bindFormals_plain hx, hc']
      exact hfew params' args'
  | case5 bound x default rest formals _ _ ih | case6 bound x default rest formals _ _ ih =>
    obtain ⟨c, hc, hrest⟩ := exists_of_bind?_bind_eq_ok h
    exact exists_refused_after_optional hc hrest hbound (ne_of_beq_false hmisplaced)
  | case9 bound formals actuals hsymbol hoptional hpair hother =>
    rw [plainFirst.eq_3 _ hsymbol hother] at hmisplaced
    cases hmisplaced
  | _ => cases h

end Refused

/-- A closure whose parameters can be bound at all is truthful exactly if no plain parameter stands
after an optional one. -/
theorem truthful_iff_plainFirst {name : String} {params args : Value} {b : Bindings}
    (h : bindParameters name params args = .ok b) :
    (∀ args name' expected got, bindParameters name params args = .error (.arity name' expected got) →
      ¬ expected.Admits got) ↔ plainFirst params = true := by
  constructor
  · intro htruthful
    refine eq_true_of_ne_false fun hmisplaced => ?_
    obtain ⟨few, hcount, hfew⟩ := exists_refused h (fun _ => Iff.rfl) hmisplaced
    exact htruthful few _ _ _ (hfew params few) hcount
  · intro hparams args name' expected got
    exact not_admits_of_bindParameters hparams

end LambdaList

/-! ### Runs -/

namespace Failures

/-- If all closures have their plain parameters first, all errors but refusals that are not truthful
can be expected. -/
def truthful : Failures where
  lists params := LambdaList.plainFirst params = true
  errors e := ∀ name expected got, e = .arity name expected got → ¬ expected.Admits got
  ordinary := by
    rintro _ he name expected got rfl
    exact he.elim
  refused := by
    rintro name expected got h _ _ _ ⟨⟩
    exact h
  unbindable := by
    rintro name params args _ hparams he name' expected got rfl
    exact LambdaList.not_admits_of_bindParameters hparams he

/-- Stops a run when a closure comes up that has a plain parameter after an optional one. -/
def stopAtMisplaced : Observer :=
  .alarm Event.putsPlainFirst (Action.fail (.unbound ""))

theorem truthful_tolerates_stopAtMisplaced : truthful.Tolerates stopAtMisplaced where
  evaluated v := by
    unfold stopAtMisplaced Observer.alarm
    split
    · next h =>
      refine .pure ?_
      cases v with
      | closure role name id params body frame => exact h
      | _ => trivial
    · exact .fail (truthful.ordinary trivial)
  passing _ := .pure trivial
  loading _ := .pure trivial

end Failures

/-- Where all closures that come up, and the one that is called, have their plain parameters first,
a number of arguments is refused only if it is not expected. As for the closures themselves, one
whose parameters can be bound at all is truthful exactly if it has its plain parameters first. -/
theorem refusals_truthful (files : Files) (depth : Nat) (σ τ : State) (name : String)
    (expected : Arity) (got : Nat) :
    (∀ i e, SeesOnly Event.putsPlainFirst files depth (fun ev => ev i e) σ →
        eval files depth i e σ = .failed (.arity name expected got) τ → ¬ expected.Admits got) ∧
      (∀ (f : Callable) args,
        (∀ name' params body frame, f = .closure name' params body frame →
          LambdaList.plainFirst params = true) →
        SeesOnly Event.putsPlainFirst files depth (fun ev => f.apply ev args) σ →
        f.apply (eval files depth) args σ = .failed (.arity name expected got) τ →
          ¬ expected.Admits got) ∧
      ∀ params args b, LambdaList.bindParameters name params args = .ok b →
        ((∀ args name' expected got,
          LambdaList.bindParameters name params args = .error (.arity name' expected got) →
            ¬ expected.Admits got) ↔ LambdaList.plainFirst params = true) := by
  have hev := Failures.endsIn_eval Failures.truthful_tolerates_stopAtMisplaced files depth
  refine ⟨fun i e hsees hrun => ?_, fun f args hf hsees hrun => ?_, fun params args b h => ?_⟩
  · have hstop : Failures.stopAtMisplaced.eval files depth i e σ = eval files depth i e σ := hsees _
    rw [← hstop] at hrun
    exact (hev i e).of_failed hrun _ _ _ rfl
  · have hstop : f.apply (Failures.stopAtMisplaced.eval files depth) args σ =
        f.apply (eval files depth) args σ := hsees _
    rw [← hstop] at hrun
    exact (Failures.allows_apply hev args hf).of_failed hrun _ _ _ rfl
  · exact LambdaList.truthful_iff_plainFirst h

/-- A function with its plain parameters first, called on one argument:
`((lambda (a c (b 1)) a) 1)`. -/
def callShort : Value :=
  .ofList [.ofList [.symbol "lambda",
    .ofList [.symbol "a", .symbol "c", .ofList [.symbol "b", .integer 1]], .symbol "a"], .integer 1]

/-- The lambda list `(a (b 1))`. -/
def plainThenOptional : Value :=
  .ofList [.symbol "a", .ofList [.symbol "b", .integer 1]]

/-- A function with this lambda list. -/
def plainThenOptionalFunction : Callable :=
  .closure anonymousFunction plainThenOptional (.ofList [.symbol "a"]) globalFrame

/-- One argument is not at least two, and none is not at least one. The second function is truthful
on all arguments. -/
theorem refusals_truthful_callShort :
    eval .empty 3 globalFrame callShort State.initial =
        .failed (.arity anonymousFunction (.atLeast 2) 1) { State.initial with closures := 1 } ∧
      ¬ (Arity.atLeast 2).Admits 1 ∧
      plainThenOptionalFunction.apply (eval .empty 1) .empty State.initial =
        .failed (.arity anonymousFunction (.atLeast 1) 0) State.initial ∧
      ¬ (Arity.atLeast 1).Admits 0 ∧
      ∀ args name' expected got, LambdaList.bindParameters anonymousFunction plainThenOptional args =
        .error (.arity name' expected got) → ¬ expected.Admits got := by
  have hrun : eval .empty 3 globalFrame callShort State.initial =
      .failed (.arity anonymousFunction (.atLeast 2) 1) { State.initial with closures := 1 } := rfl
  have hsees : SeesOnly Event.putsPlainFirst .empty 3 (fun ev => ev globalFrame callShort)
      State.initial := fun _ => rfl
  have hcall : plainThenOptionalFunction.apply (eval .empty 1) .empty State.initial =
      .failed (.arity anonymousFunction (.atLeast 1) 0) State.initial := rfl
  have hseesCall : SeesOnly Event.putsPlainFirst .empty 1
      (fun ev => plainThenOptionalFunction.apply ev .empty) State.initial := fun _ => rfl
  have hfunction : ∀ name' params body frame,
      plainThenOptionalFunction = .closure name' params body frame →
        LambdaList.plainFirst params = true := by
    rintro _ _ _ _ ⟨⟩
    rfl
  have hbound : LambdaList.bindParameters anonymousFunction plainThenOptional (.ofList [.bool true]) =
      .ok [("b", .integer 1), ("a", .bool true)] := rfl
  obtain ⟨heval, -, -⟩ := refusals_truthful .empty 3 State.initial _ _ _ _
  obtain ⟨-, happly, hlists⟩ := refusals_truthful .empty 1 State.initial _ _ _ _
  exact ⟨hrun, heval _ _ hsees hrun, hcall, happly _ _ hfunction hseesCall hcall,
    (hlists _ _ _ hbound).2 rfl⟩

/-- A function with an optional parameter between plain ones: `(lambda (a (b 1) c) c)`. -/
def misplacing : Value :=
  .ofList [.symbol "lambda", .ofList [.symbol "a", .ofList [.symbol "b", .integer 1], .symbol "c"],
    .symbol "c"]

/-- The call of this function on two arguments: `((lambda (a (b 1) c) c) 1 2)`. -/
def callMisplacing : Value :=
  .ofList [misplacing, .integer 1, .integer 2]

/-- The function is refused two arguments, and the refusal tells that at least two are expected: not
every refusal is truthful. -/
theorem refused_as_expected :
    ¬ ∀ (files : Files) (depth : Nat) (i : FrameId) (e : Value) (σ τ : State) (name : String)
      (expected : Arity) (got : Nat),
      eval files depth i e σ = .failed (.arity name expected got) τ → ¬ expected.Admits got := by
  intro h
  have hrun : eval .empty 4 globalFrame callMisplacing State.initial =
      .failed (.arity anonymousFunction (.atLeast 2) 2) { State.initial with closures := 1 } := rfl
  exact h .empty 4 globalFrame callMisplacing _ _ _ _ _ hrun (by decide)

end ConsLisp
