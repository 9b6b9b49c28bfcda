import ConsLisp.Proofs.Session.Reachable
import ConsLisp.Proofs.Value.Callables

/-!
# The registry of builtin operations

Special forms and builtin functions refer to entries of one registry. An entry declares how many
operands or arguments it takes, and holds the work of the operation, which is that of a special form
or of a function. Who calls an operation looks its entry up. What is found there might be work of
the wrong kind, and the work itself might be given too few values. The code has defences for these
cases.

This module states calls through a registry, with all these defences, and shows that none of them is
ever of use. Work is only looked up in its kind, and only run on lists whose length the entry
admits. So evaluation does not depend on what the work does on other lists, nor on what the defences
do.

## Main definitions

* `Reference`, `Operation`, `Registry`: what values refer to, and what they find.
* `Registry.call`, `Registry.apply`, `Registry.eval`: evaluation that looks its operations up.
* `Registry.builtin`: the registry of the language.
* `Registry.Agrees`: the same entries as far as their arities admit.
* `Defences`, `Registry.defendedBy`: the builtin registry with other defences in the place of its
  own.

## Main results

* `Registry.Agrees.eval_eq`, `Registry.Agrees.apply_eq`: registries that agree evaluate alike.
* `Registry.defendedBy_agrees`: no arity admits a list on which the work defends itself.
* `registry_never_misused`: the references in a session, and the lists that work is run on.
-/

namespace ConsLisp

/-! ### Entries -/

/-- What a special form or a builtin function refers to. -/
inductive Reference where
  | form (form : SpecialForm)
  | function (op : Primitive)
deriving DecidableEq

/-- The entry that a callable refers to. A closure refers to none. -/
def Value.reference? : Value → Option Reference
  | specialForm form => some (.form form)
  | primitive _ op => some (.function op)
  | _ => none

/-- The work of an operation: that of a special form, on operands, or that of a function, on
arguments. -/
inductive Work where
  | specialForm (run : Evaluator → Files → FrameId → Value → Action Value)
  | function (run : Value → Action Value)

/-- A builtin operation, which is an entry of a registry. -/
structure Operation where
  name : String
  arity : Arity
  work : Work

/-- Whether the work of an entry is that of a special form. -/
def Operation.isSpecialForm (entry : Operation) : Bool :=
  match entry.work with
  | .specialForm _ => true
  | .function _ => false

/-- A registry: the entries, and what is done where an entry is of the wrong kind. -/
structure Registry where
  entry : Reference → Operation
  /-- The head of a call is a special form, but refers to a function. -/
  misplacedFunction : Value → Action Value
  /-- Values are to be passed to a function that refers to a special form. -/
  misplacedForm : Operation → Action Value

/-! ### Evaluation through a registry -/

namespace Registry

/-- Passes values to what an entry holds. -/
def applyEntry (R : Registry) (entry : Operation) (args : Value) : Action Value :=
  match entry.work with
  | .function run => do
    Action.ofExcept (entry.arity.check entry.name args.length)
    run args
  | .specialForm _ => R.misplacedForm entry

/-- Calls a callable on a list of arguments. -/
def apply (R : Registry) (ev : Evaluator) : Callable → Value → Action Value
  | .primitive _ op, args => R.applyEntry (R.entry (.function op)) args
  | .closure name params body frame, args => (Callable.closure name params body frame).apply ev args

/-- Runs what a special form refers to on operands. -/
def runForm (R : Registry) (ev : Evaluator) (files : Files) (form : SpecialForm) (i : FrameId)
    (operands : Value) : Action Value :=
  let entry := R.entry (.form form)
  match entry.work with
  | .specialForm run => do
    Action.ofExcept (entry.arity.check entry.name operands.length)
    run ev files i operands
  | .function _ => R.misplacedFunction (.specialForm form)

/-- A call: the head decides what becomes of the operands. -/
def call (R : Registry) (ev : Evaluator) (files : Files) (i : FrameId) (head operands : Value) :
    Action Value := do
  match ← ev i head with
  | .specialForm form => R.runForm ev files form i operands
  | .primitive name op => do
    let args ← ev.evaluateEach i operands
    R.apply ev (.primitive name op) args
  | .closure .function name _ params body frame => do
    let args ← ev.evaluateEach i operands
    R.apply ev (.closure name params body frame) args
  | .closure .expander name _ params body frame => do
    let expansion ← R.apply ev (.closure name params body frame) operands
    ev i expansion
  | other => Action.fail (.calling (.notCallable other.text))

/-- Evaluates an expression, using `ev` for the expressions inside it. -/
def step (R : Registry) (ev : Evaluator) (files : Files) : Evaluator := fun i e =>
  match e with
  | .cons head operands => R.call ev files i head operands
  | e => ev.step files i e

/-- Evaluates an expression in a frame, with evaluations nested at most `depth` deep. -/
def eval (R : Registry) (files : Files) : (depth : Nat) → Evaluator
  | 0 => fun _ _ => Action.exhausted
  | depth + 1 => R.step (R.eval files depth) files

/-- The registry of the language. -/
def builtin : Registry where
  entry
    | .form form => ⟨form.name, form.arity, .specialForm fun ev files => form.run ev files⟩
    | .function op => ⟨op.name, op.arity, .function op.run⟩
  misplacedFunction v := Action.fail (.calling (.notCallable v.text))
  misplacedForm entry :=
    Action.fail (.calling (.other ("special form " ++ entry.name ++ " cannot be applied to values")))

end Registry

/-! ### Agreement -/

/-- Two works are of one kind, and do the same on every list whose length the arity admits. -/
def Work.AgreesOn (arity : Arity) : Work → Work → Prop
  | specialForm run, specialForm run' => ∀ ev files i (operands : Value),
    arity.Admits operands.length → run ev files i operands = run' ev files i operands
  | function run, function run' => ∀ args : Value, arity.Admits args.length → run args = run' args
  | _, _ => False

/-- Two entries have one name and one arity, and their works agree as far as it admits. -/
structure Operation.Agrees (entry entry' : Operation) : Prop where
  name : entry.name = entry'.name
  arity : entry.arity = entry'.arity
  work : entry.work.AgreesOn entry'.arity entry'.work

/-- All entries of two registries agree. Nothing is said of what they do about entries of the wrong
kind, nor of what work does on a list whose length is not admitted. If either ever came to pass in
an evaluation, some registry that agrees would tell, because it may end there in any way. -/
def Registry.Agrees (R R' : Registry) : Prop :=
  ∀ r, (R.entry r).Agrees (R'.entry r)

/-- What is done after a check of the number of arguments matters only if the number is admitted. -/
theorem Arity.check_bind_congr {arity : Arity} {name : String} {n : Nat} {m m' : Action Value}
    (h : arity.Admits n → m = m') :
    (Action.ofExcept (arity.check name n) >>= fun _ => m) =
      (Action.ofExcept (arity.check name n) >>= fun _ => m') := by
  by_cases hadmits : arity.Admits n
  · rw [h hadmits]
  · rw [Arity.check, if_neg hadmits]
    rfl

namespace Registry.Agrees

variable {R : Registry} (h : R.Agrees builtin)
include h

theorem apply_eq (ev : Evaluator) (f : Callable) (args : Value) :
    R.apply ev f args = f.apply ev args := by
  cases f with
  | closure name params body frame => rfl
  | primitive name op =>
    obtain ⟨hname, harity, hwork⟩ := h (.function op)
    rw [Registry.apply, applyEntry]
    cases hrun : (R.entry (.function op)).work with
    | specialForm run =>
      rw [hrun] at hwork
      exact hwork.elim
    | function run =>
      rw [hrun] at hwork
      simp only
      rw [hname, harity]
      exact Arity.check_bind_congr (hwork args)

theorem runForm_eq (ev : Evaluator) (files : Files) (form : SpecialForm) (i : FrameId)
    (operands : Value) :
    R.runForm ev files form i operands =
      (do
        Action.ofExcept (form.arity.check form.name operands.length)
        form.run ev files i operands) := by
  obtain ⟨hname, harity, hwork⟩ := h (.form form)
  rw [Registry.runForm]
  cases hrun : (R.entry (.form form)).work with
  | specialForm run =>
    rw [hrun] at hwork
    simp only
    rw [hname, harity]
    exact Arity.check_bind_congr (hwork ev files i operands)
  | function run =>
    rw [hrun] at hwork
    exact hwork.elim

theorem call_eq (ev : Evaluator) (files : Files) (i : FrameId) (head operands : Value) :
    R.call ev files i head operands = ev.call files i head operands := by
  unfold Registry.call Evaluator.call
  refine congrArg _ (funext fun v => ?_)
  cases v with
  | specialForm form => exact h.runForm_eq ev files form i operands
  | primitive name op => simp only [h.apply_eq]
  | closure role => cases role <;> simp only [h.apply_eq]
  | _ => rfl

theorem step_eq (ev : Evaluator) (files : Files) : R.step ev files = ev.step files := by
  funext i e
  cases e with
  | cons head operands => exact h.call_eq ev files i head operands
  | _ => rfl

/-- Looking the operations up in a registry that agrees with the builtin one, evaluation is the
same. -/
theorem eval_eq (files : Files) (depth : Nat) : R.eval files depth = ConsLisp.eval files depth := by
  induction depth with
  | zero => rfl
  | succ depth ih => rw [Registry.eval, ih, h.step_eq, ConsLisp.eval]

end Registry.Agrees

/-! ### Defences -/

/-- The work of a primitive defends itself against a list with too few arguments. -/
def Primitive.defends : Primitive → Value → Bool
  | subtract, args | divide, args | car, args | cdr, args | isEmpty, args | typeOf, args =>
    args.length == 0
  | cons, args => args.length < 2
  | add, _ | multiply, _ | list, _ | println, _ => false

/-- What a primitive does then: it refuses the arguments, or takes a missing one for the empty
list. -/
def Primitive.defence (op : Primitive) (args : Value) : Action Value :=
  match op with
  | car | cdr | isEmpty | typeOf => op.run (.ofList [.empty])
  | op => Action.fail (.arity op.name op.arity args.length)

/-- The work of a special form defends itself against a list with too few operands. -/
def SpecialForm.defends : SpecialForm → Value → Bool
  | define, operands | lambda, operands | fn, operands | makeMacro, operands
  | increment, operands => operands.length == 0
  | branch, operands => operands.length < 2
  | defineFunction, _ | defineMacro, _ | load, _ => false

/-- What a special form does then: it refuses the operands, or takes a missing one for the empty
list. -/
def SpecialForm.defence (ev : Evaluator) (files : Files) (form : SpecialForm) (i : FrameId)
    (operands : Value) : Action Value :=
  match form with
  | define | branch => Action.fail (.arity form.name form.arity operands.length)
  | form => form.run ev files i (.ofList [.empty])

theorem Value.two_le_length (first second more : Value) :
    2 ≤ (Value.cons first (.cons second more)).length := by
  rw [length_cons, length_cons]
  exact Nat.le_add_left 2 _

/-- The defence is what the work does. -/
theorem Primitive.run_of_defends {op : Primitive} {args : Value} (h : op.defends args = true) :
    op.run args = op.defence args := by
  cases op with
  | add | multiply | list | println => cases h
  | cons =>
    cases args with
    | cons first rest =>
      cases rest with
      | cons second more =>
        exact absurd (of_decide_eq_true h) (Nat.not_lt.2 (Value.two_le_length first second more))
      | _ => rfl
    | _ => rfl
  | _ =>
    cases args with
    | cons first rest => simp [defends] at h
    | _ => rfl

theorem SpecialForm.run_of_defends {form : SpecialForm} {operands : Value}
    (h : form.defends operands = true) (ev : Evaluator) (files : Files) (i : FrameId) :
    form.run ev files i operands = form.defence ev files i operands := by
  cases form with
  | defineFunction | defineMacro | load => cases h
  | branch =>
    cases operands with
    | cons test rest =>
      cases rest with
      | cons consequent more =>
        exact absurd (of_decide_eq_true h) (Nat.not_lt.2 (Value.two_le_length test consequent more))
      | _ => rfl
    | _ => rfl
  | _ =>
    cases operands with
    | cons first rest => simp [defends] at h
    | _ => rfl

theorem Primitive.not_admits_of_defends {op : Primitive} {args : Value}
    (h : op.defends args = true) : ¬op.arity.Admits args.length := by
  cases op <;> simp [defends, arity, Arity.Admits] at h ⊢ <;> omega

theorem SpecialForm.not_admits_of_defends {form : SpecialForm} {operands : Value}
    (h : form.defends operands = true) : ¬form.arity.Admits operands.length := by
  cases form <;> simp [defends, arity, Arity.Admits] at h ⊢ <;> omega

/-- What is done in all the cases that there are defences for. -/
structure Defences where
  function : Primitive → Value → Action Value
  form : Evaluator → Files → SpecialForm → FrameId → Value → Action Value
  misplacedFunction : Value → Action Value
  misplacedForm : Operation → Action Value

/-- The defences of the language. -/
def Defences.builtin : Defences where
  function := Primitive.defence
  form := SpecialForm.defence
  misplacedFunction := Registry.builtin.misplacedFunction
  misplacedForm := Registry.builtin.misplacedForm

namespace Registry

/-- The builtin registry with other defences. -/
def defendedBy (D : Defences) : Registry where
  entry
    | .form form => ⟨form.name, form.arity, .specialForm fun ev files i operands =>
        if form.defends operands then D.form ev files form i operands
        else form.run ev files i operands⟩
    | .function op => ⟨op.name, op.arity, .function fun args =>
        if op.defends args then D.function op args else op.run args⟩
  misplacedFunction := D.misplacedFunction
  misplacedForm := D.misplacedForm

/-- The defences of the language are those that it has. -/
theorem defendedBy_builtin : defendedBy .builtin = builtin := by
  have hform (form : SpecialForm) (ev : Evaluator) (files : Files) (i : FrameId) (operands : Value) :
      (if form.defends operands then form.defence ev files i operands
        else form.run ev files i operands) = form.run ev files i operands := by
    split
    · next h => exact (SpecialForm.run_of_defends h ev files i).symm
    · rfl
  have hfunction (op : Primitive) (args : Value) :
      (if op.defends args then op.defence args else op.run args) = op.run args := by
    split
    · next h => exact (Primitive.run_of_defends h).symm
    · rfl
  unfold defendedBy builtin Defences.builtin
  congr 1
  funext r
  cases r with
  | form form => simp only [hform]
  | function op => simp only [hfunction]

/-- No arity admits a list on which the work defends itself. -/
theorem defendedBy_agrees (D : Defences) : (defendedBy D).Agrees builtin := by
  rintro (form | op)
  · refine ⟨rfl, rfl, fun ev files i operands hadmits => if_neg fun h => ?_⟩
    exact SpecialForm.not_admits_of_defends h hadmits
  · refine ⟨rfl, rfl, fun args hadmits => if_neg fun h => ?_⟩
    exact Primitive.not_admits_of_defends h hadmits

end Registry

/-! ### Sessions -/

/-- The value that the global frame starts with under the name of an entry. -/
def Reference.value : Reference → Value
  | form f => .specialForm f
  | function op => .primitive op.name op

theorem State.initial_local?_name (r : Reference) :
    State.initial.local? globalFrame (Registry.builtin.entry r).name = some r.value := by
  rcases r with form | op
  · cases form <;> rfl
  · cases op <;> rfl

/-- A session never loses the operations that it starts with. -/
theorem Reachable.local?_name {prelude : String} {σ : State} (h : Reachable prelude σ)
    (r : Reference) :
    σ.local? globalFrame (Registry.builtin.entry r).name = some r.value := by
  refine h.initial_persists.local?_eq (State.initial_local?_name r) ?_
  rcases r with form | op <;> exact Value.typeOf_ne_integer_of_isCallable rfl

/-- A value that refers to an entry is, but for its display name, the one that the entry starts
with. It is a special form exactly if the entry is for one. -/
theorem Value.unnamed_of_reference? {u : Value} {r : Reference} (h : u.reference? = some r) :
    u.unnamed = r.value.unnamed ∧
      ((Registry.builtin.entry r).isSpecialForm = true ↔ u.typeOf = .specialForm) := by
  cases u with
  | specialForm form =>
    obtain rfl := Option.some.inj h
    exact ⟨rfl, fun _ => rfl, fun _ => rfl⟩
  | primitive name op =>
    obtain rfl := Option.some.inj h
    exact ⟨rfl, nofun, nofun⟩
  | _ => cases h

/-- In a state of a session, every callable that a bound value holds is a closure or refers to an
entry of the registry. The entry is of its kind, and the callable is, but for its display name, what
the name of the entry is still bound to. That the kinds agree is a matter of types: special forms
and primitives are different values, which refer to different rows, so that this part holds of every
value, in a session or not. What the names are bound to does depend on the state. Work is only run
on lists whose length its entry admits: evaluation and calls are the same with any registry that
agrees with the builtin one on those. So they are the same whatever the defences do. -/
theorem registry_never_misused (prelude : String) :
    (∀ σ, Reachable prelude σ → ∀ i x v, σ.local? i x = some v → ∀ u ∈ v.callables,
      (∃ role name id params body frame, u = .closure role name id params body frame) ∨
      ∃ r, u.reference? = some r ∧
        ((Registry.builtin.entry r).isSpecialForm = true ↔ u.typeOf = .specialForm) ∧
        ∃ w, σ.local? globalFrame (Registry.builtin.entry r).name = some w ∧
          u.unnamed = w.unnamed) ∧
    (∀ R : Registry, R.Agrees .builtin → ∀ files depth,
      R.eval files depth = eval files depth ∧
      ∀ f args, R.apply (R.eval files depth) f args = f.apply (eval files depth) args) ∧
    Registry.defendedBy .builtin = .builtin ∧
    ∀ D files depth,
      (Registry.defendedBy D).eval files depth = eval files depth ∧
      ∀ f args, (Registry.defendedBy D).apply ((Registry.defendedBy D).eval files depth) f args =
        f.apply (eval files depth) args := by
  have hagree (R : Registry) (hR : R.Agrees .builtin) (files : Files) (depth : Nat) :
      R.eval files depth = eval files depth ∧
      ∀ f args, R.apply (R.eval files depth) f args = f.apply (eval files depth) args := by
    have heval := hR.eval_eq files depth
    refine ⟨heval, fun f args => ?_⟩
    rw [heval, hR.apply_eq]
  refine ⟨fun σ hσ i x v _ u hu => ?_, hagree, Registry.defendedBy_builtin,
    fun D => hagree _ (Registry.defendedBy_agrees D)⟩
  have hcallable := Value.isCallable_of_mem_callables hu
  cases hr : u.reference? with
  | some r =>
    obtain ⟨hsame, hkind⟩ := Value.unnamed_of_reference? hr
    exact .inr ⟨r, rfl, hkind, r.value, hσ.local?_name r, hsame⟩
  | none =>
    cases u with
    | closure role name id params body frame => exact .inl ⟨role, name, id, params, body, frame, rfl⟩
    | specialForm | primitive => cases hr
    | _ => cases hcallable

/-- Defences that leave every case without an answer. -/
def unanswering : Defences where
  function _ _ := Action.exhausted
  form _ _ _ _ _ := Action.exhausted
  misplacedFunction _ := Action.exhausted
  misplacedForm _ := Action.exhausted

/-- A session without a prelude finds `-` under its name, and refuses to call it without arguments,
whatever its defence would do. -/
theorem registry_never_misused_unanswering :
    (∃ w, State.initial.local? globalFrame "-" = some w ∧
      (Value.primitive "-" .subtract).unnamed = w.unnamed) ∧
    (Registry.defendedBy unanswering).eval .empty 2 globalFrame (.ofList [.symbol "-"]) State.initial =
      .failed (.arity "-" (.atLeast 1) 0) State.initial ∧
    (Registry.defendedBy unanswering).apply ((Registry.defendedBy unanswering).eval .empty 0)
        (.primitive "-" .subtract) .empty State.initial =
      .failed (.arity "-" (.atLeast 1) 0) State.initial := by
  have hstart : ((eval .empty 0).start "" State.initial).state? = some State.initial := by
    with_unfolding_all rfl
  have hstarted : Reachable "" State.initial := .started hstart
  obtain ⟨hkinds, hagree, -, -⟩ := registry_never_misused ""
  have hunanswering := hagree _ (Registry.defendedBy_agrees unanswering) .empty
  refine ⟨?_, ?_, ?_⟩
  · obtain ⟨_, _, _, _, _, _, hclosure⟩ | ⟨r, hr, -, hbound⟩ :=
      hkinds _ hstarted globalFrame "-" (.primitive "-" .subtract) rfl _ List.mem_cons_self
    · cases hclosure
    · obtain rfl := Option.some.inj hr
      exact hbound
  · rw [(hunanswering 2).1]
    rfl
  · rw [(hunanswering 0).2]
    rfl

end ConsLisp
