import ConsLisp.Proofs.Evaluation.Calls
import ConsLisp.Proofs.Evaluation.Templates
import Mathlib.Data.List.Forall2

/-!
# Evaluation by big steps

What an expression comes to is settled by what its parts come to, whatever depth that takes. This
module gives the rule of each kind of expression in that form, for calls of functions and macros,
for special forms called by name, for `if`, and for the calls of closures. Each rule is an
equivalence, so that it serves both to evaluate an expression and to conclude from its outcome what
its parts came to.

Operands and the forms of a body are evaluated one after the other. What that comes to is stated by
recursion on the list of expressions, without the loops that evaluation uses.

## Main definitions

* `ComesTo`: what an action that depends on a depth comes to.
* `Sequel`: the outcomes of doing one thing after another.
* `EvaluatesEach`: what evaluating the elements of a list comes to.
* `Yields`: an expression has a value, and evaluating it changes nothing.
* `EvaluatesInOrder`, `EvaluatesSequence`: evaluating expressions one after the other.

## Main results

* `comesTo_bind_iff`: what two actions in sequence come to.
* `evaluatesEach_iff_inOrder`, `comesTo_evaluateAfter_iff`: operands and bodies are evaluated in
  order.
* `evaluates_functionCall_iff`, `evaluates_expansion_iff`, `evaluates_specialForm_iff`,
  `evaluates_branch_iff`, `applies_closure_iff_sequence`, `applies_primitive_iff`: the rules of
  calls.
-/

namespace ConsLisp

variable {α β γ : Type} {files : Files} {i : FrameId} {σ τ : State}

/-! ### Outcomes at some depth -/

/-- The deeper the action may go, the more definite it is. -/
def Deepens (m : Nat → Action α) : Prop :=
  ∀ d d', d ≤ d' → (m d').Refines (m d)

/-- The action takes the state `σ` to the outcome `r`, at some depth. -/
def ComesTo (m : Nat → Action α) (σ : State) (r : Outcome α) : Prop :=
  r ≠ .exhausted ∧ ∃ depth, m depth σ = r

theorem ComesTo.settles {m : Nat → Action α} {r : Outcome α} (h : ComesTo m σ r)
    (hm : Deepens m) : Settles m σ r := by
  obtain ⟨hr, d, hd⟩ := h
  exact ⟨d, fun depth hdepth => (hm d depth hdepth).apply_eq hd hr⟩

/-- The outcomes of doing one thing, which has the outcomes `first`, and then another. -/
inductive Sequel (first : Outcome α → Prop) (next : α → State → Outcome β → Prop) :
    Outcome β → Prop
  | failed {e : Error} {τ : State} (h : first (.failed e τ)) : Sequel first next (.failed e τ)
  | done {a : α} {τ : State} {r : Outcome β} (h : first (.done a τ)) (hnext : next a τ r) :
      Sequel first next r

section Sequel

variable {first first' : Outcome α → Prop} {next next' : α → State → Outcome β → Prop}
  {r : Outcome β}

theorem Sequel.mono (h : Sequel first next r) (hfirst : ∀ r, first r → first' r)
    (hnext : ∀ a τ r, first (.done a τ) → next a τ r → next' a τ r) : Sequel first' next' r := by
  cases h with
  | failed h => exact .failed (hfirst _ h)
  | done h h' => exact .done (hfirst _ h) (hnext _ _ _ h h')

theorem sequel_congr (hfirst : ∀ r, first r ↔ first' r)
    (hnext : ∀ a τ r, first (.done a τ) → (next a τ r ↔ next' a τ r)) :
    Sequel first next r ↔ Sequel first' next' r :=
  ⟨fun h => h.mono (fun r => (hfirst r).1) fun a τ r ha => (hnext a τ r ha).1,
    fun h => h.mono (fun r => (hfirst r).2) fun a τ r ha => (hnext a τ r ((hfirst _).2 ha)).2⟩

/-- After something that can only be done in one way. -/
theorem sequel_of_done {a : α} (h : ∀ r, first r ↔ r = .done a τ) :
    Sequel first next r ↔ next a τ r := by
  constructor
  · intro hr
    cases hr with
    | failed hfirst => cases (h _).1 hfirst
    | done hfirst hnext =>
      cases (h _).1 hfirst
      exact hnext
  · exact .done ((h _).2 rfl)

/-- After something that has been done. -/
theorem sequel_eq_done {a : α} :
    Sequel (fun r => r = .done a τ) next = next a τ :=
  funext fun _ => propext (sequel_of_done fun _ => Iff.rfl)

/-- After something that can only fail. -/
theorem sequel_of_failed {e : Error} (h : ∀ r, first r ↔ r = .failed e τ) :
    Sequel first next r ↔ r = .failed e τ := by
  constructor
  · intro hr
    cases hr with
    | failed hfirst =>
      cases (h _).1 hfirst
      rfl
    | done hfirst => cases (h _).1 hfirst
  · rintro rfl
    exact .failed ((h _).2 rfl)

theorem sequel_assoc {last : β → State → Outcome γ → Prop} {r : Outcome γ} :
    Sequel (Sequel first next) last r ↔ Sequel first (fun a τ => Sequel (next a τ) last) r := by
  constructor
  · intro h
    cases h with
    | failed h =>
      cases h with
      | failed h => exact .failed h
      | done h hnext => exact .done h (.failed hnext)
    | done h hlast =>
      cases h with
      | done h hnext => exact .done h (.done hnext hlast)
  · intro h
    cases h with
    | failed h => exact .failed (.failed h)
    | done h hnext =>
      cases hnext with
      | failed hnext => exact .failed (.done h hnext)
      | done hnext hlast => exact .done (.done h hnext) hlast

end Sequel

/-- What two actions in sequence come to. -/
theorem comesTo_bind_iff {m : Nat → Action α} {f : Nat → α → Action β} (hm : Deepens m)
    (hf : ∀ a, Deepens fun depth => f depth a) {r : Outcome β} :
    ComesTo (fun depth => m depth >>= f depth) σ r ↔
      Sequel (ComesTo m σ) (fun a => ComesTo fun depth => f depth a) r := by
  constructor
  · rintro ⟨hr, depth, h⟩
    obtain ⟨e, τ, hm, rfl⟩ | ⟨a, τ, hm, hf⟩ := Action.bind_cases h hr
    · exact .failed ⟨nofun, depth, hm⟩
    · exact .done ⟨nofun, depth, hm⟩ ⟨hr, depth, hf⟩
  · intro h
    cases h with
    | failed h =>
      obtain ⟨d, hd⟩ := (h.settles hm).bind_failed (f := f)
      exact ⟨nofun, d, hd d (Nat.le_refl d)⟩
    | done h hnext =>
      obtain ⟨d, hd⟩ := (h.settles hm).bind_done (hnext.settles (hf _))
      exact ⟨hnext.1, d, hd d (Nat.le_refl d)⟩

theorem Deepens.bind {m : Nat → Action α} {f : Nat → α → Action β} (hm : Deepens m)
    (hf : ∀ a, Deepens fun depth => f depth a) : Deepens fun depth => m depth >>= f depth :=
  fun d d' hd => (hm d d' hd).bind fun a => hf a d d' hd

/-- Two actions that are the same at every depth but the least come to the same. -/
theorem comesTo_congr {m m' : Nat → Action α} (hm : Deepens m) (hm' : Deepens m')
    (h : ∀ depth, m (depth + 1) σ = m' (depth + 1) σ) {r : Outcome α} :
    ComesTo m σ r ↔ ComesTo m' σ r := by
  constructor
  · rintro ⟨hr, depth, hd⟩
    refine ⟨hr, depth + 1, ?_⟩
    rw [← h]
    exact (hm depth _ (Nat.le_succ depth)).apply_eq hd hr
  · rintro ⟨hr, depth, hd⟩
    refine ⟨hr, depth + 1, ?_⟩
    rw [h]
    exact (hm' depth _ (Nat.le_succ depth)).apply_eq hd hr

/-- An action that has the same outcome at every depth. -/
theorem comesTo_iff_eq_of_forall {m : Nat → Action α} {r r' : Outcome α}
    (hm : ∀ depth, m depth σ = r') (hr' : r' ≠ .exhausted) : ComesTo m σ r ↔ r = r' := by
  constructor
  · rintro ⟨-, depth, rfl⟩
    exact hm depth
  · rintro rfl
    exact ⟨hr', 0, hm 0⟩

theorem comesTo_pure_iff {a : α} {r : Outcome α} :
    ComesTo (fun _ => pure a) σ r ↔ r = .done a σ :=
  comesTo_iff_eq_of_forall (fun _ => rfl) nofun

theorem deepens_const (m : Action α) : Deepens fun _ => m :=
  fun _ _ _ => .refl m

/-- An action whose result is used to make another one. -/
theorem comesTo_map_iff {m : Nat → Action α} (hm : Deepens m) (f : α → β) {r : Outcome β} :
    ComesTo (fun depth => m depth >>= fun a => pure (f a)) σ r ↔
      Sequel (ComesTo m σ) (fun a τ r => r = .done (f a) τ) r := by
  have hf (a : α) : Deepens fun _ => (pure (f a) : Action β) := deepens_const _
  rw [comesTo_bind_iff hm hf]
  exact sequel_congr (fun _ => Iff.rfl) fun _ _ _ _ => comesTo_pure_iff

/-! ### Expressions -/

theorem deepens_eval (files : Files) (i : FrameId) (e : Value) :
    Deepens fun depth => eval files depth i e :=
  fun _ _ hd => eval_refines files hd i e

theorem deepens_apply (files : Files) (f : Callable) (args : Value) :
    Deepens fun depth => f.apply (eval files depth) args :=
  fun _ _ hd => (eval_refines files hd).apply f args

theorem deepens_evaluateEach (files : Files) (i : FrameId) (operands : Value) :
    Deepens fun depth => (eval files depth).evaluateEach i operands :=
  fun _ _ hd => (eval_refines files hd).evaluateOnto i [] operands

/-- Evaluating the elements of a list takes the state `σ` to the outcome `r`, at some depth. -/
def EvaluatesEach (files : Files) (i : FrameId) (operands : Value) (σ : State)
    (r : Outcome Value) : Prop :=
  ComesTo (fun depth => (eval files depth).evaluateEach i operands) σ r

theorem Evaluates.iff_eq {e : Value} {r r' : Outcome Value} (h : Evaluates files i e σ r) :
    Evaluates files i e σ r' ↔ r' = r :=
  ⟨fun h' => h'.unique h, fun h' => h' ▸ h⟩

theorem evaluates_iff_step {e : Value} {r : Outcome Value} :
    Evaluates files i e σ r ↔ ComesTo (fun depth => (eval files depth).step files i e) σ r := by
  constructor
  · rintro ⟨hr, depth, h⟩
    cases depth with
    | zero => exact absurd h.symm hr
    | succ depth => exact ⟨hr, depth, h⟩
  · rintro ⟨hr, depth, h⟩
    exact ⟨hr, depth + 1, h⟩

/-- An evaluation that is done at some depth. -/
theorem Evaluates.of_eval_eq_done {e v : Value} {depth : Nat}
    (h : eval files depth i e σ = .done v τ) : Evaluates files i e σ (.done v τ) :=
  ⟨nofun, depth, h⟩

/-- An evaluation that fails at some depth. -/
theorem Evaluates.of_eval_eq_failed {e : Value} {fault : Error} {depth : Nat}
    (h : eval files depth i e σ = .failed fault τ) : Evaluates files i e σ (.failed fault τ) :=
  ⟨nofun, depth, h⟩

/-- The expression has the value `v`, and evaluating it leaves the state as it is. -/
def Yields (files : Files) (i : FrameId) (e : Value) (σ : State) (v : Value) : Prop :=
  Evaluates files i e σ (.done v σ)

theorem yields_symbol {x : String} {v : Value} (hx : σ.lookup? i x = some v) :
    Yields files i (.symbol x) σ v :=
  .of_eval_eq_done (eval_symbol hx 0)

theorem yields_integer (n : Fixnum) : Yields files i (.integer n) σ (.integer n) :=
  .of_eval_eq_done (show eval files 1 i _ σ = _ from rfl)

theorem yields_empty : Yields files i .empty σ .empty :=
  .of_eval_eq_done (show eval files 1 i _ σ = _ from rfl)

/-! ### Lists of expressions -/

theorem evaluatesEach_empty_iff {r : Outcome Value} :
    EvaluatesEach files i .empty σ r ↔ r = .done .empty σ := by
  constructor
  · rintro ⟨-, depth, h⟩
    exact h.symm
  · rintro rfl
    exact ⟨nofun, 0, rfl⟩

/-- The first element is evaluated first. -/
theorem evaluatesEach_cons_iff {e rest : Value} {r : Outcome Value} :
    EvaluatesEach files i (.cons e rest) σ r ↔
      Sequel (Evaluates files i e σ) (fun v ρ =>
        Sequel (EvaluatesEach files i rest ρ) fun vs τ r => r = .done (.cons v vs) τ) r := by
  have hrest (v : Value) : Deepens fun depth =>
      (eval files depth).evaluateEach i rest >>= fun vs => pure (Value.cons v vs) :=
    (deepens_evaluateEach files i rest).bind fun _ => deepens_const _
  unfold EvaluatesEach
  simp only [Evaluator.evaluateEach_cons]
  rw [comesTo_bind_iff (deepens_eval files i e) hrest]
  exact sequel_congr (fun _ => Iff.rfl) fun v _ _ _ =>
    comesTo_map_iff (deepens_evaluateEach files i rest) (Value.cons v)

theorem evaluatesEach_one_iff {e : Value} {r : Outcome Value} :
    EvaluatesEach files i (.ofList [e]) σ r ↔
      Sequel (Evaluates files i e σ) (fun v τ r => r = .done (.ofList [v]) τ) r :=
  evaluatesEach_cons_iff.trans
    (sequel_congr (fun _ => Iff.rfl) fun _ _ _ _ => sequel_of_done fun _ => evaluatesEach_empty_iff)

theorem evaluatesEach_two_iff {e e' : Value} {r : Outcome Value} :
    EvaluatesEach files i (.ofList [e, e']) σ r ↔
      Sequel (Evaluates files i e σ) (fun v ρ =>
        Sequel (Evaluates files i e' ρ) fun v' τ r => r = .done (.ofList [v, v']) τ) r := by
  refine evaluatesEach_cons_iff.trans (sequel_congr (fun _ => Iff.rfl) fun v ρ r _ => ?_)
  refine (sequel_congr (fun _ => evaluatesEach_one_iff) fun _ _ _ _ => Iff.rfl).trans ?_
  exact sequel_assoc.trans
    (sequel_congr (fun _ => Iff.rfl) fun _ _ _ _ => sequel_of_done fun _ => Iff.rfl)

/-! ### Expressions one after the other -/

/-- Evaluating the expressions one after the other takes a state to an outcome: the values of all of
them, or the error of the first that fails. No expression is evaluated after that one. -/
def EvaluatesInOrder (files : Files) (i : FrameId) :
    List Value → State → Outcome (List Value) → Prop
  | [], σ, r => r = .done [] σ
  | e :: es, σ, r =>
    Sequel (Evaluates files i e σ) (fun v ρ =>
      Sequel (EvaluatesInOrder files i es ρ) fun vs τ r => r = .done (v :: vs) τ) r

/-- The result of a sequence of expressions is the value of the last one, and the empty list if
there are no expressions. -/
def EvaluatesSequence (files : Files) (i : FrameId) (es : List Value) (σ : State)
    (r : Outcome Value) : Prop :=
  Sequel (EvaluatesInOrder files i es σ) (fun vs τ r => r = .done (vs.getLastD .empty) τ) r

/-- Operands are evaluated one after the other. -/
theorem evaluatesEach_iff_inOrder {operands : Value} {r : Outcome Value} :
    EvaluatesEach files i operands σ r ↔
      Sequel (EvaluatesInOrder files i operands.elements σ)
        (fun vs τ r => r = .done (.ofList vs) τ) r := by
  induction operands generalizing σ r with
  | cons e rest _ ih =>
    simp only [Value.elements_cons, EvaluatesInOrder, sequel_assoc]
    refine evaluatesEach_cons_iff.trans (sequel_congr (fun _ => Iff.rfl) fun v ρ r _ => ?_)
    refine (sequel_congr (fun _ => ih) fun _ _ _ _ => Iff.rfl).trans ?_
    simp only [sequel_assoc, sequel_eq_done]
    rfl
  | _ =>
    refine Iff.trans ?_ (sequel_of_done fun _ => Iff.rfl).symm
    exact comesTo_pure_iff

theorem evaluatesEach_ofList_iff {es : List Value} {r : Outcome Value} :
    EvaluatesEach files i (.ofList es) σ r ↔
      Sequel (EvaluatesInOrder files i es σ) (fun vs τ r => r = .done (.ofList vs) τ) r := by
  rw [evaluatesEach_iff_inOrder, Value.elements_ofList]

/-- The function `f` is what a value is. -/
structure Value.IsFunction (v : Value) (f : Callable) : Prop where
  typeOf_eq : v.typeOf = .function
  callable?_eq : v.callable? = some f

theorem deepens_step (files : Files) (i : FrameId) (e : Value) :
    Deepens fun depth => (eval files depth).step files i e :=
  fun _ _ hd => (eval_refines files hd).step files i e

/-- A call whose head is done goes on with what the value of the head makes of the operands, in the
state in which the head is done. -/
theorem evaluates_cons_iff {head operands v : Value} {next : Nat → Action Value}
    (hhead : Evaluates files i head σ (.done v τ)) (hnext : Deepens next)
    (hcall : ∀ depth, eval files depth i head σ = .done v τ →
      (eval files depth).step files i (.cons head operands) σ = next depth τ)
    {r : Outcome Value} : Evaluates files i (.cons head operands) σ r ↔ ComesTo next τ r := by
  rw [evaluates_iff_step]
  constructor
  · rintro ⟨hr, depth, h⟩
    obtain ⟨e, ρ, hfailed, -⟩ | ⟨w, ρ, hdone, -⟩ := Action.bind_cases h hr
    · cases (Evaluates.of_eval_eq_failed hfailed).unique hhead
    · cases (Evaluates.of_eval_eq_done hdone).unique hhead
      exact ⟨hr, depth, (hcall depth hdone).symm.trans h⟩
  · intro h
    obtain ⟨dhead, hhead⟩ := hhead.settles
    obtain ⟨dnext, hnext⟩ := h.settles hnext
    have hstep := hcall (max dhead dnext) (hhead _ (Nat.le_max_left _ _))
    exact ⟨h.1, _, hstep.trans (hnext _ (Nat.le_max_right _ _))⟩

/-- A call whose head has a function as its value: the operands are evaluated, and then the function
is called. -/
theorem evaluates_functionCall_iff {head operands v : Value} {f : Callable}
    (hhead : Evaluates files i head σ (.done v τ)) (hv : v.IsFunction f) {r : Outcome Value} :
    Evaluates files i (.cons head operands) σ r ↔
      Sequel (EvaluatesEach files i operands τ) (fun args => Applies files f args) r := by
  have hargs := deepens_evaluateEach files i operands
  have hf := deepens_apply files f
  refine (evaluates_cons_iff hhead (hargs.bind hf) fun depth hdone => ?_).trans
    (comesTo_bind_iff hargs hf)
  rw [Evaluator.step, Evaluator.call, Action.bind_apply, hdone]
  obtain ⟨htype, hcallable⟩ := hv
  cases v with
  | primitive =>
    cases hcallable
    rfl
  | closure role =>
    cases hcallable
    cases role with
    | function => rfl
    | expander => cases htype
  | _ => cases hcallable

/-- A call of a function by its name. -/
theorem evaluates_call_iff {x : String} {v operands : Value} {f : Callable}
    (hx : σ.lookup? i x = some v) (hv : v.IsFunction f) {r : Outcome Value} :
    Evaluates files i (.cons (.symbol x) operands) σ r ↔
      Sequel (EvaluatesEach files i operands σ) (fun args => Applies files f args) r :=
  evaluates_functionCall_iff (yields_symbol hx) hv

/-- A call with two operands, of which the first is evaluated first. -/
theorem evaluates_callTwo_iff {x : String} {v e e' : Value} {f : Callable}
    (hx : σ.lookup? i x = some v) (hv : v.IsFunction f) {r : Outcome Value} :
    Evaluates files i (.callOf x [e, e']) σ r ↔
      Sequel (Evaluates files i e σ) (fun u ρ =>
        Sequel (Evaluates files i e' ρ) fun u' => Applies files f (.ofList [u, u'])) r := by
  refine (evaluates_call_iff hx hv).trans ?_
  refine (sequel_congr (fun _ => evaluatesEach_two_iff) fun _ _ _ _ => Iff.rfl).trans ?_
  refine sequel_assoc.trans (sequel_congr (fun _ => Iff.rfl) fun u ρ r _ => ?_)
  exact sequel_assoc.trans
    (sequel_congr (fun _ => Iff.rfl) fun _ _ _ _ => sequel_of_done fun _ => Iff.rfl)

/-- A call whose head has a macro as its value: the macro is called on the operands as they are, and
its result is evaluated in the frame of the call. -/
theorem evaluates_expansion_iff {head operands params body : Value} {name : String} {id : Nat}
    {frame : FrameId}
    (hhead : Evaluates files i head σ (.done (.closure .expander name id params body frame) τ))
    {r : Outcome Value} :
    Evaluates files i (.cons head operands) σ r ↔
      Sequel (Applies files (.closure name params body frame) operands τ)
        (fun expansion => Evaluates files i expansion) r := by
  have hf := deepens_apply files (.closure name params body frame) operands
  have heval := deepens_eval files i
  refine (evaluates_cons_iff hhead (hf.bind heval) fun depth hdone => ?_).trans
    (comesTo_bind_iff hf heval)
  rw [Evaluator.step, Evaluator.call, Action.bind_apply, hdone]

/-- A call of a macro by its name. -/
theorem evaluates_macroCall_iff {x name : String} {id : Nat} {params body operands : Value}
    {frame : FrameId} (hx : σ.lookup? i x = some (.closure .expander name id params body frame))
    {r : Outcome Value} :
    Evaluates files i (.cons (.symbol x) operands) σ r ↔
      Sequel (Applies files (.closure name params body frame) operands σ)
        (fun expansion => Evaluates files i expansion) r :=
  evaluates_expansion_iff (yields_symbol hx)

theorem deepens_run (files : Files) (form : SpecialForm) (i : FrameId) (operands : Value) :
    Deepens fun depth => form.run (eval files depth) files i operands :=
  fun _ _ hd => (eval_refines files hd).run files form i operands

/-- A special form that is called by its name is run on its operands. -/
theorem evaluates_specialForm_iff {x : String} {form : SpecialForm} {operands : Value}
    (hx : σ.lookup? i x = some (.specialForm form)) (hadmits : form.arity.Admits operands.length)
    {r : Outcome Value} :
    Evaluates files i (.cons (.symbol x) operands) σ r ↔
      ComesTo (fun depth => form.run (eval files depth) files i operands) σ r := by
  rw [evaluates_iff_step]
  refine comesTo_congr (deepens_step files i _) (deepens_run files form i operands) fun depth => ?_
  exact eval_specialForm hx hadmits depth

/-- The special form `if`, called by its name: the test decides which operand is evaluated next. -/
theorem evaluates_branch_iff {x : String} (hx : σ.lookup? i x = some (.specialForm .branch))
    {test consequent alternative : Value} {r : Outcome Value} :
    Evaluates files i (.cons (.symbol x) (.ofList [test, consequent, alternative])) σ r ↔
      Sequel (Evaluates files i test σ)
        (fun v => Evaluates files i (if v.isTruthy then consequent else alternative)) r := by
  have hadmits : SpecialForm.branch.arity.Admits
      (Value.ofList [test, consequent, alternative]).length := by
    rw [Value.length, Value.elements_ofList]
    exact ⟨Nat.le_succ 2, Nat.le_refl 3⟩
  have hrun (ev : Evaluator) : ev.branch i (.ofList [test, consequent, alternative]) =
      ev i test >>= fun v => ev i (if v.isTruthy then consequent else alternative) := by
    have hoperands : Value.ofList [test, consequent, alternative] =
      .cons test (.cons consequent (.cons alternative .empty)) := rfl
    rw [hoperands, Evaluator.branch]
    refine congrArg _ (funext fun v => ?_)
    cases v.isTruthy <;> rfl
  rw [evaluates_specialForm_iff hx hadmits]
  simp only [SpecialForm.run, hrun]
  exact comesTo_bind_iff (deepens_eval files i test) fun v => deepens_eval files i _

/-! ### Calls of functions -/

/-- A function whose body is one expression: the expression is evaluated in the new frame. -/
theorem applies_closure_iff {name : String} {params args form : Value} {frame : FrameId}
    {b : Bindings} (hb : LambdaList.bindParameters name params args = .ok b) {r : Outcome Value} :
    Applies files (.closure name params (.ofList [form]) frame) args σ r ↔
      Evaluates files σ.frameCount form (σ.derive frame b) r := by
  unfold Applies Evaluates
  simp only [Callable.apply_closure_sole _ hb]

theorem applies_primitive_iff {name : String} {op : Primitive} {args : Value} {r : Outcome Value} :
    Applies files (.primitive name op) args σ r ↔ r ≠ .exhausted ∧ op.apply args σ = r :=
  ⟨fun ⟨hr, _, h⟩ => ⟨hr, h⟩, fun ⟨hr, h⟩ => ⟨hr, 0, h⟩⟩

theorem Primitive.apply_eq {op : Primitive} (hop : op ≠ .println) {args : Value}
    (hadmits : op.arity.Admits args.length) :
    op.apply args = Action.ofExcept (op.compute args) := by
  rw [apply, Arity.check, if_pos hadmits, run_eq hop]
  rfl

/-- A call of a primitive that only computes, with as many arguments as it takes. -/
theorem applies_computation_iff {name : String} (op : Primitive) (hop : op ≠ .println)
    {args : Value} (hadmits : op.arity.Admits args.length) {r : Outcome Value} :
    Applies files (.primitive name op) args σ r ↔ r = Action.ofExcept (op.compute args) σ := by
  rw [applies_primitive_iff, Primitive.apply_eq hop hadmits]
  constructor
  · exact fun h => h.2.symm
  · rintro rfl
    cases op.compute args <;> exact ⟨nofun, rfl⟩

/-! ### Operands that have values -/

section Operands

variable {x : String} {es vs : List Value}

theorem evaluatesEach_of_yields (h : List.Forall₂ (fun e v => Yields files i e σ v) es vs)
    {r : Outcome Value} :
    EvaluatesEach files i (.ofList es) σ r ↔ r = .done (.ofList vs) σ := by
  induction h generalizing r with
  | nil => exact evaluatesEach_empty_iff
  | cons hv _ ih =>
    exact evaluatesEach_cons_iff.trans
      ((sequel_of_done fun _ => hv.iff_eq).trans (sequel_of_done fun _ => ih))

/-- A function whose operands have values is called on these. -/
theorem evaluates_callOf_iff {v : Value} {f : Callable} (hx : σ.lookup? i x = some v)
    (hv : v.IsFunction f) (h : List.Forall₂ (fun e v => Yields files i e σ v) es vs)
    {r : Outcome Value} :
    Evaluates files i (.callOf x es) σ r ↔ Applies files f (.ofList vs) σ r :=
  (evaluates_call_iff hx hv).trans (sequel_of_done fun _ => evaluatesEach_of_yields h)

/-- A primitive that only computes, called on operands that have values. -/
theorem evaluates_computation_iff {name : String} (op : Primitive)
    (hx : σ.lookup? i x = some (.primitive name op)) (hop : op ≠ .println)
    (h : List.Forall₂ (fun e v => Yields files i e σ v) es vs) (hadmits : op.arity.Admits vs.length)
    {r : Outcome Value} :
    Evaluates files i (.callOf x es) σ r ↔
      r = Action.ofExcept (op.compute (.ofList vs)) σ := by
  rw [evaluates_callOf_iff hx ⟨rfl, rfl⟩ h, applies_computation_iff op hop]
  rw [Value.length, Value.elements_ofList]
  exact hadmits

end Operands

end ConsLisp
