import ConsLisp.Evaluation.Basic
import ConsLisp.Proofs.Evaluation.Parameters

/-!
# Forms and calls that write at most once

A definition with a signature checks its operands before it writes, and writes one binding. `inc!`
changes the value of one name. `lambda`, `fn` and `macro` write nothing. All of them leave no trace
when they fail. The same is true of a source that cannot be read.

A call binds parameters before it fails in one of them. Where parameters are written into the frame
of the call one after the other (`Callable.applyInSteps`), this frame is left with those that were
bound before, and nothing refers to it. The call is otherwise the same as one that computes all
bindings first.

## Main definitions

* `State.Untouched`, `State.GainsBinding`, `State.ChangesValue`: nothing is written, one binding,
  one value.
* `Outcome.Writes`: what an action writes if it is done, where a failure leaves no trace.
* `LambdaList.bindFormalsIn`, `Callable.applyInSteps`: a call that writes its parameters into its
  frame.
* `Files.readText`: the text in a file.

## Main results

* `writes_defineCallable`, `writes_makeClosure`, `writes_increment`: the special forms.
* `LambdaList.bindFormalsIn_mirrors`, `Callable.applyInSteps_of_ok`: the two ways to bind
  parameters.
* `Evaluator.loadAll_chain`: loading stops at a file that cannot be read.
* `failures_leave_no_trace`: all of them.
-/

namespace ConsLisp

variable {σ τ : State} {i : FrameId}

/-! ### What is written -/

/-- No frame is different and nothing has been printed. -/
structure State.Untouched (σ τ : State) : Prop where
  frames_eq : τ.frames = σ.frames
  printed_eq : τ.printed = σ.printed

theorem State.Untouched.refl (σ : State) : σ.Untouched σ :=
  ⟨rfl, rfl⟩

/-- Frame `i` has gained a binding for a name that it did not bind. Nothing else is different in any
frame, and nothing has been printed. -/
structure State.GainsBinding (σ : State) (i : FrameId) (x : String) (v : Value) (τ : State) :
    Prop where
  local?_eq_none : σ.local? i x = none
  bindingsOf_eq (j : FrameId) :
    τ.bindingsOf j = if j = i then (x, v) :: σ.bindingsOf i else σ.bindingsOf j
  chain_eq (j : FrameId) : τ.chain j = σ.chain j
  printed_eq : τ.printed = σ.printed

/-- A name of frame `i` has another value. The frames bind the same names as before, all other
bindings have the same values, and nothing has been printed. -/
structure State.ChangesValue (σ : State) (i : FrameId) (x : String) (v w : Value) (τ : State) :
    Prop where
  local?_before : σ.local? i x = some v
  local?_eq (j : FrameId) (y : String) :
    τ.local? j y = if j = i ∧ y = x then some w else σ.local? j y
  names_eq (j : FrameId) : (τ.bindingsOf j).map Prod.fst = (σ.bindingsOf j).map Prod.fst
  chain_eq (j : FrameId) : τ.chain j = σ.chain j
  printed_eq : τ.printed = σ.printed

/-- An action that is done has written what `W` says, and one that has failed has written nothing.
One or the other is the case. -/
inductive Outcome.Writes (σ : State) (W : Value → State → Prop) : Outcome Value → Prop
  | done {v : Value} {τ : State} (h : W v τ) : Writes σ W (.done v τ)
  | failed {e : Error} {τ : State} (h : σ.Untouched τ) : Writes σ W (.failed e τ)

theorem State.Untouched.bindingsOf_eq (h : σ.Untouched τ) (j : FrameId) :
    τ.bindingsOf j = σ.bindingsOf j := by
  rw [bindingsOf, bindingsOf, h.frames_eq]

theorem State.Untouched.chain_eq (h : σ.Untouched τ) (j : FrameId) : τ.chain j = σ.chain j := by
  rw [chain, chain, h.frames_eq]

theorem State.GainsBinding.of_bind (h : σ.Untouched τ) {x : String} (v : Value)
    (hi : i < σ.frameCount) (hx : σ.local? i x = none) :
    σ.GainsBinding i x v (τ.bind i x v) where
  local?_eq_none := hx
  bindingsOf_eq j := by
    have hi' : i < τ.frameCount := by rwa [frameCount, h.frames_eq]
    rw [bind, bindingsOf_modifyFrame _ _ _ _ hi', h.bindingsOf_eq, h.bindingsOf_eq]
  chain_eq j := (τ.chain_modifyFrame i j _).trans (h.chain_eq j)
  printed_eq := h.printed_eq

theorem Bindings.map_fst_assign (b : Bindings) (x : String) (v : Value) :
    (b.assign x v).map Prod.fst = b.map Prod.fst := by
  rw [assign, List.map_map]
  refine List.map_congr_left fun p _ => ?_
  by_cases hp : p.1 = x <;> simp [hp]

theorem State.ChangesValue.of_assign {x : String} {v : Value} (hx : σ.local? i x = some v)
    (w : Value) : σ.ChangesValue i x v w (σ.assign i x w) where
  local?_before := hx
  local?_eq j y := by
    rw [local?_assign (frameCount_of_local? hx), hx, Option.map_some]
  names_eq j := by
    rw [assign, bindingsOf_modifyFrame _ _ _ _ (frameCount_of_local? hx)]
    split
    · next h => rw [Bindings.map_fst_assign, h]
    · rfl
  chain_eq j := σ.chain_modifyFrame i j _
  printed_eq := rfl

/-! ### Special forms -/

/-- The role of the callable that a special form binds to the name in a signature. `def` expects a
signature where its first operand is a pair. -/
def SpecialForm.definedRole? (form : SpecialForm) (operands : Value) : Option Role :=
  match form, operands with
  | .defineFunction, _ => some .function
  | .defineMacro, _ => some .expander
  | .define, .cons (.cons _ _) _ => some .function
  | _, _ => none

/-- The role of the closure that a special form makes without binding it. -/
def SpecialForm.madeRole? : SpecialForm → Option Role
  | .lambda | .fn => some .function
  | .makeMacro => some .expander
  | _ => none

theorem checkLambdaList_cases (params : Value) (σ : State) :
    checkLambdaList params σ = .done () σ ∨
      checkLambdaList params σ = .failed (.typing (.paramsNotList params.text)) σ := by
  unfold checkLambdaList
  split
  · exact .inl rfl
  · exact .inr rfl

/-- A definition with a signature writes the binding of its name, after all of its checks. -/
theorem writes_defineCallable (hi : i < σ.frameCount) (role : Role) (form : String)
    (operands : Value) :
    (Evaluator.defineCallable role form i operands σ).Writes σ fun v τ =>
      ∃ x params body, operands = .cons (.cons (.symbol x) params) body ∧ v = .symbol x ∧
        σ.GainsBinding i x (.closure role x σ.closures params body i) τ := by
  unfold Evaluator.defineCallable
  split
  · next x params body =>
    obtain hparams | hparams := checkLambdaList_cases params σ
    · -- The number of closures goes up before the name is found to be taken. No frame tells it.
      let counted : State := { σ with closures := σ.closures + 1 }
      have hcounted : σ.Untouched counted := ⟨rfl, rfl⟩
      simp only [Action.bind_apply, hparams, Action.newClosure, Action.define]
      cases hx : counted.local? i x with
      | none => exact .done ⟨x, params, body, rfl, rfl, .of_bind hcounted _ hi hx⟩
      | some w => exact .failed hcounted
    · simp only [Action.bind_apply, hparams]
      exact .failed (.refl σ)
  · exact .failed (.refl σ)
  · exact .failed (.refl σ)

/-- A closure that is made is bound to no name. -/
theorem writes_makeClosure (role : Role) (name : String) (operands : Value) :
    (Evaluator.makeClosure role name i operands σ).Writes σ fun v τ =>
      (∃ name params body, v = .closure role name σ.closures params body i) ∧ σ.Untouched τ := by
  unfold Evaluator.makeClosure
  obtain hparams | hparams := checkLambdaList_cases (operands.first?.getD .empty) σ
  · simp only [Action.bind_apply, hparams]
    exact .done ⟨⟨_, _, _, rfl⟩, ⟨rfl, rfl⟩⟩
  · simp only [Action.bind_apply, hparams]
    exact .failed (.refl σ)

/-- What is counted up is the value of the name, in the nearest frame that binds it. -/
theorem writes_increment (operands : Value) :
    (Evaluator.increment i operands σ).Writes σ fun v τ =>
      ∃ x j n m, operands.first? = some (.symbol x) ∧ σ.resolve? i x = some (j, .integer n) ∧
        m.val = n.val + 1 ∧ v = .integer m ∧ σ.ChangesValue j x (.integer n) (.integer m) τ := by
  by_cases hoperand : ∃ x, operands.first? = some (.symbol x)
  · obtain ⟨x, hoperand⟩ := hoperand
    have hrun : Evaluator.increment i operands = Action.increment i x := by
      rw [Evaluator.increment, hoperand]
    rw [hrun]
    obtain ⟨v, τ, hdone⟩ | ⟨e, hfailed⟩ := Action.increment_eq_done_or_failed i x σ
    · obtain ⟨j, n, m, hn, hm, rfl, rfl⟩ := Action.increment_eq_done_iff.1 hdone
      rw [hdone]
      exact .done ⟨x, j, n, m, hoperand, hn, hm, rfl, .of_assign (State.local?_of_resolve? hn) _⟩
    · rw [hfailed]
      exact .failed (.refl σ)
  · unfold Evaluator.increment
    cases hfirst : operands.first? with
    | none => exact .failed (.refl σ)
    | some v =>
      cases v with
      | symbol x => exact (hoperand ⟨x, hfirst⟩).elim
      | _ => exact .failed (.refl σ)

section Run

variable (ev : Evaluator) (files : Files) (i : FrameId) {form : SpecialForm} {operands : Value}
  {role : Role}

/-- All definitions with a signature are one. Their errors tell them apart. -/
theorem SpecialForm.exists_run_eq_defineCallable (h : form.definedRole? operands = some role) :
    ∃ name, form.run ev files i operands = Evaluator.defineCallable role name i operands := by
  unfold definedRole? at h
  split at h <;> cases h
  all_goals exact ⟨_, rfl⟩

theorem SpecialForm.exists_run_eq_makeClosure (h : form.madeRole? = some role) :
    ∃ name, form.run ev files i operands = Evaluator.makeClosure role name i operands := by
  cases form with
  | lambda | fn | makeMacro =>
    cases h
    exact ⟨_, rfl⟩
  | _ => cases h

end Run

/-! ### Parameters bound in the frame of a call -/

/-- What is bound so far is what a frame inside `frame` binds, and nothing else is different. A
failure leaves the frame with some bindings. -/
def MirrorsBindings (σ : State) (frame : FrameId) : Except Error Bindings → Outcome Unit → Prop
  | .ok b, r => r = .done () (σ.derive frame b)
  | .error e, r => ∃ b, r = .failed e (σ.derive frame b)

theorem MirrorsBindings.bind {frame : FrameId} {bound? : Except Error Bindings}
    {f : Bindings → Except Error Bindings} {m : Action Unit} {g : Unit → Action Unit} {ρ : State}
    (hm : MirrorsBindings σ frame bound? (m ρ))
    (hf : ∀ b, MirrorsBindings σ frame (f b) (g () (σ.derive frame b))) :
    MirrorsBindings σ frame (bound? >>= f) ((m >>= g) ρ) := by
  rw [Action.bind_apply]
  cases bound? with
  | ok b =>
    rw [show m ρ = .done () (σ.derive frame b) from hm]
    exact hf b
  | error e =>
    obtain ⟨b, hb⟩ := hm
    rw [hb]
    exact ⟨b, rfl⟩

/-- Defining a name in a new frame adds it to the bindings that the frame was made with. -/
theorem mirrorsBindings_bind? (frame : FrameId) (b : Bindings) (x : String) (v : Value) :
    MirrorsBindings σ frame (b.bind? x v) (Action.define σ.frameCount x v (σ.derive frame b)) := by
  have hlocal : (σ.derive frame b).local? σ.frameCount x = b.find? x := by
    rw [State.local?_derive, if_pos rfl]
  have hbind : (σ.derive frame b).bind σ.frameCount x v = σ.derive frame ((x, v) :: b) := by
    refine State.ext_getElem? (fun j => ?_) rfl rfl
    rw [State.bind, State.getElem?_modifyFrame, State.getElem?_derive, State.getElem?_derive]
    by_cases hj : σ.frameCount = j
    · simp [hj]
    · simp [hj, Ne.symm hj]
  rw [Action.define, hlocal]
  cases hx : b.find? x with
  | none =>
    rw [Bindings.bind?_of_find?_eq_none hx]
    exact congrArg _ hbind
  | some w =>
    rw [Bindings.bind?_of_find?_eq_some hx]
    exact ⟨b, rfl⟩

namespace LambdaList

/-- Binds the parameters `formals` to the arguments `actuals` in a frame, one after the other. These
are what is left of the whole lambda list `params` and of the argument list `args` of the callable
called `name`. -/
def bindFormalsIn (name : String) (params args : Value) (i : FrameId) :
    (formals actuals : Value) → Action Unit
  | .cons (.symbol x) formals, actuals =>
    if x = restMarker then
      match formals with
      | .cons (.symbol rest) _ => Action.define i rest actuals
      | _ => Action.fail (.typing (.restWithoutName params.text))
    else
      match actuals with
      | .cons actual actuals => do
        Action.define i x actual
        bindFormalsIn name params args i formals actuals
      | _ => Action.fail (.arity name (.atLeast (requiredCount params)) args.length)
  | .cons (.cons (.symbol x) (.cons default _)) formals, actuals =>
    match actuals with
    | .cons actual actuals => do
      Action.define i x actual
      bindFormalsIn name params args i formals actuals
    | _ => do
      Action.define i x default
      bindFormalsIn name params args i formals actuals
  | .cons formal@(.cons _ _) _, _ => Action.fail (.typing (.malformedOptional formal.text))
  | .cons formal _, _ => Action.fail (.typing (.malformedParameter formal.text))
  | _, _ => pure ()

/-- Binding parameters in a new frame does to the frame what computing the bindings does to a
list. -/
theorem bindFormalsIn_mirrors (name : String) (params args : Value) (σ : State) (frame : FrameId)
    (bound : Bindings) (formals actuals : Value) :
    MirrorsBindings σ frame (bindFormals name params args bound formals actuals)
      (bindFormalsIn name params args σ.frameCount formals actuals (σ.derive frame bound)) := by
  -- The induction follows the formals, and the frame holds what has been bound up to each of them.
  fun_induction bindFormals name params args bound formals actuals with
  | case1 bound actuals rest formals =>
    simp only [bindFormalsIn, if_pos]
    exact mirrorsBindings_bind? frame bound rest actuals
  | case2 bound formals actuals hformals =>
    simp only [bindFormalsIn, if_pos]
    exact ⟨bound, rfl⟩
  | case3 bound x formals hx actual actuals ih =>
    simp only [bindFormalsIn, if_neg hx]
    exact (mirrorsBindings_bind? frame bound x actual).bind ih
  | case4 bound x formals actuals hx hnone =>
    simp only [bindFormalsIn, if_neg hx]
    exact ⟨bound, rfl⟩
  | case5 bound x default rest formals actual actuals ih =>
    exact (mirrorsBindings_bind? frame bound x actual).bind ih
  | case6 bound x default rest formals actuals hnone ih =>
    simp only [bindFormalsIn]
    exact (mirrorsBindings_bind? frame bound x default).bind ih
  | case7 bound actuals first rest formals hfirst =>
    simp only [bindFormalsIn]
    exact ⟨bound, rfl⟩
  | case8 bound actuals formal formals hsymbol hoptional hpair =>
    simp only [bindFormalsIn]
    exact ⟨bound, rfl⟩
  | case9 =>
    simp only [bindFormalsIn]
    rfl

end LambdaList

/-- Calls a closure on a list of arguments, writing its parameters one after the other into the
frame in which its body is evaluated. -/
def Callable.applyInSteps (ev : Evaluator) (name : String) (params body : Value) (frame : FrameId)
    (args : Value) : Action Value := do
  let i ← Action.derive frame []
  LambdaList.bindFormalsIn name params args i params args
  ev.evaluateBody i body

section Calls

variable (ev : Evaluator) {name : String} {params args : Value} (body : Value) (frame : FrameId)

theorem Callable.applyInSteps_eq :
    Callable.applyInSteps ev name params body frame args σ =
      (do
        LambdaList.bindFormalsIn name params args σ.frameCount params args
        ev.evaluateBody σ.frameCount body) (σ.derive frame []) :=
  rfl

/-- A call whose parameters can be bound is the same, whether they are computed first or not. -/
theorem Callable.applyInSteps_of_ok {b : Bindings}
    (hb : LambdaList.bindParameters name params args = .ok b) :
    Callable.applyInSteps ev name params body frame args σ =
      (Callable.closure name params body frame).apply ev args σ := by
  have hmirrors := LambdaList.bindFormalsIn_mirrors name params args σ frame [] params args
  rw [← LambdaList.bindParameters, hb] at hmirrors
  rw [applyInSteps_eq, Action.bind_apply,
    show LambdaList.bindFormalsIn name params args σ.frameCount params args (σ.derive frame []) = _
      from hmirrors, Callable.apply, hb]
  rfl

/-- A call that fails in binding a parameter fails with the same error, and has made nothing but a
frame, which binds the parameters before that one. -/
theorem Callable.exists_applyInSteps_eq_failed {e : Error}
    (he : LambdaList.bindParameters name params args = .error e) :
    ∃ bound, Callable.applyInSteps ev name params body frame args σ =
      .failed e (σ.derive frame bound) := by
  have hmirrors := LambdaList.bindFormalsIn_mirrors name params args σ frame [] params args
  rw [← LambdaList.bindParameters, he] at hmirrors
  obtain ⟨bound, hbound⟩ := hmirrors
  refine ⟨bound, ?_⟩
  rw [applyInSteps_eq, Action.bind_apply, hbound]

end Calls

/-! ### Sources that cannot be read -/

/-- The text in the file at a path, or why there is none. -/
def Files.readText (files : Files) (path : String) : Except LoadFault String := do
  decodeText (← files.read path)

namespace Evaluator

variable (ev : Evaluator) {files : Files} {path : String} {fault : LoadFault}

/-- Bytes that are no text are refused before anything is evaluated. -/
theorem loadBytes_of_error {contents : ByteArray} (h : decodeText contents = .error fault) :
    ev.loadBytes i path contents = Action.fail (.loading path fault) := by
  rw [loadBytes, h]

theorem loadFile_of_error (h : files.readText path = .error fault) :
    ev.loadFile files i path = Action.fail (.loading path fault) := by
  unfold loadFile
  cases hread : files.read path with
  | error fault' =>
    rw [Files.readText, hread] at h
    obtain rfl : fault' = fault := Except.error.inj h
    rfl
  | ok contents =>
    rw [Files.readText, hread] at h
    exact ev.loadBytes_of_error h

/-- A file that cannot be read ends the loading of several files. The files before it have been
loaded, and those behind it have not. -/
theorem loadAll_chain (h : files.readText path = .error fault) (earlier : List String)
    (later : Value) :
    ev.loadAll files i (.chain (earlier.map .string) (.cons (.string path) later)) =
      (do
        let _ ← ev.loadAll files i (.ofList (earlier.map .string))
        Action.fail (.loading path fault)) := by
  induction earlier with
  | nil =>
    rw [List.map_nil, Value.chain, List.foldr_nil, loadAll, ev.loadFile_of_error h]
    rfl
  | cons p earlier ih =>
    have hstep (rest : Value) : ev.loadAll files i (.cons (.string p) rest) =
        (do
          let _ ← ev.loadFile files i p
          ev.loadAll files i rest) := by
      rw [loadAll]
    change ev.loadAll files i (.cons (.string p) (.chain (earlier.map .string) _)) =
      (ev.loadAll files i (.cons (.string p) (.ofList (earlier.map .string))) >>= _)
    rw [hstep, hstep, ih, bind_assoc]

end Evaluator

/-! ### No trace of a failure -/

/-- A definition with a signature adds one binding in its own frame, `lambda`, `fn` and `macro`
write nothing, and `inc!` adds one to one value; whenever one of them fails, all frames are as they
were and nothing is printed. A call that fails in binding a parameter leaves the state as it was,
and one that writes its parameters as it goes leaves one frame more. A source that is missing, or is
no text, leaves the state as it was, which is the state that the files named before it have left. -/
theorem failures_leave_no_trace (ev : Evaluator) (files : Files) (hi : i < σ.frameCount) :
    (∀ (form : SpecialForm) (operands : Value) (role : Role),
      form.definedRole? operands = some role →
      (form.run ev files i operands σ).Writes σ fun v τ =>
        ∃ x params body, operands = .cons (.cons (.symbol x) params) body ∧ v = .symbol x ∧
          σ.GainsBinding i x (.closure role x σ.closures params body i) τ) ∧
    (∀ (form : SpecialForm) (operands : Value) (role : Role), form.madeRole? = some role →
      (form.run ev files i operands σ).Writes σ fun v τ =>
        (∃ name params body, v = .closure role name σ.closures params body i) ∧ σ.Untouched τ) ∧
    (∀ operands : Value,
      (SpecialForm.increment.run ev files i operands σ).Writes σ fun v τ =>
        ∃ x j n m, operands.first? = some (.symbol x) ∧ σ.resolve? i x = some (j, .integer n) ∧
          m.val = n.val + 1 ∧ v = .integer m ∧
          σ.ChangesValue j x (.integer n) (.integer m) τ) ∧
    (∀ (name : String) (params body args : Value) (frame : FrameId) (e : Error),
      LambdaList.bindParameters name params args = .error e →
      (Callable.closure name params body frame).apply ev args σ = .failed e σ ∧
      ∃ τ, Callable.applyInSteps ev name params body frame args σ = .failed e τ ∧
        (∀ j < σ.frameCount, τ.frames[j]? = σ.frames[j]?) ∧ τ.printed = σ.printed) ∧
    (∀ (path : String) (contents : ByteArray) (fault : LoadFault),
      decodeText contents = .error fault →
      ev.loadBytes i path contents σ = .failed (.loading path fault) σ) ∧
    ∀ (path : String) (fault : LoadFault), files.readText path = .error fault →
      ev.loadFile files i path σ = .failed (.loading path fault) σ ∧
      ∀ (earlier : List String) (later : Value),
        SpecialForm.load.run ev files i
            (.chain (earlier.map .string) (.cons (.string path) later)) σ =
          (do
            let _ ← SpecialForm.load.run ev files i (.ofList (earlier.map .string))
            Action.fail (.loading path fault)) σ := by
  refine ⟨fun form operands role hrole => ?_, fun form operands role hrole => ?_,
    fun operands => writes_increment operands, fun name params body args frame e he => ⟨?_, ?_⟩,
    fun path contents fault h => ?_, fun path fault h => ⟨?_, fun earlier later => ?_⟩⟩
  · obtain ⟨name, hrun⟩ := SpecialForm.exists_run_eq_defineCallable ev files i hrole
    rw [hrun]
    exact writes_defineCallable hi role name operands
  · obtain ⟨name, hrun⟩ := SpecialForm.exists_run_eq_makeClosure ev files i hrole
    rw [hrun]
    exact writes_makeClosure role name operands
  · rw [Callable.apply, he]
    rfl
  · obtain ⟨bound, hbound⟩ := Callable.exists_applyInSteps_eq_failed ev body frame he
    refine ⟨_, hbound, fun j hj => ?_, rfl⟩
    rw [State.getElem?_derive, if_neg (Nat.ne_of_lt hj)]
  · rw [ev.loadBytes_of_error h]
    rfl
  · rw [ev.loadFile_of_error h]
    rfl
  · exact congrFun (ev.loadAll_chain h earlier later) σ

/-- A state in which the name `f` is taken. -/
def fTaken : State :=
  ⟨#[⟨[("f", .integer 1)], []⟩], 0, ""⟩

/-- A signature for the name that is taken, without a body: `((f))` -/
def signatureOfF : Value :=
  .ofList [.ofList [.symbol "f"]]

/-- A lambda list that names a parameter twice: `(a a)` -/
def sameNameTwice : Value :=
  .ofList [.symbol "a", .symbol "a"]

/-- The name `f` cannot be defined again, the second `a` of the lambda list cannot be bound, and one
byte is no text. -/
theorem failures_leave_no_trace_fTaken :
    0 < fTaken.frameCount ∧
    SpecialForm.defineFunction.definedRole? signatureOfF = some .function ∧
    (∃ τ, SpecialForm.defineFunction.run (eval .empty 0) .empty 0 signatureOfF fTaken =
      .failed (.alreadyBound "f") τ ∧ fTaken.Untouched τ) ∧
    LambdaList.bindParameters "g" sameNameTwice (.ofList [.integer 1, .integer 2]) =
      .error (.alreadyBound "a") ∧
    (∃ τ, Callable.applyInSteps (eval .empty 0) "g" sameNameTwice .empty 0
        (.ofList [.integer 1, .integer 2]) fTaken = .failed (.alreadyBound "a") τ ∧
      ∀ j < fTaken.frameCount, τ.frames[j]? = fTaken.frames[j]?) ∧
    decodeText ⟨#[255]⟩ = .error .notText ∧
    (eval .empty 0).loadBytes 0 "<input>" ⟨#[255]⟩ fTaken =
      .failed (.loading "<input>" .notText) fTaken ∧
    Files.readText .empty "" = .error .missing ∧
    (eval .empty 0).loadFile .empty 0 "" fTaken = .failed (.loading "" .missing) fTaken := by
  have hi : 0 < fTaken.frameCount := by decide
  obtain ⟨hdefine, -, -, hcall, hbytes, hfile⟩ :=
    failures_leave_no_trace (eval .empty 0) .empty hi
  have hrun : SpecialForm.defineFunction.run (eval .empty 0) .empty 0 signatureOfF fTaken =
      .failed (.alreadyBound "f") { fTaken with closures := 1 } := rfl
  have htaken : LambdaList.bindParameters "g" sameNameTwice (.ofList [.integer 1, .integer 2]) =
      .error (.alreadyBound "a") := rfl
  have hbyte : decodeText ⟨#[255]⟩ = .error .notText := rfl
  have hmissing : Files.readText .empty "" = .error .missing := rfl
  refine ⟨hi, rfl, ⟨_, hrun, ?_⟩, htaken, ?_, hbyte, hbytes _ _ _ hbyte, hmissing,
    (hfile _ _ hmissing).1⟩
  · have hwrites := hdefine .defineFunction signatureOfF .function rfl
    rw [hrun] at hwrites
    cases hwrites with
    | failed h => exact h
  · obtain ⟨-, τ, hτ, hframes, -⟩ := hcall "g" sameNameTwice .empty _ 0 _ htaken
    exact ⟨τ, hτ, hframes⟩

end ConsLisp
