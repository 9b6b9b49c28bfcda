import ConsLisp.Evaluation.Basic

/-!
# The depth of evaluation

The bound on the depth of evaluation decides only whether there is an answer, never which one. An
action refines another when it ends in the same way wherever the other ends at all. Every rule of
evaluation keeps this relation, so a deeper evaluation refines a shallower one, and an expression
has at most one answer in a given frame and state.

## Main definitions

* `Action.Refines`, `Evaluator.Refines`: ending in the same way wherever the other ends.

## Main results

* `Evaluator.Refines.step`: the rules of evaluation keep refinement.
* `eval_refines`: a deeper evaluation refines a shallower one.
* `Evaluates.unique`, `Applies.unique`: what an evaluation or a call comes to does not depend on the
  depth.
-/

namespace ConsLisp

/-! ### Refinement of actions -/

namespace Action

variable {α β : Type}

/-- `m'` refines `m` when it ends as `m` does wherever `m` ends. -/
def Refines (m' m : Action α) : Prop :=
  ∀ σ, m σ = .exhausted ∨ m' σ = m σ

theorem Refines.refl (m : Action α) : m.Refines m :=
  fun _ => .inr rfl

theorem Refines.trans {m'' m' m : Action α} (h' : m''.Refines m') (h : m'.Refines m) :
    m''.Refines m := by
  intro σ
  rcases h σ with hm | hm
  · exact .inl hm
  · rw [← hm]
    exact h' σ

theorem refines_exhausted (m : Action α) : m.Refines exhausted :=
  fun _ => .inl rfl

/-- Where an action ends, those that refine it end in the same way. -/
theorem Refines.apply_eq {m' m : Action α} (h : m'.Refines m) {σ : State} {r : Outcome α}
    (hm : m σ = r) (hr : r ≠ .exhausted) : m' σ = r := by
  subst hm
  exact (h σ).resolve_left hr

theorem Refines.bind {m' m : Action α} {f' f : α → Action β} (hm : m'.Refines m)
    (hf : ∀ a, (f' a).Refines (f a)) : (m' >>= f').Refines (m >>= f) := by
  intro σ
  simp only [bind_apply]
  rcases hm σ with h | h
  · exact .inl (by rw [h])
  · rw [h]
    cases m σ with
    | done a σ' => exact hf a σ'
    | failed e σ' => exact .inr rfl
    | exhausted => exact .inl rfl

theorem Refines.mapError {m' m : Action α} (f : Error → Error) (h : m'.Refines m) :
    (m'.mapError f).Refines (m.mapError f) := by
  intro σ
  unfold Action.mapError
  rcases h σ with h | h
  · exact .inl (by rw [h])
  · exact .inr (by rw [h])

end Action

/-! ### Refinement of evaluators -/

namespace Evaluator

/-- An evaluator refines another when it does so on every expression in every frame. -/
def Refines (ev' ev : Evaluator) : Prop :=
  ∀ i e, (ev' i e).Refines (ev i e)

namespace Refines

variable {ev' ev : Evaluator} (h : ev'.Refines ev)
include h

theorem evaluateOnto (i : FrameId) (values : List Value) (operands : Value) :
    (ev'.evaluateOnto i values operands).Refines (ev.evaluateOnto i values operands) := by
  induction operands generalizing values with
  | cons first rest _ ih => exact (h i first).bind fun v => ih (v :: values)
  | _ => exact .refl _

theorem evaluateAfter (i : FrameId) (last body : Value) :
    (ev'.evaluateAfter i last body).Refines (ev.evaluateAfter i last body) := by
  induction body generalizing last with
  | cons first rest _ ih => exact (h i first).bind fun v => ih v
  | _ => exact .refl _

theorem expandOnto (i : FrameId) (heads : List Value) (template : Value) :
    (ev'.expandOnto i heads template).Refines (ev.expandOnto i heads template) := by
  induction template generalizing heads with
  | quoted kind inner =>
    cases kind with
    | unquote => exact (h i inner).bind fun _ => .refl _
    | _ => exact .refl _
  | cons first rest ihf ihr =>
    unfold Evaluator.expandOnto
    refine (ihf []).bind fun head => ?_
    split
    · exact (h i _).bind fun _ => .refl _
    · exact ihr (head :: heads)
  | _ => exact .refl _

theorem apply (f : Callable) (args : Value) : (f.apply ev' args).Refines (f.apply ev args) := by
  cases f with
  | primitive name op => exact .refl _
  | closure name params body frame =>
    exact (Action.Refines.refl _).bind fun _ => (Action.Refines.refl _).bind fun i =>
      h.evaluateAfter i _ body

theorem evaluateFormsAfter (i : FrameId) (error? : Option Source.SyntaxError) (last : Value)
    (forms : List Source.Form) :
    (ev'.evaluateFormsAfter i error? last forms).Refines
      (ev.evaluateFormsAfter i error? last forms) := by
  induction forms generalizing last with
  | nil => exact .refl _
  | cons form forms ih => exact (h i form.value).bind fun v => ih v

theorem loadFile (files : Files) (i : FrameId) (path : String) :
    (ev'.loadFile files i path).Refines (ev.loadFile files i path) := by
  unfold Evaluator.loadFile Evaluator.loadBytes
  split
  · exact .refl _
  · split
    · exact .refl _
    · exact (h.evaluateFormsAfter i _ _ _).mapError _

theorem loadAll (files : Files) (i : FrameId) (operands : Value) :
    (ev'.loadAll files i operands).Refines (ev.loadAll files i operands) := by
  induction operands with
  | cons first rest _ ih =>
    cases first with
    | string path => exact (h.loadFile files i path).bind fun _ => ih
    | _ => exact .refl _
  | _ => exact .refl _

theorem defineName (i : FrameId) (operands : Value) :
    (ev'.defineName i operands).Refines (ev.defineName i operands) := by
  unfold Evaluator.defineName
  split
  · split
    · exact (h i _).bind fun _ => .refl _
    · exact .refl _
    · exact .refl _
  all_goals exact .refl _

theorem branch (i : FrameId) (operands : Value) :
    (ev'.branch i operands).Refines (ev.branch i operands) := by
  unfold Evaluator.branch
  split
  · refine (h i _).bind fun v => ?_
    split
    · exact h i _
    · split
      · exact h i _
      · exact .refl _
  · exact .refl _

theorem run (files : Files) (form : SpecialForm) (i : FrameId) (operands : Value) :
    (form.run ev' files i operands).Refines (form.run ev files i operands) := by
  cases form with
  | define => exact h.defineName i operands
  | branch => exact h.branch i operands
  | load => exact h.loadAll files i operands
  | _ => exact .refl _

theorem call (files : Files) (i : FrameId) (head operands : Value) :
    (ev'.call files i head operands).Refines (ev.call files i head operands) := by
  unfold Evaluator.call
  refine (h i head).bind fun v => ?_
  split
  · exact (Action.Refines.refl _).bind fun _ => h.run files _ i operands
  · exact (h.evaluateOnto i [] operands).bind fun args => h.apply _ args
  · exact (h.evaluateOnto i [] operands).bind fun args => h.apply _ args
  · exact (h.apply _ operands).bind fun expansion => h i expansion
  · exact .refl _

/-- The rules of evaluation keep refinement. -/
theorem step (files : Files) : (ev'.step files).Refines (ev.step files) := by
  intro i e
  unfold Evaluator.step
  split
  case h_6 template => exact h.expandOnto i [] template
  case h_7 head operands => exact h.call files i head operands
  all_goals exact .refl _

end Refines

end Evaluator

/-! ### Evaluation -/

theorem eval_succ_refines (files : Files) (depth : Nat) :
    (eval files (depth + 1)).Refines (eval files depth) := by
  induction depth with
  | zero => exact fun _ _ => Action.refines_exhausted _
  | succ depth ih => exact ih.step files

/-- A deeper evaluation refines a shallower one. -/
theorem eval_refines (files : Files) {d d' : Nat} (hd : d ≤ d') :
    (eval files d').Refines (eval files d) := by
  induction hd with
  | refl => exact fun _ _ => .refl _
  | step _ ih => exact fun i e => (eval_succ_refines files _ i e).trans (ih i e)

/-- A finished answer stays the same at every greater depth. -/
theorem eval_eq_of_le {files : Files} {d d' : Nat} (hd : d ≤ d') {i : FrameId} {e : Value}
    {σ : State} (h : eval files d i e σ ≠ .exhausted) :
    eval files d' i e σ = eval files d i e σ :=
  (eval_refines files hd i e σ).resolve_left h

/-- An evaluation comes to at most one outcome. -/
theorem Evaluates.unique {files : Files} {i : FrameId} {e : Value} {σ : State}
    {r r' : Outcome Value} (h : Evaluates files i e σ r) (h' : Evaluates files i e σ r') :
    r = r' := by
  obtain ⟨hr, d, rfl⟩ := h
  obtain ⟨hr', d', rfl⟩ := h'
  rcases Nat.le_total d d' with hd | hd
  · exact (eval_eq_of_le hd hr).symm
  · exact eval_eq_of_le hd hr'

/-- A call comes to at most one outcome. -/
theorem Applies.unique {files : Files} {f : Callable} {args : Value} {σ : State}
    {r r' : Outcome Value} (h : Applies files f args σ r) (h' : Applies files f args σ r') :
    r = r' := by
  obtain ⟨hr, d, rfl⟩ := h
  obtain ⟨hr', d', rfl⟩ := h'
  rcases Nat.le_total d d' with hd | hd
  · exact (((eval_refines files hd).apply f args).apply_eq rfl hr).symm
  · exact ((eval_refines files hd).apply f args).apply_eq rfl hr'

end ConsLisp
