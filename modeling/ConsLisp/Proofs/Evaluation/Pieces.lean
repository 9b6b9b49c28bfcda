import ConsLisp.Proofs.Source.Joining
import ConsLisp.Session

/-!
# Evaluating a source in pieces

A source can be cut after any line up to which it reads without a syntax error. Evaluating the first
piece and then, if that succeeds, the second one does the same as evaluating the whole: the forms
are the same and are evaluated in the same order, with each of the two ways of reading. The value is
the one of the last form, wherever it stands. What can differ is the excerpt that a syntax error of
the second piece shows, since it is taken from another text.

## Main definitions

* `Outcome.SameUpToExcerpt`: outcomes that differ at most in the excerpt of a syntax error.

## Main results

* `Evaluator.evaluateFormsAfter_append`: forms are evaluated one after the other.
* `evaluateSource_joined`: evaluating a source, or a prelude, in one piece and in two.
-/

namespace ConsLisp

open Source (Form Forms SyntaxError readForms)

/-! ### Outcomes up to the excerpt of a syntax error -/

/-- The outcomes are the same, or both are the failure of a source that ends in the syntax error
`e?`, with the same kind and the same wording. -/
def Outcome.SameUpToExcerpt {α : Type} (e? : Option SyntaxError) (r r' : Outcome α) : Prop :=
  r' = r ∨ ∃ e e' τ, e? = some e ∧ r = .failed (.reading e) τ ∧ r' = .failed (.reading e') τ ∧
    e'.kind = e.kind ∧ e'.message = e.message

/-- A syntax error stays one, of the same kind and wording. -/
theorem Outcome.SameUpToExcerpt.exists_eq_failed {α : Type} {e? : Option SyntaxError}
    {r r' : Outcome α} (h : SameUpToExcerpt e? r r') {e : SyntaxError} {τ : State}
    (hr : r = .failed (.reading e) τ) :
    ∃ e', r' = .failed (.reading e') τ ∧ e'.kind = e.kind ∧ e'.message = e.message := by
  rcases h with rfl | ⟨e₀, e', τ', -, hr', hsame, hcause⟩
  · exact ⟨e, hr, rfl, rfl⟩
  · obtain ⟨he, rfl⟩ := Outcome.failed.inj (hr'.symm.trans hr)
    obtain rfl := Error.reading.inj he
    exact ⟨e', hsame, hcause⟩

namespace Action

variable {α β : Type} {e? : Option SyntaxError}

/-- Continuing in the same way keeps outcomes the same. -/
theorem sameUpToExcerpt_bind {m m' : Action α} {σ : State}
    (h : Outcome.SameUpToExcerpt e? (m σ) (m' σ)) (f : α → Action β) :
    Outcome.SameUpToExcerpt e? ((m >>= f) σ) ((m' >>= f) σ) := by
  rw [bind_apply, bind_apply]
  rcases h with h | ⟨e, e', τ, he, hm, hm', hcause⟩
  · rw [h]
    exact .inl rfl
  · rw [hm, hm']
    exact .inr ⟨e, e', τ, he, rfl, rfl, hcause⟩

/-- Beginning in the same way keeps outcomes the same. -/
theorem sameUpToExcerpt_bind_left (m : Action α) {f f' : α → Action β}
    (h : ∀ a τ, Outcome.SameUpToExcerpt e? (f a τ) (f' a τ)) (σ : State) :
    Outcome.SameUpToExcerpt e? ((m >>= f) σ) ((m >>= f') σ) := by
  rw [bind_apply, bind_apply]
  cases m σ with
  | done a τ => exact h a τ
  | failed e τ => exact .inl rfl
  | exhausted => exact .inl rfl

end Action

/-! ### Evaluating forms -/

namespace Evaluator

variable (ev : Evaluator) (i : FrameId)

/-- Only the values of forms matter to their evaluation. -/
theorem evaluateFormsAfter_congr (error? : Option SyntaxError) (last : Value)
    {forms forms' : List Form} (h : forms.map Form.value = forms'.map Form.value) :
    ev.evaluateFormsAfter i error? last forms = ev.evaluateFormsAfter i error? last forms' := by
  induction forms generalizing forms' last with
  | nil =>
    obtain rfl := List.map_eq_nil_iff.1 h.symm
    rfl
  | cons form forms ih =>
    cases forms' with
    | nil => cases h
    | cons form' forms' =>
      obtain ⟨hform, hforms⟩ := List.cons.inj h
      rw [evaluateFormsAfter, evaluateFormsAfter, hform]
      exact congrArg _ (funext fun v => ih v hforms)

/-- Forms are evaluated one after the other. -/
theorem evaluateFormsAfter_append (error? : Option SyntaxError) (last : Value)
    (forms forms' : List Form) :
    ev.evaluateFormsAfter i error? last (forms ++ forms') =
      (do
        let v ← ev.evaluateFormsAfter i none last forms
        ev.evaluateFormsAfter i error? v forms') := by
  induction forms generalizing last with
  | nil => rfl
  | cons form forms ih =>
    rw [List.cons_append, evaluateFormsAfter, evaluateFormsAfter, bind_assoc]
    exact congrArg _ (funext ih)

/-- Forms followed by syntax errors that differ in their excerpts only come to the same. -/
theorem sameUpToExcerpt_evaluateFormsAfter {error? error?' : Option SyntaxError}
    (h : error?'.map SyntaxError.bare = error?.map SyntaxError.bare) (last : Value)
    (forms : List Form) (σ : State) :
    Outcome.SameUpToExcerpt error? (ev.evaluateFormsAfter i error? last forms σ)
      (ev.evaluateFormsAfter i error?' last forms σ) := by
  induction forms generalizing last σ with
  | nil =>
    cases error? with
    | none =>
      obtain rfl := Option.map_eq_none_iff.1 h
      exact .inl rfl
    | some e =>
      obtain ⟨e', rfl, hbare⟩ := Option.map_eq_some_iff.1 h
      obtain ⟨hkind, hmessage, -⟩ := SyntaxError.mk.inj hbare
      exact .inr ⟨e, e', σ, rfl, rfl, rfl, hkind, hmessage⟩
  | cons form forms ih =>
    exact Action.sameUpToExcerpt_bind_left (ev i form.value) ih σ

/-- The second piece of a source, evaluated after a first one with the value `last`. -/
theorem sameUpToExcerpt_secondPiece {error? error?' : Option SyntaxError}
    (h : error?'.map SyntaxError.bare = error?.map SyntaxError.bare) (last : Value)
    (forms : List Form) (σ : State) :
    Outcome.SameUpToExcerpt error?
      ((do
        let v ← ev.evaluateFormsAfter i error? .empty forms
        return if forms = [] then last else v : Action Value) σ)
      (ev.evaluateFormsAfter i error?' last forms σ) := by
  cases forms with
  | nil =>
    have hsame := ev.sameUpToExcerpt_evaluateFormsAfter i h last [] σ
    cases error? <;> exact hsame
  | cons form forms =>
    -- With a form in the piece, the value before it is given up.
    have hsame := ev.sameUpToExcerpt_evaluateFormsAfter i h last (form :: forms) σ
    simp only [List.cons_ne_nil, if_false, bind_pure]
    exact hsame

/-- The forms of two sources joined by a newline, of which the first reads to its end, are those of
the first and then those of the second. -/
theorem evaluateSource_joined_eq {comments : Bool} {s₁ : String}
    (h : (readForms comments s₁).error? = none) (s₂ : String) :
    ev.evaluateSource i comments (s₁ ++ "\n" ++ s₂) =
      (do
        let v ← ev.evaluateSource i comments s₁
        ev.evaluateFormsAfter i (readForms comments (s₁ ++ "\n" ++ s₂)).error? v
          (readForms comments s₂).forms) := by
  rw [evaluateSource, evaluateForms, evaluateSource, evaluateForms, h,
    ← ev.evaluateFormsAfter_append]
  refine ev.evaluateFormsAfter_congr i _ _ ?_
  rw [List.map_append]
  exact (Source.readForms_joined h).1

/-- Evaluating two sources in one piece and in two. -/
theorem sameUpToExcerpt_joined {comments : Bool} {s₁ : String}
    (h : (readForms comments s₁).error? = none) (s₂ : String) (σ : State) :
    Outcome.SameUpToExcerpt (readForms comments s₂).error?
      ((do
        let v₁ ← ev.evaluateSource i comments s₁
        let v₂ ← ev.evaluateSource i comments s₂
        return if (readForms comments s₂).forms = [] then v₁ else v₂ : Action Value) σ)
      (ev.evaluateSource i comments (s₁ ++ "\n" ++ s₂) σ) := by
  rw [ev.evaluateSource_joined_eq i h s₂]
  refine Action.sameUpToExcerpt_bind_left _ (fun v τ => ?_) σ
  exact ev.sameUpToExcerpt_secondPiece i (Source.readForms_joined h).2 v _ τ

end Evaluator

/-- Evaluating two sources joined by a newline, of which the first reads to its end, comes to the
same as evaluating the first one and then the second one. Starting a session with both as its
prelude comes to the same as starting it with the first one and then evaluating the second one. -/
theorem evaluateSource_joined (s₁ s₂ : String) :
    (∀ comments, (readForms comments s₁).error? = none →
      ∀ (ev : Evaluator) (i : FrameId) (σ : State),
        Outcome.SameUpToExcerpt (readForms comments s₂).error?
          ((do
            let v₁ ← ev.evaluateSource i comments s₁
            let v₂ ← ev.evaluateSource i comments s₂
            return if (readForms comments s₂).forms = [] then v₁ else v₂ : Action Value) σ)
          (ev.evaluateSource i comments (s₁ ++ "\n" ++ s₂) σ)) ∧
      ((readForms true s₁).error? = none → ∀ (ev : Evaluator) (σ : State),
        Outcome.SameUpToExcerpt (readForms true s₂).error?
          ((do
            ev.start s₁
            let _ ← ev.evaluateSource globalFrame true s₂ : Action Unit) σ)
          (ev.start (s₁ ++ "\n" ++ s₂) σ)) := by
  refine ⟨fun comments h ev i σ => ev.sameUpToExcerpt_joined i h s₂ σ, fun h ev σ => ?_⟩
  have hsource := ev.sameUpToExcerpt_joined globalFrame h s₂ σ
  have hstart := Action.sameUpToExcerpt_bind hsource fun _ => pure ()
  simpa only [Evaluator.start, bind_assoc, pure_bind] using hstart

/-- A piece that ends in a comment. -/
def commentedPiece : String :=
  "(def a 1) ; one"

/-- A piece with a form before a stray parenthesis. -/
def strayPiece : String :=
  "(inc! a) )"

/-- The state of a session in which `a` has been defined and counted up. -/
def countedState : State :=
  (State.initial.bind globalFrame "a" (.integer 1)).assign globalFrame "a" (.integer 2)

/-- The comment at the seam does not run into the second piece: its form is evaluated before its
syntax error is met, in one piece as in two. -/
theorem evaluateSource_joined_commentedPiece :
    (readForms true commentedPiece).error? = none ∧
      (∃ e, (eval .empty 2).evaluateSource globalFrame true (commentedPiece ++ "\n" ++ strayPiece)
          State.initial = .failed (.reading e) countedState ∧
        e.kind = .invalid ∧ e.message = "Unexpected ')'") ∧
      ∃ e, (eval .empty 2).start (commentedPiece ++ "\n" ++ strayPiece) State.initial =
          .failed (.reading e) countedState ∧
        e.kind = .invalid ∧ e.message = "Unexpected ')'" := by
  have hread : (readForms true commentedPiece).error? = none := by
    with_unfolding_all rfl
  have hcommented : (readForms true commentedPiece).forms =
      [⟨.ofList [.symbol "def", .symbol "a", .integer 1], 9⟩] := by
    with_unfolding_all rfl
  have hstray : (readForms true strayPiece).forms = [⟨.ofList [.symbol "inc!", .symbol "a"], 8⟩] := by
    with_unfolding_all rfl
  have herror : (readForms true strayPiece).error? =
      some (Source.ReadFault.strayClosing.inText strayPiece.toList 10) := by
    with_unfolding_all rfl
  obtain ⟨hsource, hstart⟩ := evaluateSource_joined commentedPiece strayPiece
  refine ⟨hread, ?_, ?_⟩
  · refine (hsource true hread (eval .empty 2) globalFrame State.initial).exists_eq_failed
      (e := Source.ReadFault.strayClosing.inText strayPiece.toList 10) ?_
    simp only [Evaluator.evaluateSource, Evaluator.evaluateForms, hread, hcommented, hstray, herror]
    rfl
  · refine (hstart hread (eval .empty 2) State.initial).exists_eq_failed
      (e := Source.ReadFault.strayClosing.inText strayPiece.toList 10) ?_
    simp only [Evaluator.start, Evaluator.evaluateSource, Evaluator.evaluateForms, hread, hcommented,
      hstray, herror]
    rfl

end ConsLisp
