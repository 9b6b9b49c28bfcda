import ConsLisp.Proofs.Evaluation.Relocation
import ConsLisp.Proofs.Prelude.Lists

/-!
# Sequences of expressions in the frame of the caller

`begin` is a function of the prelude. Its arguments are evaluated before it is called, in order and
in the frame of the call, so that it only has to return the last of them. `when` and `unless` are
macros: they put their operands into an expression with `if` and `begin`, which is evaluated in the
frame of the call. All three do what evaluating the expressions one after the other does, in the
same frame, whatever the expressions define there, print, or return, and wherever they fail.

A call of `begin` leaves further frames behind, and nothing else. A macro is expanded before any
expression is evaluated, in a frame of its own, so that the frames made by the expressions have
other places than they have without the macro. Apart from these places the outcomes are the same.

## Main definitions

* `EvaluatesConditionally`: evaluating expressions in sequence, or not, depending on a test.
* `State.HasGlobalMeaning`: a name stands for what it stands for globally.
* `OutcomesAgree`, `Outcome.GainsFramesOnly`, `Outcome.SameFrom`: two ways to come to the same.

## Main results

* `begin_agrees`: a call of `begin`.
* `applies_when_iff`, `applies_unless_iff`: the expansions of the macros.
* `conditional_match`: a call of a macro, up to places.
* `sequences_in_callers_frame`: sequences in the states of a session.
-/

namespace ConsLisp

variable {files : Files} {R S : Places} {σ σ' τ : State} {i i' : FrameId} {r : Outcome Value}

/-! ### Expressions one after the other -/

/-- After the test `t`, the expressions are evaluated in sequence if it is `wanted` that the value
of the test is not `#f`, or that it is. Otherwise the result is the empty list. -/
def EvaluatesConditionally (files : Files) (i : FrameId) (wanted : Bool) (t : Value)
    (es : List Value) (σ : State) (r : Outcome Value) : Prop :=
  Sequel (Evaluates files i t σ)
    (fun v τ r => if decide (v ≠ .bool false) = wanted then EvaluatesSequence files i es τ r
      else r = .done .empty τ) r

theorem EvaluatesInOrder.keeps {es vs : List Value}
    (h : EvaluatesInOrder files i es σ (.done vs τ)) : σ.PersistsIn τ := by
  induction es generalizing σ vs with
  | nil =>
    cases h
    exact .refl _
  | cons e es ih =>
    cases h with
    | done he h =>
      cases h with
      | done hes h =>
        cases h
        exact he.keeps.trans (ih hes)

/-! ### Coming to the same -/

/-- Each outcome that one of two things may have agrees with an outcome that the other may have. -/
structure OutcomesAgree {α β : Type} (Q : Outcome α → Outcome β → Prop) (P : Outcome α → Prop)
    (P' : Outcome β → Prop) : Prop where
  forth {r : Outcome α} : P r → ∃ r', P' r' ∧ Q r r'
  back {r' : Outcome β} : P' r' → ∃ r, P r ∧ Q r r'

/-- The second outcome is the first one, except that its state has further frames. -/
inductive Outcome.GainsFramesOnly : Outcome Value → Outcome Value → Prop
  | done (v : Value) {τ τ' : State} (h : τ.GainsFramesOnly τ') :
      GainsFramesOnly (.done v τ) (.done v τ')
  | failed (e : Error) {τ τ' : State} (h : τ.GainsFramesOnly τ') :
      GainsFramesOnly (.failed e τ) (.failed e τ')

/-- The outcomes are the same, seen from the state `σ`: the same error or the same result, the same
output, and the same names with the same values in all frames that `σ` has. Closures that have been
made since are the same up to the places of the frames that have been made since. -/
def Outcome.SameFrom (σ : State) (r r' : Outcome Value) : Prop :=
  ∃ R, List.range σ.frameCount <+: R ∧ r.RelocatesTo R (Value.RelocatesTo R) r'

/-- Actions that come to the same up to places do so seen from the state before. -/
theorem OutcomesMatch.agree {P P' : Outcome Value → Prop}
    (h : OutcomesMatch (List.range σ.frameCount) Value.RelocatesTo P P') :
    OutcomesAgree (Outcome.SameFrom σ) P P' :=
  ⟨h.forth, h.back⟩

/-- A failure is matched by a failure with the same error and the same output. The frames from
before give a name the same value, unless this is made of frames that are new. -/
theorem Outcome.SameFrom.exists_eq_failed {e : Error} {r' : Outcome Value}
    (h : (Outcome.failed e τ).SameFrom σ r') :
    ∃ τ', r' = .failed e τ' ∧ τ'.printed = τ.printed ∧
      ∀ j < σ.frameCount, ∀ x v, τ.local? j x = some v → v.IsWithin σ.frameCount →
        τ'.local? j x = some v := by
  obtain ⟨R, hR, hrel⟩ := h
  cases hrel with
  | failed _ hτ =>
    exact ⟨_, rfl, hτ.printed_eq.symm, fun j hj x v hx hv => hτ.local?_eq hR hj hx hv⟩

theorem State.GainsFramesOnly.refl (σ : State) : σ.GainsFramesOnly σ :=
  ⟨#[], by simp⟩

theorem State.RelocatesTo.gainsFramesOnly (h : σ.RelocatesTo R σ') (hτ : σ'.GainsFramesOnly τ) :
    σ.RelocatesTo R τ := by
  obtain ⟨further, rfl⟩ := hτ
  refine ⟨h.length_eq, h.nodup, fun {j j'} hj => ?_, h.closures_eq, h.printed_eq⟩
  obtain ⟨f, f', hf, hf', hrel⟩ := h.frame hj
  refine ⟨f, f', hf, ?_, hrel⟩
  exact (Array.getElem?_append_left (Array.getElem?_eq_some_iff.1 hf').1).trans hf'

theorem Outcome.RelocatesTo.gainsFramesOnly {Q : Value → Value → Prop} {r' r'' : Outcome Value}
    (h : r.RelocatesTo R Q r') (hgains : r'.GainsFramesOnly r'') : r.RelocatesTo R Q r'' := by
  cases hgains with
  | done v hτ =>
    cases h with
    | done hv h => exact .done hv (h.gainsFramesOnly hτ)
  | failed e hτ =>
    cases h with
    | failed _ h => exact .failed e (h.gainsFramesOnly hτ)

/-! ### Sequences in other places -/

theorem evaluatesInOrder_match (files : Files) (hσ : σ.RelocatesTo R σ') (hi : R[i]? = some i')
    {es es' : List Value} (hes : List.Forall₂ (Value.RelocatesTo R) es es') :
    OutcomesMatch R (fun S => List.Forall₂ (Value.RelocatesTo S)) (EvaluatesInOrder files i es σ)
      (EvaluatesInOrder files i' es' σ') := by
  induction es generalizing R σ σ' es' with
  | nil =>
    cases hes
    exact .of_eq (.done .nil hσ)
  | cons e es ih =>
    cases hes with
    | cons he hes =>
      refine (evaluates_match files hσ hi he).sequel fun {S v v' ρ ρ'} hR hv hρ _ => ?_
      have hrest := ih hρ (Places.getElem?_of_prefix hR hi) (hes.imp fun _ _ he => he.mono hR)
      exact hrest.sequel fun hS hvs hτ _ => .of_eq (.done (.cons (hv.mono hS) hvs) hτ)

theorem Value.RelocatesTo.getLastD {vs vs' : List Value}
    (h : List.Forall₂ (Value.RelocatesTo R) vs vs') {v v' : Value} (hv : v.RelocatesTo R v') :
    (vs.getLastD v).RelocatesTo R (vs'.getLastD v') := by
  induction h generalizing v v' with
  | nil => exact hv
  | cons hw _ ih =>
    rw [List.getLastD_cons, List.getLastD_cons]
    exact ih hw

/-- Sequences of the same expressions come to the same, up to places. -/
theorem evaluatesSequence_match (files : Files) (hσ : σ.RelocatesTo R σ') (hi : R[i]? = some i')
    {es es' : List Value} (hes : List.Forall₂ (Value.RelocatesTo R) es es') :
    OutcomesMatch R Value.RelocatesTo (EvaluatesSequence files i es σ)
      (EvaluatesSequence files i' es' σ') :=
  (evaluatesInOrder_match files hσ hi hes).sequel fun _ hvs hτ _ =>
    .of_eq (.done (.getLastD hvs .empty) hτ)

/-! ### Calls of `begin` -/

/-- What the parameter of `begin` is bound to. -/
def formsBinding (v : Value) : Bindings :=
  [("forms", v)]

/-- `begin` returns the last of its arguments. -/
theorem exists_applies_begin (files : Files) (hσ : σ.OffersPrelude) (vs : List Value) :
    ∃ τ, σ.GainsFramesOnly τ ∧
      Applies files Definition.begin.callable (.ofList vs) σ (.done (vs.getLastD .empty) τ) := by
  have hframe := hσ.isCallFrame (b := formsBinding (.ofList vs))
    (show ∀ x ∈ ["forms"], x ∉ preludeNames by decide)
  have hforms := hframe.yields_parameter files (x := "forms") rfl
  have hbody {r : Outcome Value} :
      Applies files Definition.begin.callable (.ofList vs) σ r ↔ _ :=
    (applies_closure_iff rfl).trans (hframe.evaluates_ifEmpty_iff hforms)
  cases vs with
  | nil => exact ⟨_, σ.gainsFramesOnly_derive _ _, hbody.2 yields_empty⟩
  | cons v vs =>
    obtain ⟨τ, hτ, hlast⟩ := exists_applies_last files hframe.offersPrelude (List.cons_ne_nil v vs)
    refine ⟨τ, hτ.of_derive, hbody.2 ?_⟩
    have hvalue : (v :: vs).getLastD .empty = (v :: vs).getLast (List.cons_ne_nil v vs) := by
      rw [List.getLastD_eq_getLast?, List.getLast?_eq_some_getLast, Option.getD_some]
    rw [hvalue]
    exact (hframe.evaluates_definition_iff (d := .last) (by simp [preludeDefinitions]) rfl
      (.cons hforms .nil)).2 hlast

/-- A call of `begin` comes to what the sequence of its operands comes to. -/
theorem begin_agrees (hσ : σ.OffersPrelude) {id : Nat}
    (hbegin : σ.lookup? i "begin" = some (Definition.begin.value id)) (es : List Value) :
    OutcomesAgree Outcome.GainsFramesOnly (EvaluatesSequence files i es σ)
      (Evaluates files i (.callOf "begin" es) σ) := by
  have hcall {r : Outcome Value} :
      Evaluates files i (.callOf "begin" es) σ r ↔
        Sequel (EvaluatesInOrder files i es σ)
          (fun vs => Applies files Definition.begin.callable (.ofList vs)) r := by
    refine (evaluates_call_iff hbegin ⟨rfl, rfl⟩).trans ?_
    refine (sequel_congr (fun _ => evaluatesEach_ofList_iff) fun _ _ _ _ => Iff.rfl).trans ?_
    simp only [sequel_assoc, sequel_eq_done]
    rfl
  constructor
  · intro r h
    cases h with
    | @failed e τ h => exact ⟨_, hcall.2 (.failed h), .failed e (.refl τ)⟩
    | @done vs τ _ h hr =>
      subst hr
      obtain ⟨τ', hτ, hlast⟩ := exists_applies_begin files (hσ.of_persistsIn h.keeps) vs
      exact ⟨_, hcall.2 (.done h hlast), .done _ hτ⟩
  · intro r' hr'
    cases hcall.1 hr' with
    | @failed e τ h => exact ⟨_, .failed h, .failed e (.refl τ)⟩
    | @done vs τ _ h hr =>
      obtain ⟨τ', hτ, hlast⟩ := exists_applies_begin files (hσ.of_persistsIn h.keeps) vs
      obtain rfl := hr.unique hlast
      exact ⟨_, .done h rfl, .done _ hτ⟩

/-- A call of `begin` in one state, and the sequence of its operands in another one, up to
places. -/
theorem begin_match (files : Files) (hσ : σ.RelocatesTo R σ') (hi : R[i]? = some i')
    {es es' : List Value} (hes : List.Forall₂ (Value.RelocatesTo R) es es')
    (hoffers : σ'.OffersPrelude) {id : Nat}
    (hbegin : σ'.lookup? i' "begin" = some (Definition.begin.value id)) :
    OutcomesMatch R Value.RelocatesTo (EvaluatesSequence files i es σ)
      (Evaluates files i' (.callOf "begin" es') σ') := by
  have hsequence := evaluatesSequence_match files hσ hi hes
  have hagrees : OutcomesAgree Outcome.GainsFramesOnly (EvaluatesSequence files i' es' σ')
      (Evaluates files i' (.callOf "begin" es') σ') := begin_agrees hoffers hbegin es'
  constructor
  · intro r hr
    obtain ⟨r₁, hr₁, S, hR, hrel⟩ := hsequence.forth hr
    obtain ⟨r', hr', hgains⟩ := hagrees.forth hr₁
    exact ⟨r', hr', S, hR, hrel.gainsFramesOnly hgains⟩
  · intro r' hr'
    obtain ⟨r₁, hr₁, hgains⟩ := hagrees.back hr'
    obtain ⟨r, hr, S, hR, hrel⟩ := hsequence.back hr₁
    exact ⟨r, hr, S, hR, hrel.gainsFramesOnly hgains⟩

/-! ### The expansions of `when` and `unless` -/

/-- What the parameters of `when` and `unless` are bound to. -/
def conditionalBinding (t : Value) (es : List Value) : Bindings :=
  [("body", .ofList es), ("test", t)]

section Expansion

variable {t : Value} {es : List Value} {j : FrameId}

/-- The test is put in for the name of the parameter. -/
theorem expands_test (htest : Yields files j (.symbol "test") σ t) {yes no yes' no' : Value}
    (hyes : Expands files j yes σ (.done yes' σ)) (hno : Expands files j no σ (.done no' σ))
    (hyesMark : ∀ e, yes ≠ .quoted .splice e) (hnoMark : ∀ e, no ≠ .quoted .splice e) :
    Expands files j (.callOf "if" [.quoted .unquote (.symbol "test"), yes, no]) σ
      (.done (.callOf "if" [t, yes', no']) σ) := by
  refine .pair nofun (.inert nofun nofun) (.pair ?_ (.unquote htest) ?_)
  · rintro e dropped ⟨⟩
    exact hyesMark e rfl
  · refine .pair ?_ hyes (.pair nofun hno (.inert nofun nofun))
    rintro e dropped ⟨⟩
    exact hnoMark e rfl

/-- All expressions become operands of `begin`. -/
theorem expands_begin (hbody : Yields files j (.symbol "body") σ (.ofList es)) :
    Expands files j (.callOf "begin" [.quoted .splice (.symbol "body")]) σ
      (.done (.callOf "begin" es) σ) :=
  .splice (.inert nofun nofun) hbody (Value.isList_ofList es)

theorem expands_empty : Expands files j .empty σ (.done .empty σ) :=
  .inert nofun nofun

variable (hσ : σ.OffersPrelude)
include hσ

theorem isCallFrame_conditionalBinding (t : Value) (es : List Value) :
    (σ.derive globalFrame (conditionalBinding t es)).IsCallFrame σ.frameCount
      (conditionalBinding t es) :=
  hσ.isCallFrame (show ∀ x ∈ ["body", "test"], x ∉ preludeNames by decide)

theorem applies_when_iff :
    Applies files Definition.when.callable (.ofList (t :: es)) σ r ↔
      r = .done (.callOf "if" [t, .callOf "begin" es, .empty])
        (σ.derive globalFrame (conditionalBinding t es)) := by
  have hframe := isCallFrame_conditionalBinding hσ t es
  have htest := hframe.yields_parameter files (x := "test") rfl
  have hbegin := expands_begin (hframe.yields_parameter files (x := "body") rfl)
  have hexpands := expands_test htest hbegin expands_empty nofun nofun
  exact (applies_closure_iff rfl).trans (expands_iff.1 hexpands).iff_eq

theorem applies_unless_iff :
    Applies files Definition.whenNot.callable (.ofList (t :: es)) σ r ↔
      r = .done (.callOf "if" [t, .empty, .callOf "begin" es])
        (σ.derive globalFrame (conditionalBinding t es)) := by
  have hframe := isCallFrame_conditionalBinding hσ t es
  have htest := hframe.yields_parameter files (x := "test") rfl
  have hbegin := expands_begin (hframe.yields_parameter files (x := "body") rfl)
  have hexpands := expands_test htest expands_empty hbegin nofun nofun
  exact (applies_closure_iff rfl).trans (expands_iff.1 hexpands).iff_eq

end Expansion

/-! ### Calls of `when` and `unless` -/

/-- The name `x`, looked up from frame `i`, stands for what it stands for globally. -/
def State.HasGlobalMeaning (σ : State) (i : FrameId) (x : String) : Prop :=
  σ.lookup? i x = σ.lookup? globalFrame x

theorem State.HasGlobalMeaning.lookup?_eq {x : String} {v : Value} (hx : σ.HasGlobalMeaning i x)
    (hσ : σ.OffersPrelude) (hv : σ.local? globalFrame x = some v) : σ.lookup? i x = some v :=
  Eq.trans hx ((hσ.seesGlobal x).lookup?_eq hv)

theorem Value.isTruthy_eq_decide (v : Value) : v.isTruthy = decide (v ≠ .bool false) := by
  cases v with
  | bool b => cases b <;> rfl
  | _ => simp [isTruthy]

theorem Definition.isWithin_begin (id : Nat) {n : Nat} (hn : globalFrame < n) :
    (Definition.begin.value id).IsWithin n := by
  simp [Definition.value, Definition.begin, Value.callOf, Value.ofList, Value.chain,
    Value.IsWithin, hn]

section Conditional

variable (hσ : σ.RelocatesTo (List.range σ.frameCount) σ') (hoffers : σ.OffersPrelude)
  (hi : i < σ.frameCount) {t : Value} (ht : t.IsWithin σ.frameCount)
  (hbegin : ∀ v τ, Evaluates files i t σ (.done v τ) → τ.HasGlobalMeaning i "begin")
include hσ hoffers hi ht hbegin

/-- If `begin` is the global one after the test has been evaluated in one state, then it is after
the test has been evaluated in another state in which the first one is found. -/
theorem exists_lookup?_begin {v' : Value} {τ' : State}
    (h : Evaluates files i t σ' (.done v' τ')) :
    ∃ id, τ'.lookup? i "begin" = some (Definition.begin.value id) := by
  obtain ⟨_, hr, S, hS, hrel⟩ :=
    (evaluates_match files hσ (List.getElem?_range hi) ht.relocatesTo_range).back h
  cases hrel with
  | @done v _ τ _ hv hτ =>
    have hτoffers := hoffers.of_persistsIn hr.keeps
    obtain ⟨id, hid⟩ := hτoffers.definition .begin (by simp [preludeDefinitions])
    have hlookup := (hbegin v τ hr).lookup?_eq hτoffers hid
    have hplaces := hτ.lookup? (Places.getElem?_of_prefix hS (List.getElem?_range hi)) "begin"
    rw [hlookup] at hplaces
    generalize τ'.lookup? i "begin" = w? at hplaces ⊢
    cases hplaces with
    | some hw =>
      have hsame := hw.eq_of_isWithin hS (Definition.isWithin_begin id hoffers.frameCount_pos)
      exact ⟨id, congrArg some hsame⟩

omit hσ in
/-- A macro that expands to a test with a sequence on one side and nothing on the other. -/
theorem conditional_match (hself : σ.RelocatesTo (List.range σ.frameCount) σ) {d : Definition}
    (hd : d ∈ preludeDefinitions) (hrole : d.role = .expander)
    (hmeaning : σ.HasGlobalMeaning i d.name) (hif : σ.HasGlobalMeaning i "if") {es : List Value}
    (hes : ∀ e ∈ es, e.IsWithin σ.frameCount) {wanted : Bool} {yes no : Value}
    (happlies : ∀ r, Applies files d.callable (.ofList (t :: es)) σ r ↔
      r = .done (.callOf "if" [t, yes, no]) (σ.derive globalFrame (conditionalBinding t es)))
    (hbranch : ∀ truth : Bool, (if truth then yes else no) =
      if truth = wanted then .callOf "begin" es else .empty) :
    OutcomesMatch (List.range σ.frameCount) Value.RelocatesTo
      (EvaluatesConditionally files i wanted t es σ)
      (Evaluates files i (.callOf d.name (t :: es)) σ) := by
  let expanded := σ.derive globalFrame (conditionalBinding t es)
  have hexpanded : σ.RelocatesTo (List.range σ.frameCount) expanded := hself.derive_right _ _
  have hoffersExpanded : expanded.OffersPrelude := hoffers.of_persistsIn (.derive σ _ _)
  have hplace := List.getElem?_range hi
  have hcall {r : Outcome Value} :
      Evaluates files i (.callOf d.name (t :: es)) σ r ↔
        Sequel (Evaluates files i t expanded)
          (fun v => Evaluates files i (if v.isTruthy then yes else no)) r := by
    obtain ⟨id, hid⟩ := hoffers.definition d hd
    have hlookup := hmeaning.lookup?_eq hoffers hid
    rw [Definition.value, hrole] at hlookup
    have hlookupIf : expanded.lookup? i "if" = some (.specialForm .branch) := by
      rw [State.lookup?_derive_of_lt rfl _ hi]
      exact hif.lookup?_eq hoffers (hoffers.form .branch)
    exact (evaluates_macroCall_iff hlookup).trans
      ((sequel_of_done happlies).trans (evaluates_branch_iff hlookupIf))
  have htest := evaluates_match files hexpanded hplace ht.relocatesTo_range
  refine (htest.sequel fun {S v v' τ τ'} hS hv hτ hv' => ?_).congr (fun _ => Iff.rfl)
    fun _ => hcall
  rw [← hv.isTruthy_eq, hbranch, ← v.isTruthy_eq_decide]
  split
  · obtain ⟨id, hid⟩ := exists_lookup?_begin hexpanded hoffers hi ht hbegin hv'
    refine begin_match files hτ (Places.getElem?_of_prefix hS hplace) ?_
      (hoffersExpanded.of_persistsIn hv'.keeps) hid
    exact List.forall₂_same.2 fun e he => (hes e he).relocatesTo_range.mono hS
  · exact (OutcomesMatch.of_eq (.done .empty hτ)).congr (fun _ => Iff.rfl)
      fun _ => yields_empty.iff_eq

end Conditional

/-! ### Sequences in a session -/

/-- In every state of a session, and in every frame from which `if`, `begin`, `when` and `unless`
are the global ones, a call of `begin` comes to what evaluating its operands one after the other in
that frame comes to, in a state that has further frames and is the same otherwise. A call of `when`
evaluates its first operand, and the others in sequence if the value of the first is not `#f`; a
call of `unless` evaluates them if it is. Seen from the state before, the outcome of such a call is
the outcome of evaluating the operands in the frame of the call, as long as the first operand does
not give `begin` another meaning there. -/
theorem sequences_in_callers_frame (files : Files) (hσ : Reachable preludeSource σ)
    (hi : i < σ.frameCount)
    (hnames : ∀ x ∈ ["if", "begin", "when", "unless"], σ.HasGlobalMeaning i x) (es : List Value) :
    OutcomesAgree Outcome.GainsFramesOnly (EvaluatesSequence files i es σ)
      (Evaluates files i (.callOf "begin" es) σ) ∧
    ∀ t : Value, t.IsWithin σ.frameCount → (∀ e ∈ es, e.IsWithin σ.frameCount) →
      (∀ v τ, Evaluates files i t σ (.done v τ) → τ.HasGlobalMeaning i "begin") →
      OutcomesAgree (Outcome.SameFrom σ) (EvaluatesConditionally files i true t es σ)
        (Evaluates files i (.callOf "when" (t :: es)) σ) ∧
      OutcomesAgree (Outcome.SameFrom σ) (EvaluatesConditionally files i false t es σ)
        (Evaluates files i (.callOf "unless" (t :: es)) σ) := by
  have hoffers := hσ.offersPrelude
  have hif := hnames "if" (by simp)
  constructor
  · obtain ⟨id, hid⟩ := hoffers.definition .begin (by simp [preludeDefinitions])
    exact begin_agrees hoffers ((hnames "begin" (by simp)).lookup?_eq hoffers hid) es
  · intro t ht hes hbegin
    have hself := hσ.relocatesTo_range
    have hwhen : OutcomesMatch (List.range σ.frameCount) Value.RelocatesTo
        (EvaluatesConditionally files i true t es σ)
        (Evaluates files i (.callOf "when" (t :: es)) σ) :=
      conditional_match hoffers hi ht hbegin hself (d := .when) (by simp [preludeDefinitions]) rfl
        (hnames "when" (by simp)) hif hes (fun _ => applies_when_iff hoffers) (by simp)
    have hunless : OutcomesMatch (List.range σ.frameCount) Value.RelocatesTo
        (EvaluatesConditionally files i false t es σ)
        (Evaluates files i (.callOf "unless" (t :: es)) σ) :=
      conditional_match hoffers hi ht hbegin hself (d := .whenNot) (by simp [preludeDefinitions])
        rfl (hnames "unless" (by simp)) hif hes (fun _ => applies_unless_iff hoffers) (by simp)
    exact ⟨hwhen.agree, hunless.agree⟩

/-- A test that defines a name: `(def z 7)` -/
def definingTest : Value :=
  .callOf "def" [.symbol "z", .integer 7]

/-- Expressions that print the name and then fail: `(println z)` and `(car z)` -/
def printThenFail : List Value :=
  [.callOf "println" [.symbol "z"], .callOf "car" [.symbol "z"]]

/-- The state when the name has been defined. -/
def zDefined : State :=
  preludeState.bind globalFrame "z" (.integer 7)

/-- `(when (def z 7) (println z) (car z))` defines and prints `z` before it fails. -/
theorem sequences_in_callers_frame_definingTest :
    Reachable preludeSource preludeState ∧ globalFrame < preludeState.frameCount ∧
    (∀ x ∈ ["if", "begin", "when", "unless"], preludeState.HasGlobalMeaning globalFrame x) ∧
    definingTest.IsWithin preludeState.frameCount ∧
    (∀ e ∈ printThenFail, e.IsWithin preludeState.frameCount) ∧
    (∀ v τ, Evaluates .empty globalFrame definingTest preludeState (.done v τ) →
      τ.HasGlobalMeaning globalFrame "begin") ∧
    ∃ τ, Evaluates .empty globalFrame (.callOf "when" (definingTest :: printThenFail)) preludeState
        (.failed (.typing (.pairRequired "7")) τ) ∧
      τ.printed = "7\n" ∧ τ.local? globalFrame "z" = some (.integer 7) := by
  have hnames (x : String) (_ : x ∈ ["if", "begin", "when", "unless"]) :
      preludeState.HasGlobalMeaning globalFrame x := rfl
  have hlt : globalFrame < preludeState.frameCount := by decide
  have htest : definingTest.IsWithin preludeState.frameCount := by
    simp [definingTest, Value.callOf, Value.ofList, Value.chain, Value.IsWithin]
  have hes : ∀ e ∈ printThenFail, e.IsWithin preludeState.frameCount := by
    simp [printThenFail, Value.callOf, Value.ofList, Value.chain, Value.IsWithin]
  have hdef : eval .empty 2 globalFrame definingTest preludeState = .done (.symbol "z") zDefined := rfl
  let zPrinted : State := { zDefined with printed := "7\n" }
  have hprint : eval .empty 2 globalFrame (.callOf "println" [.symbol "z"]) zDefined =
      .done (.bool true) zPrinted := rfl
  have hcar : eval .empty 2 globalFrame (.callOf "car" [.symbol "z"]) zPrinted =
      .failed (.typing (.pairRequired "7")) zPrinted := rfl
  have hbegin (v : Value) (τ : State)
      (_ : Evaluates .empty globalFrame definingTest preludeState (.done v τ)) :
      τ.HasGlobalMeaning globalFrame "begin" := rfl
  have hsequence : EvaluatesConditionally .empty globalFrame true definingTest printThenFail
      preludeState (.failed (.typing (.pairRequired "7")) zPrinted) :=
    .done (.of_eval_eq_done hdef) (.failed (.done (.of_eval_eq_done hprint)
      (.failed (.failed (.of_eval_eq_failed hcar)))))
  obtain ⟨-, hconditional⟩ := sequences_in_callers_frame .empty reachable_preludeState hlt hnames
    printThenFail
  obtain ⟨r', hr', hsame⟩ := (hconditional definingTest htest hes hbegin).1.forth hsequence
  obtain ⟨τ, rfl, hprinted, hlocal⟩ := hsame.exists_eq_failed
  exact ⟨reachable_preludeState, hlt, hnames, htest, hes, hbegin, τ, hr', hprinted,
    hlocal globalFrame hlt "z" _ rfl trivial⟩

end ConsLisp
