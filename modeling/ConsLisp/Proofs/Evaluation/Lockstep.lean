import ConsLisp.Proofs.Evaluation.Observation
import ConsLisp.Proofs.Value.Makeup

/-!
# Runs in lockstep

Two runs go in lockstep when each step of the one is met by the same step of the other: they end
with the same value or in the same error, in states that are related as the states at their start
were. This module proves once, rule by rule, that evaluation does so for every relation of states
that the elementary actions cannot tell apart. One of the runs may be observed, and it may stop
ahead of the other if its observer makes it fail.

The relation need not be kept by every action, but only by those that deal in values of a certain
makeup. That the values in a run keep to the makeup is therefore part of the induction.

## Main definitions

* `Pairing`: how the states of two runs are related, and the conditions on that.
* `Pairing.Meets`, `Pairing.Follows`: two outcomes, and two actions, in lockstep.
* `Pairing.Tolerates`: an observer that does not disturb the lockstep.

## Main results

* `Pairing.Follows.step`: the rules of evaluation keep the lockstep.
* `Pairing.follows_eval`: an observed evaluation and a plain one go in lockstep.
* `Observer.eval_idle`: an observer that does nothing makes no difference.
-/

namespace ConsLisp

variable {M : Makeup} {α β : Type}

/-- How the states of two runs are related, of which the first one is observed. The elementary
actions that deal in admitted values and names keep the relation and give the same results. -/
structure Pairing (M : Makeup) where
  Related : State → State → Prop
  /-- The errors in which the observed run may stop ahead of the other one. -/
  IsAlarm : Error → Prop
  isAlarm_whileLoading {path : String} {e : Error} : IsAlarm e → IsAlarm (e.whileLoading path)
  local?_eq {σ τ : State} {i : FrameId} {x : String} :
    Related σ τ → M.symbols x = true → τ.local? i x = σ.local? i x
  resolve?_eq {σ τ : State} {i : FrameId} {x : String} :
    Related σ τ → M.symbols x = true → τ.resolve? i x = σ.resolve? i x
  admits_local? {σ τ : State} {i : FrameId} {x : String} {v : Value} :
    Related σ τ → M.symbols x = true → σ.local? i x = some v → M.admits v = true
  frameCount_eq {σ τ : State} : Related σ τ → τ.frameCount = σ.frameCount
  closures_eq {σ τ : State} : Related σ τ → τ.closures = σ.closures
  bind {σ τ : State} {i : FrameId} {x : String} {v : Value} :
    Related σ τ → M.symbols x = true → M.admits v = true → Related (σ.bind i x v) (τ.bind i x v)
  assign {σ τ : State} {i : FrameId} {x : String} {n : Fixnum} :
    Related σ τ → M.symbols x = true → Related (σ.assign i x (.integer n)) (τ.assign i x (.integer n))
  derive {σ τ : State} {i : FrameId} {b : Bindings} :
    Related σ τ → M.AdmitsBindings b → Related (σ.derive i b) (τ.derive i b)
  newClosure {σ τ : State} : Related σ τ →
    Related { σ with closures := σ.closures + 1 } { τ with closures := τ.closures + 1 }
  print {σ τ : State} (text : String) : Related σ τ →
    Related { σ with printed := σ.printed ++ text } { τ with printed := τ.printed ++ text }

namespace Pairing

variable {P : Pairing M}

/-- Two outcomes are the same, in related states, with a result that has the given property. An
alarm in the first run is met by any outcome of the other. -/
inductive Meets (P : Pairing M) (Q : α → Prop) : Outcome α → Outcome α → Prop
  | done {a : α} {σ τ : State} : Q a → P.Related σ τ → Meets P Q (.done a σ) (.done a τ)
  | failed {e : Error} {σ τ : State} : P.Related σ τ → Meets P Q (.failed e σ) (.failed e τ)
  | exhausted : Meets P Q .exhausted .exhausted
  | alarm {e : Error} {σ : State} {r : Outcome α} : P.IsAlarm e → Meets P Q (.failed e σ) r

/-- Two actions that start in related states have outcomes that meet. -/
def Follows (P : Pairing M) (Q : α → Prop) (m m' : Action α) : Prop :=
  ∀ σ τ, P.Related σ τ → P.Meets Q (m σ) (m' τ)

/-- Two actions in lockstep whose result is an admitted value. -/
abbrev FollowsIn (P : Pairing M) (m m' : Action Value) : Prop :=
  P.Follows (fun v => M.admits v = true) m m'

namespace Follows

variable {Q : α → Prop} {Q' : β → Prop}

theorem pure {a : α} (h : Q a) : P.Follows Q (Pure.pure a) (Pure.pure a) :=
  fun _ _ hrel => .done h hrel

theorem fail (e : Error) : P.Follows Q (Action.fail e) (Action.fail e) :=
  fun _ _ hrel => .failed hrel

theorem bind {m m' : Action α} {f f' : α → Action β} (hm : P.Follows Q m m')
    (hf : ∀ a, Q a → P.Follows Q' (f a) (f' a)) : P.Follows Q' (m >>= f) (m' >>= f') := by
  intro σ τ hrel
  have hmeets := hm σ τ hrel
  rw [Action.bind_apply, Action.bind_apply]
  generalize m σ = r at hmeets
  generalize m' τ = r' at hmeets
  cases hmeets with
  | done ha hrel => exact hf _ ha _ _ hrel
  | failed hrel => exact .failed hrel
  | exhausted => exact .exhausted
  | alarm he => exact .alarm he

theorem ofExcept {result : Except Error α} (h : ∀ a, result = .ok a → Q a) :
    P.Follows Q (Action.ofExcept result) (Action.ofExcept result) := by
  cases result with
  | ok a => exact pure (h a rfl)
  | error e => exact fail e

theorem whileLoading {m m' : Action α} (path : String) (h : P.Follows Q m m') :
    P.Follows Q (m.mapError (Error.whileLoading path)) (m'.mapError (Error.whileLoading path)) := by
  intro σ τ hrel
  have hmeets := h σ τ hrel
  simp only [Action.mapError]
  generalize m σ = r at hmeets
  generalize m' τ = r' at hmeets
  cases hmeets with
  | done ha hrel => exact .done ha hrel
  | failed hrel => exact .failed hrel
  | exhausted => exact .exhausted
  | alarm he => exact .alarm (P.isAlarm_whileLoading he)

/-! ### Elementary actions -/

theorem lookup {x : String} (hx : M.symbols x = true) (i : FrameId) :
    P.FollowsIn (Action.lookup i x) (Action.lookup i x) := by
  intro σ τ hrel
  unfold Action.lookup State.lookup?
  rw [P.resolve?_eq hrel hx]
  cases hv : σ.resolve? i x with
  | none => exact .failed hrel
  | some p => exact .done (P.admits_local? hrel hx (State.local?_of_resolve? hv)) hrel

theorem define {x : String} (hx : M.symbols x = true) {v : Value} (hv : M.admits v = true)
    (i : FrameId) : P.Follows (fun _ => True) (Action.define i x v) (Action.define i x v) := by
  intro σ τ hrel
  unfold Action.define
  rw [P.local?_eq hrel hx]
  cases σ.local? i x with
  | none => exact .done trivial (P.bind hrel hx hv)
  | some w => exact .failed hrel

theorem increment {x : String} (hx : M.symbols x = true) (i : FrameId) :
    P.FollowsIn (Action.increment i x) (Action.increment i x) := by
  intro σ τ hrel
  unfold Action.increment
  rw [P.resolve?_eq hrel hx]
  split
  · exact .failed hrel
  · split
    · exact .done rfl (P.assign hrel hx)
    · exact .failed hrel
  · exact .failed hrel

theorem newClosure (role : Role) (name : String) {params body : Value}
    (hparams : M.admits params = true) (hbody : M.admits body = true) (i : FrameId) :
    P.FollowsIn (Action.newClosure role name params body i)
      (Action.newClosure role name params body i) := by
  intro σ τ hrel
  unfold Action.newClosure
  have hclosures := P.closures_eq hrel
  have hrel' := P.newClosure hrel
  rw [hclosures] at hrel' ⊢
  exact .done (Makeup.admits_closure.2 ⟨hparams, hbody⟩) hrel'

theorem print (text : String) :
    P.Follows (fun _ => True) (Action.print text) (Action.print text) :=
  fun _ _ hrel => .done trivial (P.print text hrel)

theorem derive {b : Bindings} (hb : M.AdmitsBindings b) (i : FrameId) :
    P.Follows (fun _ => True) (Action.derive i b) (Action.derive i b) := by
  intro σ τ hrel
  unfold Action.derive
  rw [P.frameCount_eq hrel]
  exact .done trivial (P.derive hrel hb)

/-! ### Rules that evaluate no expression -/

theorem checkLambdaList (params : Value) :
    P.Follows (fun _ => True) (checkLambdaList params) (checkLambdaList params) := by
  unfold ConsLisp.checkLambdaList
  split
  · exact pure trivial
  · exact fail _

theorem makeClosure (role : Role) (name : String) (i : FrameId) {operands : Value}
    (hoperands : M.admits operands = true) :
    P.FollowsIn (Evaluator.makeClosure role name i operands)
      (Evaluator.makeClosure role name i operands) := by
  refine (checkLambdaList _).bind fun _ _ => ?_
  exact newClosure role name (Makeup.admits_first? hoperands) (Makeup.admits_rest? hoperands) i

theorem defineCallable (role : Role) (form : String) (i : FrameId) {operands : Value}
    (hoperands : M.admits operands = true) :
    P.FollowsIn (Evaluator.defineCallable role form i operands)
      (Evaluator.defineCallable role form i operands) := by
  unfold Evaluator.defineCallable
  split
  · obtain ⟨-, hsignature, hbody⟩ := Makeup.admits_cons.1 hoperands
    obtain ⟨-, hname, hparams⟩ := Makeup.admits_cons.1 hsignature
    refine (checkLambdaList _).bind fun _ _ => ?_
    refine (newClosure role _ hparams hbody i).bind fun f hf => ?_
    exact (define hname hf i).bind fun _ _ => pure hname
  · exact fail _
  · exact fail _

theorem incrementOperand (i : FrameId) {operands : Value} (hoperands : M.admits operands = true) :
    P.FollowsIn (Evaluator.increment i operands) (Evaluator.increment i operands) := by
  have hfirst := Makeup.admits_first? hoperands
  unfold Evaluator.increment
  split
  · next hx =>
    rw [hx] at hfirst
    exact increment hfirst i
  · exact fail _

theorem primitive (op : Primitive) {args : Value} (hargs : M.admits args = true) :
    P.FollowsIn (op.apply args) (op.apply args) := by
  have hcompute : P.FollowsIn (Action.ofExcept (op.compute args))
      (Action.ofExcept (op.compute args)) :=
    ofExcept fun _ hv => Makeup.admits_of_compute hargs hv
  refine (ofExcept (Q := fun _ => True) fun _ _ => trivial).bind fun _ _ => ?_
  cases op with
  | println => exact (print _).bind fun _ _ => hcompute
  | _ => exact hcompute

/-! ### Rules that evaluate the expressions inside an expression -/

section Rules

variable {ev ev' : Evaluator}
  (hev : ∀ i e, M.admits e = true → P.FollowsIn (ev i e) (ev' i e))
include hev

/-- The values of operands make up a proper list. -/
theorem evaluateOnto (i : FrameId) {values : List Value} {operands : Value}
    (hvalues : ∀ v ∈ values, M.admits v = true) (hoperands : M.admits operands = true) :
    P.Follows (fun v => M.admits v = true ∧ M.ends v = true) (ev.evaluateOnto i values operands)
      (ev'.evaluateOnto i values operands) := by
  induction operands generalizing values with
  | cons first rest _ ih =>
    obtain ⟨-, hfirst, hrest⟩ := Makeup.admits_cons.1 hoperands
    refine (hev i first hfirst).bind fun v hv => ?_
    exact ih (List.forall_mem_cons.2 ⟨hv, hvalues⟩) hrest
  | _ =>
    have hlist : (Value.unwind values .empty).isList = true := Makeup.isList_unwind rfl
    refine pure ⟨?_, Makeup.ends_of_isList hlist⟩
    exact Makeup.admits_unwind hvalues rfl fun _ => Makeup.ends_empty

theorem evaluateAfter (i : FrameId) {last body : Value} (hlast : M.admits last = true)
    (hbody : M.admits body = true) :
    P.FollowsIn (ev.evaluateAfter i last body) (ev'.evaluateAfter i last body) := by
  induction body generalizing last with
  | cons first rest _ ih =>
    obtain ⟨-, hfirst, hrest⟩ := Makeup.admits_cons.1 hbody
    exact (hev i first hfirst).bind fun v hv => ih hv hrest
  | _ => exact pure hlast

/-- What follows elements of a template that were expanded before has to be fit to end their
list. -/
theorem expandOnto (i : FrameId) {heads : List Value} {template : Value}
    (hheads : ∀ v ∈ heads, M.admits v = true) (htemplate : M.admits template = true)
    (hends : heads ≠ [] → M.ends template = true) :
    P.FollowsIn (ev.expandOnto i heads template) (ev'.expandOnto i heads template) := by
  induction template generalizing heads with
  | quoted kind inner =>
    cases kind with
    | unquote =>
      refine (hev i inner htemplate).bind fun tail htail => ?_
      refine pure (Makeup.admits_unwind hheads htail fun hne => ?_)
      exact Makeup.ends_of_not_isList (hends hne) rfl tail
    | _ => exact pure (Makeup.admits_unwind hheads htemplate hends)
  | cons first rest ihfirst ihrest =>
    obtain ⟨hrestEnds, hfirst, hrest⟩ := Makeup.admits_cons.1 htemplate
    unfold Evaluator.expandOnto
    refine (ihfirst (List.forall_mem_nil _) hfirst (absurd rfl)).bind fun head hhead => ?_
    have hheads' : ∀ v ∈ head :: heads, M.admits v = true :=
      List.forall_mem_cons.2 ⟨hhead, hheads⟩
    split
    · next e _ =>
      have he : M.admits e = true := (Makeup.admits_cons.1 hrest).2.1
      refine (hev i e he).bind fun tail htail => ?_
      split
      · next hlist =>
        exact pure (Makeup.admits_unwind hheads' htail fun _ => Makeup.ends_of_isList hlist)
      · exact fail _
    · exact ihrest hheads' hrest fun _ => hrestEnds
  | _ => exact pure (Makeup.admits_unwind hheads htemplate hends)

/-- Calls a callable whose lambda list and body, if it has any, are admitted. -/
theorem apply {f : Callable} {args : Value} (hargs : M.admits args = true)
    (hf : ∀ name params body frame, f = .closure name params body frame →
      M.admits params = true ∧ M.admits body = true) :
    P.FollowsIn (f.apply ev args) (f.apply ev' args) := by
  cases f with
  | primitive name op => exact primitive op hargs
  | closure name params body frame =>
    obtain ⟨hparams, hbody⟩ := hf name params body frame rfl
    refine (ofExcept fun b hb => ?_).bind fun b hb => (derive hb frame).bind fun i _ => ?_
    · exact Makeup.admitsBindings_of_bindParameters hparams hargs hb
    · exact evaluateAfter hev i rfl hbody

theorem evaluateFormsAfter (i : FrameId) (error? : Option Source.SyntaxError) {last : Value}
    {forms : List Source.Form} (hlast : M.admits last = true)
    (hforms : ∀ form ∈ forms, M.admits form.value = true) :
    P.FollowsIn (ev.evaluateFormsAfter i error? last forms)
      (ev'.evaluateFormsAfter i error? last forms) := by
  induction forms generalizing last with
  | nil =>
    cases error? with
    | none => exact pure hlast
    | some e => exact fail _
  | cons form forms ih =>
    obtain ⟨hform, hforms⟩ := List.forall_mem_cons.1 hforms
    exact (hev i form.value hform).bind fun v hv => ih hv hforms

theorem defineName (i : FrameId) {operands : Value} (hoperands : M.admits operands = true) :
    P.FollowsIn (ev.defineName i operands) (ev'.defineName i operands) := by
  unfold Evaluator.defineName
  split
  · next name _ =>
    have hname : M.symbols name = true := (Makeup.admits_cons.1 hoperands).2.1
    split
    · next e hparts =>
      have he : M.admits e = true := Makeup.admits_of_properElements hoperands hparts e (by simp)
      refine (hev i e he).bind fun v hv => ?_
      refine (define hname ?_ i).bind fun _ _ => pure hname
      rw [Makeup.admits_named]
      exact hv
    · exact fail _
    · exact fail _
  · exact defineCallable _ _ i hoperands
  · exact fail _
  · exact fail _

theorem branch (i : FrameId) {operands : Value} (hoperands : M.admits operands = true) :
    P.FollowsIn (ev.branch i operands) (ev'.branch i operands) := by
  unfold Evaluator.branch
  split
  · obtain ⟨-, htest, hrest⟩ := Makeup.admits_cons.1 hoperands
    obtain ⟨-, hconsequent, hrest⟩ := Makeup.admits_cons.1 hrest
    refine (hev i _ htest).bind fun v _ => ?_
    split
    · exact hev i _ hconsequent
    · split
      · exact hev i _ (Makeup.admits_cons.1 hrest).2.1
      · exact pure rfl
  · exact fail _

theorem evaluateSource (i : FrameId) {comments : Bool} {source : String}
    (hforms : ∀ form ∈ (Source.readForms comments source).forms, M.admits form.value = true) :
    P.FollowsIn (ev.evaluateSource i comments source) (ev'.evaluateSource i comments source) :=
  evaluateFormsAfter hev i _ rfl hforms

theorem loadBytes (i : FrameId) (path : String) {contents : ByteArray}
    (hforms : ∀ source, decodeText contents = .ok source →
      ∀ form ∈ (Source.readForms true source).forms, M.admits form.value = true) :
    P.FollowsIn (ev.loadBytes i path contents) (ev'.loadBytes i path contents) := by
  unfold Evaluator.loadBytes
  split
  · exact fail _
  · next source hsource => exact (evaluateSource hev i (hforms source hsource)).whileLoading path

theorem loadFile {files : Files} {path : String}
    (hforms : ∀ form ∈ files.formsAt path, M.admits form.value = true) (i : FrameId) :
    P.FollowsIn (ev.loadFile files i path) (ev'.loadFile files i path) := by
  unfold Evaluator.loadFile
  split
  · exact fail _
  · next contents hread =>
    refine loadBytes hev i path fun source hsource => ?_
    rw [Files.formsAt, hread] at hforms
    simp only [hsource] at hforms
    exact hforms

end Rules

end Follows

/-! ### Observed rules -/

/-- In lockstep with a run that is not observed, the observer does nothing that matters, unless it
raises an alarm. It does raise one before a file is loaded that is not admitted. -/
structure Tolerates (P : Pairing M) (O : Observer) (files : Files) : Prop where
  evaluated {v : Value} :
    M.admits v = true → P.Follows (fun _ => True) (O (.evaluated v)) (pure ())
  passing {list : Value} : M.admits list = true → M.ends list = true →
    P.Follows (fun _ => True) (O (.passing list)) (pure ())
  loading (path : String) :
    P.Follows (fun _ => ∀ form ∈ files.formsAt path, M.admits form.value = true)
      (O (.loading path)) (pure ())

namespace Follows

/-- What the observer does at an event has no counterpart in the other run. -/
theorem observed {Q : Unit → Prop} {Q' : α → Prop} {o : Action Unit} {m m' : Action α}
    (ho : P.Follows Q o (Pure.pure ())) (hm : Q () → P.Follows Q' m m') :
    P.Follows Q' (o >>= fun _ => m) m' := by
  have h : P.Follows Q' (o >>= fun _ => m) (Pure.pure () >>= fun _ => m') :=
    ho.bind fun _ h => hm h
  exact h

section ObservedRules

variable {O : Observer} {files : Files} (hO : P.Tolerates O files) {ev ev' : Evaluator}
  (hev : ∀ i e, M.admits e = true → P.FollowsIn (ev i e) (ev' i e))
include hO hev

theorem loadAll (i : FrameId) {operands : Value} (hoperands : M.admits operands = true) :
    P.FollowsIn (O.loadAll ev files i operands) (ev'.loadAll files i operands) := by
  induction operands with
  | cons first rest _ ih =>
    cases first with
    | string path =>
      refine (hO.loading path).observed fun hforms => ?_
      exact (loadFile hev hforms i).bind fun _ _ => ih (Makeup.admits_cons.1 hoperands).2.2
    | _ => exact fail _
  | _ => exact pure rfl

theorem run (form : SpecialForm) (i : FrameId) {operands : Value}
    (hoperands : M.admits operands = true) :
    P.FollowsIn (O.run ev files form i operands) (form.run ev' files i operands) := by
  cases form with
  | define => exact defineName hev i hoperands
  | defineFunction | defineMacro => exact defineCallable _ _ i hoperands
  | lambda | fn | makeMacro => exact makeClosure _ _ i hoperands
  | branch => exact branch hev i hoperands
  | increment => exact incrementOperand i hoperands
  | load => exact loadAll hO hev i hoperands

theorem call (i : FrameId) {head operands : Value} (hhead : M.admits head = true)
    (hoperands : M.admits operands = true) (hends : M.ends operands = true) :
    P.FollowsIn (O.call ev files i head operands) (ev'.call files i head operands) := by
  refine (hev i head hhead).bind fun v hv => ?_
  have hargs := evaluateOnto hev i (List.forall_mem_nil _) hoperands
  cases v with
  | specialForm form =>
    refine (hO.passing hoperands hends).observed fun _ => ?_
    refine (ofExcept (Q := fun _ => True) fun _ _ => trivial).bind fun _ _ => ?_
    exact run hO hev form i hoperands
  | primitive name op =>
    refine hargs.bind fun args hargs => (hO.passing hargs.1 hargs.2).observed fun _ => ?_
    exact primitive op hargs.1
  | closure role name id params body frame =>
    have hf : ∀ name' params' body' frame', Callable.closure name params body frame =
        .closure name' params' body' frame' → M.admits params' = true ∧ M.admits body' = true := by
      rintro _ _ _ _ ⟨⟩
      exact Makeup.admits_closure.1 hv
    cases role with
    | function =>
      refine hargs.bind fun args hargs => (hO.passing hargs.1 hargs.2).observed fun _ => ?_
      exact apply hev hargs.1 hf
    | expander =>
      refine (hO.passing hoperands hends).observed fun _ => ?_
      exact (apply hev hoperands hf).bind fun expansion hexpansion => hev i expansion hexpansion
  | _ => exact fail _

theorem answer (i : FrameId) {e : Value} (he : M.admits e = true) :
    P.FollowsIn (O.answer ev files i e) (ev'.step files i e) := by
  cases e with
  | symbol x => exact lookup he i
  | cons head operands =>
    obtain ⟨hends, hhead, hoperands⟩ := Makeup.admits_cons.1 he
    exact call hO hev i hhead hoperands hends
  | quoted kind inner =>
    cases kind with
    | quote => exact pure he
    | quasiquote => exact expandOnto hev i (List.forall_mem_nil _) he (absurd rfl)
    | _ => exact fail _
  | empty | integer | string => exact pure rfl
  | _ => exact fail _

/-- The rules of evaluation keep the lockstep. -/
theorem step (i : FrameId) {e : Value} (he : M.admits e = true) :
    P.FollowsIn (O.step ev files i e) (ev'.step files i e) := by
  rw [← bind_pure (ev'.step files i e)]
  refine (answer hO hev i he).bind fun v hv => ?_
  exact (hO.evaluated hv).observed fun _ => pure hv

end ObservedRules

end Follows

/-- An observed evaluation and a plain one go in lockstep. -/
theorem follows_eval {O : Observer} {files : Files} (hO : P.Tolerates O files) (depth : Nat)
    (i : FrameId) {e : Value} (he : M.admits e = true) :
    P.FollowsIn (O.eval files depth i e) (eval files depth i e) := by
  induction depth generalizing i e with
  | zero => exact fun _ _ _ => .exhausted
  | succ depth ih => exact Follows.step hO (fun i e he => ih i he) i he

/-! ### The same run with and without its observer -/

/-- Both runs are in the same state, in which all values keep to the makeup, and no alarm is
raised. -/
def same (M : Makeup) : Pairing M where
  Related σ τ := τ = σ ∧ σ.KeepsTo M
  IsAlarm _ := False
  isAlarm_whileLoading he := he
  local?_eq hrel _ := by rw [hrel.1]
  resolve?_eq hrel _ := by rw [hrel.1]
  admits_local? hrel _ hv := hrel.2 _ _ _ hv
  frameCount_eq hrel := by rw [hrel.1]
  closures_eq hrel := by rw [hrel.1]
  bind hrel _ hv := ⟨by rw [hrel.1], hrel.2.bind _ _ hv⟩
  assign hrel _ := ⟨by rw [hrel.1], hrel.2.assign _ _ rfl⟩
  derive hrel hb := ⟨by rw [hrel.1], hrel.2.derive _ hb⟩
  newClosure hrel := ⟨by rw [hrel.1], hrel.2.of_frames_eq rfl⟩
  print _ hrel := ⟨by rw [hrel.1], hrel.2.of_frames_eq rfl⟩

/-- Where nothing can tell the runs apart, they end in the same way, in a state that keeps to the
makeup. -/
theorem eq_of_meets_same {Q : α → Prop} {r r' : Outcome α} (h : (same M).Meets Q r r') :
    r = r' ∧ (∀ a τ, r' = .done a τ → Q a) ∧ ∀ τ, r'.state? = some τ → τ.KeepsTo M := by
  cases h with
  | done ha hrel =>
    obtain ⟨rfl, hσ⟩ := hrel
    refine ⟨rfl, ?_, ?_⟩
    · rintro _ _ ⟨⟩
      exact ha
    · rintro _ ⟨⟩
      exact hσ
  | failed hrel =>
    obtain ⟨rfl, hσ⟩ := hrel
    refine ⟨rfl, nofun, ?_⟩
    rintro _ ⟨⟩
    exact hσ
  | exhausted => exact ⟨rfl, nofun, nofun⟩
  | alarm he => exact he.elim

end Pairing

/-- Watching a run does not change it. -/
theorem Observer.eval_idle (files : Files) (depth : Nat) :
    Observer.eval (fun _ => pure ()) files depth = ConsLisp.eval files depth := by
  have hO : (Pairing.same Makeup.any).Tolerates (fun _ => pure ()) files := {
    evaluated := fun _ => Pairing.Follows.pure trivial
    passing := fun _ _ => Pairing.Follows.pure trivial
    loading := fun _ => Pairing.Follows.pure fun _ _ => Makeup.admits_any _ }
  funext i e σ
  have hσ : σ.KeepsTo Makeup.any := fun _ _ v _ => Makeup.admits_any v
  have hmeets := Pairing.follows_eval hO depth i (Makeup.admits_any e) σ σ ⟨rfl, hσ⟩
  exact (Pairing.eq_of_meets_same hmeets).1

end ConsLisp
