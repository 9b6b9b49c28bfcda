import ConsLisp.Evaluation.Depth

/-!
# Templates by their rule

A template is expanded along the pairs of a list, with the elements that are done collected on the
way and put in front of the rest at the end. This module gives the rule behind that: an unquoted
expression stands for its value, and a pair for the pair of what its two sides stand for, the first
side first. The one exception is an expression under a splice mark in second place. Its value
becomes the rest, and what follows it is dropped.

## Main definitions

* `Evaluator.expandPlainly`: the rule as a recursion over the template.
* `Expands`: the rule as a relation between a template and what its expansion comes to.
* `Value.hasHole`: whether anything in a template is evaluated.

## Main results

* `Evaluator.expand_eq_expandPlainly`: expanding along a list follows the rule.
* `expands_iff`: the relation and the recursion agree.
* `quasiquote_by_rule`: what a quasiquoted template evaluates to.
-/

namespace ConsLisp

/-! ### The rule as a recursion -/

namespace Evaluator

/-- The value of a template, by recursion over its pairs. -/
def expandPlainly (ev : Evaluator) (i : FrameId) : Value → Action Value
  | .quoted .unquote e => ev i e
  | .cons first (.cons (.quoted .splice e) _) => do
    let head ← expandPlainly ev i first
    let tail ← ev i e
    if tail.isList then return .cons head tail
    else Action.fail (.typing (.spliceOfNonList tail.text))
  | .cons first rest => do
    let head ← expandPlainly ev i first
    return .cons head (← expandPlainly ev i rest)
  | template => return template

variable (ev : Evaluator) (i : FrameId)

theorem expandPlainly_cons {rest : Value}
    (hrest : ∀ e dropped, rest ≠ .cons (.quoted .splice e) dropped) (first : Value) :
    ev.expandPlainly i (.cons first rest) =
      (do
        let head ← ev.expandPlainly i first
        return .cons head (← ev.expandPlainly i rest)) := by
  rw [expandPlainly]
  exact hrest

theorem expandPlainly_inert {template : Value} (hcons : ∀ first rest, template ≠ .cons first rest)
    (hunquote : ∀ e, template ≠ .quoted .unquote e) :
    ev.expandPlainly i template = pure template := by
  cases template with
  | quoted kind inner =>
    cases kind with
    | unquote => exact absurd rfl (hunquote inner)
    | _ => rfl
  | cons first rest => exact absurd rfl (hcons first rest)
  | _ => rfl

/-- A splice mark in second place gives the whole rest. -/
theorem expand_splice (first e dropped : Value) :
    ev.expand i (.cons first (.cons (.quoted .splice e) dropped)) =
      (do
        let head ← ev.expand i first
        let tail ← ev i e
        if tail.isList then return .cons head tail
        else Action.fail (.typing (.spliceOfNonList tail.text))) := by
  rw [expand, expandOnto]
  rfl

/-- Any other pair is expanded side by side. -/
theorem expand_cons {rest : Value} (hrest : ∀ e dropped, rest ≠ .cons (.quoted .splice e) dropped)
    (first : Value) :
    ev.expand i (.cons first rest) =
      (do
        let head ← ev.expand i first
        return .cons head (← ev.expand i rest)) := by
  rw [expand, expandOnto]
  refine congrArg _ (funext fun head => ?_)
  split
  · next e dropped => exact absurd rfl (hrest e dropped)
  · exact expandOnto_eq ev i [head] rest

/-- Expanding along a list follows the rule. -/
theorem expand_eq_expandPlainly (template : Value) :
    ev.expand i template = ev.expandPlainly i template := by
  fun_induction expandPlainly ev i template with
  | case1 e => exact bind_pure (ev i e)
  | case2 first e dropped ih => rw [expand_splice, ih]
  | case3 first rest hrest ihfirst ihrest =>
    have hsplice (e dropped : Value) : rest ≠ .cons (.quoted .splice e) dropped :=
      fun h => hrest e dropped h
    rw [expand_cons ev i hsplice, ihfirst, ihrest]
  | case4 template hunquote _ hcons =>
    cases template with
    | quoted kind inner =>
      cases kind with
      | unquote => exact (hunquote inner rfl).elim
      | _ => rfl
    | cons first rest => exact (hcons first rest rfl).elim
    | _ => rfl

end Evaluator

/-! ### The rule as a relation -/

/-- What the expansion of a template in a state comes to. -/
inductive Expands (files : Files) (i : FrameId) : Value → State → Outcome Value → Prop
  | unquote {e : Value} {σ : State} {r : Outcome Value} (he : Evaluates files i e σ r) :
      Expands files i (.quoted .unquote e) σ r
  | firstFails {first rest : Value} {σ τ : State} {err : Error}
      (hfirst : Expands files i first σ (.failed err τ)) :
      Expands files i (.cons first rest) σ (.failed err τ)
  | splice {first e dropped head tail : Value} {σ ρ τ : State}
      (hfirst : Expands files i first σ (.done head ρ))
      (he : Evaluates files i e ρ (.done tail τ)) (htail : tail.isList = true) :
      Expands files i (.cons first (.cons (.quoted .splice e) dropped)) σ (.done (.cons head tail) τ)
  | spliceNonList {first e dropped head tail : Value} {σ ρ τ : State}
      (hfirst : Expands files i first σ (.done head ρ))
      (he : Evaluates files i e ρ (.done tail τ)) (htail : tail.isList = false) :
      Expands files i (.cons first (.cons (.quoted .splice e) dropped)) σ
        (.failed (.typing (.spliceOfNonList tail.text)) τ)
  | spliceFails {first e dropped head : Value} {σ ρ τ : State} {err : Error}
      (hfirst : Expands files i first σ (.done head ρ))
      (he : Evaluates files i e ρ (.failed err τ)) :
      Expands files i (.cons first (.cons (.quoted .splice e) dropped)) σ (.failed err τ)
  | pair {first rest head tail : Value} {σ ρ τ : State}
      (hsplice : ∀ e dropped, rest ≠ .cons (.quoted .splice e) dropped)
      (hfirst : Expands files i first σ (.done head ρ))
      (hrest : Expands files i rest ρ (.done tail τ)) :
      Expands files i (.cons first rest) σ (.done (.cons head tail) τ)
  | restFails {first rest head : Value} {σ ρ τ : State} {err : Error}
      (hsplice : ∀ e dropped, rest ≠ .cons (.quoted .splice e) dropped)
      (hfirst : Expands files i first σ (.done head ρ))
      (hrest : Expands files i rest ρ (.failed err τ)) :
      Expands files i (.cons first rest) σ (.failed err τ)
  | inert {template : Value} {σ : State} (hcons : ∀ first rest, template ≠ .cons first rest)
      (hunquote : ∀ e, template ≠ .quoted .unquote e) :
      Expands files i template σ (.done template σ)

section Depths

variable {α β : Type} {m : Nat → Action α} {f : Nat → α → Action β} {σ ρ τ : State}

/-- An action that depends on a depth comes to an outcome at every depth from some depth on. -/
def Settles (m : Nat → Action α) (σ : State) (r : Outcome α) : Prop :=
  ∃ d, ∀ depth, d ≤ depth → m depth σ = r

theorem Settles.bind_done {a : α} {r : Outcome β} (h : Settles m σ (.done a ρ))
    (hf : Settles (fun depth => f depth a) ρ r) : Settles (fun depth => m depth >>= f depth) σ r := by
  obtain ⟨d, hd⟩ := h
  obtain ⟨d', hd'⟩ := hf
  refine ⟨max d d', fun depth hle => ?_⟩
  change (m depth >>= f depth) σ = r
  rw [Action.bind_apply, hd depth (Nat.le_trans (Nat.le_max_left d d') hle)]
  exact hd' depth (Nat.le_trans (Nat.le_max_right d d') hle)

theorem Settles.bind_failed {e : Error} (h : Settles m σ (.failed e τ)) :
    Settles (fun depth => m depth >>= f depth) σ (.failed e τ) := by
  obtain ⟨d, hd⟩ := h
  refine ⟨d, fun depth hle => ?_⟩
  change (m depth >>= f depth) σ = .failed e τ
  rw [Action.bind_apply, hd depth hle]

theorem Evaluates.settles {files : Files} {i : FrameId} {e : Value} {r : Outcome Value}
    (h : Evaluates files i e σ r) : Settles (fun depth => eval files depth i e) σ r := by
  obtain ⟨hr, d, rfl⟩ := h
  exact ⟨d, fun depth hd => eval_eq_of_le hd hr⟩

/-- Two actions in sequence fail with the first one, or they end as the second one does. -/
theorem Action.bind_cases {m : Action α} {f : α → Action β} {r : Outcome β} (h : (m >>= f) σ = r)
    (hr : r ≠ .exhausted) :
    (∃ e τ, m σ = .failed e τ ∧ r = .failed e τ) ∨ ∃ a ρ, m σ = .done a ρ ∧ f a ρ = r := by
  rw [bind_apply] at h
  cases hm : m σ with
  | done a ρ =>
    rw [hm] at h
    exact .inr ⟨a, ρ, rfl, h⟩
  | failed e τ =>
    rw [hm] at h
    exact .inl ⟨e, τ, rfl, h.symm⟩
  | exhausted =>
    rw [hm] at h
    exact absurd h.symm hr

end Depths

section Relation

variable {files : Files} {i : FrameId} {template : Value} {σ : State} {r : Outcome Value}

/-- At every depth the recursion comes to what the relation says, unless it comes to nothing. -/
theorem expands_of_expandPlainly {depth : Nat}
    (h : (eval files depth).expandPlainly i template σ = r) (hr : r ≠ .exhausted) :
    Expands files i template σ r := by
  fun_induction Evaluator.expandPlainly (eval files depth) i template generalizing σ r with
  | case1 e => exact .unquote ⟨hr, depth, h⟩
  | case2 first e dropped ih =>
    obtain ⟨err, τ, hfirst, rfl⟩ | ⟨head, ρ, hfirst, h⟩ := Action.bind_cases h hr
    · exact .firstFails (ih hfirst nofun)
    obtain ⟨err, τ, he, rfl⟩ | ⟨tail, τ, he, h⟩ := Action.bind_cases h hr
    · exact .spliceFails (ih hfirst nofun) ⟨nofun, depth, he⟩
    split at h
    · next htail =>
      subst h
      exact .splice (ih hfirst nofun) ⟨nofun, depth, he⟩ htail
    · next htail =>
      subst h
      exact .spliceNonList (ih hfirst nofun) ⟨nofun, depth, he⟩ (Bool.eq_false_iff.2 htail)
  | case3 first rest hrest ihfirst ihrest =>
    obtain ⟨err, τ, hfirst, rfl⟩ | ⟨head, ρ, hfirst, h⟩ := Action.bind_cases h hr
    · exact .firstFails (ihfirst hfirst nofun)
    obtain ⟨err, τ, htail, rfl⟩ | ⟨tail, τ, htail, rfl⟩ := Action.bind_cases h hr
    · exact .restFails hrest (ihfirst hfirst nofun) (ihrest htail nofun)
    · exact .pair hrest (ihfirst hfirst nofun) (ihrest htail nofun)
  | case4 template hunquote _ hcons =>
    subst h
    exact .inert hcons hunquote

/-- The recursion comes to what the relation says at every depth from some depth on. -/
theorem Expands.settles (h : Expands files i template σ r) :
    Settles (fun depth => (eval files depth).expandPlainly i template) σ r := by
  induction h with
  | unquote he => exact he.settles
  | @firstFails first rest _ _ _ _ ih =>
    -- Whichever rule applies to the pair, the first side is expanded first.
    by_cases hsplice : ∃ e dropped, rest = .cons (.quoted .splice e) dropped
    · obtain ⟨e, dropped, rfl⟩ := hsplice
      exact ih.bind_failed
    · have hother (e dropped : Value) : rest ≠ .cons (.quoted .splice e) dropped :=
        fun h => hsplice ⟨e, dropped, h⟩
      simp only [Evaluator.expandPlainly_cons _ _ hother]
      exact ih.bind_failed
  | splice _ he htail ih =>
    refine ih.bind_done (he.settles.bind_done ⟨0, fun _ _ => ?_⟩)
    rw [if_pos htail]
    rfl
  | spliceNonList _ he htail ih =>
    refine ih.bind_done (he.settles.bind_done ⟨0, fun _ _ => ?_⟩)
    rw [if_neg (Bool.eq_false_iff.1 htail)]
    rfl
  | spliceFails _ he ih => exact ih.bind_done he.settles.bind_failed
  | pair hsplice _ _ ih ih' =>
    simp only [Evaluator.expandPlainly_cons _ _ hsplice]
    exact ih.bind_done (ih'.bind_done ⟨0, fun _ _ => rfl⟩)
  | restFails hsplice _ _ ih ih' =>
    simp only [Evaluator.expandPlainly_cons _ _ hsplice]
    exact ih.bind_done ih'.bind_failed
  | inert hcons hunquote =>
    simp only [Evaluator.expandPlainly_inert _ _ hcons hunquote]
    exact ⟨0, fun _ _ => rfl⟩

theorem Expands.ne_exhausted (h : Expands files i template σ r) : r ≠ .exhausted := by
  cases h with
  | unquote he => exact he.1
  | _ => exact nofun

/-- A quasiquoted template evaluates to what the relation says. -/
theorem expands_iff :
    Expands files i template σ r ↔ Evaluates files i (.quoted .quasiquote template) σ r := by
  constructor
  · intro h
    obtain ⟨depth, hdepth⟩ := h.settles
    refine ⟨h.ne_exhausted, depth + 1, ?_⟩
    exact (congrFun (Evaluator.expand_eq_expandPlainly _ i template) σ).trans
      (hdepth depth (Nat.le_refl depth))
  · rintro ⟨hr, depth, h⟩
    cases depth with
    | zero => exact absurd h.symm hr
    | succ depth =>
      have hplainly : (eval files depth).expandPlainly i template σ = r := by
        rw [← Evaluator.expand_eq_expandPlainly]
        exact h
      exact expands_of_expandPlainly hplainly hr

end Relation

/-! ### Templates without holes -/

/-- An expression under an unquote or a splice mark stands somewhere along the pairs of a
template. -/
def Value.hasHole : Value → Bool
  | .quoted .unquote _ | .quoted .splice _ => true
  | .cons first rest => first.hasHole || rest.hasHole
  | _ => false

/-- Nothing is evaluated in a template without holes. -/
theorem Evaluator.expandPlainly_of_hasHole (ev : Evaluator) (i : FrameId) {template : Value}
    (h : template.hasHole = false) : ev.expandPlainly i template = pure template := by
  induction template with
  | cons first rest ihfirst ihrest =>
    rw [Value.hasHole, Bool.or_eq_false_iff] at h
    have hsplice (e dropped : Value) : rest ≠ .cons (.quoted .splice e) dropped := by
      rintro rfl
      cases h.2
    rw [expandPlainly_cons ev i hsplice, ihfirst h.1, ihrest h.2]
    rfl
  | quoted kind inner =>
    cases kind with
    | unquote => cases h
    | _ => rfl
  | _ => rfl

/-- Whatever evaluates the expressions inside it, a template is expanded as the recursion over its
pairs says: with the same result or error, printing the same and leaving the same state. So a
quasiquoted template evaluates to what the rule says, and to itself if it has no holes. -/
theorem quasiquote_by_rule (template : Value) (i : FrameId) :
    (∀ ev : Evaluator, ev.expand i template = ev.expandPlainly i template) ∧
    ∀ (files : Files) (σ : State) (r : Outcome Value),
      (Evaluates files i (.quoted .quasiquote template) σ r ↔ Expands files i template σ r) ∧
      (template.hasHole = false →
        (Evaluates files i (.quoted .quasiquote template) σ r ↔ r = .done template σ)) := by
  refine ⟨fun ev => ev.expand_eq_expandPlainly i template,
    fun files σ r => ⟨expands_iff.symm, fun hhole => ?_⟩⟩
  have hdone (depth : Nat) :
      eval files (depth + 1) i (.quoted .quasiquote template) σ = .done template σ := by
    change (eval files depth).expand i template σ = _
    rw [Evaluator.expand_eq_expandPlainly, Evaluator.expandPlainly_of_hasHole _ i hhole]
    rfl
  have hself : Evaluates files i (.quoted .quasiquote template) σ (.done template σ) :=
    ⟨nofun, 1, hdone 0⟩
  exact ⟨fun h => h.unique hself, fun h => h ▸ hself⟩

/-- `(1 ,@'(2) 3)` -/
def spliceInside : Value :=
  .ofList [.integer 1, .quoted .splice (.quoted .quote (.ofList [.integer 2])), .integer 3]

/-- `('a . 3)` -/
def dottedWithoutHoles : Value :=
  .cons (.quoted .quote (.symbol "a")) (.integer 3)

theorem quasiquote_by_rule_spliceInside :
    Expands .empty 0 spliceInside default (.done (.ofList [.integer 1, .integer 2]) default) ∧
    Evaluates .empty 0 (.quoted .quasiquote dottedWithoutHoles) default
      (.done dottedWithoutHoles default) := by
  have hsplice := (quasiquote_by_rule spliceInside 0).2 .empty default
  have hdotted := (quasiquote_by_rule dottedWithoutHoles 0).2 .empty default
  exact ⟨(hsplice _).1.1 ⟨nofun, 2, rfl⟩, ((hdotted _).2 rfl).2 rfl⟩

end ConsLisp
