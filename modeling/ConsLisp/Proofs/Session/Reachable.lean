import ConsLisp.Proofs.Store.Persistence
import ConsLisp.Session

/-!
# The states of a session

A host talks to a session by giving it texts and files to evaluate, in any frame that there is, and
by making frames of its own. Whether a request ends with a value or in an error, the session goes on
from the state in which it ended. The states that can be reached so, from the state that a prelude
leaves behind, are those of which the laws of a session hold.

## Main definitions

* `Request`: what a host can ask for, and `Request.run`: how it is answered.
* `Reachable`: the states that a session can reach.

## Main results

* `Action.Hereditary.request`, `Action.Hereditary.start`: what evaluation has, requests and preludes
  have.
* `Reachable.initial_persists`: a reachable state holds what the initial state binds.
-/

namespace ConsLisp

/-- Something that a host gives a session to evaluate. -/
inductive Request where
  /-- A text that holds one expression. -/
  | expression (text : String)
  /-- A source, with or without comments. -/
  | source (comments : Bool) (text : String)
  /-- The contents of a source that has no file. -/
  | input (contents : ByteArray)
  /-- The path of a file. -/
  | file (path : String)

/-- The name under which a source is loaded that has no file. -/
def inputName : String := "<input>"

/-- Answers a request in a frame. -/
def Request.run (ev : Evaluator) (files : Files) (i : FrameId) : Request → Action Value
  | expression text => ev.evaluateText i text
  | source comments text => ev.evaluateSource i comments text
  | input contents => ev.loadBytes i inputName contents
  | file path => ev.loadFile files i path

/-- The states that a session with the given prelude can reach. The files may be others at each
request. -/
inductive Reachable (prelude : String) : State → Prop
  | started {files : Files} {depth : Nat} {σ : State}
      (h : ((eval files depth).start prelude State.initial).state? = some σ) : Reachable prelude σ
  | answered {files : Files} {depth : Nat} {i : FrameId} {request : Request} {σ τ : State}
      (hσ : Reachable prelude σ) (hi : i < σ.frameCount)
      (h : (request.run (eval files depth) files i σ).state? = some τ) : Reachable prelude τ
  | derived {i : FrameId} {σ : State} (hσ : Reachable prelude σ) (hi : i < σ.frameCount) :
      Reachable prelude (σ.derive i [])

namespace Action.Hereditary

variable {P : FrameId → ∀ {α : Type}, Action α → Prop} (hP : Hereditary P) {ev : Evaluator}
  (hev : ∀ i e, P i (ev i e))
include hP hev

/-- A request is answered by evaluating what was read. -/
theorem request (files : Files) (i : FrameId) (request : Request) :
    P i (request.run ev files i) := by
  cases request with
  | expression text =>
    rw [Request.run, Evaluator.evaluateText]
    split
    · exact hev i _
    · exact hP.fail _
  | source comments text => exact hP.evaluateSource hev i comments text
  | input contents => exact hP.loadBytes hev i inputName contents
  | file path => exact hP.loadFile hev files i path

theorem start (prelude : String) : P globalFrame (ev.start prelude) :=
  hP.bind (hP.evaluateSource hev globalFrame true prelude) fun _ => hP.pure ()

end Action.Hereditary

/-- A reachable state holds what the initial state binds. -/
theorem Reachable.initial_persists {prelude : String} {σ : State} (h : Reachable prelude σ) :
    State.initial.PersistsIn σ := by
  have hkeeps := Action.hereditary_keeps
  induction h with
  | started h => exact hkeeps.start (hkeeps.eval _ _) prelude _ _ h
  | answered _ _ h ih => exact ih.trans (hkeeps.request (hkeeps.eval _ _) _ _ _ _ _ h)
  | derived _ _ ih => exact ih.trans (.derive _ _ _)

end ConsLisp
