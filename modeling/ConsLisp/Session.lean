import ConsLisp.Evaluation.Basic
import ConsLisp.Prelude

/-!
# Sessions

A session starts with one global frame, which binds the two truth values and all builtin operations,
and evaluates a prelude in it. After that the host evaluates texts in the global frame or in frames
made inside it. A host that gives a single text expects one expression; a source may hold any
number.

## Main definitions

* `globalFrame`, `globalBindings`: the global frame and what it binds at first.
* `State.initial`: the state before the prelude.
* `Evaluator.start`: evaluates a prelude.
* `Evaluator.evaluateText`: evaluates the first expression of a text.
-/

namespace ConsLisp

/-- The frame that has no frame around it. -/
def globalFrame : FrameId := 0

/-- The bindings that the global frame starts with. -/
def globalBindings : Bindings :=
  [("#t", .bool true), ("#f", .bool false)] ++
    SpecialForm.all.map (fun form => (form.name, .specialForm form)) ++
    Primitive.all.map (fun op => (op.name, .primitive op.name op))

/-- The state in which a session starts. -/
def State.initial : State where
  frames := #[⟨globalBindings, []⟩]
  closures := 0
  printed := ""

namespace Evaluator

/-- Evaluates a prelude in the global frame. -/
def start (ev : Evaluator) (prelude : String) : Action Unit := do
  let _ ← ev.evaluateSource globalFrame true prelude

/-- Evaluates the first expression of a text. -/
def evaluateText (ev : Evaluator) (i : FrameId) (text : String) : Action Value :=
  match Source.readOne text with
  | .ok form => ev i form.value
  | .error e => Action.fail (.reading e)

end Evaluator

end ConsLisp
