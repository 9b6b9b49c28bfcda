import ConsLisp.Evaluation.Basic

/-!
# Observed runs

Some laws of evaluation are not about how a run ends but about what happens in it: which values come
out of the evaluations inside it, which lists are handed to what is called, which files are loaded.
An observer is told of each such event and acts on it. Observed evaluation follows the rules of
evaluation and calls the observer on the way.

An alarm is an observer that does nothing as long as a test holds of the events, and takes some
given action at any other event. If nothing but what passes the test happens in a run, then no alarm
changes how the run ends. If something else does happen, then some alarm does: the first such event
could end the run in any error, or without an answer.

## Main definitions

* `Event`, `Observer`: what happens in a run, and what is done about it.
* `Files.formsAt`: what loading a file reads.
* `Observer.step`, `Observer.eval`: the rules of evaluation, observed.
* `Observer.alarm`: the observer that acts when a test fails.
* `SeesOnly`: nothing happens in a run but what passes a test.
-/

namespace ConsLisp

/-- Something that happens in a run. -/
inductive Event where
  /-- An evaluation has ended with a value. -/
  | evaluated (v : Value)
  /-- A list is handed to what is called: operands to a special form or a macro, arguments to a
  function. -/
  | passing (list : Value)
  /-- A program is about to load the file at a path. -/
  | loading (path : String)

/-- The forms that loading the file at a path reads. -/
def Files.formsAt (files : Files) (path : String) : List Source.Form :=
  match files.read path with
  | .error _ => []
  | .ok contents =>
    match decodeText contents with
    | .error _ => []
    | .ok source => (Source.readForms true source).forms

/-- What is done about each event. -/
abbrev Observer := Event → Action Unit

namespace Observer

/-- Loads the files at the given paths. -/
def loadAll (O : Observer) (ev : Evaluator) (files : Files) (i : FrameId) : Value → Action Value
  | .cons (.string path) rest => do
    O (.loading path)
    let _ ← ev.loadFile files i path
    O.loadAll ev files i rest
  | operands => ev.loadAll files i operands

/-- Runs a special form on its operands. -/
def run (O : Observer) (ev : Evaluator) (files : Files) (form : SpecialForm) (i : FrameId)
    (operands : Value) : Action Value :=
  match form with
  | .load => O.loadAll ev files i operands
  | form => form.run ev files i operands

/-- A call: the head decides what becomes of the operands. -/
def call (O : Observer) (ev : Evaluator) (files : Files) (i : FrameId) (head operands : Value) :
    Action Value := do
  match ← ev i head with
  | .specialForm form =>
    O (.passing operands)
    Action.ofExcept (form.arity.check form.name operands.length)
    O.run ev files form i operands
  | .primitive name op => do
    let args ← ev.evaluateEach i operands
    O (.passing args)
    (Callable.primitive name op).apply ev args
  | .closure .function name _ params body frame => do
    let args ← ev.evaluateEach i operands
    O (.passing args)
    (Callable.closure name params body frame).apply ev args
  | .closure .expander name _ params body frame => do
    O (.passing operands)
    let expansion ← (Callable.closure name params body frame).apply ev operands
    ev i expansion
  | other => Action.fail (.calling (.notCallable other.text))

/-- The value of an expression, using `ev` for the expressions inside it. -/
def answer (O : Observer) (ev : Evaluator) (files : Files) : Evaluator := fun i e =>
  match e with
  | .cons head operands => O.call ev files i head operands
  | e => ev.step files i e

/-- Evaluates an expression and tells of its value. -/
def step (O : Observer) (ev : Evaluator) (files : Files) : Evaluator := fun i e => do
  let v ← O.answer ev files i e
  O (.evaluated v)
  return v

/-- Evaluates an expression in a frame, with evaluations nested at most `depth` deep. -/
def eval (O : Observer) (files : Files) : (depth : Nat) → Evaluator
  | 0 => fun _ _ => Action.exhausted
  | depth + 1 => O.step (O.eval files depth) files

/-- The observer that does nothing at events that pass a test, and takes an action at any other. -/
def alarm (test : Event → Bool) (action : Action Unit) : Observer := fun event =>
  if test event then pure () else action

end Observer

/-- Nothing happens in a run but what passes the test: whatever an alarm would do, the run ends as
it does without one. -/
def SeesOnly {α : Type} (test : Event → Bool) (files : Files) (depth : Nat)
    (run : Evaluator → Action α) (σ : State) : Prop :=
  ∀ action, run ((Observer.alarm test action).eval files depth) σ = run (eval files depth) σ

end ConsLisp
