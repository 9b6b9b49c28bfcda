import ConsLisp.Evaluation.Sequence
import ConsLisp.Files
import ConsLisp.Source.Forms

/-!
# Evaluating and loading sources

The forms of a source are evaluated one after the other in one frame. A syntax error is met only
after all forms before it have been evaluated.

A source that is loaded, from a file or from bytes, may hold comments. A syntax error in it is an
error of loading, under the name of the source, so that it is not taken for a syntax error of the
text that asked for the loading. Bytes that are no text are refused as a whole.

## Main definitions

* `Evaluator.evaluateForms`: evaluates everything that was read from a source.
* `Evaluator.evaluateSource`: reads a source and evaluates it.
* `Evaluator.loadBytes`, `Evaluator.loadFile`: load a source.
-/

namespace ConsLisp

open Source (Form Forms SyntaxError)

/-- A syntax error met while loading, told as an error of loading. -/
def Error.whileLoading (path : String) : Error → Error
  | .reading e => .loading path (.malformed e)
  | e => e

namespace Evaluator

/-- Evaluates forms after one whose value is `last`, and then fails with the error, if there is
one. -/
def evaluateFormsAfter (ev : Evaluator) (i : FrameId) (error? : Option SyntaxError)
    (last : Value) : List Form → Action Value
  | [] =>
    match error? with
    | none => return last
    | some e => Action.fail (.reading e)
  | form :: forms => do
    let v ← ev i form.value
    evaluateFormsAfter ev i error? v forms

/-- The value of the last form of a source, after evaluating all of them. A source without forms has
the empty list as its value. -/
def evaluateForms (ev : Evaluator) (i : FrameId) (source : Forms) : Action Value :=
  ev.evaluateFormsAfter i source.error? .empty source.forms

/-- Reads a source and evaluates its forms in a frame. -/
def evaluateSource (ev : Evaluator) (i : FrameId) (comments : Bool) (source : String) :
    Action Value :=
  ev.evaluateForms i (Source.readForms comments source)

/-- Loads a source from bytes, under the name `path`. -/
def loadBytes (ev : Evaluator) (i : FrameId) (path : String) (contents : ByteArray) :
    Action Value :=
  match decodeText contents with
  | .error fault => Action.fail (.loading path fault)
  | .ok source => Action.mapError (Error.whileLoading path) (ev.evaluateSource i true source)

/-- Loads the file at a path. -/
def loadFile (ev : Evaluator) (files : Files) (i : FrameId) (path : String) : Action Value :=
  match files.read path with
  | .error fault => Action.fail (.loading path fault)
  | .ok contents => ev.loadBytes i path contents

end Evaluator

end ConsLisp
