import ConsLisp.Proofs.Evaluation.Failures
import ConsLisp.Session

/-!
# Whose syntax error it is

A front end that meets an unfinished text waits for the rest of it, so it has to know that the text
is its own. A syntax error in something that is loaded is none in the text that asked for the
loading: however deep the loading is nested, and whether a call, an expansion or the text itself
asks for it, the error comes out as an error of loading. The only syntax error that a host gets back
for a text is the one of that text.

## Main definitions

* `Failures.besidesSyntax`: all errors but syntax errors.

## Main results

* `syntax_errors_confined`: an evaluation or a loading never ends in a syntax error, and the
  evaluation of a text does so exactly if the text cannot be read.
-/

namespace ConsLisp

/-- Whatever closures are called, all errors but syntax errors can be expected. -/
def Failures.besidesSyntax : Failures where
  lists _ := True
  errors e := ∀ s, e ≠ .reading s
  ordinary := by
    rintro _ he s rfl
    exact he
  refused _ _ := nofun
  unbindable := by
    rintro name params args _ - he s rfl
    rcases LambdaList.isOrdinary_or_eq_arity_of_bindFormals he with h | ⟨h, -⟩
    · exact h
    · cases h

theorem Failures.besidesSyntax_endsIn_eval (files : Files) (depth : Nat) (i : FrameId) (e : Value) :
    (eval files depth i e).EndsIn besidesSyntax.Callable besidesSyntax.errors := by
  have hO : besidesSyntax.Tolerates fun _ => pure () := {
    evaluated := fun v => .pure (by cases v <;> trivial)
    passing := fun _ => .pure trivial
    loading := fun _ => .pure trivial }
  rw [← Observer.eval_idle]
  exact endsIn_eval hO files depth i e

/-- Only a syntax error tells of unfinished input. -/
theorem Error.isIncompleteInput_eq_false {e : Error} (h : ∀ s, e ≠ .reading s) :
    e.isIncompleteInput = false := by
  cases e with
  | reading s => exact absurd rfl (h s)
  | _ => rfl

/-- An evaluation that fails does not do so in a syntax error, whatever is loaded on the way, nor
does a loading that fails. So none of their errors tells of unfinished input. The evaluation of a
text ends in a syntax error exactly if reading the text does, and then in the same one. -/
theorem syntax_errors_confined (files : Files) (depth : Nat) (i : FrameId) :
    (∀ e σ err τ, eval files depth i e σ = .failed err τ →
        (∀ s, err ≠ .reading s) ∧ err.isIncompleteInput = false) ∧
      (∀ name contents σ err τ, (eval files depth).loadBytes i name contents σ = .failed err τ →
        (∀ s, err ≠ .reading s) ∧ err.isIncompleteInput = false) ∧
      (∀ path σ err τ, (eval files depth).loadFile files i path σ = .failed err τ →
        (∀ s, err ≠ .reading s) ∧ err.isIncompleteInput = false) ∧
      ∀ text σ s τ, (eval files depth).evaluateText i text σ = .failed (.reading s) τ ↔
        Source.readOne text = .error s ∧ τ = σ := by
  have hev := Failures.besidesSyntax_endsIn_eval files depth
  have hfailed {m : Action Value} (hm : Failures.besidesSyntax.Allows m) (σ : State) (err : Error)
      (τ : State) (h : m σ = .failed err τ) :
      (∀ s, err ≠ .reading s) ∧ err.isIncompleteInput = false := by
    have hne := hm.of_failed h
    exact ⟨hne, Error.isIncompleteInput_eq_false hne⟩
  refine ⟨fun e => hfailed (Failures.allows_evaluation hev i e), fun name contents =>
    hfailed (Failures.allows_loadBytes hev i name contents), fun path =>
    hfailed (Failures.allows_loadFile hev files i path), fun text σ s τ => ?_⟩
  rw [Evaluator.evaluateText]
  cases Source.readOne text with
  | ok form =>
    constructor
    · intro h
      exact absurd rfl ((hev i form.value).of_failed h s)
    · rintro ⟨⟨⟩, -⟩
  | error s' =>
    constructor
    · rintro ⟨⟩
      exact ⟨rfl, rfl⟩
    · rintro ⟨⟨⟩, rfl⟩
      rfl

/-- A file that stops inside a list. -/
def unfinishedText : String :=
  "(def b"

/-- The file at `/tmp/b`. -/
def unfinishedFile : Files :=
  .ofList [("/tmp/b", unfinishedText.toUTF8)]

/-- The syntax error of the file. -/
def unfinishedError : Source.SyntaxError :=
  Source.ReadFault.openList.inText unfinishedText.toList 6

/-- Loads the file: `(load "/tmp/b")`. -/
def loadUnfinished : Value :=
  .ofList [.symbol "load", .string "/tmp/b"]

/-- The syntax error of the file is one of unfinished input; the error of the expression that loads
the file is not. -/
theorem syntax_errors_confined_unfinishedFile :
    let err := Error.loading "/tmp/b" (.malformed unfinishedError)
    eval unfinishedFile 2 globalFrame loadUnfinished State.initial = .failed err State.initial ∧
      unfinishedError.isIncomplete = true ∧ err.isIncompleteInput = false := by
  intro err
  have hread : unfinishedFile.read "/tmp/b" = .ok unfinishedText.toUTF8 :=
    Files.read_ofList_sole _
  have htext : decodeText unfinishedText.toUTF8 = .ok unfinishedText := rfl
  have hforms : (Source.readForms true unfinishedText).forms = [] := by
    with_unfolding_all rfl
  have herror : (Source.readForms true unfinishedText).error? = some unfinishedError := by
    with_unfolding_all rfl
  have hload : (eval unfinishedFile 1).loadFile unfinishedFile globalFrame "/tmp/b" State.initial =
      .failed err State.initial := by
    rw [Evaluator.loadFile, hread]
    simp only [Evaluator.loadBytes, htext, Evaluator.evaluateSource, Evaluator.evaluateForms, hforms,
      herror]
    rfl
  have hrun : eval unfinishedFile 2 globalFrame loadUnfinished State.initial =
      .failed err State.initial := by
    change ((eval unfinishedFile 1).loadFile unfinishedFile globalFrame "/tmp/b" >>= fun _ =>
      pure (Value.bool true)) State.initial = _
    rw [Action.bind_apply, hload]
  obtain ⟨-, hincomplete⟩ :=
    (syntax_errors_confined unfinishedFile 2 globalFrame).1 loadUnfinished State.initial err _ hrun
  exact ⟨hrun, rfl, hincomplete⟩

end ConsLisp
