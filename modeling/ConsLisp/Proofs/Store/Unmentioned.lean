import ConsLisp.Proofs.Evaluation.Lockstep
import ConsLisp.Proofs.Store.Changes

/-!
# Names that a program does not mention

A program learns of a name from its own text, from the values that its state holds, and from the
files that it loads; it makes no names itself. So a binding of a name that occurs in none of these
changes nothing but that it is there: the program ends with the same value or in the same error, has
printed the same, and leaves a state that differs by this binding only.

## Main definitions

* `Outcome.mapState`: an outcome with its state changed.
* `Event.keepsOut`: no file is loaded that mentions a name.
* `Pairing.extraBinding`: the states of two runs differ by one binding.

## Main results

* `Pairing.tolerates_alarm_keepsOut`: as long as no alarm is raised, the name stays out of both
  runs.
* `unmentioned_binding_unnoticed`: a binding of a name that a run does not mention makes no
  difference to it.
-/

namespace ConsLisp

/-! ### Two runs that differ by a binding -/

/-- The outcome with its state changed. -/
def Outcome.mapState {α : Type} (f : State → State) : Outcome α → Outcome α
  | done a σ => done a (f σ)
  | failed e σ => failed e (f σ)
  | exhausted => exhausted

/-- No file is loaded that mentions the name. -/
def Event.keepsOut (files : Files) (x : String) : Event → Bool
  | .loading path => (files.formsAt path).all fun form => (Makeup.without x).admits form.value
  | .evaluated _ | .passing _ => true

theorem ne_of_without {x y : String} (h : (Makeup.without x).symbols y = true) : y ≠ x := by
  simpa [Makeup.without] using h

namespace Pairing

/-- The second run binds the name `x` in frame `k` and is in the same state apart from that. No
value that the first one binds mentions `x`. An alarm of the first run tells that `name` is
unbound. -/
def extraBinding (k : FrameId) (x : String) (w : Value) (name : String) :
    Pairing (Makeup.without x) where
  Related σ τ := σ.KeepsTo (Makeup.without x) ∧ τ.local? k x = some w ∧ τ.unbind k x = σ
  IsAlarm e := e = .unbound name
  isAlarm_whileLoading he := by rw [he]; rfl
  local?_eq := by
    rintro _ τ i y ⟨-, hw, rfl⟩ hy
    rw [State.local?_unbind (State.frameCount_of_local? hw), if_neg fun h => ne_of_without hy h.2]
  resolve?_eq := by
    rintro _ τ i y ⟨-, hw, rfl⟩ hy
    rw [State.resolve?_unbind (State.frameCount_of_local? hw) (ne_of_without hy)]
  admits_local? hrel _ hv := hrel.1 _ _ _ hv
  frameCount_eq := by
    rintro _ τ ⟨-, -, rfl⟩
    exact (State.frameCount_modifyFrame τ k _).symm
  closures_eq := by
    rintro _ τ ⟨-, -, rfl⟩
    rfl
  bind := by
    rintro _ τ i y v ⟨hσ, hw, rfl⟩ hy hv
    have hyx := ne_of_without hy
    refine ⟨hσ.bind i y hv, ?_, State.unbind_bind hyx τ i k v⟩
    refine (State.local?_modifyFrame (fun b => ?_) i k).trans hw
    rw [Bindings.find?_cons, if_neg (Ne.symm hyx)]
  assign := by
    rintro _ τ i y n ⟨hσ, hw, rfl⟩ hy
    refine ⟨hσ.assign i y rfl, ?_, State.unbind_assign τ i k x y _⟩
    refine (State.local?_modifyFrame (fun b => ?_) i k).trans hw
    rw [Bindings.find?_assign, if_neg (Ne.symm (ne_of_without hy))]
  derive := by
    rintro _ τ i b ⟨hσ, hw, rfl⟩ hb
    have hk := State.frameCount_of_local? hw
    refine ⟨hσ.derive i hb, ?_, State.unbind_derive hk i b x⟩
    rw [State.local?_derive_of_lt hk]
    exact hw
  newClosure := by
    rintro _ τ ⟨hσ, hw, rfl⟩
    exact ⟨hσ.of_frames_eq rfl, hw, rfl⟩
  print text hrel := by
    obtain ⟨hσ, hw, rfl⟩ := hrel
    exact ⟨hσ.of_frames_eq rfl, hw, rfl⟩

/-- An alarm is raised before a file is loaded that mentions the name, and at no other event. -/
theorem tolerates_alarm_keepsOut (k : FrameId) (x : String) (w : Value) (name : String)
    (files : Files) : (extraBinding k x w name).Tolerates
      (.alarm (Event.keepsOut files x) (Action.fail (.unbound name))) files where
  evaluated _ := Follows.pure trivial
  passing _ _ := Follows.pure trivial
  loading path := by
    rw [Observer.alarm]
    split
    · next h => exact Follows.pure (List.all_eq_true.1 h)
    · exact fun _ _ _ => .alarm rfl

/-- If no alarm is raised, the runs end in the same way and their states differ by the binding. -/
theorem mapState_of_meets {α : Type} {k : FrameId} {x : String} {w : Value} {name : String}
    {Q : α → Prop} {r r' : Outcome α} (h : (extraBinding k x w name).Meets Q r r')
    (hr : ∀ σ, r ≠ .failed (.unbound name) σ) :
    r'.mapState (·.unbind k x) = r ∧ ∀ τ, r'.state? = some τ → τ.local? k x = some w := by
  cases h with
  | done ha hrel =>
    obtain ⟨-, hw, rfl⟩ := hrel
    refine ⟨rfl, ?_⟩
    rintro _ ⟨⟩
    exact hw
  | failed hrel =>
    obtain ⟨-, hw, rfl⟩ := hrel
    refine ⟨rfl, ?_⟩
    rintro _ ⟨⟩
    exact hw
  | exhausted => exact ⟨rfl, nofun⟩
  | alarm he => exact absurd (congrArg (Outcome.failed · _) he) (hr _)

end Pairing

/-- Where neither the expression nor any value that is bound mentions a name, and no file that is
loaded does, it makes no difference to the evaluation whether a frame binds the name: it ends with
the same value or in the same error, or not at all, has printed the same, and leaves a state that
differs by this binding only. -/
theorem unmentioned_binding_unnoticed {files : Files} {depth : Nat} {σ : State} {i k : FrameId}
    {x : String} {e w : Value} (hk : k < σ.frameCount) (hx : σ.local? k x = none)
    (he : (Makeup.without x).admits e = true)
    (hσ : ∀ j y v, σ.local? j y = some v → (Makeup.without x).admits v = true)
    (hfiles : SeesOnly (Event.keepsOut files x) files depth (fun ev => ev i e) σ) :
    (eval files depth i e (σ.bind k x w)).mapState (·.unbind k x) = eval files depth i e σ ∧
      ∀ τ, (eval files depth i e (σ.bind k x w)).state? = some τ → τ.local? k x = some w := by
  have hrel : (Pairing.extraBinding k x w "").Related σ (σ.bind k x w) := by
    refine ⟨hσ, ?_, State.unbind_bind_self hx w⟩
    rw [State.local?_bind hk, if_pos ⟨rfl, rfl⟩]
  have hmeets (name : String) : (Pairing.extraBinding k x w name).Meets
      (fun v => (Makeup.without x).admits v = true) (eval files depth i e σ)
      (eval files depth i e (σ.bind k x w)) := by
    have halarm : (Observer.alarm (Event.keepsOut files x) (Action.fail (.unbound name))).eval files
        depth i e σ = eval files depth i e σ := hfiles _
    rw [← halarm]
    exact Pairing.follows_eval (Pairing.tolerates_alarm_keepsOut k x w name files) depth i he σ _ hrel
  -- The run may end in the error that an alarm tells of, but not in two such errors.
  by_cases hr : ∃ τ, eval files depth i e σ = .failed (.unbound "") τ
  · obtain ⟨τ, hτ⟩ := hr
    exact Pairing.mapState_of_meets (hmeets "x") fun υ hυ => absurd (hτ.symm.trans hυ) (by simp)
  · exact Pairing.mapState_of_meets (hmeets "") fun τ hτ => hr ⟨τ, hτ⟩

/-- A file that defines `b`. -/
def definingText : String :=
  "(def b 2) ; two"

/-- The file at `/tmp/b`. -/
def definingFile : Files :=
  .ofList [("/tmp/b", definingText.toUTF8)]

/-- What the file says: `(def b 2)`. -/
def defineB : Value :=
  .ofList [.symbol "def", .symbol "b", .integer 2]

/-- A global frame with what it takes to load the file, and a frame inside it with the bindings
`inner`. -/
def loadingState (outer inner : Bindings) : State where
  frames := #[⟨outer ++ [("load", .specialForm .load), ("def", .specialForm .define)], []⟩,
    ⟨inner, [0]⟩]
  closures := 0
  printed := ""

/-- Acts when a file is loaded that mentions `z`. -/
def alarmAtZ (action : Action Unit) : Observer :=
  .alarm (Event.keepsOut definingFile "z") action

theorem read_definingFile : definingFile.read "/tmp/b" = .ok definingText.toUTF8 :=
  Files.read_ofList_sole _

theorem forms_definingText : (Source.readForms true definingText).forms = [⟨defineB, 9⟩] := by
  with_unfolding_all rfl

theorem loadFile_definingFile (ev : Evaluator) (i : FrameId) :
    ev.loadFile definingFile i "/tmp/b" =
      Action.mapError (Error.whileLoading "/tmp/b")
        (ev.evaluateFormsAfter i none .empty [⟨defineB, 9⟩]) := by
  have htext : decodeText definingText.toUTF8 = .ok definingText := rfl
  have herror : (Source.readForms true definingText).error? = none := by
    with_unfolding_all rfl
  rw [Evaluator.loadFile, read_definingFile]
  simp only [Evaluator.loadBytes, htext, Evaluator.evaluateSource, Evaluator.evaluateForms,
    forms_definingText, herror]

theorem keepsOut_definingFile : Event.keepsOut definingFile "z" (.loading "/tmp/b") = true := by
  have htext : decodeText definingText.toUTF8 = .ok definingText := rfl
  rw [Event.keepsOut, Files.formsAt, read_definingFile]
  simp only [htext, forms_definingText]
  rfl

/-- Loading the file in the inner frame defines `b` there, and a binding of `z` in the global frame
makes no difference to that. -/
theorem unmentioned_binding_unnoticed_definingFile :
    let e := Value.ofList [.symbol "load", .string "/tmp/b"]
    let w := Value.symbol "z"
    let afterRun := Outcome.done (.bool true) (loadingState [] [("b", .integer { val := 2 })])
    SeesOnly (Event.keepsOut definingFile "z") definingFile 3 (fun ev => ev 1 e)
        (loadingState [] []) ∧
      eval definingFile 3 1 e (loadingState [] []) = afterRun ∧
      (eval definingFile 3 1 e (loadingState [("z", w)] [])).mapState (·.unbind 0 "z") =
        afterRun := by
  intro e w afterRun
  have hrun : eval definingFile 3 1 e (loadingState [] []) = afterRun := by
    change ((eval definingFile 2).loadFile definingFile 1 "/tmp/b" >>= fun _ => pure (Value.bool true))
      (loadingState [] []) = _
    rw [loadFile_definingFile]
    rfl
  have hsees : SeesOnly (Event.keepsOut definingFile "z") definingFile 3 (fun ev => ev 1 e)
      (loadingState [] []) := by
    intro action
    have hloading : alarmAtZ action (.loading "/tmp/b") = pure () :=
      if_pos keepsOut_definingFile
    change ((alarmAtZ action (.loading "/tmp/b") >>= fun _ =>
        ((alarmAtZ action).eval definingFile 2).loadFile definingFile 1 "/tmp/b" >>= fun _ =>
          pure (Value.bool true)) >>= fun v => alarmAtZ action (.evaluated v) >>= fun _ => pure v)
      (loadingState [] []) = eval definingFile 3 1 e (loadingState [] [])
    rw [hloading, loadFile_definingFile, hrun]
    rfl
  have houter : ∀ p ∈ (loadingState [] []).bindingsOf 0, (Makeup.without "z").admits p.2 = true := by
    decide
  have hvalues (j : FrameId) (y : String) (v : Value)
      (hv : (loadingState [] []).local? j y = some v) : (Makeup.without "z").admits v = true := by
    match j with
    | 0 => exact houter _ (Bindings.mem_of_find? hv)
    | 1 => cases hv
    | j + 2 => simp [State.local?, State.bindingsOf, loadingState] at hv
  obtain ⟨hextra, -⟩ := unmentioned_binding_unnoticed (k := 0) (x := "z") (w := w) (by decide) rfl
    (by decide) hvalues hsees
  exact ⟨hsees, hrun, hextra.trans hrun⟩

end ConsLisp
