import ConsLisp.Proofs.Evaluation.Hereditary

/-!
# Definitions stay in the frame of the evaluation

Evaluating an expression in a frame can bind names in that frame, and in frames that are made on the
way. No other frame gains a name: a closure defines its names in the frame of the call, which is
new, and a macro expansion and a loaded source define theirs in the frame that asked for them. So a
call leaves no name behind in any frame that was there before it. All this holds of runs that fail
as well.

## Main definitions

* `State.GainsOnlyIn`: of the frames that an earlier state has, only one has gained names.

## Main results

* `State.accumulates_gainsOnlyIn`: what an evaluation does in a frame adds names to no other.
* `definitions_stay_local`: an evaluation adds names to its own frame only, and a call to none.
-/

namespace ConsLisp

/-! ### Where names are added -/

namespace State

/-- Of the frames of the state `σ`, none but frame `i` binds more names in the state `τ`. -/
structure GainsOnlyIn (i : FrameId) (σ τ : State) : Prop where
  frameCount_le : σ.frameCount ≤ τ.frameCount
  local?_eq_none {j : FrameId} {x : String} :
    j < σ.frameCount → j ≠ i → σ.local? j x = none → τ.local? j x = none

variable {i : FrameId}

theorem GainsOnlyIn.refl (σ : State) : GainsOnlyIn i σ σ where
  frameCount_le := Nat.le_refl _
  local?_eq_none _ _ hx := hx

theorem GainsOnlyIn.trans {ρ σ τ : State} (h : GainsOnlyIn i ρ σ) (h' : GainsOnlyIn i σ τ) :
    GainsOnlyIn i ρ τ where
  frameCount_le := Nat.le_trans h.frameCount_le h'.frameCount_le
  local?_eq_none hj hji hx := by
    have hjσ := Nat.lt_of_lt_of_le hj h.frameCount_le
    exact h'.local?_eq_none hjσ hji (h.local?_eq_none hj hji hx)

/-- Only the frames of a state matter to the names that are bound in it. -/
theorem GainsOnlyIn.of_frames_eq {σ τ : State} (h : τ.frames = σ.frames) : GainsOnlyIn i σ τ where
  frameCount_le := Nat.le_of_eq (congrArg Array.size h).symm
  local?_eq_none _ _ hx := by
    rw [local?, bindingsOf, h]
    exact hx

/-- A change of one frame adds no name to any other. -/
theorem GainsOnlyIn.modifyFrame (σ : State) (i : FrameId) (change : Bindings → Bindings) :
    GainsOnlyIn i σ (σ.modifyFrame i change) where
  frameCount_le := Nat.le_of_eq (σ.frameCount_modifyFrame i change).symm
  local?_eq_none _ hji hx := by
    rw [local?, bindingsOf_modifyFrame_of_ne σ change hji]
    exact hx

/-- Giving a bound name another value adds no name to any frame. -/
theorem GainsOnlyIn.assign {σ : State} {k : FrameId} {x : String} {v : Value}
    (hv : σ.local? k x = some v) (w : Value) : GainsOnlyIn i σ (σ.assign k x w) where
  frameCount_le := Nat.le_of_eq (σ.frameCount_modifyFrame k _).symm
  local?_eq_none {j} y _ _ hy := by
    rw [local?, State.assign, bindingsOf_modifyFrame σ k j _ (frameCount_of_local? hv)]
    split
    · next hjk =>
      subst hjk
      rw [Bindings.find?_assign]
      split
      · next hyx =>
        subst hyx
        rw [hv] at hy
        cases hy
      · exact hy
    · exact hy

/-- What is done in a new frame adds no name to the frames before. -/
theorem GainsOnlyIn.of_derive {σ τ : State} {k : FrameId} {b : Bindings}
    (h : GainsOnlyIn σ.frameCount (σ.derive k b) τ) : GainsOnlyIn i σ τ where
  frameCount_le := by
    refine Nat.le_trans ?_ h.frameCount_le
    rw [frameCount_derive]
    exact Nat.le_succ _
  local?_eq_none {j} x hj _ hx := by
    have hderive : (σ.derive k b).local? j x = none := by
      rw [local?_derive_of_lt hj]
      exact hx
    refine h.local?_eq_none ?_ (Nat.ne_of_lt hj) hderive
    rw [frameCount_derive]
    exact Nat.lt_succ_of_lt hj

/-- What an evaluation does in a frame adds names to no other. -/
theorem accumulates_gainsOnlyIn : Accumulates GainsOnlyIn where
  of_frames_eq := .of_frames_eq
  trans := .trans
  bind _ _ := .modifyFrame _ _ _
  assign hn _ := .assign hn _
  derive := .of_derive

end State

/-! ### Evaluations and calls -/

/-- An evaluation that ends, with a value or with an error, has added names to no frame that was
there before but its own, and a call that ends has added names to no such frame at all. -/
theorem definitions_stay_local (files : Files) (σ : State) :
    (∀ i e r, Evaluates files i e σ r → ∃ τ, r.state? = some τ ∧
        ∀ j x, j < σ.frameCount → j ≠ i → σ.local? j x = none → τ.local? j x = none) ∧
      ∀ v f args r, Value.callable? v = some f → Applies files f args σ r →
        ∃ τ, r.state? = some τ ∧
          ∀ j x, j < σ.frameCount → σ.local? j x = none → τ.local? j x = none := by
  have hgains := State.accumulates_gainsOnlyIn.hereditary
  constructor
  · rintro i e r ⟨hr, depth, rfl⟩
    cases hτ : (eval files depth i e σ).state? with
    | none => exact absurd (Outcome.eq_exhausted_of_state? hτ) hr
    | some τ =>
      have h := hgains.eval files depth i e σ τ hτ
      exact ⟨τ, rfl, fun j x hj hji hx => h.local?_eq_none hj hji hx⟩
  · rintro v f args r - ⟨hr, depth, rfl⟩
    cases hτ : (f.apply (eval files depth) args σ).state? with
    | none => exact absurd (Outcome.eq_exhausted_of_state? hτ) hr
    | some τ =>
      refine ⟨τ, rfl, fun j x hj hx => ?_⟩
      -- A call does the same in whichever frame it stands, so it may stand in any frame but `j`.
      have h := hgains.apply (i := j + 1) (hgains.eval files depth) f args σ τ hτ
      exact h.local?_eq_none hj (Nat.succ_ne_self j).symm hx

/-- A body that defines the name `z` twice, which fails. -/
def redefiningBody : Value :=
  .ofList [.ofList [.symbol "def", .symbol "z", .symbol "y"],
    .ofList [.symbol "def", .symbol "z", .symbol "y"]]

/-- The function with the parameter `y` and this body, made in the global frame. -/
def redefining : Value :=
  .closure .function "f" 0 (.ofList [.symbol "y"]) redefiningBody 0

/-- A global frame with the function `redefining`, and a frame inside it that binds the names
`inner`. Further frames may follow. -/
def nestedState (inner : Bindings) (further : List Frame) : State where
  frames := (⟨[("f", redefining), ("def", .specialForm .define),
    ("list", .primitive "list" .list)], []⟩ :: ⟨inner, [0]⟩ :: further).toArray
  closures := 1
  printed := ""

/-- Defines `a` and then calls `redefining`: `(list (def a 1) (f 5))`. -/
def defineThenCall : Value :=
  .ofList [.symbol "list", .ofList [.symbol "def", .symbol "a", .integer 1],
    .ofList [.symbol "f", .integer 5]]

/-- The frame that a call of `redefining` leaves behind. -/
def redefiningFrame : Frame :=
  ⟨[("z", .integer 5), ("y", .integer 5)], [0]⟩

/-- A run in the inner frame defines `a` there. The call in it defines `z` and fails, and neither
the global frame nor the inner one has gained `z`. -/
theorem definitions_stay_local_defineThenCall :
    let afterRun := nestedState [("a", .integer 1)] [redefiningFrame]
    let afterCall := nestedState [] [redefiningFrame]
    Evaluates .empty 1 defineThenCall (nestedState [] []) (.failed (.alreadyBound "z") afterRun) ∧
      afterRun.local? 0 "a" = none ∧
      Applies .empty (.closure "f" (.ofList [.symbol "y"]) redefiningBody 0)
        (.ofList [.integer { val := 5 }]) (nestedState [] [])
        (.failed (.alreadyBound "z") afterCall) ∧
      afterCall.local? 1 "z" = none := by
  intro afterRun afterCall
  have heval : Evaluates .empty 1 defineThenCall (nestedState [] [])
      (.failed (.alreadyBound "z") afterRun) := ⟨nofun, 4, rfl⟩
  have happly : Applies .empty (.closure "f" (.ofList [.symbol "y"]) redefiningBody 0)
      (.ofList [.integer { val := 5 }]) (nestedState [] [])
      (.failed (.alreadyBound "z") afterCall) := ⟨nofun, 2, rfl⟩
  obtain ⟨τ, hτ, hrun⟩ := (definitions_stay_local .empty (nestedState [] [])).1 1 _ _ heval
  obtain rfl := Option.some.inj hτ
  obtain ⟨υ, hυ, hcall⟩ :=
    (definitions_stay_local .empty (nestedState [] [])).2 redefining _ _ _ rfl happly
  obtain rfl := Option.some.inj hυ
  exact ⟨heval, hrun 0 "a" (by decide) (by decide) rfl, happly, hcall 1 "z" (by decide) rfl⟩

end ConsLisp
