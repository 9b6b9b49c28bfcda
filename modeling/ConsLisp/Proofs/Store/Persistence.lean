import ConsLisp.Proofs.Evaluation.Hereditary

/-!
# Bindings persist

A program can add frames and bindings, and it can count a binding up. It cannot do anything else to
the store: no frame goes away or moves, and no binding is removed or given another value. This holds
of an evaluation that fails as well, since an error keeps the state in which it was met.

## Main definitions

* `Value.GrowsTo`: what may become of the value of a binding.
* `State.PersistsIn`: a later state has all frames and bindings of an earlier one.
* `Action.Keeps`: an action that ends only in states in which the one before persists.

## Main results

* `Action.hereditary_keeps`: keeping the store is hereditary.
* `Evaluates.persistsIn`: what the store holds before an evaluation, it holds afterwards.
-/

namespace ConsLisp

/-- What may become of the value of a binding: an integer may have been counted up, and any other
value is the same. -/
inductive Value.GrowsTo : Value → Value → Prop
  | same (v : Value) : GrowsTo v v
  | counted {n m : Fixnum} (h : n.val ≤ m.val) : GrowsTo (.integer n) (.integer m)

theorem Value.GrowsTo.trans {u v w : Value} (huv : u.GrowsTo v) (hvw : v.GrowsTo w) :
    u.GrowsTo w := by
  cases huv with
  | same => exact hvw
  | counted huv =>
    cases hvw with
    | same => exact .counted huv
    | counted hvw => exact .counted (Int.le_trans huv hvw)

/-! ### States that hold what an earlier one holds -/

namespace State

/-- All frames and bindings of the state `σ` are still there in the state `τ`. -/
structure PersistsIn (σ τ : State) : Prop where
  /-- A frame stays, and so do the frames around it. -/
  frame {i : FrameId} {f : Frame} :
    σ.frames[i]? = some f → ∃ g, τ.frames[i]? = some g ∧ g.ancestors = f.ancestors
  /-- A name that a frame binds stays bound in that frame. -/
  binding {i : FrameId} {x : String} {v : Value} :
    σ.local? i x = some v → ∃ w, τ.local? i x = some w ∧ v.GrowsTo w

theorem PersistsIn.refl (σ : State) : σ.PersistsIn σ where
  frame hf := ⟨_, hf, rfl⟩
  binding hv := ⟨_, hv, .same _⟩

theorem PersistsIn.trans {ρ σ τ : State} (h : ρ.PersistsIn σ) (h' : σ.PersistsIn τ) :
    ρ.PersistsIn τ where
  frame hf := by
    obtain ⟨g, hg, hgf⟩ := h.frame hf
    obtain ⟨k, hk, hkg⟩ := h'.frame hg
    exact ⟨k, hk, hkg.trans hgf⟩
  binding hu := by
    obtain ⟨v, hv, huv⟩ := h.binding hu
    obtain ⟨w, hw, hvw⟩ := h'.binding hv
    exact ⟨w, hw, huv.trans hvw⟩

/-- Only an integer can get another value. -/
theorem PersistsIn.local?_eq {σ τ : State} (h : σ.PersistsIn τ) {i : FrameId} {x : String}
    {v : Value} (hv : σ.local? i x = some v) (htype : v.typeOf ≠ .integer) :
    τ.local? i x = some v := by
  obtain ⟨w, hw, hgrows⟩ := h.binding hv
  cases hgrows with
  | same => exact hw
  | counted => exact absurd rfl htype

theorem PersistsIn.chain_eq {σ τ : State} (h : σ.PersistsIn τ) {i : FrameId}
    (hi : i < σ.frameCount) : τ.chain i = σ.chain i := by
  have hf : σ.frames[i]? = some σ.frames[i] := Array.getElem?_eq_getElem hi
  obtain ⟨g, hg, hancestors⟩ := h.frame hf
  rw [chain, chain, hf, hg]
  exact congrArg _ hancestors

/-- Only the frames of a state matter to what persists in it. -/
theorem PersistsIn.of_frames_eq {σ τ : State} (h : τ.frames = σ.frames) : σ.PersistsIn τ where
  frame hf := ⟨_, h ▸ hf, rfl⟩
  binding hv := ⟨_, by rw [local?, bindingsOf, h]; exact hv, .same _⟩

/-- A change of one frame keeps the store when it keeps the bindings of that frame. -/
theorem PersistsIn.modifyFrame {σ : State} {i : FrameId} {change : Bindings → Bindings}
    (hi : i < σ.frameCount)
    (h : ∀ x v, σ.local? i x = some v →
      ∃ w, (change (σ.bindingsOf i)).find? x = some w ∧ v.GrowsTo w) :
    σ.PersistsIn (σ.modifyFrame i change) where
  frame {j} f hf := by
    by_cases hij : i = j
    · subst hij
      exact ⟨⟨change f.bindings, f.ancestors⟩,
        by simp [State.modifyFrame, Array.getElem?_modify, hf], rfl⟩
    · exact ⟨f, by simp [State.modifyFrame, Array.getElem?_modify, hij, hf], rfl⟩
  binding {j} x v hv := by
    rw [local?, bindingsOf_modifyFrame σ i j change hi]
    split
    · next hji => exact h x v (hji ▸ hv)
    · exact ⟨v, hv, .same v⟩

theorem PersistsIn.bind {σ : State} {i : FrameId} {x : String} (hx : σ.local? i x = none)
    (v : Value) : σ.PersistsIn (σ.bind i x v) := by
  by_cases hi : i < σ.frameCount
  · refine .modifyFrame hi fun y w hy => ⟨w, ?_, .same w⟩
    have hyx : y ≠ x := by
      rintro rfl
      rw [hx] at hy
      cases hy
    rw [Bindings.find?_cons, if_neg hyx]
    exact hy
  · rw [State.bind, modifyFrame_of_le (Nat.le_of_not_lt hi)]
    exact .refl σ

theorem PersistsIn.assign {σ : State} {i : FrameId} {x : String} {v w : Value}
    (hv : σ.local? i x = some v) (hvw : v.GrowsTo w) : σ.PersistsIn (σ.assign i x w) := by
  refine .modifyFrame (frameCount_of_local? hv) fun y u hy => ?_
  rw [Bindings.find?_assign]
  split
  · next hyx =>
    subst hyx
    obtain rfl : v = u := Option.some.inj (hv.symm.trans hy)
    rw [local?] at hv
    exact ⟨w, by rw [hv]; rfl, hvw⟩
  · exact ⟨u, hy, .same u⟩

theorem PersistsIn.derive (σ : State) (i : FrameId) (b : Bindings) :
    σ.PersistsIn (σ.derive i b) where
  frame {j} f hf := by
    have hj : j < σ.frames.size := (Array.getElem?_eq_some_iff.1 hf).1
    exact ⟨f, by simp [State.derive, Array.getElem?_push, Nat.ne_of_lt hj, hf], rfl⟩
  binding {j} x v hv := by
    refine ⟨v, ?_, .same v⟩
    rw [local?_derive_of_lt (frameCount_of_local? hv)]
    exact hv

/-- Persistence accumulates along an evaluation, whatever its frame. -/
theorem accumulates_persistsIn : Accumulates fun _ σ τ => σ.PersistsIn τ where
  of_frames_eq := .of_frames_eq
  trans := .trans
  bind v hx := .bind hx v
  assign hn hnm := .assign hn (.counted (by omega))
  derive h := (PersistsIn.derive _ _ _).trans h

end State

/-! ### Actions that keep the store -/

/-- An action keeps the store when, however it ends, the state before persists in the one after. -/
def Action.Keeps {α : Type} (m : Action α) : Prop :=
  ∀ σ τ, (m σ).state? = some τ → σ.PersistsIn τ

/-- Keeping the store is hereditary. -/
theorem Action.hereditary_keeps : Hereditary fun _ _ m => m.Keeps :=
  State.accumulates_persistsIn.hereditary

/-- An evaluation that ends, with a value or with an error, does so in a state that holds all frames
and bindings of the state before. -/
theorem Evaluates.persistsIn {files : Files} {i : FrameId} {e : Value} {σ : State}
    {r : Outcome Value} (h : Evaluates files i e σ r) :
    ∃ τ, r.state? = some τ ∧ σ.PersistsIn τ := by
  obtain ⟨hr, depth, rfl⟩ := h
  have hkeeps := Action.hereditary_keeps.eval files depth i e σ
  cases hτ : (ConsLisp.eval files depth i e σ).state? with
  | some τ => exact ⟨τ, rfl, hkeeps τ hτ⟩
  | none => exact absurd (Outcome.eq_exhausted_of_state? hτ) hr

/-- An evaluation that returns a value keeps the store. -/
theorem Evaluates.keeps {files : Files} {i : FrameId} {e v : Value} {σ τ : State}
    (h : Evaluates files i e σ (.done v τ)) : σ.PersistsIn τ := by
  obtain ⟨-, depth, h⟩ := h
  exact Action.hereditary_keeps.eval files depth i e σ τ (congrArg Outcome.state? h)

/-- A frame with the counter `n` and what it takes to count it up and to define a name. -/
def counterState (n : Fixnum) : State where
  frames := #[⟨[("n", .integer n), ("inc!", .specialForm .increment),
    ("def", .specialForm .define), ("list", .primitive "list" .list)], []⟩]
  closures := 0
  printed := ""

/-- Counts `n` up and then tries to define it anew: `(list (inc! n) (def n 0))`. -/
def countThenRedefine : Value :=
  .ofList [.symbol "list", .ofList [.symbol "inc!", .symbol "n"],
    .ofList [.symbol "def", .symbol "n", .integer 0]]

/-- A run that fails after it has counted up keeps the count. -/
theorem persistsIn_countThenRedefine :
    Evaluates .empty 0 countThenRedefine (counterState { val := 41 })
        (.failed (.alreadyBound "n") (counterState { val := 42 })) ∧
      (counterState { val := 41 }).PersistsIn (counterState { val := 42 }) := by
  have h : Evaluates .empty 0 countThenRedefine (counterState { val := 41 })
      (.failed (.alreadyBound "n") (counterState { val := 42 })) := ⟨nofun, 3, rfl⟩
  obtain ⟨τ, hτ, hστ⟩ := h.persistsIn
  obtain rfl := Option.some.inj hτ
  exact ⟨h, hστ⟩

end ConsLisp
