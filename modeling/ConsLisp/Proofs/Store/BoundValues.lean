import ConsLisp.Store.Basic

/-!
# What the values of all bindings have in common

A property that the values of all bindings of a store have is kept by every change of the store that
binds only values with the property.

## Main definitions

* `State.BindsOnly`: the values of all bindings have a property.

## Main results

* `State.BindsOnly.bind`, `State.BindsOnly.assign`, `State.BindsOnly.derive`: changes of the store.
-/

namespace ConsLisp.State

variable {P : Value → Prop} {σ : State}

/-- Every value that is bound in some frame has the property. -/
def BindsOnly (P : Value → Prop) (σ : State) : Prop :=
  ∀ i x v, σ.local? i x = some v → P v

namespace BindsOnly

theorem of_frames_eq (h : σ.BindsOnly P) {τ : State} (hτ : τ.frames = σ.frames) :
    τ.BindsOnly P := by
  intro i x v hv
  rw [local?, bindingsOf, hτ] at hv
  exact h i x v hv

/-- A change of one frame keeps the property if what is bound after it has it. -/
theorem modifyFrame (h : σ.BindsOnly P) {i : FrameId} {change : Bindings → Bindings}
    (hchange : ∀ x v, (change (σ.bindingsOf i)).find? x = some v → P v) :
    (σ.modifyFrame i change).BindsOnly P := by
  by_cases hi : i < σ.frameCount
  · intro j x v hv
    rw [local?, bindingsOf_modifyFrame σ i j change hi] at hv
    split at hv
    · exact hchange x v hv
    · exact h j x v hv
  · rw [modifyFrame_of_le (Nat.le_of_not_lt hi)]
    exact h

theorem bind (h : σ.BindsOnly P) (i : FrameId) (x : String) {v : Value} (hv : P v) :
    (σ.bind i x v).BindsOnly P := by
  refine h.modifyFrame fun y w hw => ?_
  rw [Bindings.find?_cons] at hw
  split at hw
  · cases hw
    exact hv
  · exact h i y w hw

theorem assign (h : σ.BindsOnly P) (i : FrameId) (x : String) {v : Value} (hv : P v) :
    (σ.assign i x v).BindsOnly P := by
  refine h.modifyFrame fun y w hw => ?_
  rw [Bindings.find?_assign] at hw
  split at hw
  · obtain ⟨-, -, rfl⟩ := Option.map_eq_some_iff.1 hw
    exact hv
  · exact h i y w hw

theorem derive (h : σ.BindsOnly P) (i : FrameId) {b : Bindings} (hb : ∀ p ∈ b, P p.2) :
    (σ.derive i b).BindsOnly P := by
  intro j x v hv
  rw [local?, bindingsOf_derive] at hv
  split at hv
  · exact hb _ (Bindings.mem_of_find? hv)
  · exact h j x v hv

end BindsOnly

end ConsLisp.State
