import ConsLisp.Proofs.Session.Reachable
import ConsLisp.Proofs.Store.Changes

/-!
# Global names

In every state of a session the global frame binds the special forms to their names, and a frame
sees them there unless a frame in between binds the same name. This module says which changes of the
store leave that as it is.

## Main definitions

* `State.ChangesOnly`, `State.ChangesNothing`: where bindings may have changed between two states.
* `State.SeesGlobal`: a name stands for what the global frame binds it to.
* `State.OffersForms`: the special forms have their names.

## Main results

* `State.SeesGlobal.lookup?_eq`: the value of a global name.
* `Reachable.offersForms`: in a reachable state the special forms have their names.
-/

namespace ConsLisp

/-! ### Where bindings change -/

namespace State

/-- All frames are still there and stand where they stood, and no name has changed in any of them
but those for which `p` holds. -/
structure ChangesOnly (p : FrameId → String → Prop) (σ τ : State) : Prop where
  frameCount_le : σ.frameCount ≤ τ.frameCount
  chain_eq {j : FrameId} : j < σ.frameCount → τ.chain j = σ.chain j
  local?_eq {j : FrameId} {x : String} :
    j < σ.frameCount → ¬p j x → τ.local? j x = σ.local? j x

/-- No name has changed in any frame. There may be new frames. -/
abbrev ChangesNothing (σ τ : State) : Prop :=
  σ.ChangesOnly (fun _ _ => False) τ

namespace ChangesOnly

variable {p q : FrameId → String → Prop} {σ τ υ : State}

theorem of_frames_eq (h : τ.frames = σ.frames) : σ.ChangesOnly p τ where
  frameCount_le := Nat.le_of_eq (congrArg Array.size h).symm
  chain_eq _ := by rw [chain, chain, h]
  local?_eq _ _ := by rw [local?, local?, bindingsOf, bindingsOf, h]

theorem mono (h : σ.ChangesOnly p τ) (hpq : ∀ j x, p j x → q j x) : σ.ChangesOnly q τ where
  frameCount_le := h.frameCount_le
  chain_eq := h.chain_eq
  local?_eq hj hx := h.local?_eq hj fun hp => hx (hpq _ _ hp)

theorem trans (h : σ.ChangesOnly p τ) (h' : τ.ChangesOnly p υ) : σ.ChangesOnly p υ where
  frameCount_le := Nat.le_trans h.frameCount_le h'.frameCount_le
  chain_eq hj := (h'.chain_eq (Nat.lt_of_lt_of_le hj h.frameCount_le)).trans (h.chain_eq hj)
  local?_eq hj hx :=
    (h'.local?_eq (Nat.lt_of_lt_of_le hj h.frameCount_le) hx).trans (h.local?_eq hj hx)

theorem derive (σ : State) (i : FrameId) (b : Bindings) : σ.ChangesOnly p (σ.derive i b) where
  frameCount_le := σ.frameCount_derive i b ▸ Nat.le_succ _
  chain_eq hj := by rw [chain_derive, if_neg (Nat.ne_of_lt hj)]
  local?_eq hj _ := local?_derive_of_lt hj i b _

theorem bind {i : FrameId} (hi : i < σ.frameCount) (x : String) (v : Value) :
    σ.ChangesOnly (fun j y => j = i ∧ y = x) (σ.bind i x v) where
  frameCount_le := Nat.le_of_eq (σ.frameCount_modifyFrame i _).symm
  chain_eq _ := σ.chain_modifyFrame i _ _
  local?_eq _ hx := by rw [local?_bind hi, if_neg hx]

theorem assign {i : FrameId} {x : String} (hi : i < σ.frameCount) (v : Value) :
    σ.ChangesOnly (fun j y => j = i ∧ y = x) (σ.assign i x v) where
  frameCount_le := Nat.le_of_eq (σ.frameCount_modifyFrame i _).symm
  chain_eq _ := σ.chain_modifyFrame i _ _
  local?_eq _ hx := by rw [local?_assign hi, if_neg hx]

end ChangesOnly

/-! ### Global names -/

/-- The name `x`, seen from a frame, is the global name: no frame in between binds it. -/
structure SeesGlobal (σ : State) (i : FrameId) (x : String) : Prop where
  mem_chain : globalFrame ∈ σ.chain i
  lt_frameCount {k : FrameId} : k ∈ σ.chain i → k < σ.frameCount
  local?_eq_none {k : FrameId} : k ∈ σ.chain i → k ≠ globalFrame → σ.local? k x = none

/-- The global frame is outermost, and it binds the special forms to their names. -/
structure OffersForms (σ : State) : Prop where
  chain_eq : σ.chain globalFrame = [globalFrame]
  form (form : SpecialForm) : σ.local? globalFrame form.name = some (.specialForm form)

variable {σ τ : State} {p : FrameId → String → Prop} {i : FrameId} {x : String}

theorem OffersForms.frameCount_pos (hσ : σ.OffersForms) : globalFrame < σ.frameCount :=
  frameCount_of_local? (hσ.form .lambda)

theorem OffersForms.of_changesOnly (hσ : σ.OffersForms) (h : σ.ChangesOnly p τ)
    (hp : ∀ form : SpecialForm, ¬p globalFrame form.name) : τ.OffersForms where
  chain_eq := (h.chain_eq hσ.frameCount_pos).trans hσ.chain_eq
  form form := (h.local?_eq hσ.frameCount_pos (hp form)).trans (hσ.form form)

theorem OffersForms.seesGlobal (hσ : σ.OffersForms) (x : String) : σ.SeesGlobal globalFrame x where
  mem_chain := hσ.chain_eq ▸ List.mem_cons_self
  lt_frameCount hk := by
    rw [hσ.chain_eq, List.mem_singleton] at hk
    exact hk ▸ hσ.frameCount_pos
  local?_eq_none hk hne := by
    rw [hσ.chain_eq, List.mem_singleton] at hk
    exact absurd hk hne

namespace SeesGlobal

theorem lookup?_eq (h : σ.SeesGlobal i x) {v : Value} (hv : σ.local? globalFrame x = some v) :
    σ.lookup? i x = some v := by
  have hfind : (σ.chain i).find? (fun k => (σ.local? k x).isSome) = some globalFrame := by
    cases hfind : (σ.chain i).find? fun k => (σ.local? k x).isSome with
    | none =>
      have hnone := List.find?_eq_none.1 hfind globalFrame h.mem_chain
      simp [hv] at hnone
    | some k =>
      by_cases hk : k = globalFrame
      · rw [hk]
      · have hsome : (σ.local? k x).isSome := by simpa using List.find?_some hfind
        rw [h.local?_eq_none (List.mem_of_find?_eq_some hfind) hk] at hsome
        cases hsome
  rw [lookup?, resolve?_eq_some_iff.2 ⟨hfind, hv⟩]
  rfl

/-- The name `x` stays the global one as long as it changes in the global frame only. -/
theorem of_changesOnly (h : σ.SeesGlobal i x) (hi : i < σ.frameCount) (hστ : σ.ChangesOnly p τ)
    (hp : ∀ k, k ≠ globalFrame → ¬p k x) : τ.SeesGlobal i x := by
  have hchain := hστ.chain_eq hi
  refine ⟨hchain ▸ h.mem_chain, fun hk => ?_, fun hk hne => ?_⟩ <;> rw [hchain] at hk
  · exact Nat.lt_of_lt_of_le (h.lt_frameCount hk) hστ.frameCount_le
  · rw [hστ.local?_eq (h.lt_frameCount hk) (hp _ hne)]
    exact h.local?_eq_none hk hne

/-- A new frame that does not bind the name `x` sees the global one, if the frame around it does. -/
theorem derive (h : σ.SeesGlobal i x) {b : Bindings} (hx : b.find? x = none) :
    (σ.derive i b).SeesGlobal σ.frameCount x := by
  have hchain : (σ.derive i b).chain σ.frameCount = σ.frameCount :: σ.chain i := by
    rw [chain_derive, if_pos rfl]
  refine ⟨hchain ▸ List.mem_cons_of_mem _ h.mem_chain, fun hk => ?_, fun hk hne => ?_⟩ <;>
    rw [hchain, List.mem_cons] at hk
  · rw [frameCount_derive]
    rcases hk with rfl | hk
    · exact Nat.lt_succ_self _
    · exact Nat.lt_succ_of_lt (h.lt_frameCount hk)
  · rw [local?_derive]
    rcases hk with rfl | hk
    · rw [if_pos rfl, hx]
    · rw [if_neg (Nat.ne_of_lt (h.lt_frameCount hk))]
      exact h.local?_eq_none hk hne

end SeesGlobal

end State

/-- In a reachable state the special forms have their names. -/
theorem Reachable.offersForms {prelude : String} {σ : State} (h : Reachable prelude σ) :
    σ.OffersForms where
  chain_eq := by
    obtain ⟨g, hg, hancestors⟩ := h.initial_persists.frame (i := globalFrame) rfl
    rw [State.chain, hg]
    exact congrArg _ hancestors
  form form := by
    have hinitial : State.initial.local? globalFrame form.name = some (.specialForm form) := by
      cases form <;> rfl
    obtain ⟨v, hv, hgrows⟩ := h.initial_persists.binding hinitial
    cases hgrows
    exact hv

end ConsLisp
