import ConsLisp.Proofs.Session.GlobalNames
import ConsLisp.Proofs.Store.Locality
import ConsLisp.Proofs.Store.Persistence

/-!
# What calls leave as it is

A call defines names in frames of its own only. In the frames that were there before, it can count
integers up, and nothing else. So a name that stands for something else than an integer still stands
for it after the call, from wherever it is looked up, and a global name is not hidden by a nearer
one.

## Main definitions

* `State.GainsNoNames`: a later state holds all that an earlier one holds, and no further names in
  the frames of that one.

## Main results

* `Applies.gainsNoNames`: what a call does.
* `State.GainsNoNames.lookup?_eq`, `State.GainsNoNames.seesGlobal`: what names stand for afterwards.
-/

namespace ConsLisp

variable {files : Files} {ρ σ τ : State} {i j : FrameId} {x : String}

/-- The state `τ` has all frames and bindings of the state `σ`, and the frames of `σ` bind no
further names in it. -/
structure State.GainsNoNames (σ τ : State) : Prop extends σ.PersistsIn τ where
  frameCount_le : σ.frameCount ≤ τ.frameCount
  local?_eq_none {j : FrameId} {x : String} :
    j < σ.frameCount → σ.local? j x = none → τ.local? j x = none

/-- However a call ends, it has done no more than this. -/
theorem Applies.gainsNoNames {f : Callable} {args : Value} {r : Outcome Value}
    (h : Applies files f args σ r) (hτ : r.state? = some τ) : σ.GainsNoNames τ := by
  obtain ⟨-, depth, rfl⟩ := h
  have hkeeps := Action.hereditary_keeps
  have hgains := State.accumulates_gainsOnlyIn.hereditary
  have hpersists : σ.PersistsIn τ :=
    hkeeps.apply (i := globalFrame) (hkeeps.eval files depth) f args σ τ hτ
  -- A call does the same in whichever frame it stands, so it may stand in any frame but `j`.
  have hnames (j : FrameId) : State.GainsOnlyIn (j + 1) σ τ :=
    hgains.apply (i := j + 1) (hgains.eval files depth) f args σ τ hτ
  exact ⟨hpersists, (hnames globalFrame).frameCount_le,
    fun {j} {_} hj hx => (hnames j).local?_eq_none hj (Nat.succ_ne_self j).symm hx⟩

namespace State.GainsNoNames

theorem refl (σ : State) : σ.GainsNoNames σ :=
  ⟨.refl σ, Nat.le_refl _, fun _ hx => hx⟩

theorem trans (h : ρ.GainsNoNames σ) (h' : σ.GainsNoNames τ) : ρ.GainsNoNames τ :=
  ⟨h.toPersistsIn.trans h'.toPersistsIn, Nat.le_trans h.frameCount_le h'.frameCount_le,
    fun hj hx => h'.local?_eq_none (Nat.lt_of_lt_of_le hj h.frameCount_le) (h.local?_eq_none hj hx)⟩

theorem derive (σ : State) (i : FrameId) (b : Bindings) : σ.GainsNoNames (σ.derive i b) where
  toPersistsIn := .derive σ i b
  frameCount_le := by
    rw [frameCount_derive]
    exact Nat.le_succ _
  local?_eq_none hj hx := by rw [local?_derive_of_lt hj, hx]

variable (h : σ.GainsNoNames τ)
include h

/-- From a frame whose chain is there, a name stands for the same as before, unless this is an
integer. -/
theorem lookup?_eq (hchain : ∀ k ∈ σ.chain i, k < σ.frameCount) (hi : i < σ.frameCount) {v : Value}
    (hv : σ.lookup? i x = some v) (htype : v.typeOf ≠ .integer) : τ.lookup? i x = some v := by
  obtain ⟨⟨k, w⟩, hresolve, rfl⟩ := Option.map_eq_some_iff.1 hv
  refine Option.map_eq_some_iff.2 ⟨(k, w), ?_, rfl⟩
  unfold resolve? at hresolve ⊢
  rw [h.chain_eq hi]
  generalize σ.chain i = chain at hchain hresolve
  induction chain with
  | nil => cases hresolve
  | cons j chain ih =>
    obtain ⟨hj, hchain⟩ := List.forall_mem_cons.1 hchain
    rw [List.findSome?_cons] at hresolve ⊢
    cases hlocal : σ.local? j x with
    | none =>
      rw [hlocal] at hresolve
      rw [h.local?_eq_none hj hlocal]
      exact ih hchain hresolve
    | some u =>
      rw [hlocal] at hresolve
      cases hresolve
      rw [h.local?_eq hlocal htype]
      rfl

theorem seesGlobal (hx : σ.SeesGlobal i x) (hi : i < σ.frameCount) : τ.SeesGlobal i x := by
  have hchain := h.chain_eq hi
  refine ⟨hchain ▸ hx.mem_chain, fun hk => ?_, fun hk hne => ?_⟩ <;> rw [hchain] at hk
  · exact Nat.lt_of_lt_of_le (hx.lt_frameCount hk) h.frameCount_le
  · exact h.local?_eq_none (hx.lt_frameCount hk) (hx.local?_eq_none hk hne)

end State.GainsNoNames

end ConsLisp
