import ConsLisp.Proofs.Store.Changes
import ConsLisp.Proofs.Value.Relocation

/-!
# States with their frames in other places

A state is found in another one when each of its frames has a place of its own there, with the same
bindings and the same frames around it, up to places. The other state may have further frames. What
a program does to a frame can be done to the frame in its place as well, and a frame that is made in
both states gets a new place, behind all others.

## Main definitions

* `State.RelocatesTo`: a state is found in another one.

## Main results

* `State.RelocatesTo.resolve?`: names resolve to the same bindings.
* `State.RelocatesTo.bind`, `State.RelocatesTo.assign`, `State.RelocatesTo.derive`: changes of both
  states.
* `State.RelocatesTo.derive_right`: a further frame of the other state.
* `State.RelocatesTo.range`: a state that is found in another one is found in itself.
-/

namespace ConsLisp

variable {R S : Places} {σ σ' : State} {i i' : FrameId}

/-- The frame has the same bindings and the same frames around it, up to places. -/
structure Frame.RelocatesTo (R : Places) (f f' : Frame) : Prop where
  bindings : Bindings.RelocatesTo R f.bindings f'.bindings
  ancestors : List.Forall₂ (fun i i' => R[i]? = some i') f.ancestors f'.ancestors

theorem Frame.RelocatesTo.mono {f f' : Frame} (h : f.RelocatesTo R f') (hR : R <+: S) :
    f.RelocatesTo S f' where
  bindings := h.bindings.imp fun _ _ hp => ⟨hp.1, hp.2.mono hR⟩
  ancestors := h.ancestors.imp fun _ _ => Places.getElem?_of_prefix hR

/-- The frames of the first state are found in the second one, each in the place that `R` tells. The
states have made as many closures and printed the same. -/
structure State.RelocatesTo (R : Places) (σ σ' : State) : Prop where
  length_eq : R.length = σ.frameCount
  nodup : R.Nodup
  frame {i i' : FrameId} : R[i]? = some i' →
    ∃ f f', σ.frames[i]? = some f ∧ σ'.frames[i']? = some f' ∧ f.RelocatesTo R f'
  closures_eq : σ.closures = σ'.closures
  printed_eq : σ.printed = σ'.printed

/-- What is related to another list is related to itself. -/
theorem forall₂_self_of_forall₂ {α β : Type} {P : α → β → Prop} {Q : α → α → Prop} {l : List α}
    {l' : List β} (h : List.Forall₂ P l l') (hPQ : ∀ {a b}, P a b → Q a a) :
    List.Forall₂ Q l l := by
  induction h with
  | nil => exact .nil
  | cons hp _ ih => exact .cons (hPQ hp) ih

namespace State.RelocatesTo

variable (h : σ.RelocatesTo R σ')
include h

/-! ### Lookups -/

theorem bindingsOf (hi : R[i]? = some i') :
    Bindings.RelocatesTo R (σ.bindingsOf i) (σ'.bindingsOf i') := by
  obtain ⟨f, f', hf, hf', hrel⟩ := h.frame hi
  rw [State.bindingsOf, State.bindingsOf, hf, hf']
  exact hrel.bindings

theorem chain (hi : R[i]? = some i') :
    List.Forall₂ (fun j j' => R[j]? = some j') (σ.chain i) (σ'.chain i') := by
  obtain ⟨f, f', hf, hf', hrel⟩ := h.frame hi
  rw [State.chain, State.chain, hf, hf']
  exact .cons hi hrel.ancestors

theorem local? (hi : R[i]? = some i') (x : String) :
    Option.Rel (Value.RelocatesTo R) (σ.local? i x) (σ'.local? i' x) :=
  (h.bindingsOf hi).find? x

/-- A name resolves to the same binding. -/
theorem resolve? (hi : R[i]? = some i') (x : String) :
    Option.Rel (fun p p' => R[p.1]? = some p'.1 ∧ p.2.RelocatesTo R p'.2) (σ.resolve? i x)
      (σ'.resolve? i' x) := by
  have hchain := h.chain hi
  unfold State.resolve?
  generalize σ.chain i = chain at hchain
  generalize σ'.chain i' = chain' at hchain
  induction hchain with
  | nil => exact .none
  | cons hj _ ih =>
    have hlocal := h.local? hj x
    rw [List.findSome?_cons, List.findSome?_cons]
    generalize σ.local? _ x = v? at hlocal
    generalize σ'.local? _ x = v?' at hlocal
    cases hlocal with
    | none => exact ih
    | some hv => exact .some ⟨hj, hv⟩

theorem lookup? (hi : R[i]? = some i') (x : String) :
    Option.Rel (Value.RelocatesTo R) (σ.lookup? i x) (σ'.lookup? i' x) := by
  have hx := h.resolve? hi x
  unfold State.lookup?
  generalize σ.resolve? i x = p? at hx
  generalize σ'.resolve? i' x = p?' at hx
  cases hx with
  | none => exact .none
  | some hp => exact .some hp.2

/-- Values that are in place are bound to the same names. -/
theorem local?_eq {n : Nat} (hR : List.range n <+: R) (hi : i < n) {x : String} {v : Value}
    (hx : σ.local? i x = some v) (hv : v.IsWithin n) : σ'.local? i x = some v := by
  have hplaces := h.local? (Places.getElem?_of_prefix hR (List.getElem?_range hi)) x
  rw [hx] at hplaces
  generalize σ'.local? i x = w? at hplaces
  cases hplaces with
  | some hw => rw [hw.eq_of_isWithin hR hv]

/-! ### Changes -/

/-- The frames have the places of frames of the other state. -/
theorem lt_frameCount {i' : FrameId} (hi : i' ∈ R) : i' < σ'.frameCount := by
  obtain ⟨i, hi⟩ := List.mem_iff_getElem?.1 hi
  obtain ⟨-, f', -, hf', -⟩ := h.frame hi
  exact (Array.getElem?_eq_some_iff.1 hf').1

/-- Only frames of the state have a place in the other one. -/
theorem lt_of_getElem? (hi : R[i]? = some i') : i < σ.frameCount :=
  h.length_eq ▸ (List.getElem?_eq_some_iff.1 hi).1

/-- A change of one frame of the first state, and the same change of the frame in its place. -/
theorem modifyFrame (hi : R[i]? = some i') {change change' : Bindings → Bindings}
    (hchange : ∀ {b b'}, Bindings.RelocatesTo R b b' →
      Bindings.RelocatesTo R (change b) (change' b')) :
    (σ.modifyFrame i change).RelocatesTo R (σ'.modifyFrame i' change') where
  length_eq := by rw [h.length_eq, frameCount_modifyFrame]
  nodup := h.nodup
  frame {j j'} hj := by
    obtain ⟨f, f', hf, hf', hrel⟩ := h.frame hj
    have hplaces : i = j ↔ i' = j' := by
      constructor
      · rintro rfl
        exact Option.some.inj (hi.symm.trans hj)
      · rintro rfl
        exact (List.getElem?_inj (List.getElem?_eq_some_iff.1 hi).1 h.nodup).1 (hi.trans hj.symm)
    by_cases hij : i = j
    · refine ⟨⟨change f.bindings, f.ancestors⟩, ⟨change' f'.bindings, f'.ancestors⟩, ?_, ?_,
        hchange hrel.bindings, hrel.ancestors⟩
      · rw [getElem?_modifyFrame, if_pos hij, hf]
        rfl
      · rw [getElem?_modifyFrame, if_pos (hplaces.1 hij), hf']
        rfl
    · refine ⟨f, f', ?_, ?_, hrel⟩
      · rw [getElem?_modifyFrame, if_neg hij, hf]
      · rw [getElem?_modifyFrame, if_neg (mt hplaces.2 hij), hf']
  closures_eq := h.closures_eq
  printed_eq := h.printed_eq

theorem bind (hi : R[i]? = some i') (x : String) {v v' : Value} (hv : v.RelocatesTo R v') :
    (σ.bind i x v).RelocatesTo R (σ'.bind i' x v') :=
  h.modifyFrame hi fun hb => .cons ⟨rfl, hv⟩ hb

theorem assign (hi : R[i]? = some i') (x : String) {v v' : Value} (hv : v.RelocatesTo R v') :
    (σ.assign i x v).RelocatesTo R (σ'.assign i' x v') := by
  refine h.modifyFrame hi fun hb => ?_
  induction hb with
  | nil => exact .nil
  | @cons p p' _ _ hp _ ih =>
    refine .cons ?_ ih
    simp only [← hp.1]
    split
    · exact ⟨rfl, hv⟩
    · exact hp

/-- A frame that is made in both states. -/
theorem derive (hi : R[i]? = some i') {b b' : Bindings} (hb : Bindings.RelocatesTo R b b') :
    (σ.derive i b).RelocatesTo (R ++ [σ'.frameCount]) (σ'.derive i' b') where
  length_eq := by rw [List.length_append, h.length_eq, frameCount_derive]; rfl
  nodup := by
    refine List.nodup_append.2 ⟨h.nodup, by simp, fun j hj k hk => ?_⟩
    obtain rfl := List.mem_singleton.1 hk
    exact Nat.ne_of_lt (h.lt_frameCount hj)
  frame {j j'} hj := by
    have hR : R <+: R ++ [σ'.frameCount] := List.prefix_append _ _
    rcases Nat.lt_or_ge j R.length with hlt | hge
    · rw [List.getElem?_append_left hlt] at hj
      obtain ⟨f, f', hf, hf', hrel⟩ := h.frame hj
      exact ⟨f, f', getElem?_derive_of_eq_some hf i b, getElem?_derive_of_eq_some hf' i' b',
        hrel.mono hR⟩
    · rw [List.getElem?_append_right hge] at hj
      have hzero : j - R.length = 0 := by
        simpa using (List.getElem?_eq_some_iff.1 hj).1
      rw [hzero] at hj
      obtain rfl : σ'.frameCount = j' := Option.some.inj hj
      obtain rfl : j = σ.frameCount :=
        h.length_eq ▸ Nat.le_antisymm (Nat.sub_eq_zero_iff_le.1 hzero) hge
      refine ⟨⟨b, σ.chain i⟩, ⟨b', σ'.chain i'⟩, ?_, ?_, Frame.RelocatesTo.mono ⟨hb, h.chain hi⟩ hR⟩
      · rw [getElem?_derive, if_pos rfl]
      · rw [getElem?_derive, if_pos rfl]
  closures_eq := h.closures_eq
  printed_eq := h.printed_eq

/-- A frame that is made in the second state only. -/
theorem derive_right (i' : FrameId) (b' : Bindings) : σ.RelocatesTo R (σ'.derive i' b') where
  length_eq := h.length_eq
  nodup := h.nodup
  frame hj := by
    obtain ⟨f, f', hf, hf', hrel⟩ := h.frame hj
    exact ⟨f, f', hf, getElem?_derive_of_eq_some hf' i' b', hrel⟩
  closures_eq := h.closures_eq
  printed_eq := h.printed_eq

/-- Changes that do not concern frames. -/
theorem of_frames_eq {τ τ' : State} (hτ : τ.frames = σ.frames) (hτ' : τ'.frames = σ'.frames)
    (hclosures : τ.closures = τ'.closures) (hprinted : τ.printed = τ'.printed) :
    τ.RelocatesTo R τ' where
  length_eq := h.length_eq.trans (congrArg Array.size hτ).symm
  nodup := h.nodup
  frame hj := hτ ▸ hτ' ▸ h.frame hj
  closures_eq := hclosures
  printed_eq := hprinted

/-! ### States in place -/

/-- A state that is found in some other one is found in itself. -/
theorem range : σ.RelocatesTo (List.range σ.frameCount) σ where
  length_eq := List.length_range
  nodup := List.nodup_range
  frame {i i'} hi := by
    obtain ⟨hlt, rfl⟩ := List.getElem?_eq_some_iff.1 hi
    rw [List.length_range] at hlt
    obtain ⟨f, f', hf, -, hrel⟩ := h.frame (List.getElem?_eq_getElem (h.length_eq ▸ hlt))
    rw [List.getElem_range]
    refine ⟨f, f, hf, hf, ?_, ?_⟩
    · refine forall₂_self_of_forall₂ hrel.bindings fun hp => ⟨rfl, ?_⟩
      exact (h.length_eq ▸ hp.2.isWithin).relocatesTo_range
    · exact forall₂_self_of_forall₂ hrel.ancestors fun hj => List.getElem?_range (h.lt_of_getElem? hj)
  closures_eq := rfl
  printed_eq := rfl

end State.RelocatesTo

end ConsLisp
