import ConsLisp.Store.Basic

/-!
# Changes of the store

How the changes of the store go together: changes of one frame compose, changes of different
bindings can be made in either order, and each change says what becomes of the value that every
frame gives to every name.

## Main results

* `State.modifyFrame_comm`, `State.modifyFrame_modifyFrame`: two changes of bindings.
* `State.unbind_bind`, `State.unbind_assign`, `State.unbind_derive`: removing a name commutes with
  changes that do not concern it.
* `State.unbind_bind_self`: a name that is bound where it was not and then removed.
* `State.local?_bind`, `State.local?_unbind`, `State.local?_assign`, `State.resolve?_unbind`: the
  values of names afterwards.
* `State.resolve?_eq_some_iff`, `State.resolve?_derive`: the nearest binding of a name, and the one
  seen from a new frame.
-/

namespace ConsLisp

/-! ### Bindings of one frame -/

namespace Bindings

theorem erase_cons_of_ne {p : String × Value} {x : String} (h : p.1 ≠ x) (b : Bindings) :
    erase (p :: b) x = p :: b.erase x :=
  List.filter_cons_of_pos (by simpa using h)

theorem erase_assign (b : Bindings) (x y : String) (v : Value) :
    (b.assign y v).erase x = (b.erase x).assign y v := by
  rw [erase, assign, erase, assign, List.filter_map]
  refine congrArg (List.map _) (List.filter_congr fun p _ => ?_)
  simp only [Function.comp]
  split
  · next hp => rw [hp]
  · rfl

theorem erase_of_find?_eq_none {b : Bindings} {x : String} (h : b.find? x = none) :
    b.erase x = b := by
  induction b with
  | nil => rfl
  | cons p b ih =>
    rw [find?_cons] at h
    split at h
    · cases h
    · next hx => rw [erase_cons_of_ne (Ne.symm hx), ih h]

end Bindings

namespace State

variable {σ : State} {i k : FrameId} {x y : String} {v : Value}

/-! ### Changes of one frame -/

/-- States are the same if they have the same frames and agree in everything else. -/
theorem ext_getElem? {τ : State} (hframes : ∀ j : FrameId, σ.frames[j]? = τ.frames[j]?)
    (hclosures : σ.closures = τ.closures) (hprinted : σ.printed = τ.printed) : σ = τ := by
  obtain ⟨frames, closures, printed⟩ := σ
  obtain ⟨frames', closures', printed'⟩ := τ
  obtain rfl : closures = closures' := hclosures
  obtain rfl : printed = printed' := hprinted
  obtain rfl : frames = frames' := Array.ext_getElem? hframes
  rfl

theorem getElem?_modifyFrame (σ : State) (i : FrameId) (change : Bindings → Bindings) (j : FrameId) :
    (σ.modifyFrame i change).frames[j]? =
      if i = j then (σ.frames[j]?).map fun f => { f with bindings := change f.bindings }
      else σ.frames[j]? :=
  Array.getElem?_modify

theorem getElem?_derive (σ : State) (i : FrameId) (b : Bindings) (j : FrameId) :
    (σ.derive i b).frames[j]? =
      if j = σ.frameCount then some ⟨b, σ.chain i⟩ else σ.frames[j]? :=
  Array.getElem?_push

theorem getElem?_derive_of_eq_some {j : FrameId} {f : Frame} (hf : σ.frames[j]? = some f)
    (i : FrameId) (b : Bindings) : (σ.derive i b).frames[j]? = some f := by
  have hj : j < σ.frameCount := (Array.getElem?_eq_some_iff.1 hf).1
  rw [getElem?_derive, if_neg (Nat.ne_of_lt hj), hf]

/-- Changes that commute on bindings commute on the store, in one frame or in two. -/
theorem modifyFrame_comm {f g : Bindings → Bindings} (h : ∀ b, f (g b) = g (f b)) (σ : State)
    (i k : FrameId) : (σ.modifyFrame i g).modifyFrame k f = (σ.modifyFrame k f).modifyFrame i g := by
  refine ext_getElem? (fun j => ?_) rfl rfl
  simp only [getElem?_modifyFrame]
  by_cases hi : i = j <;> by_cases hk : k = j <;> simp [hi, hk, Function.comp_def, h]

theorem modifyFrame_modifyFrame (σ : State) (i : FrameId) (f g : Bindings → Bindings) :
    (σ.modifyFrame i g).modifyFrame i f = σ.modifyFrame i fun b => f (g b) := by
  refine ext_getElem? (fun j => ?_) rfl rfl
  simp only [getElem?_modifyFrame]
  by_cases hi : i = j <;> simp [hi, Function.comp_def]

theorem modifyFrame_eq_self {change : Bindings → Bindings}
    (h : change (σ.bindingsOf k) = σ.bindingsOf k) : σ.modifyFrame k change = σ := by
  refine ext_getElem? (fun j => ?_) rfl rfl
  rw [getElem?_modifyFrame]
  split
  · next hk =>
    subst hk
    rw [bindingsOf] at h
    cases hf : σ.frames[k]? with
    | none => rfl
    | some f =>
      simp only [hf] at h
      simp [h]
  · rfl

/-! ### Removing a name and other changes -/

theorem unbind_bind (hyx : y ≠ x) (σ : State) (i k : FrameId) (v : Value) :
    (σ.bind i y v).unbind k x = (σ.unbind k x).bind i y v :=
  modifyFrame_comm (fun b => b.erase_cons_of_ne hyx) σ i k

theorem unbind_assign (σ : State) (i k : FrameId) (x y : String) (v : Value) :
    (σ.assign i y v).unbind k x = (σ.unbind k x).assign i y v :=
  modifyFrame_comm (fun b => b.erase_assign x y v) σ i k

/-- The new frame is none of those that a name can be removed from. -/
theorem unbind_derive (hk : k < σ.frameCount) (i : FrameId) (b : Bindings) (x : String) :
    (σ.derive i b).unbind k x = (σ.unbind k x).derive i b := by
  refine ext_getElem? (fun j => ?_) rfl rfl
  have hsize : (σ.unbind k x).frames.size = σ.frames.size := Array.size_modify
  rw [unbind, getElem?_modifyFrame, derive, derive, Array.getElem?_push, Array.getElem?_push, hsize,
    unbind, chain_modifyFrame, getElem?_modifyFrame]
  by_cases hj : j = σ.frames.size
  · rw [if_pos hj, if_pos hj, if_neg (hj ▸ Nat.ne_of_lt hk)]
  · rw [if_neg hj, if_neg hj]

/-- A name that a frame does not bind can be bound there and removed again. -/
theorem unbind_bind_self (hx : σ.local? k x = none) (w : Value) : (σ.bind k x w).unbind k x = σ := by
  have herase : Bindings.erase ((x, w) :: σ.bindingsOf k) x = σ.bindingsOf k :=
    (List.filter_cons_of_neg (by simp)).trans (Bindings.erase_of_find?_eq_none hx)
  rw [unbind, bind, modifyFrame_modifyFrame]
  exact modifyFrame_eq_self herase

/-- Where a frame does not bind a name, there is nothing to remove. -/
theorem unbind_of_local?_eq_none (hx : σ.local? k x = none) : σ.unbind k x = σ :=
  modifyFrame_eq_self (Bindings.erase_of_find?_eq_none hx)

/-! ### The values of names afterwards -/

theorem local?_bind (hi : i < σ.frameCount) (j : FrameId) :
    (σ.bind i x v).local? j y = if j = i ∧ y = x then some v else σ.local? j y := by
  rw [local?, bind, bindingsOf_modifyFrame σ i j _ hi]
  by_cases hj : j = i
  · rw [if_pos hj, Bindings.find?_cons, hj]
    simp [local?]
  · simp [hj, local?]

theorem local?_unbind (hk : k < σ.frameCount) (j : FrameId) :
    (σ.unbind k x).local? j y = if j = k ∧ y = x then none else σ.local? j y := by
  rw [local?, unbind, bindingsOf_modifyFrame σ k j _ hk]
  by_cases hj : j = k
  · rw [if_pos hj, Bindings.find?_erase, hj]
    simp [local?]
  · simp [hj, local?]

theorem local?_assign (hi : i < σ.frameCount) (j : FrameId) :
    (σ.assign i x v).local? j y =
      if j = i ∧ y = x then (σ.local? i x).map fun _ => v else σ.local? j y := by
  rw [local?, assign, bindingsOf_modifyFrame σ i j _ hi]
  by_cases hj : j = i
  · rw [if_pos hj, Bindings.find?_assign, hj]
    simp [local?]
  · simp [hj, local?]

theorem local?_derive (σ : State) (i j : FrameId) (b : Bindings) (x : String) :
    (σ.derive i b).local? j x = if j = σ.frameCount then b.find? x else σ.local? j x := by
  rw [local?, bindingsOf_derive]
  split <;> rfl

/-- A name that the new frame does not bind has the values that it had before. -/
theorem local?_derive_of_find?_eq_none {b : Bindings} (hx : b.find? x = none) (j : FrameId) :
    (σ.derive i b).local? j x = σ.local? j x := by
  rw [local?_derive]
  split
  · next hj =>
    cases hv : σ.local? j x with
    | none => exact hx
    | some v => exact absurd (frameCount_of_local? hv) (hj ▸ Nat.lt_irrefl _)
  · rfl

/-- The new frame has its chain from the frame it is made in; the other chains stay. -/
theorem chain_derive (σ : State) (i j : FrameId) (b : Bindings) :
    (σ.derive i b).chain j = if j = σ.frameCount then j :: σ.chain i else σ.chain j := by
  unfold derive frameCount
  by_cases hj : j = σ.frames.size
  · simp [chain, hj]
  · simp [chain, Array.getElem?_push, hj]

/-- A name resolves to the nearest frame on the chain that binds it. -/
theorem resolve?_eq_some_iff {j : FrameId} :
    σ.resolve? i x = some (j, v) ↔
      (σ.chain i).find? (fun k => (σ.local? k x).isSome) = some j ∧ σ.local? j x = some v := by
  unfold resolve?
  induction σ.chain i with
  | nil => simp
  | cons k frames ih =>
    cases hk : σ.local? k x with
    | none => simp [hk, ih]
    | some w =>
      have hjk : (k = j ∧ w = v) ↔ k = j ∧ σ.local? j x = some v := by
        refine and_congr_right ?_
        rintro rfl
        rw [hk, Option.some.injEq]
      simp [hk, hjk]

/-- A name that a frame binds itself resolves to that frame. -/
theorem resolve?_of_local? (hx : σ.local? i x = some v) : σ.resolve? i x = some (i, v) := by
  have hi : i < σ.frames.size := frameCount_of_local? hx
  rw [resolve?, chain, Array.getElem?_eq_getElem hi, List.findSome?_cons, hx]
  rfl

theorem resolve?_eq_none_iff :
    σ.resolve? i x = none ↔ ∀ j ∈ σ.chain i, σ.local? j x = none := by
  simp [resolve?, List.findSome?_eq_none_iff]

/-- A name that the new frame does not bind is the same there as in the frame that it is made in. -/
theorem resolve?_derive (σ : State) (i : FrameId) (b : Bindings) (x : String) :
    (σ.derive i b).resolve? σ.frameCount x =
      ((b.find? x).map fun v => (σ.frameCount, v)).or (σ.resolve? i x) := by
  rw [resolve?, chain_derive, if_pos rfl, List.findSome?_cons, local?_derive, if_pos rfl]
  cases hx : b.find? x with
  | some v => rfl
  | none =>
    simp only [local?_derive_of_find?_eq_none hx]
    rfl

theorem lookup?_derive_of_find?_eq_none {b : Bindings} (hx : b.find? x = none) (i : FrameId) :
    (σ.derive i b).lookup? σ.frameCount x = σ.lookup? i x := by
  rw [lookup?, resolve?_derive, hx]
  rfl

/-- From a frame that was there before, a name that the new frame does not bind stands for the
same. -/
theorem lookup?_derive_of_lt {b : Bindings} (hx : b.find? x = none) (k : FrameId)
    (hi : i < σ.frameCount) : (σ.derive k b).lookup? i x = σ.lookup? i x := by
  unfold lookup? resolve?
  rw [chain_derive, if_neg (Nat.ne_of_lt hi)]
  simp only [local?_derive_of_find?_eq_none hx]

theorem resolve?_unbind (hk : k < σ.frameCount) (hyx : y ≠ x) (i : FrameId) :
    (σ.unbind k x).resolve? i y = σ.resolve? i y := by
  unfold resolve?
  rw [unbind, chain_modifyFrame]
  refine congrArg (fun f => (σ.chain i).findSome? f) (funext fun j => ?_)
  rw [← unbind, local?_unbind hk, if_neg fun h => hyx h.2]

/-- A change of one frame that leaves the value of a name there as it is does so everywhere. -/
theorem local?_modifyFrame {change : Bindings → Bindings} (h : ∀ b, (change b).find? x = b.find? x)
    (i k : FrameId) : (σ.modifyFrame i change).local? k x = σ.local? k x := by
  by_cases hi : i < σ.frameCount
  · rw [local?, bindingsOf_modifyFrame σ i k change hi]
    split
    · next hki => rw [h, hki, local?]
    · rfl
  · rw [modifyFrame_of_le (Nat.le_of_not_lt hi)]

end State

end ConsLisp
