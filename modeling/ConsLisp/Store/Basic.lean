import ConsLisp.Store.Bindings

/-!
# The state of a program

A program runs against a store of binding frames. Every frame but a root has a parent; it keeps the
list of all the frames around it, nearest first, so that the chain on which a name is looked up is
at hand. Frames are never removed, and the frames around a frame never change.

## Main definitions

* `Frame`: the bindings of a frame and the frames around it.
* `State`: the frames, the number of closures made so far, and the text printed so far.
* `State.chain`: a frame followed by the frames around it.
* `State.resolve?`, `State.lookup?`: the nearest binding of a name, and its value.
* `State.bind`, `State.unbind`, `State.assign`: changes of one binding in one frame.
* `State.derive`: a new frame inside a given one.

## Main results

* `State.bindingsOf_modifyFrame`, `State.bindingsOf_derive`: what a change does to the bindings of
  every frame.
* `State.chain_modifyFrame`: changing bindings moves no frame.
* `State.frameCount_modifyFrame`, `State.frameCount_derive`: only a derived frame is new.
-/

namespace ConsLisp

/-- A binding frame. -/
structure Frame where
  bindings : Bindings
  /-- The frames around this one, nearest first. -/
  ancestors : List FrameId
deriving Inhabited

/-- The state of a program. -/
structure State where
  frames : Array Frame
  /-- The number of closures made so far, which is the identity of the next one. -/
  closures : Nat
  /-- The text printed so far. -/
  printed : String
deriving Inhabited

namespace State

/-- A frame followed by the frames around it, nearest first. -/
def chain (σ : State) (i : FrameId) : List FrameId :=
  match σ.frames[i]? with
  | some frame => i :: frame.ancestors
  | none => []

/-- The bindings of a frame. -/
def bindingsOf (σ : State) (i : FrameId) : Bindings :=
  match σ.frames[i]? with
  | some frame => frame.bindings
  | none => []

/-- The value that a frame itself gives to a name. -/
def local? (σ : State) (i : FrameId) (x : String) : Option Value :=
  (σ.bindingsOf i).find? x

/-- The nearest frame on the chain of a frame that binds a name, and the value it gives. -/
def resolve? (σ : State) (i : FrameId) (x : String) : Option (FrameId × Value) :=
  (σ.chain i).findSome? fun j => (σ.local? j x).map fun v => (j, v)

/-- The value of a name as seen from a frame. -/
def lookup? (σ : State) (i : FrameId) (x : String) : Option Value :=
  (σ.resolve? i x).map Prod.snd

/-- Changes the bindings of one frame. -/
def modifyFrame (σ : State) (i : FrameId) (change : Bindings → Bindings) : State :=
  { σ with frames := σ.frames.modify i fun f => { f with bindings := change f.bindings } }

/-- Adds a binding to a frame that does not bind the name yet. -/
def bind (σ : State) (i : FrameId) (x : String) (v : Value) : State :=
  σ.modifyFrame i fun b => (x, v) :: b

/-- Removes a binding from a frame. -/
def unbind (σ : State) (i : FrameId) (x : String) : State :=
  σ.modifyFrame i fun b => b.erase x

/-- Gives a name that a frame binds another value. -/
def assign (σ : State) (i : FrameId) (x : String) (v : Value) : State :=
  σ.modifyFrame i fun b => b.assign x v

/-- Adds a frame with the given bindings inside frame `i`. The new frame is the last one. -/
def derive (σ : State) (i : FrameId) (b : Bindings) : State :=
  { σ with frames := σ.frames.push ⟨b, σ.chain i⟩ }

/-- The number of frames, which is the place of the next new one. -/
def frameCount (σ : State) : Nat :=
  σ.frames.size

/-! ### Effects on the bindings of each frame -/

theorem bindingsOf_modifyFrame (σ : State) (i j : FrameId) (change : Bindings → Bindings)
    (hi : i < σ.frameCount) :
    (σ.modifyFrame i change).bindingsOf j =
      if j = i then change (σ.bindingsOf i) else σ.bindingsOf j := by
  unfold bindingsOf modifyFrame
  by_cases h : j = i
  · subst h
    simp [Array.getElem?_modify, Array.getElem?_eq_getElem (show j < σ.frames.size from hi)]
  · simp [Array.getElem?_modify, h, Ne.symm h]

theorem chain_modifyFrame (σ : State) (i j : FrameId) (change : Bindings → Bindings) :
    (σ.modifyFrame i change).chain j = σ.chain j := by
  unfold chain modifyFrame
  by_cases h : i = j
  · cases hj : σ.frames[j]? <;> simp [Array.getElem?_modify, h, hj]
  · simp [Array.getElem?_modify, h]

theorem bindingsOf_modifyFrame_of_ne (σ : State) {i j : FrameId} (change : Bindings → Bindings)
    (hji : j ≠ i) : (σ.modifyFrame i change).bindingsOf j = σ.bindingsOf j := by
  simp [bindingsOf, modifyFrame, Array.getElem?_modify, Ne.symm hji]

@[simp] theorem frameCount_modifyFrame (σ : State) (i : FrameId) (change : Bindings → Bindings) :
    (σ.modifyFrame i change).frameCount = σ.frameCount :=
  Array.size_modify

/-- There are no bindings to change where there is no frame. -/
theorem modifyFrame_of_le {σ : State} {i : FrameId} (h : σ.frameCount ≤ i)
    (change : Bindings → Bindings) : σ.modifyFrame i change = σ := by
  have hsize : σ.frames.size ≤ i := h
  have hframes : σ.frames.modify i (fun f => { f with bindings := change f.bindings }) = σ.frames :=
    Array.ext_getElem? fun j => by grind
  rw [modifyFrame, hframes]

theorem bindingsOf_derive (σ : State) (i j : FrameId) (b : Bindings) :
    (σ.derive i b).bindingsOf j = if j = σ.frameCount then b else σ.bindingsOf j := by
  unfold bindingsOf derive frameCount
  by_cases h : j = σ.frames.size
  · simp [h]
  · simp [Array.getElem?_push, h]

@[simp] theorem frameCount_derive (σ : State) (i : FrameId) (b : Bindings) :
    (σ.derive i b).frameCount = σ.frameCount + 1 :=
  Array.size_push _

/-- A new frame changes nothing in the frames before. -/
theorem local?_derive_of_lt {σ : State} {j : FrameId} (hj : j < σ.frameCount) (i : FrameId)
    (b : Bindings) (x : String) : (σ.derive i b).local? j x = σ.local? j x := by
  rw [local?, bindingsOf_derive, if_neg (Nat.ne_of_lt hj)]
  rfl

/-- Only a frame of the store binds names. -/
theorem frameCount_of_local? {σ : State} {i : FrameId} {x : String} {v : Value}
    (h : σ.local? i x = some v) : i < σ.frameCount := by
  rcases Nat.lt_or_ge i σ.frameCount with hi | hi
  · exact hi
  · have hnone : σ.frames[i]? = none := Array.getElem?_eq_none hi
    simp [local?, bindingsOf, hnone] at h

/-- A name resolves to a binding that its frame holds. -/
theorem local?_of_resolve? {σ : State} {i j : FrameId} {x : String} {v : Value}
    (h : σ.resolve? i x = some (j, v)) : σ.local? j x = some v := by
  obtain ⟨k, -, hk⟩ := List.exists_of_findSome?_eq_some h
  obtain ⟨w, hw, hwv⟩ := Option.map_eq_some_iff.1 hk
  obtain ⟨rfl, rfl⟩ := Prod.mk.inj hwv
  exact hw

end State

end ConsLisp
