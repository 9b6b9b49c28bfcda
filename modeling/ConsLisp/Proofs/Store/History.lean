import ConsLisp.Evaluation.Action
import ConsLisp.Proofs.Store.Changes

/-!
# The store and its history

What the frames hold can be told from what was done to them. A name has a *live* binding in a frame
when it was bound there and has not been removed since; the value that it stands for is the one it
was bound to, counted up as often as it has been counted up successfully since then. This module
keeps the history of the store, and reads off it which frames there are, how they are nested, and
what each of them binds.

A history may start in any state. What a frame binds at the start counts as bound then.

## Main definitions

* `Deed`, `Entry`, `History`: what is done to the store, and the record of it.
* `History.Leads`: the history of a state since some start.
* `History.chain`, `History.bound?`, `History.owner?`, `History.count`: what a history tells of the
  frames, of live bindings, and of how often they were counted up.
* `Value.CountedUp`: the value that a binding has come to.

## Main results

* `History.reflects_of_leads`: the store is as its history tells.
* `store_reflects_history`: binding, looking up and counting up answer as the history tells, and
  what fails changes nothing.
-/

namespace ConsLisp

/-! ### What is done to the store -/

/-- Something that is done to the frames. -/
inductive Deed where
  | derive (i : FrameId)
  | define (i : FrameId) (x : String) (v : Value)
  | undefine (i : FrameId) (x : String)
  | increment (i : FrameId) (x : String)

namespace Deed

/-- The frame to which it is done. -/
def frame : Deed → FrameId
  | derive i | define i _ _ | undefine i _ | increment i _ => i

/-- Does it, in a state. -/
def run : Deed → Action Unit
  | derive i => do let _ ← Action.derive i []
  | define i x v => Action.define i x v
  | undefine i x => do let _ ← Action.undefine i x
  | increment i x => do let _ ← Action.increment i x

end Deed

/-- The record of a deed. -/
structure Entry where
  deed : Deed
  succeeded : Bool

/-- The records of what was done to a store, the newest first. -/
abbrev History := List Entry

namespace History

/-- The history leads from the state `σ₀` to another state. Each deed was done to a frame that there
was at the time, and its record tells whether it succeeded. -/
inductive Leads (σ₀ : State) : History → State → Prop
  | start : Leads σ₀ [] σ₀
  | done {h : History} {σ τ : State} {d : Deed} (hσ : Leads σ₀ h σ) (hd : d.frame < σ.frameCount)
      (hτ : d.run σ = .done () τ) : Leads σ₀ (⟨d, true⟩ :: h) τ
  | failed {h : History} {σ τ : State} {d : Deed} {e : Error} (hσ : Leads σ₀ h σ)
      (hd : d.frame < σ.frameCount) (hτ : d.run σ = .failed e τ) : Leads σ₀ (⟨d, false⟩ :: h) τ

/-! ### What a history tells -/

/-- The number of frames. -/
def frameCount (σ₀ : State) : History → Nat
  | [] => σ₀.frameCount
  | ⟨.derive _, true⟩ :: h => frameCount σ₀ h + 1
  | _ :: h => frameCount σ₀ h

/-- A frame followed by the frames around it, nearest first. Each new frame stands inside the one it
was derived from. -/
def chain (σ₀ : State) : History → FrameId → List FrameId
  | [], j => σ₀.chain j
  | ⟨.derive i, true⟩ :: h, j => if j = frameCount σ₀ h then j :: chain σ₀ h i else chain σ₀ h j
  | _ :: h, j => chain σ₀ h j

/-- The value to which a frame last bound a name, if it was not removed from the frame after
that. -/
def bound? (σ₀ : State) : History → FrameId → String → Option Value
  | [], j, y => σ₀.local? j y
  | ⟨.define i x v, true⟩ :: h, j, y => if j = i ∧ y = x then some v else bound? σ₀ h j y
  | ⟨.undefine i x, true⟩ :: h, j, y => if j = i ∧ y = x then none else bound? σ₀ h j y
  | _ :: h, j, y => bound? σ₀ h j y

/-- The nearest frame on the chain of a frame that has a live binding of a name. -/
def owner? (σ₀ : State) (h : History) (i : FrameId) (x : String) : Option FrameId :=
  (h.chain σ₀ i).find? fun j => (h.bound? σ₀ j x).isSome

/-- How often the binding of a name in a frame was counted up since the name was bound there. -/
def count (σ₀ : State) : History → FrameId → String → Nat
  | [], _, _ => 0
  | ⟨.define i x _, true⟩ :: h, j, y => if j = i ∧ y = x then 0 else count σ₀ h j y
  | ⟨.increment i x, true⟩ :: h, j, y =>
    if y = x ∧ owner? σ₀ h i x = some j then count σ₀ h j y + 1 else count σ₀ h j y
  | _ :: h, j, y => count σ₀ h j y

end History

/-- The value `v` is the integer `v₀` counted up `k` times. What is no integer stays as it is. -/
def Value.CountedUp (v₀ : Value) (k : Nat) (v : Value) : Prop :=
  match v₀ with
  | .integer n => ∃ m, v = .integer m ∧ m.val = n.val + k
  | v₀ => v = v₀

theorem Value.countedUp_zero (v : Value) : v.CountedUp 0 v := by
  cases v with
  | integer n => exact ⟨n, rfl, (Int.add_zero _).symm⟩
  | _ => rfl

theorem Value.CountedUp.succ {v₀ : Value} {k : Nat} {n m : Fixnum}
    (h : v₀.CountedUp k (.integer n)) (hm : m.val = n.val + 1) : v₀.CountedUp (k + 1) (.integer m) := by
  cases v₀ with
  | integer n₀ =>
    obtain ⟨n', hn, hval⟩ := h
    obtain rfl := Value.integer.inj hn
    refine ⟨m, rfl, ?_⟩
    omega
  | _ => cases h

/-! ### The store is as its history tells -/

namespace History

variable {σ₀ σ τ : State} {h : History} {i j k : FrameId} {x y : String} {v : Value}

/-- The store has the frames and the bindings that its history tells of. -/
structure Reflects (σ₀ : State) (h : History) (σ : State) : Prop where
  frameCount_eq : σ.frameCount = h.frameCount σ₀
  chain_eq (j : FrameId) : σ.chain j = h.chain σ₀ j
  bound {j : FrameId} {x : String} {v₀ : Value} : h.bound? σ₀ j x = some v₀ →
    ∃ v, σ.local? j x = some v ∧ v₀.CountedUp (h.count σ₀ j x) v
  unbound {j : FrameId} {x : String} : h.bound? σ₀ j x = none → σ.local? j x = none

theorem reflects_start (σ₀ : State) : Reflects σ₀ [] σ₀ where
  frameCount_eq := rfl
  chain_eq _ := rfl
  bound hv := ⟨_, hv, Value.countedUp_zero _⟩
  unbound hx := hx

namespace Reflects

theorem local?_eq_none_iff (hσ : Reflects σ₀ h σ) :
    σ.local? j x = none ↔ h.bound? σ₀ j x = none := by
  refine ⟨fun hx => ?_, hσ.unbound⟩
  cases hv : h.bound? σ₀ j x with
  | none => rfl
  | some v₀ =>
    obtain ⟨v, hv', -⟩ := hσ.bound hv
    rw [hx] at hv'
    cases hv'

theorem isSome_local? (hσ : Reflects σ₀ h σ) (j : FrameId) (x : String) :
    (σ.local? j x).isSome = (h.bound? σ₀ j x).isSome := by
  have hnone := hσ.local?_eq_none_iff (j := j) (x := x)
  cases hl : σ.local? j x <;> cases hb : h.bound? σ₀ j x <;> simp_all

/-- A name resolves to the nearest frame with a live binding. -/
theorem resolve?_eq_some_iff (hσ : Reflects σ₀ h σ) :
    σ.resolve? i x = some (j, v) ↔ h.owner? σ₀ i x = some j ∧ σ.local? j x = some v := by
  rw [State.resolve?_eq_some_iff, owner?, hσ.chain_eq]
  simp only [hσ.isSome_local?]

theorem derive (hσ : Reflects σ₀ h σ) (i : FrameId) :
    Reflects σ₀ (⟨.derive i, true⟩ :: h) (σ.derive i []) where
  frameCount_eq := by
    rw [State.frameCount_derive, frameCount, hσ.frameCount_eq]
  chain_eq j := by
    rw [State.chain_derive, chain, hσ.frameCount_eq, hσ.chain_eq, hσ.chain_eq]
  bound {j x v₀} hv := by
    obtain ⟨v, hv, hcount⟩ := hσ.bound hv
    refine ⟨v, ?_, hcount⟩
    rw [State.local?_derive_of_lt (State.frameCount_of_local? hv)]
    exact hv
  unbound {j x} hx := by
    rw [State.local?, State.bindingsOf_derive]
    split
    · rfl
    · exact hσ.unbound hx

theorem define (hσ : Reflects σ₀ h σ) (hi : i < σ.frameCount) (v : Value) :
    Reflects σ₀ (⟨.define i x v, true⟩ :: h) (σ.bind i x v) where
  frameCount_eq := (σ.frameCount_modifyFrame i _).trans hσ.frameCount_eq
  chain_eq j := (σ.chain_modifyFrame i j _).trans (hσ.chain_eq j)
  bound {j y v₀} hv := by
    rw [bound?] at hv
    rw [State.local?_bind hi, count]
    split at hv
    · next hjy =>
      rw [if_pos hjy, if_pos hjy]
      exact ⟨v, rfl, Option.some.inj hv ▸ Value.countedUp_zero v⟩
    · next hjy =>
      rw [if_neg hjy, if_neg hjy]
      exact hσ.bound hv
  unbound {j y} hx := by
    rw [bound?] at hx
    rw [State.local?_bind hi]
    split at hx
    · cases hx
    · next hjy =>
      rw [if_neg hjy]
      exact hσ.unbound hx

theorem undefine (hσ : Reflects σ₀ h σ) (hi : i < σ.frameCount) :
    Reflects σ₀ (⟨.undefine i x, true⟩ :: h) (σ.unbind i x) where
  frameCount_eq := (σ.frameCount_modifyFrame i _).trans hσ.frameCount_eq
  chain_eq j := (σ.chain_modifyFrame i j _).trans (hσ.chain_eq j)
  bound {j y v₀} hv := by
    rw [bound?] at hv
    rw [State.local?_unbind hi]
    split at hv
    · cases hv
    · next hjy =>
      rw [if_neg hjy]
      exact hσ.bound hv
  unbound {j y} hx := by
    rw [bound?] at hx
    rw [State.local?_unbind hi]
    split at hx
    · next hjy => rw [if_pos hjy]
    · next hjy =>
      rw [if_neg hjy]
      exact hσ.unbound hx

theorem increment (hσ : Reflects σ₀ h σ) {n m : Fixnum}
    (hn : σ.resolve? i x = some (j, .integer n)) (hm : m.val = n.val + 1) :
    Reflects σ₀ (⟨.increment i x, true⟩ :: h) (σ.assign j x (.integer m)) where
  frameCount_eq := (σ.frameCount_modifyFrame j _).trans hσ.frameCount_eq
  chain_eq k := (σ.chain_modifyFrame j k _).trans (hσ.chain_eq k)
  bound {k y v₀} hv := by
    obtain ⟨howner, hlocal⟩ := hσ.resolve?_eq_some_iff.1 hn
    obtain ⟨v, hv', hcount⟩ := hσ.bound (show h.bound? σ₀ k y = some v₀ from hv)
    rw [State.local?_assign (State.frameCount_of_local? hlocal), count, howner]
    by_cases hky : k = j ∧ y = x
    · obtain ⟨rfl, rfl⟩ := hky
      obtain rfl : v = .integer n := Option.some.inj (hv'.symm.trans hlocal)
      rw [if_pos ⟨rfl, rfl⟩, if_pos ⟨rfl, rfl⟩, hlocal]
      exact ⟨.integer m, rfl, hcount.succ hm⟩
    · rw [if_neg hky, if_neg fun h => hky ⟨(Option.some.inj h.2).symm, h.1⟩]
      exact ⟨v, hv', hcount⟩
  unbound {k y} hx := by
    obtain ⟨-, hlocal⟩ := hσ.resolve?_eq_some_iff.1 hn
    have hy : σ.local? k y = none := hσ.unbound hx
    rw [State.local?_assign (State.frameCount_of_local? hlocal), if_neg]
    · exact hy
    · rintro ⟨rfl, rfl⟩
      rw [hlocal] at hy
      cases hy

/-- A deed that fails leaves no trace in the history. -/
theorem failed (hσ : Reflects σ₀ h σ) (d : Deed) : Reflects σ₀ (⟨d, false⟩ :: h) σ := by
  cases d with
  | _ => exact ⟨hσ.frameCount_eq, hσ.chain_eq, hσ.bound, hσ.unbound⟩

end Reflects

end History

/-! ### Deeds -/

/-- An action whose result is given up succeeds if the action does. -/
theorem Action.exists_done_of_discard {α : Type} {m : Action α} {σ τ : State}
    (h : (m >>= fun _ => pure ()) σ = Outcome.done () τ) : ∃ a, m σ = .done a τ := by
  rw [bind_apply] at h
  cases hm : m σ <;> rw [hm] at h <;> cases h
  exact ⟨_, rfl⟩

/-- A deed is done, or it fails and changes nothing. -/
theorem Deed.exists_done_or_failed (d : Deed) (σ : State) :
    (∃ τ, d.run σ = .done () τ) ∨ ∃ e, d.run σ = .failed e σ := by
  cases d with
  | derive i => exact .inl ⟨_, rfl⟩
  | define i x v =>
    rw [run, Action.define]
    cases σ.local? i x with
    | none => exact .inl ⟨_, rfl⟩
    | some w => exact .inr ⟨_, rfl⟩
  | undefine i x =>
    rw [run, Action.bind_apply, Action.undefine]
    cases σ.local? i x <;> exact .inl ⟨_, rfl⟩
  | increment i x =>
    rw [run, Action.bind_apply]
    rcases Action.increment_eq_done_or_failed i x σ with ⟨v, τ, h⟩ | ⟨e, h⟩ <;> rw [h]
    · exact .inl ⟨τ, rfl⟩
    · exact .inr ⟨e, rfl⟩

namespace History

variable {σ₀ σ τ : State} {h : History}

theorem Reflects.done (hσ : Reflects σ₀ h σ) {d : Deed} (hd : d.frame < σ.frameCount)
    (hτ : d.run σ = .done () τ) : Reflects σ₀ (⟨d, true⟩ :: h) τ := by
  cases d with
  | derive i =>
    cases hτ
    exact hσ.derive i
  | define i x v =>
    obtain ⟨-, rfl⟩ := Action.define_eq_done_iff.1 hτ
    exact hσ.define hd v
  | undefine i x =>
    obtain ⟨w?, hw⟩ := Action.exists_done_of_discard hτ
    unfold Action.undefine at hw
    split at hw <;> cases hw
    · exact hσ.undefine hd
    · next hx =>
      -- There is nothing to remove, and removing it would change nothing.
      rw [← State.unbind_of_local?_eq_none hx]
      exact hσ.undefine hd
  | increment i x =>
    obtain ⟨v, hv⟩ := Action.exists_done_of_discard hτ
    obtain ⟨j, n, m, hn, hm, -, rfl⟩ := Action.increment_eq_done_iff.1 hv
    exact hσ.increment hn hm

/-- What fails changes nothing. -/
theorem eq_of_run_eq_failed {d : Deed} {e : Error} (h : d.run σ = .failed e τ) : τ = σ := by
  rcases d.exists_done_or_failed σ with ⟨υ, hυ⟩ | ⟨e', hfailed⟩
  · rw [hυ] at h
    cases h
  · rw [hfailed] at h
    cases h
    rfl

/-- The store is as its history tells. -/
theorem reflects_of_leads (hσ : Leads σ₀ h σ) : Reflects σ₀ h σ := by
  induction hσ with
  | start => exact reflects_start σ₀
  | done _ hd hτ ih => exact ih.done hd hτ
  | failed _ _ hτ ih =>
    obtain rfl := eq_of_run_eq_failed hτ
    exact ih.failed _

/-- Whatever is done next goes into the history. -/
theorem exists_leads (hσ : Leads σ₀ h σ) {d : Deed} (hd : d.frame < σ.frameCount) :
    ∃ succeeded τ, Leads σ₀ (⟨d, succeeded⟩ :: h) τ := by
  rcases d.exists_done_or_failed σ with ⟨τ, hτ⟩ | ⟨e, he⟩
  · exact ⟨true, τ, .done hσ hd hτ⟩
  · exact ⟨false, σ, .failed hσ hd he⟩

/-! ### Answers -/

namespace Reflects

variable {i j : FrameId} {x : String}

/-- A name can be bound in a frame that has no live binding of it. -/
theorem exists_define_iff (hσ : Reflects σ₀ h σ) (v : Value) :
    (∃ τ, Action.define i x v σ = .done () τ) ↔ h.bound? σ₀ i x = none := by
  simp only [Action.define_eq_done_iff, exists_and_left, exists_eq, and_true]
  exact hσ.local?_eq_none_iff

/-- A name has the value that its nearest live binding has come to. -/
theorem lookup_of_owner? (hσ : Reflects σ₀ h σ) (hj : h.owner? σ₀ i x = some j) :
    ∃ v₀ v, h.bound? σ₀ j x = some v₀ ∧ Action.lookup i x σ = .done v σ ∧
      v₀.CountedUp (h.count σ₀ j x) v := by
  rw [owner?] at hj
  have hlive : (h.bound? σ₀ j x).isSome := by simpa using List.find?_some hj
  obtain ⟨v₀, hv₀⟩ := Option.isSome_iff_exists.1 hlive
  obtain ⟨v, hv, hcount⟩ := hσ.bound hv₀
  have hresolve : σ.resolve? i x = some (j, v) := hσ.resolve?_eq_some_iff.2 ⟨hj, hv⟩
  exact ⟨v₀, v, hv₀, Action.lookup_eq_done_iff.2 ⟨⟨j, hresolve⟩, rfl⟩, hcount⟩

/-- A name has no value if no frame on the chain has a live binding of it. -/
theorem lookup_unbound_iff (hσ : Reflects σ₀ h σ) :
    Action.lookup i x σ = .failed (.unbound x) σ ↔
      ∀ j ∈ h.chain σ₀ i, h.bound? σ₀ j x = none := by
  rw [Action.lookup_eq_unbound_iff, State.resolve?_eq_none_iff, hσ.chain_eq]
  simp only [hσ.local?_eq_none_iff]

end Reflects

end History

/-- A store answers as its history tells. A name can be bound in a frame exactly if the frame has no
live binding of it. From a frame, a name has the value that the nearest live binding on the chain
was given, counted up as often as that binding was counted up since; it is unbound exactly if no
frame on the chain has a live binding. A name can be counted up exactly if its value is an integer
below the greatest one. What fails changes nothing, nor does removing what is not there; and
whatever is done next to a frame, its record continues the history. -/
theorem store_reflects_history {σ₀ σ : State} {h : History} (hσ : h.Leads σ₀ σ) (i : FrameId)
    (x : String) :
    (∀ v, (∃ τ, Action.define i x v σ = .done () τ) ↔ h.bound? σ₀ i x = none) ∧
      (∀ j, h.owner? σ₀ i x = some j → ∃ v₀ v, h.bound? σ₀ j x = some v₀ ∧
        Action.lookup i x σ = .done v σ ∧ v₀.CountedUp (h.count σ₀ j x) v) ∧
      (Action.lookup i x σ = .failed (.unbound x) σ ↔
        ∀ j ∈ h.chain σ₀ i, h.bound? σ₀ j x = none) ∧
      ((∃ v τ, Action.increment i x σ = .done v τ) ↔
        ∃ n, Action.lookup i x σ = .done (.integer n) σ ∧ n.val < 9223372036854775807) ∧
      (h.bound? σ₀ i x = none → Action.undefine i x σ = .done none σ) ∧
      (∀ (d : Deed) (e : Error) (τ : State), d.run σ = .failed e τ → τ = σ) ∧
      ∀ d : Deed, d.frame < σ.frameCount →
        ∃ succeeded τ, History.Leads σ₀ (⟨d, succeeded⟩ :: h) τ := by
  have hreflects := History.reflects_of_leads hσ
  refine ⟨hreflects.exists_define_iff, fun j => hreflects.lookup_of_owner?,
    hreflects.lookup_unbound_iff, Action.exists_increment_iff, fun hx => ?_,
    fun d e τ => History.eq_of_run_eq_failed, fun d => History.exists_leads hσ⟩
  have hlocal : σ.local? i x = none := hreflects.unbound hx
  rw [Action.undefine, hlocal]

/-- A store with one frame, which binds nothing. -/
def emptyStore : State where
  frames := #[⟨[], []⟩]
  closures := 0
  printed := ""

/-- In the frame 1 inside the frame 0 the name `n` is bound, counted up and removed again, which
uncovers the binding in the frame 0. This one is counted up from the frame 2 inside the frame 1. In
the end an attempt is made to bind `n` in the frame 0 anew. -/
def uncovering : History :=
  [⟨.define 0 "n" (.integer 9), false⟩, ⟨.increment 2 "n", true⟩, ⟨.derive 1, true⟩,
    ⟨.undefine 1 "n", true⟩, ⟨.increment 1 "n", true⟩, ⟨.define 1 "n" (.integer 7), true⟩,
    ⟨.define 0 "n" (.integer 5), true⟩, ⟨.derive 0, true⟩]

/-- The store after this. -/
def uncoveredStore : State where
  frames := #[⟨[("n", .integer 6)], []⟩, ⟨[], [0]⟩, ⟨[], [1, 0]⟩]
  closures := 0
  printed := ""

/-- The uncovered binding has its own count, and it was not replaced. -/
theorem store_reflects_history_uncovering :
    uncovering.Leads emptyStore uncoveredStore ∧
      Action.lookup 2 "n" uncoveredStore = .done (.integer { val := 6 }) uncoveredStore ∧
      ¬∃ τ, Action.define 0 "n" (.integer { val := 9 }) uncoveredStore = .done () τ := by
  have hleads : uncovering.Leads emptyStore uncoveredStore := by
    have hderived : History.Leads emptyStore [⟨.derive 0, true⟩] _ := .done .start (by decide) rfl
    have hbound := hderived.done (d := .define 0 "n" (.integer { val := 5 })) (by decide) rfl
    have hshadowed := hbound.done (d := .define 1 "n" (.integer { val := 7 })) (by decide) rfl
    have hcounted := hshadowed.done (d := .increment 1 "n") (by decide) rfl
    have huncovered := hcounted.done (d := .undefine 1 "n") (by decide) rfl
    have hnested := huncovered.done (d := .derive 1) (by decide) rfl
    have hcountedAgain := hnested.done (d := .increment 2 "n") (by decide) rfl
    exact hcountedAgain.failed (by decide) rfl
  obtain ⟨-, hlookup, -⟩ := store_reflects_history hleads 2 "n"
  obtain ⟨hdefine, -⟩ := store_reflects_history hleads 0 "n"
  obtain ⟨v₀, v, hv₀, hv, hcount⟩ := hlookup 0 rfl
  obtain rfl : .integer { val := 5 } = v₀ := Option.some.inj hv₀
  obtain ⟨m, rfl, hm⟩ := hcount
  obtain rfl : m = { val := 6 } := Fixnum.ext hm
  exact ⟨hleads, hv, fun h => nomatch (hdefine _).1 h⟩

end ConsLisp
