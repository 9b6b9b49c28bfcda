import ConsLisp.Store.Basic

/-!
# Actions on the state

Evaluating is an action on the state of a program. It ends with a result or with an error, in both
cases in some state: an error does not undo what happened before it. An action may also end because
the depth to which evaluations may nest is used up; that is no answer at all, and it is not to be
mistaken for an error of the program.

## Main definitions

* `Outcome`: how an action ends.
* `Action`: the actions, a monad.
* `Action.lookup`, `Action.define`, `Action.undefine`, `Action.increment`, `Action.derive`,
  `Action.newClosure`, `Action.print`: the elementary actions.

## Main results

* `Action.bind_apply`, `Action.bind_eq_done_iff`: how two actions in sequence end.
* The actions are a lawful monad.
* `Action.lookup_eq_done_iff`, `Action.define_eq_done_iff`, `Action.increment_eq_done_iff`: when
  names can be looked up, bound and counted up.
-/

namespace ConsLisp

/-- How an action ends. -/
inductive Outcome (α : Type) where
  | done (a : α) (σ : State)
  | failed (e : Error) (σ : State)
  /-- The permitted depth of evaluation was used up. -/
  | exhausted

/-- The state in which an action ends. -/
def Outcome.state? {α : Type} : Outcome α → Option State
  | done _ σ => some σ
  | failed _ σ => some σ
  | exhausted => none

theorem Outcome.eq_exhausted_of_state? {α : Type} {r : Outcome α} (h : r.state? = none) :
    r = .exhausted := by
  cases r with
  | exhausted => rfl
  | done | failed => cases h

/-- Something done to the state of a program. -/
def Action (α : Type) := State → Outcome α

namespace Action

variable {α β : Type}

/-- Ends at once with a result. -/
@[inline] protected def pure (a : α) : Action α :=
  fun σ => .done a σ

/-- Does one thing after the other, unless the first fails. -/
@[inline] protected def bind (m : Action α) (f : α → Action β) : Action β := fun σ =>
  match m σ with
  | .done a σ' => f a σ'
  | .failed e σ' => .failed e σ'
  | .exhausted => .exhausted

instance : Monad Action where
  pure := Action.pure
  bind := Action.bind

/-- Ends at once with an error. -/
@[inline] def fail (e : Error) : Action α :=
  fun σ => .failed e σ

/-- Ends without an answer. -/
@[inline] def exhausted : Action α :=
  fun _ => .exhausted

/-- The result or the error of a computation that needs no state. -/
@[inline] def ofExcept : Except Error α → Action α
  | .ok a => Action.pure a
  | .error e => fail e

/-- Replaces the error in which an action fails. -/
@[inline] def mapError (f : Error → Error) (m : Action α) : Action α := fun σ =>
  match m σ with
  | .done a σ' => .done a σ'
  | .failed e σ' => .failed (f e) σ'
  | .exhausted => .exhausted

@[simp] theorem pure_apply (a : α) (σ : State) : (pure a : Action α) σ = .done a σ := rfl

theorem bind_apply (m : Action α) (f : α → Action β) (σ : State) :
    (m >>= f) σ =
      match m σ with
      | .done a σ' => f a σ'
      | .failed e σ' => .failed e σ'
      | .exhausted => .exhausted := rfl

@[simp] theorem fail_apply (e : Error) (σ : State) : (fail e : Action α) σ = .failed e σ := rfl

@[simp] theorem exhausted_apply (σ : State) : (exhausted : Action α) σ = .exhausted := rfl

theorem bind_pure_right (m : Action α) : (m >>= pure) = m := by
  funext σ
  rw [bind_apply]
  cases m σ <;> rfl

theorem bind_assoc {γ : Type} (m : Action α) (f : α → Action β) (g : β → Action γ) :
    (m >>= f) >>= g = m >>= fun a => f a >>= g := by
  funext σ
  simp only [bind_apply]
  cases m σ <;> rfl

instance : LawfulMonad Action :=
  LawfulMonad.mk' Action bind_pure_right (fun _ _ => rfl) bind_assoc

/-! ### Elementary actions -/

/-- The value of a name as seen from a frame. -/
def lookup (i : FrameId) (x : String) : Action Value := fun σ =>
  match σ.lookup? i x with
  | some v => .done v σ
  | none => .failed (.unbound x) σ

/-- Binds a name in a frame. A name that the frame binds already is refused. -/
def define (i : FrameId) (x : String) (v : Value) : Action Unit := fun σ =>
  match σ.local? i x with
  | some _ => .failed (.alreadyBound x) σ
  | none => .done () (σ.bind i x v)

/-- Removes a name from a frame, and returns the value that the frame gave to it, if any. -/
def undefine (i : FrameId) (x : String) : Action (Option Value) := fun σ =>
  match σ.local? i x with
  | some v => .done (some v) (σ.unbind i x)
  | none => .done none σ

/-- Adds one to the integer that a name stands for, in the frame that binds it, and returns the new
value. -/
def increment (i : FrameId) (x : String) : Action Value := fun σ =>
  match σ.resolve? i x with
  | none => .failed (.unbound x) σ
  | some (j, .integer n) =>
    match Fixnum.ofInt? (n.val + 1) with
    | some m => .done (.integer m) (σ.assign j x (.integer m))
    | none => .failed (.evaluation (.overflow "inc!")) σ
  | some (_, v) => .failed (.typing (.incrementedNotInteger x v.typeName)) σ

/-- Makes a new frame with the given bindings inside a frame, and returns it. -/
def derive (i : FrameId) (b : Bindings) : Action FrameId := fun σ =>
  .done σ.frameCount (σ.derive i b)

/-- Makes a closure that differs from all closures made before. -/
def newClosure (role : Role) (name : String) (params body : Value) (i : FrameId) : Action Value :=
  fun σ =>
    .done (.closure role name σ.closures params body i) { σ with closures := σ.closures + 1 }

/-- Prints a text. -/
def print (text : String) : Action Unit := fun σ =>
  .done () { σ with printed := σ.printed ++ text }

/-! ### When names can be looked up, bound and counted up -/

section Names

variable {i : FrameId} {x : String} {σ τ : State}

theorem lookup_eq_done_iff {v : Value} :
    lookup i x σ = .done v τ ↔ (∃ j, σ.resolve? i x = some (j, v)) ∧ τ = σ := by
  unfold lookup State.lookup?
  cases σ.resolve? i x with
  | none => simp
  | some p => simp [Prod.ext_iff, eq_comm]

theorem lookup_eq_unbound_iff :
    lookup i x σ = .failed (.unbound x) σ ↔ σ.resolve? i x = none := by
  unfold lookup State.lookup?
  cases σ.resolve? i x <;> simp

/-- A name is bound in a frame if it is not bound there yet. -/
theorem define_eq_done_iff {v : Value} :
    define i x v σ = .done () τ ↔ σ.local? i x = none ∧ τ = σ.bind i x v := by
  unfold define
  cases σ.local? i x with
  | none => simp [eq_comm]
  | some w => simp

/-- A name is counted up if it stands for an integer that is not the greatest one. -/
theorem increment_eq_done_iff {v : Value} :
    increment i x σ = .done v τ ↔ ∃ j n m, σ.resolve? i x = some (j, .integer n) ∧
      m.val = n.val + 1 ∧ v = .integer m ∧ τ = σ.assign j x (.integer m) := by
  constructor
  · intro h
    unfold increment at h
    split at h
    · cases h
    · next j n hn =>
      split at h <;> cases h
      next m hm => exact ⟨j, n, m, hn, (Fixnum.ofInt?_eq_some_iff.1 hm).symm, rfl, rfl⟩
    · cases h
  · rintro ⟨j, n, m, hn, hm, rfl, rfl⟩
    unfold increment
    rw [hn]
    simp only
    rw [Fixnum.ofInt?_eq_some_iff.2 hm.symm]

theorem increment_eq_done_or_failed (i : FrameId) (x : String) (σ : State) :
    (∃ v τ, increment i x σ = .done v τ) ∨ ∃ e, increment i x σ = .failed e σ := by
  unfold increment
  split
  · exact .inr ⟨_, rfl⟩
  · split
    · exact .inl ⟨_, _, rfl⟩
    · exact .inr ⟨_, rfl⟩
  · exact .inr ⟨_, rfl⟩

/-- The greatest integer cannot be counted up. -/
theorem increment_eq_overflow {j : FrameId} {n : Fixnum}
    (hn : σ.resolve? i x = some (j, .integer n)) (hmax : n.val = 9223372036854775807) :
    increment i x σ = .failed (.evaluation (.overflow "inc!")) σ := by
  unfold increment
  rw [hn]
  simp only
  rw [Fixnum.ofInt?_eq_none_iff.2 (by omega)]

/-- A name is counted up if its value is an integer that is not the greatest one. -/
theorem exists_increment_iff :
    (∃ v τ, increment i x σ = .done v τ) ↔
      ∃ n, lookup i x σ = .done (.integer n) σ ∧ n.val < 9223372036854775807 := by
  constructor
  · rintro ⟨v, τ, h⟩
    obtain ⟨j, n, m, hn, hm, -, -⟩ := increment_eq_done_iff.1 h
    have hle := m.le_greatest
    exact ⟨n, lookup_eq_done_iff.2 ⟨⟨j, hn⟩, rfl⟩, by omega⟩
  · rintro ⟨n, hlookup, hlt⟩
    obtain ⟨⟨j, hn⟩, -⟩ := lookup_eq_done_iff.1 hlookup
    have hle := n.least_le
    let m : Fixnum := ⟨n.val + 1, by omega, by omega⟩
    exact ⟨_, _, increment_eq_done_iff.2 ⟨j, n, m, hn, rfl, rfl, rfl⟩⟩

end Names

end Action

end ConsLisp
