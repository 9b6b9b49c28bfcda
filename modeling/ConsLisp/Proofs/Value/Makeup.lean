import ConsLisp.Proofs.Store.BoundValues
import ConsLisp.Proofs.Value.Parts

/-!
# What values are made of

Two questions about a value concern all its parts at once: which symbols occur in it, and whether
the rest of every pair in it is a list. A makeup answers both for the values that it admits. The
parts of a value are the components of pairs, what stands under a quote mark, and the lambda list
and the body of a closure.

What evaluation takes values apart and puts them together with keeps to a makeup: the operations on
lists, the binding of parameters, and the primitives.

## Main definitions

* `Makeup`: what values may be made of.
* `Makeup.admits`: a value is made so, with all its parts.
* `Makeup.any`, `Makeup.proper`, `Makeup.without`: all values; only proper lists; all symbols but
  one.
* `State.KeepsTo`: all bound values are admitted.

## Main results

* `Makeup.admits_unwind`: a chain is admitted if its elements and its end are.
* `Makeup.admits_of_partOf`: the parts of an admitted value are admitted.
* `Makeup.admitsBindings_of_bindParameters`: what a call binds is admitted.
* `Makeup.admits_of_compute`: the result of a primitive is admitted.
-/

namespace ConsLisp

/-- What values may be made of. -/
structure Makeup where
  /-- The symbols that may occur. -/
  symbols : String → Bool
  /-- Whether the rest of a pair may be something other than a list. -/
  dotted : Bool

namespace Makeup

/-- All symbols may occur, in any values. -/
def any : Makeup where
  symbols _ := true
  dotted := true

/-- All symbols may occur, and the rest of every pair is a pair or the empty list. -/
def proper : Makeup where
  symbols _ := true
  dotted := false

/-- All symbols but `x` may occur, in any values. -/
def without (x : String) : Makeup where
  symbols y := y != x
  dotted := true

variable (M : Makeup)

/-- Whether a value may stand as the rest of a pair. -/
def ends (v : Value) : Bool :=
  M.dotted || v.isList

/-- Whether a value is made as `M` says, with all its parts. -/
def admits : Value → Bool
  | .symbol x => M.symbols x
  | .cons first rest => M.ends rest && (admits first && admits rest)
  | .quoted _ inner => admits inner
  | .closure _ _ _ params body _ => admits params && admits body
  | _ => true

variable {M}

@[simp] theorem admits_cons {first rest : Value} :
    M.admits (.cons first rest) = true ↔
      M.ends rest = true ∧ M.admits first = true ∧ M.admits rest = true := by
  simp [admits]

@[simp] theorem admits_closure {role : Role} {name : String} {id : Nat} {params body : Value}
    {frame : FrameId} :
    M.admits (.closure role name id params body frame) = true ↔
      M.admits params = true ∧ M.admits body = true := by
  simp [admits]

theorem ends_of_isList {v : Value} (h : v.isList = true) : M.ends v = true := by
  simp [ends, h]

@[simp] theorem ends_empty : M.ends .empty = true := ends_of_isList rfl

@[simp] theorem ends_cons {first rest : Value} : M.ends (.cons first rest) = true :=
  ends_of_isList rfl

/-- Where something other than a list may stand as the rest of a pair, every value may. -/
theorem ends_of_not_isList {v : Value} (h : M.ends v = true) (hv : v.isList = false) (u : Value) :
    M.ends u = true := by
  rw [ends, hv, Bool.or_false] at h
  rw [ends, h, Bool.true_or]

theorem admits_any (v : Value) : any.admits v = true := by
  induction v with
  | cons first rest ihfirst ihrest => exact admits_cons.2 ⟨rfl, ihfirst, ihrest⟩
  | quoted kind inner ih => exact ih
  | closure role name id params body frame ihparams ihbody =>
    exact admits_closure.2 ⟨ihparams, ihbody⟩
  | _ => rfl

/-! ### Lists -/

/-- A chain is admitted if its elements and its end are. -/
theorem admits_unwind {reversed : List Value} {tail : Value}
    (hreversed : ∀ v ∈ reversed, M.admits v = true) (htail : M.admits tail = true)
    (hends : reversed ≠ [] → M.ends tail = true) :
    M.admits (.unwind reversed tail) = true := by
  induction reversed generalizing tail with
  | nil => exact htail
  | cons v reversed ih =>
    rw [Value.unwind_cons]
    obtain ⟨hv, hreversed⟩ := List.forall_mem_cons.1 hreversed
    refine ih hreversed ?_ fun _ => ends_cons
    exact admits_cons.2 ⟨hends (List.cons_ne_nil _ _), hv, htail⟩

theorem isList_unwind {reversed : List Value} {tail : Value} (h : tail.isList = true) :
    (Value.unwind reversed tail).isList = true := by
  induction reversed generalizing tail with
  | nil => exact h
  | cons v reversed ih => exact ih rfl

/-- The parts of an admitted value are admitted. -/
theorem admits_of_partOf {u v : Value} (h : M.admits v = true) (hu : u.PartOf v) :
    M.admits u = true := by
  induction hu with
  | refl => exact h
  | first _ ih => exact ih (admits_cons.1 h).2.1
  | rest _ ih => exact ih (admits_cons.1 h).2.2

theorem admits_of_properElements {v : Value} {vs : List Value} (h : M.admits v = true)
    (hvs : v.properElements = .ok vs) : ∀ u ∈ vs, M.admits u = true :=
  fun u hu => admits_of_partOf h (Value.partOf_of_properElements hvs u hu)

/-- The first component of a pair, or the empty list for want of one. -/
theorem admits_first? {v : Value} (h : M.admits v = true) :
    M.admits (v.first?.getD .empty) = true := by
  obtain hpart | hempty := v.partOf_first?
  · exact admits_of_partOf h hpart
  · rw [hempty]
    rfl

/-- The second component of a pair, or the empty list for want of one. -/
theorem admits_rest? {v : Value} (h : M.admits v = true) :
    M.admits (v.rest?.getD .empty) = true := by
  obtain hpart | hempty := v.partOf_rest?
  · exact admits_of_partOf h hpart
  · rw [hempty]
    rfl

/-- A display name is no part of a function. -/
@[simp] theorem admits_named (name : String) (v : Value) : M.admits (v.named name) = M.admits v := by
  cases v with
  | closure role => cases role <;> rfl
  | _ => rfl

/-- A list that only proper lists are part of has no other end. -/
theorem terminator_of_admits {v : Value} (h : proper.admits v = true) (hv : v.isList = true) :
    v.terminator = .empty := by
  induction v with
  | empty => rfl
  | cons first rest _ ih =>
    obtain ⟨hends, -, hrest⟩ := admits_cons.1 h
    exact ih hrest hends
  | _ => cases hv

/-! ### Bindings -/

variable (M) in
/-- The names that are bound are admitted as symbols, and their values are admitted. -/
def AdmitsBindings (b : Bindings) : Prop :=
  ∀ p ∈ b, M.symbols p.1 = true ∧ M.admits p.2 = true

/-- What a call binds is admitted if its lambda list and its arguments are. -/
theorem admitsBindings_of_bindParameters {name : String} {params args : Value} {b : Bindings}
    (hparams : M.admits params = true) (hargs : M.admits args = true)
    (h : LambdaList.bindParameters name params args = .ok b) : M.AdmitsBindings b := by
  intro p hp
  obtain ⟨hname, hvalue⟩ := LambdaList.partOf_of_bindParameters h p hp
  refine ⟨admits_of_partOf hparams hname, ?_⟩
  obtain hvalue | hvalue := hvalue
  · exact admits_of_partOf hparams hvalue
  · exact admits_of_partOf hargs hvalue

/-! ### Primitives -/

/-- The result of a primitive is admitted if its arguments are. -/
theorem admits_of_compute {op : Primitive} {args v : Value} (hargs : M.admits args = true)
    (h : op.compute args = .ok v) : M.admits v = true := by
  obtain hdatum | hpart | ⟨first, rest, rfl, hlist, hfirst, hrest⟩ := Primitive.result_cases h
  · cases v <;> first | rfl | exact hdatum.elim
  · exact admits_of_partOf hargs hpart
  · exact admits_cons.2
      ⟨ends_of_isList hlist, admits_of_partOf hargs hfirst, admits_of_partOf hargs hrest⟩

end Makeup

/-! ### Values in the store -/

namespace State

variable {M : Makeup} {σ : State}

/-- Every value that is bound in some frame is admitted. -/
def KeepsTo (M : Makeup) (σ : State) : Prop :=
  ∀ i x v, σ.local? i x = some v → M.admits v = true

theorem KeepsTo.of_frames_eq (h : σ.KeepsTo M) {τ : State} (hτ : τ.frames = σ.frames) :
    τ.KeepsTo M :=
  BindsOnly.of_frames_eq h hτ

theorem KeepsTo.bind (h : σ.KeepsTo M) (i : FrameId) (x : String) {v : Value}
    (hv : M.admits v = true) : (σ.bind i x v).KeepsTo M :=
  BindsOnly.bind h i x hv

theorem KeepsTo.assign (h : σ.KeepsTo M) (i : FrameId) (x : String) {v : Value}
    (hv : M.admits v = true) : (σ.assign i x v).KeepsTo M :=
  BindsOnly.assign h i x hv

theorem KeepsTo.derive (h : σ.KeepsTo M) (i : FrameId) {b : Bindings} (hb : M.AdmitsBindings b) :
    (σ.derive i b).KeepsTo M :=
  BindsOnly.derive h i fun p hp => (hb p hp).2

end State

end ConsLisp
