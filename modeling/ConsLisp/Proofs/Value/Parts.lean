import ConsLisp.Evaluation.LambdaList
import ConsLisp.Evaluation.Primitive

/-!
# The parts of a list

Evaluation takes lists apart: it goes along operands, it binds parameters to arguments, and
primitives select components of their arguments. What comes out are parts of the lists that went in:
pairs on the way along a list, their components, and the components of those. Besides parts, a
primitive returns a new pair of two parts, or a number, a truth value or a type.

## Main definitions

* `Value.PartOf`: a value is reached from another one by going to components of pairs.

## Main results

* `Value.partOf_of_properElements`: the elements of a list are parts of it.
* `LambdaList.partOf_of_bindParameters`: what a call binds are parts of the lambda list and of the
  arguments.
* `Primitive.result_cases`: what a primitive returns.
-/

namespace ConsLisp

namespace Value

/-- The value is another one, or a part of the first or of the second component of that one. -/
inductive PartOf (u : Value) : Value → Prop
  | refl : PartOf u u
  | first {first rest : Value} (h : PartOf u first) : PartOf u (cons first rest)
  | rest {first rest : Value} (h : PartOf u rest) : PartOf u (cons first rest)

/-- The components of a pair are parts of whatever the pair is a part of. -/
theorem PartOf.of_cons {first rest v : Value} (h : (cons first rest).PartOf v) :
    first.PartOf v ∧ rest.PartOf v := by
  induction h with
  | refl => exact ⟨.first .refl, .rest .refl⟩
  | first _ ih => exact ⟨.first ih.1, .first ih.2⟩
  | rest _ ih => exact ⟨.rest ih.1, .rest ih.2⟩

theorem partOf_of_mem_elements {u v : Value} (h : u ∈ v.elements) : u.PartOf v := by
  induction v with
  | cons first rest _ ih =>
    rw [elements_cons] at h
    obtain rfl | hrest := List.mem_cons.1 h
    · exact .first .refl
    · exact .rest (ih hrest)
  | _ => cases h

theorem partOf_of_properElements {v : Value} {vs : List Value} (hvs : v.properElements = .ok vs) :
    ∀ u ∈ vs, u.PartOf v := by
  obtain rfl : v.elements = vs := by
    unfold properElements toList? at hvs
    split at hvs
    · next hlist =>
      split at hlist
      · cases hlist
        cases hvs
        rfl
      · cases hlist
    · cases hvs
  exact fun u hu => partOf_of_mem_elements hu

/-- The first component of a pair, or the empty list for want of one. -/
theorem partOf_first? (v : Value) :
    (v.first?.getD .empty).PartOf v ∨ v.first?.getD .empty = .empty := by
  cases v with
  | cons first rest => exact .inl (.first .refl)
  | _ => exact .inr rfl

/-- The second component of a pair, or the empty list for want of one. -/
theorem partOf_rest? (v : Value) :
    (v.rest?.getD .empty).PartOf v ∨ v.rest?.getD .empty = .empty := by
  cases v with
  | cons first rest => exact .inl (.rest .refl)
  | _ => exact .inr rfl

end Value

/-! ### Parameters -/

namespace LambdaList

/-- Every binding gives a symbol of the lambda list a part of the lambda list or of the
arguments. -/
def BindsParts (params args : Value) (b : Bindings) : Prop :=
  ∀ p ∈ b, (Value.symbol p.1).PartOf params ∧ (p.2.PartOf params ∨ p.2.PartOf args)

variable {params args : Value} {bound b : Bindings}

theorem BindsParts.bind? {x : String} {v : Value} (hbound : BindsParts params args bound)
    (hx : (Value.symbol x).PartOf params) (hv : v.PartOf params ∨ v.PartOf args)
    (h : bound.bind? x v = .ok b) : BindsParts params args b := by
  unfold Bindings.bind? at h
  split at h <;> cases h
  exact List.forall_mem_cons.2 ⟨⟨hx, hv⟩, hbound⟩

/-- What is bound first and what is bound afterwards. -/
theorem BindsParts.bind?_bind {x : String} {v : Value} {more : Bindings → Except Error Bindings}
    (hbound : BindsParts params args bound) (hx : (Value.symbol x).PartOf params)
    (hv : v.PartOf params ∨ v.PartOf args)
    (hmore : ∀ c, BindsParts params args c → more c = .ok b → BindsParts params args b)
    (h : (bound.bind? x v >>= more) = .ok b) : BindsParts params args b := by
  cases hc : bound.bind? x v with
  | error e =>
    rw [hc] at h
    cases h
  | ok c =>
    rw [hc] at h
    exact hmore c (hbound.bind? hx hv hc) h

theorem BindsParts.of_bindFormals {name : String} {shown shownArgs formals actuals : Value}
    (hbound : BindsParts params args bound) (hformals : formals.PartOf params)
    (hactuals : actuals.PartOf args)
    (h : bindFormals name shown shownArgs bound formals actuals = .ok b) :
    BindsParts params args b := by
  fun_induction bindFormals name shown shownArgs bound formals actuals with
  | case1 bound actuals rest _ =>
    -- The rest parameter takes all remaining arguments.
    exact hbound.bind? hformals.of_cons.2.of_cons.1 (.inr hactuals) h
  | case3 bound x formals _ actual actuals ih =>
    obtain ⟨hx, hformals⟩ := hformals.of_cons
    obtain ⟨hactual, hactuals⟩ := hactuals.of_cons
    exact hbound.bind?_bind hx (.inr hactual) (fun c hc => ih c hc hformals hactuals) h
  | case5 bound x default _ formals actual actuals ih =>
    obtain ⟨hformal, hformals⟩ := hformals.of_cons
    obtain ⟨hactual, hactuals⟩ := hactuals.of_cons
    exact hbound.bind?_bind hformal.of_cons.1 (.inr hactual)
      (fun c hc => ih c hc hformals hactuals) h
  | case6 bound x default _ formals actuals _ ih =>
    obtain ⟨hformal, hformals⟩ := hformals.of_cons
    obtain ⟨hx, hdefault⟩ := hformal.of_cons
    exact hbound.bind?_bind hx (.inl hdefault.of_cons.1)
      (fun c hc => ih c hc hformals hactuals) h
  | case9 =>
    cases h
    exact hbound
  | _ => cases h

/-- What a call binds are parts of the lambda list and of the arguments. -/
theorem partOf_of_bindParameters {name : String} (h : bindParameters name params args = .ok b) :
    BindsParts params args b :=
  .of_bindFormals (List.forall_mem_nil _) .refl .refl h

end LambdaList

/-! ### Primitives -/

/-- A number, a truth value or a type. -/
def Value.IsDatum : Value → Prop
  | .integer _ | .bool _ | .typeTag _ => True
  | _ => False

/-- A primitive returns a datum, a part of its arguments, or a pair of two parts of which the second
is a list. -/
theorem Primitive.result_cases {op : Primitive} {args v : Value} (h : op.compute args = .ok v) :
    v.IsDatum ∨ v.PartOf args ∨
      ∃ first rest, v = .cons first rest ∧ rest.isList = true ∧ first.PartOf args ∧
        rest.PartOf args := by
  have hsole {u : Value} (hu : soleArgument args = u) : u.PartOf args ∨ u = .empty :=
    hu ▸ Value.partOf_first? args
  have hnumber {n? : Except Error Fixnum} (h : .integer <$> n? = .ok v) : v.IsDatum := by
    cases n? <;> cases h
    trivial
  cases op with
  | add | subtract | multiply | divide => exact .inl (hnumber h)
  | car =>
    rw [compute] at h
    split at h <;> cases h
    next hpair => exact .inr (.inl ((hsole hpair).resolve_right nofun).of_cons.1)
  | cdr =>
    rw [compute] at h
    split at h <;> cases h
    next hpair => exact .inr (.inl ((hsole hpair).resolve_right nofun).of_cons.2)
  | cons =>
    rw [compute.eq_def] at h
    simp only at h
    split at h
    · split at h <;> cases h
      next hrest => exact .inr (.inr ⟨_, _, rfl, hrest, .first .refl, .rest (.first .refl)⟩)
    · cases h
  | list =>
    cases h
    exact .inr (.inl .refl)
  | isEmpty | typeOf | println =>
    cases h
    exact .inl trivial

end ConsLisp
