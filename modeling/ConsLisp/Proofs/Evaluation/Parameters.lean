import ConsLisp.Proofs.Evaluation.Failures
import ConsLisp.Proofs.Value.Parts
import ConsLisp.Proofs.Store.Changes

/-!
# Parameters by position

The parameters of a closure are bound one after the other, and each takes an argument as long as
there are any. So the parameter at a position takes the argument at that position. This module says
what a lambda list means by the positions of its elements: which names it introduces, what each of
them stands for, and which elements offend. The parameters can be bound if none offends, and
otherwise the leftmost one that does decides the error.

## Main definitions

* `LambdaList.nameAt?`, `LambdaList.valueAt?`: the name that a position introduces, and its value.
* `LambdaList.Bindable`: the conditions under which parameters can be bound to arguments.
* `LambdaList.Offends`, `LambdaList.OffendsCall`: what is wrong with the element at a position.

## Main results

* `LambdaList.accounts_bindFormals`: what binding some of the parameters comes to.
* `LambdaList.bindable_iff`: the conditions hold exactly if no element offends.
* `LambdaList.bindParameters_by_position`: success, the bindings and the error of a call.
-/

namespace ConsLisp

namespace Bindings

variable {b : Bindings} {x : String} {v : Value}

theorem bind?_of_find?_eq_none (h : b.find? x = none) : b.bind? x v = .ok ((x, v) :: b) := by
  rw [bind?, h]

theorem bind?_of_find?_eq_some {w : Value} (h : b.find? x = some w) :
    b.bind? x v = .error (.alreadyBound x) := by
  rw [bind?, h]

/-- A name that was not bound before is bound in addition to the others. -/
theorem find?_cons_eq_some_iff (h : b.find? x = none) {y : String} {u : Value} :
    find? ((x, v) :: b) y = some u ↔ b.find? y = some u ∨ y = x ∧ u = v := by
  rw [find?_cons]
  split
  · next hy =>
    subst hy
    simp [h, eq_comm]
  · next hy => simp [hy]

end Bindings

namespace Value

theorem exists_of_cons_eq_ofList {first rest : Value} {vs : List Value}
    (h : cons first rest = ofList vs) : ∃ us, vs = first :: us ∧ rest = ofList us := by
  cases vs with
  | nil => cases h
  | cons v us =>
    obtain ⟨rfl, hrest⟩ := cons.inj h
    exact ⟨us, rfl, hrest⟩

theorem eq_nil_of_ofList_eq {v : Value} {vs : List Value} (h : v = ofList vs)
    (hv : ∀ first rest, v = cons first rest → False) : vs = [] := by
  cases vs with
  | nil => rfl
  | cons u us => exact (hv u (ofList us) h).elim

theorem elements_of_forall_ne_cons {v : Value} (hv : ∀ first rest, v = cons first rest → False) :
    v.elements = [] := by
  cases v with
  | cons first rest => exact (hv first rest rfl).elim
  | _ => rfl

end Value

namespace LambdaList

/-! ### Positions -/

/-- The position of the marker for the remaining arguments, or the number of formals without one. -/
def markerPosition (formals : List Value) : Nat :=
  formals.findIdx (· == .symbol restMarker)

/-- The name of a plain formal. -/
def plainName? : Value → Option String
  | .symbol x => some x
  | _ => none

/-- The name of a formal: a symbol, or the first element of a list that has a second one. -/
def formalName? : Value → Option String
  | .symbol x => some x
  | .cons (.symbol x) (.cons _ _) => some x
  | _ => none

/-- The default of a formal. -/
def default? : Value → Option Value
  | .cons _ (.cons default _) => some default
  | _ => none

/-- The name that a position introduces: each one before the marker, and the one after it. -/
def nameAt? (formals : List Value) (i : Nat) : Option String :=
  if i < markerPosition formals then formals[i]?.bind formalName?
  else if i = markerPosition formals + 1 then formals[i]?.bind plainName?
  else none

/-- The value of the name that a position introduces. Before the marker it is the argument at that
position, or else the default; after the marker it is the list of the remaining arguments. -/
def valueAt? (formals args : List Value) (i : Nat) : Option Value :=
  if i < markerPosition formals then args[i]?.or (formals[i]?.bind default?)
  else some (.ofList (args.drop (markerPosition formals)))

/-- The number of plain formals before the marker. -/
def plainCount (formals : List Value) : Nat :=
  ((formals.take (markerPosition formals)).filterMap plainName?).length

/-- The parameters can be bound to the arguments. -/
structure Bindable (formals args : List Value) : Prop where
  /-- All formals before the marker have names. -/
  formed {i : Nat} {f : Value} :
    i < markerPosition formals → formals[i]? = some f → (formalName? f).isSome
  /-- There is an argument for each plain formal. -/
  supplied {i : Nat} {x : String} :
    i < markerPosition formals → formals[i]? = some (.symbol x) → i < args.length
  /-- The marker is followed by a symbol. -/
  restNamed : markerPosition formals < formals.length →
    ∃ x, formals[markerPosition formals + 1]? = some (.symbol x)
  /-- No name is introduced twice. -/
  distinct {i j : Nat} {x : String} :
    nameAt? formals i = some x → nameAt? formals j = some x → i = j

/-- What is wrong with a formal that has no name. -/
def malformation : Value → TypeFault
  | .cons first rest => .malformedOptional (Value.cons first rest).text
  | f => .malformedParameter f.text

/-- A name was bound before, or it is introduced further to the left than position `i`. -/
def Taken (bound : Bindings) (formals : List Value) (i : Nat) (x : String) : Prop :=
  (bound.find? x).isSome ∨ ∃ j < i, nameAt? formals j = some x

/-- The formal at a position cannot be bound, in addition to the names that were bound before. The
errors `want` and `unnamed` tell that a plain formal has no argument, and that the marker has no
name after it. -/
inductive Offends (want unnamed : Error) (bound : Bindings) (formals args : List Value) :
    Nat → Error → Prop
  | missing {i : Nat} {x : String} (hi : i < markerPosition formals)
      (hx : formals[i]? = some (.symbol x)) (hargs : args.length ≤ i) :
      Offends want unnamed bound formals args i want
  | malformed {i : Nat} {f : Value} (hi : i < markerPosition formals) (hf : formals[i]? = some f)
      (hname : formalName? f = none) :
      Offends want unnamed bound formals args i (.typing (malformation f))
  | repeated {i : Nat} {x : String} (hx : nameAt? formals i = some x)
      (hv : (valueAt? formals args i).isSome) (htaken : Taken bound formals i x) :
      Offends want unnamed bound formals args i (.alreadyBound x)
  | restUnnamed {i : Nat} (hi : i = markerPosition formals) (hlt : i < formals.length)
      (hx : formals[i + 1]?.bind plainName? = none) :
      Offends want unnamed bound formals args i unnamed

/-- The formal at a position cannot be bound in a call of the callable `name`. -/
def OffendsCall (name : String) (params : Value) (args : List Value) (i : Nat) (e : Error) : Prop :=
  Offends (.arity name (.atLeast (plainCount params.elements)) args.length)
    (.typing (.restWithoutName params.text)) [] params.elements args i e

/-! ### Along a lambda list -/

section Positions

variable {f : Value} {formals args : List Value} {i : Nat}

@[simp] theorem plainName?_eq_some_iff {x : String} : plainName? f = some x ↔ f = .symbol x := by
  cases f <;> simp [plainName?]

theorem ne_marker (hf : plainName? f = none) : f ≠ .symbol restMarker := by
  rintro rfl
  cases hf

theorem markerPosition_marker (formals : List Value) :
    markerPosition (.symbol restMarker :: formals) = 0 := by
  simp [markerPosition, List.findIdx_cons]

theorem markerPosition_cons (hf : f ≠ .symbol restMarker) (formals : List Value) :
    markerPosition (f :: formals) = markerPosition formals + 1 := by
  simp [markerPosition, List.findIdx_cons, beq_false_of_ne hf]

theorem nameAt?_marker (formals : List Value) (i : Nat) :
    nameAt? (.symbol restMarker :: formals) i =
      if i = 1 then formals[0]?.bind plainName? else none := by
  rw [nameAt?, markerPosition_marker, if_neg (Nat.not_lt_zero i)]
  split
  · next hi => rw [hi, List.getElem?_cons_succ]
  · rfl

theorem valueAt?_marker (formals args : List Value) (i : Nat) :
    valueAt? (.symbol restMarker :: formals) args i = some (.ofList args) := by
  rw [valueAt?, markerPosition_marker, if_neg (Nat.not_lt_zero i), List.drop_zero]

theorem nameAt?_zero (hf : f ≠ .symbol restMarker) (formals : List Value) :
    nameAt? (f :: formals) 0 = formalName? f := by
  rw [nameAt?, markerPosition_cons hf, if_pos (Nat.succ_pos _)]
  rfl

theorem nameAt?_succ (hf : f ≠ .symbol restMarker) (formals : List Value) (i : Nat) :
    nameAt? (f :: formals) (i + 1) = nameAt? formals i := by
  simp only [nameAt?, markerPosition_cons hf, Nat.add_lt_add_iff_right, Nat.add_right_cancel_iff,
    List.getElem?_cons_succ]

theorem valueAt?_zero (hf : f ≠ .symbol restMarker) (formals args : List Value) :
    valueAt? (f :: formals) args 0 = args.head?.or (default? f) := by
  rw [valueAt?, markerPosition_cons hf, if_pos (Nat.succ_pos _), List.head?_eq_getElem?]
  rfl

theorem valueAt?_succ (hf : f ≠ .symbol restMarker) (formals args : List Value) (i : Nat) :
    valueAt? (f :: formals) args (i + 1) = valueAt? formals args.tail i := by
  simp only [valueAt?, markerPosition_cons hf, Nat.add_lt_add_iff_right, List.getElem?_cons_succ,
    List.getElem?_tail, List.drop_tail]

theorem valueAt?_eq_none_iff (hi : i < markerPosition formals) :
    valueAt? formals args i = none ↔ args.length ≤ i ∧ formals[i]?.bind default? = none := by
  rw [valueAt?, if_pos hi, Option.or_eq_none_iff, List.getElem?_eq_none_iff]

end Positions

/-- The marker is not counted, nor is anything after it. -/
theorem requiredCount_eq (params : Value) : requiredCount params = plainCount params.elements := by
  fun_induction requiredCount params with
  | case1 formals =>
    rw [Value.elements_cons, plainCount, markerPosition_marker]
    rfl
  | case2 x formals hx ih =>
    have hne : Value.symbol x ≠ .symbol restMarker := fun h => hx (Value.symbol.inj h)
    rw [Value.elements_cons, plainCount, markerPosition_cons hne, ih]
    rfl
  | case3 first formals hfirst ih =>
    have hne : first ≠ .symbol restMarker := hfirst _
    have hplain : plainName? first = none := by
      cases first with
      | symbol x => exact absurd rfl (hfirst x)
      | _ => rfl
    rw [Value.elements_cons, plainCount, markerPosition_cons hne, List.take_succ_cons,
      List.filterMap_cons_none hplain, ih]
    rfl
  | case4 v hsymbol hcons =>
    cases v with
    | cons first formals => exact absurd rfl (hcons first formals)
    | _ => rfl

/-! ### Offending formals -/

section Offences

variable {want unnamed : Error} {bound : Bindings} {f : Value} {formals args : List Value}
  {i : Nat} {e e' : Error}

/-- A formal that a position names stands before the marker, or right after it. -/
theorem nameAt?_cases {x : String} (h : nameAt? formals i = some x) :
    (i < markerPosition formals ∧ ∃ f, formals[i]? = some f ∧ formalName? f = some x) ∨
      (i = markerPosition formals + 1 ∧ formals[i]? = some (.symbol x)) := by
  unfold nameAt? at h
  split at h
  · next hi => exact .inl ⟨hi, Option.bind_eq_some_iff.1 h⟩
  · split at h
    · next hi =>
      obtain ⟨f, hf, hx⟩ := Option.bind_eq_some_iff.1 h
      rw [plainName?_eq_some_iff.1 hx] at hf
      exact .inr ⟨hi, hf⟩
    · cases h

theorem nameAt?_of_symbol {x : String} (hi : i < markerPosition formals)
    (hx : formals[i]? = some (.symbol x)) : nameAt? formals i = some x := by
  rw [nameAt?, if_pos hi, hx]
  rfl

/-- A plain formal without an argument has no value. -/
theorem valueAt?_eq_none {x : String} (hi : i < markerPosition formals)
    (hx : formals[i]? = some (.symbol x)) (hargs : args.length ≤ i) :
    valueAt? formals args i = none := by
  rw [valueAt?, if_pos hi, hx, List.getElem?_eq_none hargs]
  rfl

/-- There is no name at the marker. -/
theorem nameAt?_markerPosition (formals : List Value) :
    nameAt? formals (markerPosition formals) = none := by
  rw [nameAt?, if_neg (Nat.lt_irrefl _), if_neg (Nat.ne_of_lt (Nat.lt_succ_self _))]

/-- The error of the formal at a position, if it offends. -/
def offence (want unnamed : Error) (formals args : List Value) (i : Nat) : Error :=
  match nameAt? formals i, valueAt? formals args i with
  | some x, some _ => .alreadyBound x
  | some _, none => want
  | none, _ =>
    if i < markerPosition formals then .typing (malformation (formals[i]?.getD .empty)) else unnamed

theorem Offends.eq_offence (h : Offends want unnamed bound formals args i e) :
    e = offence want unnamed formals args i := by
  cases h with
  | missing hi hx hargs =>
    rw [offence, nameAt?_of_symbol hi hx, valueAt?_eq_none hi hx hargs]
  | malformed hi hf hname =>
    have hnone : nameAt? formals i = none := by
      rw [nameAt?, if_pos hi, hf, Option.bind_some, hname]
    rw [offence, hnone]
    simp only
    rw [if_pos hi, hf, Option.getD_some]
  | repeated hx hv =>
    obtain ⟨v, hv⟩ := Option.isSome_iff_exists.1 hv
    rw [offence, hx, hv]
  | restUnnamed hi =>
    rw [offence, hi, nameAt?_markerPosition]
    simp only
    rw [if_neg (Nat.lt_irrefl _)]

/-- There is one thing wrong with a formal that offends. -/
theorem Offends.unique (h : Offends want unnamed bound formals args i e)
    (h' : Offends want unnamed bound formals args i e') : e = e' :=
  h.eq_offence.trans h'.eq_offence.symm

theorem taken_succ_iff (hf : f ≠ .symbol restMarker) {x y : String} (hx : formalName? f = some x)
    (v : Value) :
    Taken bound (f :: formals) (i + 1) y ↔ Taken ((x, v) :: bound) formals i y := by
  have hearlier : (∃ j < i + 1, nameAt? (f :: formals) j = some y) ↔
      y = x ∨ ∃ j < i, nameAt? formals j = some y := by
    constructor
    · rintro ⟨j, hj, hy⟩
      cases j with
      | zero =>
        rw [nameAt?_zero hf, hx] at hy
        exact .inl (Option.some.inj hy).symm
      | succ j =>
        rw [nameAt?_succ hf] at hy
        exact .inr ⟨j, Nat.lt_of_succ_lt_succ hj, hy⟩
    · rintro (rfl | ⟨j, hj, hy⟩)
      · exact ⟨0, Nat.succ_pos i, (nameAt?_zero hf formals).trans hx⟩
      · exact ⟨j + 1, Nat.succ_lt_succ hj, (nameAt?_succ hf formals j).trans hy⟩
  have hbound : (Bindings.find? ((x, v) :: bound) y).isSome ↔ y = x ∨ (bound.find? y).isSome := by
    rw [Bindings.find?_cons]
    split
    · next hy => simp [hy]
    · next hy => simp [hy]
  rw [Taken, Taken, hearlier, hbound]
  exact or_left_comm.trans or_assoc.symm

/-- Behind a formal with a name the same formals offend as when they stand alone, with the name
bound before. -/
theorem offends_succ_iff (hf : f ≠ .symbol restMarker) {x : String} (hx : formalName? f = some x)
    (v : Value) :
    Offends want unnamed bound (f :: formals) args (i + 1) e ↔
      Offends want unnamed ((x, v) :: bound) formals args.tail i e := by
  have hposition := markerPosition_cons hf formals
  have hlength : args.tail.length = args.length - 1 := List.length_tail
  constructor
  · intro h
    cases h with
    | missing hi hy hargs => exact .missing (by omega) hy (by omega)
    | malformed hi hg hname => exact .malformed (by omega) hg hname
    | repeated hy hv htaken =>
      rw [nameAt?_succ hf] at hy
      rw [valueAt?_succ hf] at hv
      exact .repeated hy hv ((taken_succ_iff hf hx v).1 htaken)
    | restUnnamed hi hlt hy => exact .restUnnamed (by omega) (Nat.lt_of_succ_lt_succ hlt) hy
  · intro h
    cases h with
    | missing hi hy hargs => exact .missing (by omega) hy (by omega)
    | malformed hi hg hname => exact .malformed (by omega) hg hname
    | repeated hy hv htaken =>
      rw [← nameAt?_succ hf] at hy
      rw [← valueAt?_succ hf] at hv
      exact .repeated hy hv ((taken_succ_iff hf hx v).2 htaken)
    | restUnnamed hi hlt hy => exact .restUnnamed (by omega) (Nat.succ_lt_succ hlt) hy

/-- Whatever repeats a name offends: if it does not come to be repeated, an argument is missing. -/
theorem exists_offends_of_taken {x : String} (hx : nameAt? formals i = some x)
    (htaken : Taken bound formals i x) : ∃ e, Offends want unnamed bound formals args i e := by
  cases hv : valueAt? formals args i with
  | some v =>
    have hvalue : (valueAt? formals args i).isSome := by
      rw [hv]
      rfl
    exact ⟨_, .repeated hx hvalue htaken⟩
  | none =>
    obtain ⟨hi, f, hf, hname⟩ | ⟨hi, -⟩ := nameAt?_cases hx
    · obtain ⟨hargs, hdefault⟩ := (valueAt?_eq_none_iff hi).1 hv
      rw [hf] at hdefault
      unfold formalName? at hname
      split at hname
      · exact ⟨_, .missing hi hf hargs⟩
      · cases hdefault
      · cases hname
    · rw [valueAt?, if_neg (by omega)] at hv
      cases hv

/-- Parameters can be bound exactly if none of them offends. -/
theorem bindable_iff :
    Bindable formals args ↔ ∀ i e, ¬Offends want unnamed [] formals args i e := by
  constructor
  · intro h i e hoffends
    cases hoffends with
    | missing hi hx hargs => exact absurd (h.supplied hi hx) (Nat.not_lt.2 hargs)
    | malformed hi hf hname =>
      have hsome := h.formed hi hf
      rw [hname] at hsome
      cases hsome
    | repeated hx _ htaken =>
      obtain htaken | ⟨j, hj, hy⟩ := htaken
      · cases htaken
      · exact absurd (h.distinct hy hx) (Nat.ne_of_lt hj)
    | restUnnamed hi hlt hx =>
      obtain ⟨x, hrest⟩ := h.restNamed (hi ▸ hlt)
      rw [hi, hrest] at hx
      cases hx
  · intro h
    have hfirst {i j : Nat} {x : String} (hi : nameAt? formals i = some x)
        (hj : nameAt? formals j = some x) : ¬i < j := fun hlt =>
      have ⟨e, hoffends⟩ := exists_offends_of_taken hj (.inr ⟨i, hlt, hi⟩)
      h j e hoffends
    refine ⟨fun {i f} hi hf => ?_, fun {i x} hi hx => ?_, fun hlt => ?_, fun hi hj => ?_⟩
    · cases hname : formalName? f with
      | none => exact absurd (.malformed hi hf hname) (h i _)
      | some x => rfl
    · exact Nat.lt_of_not_le fun hargs => h i _ (.missing hi hx hargs)
    · cases hx : formals[markerPosition formals + 1]?.bind plainName? with
      | none => exact absurd (.restUnnamed rfl hlt hx) (h _ _)
      | some x =>
        obtain ⟨f, hf, hplain⟩ := Option.bind_eq_some_iff.1 hx
        exact ⟨x, hf.trans (congrArg some (plainName?_eq_some_iff.1 hplain))⟩
    · exact Nat.le_antisymm (Nat.le_of_not_lt (hfirst hj hi)) (Nat.le_of_not_lt (hfirst hi hj))

end Offences

/-! ### Binding -/

/-- What binding formals to arguments, in addition to the names that were bound before, comes to. If
no formal offends, the names that the formals introduce have been added. Otherwise the leftmost
formal that offends decides the error. -/
def Accounts (want unnamed : Error) (bound : Bindings) (formals args : List Value) :
    Except Error Bindings → Prop
  | .ok b => (∀ i e, ¬Offends want unnamed bound formals args i e) ∧
      ∀ x v, b.find? x = some v ↔ bound.find? x = some v ∨
        ∃ i, nameAt? formals i = some x ∧ valueAt? formals args i = some v
  | .error e => ∃ i, Offends want unnamed bound formals args i e ∧
      ∀ j < i, ∀ e', ¬Offends want unnamed bound formals args j e'

section Binding

variable {want unnamed : Error} {bound : Bindings} {f : Value} {formals args : List Value}
  {x : String} {v : Value}

/-- The first formal decides the error if it offends. -/
theorem accounts_error {e : Error} (h : Offends want unnamed bound formals args 0 e) :
    Accounts want unnamed bound formals args (.error e) :=
  ⟨0, h, fun j hj => absurd hj (Nat.not_lt_zero j)⟩

theorem accounts_nil : Accounts want unnamed bound [] args (.ok bound) := by
  have hposition : markerPosition [] = 0 := rfl
  have hname (i : Nat) : nameAt? [] i = none := by
    simp [nameAt?]
  refine ⟨fun i e h => ?_, fun x v => ?_⟩
  · cases h with
    | missing hi | malformed hi => exact absurd hi (Nat.not_lt_zero i)
    | repeated hx =>
      rw [hname] at hx
      cases hx
    | restUnnamed _ hlt => exact absurd hlt (Nat.not_lt_zero i)
  · simp [hname]

/-- The first formal does not offend if it has a name that is not taken, and a value. -/
theorem not_offends_zero (hf : f ≠ .symbol restMarker) (hx : formalName? f = some x)
    (hv : args.head?.or (default? f) = some v) (hfree : bound.find? x = none) (e : Error) :
    ¬Offends want unnamed bound (f :: formals) args 0 e := by
  intro h
  have hposition := markerPosition_cons hf formals
  cases h with
  | missing hi hy hargs =>
    obtain rfl := Option.some.inj hy
    obtain rfl := List.length_eq_zero_iff.1 (Nat.le_zero.1 hargs)
    cases hv
  | malformed hi hg hname =>
    obtain rfl := Option.some.inj hg
    cases hname.symm.trans hx
  | repeated hy _ htaken =>
    rw [nameAt?_zero hf, hx] at hy
    obtain rfl := Option.some.inj hy
    obtain htaken | ⟨j, hj, -⟩ := htaken
    · rw [hfree] at htaken
      cases htaken
    · exact absurd hj (Nat.not_lt_zero j)
  | restUnnamed hi => omega

/-- The names that are introduced, of which the first formal has one. -/
theorem introduces_iff (hf : f ≠ .symbol restMarker) (hx : formalName? f = some x)
    (hv : args.head?.or (default? f) = some v) {y : String} {u : Value} :
    (∃ i, nameAt? (f :: formals) i = some y ∧ valueAt? (f :: formals) args i = some u) ↔
      (y = x ∧ u = v) ∨ ∃ i, nameAt? formals i = some y ∧ valueAt? formals args.tail i = some u := by
  constructor
  · rintro ⟨i, hy, hu⟩
    cases i with
    | zero =>
      rw [nameAt?_zero hf, hx] at hy
      rw [valueAt?_zero hf, hv] at hu
      exact .inl ⟨(Option.some.inj hy).symm, (Option.some.inj hu).symm⟩
    | succ i =>
      rw [nameAt?_succ hf] at hy
      rw [valueAt?_succ hf] at hu
      exact .inr ⟨i, hy, hu⟩
  · rintro (⟨rfl, rfl⟩ | ⟨i, hy, hu⟩)
    · exact ⟨0, (nameAt?_zero hf formals).trans hx, (valueAt?_zero hf formals args).trans hv⟩
    · exact ⟨i + 1, (nameAt?_succ hf formals i).trans hy, (valueAt?_succ hf formals args i).trans hu⟩

/-- A formal takes its value, unless its name is taken, and then the others follow. -/
theorem accounts_bind (hf : f ≠ .symbol restMarker) (hx : formalName? f = some x)
    (hv : args.head?.or (default? f) = some v) {more : Bindings → Except Error Bindings}
    (h : ∀ c, Accounts want unnamed c formals args.tail (more c)) :
    Accounts want unnamed bound (f :: formals) args (bound.bind? x v >>= more) := by
  cases hfree : bound.find? x with
  | some w =>
    rw [Bindings.bind?_of_find?_eq_some hfree]
    refine accounts_error (.repeated ((nameAt?_zero hf formals).trans hx) ?_ (.inl ?_))
    · rw [valueAt?_zero hf, hv]
      rfl
    · rw [hfree]
      rfl
  | none =>
    have hmore := h ((x, v) :: bound)
    rw [Bindings.bind?_of_find?_eq_none hfree]
    change Accounts want unnamed bound (f :: formals) args (more ((x, v) :: bound))
    generalize more ((x, v) :: bound) = r at hmore ⊢
    cases r with
    | ok b =>
      obtain ⟨hnone, hb⟩ := hmore
      refine ⟨fun i e hoffends => ?_, fun y u => ?_⟩
      · cases i with
        | zero => exact not_offends_zero hf hx hv hfree e hoffends
        | succ i => exact hnone i e ((offends_succ_iff hf hx v).1 hoffends)
      · rw [hb, introduces_iff hf hx hv, Bindings.find?_cons_eq_some_iff hfree, or_assoc]
    | error e =>
      obtain ⟨i, hoffends, hleft⟩ := hmore
      refine ⟨i + 1, (offends_succ_iff hf hx v).2 hoffends, fun j hj e' hj' => ?_⟩
      cases j with
      | zero => exact not_offends_zero hf hx hv hfree e' hj'
      | succ j => exact hleft j (Nat.lt_of_succ_lt_succ hj) e' ((offends_succ_iff hf hx v).1 hj')

/-- The marker offends without a name after it, and the name after it offends if it is taken. -/
theorem offends_marker_cases {i : Nat} {e : Error}
    (h : Offends want unnamed bound (.symbol restMarker :: formals) args i e) :
    (i = 0 ∧ formals[0]?.bind plainName? = none) ∨
      (i = 1 ∧ ∃ y, formals[0]?.bind plainName? = some y ∧ (bound.find? y).isSome) := by
  have hposition := markerPosition_marker formals
  cases h with
  | missing hi | malformed hi => omega
  | repeated hy _ htaken =>
    rw [nameAt?_marker] at hy
    split at hy
    · next hi =>
      refine .inr ⟨hi, _, hy, htaken.resolve_right ?_⟩
      rintro ⟨j, hj, hname⟩
      rw [nameAt?_marker, if_neg (by omega)] at hname
      cases hname
    · cases hy
  | restUnnamed hi _ hy =>
    obtain rfl : i = 0 := hi.trans hposition
    exact .inl ⟨rfl, hy⟩

/-- What the marker announces takes all arguments, unless its name is taken. -/
theorem accounts_rest (formals : List Value) :
    Accounts want unnamed bound (.symbol restMarker :: .symbol x :: formals) args
      (bound.bind? x (.ofList args)) := by
  have hname (i : Nat) : nameAt? (.symbol restMarker :: .symbol x :: formals) i =
      if i = 1 then some x else none := nameAt?_marker _ i
  cases hfree : bound.find? x with
  | some w =>
    rw [Bindings.bind?_of_find?_eq_some hfree]
    refine ⟨1, .repeated (hname 1) ?_ (.inl ?_), fun j hj e' hj' => ?_⟩
    · rw [valueAt?_marker]
      rfl
    · rw [hfree]
      rfl
    · obtain ⟨-, hnone⟩ | ⟨hone, -⟩ := offends_marker_cases hj'
      · cases hnone
      · omega
  | none =>
    rw [Bindings.bind?_of_find?_eq_none hfree]
    refine ⟨fun i e hoffends => ?_, fun y u => ?_⟩
    · obtain ⟨-, hnone⟩ | ⟨-, y, hy, htaken⟩ := offends_marker_cases hoffends
      · cases hnone
      · obtain rfl := Option.some.inj hy
        rw [hfree] at htaken
        cases htaken
    · rw [Bindings.find?_cons_eq_some_iff hfree]
      simp [hname, valueAt?_marker, eq_comm]

/-- A formal without a name offends. -/
theorem accounts_malformed (hf : f ≠ .symbol restMarker) (hname : formalName? f = none) :
    Accounts want unnamed bound (f :: formals) args (.error (.typing (malformation f))) := by
  refine accounts_error (.malformed ?_ rfl hname)
  rw [markerPosition_cons hf]
  exact Nat.succ_pos _

/-- Binding formals to arguments is accounted for by their positions. -/
theorem accounts_bindFormals {name : String} {params shown actuals lambdaList : Value}
    (hactuals : actuals = .ofList args) :
    Accounts (.arity name (.atLeast (requiredCount params)) shown.length)
      (.typing (.restWithoutName params.text)) bound lambdaList.elements args
      (bindFormals name params shown bound lambdaList actuals) := by
  -- The induction follows the formals. The argument list is proper, so a pair is left of it exactly if
  -- there is an argument for the next formal.
  fun_induction bindFormals name params shown bound lambdaList actuals generalizing args with
  | case1 bound actuals rest formals =>
    rw [Value.elements_cons, Value.elements_cons, hactuals]
    exact accounts_rest formals.elements
  | case2 bound formals actuals hformals =>
    rw [Value.elements_cons]
    refine accounts_error (.restUnnamed (markerPosition_marker _).symm (Nat.succ_pos _) ?_)
    cases formals with
    | cons first rest =>
      cases first with
      | symbol x => exact (hformals x rest rfl).elim
      | _ =>
        rw [List.getElem?_cons_succ, Value.elements_cons]
        rfl
    | _ => rfl
  | case3 bound x formals hx actual actuals ih =>
    obtain ⟨args, rfl, hrest⟩ := Value.exists_of_cons_eq_ofList hactuals
    rw [Value.elements_cons]
    exact accounts_bind (fun h => hx (Value.symbol.inj h)) rfl rfl fun c => ih c hrest
  | case4 bound x formals actuals hx hnone =>
    obtain rfl := Value.eq_nil_of_ofList_eq hactuals hnone
    rw [Value.elements_cons]
    refine accounts_error (.missing ?_ rfl (Nat.zero_le 0))
    rw [markerPosition_cons fun h => hx (Value.symbol.inj h)]
    exact Nat.succ_pos _
  | case5 bound x default rest formals actual actuals ih =>
    obtain ⟨args, rfl, hrest⟩ := Value.exists_of_cons_eq_ofList hactuals
    have hne : Value.cons (.symbol x) (.cons default rest) ≠ .symbol restMarker := ne_marker rfl
    rw [Value.elements_cons]
    exact accounts_bind hne rfl rfl fun c => ih c hrest
  | case6 bound x default rest formals actuals hnone ih =>
    obtain rfl := Value.eq_nil_of_ofList_eq hactuals hnone
    have hne : Value.cons (.symbol x) (.cons default rest) ≠ .symbol restMarker := ne_marker rfl
    rw [Value.elements_cons]
    exact accounts_bind hne rfl rfl fun c => ih c hactuals
  | case7 bound actuals first rest formals hfirst =>
    rw [Value.elements_cons]
    refine accounts_malformed (ne_marker rfl) ?_
    -- A list has a name only if it matches the pattern of an optional formal, which is excluded.
    unfold formalName?
    split
    · next h => cases h
    · next x default more h =>
      obtain ⟨rfl, rfl⟩ := Value.cons.inj h
      exact (hfirst x default more rfl rfl).elim
    · rfl
  | case8 bound actuals formal formals hsymbol hoptional hpair =>
    rw [Value.elements_cons]
    cases formal with
    | symbol x => exact (hsymbol x rfl).elim
    | cons first rest => exact (hpair first rest rfl).elim
    | _ => exact accounts_malformed (ne_marker rfl) rfl
  | case9 bound formals actuals _ _ _ hformals =>
    rw [Value.elements_of_forall_ne_cons hformals]
    exact accounts_nil

/-- The parameters of a call are bound to the values that belong to their positions, and no other
name is bound. -/
theorem find?_of_bindParameters {name : String} {params : Value} {b : Bindings}
    (hb : bindParameters name params (.ofList args) = .ok b) :
    b.find? x = some v ↔
      ∃ i, nameAt? params.elements i = some x ∧ valueAt? params.elements args i = some v := by
  have haccounts : Accounts (.arity name (.atLeast (requiredCount params)) (Value.ofList args).length)
      (.typing (.restWithoutName params.text)) [] params.elements args
      (bindParameters name params (.ofList args)) := accounts_bindFormals rfl
  rw [hb] at haccounts
  simpa using haccounts.2 x v

/-- The parameters of a closure by their positions. They can be bound exactly under the conditions
of `Bindable`. A frame that is made with the bindings then holds, for each position that introduces
a name, the value that belongs to the position, and nothing else. In all other cases the leftmost
formal that offends decides the error. -/
theorem bindParameters_by_position (name : String) (params : Value) (args : List Value) :
    ((∃ b, bindParameters name params (.ofList args) = .ok b) ↔ Bindable params.elements args) ∧
    (∀ b, bindParameters name params (.ofList args) = .ok b →
      ∀ (σ : State) (frame : FrameId) (x : String) (v : Value),
        (σ.derive frame b).local? σ.frameCount x = some v ↔
          ∃ i, nameAt? params.elements i = some x ∧ valueAt? params.elements args i = some v) ∧
    ∀ e, bindParameters name params (.ofList args) = .error e ↔
      ∃ i, OffendsCall name params args i e ∧ ∀ j < i, ∀ e', ¬OffendsCall name params args j e' := by
  have haccounts : Accounts (.arity name (.atLeast (requiredCount params)) (Value.ofList args).length)
      (.typing (.restWithoutName params.text)) [] params.elements args
      (bindFormals name params (.ofList args) [] params (.ofList args)) := accounts_bindFormals rfl
  rw [requiredCount_eq, Value.length, Value.elements_ofList] at haccounts
  unfold bindParameters
  cases hresult : bindFormals name params (.ofList args) [] params (.ofList args) with
  | ok b =>
    rw [hresult] at haccounts
    obtain ⟨hnone, -⟩ := haccounts
    refine ⟨⟨fun _ => bindable_iff.2 hnone, fun _ => ⟨b, rfl⟩⟩, fun c hc σ frame x v => ?_,
      fun e => ⟨fun he => ?_, ?_⟩⟩
    · rw [State.local?_derive, if_pos rfl]
      exact find?_of_bindParameters (hresult.trans hc)
    · cases he
    · rintro ⟨i, hoffends, -⟩
      exact absurd hoffends (hnone i e)
  | error e =>
    rw [hresult] at haccounts
    obtain ⟨i, hoffends, hleft⟩ := haccounts
    refine ⟨⟨?_, fun h => absurd hoffends (bindable_iff.1 h i e)⟩, fun b hb => ?_,
      fun e' => ⟨fun he => ?_, ?_⟩⟩
    · rintro ⟨b, hb⟩
      cases hb
    · cases hb
    · obtain rfl := Except.error.inj he
      exact ⟨i, hoffends, hleft⟩
    · rintro ⟨j, hoffends', hleft'⟩
      -- Neither position is to the left of the other, and at one position there is one error.
      obtain rfl : i = j := Nat.le_antisymm
        (Nat.le_of_not_lt fun hj => hleft j hj e' hoffends')
        (Nat.le_of_not_lt fun hi => hleft' i hi e hoffends)
      rw [hoffends.unique hoffends']

/-- `(a (b 1) . c)` -/
def parametersOfAllKinds : Value :=
  .ofList [.symbol "a", .ofList [.symbol "b", .integer 1], .symbol ".", .symbol "c"]

theorem bindParameters_by_position_parametersOfAllKinds :
    Bindable parametersOfAllKinds.elements [.integer 7] ∧
    (∃ i, nameAt? parametersOfAllKinds.elements i = some "b" ∧
      valueAt? parametersOfAllKinds.elements [.integer 7] i = some (.integer 1)) ∧
    ∃ i, OffendsCall "f" parametersOfAllKinds [] i (.arity "f" (.atLeast 1) 0) := by
  have hsupplied := bindParameters_by_position "f" parametersOfAllKinds [.integer 7]
  have hok : bindParameters "f" parametersOfAllKinds (.ofList [.integer 7]) =
      .ok [("c", .empty), ("b", .integer 1), ("a", .integer 7)] := rfl
  have hmissing : bindParameters "f" parametersOfAllKinds (.ofList []) =
      .error (.arity "f" (.atLeast 1) 0) := rfl
  obtain ⟨i, hoffends, -⟩ :=
    ((bindParameters_by_position "f" parametersOfAllKinds []).2.2 _).1 hmissing
  exact ⟨hsupplied.1.1 ⟨_, hok⟩,
    (hsupplied.2.1 _ hok default 0 "b" (.integer 1)).1 rfl, i, hoffends⟩

end Binding

end LambdaList

end ConsLisp
