import ConsLisp.Proofs.Evaluation.Arithmetic
import ConsLisp.Proofs.Prelude.Definitions

/-!
# The list functions of the prelude

`length`, `append` and `last` are functions of the language, which call themselves. Their bodies run
in frames that bind nothing but the parameters, so the names of the prelude and of the builtin
operations are global there. This makes one equation of each body: what a call comes to, in terms of
the call for the rest of the list. The elements of the list are bound to parameters on the way and
never evaluated.

## Main definitions

* `preludeNames`, `State.IsCallFrame`: the frames in which the bodies run.
* `State.GainsFramesOnly`: a later state differs from an earlier one by further frames.
* `ComputesGlobally`: the result of a function of the global frame that changes nothing.

## Main results

* `applies_length_cons_iff`, `applies_append_cons_iff`, `applies_last_cons_iff`: the equations.
* `list_functions_compute`: the results for lists of any length.
-/

namespace ConsLisp

variable {files : Files} {σ τ : State} {i : FrameId} {b : Bindings} {r : Outcome Value}

/-! ### Frames of calls -/

/-- The names of the builtin operations and of the definitions of the prelude. -/
def preludeNames : List String :=
  SpecialForm.all.map SpecialForm.name ++ Primitive.all.map Primitive.name ++
    preludeDefinitions.map Definition.name

namespace State

/-- The frame binds what is in `b`, and the names of the prelude, seen from it, are the global
ones. -/
structure IsCallFrame (σ : State) (i : FrameId) (b : Bindings) : Prop where
  offersPrelude : σ.OffersPrelude
  lookup?_eq {x : String} {v : Value} : b.find? x = some v → σ.lookup? i x = some v
  seesGlobal {x : String} : x ∈ preludeNames → σ.SeesGlobal i x

/-- A call whose parameters have other names than these makes such a frame. -/
theorem OffersPrelude.isCallFrame (hσ : σ.OffersPrelude)
    (hb : ∀ x ∈ b.map Prod.fst, x ∉ preludeNames) :
    (σ.derive globalFrame b).IsCallFrame σ.frameCount b where
  offersPrelude := hσ.of_persistsIn (.derive σ globalFrame b)
  lookup?_eq hx := by
    rw [lookup?, resolve?_derive, hx]
    rfl
  seesGlobal {x} hx := by
    refine (hσ.seesGlobal x).derive ?_
    cases hv : b.find? x with
    | none => rfl
    | some v => exact absurd hx (hb x (List.mem_map_of_mem (Bindings.mem_of_find? hv)))

namespace IsCallFrame

variable (h : σ.IsCallFrame i b)
include h

theorem lookup?_form (form : SpecialForm) :
    σ.lookup? i form.name = some (.specialForm form) := by
  have hname : form.name ∈ preludeNames :=
    List.mem_append_left _ (List.mem_append_left _ (List.mem_map_of_mem form.mem_all))
  exact (h.seesGlobal hname).lookup?_eq (h.offersPrelude.form form)

theorem lookup?_primitive (op : Primitive) :
    σ.lookup? i op.name = some (.primitive op.name op) := by
  have hname : op.name ∈ preludeNames :=
    List.mem_append_left _ (List.mem_append_right _ (List.mem_map_of_mem op.mem_all))
  exact (h.seesGlobal hname).lookup?_eq (h.offersPrelude.primitive op)

theorem exists_lookup?_definition {d : Definition} (hd : d ∈ preludeDefinitions) :
    ∃ id, σ.lookup? i d.name = some (d.value id) := by
  have hname : d.name ∈ preludeNames := List.mem_append_right _ (List.mem_map_of_mem hd)
  obtain ⟨id, hid⟩ := h.offersPrelude.definition d hd
  exact ⟨id, (h.seesGlobal hname).lookup?_eq hid⟩

theorem yields_parameter (files : Files) {x : String} {v : Value} (hx : b.find? x = some v) :
    Yields files i (.symbol x) σ v :=
  yields_symbol (h.lookup?_eq hx)

/-- A call of a builtin that only computes, in the body of a function. -/
theorem evaluates_computation_iff (op : Primitive) (hop : op ≠ .println) {es vs : List Value}
    (hes : List.Forall₂ (fun e v => Yields files i e σ v) es vs)
    (hadmits : op.arity.Admits vs.length) :
    Evaluates files i (.callOf op.name es) σ r ↔
      r = Action.ofExcept (op.compute (.ofList vs)) σ :=
  ConsLisp.evaluates_computation_iff op (h.lookup?_primitive op) hop hes hadmits

theorem yields_car {e v rest : Value} (he : Yields files i e σ (.cons v rest)) :
    Yields files i (.callOf "car" [e]) σ v :=
  (h.evaluates_computation_iff .car nofun (.cons he .nil) rfl).2 rfl

theorem yields_cdr {e v rest : Value} (he : Yields files i e σ (.cons v rest)) :
    Yields files i (.callOf "cdr" [e]) σ rest :=
  (h.evaluates_computation_iff .cdr nofun (.cons he .nil) rfl).2 rfl

/-- A call of a function of the prelude, in the body of a function. -/
theorem evaluates_definition_iff {d : Definition} (hd : d ∈ preludeDefinitions)
    (hrole : d.role = .function) {es vs : List Value}
    (hes : List.Forall₂ (fun e v => Yields files i e σ v) es vs) :
    Evaluates files i (.callOf d.name es) σ r ↔ Applies files d.callable (.ofList vs) σ r := by
  obtain ⟨id, hid⟩ := h.exists_lookup?_definition hd
  refine evaluates_callOf_iff hid ⟨?_, rfl⟩ hes
  rw [Definition.value, hrole]
  rfl

/-- The test with which the bodies of the list functions begin. -/
theorem evaluates_ifEmpty_iff {e v consequent alternative : Value}
    (he : Yields files i e σ v) :
    Evaluates files i
        (.callOf "if" [.callOf "empty?" [e], consequent, alternative]) σ r ↔
      Evaluates files i (if v.isEmptyList then consequent else alternative) σ r := by
  have htest (r : Outcome Value) :
      Evaluates files i (.callOf "empty?" [e]) σ r ↔ r = .done (.bool v.isEmptyList) σ :=
    h.evaluates_computation_iff .isEmpty nofun (.cons he .nil) rfl
  exact (evaluates_branch_iff (h.lookup?_form .branch)).trans (sequel_of_done htest)

end IsCallFrame

end State

/-! ### The equations of the bodies -/

section Bodies

/-- What the parameter of `length` and `last` is bound to. -/
def listBinding (v : Value) : Bindings :=
  [("xs", v)]

/-- What the parameters of `append` are bound to. -/
def listsBinding (v y : Value) : Bindings :=
  [("ys", y), ("xs", v)]

variable (hσ : σ.OffersPrelude) (v rest y : Value)
include hσ

theorem isCallFrame_listBinding :
    (σ.derive globalFrame (listBinding v)).IsCallFrame σ.frameCount (listBinding v) :=
  hσ.isCallFrame (show ∀ x ∈ ["xs"], x ∉ preludeNames by decide)

theorem isCallFrame_listsBinding :
    (σ.derive globalFrame (listsBinding v y)).IsCallFrame σ.frameCount (listsBinding v y) :=
  hσ.isCallFrame (show ∀ x ∈ ["ys", "xs"], x ∉ preludeNames by decide)

theorem applies_length_empty_iff :
    Applies files Definition.length.callable (.ofList [.empty]) σ r ↔
      r = .done (.integer 0) (σ.derive globalFrame (listBinding .empty)) := by
  have hframe := isCallFrame_listBinding hσ .empty
  refine (applies_closure_iff rfl).trans ?_
  refine (hframe.evaluates_ifEmpty_iff (hframe.yields_parameter files rfl)).trans ?_
  exact (yields_integer 0).iff_eq

/-- A list is one longer than its rest. -/
theorem applies_length_cons_iff :
    Applies files Definition.length.callable (.ofList [.cons v rest]) σ r ↔
      Sequel
        (Applies files Definition.length.callable (.ofList [rest])
          (σ.derive globalFrame (listBinding (.cons v rest))))
        (fun n τ r => r = Action.ofExcept (Primitive.add.compute (.ofList [.integer 1, n])) τ) r := by
  have hframe := isCallFrame_listBinding hσ (.cons v rest)
  refine (applies_closure_iff rfl).trans ?_
  refine (hframe.evaluates_ifEmpty_iff (hframe.yields_parameter files rfl)).trans ?_
  refine (evaluates_callTwo_iff (hframe.lookup?_primitive .add) ⟨rfl, rfl⟩).trans ?_
  refine (sequel_of_done fun _ => (yields_integer 1).iff_eq).trans ?_
  refine sequel_congr (fun _ => ?_) fun _ _ _ _ => applies_computation_iff .add nofun trivial
  have hrest := hframe.yields_cdr (hframe.yields_parameter files (x := "xs") rfl)
  exact hframe.evaluates_definition_iff (d := .length) (by simp [preludeDefinitions]) rfl
    (.cons hrest .nil)

theorem applies_append_empty_iff :
    Applies files Definition.append.callable (.ofList [.empty, y]) σ r ↔
      r = .done y (σ.derive globalFrame (listsBinding .empty y)) := by
  have hframe := isCallFrame_listsBinding hσ .empty y
  refine (applies_closure_iff rfl).trans ?_
  refine (hframe.evaluates_ifEmpty_iff (hframe.yields_parameter files rfl)).trans ?_
  exact (hframe.yields_parameter files rfl).iff_eq

/-- The first element stays the first one. -/
theorem applies_append_cons_iff :
    Applies files Definition.append.callable (.ofList [.cons v rest, y]) σ r ↔
      Sequel
        (Applies files Definition.append.callable (.ofList [rest, y])
          (σ.derive globalFrame (listsBinding (.cons v rest) y)))
        (fun zs τ r => r = Action.ofExcept (Primitive.cons.compute (.ofList [v, zs])) τ) r := by
  have hframe := isCallFrame_listsBinding hσ (.cons v rest) y
  have hxs := hframe.yields_parameter files (x := "xs") rfl
  refine (applies_closure_iff rfl).trans ?_
  refine (hframe.evaluates_ifEmpty_iff hxs).trans ?_
  refine (evaluates_callTwo_iff (hframe.lookup?_primitive .cons) ⟨rfl, rfl⟩).trans ?_
  refine (sequel_of_done fun _ => (hframe.yields_car hxs).iff_eq).trans ?_
  refine sequel_congr (fun _ => ?_) fun _ _ _ _ => applies_computation_iff .cons nofun (by rfl)
  exact hframe.evaluates_definition_iff (d := .append) (by simp [preludeDefinitions]) rfl
    (.cons (hframe.yields_cdr hxs) (.cons (hframe.yields_parameter files rfl) .nil))

/-- `last` takes the rest of its argument before anything else. -/
theorem applies_last_empty_iff :
    Applies files Definition.last.callable (.ofList [.empty]) σ r ↔
      r = .failed (.typing (.pairRequired "()")) (σ.derive globalFrame (listBinding .empty)) := by
  have hframe := isCallFrame_listBinding hσ .empty
  have hxs := hframe.yields_parameter files (x := "xs") rfl
  refine (applies_closure_iff rfl).trans ?_
  refine (evaluates_branch_iff (hframe.lookup?_form .branch)).trans (sequel_of_failed fun _ => ?_)
  refine (evaluates_call_iff (hframe.lookup?_primitive .isEmpty) ⟨rfl, rfl⟩).trans ?_
  refine sequel_of_failed fun _ => evaluatesEach_one_iff.trans (sequel_of_failed fun _ => ?_)
  exact hframe.evaluates_computation_iff .cdr nofun (.cons hxs .nil) rfl

/-- The last element is the first one if nothing follows it, and otherwise the last one of the
rest. -/
theorem applies_last_cons_iff :
    Applies files Definition.last.callable (.ofList [.cons v rest]) σ r ↔
      if rest.isEmptyList then r = .done v (σ.derive globalFrame (listBinding (.cons v rest)))
      else Applies files Definition.last.callable (.ofList [rest])
        (σ.derive globalFrame (listBinding (.cons v rest))) r := by
  have hframe := isCallFrame_listBinding hσ (.cons v rest)
  have hxs := hframe.yields_parameter files (x := "xs") rfl
  refine (applies_closure_iff rfl).trans ?_
  refine (hframe.evaluates_ifEmpty_iff (hframe.yields_cdr hxs)).trans ?_
  split
  · exact (hframe.yields_car hxs).iff_eq
  · exact hframe.evaluates_definition_iff (d := .last) (by simp [preludeDefinitions]) rfl
      (.cons (hframe.yields_cdr hxs) .nil)

end Bodies

/-! ### Results -/

namespace State

/-- The later state has further frames, and is the earlier one otherwise. -/
def GainsFramesOnly (σ τ : State) : Prop :=
  ∃ further, τ = { σ with frames := σ.frames ++ further }

theorem gainsFramesOnly_derive (σ : State) (i : FrameId) (b : Bindings) :
    σ.GainsFramesOnly (σ.derive i b) :=
  ⟨#[⟨b, σ.chain i⟩], rfl⟩

theorem GainsFramesOnly.of_derive (h : (σ.derive i b).GainsFramesOnly τ) : σ.GainsFramesOnly τ := by
  obtain ⟨further, rfl⟩ := h
  refine ⟨#[⟨b, σ.chain i⟩] ++ further, ?_⟩
  rw [← Array.append_assoc]
  rfl

end State

/-- The sum of one and a machine integer. -/
theorem compute_add_one (n : Fixnum) :
    Primitive.add.compute (.ofList [.integer 1, .integer n]) =
      .integer <$> Fixnum.orOverflow "addition" (1 + n.val) := by
  rw [Primitive.compute, Value.elements_ofList]
  have hone : Fixnum.add 0 1 = .ok 1 := rfl
  have hfold : foldIntegers "+" Fixnum.add 0 [.integer 1, .integer n] = Fixnum.add 1 n := by
    simp only [foldIntegers, List.foldlM_cons, List.foldlM_nil, integerOf, bind_pure]
    change (Fixnum.add 0 1 >>= fun sum => sum.add n) = _
    rw [hone]
    rfl
  exact congrArg _ hfold

theorem orOverflow_succ_eq_error {computation : String} {n : Nat} {e : Error}
    (h : Fixnum.orOverflow computation n = .error e) :
    Fixnum.orOverflow computation (n + 1 : Nat) = .error e := by
  obtain ⟨hrange, rfl⟩ := Fixnum.orOverflow_eq_error_iff.1 h
  refine Fixnum.orOverflow_eq_error_iff.2 ⟨fun hnext => hrange ?_, rfl⟩
  unfold InRange at hnext ⊢
  omega

theorem compute_cons_of_isList (v : Value) {rest : Value} (h : rest.isList = true) :
    Primitive.cons.compute (.ofList [v, rest]) = .ok (.cons v rest) :=
  if_pos h

theorem compute_cons_of_not_isList (v : Value) {rest : Value} (h : rest.isList = false) :
    Primitive.cons.compute (.ofList [v, rest]) =
      .error (.typing (.consOntoNonList rest.text)) :=
  if_neg (ne_true_of_eq_false h)

theorem Value.isList_chain (vs : List Value) {last : Value} (h : last.isList = true) :
    (Value.chain vs last).isList = true := by
  cases vs with
  | nil => exact h
  | cons => rfl

theorem Value.isList_ofList (vs : List Value) : (Value.ofList vs).isList = true :=
  isList_chain vs rfl

/-- A list longer than the greatest machine integer has no length. -/
theorem exists_applies_length (files : Files) (hσ : σ.OffersPrelude) (xs : List Value) :
    ∃ τ, σ.GainsFramesOnly τ ∧
      Applies files Definition.length.callable (.ofList [.ofList xs]) σ
        (Action.ofExcept (.integer <$> Fixnum.orOverflow "addition" xs.length) τ) := by
  induction xs generalizing σ with
  | nil =>
    exact ⟨_, σ.gainsFramesOnly_derive _ _, (applies_length_empty_iff hσ).2 rfl⟩
  | cons v xs ih =>
    obtain ⟨τ, hτ, h⟩ :=
      ih (hσ.of_persistsIn (.derive σ globalFrame (listBinding (.ofList (v :: xs)))))
    refine ⟨τ, hτ.of_derive, (applies_length_cons_iff hσ v (.ofList xs)).2 ?_⟩
    cases hn : Fixnum.orOverflow "addition" xs.length with
    | error e =>
      rw [hn] at h
      rw [List.length_cons, orOverflow_succ_eq_error hn]
      exact .failed h
    | ok n =>
      rw [hn] at h
      refine .done h ?_
      rw [compute_add_one, ← Fixnum.orOverflow_eq_ok_iff.1 hn, List.length_cons]
      congr 3
      omega

/-- The elements of a list come before whatever the list is put in front of, as long as this is a
list or there are no such elements. -/
theorem exists_applies_append (files : Files) (hσ : σ.OffersPrelude) {xs : List Value} {y : Value}
    (h : xs = [] ∨ y.isList = true) :
    ∃ τ, σ.GainsFramesOnly τ ∧
      Applies files Definition.append.callable (.ofList [.ofList xs, y]) σ
        (.done (.chain xs y) τ) := by
  induction xs generalizing σ with
  | nil => exact ⟨_, σ.gainsFramesOnly_derive _ _, (applies_append_empty_iff hσ y).2 rfl⟩
  | cons v xs ih =>
    have hy : y.isList = true := h.resolve_left (List.cons_ne_nil v xs)
    obtain ⟨τ, hτ, happlies⟩ :=
      ih (hσ.of_persistsIn (.derive σ globalFrame (listsBinding (.ofList (v :: xs)) y))) (.inr hy)
    refine ⟨τ, hτ.of_derive, (applies_append_cons_iff hσ v (.ofList xs) y).2 (.done happlies ?_)⟩
    rw [compute_cons_of_isList v (Value.isList_chain xs hy)]
    rfl

theorem exists_applies_append_nonList (files : Files) (hσ : σ.OffersPrelude) {xs : List Value}
    (hxs : xs ≠ []) {y : Value} (hy : y.isList = false) :
    ∃ τ, σ.GainsFramesOnly τ ∧
      Applies files Definition.append.callable (.ofList [.ofList xs, y]) σ
        (.failed (.typing (.consOntoNonList y.text)) τ) := by
  induction xs generalizing σ with
  | nil => exact absurd rfl hxs
  | cons v xs ih =>
    have hσ' := hσ.of_persistsIn (.derive σ globalFrame (listsBinding (.ofList (v :: xs)) y))
    by_cases hnil : xs = []
    · subst hnil
      -- The only element cannot be put in front of what is no list.
      obtain ⟨τ, hτ, h⟩ := exists_applies_append files hσ' (y := y) (.inl rfl)
      refine ⟨τ, hτ.of_derive, (applies_append_cons_iff hσ v .empty y).2 (.done h ?_)⟩
      change _ = Action.ofExcept (Primitive.cons.compute (.ofList [v, y])) τ
      rw [compute_cons_of_not_isList v hy]
      rfl
    · obtain ⟨τ, hτ, h⟩ := ih hσ' hnil
      exact ⟨τ, hτ.of_derive, (applies_append_cons_iff hσ v (.ofList xs) y).2 (.failed h)⟩

theorem exists_applies_last (files : Files) (hσ : σ.OffersPrelude) {xs : List Value}
    (hxs : xs ≠ []) :
    ∃ τ, σ.GainsFramesOnly τ ∧
      Applies files Definition.last.callable (.ofList [.ofList xs]) σ
        (.done (xs.getLast hxs) τ) := by
  induction xs generalizing σ with
  | nil => exact absurd rfl hxs
  | cons v xs ih =>
    by_cases hnil : xs = []
    · subst hnil
      exact ⟨_, σ.gainsFramesOnly_derive _ _, (applies_last_cons_iff hσ v .empty).2 rfl⟩
    · obtain ⟨τ, hτ, h⟩ :=
        ih (hσ.of_persistsIn (.derive σ globalFrame (listBinding (.ofList (v :: xs))))) hnil
      refine ⟨τ, hτ.of_derive, (applies_last_cons_iff hσ v (.ofList xs)).2 ?_⟩
      have hempty : (Value.ofList xs).isEmptyList = false := by
        cases xs with
        | nil => exact absurd rfl hnil
        | cons => rfl
      rw [hempty, List.getLast_cons hnil]
      exact h

/-- The function that the global frame binds to the name, called on the arguments, comes to the
result. It changes nothing that is there before, and it prints nothing. -/
def ComputesGlobally (files : Files) (σ : State) (name : String) (args : List Value)
    (result : Except Error Value) : Prop :=
  ∃ v f τ, σ.local? globalFrame name = some v ∧ v.IsFunction f ∧ σ.GainsFramesOnly τ ∧
    Applies files f (.ofList args) σ (Action.ofExcept result τ)

theorem State.OffersPrelude.computesGlobally (hσ : σ.OffersPrelude) {d : Definition}
    (hd : d ∈ preludeDefinitions) (hrole : d.role = .function) {args : List Value}
    {result : Except Error Value}
    (h : ∃ τ, σ.GainsFramesOnly τ ∧
      Applies files d.callable (.ofList args) σ (Action.ofExcept result τ)) :
    ComputesGlobally files σ d.name args result := by
  obtain ⟨id, hid⟩ := hσ.definition d hd
  obtain ⟨τ, hτ, happlies⟩ := h
  refine ⟨d.value id, d.callable, τ, hid, ⟨?_, rfl⟩, hτ, happlies⟩
  rw [Definition.value, hrole]
  rfl

/-- In every state of a session, the list functions of the prelude compute what their names say, for
lists of any values, and do nothing else. `length` returns the number of elements, unless this is no
machine integer. `append` returns the elements of its first argument followed by those of the
second, which has to be a list unless there is nothing to put in front of it. `last` returns the
last element, if there is one. -/
theorem list_functions_compute (files : Files) (hσ : Reachable preludeSource σ) (xs : List Value) :
    (∀ n : Fixnum, n.val = xs.length →
      ComputesGlobally files σ "length" [.ofList xs] (.ok (.integer n))) ∧
    (9223372036854775807 < xs.length →
      ComputesGlobally files σ "length" [.ofList xs]
        (.error (.evaluation (.overflow "addition")))) ∧
    (∀ ys, ComputesGlobally files σ "append" [.ofList xs, .ofList ys] (.ok (.ofList (xs ++ ys)))) ∧
    (xs ≠ [] → ∀ y : Value, y.isList = false →
      ComputesGlobally files σ "append" [.ofList xs, y]
        (.error (.typing (.consOntoNonList y.text)))) ∧
    (∀ y, ComputesGlobally files σ "append" [.empty, y] (.ok y)) ∧
    (∀ hxs : xs ≠ [], ComputesGlobally files σ "last" [.ofList xs] (.ok (xs.getLast hxs))) ∧
    ComputesGlobally files σ "last" [.empty] (.error (.typing (.pairRequired "()"))) := by
  have hσ := hσ.offersPrelude
  have happend {xs : List Value} {y : Value} (h : xs = [] ∨ y.isList = true) :
      ComputesGlobally files σ "append" [.ofList xs, y] (.ok (.chain xs y)) :=
    hσ.computesGlobally (d := .append) (by simp [preludeDefinitions]) rfl
      (exists_applies_append files hσ h)
  refine ⟨fun n hn => ?_, fun hlong => ?_, fun ys => ?_, fun hxs y hy => ?_, fun y => ?_,
    fun hxs => ?_, ?_⟩
  · have h := exists_applies_length files hσ xs
    rw [Fixnum.orOverflow_eq_ok_iff.2 hn.symm] at h
    exact hσ.computesGlobally (d := .length) (by simp [preludeDefinitions]) rfl h
  · have h := exists_applies_length files hσ xs
    have hrange : ¬InRange xs.length := fun h => by
      have := h.2
      omega
    rw [Fixnum.orOverflow_eq_error_iff.2 ⟨hrange, rfl⟩] at h
    exact hσ.computesGlobally (d := .length) (by simp [preludeDefinitions]) rfl h
  · have h : Value.ofList (xs ++ ys) = .chain xs (.ofList ys) := by
      simp [Value.ofList, Value.chain]
    rw [h]
    exact happend (.inr (Value.isList_ofList ys))
  · exact hσ.computesGlobally (d := .append) (by simp [preludeDefinitions]) rfl
      (exists_applies_append_nonList files hσ hxs hy)
  · exact happend (.inl rfl)
  · exact hσ.computesGlobally (d := .last) (by simp [preludeDefinitions]) rfl
      (exists_applies_last files hσ hxs)
  · exact hσ.computesGlobally (d := .last) (by simp [preludeDefinitions]) rfl
      ⟨_, σ.gainsFramesOnly_derive _ _, (applies_last_empty_iff hσ).2 rfl⟩

/-- A list of a name that is not bound and a call of what that name stands for:
`(nowhere (nowhere))` -/
def unevaluated : List Value :=
  [.symbol "nowhere", .callOf "nowhere" []]

/-- Lists of expressions that have no value are handled like any others. -/
theorem list_functions_compute_unevaluated :
    Reachable preludeSource preludeState ∧
    ComputesGlobally .empty preludeState "length" [.ofList unevaluated] (.ok (.integer { val := 2 })) ∧
    ComputesGlobally .empty preludeState "append" [.ofList unevaluated, .symbol "nowhere"]
      (.error (.typing (.consOntoNonList "nowhere"))) ∧
    ComputesGlobally .empty preludeState "last" [.ofList unevaluated]
      (.ok (.callOf "nowhere" [])) := by
  obtain ⟨hlength, -, -, happend, -, hlast, -⟩ :=
    list_functions_compute .empty reachable_preludeState unevaluated
  exact ⟨reachable_preludeState, hlength { val := 2 } rfl, happend nofun _ rfl, hlast nofun⟩

end ConsLisp
