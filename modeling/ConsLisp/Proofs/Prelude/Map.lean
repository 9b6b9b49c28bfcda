import ConsLisp.Proofs.Evaluation.CallEffects
import ConsLisp.Proofs.Evaluation.Relocation
import ConsLisp.Proofs.Prelude.Lists

/-!
# The function `map` of the prelude

`map` calls a function on the elements of a list, from left to right, and returns the list of the
results. The function may do anything that a call can do: print, count, make closures, or fail.
Between its calls there are the frames in which the body of `map` runs, so that the frames of the
calls do not have the places that they have without `map`. Apart from this, the calls are those that
are made one after the other: they return the same, fail alike, print the same, and leave the frames
from before as they are left without `map`.

## Main definitions

* `AppliesInOrder`: calling a function on the elements of a list one after the other.
* `State.AgreeFrom`, `Outcome.MatchesFrom`: states and outcomes that are the same, seen from a state
  before.

## Main results

* `applies_map_cons_iff`: the equation of the body of `map`.
* `applies_map_match`: a run of `map` and the calls one after the other, up to places.
* `Outcome.MatchesFrom.exists_eq_failed`: failures match only with the same error.
* `map_applies_in_order`: `map` in the states of a session.
-/

namespace ConsLisp

variable {files : Files} {σ τ : State} {i : FrameId} {b : Bindings} {f : Callable}

/-! ### Calls one after the other -/

/-- Calling a function on the values one after the other takes a state to an outcome: the results of
all calls, or the error of the first call that fails. No call is made after that one. -/
inductive AppliesInOrder (files : Files) (f : Callable) :
    List Value → State → Outcome (List Value) → Prop
  | nil {σ : State} : AppliesInOrder files f [] σ (.done [] σ)
  | cons {v u : Value} {vs us : List Value} {σ ρ τ : State}
      (hv : Applies files f (.ofList [v]) σ (.done u ρ))
      (hvs : AppliesInOrder files f vs ρ (.done us τ)) :
      AppliesInOrder files f (v :: vs) σ (.done (u :: us) τ)
  | fails {v : Value} {vs : List Value} {e : Error} {σ τ : State}
      (hv : Applies files f (.ofList [v]) σ (.failed e τ)) :
      AppliesInOrder files f (v :: vs) σ (.failed e τ)
  | failsLater {v u : Value} {vs : List Value} {e : Error} {σ ρ τ : State}
      (hv : Applies files f (.ofList [v]) σ (.done u ρ))
      (hvs : AppliesInOrder files f vs ρ (.failed e τ)) :
      AppliesInOrder files f (v :: vs) σ (.failed e τ)

theorem appliesInOrder_nil_iff {r : Outcome (List Value)} :
    AppliesInOrder files f [] σ r ↔ r = .done [] σ := by
  constructor
  · rintro ⟨⟩
    rfl
  · rintro rfl
    exact .nil

theorem appliesInOrder_cons_iff {v : Value} {vs : List Value} {r : Outcome (List Value)} :
    AppliesInOrder files f (v :: vs) σ r ↔
      Sequel (Applies files f (.ofList [v]) σ) (fun u ρ =>
        Sequel (AppliesInOrder files f vs ρ) fun us τ r => r = .done (u :: us) τ) r := by
  constructor
  · intro h
    cases h with
    | cons hv hvs => exact .done hv (.done hvs rfl)
    | fails hv => exact .failed hv
    | failsLater hv hvs => exact .done hv (.failed hvs)
  · intro h
    cases h with
    | failed hv => exact .fails hv
    | done hv h =>
      cases h with
      | failed hvs => exact .failsLater hv hvs
      | done hvs h =>
        subst h
        exact .cons hv hvs

theorem AppliesInOrder.gainsNoNames {vs : List Value} {r : Outcome (List Value)}
    (h : AppliesInOrder files f vs σ r) (hτ : r.state? = some τ) : σ.GainsNoNames τ := by
  induction h with
  | nil =>
    obtain rfl := Option.some.inj hτ
    exact .refl _
  | cons hv _ ih => exact (hv.gainsNoNames rfl).trans (ih hτ)
  | fails hv => exact hv.gainsNoNames hτ
  | failsLater hv _ ih => exact (hv.gainsNoNames rfl).trans (ih hτ)

/-! ### The body of `map` -/

/-- A call leaves the frame of another call as it is, unless something in it can be counted up. -/
theorem State.IsCallFrame.of_gainsNoNames (h : σ.IsCallFrame i b) (hi : i < σ.frameCount)
    (hb : ∀ p ∈ b, p.2.typeOf ≠ .integer) (hτ : σ.GainsNoNames τ) : τ.IsCallFrame i b where
  offersPrelude := h.offersPrelude.of_persistsIn hτ.toPersistsIn
  lookup?_eq hx := by
    have hname : SpecialForm.branch.name ∈ preludeNames := by decide
    exact hτ.lookup?_eq (fun _ => (h.seesGlobal hname).lt_frameCount) hi (h.lookup?_eq hx)
      (hb _ (Bindings.mem_of_find? hx))
  seesGlobal hx := hτ.seesGlobal (h.seesGlobal hx) hi

/-- What the parameters of `map` are bound to. -/
def mapBinding (g v : Value) : Bindings :=
  [("xs", v), ("f", g)]

section Body

variable (hσ : σ.OffersPrelude) {g v rest : Value} (hg : g.IsFunction f)
include hσ

theorem isCallFrame_mapBinding :
    (σ.derive globalFrame (mapBinding g v)).IsCallFrame σ.frameCount (mapBinding g v) :=
  hσ.isCallFrame (show ∀ x ∈ ["xs", "f"], x ∉ preludeNames by decide)

theorem applies_map_empty_iff {r : Outcome Value} :
    Applies files Definition.map.callable (.ofList [g, .empty]) σ r ↔
      r = .done .empty (σ.derive globalFrame (mapBinding g .empty)) := by
  have hframe := isCallFrame_mapBinding hσ (g := g) (v := .empty)
  refine (applies_closure_iff rfl).trans ?_
  refine (hframe.evaluates_ifEmpty_iff (hframe.yields_parameter files rfl)).trans ?_
  exact yields_empty.iff_eq

include hg

/-- The function that `map` calls leaves the frame of `map` as it is. -/
theorem isCallFrame_mapBinding_of_gainsNoNames
    (hτ : (σ.derive globalFrame (mapBinding g (.cons v rest))).GainsNoNames τ) :
    τ.IsCallFrame σ.frameCount (mapBinding g (.cons v rest)) := by
  refine (isCallFrame_mapBinding hσ).of_gainsNoNames ?_ ?_ hτ
  · rw [State.frameCount_derive]
    exact Nat.lt_succ_self _
  · have hgtype : g.typeOf ≠ .integer := by
      rw [hg.typeOf_eq]
      nofun
    simpa [mapBinding] using ⟨nofun, hgtype⟩

/-- The function is called on the first element, and then `map` on the rest. -/
theorem applies_map_cons_iff {r : Outcome Value} :
    Applies files Definition.map.callable (.ofList [g, .cons v rest]) σ r ↔
      Sequel
        (Applies files f (.ofList [v]) (σ.derive globalFrame (mapBinding g (.cons v rest))))
        (fun u ρ => Sequel (Applies files Definition.map.callable (.ofList [g, rest]) ρ)
          fun us τ r => r = Action.ofExcept (Primitive.cons.compute (.ofList [u, us])) τ) r := by
  have hframe := isCallFrame_mapBinding hσ (g := g) (v := .cons v rest)
  have hxs := hframe.yields_parameter files (x := "xs") rfl
  have hfirst {r : Outcome Value} :
      Evaluates files σ.frameCount (.callOf "f" [.callOf "car" [Definition.xs]])
          (σ.derive globalFrame (mapBinding g (.cons v rest))) r ↔
        Applies files f (.ofList [v]) (σ.derive globalFrame (mapBinding g (.cons v rest))) r :=
    evaluates_callOf_iff (hframe.lookup?_eq (x := "f") rfl) hg (.cons (hframe.yields_car hxs) .nil)
  refine (applies_closure_iff rfl).trans ?_
  refine (hframe.evaluates_ifEmpty_iff hxs).trans ?_
  refine (evaluates_callTwo_iff (hframe.lookup?_primitive .cons) ⟨rfl, rfl⟩).trans ?_
  refine sequel_congr (fun _ => hfirst) fun u ρ _ hu => ?_
  refine sequel_congr (fun _ => ?_) fun _ _ _ _ => applies_computation_iff .cons nofun (by rfl)
  -- The rest of the body is evaluated in the state that the function has left.
  have hframe := isCallFrame_mapBinding_of_gainsNoNames hσ hg ((hfirst.1 hu).gainsNoNames rfl)
  have hxs := hframe.yields_parameter files (x := "xs") rfl
  exact hframe.evaluates_definition_iff (d := .map) (by simp [preludeDefinitions]) rfl
    (.cons (hframe.yields_parameter files rfl) (.cons (hframe.yields_cdr hxs) .nil))

end Body

/-! ### Runs of `map` -/

/-- A run of `map` in one state comes to what the calls one after the other come to in another
state, up to places. -/
theorem applies_map_match (files : Files) {R : Places} {σ σ' : State} (hσ : σ.RelocatesTo R σ')
    (hoffers : σ'.OffersPrelude) {f f' : Callable} (hf : f.RelocatesTo R f') {g' : Value}
    (hg : g'.IsFunction f') {vs vs' : List Value}
    (hvs : List.Forall₂ (Value.RelocatesTo R) vs vs') :
    OutcomesMatch R (fun S us w => (Value.ofList us).RelocatesTo S w) (AppliesInOrder files f vs σ)
      (Applies files Definition.map.callable (.ofList [g', .ofList vs']) σ') := by
  induction vs generalizing R σ σ' vs' with
  | nil =>
    cases hvs
    have hempty := hσ.derive_right globalFrame (mapBinding g' .empty)
    exact (OutcomesMatch.of_eq (.done .empty hempty)).congr (fun _ => appliesInOrder_nil_iff)
      fun _ => applies_map_empty_iff hoffers
  | cons v vs ih =>
    cases hvs with
    | @cons _ v' _ vs' hv hvs =>
      -- Only the second state has a frame of `map`, behind all places of the first one.
      have hσb := hσ.derive_right globalFrame (mapBinding g' (.ofList (v' :: vs')))
      have hcall := applies_match files hσb hf (.ofList (.cons hv .nil))
      refine (hcall.sequel fun {S u u' ρ ρ'} hR hu hρ hcall' => ?_).congr
        (fun _ => appliesInOrder_cons_iff) fun _ => applies_map_cons_iff hoffers hg
      have hgains := (State.GainsNoNames.derive σ' globalFrame _).trans (hcall'.gainsNoNames rfl)
      have hrest := ih hρ (hoffers.of_persistsIn hgains.toPersistsIn) (hf.mono hR)
        (hvs.imp fun _ _ hv => hv.mono hR)
      refine hrest.sequel fun {T us w τ τ'} hS hus hτ _ => .of_eq ?_
      rw [compute_cons_of_isList u' (hus.isList_eq ▸ Value.isList_ofList us)]
      exact .done (.cons (hu.mono hS) hus) hτ

/-! ### `map` in a session -/

/-- The states look the same from the state `σ`: they have printed the same, and the frames of `σ`
have the same bindings and the same frames around them. -/
structure State.AgreeFrom (σ τ τ' : State) : Prop where
  printed_eq : τ'.printed = τ.printed
  local?_eq {j : FrameId} : j < σ.frameCount → ∀ x, τ'.local? j x = τ.local? j x
  chain_eq {j : FrameId} : j < σ.frameCount → τ'.chain j = τ.chain j

/-- Two ways to go on from a state that come to the same, up to places, agree on what was there
before. -/
theorem State.RelocatesTo.agreeFrom {R : Places} {τ' : State} (h : τ.RelocatesTo R τ')
    (hR : List.range σ.frameCount <+: R) (hτ : σ.GainsNoNames τ) (hτ' : σ.GainsNoNames τ') :
    σ.AgreeFrom τ τ' where
  printed_eq := h.printed_eq.symm
  local?_eq {j} hj x := by
    cases hx : σ.local? j x with
    | none => rw [hτ.local?_eq_none hj hx, hτ'.local?_eq_none hj hx]
    | some v =>
      by_cases htype : v.typeOf = .integer
      · -- A count, which is the same wherever frames are.
        obtain ⟨n, rfl⟩ : ∃ n, v = .integer n := by
          cases v with
          | integer n => exact ⟨n, rfl⟩
          | closure role => cases role <;> cases htype
          | _ => cases htype
        obtain ⟨w, hw, hgrows⟩ := hτ.binding hx
        have hwithin : w.IsWithin σ.frameCount := by
          cases hgrows <;> trivial
        have hplaces := h.local? (Places.getElem?_of_prefix hR (List.getElem?_range hj)) x
        rw [hw] at hplaces ⊢
        generalize τ'.local? j x = w? at hplaces ⊢
        cases hplaces with
        | some hw => rw [hw.eq_of_isWithin hR hwithin]
      · rw [hτ.local?_eq hx htype, hτ'.local?_eq hx htype]
  chain_eq hj := by rw [hτ.chain_eq hj, hτ'.chain_eq hj]

/-- The outcomes are the same, seen from the state `σ`. Either both actions have returned, the
second one the list of the results of the first, or both have failed with the same error. Closures
that they have made since are the same up to the places of the frames that they have made since. -/
structure Outcome.MatchesFrom (σ : State) (r : Outcome (List Value)) (r' : Outcome Value) :
    Prop where
  relocates : ∃ R, List.range σ.frameCount <+: R ∧
    r.RelocatesTo R (fun us w => (Value.ofList us).RelocatesTo R w) r'
  agree {τ τ' : State} : r.state? = some τ → r'.state? = some τ' → σ.AgreeFrom τ τ'

/-- A failure is matched by a failure with the same error. -/
theorem Outcome.MatchesFrom.exists_eq_failed {e : Error} {r' : Outcome Value}
    (h : (Outcome.failed e τ).MatchesFrom σ r') : ∃ τ', r' = .failed e τ' ∧ σ.AgreeFrom τ τ' := by
  obtain ⟨R, -, hrel⟩ := h.relocates
  cases hrel with
  | failed => exact ⟨_, rfl, h.agree rfl rfl⟩

/-- A function of a state, with its frame in place. -/
theorem Value.IsWithin.callable_relocatesTo {n : Nat} {g : Value} (h : g.IsWithin n)
    (hg : g.IsFunction f) : f.RelocatesTo (List.range n) f := by
  have hcallable := hg.callable?_eq
  cases g with
  | primitive name op =>
    cases hcallable
    exact .primitive name op
  | closure role name id params body frame =>
    cases hcallable
    exact .closure _ h.1.relocatesTo_range h.2.1.relocatesTo_range (List.getElem?_range h.2.2)
  | _ => cases hcallable

/-- In every state of a session, `map` of a function and a list does what calling the function on
the elements does, from left to right. If all calls return, it returns the list of their results. If
one of them fails, it fails with the same error, and the function is not called on the elements
after that. It prints what the calls print, and leaves the frames that were there before as the
calls leave them. The function and the elements are values of the state: closures in them were made
in frames that it has. -/
theorem map_applies_in_order (files : Files) (hσ : Reachable preludeSource σ) :
    ∃ m map, σ.local? globalFrame "map" = some m ∧ m.IsFunction map ∧
      ∀ g f vs, Value.IsFunction g f → g.IsWithin σ.frameCount →
        (∀ v ∈ vs, Value.IsWithin σ.frameCount v) →
        (∀ r, AppliesInOrder files f vs σ r →
          ∃ r', Applies files map (.ofList [g, .ofList vs]) σ r' ∧ r.MatchesFrom σ r') ∧
        ∀ r', Applies files map (.ofList [g, .ofList vs]) σ r' →
          ∃ r, AppliesInOrder files f vs σ r ∧ r.MatchesFrom σ r' := by
  obtain ⟨id, hid⟩ := hσ.offersPrelude.definition .map (by simp [preludeDefinitions])
  refine ⟨_, Definition.map.callable, hid, ⟨rfl, rfl⟩, fun g f vs hg hwithin hvs => ?_⟩
  have hmatch := applies_map_match files hσ.relocatesTo_range hσ.offersPrelude
    (hwithin.callable_relocatesTo hg) hg
    (List.forall₂_same.2 fun v hv => (hvs v hv).relocatesTo_range)
  have hfrom {r : Outcome (List Value)} {r' : Outcome Value} (h : AppliesInOrder files f vs σ r)
      (h' : Applies files Definition.map.callable (.ofList [g, .ofList vs]) σ r')
      (hrel : ∃ R, List.range σ.frameCount <+: R ∧
        r.RelocatesTo R (fun us w => (Value.ofList us).RelocatesTo R w) r') : r.MatchesFrom σ r' := by
    refine ⟨hrel, fun {τ τ'} hτ hτ' => ?_⟩
    obtain ⟨R, hR, hrel⟩ := hrel
    obtain ⟨τ₁, hτ₁, hplaces⟩ := hrel.state hτ
    obtain rfl := Option.some.inj (hτ₁.symm.trans hτ')
    exact hplaces.agreeFrom hR (h.gainsNoNames hτ) (h'.gainsNoNames hτ')
  constructor
  · intro r hr
    obtain ⟨r', hr', hrel⟩ := hmatch.forth hr
    exact ⟨r', hr', hfrom hr hr' hrel⟩
  · intro r' hr'
    obtain ⟨r, hr, hrel⟩ := hmatch.back hr'
    exact ⟨r, hr, hfrom hr hr' hrel⟩

/-- What `printFirst` calls: `(lambda (xs) (println (car xs)))` -/
def printFirstCallable : Callable :=
  .closure "printFirst" (.ofList [.symbol "xs"])
    (.ofList [.callOf "println" [.callOf "car" [.symbol "xs"]]]) globalFrame

/-- A function that prints the first element of a list. -/
def printFirst : Value :=
  .closure .function "printFirst" 0 (.ofList [.symbol "xs"])
    (.ofList [.callOf "println" [.callOf "car" [.symbol "xs"]]]) globalFrame

/-- Lists with a value among them that has no first element: `((1) 2 (3))` -/
def firstsToPrint : List Value :=
  [.ofList [.integer 1], .integer 2, .ofList [.integer 3]]

/-- The state when `printFirst` has been called on the first of these. -/
def oneFirstPrinted : State :=
  { preludeState.derive globalFrame [("xs", .ofList [.integer 1])] with printed := "1\n" }

/-- The second call fails, when the first element has been printed. The third is not. -/
theorem appliesInOrder_printFirst :
    AppliesInOrder .empty printFirstCallable firstsToPrint preludeState
      (.failed (.typing (.pairRequired "2"))
        (oneFirstPrinted.derive globalFrame [("xs", .integer 2)])) :=
  .failsLater (u := .bool true) (ρ := oneFirstPrinted) ⟨nofun, 5, rfl⟩ (.fails ⟨nofun, 5, rfl⟩)

theorem isWithin_printFirst : printFirst.IsWithin preludeState.frameCount := by
  have hglobal : globalFrame < preludeState.frameCount := by decide
  simp [printFirst, Value.callOf, Value.ofList, Value.chain, Value.IsWithin, hglobal]

theorem isWithin_of_mem_firstsToPrint {v : Value} (hv : v ∈ firstsToPrint) (n : Nat) :
    v.IsWithin n := by
  simp only [firstsToPrint, List.mem_cons, List.not_mem_nil, or_false] at hv
  rcases hv with rfl | rfl | rfl <;> simp [Value.ofList, Value.chain, Value.IsWithin]

/-- `map` fails at the second element as well, with the same output. -/
theorem map_applies_in_order_printFirst :
    Reachable preludeSource preludeState ∧ printFirst.IsFunction printFirstCallable ∧
    printFirst.IsWithin preludeState.frameCount ∧
    (∀ v ∈ firstsToPrint, v.IsWithin preludeState.frameCount) ∧
    ∃ m map τ, preludeState.local? globalFrame "map" = some m ∧ m.IsFunction map ∧
      Applies .empty map (.ofList [printFirst, .ofList firstsToPrint]) preludeState
        (.failed (.typing (.pairRequired "2")) τ) ∧
      τ.printed = "1\n" := by
  have hfunction : printFirst.IsFunction printFirstCallable := ⟨rfl, rfl⟩
  have hwithin (v : Value) (hv : v ∈ firstsToPrint) := isWithin_of_mem_firstsToPrint hv
    preludeState.frameCount
  obtain ⟨m, map, hm, hmap, hruns⟩ := map_applies_in_order .empty reachable_preludeState
  obtain ⟨hforth, -⟩ :=
    hruns printFirst printFirstCallable firstsToPrint hfunction isWithin_printFirst hwithin
  obtain ⟨r', hr', hfrom⟩ := hforth _ appliesInOrder_printFirst
  obtain ⟨τ, rfl, hagree⟩ := hfrom.exists_eq_failed
  exact ⟨reachable_preludeState, hfunction, isWithin_printFirst, hwithin, m, map, τ, hm, hmap, hr',
    hagree.printed_eq⟩

end ConsLisp
