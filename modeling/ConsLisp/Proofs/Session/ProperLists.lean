import ConsLisp.Proofs.Evaluation.Lockstep
import ConsLisp.Proofs.Session.Reachable
import ConsLisp.Proofs.Source.Continuation
import ConsLisp.Proofs.Source.Joining

/-!
# A session has no dotted pairs

Pairs come from the reader, from `cons`, from argument lists and from templates, and none of these
makes a pair whose rest is no list. So in all that a session can reach, however its requests ended,
the rest of every pair is a pair or the empty list: in the values of all bindings, in the lambda
lists and bodies of closures, in the results of all evaluations, and in the lists of operands and
arguments, which are therefore proper.

## Main definitions

* `Event.isProper`: what happens in a run has to do with proper lists only.

## Main results

* `tolerates_alarm_isProper`: no alarm is raised where all values are proper.
* `Reachable.keepsTo_proper`: the bindings of a reachable state are proper.
* `values_stay_proper`: the bindings of a reachable state, the results of requests, and all that
  happens in a run are proper.
-/

namespace ConsLisp

open Makeup (proper)

/-- The value of an evaluation has no dotted pairs in it, nor has a list of operands or arguments,
which has to be a list. -/
def Event.isProper : Event → Bool
  | .evaluated v => proper.admits v
  | .passing list => list.toList?.isSome && proper.admits list
  | .loading _ => true

/-! ### Where proper values come from -/

/-- What can be written down has no dotted pairs in it. -/
theorem Makeup.proper_admits_of_isSyntax {v : Value} (h : v.IsSyntax) : proper.admits v = true := by
  induction v with
  | cons first rest ihfirst ihrest =>
    obtain ⟨hfirst, hlist, hrest⟩ := h
    exact admits_cons.2 ⟨ends_of_isList hlist, ihfirst hfirst, ihrest hrest⟩
  | quoted kind inner ih => exact ih h
  | empty | symbol | integer | string => rfl
  | _ => exact absurd h id

theorem proper_admits_of_mem_readForms {comments : Bool} {source : String} :
    ∀ form ∈ (Source.readForms comments source).forms, proper.admits form.value = true :=
  fun _ hform => Makeup.proper_admits_of_isSyntax (Source.isSyntax_of_mem_readForms hform)

theorem proper_admits_of_mem_formsAt {files : Files} {path : String} :
    ∀ form ∈ files.formsAt path, proper.admits form.value = true := by
  intro form hform
  unfold Files.formsAt at hform
  split at hform
  · cases hform
  · split at hform
    · cases hform
    · exact proper_admits_of_mem_readForms form hform

theorem Makeup.toList?_of_admits_proper {v : Value} (h : proper.admits v = true)
    (hv : proper.ends v = true) : v.toList? = some v.elements := by
  rw [Value.toList?, terminator_of_admits h hv]

/-- The builtin operations and truth values are no pairs. -/
theorem keepsTo_proper_initial : State.initial.KeepsTo proper := by
  have hbindings : ∀ p ∈ globalBindings, proper.admits p.2 = true := by
    decide
  intro i x v hv
  cases i with
  | zero => exact hbindings _ (Bindings.mem_of_find? hv)
  | succ i => simp [State.local?, State.bindingsOf, State.initial] at hv

/-! ### Runs of a session -/

namespace Pairing

/-- No alarm is raised where all values are proper. -/
theorem tolerates_alarm_isProper (action : Action Unit) (files : Files) :
    (same proper).Tolerates (.alarm Event.isProper action) files where
  evaluated {v} hv := by
    have htest : Event.isProper (.evaluated v) = true := hv
    rw [Observer.alarm, if_pos htest]
    exact Follows.pure trivial
  passing {list} hlist hends := by
    have htest : Event.isProper (.passing list) = true := by
      rw [Event.isProper, Makeup.toList?_of_admits_proper hlist hends, hlist]
      rfl
    rw [Observer.alarm, if_pos htest]
    exact Follows.pure trivial
  loading path := Follows.pure fun form hform => proper_admits_of_mem_formsAt form hform

/-- A request is answered by evaluating what was read. -/
theorem Follows.request {P : Pairing proper} {ev ev' : Evaluator}
    (hev : ∀ i e, proper.admits e = true → P.FollowsIn (ev i e) (ev' i e)) (files : Files)
    (i : FrameId) (request : Request) :
    P.FollowsIn (request.run ev files i) (request.run ev' files i) := by
  cases request with
  | expression text =>
    rw [Request.run, Request.run, Evaluator.evaluateText, Evaluator.evaluateText]
    split
    · next form hform =>
      exact hev i _ (Makeup.proper_admits_of_isSyntax (Source.isSyntax_of_readOne hform))
    · exact fail _
  | source comments text => exact evaluateSource hev i proper_admits_of_mem_readForms
  | input contents => exact loadBytes hev i _ fun _ _ => proper_admits_of_mem_readForms
  | file path => exact loadFile hev proper_admits_of_mem_formsAt i

theorem Follows.start {P : Pairing proper} {ev ev' : Evaluator}
    (hev : ∀ i e, proper.admits e = true → P.FollowsIn (ev i e) (ev' i e)) (prelude : String) :
    P.Follows (fun _ => True) (ev.start prelude) (ev'.start prelude) :=
  (evaluateSource hev globalFrame proper_admits_of_mem_readForms).bind fun _ _ => pure trivial

end Pairing

/-- The prelude is evaluated without an alarm, and leaves proper bindings behind. -/
theorem start_proper (action : Action Unit) (files : Files) (depth : Nat) (prelude : String) :
    ((Observer.alarm Event.isProper action).eval files depth).start prelude State.initial =
        (eval files depth).start prelude State.initial ∧
      ∀ τ, ((eval files depth).start prelude State.initial).state? = some τ → τ.KeepsTo proper := by
  have hO := Pairing.tolerates_alarm_isProper action files
  have hstart := Pairing.Follows.start (fun i _ he => Pairing.follows_eval hO depth i he) prelude
  obtain ⟨heq, -, hτ⟩ :=
    Pairing.eq_of_meets_same (hstart State.initial State.initial ⟨rfl, keepsTo_proper_initial⟩)
  exact ⟨heq, hτ⟩

/-- From a state with proper bindings a request is answered without an alarm, and it leaves a proper
value and proper bindings behind. -/
theorem request_proper {σ : State} (hσ : σ.KeepsTo proper) (action : Action Unit) (files : Files)
    (depth : Nat) (i : FrameId) (request : Request) :
    request.run ((Observer.alarm Event.isProper action).eval files depth) files i σ =
        request.run (eval files depth) files i σ ∧
      (∀ v τ, request.run (eval files depth) files i σ = .done v τ → proper.admits v = true) ∧
        ∀ τ, (request.run (eval files depth) files i σ).state? = some τ → τ.KeepsTo proper := by
  have hO := Pairing.tolerates_alarm_isProper action files
  have hrequest := Pairing.Follows.request (fun i _ he => Pairing.follows_eval hO depth i he) files i
    request
  exact Pairing.eq_of_meets_same (hrequest σ σ ⟨rfl, hσ⟩)

/-- The bindings of a reachable state are proper. -/
theorem Reachable.keepsTo_proper {prelude : String} {σ : State} (h : Reachable prelude σ) :
    σ.KeepsTo proper := by
  induction h with
  | started h => exact (start_proper (pure ()) _ _ prelude).2 _ h
  | answered _ _ h ih => exact (request_proper ih (pure ()) _ _ _ _).2.2 _ h
  | derived _ _ ih => exact ih.derive _ (List.forall_mem_nil _)

/-- Whatever the prelude, nothing but proper lists comes up when it is evaluated. In every state
that a session can reach after it, the values of all bindings are proper, and whatever is evaluated
next, nothing but proper lists comes up and the result is proper. -/
theorem values_stay_proper (prelude : String) :
    (∀ files depth,
        SeesOnly Event.isProper files depth (fun ev => ev.start prelude) State.initial) ∧
      ∀ σ, Reachable prelude σ →
        (∀ i x v, σ.local? i x = some v → proper.admits v = true) ∧
          ∀ files depth i (request : Request),
            SeesOnly Event.isProper files depth (fun ev => request.run ev files i) σ ∧
              ∀ v τ, request.run (eval files depth) files i σ = .done v τ →
                proper.admits v = true := by
  refine ⟨fun files depth action => (start_proper action files depth prelude).1, fun σ h => ?_⟩
  have hσ := h.keepsTo_proper
  refine ⟨hσ, fun files depth i request => ⟨fun action => ?_, ?_⟩⟩
  · exact (request_proper hσ action files depth i request).1
  · exact (request_proper hσ (pure ()) files depth i request).2.1

/-- A prelude with a function that returns the list of its arguments. -/
def collectingPrelude : String :=
  "(defn (collect . xs) xs)"

/-- A source that defines `ys` by a call of this function and then fails. -/
def failingSource : String :=
  "(def ys (collect 1 2)) (car ys ys)"

/-- The function that the prelude defines. -/
def collecting : Value :=
  .closure .function "collect" 0 (.ofList [.symbol ".", .symbol "xs"]) (.ofList [.symbol "xs"])
    globalFrame

/-- The state of a session after this prelude, and after further definitions in the global frame and
in further frames. -/
def collectingState (definitions : Bindings) (further : List Frame) : State where
  frames := (⟨definitions ++ ("collect", collecting) :: globalBindings, []⟩ :: further).toArray
  closures := 1
  printed := ""

/-- A request that fails after it has defined `ys` leaves a proper list behind. -/
theorem values_stay_proper_failingSource :
    let oneTwo := Value.ofList [.integer 1, .integer { val := 2 }]
    let afterError := collectingState [("ys", oneTwo)] [⟨[("xs", oneTwo)], [globalFrame]⟩]
    Reachable collectingPrelude afterError ∧
      afterError.local? globalFrame "ys" = some oneTwo ∧ proper.admits oneTwo = true ∧
      SeesOnly Event.isProper .empty 3
        (fun ev => (Request.expression failingSource).run ev .empty globalFrame) afterError := by
  intro oneTwo afterError
  have hprelude : (Source.readForms true collectingPrelude).forms =
      [⟨.ofList [.symbol "defn", .ofList [.symbol "collect", .symbol ".", .symbol "xs"],
        .symbol "xs"], 24⟩] := by
    with_unfolding_all rfl
  have hpreludeEnd : (Source.readForms true collectingPrelude).error? = none := by
    with_unfolding_all rfl
  have hsource : (Source.readForms false failingSource).forms =
      [⟨.ofList [.symbol "def", .symbol "ys",
          .ofList [.symbol "collect", .integer 1, .integer { val := 2 }]], 22⟩,
        ⟨.ofList [.symbol "car", .symbol "ys", .symbol "ys"], 34⟩] := by
    with_unfolding_all rfl
  have hsourceEnd : (Source.readForms false failingSource).error? = none := by
    with_unfolding_all rfl
  have hstart : ((eval .empty 3).start collectingPrelude State.initial).state? =
      some (collectingState [] []) := by
    simp only [Evaluator.start, Evaluator.evaluateSource, Evaluator.evaluateForms, hprelude,
      hpreludeEnd]
    rfl
  have hanswer : (Request.source false failingSource).run (eval .empty 3) .empty globalFrame
      (collectingState [] []) = .failed (.arity "car" (.exactly 1) 2) afterError := by
    simp only [Request.run, Evaluator.evaluateSource, Evaluator.evaluateForms, hsource, hsourceEnd]
    rfl
  have hreachable : Reachable collectingPrelude afterError :=
    .answered (.started hstart) (by decide) (congrArg Outcome.state? hanswer)
  obtain ⟨hbound, hrun⟩ := (values_stay_proper collectingPrelude).2 afterError hreachable
  have hys : afterError.local? globalFrame "ys" = some oneTwo := rfl
  exact ⟨hreachable, hys, hbound globalFrame "ys" oneTwo hys, (hrun .empty 3 globalFrame _).1⟩

end ConsLisp
