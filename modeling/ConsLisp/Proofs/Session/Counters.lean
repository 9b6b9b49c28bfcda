import ConsLisp.Proofs.Evaluation.BigSteps
import ConsLisp.Proofs.Session.GlobalNames

/-!
# Counters

A counter is a function that adds one to an integer of its own whenever it is called. Programs make
one by evaluating `((lambda (n) (lambda () (inc! n))) start)`, as it stands or in the body of a
function that serves as a factory. The frame that binds `n` is made by that evaluation, and only the
counter knows of it. So the calls of one counter are counted by no other, however the calls of
several counters alternate, and counting touches no global name.

## Main definitions

* `counterExpr`, `counterFunction`: the expression that makes a counter, and what it makes.
* `MakesCounter`: the expressions that make a counter when they are evaluated in the global frame.
* `CallOf`: the calls of a function, by the host or by an expression.
* `Counting`: the states that can be reached by making counters and calling them.
* `State.HoldsCount`, `State.HoldsCounts`: the frame that belongs to a counter, and what the counter
  stands at; the frames of several counters.

## Main results

* `MakesCounter.exists_evaluates`: making a counter gives it a new frame.
* `State.HoldsCount.exists_applies_done`, `State.HoldsCount.exists_applies_failed`: calling a
  counter changes the count in its frame, or nothing.
* `Counting.holdsCounts`: each counter holds what it has counted.
* `counters_isolated`: what each counter answers depends on its own calls only.
-/

namespace ConsLisp

/-! ### Making counters -/

/-- The body form of a counter, `(inc! n)`. -/
def countingForm : Value :=
  .ofList [.symbol "inc!", .symbol "n"]

/-- The expression `((lambda (n) (lambda () (inc! n))) start)`. -/
def counterExpr (start : Value) : Value :=
  .ofList [.ofList [.symbol "lambda", .ofList [.symbol "n"],
    .ofList [.symbol "lambda", .empty, countingForm]], start]

/-- The function `(lambda () (inc! n))`, made in a frame. -/
def counterFunction (name : String) (id : Nat) (frame : FrameId) : Value :=
  .closure .function name id .empty (.ofList [countingForm]) frame

/-- An expression that is an integer, or a name that stands for one. -/
inductive State.GivesInteger (σ : State) (i : FrameId) : Value → Fixnum → Prop
  | literal (s : Fixnum) : GivesInteger σ i (.integer s) s
  | name {x : String} {s : Fixnum} (hx : σ.lookup? i x = some (.integer s)) :
      GivesInteger σ i (.symbol x) s

/-- An expression that makes a counter with the start `s` when it is evaluated in the global frame.
It is the expression above, or a call of a factory: a function made and bound in the global frame
whose body is this expression. A factory may have parameters, also optional ones, as long as they
leave the names `lambda` and `inc!` alone; and finding its arguments changes nothing. -/
inductive MakesCounter (files : Files) (σ : State) : Value → Fixnum → Prop
  | direct {start : Value} {s : Fixnum} (hs : σ.GivesInteger globalFrame start s) :
      MakesCounter files σ (counterExpr start) s
  | factory {x name : String} {id : Nat} {params operands args start : Value} {b : Bindings}
      {s : Fixnum}
      (hx : σ.local? globalFrame x =
        some (.closure .function name id params (.ofList [counterExpr start]) globalFrame))
      (hargs : ∃ depth, (eval files depth).evaluateEach globalFrame operands σ = .done args σ)
      (hb : LambdaList.bindParameters name params args = .ok b)
      (hlambda : b.find? "lambda" = none) (hincrement : b.find? "inc!" = none)
      (hs : (σ.derive globalFrame b).GivesInteger σ.frameCount start s) :
      MakesCounter files σ (.cons (.symbol x) operands) s

/-! ### Evaluations that make and use counters -/

section Evaluation

variable {files : Files} {σ : State} {i : FrameId}

/-- A literal or a name is evaluated without a change. -/
theorem State.GivesInteger.eval_eq {start : Value} {s : Fixnum} (h : σ.GivesInteger i start s)
    (depth : Nat) : eval files (depth + 1) i start σ = .done (.integer s) σ := by
  cases h with
  | literal => rfl
  | name hx => exact eval_symbol hx depth

theorem eval_countingForm (hincrement : σ.lookup? i "inc!" = some (.specialForm .increment))
    (depth : Nat) : eval files (depth + 2) i countingForm σ = Action.increment i "n" σ := by
  have hadmits : SpecialForm.increment.arity.Admits (Value.ofList [.symbol "n"]).length := by decide
  exact eval_specialForm hincrement hadmits depth

/-- The expression that makes a counter makes two closures. The second one, which is the counter, is
made in a new frame that binds `n`. -/
theorem eval_counterExpr (hlambda : σ.lookup? i "lambda" = some (.specialForm .lambda)) {start : Value}
    {s : Fixnum} (hs : σ.GivesInteger i start s) (depth : Nat) :
    eval files (depth + 3) i (counterExpr start) σ =
      .done (counterFunction anonymousFunction (σ.closures + 1) σ.frameCount)
        { σ.derive i [("n", .integer s)] with closures := σ.closures + 2 } := by
  let making := Value.ofList [.symbol "lambda", .empty, countingForm]
  let σ₁ : State := { σ with closures := σ.closures + 1 }
  have hhead : eval files (depth + 2) i (.ofList [.symbol "lambda", .ofList [.symbol "n"], making]) σ =
      .done (.closure .function anonymousFunction σ.closures (.ofList [.symbol "n"])
        (.ofList [making]) i) σ₁ :=
    eval_lambda hlambda rfl _ depth
  have hstart : eval files (depth + 2) i start σ₁ = .done (.integer s) σ₁ := by
    have hs₁ : σ₁.GivesInteger i start s := by
      cases hs with
      | literal => exact .literal s
      | name hx => exact .name hx
    exact hs₁.eval_eq (depth + 1)
  have hbody : eval files (depth + 2) σ.frameCount making (σ₁.derive i [("n", .integer s)]) =
      .done (counterFunction anonymousFunction (σ.closures + 1) σ.frameCount)
        { σ.derive i [("n", .integer s)] with closures := σ.closures + 2 } := by
    have hlambda₁ : (σ₁.derive i [("n", .integer s)]).lookup? σ.frameCount "lambda" =
        some (.specialForm .lambda) :=
      (State.lookup?_derive_of_find?_eq_none (σ := σ₁) rfl i).trans hlambda
    exact eval_lambda hlambda₁ rfl _ depth
  have hargs : (eval files (depth + 2)).evaluateEach i (.ofList [start]) σ₁ =
      .done (.ofList [.integer s]) σ₁ := by
    rw [Value.ofList, Value.chain, List.foldr_cons, Evaluator.evaluateEach_cons, Action.bind_apply,
      hstart]
    rfl
  calc
    _ = (Callable.closure anonymousFunction (.ofList [.symbol "n"]) (.ofList [making]) i).apply
          (eval files (depth + 2)) (.ofList [.integer s]) σ₁ := eval_functionCall hhead hargs
    _ = eval files (depth + 2) σ.frameCount making (σ₁.derive i [("n", .integer s)]) :=
      Callable.apply_closure_sole _ rfl σ₁
    _ = _ := hbody

end Evaluation

/-! ### Frames that count -/

/-- The value `v` is a counter whose frame is `frame`. -/
def Value.CountsIn (v : Value) (frame : FrameId) : Prop :=
  ∃ name id, v = counterFunction name id frame

theorem Value.CountsIn.unique {v : Value} {i j : FrameId} (hi : v.CountsIn i) (hj : v.CountsIn j) :
    i = j := by
  obtain ⟨name, id, rfl⟩ := hi
  obtain ⟨name', id', h⟩ := hj
  exact (Value.closure.inj h).2.2.2.2.2

/-- The frame of a counter that stands at `n`. -/
structure State.HoldsCount (σ : State) (frame : FrameId) (n : Fixnum) : Prop where
  count : σ.local? frame "n" = some (.integer n)
  ne_globalFrame : frame ≠ globalFrame
  increment : σ.SeesGlobal frame "inc!"

namespace State.HoldsCount

variable {σ τ : State} {p : FrameId → String → Prop} {frame : FrameId} {n m : Fixnum}

theorem lt_frameCount (h : σ.HoldsCount frame n) : frame < σ.frameCount :=
  frameCount_of_local? h.count

/-- A counter stands at the same integer after changes that have nothing to do with it. -/
theorem of_changesOnly (h : σ.HoldsCount frame n) (hστ : σ.ChangesOnly p τ) (hcount : ¬p frame "n")
    (hincrement : ∀ k, k ≠ globalFrame → ¬p k "inc!") : τ.HoldsCount frame n where
  count := (hστ.local?_eq h.lt_frameCount hcount).trans h.count
  ne_globalFrame := h.ne_globalFrame
  increment := h.increment.of_changesOnly h.lt_frameCount hστ hincrement

/-- A new frame that binds `n` can be the frame of a counter. -/
theorem derive {i : FrameId} (h : σ.SeesGlobal i "inc!") (s : Fixnum) :
    (σ.derive i [("n", .integer s)]).HoldsCount σ.frameCount s where
  count := by
    rw [local?_derive, if_pos rfl]
    rfl
  ne_globalFrame := Nat.ne_of_gt (h.lt_frameCount h.mem_chain)
  increment := h.derive rfl

/-- The name `n` in a new frame inside the frame of a counter is the count. -/
theorem resolve?_derive (h : σ.HoldsCount frame n) :
    (σ.derive frame []).resolve? σ.frameCount "n" = some (frame, .integer n) := by
  rw [State.resolve?_derive, resolve?_of_local? h.count]
  rfl

/-- A call of a counter counts up in a new frame. The arguments do not matter. -/
theorem apply_eq (hσ : σ.OffersForms) (h : σ.HoldsCount frame n) (files : Files) (name : String)
    (args : Value) (depth : Nat) :
    (Callable.closure name .empty (.ofList [countingForm]) frame).apply (eval files (depth + 2)) args
      σ = Action.increment σ.frameCount "n" (σ.derive frame []) := by
  have hincrement : (σ.derive frame []).lookup? σ.frameCount "inc!" =
      some (.specialForm .increment) :=
    (lookup?_derive_of_find?_eq_none rfl frame).trans (h.increment.lookup?_eq (hσ.form .increment))
  rw [Callable.apply_closure_sole _ rfl, eval_countingForm hincrement]

/-- A call of a counter that does not stand at the greatest integer answers the next one, and
nothing but the count changes. -/
theorem exists_applies_done (hσ : σ.OffersForms) (h : σ.HoldsCount frame n) (hm : m.val = n.val + 1)
    (files : Files) (name : String) (args : Value) :
    ∃ τ, Applies files (.closure name .empty (.ofList [countingForm]) frame) args σ
        (.done (.integer m) τ) ∧
      σ.ChangesOnly (fun j x => j = frame ∧ x = "n") τ ∧ τ.HoldsCount frame m := by
  have hlt : frame < (σ.derive frame []).frameCount := by
    rw [frameCount_derive]
    exact Nat.lt_succ_of_lt h.lt_frameCount
  have hchanges : σ.ChangesOnly (fun j x => j = frame ∧ x = "n")
      ((σ.derive frame []).assign frame "n" (.integer m)) :=
    (ChangesOnly.derive _ _ _).trans (.assign hlt _)
  refine ⟨_, ⟨nofun, 2, ?_⟩, hchanges, ?_, h.ne_globalFrame, ?_⟩
  · rw [h.apply_eq hσ]
    exact Action.increment_eq_done_iff.2 ⟨frame, n, m, h.resolve?_derive, hm, rfl, rfl⟩
  · rw [local?_assign hlt, if_pos ⟨rfl, rfl⟩, local?_derive_of_lt h.lt_frameCount, h.count]
    rfl
  · exact h.increment.of_changesOnly h.lt_frameCount hchanges fun _ _ hx => by simp at hx

/-- A call of a counter that stands at the greatest integer fails, and nothing changes. -/
theorem exists_applies_failed (hσ : σ.OffersForms) (h : σ.HoldsCount frame n)
    (hn : n.val = 9223372036854775807) (files : Files) (name : String) (args : Value) :
    ∃ τ, Applies files (.closure name .empty (.ofList [countingForm]) frame) args σ
        (.failed (.evaluation (.overflow "inc!")) τ) ∧
      σ.ChangesNothing τ := by
  refine ⟨σ.derive frame [], ⟨nofun, 2, ?_⟩, .derive _ _ _⟩
  rw [h.apply_eq hσ]
  exact Action.increment_eq_overflow h.resolve?_derive hn

end State.HoldsCount

section Making

variable {files : Files} {σ : State} {i : FrameId} {e start : Value} {s : Fixnum}

/-- The expression that makes a counter does so in every frame that sees the two special forms. -/
theorem exists_eval_counterExpr (files : Files) (hσ : σ.OffersForms) (hlambda : σ.SeesGlobal i "lambda")
    (hincrement : σ.SeesGlobal i "inc!") (hs : σ.GivesInteger i start s) :
    ∃ v τ, eval files 3 i (counterExpr start) σ = .done v τ ∧ v.CountsIn σ.frameCount ∧
      τ.HoldsCount σ.frameCount s ∧ σ.ChangesNothing τ := by
  have hlambda' : σ.lookup? i "lambda" = some (.specialForm .lambda) :=
    hlambda.lookup?_eq (hσ.form .lambda)
  have hholds := State.HoldsCount.derive hincrement s
  refine ⟨_, _, eval_counterExpr hlambda' hs 0, ⟨_, _, rfl⟩, ?_,
    (State.ChangesOnly.derive _ _ _).trans (.of_frames_eq rfl)⟩
  exact hholds.of_changesOnly (p := fun _ _ => False) (.of_frames_eq rfl) id fun _ _ => id

/-- Making a counter gives it a new frame, and nothing that was there before changes. -/
theorem MakesCounter.exists_evaluates (hσ : σ.OffersForms) (h : MakesCounter files σ e s) :
    ∃ v τ frame, Evaluates files globalFrame e σ (.done v τ) ∧ v.CountsIn frame ∧
      τ.HoldsCount frame s ∧ σ.frameCount ≤ frame ∧ σ.ChangesNothing τ := by
  cases h with
  | direct hs =>
    obtain ⟨v, τ, heval, hv, hholds, hchanges⟩ :=
      exists_eval_counterExpr files hσ (hσ.seesGlobal _) (hσ.seesGlobal _) hs
    exact ⟨v, τ, σ.frameCount, ⟨nofun, 3, heval⟩, hv, hholds, Nat.le_refl _, hchanges⟩
  | @factory x name _ params _ args start b _ hx hargs hb hlambda hincrement hs =>
    -- The body of the factory is evaluated in a new frame inside the global one.
    have hderive : σ.ChangesNothing (σ.derive globalFrame b) := .derive _ _ _
    have hforms := hσ.of_changesOnly hderive fun _ => id
    obtain ⟨v, τ, heval, hv, hholds, hchanges⟩ := exists_eval_counterExpr files hforms
      ((hσ.seesGlobal _).derive hlambda) ((hσ.seesGlobal _).derive hincrement) hs
    have happlies : Applies files (.closure name params (.ofList [counterExpr start]) globalFrame)
        args σ (.done v τ) := ⟨nofun, 3, (Callable.apply_closure_sole _ hb σ).trans heval⟩
    have hhead := (hσ.seesGlobal x).lookup?_eq hx
    have hcall := (evaluates_call_iff hhead ⟨rfl, rfl⟩).2 (.done ⟨nofun, hargs⟩ happlies)
    exact ⟨v, τ, _, hcall, hv, hholds, hderive.frameCount_le, hderive.trans hchanges⟩

end Making

/-! ### Counting -/

/-- A counter that was made: the function, where it started, and how often it was called since. -/
structure Counter where
  function : Value
  start : Fixnum
  calls : Nat

/-- A call of a function, in the form of what the call comes to. The function is called directly, on
any arguments, or by an expression whose head stands for it, in any frame, where evaluating the head
and the operands changes nothing. It may have got another display name. -/
inductive CallOf (files : Files) (v : Value) (σ : State) : (Outcome Value → Prop) → Prop
  | direct {name : String} {f : Callable} (args : Value)
      (hf : (v.named name).callable? = some f) : CallOf files v σ (Applies files f args σ)
  | expression {name : String} {i : FrameId} {head operands args : Value}
      (hhead : Evaluates files i head σ (.done (v.named name) σ))
      (hargs : ∃ depth, (eval files depth).evaluateEach i operands σ = .done args σ) :
      CallOf files v σ (Evaluates files i (.cons head operands) σ)

/-- From the state `σ₀` counters have been made, the newest first, and called, in whichever order.
Between two steps, names that it did not bind may be added to the global frame, and anything may
happen in new frames. -/
inductive Counting (σ₀ : State) : List Counter → State → Prop
  | start : Counting σ₀ [] σ₀
  | made {counters : List Counter} {σ τ : State} {files : Files} {e v : Value} {s : Fixnum}
      (hσ : Counting σ₀ counters σ) (he : MakesCounter files σ e s)
      (hτ : Evaluates files globalFrame e σ (.done v τ)) : Counting σ₀ (⟨v, s, 0⟩ :: counters) τ
  | called {counters : List Counter} {σ τ : State} {i : Nat} {c : Counter} {files : Files}
      {comesTo : Outcome Value → Prop} {r : Outcome Value} (hσ : Counting σ₀ counters σ)
      (hc : counters[i]? = some c) (hcall : CallOf files c.function σ comesTo) (hr : comesTo r)
      (hτ : r.state? = some τ) : Counting σ₀ (counters.set i { c with calls := c.calls + 1 }) τ
  | meanwhile {counters : List Counter} {σ τ : State} (hσ : Counting σ₀ counters σ)
      (hτ : σ.ChangesOnly (fun j x => j = globalFrame ∧ σ.local? globalFrame x = none) τ) :
      Counting σ₀ counters τ

namespace CallOf

variable {files : Files} {v : Value} {σ : State} {comesTo : Outcome Value → Prop}

theorem unique (h : CallOf files v σ comesTo) {r r' : Outcome Value} (hr : comesTo r)
    (hr' : comesTo r') : r = r' := by
  cases h with
  | direct => exact Applies.unique hr hr'
  | expression => exact Evaluates.unique hr hr'

/-- A call of a counter, in whichever form, comes to what a direct call comes to. -/
theorem exists_of_applies (h : CallOf files v σ comesTo) {frame : FrameId}
    (hv : v.CountsIn frame) :
    ∃ name args, ∀ r, Applies files (.closure name .empty (.ofList [countingForm]) frame) args σ r →
      comesTo r := by
  obtain ⟨display, id, rfl⟩ := hv
  cases h with
  | @direct name f args hf =>
    obtain rfl := Option.some.inj hf
    exact ⟨name, args, fun r hr => hr⟩
  | @expression name i head operands args hhead hargs =>
    exact ⟨name, args, fun r hr =>
      (evaluates_functionCall_iff hhead ⟨rfl, rfl⟩).2 (.done ⟨nofun, hargs⟩ hr)⟩

end CallOf

/-- Each counter has a frame of its own, which holds what it has counted. -/
structure State.HoldsCounts (σ : State) (counters : List Counter) : Prop where
  forms : σ.OffersForms
  holds {i : Nat} {c : Counter} : counters[i]? = some c →
    ∃ frame n, c.function.CountsIn frame ∧ σ.HoldsCount frame n ∧
      n.val = min (c.start.val + c.calls) 9223372036854775807
  apart {i j : Nat} {c d : Counter} {frame : FrameId} : counters[i]? = some c →
    counters[j]? = some d → c.function.CountsIn frame → d.function.CountsIn frame → i = j

namespace State.HoldsCounts

variable {σ τ : State} {counters : List Counter} {i : Nat} {c : Counter} {frame : FrameId}

theorem nil (hσ : σ.OffersForms) : σ.HoldsCounts [] where
  forms := hσ
  holds hc := nomatch hc
  apart hc := nomatch hc

theorem meanwhile (h : σ.HoldsCounts counters)
    (hτ : σ.ChangesOnly (fun j x => j = globalFrame ∧ σ.local? globalFrame x = none) τ) :
    τ.HoldsCounts counters where
  forms := h.forms.of_changesOnly hτ fun form hx => by simp [h.forms.form form] at hx
  holds hc := by
    obtain ⟨frame, n, hframe, hholds, hn⟩ := h.holds hc
    exact ⟨frame, n, hframe, hholds.of_changesOnly hτ (fun hx => hholds.ne_globalFrame hx.1)
      fun k hk hx => hk hx.1, hn⟩
  apart := h.apart

/-- The frame of a counter is there. -/
theorem lt_frameCount (h : σ.HoldsCounts counters) (hc : counters[i]? = some c)
    (hframe : c.function.CountsIn frame) : frame < σ.frameCount := by
  obtain ⟨frame', n, hframe', hholds, -⟩ := h.holds hc
  rw [hframe.unique hframe']
  exact hholds.lt_frameCount

/-- The frame of a new counter is no frame of another one. -/
theorem made (h : σ.HoldsCounts counters) {v : Value} {s : Fixnum} (hv : v.CountsIn frame)
    (hholds : τ.HoldsCount frame s) (hle : σ.frameCount ≤ frame)
    (hτ : σ.ChangesNothing τ) : τ.HoldsCounts (⟨v, s, 0⟩ :: counters) where
  forms := h.forms.of_changesOnly hτ fun _ => id
  holds {i c} hc := by
    cases i with
    | zero =>
      obtain rfl := Option.some.inj hc
      have hle := s.le_greatest
      refine ⟨frame, s, hv, hholds, ?_⟩
      simp only
      omega
    | succ i => exact (h.meanwhile (hτ.mono nofun)).holds hc
  apart {i j c d k} hc hd hck hdk := by
    cases i with
    | zero =>
      obtain rfl := Option.some.inj hc
      obtain rfl := hv.unique hck
      cases j with
      | zero => rfl
      | succ j => exact absurd (h.lt_frameCount hd hdk) (Nat.not_lt_of_le hle)
    | succ i =>
      cases j with
      | zero =>
        obtain rfl := Option.some.inj hd
        obtain rfl := hv.unique hdk
        exact absurd (h.lt_frameCount hc hck) (Nat.not_lt_of_le hle)
      | succ j => exact congrArg Nat.succ (h.apart hc hd hck hdk)

/-- The count of one counter changes, and no other. -/
theorem called (h : σ.HoldsCounts counters) (hc : counters[i]? = some c)
    (hframe : c.function.CountsIn frame) {m : Fixnum} (hholds : τ.HoldsCount frame m)
    (hm : m.val = min (c.start.val + (c.calls + 1)) 9223372036854775807)
    (hτ : σ.ChangesOnly (fun j x => j = frame ∧ x = "n") τ) :
    τ.HoldsCounts (counters.set i { c with calls := c.calls + 1 }) := by
  have hset {j : Nat} {d : Counter}
      (hd : (counters.set i { c with calls := c.calls + 1 })[j]? = some d) :
      j = i ∧ d = { c with calls := c.calls + 1 } ∨ j ≠ i ∧ counters[j]? = some d := by
    by_cases hji : j = i
    · subst hji
      obtain ⟨hlt, -⟩ := List.getElem?_eq_some_iff.1 hc
      rw [List.getElem?_set_self hlt] at hd
      exact .inl ⟨rfl, (Option.some.inj hd).symm⟩
    · rw [List.getElem?_set_ne (Ne.symm hji)] at hd
      exact .inr ⟨hji, hd⟩
  -- A counter that is called is the same function as before.
  have hfunction {j : Nat} {d : Counter}
      (hd : (counters.set i { c with calls := c.calls + 1 })[j]? = some d) :
      ∃ d', counters[j]? = some d' ∧ d'.function = d.function := by
    rcases hset hd with ⟨rfl, rfl⟩ | ⟨-, hd⟩
    · exact ⟨c, hc, rfl⟩
    · exact ⟨d, hd, rfl⟩
  refine ⟨h.forms.of_changesOnly hτ fun _ hx => hholds.ne_globalFrame hx.1.symm, fun hd => ?_,
    fun hd he hdk hek => ?_⟩
  · rcases hset hd with ⟨rfl, rfl⟩ | ⟨hji, hd⟩
    · exact ⟨frame, m, hframe, hholds, hm⟩
    · obtain ⟨frame', n, hframe', hholds', hn⟩ := h.holds hd
      have hne : frame' ≠ frame := by
        rintro rfl
        exact hji (h.apart hd hc hframe' hframe)
      exact ⟨frame', n, hframe', hholds'.of_changesOnly hτ (fun hx => hne hx.1)
        fun _ _ hx => by simp at hx, hn⟩
  · obtain ⟨d', hd', hdf⟩ := hfunction hd
    obtain ⟨e', he', hef⟩ := hfunction he
    exact h.apart hd' he' (hdf ▸ hdk) (hef ▸ hek)

/-- What becomes of a call of a counter. -/
theorem exists_answer (h : σ.HoldsCounts counters) (hc : counters[i]? = some c) {files : Files}
    {comesTo : Outcome Value → Prop} (hcall : CallOf files c.function σ comesTo) :
    ∃ r τ, comesTo r ∧ r.state? = some τ ∧
      τ.HoldsCounts (counters.set i { c with calls := c.calls + 1 }) ∧
      (∀ x, τ.local? globalFrame x = σ.local? globalFrame x) ∧
      ((∃ m : Fixnum, m.val = c.start.val + (c.calls + 1) ∧ r = .done (.integer m) τ) ∨
        9223372036854775807 < c.start.val + (c.calls + 1) ∧
          r = .failed (.evaluation (.overflow "inc!")) τ ∧ σ.ChangesNothing τ) := by
  obtain ⟨frame, n, hframe, hholds, hn⟩ := h.holds hc
  obtain ⟨name, args, hcomesTo⟩ := hcall.exists_of_applies hframe
  have hglobal {υ : State} (hυ : σ.ChangesOnly (fun j x => j = frame ∧ x = "n") υ) (x : String) :
      υ.local? globalFrame x = σ.local? globalFrame x :=
    hυ.local?_eq h.forms.frameCount_pos fun hx => hholds.ne_globalFrame hx.1.symm
  by_cases hmax : n.val = 9223372036854775807
  · obtain ⟨τ, hr, hτ⟩ := hholds.exists_applies_failed h.forms hmax files name args
    have hτ' : σ.ChangesOnly (fun j x => j = frame ∧ x = "n") τ := hτ.mono nofun
    have hheld : τ.HoldsCount frame n := hholds.of_changesOnly hτ id fun _ _ => id
    refine ⟨_, τ, hcomesTo _ hr, rfl, h.called hc hframe hheld (by omega) hτ', hglobal hτ', .inr ?_⟩
    exact ⟨by omega, rfl, hτ⟩
  · have hle := n.le_greatest
    have hge := n.least_le
    let m : Fixnum := ⟨n.val + 1, by omega, by omega⟩
    have hm : m.val = n.val + 1 := rfl
    obtain ⟨τ, hr, hτ, hheld⟩ := hholds.exists_applies_done h.forms hm files name args
    refine ⟨_, τ, hcomesTo _ hr, rfl, h.called hc hframe hheld (by omega) hτ, hglobal hτ, .inl ?_⟩
    exact ⟨m, by omega, rfl⟩

/-- A counter that an evaluation has made is held from then on. -/
theorem of_evaluates (h : σ.HoldsCounts counters) {files : Files} {e v : Value} {s : Fixnum}
    (he : MakesCounter files σ e s) (hv : Evaluates files globalFrame e σ (.done v τ)) :
    τ.HoldsCounts (⟨v, s, 0⟩ :: counters) ∧ σ.ChangesNothing τ := by
  obtain ⟨v, τ, frame, hv', hframe, hholds, hle, hτ⟩ := he.exists_evaluates h.forms
  cases hv.unique hv'
  exact ⟨h.made hframe hholds hle hτ, hτ⟩

/-- A counter that was called is held with its next count. -/
theorem of_call (h : σ.HoldsCounts counters) (hc : counters[i]? = some c) {files : Files}
    {comesTo : Outcome Value → Prop} {r : Outcome Value} (hcall : CallOf files c.function σ comesTo)
    (hr : comesTo r) (hτ : r.state? = some τ) :
    τ.HoldsCounts (counters.set i { c with calls := c.calls + 1 }) ∧
      ∀ x, τ.local? globalFrame x = σ.local? globalFrame x := by
  obtain ⟨r', τ', hr', hτ', hcounts, hglobal, -⟩ := h.exists_answer hc hcall
  obtain rfl := hcall.unique hr hr'
  obtain rfl := Option.some.inj (hτ.symm.trans hτ')
  exact ⟨hcounts, hglobal⟩

end State.HoldsCounts

namespace Counting

variable {σ₀ σ : State} {counters : List Counter}

/-- Each counter holds what it has counted. -/
theorem holdsCounts (h : Counting σ₀ counters σ) (h₀ : σ₀.OffersForms) :
    σ.HoldsCounts counters := by
  induction h with
  | start => exact .nil h₀
  | made _ he hv ih => exact (ih.of_evaluates he hv).1
  | called _ hc hcall hr hτ ih => exact (ih.of_call hc hcall hr hτ).1
  | meanwhile _ hτ ih => exact ih.meanwhile hτ

/-- The global frame still binds the names that it bound, to the same values. -/
theorem local?_globalFrame (h : Counting σ₀ counters σ) (h₀ : σ₀.OffersForms) {x : String}
    {v : Value} (hx : σ₀.local? globalFrame x = some v) : σ.local? globalFrame x = some v := by
  induction h with
  | start => exact hx
  | made hσ he hv ih =>
    have hcounts := hσ.holdsCounts h₀
    exact ((hcounts.of_evaluates he hv).2.local?_eq hcounts.forms.frameCount_pos id).trans ih
  | called hσ hc hcall hr hτ ih =>
    exact (((hσ.holdsCounts h₀).of_call hc hcall hr hτ).2 x).trans ih
  | meanwhile hσ hτ ih =>
    refine (hτ.local?_eq (hσ.holdsCounts h₀).forms.frameCount_pos fun hp => ?_).trans ih
    rw [ih] at hp
    cases hp.2

end Counting

/-- Counters do not affect each other. From any reachable state let counters be made and called in
whichever order. Making another one ends with a value and changes nothing that is bound. Each
counter is a function, and its next call, the `j`-th one, answers its start plus `j` if that is in
range; else the call fails and changes nothing that is bound. In neither case does a global name
change, nor has one changed before. -/
theorem counters_isolated {prelude : String} {σ₀ σ : State} {counters : List Counter}
    (h₀ : Reachable prelude σ₀) (h : Counting σ₀ counters σ) :
    (∀ files e s, MakesCounter files σ e s →
        ∃ v τ, Evaluates files globalFrame e σ (.done v τ) ∧
          ∀ j x, j < σ.frameCount → τ.local? j x = σ.local? j x) ∧
      (∀ (i : Nat) (c : Counter), counters[i]? = some c →
        (∃ f, c.function.callable? = some f) ∧
          ∀ files comesTo, CallOf files c.function σ comesTo →
            ∃ τ, (∀ x, τ.local? globalFrame x = σ.local? globalFrame x) ∧
              (c.start.val + (c.calls + 1) ≤ 9223372036854775807 →
                ∃ m : Fixnum, m.val = c.start.val + (c.calls + 1) ∧
                  comesTo (.done (.integer m) τ)) ∧
              (9223372036854775807 < c.start.val + (c.calls + 1) →
                comesTo (.failed (.evaluation (.overflow "inc!")) τ) ∧
                  ∀ j x, j < σ.frameCount → τ.local? j x = σ.local? j x)) ∧
      ∀ x v, σ₀.local? globalFrame x = some v → σ.local? globalFrame x = some v := by
  have hcounts := h.holdsCounts h₀.offersForms
  refine ⟨fun files e s he => ?_, fun i c hc => ⟨?_, fun files comesTo hcall => ?_⟩,
    fun x v => h.local?_globalFrame h₀.offersForms⟩
  · obtain ⟨v, τ, frame, hv, -, -, -, hτ⟩ := he.exists_evaluates hcounts.forms
    exact ⟨v, τ, hv, fun j x hj => hτ.local?_eq hj id⟩
  · obtain ⟨frame, n, ⟨name, id, hfunction⟩, -, -⟩ := hcounts.holds hc
    rw [hfunction]
    exact ⟨_, rfl⟩
  · obtain ⟨r, τ, hr, -, -, hglobal, hanswer⟩ := hcounts.exists_answer hc hcall
    refine ⟨τ, hglobal, fun hle => ?_, fun hlt => ?_⟩
    · rcases hanswer with ⟨m, hm, rfl⟩ | ⟨hlt, -, -⟩
      · exact ⟨m, hm, hr⟩
      · omega
    · rcases hanswer with ⟨m, hm, rfl⟩ | ⟨-, rfl, hτ⟩
      · have hle := m.le_greatest
        omega
      · exact ⟨hr, fun j x hj => hτ.local?_eq hj id⟩

/-- A prelude with a factory for counters, which start at 0 if nothing else is asked for. -/
def factoryPrelude : String :=
  "(defn (make-counter (start 0)) ((lambda (n) (lambda () (inc! n))) start))"

/-- The factory. -/
def factory : Value :=
  .closure .function "make-counter" 0 (.ofList [.ofList [.symbol "start", .integer 0]])
    (.ofList [counterExpr (.symbol "start")]) globalFrame

/-- The state of a session after this prelude, and after further definitions, closures and
frames. -/
def factoryState (definitions : Bindings) (closures : Nat) (further : List Frame) : State where
  frames := (⟨definitions ++ ("make-counter", factory) :: globalBindings, []⟩ :: further).toArray
  closures := closures
  printed := ""

/-- The integer before the greatest one. -/
def almostGreatest : Fixnum where
  val := 9223372036854775806

/-- The state of this session when the factory has made a counter that starts at `almostGreatest`
and another counter has been made without it. They stand at `n` and `k`. -/
def countersState (definitions : Bindings) (n k : Fixnum) (further : List Frame) : State :=
  factoryState definitions 5 (⟨[("start", .integer almostGreatest)], [0]⟩ ::
    ⟨[("n", .integer n)], [1, 0]⟩ :: ⟨[("n", .integer k)], [0]⟩ :: further)

/-- A counter from the factory that can be called once, under the name `tick`, and one that starts
at 5. After each of them has been called once, the first one fails and the other one counts on. -/
theorem counters_isolated_alternating :
    let ticking := counterFunction anonymousFunction 2 2
    let tock := counterFunction anonymousFunction 4 3
    let tocking := Callable.closure anonymousFunction .empty (.ofList [countingForm]) 3
    let σ₀ := factoryState [] 1 []
    let σ := countersState [("tick", ticking.named "tick")] { val := 9223372036854775807 } { val := 6 }
      [⟨[], [2, 1, 0]⟩, ⟨[], [3, 0]⟩]
    Reachable factoryPrelude σ₀ ∧
      Counting σ₀ [⟨tock, { val := 5 }, 1⟩, ⟨ticking, almostGreatest, 1⟩] σ ∧
      (∃ τ, Evaluates .empty globalFrame (.ofList [.symbol "tick"]) σ
        (.failed (.evaluation (.overflow "inc!")) τ)) ∧
      ∃ τ, Applies .empty tocking .empty σ (.done (.integer { val := 7 }) τ) := by
  intro ticking tock tocking σ₀ σ
  let unnamed := countersState [] almostGreatest { val := 5 } []
  let named := countersState [("tick", ticking.named "tick")] almostGreatest { val := 5 } []
  let ticked := countersState [("tick", ticking.named "tick")] { val := 9223372036854775807 }
    { val := 5 } [⟨[], [2, 1, 0]⟩]
  have hforms : (Source.readForms true factoryPrelude).forms =
      [⟨.ofList [.symbol "defn", .ofList [.symbol "make-counter",
        .ofList [.symbol "start", .integer 0]], counterExpr (.symbol "start")], 73⟩] := by
    with_unfolding_all rfl
  have hend : (Source.readForms true factoryPrelude).error? = none := by
    with_unfolding_all rfl
  have hstart : ((eval .empty 3).start factoryPrelude State.initial).state? = some σ₀ := by
    simp only [Evaluator.start, Evaluator.evaluateSource, Evaluator.evaluateForms, hforms, hend]
    rfl
  have hreachable : Reachable factoryPrelude σ₀ := .started hstart
  have hfactory : MakesCounter .empty σ₀
      (.ofList [.symbol "make-counter", .integer almostGreatest]) almostGreatest :=
    .factory rfl ⟨1, rfl⟩ rfl rfl rfl (.name rfl)
  have hdirect (ρ : State) :
      MakesCounter .empty ρ (counterExpr (.integer { val := 5 })) { val := 5 } := .direct (.literal _)
  have hmade : Counting σ₀ [⟨tock, { val := 5 }, 0⟩, ⟨ticking, almostGreatest, 0⟩] unnamed :=
    .made (.made .start hfactory ⟨nofun, 4, rfl⟩) (hdirect _) ⟨nofun, 3, rfl⟩
  have hbind : unnamed.ChangesOnly (fun j x => j = globalFrame ∧ x = "tick") named :=
    .bind (by decide) "tick" _
  have hnamed : Counting σ₀ [⟨tock, { val := 5 }, 0⟩, ⟨ticking, almostGreatest, 0⟩] named :=
    hmade.meanwhile (hbind.mono fun j x h => ⟨h.1, h.2 ▸ rfl⟩)
  -- The counter under the name is called by an expression, the other one directly.
  have hticks (ρ : State) (hρ : ρ.lookup? globalFrame "tick" = some (ticking.named "tick")) :
      CallOf .empty ticking ρ (Evaluates .empty globalFrame (.ofList [.symbol "tick"]) ρ) :=
    .expression ⟨nofun, 1, eval_symbol hρ 0⟩ ⟨1, rfl⟩
  have hf : (tock.named anonymousFunction).callable? = some tocking := rfl
  have htick : Evaluates .empty globalFrame (.ofList [.symbol "tick"]) named
      (.done (.integer { val := 9223372036854775807 }) ticked) := ⟨nofun, 3, rfl⟩
  have htock : Applies .empty tocking .empty ticked (.done (.integer { val := 6 }) σ) :=
    ⟨nofun, 2, rfl⟩
  have hticked : Counting σ₀ [⟨tock, { val := 5 }, 0⟩, ⟨ticking, almostGreatest, 1⟩] ticked :=
    hnamed.called (i := 1) rfl (hticks named rfl) htick rfl
  have hcounting : Counting σ₀ [⟨tock, { val := 5 }, 1⟩, ⟨ticking, almostGreatest, 1⟩] σ :=
    hticked.called (i := 0) rfl (.direct .empty hf) htock rfl
  obtain ⟨-, hcalls, -⟩ := counters_isolated hreachable hcounting
  obtain ⟨τ, -, -, hfails⟩ := (hcalls 1 _ rfl).2 .empty _ (hticks σ rfl)
  obtain ⟨υ, -, hcounts, -⟩ := (hcalls 0 _ rfl).2 .empty _ (.direct .empty hf)
  obtain ⟨m, hm, hseven⟩ := hcounts (by decide)
  obtain rfl : m = { val := 7 } := Fixnum.ext hm
  exact ⟨hreachable, hcounting, ⟨τ, (hfails (by decide)).1⟩, υ, hseven⟩

end ConsLisp
