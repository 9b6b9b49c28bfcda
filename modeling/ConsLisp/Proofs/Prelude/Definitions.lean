import ConsLisp.Proofs.Evaluation.Calls
import ConsLisp.Proofs.Evaluation.Pieces
import ConsLisp.Proofs.Session.GlobalNames
import ConsLisp.Proofs.Session.Registry

/-!
# What the prelude defines

The prelude defines eleven functions and macros, each by one form with a lambda list and a body of
one expression. Here they are as values. Reading the prelude gives exactly these forms, and
evaluating it binds each name, in the global frame, to the closure that its definition describes. A
session cannot change that: in every state that it reaches, the names of the prelude and those of
the builtin operations still stand for the same values.

## Main definitions

* `Definition`: a named function or macro whose body is one expression.
* `Definition.length`, `Definition.append`, …, `preludeDefinitions`: the definitions of the prelude.
* `State.define`, `preludeState`: the state after a definition, and after the prelude.
* `State.OffersPrelude`: the names of the prelude and of the builtin operations have their values.

## Main results

* `readForms_preludeSource`: the forms of the prelude.
* `start_preludeSource`: starting a session with the prelude leads to `preludeState`.
* `Reachable.offersPrelude`: the prelude is there in every state of a session.
-/

namespace ConsLisp

open Source (Form Stream readForms)

/-! ### Definitions -/

/-- A function or macro of the global frame whose body is one expression. -/
structure Definition where
  role : Role
  name : String
  params : Value
  body : Value

namespace Definition

/-- The special form that makes a closure with the given role under a name. -/
def maker : Role → SpecialForm
  | .function => .defineFunction
  | .expander => .defineMacro

/-- The expression that defines the function or macro. -/
def form (d : Definition) : Value :=
  .ofList [.symbol (maker d.role).name, .cons (.symbol d.name) d.params, d.body]

/-- The function or macro as a value, with the number of closures made before it. -/
def value (d : Definition) (id : Nat) : Value :=
  .closure d.role d.name id d.params (.ofList [d.body]) globalFrame

theorem typeOf_value_ne (d : Definition) (id : Nat) : (d.value id).typeOf ≠ .integer := by
  rw [value]
  cases d.role <;> nofun

/-- The function or macro as something that can be called. -/
def callable (d : Definition) : Callable :=
  .closure d.name d.params (.ofList [d.body]) globalFrame

end Definition

namespace Definition

open Value (callOf)

/-- The parameter `xs`, which stands for a list. -/
abbrev xs : Value :=
  .symbol "xs"

/-- `(not x)` -/
def not : Definition where
  role := .function
  name := "not"
  params := .ofList [.symbol "x"]
  body := callOf "if" [.symbol "x", .symbol "#f", .symbol "#t"]

/-- `(null? x)` -/
def isNull : Definition where
  role := .function
  name := "null?"
  params := .ofList [.symbol "x"]
  body := callOf "empty?" [.symbol "x"]

/-- `(cadr xs)` -/
def cadr : Definition where
  role := .function
  name := "cadr"
  params := .ofList [xs]
  body := callOf "car" [callOf "cdr" [xs]]

/-- `(caddr xs)` -/
def caddr : Definition where
  role := .function
  name := "caddr"
  params := .ofList [xs]
  body := callOf "car" [callOf "cdr" [callOf "cdr" [xs]]]

/-- `(last xs)` -/
def last : Definition where
  role := .function
  name := "last"
  params := .ofList [xs]
  body := callOf "if" [callOf "empty?" [callOf "cdr" [xs]], callOf "car" [xs],
    callOf "last" [callOf "cdr" [xs]]]

/-- `(begin . forms)` -/
def begin : Definition where
  role := .function
  name := "begin"
  params := .ofList [.symbol ".", .symbol "forms"]
  body := callOf "if" [callOf "empty?" [.symbol "forms"], .empty, callOf "last" [.symbol "forms"]]

/-- `(length xs)` -/
def length : Definition where
  role := .function
  name := "length"
  params := .ofList [xs]
  body := callOf "if" [callOf "empty?" [xs], .integer 0,
    callOf "+" [.integer 1, callOf "length" [callOf "cdr" [xs]]]]

/-- `(append xs ys)` -/
def append : Definition where
  role := .function
  name := "append"
  params := .ofList [xs, .symbol "ys"]
  body := callOf "if" [callOf "empty?" [xs], .symbol "ys",
    callOf "cons" [callOf "car" [xs], callOf "append" [callOf "cdr" [xs], .symbol "ys"]]]

/-- `(map f xs)` -/
def map : Definition where
  role := .function
  name := "map"
  params := .ofList [.symbol "f", xs]
  body := callOf "if" [callOf "empty?" [xs], .empty,
    callOf "cons" [callOf "f" [callOf "car" [xs]],
      callOf "map" [.symbol "f", callOf "cdr" [xs]]]]

/-- `(when test . body)` -/
def when : Definition where
  role := .expander
  name := "when"
  params := .ofList [.symbol "test", .symbol ".", .symbol "body"]
  body := .quoted .quasiquote (callOf "if" [.quoted .unquote (.symbol "test"),
    callOf "begin" [.quoted .splice (.symbol "body")], .empty])

/-- `(unless test . body)` -/
def whenNot : Definition where
  role := .expander
  name := "unless"
  params := .ofList [.symbol "test", .symbol ".", .symbol "body"]
  body := .quoted .quasiquote (callOf "if" [.quoted .unquote (.symbol "test"), .empty,
    callOf "begin" [.quoted .splice (.symbol "body")]])

end Definition

/-- The definitions of the prelude, in their order. -/
def preludeDefinitions : List Definition :=
  [.not, .isNull, .cadr, .caddr, .last, .begin, .length, .append, .map, .when, .whenNot]

set_option maxRecDepth 10000 in
/-- The prelude reads as its definitions, without a syntax error. -/
theorem readForms_preludeSource :
    (readForms true preludeSource).forms.map Form.value = preludeDefinitions.map Definition.form ∧
      (readForms true preludeSource).error? = none := by
  -- The stream is evaluated on the characters of the literal, which have to be named for that.
  obtain ⟨text, htext, hread⟩ : ∃ text, preludeSource = String.ofList text ∧
      (Stream.drain ⟨true, text, text, 0, false⟩).forms.map Form.value =
        preludeDefinitions.map Definition.form ∧
      (Stream.drain ⟨true, text, text, 0, false⟩).error? = none := ⟨_, rfl, by decide +kernel⟩
  rw [htext, readForms, Stream.ofText, String.toList_ofList]
  exact hread

/-! ### Evaluating definitions -/

/-- The state after a definition has been evaluated in the global frame. -/
def State.define (σ : State) (d : Definition) : State :=
  State.bind { σ with closures := σ.closures + 1 } globalFrame d.name (d.value σ.closures)

section Define

variable {σ : State} {d : Definition}

theorem State.local?_define (hσ : σ.OffersForms) (i : FrameId) (x : String) :
    (σ.define d).local? i x =
      if i = globalFrame ∧ x = d.name then some (d.value σ.closures) else σ.local? i x :=
  local?_bind (σ := { σ with closures := σ.closures + 1 }) hσ.frameCount_pos i

/-- A definition changes its name in the global frame and no other. -/
theorem State.changesOnly_define (hσ : σ.OffersForms) (d : Definition) :
    σ.ChangesOnly (fun i x => i = globalFrame ∧ x = d.name) (σ.define d) := by
  let counted : State := { σ with closures := σ.closures + 1 }
  have hcounted : σ.ChangesOnly (fun i x => i = globalFrame ∧ x = d.name) counted :=
    .of_frames_eq rfl
  have hpos : globalFrame < counted.frameCount := hσ.frameCount_pos
  exact hcounted.trans (.bind hpos d.name (d.value σ.closures))

theorem State.OffersForms.define (hσ : σ.OffersForms)
    (hfree : σ.local? globalFrame d.name = none) : (σ.define d).OffersForms := by
  refine hσ.of_changesOnly (changesOnly_define hσ d) fun form hform => ?_
  rw [← hform.2, hσ.form form] at hfree
  cases hfree

/-- Evaluating a definition binds its name to the closure it describes. -/
theorem eval_definition (files : Files) (hσ : σ.OffersForms) (hparams : d.params.isList = true)
    (hfree : σ.local? globalFrame d.name = none) (depth : Nat) :
    eval files (depth + 2) globalFrame d.form σ = .done (.symbol d.name) (σ.define d) := by
  have hmaker : σ.lookup? globalFrame (Definition.maker d.role).name =
      some (.specialForm (Definition.maker d.role)) :=
    (hσ.seesGlobal _).lookup?_eq (hσ.form _)
  let operands : Value := .ofList [.cons (.symbol d.name) d.params, d.body]
  have hadmits : (Definition.maker d.role).arity.Admits operands.length := by
    cases d.role <;> exact Nat.le_add_left 1 1
  have hrun : (Definition.maker d.role).run (eval files (depth + 1)) files globalFrame operands =
      Evaluator.defineCallable d.role (Definition.maker d.role).name globalFrame operands := by
    cases d.role <;> rfl
  have hcheck : checkLambdaList d.params = pure () := if_pos hparams
  have hlocal : State.local? { σ with closures := σ.closures + 1 } globalFrame d.name = none := hfree
  refine (eval_specialForm hmaker hadmits depth).trans ((congrFun hrun σ).trans ?_)
  change (checkLambdaList d.params >>= fun _ => _) σ = _
  rw [hcheck]
  change (Action.define globalFrame d.name (d.value σ.closures) >>= fun _ => _)
    { σ with closures := σ.closures + 1 } = _
  rw [Action.bind_apply, Action.define, hlocal]
  rfl

end Define

/-- The definitions can be evaluated in the state one after the other: their names are new. -/
structure State.CanDefine (σ : State) (defs : List Definition) : Prop where
  offersForms : σ.OffersForms
  isList : ∀ d ∈ defs, d.params.isList = true
  nodup : (defs.map Definition.name).Nodup
  free : ∀ d ∈ defs, σ.local? globalFrame d.name = none

section Sequence

variable {σ τ : State} {d : Definition} {defs : List Definition}

theorem State.CanDefine.tail (h : σ.CanDefine (d :: defs)) : (σ.define d).CanDefine defs where
  offersForms := h.offersForms.define (h.free d List.mem_cons_self)
  isList d' hd' := h.isList d' (List.mem_cons_of_mem d hd')
  nodup := (List.nodup_cons.1 h.nodup).2
  free d' hd' := by
    rw [State.local?_define h.offersForms, if_neg]
    · exact h.free d' (List.mem_cons_of_mem d hd')
    · rintro ⟨-, hname⟩
      exact (List.nodup_cons.1 h.nodup).1 (hname ▸ List.mem_map_of_mem hd')

theorem evaluateFormsAfter_definitions (files : Files) (depth : Nat) {forms : List Form}
    (hforms : forms.map Form.value = defs.map Definition.form) (h : σ.CanDefine defs)
    (last : Value) :
    ∃ v, (eval files (depth + 2)).evaluateFormsAfter globalFrame none last forms σ =
      .done v (defs.foldl State.define σ) := by
  induction defs generalizing forms σ last with
  | nil =>
    obtain rfl := List.map_eq_nil_iff.1 hforms
    exact ⟨last, rfl⟩
  | cons d defs ih =>
    obtain ⟨form, forms, rfl, hform, hforms⟩ := List.map_eq_cons_iff.1 hforms
    have heval := eval_definition files h.offersForms (h.isList d List.mem_cons_self)
      (h.free d List.mem_cons_self) depth
    rw [Evaluator.evaluateFormsAfter, Action.bind_apply, hform, heval]
    exact ih hforms h.tail _

theorem State.OffersForms.of_persistsIn (hσ : σ.OffersForms) (h : σ.PersistsIn τ) :
    τ.OffersForms where
  chain_eq := (h.chain_eq hσ.frameCount_pos).trans hσ.chain_eq
  form form := h.local?_eq (hσ.form form) nofun

theorem State.PersistsIn.define (h : σ.local? globalFrame d.name = none) :
    σ.PersistsIn (σ.define d) := by
  let counted : State := { σ with closures := σ.closures + 1 }
  have hcounted : σ.PersistsIn counted := .of_frames_eq rfl
  exact hcounted.trans (.bind (σ := counted) h (d.value σ.closures))

/-- Definitions keep what there is, and each binds its name to its closure. -/
theorem State.CanDefine.bindsAll (h : σ.CanDefine defs) :
    σ.PersistsIn (defs.foldl State.define σ) ∧
      ∀ d ∈ defs, ∃ id,
        (defs.foldl State.define σ).local? globalFrame d.name = some (d.value id) := by
  induction defs generalizing σ with
  | nil => exact ⟨.refl σ, nofun⟩
  | cons d defs ih =>
    obtain ⟨hpersists, hdefs⟩ := ih h.tail
    refine ⟨(State.PersistsIn.define (h.free d List.mem_cons_self)).trans hpersists, fun d' hd' => ?_⟩
    obtain rfl | hd' := List.mem_cons.1 hd'
    · have hlocal : (σ.define d').local? globalFrame d'.name = some (d'.value σ.closures) := by
        rw [State.local?_define h.offersForms, if_pos ⟨rfl, rfl⟩]
      exact ⟨σ.closures, hpersists.local?_eq hlocal (d'.typeOf_value_ne _)⟩
    · exact hdefs d' hd'

end Sequence

/-! ### The prelude in a session -/

/-- The state after the prelude. -/
def preludeState : State :=
  preludeDefinitions.foldl State.define State.initial

/-- The global frame binds the builtin operations and the functions and macros of the prelude to
their names. -/
structure State.OffersPrelude (σ : State) : Prop extends σ.OffersForms where
  primitive (op : Primitive) : σ.local? globalFrame op.name = some (.primitive op.name op)
  definition : ∀ d ∈ preludeDefinitions, ∃ id, σ.local? globalFrame d.name = some (d.value id)

theorem canDefine_initial : State.initial.CanDefine preludeDefinitions where
  offersForms := by
    constructor
    · rfl
    · intro form
      cases form <;> rfl
  isList := by decide +kernel
  nodup := by decide +kernel
  free := by decide +kernel

/-- What the prelude offers is never lost. -/
theorem State.OffersPrelude.of_persistsIn {σ τ : State} (hσ : σ.OffersPrelude)
    (h : σ.PersistsIn τ) : τ.OffersPrelude where
  toOffersForms := hσ.toOffersForms.of_persistsIn h
  primitive op := h.local?_eq (hσ.primitive op) nofun
  definition d hd := by
    obtain ⟨id, hid⟩ := hσ.definition d hd
    exact ⟨id, h.local?_eq hid (d.typeOf_value_ne id)⟩

theorem offersPrelude_preludeState : preludeState.OffersPrelude where
  toOffersForms := canDefine_initial.offersForms.of_persistsIn canDefine_initial.bindsAll.1
  primitive op := by
    have hinitial : State.initial.local? globalFrame op.name = some (.primitive op.name op) :=
      State.initial_local?_name (.function op)
    exact canDefine_initial.bindsAll.1.local?_eq hinitial nofun
  definition := canDefine_initial.bindsAll.2

/-- A prelude that reads as definitions of new names makes these definitions. -/
theorem start_of_readForms (files : Files) (depth : Nat) {prelude : String} {σ : State}
    {defs : List Definition}
    (hforms : (readForms true prelude).forms.map Form.value = defs.map Definition.form)
    (herror : (readForms true prelude).error? = none) (h : σ.CanDefine defs) :
    (eval files (depth + 2)).start prelude σ = .done () (defs.foldl State.define σ) := by
  obtain ⟨v, hv⟩ := evaluateFormsAfter_definitions files depth hforms h .empty
  rw [Evaluator.start, Action.bind_apply, Evaluator.evaluateSource, Evaluator.evaluateForms, herror,
    hv]
  rfl

/-- At every depth at which the prelude can be evaluated, this leads to the same state. -/
theorem start_preludeSource (files : Files) (depth : Nat) :
    (eval files (depth + 2)).start preludeSource State.initial = .done () preludeState :=
  start_of_readForms files depth readForms_preludeSource.1 readForms_preludeSource.2
    canDefine_initial

theorem reachable_preludeState : Reachable preludeSource preludeState := by
  have hstart : ((eval .empty 2).start preludeSource State.initial).state? = some preludeState := by
    rw [start_preludeSource .empty 0]
    rfl
  exact .started hstart

theorem Evaluator.Refines.start {ev' ev : Evaluator} (h : ev'.Refines ev) (prelude : String) :
    (ev'.start prelude).Refines (ev.start prelude) :=
  (h.evaluateFormsAfter globalFrame _ _ _).bind fun _ => .refl _

/-- The prelude is there in every state of a session that was started with it. -/
theorem Reachable.offersPrelude {σ : State} (h : Reachable preludeSource σ) : σ.OffersPrelude := by
  have hkeeps := Action.hereditary_keeps
  induction h with
  | @started files depth σ h =>
    -- Whatever the depth, the prelude has been evaluated as at a depth that suffices.
    have hrefines := (eval_refines files (Nat.le_add_right depth 2)).start preludeSource
    have hstart := hrefines.apply_eq rfl fun hr => by
      rw [hr] at h
      cases h
    rw [start_preludeSource] at hstart
    rw [← hstart] at h
    obtain rfl := Option.some.inj h
    exact offersPrelude_preludeState
  | answered _ _ h ih =>
    exact ih.of_persistsIn (hkeeps.request (hkeeps.eval _ _) _ _ _ _ _ h)
  | derived _ _ ih => exact ih.of_persistsIn (.derive _ _ _)

end ConsLisp
