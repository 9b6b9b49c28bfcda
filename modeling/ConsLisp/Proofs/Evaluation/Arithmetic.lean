import ConsLisp.Proofs.Evaluation.BigSteps
import Mathlib.Algebra.BigOperators.Group.List.Basic
import Mathlib.Algebra.Ring.Int.Defs

/-!
# Exact arithmetic

`+`, `-`, `*` and `/` go through their arguments from left to right. Each result on the way is the
exact one, or the call fails at the argument that has none: it is no integer, or it is a zero to
divide by, or the exact result is no machine integer, even if a later argument would bring it back
into range. A sum begins with zero and a product with one, also if there is nothing to add or to
multiply. A difference and a quotient begin with their first argument, unless it is the only one:
then it is subtracted from zero, or divides one.

## Main definitions

* `Arithmetic`: the four operations, with `Arithmetic.step` on exact integers.
* `Arithmetic.start?`, `Arithmetic.total`: where an operation begins, and what it comes to.
* `Arithmetic.Passes`: all results on the way are in range and nothing is divided by zero.
* `Arithmetic.Fault`: the error of an argument at which the computation fails.

## Main results

* `Arithmetic.accumulate_eq_ok_iff`, `Arithmetic.accumulate_eq_error_iff`: how a computation ends.
* `Arithmetic.total_divide`: dividing by several integers is dividing once by their product.
* `arithmetic_exact_or_error`: calls of the four primitives.
-/

namespace ConsLisp

/-- The integer is a machine integer. -/
def InRange (n : Int) : Prop :=
  -9223372036854775808 ≤ n ∧ n ≤ 9223372036854775807

instance (n : Int) : Decidable (InRange n) :=
  inferInstanceAs (Decidable (_ ∧ _))

theorem Fixnum.inRange (n : Fixnum) : InRange n.val :=
  ⟨n.least_le, n.le_greatest⟩

theorem Fixnum.orOverflow_eq_ok_iff {computation : String} {n : Int} {r : Fixnum} :
    orOverflow computation n = .ok r ↔ n = r.val := by
  rw [orOverflow, ← ofInt?_eq_some_iff]
  cases ofInt? n <;> simp

theorem Fixnum.orOverflow_eq_error_iff {computation : String} {n : Int} {e : Error} :
    orOverflow computation n = .error e ↔
      ¬InRange n ∧ e = .evaluation (.overflow computation) := by
  have hnone : ofInt? n = none ↔ ¬InRange n := by
    rw [ofInt?_eq_none_iff, InRange]
    omega
  rw [orOverflow, ← hnone]
  cases ofInt? n <;> simp [eq_comm]

theorem exists_of_bind_eq_ok {α β : Type} {m : Except Error α} {f : α → Except Error β} {b : β}
    (h : m >>= f = .ok b) : ∃ a, m = .ok a ∧ f a = .ok b := by
  cases m with
  | error e => cases h
  | ok a => exact ⟨a, rfl, h⟩

theorem integerOf_eq_ok_iff {op : String} {v : Value} {n : Fixnum} :
    integerOf op v = .ok n ↔ v = .integer n := by
  cases v <;> simp [integerOf]

theorem integerOf_eq_error_iff {op : String} {v : Value} {e : Error} :
    integerOf op v = .error e ↔
      (∀ n, v ≠ .integer n) ∧ e = .typing (.integersRequired op v.typeName v.text) := by
  cases v <;> simp [integerOf, eq_comm]

/-- The operations of arithmetic. -/
inductive Arithmetic where
  | add
  | subtract
  | multiply
  | divide
deriving DecidableEq

namespace Arithmetic

/-- The primitive that carries an operation out. -/
def primitive : Arithmetic → Primitive
  | add => .add
  | subtract => .subtract
  | multiply => .multiply
  | divide => .divide

/-! ### Exact results -/

/-- One step of an operation, on exact integers. Quotients are rounded toward zero. -/
def step : Arithmetic → Int → Int → Int
  | add, a, n => a + n
  | subtract, a, n => a - n
  | multiply, a, n => a * n
  | divide, a, n => a.tdiv n

/-- What an operation with the given number of arguments begins with, if this is not its first
argument. -/
def start? : Arithmetic → (count : Nat) → Option Fixnum
  | add, _ => some 0
  | multiply, _ => some 1
  | subtract, count => if count = 1 then some 0 else none
  | divide, count => if count = 1 then some 1 else none

/-- What an operation has come to after an argument. -/
def next (op : Arithmetic) (acc? : Option Int) (n : Int) : Int :=
  match acc? with
  | some acc => op.step acc n
  | none => n

/-- What an operation comes to that begins as given and goes through the given arguments. -/
def total (op : Arithmetic) (acc? : Option Int) (ns : List Int) : Option Int :=
  ns.foldl (fun acc? n => some (op.next acc? n)) acc?

@[simp] theorem total_cons (op : Arithmetic) (acc? : Option Int) (n : Int) (ns : List Int) :
    op.total acc? (n :: ns) = op.total (some (op.next acc? n)) ns := rfl

/-- The arguments that are not what an operation begins with. -/
def operands (acc? : Option Int) (ns : List Int) : List Int :=
  match acc? with
  | some _ => ns
  | none => ns.tail

/-- All results on the way through the arguments are machine integers, and none of the arguments is
a zero to divide by. -/
structure Passes (op : Arithmetic) (acc? : Option Int) (ns : List Int) : Prop where
  inRange : ∀ before, before <+: ns → ∀ acc, op.total acc? before = some acc → InRange acc
  divisor_ne_zero : op = .divide → (0 : Int) ∉ operands acc? ns

/-- An argument can be taken. -/
structure Takes (op : Arithmetic) (acc? : Option Int) (n : Int) : Prop where
  inRange : InRange (op.next acc? n)
  divisor_ne_zero : op = .divide → acc?.isSome → n ≠ 0

section Exact

variable {op : Arithmetic} {acc? : Option Int} {n : Int} {ns : List Int}

theorem passes_nil (hacc : ∀ acc, acc? = some acc → InRange acc) : op.Passes acc? [] where
  inRange before hbefore acc h := by
    obtain rfl := List.prefix_nil.1 hbefore
    exact hacc acc h
  divisor_ne_zero _ := by cases acc? <;> exact List.not_mem_nil

/-- A computation passes its arguments if it can take the first one and passes the others from
there. -/
theorem passes_cons_iff (hacc : ∀ acc, acc? = some acc → InRange acc) :
    op.Passes acc? (n :: ns) ↔ op.Takes acc? n ∧ op.Passes (some (op.next acc? n)) ns := by
  constructor
  · intro h
    refine ⟨⟨?_, fun hop hsome hn => ?_⟩, ⟨fun before hbefore acc hacc' => ?_, fun hop hmem => ?_⟩⟩
    · exact h.inRange [n] (by simp) _ rfl
    · obtain ⟨acc, rfl⟩ := Option.isSome_iff_exists.1 hsome
      exact h.divisor_ne_zero hop (hn ▸ List.mem_cons_self)
    · exact h.inRange (n :: before) (List.cons_prefix_cons.2 ⟨rfl, hbefore⟩) acc hacc'
    · refine h.divisor_ne_zero hop ?_
      cases acc? with
      | none => exact hmem
      | some _ => exact List.mem_cons_of_mem n hmem
  · rintro ⟨htakes, hpasses⟩
    refine ⟨fun before hbefore acc htotal => ?_, fun hop hmem => ?_⟩
    · obtain rfl | ⟨before, rfl, hrest⟩ := List.prefix_cons_iff.1 hbefore
      · exact hacc acc htotal
      · exact hpasses.inRange before hrest acc htotal
    · cases acc? with
      | none => exact hpasses.divisor_ne_zero hop hmem
      | some acc =>
        obtain hn | hmem := List.mem_cons.1 hmem
        · exact htakes.divisor_ne_zero hop rfl hn.symm
        · exact hpasses.divisor_ne_zero hop hmem

/-- Dividing twice is dividing once by the product. -/
theorem tdiv_tdiv (a m n : Int) : (a.tdiv m).tdiv n = a.tdiv (m * n) := by
  obtain ⟨a, rfl | rfl⟩ := a.eq_nat_or_neg <;> obtain ⟨m, rfl | rfl⟩ := m.eq_nat_or_neg <;>
    obtain ⟨n, rfl | rfl⟩ := n.eq_nat_or_neg <;>
    simp only [Int.neg_tdiv, Int.tdiv_neg, Int.neg_mul, Int.mul_neg, Int.neg_neg, ← Int.natCast_mul,
      ← Int.ofNat_tdiv, Nat.div_div_eq_div_mul]

/-- Dividing by several integers is dividing once by their product. -/
theorem total_divide (a : Int) (ns : List Int) :
    divide.total (some a) ns = some (a.tdiv ns.prod) := by
  induction ns generalizing a with
  | nil => simp [total]
  | cons n ns ih => rw [total_cons, ih, List.prod_cons, next, step, tdiv_tdiv]

end Exact

/-! ### Computations on arguments -/

/-- The error of an argument that a computation cannot take. -/
inductive Fault (op : Arithmetic) (computation : String) (acc? : Option Int) : Value → Error → Prop
  | notInteger {v : Value} (hv : ∀ n, v ≠ .integer n) :
      Fault op computation acc? v
        (.typing (.integersRequired op.primitive.name v.typeName v.text))
  | divisionByZero (hop : op = .divide) (hacc : acc?.isSome) :
      Fault op computation acc? (.integer 0) (.evaluation .divisionByZero)
  | overflow {n : Fixnum} (hrange : ¬InRange (op.next acc? n.val)) :
      Fault op computation acc? (.integer n) (.evaluation (.overflow computation))

/-- Takes one argument. -/
def take (op : Arithmetic) (computation : String) (acc? : Option Fixnum) (v : Value) :
    Except Error Fixnum := do
  let n ← integerOf op.primitive.name v
  if op = .divide ∧ acc?.isSome ∧ n.val = 0 then .error (.evaluation .divisionByZero)
  else Fixnum.orOverflow computation (op.next (acc?.map Fixnum.val) n.val)

/-- Takes arguments one after the other. -/
def accumulate (op : Arithmetic) (computation : String) :
    Option Fixnum → List Value → Except Error (Option Fixnum)
  | acc?, [] => .ok acc?
  | acc?, v :: vs => do
    let acc ← op.take computation acc? v
    accumulate op computation (some acc) vs

section Computation

variable {op : Arithmetic} {computation : String} {acc? : Option Fixnum}

theorem inRange_of_map_val (acc : Int) (h : acc?.map Fixnum.val = some acc) : InRange acc := by
  obtain ⟨n, -, rfl⟩ := Option.map_eq_some_iff.1 h
  exact n.inRange

theorem take_eq_ok_iff {v : Value} {r : Fixnum} :
    op.take computation acc? v = .ok r ↔ ∃ n : Fixnum, v = .integer n ∧
      op.Takes (acc?.map Fixnum.val) n.val ∧ op.next (acc?.map Fixnum.val) n.val = r.val := by
  rw [take]
  cases hv : integerOf op.primitive.name v with
  | error e =>
    have hn (n : Fixnum) : v ≠ .integer n := (integerOf_eq_error_iff.1 hv).1 n
    constructor
    · nofun
    · rintro ⟨n, rfl, -⟩
      exact absurd rfl (hn n)
  | ok n =>
    obtain rfl := integerOf_eq_ok_iff.1 hv
    change (if _ then _ else _) = _ ↔ _
    split
    · next hzero =>
      simp only [reduceCtorEq, false_iff, Value.integer.injEq]
      rintro ⟨_, rfl, htakes, -⟩
      exact htakes.divisor_ne_zero hzero.1 (by simpa using hzero.2.1) hzero.2.2
    · next hzero =>
      rw [Fixnum.orOverflow_eq_ok_iff]
      constructor
      · intro h
        refine ⟨n, rfl, ⟨h ▸ r.inRange, fun hop hsome hn => hzero ⟨hop, ?_, hn⟩⟩, h⟩
        simpa using hsome
      · rintro ⟨_, ⟨⟩, -, h⟩
        exact h

/-- A quotient by zero counts as zero. -/
theorem next_divide_zero {acc? : Option Int} (hacc : acc?.isSome) : divide.next acc? 0 = 0 := by
  obtain ⟨acc, rfl⟩ := Option.isSome_iff_exists.1 hacc
  exact Int.tdiv_zero acc

theorem fault_integer_iff {acc? : Option Int} {n : Fixnum} {e : Error} :
    op.Fault computation acc? (.integer n) e ↔
      (op = .divide ∧ acc?.isSome ∧ n.val = 0) ∧ e = .evaluation .divisionByZero ∨
      ¬InRange (op.next acc? n.val) ∧ e = .evaluation (.overflow computation) := by
  constructor
  · intro h
    cases h with
    | notInteger hv => exact absurd rfl (hv n)
    | divisionByZero hop hacc => exact .inl ⟨⟨hop, hacc, rfl⟩, rfl⟩
    | overflow hrange => exact .inr ⟨hrange, rfl⟩
  · rintro (⟨⟨hop, hacc, hn⟩, rfl⟩ | ⟨hrange, rfl⟩)
    · obtain rfl : n = 0 := Fixnum.ext hn
      exact .divisionByZero hop hacc
    · exact .overflow hrange

theorem take_eq_error_iff {v : Value} {e : Error} :
    op.take computation acc? v = .error e ↔
      op.Fault computation (acc?.map Fixnum.val) v e := by
  rw [take]
  cases hv : integerOf op.primitive.name v with
  | error e' =>
    obtain ⟨hn, rfl⟩ := integerOf_eq_error_iff.1 hv
    change Except.error _ = Except.error e ↔ _
    constructor
    · rintro ⟨⟩
      exact .notInteger hn
    · intro h
      cases h with
      | notInteger => rfl
      | divisionByZero => exact absurd rfl (hn 0)
      | overflow => exact absurd rfl (hn _)
  | ok n =>
    obtain rfl := integerOf_eq_ok_iff.1 hv
    change (if _ then _ else _) = _ ↔ _
    rw [fault_integer_iff, Option.isSome_map]
    split
    · next hzero =>
      have hrange : InRange (op.next (acc?.map Fixnum.val) n.val) := by
        obtain ⟨rfl, hacc, hn⟩ := hzero
        rw [hn, next_divide_zero (by rwa [Option.isSome_map])]
        decide
      rw [and_iff_right hzero, or_iff_left fun h => h.1 hrange, Except.error.injEq, eq_comm]
    · next hzero => simp [hzero, Fixnum.orOverflow_eq_error_iff]

/-! ### Computations after one step -/

/-- An argument that has been taken does not matter any more but for what has been come to. -/
theorem exists_of_take_eq_ok {v : Value} {acc : Fixnum}
    (h : op.take computation acc? v = .ok acc) : ∃ n : Fixnum, v = .integer n ∧
      ∀ ns, (op.Passes (acc?.map Fixnum.val) (n.val :: ns) ↔ op.Passes (some acc.val) ns) ∧
        op.total (acc?.map Fixnum.val) (n.val :: ns) = op.total (some acc.val) ns := by
  obtain ⟨n, rfl, htakes, hnext⟩ := take_eq_ok_iff.1 h
  refine ⟨n, rfl, fun ns => ⟨?_, ?_⟩⟩
  · rw [passes_cons_iff inRange_of_map_val, hnext]
    exact and_iff_right htakes
  · rw [total_cons, hnext]

theorem not_passes_of_take_eq_error {n : Fixnum} {e : Error}
    (h : op.take computation acc? (.integer n) = .error e) (ns : List Int) :
    ¬op.Passes (acc?.map Fixnum.val) (n.val :: ns) := by
  intro hpasses
  have htakes := ((passes_cons_iff inRange_of_map_val).1 hpasses).1
  let acc : Fixnum := ⟨_, htakes.inRange.1, htakes.inRange.2⟩
  have hacc : op.take computation acc? (.integer n) = .ok acc :=
    take_eq_ok_iff.2 ⟨n, rfl, htakes, rfl⟩
  cases h.symm.trans hacc

theorem accumulate_cons_of_take {v : Value} {acc : Fixnum}
    (h : op.take computation acc? v = .ok acc) (vs : List Value) :
    op.accumulate computation acc? (v :: vs) = op.accumulate computation (some acc) vs := by
  rw [accumulate, h]
  rfl

theorem accumulate_eq_ok_iff {vs : List Value} {r? : Option Fixnum} :
    op.accumulate computation acc? vs = .ok r? ↔ ∃ ns : List Fixnum, vs = ns.map .integer ∧
      op.Passes (acc?.map Fixnum.val) (ns.map Fixnum.val) ∧
      op.total (acc?.map Fixnum.val) (ns.map Fixnum.val) = r?.map Fixnum.val := by
  induction vs generalizing acc? with
  | nil =>
    rw [accumulate]
    constructor
    · rintro ⟨⟩
      exact ⟨[], rfl, passes_nil inRange_of_map_val, rfl⟩
    · rintro ⟨ns, hns, -, htotal⟩
      obtain rfl := List.map_eq_nil_iff.1 hns.symm
      exact congrArg _ (Option.map_injective (fun _ _ => Fixnum.ext) htotal)
  | cons v vs ih =>
    cases hv : op.take computation acc? v with
    | error e =>
      rw [accumulate, hv]
      constructor
      · nofun
      · rintro ⟨ns, hns, hpasses, -⟩
        obtain ⟨n, ns, rfl, rfl, -⟩ := List.map_eq_cons_iff.1 hns.symm
        exact absurd hpasses (not_passes_of_take_eq_error hv _)
    | ok acc =>
      obtain ⟨n, rfl, hafter⟩ := exists_of_take_eq_ok hv
      rw [accumulate_cons_of_take hv, ih]
      constructor
      · rintro ⟨ns, rfl, hpasses, htotal⟩
        exact ⟨n :: ns, rfl, (hafter _).1.2 hpasses, (hafter _).2.trans htotal⟩
      · rintro ⟨ns, hns, hpasses, htotal⟩
        obtain ⟨_, ns, rfl, hn, rfl⟩ := List.map_eq_cons_iff.1 hns.symm
        obtain rfl := Value.integer.inj hn
        exact ⟨ns, rfl, (hafter _).1.1 hpasses, (hafter _).2.symm.trans htotal⟩

/-- A computation fails at the first argument that it cannot take. -/
theorem accumulate_eq_error_iff {vs : List Value} {e : Error} :
    op.accumulate computation acc? vs = .error e ↔
      ∃ (before : List Fixnum) (v : Value) (after : List Value),
        vs = before.map .integer ++ v :: after ∧
        op.Passes (acc?.map Fixnum.val) (before.map Fixnum.val) ∧
        op.Fault computation (op.total (acc?.map Fixnum.val) (before.map Fixnum.val)) v e := by
  induction vs generalizing acc? with
  | nil =>
    constructor
    · nofun
    · rintro ⟨before, v, after, hvs, -⟩
      simp at hvs
  | cons v vs ih =>
    cases hv : op.take computation acc? v with
    | error e' =>
      rw [accumulate, hv]
      constructor
      · rintro ⟨⟩
        exact ⟨[], v, vs, rfl, passes_nil inRange_of_map_val, take_eq_error_iff.1 hv⟩
      · rintro ⟨before, w, after, hvs, hpasses, hfault⟩
        cases before with
        | nil =>
          obtain ⟨rfl, rfl⟩ := List.cons.inj hvs
          cases hv.symm.trans (take_eq_error_iff.2 hfault)
          rfl
        | cons n before =>
          obtain ⟨rfl, -⟩ := List.cons.inj hvs
          exact absurd hpasses (not_passes_of_take_eq_error hv _)
    | ok acc =>
      obtain ⟨n, rfl, hafter⟩ := exists_of_take_eq_ok hv
      rw [accumulate_cons_of_take hv, ih]
      constructor
      · rintro ⟨before, w, after, rfl, hpasses, hfault⟩
        exact ⟨n :: before, w, after, rfl, (hafter _).1.2 hpasses, (hafter _).2 ▸ hfault⟩
      · rintro ⟨before, w, after, hvs, hpasses, hfault⟩
        cases before with
        | nil =>
          obtain ⟨rfl, rfl⟩ := List.cons.inj hvs
          cases hv.symm.trans (take_eq_error_iff.2 hfault)
        | cons m before =>
          obtain ⟨hm, rfl⟩ := List.cons.inj hvs
          obtain rfl := Value.integer.inj hm
          exact ⟨before, w, after, rfl, (hafter _).1.1 hpasses, (hafter _).2 ▸ hfault⟩

/-! ### The four primitives -/

variable (op)

/-- The name under which an operation with the given number of arguments reports an overflow. -/
def overflowName (count : Nat) : String :=
  match op with
  | add => "addition"
  | multiply => "multiplication"
  | subtract => if count = 1 then "negation" else "subtraction"
  | divide => "division"

/-- What an operation on the given arguments comes to, by exact arithmetic. -/
def exact (ns : List Fixnum) : Option Int :=
  op.total ((op.start? ns.length).map Fixnum.val) (ns.map Fixnum.val)

/-- The value of a computation that has come to something. -/
def answer (r? : Option Fixnum) : Except Error Value :=
  match r? with
  | some r => .ok (.integer r)
  | none => .error (.arity op.primitive.name op.primitive.arity 0)

variable {op}

/-- A fold over integer arguments whose steps are those of an operation. -/
theorem integer_foldIntegers {combine : Fixnum → Fixnum → Except Error Fixnum}
    (hcombine : ∀ acc n, combine acc n = op.take computation (some acc) (.integer n))
    (acc : Fixnum) (vs : List Value) :
    Value.integer <$> foldIntegers op.primitive.name combine acc vs =
      op.accumulate computation (some acc) vs >>= op.answer := by
  induction vs generalizing acc with
  | nil => rfl
  | cons v vs ih =>
    cases v with
    | integer n =>
      have hfold : foldIntegers op.primitive.name combine acc (.integer n :: vs) =
          combine acc n >>= fun acc => foldIntegers op.primitive.name combine acc vs := rfl
      rw [hfold, accumulate, ← hcombine]
      cases combine acc n with
      | error e => rfl
      | ok acc => exact ih acc
    | _ => rfl

/-- A fold that begins with its first argument. -/
theorem integer_foldIntegers_first {combine : Fixnum → Fixnum → Except Error Fixnum}
    (hcombine : ∀ acc n, combine acc n = op.take computation (some acc) (.integer n))
    (v : Value) (vs : List Value) :
    Value.integer <$> (do
        foldIntegers op.primitive.name combine (← integerOf op.primitive.name v) vs) =
      op.accumulate computation none (v :: vs) >>= op.answer := by
  cases v with
  | integer n =>
    have hfirst : op.take computation none (.integer n) = .ok n :=
      take_eq_ok_iff.2 ⟨n, rfl, ⟨n.inRange, nofun⟩, rfl⟩
    rw [accumulate_cons_of_take hfirst]
    exact integer_foldIntegers hcombine n vs
  | _ => rfl

theorem take_integer (op : Arithmetic) (hop : op ≠ .divide) (computation : String)
    (acc n : Fixnum) :
    op.take computation (some acc) (.integer n) =
      Fixnum.orOverflow computation (op.step acc.val n.val) :=
  if_neg fun h => hop h.1

theorem take_divide (computation : String) (acc n : Fixnum) :
    divide.take computation (some acc) (.integer n) =
      if n.val = 0 then .error (.evaluation .divisionByZero)
      else Fixnum.orOverflow computation (acc.val.tdiv n.val) := by
  by_cases hn : n.val = 0
  · exact (if_pos ⟨rfl, rfl, hn⟩).trans (if_pos hn).symm
  · exact (if_neg fun h => hn h.2.2).trans (if_neg hn).symm

/-- The opposite of an integer is what subtracting it from zero comes to. -/
theorem integer_negate (v : Value) :
    Value.integer <$> (do Fixnum.negate (← integerOf subtract.primitive.name v)) =
      subtract.accumulate "negation" (some 0) [v] >>= subtract.answer := by
  cases v with
  | integer n =>
    have hnegate : subtract.take "negation" (some 0) (.integer n) = n.negate := by
      rw [take_integer subtract nofun, step, Fixnum.negate]
      exact congrArg _ (Int.zero_sub n.val)
    rw [accumulate, hnegate]
    change Value.integer <$> n.negate = _
    cases n.negate <;> rfl
  | _ => rfl

/-- Each primitive computes what its operation comes to. -/
theorem compute_eq (op : Arithmetic) (args : Value) :
    op.primitive.compute args =
      op.accumulate (op.overflowName args.length) (op.start? args.length) args.elements >>=
        op.answer := by
  rw [Value.length]
  cases op with
  | add => exact integer_foldIntegers (fun acc n => (take_integer add (by decide) _ acc n).symm) 0 _
  | multiply =>
    exact integer_foldIntegers (fun acc n => (take_integer multiply (by decide) _ acc n).symm) 1 _
  | subtract =>
    have hcombine (acc n : Fixnum) :
        Fixnum.subtract acc n = subtract.take "subtraction" (some acc) (.integer n) :=
      (take_integer subtract (by decide) _ acc n).symm
    change Value.integer <$> Primitive.difference args.elements = _
    cases args.elements with
    | nil => rfl
    | cons v vs =>
      cases vs with
      | nil => exact integer_negate v
      | cons w vs => exact integer_foldIntegers_first hcombine v (w :: vs)
  | divide =>
    have hcombine (acc n : Fixnum) :
        Fixnum.divide acc n = divide.take "division" (some acc) (.integer n) :=
      (take_divide _ acc n).symm
    change Value.integer <$> Primitive.quotient args.elements = _
    cases args.elements with
    | nil => rfl
    | cons v vs =>
      cases vs with
      | nil => exact integer_foldIntegers hcombine 1 [v]
      | cons w vs => exact integer_foldIntegers_first hcombine v (w :: vs)

end Computation

/-- The arguments are integers on which an operation comes to `r`, with all results on the way in
range. -/
def ComesTo (op : Arithmetic) (args : Value) (r : Fixnum) : Prop :=
  ∃ ns : List Fixnum, args.elements = ns.map .integer ∧
    op.Passes ((op.start? ns.length).map Fixnum.val) (ns.map Fixnum.val) ∧ op.exact ns = some r.val

/-- An operation fails at the first argument that it cannot take. -/
def FailsWith (op : Arithmetic) (args : Value) (e : Error) : Prop :=
  ∃ (before : List Fixnum) (v : Value) (after : List Value),
    args.elements = before.map .integer ++ v :: after ∧
    op.Passes ((op.start? args.length).map Fixnum.val) (before.map Fixnum.val) ∧
    op.Fault (op.overflowName args.length)
      (op.total ((op.start? args.length).map Fixnum.val) (before.map Fixnum.val)) v e

section Primitive

variable {op : Arithmetic} {args : Value}

theorem total_isSome (op : Arithmetic) (acc? : Option Int) {ns : List Int} (hns : ns ≠ []) :
    (op.total acc? ns).isSome := by
  induction ns generalizing acc? with
  | nil => exact absurd rfl hns
  | cons n ns ih =>
    cases ns with
    | nil => rfl
    | cons m ns => exact ih _ (List.cons_ne_nil m ns)

theorem compute_eq_ok_iff {v : Value} :
    op.primitive.compute args = .ok v ↔ ∃ r, v = .integer r ∧ op.ComesTo args r := by
  have hlength (ns : List Fixnum) (hns : args.elements = ns.map .integer) :
      args.length = ns.length := by
    rw [Value.length, hns, List.length_map]
  rw [compute_eq]
  constructor
  · intro h
    obtain ⟨r?, hacc, hanswer⟩ := exists_of_bind_eq_ok h
    cases r? with
    | none => cases hanswer
    | some r =>
      obtain ⟨ns, hns, hpasses, htotal⟩ := accumulate_eq_ok_iff.1 hacc
      rw [hlength ns hns] at hpasses htotal
      exact ⟨r, (Except.ok.inj hanswer).symm, ns, hns, hpasses, htotal⟩
  · rintro ⟨r, rfl, ns, hns, hpasses, htotal⟩
    rw [← hlength ns hns] at hpasses
    rw [exact, ← hlength ns hns] at htotal
    have hacc : op.accumulate (op.overflowName args.length) (op.start? args.length) args.elements =
        .ok (some r) := accumulate_eq_ok_iff.2 ⟨ns, hns, hpasses, htotal⟩
    rw [hacc]
    rfl

theorem compute_eq_error_iff (hargs : args.elements ≠ []) {e : Error} :
    op.primitive.compute args = .error e ↔ op.FailsWith args e := by
  rw [compute_eq, FailsWith, ← accumulate_eq_error_iff]
  cases hacc : op.accumulate (op.overflowName args.length) (op.start? args.length)
      args.elements with
  | error e' =>
    constructor <;>
    · rintro ⟨⟩
      rfl
  | ok r? =>
    cases r? with
    | some r => exact ⟨nofun, nofun⟩
    | none =>
      obtain ⟨ns, hns, -, htotal⟩ := accumulate_eq_ok_iff.1 hacc
      have hne : ns.map Fixnum.val ≠ [] := by
        intro h
        rw [List.map_eq_nil_iff.1 h] at hns
        exact hargs hns
      have hsome := total_isSome op ((op.start? args.length).map Fixnum.val) hne
      rw [htotal] at hsome
      cases hsome

end Primitive

end Arithmetic

/-! ### Calls -/

section Calls

variable {files : Files} {name : String} {args : Value} {σ : State}

/-- A call without arguments that the arity refuses fails as the computation does. -/
theorem Arithmetic.apply_primitive (op : Arithmetic) (args : Value) :
    op.primitive.apply args = Action.ofExcept (op.primitive.compute args) := by
  have hop : op.primitive ≠ .println := by cases op <;> nofun
  rw [Primitive.apply, Primitive.run_eq hop, Arity.check]
  split
  · rfl
  · next hadmits =>
    have helements : args.elements = [] := by
      by_contra hne
      have hlength : 1 ≤ args.length := List.length_pos_iff.2 hne
      refine hadmits ?_
      cases op with
      | add | multiply => exact trivial
      | subtract | divide => exact hlength
    rw [compute_eq, Value.length, helements]
    cases op with
    | add | multiply => exact absurd trivial hadmits
    | subtract | divide => rfl

/-- A call of an arithmetic primitive ends with the exact result of the operation, if its arguments
are integers, all results on the way are machine integers, and nothing is divided by zero. Otherwise
it fails at the first argument for which this is not so, if it has arguments at all: with a type
error if it is no integer, and with an error of evaluation if it is a zero to divide by or the
result after it is out of range. The state stays as it is. A quotient of several integers is the
first one divided once by the product of the others. -/
theorem arithmetic_exact_or_error (files : Files) (op : Arithmetic) (name : String) (args : Value)
    (σ : State) :
    (∀ v τ, Applies files (.primitive name op.primitive) args σ (.done v τ) ↔
      τ = σ ∧ ∃ r, v = .integer r ∧ op.ComesTo args r) ∧
    (args.elements ≠ [] → ∀ e τ,
      Applies files (.primitive name op.primitive) args σ (.failed e τ) ↔
        τ = σ ∧ op.FailsWith args e) ∧
    (∃ r, Applies files (.primitive name op.primitive) args σ r) ∧
    ∀ (n m : Fixnum) (ns : List Fixnum),
      Arithmetic.divide.exact (n :: m :: ns) =
        some (n.val.tdiv ((m :: ns).map Fixnum.val).prod) := by
  refine ⟨fun v τ => ?_, fun hargs e τ => ?_, ?_, fun n m ns => ?_⟩
  · rw [applies_primitive_iff, op.apply_primitive, ← Arithmetic.compute_eq_ok_iff]
    cases op.primitive.compute args <;> simp [Action.ofExcept, Action.pure, eq_comm, and_comm]
  · rw [applies_primitive_iff, op.apply_primitive, ← Arithmetic.compute_eq_error_iff hargs]
    cases op.primitive.compute args <;> simp [Action.ofExcept, Action.pure, eq_comm, and_comm]
  · refine ⟨_, applies_primitive_iff.2 ⟨?_, rfl⟩⟩
    rw [op.apply_primitive]
    cases op.primitive.compute args <;> nofun
  · exact Arithmetic.total_divide n.val ((m :: ns).map Fixnum.val)

end Calls

/-- The greatest machine integer. -/
def greatestFixnum : Fixnum :=
  { val := 9223372036854775807 }

/-- `(9223372036854775807 1 -1)` -/
def beyondAndBack : Value :=
  .ofList [.integer greatestFixnum, .integer 1, .integer { val := -1 }]

theorem arithmetic_exact_or_error_beyondAndBack :
    beyondAndBack.elements ≠ [] ∧
    Applies .empty (.primitive "+" .add) beyondAndBack default
      (.failed (.evaluation (.overflow "addition")) default) := by
  have hargs : beyondAndBack.elements ≠ [] := by decide
  refine ⟨hargs,
    ((arithmetic_exact_or_error .empty .add "+" beyondAndBack default).2.1 hargs _ _).2 ⟨rfl, ?_⟩⟩
  -- The second argument takes the sum out of range.
  refine ⟨[greatestFixnum], .integer 1, [.integer { val := -1 }], rfl, ?_, .overflow (by decide)⟩
  have hzero (acc : Int) (h : some (0 : Int) = some acc) : InRange acc :=
    Option.some.inj h ▸ (by decide)
  have hgreatest (acc : Int) (h : some greatestFixnum.val = some acc) : InRange acc :=
    Option.some.inj h ▸ greatestFixnum.inRange
  exact (Arithmetic.passes_cons_iff hzero).2
    ⟨⟨by decide, nofun⟩, Arithmetic.passes_nil hgreatest⟩

end ConsLisp
