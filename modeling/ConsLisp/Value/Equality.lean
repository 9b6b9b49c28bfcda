import ConsLisp.Value.Basic

/-!
# Equality of values

Two values are equal when they have the same shape and equal parts. A callable equals another when
both are the same operation or the same closure, whatever names they are shown under.

A value can hold the same part many times over: a pair of a list with itself, and so on, has
exponentially many parts with only a few in memory. `Value.equalsShared` gives the answer of
`Value.equals` without going through parts that both values share, so that comparing a value with
itself takes no time at all.

## Main definitions

* `Value.equals`: the equality that programs and their hosts see.
* `Value.equalsShared`: the same equality, which skips shared parts.

## Main results

* `Value.equals_refl`: every value equals itself.
* `Value.typeOf_eq_of_equals`: equal values are of one type.
* `Value.equalsShared_eq`: both functions give the same answer.
-/

namespace ConsLisp.Value

/-- Whether two values are equal. Callables are compared by identity, not by display name. -/
def equals : Value → Value → Bool
  | empty, empty => true
  | cons a as, cons b bs => equals a b && equals as bs
  | symbol a, symbol b => a == b
  | integer a, integer b => a == b
  | string a, string b => a == b
  | bool a, bool b => a == b
  | quoted j a, quoted k b => j == k && equals a b
  | primitive _ f, primitive _ g => f == g
  | closure r _ i _ _ _, closure s _ j _ _ _ => r == s && i == j
  | specialForm f, specialForm g => f == g
  | typeTag s, typeTag t => s == t
  | _, _ => false

@[simp] theorem equals_refl (v : Value) : equals v v = true := by
  induction v <;> simp_all [equals]

/-- Equal values are of one type. -/
theorem typeOf_eq_of_equals {v w : Value} (h : v.equals w = true) : v.typeOf = w.typeOf := by
  fun_cases equals v w with
  | case9 role =>
    rw [equals, Bool.and_eq_true, beq_iff_eq] at h
    obtain ⟨rfl, -⟩ := h
    cases role <;> rfl
  | case12 =>
    simp only [equals] at h
    cases h
  | _ => rfl

/-! ### Shared parts -/

/-- Asks whether two parts are the same object before it compares them by `answer`. -/
@[inline] def orShared (a b : Value) (answer : Unit → { r : Bool // r = equals a b }) : Bool :=
  withPtrEq a b (fun _ => (answer ()).1) fun h => by
    rw [(answer ()).2, h, equals_refl]

theorem orShared_eq {a b : Value} (answer : Unit → { r : Bool // r = equals a b }) :
    orShared a b answer = equals a b :=
  (answer ()).2

/-- Compares two values and skips the parts that they share. -/
def compareParts : (v w : Value) → { r : Bool // r = equals v w }
  | cons a as, cons b bs =>
    ⟨orShared a b (fun _ => compareParts a b) && orShared as bs (fun _ => compareParts as bs), by
      rw [orShared_eq, orShared_eq, equals]⟩
  | quoted j a, quoted k b =>
    ⟨j == k && orShared a b (fun _ => compareParts a b), by rw [orShared_eq, equals]⟩
  | v, w => ⟨equals v w, rfl⟩

/-- Whether two values are equal, without going through parts that they share. -/
def equalsShared (v w : Value) : Bool :=
  orShared v w fun _ => compareParts v w

@[simp] theorem equalsShared_eq (v w : Value) : equalsShared v w = equals v w :=
  orShared_eq _

end ConsLisp.Value
