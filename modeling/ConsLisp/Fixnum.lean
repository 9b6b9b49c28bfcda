/-!
# Machine integers

The integers of the language are the whole numbers that fit in 64 signed bits. Arithmetic is never
taken modulo a power of two: an operation computes the exact result and asks `Fixnum.ofInt?`
whether it fits.

## Main definitions

* `Fixnum`: an integer together with the proof that it is in range.
* `Fixnum.ofInt?`: the machine integer of a whole number, if there is one.
* `Fixnum.ofWord?`: reading a word of digits with an optional sign.
* `Fixnum.digits`: the decimal digits of an integer, with a sign only when it is negative.
-/

namespace ConsLisp

/-- An integer of 64 signed bits. -/
structure Fixnum where
  /-- The number itself. -/
  val : Int
  least_le : -9223372036854775808 ≤ val := by decide
  le_greatest : val ≤ 9223372036854775807 := by decide
deriving DecidableEq

namespace Fixnum

/-- The machine integer with the given value, or none when the value does not fit. -/
def ofInt? (n : Int) : Option Fixnum :=
  if h : -9223372036854775808 ≤ n ∧ n ≤ 9223372036854775807 then some ⟨n, h.1, h.2⟩ else none

instance : Inhabited Fixnum := ⟨{ val := 0 }⟩

instance : OfNat Fixnum 0 := ⟨{ val := 0 }⟩

instance : OfNat Fixnum 1 := ⟨{ val := 1 }⟩

/-- A numeral that is out of range stands for the greatest machine integer. -/
instance (n : Nat) : OfNat Fixnum (n + 2) where
  ofNat :=
    { val := min (n + 2 : Nat) 9223372036854775807
      least_le := by omega
      le_greatest := by omega }

@[ext] theorem ext {a b : Fixnum} (h : a.val = b.val) : a = b := by
  cases a; cases b; cases h; rfl

theorem ofInt?_eq_some_iff {n : Int} {a : Fixnum} : ofInt? n = some a ↔ n = a.val := by
  constructor
  · intro h
    unfold ofInt? at h
    split at h
    · rw [← Option.some.inj h]
    · cases h
  · rintro rfl
    simp [ofInt?, a.least_le, a.le_greatest]

@[simp] theorem ofInt?_val (a : Fixnum) : ofInt? a.val = some a :=
  ofInt?_eq_some_iff.2 rfl

theorem ofInt?_eq_none_iff {n : Int} :
    ofInt? n = none ↔ n < -9223372036854775808 ∨ 9223372036854775807 < n := by
  unfold ofInt?
  split <;> simp <;> omega

/-! ### Decimal text -/

/-- The number that a non-empty word of decimal digits spells. -/
def natOfDigits? (cs : List Char) : Option Nat :=
  if cs ≠ [] ∧ cs.all Char.isDigit then some (Nat.ofDigitChars 10 cs 0) else none

/-- Reads an optional sign followed by decimal digits. A word that is not of this form, or whose
value does not fit, is no integer. -/
def ofWord? : List Char → Option Fixnum
  | '-' :: cs => (natOfDigits? cs).bind fun n => ofInt? (-n)
  | '+' :: cs => (natOfDigits? cs).bind fun n => ofInt? n
  | cs => (natOfDigits? cs).bind fun n => ofInt? n

/-- The decimal digits of an integer, after a minus sign when it is negative. -/
def digits (a : Fixnum) : List Char :=
  if a.val < 0 then '-' :: Nat.toDigits 10 a.val.natAbs else Nat.toDigits 10 a.val.natAbs

/-- The printed form of an integer. -/
def text (a : Fixnum) : String :=
  String.ofList a.digits

end Fixnum

end ConsLisp
