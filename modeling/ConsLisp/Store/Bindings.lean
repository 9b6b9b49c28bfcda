import ConsLisp.Value.Basic

/-!
# Bindings of one frame

The bindings of a frame are a list of names with their values, the newest first. A name occurs at
most once, because it is only added where it is missing.

## Main definitions

* `Bindings.find?`: the value of a name.
* `Bindings.bind?`: adds a name, unless it is bound already.
* `Bindings.erase`, `Bindings.assign`: removes a name; gives a bound name another value.

## Main results

* `Bindings.find?_of_bind?`, `Bindings.find?_erase`, `Bindings.find?_assign`: what each operation
  does to the value of every name.
-/

namespace ConsLisp

/-- Names and their values, the newest first. -/
abbrev Bindings := List (String × Value)

namespace Bindings

/-- The value of a name. -/
def find? (b : Bindings) (x : String) : Option Value :=
  List.lookup x b

/-- Adds a name with its value. A name that is bound already is refused. -/
def bind? (b : Bindings) (x : String) (v : Value) : Except Error Bindings :=
  match b.find? x with
  | some _ => .error (.alreadyBound x)
  | none => .ok ((x, v) :: b)

/-- Removes a name. -/
def erase (b : Bindings) (x : String) : Bindings :=
  b.filter fun p => p.1 != x

/-- Gives a bound name another value. -/
def assign (b : Bindings) (x : String) (v : Value) : Bindings :=
  b.map fun p => if p.1 = x then (x, v) else p

@[simp] theorem find?_nil (x : String) : find? [] x = none := rfl

theorem find?_cons (p : String × Value) (b : Bindings) (x : String) :
    find? (p :: b) x = if x = p.1 then some p.2 else find? b x := by
  obtain ⟨y, v⟩ := p
  by_cases h : x = y
  · simp [find?, h]
  · simp [find?, List.lookup_cons, beq_false_of_ne h, h]

/-- The value of a name is bound to it. -/
theorem mem_of_find? {b : Bindings} {x : String} {v : Value} (h : b.find? x = some v) :
    (x, v) ∈ b := by
  induction b with
  | nil => cases h
  | cons p b ih =>
    rw [find?_cons] at h
    split at h
    · next hx =>
      obtain rfl := Option.some.inj h
      rw [hx]
      exact List.mem_cons_self
    · exact List.mem_cons_of_mem p (ih h)

theorem find?_of_bind? {b b' : Bindings} {x : String} {v : Value} (h : b.bind? x v = .ok b')
    (y : String) : b'.find? y = if y = x then some v else b.find? y := by
  unfold bind? at h
  split at h <;> cases h
  rw [find?_cons]

theorem bind?_eq_error_iff {b : Bindings} {x : String} {v : Value} {e : Error} :
    b.bind? x v = .error e ↔ e = .alreadyBound x ∧ (b.find? x).isSome := by
  unfold bind?
  split <;> rename_i h <;> simp [h, eq_comm]

theorem find?_erase (b : Bindings) (x y : String) :
    (b.erase x).find? y = if y = x then none else b.find? y := by
  induction b with
  | nil => simp [erase]
  | cons p b ih =>
    rw [erase] at ih ⊢
    by_cases hp : p.1 = x
    · rw [List.filter_cons_of_neg (by simp [hp]), ih, find?_cons, hp]
      split <;> rfl
    · rw [List.filter_cons_of_pos (by simp [hp]), find?_cons, find?_cons, ih]
      by_cases hy : y = p.1
      · simp [hy, hp]
      · simp [hy]

theorem find?_assign (b : Bindings) (x : String) (v : Value) (y : String) :
    (b.assign x v).find? y = if y = x then (b.find? x).map fun _ => v else b.find? y := by
  induction b with
  | nil => simp [assign]
  | cons p b ih =>
    rw [assign] at ih ⊢
    rw [List.map_cons, find?_cons, ih, find?_cons, find?_cons]
    by_cases hp : p.1 = x
    · by_cases hy : y = x
      · simp [hp, hy]
      · simp [hp, hy]
    · by_cases hy : y = x
      · subst hy
        simp [hp, Ne.symm hp]
      · simp [hp, hy]

end Bindings

end ConsLisp
