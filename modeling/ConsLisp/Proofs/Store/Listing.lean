import ConsLisp.Store.Listing
import Mathlib.Data.List.Pairwise
import Mathlib.Data.List.Perm.Basic

/-!
# The listing of a frame and the names it resolves

Looking a name up stops at the nearest frame that binds it. The listing goes through all the frames
of the chain and merges their bindings, where a name that is listed keeps its value. Both give each
name the same value, however the frames hide each other's names.

The names of a listing increase strictly. This leaves one list for the values that names have, so
that the order in which bindings are met cannot be seen in it.

## Main definitions

* `Bindings.Increasing`: each name is before the next one.

## Main results

* `Bindings.Increasing.insertSorted`, `Bindings.Increasing.find?_insertSorted`: adding a binding.
* `Bindings.Increasing.eq_of_find?_eq`: an increasing list is given by the values of the names.
* `State.lookup?_eq_find?`: looking a name up, in the bindings of all frames one behind the other.
* `State.visible_agrees_with_lookup?`: the listing and looking up.
-/

namespace ConsLisp

/-! ### The order of names -/

theorem nameBytes_injective : Function.Injective nameBytes := fun _ _ h =>
  String.toByteArray_inj.1 (ByteArray.ext (Array.toList_inj.1 h))

theorem nameBytes_lt_of_ne_of_not_lt {x y : String} (hne : x ≠ y)
    (hnot : ¬nameBytes x < nameBytes y) : nameBytes y < nameBytes x := by
  by_contra hnot'
  exact hne (nameBytes_injective (Std.Trichotomous.trichotomous _ _ hnot hnot'))

namespace Bindings

variable {b c : Bindings} {p : String × Value}

/-- The bytes of the names increase strictly from one binding to the next. -/
def Increasing (b : Bindings) : Prop :=
  b.Pairwise fun p q => nameBytes p.1 < nameBytes q.1

theorem find?_append (b c : Bindings) (x : String) :
    (b ++ c).find? x = (b.find? x).or (c.find? x) :=
  List.lookup_append

theorem find?_eq_none_of_forall_lt {x : String} (h : ∀ p ∈ b, nameBytes x < nameBytes p.1) :
    b.find? x = none := by
  refine List.lookup_eq_none_iff.2 fun p hp => bne_iff_ne.2 ?_
  rintro rfl
  exact List.lt_irrefl _ (h p hp)

theorem mem_insertSorted {q : String × Value} (h : q ∈ b.insertSorted p) : q = p ∨ q ∈ b := by
  induction b with
  | nil => exact .inl (List.mem_singleton.1 h)
  | cons r b ih =>
    rw [insertSorted] at h
    split_ifs at h with heq hlt
    · exact .inr h
    · exact List.mem_cons.1 h
    · obtain rfl | h := List.mem_cons.1 h
      · exact .inr List.mem_cons_self
      · exact (ih h).imp_right (List.mem_cons_of_mem r)

namespace Increasing

/-- A binding is added where the names still increase. -/
theorem insertSorted (hb : b.Increasing) (p : String × Value) : (b.insertSorted p).Increasing := by
  induction hb with
  | nil => exact List.pairwise_singleton _ p
  | @cons q b hq hb ih =>
    rw [Bindings.insertSorted]
    split_ifs with heq hlt
    · exact .cons hq hb
    · refine .cons (fun r hr => ?_) (.cons hq hb)
      obtain rfl | hr := List.mem_cons.1 hr
      · exact hlt
      · exact List.lt_trans hlt (hq r hr)
    · refine .cons (fun r hr => ?_) ih
      obtain rfl | hr := mem_insertSorted hr
      · exact nameBytes_lt_of_ne_of_not_lt heq hlt
      · exact hq r hr

/-- A binding is added as if it came behind all the others: a name that is bound keeps its value. -/
theorem find?_insertSorted (hb : b.Increasing) (p : String × Value) (x : String) :
    (b.insertSorted p).find? x = (b ++ [p]).find? x := by
  induction hb with
  | nil => rfl
  | @cons q b hq hb ih =>
    rw [Bindings.insertSorted, List.cons_append]
    split_ifs with heq hlt
    · rw [← List.cons_append, find?_append, find?_cons p, heq, find?_cons]
      split_ifs <;> simp
    · have hmissing : Bindings.find? (q :: b) p.1 = none := by
        refine find?_eq_none_of_forall_lt fun r hr => ?_
        obtain rfl | hr := List.mem_cons.1 hr
        · exact hlt
        · exact List.lt_trans hlt (hq r hr)
      rw [← List.cons_append, find?_append, find?_cons p, find?_cons p]
      split_ifs with hx
      · rw [hx, hmissing, Option.none_or]
      · rw [find?_nil, Option.or_none]
    · rw [find?_cons, find?_cons, ih]

/-- Adding bindings one after the other gives every name the value that comes first. -/
theorem foldl_insertSorted (hb : b.Increasing) (c : Bindings) :
    (c.foldl (fun listing p => listing.insertSorted p) b).Increasing ∧
    ∀ x, (c.foldl (fun listing p => listing.insertSorted p) b).find? x = (b ++ c).find? x := by
  induction c generalizing b with
  | nil => exact ⟨hb, fun x => by rw [List.append_nil, List.foldl_nil]⟩
  | cons p c ih =>
    obtain ⟨hincreasing, hfind⟩ := ih (hb.insertSorted p)
    refine ⟨hincreasing, fun x => ?_⟩
    rw [List.foldl_cons, hfind, find?_append, hb.find?_insertSorted, ← find?_append,
      List.append_assoc, List.singleton_append]

/-- In an increasing list, a name has the only value that is listed for it. -/
theorem mem_iff (hb : b.Increasing) {x : String} {v : Value} :
    (x, v) ∈ b ↔ b.find? x = some v := by
  refine ⟨fun h => ?_, mem_of_find?⟩
  induction hb with
  | nil => cases h
  | @cons q b hq _ ih =>
    rw [find?_cons]
    obtain rfl | h := List.mem_cons.1 h
    · exact if_pos rfl
    · have hne : x ≠ q.1 := by
        rintro rfl
        exact List.lt_irrefl _ (hq (q.1, v) h)
      rw [if_neg hne, ih h]

/-- Increasing lists with the same bindings are the same. -/
theorem eq_of_mem_iff (hb : b.Increasing) (hc : c.Increasing) (h : ∀ p, p ∈ b ↔ p ∈ c) : b = c := by
  have nodup {b : Bindings} (hb : b.Increasing) : b.Nodup := by
    refine hb.imp fun hlt => ?_
    rintro rfl
    exact List.lt_irrefl _ hlt
  exact ((List.perm_ext_iff_of_nodup (nodup hb) (nodup hc)).2 h).eq_of_pairwise
    (fun _ _ _ _ hpq hqp => absurd hqp (List.lt_asymm hpq)) hb hc

end Increasing

end Bindings

namespace State

/-! ### Two walks along the chain -/

/-- A name is looked up in the bindings of all the frames of the chain, one behind the other. -/
theorem lookup?_eq_find? (σ : State) (i : FrameId) (x : String) :
    σ.lookup? i x = Bindings.find? ((σ.chain i).flatMap σ.bindingsOf) x := by
  have hvalue : σ.lookup? i x = (σ.chain i).findSome? fun j => σ.local? j x := by
    simp only [lookup?, resolve?, List.map_findSome?, Function.comp_def, Option.map_map,
      Option.map_id']
  rw [hvalue]
  induction σ.chain i with
  | nil => rfl
  | cons j chain ih =>
    rw [List.findSome?_cons, ih, List.flatMap_cons, Bindings.find?_append, local?]
    cases (σ.bindingsOf j).find? x <;> rfl

/-- The listing of a frame increases strictly with the bytes of the names. A name has a value in it
if and only if looking the name up from the frame gives this value. No other list is like this,
whatever the order in which the bindings of a frame are gone through. -/
theorem visible_agrees_with_lookup? (σ : State) (i : FrameId) :
    (σ.visible i).Pairwise (fun p q => nameBytes p.1 < nameBytes q.1) ∧
    (∀ x v, (x, v) ∈ σ.visible i ↔ σ.lookup? i x = some v) ∧
    ∀ b : Bindings, b.Pairwise (fun p q => nameBytes p.1 < nameBytes q.1) →
      (∀ x v, (x, v) ∈ b ↔ σ.lookup? i x = some v) → b = σ.visible i := by
  obtain ⟨hincreasing, hfind⟩ : (σ.visible i).Increasing ∧ ∀ x, (σ.visible i).find? x = _ :=
    Bindings.Increasing.foldl_insertSorted .nil ((σ.chain i).flatMap σ.bindingsOf)
  have hmem (x : String) (v : Value) : (x, v) ∈ σ.visible i ↔ σ.lookup? i x = some v := by
    rw [hincreasing.mem_iff, hfind, List.nil_append, lookup?_eq_find?]
  refine ⟨hincreasing, hmem, fun b hb h => ?_⟩
  exact Bindings.Increasing.eq_of_mem_iff hb hincreasing fun p => (h p.1 p.2).trans (hmem p.1 p.2).symm

/-- A frame that hides one of the two names of the frame around it. -/
def hidingB : State :=
  ⟨#[⟨[("b", .integer 1), ("a", .integer 2)], []⟩, ⟨[("b", .integer 3)], [0]⟩], 0, ""⟩

/-- The inner frame is listed with the outer `a` and with its own `b`. -/
theorem visible_agrees_with_lookup?_hidingB :
    Bindings.Increasing [("a", .integer 2), ("b", .integer 3)] ∧
    (∀ x v, (x, v) ∈ [("a", .integer 2), ("b", .integer 3)] ↔ hidingB.lookup? 1 x = some v) ∧
    [("a", .integer 2), ("b", .integer 3)] = hidingB.visible 1 := by
  have hincreasing : Bindings.Increasing [("a", .integer 2), ("b", .integer 3)] := by
    simp only [Bindings.Increasing, List.pairwise_pair]
    decide
  have hmem (x : String) (v : Value) :
      (x, v) ∈ [("a", .integer 2), ("b", .integer 3)] ↔ hidingB.lookup? 1 x = some v := by
    have hchain : (hidingB.chain 1).flatMap hidingB.bindingsOf =
        [("b", .integer 3), ("b", .integer 1), ("a", .integer 2)] := rfl
    rw [hincreasing.mem_iff, lookup?_eq_find?, hchain]
    simp only [Bindings.find?_cons]
    by_cases ha : x = "a" <;> by_cases hb : x = "b" <;> simp_all
  exact ⟨hincreasing, hmem, (visible_agrees_with_lookup? hidingB 1).2.2 _ hincreasing hmem⟩

end State

end ConsLisp
