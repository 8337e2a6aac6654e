import Mathlib.Order.BoundedOrder.Lattice
import Mathlib.Data.List.GetD

/-!
# The first of the largest values of a list

A loop that keeps the largest value so far, and the position where it came up,
replaces both only by a greater value. It then has the first position of the
largest value, or 0 if no value is above the bottom.
-/

namespace Blueman.RunningMaximum

set_option autoImplicit false

universe u

variable {Value : Type u} [LinearOrder Value] [OrderBot Value]

structure FirstLargest (values : List Value) (top : Value) (index : Nat) : Prop where
  bound : ∀ value ∈ values, value ≤ top
  attained : values[index]? = some top ∨ top = ⊥ ∧ index = 0
  earlier : ∀ other, other < index → ∀ value, values[other]? = some value → value < top

theorem first_largest_nil : FirstLargest ([] : List Value) ⊥ 0 := by
  refine ⟨List.forall_mem_nil _, .inr ⟨rfl, rfl⟩, ?_⟩
  intro other below
  exact absurd below (Nat.not_lt_zero other)

variable {values : List Value} {top : Value} {index : Nat}

theorem FirstLargest.inside (holds : FirstLargest values top index) (above : ⊥ < top) :
    values[index]? = some top :=
  holds.attained.resolve_right fun bottom => above.ne bottom.1.symm

theorem FirstLargest.append (holds : FirstLargest values top index) (value : Value) :
    FirstLargest (values ++ [value]) (if top < value then value else top)
      (if top < value then values.length else index) := by
  by_cases greater : top < value
  · simp only [greater, if_true]
    refine ⟨?_, .inl List.getElem?_concat_length, ?_⟩
    · intro other member
      rcases List.mem_append.mp member with earlier | last
      · exact (holds.bound other earlier).trans greater.le
      · rw [List.mem_singleton.mp last]
    · intro other below earlier found
      rw [List.getElem?_append_left below] at found
      exact (holds.bound earlier (List.mem_of_getElem? found)).trans_lt greater
  · simp only [greater, if_false]
    refine ⟨?_, ?_, ?_⟩
    · intro other member
      rcases List.mem_append.mp member with earlier | last
      · exact holds.bound other earlier
      · rw [List.mem_singleton.mp last]
        exact not_lt.mp greater
    · rcases holds.attained with found | bottom
      · left
        rw [List.getElem?_append_left (List.getElem?_eq_some_iff.mp found).1]
        exact found
      · exact .inr bottom
    · intro other below earlier found
      have inside : other < values.length := by
        rcases holds.attained with attained | bottom
        · exact Nat.lt_trans below (List.getElem?_eq_some_iff.mp attained).1
        · exact absurd below (bottom.2 ▸ Nat.not_lt_zero other)
      rw [List.getElem?_append_left inside] at found
      exact holds.earlier other below earlier found

end Blueman.RunningMaximum
