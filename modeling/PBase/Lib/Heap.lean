/-
# `PBase.Lib.Heap` — binary heaps in a list

The order `std::push_heap` and `std::pop_heap` keep: element `i` of the array is not
after its two children `2i + 1` and `2i + 2`.  `IsHeap r l` says so from the child's
side.  Its use is that the first element is before all others (`IsHeap.head_le`).
-/
import Mathlib.Tactic

namespace PBase.Lib

variable {α : Type*} {r : α → α → Prop}

/-- Every element but the first is not before its parent. -/
def IsHeap (r : α → α → Prop) (l : List α) : Prop :=
  ∀ i, 0 < i → ∀ p c, l[(i - 1) / 2]? = some p → l[i]? = some c → r p c

theorem IsHeap.nil : IsHeap r [] := fun _ _ _ _ _ hc => by simp at hc

theorem IsHeap.singleton (x : α) : IsHeap r [x] := fun i hi _ _ _ hc => by
  have := (List.getElem?_eq_some_iff.mp hc).1
  simp at this
  omega

theorem IsHeap.imp {r' : α → α → Prop} {l : List α} (h : IsHeap r l)
    (hr : ∀ x ∈ l, ∀ y ∈ l, r x y → r' x y) : IsHeap r' l := fun i hi p c hp hc =>
  hr p (List.mem_of_getElem? hp) c (List.mem_of_getElem? hc) (h i hi p c hp hc)

/-- The first element is before all others. -/
theorem IsHeap.head_le {x : α} {l : List α} (hrefl : ∀ a, r a a)
    (htrans : ∀ a b c, r a b → r b c → r a c) (h : IsHeap r (x :: l)) : ∀ y ∈ x :: l, r x y := by
  -- by strong induction on the position: an element is after its parent
  have hpos : ∀ (i : Nat) (y : α), (x :: l)[i]? = some y → r x y := by
    intro i
    induction i using Nat.strong_induction_on with
    | h i ih =>
        intro y hy
        rcases Nat.eq_zero_or_pos i with rfl | hi
        · cases hy
          exact hrefl x
        · have hlt : i < (x :: l).length := (List.getElem?_eq_some_iff.mp hy).1
          have hparent : (i - 1) / 2 < (x :: l).length := by omega
          have hp := List.getElem?_eq_getElem hparent
          exact htrans _ _ _ (ih _ (by omega) _ hp) (h i hi _ _ hp hy)
  intro y hy
  obtain ⟨i, hi⟩ := List.mem_iff_getElem?.mp hy
  exact hpos i y hi

end PBase.Lib
