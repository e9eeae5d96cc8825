import Mathlib.Data.List.Perm.Basic
import Mathlib.Data.List.Pairwise

/-!
# Insertion sort by swaps

The insertion sort of an array: each element in turn is swapped with its neighbour on the left while it is less.
Read from the right, what is left of it is the list that it sinks into (`swapDown_append`), so the sort inserts
the elements one after the other (`swapSort_eq_foldl`).
-/

namespace List

variable {α : Type} (less : α → α → Bool)

/-- The inner loop, at index `j`. -/
def swapDown (l : List α) : ℕ → List α
  | 0 => l
  | j + 1 =>
    match l[j + 1]?, l[j]? with
    | some a, some b => if less a b then swapDown ((l.set (j + 1) b).set j a) j else l
    | _, _ => l

/-- The outer loop. -/
def swapSort (l : List α) : List α := (range' 1 (l.length - 1)).foldl (swapDown less) l

/-- An element goes past those that it is less than; the nearest one is the first of the list. -/
def sink (a : α) : List α → List α
  | [] => [a]
  | b :: left => if less a b then b :: sink a left else a :: b :: left

variable {less}

theorem sink_cons (a b : α) (left : List α) :
    (b :: left).sink less a = if less a b then b :: left.sink less a else a :: b :: left := rfl

theorem sink_perm (a : α) (left : List α) : (left.sink less a).Perm (a :: left) := by
  induction left with
  | nil => exact Perm.refl _
  | cons b left ih =>
    rw [sink_cons]
    split
    · exact (ih.cons b).trans (Perm.swap a b left)
    · exact Perm.refl _

/-! ### The loops -/

/-- The inner loop lets one element sink. -/
theorem swapDown_append (a : α) (left rest : List α) :
    (left.reverse ++ a :: rest).swapDown less left.length = (left.sink less a).reverse ++ rest := by
  induction left generalizing rest with
  | nil => rfl
  | cons b left ih =>
    have hlist : (b :: left).reverse ++ a :: rest = left.reverse ++ b :: a :: rest := by
      rw [reverse_cons, append_assoc, singleton_append]
    -- the element and the one to the left of it, at their places in the slice
    have hhere : (left.reverse ++ b :: a :: rest)[left.length + 1]? = some a := by
      simp
    have hleft : (left.reverse ++ b :: a :: rest)[left.length]? = some b := by
      simp
    have hswap : ((left.reverse ++ b :: a :: rest).set (left.length + 1) b).set left.length a =
        left.reverse ++ a :: b :: rest := by
      simp [set_append_right]
    rw [hlist, length_cons, swapDown, hhere, hleft, sink_cons]
    show (if less a b = true then _ else _) = _
    by_cases hless : less a b = true
    · -- the two change places and the element sinks on
      rw [if_pos hless, if_pos hless, hswap, ih, reverse_cons, append_assoc, singleton_append]
    · -- the element stays where it is
      rw [if_neg hless, if_neg hless, reverse_cons, reverse_cons, append_assoc, append_assoc]
      rfl

/-- What is left of the outer loop, when `left` has been sorted. -/
theorem foldl_swapDown (left rest : List α) :
    (range' left.length rest.length).foldl (swapDown less) (left.reverse ++ rest) =
      (rest.foldl (fun left a => left.sink less a) left).reverse := by
  induction rest generalizing left with
  | nil => simp
  | cons a rest ih =>
    have hlength : left.length + 1 = (left.sink less a).length := (sink_perm a left).length_eq.symm
    rw [length_cons, range'_succ, foldl_cons, foldl_cons, swapDown_append, hlength, ih]

theorem swapSort_eq_foldl (l : List α) :
    l.swapSort less = (l.foldl (fun left a => left.sink less a) []).reverse := by
  cases l with
  | nil => rfl
  | cons a l => exact foldl_swapDown [a] l

theorem foldl_sink_perm (l left : List α) : (l.foldl (fun left a => left.sink less a) left).Perm (l ++ left) := by
  induction l generalizing left with
  | nil => exact Perm.refl _
  | cons a l ih => exact (ih _).trans (((sink_perm a left).append_left l).trans perm_middle)

theorem swapSort_perm (l : List α) : (l.swapSort less).Perm l := by
  rw [swapSort_eq_foldl]
  exact (reverse_perm _).trans ((foldl_sink_perm l []).trans (by rw [append_nil]))

/-! ### The order -/

section Sorted

variable (hasymm : ∀ a b, less a b = true → less b a = false)
  (htrans : ∀ a b c, less b a = false → less c b = false → less c a = false)

include hasymm htrans

/-- Nothing is less than what stands behind it. -/
theorem pairwise_sink {a : α} {left : List α} (h : left.Pairwise fun b c => less b c = false) :
    (left.sink less a).Pairwise fun b c => less b c = false := by
  induction left with
  | nil => exact pairwise_singleton _ a
  | cons b left ih =>
    obtain ⟨hb, hleft⟩ := pairwise_cons.mp h
    rw [sink_cons]
    by_cases hless : less a b = true
    · rw [if_pos hless, pairwise_cons]
      refine ⟨fun c hc => ?_, ih hleft⟩
      obtain rfl | hc := mem_cons.mp ((sink_perm a left).subset hc)
      · exact hasymm c b hless
      · exact hb c hc
    · have hab : less a b = false := Bool.eq_false_iff.mpr hless
      rw [if_neg hless, pairwise_cons]
      refine ⟨fun c hc => ?_, h⟩
      obtain rfl | hc := mem_cons.mp hc
      · exact hab
      · exact htrans c b a (hb c hc) hab

theorem pairwise_foldl_sink (l : List α) {left : List α} (h : left.Pairwise fun b c => less b c = false) :
    (l.foldl (fun left a => left.sink less a) left).Pairwise fun b c => less b c = false := by
  induction l generalizing left with
  | nil => exact h
  | cons a l ih => exact ih (pairwise_sink hasymm htrans h)

/-- **The list is sorted.** -/
theorem pairwise_swapSort (l : List α) : (l.swapSort less).Pairwise fun a b => less b a = false := by
  rw [swapSort_eq_foldl, pairwise_reverse]
  exact pairwise_foldl_sink hasymm htrans l Pairwise.nil

end Sorted

end List
