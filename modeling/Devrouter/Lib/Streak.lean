import Mathlib.Data.List.DropRight

/-!
# Streaks at the end of a list

A counter that is raised by an element with a property and set back to zero by one without it holds
the length of the streak the list ends with. `streak_concat` is the counter's step, and
`endsWith_iff` says what the counter is compared for: that the last `n` elements have the property.
-/

namespace List

variable {α : Type*} (p : α → Prop) [DecidablePred p]

/-- The length of the longest run of elements with `p` at the end of a list. -/
def streak (l : List α) : Nat := (l.rtakeWhile fun x => decide (p x)).length

/-- The list has at least `n` elements, and the last `n` of them have `p`. -/
def EndsWith (n : Nat) (p : α → Prop) (l : List α) : Prop :=
  ∃ init last, l = init ++ last ∧ last.length = n ∧ ∀ x ∈ last, p x

@[simp] theorem streak_nil : streak p [] = 0 := by
  rw [streak, rtakeWhile_nil, length_nil]

theorem streak_concat (l : List α) (x : α) :
    streak p (l ++ [x]) = if p x then streak p l + 1 else 0 := by
  unfold streak
  rw [rtakeWhile_concat]
  by_cases hx : p x
  · rw [if_pos (decide_eq_true hx), if_pos hx, length_append, length_singleton]
  · rw [if_neg (by simpa using hx), if_neg hx, length_nil]

theorem length_le_streak (init : List α) {last : List α} (h : ∀ x ∈ last, p x) :
    last.length ≤ streak p (init ++ last) := by
  induction last using List.reverseRecOn with
  | nil => exact Nat.zero_le _
  | append_singleton last x ih =>
    have hx : p x := h x (mem_append_right _ (mem_singleton_self x))
    have hlast := ih fun y hy => h y (mem_append_left _ hy)
    rw [← append_assoc, streak_concat, if_pos hx, length_append, length_singleton]
    exact Nat.add_le_add_right hlast 1

/-- **A list ends with `n` elements that have `p` when its streak is that long.** -/
theorem endsWith_iff {n : Nat} {l : List α} : EndsWith n p l ↔ n ≤ streak p l := by
  constructor
  · rintro ⟨init, last, rfl, rfl, h⟩
    exact length_le_streak p init h
  · intro hn
    let run := l.rtakeWhile fun x => decide (p x)
    -- the streak may be longer than `n`: its front belongs to the rest of the list
    refine ⟨l.rdropWhile (fun x => decide (p x)) ++ run.take (run.length - n),
      run.drop (run.length - n), ?_, ?_, fun x hx => ?_⟩
    · rw [append_assoc, take_append_drop, rdropWhile_append_rtakeWhile]
    · rw [length_drop]
      have hlen : n ≤ run.length := hn
      omega
    · have hrun : x ∈ l.rtakeWhile fun x => decide (p x) := mem_of_mem_drop hx
      simpa using mem_rtakeWhile_imp hrun

end List
