import Mathlib.Data.List.Basic
import Mathlib.Tactic.Common

/-!
# Lines of a stream that comes in pieces

`Cut.lines` are the complete lines of a stream and what stands behind the last of them, and `Cut.drain` is the loop
that takes the lines from the front of a buffer. A reader that appends each piece to its buffer and drains it has the
lines of all that came, however the stream was cut (`Cut.lines_append`).
-/

namespace Cut

variable {α : Type} [DecidableEq α] (sep : α)

/-- The complete lines of a stream, and the tail behind them. -/
def lines : List α → List (List α) × List α
  | [] => ([], [])
  | c :: cs =>
    if c = sep then ([] :: (lines cs).1, (lines cs).2)
    else
      match (lines cs).1 with
      | [] => ([], c :: (lines cs).2)
      | l :: ls => ((c :: l) :: ls, (lines cs).2)

/-- The loop over a buffer: while there is a separator, what stands in front of it is taken. -/
def drain : ℕ → List α → List (List α) × List α
  | 0, buf => ([], buf)
  | n + 1, buf =>
    match buf.idxOf? sep with
    | none => ([], buf)
    | some k => (buf.take k :: (drain n (buf.drop (k + 1))).1, (drain n (buf.drop (k + 1))).2)

@[simp] theorem lines_nil : lines sep [] = ([], []) := rfl

@[simp] theorem lines_sep (s : List α) : lines sep (sep :: s) = ([] :: (lines sep s).1, (lines sep s).2) :=
  if_pos rfl

variable {sep}

theorem lines_of_notMem {s : List α} (h : sep ∉ s) : lines sep s = ([], s) := by
  induction s with
  | nil => rfl
  | cons c cs ih =>
    obtain ⟨hc, hcs⟩ := not_or.mp (mt List.mem_cons.mpr h)
    rw [lines, if_neg (Ne.symm hc), ih hcs]

/-- The first line, and the lines of the rest. -/
theorem lines_line {l : List α} (h : sep ∉ l) (s : List α) :
    lines sep (l ++ sep :: s) = (l :: (lines sep s).1, (lines sep s).2) := by
  induction l with
  | nil => exact lines_sep sep s
  | cons c cs ih =>
    obtain ⟨hc, hcs⟩ := not_or.mp (mt List.mem_cons.mpr h)
    rw [List.cons_append, lines, if_neg (Ne.symm hc), ih hcs]

theorem notMem_line {s l : List α} (h : l ∈ (lines sep s).1) : sep ∉ l := by
  induction s generalizing l with
  | nil => exact absurd h List.not_mem_nil
  | cons c cs ih =>
    unfold lines at h
    split at h
    · obtain rfl | h := List.mem_cons.mp h
      · exact List.not_mem_nil
      · exact ih h
    · rename_i hc
      cases hls : (lines sep cs).1 with
      | nil => rw [hls] at h; exact absurd h List.not_mem_nil
      | cons m ms =>
        rw [hls] at h ih
        obtain rfl | h := List.mem_cons.mp h
        · exact fun hmem => (List.mem_cons.mp hmem).elim (fun heq => hc heq.symm) (ih List.mem_cons_self)
        · exact ih (List.mem_cons_of_mem _ h)

/-- Nothing of a stream is lost. -/
theorem join_lines (s : List α) : (lines sep s).1.flatMap (· ++ [sep]) ++ (lines sep s).2 = s := by
  induction s with
  | nil => rfl
  | cons c cs ih =>
    unfold lines
    split
    · rename_i hc
      rw [List.flatMap_cons, List.nil_append, List.append_assoc, ih, hc, List.singleton_append]
    · cases hls : (lines sep cs).1 with
      | nil => rw [hls] at ih; exact congrArg (c :: ·) ih
      | cons m ms => rw [hls] at ih; exact congrArg (c :: ·) ih

theorem lines_join {ls : List (List α)} (h : ∀ l ∈ ls, sep ∉ l) (s : List α) :
    lines sep (ls.flatMap (· ++ [sep]) ++ s) = (ls ++ (lines sep s).1, (lines sep s).2) := by
  induction ls with
  | nil => rfl
  | cons l ls ih =>
    rw [List.flatMap_cons, List.append_assoc, List.append_assoc, List.singleton_append,
      lines_line (h l List.mem_cons_self), ih fun m hm => h m (List.mem_cons_of_mem l hm)]
    rfl

/-- **A reader may stop anywhere.** The lines of two pieces are those of the first one, and those that the second
one makes with the tail of the first. -/
theorem lines_append (s t : List α) :
    lines sep (s ++ t) =
      ((lines sep s).1 ++ (lines sep ((lines sep s).2 ++ t)).1, (lines sep ((lines sep s).2 ++ t)).2) := by
  conv_lhs => rw [← (join_lines s : _ ++ (lines sep s).2 = s), List.append_assoc]
  exact lines_join (fun l hl => notMem_line hl) _

/-- What `idxOf?` finds cuts the buffer in two. -/
theorem split_of_idxOf? {buf : List α} {k : ℕ} (h : buf.idxOf? sep = some k) :
    sep ∉ buf.take k ∧ buf = buf.take k ++ sep :: buf.drop (k + 1) := by
  rw [List.idxOf?, List.findIdx?_eq_some_iff_getElem] at h
  obtain ⟨hk, hsep, hfirst⟩ := h
  have hget : buf[k] = sep := eq_of_beq hsep
  refine ⟨fun hmem => ?_, ?_⟩
  · obtain ⟨j, hj, heq⟩ := List.mem_take_iff_getElem.mp hmem
    exact hfirst j (by omega) (beq_iff_eq.mpr heq)
  · rw [← hget, List.getElem_cons_drop, List.take_append_drop]

theorem notMem_of_idxOf? {buf : List α} (h : buf.idxOf? sep = none) : sep ∉ buf := by
  rw [List.idxOf?, List.findIdx?_eq_none_iff] at h
  exact fun hmem => absurd (beq_self_eq_true sep) (Bool.eq_false_iff.mp (h sep hmem))

/-- The loop takes all the lines. -/
theorem drain_eq_lines {n : ℕ} {buf : List α} (h : buf.length ≤ n) : drain sep n buf = lines sep buf := by
  induction n generalizing buf with
  | zero => rw [List.eq_nil_of_length_eq_zero (Nat.le_zero.mp h)]; rfl
  | succ n ih =>
    unfold drain
    cases hidx : buf.idxOf? sep with
    | none => exact (lines_of_notMem (notMem_of_idxOf? hidx)).symm
    | some k =>
      obtain ⟨hfront, hbuf⟩ := split_of_idxOf? hidx
      have hshort : (buf.drop (k + 1)).length ≤ n := by
        have := congrArg List.length hbuf
        rw [List.length_append, List.length_cons] at this
        omega
      conv_rhs => rw [hbuf, lines_line hfront]
      simp only [ih hshort]

end Cut
