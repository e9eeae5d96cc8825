import Devrouter.Lib.Layers
import Mathlib.Logic.Function.Basic

/-!
# The frontier of a breadth-first search

A search from `a` that marks a vertex when it takes it from the queue, and not when it puts it there, so that the
queue may hold a vertex many times. Each entry of the queue carries the number of hops with which it was found. A
vertex found with `n` hops is left over its hops only when `more n` holds, which is how a bound on the depth enters.

`Frontier` is what the search keeps. The entries are sorted, so a vertex is marked with the fewest hops that lead to
it (`Frontier.le_of_within`), and once the queue is empty, what is marked is what can be reached
(`Frontier.mem_visited_iff`).
-/

namespace Search

variable {α : Type} {hop : α → α → Prop} {more : ℕ → Prop} {a x y v : α} {k n : ℕ}

/-- At `k` hops, each of them from a depth at which there may be more. -/
def Within (hop : α → α → Prop) (more : ℕ → Prop) (a : α) (k : ℕ) (x : α) : Prop :=
  Hops hop ∅ a k x ∧ ∀ i < k, more i

theorem Within.start : Within hop more a 0 a := ⟨.start, fun _ hi => absurd hi (Nat.not_lt_zero _)⟩

theorem Within.next (h : Within hop more a k x) (hmore : more k) (hxy : hop x y) : Within hop more a (k + 1) y := by
  refine ⟨.next h.1 hxy (Set.notMem_empty y), fun i hi => ?_⟩
  obtain hlt | rfl := Nat.lt_succ_iff_lt_or_eq.mp hi
  · exact h.2 i hlt
  · exact hmore

/-- The last hop of a search that has gone somewhere. -/
theorem Within.exists_prev (h : Within hop more a (k + 1) y) : ∃ x, Within hop more a k x ∧ more k ∧ hop x y := by
  obtain ⟨hhops, hmore⟩ := h
  cases hhops with
  | next hx hxy _ => exact ⟨_, ⟨hx, fun i hi => hmore i (Nat.lt_succ_of_lt hi)⟩, hmore k (Nat.lt_succ_self k), hxy⟩

/-- With `k` hops, and with no fewer. -/
def Distance (hop : α → α → Prop) (more : ℕ → Prop) (a : α) (k : ℕ) (x : α) : Prop :=
  Within hop more a k x ∧ ∀ j, Within hop more a j x → k ≤ j

/-- Marked with at most `k` hops, or in the queue with at most `k`. -/
def Near (dist : α → ℕ) (visited : List α) (queue : List (α × ℕ)) (k : ℕ) (y : α) : Prop :=
  y ∈ visited ∧ dist y ≤ k ∨ ∃ n ≤ k, (y, n) ∈ queue

/-- **The frontier** of a search from `a`. -/
structure Frontier (hop : α → α → Prop) (more : ℕ → Prop) (a : α) (dist : α → ℕ) (visited : List α)
    (queue : List (α × ℕ)) : Prop where
  sorted : queue.Pairwise fun p q => p.2 ≤ q.2
  narrow : ∀ p ∈ queue, ∀ q ∈ queue, q.2 ≤ p.2 + 1
  dist_le : ∀ x ∈ visited, ∀ p ∈ queue, dist x ≤ p.2
  within_queue : ∀ p ∈ queue, Within hop more a p.2 p.1
  within_visited : ∀ x ∈ visited, Within hop more a (dist x) x
  least : ∀ x ∈ visited, ∀ k, Within hop more a k x → dist x ≤ k
  expanded : ∀ x ∈ visited, more (dist x) → ∀ y, hop x y → Near dist visited queue (dist x + 1) y
  start : Near dist visited queue 0 a

namespace Frontier

variable {dist : α → ℕ} {visited : List α} {queue : List (α × ℕ)}

theorem init (dist : α → ℕ) : Frontier hop more a dist [] [(a, 0)] where
  sorted := List.pairwise_singleton _ _
  narrow := by
    intro p hp q hq
    rw [List.mem_singleton.mp hp, List.mem_singleton.mp hq]
    exact Nat.le_succ 0
  dist_le := fun _ h => absurd h List.not_mem_nil
  within_queue := by
    intro p hp
    rw [List.mem_singleton.mp hp]
    exact .start
  within_visited := fun _ h => absurd h List.not_mem_nil
  least := fun _ h => absurd h List.not_mem_nil
  expanded := fun _ h => absurd h List.not_mem_nil
  start := .inr ⟨0, le_rfl, List.mem_singleton_self _⟩

theorem distance (h : Frontier hop more a dist visited queue) (hx : x ∈ visited) : Distance hop more a (dist x) x :=
  ⟨h.within_visited x hx, h.least x hx⟩

/-- Hops lead through marked vertices until they leave through the queue. -/
theorem marked_or_queued (h : Frontier hop more a dist visited queue) (hmore : ∀ i j, i ≤ j → more j → more i)
    (hx : Within hop more a k x) : x ∈ visited ∧ dist x ≤ k ∨ ∃ p ∈ queue, p.2 ≤ k := by
  induction k generalizing x with
  | zero =>
    obtain rfl : x = a := by
      cases hx.1 with
      | start => rfl
    exact h.start.imp_right fun ⟨n, hn, hmem⟩ => ⟨_, hmem, hn⟩
  | succ k ih =>
    obtain ⟨u, hu, hk, hux⟩ := hx.exists_prev
    obtain ⟨hmarked, hdist⟩ | ⟨p, hp, hle⟩ := ih hu
    · obtain ⟨hxmarked, hxdist⟩ | ⟨n, hn, hmem⟩ := h.expanded u hmarked (hmore _ k hdist hk) x hux
      · exact .inl ⟨hxmarked, by omega⟩
      · exact .inr ⟨_, hmem, by omega⟩
    · exact .inr ⟨p, hp, by omega⟩

/-- **The first in the queue** is found with the fewest hops, when it is not marked. -/
theorem le_of_within (h : Frontier hop more a dist visited ((v, n) :: queue))
    (hmore : ∀ i j, i ≤ j → more j → more i) (hv : v ∉ visited) (hk : Within hop more a k v) : n ≤ k := by
  obtain ⟨hmem, -⟩ | ⟨p, hp, hle⟩ := h.marked_or_queued hmore hk
  · exact absurd hmem hv
  · cases List.mem_cons.mp hp with
    | inl heq =>
      rw [heq] at hle
      exact hle
    | inr hmem => exact (List.rel_of_pairwise_cons h.sorted hmem).trans hle

/-- What is near by an entry of a marked vertex is near without it. -/
theorem near_skip (h : Frontier hop more a dist visited ((v, n) :: queue)) (hv : v ∈ visited)
    (hy : Near dist visited ((v, n) :: queue) k y) : Near dist visited queue k y := by
  obtain hmarked | ⟨m, hm, hmem⟩ := hy
  · exact .inl hmarked
  · cases List.mem_cons.mp hmem with
    | inl heq =>
      obtain ⟨rfl, rfl⟩ := Prod.mk.inj heq
      exact .inl ⟨hv, (h.dist_le y hv _ List.mem_cons_self).trans hm⟩
    | inr hmem => exact .inr ⟨m, hm, hmem⟩

/-- **A marked vertex** is passed over. -/
theorem skip (h : Frontier hop more a dist visited ((v, n) :: queue)) (hv : v ∈ visited) :
    Frontier hop more a dist visited queue where
  sorted := h.sorted.of_cons
  narrow := fun p hp q hq => h.narrow p (List.mem_cons_of_mem _ hp) q (List.mem_cons_of_mem _ hq)
  dist_le := fun x hx p hp => h.dist_le x hx p (List.mem_cons_of_mem _ hp)
  within_queue := fun p hp => h.within_queue p (List.mem_cons_of_mem _ hp)
  within_visited := h.within_visited
  least := h.least
  expanded := fun x hx hmore y hxy => h.near_skip hv (h.expanded x hx hmore y hxy)
  start := h.near_skip hv h.start

variable [DecidableEq α]

/-- What was near stays near when the first vertex is marked. -/
theorem near_visit {new : List (α × ℕ)} (hv : v ∉ visited) (hy : Near dist visited ((v, n) :: queue) k y) :
    Near (Function.update dist v n) (v :: visited) (queue ++ new) k y := by
  obtain ⟨hmem, hdist⟩ | ⟨m, hm, hmem⟩ := hy
  · refine .inl ⟨List.mem_cons_of_mem v hmem, ?_⟩
    rwa [Function.update_of_ne (ne_of_mem_of_not_mem hmem hv)]
  · cases List.mem_cons.mp hmem with
    | inl heq =>
      obtain ⟨rfl, rfl⟩ := Prod.mk.inj heq
      exact .inl ⟨List.mem_cons_self, by rwa [Function.update_self]⟩
    | inr hmem => exact .inr ⟨m, hm, List.mem_append_left _ hmem⟩

/-- **A new vertex** is marked, and what its hops lead to is put in the queue, unless it is marked. -/
theorem visit (h : Frontier hop more a dist visited ((v, n) :: queue)) (hmore : ∀ i j, i ≤ j → more j → more i)
    (hv : v ∉ visited) {new : List α} (hnew : ∀ y ∈ new, more n ∧ hop v y)
    (hall : more n → ∀ y, hop v y → y ∈ v :: visited ∨ y ∈ new) :
    Frontier hop more a (Function.update dist v n) (v :: visited) (queue ++ new.map (·, n + 1)) := by
  have hself : Function.update dist v n v = n := Function.update_self v n dist
  have hother : ∀ x ∈ visited, Function.update dist v n x = dist x := fun x hx =>
    Function.update_of_ne (ne_of_mem_of_not_mem hx hv) n dist
  have hhead : ∀ p ∈ queue, n ≤ p.2 ∧ p.2 ≤ n + 1 := fun p hp =>
    ⟨List.rel_of_pairwise_cons h.sorted hp, h.narrow (v, n) List.mem_cons_self p (List.mem_cons_of_mem _ hp)⟩
  -- all that is in the queue now was found with `n` or `n + 1` hops
  have hrange : ∀ p ∈ queue ++ new.map (·, n + 1), n ≤ p.2 ∧ p.2 ≤ n + 1 := by
    intro p hp
    cases List.mem_append.mp hp with
    | inl hold => exact hhead p hold
    | inr hlast =>
      obtain ⟨y, -, rfl⟩ := List.mem_map.mp hlast
      exact ⟨Nat.le_succ n, le_rfl⟩
  constructor
  · refine List.pairwise_append.mpr ⟨h.sorted.of_cons, ?_, fun p hp q hq => ?_⟩
    · exact List.pairwise_map.mpr (List.Pairwise.imp (fun _ => le_rfl) (List.pairwise_of_forall fun _ _ => trivial))
    · obtain ⟨y, -, rfl⟩ := List.mem_map.mp hq
      exact (hhead p hp).2
  · intro p hp q hq
    have hpn := (hrange p hp).1
    have hqn := (hrange q hq).2
    omega
  · intro x hx p hp
    have hpn := (hrange p hp).1
    cases List.mem_cons.mp hx with
    | inl heq => rwa [heq, hself]
    | inr hmem =>
      rw [hother x hmem]
      exact (h.dist_le x hmem (v, n) List.mem_cons_self).trans hpn
  · intro p hp
    cases List.mem_append.mp hp with
    | inl hold => exact h.within_queue p (List.mem_cons_of_mem _ hold)
    | inr hlast =>
      obtain ⟨y, hy, rfl⟩ := List.mem_map.mp hlast
      exact (h.within_queue (v, n) List.mem_cons_self).next (hnew y hy).1 (hnew y hy).2
  · intro x hx
    cases List.mem_cons.mp hx with
    | inl heq =>
      rw [heq, hself]
      exact h.within_queue (v, n) List.mem_cons_self
    | inr hmem =>
      rw [hother x hmem]
      exact h.within_visited x hmem
  · intro x hx k hk
    cases List.mem_cons.mp hx with
    | inl heq =>
      rw [heq] at hk ⊢
      rw [hself]
      exact h.le_of_within hmore hv hk
    | inr hmem =>
      rw [hother x hmem]
      exact h.least x hmem k hk
  · intro x hx hxmore y hxy
    cases List.mem_cons.mp hx with
    | inl heq =>
      rw [heq] at hxmore hxy ⊢
      rw [hself] at hxmore ⊢
      cases hall hxmore y hxy with
      | inl hmarked =>
        refine .inl ⟨hmarked, ?_⟩
        cases List.mem_cons.mp hmarked with
        | inl hyv => rw [hyv, hself]; exact Nat.le_succ n
        | inr hyold =>
          rw [hother y hyold]
          exact (h.dist_le y hyold (v, n) List.mem_cons_self).trans (Nat.le_succ n)
      | inr hqueued => exact .inr ⟨n + 1, le_rfl, List.mem_append_right _ (List.mem_map_of_mem hqueued)⟩
    | inr hmem =>
      rw [hother x hmem] at hxmore ⊢
      exact near_visit hv (h.expanded x hmem hxmore y hxy)
  · exact near_visit hv h.start

omit [DecidableEq α] in
/-- **At the end**, what is marked is what can be reached. -/
theorem mem_visited_iff (h : Frontier hop more a dist visited []) (hmore : ∀ i j, i ≤ j → more j → more i) :
    x ∈ visited ↔ ∃ k, Within hop more a k x := by
  constructor
  · intro hx
    exact ⟨dist x, h.within_visited x hx⟩
  · rintro ⟨k, hk⟩
    obtain ⟨hx, -⟩ | ⟨p, hp, -⟩ := h.marked_or_queued hmore hk
    · exact hx
    · exact absurd hp List.not_mem_nil

end Frontier

end Search
