import Devrouter.Lib.Layers
import Mathlib.Data.List.Induction
import Mathlib.Data.List.Nodup
import Mathlib.Logic.Relation

/-!
# Depth-first searches

`walk` searches from a vertex over labelled steps `next`, by a recursion that shares the vertices visited so far. It
logs each step that leads to a vertex not visited before, and goes on from there at once, for as many steps as its
depth allows.

Everything follows from `Grows`, which says how one state of a search comes out of another. When the depth is more
than the number of vertices that are left, the search visits what it logs, and what it has visited is closed under
steps (`grows_walk`), so that it finds what can be reached (`mem_walk_iff`). A search that is cut off by its depth logs
steps to vertices within the depth (`walk_within`), and may miss some of them.

`Ordered` is the order in which vertices are left for good: steps lead only to vertices left before. Then no cycle goes
through them (`Ordered.not_transGen_self`).
-/

namespace Search

variable {α ε : Type}

/-- A step from `u` to `w` along `label`. -/
structure Step (α ε : Type) where
  u : α
  label : ε
  w : α

/-- The vertices visited, the last one first, and the steps logged. -/
structure Trail (α ε : Type) where
  visited : List α := []
  log : List (Step α ε) := []

variable (next : α → List (ε × α))

/-- A step from `v` is logged and gone along, unless it leads to a visited vertex. -/
def walkStep [DecidableEq α] (go : α → Trail α ε → Trail α ε) (v : α) (s : Trail α ε) (p : ε × α) : Trail α ε :=
  if p.2 ∈ s.visited then s else go p.2 { s with log := s.log ++ [⟨v, p.1, p.2⟩] }

/-- The search from `v`, with a depth left. -/
def walk [DecidableEq α] : ℕ → α → Trail α ε → Trail α ε
  | 0, _, s => s
  | n + 1, v, s =>
    if v ∈ s.visited then s
    else (next v).foldl (walkStep (walk n) v) { s with visited := v :: s.visited }

/-- One step leads from `u` to `w`. -/
def Leads (u w : α) : Prop := ∃ p ∈ next u, p.2 = w

/-- **Growth** of a search: what is logged is visited, in that order, and is closed under steps. -/
structure Grows (s s' : Trail α ε) : Prop where
  exists_log : ∃ new, s'.log = s.log ++ new ∧ s'.visited = (new.map (·.w)).reverse ++ s.visited ∧
    ∀ q ∈ new, (q.label, q.w) ∈ next q.u
  closed : ∀ x ∈ s'.visited, x ∉ s.visited → ∀ p ∈ next x, p.2 ∈ s'.visited

namespace Grows

variable {next} {s s' s'' : Trail α ε}

theorem refl (s : Trail α ε) : Grows next s s where
  exists_log := ⟨[], (List.append_nil _).symm, rfl, fun _ h => absurd h List.not_mem_nil⟩
  closed := fun _ hx hnew => absurd hx hnew

theorem subset (h : Grows next s s') : s.visited ⊆ s'.visited := by
  obtain ⟨new, -, hvisited, -⟩ := h.exists_log
  rw [hvisited]
  exact List.subset_append_right _ _

theorem trans [DecidableEq α] (h : Grows next s s') (h' : Grows next s' s'') : Grows next s s'' where
  exists_log := by
    obtain ⟨new, hlog, hvisited, hsteps⟩ := h.exists_log
    obtain ⟨new', hlog', hvisited', hsteps'⟩ := h'.exists_log
    refine ⟨new ++ new', ?_, ?_, fun q hq => (List.mem_append.mp hq).elim (hsteps q) (hsteps' q)⟩
    · rw [hlog', hlog, List.append_assoc]
    · rw [hvisited', hvisited, List.map_append, List.reverse_append, List.append_assoc]
  closed := by
    intro x hx hnew p hp
    by_cases hmid : x ∈ s'.visited
    · exact h'.subset (h.closed x hmid hnew p hp)
    · exact h'.closed x hx hmid p hp

end Grows

variable [DecidableEq α]

/-- The vertices that are left. -/
def unvisited (univ visited : List α) : List α := univ.filter (· ∉ visited)

theorem length_unvisited_le (univ : List α) {vis vis' : List α} (h : vis ⊆ vis') :
    (unvisited univ vis').length ≤ (unvisited univ vis).length := by
  refine (List.monotone_filter_right univ fun x hx => ?_).length_le
  simp only [decide_eq_true_eq] at hx ⊢
  exact fun hmem => hx (h hmem)

theorem length_unvisited_cons_lt {univ vis : List α} {v : α} (hv : v ∈ univ) (hnew : v ∉ vis) :
    (unvisited univ (v :: vis)).length < (unvisited univ vis).length := by
  have hsub : (unvisited univ (v :: vis)).Sublist ((unvisited univ vis).filter (· ≠ v)) := by
    rw [unvisited, unvisited, List.filter_filter]
    refine List.monotone_filter_right univ fun x hx => ?_
    simpa [and_comm, not_or] using hx
  refine hsub.length_le.trans_lt (List.length_filter_lt_length_iff_exists.mpr ⟨v, ?_, by simp⟩)
  exact List.mem_filter.mpr ⟨hv, decide_eq_true hnew⟩

section Deep

variable {next} {univ : List α}

/-- What each step grows to, a loop over steps grows to. -/
theorem Grows.foldl {f : Trail α ε → ε × α → Trail α ε} {l : List (ε × α)} {s : Trail α ε}
    (hf : ∀ p ∈ l, ∀ s₁, Grows next s s₁ → Grows next s₁ (f s₁ p) ∧ p.2 ∈ (f s₁ p).visited) :
    Grows next s (l.foldl f s) ∧ ∀ p ∈ l, p.2 ∈ (l.foldl f s).visited := by
  induction l using List.reverseRecOn with
  | nil => exact ⟨.refl s, fun _ h => absurd h List.not_mem_nil⟩
  | append_singleton l p ih =>
    obtain ⟨hgrows, hmem⟩ := ih fun q hq => hf q (List.mem_append_left _ hq)
    obtain ⟨hlast, hpmem⟩ := hf p List.mem_concat_self _ hgrows
    rw [List.foldl_append, List.foldl_cons, List.foldl_nil]
    refine ⟨hgrows.trans hlast, fun q hq => ?_⟩
    cases List.mem_append.mp hq with
    | inl hold => exact hlast.subset (hmem q hold)
    | inr heq => exact List.mem_singleton.mp heq ▸ hpmem

/-- A logged step grows when the search from its end does. -/
theorem grows_walkStep_of {go : α → Trail α ε → Trail α ε} {v : α} {p : ε × α} (hp : p ∈ next v) {s : Trail α ε}
    (hgo : ∀ s' : Trail α ε, s'.visited = s.visited → p.2 ∉ s.visited →
      Grows next { s' with visited := p.2 :: s'.visited } (go p.2 s') ∧ ∀ q ∈ next p.2, q.2 ∈ (go p.2 s').visited) :
    Grows next s (walkStep go v s p) ∧ p.2 ∈ (walkStep go v s p).visited := by
  rw [walkStep]
  split
  · next hmem => exact ⟨.refl s, hmem⟩
  · next hfresh =>
    obtain ⟨hgrows, hsteps⟩ := hgo { s with log := s.log ++ [⟨v, p.1, p.2⟩] } rfl hfresh
    refine ⟨⟨?_, ?_⟩, hgrows.subset List.mem_cons_self⟩
    · obtain ⟨new, hlog, hvisited, hnewsteps⟩ := hgrows.exists_log
      refine ⟨⟨v, p.1, p.2⟩ :: new, ?_, ?_, List.forall_mem_cons.mpr ⟨hp, hnewsteps⟩⟩
      · rw [hlog, List.append_assoc]
        rfl
      · rw [hvisited, List.map_cons, List.reverse_cons, List.append_assoc]
        rfl
    · intro x hx hxnew
      by_cases hxp : x = p.2
      · exact hxp ▸ hsteps
      · exact hgrows.closed x hx fun hmem => (List.mem_cons.mp hmem).elim hxp hxnew

/-- **A search that is deep enough** visits what it logs. -/
theorem grows_walk (huniv : ∀ u ∈ univ, ∀ p ∈ next u, p.2 ∈ univ) {n : ℕ} {v : α} (hv : v ∈ univ) {s : Trail α ε}
    (hn : (unvisited univ s.visited).length < n) (hnew : v ∉ s.visited) :
    Grows next { s with visited := v :: s.visited } (walk next n v s) ∧
      ∀ p ∈ next v, p.2 ∈ (walk next n v s).visited := by
  induction n generalizing v s with
  | zero => exact absurd hn (Nat.not_lt_zero _)
  | succ n ih =>
    have hless := length_unvisited_cons_lt hv hnew
    rw [walk, if_neg hnew]
    refine Grows.foldl fun p hp s₁ hs₁ => grows_walkStep_of hp fun s₂ hs₂ hfresh => ?_
    -- what is left shrinks with every visit
    have hleft := length_unvisited_le univ hs₁.subset
    refine ih (huniv v hv p hp) ?_ (hs₂ ▸ hfresh)
    rw [hs₂]
    show (unvisited univ s₁.visited).length < n
    change (unvisited univ s₁.visited).length ≤ (unvisited univ (v :: s.visited)).length at hleft
    omega

/-- The same of one step of the loop. -/
theorem grows_walkStep (huniv : ∀ u ∈ univ, ∀ p ∈ next u, p.2 ∈ univ) {n : ℕ} {v : α} (hv : v ∈ univ) {p : ε × α}
    (hp : p ∈ next v) {s : Trail α ε} (hn : (unvisited univ s.visited).length < n) :
    Grows next s (walkStep (walk next n) v s p) ∧ p.2 ∈ (walkStep (walk next n) v s p).visited :=
  grows_walkStep_of hp fun _ hs' hfresh => grows_walk huniv (huniv v hv p hp) (hs' ▸ hn) (hs' ▸ hfresh)

end Deep

/-- What visits and logged steps keep, a search keeps. `D n v` is what is known of a vertex that is met with the depth
`n` left. -/
theorem walk_invariant {next : α → List (ε × α)} {D : ℕ → α → Prop} {P : Trail α ε → Prop}
    (hD : ∀ n v p, D (n + 1) v → p ∈ next v → D n p.2)
    (hvisit : ∀ n v s, D (n + 1) v → P s → v ∉ s.visited → P { s with visited := v :: s.visited })
    (hlog : ∀ n v s p, D (n + 1) v → P s → p ∈ next v → p.2 ∉ s.visited →
      P { s with log := s.log ++ [⟨v, p.1, p.2⟩] }) {n : ℕ} {v : α} {s : Trail α ε} (hv : D n v) (hs : P s) :
    P (walk next n v s) := by
  induction n generalizing v s with
  | zero => exact hs
  | succ n ih =>
    have hloop : ∀ (l : List (ε × α)), (∀ p ∈ l, p ∈ next v) → ∀ s₁ : Trail α ε, P s₁ →
        P (l.foldl (walkStep (walk next n) v) s₁) := by
      intro l hl
      induction l with
      | nil => exact fun _ h => h
      | cons p l ihl =>
        intro s₁ hs₁
        obtain ⟨hp, hl⟩ := List.forall_mem_cons.mp hl
        refine ihl hl _ ?_
        rw [walkStep]
        split
        · exact hs₁
        · next hfresh => exact ih (hD n v p hv hp) (hlog n v s₁ p hv hs₁ hp hfresh)
    rw [walk]
    split
    · exact hs
    · next hnew => exact hloop (next v) (fun _ h => h) _ (hvisit n v s hv hs hnew)

variable {next : α → List (ε × α)} {n : ℕ} {v x : α}

theorem nodup_visited_walk (next : α → List (ε × α)) (n : ℕ) (v : α) : (walk next n v {}).visited.Nodup :=
  walk_invariant (D := fun _ _ => True) (P := fun s => s.visited.Nodup) (fun _ _ _ _ _ => trivial)
    (fun _ _ _ _ hs hnew => List.nodup_cons.mpr ⟨hnew, hs⟩) (fun _ _ _ _ _ hs _ _ => hs) trivial List.nodup_nil

/-- **Within the depth.** A search takes its steps from vertices at fewer hops than its depth. -/
theorem walk_within (next : α → List (ε × α)) (n : ℕ) (v : α) :
    (∀ q ∈ (walk next n v {}).log, (q.label, q.w) ∈ next q.u ∧ ∃ k < n, Hops (Leads next) ∅ v k q.u) ∧
      ∀ x ∈ (walk next n v {}).visited, ∃ k < n, Hops (Leads next) ∅ v k x := by
  refine walk_invariant (D := fun m x => ∃ k, k + m ≤ n ∧ Hops (Leads next) ∅ v k x)
    (P := fun s => (∀ q ∈ s.log, (q.label, q.w) ∈ next q.u ∧ ∃ k < n, Hops (Leads next) ∅ v k q.u) ∧
      ∀ x ∈ s.visited, ∃ k < n, Hops (Leads next) ∅ v k x) ?_ ?_ ?_ ⟨0, by omega, .start⟩
    ⟨fun _ h => absurd h List.not_mem_nil, fun _ h => absurd h List.not_mem_nil⟩
  · rintro m u p ⟨k, hk, hu⟩ hp
    exact ⟨k + 1, by omega, .next hu ⟨p, hp, rfl⟩ (Set.notMem_empty _)⟩
  · rintro m u s ⟨k, hk, hu⟩ ⟨hlog, hvisited⟩ -
    refine ⟨hlog, List.forall_mem_cons.mpr ⟨⟨k, by omega, hu⟩, hvisited⟩⟩
  · rintro m u s p ⟨k, hk, hu⟩ ⟨hlog, hvisited⟩ hp -
    refine ⟨fun q hq => ?_, hvisited⟩
    cases List.mem_append.mp hq with
    | inl hold => exact hlog q hold
    | inr hlast =>
      rw [List.mem_singleton.mp hlast]
      exact ⟨hp, k, by omega, hu⟩

section Reached

variable {univ : List α} (huniv : ∀ u ∈ univ, ∀ p ∈ next u, p.2 ∈ univ) (hv : v ∈ univ) (hn : univ.length < n)
include huniv hv hn

/-- What a deep search visits is what it logs, and its start. -/
theorem visited_walk_eq : (walk next n v {}).visited = ((walk next n v {}).log.map (·.w)).reverse ++ [v] := by
  have hleft : (unvisited univ ([] : List α)).length < n := (List.length_filter_le _ _).trans_lt hn
  obtain ⟨hgrows, -⟩ := grows_walk huniv hv (s := {}) hleft List.not_mem_nil
  obtain ⟨new, hlog, hvisited, -⟩ := hgrows.exists_log
  rw [hvisited, hlog]
  rfl

/-- **A deep search visits** what can be reached. -/
theorem mem_visited_walk_iff : x ∈ (walk next n v {}).visited ↔ ∃ k, Hops (Leads next) ∅ v k x := by
  have hleft : (unvisited univ ([] : List α)).length < n := (List.length_filter_le _ _).trans_lt hn
  obtain ⟨hgrows, hsteps⟩ := grows_walk huniv hv (s := {}) hleft List.not_mem_nil
  constructor
  · intro hx
    obtain ⟨k, -, hk⟩ := (walk_within next n v).2 x hx
    exact ⟨k, hk⟩
  · rintro ⟨k, hk⟩
    induction hk with
    | start => exact hgrows.subset List.mem_cons_self
    | @next k y z _ hyz _ ih =>
      obtain ⟨p, hp, rfl⟩ := hyz
      by_cases hyv : y = v
      · exact hsteps p (hyv ▸ hp)
      · exact hgrows.closed y ih (fun hmem => hyv (List.mem_singleton.mp hmem)) p hp

/-- **A deep search logs** one step to each vertex that can be reached, but for its start. -/
theorem mem_log_walk_iff : x ∈ (walk next n v {}).log.map (·.w) ↔ x ≠ v ∧ ∃ k, Hops (Leads next) ∅ v k x := by
  rw [← mem_visited_walk_iff huniv hv hn, visited_walk_eq huniv hv hn, List.mem_append, List.mem_reverse,
    List.mem_singleton]
  constructor
  · intro hx
    refine ⟨?_, .inl hx⟩
    rintro rfl
    have hnodup := nodup_visited_walk next n x
    rw [visited_walk_eq huniv hv hn] at hnodup
    exact List.disjoint_of_nodup_append hnodup (List.mem_reverse.mpr hx) (List.mem_singleton_self x)
  · rintro ⟨hne, hx⟩
    exact hx.resolve_right hne

theorem nodup_log_walk : ((walk next n v {}).log.map (·.w)).Nodup := by
  have hnodup := nodup_visited_walk next n v
  rw [visited_walk_eq huniv hv hn] at hnodup
  exact List.nodup_reverse.mp hnodup.of_append_left

end Reached

/-! ### Finishing order -/

/-- Each vertex leads only to vertices behind it. -/
def Ordered (dep : α → α → Prop) : List α → Prop
  | [] => True
  | v :: vs => (∀ w, dep v w → w ∈ vs) ∧ v ∉ vs ∧ Ordered dep vs

namespace Ordered

omit [DecidableEq α]

variable {dep : α → α → Prop} {vs : List α} {u w : α}

theorem mem_of_dep (h : Ordered dep vs) (hu : u ∈ vs) (huw : dep u w) : w ∈ vs := by
  induction vs with
  | nil => exact absurd hu List.not_mem_nil
  | cons a as ih =>
    cases List.mem_cons.mp hu with
    | inl heq => exact List.mem_cons_of_mem a (h.1 w (heq ▸ huw))
    | inr hmem => exact List.mem_cons_of_mem a (ih h.2.2 hmem)

/-- What is reached from an ordered list by steps is in the list. -/
theorem mem_of_reflTransGen (h : Ordered dep vs) (hu : u ∈ vs) (huw : Relation.ReflTransGen dep u w) : w ∈ vs := by
  induction huw with
  | refl => exact hu
  | tail _ hyz ih => exact h.mem_of_dep ih hyz

/-- **No cycle** goes through an ordered list. -/
theorem not_transGen_self (h : Ordered dep vs) (hu : u ∈ vs) : ¬ Relation.TransGen dep u u := by
  induction vs with
  | nil => exact absurd hu List.not_mem_nil
  | cons a as ih =>
    intro hcycle
    cases List.mem_cons.mp hu with
    | inl heq =>
      -- the first step leads behind the vertex, and no step leads back
      rw [heq] at hcycle
      obtain ⟨w, haw, hwa⟩ := Relation.TransGen.head'_iff.mp hcycle
      exact h.2.1 (h.2.2.mem_of_reflTransGen (h.1 w haw) hwa)
    | inr hmem => exact ih h.2.2 hmem hcycle

end Ordered

end Search
