import Devrouter.Engine.Tables
import Devrouter.Lib.DepthFirst
import Mathlib.Data.List.Chain
import Mathlib.Data.List.Sort

/-!
# Circular dependencies of files

Model of `findCircularDependencies` in `codegraph/src/graph/queries.ts`: a depth-first search over the files, which
reports the rest of its path when it comes back to a file on it.

What it reports are cycles, and it reports one whenever a tracked file leads to one (`findCircularDependencies_spec`).
It does not report every cycle: a file that was left for good is not entered again.
-/

namespace Devrouter.Engine

open Search

def Tables.getAllFiles (t : Tables) : List FileRecord := t.files.insertionSort fun f g => f.path ≤ g.path

structure CycleSearch where
  cycles : List (List String) := []
  visited : List String := []
  recursionStack : List String := []

def CycleSearch.enter (s : CycleSearch) (filePath : String) : CycleSearch :=
  { s with visited := filePath :: s.visited, recursionStack := filePath :: s.recursionStack }

/-- The search from a file, with the path that led to it. -/
def cycleDfs (t : Tables) : ℕ → String → List String → CycleSearch → CycleSearch
  | 0, _, _, s => s
  | fuel + 1, filePath, path, s =>
    if filePath ∈ s.recursionStack then
      match path.idxOf? filePath with
      | some cycleStart => { s with cycles := s.cycles ++ [path.drop cycleStart] }
      | none => s
    else if filePath ∈ s.visited then s
    else
      let s' := (t.getDependencyFilePaths filePath).foldl (fun s dep => cycleDfs t fuel dep (path ++ [filePath]) s)
        (s.enter filePath)
      { s' with recursionStack := s'.recursionStack.erase filePath }

/-- A path is never longer than there are files of records and of nodes. -/
def filePaths (t : Tables) : List String := t.files.map (·.path) ++ t.nodes.map (·.filePath)

def findCircularDependencies (t : Tables) : List (List String) :=
  (t.getAllFiles.foldl
    (fun s f => if f.path ∈ s.visited then s else cycleDfs t ((filePaths t).length + 1) f.path [] s) {}).cycles

section Cycles

variable {t : Tables} {path done : List String} {s : CycleSearch} {v : String}

/-- One file depends on another. -/
def DependsOn (t : Tables) (u w : String) : Prop := w ∈ t.getDependencyFilePaths u

/-- A tracked file leads to the file. -/
def Reachable (t : Tables) (x : String) : Prop :=
  ∃ f ∈ t.files, Relation.ReflTransGen (DependsOn t) f.path x

/-- **A cycle** of files that depend each on the next, and the last one on the first. -/
structure IsCycle (t : Tables) (c : List String) : Prop where
  nodup : c.Nodup
  chain : c.IsChain (DependsOn t)
  closed : ∃ first last, c.head? = some first ∧ c.getLast? = some last ∧ DependsOn t last first
  reachable : ∀ x ∈ c, Reachable t x

theorem mem_filePaths_of_dependsOn {u w : String} (h : DependsOn t u w) : w ∈ filePaths t := by
  obtain ⟨e, -, hsome⟩ := List.mem_filterMap.mp (List.mem_dedup.mp h)
  obtain ⟨src, -, hsome⟩ := Option.bind_eq_some_iff.mp hsome
  obtain ⟨tgt, htgt, hsome⟩ := Option.bind_eq_some_iff.mp hsome
  obtain ⟨-, hw⟩ := Option.ite_none_right_eq_some.mp hsome
  rw [← Option.some.inj hw]
  exact List.mem_append_right _ (List.mem_map_of_mem (List.mem_of_find?_eq_some htgt))

/-- The files of a cycle lead back to themselves. -/
theorem IsCycle.exists_transGen {c : List String} (h : IsCycle t c) :
    ∃ x, Reachable t x ∧ Relation.TransGen (DependsOn t) x x := by
  obtain ⟨first, last, hfirst, hlast, hback⟩ := h.closed
  have hne : c ≠ [] := by
    rintro rfl
    exact absurd hfirst nofun
  have hforth := List.relationReflTransGen_of_exists_isChain c h.chain hne
  rw [(List.head_eq_iff_head?_eq_some hne).mpr hfirst, (List.getLast_eq_iff_getLast?_eq_some hne).mpr hlast] at hforth
  exact ⟨first, h.reachable first (List.mem_of_mem_head? hfirst), .tail' hforth hback⟩

/-- **What the search keeps**: the stack is its path, what is visited has been left or is on the path, and as long as
no cycle is found the files were left in a finishing order. -/
structure Searching (t : Tables) (done path : List String) (s : CycleSearch) : Prop where
  stack : s.recursionStack = path.reverse
  visited : ∀ x, x ∈ s.visited ↔ x ∈ done ∨ x ∈ path
  nodup : path.Nodup
  disjoint : ∀ x ∈ path, x ∉ done
  chain : path.IsChain (DependsOn t)
  reachable : ∀ x ∈ path, Reachable t x
  cycles : ∀ c ∈ s.cycles, IsCycle t c
  ordered : s.cycles = [] → Ordered (DependsOn t) done

/-- What is behind a search from the files `l`: the path is as before, and as long as no cycle is found the files have
been left. -/
structure Searched (t : Tables) (done path : List String) (s s' : CycleSearch) (l done' : List String) : Prop where
  searching : Searching t done' path s'
  left : s'.cycles = [] → ∀ x ∈ l, x ∈ done'
  subset : done ⊆ done'
  cycles : s.cycles <+: s'.cycles

theorem Searched.visited_subset {s' : CycleSearch} {l done' : List String} (hs : Searching t done path s)
    (h : Searched t done path s s' l done') : s.visited ⊆ s'.visited := by
  intro x hx
  rw [h.searching.visited]
  exact ((hs.visited x).mp hx).imp_left fun hdone => h.subset hdone

/-- A file on the path closes a cycle, from the file on. -/
theorem searched_of_stack (h : Searching t done path s) (hlast : ∀ u ∈ path.getLast?, DependsOn t u v) {i : ℕ}
    (hi : path.idxOf? v = some i) :
    Searched t done path s { s with cycles := s.cycles ++ [path.drop i] } [v] done := by
  obtain ⟨hlt, hget, -⟩ := List.idxOf?_eq_some_iff.mp hi
  have hcycle : IsCycle t (path.drop i) := by
    refine ⟨h.nodup.sublist (List.drop_sublist i path), h.chain.drop i, ?_,
      fun x hx => h.reachable x (List.mem_of_mem_drop hx)⟩
    have hne : path ≠ [] := List.ne_nil_of_length_pos (Nat.zero_lt_of_lt hlt)
    obtain ⟨u, hu⟩ := Option.isSome_iff_exists.mp (List.getLast?_isSome.mpr hne)
    refine ⟨v, u, ?_, ?_, hlast u hu⟩
    · rw [List.head?_drop, List.getElem?_eq_getElem hlt, hget]
    · rw [List.getLast?_drop, if_neg (by omega), hu]
  have hcycles : s.cycles ++ [path.drop i] ≠ [] := List.concat_ne_nil _ _
  exact
    { searching :=
        { h with
          cycles := List.forall_mem_append.mpr ⟨h.cycles, List.forall_mem_singleton.mpr hcycle⟩
          ordered := fun hnil => absurd hnil hcycles }
      left := fun hnil => absurd hnil hcycles
      subset := List.Subset.refl done
      cycles := List.prefix_append _ _ }

/-- A file that is entered is the end of the path. -/
theorem Searching.enter (h : Searching t done path s) (hlast : ∀ u ∈ path.getLast?, DependsOn t u v)
    (hreach : Reachable t v) (hnew : v ∉ s.visited) :
    Searching t done (path ++ [v]) (s.enter v) := by
  have hpath : v ∉ path := fun hmem => hnew ((h.visited v).mpr (.inr hmem))
  have hdone : v ∉ done := fun hmem => hnew ((h.visited v).mpr (.inl hmem))
  refine { cycles := h.cycles, ordered := h.ordered, stack := ?_, visited := fun x => ?_, nodup := ?_,
           disjoint := ?_, chain := ?_, reachable := ?_ }
  · show v :: s.recursionStack = (path ++ [v]).reverse
    rw [h.stack, List.reverse_append, List.reverse_singleton, List.singleton_append]
  · show x ∈ v :: s.visited ↔ x ∈ done ∨ x ∈ path ++ [v]
    rw [List.mem_cons, h.visited, List.mem_append, List.mem_singleton]
    tauto
  · exact List.nodup_append.mpr ⟨h.nodup, List.nodup_singleton v, by
      rintro a ha b hb rfl
      exact hpath (List.mem_singleton.mp hb ▸ ha)⟩
  · simpa [or_imp, forall_and] using ⟨h.disjoint, hdone⟩
  · refine h.chain.append (List.isChain_singleton v) fun u hu w hw => ?_
    obtain rfl : v = w := by simpa using hw
    exact hlast u hu
  · simpa [or_imp, forall_and] using ⟨h.reachable, hreach⟩

/-- A file is left when those that it depends on have been. -/
theorem Searching.leave {s' : CycleSearch} (h : Searching t done (path ++ [v]) s')
    (hleft : s'.cycles = [] → ∀ w ∈ t.getDependencyFilePaths v, w ∈ done) :
    Searching t (v :: done) path { s' with recursionStack := s'.recursionStack.erase v } := by
  have hdone : v ∉ done := h.disjoint v List.mem_concat_self
  obtain ⟨hnodup, -, hdisjoint⟩ := List.nodup_append.mp h.nodup
  refine { cycles := h.cycles, nodup := hnodup, chain := h.chain.left_of_append, stack := ?_, visited := fun x => ?_,
           disjoint := fun x hx => ?_, reachable := fun x hx => h.reachable x (List.mem_append_left _ hx),
           ordered := fun hnil => ⟨hleft hnil, hdone, h.ordered hnil⟩ }
  · show s'.recursionStack.erase v = path.reverse
    rw [h.stack, List.reverse_append, List.reverse_singleton, List.singleton_append, List.erase_cons_head]
  · rw [h.visited, List.mem_append, List.mem_singleton, List.mem_cons]
    tauto
  · rintro (_ | ⟨_, hmem⟩)
    · exact hdisjoint v hx v (List.mem_singleton_self v) rfl
    · exact h.disjoint x (List.mem_append_left _ hx) hmem

/-- A loop of searches searches from each of the files. -/
theorem Searched.foldl {f : CycleSearch → String → CycleSearch} {l : List String} (h : Searching t done path s)
    (hf : ∀ w ∈ l, ∀ s₁ done₁, Searching t done₁ path s₁ → s.visited ⊆ s₁.visited →
      ∃ done₂, Searched t done₁ path s₁ (f s₁ w) [w] done₂) :
    ∃ done', Searched t done path s (l.foldl f s) l done' := by
  induction l using List.reverseRecOn with
  | nil => exact ⟨done, h, fun _ _ hx => absurd hx List.not_mem_nil, List.Subset.refl done, List.prefix_rfl⟩
  | append_singleton l w ih =>
    obtain ⟨done₁, hloop⟩ := ih fun x hx => hf x (List.mem_append_left _ hx)
    obtain ⟨done₂, hstep⟩ := hf w List.mem_concat_self _ done₁ hloop.searching (hloop.visited_subset h)
    rw [List.foldl_append, List.foldl_cons, List.foldl_nil]
    refine ⟨done₂, hstep.searching, fun hnil x hx => ?_, List.Subset.trans hloop.subset hstep.subset,
      hloop.cycles.trans hstep.cycles⟩
    cases List.mem_append.mp hx with
    | inl hold => exact hstep.subset (hloop.left (List.prefix_nil.mp (hnil ▸ hstep.cycles)) x hold)
    | inr hlast => exact hstep.left hnil x hlast

/-- **The search from a file** finds cycles only, and leaves the file if it finds none. -/
theorem cycleDfs_spec {fuel : ℕ} (hv : v ∈ filePaths t) (hfuel : (unvisited (filePaths t) s.visited).length < fuel)
    (h : Searching t done path s) (hlast : ∀ u ∈ path.getLast?, DependsOn t u v) (hreach : Reachable t v) :
    ∃ done', Searched t done path s (cycleDfs t fuel v path s) [v] done' := by
  induction fuel generalizing v path s done with
  | zero => exact absurd hfuel (Nat.not_lt_zero _)
  | succ fuel ih =>
    rw [cycleDfs]
    split
    · next hstack =>
      have hpath : v ∈ path := List.mem_reverse.mp (h.stack ▸ hstack)
      obtain ⟨i, hi⟩ := Option.isSome_iff_exists.mp (List.isSome_idxOf?.mpr hpath)
      rw [hi]
      exact ⟨done, searched_of_stack h hlast hi⟩
    · next hstack =>
      split
      · next hvisited =>
        -- what is visited and not on the path has been left
        have hdone : v ∈ done := by
          refine ((h.visited v).mp hvisited).resolve_right fun hpath => hstack ?_
          rw [h.stack]
          exact List.mem_reverse.mpr hpath
        exact ⟨done, h, fun _ => List.forall_mem_singleton.mpr hdone, List.Subset.refl done, List.prefix_rfl⟩
      · next hnew =>
        have hless := length_unvisited_cons_lt hv hnew
        have hloop : ∃ done', Searched t done (path ++ [v]) (s.enter v)
            ((t.getDependencyFilePaths v).foldl (fun s w => cycleDfs t fuel w (path ++ [v]) s) (s.enter v))
            (t.getDependencyFilePaths v) done' := by
          refine Searched.foldl (h.enter hlast hreach hnew) fun w hw s₁ done₁ hs₁ hsub => ?_
          have hleft : _ ≤ (unvisited (filePaths t) (v :: s.visited)).length := length_unvisited_le _ hsub
          refine ih (mem_filePaths_of_dependsOn hw) (by omega) hs₁ (fun u hu => ?_) ?_
          · obtain rfl : v = u := by simpa using hu
            exact hw
          · obtain ⟨f, hf, hfv⟩ := hreach
            exact ⟨f, hf, hfv.tail hw⟩
        obtain ⟨done', hloop⟩ := hloop
        exact ⟨v :: done', hloop.searching.leave hloop.left,
          fun _ => List.forall_mem_singleton.mpr List.mem_cons_self,
          List.Subset.trans hloop.subset (List.subset_cons_self v done'), hloop.cycles⟩

/-- **Circular dependencies**: each list that is reported is a cycle of files that tracked files lead to, and none is
reported only if there is none. -/
theorem findCircularDependencies_spec (t : Tables) :
    (∀ c ∈ findCircularDependencies t, IsCycle t c) ∧
      (findCircularDependencies t = [] ↔ ∀ x, Reachable t x → ¬ Relation.TransGen (DependsOn t) x x) := by
  have hinit : Searching t [] [] {} :=
    { stack := rfl
      visited := fun x => by simp
      nodup := List.nodup_nil
      disjoint := fun _ h => absurd h List.not_mem_nil
      chain := List.isChain_nil
      reachable := fun _ h => absurd h List.not_mem_nil
      cycles := fun _ h => absurd h List.not_mem_nil
      ordered := fun _ => trivial }
  have hloop : ∃ done, Searched t [] [] {}
      ((t.getAllFiles.map (·.path)).foldl
        (fun s p => if p ∈ s.visited then s else cycleDfs t ((filePaths t).length + 1) p [] s) {})
      (t.getAllFiles.map (·.path)) done := by
    refine Searched.foldl hinit fun p hp s₁ done₁ hs₁ _ => ?_
    obtain ⟨f, hf, rfl⟩ := List.mem_map.mp hp
    have hmem : f ∈ t.files := (List.perm_insertionSort _ t.files).subset hf
    split
    · next hvisited =>
      have hdone : f.path ∈ done₁ := ((hs₁.visited f.path).mp hvisited).resolve_right List.not_mem_nil
      exact ⟨done₁, hs₁, fun _ => List.forall_mem_singleton.mpr hdone, List.Subset.refl done₁, List.prefix_rfl⟩
    · have hfew : (unvisited (filePaths t) s₁.visited).length ≤ (filePaths t).length := List.length_filter_le _ _
      exact cycleDfs_spec (List.mem_append_left _ (List.mem_map_of_mem hmem)) (by omega) hs₁ nofun ⟨f, hmem, .refl⟩
  obtain ⟨done, hdone⟩ := hloop
  rw [List.foldl_map] at hdone
  refine ⟨hdone.searching.cycles, fun hnil x ⟨f, hf, hfx⟩ => ?_, fun hnone => ?_⟩
  · have hpath : f.path ∈ done := by
      refine hdone.left hnil f.path (List.mem_map_of_mem ?_)
      exact (List.perm_insertionSort _ t.files).mem_iff.mpr hf
    have hordered := hdone.searching.ordered hnil
    exact hordered.not_transGen_self (hordered.mem_of_reflTransGen hpath hfx)
  · refine List.eq_nil_iff_forall_not_mem.mpr fun c hc => ?_
    obtain ⟨x, hx, hcycle⟩ := (hdone.searching.cycles c hc).exists_transGen
    exact hnone x hx hcycle

end Cycles

end Devrouter.Engine
