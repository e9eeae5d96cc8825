import Devrouter.Codegraph.Complete
import Devrouter.Router.CallChain

/-!
# The two passes of the caller expansion

`HandleQueryWithPlan` asks for the callers of the traced symbols, and then by name for the callers of these. The
two-hop query of the sidecar, `upstream`, goes from node to node instead. `twoHops_eq_upstream_iff` compares what the
two give when no limit is reached: they differ where a parent has a namesake with callers of its own, and where there
are more than 32 parents.

Edges are told apart by the names of their ends, as all parts of the code do. Names with a separator in them can make
the keys of two edges the same; `Apart` leaves this out.
-/

namespace Devrouter

open Codegraph

/-! ### Callers and their callers -/

namespace Codegraph

/-- The names of the ends of an edge. -/
def CallEdge.ends (e : CallEdge) : String × String := (e.fromName, e.toName)

theorem CallEdge.proper_iff {e : CallEdge} : e.proper = true ↔ e.fromName ≠ "" ∧ e.toName ≠ "" ∧ e.fromName ≠ e.toName := by
  unfold CallEdge.proper
  simp only [Bool.and_eq_true, decide_eq_true_eq, and_assoc]

namespace Database

variable (db : Database)

/-- One node calls the other. -/
def Calls (g p : GraphNode) : Prop := ∃ e ∈ db.incomingEdges p.id ["calls"], db.nodeById e.source = some g

/-- Two names that an edge can join. -/
def Joins (f n : String) : Prop := f ≠ "" ∧ n ≠ "" ∧ f ≠ n

/-- A symbol of the first name calls one of the second. -/
def Caller (f n : String) : Prop :=
  Joins f n ∧ ∃ p ∈ db.nodes, p.name = n ∧ ∃ g, db.Calls g p ∧ g.name = f

/-- A symbol of the name `f` calls one of the name `n` that calls a symbol of the name `s`. -/
def Grandparent (s f n : String) : Prop :=
  Joins f n ∧ ∃ t ∈ db.nodes, t.name = s ∧ ∃ p, db.Calls p t ∧ p.name = n ∧ ∃ g, db.Calls g p ∧ g.name = f

variable {db} {s f n : String} {g p : GraphNode}

theorem Calls.mem_left (h : db.Calls g p) : g ∈ db.nodes := by
  obtain ⟨e, -, he⟩ := h
  exact List.mem_of_find?_eq_some he

/-- The callers of a parent are callers of its name. -/
theorem Grandparent.caller (h : db.Grandparent s f n) : db.Caller f n := by
  obtain ⟨hjoins, t, -, -, p, hpt, hp, hg⟩ := h
  exact ⟨hjoins, p, hpt.mem_left, hp, hg⟩

theorem mem_callerEdges {e : CallEdge} {name : String} : e ∈ callerEdges db name ↔
    ∃ p ∈ db.nodes, p.name = name ∧ ∃ g, db.Calls g p ∧ e = ⟨g.name, name, g.filePath⟩ := by
  unfold callerEdges nodesByName Calls
  simp only [List.mem_flatMap, List.mem_filter, List.mem_filterMap, Option.map_eq_some_iff, decide_eq_true_eq]
  constructor
  · rintro ⟨p, ⟨hp, hname⟩, r, hr, g, hg, rfl⟩
    exact ⟨p, hp, hname, g, ⟨r, hr, hg⟩, rfl⟩
  · rintro ⟨p, hp, hname, g, ⟨r, hr, hg⟩, rfl⟩
    exact ⟨p, ⟨hp, hname⟩, r, hr, g, hg, rfl⟩

theorem mem_upstreamEdges {e : CallEdge} {name : String} : e ∈ upstreamEdges db name ↔
    ∃ t ∈ db.nodes, t.name = name ∧ ∃ p, db.Calls p t ∧ ∃ g, db.Calls g p ∧ e = ⟨g.name, p.name, g.filePath⟩ := by
  unfold upstreamEdges nodesByName Calls
  simp only [List.mem_flatMap, List.mem_filter, List.mem_filterMap, Option.map_eq_some_iff, decide_eq_true_eq]
  constructor
  · rintro ⟨t, ⟨ht, hname⟩, p, ⟨r, hr, hp⟩, r', hr', g, hg, rfl⟩
    exact ⟨t, ht, hname, p, ⟨r, hr, hp⟩, g, ⟨r', hr', hg⟩, rfl⟩
  · rintro ⟨t, ht, hname, p, ⟨r, hr, hp⟩, g, ⟨r', hr', hg⟩, rfl⟩
    exact ⟨t, ⟨ht, hname⟩, p, ⟨r, hr, hp⟩, r', hr', g, hg, rfl⟩

/-! ### Whole answers -/

/-- An answer that has not reached its limit has all edges, up to what is the same for edges of one key. -/
theorem mem_ends_dedupEdges {edges : List CallEdge} {limit : ℕ} (hwhole : (dedupEdges edges limit).length < limit)
    (hapart : ∀ e ∈ edges.filter (·.proper), ∀ e' ∈ edges.filter (·.proper), e.key = e'.key → e.ends = e'.ends)
    {x : String × String} :
    x ∈ (dedupEdges edges limit).map CallEdge.ends ↔ x ∈ (edges.filter (·.proper)).map CallEdge.ends := by
  have hlimit : 0 < limit := Nat.zero_lt_of_lt hwhole
  rw [dedupEdges_eq hlimit] at hwhole ⊢
  rw [List.length_take] at hwhole
  rw [List.take_of_length_le (by omega)]
  exact List.mem_map_firstBy_iff hapart

/-- The edges of a caller's answer lead to the symbol that was asked for, so they are apart. -/
theorem apart_callerEdges {name : String} : ∀ e ∈ (callerEdges db name).filter (·.proper),
    ∀ e' ∈ (callerEdges db name).filter (·.proper), e.key = e'.key → e.ends = e'.ends := by
  intro e he e' he' hkey
  obtain ⟨-, -, -, g, -, rfl⟩ := mem_callerEdges.mp (List.mem_filter.mp he).1
  obtain ⟨-, -, -, g', -, rfl⟩ := mem_callerEdges.mp (List.mem_filter.mp he').1
  unfold CallEdge.key at hkey
  rw [String.append_assoc, String.append_assoc, String.append_left_inj] at hkey
  exact congrArg (·, name) hkey

theorem mem_ends_callers {name : String} (hwhole : (callers db name relationLimit).length < relationLimit)
    {f n : String} : (f, n) ∈ (callers db name relationLimit).map CallEdge.ends ↔ n = name ∧ db.Caller f n := by
  unfold callers at hwhole ⊢
  rw [mem_ends_dedupEdges hwhole apart_callerEdges, List.mem_map]
  constructor
  · rintro ⟨e, he, hends⟩
    obtain ⟨hmem, hproper⟩ := List.mem_filter.mp he
    obtain ⟨p, hp, hname, g, hg, rfl⟩ := mem_callerEdges.mp hmem
    obtain ⟨rfl, rfl⟩ := Prod.mk.inj hends
    exact ⟨rfl, CallEdge.proper_iff.mp hproper, p, hp, hname, g, hg, rfl⟩
  · rintro ⟨rfl, hjoins, p, hp, hname, g, hg, rfl⟩
    exact ⟨⟨g.name, n, g.filePath⟩, List.mem_filter.mpr ⟨mem_callerEdges.mpr ⟨p, hp, hname, g, hg, rfl⟩,
      CallEdge.proper_iff.mpr hjoins⟩, rfl⟩

theorem mem_ends_upstream {name : String} (hwhole : (db.upstream name upstreamLimit).length < upstreamLimit)
    (hapart : ∀ e ∈ (upstreamEdges db name).filter (·.proper), ∀ e' ∈ (upstreamEdges db name).filter (·.proper),
      e.key = e'.key → e.ends = e'.ends) {f n : String} :
    (f, n) ∈ (db.upstream name upstreamLimit).map CallEdge.ends ↔ db.Grandparent name f n := by
  unfold upstream at hwhole ⊢
  rw [mem_ends_dedupEdges hwhole hapart, List.mem_map]
  constructor
  · rintro ⟨e, he, hends⟩
    obtain ⟨hmem, hproper⟩ := List.mem_filter.mp he
    obtain ⟨t, ht, hname, p, hp, g, hg, rfl⟩ := mem_upstreamEdges.mp hmem
    obtain ⟨rfl, rfl⟩ := Prod.mk.inj hends
    exact ⟨CallEdge.proper_iff.mp hproper, t, ht, hname, p, hp, rfl, g, hg, rfl⟩
  · rintro ⟨hjoins, t, ht, hname, p, hp, rfl, g, hg, rfl⟩
    exact ⟨⟨g.name, p.name, g.filePath⟩, List.mem_filter.mpr ⟨mem_upstreamEdges.mpr ⟨t, ht, hname, p, hp, g, hg, rfl⟩,
      CallEdge.proper_iff.mpr hjoins⟩, rfl⟩

end Database

end Codegraph

/-! ### The merged chain -/

namespace Merge

/-- The callers among the traced edges go to the upstream chain. -/
theorem upstream_foldl_callers (edges : List CallEdge) (m : Merge) :
    (edges.foldl (addTraced .callers) m).upstream = m.upstream ++ edges.firstBy (edgeKey "up:") m.edgeSeen := by
  induction edges generalizing m with
  | nil => exact (List.append_nil _).symm
  | cons e edges ih =>
    have himpact : ∀ m : Merge, (m.addImpact e).upstream = m.upstream := by
      intro m
      unfold addImpact
      split_ifs <;> rfl
    have hstep : addTraced .callers m e = (m.addEdge .callers e).addImpact e := if_pos rfl
    rw [List.foldl_cons, ih, hstep, himpact, addImpact_edgeSeen, List.firstBy_cons]
    by_cases hseen : edgeKey "up:" e ∈ m.edgeSeen
    · have hsame : m.addEdge .callers e = m := if_pos hseen
      rw [hsame, if_pos hseen]
    · have hadd : m.addEdge .callers e =
          { m with upstream := m.upstream ++ [e], edgeSeen := edgeKey "up:" e :: m.edgeSeen } := if_neg hseen
      rw [hadd, if_neg hseen]
      exact List.append_assoc _ _ _

/-- The edges of the other kinds do not. -/
theorem upstream_foldl_of_ne {kind : TraceKind} (hkind : kind ≠ .callers) (edges : List CallEdge) (m : Merge) :
    (edges.foldl (addTraced kind) m).upstream = m.upstream := by
  induction edges generalizing m with
  | nil => rfl
  | cons e edges ih =>
    have hstep : addTraced kind m e = m.addEdge kind e := if_neg hkind
    rw [List.foldl_cons, ih, hstep]
    unfold addEdge
    split_ifs
    · rfl
    · cases kind with
      | callers => exact absurd rfl hkind
      | callees => rfl
      | extends_ => rfl
      | methods => rfl

theorem upstream_foldl (tasks : List (TraceKind × List CallEdge)) (m : Merge) :
    (tasks.foldl (fun m t => t.2.foldl (addTraced t.1) m) m).upstream =
      m.upstream ++ ((tasks.filter (·.1 = .callers)).flatMap (·.2)).firstBy (edgeKey "up:") m.edgeSeen := by
  induction tasks generalizing m with
  | nil => exact (List.append_nil _).symm
  | cons t tasks ih =>
    obtain ⟨kind, edges⟩ := t
    rw [List.foldl_cons, ih]
    by_cases hkind : kind = .callers
    · subst hkind
      have hseen : ∀ e ∈ (tasks.filter (·.1 = .callers)).flatMap (·.2),
          edgeKey "up:" e ∈ (edges.foldl (addTraced .callers) m).edgeSeen ↔
            edgeKey "up:" e ∈ edges.map (edgeKey "up:") ++ m.edgeSeen := by
        intro e _
        rw [mem_foldl_addTraced, List.mem_append, or_comm]
        rfl
      rw [List.filter_cons_of_pos (by simp), List.flatMap_cons, List.firstBy_append, ← List.append_assoc,
        List.firstBy_congr hseen]
      exact congrArg (· ++ _) (upstream_foldl_callers edges m)
    · -- the keys of the other kinds have other tags
      have hseen : ∀ e ∈ (tasks.filter (·.1 = .callers)).flatMap (·.2),
          edgeKey "up:" e ∈ (edges.foldl (addTraced kind) m).edgeSeen ↔ edgeKey "up:" e ∈ m.edgeSeen := by
        intro e _
        rw [mem_foldl_addTraced]
        refine ⟨fun h => h.resolve_right fun hmem => ?_, .inl⟩
        obtain ⟨e', -, hkey⟩ := List.mem_map.mp hmem
        exact hkind (kind_of_edgeKey hkey)
      rw [List.filter_cons_of_neg (by simpa using hkind), List.firstBy_congr hseen]
      exact congrArg (· ++ _) (upstream_foldl_of_ne hkind edges m)

end Merge

namespace GraphQuery

variable {A : GraphAnswers} {q : GraphQuery}

/-- The edges of the two passes, before the merge. -/
def collected (A : GraphAnswers) (q : GraphQuery) (sched : Schedule) : List CallEdge :=
  q.tracedCallers A ++ (q.askedParents A sched).flatMap (edgesOf A .callers)

theorem upstream_secondHop (sched : Schedule) :
    (q.secondHop A sched).upstream = (q.collected A sched).firstBy (edgeKey "up:") [] := by
  have hfirst : (q.firstMerge A).upstream = (q.tracedCallers A).firstBy (edgeKey "up:") [] := by
    unfold firstMerge
    rw [Merge.upstream_foldl, tracedCallers_eq]
    rfl
  have hseen : ∀ e ∈ (q.askedParents A sched).flatMap (edgesOf A .callers),
      edgeKey "up:" e ∈ (q.firstMerge A).edgeSeen ↔
        edgeKey "up:" e ∈ (q.tracedCallers A).map (edgeKey "up:") ++ [] := by
    intro e _
    rw [List.append_nil]
    exact mem_firstMerge_edgeSeen
  rw [secondHop_eq, (Merge.foldl_addEdge_callers _ _).1, hfirst, collected, List.firstBy_append,
    List.firstBy_congr hseen]

end GraphQuery

/-! ### The parents that are asked for -/

section Asked

/-- In a sorted list the entries before one are those below it. -/
theorem mem_take_of_sorted {α : Type} [LinearOrder α] {l : List α} (hl : l.Pairwise (· < ·)) (n : ℕ) {a : α} :
    a ∈ l.take n ↔ a ∈ l ∧ (l.filter (· < a)).length < n := by
  induction l generalizing n with
  | nil => simp
  | cons b l ih =>
    obtain ⟨hb, hl⟩ := List.pairwise_cons.mp hl
    cases n with
    | zero => simp
    | succ n =>
      rw [List.take_succ_cons, List.mem_cons, List.mem_cons, ih hl]
      by_cases hab : a = b
      · subst hab
        -- nothing before `a` in the list is smaller
        have hnone : (a :: l).filter (· < a) = [] := by
          refine List.filter_eq_nil_iff.mpr fun c hc => ?_
          rcases List.mem_cons.mp hc with rfl | hc
          · simp
          · simpa using (hb c hc).le
        rw [hnone]
        simp
      · -- the head is smaller than `a` and is counted once
        have hiff : ∀ h : a ∈ l, ((b :: l).filter (· < a)).length = (l.filter (· < a)).length + 1 := by
          intro h
          rw [List.filter_cons_of_pos (by simpa using hb a h), List.length_cons]
        constructor
        · rintro (rfl | ⟨hmem, hlt⟩)
          · exact absurd rfl hab
          · exact ⟨.inr hmem, by rw [hiff hmem]; omega⟩
        · rintro ⟨rfl | hmem, hlt⟩
          · exact absurd rfl hab
          · rw [hiff hmem] at hlt
            exact .inr ⟨hmem, by omega⟩

end Asked

namespace Codegraph.Database

variable (db : Database) (T : List String)

/-- A symbol that calls a traced one and is not traced itself. -/
def IsParent (p : String) : Prop := p ∉ T ∧ ∃ s ∈ T, db.Caller p s

/-- A parent that fewer than 32 parents come before. -/
def Asked (p : String) : Prop := db.IsParent T p ∧ {p' | db.IsParent T p' ∧ p' < p}.encard < maxParents

/-- **No namesakes**: who calls a symbol of the name of a parent calls, by name, also a parent of this name. -/
def NoNamesakes : Prop := ∀ p, db.Asked T p → ∀ f, db.Caller f p → ∃ s ∈ T, db.Grandparent s f p

/-- **The parents fit**: one that has callers is traced itself or asked for. -/
def ParentsFit : Prop := ∀ s ∈ T, ∀ f p, db.Grandparent s f p → p ∈ T ∨ db.Asked T p

/-- **Keys are apart**: the names of two edges do not run together to one key, neither the router's nor the sidecar's. -/
structure Apart : Prop where
  shown : ∀ f n f' n', (n ∈ T ∨ db.Asked T n) → (n' ∈ T ∨ db.Asked T n') → db.Caller f n → db.Caller f' n' →
    f ++ ">" ++ n = f' ++ ">" ++ n' → f = f' ∧ n = n'
  returned : ∀ s ∈ T, ∀ f n f' n', db.Grandparent s f n → db.Grandparent s f' n' →
    f ++ "|" ++ n = f' ++ "|" ++ n' → f = f' ∧ n = n'

/-- A sidecar on the database that answers every query about symbols. -/
def answers : GraphAnswers where
  edges rel name := some (db.handle rel name)
  importersByPackage _ := some []
  relatedFiles _ := some []

end Codegraph.Database

namespace GraphQuery

variable {db : Database} {A : GraphAnswers} {q : GraphQuery} {sched : Schedule}

/-- **No limit is reached** by the queries of the two passes, and by those they replace. -/
structure Whole (db : Database) (A : GraphAnswers) (q : GraphQuery) (sched : Schedule) : Prop where
  traced : ∀ s ∈ q.tracedSyms, (callers db s relationLimit).length < relationLimit
  parents : ∀ p ∈ q.askedParents A sched, (callers db p relationLimit).length < relationLimit
  upstream : ∀ s ∈ q.tracedSyms, (db.upstream s upstreamLimit).length < upstreamLimit

theorem edgesOf_callers (hA : A.edges = fun rel name => some (db.handle rel name)) (name : String) :
    edgesOf A .callers name = callers db name relationLimit := by
  unfold edgesOf
  rw [hA]
  exact graphEdges_handle db .callers name

theorem mem_secondParents (hA : A.edges = fun rel name => some (db.handle rel name))
    (hhops : 2 ≤ q.budget.callerHops)
    (hwhole : ∀ s ∈ q.tracedSyms, (callers db s relationLimit).length < relationLimit) {p : String} :
    p ∈ q.secondParents A ↔ db.IsParent q.tracedSyms p := by
  -- nothing is cut off, so the callers that were traced are all that there are
  have hfrom : p ∈ (q.tracedCallers A).map (·.fromName) ↔ ∃ s ∈ q.tracedSyms, db.Caller p s := by
    unfold tracedCallers
    constructor
    · intro h
      obtain ⟨e, he, rfl⟩ := List.mem_map.mp h
      obtain ⟨s, hs, he⟩ := List.mem_flatMap.mp he
      rw [edgesOf_callers hA] at he
      obtain ⟨hto, hcaller⟩ := (Database.mem_ends_callers (hwhole s hs)).mp (List.mem_map_of_mem he)
      exact ⟨s, hs, hto ▸ hcaller⟩
    · rintro ⟨s, hs, h⟩
      obtain ⟨e, he, hends⟩ := List.mem_map.mp ((Database.mem_ends_callers (hwhole s hs)).mpr ⟨rfl, h⟩)
      rw [← edgesOf_callers hA] at he
      exact List.mem_map.mpr ⟨e, List.mem_flatMap.mpr ⟨s, hs, he⟩, (Prod.mk.inj hends).1⟩
  unfold secondParents Database.IsParent
  by_cases h : q.tracedSyms = []
  · rw [if_neg (fun hc => hc.2 h), h]
    simp
  · rw [if_pos ⟨hhops, h⟩, List.mem_filter, List.mem_eraseDups, List.mem_filter, hfrom, decide_eq_true_eq,
      decide_eq_true_eq]
    constructor
    · -- the second hop leaves out the symbols that were traced already
      rintro ⟨⟨hcaller, -⟩, hnot⟩
      exact ⟨hnot, hcaller⟩
    · rintro ⟨hnot, s, hs, hcaller⟩
      exact ⟨⟨⟨s, hs, hcaller⟩, hcaller.1.1⟩, hnot⟩

theorem mem_askedParents (hA : A.edges = fun rel name => some (db.handle rel name))
    (hhops : 2 ≤ q.budget.callerHops)
    (hwhole : ∀ s ∈ q.tracedSyms, (callers db s relationLimit).length < relationLimit) {p : String} :
    p ∈ q.askedParents A sched ↔ db.Asked q.tracedSyms p := by
  have hmem : ∀ p, p ∈ q.secondParents A ↔ db.IsParent q.tracedSyms p := fun p => mem_secondParents hA hhops hwhole
  have hnodup : (q.secondParents A).Nodup := by
    unfold secondParents
    split_ifs
    · exact (List.nodup_eraseDups _).filter _
    · exact List.nodup_nil
  have hcount : {p' | db.IsParent q.tracedSyms p' ∧ p' < p}.encard
      = ((q.secondParents A).filter (· < p)).length := by
    rw [← encard_mem_eq_length (hnodup.filter _)]
    refine congrArg Set.encard (Set.ext fun p' => ?_)
    rw [Set.mem_ofPred_eq, Set.mem_ofPred_eq, List.mem_filter, hmem, decide_eq_true_eq]
  unfold Database.Asked
  rw [hcount, ← hmem]
  by_cases hmany : maxParents < (q.secondParents A).length
  · -- the parents are sorted, and the first are asked for
    have hperm : ((q.secondParents A).insertionSort fun a b => a ≤ b).Perm (q.secondParents A) :=
      List.perm_insertionSort _ _
    have hsorted : ((q.secondParents A).insertionSort fun a b => a ≤ b).Pairwise (· < ·) :=
      ((List.pairwise_insertionSort _ _).and (hperm.nodup_iff.mpr hnodup)).imp fun h => lt_of_le_of_ne h.1 h.2
    rw [askedParents_of_many sched hmany, mem_take_of_sorted hsorted, hperm.mem_iff, (hperm.filter _).length_eq]
    exact and_congr_right fun _ => Nat.cast_lt.symm
  · have hfew := not_lt.mp hmany
    rw [(askedParents_perm sched hfew).mem_iff]
    refine ⟨fun hp => ⟨hp, ?_⟩, And.left⟩
    have hlt : ((q.secondParents A).filter (· < p)).length < (q.secondParents A).length :=
      List.length_filter_lt_length_iff_exists.mpr ⟨p, hp, by simp⟩
    exact Nat.cast_lt.mpr (lt_of_lt_of_le hlt hfew)

/-- The edges of the two passes are the callers of the traced symbols and of the parents asked for. -/
theorem mem_ends_collected (hA : A.edges = fun rel name => some (db.handle rel name))
    (hhops : 2 ≤ q.budget.callerHops) (hwhole : Whole db A q sched) {f n : String} :
    (f, n) ∈ (q.collected A sched).map CallEdge.ends ↔
      (n ∈ q.tracedSyms ∨ db.Asked q.tracedSyms n) ∧ db.Caller f n := by
  have hasked : ∀ p, p ∈ q.askedParents A sched ↔ db.Asked q.tracedSyms p := fun p =>
    mem_askedParents hA hhops hwhole.traced
  -- a pass over the names gives the edges of the callers of each
  have hpass : ∀ names : List String, (∀ s ∈ names, (callers db s relationLimit).length < relationLimit) →
      ((f, n) ∈ (names.flatMap (edgesOf A .callers)).map CallEdge.ends ↔ n ∈ names ∧ db.Caller f n) := by
    intro names hnames
    rw [List.map_flatMap, List.mem_flatMap]
    constructor
    · rintro ⟨s, hs, hmem⟩
      rw [edgesOf_callers hA] at hmem
      obtain ⟨rfl, hcaller⟩ := (Database.mem_ends_callers (hnames s hs)).mp hmem
      exact ⟨hs, hcaller⟩
    · rintro ⟨hn, hcaller⟩
      refine ⟨n, hn, ?_⟩
      rw [edgesOf_callers hA]
      exact (Database.mem_ends_callers (hnames n hn)).mpr ⟨rfl, hcaller⟩
  unfold collected tracedCallers
  rw [List.map_append, List.mem_append, hpass _ hwhole.traced, hpass _ hwhole.parents, hasked, ← or_and_right]

/-- The merge keeps them all, when the keys are apart. -/
theorem mem_ends_upstream (hA : A.edges = fun rel name => some (db.handle rel name))
    (hhops : 2 ≤ q.budget.callerHops) (hwhole : Whole db A q sched) (hapart : db.Apart q.tracedSyms) {f n : String} :
    (f, n) ∈ (q.secondHop A sched).upstream.map CallEdge.ends ↔
      (n ∈ q.tracedSyms ∨ db.Asked q.tracedSyms n) ∧ db.Caller f n := by
  have hkeys : ∀ e ∈ q.collected A sched, ∀ e' ∈ q.collected A sched,
      edgeKey "up:" e = edgeKey "up:" e' → e.ends = e'.ends := by
    intro e he e' he' hkey
    obtain ⟨hn, hcaller⟩ := (mem_ends_collected hA hhops hwhole).mp (List.mem_map_of_mem he)
    obtain ⟨hn', hcaller'⟩ := (mem_ends_collected hA hhops hwhole).mp (List.mem_map_of_mem he')
    unfold edgeKey at hkey
    simp only [String.append_assoc, String.append_right_inj] at hkey
    rw [← String.append_assoc, ← String.append_assoc] at hkey
    obtain ⟨hfrom, hto⟩ := hapart.shown _ _ _ _ hn hn' hcaller hcaller' hkey
    exact Prod.ext hfrom hto
  rw [upstream_secondHop, List.mem_map_firstBy_iff hkeys, mem_ends_collected hA hhops hwhole]

/-- The edges of the query that the second pass replaces. -/
theorem mem_ends_upstreamChain (hwhole : Whole db A q sched) (hapart : db.Apart q.tracedSyms) {s f n : String}
    (hs : s ∈ q.tracedSyms) : (f, n) ∈ (db.upstreamChain s).map CallEdge.ends ↔ db.Grandparent s f n := by
  have hkeys : ∀ e ∈ (upstreamEdges db s).filter (·.proper), ∀ e' ∈ (upstreamEdges db s).filter (·.proper),
      e.key = e'.key → e.ends = e'.ends := by
    intro e he e' he' hkey
    have hgrand : ∀ e ∈ (upstreamEdges db s).filter (·.proper), db.Grandparent s e.fromName e.toName := by
      intro e he
      obtain ⟨hmem, hproper⟩ := List.mem_filter.mp he
      obtain ⟨t, ht, hname, p, hp, g, hg, rfl⟩ := Database.mem_upstreamEdges.mp hmem
      exact ⟨CallEdge.proper_iff.mp hproper, t, ht, hname, p, hp, rfl, g, hg, rfl⟩
    obtain ⟨hfrom, hto⟩ := hapart.returned s hs _ _ _ _ (hgrand e he) (hgrand e' he') hkey
    exact Prod.ext hfrom hto
  have hkept : db.upstreamChain s = db.upstream s upstreamLimit := by
    refine List.filter_eq_self.mpr fun e he => ?_
    have hproper := CallEdge.proper_iff.mp (mem_of_mem_dedupEdges (by decide : 0 < upstreamLimit) he).2
    exact decide_eq_true ⟨hproper.1, hproper.2.1⟩
  rw [hkept]
  exact Database.mem_ends_upstream (hwhole.upstream s hs) hkeys

/-- **When the two passes find what the two-hop query does.** -/
theorem twoHops_eq_upstream_iff (hA : A.edges = fun rel name => some (db.handle rel name))
    (hhops : 2 ≤ q.budget.callerHops) (hwhole : Whole db A q sched) (hapart : db.Apart q.tracedSyms) :
    (∀ f n, (f, n) ∈ (q.secondHop A sched).upstream.map CallEdge.ends ↔
        ∃ s ∈ q.tracedSyms, (f, n) ∈ (edgesOf A .callers s).map CallEdge.ends ∨
          (f, n) ∈ (db.upstreamChain s).map CallEdge.ends) ↔
      db.NoNamesakes q.tracedSyms ∧ db.ParentsFit q.tracedSyms := by
  have hslow : ∀ f n, (∃ s ∈ q.tracedSyms, (f, n) ∈ (edgesOf A .callers s).map CallEdge.ends ∨
        (f, n) ∈ (db.upstreamChain s).map CallEdge.ends) ↔
      (n ∈ q.tracedSyms ∧ db.Caller f n) ∨ ∃ s ∈ q.tracedSyms, db.Grandparent s f n := by
    intro f n
    constructor
    · rintro ⟨s, hs, hmem | hmem⟩
      · rw [edgesOf_callers hA] at hmem
        obtain ⟨rfl, hcaller⟩ := (Database.mem_ends_callers (hwhole.traced s hs)).mp hmem
        exact .inl ⟨hs, hcaller⟩
      · exact .inr ⟨s, hs, (mem_ends_upstreamChain hwhole hapart hs).mp hmem⟩
    · rintro (⟨hn, hcaller⟩ | ⟨s, hs, hgrand⟩)
      · refine ⟨n, hn, .inl ?_⟩
        rw [edgesOf_callers hA]
        exact (Database.mem_ends_callers (hwhole.traced n hn)).mpr ⟨rfl, hcaller⟩
      · exact ⟨s, hs, .inr ((mem_ends_upstreamChain hwhole hapart hs).mpr hgrand)⟩
  simp only [hslow, mem_ends_upstream hA hhops hwhole hapart]
  constructor
  · intro h
    refine ⟨fun p hp f hcaller => ?_, fun s hs f p hgrand => ?_⟩
    · -- a caller of a parent is not one of a traced symbol
      exact ((h f p).mp ⟨.inr hp, hcaller⟩).resolve_left fun hc => hp.1.1 hc.1
    · exact ((h f p).mpr (.inr ⟨s, hs, hgrand⟩)).1
  · rintro ⟨hnames, hfit⟩ f n
    constructor
    · rintro ⟨hn | hn, hcaller⟩
      · exact .inl ⟨hn, hcaller⟩
      · exact .inr (hnames n hn f hcaller)
    · rintro (⟨hn, hcaller⟩ | ⟨s, hs, hgrand⟩)
      · exact ⟨.inl hn, hcaller⟩
      · exact ⟨hfit s hs f n hgrand, hgrand.caller⟩

end GraphQuery

/-! ### Keys of plain names -/

/-- Names without a separator have their keys apart. -/
theorem Codegraph.Database.apart_of_plain {db : Database}
    (hplain : ∀ g ∈ db.nodes, '>' ∉ g.name.toList ∧ '|' ∉ g.name.toList) (T : List String) : db.Apart T := by
  have hname : ∀ {f n : String}, db.Caller f n → '>' ∉ f.toList ∧ '|' ∉ f.toList := by
    rintro f n ⟨-, p, -, -, g, hg, rfl⟩
    exact hplain g hg.mem_left
  exact ⟨fun f n f' n' _ _ h h' => (String.append_sep_inj rfl (hname h).1 (hname h').1).mp,
    fun s _ f n f' n' h h' => (String.append_sep_inj rfl (hname h.caller).2 (hname h'.caller).2).mp⟩

/-! ### Two graphs -/

/-- A call chain of three symbols. -/
def callLine : Database where
  nodes := [⟨"1", "function", "save", "store.go"⟩, ⟨"2", "function", "handle", "api.go"⟩,
    ⟨"3", "function", "main", "main.go"⟩]
  edges := [⟨"2", "1", "calls"⟩, ⟨"3", "2", "calls"⟩]

theorem twoHops_eq_upstream_callLine : callLine.NoNamesakes ["save"] ∧ callLine.ParentsFit ["save"] := by
  have hwhole : GraphQuery.Whole callLine callLine.answers saveQuery (runWith (.id String)) :=
    ⟨by decide +kernel, by decide +kernel, by decide +kernel⟩
  have hplain : ∀ g ∈ callLine.nodes, '>' ∉ g.name.toList ∧ '|' ∉ g.name.toList := by decide +kernel
  have htraced : saveQuery.tracedSyms = ["save"] := by decide +kernel
  have hshown : (saveQuery.secondHop callLine.answers (runWith (.id String))).upstream.map CallEdge.ends
      = [("handle", "save"), ("main", "handle")] := by decide +kernel
  have hcallers : (edgesOf callLine.answers .callers "save").map CallEdge.ends = [("handle", "save")] := by
    decide +kernel
  have hchain : (callLine.upstreamChain "save").map CallEdge.ends = [("main", "handle")] := by decide +kernel
  have hiff := GraphQuery.twoHops_eq_upstream_iff (q := saveQuery) rfl (by decide +kernel) hwhole
    (Database.apart_of_plain hplain _)
  rw [← htraced]
  refine hiff.mp fun f n => ?_
  rw [hshown, htraced]
  simp only [exists_eq_left, hcallers, hchain, List.mem_cons, List.not_mem_nil, or_false]

/-- One handler calls `save`, and `main` calls another of the same name. -/
def twoHandlers : Database where
  nodes := [⟨"1", "function", "save", "store.go"⟩, ⟨"2", "function", "handle", "api.go"⟩,
    ⟨"3", "function", "handle", "cli.go"⟩, ⟨"4", "function", "main", "main.go"⟩]
  edges := [⟨"2", "1", "calls"⟩, ⟨"4", "3", "calls"⟩]

/-- The caller of the namesake is shown; the query that the passes replace does not find it. -/
theorem twoHandlers_shown :
    GraphQuery.Whole twoHandlers twoHandlers.answers saveQuery (runWith (.id String)) ∧
      ("main", "handle") ∈
        (saveQuery.secondHop twoHandlers.answers (runWith (.id String))).upstream.map CallEdge.ends ∧
      ∀ s ∈ saveQuery.tracedSyms, ("main", "handle") ∉ (edgesOf twoHandlers.answers .callers s).map CallEdge.ends ∧
        ("main", "handle") ∉ (twoHandlers.upstreamChain s).map CallEdge.ends := by
  refine ⟨⟨?_, ?_, ?_⟩, ?_, ?_⟩ <;> decide +kernel

end Devrouter
