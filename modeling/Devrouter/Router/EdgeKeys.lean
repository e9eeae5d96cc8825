import Devrouter.Codegraph.Dangling
import Devrouter.Router.TwoHops

/-!
# The keys of edges

Three places tell edges apart by a text made of the names of their ends: `dedupEdges` of the sidecar, the merge of
`HandleQueryWithPlan` and `Client.Subgraph`. Each joins the names with a separator and keeps the first edge of every
text. `edges_kept_iff` says for which lists this keeps the first of all distinct edges: those in which no edge straddles
another of its relation, that is, the separator stands inside a name of each.
-/

open Ceiling
open String (Straddles)

namespace Devrouter

open Codegraph

/-! ### The sidecar -/

namespace Codegraph

/-- As many as the limit allows; no limit is 0. -/
def upTo {α : Type} (limit : ℕ) (l : List α) : List α := if 0 < limit then l.take limit else l

theorem dedupLoop_zero (seen : List String) (n : ℕ) (edges : List CallEdge) :
    dedupLoop 0 seen n edges = (edges.filter (·.proper)).firstBy (·.key) seen := by
  induction edges generalizing seen n with
  | nil => rfl
  | cons e edges ih =>
    unfold dedupLoop
    by_cases hproper : e.proper = true
    · rw [List.filter_cons_of_pos hproper, List.firstBy_cons, if_neg (by simp [hproper]), ih, ih]
      simp
    · rw [List.filter_cons_of_neg hproper, if_pos (by simpa using hproper), ih]

theorem dedupEdges_eq_upTo (edges : List CallEdge) (limit : ℕ) :
    dedupEdges edges limit = upTo limit ((edges.filter (·.proper)).firstBy (·.key) []) := by
  unfold upTo
  split_ifs with hlimit
  · exact dedupEdges_eq hlimit edges
  · obtain rfl : limit = 0 := Nat.eq_zero_of_not_pos hlimit
    exact dedupLoop_zero [] 0 edges

end Codegraph

/-! ### The merge of the router -/

namespace Merge

/-- The list of a kind. -/
def section_ (m : Merge) : TraceKind → List CallEdge
  | .callers => m.upstream
  | .callees => m.downstream
  | .extends_ => m.extends_
  | .methods => m.methods

/-- Edges of all kinds, one after another. -/
def addAll (m : Merge) (es : List (TraceKind × CallEdge)) : Merge := es.foldl (fun m e => m.addEdge e.1 e.2) m

/-- The key of an edge of a kind. -/
def keyOf (e : TraceKind × CallEdge) : String := edgeKey e.1.tag e.2

theorem section_push (m : Merge) (kind k : TraceKind) (e : CallEdge) :
    (m.push kind e).section_ k = m.section_ k ++ if kind = k then [e] else [] := by
  cases kind <;> cases k <;> simp [push, section_]

theorem section_addAll (es : List (TraceKind × CallEdge)) (m : Merge) (k : TraceKind) :
    (m.addAll es).section_ k = m.section_ k ++
      ((es.firstBy keyOf m.edgeSeen).filter (·.1 = k)).map (·.2) := by
  induction es generalizing m with
  | nil => exact (List.append_nil _).symm
  | cons e es ih =>
    obtain ⟨kind, e⟩ := e
    have hstep : m.addAll ((kind, e) :: es) = (m.addEdge kind e).addAll es := rfl
    rw [hstep, ih, List.firstBy_cons]
    -- an edge whose key has been seen is not added
    by_cases hseen : keyOf (kind, e) ∈ m.edgeSeen
    · have hsame : m.addEdge kind e = m := if_pos hseen
      rw [hsame, if_pos hseen]
    · -- a new edge goes to the section of its kind
      have hadd : m.addEdge kind e = { m.push kind e with edgeSeen := keyOf (kind, e) :: m.edgeSeen } :=
        if_neg hseen
      have hsection : ({ m.push kind e with edgeSeen := keyOf (kind, e) :: m.edgeSeen } : Merge).section_ k
          = (m.push kind e).section_ k := by
        cases k <;> rfl
      rw [hadd, if_neg hseen, hsection, section_push, List.append_assoc]
      refine congrArg _ ?_
      by_cases hkind : kind = k
      · rw [if_pos hkind, List.filter_cons_of_pos (by simpa using hkind), List.map_cons, List.singleton_append]
      · rw [if_neg hkind, List.filter_cons_of_neg (by simpa using hkind), List.nil_append]

/-- The merge without the names for the impact list. -/
def edgesOnly (m : Merge) : Merge := { m with impactNames := [] }

theorem edgesOnly_addTraced (kind : TraceKind) (m : Merge) (e : CallEdge) :
    (addTraced kind m e).edgesOnly = m.edgesOnly.addEdge kind e := by
  have himpact : ∀ m : Merge, (m.addImpact e).edgesOnly = m.edgesOnly := by
    intro m
    unfold addImpact
    split_ifs <;> rfl
  have hadd : (m.addEdge kind e).edgesOnly = m.edgesOnly.addEdge kind e := by
    have hseen : m.edgesOnly.edgeSeen = m.edgeSeen := rfl
    unfold addEdge
    rw [hseen]
    split_ifs
    · rfl
    · cases kind <;> rfl
  unfold addTraced
  split_ifs
  · rw [himpact, hadd]
  · exact hadd

theorem edgesOnly_foldl (tasks : List (TraceKind × List CallEdge)) (m : Merge) :
    (tasks.foldl (fun m t => t.2.foldl (addTraced t.1) m) m).edgesOnly =
      m.edgesOnly.addAll (tasks.flatMap fun t => t.2.map fun e => (t.1, e)) := by
  have hone : ∀ (kind : TraceKind) (edges : List CallEdge) (m : Merge),
      (edges.foldl (addTraced kind) m).edgesOnly = m.edgesOnly.addAll (edges.map fun e => (kind, e)) := by
    intro kind edges
    induction edges with
    | nil => exact fun m => rfl
    | cons e edges ih =>
      intro m
      rw [List.foldl_cons, ih, edgesOnly_addTraced]
      rfl
  induction tasks generalizing m with
  | nil => rfl
  | cons t tasks ih =>
    rw [List.foldl_cons, ih, hone, List.flatMap_cons]
    exact (List.foldl_append).symm

theorem keyOf_eq_iff {a b : TraceKind × CallEdge} : keyOf a = keyOf b ↔
    a.1 = b.1 ∧ (a.2.ends = b.2.ends ∨ Straddles ">" a.2.fromName a.2.toName b.2.fromName b.2.toName ∨
      Straddles ">" b.2.fromName b.2.toName a.2.fromName a.2.toName) := by
  have hends : a.2.ends = b.2.ends ↔ a.2.fromName = b.2.fromName ∧ a.2.toName = b.2.toName := Prod.mk_inj
  have hkind : keyOf a = keyOf b → a.1 = b.1 := by
    -- the tags differ in their first letters
    intro h
    have hhead := congrArg (fun s : String => s.toList.head?) h
    obtain ⟨kind, e⟩ := a
    obtain ⟨kind', e'⟩ := b
    cases kind <;> cases kind' <;> first | rfl | exact absurd hhead (by simp [keyOf, edgeKey, TraceKind.tag])
  have hassoc : ∀ tag f t : String, tag ++ f ++ ">" ++ t = tag ++ (f ++ ">" ++ t) := by
    intro tag f t
    simp only [String.append_assoc]
  rw [hends, ← String.append_sep_eq_iff (c := '>') rfl]
  constructor
  · intro h
    have hk := hkind h
    refine ⟨hk, ?_⟩
    unfold keyOf edgeKey at h
    rw [hassoc, hassoc, hk] at h
    exact (String.append_right_inj _).mp h
  · rintro ⟨hkind, h⟩
    unfold keyOf edgeKey
    rw [hassoc, hassoc, hkind, h]

end Merge

/-- The edges of a traversal in the order of the merge. -/
def GraphQuery.mergedEdges (A : GraphAnswers) (q : GraphQuery) (sched : Schedule) : List (TraceKind × CallEdge) :=
  ((q.tracedEdges A).flatMap fun t => t.2.map fun e => (t.1, e)) ++
    ((q.askedParents A sched).flatMap (edgesOf A .callers)).map fun e => (.callers, e)

/-- **The two passes are one merge**, apart from the impact list. -/
theorem GraphQuery.secondHop_edgesOnly (A : GraphAnswers) (q : GraphQuery) (sched : Schedule) :
    (q.secondHop A sched).edgesOnly = Merge.empty.addAll (q.mergedEdges A sched) := by
  have hsecond : ∀ (edges : List CallEdge) (m : Merge), (edges.foldl (Merge.addEdge .callers) m).edgesOnly =
      m.edgesOnly.addAll (edges.map fun e => (.callers, e)) := by
    intro edges
    induction edges with
    | nil => exact fun m => rfl
    | cons e edges ih =>
      intro m
      have hadd : (m.addEdge .callers e).edgesOnly = m.edgesOnly.addEdge .callers e := by
        have hseen : m.edgesOnly.edgeSeen = m.edgeSeen := rfl
        unfold Merge.addEdge
        rw [hseen]
        split_ifs <;> rfl
      rw [List.foldl_cons, ih, hadd]
      rfl
  rw [secondHop_eq, hsecond, firstMerge, Merge.edgesOnly_foldl]
  exact (List.foldl_append).symm

/-! ### What is kept -/

/-- No edge straddles another. -/
def NoStraddle (sep : String) (edges : List CallEdge) : Prop :=
  ∀ e ∈ edges, ∀ e' ∈ edges, ¬ Straddles sep e.fromName e.toName e'.fromName e'.toName

/-- Keys of the two ends tell edges apart just when none straddles another. -/
theorem apart_iff_noStraddle (sep : String) (c : Char) (hs : sep.toList = [c]) (key : CallEdge → String)
    (hkey : ∀ e e', key e = key e' ↔ e.fromName ++ sep ++ e.toName = e'.fromName ++ sep ++ e'.toName)
    (edges : List CallEdge) :
    (∀ e ∈ edges, ∀ e' ∈ edges, key e = key e' ↔ e.ends = e'.ends) ↔ NoStraddle sep edges := by
  have hends : ∀ e e' : CallEdge, e.ends = e'.ends ↔ e.fromName = e'.fromName ∧ e.toName = e'.toName := fun _ _ =>
    Prod.mk_inj
  simp only [hkey, hends, String.append_sep_eq_iff hs]
  constructor
  · intro h e he e' he' hstraddles
    exact hstraddles.ne hs ((h e he e' he').mp (.inr (.inl hstraddles))).1
  · intro h e he e' he'
    exact ⟨fun hsame => hsame.resolve_right fun hs => hs.elim (h e he e' he') (h e' he' e he), .inl⟩

/-- **The sidecar keeps the first of all distinct edges**, up to the limit. -/
def SidecarKeeps (edges : List CallEdge) (limit : ℕ) : Prop :=
  (∀ e ∈ edges.filter (·.proper), ∀ e' ∈ edges.filter (·.proper), e.key = e'.key ↔ e.ends = e'.ends) ∧
    dedupEdges edges limit = upTo limit ((edges.filter (·.proper)).firstBy CallEdge.ends [])

/-- **The router keeps the first of all distinct edges** of a kind. -/
def RouterKeeps (es : List (TraceKind × CallEdge)) : Prop :=
  (∀ a ∈ es, ∀ b ∈ es, Merge.keyOf a = Merge.keyOf b ↔ a.1 = b.1 ∧ a.2.ends = b.2.ends) ∧
    ∀ k, (Merge.empty.addAll es).section_ k = ((es.filter (·.1 = k)).map (·.2)).firstBy CallEdge.ends []

/-- **The router keeps the first of all distinct importers.** -/
def ImportsKeep (edges : List CallEdge) : Prop :=
  (∀ e ∈ edges, ∀ e' ∈ edges, edgeKey "imp:" e = edgeKey "imp:" e' ↔ e.ends = e'.ends) ∧
    edges.firstBy (edgeKey "imp:") [] = edges.firstBy CallEdge.ends []

/-- **A subgraph keeps the first of all distinct edges** that come in, up to its ceiling. -/
def SubgraphKeeps (os : List Offer) : Prop :=
  (∀ c ∈ drawnEdges os, ∀ c' ∈ drawnEdges os, c.key = c'.key ↔ c = c') ∧
    ((os.filterMap (·.drawn)).foldl Walk.addEdge .empty).edges = ((drawnEdges os).firstBy id []).take subgraphMaxEdges

theorem addEdges_edges (cs : List SubgraphEdge) (w : Walk) : (cs.foldl Walk.addEdge w).edges =
    enterAll SubgraphEdge.key subgraphMaxEdges w.edges (cs.filter (·.Proper)) := by
  induction cs generalizing w with
  | nil => rfl
  | cons c cs ih =>
    have hfilter : (c :: cs).filter (·.Proper) = [c].filter (·.Proper) ++ cs.filter (·.Proper) :=
      List.filter_append [c] cs
    rw [List.foldl_cons, ih, Walk.addEdge_edges, hfilter, enterAll_append]

theorem sidecarKeeps_iff (edges : List CallEdge) (limit : ℕ) :
    SidecarKeeps edges limit ↔ NoStraddle "|" (edges.filter (·.proper)) := by
  have happart := apart_iff_noStraddle "|" '|' rfl CallEdge.key (fun _ _ => Iff.rfl)
    (edges.filter (·.proper))
  unfold SidecarKeeps
  rw [happart]
  refine ⟨And.left, fun h => ⟨h, ?_⟩⟩
  rw [dedupEdges_eq_upTo]
  exact congrArg (upTo limit) (List.firstBy_eq_of_same [] (happart.mpr h))

theorem importsKeep_iff (edges : List CallEdge) : ImportsKeep edges ↔ NoStraddle ">" edges := by
  have hkey : ∀ e e' : CallEdge, edgeKey "imp:" e = edgeKey "imp:" e' ↔
      e.fromName ++ ">" ++ e.toName = e'.fromName ++ ">" ++ e'.toName := by
    intro e e'
    unfold edgeKey
    rw [String.append_assoc, String.append_assoc, String.append_assoc, String.append_assoc, String.append_right_inj,
      ← String.append_assoc, ← String.append_assoc]
  have happart := apart_iff_noStraddle ">" '>' rfl (edgeKey "imp:") hkey edges
  unfold ImportsKeep
  rw [happart]
  exact ⟨And.left, fun h => ⟨h, List.firstBy_eq_of_same [] (happart.mpr h)⟩⟩

/-- The edges of a kind. -/
def ofKind (es : List (TraceKind × CallEdge)) (k : TraceKind) : List CallEdge := (es.filter (·.1 = k)).map (·.2)

theorem mem_ofKind {es : List (TraceKind × CallEdge)} {k : TraceKind} {e : CallEdge} :
    e ∈ ofKind es k ↔ (k, e) ∈ es := by
  unfold ofKind
  rw [List.mem_map]
  constructor
  · rintro ⟨a, ha, rfl⟩
    obtain ⟨ha, hk⟩ := List.mem_filter.mp ha
    rwa [← of_decide_eq_true hk]
  · intro h
    exact ⟨(k, e), List.mem_filter.mpr ⟨h, decide_eq_true rfl⟩, rfl⟩

theorem routerKeeps_iff (es : List (TraceKind × CallEdge)) :
    RouterKeeps es ↔ ∀ k, NoStraddle ">" (ofKind es k) := by
  constructor
  · rintro ⟨happart, -⟩ k e he e' he' hstraddles
    have hkeys : Merge.keyOf (k, e) = Merge.keyOf (k, e') := Merge.keyOf_eq_iff.mpr ⟨rfl, .inr (.inl hstraddles)⟩
    have hends := ((happart _ (mem_ofKind.mp he) _ (mem_ofKind.mp he')).mp hkeys).2
    exact hstraddles.ne (c := '>') rfl (congrArg Prod.fst hends)
  · intro h
    have happart : ∀ a ∈ es, ∀ b ∈ es, Merge.keyOf a = Merge.keyOf b ↔ a.1 = b.1 ∧ a.2.ends = b.2.ends := by
      rintro ⟨k, e⟩ ha ⟨k', e'⟩ hb
      rw [Merge.keyOf_eq_iff]
      refine and_congr_right fun (hkind : k = k') => ?_
      subst hkind
      have he := mem_ofKind.mpr ha
      have he' := mem_ofKind.mpr hb
      exact ⟨fun hsame => hsame.resolve_right fun hs => hs.elim (h k e he e' he') (h k e' he' e he), .inl⟩
    refine ⟨happart, fun k => ?_⟩
    -- one key for kind and ends, and then the ends within a kind
    have hends : es.firstBy Merge.keyOf [] = es.firstBy (fun a => (a.1, a.2.ends)) [] :=
      List.firstBy_eq_of_same [] fun a ha b hb => (happart a ha b hb).trans Prod.mk_inj.symm
    have hempty : Merge.empty.section_ k = [] := by cases k <;> rfl
    calc (Merge.empty.addAll es).section_ k
        = ((es.firstBy Merge.keyOf []).filter (·.1 = k)).map (·.2) := by
          rw [Merge.section_addAll, hempty, List.nil_append]
          rfl
      _ = ((es.filter (·.1 = k)).firstBy (fun a => a.2.ends) []).map (·.2) := by
          rw [hends, List.filter_firstBy_prod]
          rfl
      _ = (ofKind es k).firstBy CallEdge.ends [] := (List.firstBy_map _ _).symm

/-- The type of a drawn edge has no separator in it. -/
theorem etype_plain {os : List Offer} {c : SubgraphEdge} (h : c ∈ drawnEdges os) : '|' ∉ c.etype.toList := by
  obtain ⟨o, -, ho⟩ := List.mem_filterMap.mp (List.mem_filter.mp h).1
  cases o with
  | start name => exact absurd ho (by simp [Offer.drawn])
  | edge rel asked e =>
    obtain rfl : rel.recorded asked e = c := Option.some.inj ho
    cases rel <;> simp [Relation.recorded]

/-- No drawn edge straddles another of its type. -/
def NoDrawnStraddle (os : List Offer) : Prop :=
  ∀ c ∈ drawnEdges os, ∀ c' ∈ drawnEdges os, c.etype = c'.etype →
    ¬ Straddles "|" c.fromName c.toName c'.fromName c'.toName

theorem subgraphKeeps_iff (os : List Offer) : SubgraphKeeps os ↔ NoDrawnStraddle os := by
  -- the type has no separator, so the key gives it back, and the rest as far as it is apart
  have hkey : ∀ c ∈ drawnEdges os, ∀ c' ∈ drawnEdges os, c.key = c'.key ↔ c.etype = c'.etype ∧
      ((c.fromName = c'.fromName ∧ c.toName = c'.toName) ∨ Straddles "|" c.fromName c.toName c'.fromName c'.toName ∨
        Straddles "|" c'.fromName c'.toName c.fromName c.toName) := by
    intro c hc c' hc'
    have hassoc : ∀ e : SubgraphEdge, e.key = e.etype ++ "|" ++ (e.fromName ++ "|" ++ e.toName) := by
      intro e
      simp only [SubgraphEdge.key, String.append_assoc]
    rw [hassoc, hassoc, String.append_sep_inj rfl (etype_plain hc) (etype_plain hc'), String.append_sep_eq_iff rfl]
  have hself : ∀ c c' : SubgraphEdge, c = c' ↔ c.etype = c'.etype ∧ c.fromName = c'.fromName ∧ c.toName = c'.toName := by
    rintro ⟨f, t, k⟩ ⟨f', t', k'⟩
    simp only [SubgraphEdge.mk.injEq]
    tauto
  constructor
  · rintro ⟨happart, -⟩ c hc c' hc' htype hstraddles
    have heq := (happart c hc c' hc').mp ((hkey c hc c' hc').mpr ⟨htype, .inr (.inl hstraddles)⟩)
    exact hstraddles.ne (c := '|') rfl (congrArg SubgraphEdge.fromName heq)
  · intro h
    have happart : ∀ c ∈ drawnEdges os, ∀ c' ∈ drawnEdges os, c.key = c'.key ↔ c = c' := by
      intro c hc c' hc'
      rw [hkey c hc c' hc', hself]
      refine and_congr_right fun htype => ⟨fun hsame => ?_, .inl⟩
      exact hsame.resolve_right fun hs => hs.elim (h c hc c' hc' htype) (h c' hc' c hc htype.symm)
    refine ⟨happart, ?_⟩
    -- keys that differ exactly where the edges do drop the same repetitions
    calc ((os.filterMap (·.drawn)).foldl Walk.addEdge .empty).edges
        = ((drawnEdges os).firstBy SubgraphEdge.key []).take subgraphMaxEdges := by
          rw [addEdges_edges]
          exact enterAll_eq_take (Nat.zero_le _)
      _ = ((drawnEdges os).firstBy id []).take subgraphMaxEdges :=
          congrArg (List.take subgraphMaxEdges) (List.firstBy_eq_of_same [] happart)

/-- The edges of a walk are what its offers leave. -/
theorem walkSeeds_edges_eq (S : Sidecar) (L : RuneLower) (seeds : List String) :
    (walkSeeds S L seeds).edges = (((offers S L seeds).filterMap (·.drawn)).foldl Walk.addEdge .empty).edges := by
  rw [(brings_walkSeeds S L seeds).edges, addEdges_edges]
  rfl

/-! ### What is lost -/

/-- **The keys**: in each place exactly the edges that straddle one another are lost. -/
theorem edges_kept_iff (edges : List CallEdge) (limit : ℕ) (es : List (TraceKind × CallEdge))
    (imports : List CallEdge) (os : List Offer) :
    (SidecarKeeps edges limit ↔ NoStraddle "|" (edges.filter (·.proper))) ∧
      (RouterKeeps es ↔ ∀ k, NoStraddle ">" (ofKind es k)) ∧
      (ImportsKeep imports ↔ NoStraddle ">" imports) ∧
      (SubgraphKeeps os ↔ NoDrawnStraddle os) :=
  ⟨sidecarKeeps_iff edges limit, routerKeeps_iff es, importsKeep_iff imports, subgraphKeeps_iff os⟩

/-- Two operators that call each other. -/
def mutualCalls (op op' : String) : List CallEdge := [⟨op, op', "ops"⟩, ⟨op', op, "ops"⟩]

/-- **The second call is lost** in each place: `|` and `||`, or `>` and `>>`, have one key for both. -/
theorem operators_lost :
    (¬ SidecarKeeps (mutualCalls "|" "||") 15 ∧ dedupEdges (mutualCalls "|" "||") 15 = [⟨"|", "||", "ops"⟩]) ∧
      (¬ RouterKeeps ((mutualCalls ">" ">>").map fun e => (.callees, e)) ∧
        (Merge.empty.addAll ((mutualCalls ">" ">>").map fun e => (.callees, e))).downstream = [⟨">", ">>", "ops"⟩]) ∧
      ¬ ImportsKeep (mutualCalls ">" ">>") ∧
      ¬ SubgraphKeeps ((mutualCalls "|" "||").map (.edge .callees "|")) := by
  refine ⟨⟨fun h => ?_, by decide⟩, ⟨fun h => ?_, by decide⟩, fun h => ?_, fun h => ?_⟩
  · exact absurd h.2 (by decide)
  · exact absurd (h.2 .callees) (by decide)
  · exact absurd h.2 (by decide)
  · exact absurd h.2 (by decide)

end Devrouter
