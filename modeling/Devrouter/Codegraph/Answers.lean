import Devrouter.Codegraph.Records
import Devrouter.Codegraph.Rounds

/-!
# What a walk keeps of the answers

A coarser view of `Client.Subgraph` than its steps: apart from seeds and the flag it asks a query, and either
nothing comes of it or all edges of the answer are recorded (`Move`). The log says which queries have been
asked. `Kept` is what this comes to: every edge has been answered, and conversely, while the flag is down, nothing
of an answer is left out but an edge whose key is taken.
-/

open Relation (ReflTransGen)

namespace Devrouter.Codegraph

/-- The edge that the client makes of an answered edge, when it has asked about the given name. -/
def Relation.recorded (rel : Relation) (name : String) (e : CallEdge) : SubgraphEdge :=
  match rel with
  | .callers | .callees => ⟨e.fromName, e.toName, "CALLS"⟩
  | .crossWireCallers | .crossWireCallees => ⟨e.fromName, e.toName, "INVOKES"⟩
  | .importers => ⟨e.fromName, name, "IMPORTS"⟩
  | .extends => ⟨e.fromName, name, "EXTENDS"⟩
  | .methods => ⟨e.fromName, e.toName, "HAS_METHOD"⟩

/-- Two ends that are not empty and not the same. -/
def SubgraphEdge.Proper (e : SubgraphEdge) : Prop := e.fromName ≠ "" ∧ e.toName ≠ "" ∧ e.fromName ≠ e.toName

/-- The loop over an answer. -/
def recordEdges (rel : Relation) (name : String) (role : Role) (depth : ℤ) : List CallEdge → Walk → Walk
  | [], w => w
  | e :: es, w =>
    recordEdges rel name role depth es
      ((w.upsertNode (rel.filed e) e.filePath role depth).1.addEdge (rel.recorded name e))

/-- The query with the given number has failed. -/
def Sidecar.Fails (S : Sidecar) (i : ℕ) : Query → Prop
  | .edges rel name => S.answer i rel name = none
  | .nameHits term => S.nameHits i term = none

/-- What a walk can do; structural neighbours are asked for of symbols in `T` only. -/
inductive Move (S : Sidecar) (T : Set String) : Walk → Walk → Prop
  | flag (w : Walk) : Move S T w { w with truncated := true }
  | seed (w : Walk) (name : String) : Move S T w (w.upsertNode name "" .seed 0).1
  | hits (w : Walk) (term : String) : Move S T w { w with log := w.log ++ [.nameHits term] }
  | fail (w : Walk) {rel : Relation} {name : String} (hstart : rel ∈ auxRelations → name ∈ T)
      (hanswer : S.answer w.log.length rel name = none) :
      Move S T w { w with log := w.log ++ [.edges rel name] }
  | record (w : Walk) {rel : Relation} {name : String} {es : List CallEdge} (role : Role) (depth : ℤ)
      (hstart : rel ∈ auxRelations → name ∈ T) (hanswer : S.answer w.log.length rel name = some es) :
      Move S T w (recordEdges rel name role depth (graphEdges es) { w with log := w.log ++ [.edges rel name] })

/-- What a walk can do behind a start: all of it but putting another start on the map. -/
inductive Reply (S : Sidecar) (T : Set String) : Walk → Walk → Prop
  | flag (w : Walk) : Reply S T w { w with truncated := true }
  | hits (w : Walk) (term : String) : Reply S T w { w with log := w.log ++ [.nameHits term] }
  | fail (w : Walk) {rel : Relation} {name : String} (hstart : rel ∈ auxRelations → name ∈ T)
      (hanswer : S.answer w.log.length rel name = none) :
      Reply S T w { w with log := w.log ++ [.edges rel name] }
  | record (w : Walk) {rel : Relation} {name : String} {es : List CallEdge} (role : Role) (depth : ℤ)
      (hstart : rel ∈ auxRelations → name ∈ T) (hanswer : S.answer w.log.length rel name = some es) :
      Reply S T w (recordEdges rel name role depth (graphEdges es) { w with log := w.log ++ [.edges rel name] })

section Moves

variable {S : Sidecar} {T : Set String} {L : RuneLower}

theorem Reply.move {w w' : Walk} (h : Reply S T w w') : Move S T w w' := by
  cases h with
  | flag => exact .flag w
  | hits term => exact .hits w term
  | fail hstart hanswer => exact .fail w hstart hanswer
  | record role depth hstart hanswer => exact .record w role depth hstart hanswer

theorem moves_of_replies {w w' : Walk} (h : ReflTransGen (Reply S T) w w') : ReflTransGen (Move S T) w w' :=
  ReflTransGen.mono (fun _ _ => Reply.move) _ _ h

theorem recordEdges_cons (rel : Relation) (name : String) (role : Role) (depth : ℤ) (e : CallEdge)
    (es : List CallEdge) (w : Walk) :
    recordEdges rel name role depth (e :: es) w =
      recordEdges rel name role depth es
        ((w.upsertNode (rel.filed e) e.filePath role depth).1.addEdge (rel.recorded name e)) := rfl

theorem takeEdges_walk {rel : Relation} {role : Role} {depth : ℤ} {etype name : String} (es : List CallEdge)
    (hrecorded : ∀ e, rel.recorded name e = ⟨e.fromName, e.toName, etype⟩) (w : Walk) (next : List String) :
    (takeEdges rel role depth etype es (w, next)).1 = recordEdges rel name role depth es w := by
  induction es generalizing w next with
  | nil => rfl
  | cons e es ih =>
    rw [takeEdges_cons, ih, recordEdges_cons, hrecorded]

theorem takeAux_walk {rel : Relation} {role : Role} {name : String} {edge : CallEdge → SubgraphEdge}
    (es : List CallEdge) (hrecorded : ∀ e, rel.recorded name e = edge e) (w : Walk) :
    takeAux rel role edge es w = recordEdges rel name role 1 es w := by
  induction es generalizing w with
  | nil => rfl
  | cons e es ih =>
    unfold takeAux
    rw [ih, recordEdges_cons, hrecorded]

theorem takeAnswer_replies {rel : Relation} {flagged : Bool} {role : Role} {depth : ℤ} {etype name : String}
    (haux : rel ∉ auxRelations) (hrecorded : ∀ e, rel.recorded name e = ⟨e.fromName, e.toName, etype⟩) (w : Walk)
    (next : List String) : ReflTransGen (Reply S T) w (takeAnswer S rel flagged role depth etype name w next).1 := by
  unfold takeAnswer Walk.query
  dsimp only
  cases hanswer : S.answer w.log.length rel name with
  | none => exact .single (.fail w (fun h => absurd h haux) hanswer)
  | some es =>
    dsimp only [Option.map_some]
    rw [takeEdges_walk _ hrecorded]
    split_ifs
    · -- the flag may as well be raised before the query
      exact .head (.flag w) (.single (.record { w with truncated := true } role depth (fun h => absurd h haux) hanswer))
    · exact .single (.record w role depth (fun h => absurd h haux) hanswer)

/-- The relations of a walk along the calls. -/
def CallDirection.Along (dir : CallDirection) : Prop := dir = downstream ∨ dir = upstream

theorem expandNode_replies {dir : CallDirection} (hdir : dir.Along) (d : ℕ) (name : String) (w : Walk)
    (next : List String) : ReflTransGen (Reply S T) w (expandNode S dir d name w next).1 := by
  have hcallsrec : ∀ e, dir.calls.recorded name e = ⟨e.fromName, e.toName, "CALLS"⟩ := by
    rcases hdir with rfl | rfl
    · exact fun _ => rfl
    · exact fun _ => rfl
  have hwiresrec : ∀ e, dir.wires.recorded name e = ⟨e.fromName, e.toName, "INVOKES"⟩ := by
    rcases hdir with rfl | rfl
    · exact fun _ => rfl
    · exact fun _ => rfl
  have haux : dir.calls ∉ auxRelations ∧ dir.wires ∉ auxRelations := by
    rcases hdir with rfl | rfl
    · decide
    · decide
  unfold expandNode
  dsimp only
  split_ifs
  · exact takeAnswer_replies haux.1 hcallsrec w next
  · exact (takeAnswer_replies haux.1 hcallsrec w next).trans (takeAnswer_replies haux.2 hwiresrec _ _)

theorem expandLevel_replies {dir : CallDirection} (hdir : dir.Along) (d : ℕ) (names : List String) (w : Walk)
    (next : List String) : ReflTransGen (Reply S T) w (expandLevel S dir d names w next).1 := by
  induction names generalizing w next with
  | nil => exact .refl
  | cons name names ih =>
    have hnode := expandNode_replies (S := S) (T := T) hdir d name w next
    unfold expandLevel
    dsimp only
    split_ifs
    · exact hnode
    · exact hnode.trans (ih _ _)

theorem expandBFS_replies {dir : CallDirection} (hdir : dir.Along) (levels d : ℕ) (frontier : List String) (w : Walk) :
    ReflTransGen (Reply S T) w (expandBFS S dir levels d frontier w) := by
  induction levels generalizing d frontier w with
  | zero => exact .refl
  | succ levels ih =>
    have hlevel := expandLevel_replies (S := S) (T := T) hdir d frontier w []
    have htrim : ∀ v next, ReflTransGen (Reply S T) v (trimFrontier v next).1 := by
      intro v next
      unfold trimFrontier
      split_ifs
      · exact .single (.flag v)
      · exact .refl
    unfold expandBFS
    dsimp only
    split_ifs
    · exact .refl
    · exact hlevel
    · exact (hlevel.trans (htrim _ _)).trans (ih _ _ _)

theorem auxRelation_replies {rel : Relation} {role : Role} {edge : CallEdge → SubgraphEdge} {name : String}
    (hname : name ∈ T) (hrecorded : ∀ e, rel.recorded name e = edge e) (w : Walk) :
    ReflTransGen (Reply S T) w (auxRelation S rel role edge name w) := by
  unfold auxRelation Walk.query
  dsimp only
  cases hanswer : S.answer w.log.length rel name with
  | none => exact .single (.fail w (fun _ => hname) hanswer)
  | some es =>
    dsimp only [Option.map_some]
    rw [takeAux_walk _ hrecorded]
    exact .single (.record w role 1 (fun _ => hname) hanswer)

theorem addAux_replies {name : String} (hname : name ∈ T) (w : Walk) :
    ReflTransGen (Reply S T) w (addAux S name w) :=
  ((auxRelation_replies hname (fun _ => rfl) w).trans (auxRelation_replies hname (fun _ => rfl) _)).trans
    (auxRelation_replies hname (fun _ => rfl) _)

/-- Behind its start a round takes replies. -/
theorem round_replies {name : String} (hname : name ∈ T) (w : Walk) :
    ReflTransGen (Reply S T) (w.upsertNode name "" .seed 0).1 (round S w name) := by
  have hcallees := expandBFS_replies (S := S) (T := T) (.inl rfl) subgraphMaxDepth 1 [name]
    (w.upsertNode name "" .seed 0).1
  have hcallers := hcallees.trans (expandBFS_replies (.inr rfl) subgraphMaxDepth 1 [name] _)
  exact hcallers.trans (addAux_replies hname _)

/-- A round moves, when its start is one. -/
theorem round_moves {name : String} (hname : name ∈ T) (w : Walk) : ReflTransGen (Move S T) w (round S w name) :=
  .head (.seed w name) (moves_of_replies (round_replies hname w))

theorem fallbackTail_replies (seed : String) (w : Walk) : ReflTransGen (Reply S T) w (fallbackTail S L seed w).2 := by
  unfold fallbackTail Walk.queryHits
  dsimp only
  split_ifs
  · exact .refl
  · exact .refl
  · cases S.nameHits w.log.length (bareTail seed) with
    | none => exact .single (.hits w _)
    | some n => exact .single (.hits w _)

theorem walkSeed_moves {w : Walk} {seed : String} (hT : ∀ r ∈ seedRounds S L w seed, r.2 ∈ T) :
    ReflTransGen (Move S T) w (walkSeed S L w seed) := by
  have hround : round S w seed = (snapshotSeed S seed (w.upsertNode seed "" .seed 0).1).1 := rfl
  unfold seedRounds at hT
  unfold walkSeed
  dsimp only at hT ⊢
  rw [← hround]
  have hfirst := round_moves (S := S) ((List.forall_mem_cons.mp hT).1) w
  split_ifs with hadded
  · exact hfirst
  · rw [if_neg hadded] at hT
    have htail := hfirst.trans (moves_of_replies (fallbackTail_replies (L := L) seed (round S w seed)))
    cases hsome : (fallbackTail S L seed (round S w seed)).1 with
    | none => exact htail
    | some tail =>
      rw [hsome] at hT
      have hstart := (List.forall_mem_cons.mp hT).2 (_, tail) List.mem_cons_self
      exact htail.trans (round_moves hstart _)

/-- **The main loop** moves, with its own starts. -/
theorem foldl_walkSeed_moves {w : Walk} {seeds : List String} (hT : ∀ r ∈ rounds S L w seeds, r.2 ∈ T) :
    ReflTransGen (Move S T) w (seeds.foldl (walkSeed S L) w) := by
  induction seeds generalizing w with
  | nil => exact .refl
  | cons seed seeds ih =>
    obtain ⟨hseed, hrest⟩ := List.forall_mem_append.mp hT
    exact (walkSeed_moves hseed).trans (ih hrest)

end Moves

/-! ### What is recorded -/

section Record

variable {rel : Relation} {name : String} {role : Role} {depth : ℤ} {w : Walk}

theorem Walk.addEdge_cases (w : Walk) (e : SubgraphEdge) :
    (w.addEdge e = w ∧ (¬ e.Proper ∨ ∃ e' ∈ w.edges, e'.key = e.key)) ∨
    (w.addEdge e = { w with truncated := true }) ∨
    (w.addEdge e = { w with edges := w.edges ++ [e] } ∧ e.Proper ∧ ∀ e' ∈ w.edges, e'.key ≠ e.key) := by
  unfold addEdge
  split_ifs with himproper hkey hfull
  · refine .inl ⟨rfl, .inl ?_⟩
    rintro ⟨hfrom, hto, hne⟩
    rcases himproper with h | h | h
    · exact hfrom h
    · exact hto h
    · exact hne h
  · obtain ⟨e', he', hsame⟩ := List.any_eq_true.mp hkey
    exact .inl ⟨rfl, .inr ⟨e', he', of_decide_eq_true hsame⟩⟩
  · exact .inr (.inl rfl)
  · push Not at himproper
    refine .inr (.inr ⟨rfl, himproper, fun e' he' hsame => hkey ?_⟩)
    exact List.any_eq_true.mpr ⟨e', he', decide_eq_true hsame⟩

/-- Edges are told apart by their keys. -/
def Walk.Keyed (w : Walk) : Prop := ∀ e ∈ w.edges, ∀ e' ∈ w.edges, e.key = e'.key → e = e'

/-- What one walk has, a later one has too. -/
structure Walk.Le (w w' : Walk) : Prop where
  names : w.names ⊆ w'.names
  edges : w.edges ⊆ w'.edges
  flag : w.truncated = true → w'.truncated = true

theorem Walk.Le.trans {w w' w'' : Walk} (h : w.Le w') (h' : w'.Le w'') : w.Le w'' :=
  ⟨fun _ hn => h'.names (h.names hn), fun _ he => h'.edges (h.edges he), fun hw => h'.flag (h.flag hw)⟩

/-- The effect of recording the edges of an answer: what is new comes from them, and while the flag is down all
of them are there, up to their keys. -/
structure TakesIn (rel : Relation) (name : String) (es : List CallEdge) (w w' : Walk) : Prop where
  le : w.Le w'
  log : w'.log = w.log
  keyed : w.Keyed → w'.Keyed
  edges_from : ∀ c ∈ w'.edges, c ∈ w.edges ∨ c.Proper ∧ ∃ e ∈ es, rel.recorded name e = c
  names_kept : w'.truncated = false → ∀ e ∈ es, rel.filed e ∈ w'.names
  edges_kept : w'.truncated = false → ∀ e ∈ es, (rel.recorded name e).Proper →
    ∃ c ∈ w'.edges, c.key = (rel.recorded name e).key

theorem eq_false_of_flag {w w' : Walk} (h : w.Le w') (hw' : w'.truncated = false) : w.truncated = false := by
  cases hw : w.truncated with
  | false => rfl
  | true => exact absurd (h.flag hw) (by rw [hw']; decide)

theorem TakesIn.nil (rel : Relation) (name : String) (w : Walk) : TakesIn rel name [] w w where
  le := ⟨fun _ h => h, fun _ h => h, fun h => h⟩
  log := rfl
  keyed := fun h => h
  edges_from := fun _ h => .inl h
  names_kept := fun _ _ h => absurd h List.not_mem_nil
  edges_kept := fun _ _ h => absurd h List.not_mem_nil

theorem TakesIn.append {es es' : List CallEdge} {w w' w'' : Walk} (h : TakesIn rel name es w w')
    (h' : TakesIn rel name es' w' w'') : TakesIn rel name (es ++ es') w w'' where
  le := h.le.trans h'.le
  log := h'.log.trans h.log
  keyed := fun hw => h'.keyed (h.keyed hw)
  edges_from := fun c hc => by
    rcases h'.edges_from c hc with hc | ⟨hproper, e, he, hrec⟩
    · rcases h.edges_from c hc with hc | ⟨hproper, e, he, hrec⟩
      · exact .inl hc
      · exact .inr ⟨hproper, e, List.mem_append_left _ he, hrec⟩
    · exact .inr ⟨hproper, e, List.mem_append_right _ he, hrec⟩
  names_kept := fun hflag => List.forall_mem_append.mpr
    ⟨fun e he => h'.le.names (h.names_kept (eq_false_of_flag h'.le hflag) e he), h'.names_kept hflag⟩
  edges_kept := fun hflag => List.forall_mem_append.mpr
    ⟨fun e he hproper => by
      obtain ⟨c, hc, hkey⟩ := h.edges_kept (eq_false_of_flag h'.le hflag) e he hproper
      exact ⟨c, h'.le.edges hc, hkey⟩, h'.edges_kept hflag⟩

/-- A node on the map, as far as names go. -/
theorem upsertNode_takes {name : String} (file : String) (hname : name ≠ "") (role : Role) (depth : ℤ) (w : Walk) :
    w.Le (w.upsertNode name file role depth).1 ∧ (w.upsertNode name file role depth).1.edges = w.edges ∧
      ((w.upsertNode name file role depth).1.truncated = false →
        name ∈ (w.upsertNode name file role depth).1.names) := by
  obtain ⟨h, hold⟩ | ⟨h, -⟩ | ⟨h, -⟩ := w.upsertNode_cases name file role depth
  · -- the node is there, or there is no room for it, or it is put behind the others
    rw [h]
    refine ⟨⟨fun _ h => h, fun _ h => h, fun h => h⟩, rfl, fun _ => ?_⟩
    exact Walk.has_iff.mp (hold.resolve_left hname)
  · rw [h]
    exact ⟨⟨fun _ h => h, fun _ h => h, fun _ => rfl⟩, rfl, fun hflag => absurd hflag (by simp)⟩
  · have hnames : (w.upsertNode name file role depth).1.names = w.names ++ [name] := by
      rw [h]
      exact List.map_append
    rw [hnames]
    refine ⟨⟨?_, ?_, ?_⟩, by rw [h], fun _ => List.mem_append_right _ List.mem_cons_self⟩
    · rw [hnames]
      exact fun n hn => List.mem_append_left _ hn
    · rw [h]
      exact fun _ he => he
    · rw [h]
      exact fun hw => hw

/-- An edge, as far as keys go. -/
theorem addEdge_takes (w : Walk) (e : SubgraphEdge) :
    w.Le (w.addEdge e) ∧ (w.Keyed → (w.addEdge e).Keyed) ∧
      (∀ c ∈ (w.addEdge e).edges, c ∈ w.edges ∨ c.Proper ∧ c = e) ∧
      ((w.addEdge e).truncated = false → e.Proper → ∃ c ∈ (w.addEdge e).edges, c.key = e.key) := by
  obtain ⟨h, hold⟩ | h | ⟨h, hproper, hnew⟩ := w.addEdge_cases e
  · rw [h]
    exact ⟨⟨fun _ h => h, fun _ h => h, fun h => h⟩, fun hw => hw, fun c hc => .inl hc,
      fun _ hproper => hold.resolve_left fun himproper => himproper hproper⟩
  · rw [h]
    exact ⟨⟨fun _ h => h, fun _ h => h, fun _ => rfl⟩, fun hw => hw, fun c hc => .inl hc,
      fun hflag => absurd hflag (by simp)⟩
  · rw [h]
    have hle : w.Le { w with edges := w.edges ++ [e] } :=
      ⟨fun _ h => h, fun _ hc => List.mem_append_left _ hc, fun h => h⟩
    refine ⟨hle, fun hw => ?_, fun c hc => ?_, fun _ _ => ?_⟩
    · -- the key of the new edge is new
      intro c hc c' hc' hkey
      rcases List.mem_append.mp hc with hc | hc
      · rcases List.mem_append.mp hc' with hc' | hc'
        · exact hw c hc c' hc' hkey
        · rw [List.mem_singleton.mp hc'] at hkey
          exact absurd hkey (hnew c hc)
      · rcases List.mem_append.mp hc' with hc' | hc'
        · rw [List.mem_singleton.mp hc] at hkey
          exact absurd hkey.symm (hnew c' hc')
        · rw [List.mem_singleton.mp hc, List.mem_singleton.mp hc']
    · refine (List.mem_append.mp hc).imp id fun hc => ?_
      rw [List.mem_singleton.mp hc]
      exact ⟨hproper, rfl⟩
    · exact ⟨e, List.mem_append_right _ List.mem_cons_self, rfl⟩

theorem takesIn_edge {e : CallEdge} (he : rel.filed e ≠ "") (name : String) (role : Role) (depth : ℤ) (w : Walk) :
    TakesIn rel name [e] w ((w.upsertNode (rel.filed e) e.filePath role depth).1.addEdge (rel.recorded name e)) := by
  obtain ⟨hle, hedges, hkept⟩ := upsertNode_takes e.filePath he role depth w
  obtain ⟨hle', hkeyed, hedges', hkept'⟩ :=
    addEdge_takes (w.upsertNode (rel.filed e) e.filePath role depth).1 (rel.recorded name e)
  have hnodes := Walk.addEdge_nodes (w.upsertNode (rel.filed e) e.filePath role depth).1 (rel.recorded name e)
  -- an edge adds no node
  have hsame : ((w.upsertNode (rel.filed e) e.filePath role depth).1.addEdge (rel.recorded name e)).names =
      (w.upsertNode (rel.filed e) e.filePath role depth).1.names := by
    unfold Walk.names
    rw [hnodes]
  refine ⟨hle.trans hle', ?_, fun hw => hkeyed ?_, fun c hc => ?_, fun hflag => ?_, fun hflag => ?_⟩
  · rw [Walk.addEdge_log, Walk.upsertNode_log]
  · unfold Walk.Keyed
    rw [hedges]
    exact hw
  · -- an edge of the new walk is an old one, or the one that was recorded
    rcases hedges' c hc with hc | ⟨hproper, hc⟩
    · exact .inl (hedges ▸ hc)
    · exact .inr ⟨hproper, e, List.mem_cons_self, hc.symm⟩
  · exact List.forall_mem_singleton.mpr (hsame ▸ hkept (eq_false_of_flag hle' hflag))
  · exact List.forall_mem_singleton.mpr (hkept' hflag)

theorem takesIn_recordEdges {es : List CallEdge} (hes : ∀ e ∈ es, rel.filed e ≠ "") (name : String) (role : Role)
    (depth : ℤ) (w : Walk) : TakesIn rel name es w (recordEdges rel name role depth es w) := by
  induction es generalizing w with
  | nil => exact TakesIn.nil rel name w
  | cons e es ih =>
    obtain ⟨he, hes⟩ := List.forall_mem_cons.mp hes
    exact (takesIn_edge he name role depth w).append (ih hes _)

end Record

/-! ### The invariant -/

section Kept

variable {S : Sidecar} {T : Set String} {w w' : Walk}

/-- An edge in the answer to a query of the log. -/
def Reported (S : Sidecar) (log : List Query) (rel : Relation) (name : String) (e : CallEdge) : Prop :=
  ∃ i es, log[i]? = some (.edges rel name) ∧ S.answer i rel name = some es ∧ e ∈ graphEdges es

theorem reported_snoc {log : List Query} {q : Query} {rel : Relation} {name : String} {e : CallEdge} :
    Reported S (log ++ [q]) rel name e ↔ Reported S log rel name e ∨
      q = .edges rel name ∧ ∃ es, S.answer log.length rel name = some es ∧ e ∈ graphEdges es := by
  constructor
  · rintro ⟨i, es, hi, hanswer, he⟩
    -- the report was made before, or by the query that was just answered
    by_cases hlt : i < log.length
    · rw [List.getElem?_append_left hlt] at hi
      exact .inl ⟨i, es, hi, hanswer, he⟩
    · rw [List.getElem?_append_right (not_lt.mp hlt), List.getElem?_singleton] at hi
      split_ifs at hi with hzero
      have hlast : i = log.length := by omega
      subst hlast
      exact .inr ⟨Option.some.inj hi, es, hanswer, he⟩
  · rintro (⟨i, es, hi, hanswer, he⟩ | ⟨rfl, es, hanswer, he⟩)
    · have hlt : i < log.length := by
        by_contra hge
        rw [List.getElem?_eq_none (not_lt.mp hge)] at hi
        exact absurd hi (by simp)
      exact ⟨i, es, by rw [List.getElem?_append_left hlt, hi], hanswer, he⟩
    · refine ⟨log.length, es, ?_, hanswer, he⟩
      rw [List.getElem?_append_right le_rfl, Nat.sub_self]
      rfl

/-- What a walk keeps of the answers. -/
structure Kept (S : Sidecar) (T : Set String) (w : Walk) : Prop where
  keyed : w.Keyed
  asked_starts : ∀ rel name, .edges rel name ∈ w.log → rel ∈ auxRelations → name ∈ T
  edges_from : ∀ c ∈ w.edges, c.Proper ∧ ∃ rel name e, Reported S w.log rel name e ∧ rel.recorded name e = c
  names_kept : w.truncated = false → ∀ rel name e, Reported S w.log rel name e → rel.filed e ∈ w.names
  edges_kept : w.truncated = false → ∀ rel name e, Reported S w.log rel name e → (rel.recorded name e).Proper →
    ∃ c ∈ w.edges, c.key = (rel.recorded name e).key

theorem kept_empty (S : Sidecar) (T : Set String) : Kept S T .empty := by
  have hnone : ∀ {rel name e}, ¬ Reported S [] rel name e := by
    rintro rel name e ⟨i, es, hi, -⟩
    exact absurd hi (by simp)
  exact ⟨fun _ h => absurd h List.not_mem_nil, fun _ _ h => absurd h List.not_mem_nil,
    fun _ h => absurd h List.not_mem_nil, fun _ _ _ _ h => absurd h hnone, fun _ _ _ _ h => absurd h hnone⟩

/-- A log that reports no more changes nothing. -/
theorem Kept.of_log (h : Kept S T w) {log : List Query}
    (hasked : ∀ rel name, .edges rel name ∈ log → rel ∈ auxRelations → name ∈ T)
    (hlog : ∀ rel name e, Reported S log rel name e ↔ Reported S w.log rel name e) :
    Kept S T { w with log := log } := by
  refine ⟨h.keyed, hasked, fun c hc => ?_, fun hflag rel name e hrep => ?_, fun hflag rel name e hrep => ?_⟩
  · obtain ⟨hproper, rel, name, e, hrep, hrec⟩ := h.edges_from c hc
    exact ⟨hproper, rel, name, e, (hlog rel name e).mpr hrep, hrec⟩
  · exact h.names_kept hflag rel name e ((hlog rel name e).mp hrep)
  · exact h.edges_kept hflag rel name e ((hlog rel name e).mp hrep)

/-- One more query. -/
theorem Kept.asked_snoc (h : Kept S T w) {rel : Relation} {name : String} (hstart : rel ∈ auxRelations → name ∈ T) :
    ∀ rel' name', .edges rel' name' ∈ w.log ++ [.edges rel name] → rel' ∈ auxRelations → name' ∈ T := by
  intro rel' name' hmem haux
  rcases List.mem_append.mp hmem with hmem | hmem
  · exact h.asked_starts rel' name' hmem haux
  · injection List.mem_singleton.mp hmem with hrel hname
    subst hrel hname
    exact hstart haux

/-- An answer that is taken in. -/
theorem Kept.takesIn (h : Kept S T w) {rel : Relation} {name : String} {es : List CallEdge}
    (hstart : rel ∈ auxRelations → name ∈ T) (hanswer : S.answer w.log.length rel name = some es)
    (htakes : TakesIn rel name (graphEdges es) { w with log := w.log ++ [.edges rel name] } w') : Kept S T w' := by
  have hle : w.Le w' := ⟨htakes.le.names, htakes.le.edges, htakes.le.flag⟩
  -- the new answer is the one that was taken, and the old reports stay
  have hnew : ∀ {e}, e ∈ graphEdges es → Reported S w'.log rel name e := by
    intro e he
    rw [htakes.log]
    exact reported_snoc.mpr (.inr ⟨rfl, es, hanswer, he⟩)
  have hold : ∀ {rel' name' e}, Reported S w.log rel' name' e → Reported S w'.log rel' name' e := by
    intro rel' name' e hrep
    rw [htakes.log]
    exact reported_snoc.mpr (.inl hrep)
  -- what is reported now was reported before, or is in the new answer
  have hcases : ∀ {rel' name' e}, Reported S w'.log rel' name' e →
      Reported S w.log rel' name' e ∨ (rel' = rel ∧ name' = name ∧ e ∈ graphEdges es) := by
    intro rel' name' e hrep
    rw [htakes.log] at hrep
    rcases reported_snoc.mp hrep with hrep | ⟨hquery, es', hanswer', he⟩
    · exact .inl hrep
    · injection hquery with hrel hname
      subst hrel hname
      rw [hanswer] at hanswer'
      exact .inr ⟨rfl, rfl, Option.some.inj hanswer' ▸ he⟩
  refine ⟨htakes.keyed h.keyed, ?_, fun c hc => ?_, fun hflag rel' name' e hrep => ?_,
    fun hflag rel' name' e hrep hproper => ?_⟩
  · rw [htakes.log]
    exact h.asked_snoc hstart
  · rcases htakes.edges_from c hc with hc | ⟨hproper, e, he, hrec⟩
    · obtain ⟨hproper, rel', name', e, hrep, hrec⟩ := h.edges_from c hc
      exact ⟨hproper, rel', name', e, hold hrep, hrec⟩
    · exact ⟨hproper, rel, name, e, hnew he, hrec⟩
  · rcases hcases hrep with hrep | ⟨rfl, rfl, he⟩
    · exact hle.names (h.names_kept (eq_false_of_flag hle hflag) rel' name' e hrep)
    · exact htakes.names_kept hflag e he
  · rcases hcases hrep with hrep | ⟨rfl, rfl, he⟩
    · obtain ⟨c, hc, hkey⟩ := h.edges_kept (eq_false_of_flag hle hflag) rel' name' e hrep hproper
      exact ⟨c, hle.edges hc, hkey⟩
    · exact htakes.edges_kept hflag e he hproper

/-- **A move** keeps it. -/
theorem Kept.move (h : Kept S T w) (hmove : Move S T w w') : Kept S T w' := by
  cases hmove with
  | flag =>
    -- a raised flag leaves nothing to keep
    exact ⟨h.keyed, h.asked_starts, h.edges_from, fun hflag => absurd hflag (by simp),
      fun hflag => absurd hflag (by simp)⟩
  | seed name =>
    by_cases hempty : name = ""
    · have hsame : (w.upsertNode name "" .seed 0).1 = w := by
        unfold Walk.upsertNode
        rw [if_pos hempty]
      rw [hsame]
      exact h
    · -- the seed adds a node, and neither an edge nor a report
      obtain ⟨hle, hedges, -⟩ := upsertNode_takes "" hempty .seed 0 w
      have hlog := w.upsertNode_log name "" .seed 0
      refine ⟨?_, hlog ▸ h.asked_starts, ?_, fun hflag => ?_, fun hflag => ?_⟩
      · unfold Walk.Keyed
        rw [hedges]
        exact h.keyed
      · rw [hedges, hlog]
        exact h.edges_from
      · rw [hlog]
        exact fun rel name e hrep => hle.names (h.names_kept (eq_false_of_flag hle hflag) rel name e hrep)
      · rw [hedges, hlog]
        exact h.edges_kept (eq_false_of_flag hle hflag)
  | hits term =>
    -- a search for hits is no query for edges
    refine h.of_log (fun rel name hmem haux => ?_) fun rel name e => reported_snoc.trans (or_iff_left ?_)
    · rcases List.mem_append.mp hmem with hmem | hmem
      · exact h.asked_starts rel name hmem haux
      · exact absurd (List.mem_singleton.mp hmem) (by simp)
    · rintro ⟨hquery, -⟩
      exact absurd hquery (by simp)
  | fail hstart hanswer =>
    -- a failed query reports nothing
    refine h.of_log (h.asked_snoc hstart) fun rel name e => reported_snoc.trans (or_iff_left ?_)
    rintro ⟨hquery, es, hes, -⟩
    injection hquery with hrel hname
    subst hrel hname
    rw [hanswer] at hes
    exact absurd hes (by simp)
  | record role depth hstart hanswer =>
    exact h.takesIn hstart hanswer
      (takesIn_recordEdges (fun _ he => ne_empty_of_mem_graphEdges he) _ role depth _)

/-- **Runs** keep it. -/
theorem Kept.moves (h : Kept S T w) (hmoves : ReflTransGen (Move S T) w w') : Kept S T w' := by
  induction hmoves with
  | refl => exact h
  | tail _ hlast ih => exact ih.move hlast

end Kept

end Devrouter.Codegraph
