import Devrouter.Memory.Keyspace

/-!
# Loading overlays

Model of `LoadFlowOverlay` and `LoadAllFlowOverlays` in `internal/memory/store.go`: one overlay by the repo and the
name of its flow, and all overlays of a keyspace by a `SCAN` of their keys. The bulk load reads the repo and the
name back from the key. There the name is the sanitised one, and the repo ends at its first colon.

The loads only read, so they are functions of the server. `Overlays` is what a run of saves and events makes of the
overlay keys: each belongs to a flow that had an event. `loadAllFlowOverlays_filter` is the part of the bulk load
with one repo and name, and `bulk_agrees` the comparison with the single load after any run.
-/

open Prog

namespace Devrouter.Memory

variable {F : Type}

/-! ### Parsing an overlay -/

/-- The useful and dead counters of a file. -/
structure FlowFileStat where
  useful : Int
  dead : Int
  deriving DecidableEq, Repr

/-- The feedback on a flow. A map is a function of its keys. -/
structure FlowOverlay where
  repo : String
  name : String
  files : String → Option FlowFileStat
  missing : String → Option Int
  totalFeedback : Int
  lastFeedbackAt : Int
  lastQueryID : String

/-- The overlay of a flow without feedback. -/
def FlowOverlay.neutral (repo name : String) : FlowOverlay := ⟨repo, name, fun _ => none, fun _ => none, 0, 0, ""⟩

/-- `strconv.Atoi` of a field; 0 when it is missing or no number. -/
def Hash.atoi (h : Hash F) (field : String) : Int :=
  match h field with
  | some (.int n) => n
  | some (.text s) => (Devrouter.atoi s).getD 0
  | _ => 0

/-- `parseFlowOverlay`. -/
def parseFlowOverlay (repo name : String) (fields : Hash F) : FlowOverlay where
  repo := repo
  name := name
  files path :=
    -- a file that was never marked is not in the map
    if (fields ("file_useful:" ++ path)).isSome || (fields ("file_dead:" ++ path)).isSome then
      some ⟨fields.atoi ("file_useful:" ++ path), fields.atoi ("file_dead:" ++ path)⟩
    else none
  missing path :=
    if (fields ("missing:" ++ path)).isSome then some (fields.atoi ("missing:" ++ path)) else none
  totalFeedback := fields.atoi "total_feedback"
  lastFeedbackAt := fields.atoi "last_feedback_at"
  lastQueryID := fields.text "last_query_id"

/-- The fields `HGETALL` answers, unless there are none: a key without fields is not stored. -/
def Server.fieldsAt (s : Server F) (key : String) : Option (Hash F) :=
  match s.keys.lookup key with
  | some (.hash h) => some h
  | _ => none

/-! ### The loads -/

variable (K : Keyspace)

/-- `LoadFlowOverlay`. -/
def loadFlowOverlay (s : Server F) (repo name : String) : FlowOverlay :=
  if repo = "" || name = "" then .neutral "" ""
  else
    match s.fieldsAt (flowOverlayKey K repo name) with
    | none => .neutral repo name
    | some fields => parseFlowOverlay repo name fields

/-- What the keys of the overlays start with. -/
def overlayPrefix : String := flowOverlayBase ++ K.str ++ ":"

/-- `strings.TrimPrefix`. -/
def trimPrefix (s p : String) : String :=
  if p.toList.isPrefixOf s.toList then String.ofList (s.toList.drop p.toList.length) else s

/-- The body of the loop of `LoadAllFlowOverlays`. -/
def loadKey (s : Server F) (k : String) : Option FlowOverlay := do
  let rest := trimPrefix k (overlayPrefix K)
  let (repo, name) ← rest.cutAt ':'
  let fields ← s.fieldsAt k
  return parseFlowOverlay repo name fields

/-- `LoadAllFlowOverlays`. The pages are what the calls of `SCAN` answer, up to the last one. -/
def loadAllFlowOverlays (pages : List (List String)) (s : Server F) : List FlowOverlay :=
  pages.flatMap fun keys => keys.filterMap (loadKey K s)

/-- The answers to a whole iteration of `SCAN` on a server that does not change: every key that matches, at least
once, and no other. -/
def Scans (s : Server F) (pattern : String) (pages : List (List String)) : Prop :=
  ∀ key, key ∈ pages.flatten ↔ key ∈ s.keys ∧ globMatch pattern.toList key.toList = true

/-! ### Keys -/

variable {K}

/-- A keyspace whose overlays have keys of their own: its name has no backslash, which a pattern takes for an
escape, and its memories do not start like overlays. -/
structure Keyspace.Plain (K : Keyspace) : Prop where
  no_backslash : '\\' ∉ K.str.toList
  ne_flow : K.str ≠ "flow"

theorem flowOverlayKey_eq (repo name : String) :
    flowOverlayKey K repo name = overlayPrefix K ++ (repo ++ ":" ++ sanitizeKey name) := by
  unfold flowOverlayKey overlayPrefix
  simp only [String.append_assoc]

theorem trimPrefix_append (p s : String) : trimPrefix (p ++ s) p = s := by
  have hpre : p.toList.isPrefixOf (p ++ s).toList = true := by
    rw [List.isPrefixOf_iff_prefix, String.toList_append]
    exact List.prefix_append _ _
  unfold trimPrefix
  rw [if_pos hpre, String.toList_append, List.drop_left, String.ofList_toList]

/-- A key is listed when it starts like an overlay. -/
theorem overlayPattern_matches (hK : K.Plain) (key : String) :
    globMatch (flowOverlayPattern K).toList key.toList = true ↔ ∃ rest, key = overlayPrefix K ++ rest := by
  have hsplit : (flowOverlayPattern K).toList = (overlayPrefix K).toList ++ ['*'] := by
    simp [flowOverlayPattern, overlayPrefix]
  have hliteral : ∀ c ∈ (overlayPrefix K).toList, Literal c := overlay_literal hK.no_backslash
  rw [hsplit, globMatch_append hliteral]
  constructor
  · rintro ⟨t, ht, -⟩
    refine ⟨String.ofList t, ?_⟩
    rw [← String.toList_inj, String.toList_append, String.toList_ofList]
    exact ht
  · rintro ⟨rest, rfl⟩
    exact ⟨rest.toList, String.toList_append, globMatch_star _⟩

/-- A memory is not stored under such a key. -/
theorem key_ne_overlay (hK : K.Plain) (repo : String) (i : Ident) (rest : String) :
    i.key K repo ≠ overlayPrefix K ++ rest := by
  intro h
  have hcolon : ':' ∉ K.str.toList := K.not_mem (by simp)
  have hlist := congrArg String.toList h
  rw [i.key_eq] at hlist
  have hsep : K.str.toList ++ ':' :: (repo ++ ":" ++ i.kind ++ ":" ++ sanitizeKey i.text).toList
      = "flow".toList ++ ':' :: ("overlay:" ++ K.str ++ ":" ++ rest).toList := by
    simpa [keyPrefix, overlayPrefix, flowOverlayBase] using hlist
  have hstr := ((List.append_sep_inj hcolon (by decide)).mp hsep).1
  exact hK.ne_flow (String.toList_inj.mp hstr)

/-! ### What a run makes of the overlay keys -/

variable (lower : Char → Char)

/-- The flow of an event that is carried out. -/
def OverlayOp.flow (K : Keyspace) (s : Server F) : OverlayOp F → List (String × String)
  | .update repo name _ _ => if s.Accepts K repo name then [(repo, name)] else []
  | .save _ _ => []

/-- The flows with an event that was carried out, along a run. -/
def flowsWithFeedback (K : Keyspace) : Server F → List (OverlayOp F) → List (String × String)
  | _, [] => []
  | s, op :: ops => op.flow K s ++ flowsWithFeedback K (op.apply lower K s) ops

/-- **The overlay keys**: each holds the overlay of one of the flows. -/
structure Overlays (K : Keyspace) (s : Server F) (flows : List (String × String)) : Prop where
  named : ∀ r n, (r, n) ∈ flows → r ≠ "" ∧ n ≠ ""
  stored : ∀ r n, (r, n) ∈ flows → (s.fieldsAt (flowOverlayKey K r n)).isSome = true
  only : ∀ rest, overlayPrefix K ++ rest ∈ s.keys →
    ∃ r n, (r, n) ∈ flows ∧ overlayPrefix K ++ rest = flowOverlayKey K r n

namespace Server

variable {s t : Server F} {key : String}

theorem fieldsAt_congr (h : t.keys.lookup key = s.keys.lookup key) : t.fieldsAt key = s.fieldsAt key := by
  unfold fieldsAt
  rw [h]

/-- A hash with a field is stored. -/
theorem fieldsAt_of_hashAt {h : Hash F} (hh : s.hashAt key = some h) {field : String} (hf : h field ≠ none) :
    s.fieldsAt key = some h := by
  unfold hashAt at hh
  unfold fieldsAt
  split at hh
  · cases hh
    exact absurd rfl hf
  · rename_i h' hlookup
    rw [hlookup]
    exact hh
  · exact nomatch hh

theorem hashAt_of_fieldsAt {h : Hash F} (hh : s.fieldsAt key = some h) : s.hashAt key = some h := by
  unfold fieldsAt at hh
  unfold hashAt
  split at hh
  · rename_i h' hlookup
    rw [hlookup]
    exact hh
  · exact nomatch hh

theorem mem_keys_of_fieldsAt (h : (s.fieldsAt key).isSome = true) : key ∈ s.keys := by
  unfold fieldsAt at h
  split at h
  · rename_i h' hlookup
    exact AList.lookup_isSome.mp (by rw [hlookup]; rfl)
  · exact nomatch h

end Server

namespace Overlays

variable {lower} {s : Server F} {flows : List (String × String)}

theorem empty : Overlays K (Server.empty F) [] where
  named _ _ h := absurd h List.not_mem_nil
  stored _ _ h := absurd h List.not_mem_nil
  only _ h := absurd h (AList.notMem_empty _)

/-- Nothing but overlays is under the overlay keys. -/
theorem hashAt (h : Overlays K s flows) (rest : String) :
    ∃ fields, s.hashAt (overlayPrefix K ++ rest) = some fields := by
  by_cases hmem : overlayPrefix K ++ rest ∈ s.keys
  · obtain ⟨r, n, hflow, hkey⟩ := h.only rest hmem
    obtain ⟨fields, hfields⟩ := Option.isSome_iff_exists.mp (h.stored r n hflow)
    rw [hkey]
    exact ⟨fields, Server.hashAt_of_fieldsAt hfields⟩
  · refine ⟨fun _ => none, ?_⟩
    unfold Server.hashAt
    rw [AList.lookup_eq_none.mpr hmem]

/-- A step that leaves the overlay keys alone. -/
theorem of_same {t : Server F} (h : Overlays K s flows)
    (hsame : ∀ rest, t.keys.lookup (overlayPrefix K ++ rest) = s.keys.lookup (overlayPrefix K ++ rest)) :
    Overlays K t flows where
  named := h.named
  stored r n hflow := by
    rw [flowOverlayKey_eq, Server.fieldsAt_congr (hsame _), ← flowOverlayKey_eq]
    exact h.stored r n hflow
  only rest hmem := by
    rw [← AList.lookup_isSome, hsame, AList.lookup_isSome] at hmem
    exact h.only rest hmem

/-- An event that is carried out. -/
theorem event (h : Overlays K s flows) {repo name : String} (hacc : s.Accepts K repo name) (now : Int)
    (upd : FlowOverlayUpdate) :
    Overlays K ((updateFlowOverlay lower K now repo name upd).run s).2 (flows ++ [(repo, name)]) := by
  obtain ⟨hself, hne⟩ := updateFlowOverlay_run lower K now repo name upd s
  generalize ((updateFlowOverlay lower K now repo name upd).run s).2 = t at hself hne
  have hmem : ∀ r n, (r, n) ∈ flows ++ [(repo, name)] ↔ (r, n) ∈ flows ∨ (r, n) = (repo, name) := by
    intro r n
    rw [List.mem_append, List.mem_singleton]
  -- the overlay of the flow is there, with the scalars of the event
  have hstored : (t.fieldsAt (flowOverlayKey K repo name)).isSome = true := by
    obtain ⟨fields, hfields⟩ := h.hashAt (repo ++ ":" ++ sanitizeKey name)
    rw [← flowOverlayKey_eq] at hfields
    rw [if_pos hacc, hfields, Option.map_some] at hself
    have hquery : hsetFields ((upd.eventFields lower (s.flowFiles K repo name)).foldl incrHash fields)
        (scalars now upd) "last_query_id" ≠ none := by
      simp [hsetFields, scalars]
    rw [Server.fieldsAt_of_hashAt hself hquery]
    rfl
  refine ⟨fun r n hflow => ?_, fun r n hflow => ?_, fun rest hkey => ?_⟩
  · rcases (hmem r n).mp hflow with hold | hnew
    · exact h.named r n hold
    · cases hnew
      exact ⟨hacc.1, hacc.2.1⟩
  · by_cases heq : flowOverlayKey K r n = flowOverlayKey K repo name
    · rw [heq]
      exact hstored
    · rcases (hmem r n).mp hflow with hold | hnew
      · rw [Server.fieldsAt_congr (hne _ heq)]
        exact h.stored r n hold
      · cases hnew
        exact absurd rfl heq
  · by_cases heq : overlayPrefix K ++ rest = flowOverlayKey K repo name
    · exact ⟨repo, name, (hmem _ _).mpr (.inr rfl), heq⟩
    · rw [← AList.lookup_isSome, hne _ heq, AList.lookup_isSome] at hkey
      obtain ⟨r, n, hflow, hrn⟩ := h.only rest hkey
      exact ⟨r, n, (hmem r n).mpr (.inl hflow), hrn⟩

/-- A run of saves and events. -/
theorem run (hK : K.Plain) {ops : List (OverlayOp F)} {t : Server F} (h : Overlays K s flows)
    (hrun : (overlayRuns lower K).exec s ops = some t) :
    Overlays K t (flows ++ flowsWithFeedback lower K s ops) := by
  induction ops generalizing s flows with
  | nil =>
    obtain rfl := Option.some.inj hrun
    rw [flowsWithFeedback, List.append_nil]
    exact h
  | cons op ops ih =>
    have hrest : (overlayRuns lower K).exec (op.apply lower K s) ops = some t := hrun
    rw [flowsWithFeedback, ← List.append_assoc]
    refine ih ?_ hrest
    cases op with
    | update repo name upd now =>
      -- an update adds its flow when the server accepts it, and changes nothing otherwise
      by_cases hacc : s.Accepts K repo name
      · have hflow : OverlayOp.flow K s (.update repo name upd now) = [(repo, name)] := if_pos hacc
        rw [hflow]
        exact h.event hacc now upd
      · have hflow : OverlayOp.flow K s (.update repo name upd now) = [] := if_neg hacc
        rw [hflow, List.append_nil]
        have hsame : OverlayOp.apply lower K s (.update repo name upd now) = s :=
          updateFlowOverlay_refused lower hacc now upd
        rw [hsame]
        exact h
    | save env m =>
      -- a save writes a memory's key, which is no overlay's
      rw [OverlayOp.flow, List.append_nil]
      refine h.of_same fun rest => m.save_frame env K s fun heq => ?_
      exact key_ne_overlay hK _ _ rest ((Save.key_eq K (.record m)).symm.trans heq.symm)

end Overlays

/-! ### The bulk load -/

section Bulk

variable {s : Server F} {pages : List (List String)}

theorem loadAllFlowOverlays_eq : loadAllFlowOverlays K pages s = pages.flatten.filterMap (loadKey K s) := by
  unfold loadAllFlowOverlays
  rw [List.filterMap_flatten, List.flatMap_def]

/-- What a listed key gives: the repo ends at the first colon. -/
theorem loadKey_eq_some_iff {rest : String} {ov : FlowOverlay} :
    loadKey K s (overlayPrefix K ++ rest) = some ov ↔
      ∃ repo name fields, ':' ∉ repo.toList ∧ rest = repo ++ ":" ++ name ∧
        s.fieldsAt (overlayPrefix K ++ rest) = some fields ∧ ov = parseFlowOverlay repo name fields := by
  have hsep : (":" : String).toList = [':'] := rfl
  unfold loadKey
  simp only [trimPrefix_append, Option.bind_eq_bind, Option.bind_eq_some_iff, Option.pure_def, Option.some.injEq]
  constructor
  · rintro ⟨⟨repo, name⟩, hcut, fields, hfields, rfl⟩
    obtain ⟨hcolon, hrest⟩ := (String.cutAt_eq_some_iff hsep).mp hcut
    exact ⟨repo, name, fields, hcolon, hrest, hfields, rfl⟩
  · rintro ⟨repo, name, fields, hcolon, hrest, hfields, rfl⟩
    exact ⟨(repo, name), (String.cutAt_eq_some_iff hsep).mpr ⟨hcolon, hrest⟩, fields, hfields, rfl⟩

/-- The single load of a flow whose overlay is stored. -/
theorem loadFlowOverlay_of_stored {r n : String} (hr : r ≠ "") (hn : n ≠ "") {fields : Hash F}
    (h : s.fieldsAt (flowOverlayKey K r n) = some fields) :
    loadFlowOverlay K s r n = parseFlowOverlay r n fields := by
  unfold loadFlowOverlay
  rw [if_neg (by simp [hr, hn]), h]

/-- The elements that come from one place of a list. -/
theorem filter_filterMap_eq_replicate {α β : Type} [DecidableEq α] {f : α → Option β} {p : β → Bool} {a : α} {b : β}
    {l : List α} (ha : f a = some b) (hb : p b = true)
    (hother : ∀ c ∈ l, ∀ d, f c = some d → p d = true → c = a) :
    (l.filterMap f).filter p = List.replicate (l.count a) b := by
  induction l with
  | nil => rfl
  | cons c l ih =>
    have hrest := ih fun c hc => hother c (List.mem_cons_of_mem _ hc)
    by_cases hc : c = a
    · subst hc
      rw [List.filterMap_cons_some ha, List.filter_cons_of_pos hb, hrest, List.count_cons_self, List.replicate_succ]
    · rw [List.count_cons_of_ne hc]
      cases hf : f c with
      | none => rw [List.filterMap_cons_none hf, hrest]
      | some d =>
        have hd : ¬ p d = true := fun hd => hc (hother c List.mem_cons_self d hf hd)
        rw [List.filterMap_cons_some hf, List.filter_cons_of_neg hd, hrest]

/-- The name an entry of the bulk load has: the repo, and the sanitised name. -/
def FlowOverlay.Named (r n : String) (ov : FlowOverlay) : Prop := ov.repo = r ∧ ov.name = sanitizeKey n

instance (r n : String) (ov : FlowOverlay) : Decidable (ov.Named r n) := inferInstanceAs (Decidable (_ ∧ _))

/-- The counters of an overlay under another name. -/
def FlowOverlay.rename (ov : FlowOverlay) (repo name : String) : FlowOverlay := { ov with repo := repo, name := name }

variable {flows : List (String × String)}

/-- **The entries of one flow** in the bulk load, where its repo has no colon: its overlay under the sanitised name,
once for each time the key is listed. -/
theorem loadAllFlowOverlays_filter (hK : K.Plain) (h : Overlays K s flows)
    (hscan : Scans s (flowOverlayPattern K) pages) {r n : String} (hflow : (r, n) ∈ flows) (hcolon : ':' ∉ r.toList) :
    (loadAllFlowOverlays K pages s).filter (FlowOverlay.Named r n) =
      List.replicate (pages.flatten.count (flowOverlayKey K r n))
        ((loadFlowOverlay K s r n).rename r (sanitizeKey n)) := by
  obtain ⟨hr, hn⟩ := h.named r n hflow
  obtain ⟨fields, hfields⟩ := Option.isSome_iff_exists.mp (h.stored r n hflow)
  rw [loadFlowOverlay_of_stored hr hn hfields, loadAllFlowOverlays_eq]
  refine filter_filterMap_eq_replicate ?_ (decide_eq_true ⟨rfl, rfl⟩) fun key hkey ov hov hnamed => ?_
  · rw [flowOverlayKey_eq] at hfields ⊢
    exact loadKey_eq_some_iff.mpr ⟨r, sanitizeKey n, fields, hcolon, rfl, hfields, rfl⟩
  · -- an entry of that name comes from that key
    obtain ⟨rest, rfl⟩ := (overlayPattern_matches hK key).mp ((hscan key).mp hkey).2
    obtain ⟨r', n', fields', -, rfl, -, rfl⟩ := loadKey_eq_some_iff.mp hov
    obtain ⟨rfl, hname⟩ : r' = r ∧ n' = sanitizeKey n := of_decide_eq_true hnamed
    rw [flowOverlayKey_eq, hname]

/-- Every entry of the bulk load has the counters of a flow. -/
theorem exists_of_mem_loadAllFlowOverlays (hK : K.Plain) (h : Overlays K s flows)
    (hscan : Scans s (flowOverlayPattern K) pages) {ov : FlowOverlay} (hov : ov ∈ loadAllFlowOverlays K pages s) :
    ∃ r n, (r, n) ∈ flows ∧ ov = (loadFlowOverlay K s r n).rename ov.repo ov.name ∧
      (':' ∉ r.toList → ov.Named r n) := by
  have hsep : (":" : String).toList = [':'] := rfl
  rw [loadAllFlowOverlays_eq] at hov
  obtain ⟨key, hkey, hload⟩ := List.mem_filterMap.mp hov
  obtain ⟨hstored, hmatch⟩ := (hscan key).mp hkey
  obtain ⟨rest, rfl⟩ := (overlayPattern_matches hK key).mp hmatch
  obtain ⟨r, n, hflow, hrn⟩ := h.only rest hstored
  obtain ⟨hr, hn⟩ := h.named r n hflow
  obtain ⟨r', n', fields, hcolon', hrest, hfields, rfl⟩ := loadKey_eq_some_iff.mp hload
  refine ⟨r, n, hflow, ?_, fun hcolon => ?_⟩
  · rw [hrn] at hfields
    rw [loadFlowOverlay_of_stored hr hn hfields]
    rfl
  · rw [flowOverlayKey_eq, String.append_right_inj, hrest] at hrn
    exact (String.append_sep_inj hsep hcolon' hcolon).mp hrn

end Bulk

/-- **The bulk load and the single loads**, after any run of saves and events. The flow of an event that was carried
out has an overlay; where its repo has no colon the bulk load has it once for each time `SCAN` lists its key, under
the sanitised name and with the counters of the single load; and nothing else is in the bulk load. -/
theorem bulk_agrees (hK : K.Plain) {ops : List (OverlayOp F)} {t : Server F}
    (hrun : (overlayRuns lower K).exec (Server.empty F) ops = some t) {pages : List (List String)}
    (hscan : Scans t (flowOverlayPattern K) pages) :
    (∀ r n, (r, n) ∈ flowsWithFeedback lower K (Server.empty F) ops →
      0 < pages.flatten.count (flowOverlayKey K r n) ∧
      (':' ∉ r.toList →
        (loadAllFlowOverlays K pages t).filter (FlowOverlay.Named r n) =
          List.replicate (pages.flatten.count (flowOverlayKey K r n))
            ((loadFlowOverlay K t r n).rename r (sanitizeKey n)))) ∧
    ∀ ov ∈ loadAllFlowOverlays K pages t, ∃ r n,
      (r, n) ∈ flowsWithFeedback lower K (Server.empty F) ops ∧
        ov = (loadFlowOverlay K t r n).rename ov.repo ov.name ∧ (':' ∉ r.toList → ov.Named r n) := by
  -- what the run has stored is an overlay for each flow with feedback, and nothing else
  have h : Overlays K t (flowsWithFeedback lower K (Server.empty F) ops) := by
    have hall := Overlays.empty.run hK hrun
    rwa [List.nil_append] at hall
  refine ⟨fun r n hflow => ⟨?_, loadAllFlowOverlays_filter hK h hscan hflow⟩, fun ov hov => ?_⟩
  · have hkey := Server.mem_keys_of_fieldsAt (h.stored r n hflow)
    refine List.count_pos_iff.mpr ((hscan _).mpr ⟨hkey, ?_⟩)
    rw [overlayPattern_matches hK]
    exact ⟨_, flowOverlayKey_eq r n⟩
  · exact exists_of_mem_loadAllFlowOverlays hK h hscan hov

/-! ### One flow -/

/-- An iteration of `SCAN` with one page. -/
def onePage (s : Server F) (pattern : String) : List (List String) :=
  [s.keys.keys.filter fun k => globMatch pattern.toList k.toList]

theorem scans_onePage (s : Server F) (pattern : String) : Scans s pattern (onePage s pattern) := by
  intro key
  unfold onePage
  rw [List.flatten_singleton, List.mem_filter, AList.mem_keys]

/-- A flow is saved, and has one event. -/
def feedbackOnce (repo name : String) : List (OverlayOp ℕ) :=
  [.save .still (.flow { flowAt "a.go" "" with repo, name }), .update repo name (readA ["c.go"]) 0]

/-- The server after some steps of a store. -/
def afterSteps (K : Keyspace) (ops : List (OverlayOp ℕ)) : Server ℕ :=
  ops.foldl (OverlayOp.apply Char.toLower K) (Server.empty ℕ)

/-- The bulk load after that. -/
def bulkAfter (K : Keyspace) (ops : List (OverlayOp ℕ)) : List FlowOverlay :=
  let t := afterSteps K ops
  loadAllFlowOverlays K (onePage t (flowOverlayPattern K)) t

/-- The flow `user login` is found once, under its sanitised name and with its counters. -/
theorem bulk_user_login :
    (bulkAfter .mem (feedbackOnce "shop" "user login")).filter (FlowOverlay.Named "shop" "user login") =
      [(loadFlowOverlay .mem (afterSteps .mem (feedbackOnce "shop" "user login")) "shop" "user login").rename
        "shop" "user_login"] := by
  have hK : Keyspace.mem.Plain := ⟨by decide, by decide⟩
  obtain ⟨hflows, -⟩ := bulk_agrees Char.toLower hK
    (rfl : (overlayRuns Char.toLower .mem).exec (Server.empty ℕ) (feedbackOnce "shop" "user login")
      = some (afterSteps .mem (feedbackOnce "shop" "user login")))
    (scans_onePage _ _)
  obtain ⟨-, hfilter⟩ := hflows "shop" "user login" (by decide +kernel)
  exact hfilter (by decide)

/-- A keyspace whose memories can start like overlays. -/
def flowKeyspace : Keyspace := ⟨"flow", by decide, by decide⟩

/-- **Overlays that do not come back as they were written**: the bulk load has that of the flow `user login` under
another name, that of a repo with a colon under another repo, none of a keyspace with a backslash, and in the
keyspace `flow` one of a flow without an event. -/
theorem bulk_renames :
    (loadFlowOverlay .mem (afterSteps .mem (feedbackOnce "shop" "user login")) "shop" "user login").totalFeedback = 1 ∧
      (bulkAfter .mem (feedbackOnce "shop" "user login")).map (fun ov => (ov.repo, ov.name, ov.totalFeedback))
        = [("shop", "user_login", 1)] ∧
      (bulkAfter .mem (feedbackOnce "team:shop" "login")).map (fun ov => (ov.repo, ov.name, ov.totalFeedback))
        = [("team", "shop:login", 1)] ∧
      (loadFlowOverlay slashKeyspace (afterSteps slashKeyspace (feedbackOnce "shop" "login")) "shop"
        "login").totalFeedback = 1 ∧
      (bulkAfter slashKeyspace (feedbackOnce "shop" "login")).length = 0 ∧
      (bulkAfter flowKeyspace ((feedbackOnce "overlay:flow:shop" "login").take 1)).map
        (fun ov => (ov.repo, ov.name, ov.totalFeedback)) = [("shop", "flow:login", 0)] := by
  decide +kernel

end Devrouter.Memory
