import Devrouter.Lib.SliceSort
import Devrouter.Router.CallChain
import Devrouter.Router.Memories

/-!
# The memories that are shown

Model of `buildPrimaryContext` and `agentMemoryKeys` in `internal/router/router.go`, and of what becomes of the primary
context of an answer: the anchors go in front, and `trimResponse` cuts it off at the cap of the profile.

The keys that the trace of a query keeps are taken from all the memories, the primary context is cut off afterwards.
`labelledContext` is the primary context with the memory of each entry beside it; `shownKeys` are the keys of the
memories whose entries are left. `memoryKeys_shown_iff` says when the two agree. The order of the entries is that of
an unstable sort (`SliceSort`), and a summary is whatever `GenerateSummary` makes of a purpose.
-/

namespace Devrouter

/-! ### The primary context -/

structure PrimaryContextEntry (R : Type) where
  type : String
  name : String
  file : String
  summary : String
  details : String
  confidence : R
  stale : Bool

section Context

variable {R : Type} [Scores R] (summary : String → String)

def confidence (sim : R) (stale : Bool) : R :=
  let c := if sim < 0 then 0 else sim
  let c := if 1 < c then 1 else c
  if stale then c * 0.6 else c

def FileMemoryHit.entry (f : FileMemoryHit R) : PrimaryContextEntry R where
  type := "file"
  name := f.path
  file := f.path
  summary := summary f.purpose
  details := f.purpose
  confidence := Devrouter.confidence f.sim f.stale
  stale := f.stale

def FuncMemoryHit.entry (f : FuncMemoryHit R) : PrimaryContextEntry R where
  type := "func"
  name := f.name
  file := f.file
  summary := summary f.purpose
  details := f.purpose ++ (if f.callers ≠ "" then "\nCallers: " ++ f.callers else "") ++
    (if f.callees ≠ "" then "\nCallees: " ++ f.callees else "")
  confidence := Devrouter.confidence f.sim f.stale
  stale := f.stale

def FlowMemoryHit.entry (f : FlowMemoryHit R) : PrimaryContextEntry R where
  type := "flow"
  name := f.name
  file := ""
  summary := summary f.purpose
  details := f.purpose ++ (if f.files ≠ "" then "\nFiles: " ++ f.files else "") ++
    (if f.entryPoints ≠ "" then "\nEntry points: " ++ f.entryPoints else "")
  confidence := Devrouter.confidence f.sim f.stale
  stale := f.stale

def buildPrimaryContext (sortSlice : SliceSort R) (memRes : MemoryResults R) : List (PrimaryContextEntry R) :=
  match memRes.agent with
  | none => []
  | some a =>
    sortSlice.sortBy (·.confidence)
      (a.files.map (·.entry summary) ++ a.functions.map (·.entry summary) ++ a.flows.map (·.entry summary))

omit [Scores R] in
/-- `agentMemoryKeys`. -/
def MemoryResults.agentMemoryKeys (memRes : MemoryResults R) : List String :=
  match memRes.agent with
  | none => []
  | some a =>
    (a.files.map (·.key)).filter (· ≠ "") ++ (a.functions.map (·.key)).filter (· ≠ "") ++
      (a.flows.map (·.key)).filter (· ≠ "")

/-! ### The answer -/

variable {S D : Type}

/-- The primary context of the answer that is returned, with the anchors in front and cut off by `trimResponse`; the
other sections are those of `dp`. -/
def returnedContext (sortSlice : SliceSort R) (memRes : MemoryResults R) (anchors : List (PrimaryContextEntry R))
    (profile : Profile) (dp : DevPrompt S (PrimaryContextEntry R) D) : List (PrimaryContextEntry R) :=
  (trimResponse { dp with primaryContext := anchors ++ buildPrimaryContext summary sortSlice memRes } profile
    memRes.filePointingMemCount).1.primaryContext

/-! ### The memories beside the entries -/

/-- A memory of a file, a function or a flow. -/
inductive AgentMemory (R : Type) where
  | file (f : FileMemoryHit R)
  | func (f : FuncMemoryHit R)
  | flow (f : FlowMemoryHit R)

namespace AgentMemory

def entry : AgentMemory R → PrimaryContextEntry R
  | .file f => f.entry summary
  | .func f => f.entry summary
  | .flow f => f.entry summary

omit [Scores R] in
def key : AgentMemory R → String
  | .file f => f.key
  | .func f => f.key
  | .flow f => f.key

end AgentMemory

omit [Scores R] in
/-- The memories that have an entry. -/
def StructuredMemories.shown (a : StructuredMemories R) : List (AgentMemory R) :=
  a.files.map .file ++ a.functions.map .func ++ a.flows.map .flow

omit [Scores R] in
def MemoryResults.memories (memRes : MemoryResults R) : List (AgentMemory R) :=
  memRes.agent.elim [] StructuredMemories.shown

/-- The memories, in the order of the primary context. -/
def MemoryResults.inOrder (sortSlice : SliceSort R) (memRes : MemoryResults R) : List (AgentMemory R) :=
  sortSlice.sortBy (fun m => (m.entry summary).confidence) memRes.memories

/-- The primary context that is returned, with the memory of each entry; an anchor has none. -/
def labelledContext (sortSlice : SliceSort R) (memRes : MemoryResults R) (anchors : List (PrimaryContextEntry R))
    (profile : Profile) : List (Option (AgentMemory R) × PrimaryContextEntry R) :=
  trimSection profile.maxPrimaryCtx
    (anchors.map (fun e => (none, e)) ++ (memRes.inOrder summary sortSlice).map fun m => (some m, m.entry summary))

/-- The keys of the memories whose entries are returned. -/
def shownKeys (sortSlice : SliceSort R) (memRes : MemoryResults R) (anchors : List (PrimaryContextEntry R))
    (profile : Profile) : List String :=
  (((labelledContext summary sortSlice memRes anchors profile).filterMap Prod.fst).map (·.key)).filter (· ≠ "")

/-! ### The labels -/

omit [Scores R] in
theorem trimSection_eq_take {α : Type} (cap : Int) (l : List α) : trimSection cap l = l.take cap.toNat := by
  unfold trimSection
  split_ifs with hcap
  · rfl
  · exact (List.take_of_length_le (by omega)).symm

omit [Scores R] in
theorem maxPrimaryCtx_trimCaps (p : Profile) (n : ℕ) : (trimCapsFromProfile p n).maxPrimaryCtx = p.maxPrimaryCtx := by
  unfold trimCapsFromProfile Profile.applyMemoryShrink
  dsimp only
  split_ifs <;> rfl

variable (sortSlice : SliceSort R) (memRes : MemoryResults R) (anchors : List (PrimaryContextEntry R))
  (profile : Profile)

/-- The entries are sorted as their memories are. -/
theorem buildPrimaryContext_eq : buildPrimaryContext summary sortSlice memRes
    = (memRes.inOrder summary sortSlice).map (·.entry summary) := by
  unfold buildPrimaryContext MemoryResults.inOrder MemoryResults.memories
  cases memRes.agent with
  | none =>
    dsimp only [Option.elim]
    rw [SliceSort.sortBy_nil, List.map_nil]
  | some a =>
    have hentries : a.files.map (·.entry summary) ++ a.functions.map (·.entry summary) ++ a.flows.map (·.entry summary)
        = a.shown.map (·.entry summary) := by
      unfold StructuredMemories.shown
      rw [List.map_append, List.map_append, List.map_map, List.map_map, List.map_map]
      rfl
    dsimp only [Option.elim]
    rw [hentries, SliceSort.sortBy_map]
    rfl

/-- **Without the labels** it is the primary context that is returned. -/
theorem labelledContext_snd (dp : DevPrompt S (PrimaryContextEntry R) D) :
    (labelledContext summary sortSlice memRes anchors profile).map Prod.snd
      = returnedContext summary sortSlice memRes anchors profile dp := by
  unfold labelledContext returnedContext trimResponse
  dsimp only
  rw [maxPrimaryCtx_trimCaps, trimSection_eq_take, trimSection_eq_take, List.map_take, List.map_append, List.map_map,
    List.map_map, buildPrimaryContext_eq]
  congr 2
  exact List.map_id anchors

/-- How many of the memories have an entry that is returned: those that fit behind the anchors. -/
def roomBehind (anchors : List (PrimaryContextEntry R)) (profile : Profile) : ℕ :=
  profile.maxPrimaryCtx.toNat - anchors.length

theorem shownKeys_eq : shownKeys summary sortSlice memRes anchors profile
    = ((((memRes.inOrder summary sortSlice).take (roomBehind anchors profile)).map (·.key)).filter (· ≠ "")) := by
  unfold shownKeys labelledContext roomBehind
  rw [trimSection_eq_take, List.take_append, List.filterMap_append, List.length_map, ← List.map_take, ← List.map_take,
    List.filterMap_map, List.filterMap_map]
  have hanchors : ∀ l : List (PrimaryContextEntry R),
      l.filterMap (Prod.fst ∘ fun e => ((none : Option (AgentMemory R)), e)) = [] :=
    fun l => List.filterMap_eq_nil_iff.mpr fun _ _ => rfl
  have hmemories : ∀ l : List (AgentMemory R), l.filterMap (Prod.fst ∘ fun m => (some m, m.entry summary)) = l :=
    fun l => List.filterMap_some
  rw [hanchors, hmemories, List.nil_append]

omit [Scores R] in
theorem agentMemoryKeys_eq_filter : memRes.agentMemoryKeys = (memRes.memories.map (·.key)).filter (· ≠ "") := by
  unfold MemoryResults.agentMemoryKeys MemoryResults.memories
  cases memRes.agent with
  | none => rfl
  | some a =>
    dsimp only [Option.elim]
    unfold StructuredMemories.shown
    rw [List.map_append, List.map_append, List.filter_append, List.filter_append, List.map_map, List.map_map,
      List.map_map]
    rfl

/-- The keys of the trace are those of the memories that have one, shown or not. -/
theorem mem_agentMemoryKeys {k : String} :
    k ∈ memRes.agentMemoryKeys ↔ k ≠ "" ∧ ∃ m ∈ memRes.inOrder summary sortSlice, m.key = k := by
  have hperm : ((memRes.inOrder summary sortSlice).map (·.key)).Perm (memRes.memories.map (·.key)) :=
    (sortSlice.sortBy_perm _ _).map _
  rw [agentMemoryKeys_eq_filter, List.mem_filter, ← hperm.mem_iff, List.mem_map, and_comm]
  simp

theorem mem_shownKeys {k : String} : k ∈ shownKeys summary sortSlice memRes anchors profile ↔
    k ≠ "" ∧ ∃ m ∈ (memRes.inOrder summary sortSlice).take (roomBehind anchors profile), m.key = k := by
  rw [shownKeys_eq, List.mem_filter, List.mem_map, and_comm]
  simp

/-- **The keys of the trace are those that are shown**, and no others. -/
def OnlyShown : Prop :=
  ∀ k, k ∈ memRes.agentMemoryKeys ↔ k ∈ shownKeys summary sortSlice memRes anchors profile

/-- Exactly when each memory that is cut off has no key, or the key of one that is left. -/
theorem onlyShown_iff : OnlyShown summary sortSlice memRes anchors profile ↔
    ∀ m ∈ (memRes.inOrder summary sortSlice).drop (roomBehind anchors profile),
      m.key = "" ∨ m.key ∈ shownKeys summary sortSlice memRes anchors profile := by
  constructor
  · intro h m hm
    by_cases hkey : m.key = ""
    · exact .inl hkey
    · exact .inr ((h m.key).mp ((mem_agentMemoryKeys summary sortSlice memRes).mpr
        ⟨hkey, m, List.mem_of_mem_drop hm, rfl⟩))
  · intro h k
    rw [mem_agentMemoryKeys summary sortSlice]
    constructor
    · -- a key belongs to a memory that is shown, or to one that is cut off
      rintro ⟨hk, m, hm, rfl⟩
      rw [← List.take_append_drop (roomBehind anchors profile) (memRes.inOrder summary sortSlice),
        List.mem_append] at hm
      obtain hshown | hcut := hm
      · exact (mem_shownKeys summary sortSlice memRes anchors profile).mpr ⟨hk, m, hshown, rfl⟩
      · exact (h m hcut).resolve_left hk
    · -- what is shown was among the memories
      intro hk
      obtain ⟨hne, m, hm, rfl⟩ := (mem_shownKeys summary sortSlice memRes anchors profile).mp hk
      exact ⟨hne, m, List.mem_of_mem_take hm, rfl⟩

/-! ### The hits -/

omit [Scores R] in
/-- The hits that become a memory with an entry: those of files, functions and flows that are not automatic. -/
def pointingHits (hits : List (TypedHit R)) : List (TypedHit R) :=
  hits.filter fun h => !h.isAuto && decide (h.type ∈ ["file", "func", "flow"])

omit [Scores R] in
theorem typed_perm (hits : List (TypedHit R)) :
    (typed "file" hits ++ typed "func" hits ++ typed "flow" hits).Perm (pointingHits hits) := by
  -- the hits of one type, and of those that are left the hits of the next
  have hfile : typed "file" hits = (pointingHits hits).filter fun h => decide (h.type = "file") := by
    unfold typed pointingHits
    rw [List.filter_filter]
    refine List.filter_congr fun h _ => ?_
    by_cases htype : h.type = "file" <;> simp [htype]
  have hfunc : typed "func" hits = ((pointingHits hits).filter fun h => !decide (h.type = "file")).filter
      fun h => decide (h.type = "func") := by
    unfold typed pointingHits
    rw [List.filter_filter, List.filter_filter]
    refine List.filter_congr fun h _ => ?_
    by_cases htype : h.type = "func" <;> simp [htype]
  have hflow : typed "flow" hits = ((pointingHits hits).filter fun h => !decide (h.type = "file")).filter
      fun h => !decide (h.type = "func") := by
    unfold typed pointingHits
    rw [List.filter_filter, List.filter_filter]
    refine List.filter_congr fun h _ => ?_
    by_cases hfile : h.type = "file"
    · simp [hfile]
    · by_cases hfunc : h.type = "func"
      · simp [hfunc]
      · simp [hfile, hfunc]
  rw [hfile, hfunc, hflow, List.append_assoc]
  exact ((List.filter_append_perm _ _).append_left _).trans (List.filter_append_perm _ _)

variable (gitFileHash : String → String → String) (repoPath : String) (hits : List (TypedHit R))

theorem buildAllMemories_memories : (buildAllMemories gitFileHash repoPath hits).memories
    = (structuredMemories gitFileHash repoPath hits).shown := by
  rw [← buildAllMemories_agent]
  unfold MemoryResults.memories
  cases (buildAllMemories gitFileHash repoPath hits).agent with
  | none => rfl
  | some a => rfl

/-- The memories have the keys of their hits. -/
theorem memories_keys : ((buildAllMemories gitFileHash repoPath hits).memories.map (·.key)).Perm
    ((pointingHits hits).map (·.key)) := by
  have hkeys : (structuredMemories gitFileHash repoPath hits).shown.map (·.key)
      = (typed "file" hits ++ typed "func" hits ++ typed "flow" hits).map (·.key) := by
    unfold StructuredMemories.shown structuredMemories
    simp only [List.map_append, List.map_map]
    rfl
  rw [buildAllMemories_memories, hkeys]
  exact (typed_perm hits).map _

/-- When the keys of the hits tell them apart, the memories have to fit. -/
theorem onlyShown_iff_fit (hnodup : (hits.map (·.key)).Nodup) (hkeys : ∀ h ∈ hits, h.key ≠ "") :
    OnlyShown summary sortSlice (buildAllMemories gitFileHash repoPath hits) anchors profile ↔
      pointingHits hits = [] ∨ (anchors.length + (pointingHits hits).length : Int) ≤ profile.maxPrimaryCtx := by
  set l := (buildAllMemories gitFileHash repoPath hits).inOrder summary sortSlice with hl
  have hperm : (l.map (·.key)).Perm ((pointingHits hits).map (·.key)) :=
    ((sortSlice.sortBy_perm _ _).map _).trans (memories_keys gitFileHash repoPath hits)
  have hlength : l.length = (pointingHits hits).length := by
    have h := hperm.length_eq
    rwa [List.length_map, List.length_map] at h
  have hsub : ((pointingHits hits).map (·.key)).Sublist (hits.map (·.key)) := List.filter_sublist.map _
  have hdistinct : (l.map (·.key)).Nodup := hperm.nodup_iff.mpr (hnodup.sublist hsub)
  have hnamed : ∀ m ∈ l, m.key ≠ "" := by
    intro m hm
    obtain ⟨h, hh, hkey⟩ := List.mem_map.mp (hsub.subset (hperm.subset (List.mem_map_of_mem hm)))
    exact hkey ▸ hkeys h hh
  -- a memory that is cut off is missing from those that are left
  have hfit : OnlyShown summary sortSlice (buildAllMemories gitFileHash repoPath hits) anchors profile ↔
      l.length ≤ roomBehind anchors profile := by
    rw [onlyShown_iff, ← hl]
    constructor
    · intro h
      by_contra hlong
      obtain ⟨m, hm⟩ := List.exists_mem_of_ne_nil _ (by rwa [ne_eq, List.drop_eq_nil_iff] :
        l.drop (roomBehind anchors profile) ≠ [])
      obtain ⟨-, m', hm', heq⟩ := (mem_shownKeys summary sortSlice _ anchors profile).mp
        ((h m hm).resolve_left (hnamed m (List.mem_of_mem_drop hm)))
      rw [← hl] at hm'
      rw [← List.take_append_drop (roomBehind anchors profile) l, List.map_append] at hdistinct
      exact (List.nodup_append.mp hdistinct).2.2 _ (List.mem_map_of_mem hm') _ (List.mem_map_of_mem hm) heq
    · intro h m hm
      rw [List.drop_eq_nil_of_le h] at hm
      exact absurd hm List.not_mem_nil
  rw [hfit, hlength, ← List.length_eq_zero_iff]
  unfold roomBehind
  omega

/-- **The keys a trace keeps**, for any hits, anchors, profile and order of ties. The labelled entries are the primary
context that is returned. The keys are those of the memories in it exactly when each memory that is cut off has no key
or the key of one that is left; with hits that have keys of their own, exactly when there are no memories or all of
them fit behind the anchors. -/
theorem memoryKeys_shown_iff (dp : DevPrompt S (PrimaryContextEntry R) D) :
    ((labelledContext summary sortSlice (buildAllMemories gitFileHash repoPath hits) anchors profile).map Prod.snd
      = returnedContext summary sortSlice (buildAllMemories gitFileHash repoPath hits) anchors profile dp) ∧
    (OnlyShown summary sortSlice (buildAllMemories gitFileHash repoPath hits) anchors profile ↔
      ∀ m ∈ ((buildAllMemories gitFileHash repoPath hits).inOrder summary sortSlice).drop (roomBehind anchors profile),
        m.key = "" ∨
          m.key ∈ shownKeys summary sortSlice (buildAllMemories gitFileHash repoPath hits) anchors profile) ∧
    ((hits.map (·.key)).Nodup → (∀ h ∈ hits, h.key ≠ "") →
      (OnlyShown summary sortSlice (buildAllMemories gitFileHash repoPath hits) anchors profile ↔
        pointingHits hits = [] ∨ (anchors.length + (pointingHits hits).length : Int) ≤ profile.maxPrimaryCtx)) :=
  ⟨labelledContext_snd summary sortSlice _ anchors profile dp, onlyShown_iff summary sortSlice _ anchors profile,
    onlyShown_iff_fit summary sortSlice anchors profile gitFileHash repoPath hits⟩

end Context

/-! ### Eleven memories -/

/-- A memory of that type and name, close to the query. -/
def closeHit (type name : String) : TypedHit ℚ where
  key := "mem:r:" ++ type ++ ":" ++ name
  score := 1 / 10
  fields := fun f =>
    if f = "path" ∨ f = "name" then name else if f = "purpose" then "p" else if f = "source" then "agent" else ""
  type := type

/-- Five files, five functions and a flow: more memories than the default profile shows. -/
def elevenHits : List (TypedHit ℚ) :=
  ["a", "b", "c", "d", "e"].map (closeHit "file") ++ ["f", "g", "h", "i", "j"].map (closeHit "func") ++
    [closeHit "flow" "k"]

/-- The trace keeps eleven keys, and ten memories are shown. -/
theorem eleventh_kept :
    (buildAllMemories (fun _ _ => "") "" elevenHits).agentMemoryKeys.length = 11 ∧
      (shownKeys id (SliceSort.stable ℚ) (buildAllMemories (fun _ _ => "") "" elevenHits) []
        (Profile.default "debug")).length ≤ 10 ∧
      ¬OnlyShown id (SliceSort.stable ℚ) (buildAllMemories (fun _ _ => "") "" elevenHits) []
        (Profile.default "debug") := by
  refine ⟨by decide +kernel, ?_, fun h => ?_⟩
  · rw [shownKeys_eq]
    refine (List.length_filter_le _ _).trans ?_
    rw [List.length_map]
    exact List.length_take_le _ _
  · have hfit := (onlyShown_iff_fit id (SliceSort.stable ℚ) [] (Profile.default "debug") (fun _ _ => "") "" elevenHits
      (by decide +kernel) (by decide +kernel)).mp h
    have hlong : ¬(pointingHits elevenHits = [] ∨
        (([] : List (PrimaryContextEntry ℚ)).length + (pointingHits elevenHits).length : Int)
          ≤ (Profile.default "debug").maxPrimaryCtx) := by
      rw [← List.length_eq_zero_iff]
      decide +kernel
    exact hlong hfit

end Devrouter
