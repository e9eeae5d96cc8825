import Mathlib.Data.Rat.Cast.Order
import Devrouter.Lib.Machine
import Devrouter.Heuristics.Buckets
import Devrouter.Heuristics.Topics

/-!
# The registry of one process

Runs of `Resolve` in one process, on a server that answers every command: what one call does to a
registry, and what holds of the registry after any number of them.

A registry is well formed when each of its fields holds the topic with the field's id. `Resolved` is
what a call does to it: it writes one entry, which is absorbed into a nearest topic when one is near
enough and started otherwise. `nearest_spec` is the search for the nearest topic, `resolveEntry_absorb`
and `resolveEntry_fresh` are the two ways to the entry, `resolved_call` is the call and `registry_run` the
run. The square root of the norms may be any function.
-/

open Prog

namespace Devrouter

variable {F : Type}

/-! ### Registries -/

/-- **A well-formed registry**: the value of each field decodes to the topic of that id. -/
def TopicHash.WellFormed (h : TopicHash F) : Prop :=
  ∀ id v, h.lookup id = some v → ∃ e, v = some e ∧ e.id = id

/-- The topic is in the registry. -/
def TopicHash.Stored (h : TopicHash F) (e : TopicEntry F) : Prop := h.lookup e.id = some (some e)

/-- The number of topics. -/
def TopicHash.size (h : TopicHash F) : ℕ := h.keys.length

/-- The topics of a registry. -/
def TopicHash.list (h : TopicHash F) : List (TopicEntry F) := h.entries.filterMap Sigma.snd

theorem TopicHash.Stored.mem {h : TopicHash F} {e : TopicEntry F} (he : h.Stored e) : e.id ∈ h :=
  AList.lookup_isSome.mp (Option.isSome_iff_exists.mpr ⟨_, he⟩)

theorem TopicHash.WellFormed.empty : (∅ : TopicHash F).WellFormed := by
  intro id v hv
  rw [AList.lookup_empty] at hv
  exact nomatch hv

/-- The ids of a well-formed registry are its fields, so no two topics share one. -/
theorem TopicHash.WellFormed.ids {h : TopicHash F} (hwf : h.WellFormed) :
    h.list.map (·.id) = h.keys ∧ (h.list.map (·.id)).Nodup := by
  have hfield : ∀ f ∈ h.entries, ∃ e, f.2 = some e ∧ e.id = f.1 := fun f hf =>
    hwf f.1 f.2 (AList.mem_lookup_iff.mpr hf)
  have hkeys : h.list.map (·.id) = h.keys := by
    unfold list
    change _ = h.entries.map Sigma.fst
    generalize h.entries = fs at hfield
    induction fs with
    | nil => rfl
    | cons f fs ih =>
      obtain ⟨e, he, hid⟩ := hfield f List.mem_cons_self
      rw [List.filterMap_cons_some he, List.map_cons, List.map_cons, hid,
        ih fun g hg => hfield g (List.mem_cons_of_mem f hg)]
  exact ⟨hkeys, hkeys ▸ h.nodupKeys⟩

/-- Writing a topic under its id. -/
theorem TopicHash.WellFormed.insert {h : TopicHash F} (hwf : h.WellFormed) (e : TopicEntry F) :
    TopicHash.WellFormed (h.insert e.id (some e)) := by
  intro id v hv
  by_cases hid : id = e.id
  · subst hid
    rw [AList.lookup_insert] at hv
    exact ⟨e, (Option.some.inj hv).symm, rfl⟩
  · rw [AList.lookup_insert_ne hid] at hv
    exact hwf id v hv

/-- A topic that was there is overwritten; a new one adds to the number. -/
theorem TopicHash.size_insert (h : TopicHash F) (e : TopicEntry F) :
    TopicHash.size (h.insert e.id (some e)) = if e.id ∈ h then h.size else h.size + 1 := by
  unfold size
  rw [AList.keys_insert, List.length_cons]
  by_cases hmem : e.id ∈ h
  · have hkey : e.id ∈ h.keys := AList.mem_keys.mp hmem
    have hpos := List.length_pos_of_mem hkey
    rw [if_pos hmem, List.length_erase_of_mem hkey]
    omega
  · rw [if_neg hmem, List.erase_of_not_mem fun hkey => hmem (AList.mem_keys.mpr hkey)]

@[simp] theorem Redis.setTopic_topics_self (r : Redis F) (key : String) (e : TopicEntry F) :
    (r.setTopic key e).topics key = (r.topics key).insert e.id (some e) := Function.update_self _ _ _

theorem Redis.setTopic_topics_ne (r : Redis F) {key key' : String} (h : key' ≠ key)
    (e : TopicEntry F) : (r.setTopic key e).topics key' = r.topics key' := Function.update_of_ne h _ _

section Calls

variable [Field F] [LinearOrder F] (sqrt : F → F) (cfg : Tunables)

/-- A topic as a call loads it. -/
def TopicEntry.loaded (e : TopicEntry F) : TopicEntry F :=
  { e with centroid := normalise sqrt e.centroid }

/-- What a call loads from a well-formed registry, whatever the order. -/
theorem mem_topicEntries {r : Redis F} (sh : Shuffle (TopicField F)) {intent repo : String}
    (hwf : (r.topics (topicsKey intent repo)).WellFormed) {e : TopicEntry F} :
    e ∈ r.topicEntries sqrt sh intent repo ↔
      ∃ old, (r.topics (topicsKey intent repo)).Stored old ∧ e = old.loaded sqrt := by
  -- an entry is filed under its own id, so reading a field gives the entry back
  have hentry : ∀ old : TopicEntry F,
      TopicField.entry sqrt ⟨old.id, some old⟩ = some (old.loaded sqrt) := by
    intro old
    unfold TopicField.entry TopicEntry.loaded
    simp
  unfold Redis.topicEntries
  rw [List.mem_filterMap]
  constructor
  · rintro ⟨f, hf, he⟩
    -- the shuffle only permutes the fields
    have hlookup := AList.mem_lookup_iff.mpr ((sh.perm _).mem_iff.mp hf)
    obtain ⟨old, hold, hid⟩ := hwf f.1 f.2 hlookup
    obtain rfl : f = ⟨old.id, some old⟩ := by
      obtain ⟨id, v⟩ := f
      cases hold
      cases hid
      rfl
    rw [hentry] at he
    exact ⟨old, hlookup, (Option.some.inj he).symm⟩
  · rintro ⟨old, hold, rfl⟩
    exact ⟨⟨old.id, some old⟩, (sh.perm _).mem_iff.mpr (AList.mem_lookup_iff.mp hold), hentry old⟩

/-- A call loads all the topics of a well-formed registry. -/
theorem length_topicEntries {r : Redis F} (sh : Shuffle (TopicField F)) {intent repo : String}
    (hwf : (r.topics (topicsKey intent repo)).WellFormed) :
    (r.topicEntries sqrt sh intent repo).length = (r.topics (topicsKey intent repo)).size := by
  set h := r.topics (topicsKey intent repo)
  have hentry : ∀ f ∈ h.entries, (TopicField.entry sqrt f).isSome := by
    intro f hf
    obtain ⟨e, he, -⟩ := hwf f.1 f.2 (AList.mem_lookup_iff.mpr hf)
    unfold TopicField.entry
    rw [he]
    rfl
  calc (r.topicEntries sqrt sh intent repo).length
      = (h.entries.filterMap (TopicField.entry sqrt)).length := ((sh.perm _).filterMap _).length_eq
    _ = h.entries.length := List.filterMap_length_eq_length.mpr hentry
    _ = h.size := (List.length_map _).symm

end Calls

/-! ### The search for the nearest topic -/

section Search

variable [Field F] [LinearOrder F]

/-- The body of the search loop. -/
def closer (q : List F) (best : Option (TopicEntry F) × F) (e : TopicEntry F) :
    Option (TopicEntry F) × F :=
  if dot q e.centroid > best.2 then (some e, dot q e.centroid) else best

/-- The search, begun with `best`, ended with `out`. -/
structure Searched (q : List F) (entries : List (TopicEntry F))
    (best out : Option (TopicEntry F) × F) : Prop where
  begun : best.2 ≤ out.2
  max : ∀ e ∈ entries, dot q e.centroid ≤ out.2
  found : out = best ∨ ∃ e ∈ entries, out = (some e, dot q e.centroid)

/-- One round of the search keeps the larger similarity. -/
theorem Searched.cons {q : List F} {entries : List (TopicEntry F)} {e : TopicEntry F}
    {best out : Option (TopicEntry F) × F} (h : Searched q entries (closer q best e) out) :
    Searched q (e :: entries) best out := by
  obtain ⟨hbegun, hmax, hfound⟩ := h
  have hfound' : closer q best e = best ∨ closer q best e = (some e, dot q e.centroid) := by
    unfold closer
    split_ifs
    · exact .inr rfl
    · exact .inl rfl
  -- the closer of the two is at least as close as both
  have hboth : best.2 ≤ (closer q best e).2 ∧ dot q e.centroid ≤ (closer q best e).2 := by
    unfold closer
    split_ifs with hsim
    · exact ⟨hsim.le, le_rfl⟩
    · exact ⟨le_rfl, not_lt.mp hsim⟩
  refine ⟨hboth.1.trans hbegun, ?_, ?_⟩
  · intro e' he'
    rcases List.mem_cons.mp he' with rfl | he'
    · exact hboth.2.trans hbegun
    · exact hmax e' he'
  · -- what is found is the entry that was put first, or was found among the rest
    rcases hfound with hout | ⟨e', he', hout⟩
    · rw [hout]
      exact hfound'.imp_right fun hnew => ⟨e, List.mem_cons_self, hnew⟩
    · exact .inr ⟨e', List.mem_cons_of_mem e he', hout⟩

/-- The search runs through all entries. -/
theorem searched (q : List F) (entries : List (TopicEntry F)) (best : Option (TopicEntry F) × F) :
    Searched q entries best (entries.foldl (closer q) best) := by
  induction entries generalizing best with
  | nil => exact ⟨le_rfl, fun e he => (List.not_mem_nil he).elim, .inl rfl⟩
  | cons e entries ih => exact (ih (closer q best e)).cons

/-- **The nearest topic**: nothing is found when there is nothing above -1, and a topic of maximal
similarity otherwise. -/
theorem nearest_spec (q : List F) (entries : List (TopicEntry F)) :
    Searched q entries (none, -1) (nearest q entries) := searched q entries (none, -1)

/-- A query is absorbed into a topic that is near enough and nearest. -/
theorem absorbedBy_some {cfg : Tunables} {q : List F} {entries : List (TopicEntry F)}
    {e : TopicEntry F} (h : absorbedBy cfg q entries = some e) :
    e ∈ entries ∧ (cfg.newTopicSim : F) ≤ dot q e.centroid ∧
      ∀ e' ∈ entries, dot q e'.centroid ≤ dot q e.centroid := by
  obtain ⟨-, hmax, hfound⟩ := nearest_spec q entries
  unfold absorbedBy at h
  obtain ⟨hbest, hnear⟩ := Option.filter_eq_some_iff.mp h
  rcases hfound with hout | ⟨e', he', hout⟩
  · rw [hout] at hbest
    cases hbest
  · rw [hout] at hbest hnear hmax
    obtain rfl := Option.some.inj hbest
    exact ⟨he', of_decide_eq_true hnear, hmax⟩

/-- A query that is not absorbed is near no topic: the threshold is above -1. -/
theorem absorbedBy_none [IsStrictOrderedRing F] {cfg : Tunables} {q : List F}
    {entries : List (TopicEntry F)} (h : absorbedBy cfg q entries = none) {e : TopicEntry F}
    (he : e ∈ entries) : dot q e.centroid < (cfg.newTopicSim : F) := by
  obtain ⟨-, hmax, hfound⟩ := nearest_spec q entries
  unfold absorbedBy at h
  refine (hmax e he).trans_lt ?_
  rcases hfound with hout | ⟨e', he', hout⟩
  · have hpos : (0 : F) ≤ (cfg.newTopicSim : F) := Rat.cast_nonneg.mpr cfg.newTopicSim_mem.1
    rw [hout]
    exact neg_one_lt_zero.trans_le hpos
  · rw [hout] at h ⊢
    simpa using h

end Search

/-! ### The entry a call writes -/

section Written

variable [Field F] [LinearOrder F] (sqrt : F → F) (cfg : Tunables)

/-- A topic with one more query. -/
def TopicEntry.absorb (e : TopicEntry F) (q : List F) (queryText : String) (now : Int) :
    TopicEntry F :=
  { e with
    centroid := mergeCentroid sqrt e.centroid q e.samples
    samples := e.samples + 1
    lastSeen := now
    label := if e.label = "" then extractTopicLabel queryText else e.label }

/-- The topic of one query. -/
def TopicEntry.fresh (q : List F) (queryText : String) (now : Int) (id : String) : TopicEntry F :=
  { id, label := extractTopicLabel queryText, centroid := q, samples := 1, createdAt := now
    lastSeen := now }

/-- The topic that is evicted: the least recently seen one. -/
def victim (entries : List (TopicEntry F)) : Option (TopicEntry F) :=
  (entries.insertionSort fun a b => a.lastSeen ≤ b.lastSeen).head?

/-- The id of a new topic. -/
def slot (entries : List (TopicEntry F)) : String :=
  if entries.length ≥ cfg.maxTopics then ((victim entries).map (·.id)).getD (nextTopicID entries)
  else nextTopicID entries

variable {cfg}

theorem resolveEntry_absorb {q : List F} {entries : List (TopicEntry F)} {e : TopicEntry F}
    (h : absorbedBy cfg q entries = some e) (queryText : String) (now : Int) :
    resolveEntry sqrt cfg q queryText now entries = e.absorb sqrt q queryText now := by
  unfold absorbedBy at h
  obtain ⟨hbest, hnear⟩ := Option.filter_eq_some_iff.mp h
  unfold resolveEntry
  generalize nearest q entries = best at hbest hnear
  obtain ⟨found, sim⟩ := best
  obtain rfl : found = some e := hbest
  exact if_pos (of_decide_eq_true hnear)

theorem resolveEntry_fresh {q : List F} {entries : List (TopicEntry F)}
    (h : absorbedBy cfg q entries = none) (queryText : String) (now : Int) :
    resolveEntry sqrt cfg q queryText now entries
      = .fresh q queryText now (slot cfg entries) := by
  unfold resolveEntry
  extract_lets fresh create
  -- with the registry full, the least recently seen entry gives its slot
  have hcreate : create = .fresh q queryText now (slot cfg entries) := by
    unfold create slot victim
    by_cases hfull : entries.length ≥ cfg.maxTopics
    · rw [if_pos hfull, if_pos hfull]
      cases entries.insertionSort fun a b => a.lastSeen ≤ b.lastSeen with
      | nil => rfl
      | cons v rest => rfl
    · rw [if_neg hfull, if_neg hfull]
      rfl
  rw [← hcreate]
  -- nothing is near enough, so the entry is created
  unfold absorbedBy at h
  generalize nearest q entries = best at h
  obtain ⟨found, sim⟩ := best
  cases found with
  | none => rfl
  | some e => exact if_neg (by simpa using h)

omit [Field F] [LinearOrder F] in
/-- A registry that is not empty has a least recently seen topic. -/
theorem victim_spec {entries : List (TopicEntry F)} (hne : entries ≠ []) :
    ∃ v ∈ entries, victim entries = some v ∧ ∀ e ∈ entries, v.lastSeen ≤ e.lastSeen := by
  have : Std.Total fun a b : TopicEntry F => a.lastSeen ≤ b.lastSeen :=
    ⟨fun a b => le_total a.lastSeen b.lastSeen⟩
  have : IsTrans (TopicEntry F) fun a b => a.lastSeen ≤ b.lastSeen :=
    ⟨fun a b c hab hbc => le_trans hab hbc⟩
  have hperm := entries.perm_insertionSort fun a b => a.lastSeen ≤ b.lastSeen
  have hsorted := entries.pairwise_insertionSort fun a b => a.lastSeen ≤ b.lastSeen
  unfold victim
  cases hl : entries.insertionSort fun a b => a.lastSeen ≤ b.lastSeen with
  | nil =>
    rw [hl] at hperm
    exact absurd hperm.symm.eq_nil hne
  | cons v rest =>
    rw [hl] at hperm hsorted
    refine ⟨v, hperm.mem_iff.mp List.mem_cons_self, rfl, fun e he => ?_⟩
    rcases List.mem_cons.mp (hperm.mem_iff.mpr he) with rfl | he
    · exact le_rfl
    · exact List.rel_of_pairwise_cons hsorted he

omit [Field F] [LinearOrder F] in
/-- Below the cap a new topic has a new id. -/
theorem slot_free {entries : List (TopicEntry F)} (h : entries.length < cfg.maxTopics)
    {e : TopicEntry F} (he : e ∈ entries) : e.id ≠ slot cfg entries := by
  have hcap := cfg.maxTopics_mem.2
  unfold slot
  rw [if_neg (not_le.mpr h)]
  exact nextTopicID_ne (by omega) he

omit [Field F] [LinearOrder F] in
/-- At the cap it has the id of a least recently seen one. -/
theorem slot_full {entries : List (TopicEntry F)} (h : cfg.maxTopics ≤ entries.length) :
    ∃ v ∈ entries, slot cfg entries = v.id ∧ ∀ e ∈ entries, v.lastSeen ≤ e.lastSeen := by
  have hne : entries ≠ [] := by
    rintro rfl
    have hpos := cfg.maxTopics_mem.1
    rw [List.length_nil] at h
    omega
  obtain ⟨v, hv, hvictim, hleast⟩ := victim_spec hne
  refine ⟨v, hv, ?_, hleast⟩
  unfold slot
  rw [if_pos h, hvictim]
  rfl

end Written

/-! ### One call -/

/-- A call of `Resolve`, with an embedding of the expected length. -/
structure TopicQuery (F : Type) where
  intent : Name
  repo : String
  embed : List F
  dim : embed.length = topicEmbedFloatsExpected
  queryText : String
  sh : Shuffle (TopicField F)
  now : Int

namespace TopicQuery

variable [Field F] [LinearOrder F] (sqrt : F → F) (cfg : Tunables)

/-- The registry of a call. -/
def key (c : TopicQuery F) : String := topicsKey c.intent (normaliseRepo c.repo)

/-- The query, normalised. -/
def unit (c : TopicQuery F) : List F := normalise sqrt c.embed

/-- The cosine of the query and a topic. -/
def cosine (c : TopicQuery F) (e : TopicEntry F) : F := dot (c.unit sqrt) (normalise sqrt e.centroid)

/-- The call, alone on the server. -/
def run (c : TopicQuery F) (r : Redis F) : (String × String) × Redis F :=
  (resolve sqrt cfg c.intent c.repo c.embed c.queryText c.sh c.now).run r

/-- The topic of the query, and its label. -/
def answer (c : TopicQuery F) (r : Redis F) : String × String := (c.run sqrt cfg r).1

/-- The server after the call. -/
def next (c : TopicQuery F) (r : Redis F) : Redis F := (c.run sqrt cfg r).2

/-- The entry the call writes. -/
def written (c : TopicQuery F) (r : Redis F) : TopicEntry F :=
  r.resolved sqrt cfg c.intent c.repo c.embed c.queryText c.sh c.now

/-- Runs of calls. -/
def machine : Machine (Redis F) (TopicQuery F) where
  step r c := some (c.next sqrt cfg r)

variable {cfg}

/-- A call when topics are on. -/
theorem run_on (hon : cfg.topicsEnabled = true) (c : TopicQuery F) (r : Redis F) :
    c.run sqrt cfg r
      = (((c.written sqrt cfg r).id, (c.written sqrt cfg r).label),
          r.setTopic c.key (c.written sqrt cfg r)) := by
  have hresolves : cfg.resolves c.embed = true := by
    unfold Tunables.resolves
    rw [hon, c.dim]
    rfl
  unfold run
  rw [resolve_run, if_pos hresolves]
  rfl

/-- A call when topics are off. -/
theorem run_off (hoff : cfg.topicsEnabled = false) (c : TopicQuery F) (r : Redis F) :
    c.run sqrt cfg r = ((intentGlobalTopic, ""), r) := by
  unfold run resolve
  rw [hoff]
  rfl

end TopicQuery

section Outcome

variable [Field F] [LinearOrder F] (sqrt : F → F) (cfg : Tunables)

/-- The query is absorbed: `e` is the topic `old` with one sample more, and `old` is one of the nearest
topics and near enough. -/
structure Absorbs (c : TopicQuery F) (h : TopicHash F) (old e : TopicEntry F) : Prop where
  stored : h.Stored old
  near : (cfg.newTopicSim : F) ≤ c.cosine sqrt old
  nearest : ∀ other, h.Stored other → c.cosine sqrt other ≤ c.cosine sqrt old
  id : e.id = old.id
  samples : e.samples = old.samples + 1
  createdAt : e.createdAt = old.createdAt
  label : old.label ≠ "" → e.label = old.label

/-- The query starts a topic: no topic is near enough, `e` has one sample, and its id is that of no
topic below the cap and that of a least recently seen one at the cap. -/
structure Starts (c : TopicQuery F) (h : TopicHash F) (e : TopicEntry F) : Prop where
  far : ∀ other, h.Stored other → c.cosine sqrt other < (cfg.newTopicSim : F)
  samples : e.samples = 1
  centroid : e.centroid = c.unit sqrt
  seen : e.createdAt = c.now ∧ e.lastSeen = c.now
  free : h.size < cfg.maxTopics → e.id ∉ h
  full : cfg.maxTopics ≤ h.size →
    ∃ v, h.Stored v ∧ e.id = v.id ∧ ∀ other, h.Stored other → v.lastSeen ≤ other.lastSeen

/-- **What a call does**: it answers with the entry `e` and writes it, leaving the other entries and the
other registries as they are; `e` absorbs the query when some topic is near enough, and only then. -/
structure Resolved (c : TopicQuery F) (r : Redis F) (e : TopicEntry F) : Prop where
  answer : c.answer sqrt cfg r = (e.id, e.label)
  written : ((c.next sqrt cfg r).topics c.key).Stored e
  frame : ∀ id, id ≠ e.id →
    ((c.next sqrt cfg r).topics c.key).lookup id = (r.topics c.key).lookup id
  others : ∀ (i : Name) (repo : String), (i, normaliseRepo repo) ≠ (c.intent, normaliseRepo c.repo) →
    (c.next sqrt cfg r).topics (topicsKey i (normaliseRepo repo))
      = r.topics (topicsKey i (normaliseRepo repo))
  absorbs : (∃ old, (r.topics c.key).Stored old ∧ (cfg.newTopicSim : F) ≤ c.cosine sqrt old) →
    ∃ old, Absorbs sqrt cfg c (r.topics c.key) old e
  starts : (¬ ∃ old, (r.topics c.key).Stored old ∧ (cfg.newTopicSim : F) ≤ c.cosine sqrt old) →
    Starts sqrt cfg c (r.topics c.key) e

variable {cfg} {c : TopicQuery F} {r : Redis F}

/-- The two ways to the entry. -/
theorem written_cases [IsStrictOrderedRing F] (hwf : (r.topics c.key).WellFormed) :
    (∃ old, Absorbs sqrt cfg c (r.topics c.key) old (c.written sqrt cfg r)) ∨
      Starts sqrt cfg c (r.topics c.key) (c.written sqrt cfg r) := by
  have hmem := fun e => mem_topicEntries (e := e) sqrt c.sh hwf
  have hlen := length_topicEntries sqrt c.sh hwf
  change _ = (r.topics c.key).size at hlen
  unfold TopicQuery.written Redis.resolved
  generalize r.topicEntries sqrt c.sh c.intent (normaliseRepo c.repo) = entries at hmem hlen
  have hloaded : ∀ old, (r.topics c.key).Stored old → old.loaded sqrt ∈ entries := fun old hold =>
    (hmem _).mpr ⟨old, hold, rfl⟩
  cases habs : absorbedBy cfg (normalise sqrt c.embed) entries with
  | some e =>
    obtain ⟨he, hnear, hmax⟩ := absorbedBy_some habs
    obtain ⟨old, hold, rfl⟩ := (hmem e).mp he
    rw [resolveEntry_absorb sqrt habs]
    exact .inl ⟨old, hold, hnear, fun other hother => hmax _ (hloaded other hother), rfl, rfl, rfl,
      fun hlabel => if_neg hlabel⟩
  | none =>
    rw [resolveEntry_fresh sqrt habs]
    refine .inr ⟨fun other hother => absorbedBy_none habs (hloaded other hother), rfl, rfl,
      ⟨rfl, rfl⟩, fun hfree hin => ?_, fun hfull => ?_⟩
    · -- the new id would be that of a topic
      obtain ⟨v, hv⟩ := Option.isSome_iff_exists.mp (AList.lookup_isSome.mpr hin)
      obtain ⟨old, rfl, hid⟩ := hwf _ v hv
      have hstored : (r.topics c.key).Stored old := by
        unfold TopicHash.Stored
        rw [hid]
        exact hv
      rw [← hlen] at hfree
      exact slot_free hfree (hloaded old hstored) hid
    · rw [← hlen] at hfull
      obtain ⟨v, hv, hslot, hleast⟩ := slot_full hfull
      obtain ⟨old, hold, rfl⟩ := (hmem v).mp hv
      exact ⟨old, hold, hslot, fun other hother =>
        hleast (other.loaded sqrt) (hloaded other hother)⟩

/-- **One call** on a well-formed registry. -/
theorem resolved_call [IsStrictOrderedRing F] (hon : cfg.topicsEnabled = true)
    (hwf : (r.topics c.key).WellFormed) : Resolved sqrt cfg c r (c.written sqrt cfg r) := by
  have hrun := c.run_on sqrt hon r
  have hnext : c.next sqrt cfg r = r.setTopic c.key (c.written sqrt cfg r) := congrArg Prod.snd hrun
  refine ⟨congrArg Prod.fst hrun, ?_, ?_, ?_, ?_, ?_⟩
  · rw [hnext, Redis.setTopic_topics_self]
    exact AList.lookup_insert _
  · intro id hid
    rw [hnext, Redis.setTopic_topics_self]
    exact AList.lookup_insert_ne hid
  · intro i repo hne
    rw [hnext]
    -- another intent or repository has another hash
    refine r.setTopic_topics_ne (fun hkey => hne ?_) _
    obtain ⟨hi, hrepo⟩ := topicsKey_inj.mp hkey
    rw [hi, hrepo]
  · -- a near entry absorbs the query, as a new topic starts only far from all
    rintro ⟨old, hold, hnear⟩
    refine (written_cases sqrt hwf).resolve_right fun hstarts => ?_
    exact absurd hnear (not_le.mpr (hstarts.far old hold))
  · intro hfar
    refine (written_cases sqrt hwf).resolve_left ?_
    rintro ⟨old, habs⟩
    exact hfar ⟨old, habs.stored, habs.near⟩

/-! ### Runs -/

/-- The registry `h` of a run that began with `h₀`. -/
structure Kept (cap : ℕ) (h₀ h : TopicHash F) : Prop where
  wellFormed : h.WellFormed
  ids : ∀ id ∈ h₀, id ∈ h
  size : h.size ≤ max h₀.size cap

/-- **One call keeps the registry**, be it the one of the call or another one. -/
theorem Kept.next [IsStrictOrderedRing F] {h₀ : TopicHash F} (c : TopicQuery F) {key : String}
    (h : Kept cfg.maxTopics h₀ (r.topics key)) :
    Kept cfg.maxTopics h₀ ((c.next sqrt cfg r).topics key) := by
  cases hon : cfg.topicsEnabled with
  | false =>
    have hnext : c.next sqrt cfg r = r := congrArg Prod.snd (c.run_off sqrt hon r)
    rwa [hnext]
  | true =>
    have hnext : c.next sqrt cfg r = r.setTopic c.key (c.written sqrt cfg r) :=
      congrArg Prod.snd (c.run_on sqrt hon r)
    rw [hnext]
    by_cases hkey : key = c.key
    · subst hkey
      rw [Redis.setTopic_topics_self]
      refine ⟨h.wellFormed.insert _, fun id hid => (AList.mem_insert _).mpr (.inr (h.ids id hid)), ?_⟩
      rw [TopicHash.size_insert]
      have hsize := h.size
      -- only a call below the cap adds a topic
      split_ifs with hin
      · exact hsize
      · rcases written_cases sqrt (c := c) h.wellFormed with ⟨old, habs⟩ | hstarts
        · refine absurd ?_ hin
          rw [habs.id]
          exact habs.stored.mem
        · have hbelow : (r.topics c.key).size < cfg.maxTopics := by
            by_contra hfull
            obtain ⟨v, hv, hid, -⟩ := hstarts.full (not_lt.mp hfull)
            refine hin ?_
            rw [hid]
            exact hv.mem
          exact le_max_of_le_right hbelow
    · rwa [Redis.setTopic_topics_ne _ hkey]

variable (cfg)

/-- **The registry of one process.** In every run of calls, on any registries, from a server on which
the registry of `(intent, repo)` is well formed (an empty one is), with any order of the entries at each
call, that registry stays well formed: its ids are distinct and equal to their fields, and no id is
ever lost. The number of its topics is at most the number at the start, or the cap. The next call on it
answers with the one entry it writes, and absorbs the query into a nearest topic or starts one
(`Resolved`); when topics are off it changes nothing. -/
theorem registry_run [IsStrictOrderedRing F] (intent : Name) (repo : String) {r₀ : Redis F}
    (hwf : (r₀.topics (topicsKey intent (normaliseRepo repo))).WellFormed)
    {cs : List (TopicQuery F)} (hrun : (TopicQuery.machine sqrt cfg).exec r₀ cs = some r) :
    let h₀ := r₀.topics (topicsKey intent (normaliseRepo repo))
    let h := r.topics (topicsKey intent (normaliseRepo repo))
    h.WellFormed ∧ h.list.map (·.id) = h.keys ∧ (h.list.map (·.id)).Nodup ∧ (∀ id ∈ h₀, id ∈ h) ∧
      h.size ≤ max h₀.size cfg.maxTopics ∧
      ∀ c : TopicQuery F, c.intent = intent → normaliseRepo c.repo = normaliseRepo repo →
        (cfg.topicsEnabled = true → ∃ e, Resolved sqrt cfg c r e) ∧
        (cfg.topicsEnabled = false → c.run sqrt cfg r = ((intentGlobalTopic, ""), r)) := by
  intro h₀ h
  -- the hash stays well formed and within its size along the run
  have hstart : Kept cfg.maxTopics h₀ h₀ := ⟨hwf, fun _ hid => hid, le_max_left _ _⟩
  have hkept : Kept cfg.maxTopics h₀ h :=
    Machine.invariant (M := TopicQuery.machine sqrt cfg)
      (I := fun r => Kept cfg.maxTopics h₀ (r.topics (topicsKey intent (normaliseRepo repo))))
      (fun r c r' hr _ hs => Option.some.inj hs ▸ hr.next sqrt c) hstart
      (Machine.Along.of_forall_mem (fun _ _ _ => trivial) r₀) hrun
  refine ⟨hkept.wellFormed, hkept.wellFormed.ids.1, hkept.wellFormed.ids.2, hkept.ids, hkept.size,
    fun c hi hrepo => ⟨fun hon => ⟨_, resolved_call sqrt hon ?_⟩, fun hoff => c.run_off sqrt hoff r⟩⟩
  unfold TopicQuery.key
  rw [hi, hrepo]
  exact hkept.wellFormed

end Outcome

/-- A query whose embedding is a unit vector of the embedding space. -/
def axisQuery (i : ℕ) : TopicQuery ℚ where
  intent := .debug
  repo := "r"
  embed := (List.range topicEmbedFloatsExpected).map fun j => if j = i then 1 else 0
  dim := by rw [List.length_map, List.length_range]
  queryText := ""
  sh := Shuffle.id _
  now := 0

/-- One call on an empty registry, and the next one. -/
theorem registry_run_once :
    let key := topicsKey (axisQuery 0).intent (normaliseRepo (axisQuery 0).repo)
    ∃ r, (TopicQuery.machine id .default).exec (Redis.empty ℚ) [axisQuery 0] = some r ∧
      (r.topics key).WellFormed ∧ (r.topics key).size ≤ 32 ∧
      ∃ e, Resolved id .default (axisQuery 1) r e := by
  intro key
  obtain ⟨r, hrun⟩ : ∃ r, (TopicQuery.machine id .default).exec (Redis.empty ℚ) [axisQuery 0]
      = some r := ⟨_, rfl⟩
  obtain ⟨hwf, -, -, -, hsize, hcalls⟩ := registry_run id .default (axisQuery 0).intent
    (axisQuery 0).repo TopicHash.WellFormed.empty hrun
  have hcap : max (TopicHash.size (∅ : TopicHash ℚ)) 32 ≤ 32 := max_le (Nat.zero_le _) le_rfl
  exact ⟨r, hrun, hwf, hsize.trans hcap, (hcalls (axisQuery 1) rfl rfl).1 rfl⟩

end Devrouter
