import Mathlib.Algebra.Order.Field.Rat
import Mathlib.Algebra.Order.Field.Basic
import Mathlib.Data.List.Sort
import Devrouter.Lib.GoText
import Devrouter.Heuristics.Bandit

/-!
# The topic registry

Model of `internal/heuristics/topics.go`: the online clustering of the queries of one
`(intent, repo)`. `resolve` is one `HGETALL`, a search for the nearest centroid and one `HSET`. The
scalars of the centroids are an ordered field `F` with a square root `sqrt`; they are computed
exactly. The order in which Go ranges over the registry map is an argument (`Shuffle`).

`nearest` and `resolveEntry` are the pure middle of `resolve`, split off so that what one call writes
can be reasoned about without its two commands.
-/

open Prog

namespace Devrouter

/-! ### Keys -/

def keyTopics : String := "heuristics:topics"

def topicsKey (intent repo : String) : String := keyTopics ++ ":" ++ intent ++ ":" ++ repo

/-- The key of a registry determines its intent and its repo. -/
theorem topicsKey_inj {i i' : Name} {r r' : String} :
    topicsKey i r = topicsKey i' r' ↔ i = i' ∧ r = r' := by
  refine ⟨fun h => ?_, by rintro ⟨rfl, rfl⟩; rfl⟩
  have hsep : (":" : String).toList = [':'] := rfl
  have h' : (i : String) ++ ":" ++ r = (i' : String) ++ ":" ++ r' := by
    have hl := congrArg String.toList h
    rw [← String.toList_inj]
    simpa [topicsKey, keyTopics] using hl
  rwa [String.append_sep_inj hsep i.no_colon i'.no_colon, Name.str_inj] at h'

def normaliseRepo (repo : String) : String :=
  let repo := trimSpace repo
  if repo = "" then globalRepo else repo

/-! ### Topic ids -/

def parseTopicID (id : String) : Option Int :=
  if hasPrefix id "t-" then atoi (String.ofList (id.toList.drop 2)) else none

/-- The id of the `i`-th topic. -/
def topicID (i : Nat) : String := "t-" ++ toString i

/-! ### Labels -/

/-- The lower-case form of a rune, as far as the tokenizer can tell: the ASCII letters, and the two
other runes that lower to one. -/
def lowerRune (c : Char) : Char :=
  if c.toNat = 0x130 then 'i' else if c.toNat = 0x212a then 'k' else c.toLower

/-- The characters of a token. -/
def isLabelChar (c : Char) : Bool :=
  decide ('a' ≤ c ∧ c ≤ 'z') || decide ('0' ≤ c ∧ c ≤ '9')

def topicLabelMaxTokens : Nat := 3

def topicLabelMaxLen : Nat := 40

def topicLabelStopwords : List String :=
  [
    "a", "an", "the", "this", "that", "these", "those", "my", "our", "your", "their", "its", "it",
    "they", "some", "any", "all", "no", "none", "each", "every", "and", "or", "but", "if", "so",
    "than", "then", "of", "to", "in", "on", "at", "by", "for", "with", "from", "into", "onto",
    "as", "via", "about", "is", "are", "was", "were", "be", "been", "being", "do", "does", "did",
    "doing", "done", "have", "has", "had", "having", "will", "would", "can", "could", "should",
    "may", "might", "must", "shall", "how", "what", "why", "when", "where", "which", "who", "whom",
    "whose", "explain", "show", "tell", "list", "find", "give", "get", "set", "make", "see",
    "look", "help", "need", "want", "use", "used", "uses", "using", "work", "works", "working",
    "worked", "fix", "fixes", "fixed", "fixing", "add", "adds", "added", "adding", "remove",
    "removes", "removed", "removing", "modify", "modifies", "modified", "modifying", "update",
    "updates", "updated", "updating", "please", "just", "also", "only", "very", "more", "most",
    "less", "least", "such", "like", "even", "here", "there", "now", "yet", "still", "code",
    "codebase", "repo", "project"]

/-- The token that ends here, unless it is short, a stop word or a number. -/
def flushToken (cur : List Char) : List String :=
  let tok := String.ofList cur.reverse
  if cur.length < 3 || topicLabelStopwords.contains tok || cur.all Char.isDigit then [] else [tok]

/-- The loop of `tokenizeForLabel`, on lower-cased runes; `cur` is the current token reversed. -/
def labelTokens : List Char → List Char → List String
  | [], cur => flushToken cur
  | c :: cs, cur =>
    if isLabelChar c then labelTokens cs (c :: cur) else flushToken cur ++ labelTokens cs []

def tokenizeForLabel (s : String) : List String := labelTokens (s.toList.map lowerRune) []

/-- Cut a label that is too long at its last hyphen that is not in front, or at the limit. -/
def cutLabel (label : List Char) : List Char :=
  if label.length > topicLabelMaxLen then
    let head := label.take topicLabelMaxLen
    let cut := (head.reverse.dropWhile (· ≠ '-')).tail.reverse
    if cut.isEmpty then head else cut
  else label

/-- `ExtractTopicLabel`: the first distinct tokens of a query, joined by hyphens. -/
def extractTopicLabel (query : String) : String :=
  let picked := ((tokenizeForLabel query).reverse.dedup.reverse).take topicLabelMaxTokens
  String.ofList (cutLabel (String.intercalate "-" picked).toList)

/-! ### Vectors -/

section Vectors

variable {F : Type} [Field F] [LinearOrder F] (sqrt : F → F)

def normalise (v : List F) : List F :=
  if v.isEmpty then v
  else
    let n := sqrt (v.map fun x => x * x).sum
    if n = 0 then v else v.map fun x => x * (1 / n)

def dot (a b : List F) : F := if a.length ≠ b.length then 0 else (List.zipWith (· * ·) a b).sum

/-- The online running mean, normalised. -/
def mergeCentroid (old sample : List F) (oldSamples : Int) : List F :=
  if old.length ≠ sample.length then normalise sqrt sample
  else
    let n : F := if oldSamples < 1 then 1 else (oldSamples : F)
    normalise sqrt (List.zipWith (fun o s => (o * n + s) / (n + 1)) old sample)

end Vectors

/-! ### The registry -/

/-- The order in which a map is ranged over. -/
structure Shuffle (α : Type) where
  toFun : List α → List α
  perm : ∀ l, (toFun l).Perm l

/-- The order in which the fields are stored. -/
def Shuffle.id (α : Type) : Shuffle α := ⟨fun l => l, fun l => List.Perm.refl l⟩

/-- A field of a registry hash. -/
abbrev TopicField (F : Type) := Sigma fun _ : String => Option (TopicEntry F)

/-- The embedding dimension accepted on the centroid path. -/
def topicEmbedFloatsExpected : Nat := 768

section Registry

variable {F : Type} [Field F] [LinearOrder F] (sqrt : F → F)

/-- The entry of a field: a value that does not decode is skipped, a missing id is the field's. -/
def TopicField.entry (f : TopicField F) : Option (TopicEntry F) :=
  f.2.map fun e =>
    { e with id := if e.id = "" then f.1 else e.id, centroid := normalise sqrt e.centroid }

/-- `loadBucket`: the entries of a registry. A failed `HGETALL` leaves an empty map, which is
answered before the error is looked at. -/
def loadBucket (sh : Shuffle (TopicField F)) (intent repo : String) :
    Prog (redis F) (List (TopicEntry F)) := do
  let raw ← Rdb.hgetall (topicsKey intent repo)
  match raw with
  | none => return []
  | some h => return (sh.toFun h.entries).filterMap (TopicField.entry sqrt)

/-- `persistEntry`. -/
def persistEntry (intent repo : String) (e : TopicEntry F) : Prog (redis F) (Option StoreErr) := do
  let r ← Rdb.hset (topicsKey intent repo) e.id e
  return errOf r

/-- The lowest index no id is parsed to, as an id. -/
def nextTopicID (existing : List (TopicEntry F)) : String :=
  let used : List Int := existing.filterMap fun e => parseTopicID e.id
  topicID (((List.range (used.length + 1)).find? fun (i : Nat) => !used.contains (i : Int)).getD 0)

/-- The search loop of `Resolve`: the first entry of maximal similarity above -1. -/
def nearest (q : List F) (entries : List (TopicEntry F)) : Option (TopicEntry F) × F :=
  entries.foldl
    (fun best e =>
      let sim := dot q e.centroid
      if sim > best.2 then (some e, sim) else best)
    (none, -1)

/-- The entry a call of `Resolve` writes, from the entries it loaded. -/
def resolveEntry (cfg : Tunables) (q : List F) (queryText : String) (now : Int)
    (entries : List (TopicEntry F)) : TopicEntry F :=
  let fresh (id : String) : TopicEntry F :=
    { id, label := extractTopicLabel queryText, centroid := q, samples := 1, createdAt := now
      lastSeen := now }
  let create : TopicEntry F :=
    if entries.length ≥ cfg.maxTopics then
      -- evict the least recently seen topic and reuse its id
      match entries.insertionSort (fun a b => a.lastSeen ≤ b.lastSeen) with
      | victim :: _ => fresh victim.id
      | [] => fresh (nextTopicID entries)
    else fresh (nextTopicID entries)
  match nearest q entries with
  | (some e, sim) =>
    if sim ≥ (cfg.newTopicSim : F) then
      { e with
        centroid := mergeCentroid sqrt e.centroid q e.samples
        samples := e.samples + 1
        lastSeen := now
        label := if e.label = "" then extractTopicLabel queryText else e.label }
    else create
  | (none, _) => create

/-- `Resolve`: the topic of a query, and its label. -/
def resolve (cfg : Tunables) (intent repo : String) (embed : List F) (queryText : String)
    (sh : Shuffle (TopicField F)) (now : Int) : Prog (redis F) (String × String) :=
  if !cfg.topicsEnabled || decide (embed.length ≠ topicEmbedFloatsExpected) then
    return (intentGlobalTopic, "")
  else do
    let repo := normaliseRepo repo
    let entries ← loadBucket sqrt sh intent repo
    let e := resolveEntry sqrt cfg (normalise sqrt embed) queryText now entries
    let _ ← persistEntry intent repo e
    return (e.id, e.label)

/-- `Samples`: the sample count of a topic, 0 when it has none. -/
def samples (cfg : Tunables) (intent repo topic : String) (sh : Shuffle (TopicField F)) :
    Prog (redis F) Int :=
  if !cfg.topicsEnabled || topic = "" || topic = intentGlobalTopic then return 0
  else do
    let entries ← loadBucket sqrt sh intent (normaliseRepo repo)
    match entries.find? fun e => e.id = topic with
    | some e => return e.samples
    | none => return 0

/-! ### The sequential runs -/

/-- The topics of a registry, in the order a call ranges over them. -/
def Redis.topicEntries (r : Redis F) (sh : Shuffle (TopicField F)) (intent repo : String) :
    List (TopicEntry F) :=
  (sh.toFun (r.topics (topicsKey intent repo)).entries).filterMap (TopicField.entry sqrt)

/-- The sample count of a topic. -/
def Redis.sampleCount (r : Redis F) (cfg : Tunables) (intent repo topic : String)
    (sh : Shuffle (TopicField F)) : Int :=
  if !cfg.topicsEnabled || topic = "" || topic = intentGlobalTopic then 0
  else
    (((r.topicEntries sqrt sh intent (normaliseRepo repo)).find? fun e => e.id = topic).map
      (·.samples)).getD 0

/-- `HSET` of a topic. -/
def Redis.setTopic (r : Redis F) (key : String) (e : TopicEntry F) : Redis F :=
  { r with topics := Function.update r.topics key ((r.topics key).insert e.id (some e)) }

/-- The entry a call of `Resolve` writes. -/
def Redis.resolved (r : Redis F) (cfg : Tunables) (intent repo : String) (embed : List F)
    (queryText : String) (sh : Shuffle (TopicField F)) (now : Int) : TopicEntry F :=
  resolveEntry sqrt cfg (normalise sqrt embed) queryText now
    (r.topicEntries sqrt sh intent (normaliseRepo repo))

/-- A call of `Resolve` with these arguments touches the registry. -/
def Tunables.resolves (cfg : Tunables) (embed : List F) : Bool :=
  cfg.topicsEnabled && decide (embed.length = topicEmbedFloatsExpected)

@[simp] theorem loadBucket_run (r : Redis F) (sh : Shuffle (TopicField F)) (intent repo : String) :
    (loadBucket sqrt sh intent repo).run r = (r.topicEntries sqrt sh intent repo, r) := rfl

/-- `Samples` reads the count and changes nothing. -/
theorem samples_run (r : Redis F) (cfg : Tunables) (intent repo topic : String)
    (sh : Shuffle (TopicField F)) :
    (samples sqrt cfg intent repo topic sh).run r
      = (r.sampleCount sqrt cfg intent repo topic sh, r) := by
  unfold samples Redis.sampleCount
  by_cases hoff : (!cfg.topicsEnabled || topic = "" || topic = intentGlobalTopic) = true
  · rw [if_pos hoff, if_pos hoff, run_pure]
  · rw [if_neg hoff, if_neg hoff, run_bind, loadBucket_run]
    dsimp only
    cases (r.topicEntries sqrt sh intent (normaliseRepo repo)).find? fun e => e.id = topic with
    | none => rfl
    | some e => rfl

/-- `Resolve` writes one entry, or nothing when topics are off. -/
theorem resolve_run (r : Redis F) (cfg : Tunables) (intent repo : String) (embed : List F)
    (queryText : String) (sh : Shuffle (TopicField F)) (now : Int) :
    (resolve sqrt cfg intent repo embed queryText sh now).run r
      = if cfg.resolves embed then
          let e := r.resolved sqrt cfg intent repo embed queryText sh now
          ((e.id, e.label), r.setTopic (topicsKey intent (normaliseRepo repo)) e)
        else ((intentGlobalTopic, ""), r) := by
  unfold resolve Tunables.resolves
  cases cfg.topicsEnabled with
  | false => rfl
  | true =>
    by_cases hd : embed.length = topicEmbedFloatsExpected
    · simp only [hd, ne_eq, not_true, decide_false, decide_true, Bool.not_true, Bool.or_false,
        Bool.and_true, Bool.false_eq_true, if_false, if_true, run_bind, loadBucket_run]
      rfl
    · simp [hd]

/-! ### The entry a call writes -/

/-- The index of a topic is read back from its id. -/
theorem parseTopicID_topicID {i : Nat} (hi : i < 2 ^ 63) : parseTopicID (topicID i) = some (i : Int) := by
  have hlist : (topicID i).toList = 't' :: '-' :: (toString i).toList := by
    simp [topicID, String.toList_append]
  unfold parseTopicID hasPrefix atoi
  rw [hlist, if_pos (by rfl)]
  change (parseInt (String.ofList (toString i).toList)).bind _ = _
  rw [String.ofList_toList, parseInt_toString, Option.bind_some, if_pos (by omega)]

omit [Field F] [LinearOrder F] in
/-- **A new id is the id of no topic.** Among `n + 1` indices one is not among the `n` that are used. -/
theorem nextTopicID_ne {existing : List (TopicEntry F)} (hlen : existing.length < 2 ^ 63)
    {e : TopicEntry F} (he : e ∈ existing) : e.id ≠ nextTopicID existing := by
  intro hid
  unfold nextTopicID at hid
  set used : List Int := existing.filterMap fun e => parseTopicID e.id
  change e.id = topicID _ at hid
  have hlen' : used.length ≤ existing.length := List.length_filterMap_le _ _
  cases hfind : (List.range (used.length + 1)).find? fun (i : Nat) => !used.contains (i : Int) with
  | some i =>
    rw [hfind, Option.getD_some] at hid
    have hi : i < used.length + 1 := List.mem_range.mp (List.mem_of_find?_eq_some hfind)
    -- the index of `e` is used
    have hmem : (i : Int) ∈ used := by
      refine List.mem_filterMap.mpr ⟨e, he, ?_⟩
      rw [hid]
      exact parseTopicID_topicID (by omega)
    have hfree := List.find?_some hfind
    simp [hmem] at hfree
  | none =>
    -- all indices are used, but there are more of them than used ones
    have hsub : (List.range (used.length + 1)).map (fun i : Nat => (i : Int)) ⊆ used := by
      intro n hn
      obtain ⟨i, hi, rfl⟩ := List.mem_map.mp hn
      simpa using List.find?_eq_none.mp hfind i hi
    have hnodup : ((List.range (used.length + 1)).map fun i : Nat => (i : Int)).Nodup :=
      List.nodup_range.map Nat.cast_injective
    have hle := (List.subperm_of_subset hnodup hsub).length_le
    rw [List.length_map, List.length_range] at hle
    omega

/-- The topic a query is absorbed into. -/
def absorbedBy (cfg : Tunables) (q : List F) (entries : List (TopicEntry F)) :
    Option (TopicEntry F) :=
  (nearest q entries).1.filter fun _ => decide ((nearest q entries).2 ≥ (cfg.newTopicSim : F))

/-- The call evicts: the registry is full and the query is near no topic. -/
def Evicts (cfg : Tunables) (q : List F) (entries : List (TopicEntry F)) : Prop :=
  absorbedBy cfg q entries = none ∧ cfg.maxTopics ≤ entries.length

/-- The nearest topic is one of those searched, or the one the search began with. -/
theorem nearest_fold_mem (q : List F) {e : TopicEntry F} :
    ∀ (entries : List (TopicEntry F)) (best : Option (TopicEntry F) × F),
      (entries.foldl (fun best e =>
        let sim := dot q e.centroid
        if sim > best.2 then (some e, sim) else best) best).1 = some e → best.1 = some e ∨ e ∈ entries
  | [], _, h => .inl h
  | e' :: entries, best, h => by
    rcases nearest_fold_mem q entries _ h with hbest | hmem
    · change (if dot q e'.centroid > best.2 then (some e', _) else best).1 = some e at hbest
      by_cases hsim : dot q e'.centroid > best.2
      · rw [if_pos hsim, Option.some.injEq] at hbest
        exact .inr (hbest ▸ List.mem_cons_self)
      · rw [if_neg hsim] at hbest
        exact .inl hbest
    · exact .inr (List.mem_cons_of_mem _ hmem)

theorem nearest_mem {q : List F} {entries : List (TopicEntry F)} {e : TopicEntry F}
    (h : (nearest q entries).1 = some e) : e ∈ entries :=
  (nearest_fold_mem q entries (none, -1) h).resolve_left nofun

/-- **What a call writes**: a topic of the registry with one sample more; or a topic with one sample,
under the id of an evicted topic or under a new one. -/
theorem resolveEntry_cases (cfg : Tunables) (q : List F) (queryText : String) (now : Int)
    (entries : List (TopicEntry F)) :
    (∃ e ∈ entries, (resolveEntry sqrt cfg q queryText now entries).id = e.id ∧
      (resolveEntry sqrt cfg q queryText now entries).samples = e.samples + 1) ∨
    (resolveEntry sqrt cfg q queryText now entries).samples = 1 ∧
      (Evicts cfg q entries ∨ entries.length < cfg.maxTopics ∧
        (resolveEntry sqrt cfg q queryText now entries).id = nextTopicID entries) := by
  generalize hw : resolveEntry sqrt cfg q queryText now entries = written
  unfold resolveEntry at hw
  extract_lets fresh create at hw
  -- a call that does not absorb
  have hcreate : create.samples = 1 ∧ (cfg.maxTopics ≤ entries.length ∨
      entries.length < cfg.maxTopics ∧ create.id = nextTopicID entries) := by
    by_cases hfull : entries.length ≥ cfg.maxTopics
    · simp only [create, if_pos hfull]
      refine ⟨?_, .inl hfull⟩
      split <;> rfl
    · simp only [create, if_neg hfull]
      exact ⟨rfl, .inr ⟨by omega, rfl⟩⟩
  have hmem : ∀ e, (nearest q entries).1 = some e → e ∈ entries := fun e => nearest_mem
  unfold Evicts absorbedBy
  rcases hn : nearest q entries with ⟨_ | e, sim⟩
  · rw [hn] at hw
    obtain rfl : create = written := hw
    exact .inr ⟨hcreate.1, hcreate.2.imp_left fun h => ⟨rfl, h⟩⟩
  · rw [hn] at hw hmem
    dsimp only at hw
    by_cases hsim : sim ≥ (cfg.newTopicSim : F)
    · rw [if_pos hsim] at hw
      subst hw
      exact .inl ⟨e, hmem e rfl, rfl, rfl⟩
    · rw [if_neg hsim] at hw
      subst hw
      refine .inr ⟨hcreate.1, hcreate.2.imp_left fun h => ⟨?_, h⟩⟩
      simp [hsim]

end Registry

end Devrouter
