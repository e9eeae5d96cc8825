import Mathlib.Data.Finset.Basic
import Devrouter.Anchorlearn.Runs

/-!
# The two stores of anchor learning

Model of `RedisStore` and `MemStore` in `internal/anchorlearn/store.go`: the same calls on a Redis server
and on the maps of a process.

`Refines` relates the two states and is kept by every call (`StoreCall.refines`), so the statistics, the
affinities and the discovered suffixes read the same after any run. An observation is different: its three
lists are joined with `|` on the server, and `observation_iff` says which ones come back.

No command fails and no key expires. Weights are rationals, times are whole seconds, a `nil` slice is the
empty list, and a set is read without its order.
-/

open Prog

namespace Devrouter.Anchorlearn

/-! ### The records -/

/-- `Observation`, with every field that is stored. -/
structure StoredObservation where
  queryID : String
  repo : String
  query : String
  intent : String
  files : List String
  patternIDs : List String
  services : List String
  timestamp : ℤ
  deriving DecidableEq, Repr

/-- `PatternStats`, with every field that is read; the zero time is `none`. -/
structure PatternRecord where
  patternID : String
  repo : String
  firedCount : ℤ
  successCount : ℤ
  lastSeen : Option ℤ
  deriving DecidableEq, Repr

/-- `int` of a float. -/
def truncInt (q : ℚ) : ℤ := if 0 ≤ q then ⌊q⌋ else ⌈q⌉

def discoveredKey (repo : String) : String := "anchor:discovered:" ++ repo

/-! ### Redis -/

/-- The server behind `RedisStore`: the hashes and floats, and the sets. -/
structure RedisStore where
  db : AnchorDb
  sets : String → Finset String

/-- A time in a hash, by `ParseInt`. -/
def timeField (fields : List (String × TraceValue)) (name : String) : Option ℤ :=
  match fieldOf fields name with
  | some (.text t) => parseInt t
  | _ => none

namespace RedisStore

/-- A fresh server. -/
def empty : RedisStore := ⟨.empty, fun _ => ∅⟩

variable (s : RedisStore)

def putObservation (obs : StoredObservation) : RedisStore :=
  { s with
    db := s.db.putObservation obs.queryID obs.repo obs.query obs.intent obs.files obs.patternIDs obs.services
      obs.timestamp }

def getObservation (queryID : String) : Option StoredObservation :=
  let fields := s.db.hash (obsKey queryID)
  if fields.isEmpty then none
  else
    some {
      queryID := queryID
      repo := fieldText fields "repo"
      query := fieldText fields "query"
      intent := fieldText fields "intent"
      files := splitList (fieldText fields "files")
      patternIDs := splitList (fieldText fields "pattern_ids")
      services := splitList (fieldText fields "services")
      timestamp := (timeField fields "ts").getD 0
    }

def incPatternFire (repo patternID : String) (now : ℤ) : RedisStore :=
  { s with db := ((Anchorlearn.incPatternFire repo patternID now).run s.db).2 }

def incPatternSuccess (repo patternID : String) (weight : ℚ) (now : ℤ) : RedisStore :=
  { s with db := ((Anchorlearn.incPatternSuccess repo patternID weight now).run s.db).2 }

def getPatternStats (repo patternID : String) : PatternRecord where
  patternID := patternID
  repo := repo
  firedCount := (s.db.getPatternStats repo patternID).firedCount
  successCount := (s.db.getPatternStats repo patternID).successCount
  lastSeen := timeField (s.db.hash (patternKey repo patternID)) "last_seen"

/-- `SADD`. -/
def addDiscovered (repo suffix : String) : RedisStore :=
  { s with
    sets := Function.update s.sets (discoveredKey repo) (insert suffix (s.sets (discoveredKey repo))) }

/-- `SMEMBERS`. -/
def listDiscovered (repo : String) : Finset String := s.sets (discoveredKey repo)

def incKeywordAffinity (kw patternID : String) (delta : ℚ) : RedisStore :=
  { s with db := s.db.incrbyfloat (keywordKey kw patternID) delta }

def getKeywordAffinity (kw patternID : String) : ℚ := (s.db.float (keywordKey kw patternID)).getD 0

end RedisStore

/-! ### Memory -/

/-- The maps of `MemStore`. An entry that is missing reads as the zero value of its type. -/
structure MemStore where
  obs : String → Option StoredObservation
  patternFire : String → ℤ
  patternSucc : String → ℚ
  patternSeen : String → Option ℤ
  discovered : String → Finset String
  kwAff : String → ℚ

namespace MemStore

/-- `NewMemStore`. -/
def empty : MemStore := ⟨fun _ => none, fun _ => 0, fun _ => 0, fun _ => none, fun _ => ∅, fun _ => 0⟩

variable (s : MemStore)

def putObservation (o : StoredObservation) : MemStore :=
  { s with obs := Function.update s.obs o.queryID (some o) }

def getObservation (queryID : String) : Option StoredObservation := s.obs queryID

def incPatternFire (repo patternID : String) (now : ℤ) : MemStore :=
  let key := patternKey repo patternID
  { s with
    patternFire := Function.update s.patternFire key (s.patternFire key + 1)
    patternSeen := Function.update s.patternSeen key (some now) }

def incPatternSuccess (repo patternID : String) (weight : ℚ) (now : ℤ) : MemStore :=
  let key := patternKey repo patternID
  { s with
    patternSucc := Function.update s.patternSucc key (s.patternSucc key + weight)
    patternSeen := Function.update s.patternSeen key (some now) }

def getPatternStats (repo patternID : String) : PatternRecord :=
  let key := patternKey repo patternID
  ⟨patternID, repo, s.patternFire key, truncInt (s.patternSucc key), s.patternSeen key⟩

def addDiscovered (repo suffix : String) : MemStore :=
  { s with discovered := Function.update s.discovered repo (insert suffix (s.discovered repo)) }

def listDiscovered (repo : String) : Finset String := s.discovered repo

def incKeywordAffinity (kw patternID : String) (delta : ℚ) : MemStore :=
  let key := keywordKey kw patternID
  { s with kwAff := Function.update s.kwAff key (s.kwAff key + delta) }

def getKeywordAffinity (kw patternID : String) : ℚ := s.kwAff (keywordKey kw patternID)

end MemStore

/-! ### Calls -/

/-- A call of a store that writes; `now` is the second it is made in. -/
inductive StoreCall where
  | putObservation (obs : StoredObservation)
  | incPatternFire (repo patternID : String) (now : ℤ)
  | incPatternSuccess (repo patternID : String) (weight : ℚ) (now : ℤ)
  | addDiscovered (repo suffix : String)
  | incKeywordAffinity (kw patternID : String) (delta : ℚ)
  deriving DecidableEq

namespace StoreCall

def redis (s : RedisStore) : StoreCall → RedisStore
  | .putObservation obs => s.putObservation obs
  | .incPatternFire repo patternID now => s.incPatternFire repo patternID now
  | .incPatternSuccess repo patternID weight now => s.incPatternSuccess repo patternID weight now
  | .addDiscovered repo suffix => s.addDiscovered repo suffix
  | .incKeywordAffinity kw patternID delta => s.incKeywordAffinity kw patternID delta

def mem (s : MemStore) : StoreCall → MemStore
  | .putObservation obs => s.putObservation obs
  | .incPatternFire repo patternID now => s.incPatternFire repo patternID now
  | .incPatternSuccess repo patternID weight now => s.incPatternSuccess repo patternID weight now
  | .addDiscovered repo suffix => s.addDiscovered repo suffix
  | .incKeywordAffinity kw patternID delta => s.incKeywordAffinity kw patternID delta

end StoreCall

/-- The server after a run. -/
def RedisStore.after (calls : List StoreCall) : RedisStore := calls.foldl StoreCall.redis .empty

/-- The process after a run. -/
def MemStore.after (calls : List StoreCall) : MemStore := calls.foldl StoreCall.mem .empty

/-- Every read has one answer. -/
structure SameReads (r : RedisStore) (m : MemStore) : Prop where
  observation : ∀ queryID, r.getObservation queryID = m.getObservation queryID
  patternStats : ∀ repo patternID, r.getPatternStats repo patternID = m.getPatternStats repo patternID
  keywordAffinity : ∀ kw patternID, r.getKeywordAffinity kw patternID = m.getKeywordAffinity kw patternID
  discovered : ∀ repo, r.listDiscovered repo = m.listDiscovered repo

/-! ### Joined lists -/

/-- A list that comes back from its joined form. -/
def PlainList (xs : List String) : Prop := xs ≠ [""] ∧ ∀ x ∈ xs, '|' ∉ x.toList

/-- The parts of a split text have no separator. -/
theorem not_sep_mem_splitList {t x : String} (hx : x ∈ splitList t) : '|' ∉ x.toList := by
  unfold splitList at hx
  split_ifs at hx
  · exact absurd hx List.not_mem_nil
  · obtain ⟨part, hpart, rfl⟩ := List.mem_map.mp hx
    rw [String.toList_ofList]
    exact List.notMem_of_mem_splitOn hpart

theorem splitList_joinList_iff {xs : List String} : splitList (joinList xs) = xs ↔ PlainList xs := by
  constructor
  · intro h
    refine ⟨?_, fun x hx => not_sep_mem_splitList (h.symm ▸ hx)⟩
    rintro rfl
    exact absurd h (by decide)
  · rintro ⟨hne, hplain⟩
    by_cases hnil : xs = []
    · subst hnil
      rfl
    · have hback : ((joinList xs).toList.splitOn '|').map String.ofList = xs :=
        String.splitOn_intercalate_sep rfl hplain hnil
      have hjoin : joinList xs ≠ "" := by
        intro hempty
        rw [hempty] at hback
        exact hne hback.symm
      unfold splitList
      rw [if_neg hjoin]
      exact hback

/-! ### The states that belong together -/

/-- The hash of an observation. -/
def StoredObservation.fields (o : StoredObservation) : List (String × TraceValue) :=
  [("repo", .text o.repo), ("query", .text o.query), ("intent", .text o.intent), ("files", .text (joinList o.files)),
    ("pattern_ids", .text (joinList o.patternIDs)), ("services", .text (joinList o.services)),
    ("ts", .text (toString o.timestamp))]

/-- The server holds what the process holds. -/
structure Refines (r : RedisStore) (m : MemStore) : Prop where
  obs : ∀ queryID, r.db.hash (obsKey queryID) = ((m.obs queryID).map StoredObservation.fields).getD []
  queryID : ∀ queryID o, m.obs queryID = some o → o.queryID = queryID
  counts : r.db.Counts (fun key => m.patternFire key) m.patternSucc
  seen : ∀ repo patternID, fieldOf (r.db.hash (patternKey repo patternID)) "last_seen" =
    (m.patternSeen (patternKey repo patternID)).map fun now => .text (toString now)
  discovered : ∀ repo, r.sets (discoveredKey repo) = m.discovered repo
  affinity : ∀ kw patternID, (r.db.float (keywordKey kw patternID)).getD 0 = m.kwAff (keywordKey kw patternID)

/-- The fields of a new observation replace those of an old one. -/
theorem foldl_hsetField_fields (o : StoredObservation) (old : Option StoredObservation) :
    o.fields.foldl hsetField ((old.map StoredObservation.fields).getD []) = o.fields := by
  cases old with
  | none => rfl
  | some o' => rfl

theorem discoveredKey_inj {repo repo' : String} : discoveredKey repo = discoveredKey repo' ↔ repo = repo' := by
  unfold discoveredKey
  rw [← String.toList_inj, String.toList_append, String.toList_append, List.append_cancel_left_eq, String.toList_inj]

theorem raise_eq_update (F : String → ℚ) (key : String) (w : ℚ) :
    raise F key w = Function.update F key (F key + w) := by
  funext k
  unfold raise
  by_cases hk : k = key
  · rw [if_pos hk, hk, Function.update_self]
  · rw [if_neg hk, add_zero, Function.update_of_ne hk]

theorem refines_empty : Refines .empty .empty where
  obs _ := rfl
  queryID _ _ h := absurd h (by simp [MemStore.empty])
  counts := ⟨fun _ _ => by simp [RedisStore.empty, AnchorDb.empty, number, fieldOf, MemStore.empty],
    fun _ _ => rfl⟩
  seen _ _ := rfl
  discovered _ := rfl
  affinity _ _ := rfl

namespace Refines

variable {r : RedisStore} {m : MemStore}

theorem putObservation (h : Refines r m) (o : StoredObservation) :
    Refines (r.putObservation o) (m.putObservation o) where
  obs queryID := by
    -- the observation is written under its own key in both stores
    by_cases hq : queryID = o.queryID
    · subst hq
      have hput : (r.putObservation o).db.hash (obsKey o.queryID) =
          o.fields.foldl hsetField (r.db.hash (obsKey o.queryID)) := Function.update_self ..
      have hmem : (m.putObservation o).obs o.queryID = some o := Function.update_self ..
      rw [hput, hmem, h.obs, foldl_hsetField_fields]
      rfl
    · have hput : (r.putObservation o).db.hash (obsKey queryID) = r.db.hash (obsKey queryID) :=
        Function.update_of_ne (fun heq => hq (obsKey_inj.mp heq)) ..
      have hmem : (m.putObservation o).obs queryID = m.obs queryID := Function.update_of_ne hq ..
      rw [hput, hmem, h.obs]
  queryID queryID o' ho' := by
    by_cases hq : queryID = o.queryID
    · subst hq
      have hmem : (m.putObservation o).obs o.queryID = some o := Function.update_self ..
      rw [Option.some.inj (hmem.symm.trans ho')]
    · have hmem : (m.putObservation o).obs queryID = m.obs queryID := Function.update_of_ne hq ..
      exact h.queryID queryID o' (hmem ▸ ho')
  counts := h.counts.of_hash fun repo patternID =>
    Function.update_of_ne (patternKey_ne_obsKey repo patternID o.queryID) ..
  -- a pattern's key is no observation's, so the rest stays
  seen repo patternID := by
    have hput : (r.putObservation o).db.hash (patternKey repo patternID) = r.db.hash (patternKey repo patternID) :=
      Function.update_of_ne (patternKey_ne_obsKey repo patternID o.queryID) ..
    rw [hput]
    exact h.seen repo patternID
  discovered := h.discovered
  affinity := h.affinity

/-- A statistic is raised, and its pattern was seen now. -/
theorem incStat (h : Refines r m) {repo patternID field : String} {x w : ℚ} {now : ℤ}
    (hx : number (r.db.hash (patternKey repo patternID)) field = some x) {fire : String → ℤ} {succ : String → ℚ}
    (hcounts : (((Anchorlearn.incStat (patternKey repo patternID) field w now).run r.db).2).Counts
      (fun key => fire key) succ) :
    Refines { r with db := ((Anchorlearn.incStat (patternKey repo patternID) field w now).run r.db).2 }
      { m with
        patternFire := fire
        patternSucc := succ
        patternSeen := Function.update m.patternSeen (patternKey repo patternID) (some now) } where
  obs queryID := (incStat_sameObservations hx w now queryID).trans (h.obs queryID)
  queryID := h.queryID
  counts := hcounts
  seen repo' patternID' := by
    -- the pattern is seen now, and the others when they were
    by_cases hkey : patternKey repo' patternID' = patternKey repo patternID
    · dsimp only
      rw [hkey, incStat_run hx, hash_hset_self, fieldOf_hsetField, if_pos rfl, Function.update_self]
      rfl
    · dsimp only
      rw [hash_incStat_of_ne hx hkey, Function.update_of_ne hkey]
      exact h.seen repo' patternID'
  discovered := h.discovered
  affinity kw patternID' := by
    dsimp only
    rw [incStat_run hx]
    exact h.affinity kw patternID'

theorem incPatternFire (h : Refines r m) (repo patternID : String) (now : ℤ) :
    Refines (r.incPatternFire repo patternID now) (m.incPatternFire repo patternID now) := by
  refine h.incStat (h.counts.fired repo patternID) ((h.counts.incPatternFire repo patternID now).congr ?_ fun _ => rfl)
  intro key
  rw [raise_eq_update]
  by_cases hk : key = patternKey repo patternID
  · subst hk
    rw [Function.update_self, Function.update_self]
    push_cast
    rfl
  · rw [Function.update_of_ne hk, Function.update_of_ne hk]

theorem incPatternSuccess (h : Refines r m) (repo patternID : String) (w : ℚ) (now : ℤ) :
    Refines (r.incPatternSuccess repo patternID w now) (m.incPatternSuccess repo patternID w now) := by
  refine h.incStat (h.counts.success repo patternID)
    ((h.counts.incPatternSuccess repo patternID w now).congr (fun _ => rfl) fun key => ?_)
  rw [raise_eq_update]

theorem addDiscovered (h : Refines r m) (repo suffix : String) :
    Refines (r.addDiscovered repo suffix) (m.addDiscovered repo suffix) where
  obs := h.obs
  queryID := h.queryID
  counts := h.counts
  seen := h.seen
  discovered repo' := by
    unfold RedisStore.addDiscovered MemStore.addDiscovered
    dsimp only
    by_cases hrepo : repo' = repo
    · subst hrepo
      rw [Function.update_self, Function.update_self, h.discovered]
    · rw [Function.update_of_ne hrepo, Function.update_of_ne fun heq => hrepo (discoveredKey_inj.mp heq)]
      exact h.discovered repo'
  affinity := h.affinity

theorem incKeywordAffinity (h : Refines r m) (kw patternID : String) (delta : ℚ) :
    Refines (r.incKeywordAffinity kw patternID delta) (m.incKeywordAffinity kw patternID delta) where
  obs := h.obs
  queryID := h.queryID
  counts := h.counts.of_hash fun _ _ => rfl
  seen := h.seen
  discovered := h.discovered
  affinity kw' patternID' := by
    unfold RedisStore.incKeywordAffinity MemStore.incKeywordAffinity AnchorDb.incrbyfloat
    dsimp only
    by_cases hkey : keywordKey kw' patternID' = keywordKey kw patternID
    · rw [hkey, Function.update_self, Function.update_self, ← h.affinity]
      rfl
    · rw [Function.update_of_ne hkey, Function.update_of_ne hkey]
      exact h.affinity kw' patternID'

end Refines

/-- **Step.** Every call keeps the two states together. -/
theorem StoreCall.refines {r : RedisStore} {m : MemStore} (h : Refines r m) (c : StoreCall) :
    Refines (c.redis r) (c.mem m) := by
  cases c with
  | putObservation obs => exact h.putObservation obs
  | incPatternFire repo patternID now => exact h.incPatternFire repo patternID now
  | incPatternSuccess repo patternID weight now => exact h.incPatternSuccess repo patternID weight now
  | addDiscovered repo suffix => exact h.addDiscovered repo suffix
  | incKeywordAffinity kw patternID delta => exact h.incKeywordAffinity kw patternID delta

/-- **Run.** So does every run. -/
theorem refines_after (calls : List StoreCall) : Refines (.after calls) (.after calls) :=
  List.foldl_rel refines_empty fun c _ _ _ h => c.refines h

/-! ### What is read -/

/-- The lists of an observation come back as they were. -/
structure StoredObservation.Plain (o : StoredObservation) : Prop where
  files : PlainList o.files
  patternIDs : PlainList o.patternIDs
  services : PlainList o.services

/-- An observation after its lists were joined and split. -/
def StoredObservation.rejoined (o : StoredObservation) : StoredObservation :=
  { o with
    files := splitList (joinList o.files)
    patternIDs := splitList (joinList o.patternIDs)
    services := splitList (joinList o.services) }

theorem StoredObservation.rejoined_eq_iff {o : StoredObservation} : o.rejoined = o ↔ o.Plain := by
  constructor
  · intro h
    exact ⟨splitList_joinList_iff.mp (congrArg files h), splitList_joinList_iff.mp (congrArg patternIDs h),
      splitList_joinList_iff.mp (congrArg services h)⟩
  · intro h
    unfold rejoined
    rw [splitList_joinList_iff.mpr h.files, splitList_joinList_iff.mpr h.patternIDs,
      splitList_joinList_iff.mpr h.services]

theorem statInt_eq_truncInt {fields : List (String × TraceValue)} {name : String} {x : ℚ}
    (h : number fields name = some x) : statInt fields name = truncInt x := by
  unfold number at h
  unfold statInt
  cases hf : fieldOf fields name with
  | none =>
    rw [hf] at h
    obtain rfl : 0 = x := Option.some.inj h
    rfl
  | some v =>
    rw [hf] at h
    cases v with
    | text t => exact absurd h (by simp)
    | real q =>
      obtain rfl : q = x := Option.some.inj h
      rfl

theorem truncInt_intCast (n : ℤ) : truncInt n = n := by
  unfold truncInt
  rw [Int.floor_intCast, Int.ceil_intCast, ite_self]

namespace Refines

variable {r : RedisStore} {m : MemStore}

theorem getObservation (h : Refines r m) (queryID : String) :
    r.getObservation queryID = (m.obs queryID).map StoredObservation.rejoined := by
  unfold RedisStore.getObservation
  rw [h.obs]
  cases ho : m.obs queryID with
  | none => rfl
  | some o =>
    obtain rfl := h.queryID queryID o ho
    have hts : timeField o.fields "ts" = some o.timestamp := parseInt_int o.timestamp
    change some _ = some o.rejoined
    dsimp only [Option.map_some, Option.getD_some]
    rw [hts]
    rfl

theorem getPatternStats (h : Refines r m) (repo patternID : String) :
    r.getPatternStats repo patternID = m.getPatternStats repo patternID := by
  have hfired : (r.db.getPatternStats repo patternID).firedCount = m.patternFire (patternKey repo patternID) :=
    (statInt_eq_truncInt (h.counts.fired repo patternID)).trans (truncInt_intCast _)
  have hsuccess : (r.db.getPatternStats repo patternID).successCount =
      truncInt (m.patternSucc (patternKey repo patternID)) :=
    statInt_eq_truncInt (h.counts.success repo patternID)
  have hseen : timeField (r.db.hash (patternKey repo patternID)) "last_seen" =
      m.patternSeen (patternKey repo patternID) := by
    unfold timeField
    rw [h.seen]
    cases m.patternSeen (patternKey repo patternID) with
    | none => rfl
    | some now => exact parseInt_int now
  unfold RedisStore.getPatternStats MemStore.getPatternStats
  rw [hfired, hsuccess, hseen]

/-- Everything reads the same, save observations whose lists do not come back. -/
theorem sameReads_iff (h : Refines r m) :
    SameReads r m ↔ ∀ queryID o, m.obs queryID = some o → o.Plain := by
  have hiff : ∀ queryID, r.getObservation queryID = m.getObservation queryID ↔
      ∀ o, m.obs queryID = some o → o.Plain := by
    intro queryID
    rw [h.getObservation]
    unfold MemStore.getObservation
    cases m.obs queryID with
    | none => simp
    | some o => simp [StoredObservation.rejoined_eq_iff]
  constructor
  · intro hsame queryID
    exact (hiff queryID).mp (hsame.observation queryID)
  · intro hplain
    exact ⟨fun queryID => (hiff queryID).mpr (hplain queryID), h.getPatternStats, h.affinity, h.discovered⟩

end Refines

/-! ### Runs -/

theorem MemStore.after_concat (calls : List StoreCall) (c : StoreCall) :
    MemStore.after (calls ++ [c]) = c.mem (MemStore.after calls) := by
  unfold MemStore.after
  rw [List.foldl_append]
  rfl

/-- What the process holds was put. -/
theorem MemStore.put_of_obs {calls : List StoreCall} {queryID : String} {o : StoredObservation}
    (h : (MemStore.after calls).obs queryID = some o) : .putObservation o ∈ calls := by
  induction calls using List.reverseRecOn with
  | nil => exact absurd h (by simp [MemStore.after, MemStore.empty])
  | append_singleton calls c ih =>
    rw [MemStore.after_concat] at h
    cases c with
    | putObservation o' =>
      by_cases hq : queryID = o'.queryID
      · -- the last put of the query is what is stored
        subst hq
        have hput : (StoreCall.mem (.after calls) (.putObservation o')).obs o'.queryID = some o' :=
          Function.update_self ..
        obtain rfl := Option.some.inj (hput.symm.trans h)
        exact List.mem_append_right calls List.mem_cons_self
      · -- a put of another query leaves it
        have hput : (StoreCall.mem (.after calls) (.putObservation o')).obs queryID = (MemStore.after calls).obs queryID :=
          Function.update_of_ne hq ..
        exact List.mem_append_left _ (ih (hput ▸ h))
    | incPatternFire => exact List.mem_append_left _ (ih h)
    | incPatternSuccess => exact List.mem_append_left _ (ih h)
    | addDiscovered => exact List.mem_append_left _ (ih h)
    | incKeywordAffinity => exact List.mem_append_left _ (ih h)

/-- **The stores are interchangeable** along a run exactly when it puts only observations whose lists come
back. -/
theorem stores_agree_iff (calls : List StoreCall) :
    (∀ run, run <+: calls → SameReads (.after run) (.after run)) ↔
      ∀ o, .putObservation o ∈ calls → o.Plain := by
  constructor
  · intro hsame o ho
    obtain ⟨before, rest, rfl⟩ := List.append_of_mem ho
    -- the read right after the observation was put
    have hprefix : before ++ [.putObservation o] <+: before ++ .putObservation o :: rest :=
      (List.prefix_append_right_inj before).mpr (List.prefix_append [.putObservation o] rest)
    have hput : (MemStore.after (before ++ [.putObservation o])).obs o.queryID = some o := by
      rw [MemStore.after_concat]
      exact Function.update_self ..
    exact (refines_after _).sameReads_iff.mp (hsame _ hprefix) o.queryID o hput
  · intro hplain run hrun
    refine (refines_after run).sameReads_iff.mpr fun queryID o ho => ?_
    exact hplain o (hrun.subset (MemStore.put_of_obs ho))

/-- A file that the agent kept saving has the separator in its name. -/
def pipedFile : List StoreCall :=
  [.putObservation ⟨"q1", "goserving", "where does oscar start", "trace", ["oscar/a|b.go"], ["a|b.go"], ["oscar"], 0⟩]

/-- It comes back as two files of two patterns. -/
theorem pipedFile_split :
    ((RedisStore.after pipedFile).getObservation "q1").map (fun o => (o.files, o.patternIDs)) =
        some (["oscar/a", "b.go"], ["a", "b.go"]) ∧
      ((MemStore.after pipedFile).getObservation "q1").map (fun o => (o.files, o.patternIDs)) =
        some (["oscar/a|b.go"], ["a|b.go"]) ∧
      ¬ SameReads (.after pipedFile) (.after pipedFile) := by
  have hredis : ((RedisStore.after pipedFile).getObservation "q1").map (fun o => (o.files, o.patternIDs)) =
      some (["oscar/a", "b.go"], ["a", "b.go"]) := by decide +kernel
  have hmem : ((MemStore.after pipedFile).getObservation "q1").map (fun o => (o.files, o.patternIDs)) =
      some (["oscar/a|b.go"], ["a|b.go"]) := by decide +kernel
  refine ⟨hredis, hmem, fun hsame => ?_⟩
  rw [hsame.observation "q1", hmem] at hredis
  exact absurd hredis (by decide)

end Devrouter.Anchorlearn
