import Mathlib.Algebra.Order.Floor.Ring
import Mathlib.Data.Rat.Floor
import Devrouter.Lib.Ledger
import Devrouter.Lib.Machine
import Devrouter.Router.TraceRecords
import Devrouter.Anchorlearn.Decide

/-!
# Fires and successes

Model of `RecordObservation`, `NoteRecentQuery`, `RewardFeedback` and `RewardMemorySave` in
`internal/anchorlearn/learner.go` as the calls of a machine over the server and the ring of recent
queries. No command fails.

Every fire of a pattern is a unit of a ledger, issued to the scopes it was counted in; a reward pays
against the unit of the anchor it credits. The statistics in the store are the two sides of that ledger
(`Books`), so successes stay below fires as long as no fire is overdrawn. The code keeps no such ledger:
`twice_rewarded` rewards one anchor twice.
-/

open Prog

namespace Devrouter.Anchorlearn

/-! ### The store -/

/-- `joinList`. -/
def joinList (xs : List String) : String := "|".intercalate xs

/-- `HINCRBYFLOAT` on a statistic, then the time. -/
def incStat (key field : String) (weight : ℚ) (now : Int) : Prog anchorRedis Unit := do
  let r ← call (V := anchorRedis) (.hincrbyfloat key field weight)
  if r.join.isSome then
    let _ ← call (V := anchorRedis) (.hset key ("last_seen", .text (toString now)))
    return ()
  else return ()

/-- `IncPatternFire`. Its `HINCRBY` counts by one in a field that nothing else writes. -/
def incPatternFire (repo patternID : String) (now : Int) : Prog anchorRedis Unit :=
  incStat (patternKey repo patternID) "fired" 1 now

/-- `PutObservation`. -/
def AnchorDb.putObservation (db : AnchorDb) (queryID repo query intent : String) (files patternIDs services : List String)
    (ts : Int) : AnchorDb :=
  { db with
    hash := Function.update db.hash (obsKey queryID) (
      [("repo", .text repo), ("query", .text query), ("intent", .text intent), ("files", .text (joinList files)),
        ("pattern_ids", .text (joinList patternIDs)), ("services", .text (joinList services)),
        ("ts", .text (toString ts))].foldl hsetField (db.hash (obsKey queryID))) }

/-- A number in a hash, as `GetPatternStats` reads it: towards zero. -/
def statInt (fields : List (String × TraceValue)) (name : String) : ℤ :=
  match fieldOf fields name with
  | some (.real q) => if 0 ≤ q then ⌊q⌋ else ⌈q⌉
  | _ => 0

/-- `GetPatternStats`. -/
def AnchorDb.getPatternStats (db : AnchorDb) (repo patternID : String) : PatternStats :=
  ⟨statInt (db.hash (patternKey repo patternID)) "fired", statInt (db.hash (patternKey repo patternID)) "success"⟩

/-- The observation of a query, with the services it was made for. -/
def AnchorDb.observation (db : AnchorDb) (queryID : String) : Option (Observation × List String) :=
  (Observation.ofFields (db.hash (obsKey queryID))).map fun obs =>
    (obs, splitList (fieldText (db.hash (obsKey queryID)) "services"))

/-! ### The learner -/

/-- The server, the discovered sets and the ring of recent queries of each repo. -/
structure LearnerState where
  db : AnchorDb
  discovered : String → List String
  recent : String → List String

def recentObsRingSize : ℕ := 32

/-- `push`. -/
def pushRecent (xs : List String) (queryID : String) : List String :=
  (if recentObsRingSize ≤ xs.length then xs.tail else xs) ++ [queryID]

/-- The increments of `RecordObservation`. -/
def fireAll (repo : String) (now : Int) : List Candidate → Prog anchorRedis Unit
  | [] => return ()
  | c :: cs => do
    incPatternFire "" c.pattern.id now
    incPatternFire repo c.pattern.id now
    fireAll repo now cs

namespace LearnerState

/-- `RecordObservation`; `sh` is the order in which the set of services is ranged over. -/
def recordObservation (s : LearnerState) (sh : Shuffle String) (queryID repo query intent : String)
    (candidates : List Candidate) (now : Int) : LearnerState :=
  if queryID = "" ∨ candidates = [] then s
  else
    { s with
      db := (((fireAll repo now candidates).run s.db).2).putObservation queryID repo query intent
        (candidates.map (·.path)) (candidates.map (·.pattern.id))
        (sh.toFun (candidates.map (·.service)).dedup) now }

/-- `NoteRecentQuery`. -/
def noteRecentQuery (s : LearnerState) (repo queryID : String) : LearnerState :=
  if queryID = "" then s
  else { s with recent := Function.update s.recent repo (pushRecent (s.recent repo) queryID) }

/-- `snapshotRecent`, each observation with the query it was stored for. -/
def snapshotRecent (s : LearnerState) (repo : String) : List (String × Observation × List String) :=
  (s.recent repo).filterMap fun id => (s.db.observation id).map fun o => (id, o)

/-- `isKnownSuffix`. -/
def isKnownSuffix (s : LearnerState) (repo suffix : String) : Bool :=
  (defaultStaticPatterns.map (·.suffix)).contains suffix || (s.discovered repo).contains suffix

end LearnerState

/-- The first anchor of a file that has a pattern: its index and the pattern. -/
def anchorHit (file : String) : ℕ → List String → List String → Option (ℕ × String)
  | _, [], _ => none
  | i, anchored :: files, patternIDs =>
    if anchored = file ∧ patternIDs.headD "" ≠ "" then some (i, patternIDs.headD "")
    else anchorHit file (i + 1) files patternIDs.tail

/-- The suffix of a file under one of the services that is a candidate for promotion; `known` are those
that are not promoted again. -/
def promotedSuffix (known : String → Bool) (file : String) : List String → Option String
  | [] => none
  | svc :: services =>
    if hasPrefix file (svc ++ "/") then
      let suffix := String.ofList (file.toList.drop (svc ++ "/").length)
      if suffix = "" ∨ ['.', '.'] <:+: suffix.toList then promotedSuffix known file services
      else if known suffix then none
      else some suffix
    else promotedSuffix known file services

namespace LearnerState

/-- A suffix enters the discovered set, with one fire and a success. -/
def discover (s : LearnerState) (obs : Observation) (suffix : String) (now : Int) : LearnerState where
  db := ((do
    incPatternFire obs.repo suffix now
    incPatternSuccess obs.repo suffix (1 / 2) now
    incKeywordAffinities suffix (1 / 2) obs.keywords : Prog anchorRedis Unit).run s.db).2
  discovered := Function.update s.discovered obs.repo (s.discovered obs.repo ++ [suffix])
  recent := s.recent

/-- `attributeMemorySave`. -/
def attributeMemorySave (s : LearnerState) (obs : Observation) (services : List String) (file : String)
    (now : Int) : LearnerState :=
  match anchorHit file 0 obs.files obs.patternIDs with
  | some (_, patternID) => { s with db := ((creditPattern obs patternID (1 / 2) now).run s.db).2 }
  | none =>
    match promotedSuffix (s.isKnownSuffix obs.repo) file services with
    | none => s
    | some suffix => s.discover obs suffix now

/-- `RewardMemorySave`. -/
def rewardMemorySave (s : LearnerState) (repo file : String) (now : Int) : LearnerState :=
  if file = "" then s
  else (s.snapshotRecent repo).foldl (fun s o => s.attributeMemorySave o.2.1 o.2.2 file now) s

end LearnerState

/-- A call of the learner. -/
inductive LearnerCall where
  | record (sh : Shuffle String) (queryID repo query intent : String) (candidates : List Candidate) (now : Int)
  | note (repo queryID : String)
  | feedback (queryID : String) (additionalFiles : List String) (success : Bool) (now : Int)
  | memorySave (repo file : String) (now : Int)

def LearnerCall.step (s : LearnerState) : LearnerCall → LearnerState
  | .record sh queryID repo query intent candidates now =>
    s.recordObservation sh queryID repo query intent candidates now
  | .note repo queryID => s.noteRecentQuery repo queryID
  | .feedback queryID additionalFiles success now =>
    { s with db := ((rewardFeedback queryID additionalFiles success now).run s.db).2 }
  | .memorySave repo file now => s.rewardMemorySave repo file now

/-! ### What the increments write -/

theorem patternKey_ne_obsKey (repo patternID queryID : String) : patternKey repo patternID ≠ obsKey queryID := by
  intro h
  have hchars := congrArg String.toList h
  unfold patternKey obsKey at hchars
  split_ifs at hchars <;> simp at hchars

/-- A counter in a hash: zero when it is missing, none when it is no number. -/
def number (fields : List (String × TraceValue)) (name : String) : Option ℚ :=
  match fieldOf fields name with
  | none => some 0
  | some (.real q) => some q
  | some (.text _) => none

section IncStat

variable {db : AnchorDb} {key field : String} {x : ℚ}

theorem incrValue_of_number (hx : number (db.hash key) field = some x) (weight : ℚ) :
    incrValue weight ((db.hash key).find? (·.1 = field)) = some (x + weight) := by
  unfold number fieldOf at hx
  cases hfind : (db.hash key).find? (·.1 = field) with
  | none =>
    rw [hfind] at hx
    obtain rfl : 0 = x := Option.some.inj hx
    rw [zero_add]
    rfl
  | some f =>
    obtain ⟨name, v⟩ := f
    rw [hfind] at hx
    cases v with
    | text t => exact absurd hx (by simp)
    | real q =>
      obtain rfl : q = x := Option.some.inj hx
      rfl

theorem apply_hincrbyfloat (hx : number (db.hash key) field = some x) (weight : ℚ) :
    AnchorCmd.apply (.hincrbyfloat key field weight) db = (some (), db.hset key (field, .real (x + weight))) := by
  simp only [AnchorCmd.apply, incrValue_of_number hx]

/-- The number is raised, and the time is set. -/
theorem incStat_run (hx : number (db.hash key) field = some x) (weight : ℚ) (now : Int) :
    (incStat key field weight now).run db =
      ((), (db.hset key (field, .real (x + weight))).hset key ("last_seen", .text (toString now))) := by
  have hcmd : anchorRedis.apply (.hincrbyfloat key field weight) db =
      (some (), db.hset key (field, .real (x + weight))) := apply_hincrbyfloat hx weight
  unfold incStat
  rw [run_bind, run_call, hcmd]
  rfl

theorem hash_hset_self (f : String × TraceValue) : (db.hset key f).hash key = hsetField (db.hash key) f :=
  Function.update_self ..

theorem hash_hset_of_ne {key' : String} (h : key' ≠ key) (f : String × TraceValue) :
    (db.hset key f).hash key' = db.hash key' := Function.update_of_ne h ..

/-- A field that is set leaves the other counters as they are. -/
theorem number_hset_of_ne {name field : String} (h : name ≠ field) (v : TraceValue) (key' : String) :
    number ((db.hset key (field, v)).hash key') name = number (db.hash key') name := by
  by_cases hkey : key' = key
  · subst hkey
    rw [hash_hset_self]
    unfold number
    rw [fieldOf_hsetField, if_neg h]
  · rw [hash_hset_of_ne hkey]

theorem number_hset_real (field : String) (q : ℚ) (key' name : String) :
    number ((db.hset key (field, .real q)).hash key') name =
      if key' = key ∧ name = field then some q else number (db.hash key') name := by
  by_cases hkey : key' = key ∧ name = field
  · obtain ⟨rfl, rfl⟩ := hkey
    rw [if_pos ⟨rfl, rfl⟩, hash_hset_self]
    unfold number
    rw [fieldOf_hsetField, if_pos rfl]
  · rw [if_neg hkey]
    by_cases hname : name = field
    · rw [hash_hset_of_ne fun h => hkey ⟨h, hname⟩]
    · exact number_hset_of_ne hname _ key'

/-- Other keys are not written. -/
theorem hash_incStat_of_ne (hx : number (db.hash key) field = some x) {key' : String} (h : key' ≠ key)
    (weight : ℚ) (now : Int) : (((incStat key field weight now).run db).2).hash key' = db.hash key' := by
  rw [incStat_run hx, hash_hset_of_ne h, hash_hset_of_ne h]

end IncStat

/-- The counters of every pattern, in every scope, are `F` and `S`. -/
structure AnchorDb.Counts (db : AnchorDb) (F S : String → ℚ) : Prop where
  fired : ∀ repo patternID, number (db.hash (patternKey repo patternID)) "fired" = some (F (patternKey repo patternID))
  success : ∀ repo patternID,
    number (db.hash (patternKey repo patternID)) "success" = some (S (patternKey repo patternID))

/-- One entry raised. -/
def raise (F : String → ℚ) (key : String) (w : ℚ) : String → ℚ := fun k => F k + if k = key then w else 0

namespace AnchorDb.Counts

variable {db : AnchorDb} {F S : String → ℚ}

theorem congr {F' S' : String → ℚ} (h : db.Counts F S) (hF : ∀ k, F k = F' k) (hS : ∀ k, S k = S' k) :
    db.Counts F' S' := by
  rwa [← funext hF, ← funext hS]

theorem of_hash {db' : AnchorDb} (h : db.Counts F S)
    (hhash : ∀ repo patternID, db'.hash (patternKey repo patternID) = db.hash (patternKey repo patternID)) :
    db'.Counts F S :=
  ⟨fun repo patternID => by rw [hhash]; exact h.fired repo patternID,
    fun repo patternID => by rw [hhash]; exact h.success repo patternID⟩

/-- Another field of a hash. -/
theorem hset_of_ne (h : db.Counts F S) {field : String} (hfired : "fired" ≠ field) (hsuccess : "success" ≠ field)
    (key : String) (v : TraceValue) : (db.hset key (field, v)).Counts F S := by
  refine ⟨fun r p => ?_, fun r p => ?_⟩
  · rw [number_hset_of_ne hfired]
    exact h.fired r p
  · rw [number_hset_of_ne hsuccess]
    exact h.success r p

theorem hset_fired (h : db.Counts F S) (key : String) (w : ℚ) :
    (db.hset key ("fired", .real (F key + w))).Counts (raise F key w) S := by
  refine ⟨fun r p => ?_, fun r p => ?_⟩
  · unfold raise
    rw [number_hset_real, h.fired r p]
    by_cases hkey : patternKey r p = key
    · rw [if_pos ⟨hkey, rfl⟩, if_pos hkey, hkey]
    · rw [if_neg fun h => hkey h.1, if_neg hkey, add_zero]
  · rw [number_hset_of_ne (by decide)]
    exact h.success r p

theorem hset_success (h : db.Counts F S) (key : String) (w : ℚ) :
    (db.hset key ("success", .real (S key + w))).Counts F (raise S key w) := by
  refine ⟨fun r p => ?_, fun r p => ?_⟩
  · rw [number_hset_of_ne (by decide)]
    exact h.fired r p
  · unfold raise
    rw [number_hset_real, h.success r p]
    by_cases hkey : patternKey r p = key
    · rw [if_pos ⟨hkey, rfl⟩, if_pos hkey, hkey]
    · rw [if_neg fun h => hkey h.1, if_neg hkey, add_zero]

theorem incPatternFire (h : db.Counts F S) (repo patternID : String) (now : Int) :
    (((Anchorlearn.incPatternFire repo patternID now).run db).2).Counts (raise F (patternKey repo patternID) 1) S := by
  unfold Anchorlearn.incPatternFire
  rw [incStat_run (h.fired repo patternID)]
  exact (h.hset_fired _ 1).hset_of_ne (by decide) (by decide) _ _

theorem incPatternSuccess (h : db.Counts F S) (repo patternID : String) (w : ℚ) (now : Int) :
    (((Anchorlearn.incPatternSuccess repo patternID w now).run db).2).Counts F
      (raise S (patternKey repo patternID) w) := by
  have hinc : Anchorlearn.incPatternSuccess repo patternID w now =
      incStat (patternKey repo patternID) "success" w now := rfl
  rw [hinc, incStat_run (h.success repo patternID)]
  exact (h.hset_success _ w).hset_of_ne (by decide) (by decide) _ _

end AnchorDb.Counts

/-- The observations are the same. -/
def AnchorDb.SameObservations (db db' : AnchorDb) : Prop :=
  ∀ queryID, db'.hash (obsKey queryID) = db.hash (obsKey queryID)

theorem AnchorDb.SameObservations.trans {db db' db'' : AnchorDb} (h : db.SameObservations db')
    (h' : db'.SameObservations db'') : db.SameObservations db'' :=
  fun queryID => (h' queryID).trans (h queryID)

theorem AnchorDb.SameObservations.observation_eq {db db' : AnchorDb} (h : db.SameObservations db')
    (queryID : String) : db'.observation queryID = db.observation queryID := by
  unfold AnchorDb.observation
  rw [h queryID]

/-- An increment of a pattern spares the observations. -/
theorem incStat_sameObservations {db : AnchorDb} {repo patternID field : String} {x : ℚ}
    (hx : number (db.hash (patternKey repo patternID)) field = some x) (w : ℚ) (now : Int) :
    db.SameObservations ((incStat (patternKey repo patternID) field w now).run db).2 :=
  fun queryID => hash_incStat_of_ne hx (patternKey_ne_obsKey repo patternID queryID).symm w now

/-- Affinities are not in a hash. -/
theorem incKeywordAffinities_hash (patternID : String) (w : ℚ) (kws : List String) (db : AnchorDb) :
    (((incKeywordAffinities patternID w kws).run db).2).hash = db.hash := by
  induction kws generalizing db with
  | nil => rfl
  | cons kw kws ih =>
    unfold incKeywordAffinities
    rw [run_bind]
    exact ih _

/-! ### Payments -/

/-- The statistics are the two sides of the ledger. -/
def AnchorDb.Tallies (db : AnchorDb) (L : Ledger String) : Prop := db.Counts L.issued L.spent

/-- The scopes a fire of `RecordObservation` is counted in. -/
def scopes (repo patternID : String) : List String := [patternKey "" patternID, patternKey repo patternID]

variable {db : AnchorDb} {L : Ledger String}

theorem count_scopes (repo patternID k : String) : ((scopes repo patternID).count k : ℚ) =
    (if k = patternKey "" patternID then 1 else 0) + if k = patternKey repo patternID then 1 else 0 := by
  unfold scopes
  rw [List.count_cons, List.count_cons, List.count_nil, zero_add, add_comm]
  push_cast
  simp only [beq_iff_eq, eq_comm (b := k)]

/-- Crediting a pattern is a payment against one of its fires. -/
theorem creditPattern_tallies (h : db.Tallies L) {obs : Observation} {patternID : String} {v : ℕ}
    (hv : v < L.count) (hscopes : L.accounts v = scopes obs.repo patternID) (w : ℚ) (now : Int) :
    (((creditPattern obs patternID w now).run db).2).Tallies (L.pay v w) ∧
      db.SameObservations ((creditPattern obs patternID w now).run db).2 := by
  have hglobal := AnchorDb.Counts.incPatternSuccess h "" patternID w now
  have hboth := hglobal.incPatternSuccess obs.repo patternID w now
  have hsame := (incStat_sameObservations (h.success "" patternID) w now).trans
    (incStat_sameObservations (hglobal.success obs.repo patternID) w now)
  have hhash := incKeywordAffinities_hash patternID w obs.keywords
    ((incPatternSuccess obs.repo patternID w now).run ((incPatternSuccess "" patternID w now).run db).2).2
  unfold creditPattern
  rw [run_bind, run_bind]
  refine ⟨(hboth.of_hash fun r p => congrFun hhash _).congr (fun _ => rfl) fun k => ?_,
    fun queryID => (congrFun hhash _).trans (hsame queryID)⟩
  rw [Ledger.spent_pay L hv, hscopes, count_scopes, mul_add]
  simp only [raise, mul_ite, mul_one, mul_zero, add_assoc]

/-- The anchors a feedback credits, by index. -/
def rewardedAnchors (additionalFiles : List String) : ℕ → List String → List String → List ℕ
  | _, [], _ => []
  | i, file :: files, patternIDs =>
    if additionalFiles.contains file && decide (patternIDs.headD "" ≠ "") then
      i :: rewardedAnchors additionalFiles (i + 1) files patternIDs.tail
    else rewardedAnchors additionalFiles (i + 1) files patternIDs.tail

/-- Each anchor of an observation, from index `i` on, has its fire. -/
def Fired (L : Ledger String) (fire : ℕ → ℕ) (repo : String) (i : ℕ) (patternIDs : List String) : Prop :=
  ∀ j p, patternIDs[j]? = some p → p ≠ "" → fire (i + j) < L.count ∧ L.accounts (fire (i + j)) = scopes repo p

theorem Fired.head {fire : ℕ → ℕ} {repo : String} {i : ℕ} {patternIDs : List String}
    (h : Fired L fire repo i patternIDs) (hne : patternIDs.headD "" ≠ "") :
    fire i < L.count ∧ L.accounts (fire i) = scopes repo (patternIDs.headD "") := by
  cases patternIDs with
  | nil => exact absurd rfl hne
  | cons p ps => exact h 0 p rfl hne

theorem Fired.tail {fire : ℕ → ℕ} {repo : String} {i : ℕ} {patternIDs : List String}
    (h : Fired L fire repo i patternIDs) : Fired L fire repo (i + 1) patternIDs.tail := by
  intro j p hp hne
  cases patternIDs with
  | nil => exact absurd hp (by simp)
  | cons q ps =>
    rw [Nat.add_right_comm]
    exact h (j + 1) p hp hne

/-- **A feedback** pays against the fires of the anchors it names. -/
theorem rewardFiles_tallies (h : db.Tallies L) {obs : Observation} {fire : ℕ → ℕ} (additionalFiles : List String)
    (w : ℚ) (now : Int) (files : List String) {i : ℕ} {patternIDs : List String}
    (hfired : Fired L fire obs.repo i patternIDs) :
    (((rewardFiles obs additionalFiles w now files patternIDs).run db).2).Tallies
        (L.payAll ((rewardedAnchors additionalFiles i files patternIDs).map fun j => (fire j, w))) ∧
      db.SameObservations ((rewardFiles obs additionalFiles w now files patternIDs).run db).2 := by
  induction files generalizing db L i patternIDs with
  | nil => exact ⟨h, fun _ => rfl⟩
  | cons file files ih =>
    unfold rewardFiles rewardedAnchors
    dsimp only
    split_ifs with hcredit
    · have hne : patternIDs.headD "" ≠ "" := by simpa using (Bool.and_eq_true_iff.mp hcredit).2
      obtain ⟨hv, hscopes⟩ := hfired.head hne
      obtain ⟨htally, hsame⟩ := creditPattern_tallies h hv hscopes w now
      obtain ⟨htally', hsame'⟩ := ih (L := L.pay (fire i) w) htally hfired.tail
      rw [run_bind]
      exact ⟨htally', hsame.trans hsame'⟩
    · exact ih h hfired.tail

/-- The `j`-th anchor, counted from `i` on, came from the pattern `p`. -/
def AnchorAt (i : ℕ) (patternIDs : List String) (j : ℕ) (p : String) : Prop :=
  ∃ d, j = i + d ∧ patternIDs[d]? = some p ∧ p ≠ ""

theorem AnchorAt.head {i : ℕ} {patternIDs : List String} (hne : patternIDs.headD "" ≠ "") :
    AnchorAt i patternIDs i (patternIDs.headD "") := by
  cases patternIDs with
  | nil => exact absurd rfl hne
  | cons p ps => exact ⟨0, rfl, rfl, hne⟩

theorem AnchorAt.of_tail {i j : ℕ} {patternIDs : List String} {p : String}
    (h : AnchorAt (i + 1) patternIDs.tail j p) : AnchorAt i patternIDs j p := by
  obtain ⟨d, rfl, hp, hne⟩ := h
  exact ⟨d + 1, Nat.add_right_comm i 1 d, by rwa [List.getElem?_tail] at hp, hne⟩

theorem Fired.of_anchorAt {fire : ℕ → ℕ} {repo p : String} {patternIDs : List String} {j : ℕ}
    (h : Fired L fire repo 0 patternIDs) (hj : AnchorAt 0 patternIDs j p) :
    fire j < L.count ∧ L.accounts (fire j) = scopes repo p := by
  obtain ⟨d, rfl, hp, hne⟩ := hj
  exact h d p hp hne

theorem anchorAt_of_mem_rewardedAnchors {additionalFiles files patternIDs : List String} {i j : ℕ}
    (h : j ∈ rewardedAnchors additionalFiles i files patternIDs) : ∃ p, AnchorAt i patternIDs j p := by
  induction files generalizing i patternIDs with
  | nil => exact absurd h List.not_mem_nil
  | cons file files ih =>
    unfold rewardedAnchors at h
    split_ifs at h with hcredit
    · rcases List.mem_cons.mp h with rfl | h
      · exact ⟨_, .head (by simpa using (Bool.and_eq_true_iff.mp hcredit).2)⟩
      · obtain ⟨p, hp⟩ := ih h
        exact ⟨p, hp.of_tail⟩
    · obtain ⟨p, hp⟩ := ih h
      exact ⟨p, hp.of_tail⟩

theorem anchorAt_of_anchorHit {file : String} {files patternIDs : List String} {i j : ℕ} {p : String}
    (h : anchorHit file i files patternIDs = some (j, p)) : AnchorAt i patternIDs j p := by
  induction files generalizing i patternIDs with
  | nil => exact absurd h (by simp [anchorHit])
  | cons anchored files ih =>
    unfold anchorHit at h
    split_ifs at h with hhit
    · obtain ⟨rfl, rfl⟩ := Prod.mk.inj (Option.some.inj h)
      exact .head hhit.2
    · exact (ih h).of_tail

/-! ### The books of a run -/

/-- The learner beside the ledger of its fires. -/
structure Books where
  state : LearnerState
  ledger : Ledger String
  /-- The fire behind the anchors of the observation stored for a query, by index. -/
  fire : String → ℕ → ℕ

/-- A learner on a server where nothing was recorded. -/
def Books.start : Books := ⟨⟨.empty, fun _ => [], fun _ => []⟩, .empty String, fun _ _ => 0⟩

/-- The rewards a call pays, with the fires they are paid against. -/
def Books.rewards (b : Books) : LearnerCall → List (ℕ × ℚ)
  | .feedback queryID additionalFiles success _ =>
    if queryID = "" then []
    else
      match b.state.db.observation queryID with
      | none => []
      | some (obs, _) => (rewardedAnchors additionalFiles 0 obs.files obs.patternIDs).map fun j =>
        -- each anchor that names one of the additional files is paid, by a half without success
          (b.fire queryID j, if success then 1 else 1 / 2)
  | .memorySave repo file _ =>
    if file = "" then []
    -- the first anchor of each recent query that fits the file
    else (b.state.snapshotRecent repo).filterMap fun o =>
      (anchorHit file 0 o.2.1.files o.2.1.patternIDs).map fun hit => (b.fire o.1 hit.1, 1 / 2)
  | _ => []

/-- The fires a call records, each with its scopes. -/
def LearnerCall.fires : LearnerCall → List (List String)
  | .record _ queryID repo _ _ candidates _ =>
    if queryID = "" then [] else candidates.map fun c => scopes repo c.pattern.id
  | _ => []

/-- The entries of a memory save, over the observations of the snapshot. -/
def saveEntries (fire : String → ℕ → ℕ) (file : String) (now : Int) :
    List (String × Observation × List String) → LearnerState → Ledger String → Ledger String
  | [], _, L => L
  | o :: os, s, L =>
    saveEntries fire file now os (s.attributeMemorySave o.2.1 o.2.2 file now)
      (match anchorHit file 0 o.2.1.files o.2.1.patternIDs with
      | some hit => L.pay (fire o.1 hit.1) (1 / 2)
      | none =>
        match promotedSuffix (s.isKnownSuffix o.2.1.repo) file o.2.2 with
        | none => L
        | some suffix => (L.issue [patternKey o.2.1.repo suffix]).pay L.count (1 / 2))

def Books.step (b : Books) (call : LearnerCall) : Books where
  state := call.step b.state
  ledger :=
    match call with
    | .memorySave repo file now =>
      -- the saved file is paid for query by query, as the state changes on the way
      if file = "" then b.ledger else saveEntries b.fire file now (b.state.snapshotRecent repo) b.state b.ledger
    | call => (b.ledger.issueAll call.fires).payAll (b.rewards call)
  fire :=
    match call with
    | .record _ queryID _ _ _ candidates _ =>
      -- what fires now gets the next numbers of the ledger
      if queryID = "" ∨ candidates = [] then b.fire else Function.update b.fire queryID fun i => b.ledger.count + i
    | _ => b.fire

/-- The runs of the learner. -/
def learner : Machine Books LearnerCall := ⟨fun b call => some (b.step call)⟩

/-- The rewards of a call fit into the fires they are paid against, and the ids it records are read back
from the list they are stored in. -/
structure Books.Admits (b : Books) (call : LearnerCall) : Prop where
  room : b.ledger.HasRoom (b.rewards call)
  ids : ∀ sh queryID repo query intent candidates now, call = .record sh queryID repo query intent candidates now →
    ∀ c ∈ candidates, '|' ∉ c.pattern.id.toList

/-- The statistics are those of a covered ledger, which has the fires of all stored observations. -/
structure Books.Sound (b : Books) : Prop where
  tallies : b.state.db.Tallies b.ledger
  covered : b.ledger.Covered
  fired : ∀ queryID o, b.state.db.observation queryID = some o →
    Fired b.ledger (b.fire queryID) o.1.repo 0 o.1.patternIDs

theorem Books.sound_start : Books.start.Sound :=
  ⟨⟨fun _ _ => rfl, fun _ _ => rfl⟩, Ledger.covered_empty, fun _ _ h => absurd h (by simp [start, AnchorDb.observation,
    AnchorDb.empty, Observation.ofFields])⟩

/-! ### Recording -/

/-- The increments of a record are the units it issues. -/
theorem fireAll_tallies (h : db.Tallies L) (repo : String) (now : Int) (candidates : List Candidate) :
    (((fireAll repo now candidates).run db).2).Tallies (L.issueAll (candidates.map fun c => scopes repo c.pattern.id)) ∧
      db.SameObservations ((fireAll repo now candidates).run db).2 := by
  induction candidates generalizing db L with
  | nil => exact ⟨h, fun _ => rfl⟩
  | cons c cs ih =>
    have hglobal := AnchorDb.Counts.incPatternFire h "" c.pattern.id now
    have hboth := hglobal.incPatternFire repo c.pattern.id now
    have hsame := (incStat_sameObservations (h.fired "" c.pattern.id) 1 now).trans
      (incStat_sameObservations (hglobal.fired repo c.pattern.id) 1 now)
    have htally : (((incPatternFire repo c.pattern.id now).run
        ((incPatternFire "" c.pattern.id now).run db).2).2).Tallies (L.issue (scopes repo c.pattern.id)) := by
      refine hboth.congr (fun k => ?_) fun k => (L.spent_issue _ k).symm
      rw [L.issued_issue, count_scopes]
      simp only [raise, add_assoc]
    obtain ⟨htally', hsame'⟩ := ih htally
    unfold fireAll
    rw [run_bind, run_bind]
    exact ⟨htally', hsame.trans hsame'⟩

theorem obsKey_inj {q q' : String} : obsKey q = obsKey q' ↔ q = q' := String.append_right_inj _

section PutObservation

variable (db : AnchorDb) (queryID repo query intent : String) (files patternIDs services : List String) (ts : Int)

theorem hash_putObservation_pattern (r p : String) :
    (db.putObservation queryID repo query intent files patternIDs services ts).hash (patternKey r p) =
      db.hash (patternKey r p) :=
  Function.update_of_ne (patternKey_ne_obsKey r p queryID) ..

theorem observation_putObservation_of_ne {q : String} (h : q ≠ queryID) :
    (db.putObservation queryID repo query intent files patternIDs services ts).observation q = db.observation q := by
  have hhash : (db.putObservation queryID repo query intent files patternIDs services ts).hash (obsKey q) =
      db.hash (obsKey q) := Function.update_of_ne (fun heq => h (obsKey_inj.mp heq)) ..
  unfold AnchorDb.observation
  rw [hhash]

theorem fieldText_eq (fields : List (String × TraceValue)) {name t : String}
    (h : fieldOf fields name = some (.text t)) : fieldText fields name = t := by
  unfold fieldOf at h
  unfold fieldText
  obtain ⟨⟨n, v⟩, hfind, rfl⟩ := Option.map_eq_some_iff.mp h
  rw [hfind]

/-- What is read back of an observation. -/
theorem observation_putObservation :
    (db.putObservation queryID repo query intent files patternIDs services ts).observation queryID =
      some (⟨repo, query, splitList (joinList files), splitList (joinList patternIDs)⟩,
        splitList (joinList services)) := by
  have hhash : (db.putObservation queryID repo query intent files patternIDs services ts).hash (obsKey queryID) = _ :=
    Function.update_self ..
  unfold AnchorDb.observation
  rw [hhash]
  generalize hfs : [("repo", TraceValue.text repo), ("query", .text query), ("intent", .text intent),
    ("files", .text (joinList files)), ("pattern_ids", .text (joinList patternIDs)),
    ("services", .text (joinList services)), ("ts", .text (toString ts))] = fs
  -- no field is written twice, so each one is read back as it was written
  have hnames : fs.map Prod.fst = ["repo", "query", "intent", "files", "pattern_ids", "services", "ts"] := by
    rw [← hfs]
    rfl
  have hread : ∀ name ∈ fs.map Prod.fst, ∀ t, fieldOf fs name = some (.text t) →
      fieldText (fs.foldl hsetField (db.hash (obsKey queryID))) name = t := by
    intro name hname t ht
    refine fieldText_eq _ ?_
    rw [fieldOf_foldl_of_nodup (by rw [hnames]; decide) hname, ht]
  -- the hash is not empty, so the observation is there
  have hne : (fs.foldl hsetField (db.hash (obsKey queryID))).isEmpty = false := by
    rw [List.isEmpty_eq_false_iff]
    intro hnil
    have hrepo : fieldOf (fs.foldl hsetField (db.hash (obsKey queryID))) "repo" = fieldOf fs "repo" :=
      fieldOf_foldl_of_nodup (by rw [hnames]; decide) (by rw [hnames]; decide) _
    rw [hnil, ← hfs] at hrepo
    exact absurd hrepo (by simp [fieldOf])
  unfold Observation.ofFields
  rw [hne, hread "repo" (by rw [hnames]; decide) repo (by rw [← hfs]; rfl),
    hread "query" (by rw [hnames]; decide) query (by rw [← hfs]; rfl),
    hread "files" (by rw [hnames]; decide) (joinList files) (by rw [← hfs]; rfl),
    hread "pattern_ids" (by rw [hnames]; decide) (joinList patternIDs) (by rw [← hfs]; rfl),
    hread "services" (by rw [hnames]; decide) (joinList services) (by rw [← hfs]; rfl)]
  rfl

end PutObservation

/-- Ids without the separator are read back in their places. -/
theorem getElem?_splitList {xs : List String} (h : ∀ x ∈ xs, '|' ∉ x.toList) {i : ℕ} {x : String}
    (hx : (splitList (joinList xs))[i]? = some x) : xs[i]? = some x := by
  unfold splitList at hx
  split_ifs at hx with hempty
  · exact absurd hx (by simp)
  · have hne : xs ≠ [] := by
      rintro rfl
      exact hempty rfl
    rwa [joinList, String.splitOn_intercalate_sep rfl h hne] at hx

/-- The fires of a record are issued in the order of its anchors. -/
theorem fired_issueAll (candidates : List Candidate) (repo : String) {ids : List String}
    (hids : ∀ (i : ℕ) (x : String), ids[i]? = some x → (candidates.map (·.pattern.id))[i]? = some x) :
    Fired (L.issueAll (candidates.map fun c => scopes repo c.pattern.id)) (fun i => L.count + i) repo 0 ids := by
  intro j p hp _
  have hcand := hids j p hp
  rw [List.getElem?_map] at hcand
  obtain ⟨c, hc, rfl⟩ := Option.map_eq_some_iff.mp hcand
  have hlt : j < candidates.length := (List.getElem?_eq_some_iff.mp hc).1
  rw [zero_add]
  refine ⟨?_, Ledger.accounts_issueAll_add ?_⟩
  · rw [Ledger.count_issueAll, List.length_map]
    exact Nat.add_lt_add_left hlt _
  · rw [List.getElem?_map, hc]
    rfl

/-- Fires stay when more is issued. -/
theorem Fired.issueAll {fire : ℕ → ℕ} {repo : String} {i : ℕ} {patternIDs : List String}
    (h : Fired L fire repo i patternIDs) (kss : List (List String)) :
    Fired (L.issueAll kss) fire repo i patternIDs := by
  intro j p hp hne
  obtain ⟨hlt, hscopes⟩ := h j p hp hne
  rw [Ledger.accounts_issueAll_of_lt hlt, Ledger.count_issueAll]
  exact ⟨Nat.lt_add_right _ hlt, hscopes⟩

variable {b : Books}

theorem Books.Sound.record (hb : b.Sound) (sh : Shuffle String) (queryID repo query intent : String)
    {candidates : List Candidate} (hids : ∀ c ∈ candidates, '|' ∉ c.pattern.id.toList) (now : Int) :
    (b.step (.record sh queryID repo query intent candidates now)).Sound := by
  by_cases hskip : queryID = "" ∨ candidates = []
  · -- an empty query id or no candidates: nothing is recorded and nothing fires
    have hstep : b.step (.record sh queryID repo query intent candidates now) = b := by
      have hfires : (LearnerCall.record sh queryID repo query intent candidates now).fires = [] := by
        change (if queryID = "" then [] else candidates.map fun c => scopes repo c.pattern.id) = []
        rcases hskip with h | h
        · rw [if_pos h]
        · rw [h, List.map_nil, ite_self]
      unfold Books.step
      simp only [LearnerCall.step, LearnerState.recordObservation, if_pos hskip, hfires]
      rfl
    rwa [hstep]
  · obtain ⟨hq, hc⟩ := not_or.mp hskip
    -- each candidate fires once, and the ledger issues as many
    obtain ⟨htally, hsame⟩ := fireAll_tallies hb.tallies repo now candidates
    have hstep : b.step (.record sh queryID repo query intent candidates now) =
        { state := { b.state with
            db := (((fireAll repo now candidates).run b.state.db).2).putObservation queryID repo query intent
              (candidates.map (·.path)) (candidates.map (·.pattern.id))
              (sh.toFun (candidates.map (·.service)).dedup) now }
          ledger := b.ledger.issueAll (candidates.map fun c => scopes repo c.pattern.id)
          fire := Function.update b.fire queryID fun i => b.ledger.count + i } := by
      unfold Books.step
      simp only [LearnerCall.step, LearnerState.recordObservation, if_neg hskip, LearnerCall.fires, if_neg hq]
      rfl
    rw [hstep]
    refine ⟨htally.of_hash fun r p => hash_putObservation_pattern .., hb.covered.issueAll _, ?_⟩
    intro q o ho
    -- the observation of this query refers to the fires just issued
    by_cases hqq : q = queryID
    · subst hqq
      rw [observation_putObservation] at ho
      obtain rfl := (Option.some.inj ho).symm
      dsimp only
      rw [Function.update_self]
      refine fired_issueAll candidates repo fun i x hx => getElem?_splitList (fun x hx => ?_) hx
      obtain ⟨c, hc, rfl⟩ := List.mem_map.mp hx
      exact hids c hc
    · -- another observation refers to fires that were issued before
      rw [observation_putObservation_of_ne _ _ _ _ _ _ _ _ _ hqq, hsame.observation_eq] at ho
      dsimp only
      rw [Function.update_of_ne hqq]
      exact (hb.fired q o ho).issueAll _

/-! ### Rewarding -/

theorem Fired.payAll {fire : ℕ → ℕ} {repo : String} {i : ℕ} {patternIDs : List String}
    (h : Fired L fire repo i patternIDs) (ps : List (ℕ × ℚ)) : Fired (L.payAll ps) fire repo i patternIDs := by
  intro j p hp hne
  rw [Ledger.count_payAll, Ledger.accounts_payAll]
  exact h j p hp hne

/-- A reward pays a positive weight, against a fire of the ledger. -/
theorem Books.Sound.mem_rewards (hb : b.Sound) {call : LearnerCall} {r : ℕ × ℚ} (hr : r ∈ b.rewards call) :
    r.1 < b.ledger.count ∧ 0 ≤ r.2 := by
  -- a reward is worth one or a half
  have hhalf : (0 : ℚ) ≤ 1 / 2 := by decide +kernel
  cases call with
  | record sh queryID repo query intent candidates now => exact absurd hr List.not_mem_nil
  | note repo queryID => exact absurd hr List.not_mem_nil
  | feedback queryID additionalFiles success now =>
    have hweight : (0 : ℚ) ≤ if success then 1 else 1 / 2 := by
      split_ifs
      · exact zero_le_one
      · exact hhalf
    unfold Books.rewards at hr
    dsimp only at hr
    by_cases hq : queryID = ""
    · rw [if_pos hq] at hr
      exact absurd hr List.not_mem_nil
    · rw [if_neg hq] at hr
      cases ho : b.state.db.observation queryID with
      | none =>
        rw [ho] at hr
        exact absurd hr List.not_mem_nil
      | some o =>
        -- each rewarded anchor goes back to a fire of the query that was observed
        rw [ho] at hr
        obtain ⟨j, hj, rfl⟩ := List.mem_map.mp hr
        obtain ⟨p, hp⟩ := anchorAt_of_mem_rewardedAnchors hj
        exact ⟨((hb.fired queryID o ho).of_anchorAt hp).1, hweight⟩
  | memorySave repo file now =>
    unfold Books.rewards at hr
    dsimp only at hr
    split_ifs at hr with hfile
    · exact absurd hr List.not_mem_nil
    · -- each hit goes back to a fire of the recent query in which it was found
      obtain ⟨o, ho, hhit⟩ := List.mem_filterMap.mp hr
      obtain ⟨⟨j, p⟩, hj, rfl⟩ := Option.map_eq_some_iff.mp hhit
      obtain ⟨q, -, hq⟩ := List.mem_filterMap.mp ho
      obtain ⟨o', ho', rfl⟩ := Option.map_eq_some_iff.mp hq
      exact ⟨((hb.fired q o' ho').of_anchorAt (anchorAt_of_anchorHit hj)).1, hhalf⟩

theorem Books.Sound.feedback (hb : b.Sound) {queryID : String} {additionalFiles : List String} {success : Bool}
    {now : Int} (hroom : b.ledger.HasRoom (b.rewards (.feedback queryID additionalFiles success now))) :
    (b.step (.feedback queryID additionalFiles success now)).Sound := by
  have hcovered : (b.ledger.payAll (b.rewards (.feedback queryID additionalFiles success now))).Covered :=
    hb.covered.payAll (fun r hr => (hb.mem_rewards hr).1) (fun r hr => (hb.mem_rewards hr).2) hroom
  have heffect : (((rewardFeedback queryID additionalFiles success now).run b.state.db).2).Tallies
        (b.ledger.payAll (b.rewards (.feedback queryID additionalFiles success now))) ∧
      b.state.db.SameObservations ((rewardFeedback queryID additionalFiles success now).run b.state.db).2 := by
    unfold rewardFeedback Books.rewards
    dsimp only
    by_cases hq : queryID = ""
    · rw [if_pos hq, if_pos hq]
      exact ⟨hb.tallies, fun _ => rfl⟩
    · rw [if_neg hq, if_neg hq, run_bind]
      -- the observation that is rewarded is the one the books know
      change (((rewardObservation additionalFiles success now
        (Observation.ofFields (b.state.db.hash (obsKey queryID)))).run b.state.db).2).Tallies _ ∧
        b.state.db.SameObservations ((rewardObservation additionalFiles success now
          (Observation.ofFields (b.state.db.hash (obsKey queryID)))).run b.state.db).2
      have hfired := hb.fired queryID
      unfold AnchorDb.observation at hfired ⊢
      cases hobs : Observation.ofFields (b.state.db.hash (obsKey queryID)) with
      | none => exact ⟨hb.tallies, fun _ => rfl⟩
      | some obs =>
        rw [hobs] at hfired
        exact rewardFiles_tallies hb.tallies additionalFiles _ now obs.files (hfired _ rfl)
  refine ⟨heffect.1, hcovered, fun q o ho => ?_⟩
  have hold : b.state.db.observation q = some o := by rwa [← heffect.2.observation_eq q]
  exact (hb.fired q o hold).payAll _

/-- What a promotion counts. -/
theorem discover_counts {s : LearnerState} {F S : String → ℚ} (h : s.db.Counts F S) (obs : Observation)
    (suffix : String) (now : Int) :
    ((s.discover obs suffix now).db).Counts (raise F (patternKey obs.repo suffix) 1)
        (raise S (patternKey obs.repo suffix) (1 / 2)) ∧
      s.db.SameObservations (s.discover obs suffix now).db := by
  have hfire := h.incPatternFire obs.repo suffix now
  have hboth := hfire.incPatternSuccess obs.repo suffix (1 / 2) now
  have hsame := (incStat_sameObservations (h.fired obs.repo suffix) 1 now).trans
    (incStat_sameObservations (hfire.success obs.repo suffix) (1 / 2) now)
  have hhash := incKeywordAffinities_hash suffix (1 / 2) obs.keywords
    ((incPatternSuccess obs.repo suffix (1 / 2) now).run ((incPatternFire obs.repo suffix now).run s.db).2).2
  unfold LearnerState.discover
  dsimp only
  rw [run_bind, run_bind]
  exact ⟨hboth.of_hash fun r p => congrFun hhash _, fun queryID => (congrFun hhash _).trans (hsame queryID)⟩

/-- A promotion is a fire that is half paid. -/
theorem discover_tallies {s : LearnerState} (h : s.db.Tallies L) (obs : Observation) (suffix : String) (now : Int) :
    ((s.discover obs suffix now).db).Tallies ((L.issue [patternKey obs.repo suffix]).pay L.count (1 / 2)) ∧
      s.db.SameObservations (s.discover obs suffix now).db := by
  obtain ⟨hcounts, hsame⟩ := discover_counts h obs suffix now
  have hcount : ∀ k, (([patternKey obs.repo suffix].count k : ℕ) : ℚ) =
      if k = patternKey obs.repo suffix then 1 else 0 := by
    intro k
    rw [List.count_singleton]
    push_cast
    simp only [beq_iff_eq, eq_comm (b := k)]
  refine ⟨hcounts.congr (fun k => ?_) (fun k => ?_), hsame⟩
  · rw [Ledger.issued_pay, Ledger.issued_issue, hcount]
    rfl
  · rw [Ledger.spent_pay _ (Nat.lt_succ_self _), Ledger.spent_issue, Ledger.accounts_issue_self, hcount]
    simp only [raise, mul_ite, mul_one, mul_zero]

theorem Fired.pay {fire : ℕ → ℕ} {repo : String} {i : ℕ} {patternIDs : List String}
    (h : Fired L fire repo i patternIDs) (v : ℕ) (w : ℚ) : Fired (L.pay v w) fire repo i patternIDs := h

/-- What a memory save pays for one observation of the snapshot. -/
def saveReward (fire : String → ℕ → ℕ) (file : String) (o : String × Observation × List String) : Option (ℕ × ℚ) :=
  (anchorHit file 0 o.2.1.files o.2.1.patternIDs).map fun hit => (fire o.1 hit.1, 1 / 2)

/-- **A memory save**, one observation of the snapshot after the other. -/
theorem saveEntries_sound {fire : String → ℕ → ℕ} (file : String) (now : Int)
    {os : List (String × Observation × List String)} {s : LearnerState} (hs : (Books.mk s L fire).Sound)
    (hos : ∀ o ∈ os, s.db.observation o.1 = some o.2) (hroom : L.HasRoom (os.filterMap (saveReward fire file))) :
    (Books.mk (os.foldl (fun s o => s.attributeMemorySave o.2.1 o.2.2 file now) s)
      (saveEntries fire file now os s L) fire).Sound := by
  have hhalf : (0 : ℚ) ≤ 1 / 2 := by decide +kernel
  have hhalf' : (1 / 2 : ℚ) ≤ 1 := by decide +kernel
  induction os generalizing s L with
  | nil => exact hs
  | cons o os ih =>
    have hfired := hs.fired o.1 o.2 (hos o List.mem_cons_self)
    -- the rest of the save, once this observation left the same observations behind
    have hnext : ∀ {s' : LearnerState} {L' : Ledger String}, s'.db.Tallies L' → L'.Covered →
        s.db.SameObservations s'.db →
        (∀ (q : String) (i : ℕ) (repo : String) (ids : List String), Fired L (fire q) repo i ids →
          Fired L' (fire q) repo i ids) →
        L'.HasRoom (os.filterMap (saveReward fire file)) →
        (Books.mk (os.foldl (fun s o => s.attributeMemorySave o.2.1 o.2.2 file now) s')
          (saveEntries fire file now os s' L') fire).Sound := by
      intro s' L' htally hcovered hsame hkeep hroom'
      refine ih ⟨htally, hcovered, fun q o' ho' => hkeep q 0 _ _ (hs.fired q o' ?_)⟩ (fun o' ho' => ?_) hroom'
      · rwa [← hsame.observation_eq q]
      · rw [hsame.observation_eq]
        exact hos o' (List.mem_cons_of_mem o ho')
    have hnamed : ∀ r ∈ os.filterMap (saveReward fire file), r.1 < L.count ∧ 0 ≤ r.2 := by
      intro r hr
      obtain ⟨o', ho', hhit⟩ := List.mem_filterMap.mp hr
      obtain ⟨⟨j, p⟩, hj, rfl⟩ := Option.map_eq_some_iff.mp hhit
      have hobs := hs.fired o'.1 o'.2 (hos o' (List.mem_cons_of_mem o ho'))
      exact ⟨(hobs.of_anchorAt (anchorAt_of_anchorHit hj)).1, hhalf⟩
    rw [List.foldl_cons]
    unfold saveEntries LearnerState.attributeMemorySave
    cases hhit : anchorHit file 0 o.2.1.files o.2.1.patternIDs with
    | some hit =>
      obtain ⟨hv, hscopes⟩ := hfired.of_anchorAt (anchorAt_of_anchorHit hhit)
      have hreward : saveReward fire file o = some (fire o.1 hit.1, 1 / 2) := by
        rw [saveReward, hhit]
        rfl
      rw [List.filterMap_cons_some hreward] at hroom
      obtain ⟨hfits, hroom'⟩ := hroom.pay hv fun r hr => (hnamed r hr).2
      obtain ⟨htally, hsame⟩ := creditPattern_tallies hs.tallies hv hscopes (1 / 2) now
      exact @hnext { s with db := _ } _ htally (hs.covered.pay hhalf hfits) hsame (fun _ _ _ _ h => h.pay _ _)
        hroom'
    | none =>
      have hreward : saveReward fire file o = none := by
        rw [saveReward, hhit]
        rfl
      rw [List.filterMap_cons_none hreward] at hroom
      dsimp only
      cases hpromoted : promotedSuffix (s.isKnownSuffix o.2.1.repo) file o.2.2 with
      | none => exact hnext hs.tallies hs.covered (fun _ => rfl) (fun _ _ _ _ h => h) hroom
      | some suffix =>
        obtain ⟨htally, hsame⟩ := discover_tallies hs.tallies o.2.1 suffix now
        have hcovered : ((L.issue [patternKey o.2.1.repo suffix]).pay L.count (1 / 2)).Covered := by
          refine (hs.covered.issue _).pay hhalf ?_
          rw [Ledger.paid_issue_self, zero_add]
          exact hhalf'
        exact hnext htally hcovered hsame (fun _ _ _ _ h => (h.issueAll [_]).pay _ _)
          (hroom.issue (fun r hr => (hnamed r hr).1) hhalf' _)

theorem Books.Sound.memorySave (hb : b.Sound) {repo file : String} {now : Int}
    (hroom : b.ledger.HasRoom (b.rewards (.memorySave repo file now))) :
    (b.step (.memorySave repo file now)).Sound := by
  by_cases hfile : file = ""
  · have hstep : b.step (.memorySave repo file now) = b := by
      unfold Books.step
      simp only [LearnerCall.step, LearnerState.rewardMemorySave, if_pos hfile]
    rwa [hstep]
  · have hstep : b.step (.memorySave repo file now) =
        ⟨(b.state.snapshotRecent repo).foldl (fun s o => s.attributeMemorySave o.2.1 o.2.2 file now) b.state,
          saveEntries b.fire file now (b.state.snapshotRecent repo) b.state b.ledger, b.fire⟩ := by
      unfold Books.step
      simp only [LearnerCall.step, LearnerState.rewardMemorySave, if_neg hfile]
    -- what is saved is rewarded by the recent observations, one after the other
    have hrewards : b.rewards (.memorySave repo file now) =
        (b.state.snapshotRecent repo).filterMap (saveReward b.fire file) := if_neg hfile
    rw [hrewards] at hroom
    rw [hstep]
    refine saveEntries_sound file now hb (fun o ho => ?_) hroom
    obtain ⟨q, -, hq⟩ := List.mem_filterMap.mp ho
    obtain ⟨o', ho', rfl⟩ := Option.map_eq_some_iff.mp hq
    exact ho'

/-! ### Whole runs -/

/-- **One call.** A call whose rewards fit keeps the books sound. -/
theorem Books.Sound.step (hb : b.Sound) {call : LearnerCall} (hok : b.Admits call) : (b.step call).Sound := by
  cases call with
  | record sh queryID repo query intent candidates now =>
    exact hb.record sh queryID repo query intent (hok.ids _ _ _ _ _ _ _ rfl) now
  | note repo queryID =>
    have hdb : ((LearnerCall.note repo queryID).step b.state).db = b.state.db := by
      change (b.state.noteRecentQuery repo queryID).db = _
      unfold LearnerState.noteRecentQuery
      split_ifs <;> rfl
    refine ⟨?_, hb.covered, fun q o ho => hb.fired q o ?_⟩
    · show AnchorDb.Tallies ((LearnerCall.note repo queryID).step b.state).db b.ledger
      rw [hdb]
      exact hb.tallies
    · rwa [← hdb]
  | feedback queryID additionalFiles success now => exact hb.feedback hok.room
  | memorySave repo file now => exact hb.memorySave hok.room

/-- A learner that starts on an empty server. -/
def LearnerState.fresh : LearnerState := ⟨.empty, fun _ => [], fun _ => []⟩

/-- The state after a list of calls. -/
def LearnerState.after (calls : List LearnerCall) : LearnerState := calls.foldl LearnerCall.step .fresh

/-- The books are kept beside the state and do not change it. -/
theorem learner_exec (b : Books) (calls : List LearnerCall) :
    ∃ b', learner.exec b calls = some b' ∧ b'.state = calls.foldl LearnerCall.step b.state := by
  induction calls generalizing b with
  | nil => exact ⟨b, rfl, rfl⟩
  | cons call calls ih =>
    obtain ⟨b', hexec, hstate⟩ := ih (b.step call)
    exact ⟨b', hexec, hstate⟩

/-- What `GetPatternStats` makes of a number that is not negative. -/
theorem statInt_of_number {fields : List (String × TraceValue)} {name : String} {x : ℚ}
    (h : number fields name = some x) (hx : 0 ≤ x) : statInt fields name = ⌊x⌋ := by
  unfold number at h
  unfold statInt
  cases hf : fieldOf fields name with
  | none =>
    rw [hf] at h
    obtain rfl : 0 = x := Option.some.inj h
    exact Int.floor_zero.symm
  | some v =>
    cases v with
    | text t =>
      rw [hf] at h
      exact absurd h (by simp)
    | real q =>
      rw [hf] at h
      obtain rfl : q = x := Option.some.inj h
      exact if_pos hx

/-- A success count between zero and the fires smooths to a rate strictly between zero and one. -/
theorem smoothedRate_mem {success fired : ℤ} (h0 : 0 ≤ success) (hle : success ≤ fired) :
    0 < smoothedRate success fired ∧ smoothedRate success fired < 1 := by
  have hs : (0 : ℚ) ≤ success := by exact_mod_cast h0
  have hf : (success : ℚ) ≤ fired := by exact_mod_cast hle
  have hden : (0 : ℚ) < (fired : ℚ) + smoothingPriorFires := by
    unfold smoothingPriorFires
    linarith
  unfold smoothedRate
  rw [if_neg hden.ne', lt_div_iff₀ hden, div_lt_one hden]
  unfold smoothingPriorSuccess smoothingPriorFires
  constructor <;> linarith

/-- In a state with a number of successes below the fires, and the smoothed rate of the two is a rate. -/
structure AnchorDb.RateSound (db : AnchorDb) (repo patternID : String) : Prop where
  success_le_fired : ∃ f s : ℚ, number (db.hash (patternKey repo patternID)) "fired" = some f ∧
    number (db.hash (patternKey repo patternID)) "success" = some s ∧ s ≤ f
  rate_mem : 0 < smoothedRate (db.getPatternStats repo patternID).successCount
      (db.getPatternStats repo patternID).firedCount ∧
    smoothedRate (db.getPatternStats repo patternID).successCount
      (db.getPatternStats repo patternID).firedCount < 1

theorem Books.Sound.rateSound (hb : b.Sound) (repo patternID : String) : b.state.db.RateSound repo patternID := by
  have hf := hb.tallies.fired repo patternID
  have hs := hb.tallies.success repo patternID
  have hle := b.ledger.spent_le_issued hb.covered (patternKey repo patternID)
  have hnonneg := b.ledger.spent_nonneg hb.covered (patternKey repo patternID)
  refine ⟨⟨_, _, hf, hs, hle⟩, ?_⟩
  unfold AnchorDb.getPatternStats
  dsimp only
  rw [statInt_of_number hf (hnonneg.trans hle), statInt_of_number hs hnonneg]
  exact smoothedRate_mem (Int.floor_nonneg.mpr hnonneg) (Int.floor_le_floor hle)

/-- **Success and fires.** In a run whose calls never reward an anchor beyond its one fire, the successes
of every pattern stay below its fires in every scope. -/
theorem success_le_fired {calls : List LearnerCall} (h : learner.Along Books.Admits .start calls)
    (repo patternID : String) : (LearnerState.after calls).db.RateSound repo patternID := by
  obtain ⟨b, hexec, hstate⟩ := learner_exec .start calls
  have hb : b.Sound := Machine.invariant (fun _ _ _ hs hok hstep => Option.some.inj hstep ▸ hs.step hok)
    Books.sound_start h hexec
  have hdb : (LearnerState.after calls).db = b.state.db := congrArg LearnerState.db hstate.symm
  rw [hdb]
  exact hb.rateSound repo patternID

/-! ### Runs that are and are not sound -/

/-- An anchor for the `main.go` of a service. -/
def mainAnchor : Candidate := ⟨"oscar", "oscar/main.go", staticPattern "main.go" [], 1 / 2, false⟩

/-- One anchor is injected, and the agent reports its file as useful. -/
def rewardedOnce : List LearnerCall :=
  [.record (.id String) "q1" "goserving" "where does oscar start" "trace" [mainAnchor] 0, .note "goserving" "q1",
    .feedback "q1" ["oscar/main.go"] true 1]

theorem rewardedOnce_along : learner.Along Books.Admits .start rewardedOnce := by
  refine ⟨⟨fun v hv => absurd hv (Nat.not_lt_zero v), ?_⟩, fun b₁ h₁ => ?_⟩
  · intro sh queryID repo query intent candidates now hcall c hc
    obtain rfl : [mainAnchor] = candidates := (LearnerCall.record.inj hcall).2.2.2.2.2.1
    obtain rfl := List.mem_singleton.mp hc
    decide +kernel
  obtain rfl := Option.some.inj h₁
  refine ⟨⟨?_, fun _ _ _ _ _ _ _ hcall => LearnerCall.noConfusion hcall⟩, fun b₂ h₂ => ?_⟩
  · unfold Ledger.HasRoom
    decide +kernel
  obtain rfl := Option.some.inj h₂
  refine ⟨⟨?_, fun _ _ _ _ _ _ _ hcall => LearnerCall.noConfusion hcall⟩, fun _ _ => trivial⟩
  unfold Ledger.HasRoom
  decide +kernel

theorem rewardedOnce_rate : (LearnerState.after rewardedOnce).db.RateSound "goserving" "main.go" :=
  success_le_fired rewardedOnce_along "goserving" "main.go"

/-- The same feedback is sent again. -/
def rewardedTwice : List LearnerCall := rewardedOnce ++ [.feedback "q1" ["oscar/main.go"] true 2]

/-- Two successes for one fire: the smoothed rate is one. -/
theorem rewardedTwice_rate :
    (LearnerState.after rewardedTwice).db.getPatternStats "goserving" "main.go" = ⟨1, 2⟩ ∧
      ¬ (LearnerState.after rewardedTwice).db.RateSound "goserving" "main.go" := by
  have hstats : (LearnerState.after rewardedTwice).db.getPatternStats "goserving" "main.go" = ⟨1, 2⟩ := by
    decide +kernel
  refine ⟨hstats, fun h => ?_⟩
  have hrate := h.rate_mem.2
  rw [hstats] at hrate
  exact absurd hrate (by decide +kernel)

end Devrouter.Anchorlearn
