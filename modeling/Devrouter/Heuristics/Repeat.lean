import Mathlib.Algebra.Order.Field.Rat
import Mathlib.Data.List.Lex
import Mathlib.Data.Rat.Sqrt
import Mathlib.Data.String.Basic
import Devrouter.Lib.SortedSet
import Devrouter.Lib.Vectors

/-!
# Repeated explorations

Model of `internal/heuristics/repeat.go`: the sorted set of recent queries of a repo, `RecordQuery`, which adds to
it and trims it, and `DetectRepeat`, which looks for the recent query most like a new one. A score is the time of
the query in milliseconds and a member is the JSON text of its entry. The scalars of the embeddings are an ordered
field with a square root `sqrt`; they are computed exactly.

The queries recorded are kept in a log beside the server. `Tracks` says what the sorted sets have to do with the
log: every entry of the look-back window is there, with the time it was last recorded at. `DetectRepeat` reads a
window from its oldest entry on and stops at its limit, so it looks at the newest entries when the window has no
more than the limit (`detectRepeat_of_card_le`), and not when it has more (`detectRepeat_of_card_gt`).
-/

namespace Devrouter.Repeat

/-! ### Entries -/

/-- 15 minutes. -/
def repeatLookbackWindow : ℤ := 15 * 60 * 1000

/-- 30 minutes. -/
def repeatStoreTTL : ℤ := 30 * 60 * 1000

def repeatMaxEntriesPerRepo : ℕ := 30

def keyRecent : String := "recent_queries"

def recentKey (repo : String) : String := keyRecent ++ ":" ++ repo

/-- The key determines the repo. -/
theorem recentKey_inj {r r' : String} : recentKey r = recentKey r' ↔ r = r' := by
  unfold recentKey
  rw [String.append_right_inj]

/-- One member of a set of recent queries. -/
structure RecentQueryEntry (F : Type) where
  queryID : String
  intent : String
  profileID : String
  repo : String
  topicID : String
  embedding : List F
  deriving DecidableEq, Repr

/-- A match with a prior query. -/
structure RepeatHit (F : Type) where
  prevQueryID : String
  prevIntent : String
  prevProfileID : String
  prevRepo : String
  prevTopicID : String
  sim : F
  deriving DecidableEq, Repr

/-- No match. -/
def RepeatHit.none (F : Type) [Zero F] : RepeatHit F := ⟨"", "", "", "", "", 0⟩

/-- The match with an entry. -/
def RecentQueryEntry.hit {F : Type} (e : RecentQueryEntry F) (sim : F) : RepeatHit F :=
  ⟨e.queryID, e.intent, e.profileID, e.repo, e.topicID, sim⟩

/-- The JSON form of the entries: what is marshalled is unmarshalled. -/
structure Codec (F M : Type) where
  marshal : RecentQueryEntry F → M
  unmarshal : M → Option (RecentQueryEntry F)
  unmarshal_marshal : ∀ e, unmarshal (marshal e) = some e

/-! ### Similarity -/

/-- `cosine`. -/
def cosine {F : Type} [Field F] [LinearOrder F] (sqrt : F → F) (a b : List F) : F := List.cosine sqrt a b

/-! ### The server -/

/-- The sorted sets of recent queries and the times they expire at. A missing key is an empty set. Times are in
milliseconds. -/
structure RecentDb (M : Type) [LinearOrder M] where
  sets : String → SortedSet ℤ M
  expiresAt : String → Option ℤ
  now : ℤ

namespace RecentDb

variable {M : Type} [LinearOrder M] (s : RecentDb M)

/-- The server of a fresh installation, at some time. -/
def empty (now : ℤ) : RecentDb M := ⟨fun _ => .empty, fun _ => none, now⟩

/-- Time passes; what has expired is gone. -/
def wait (ms : ℕ) : RecentDb M where
  sets key := if (s.expiresAt key).any (· ≤ s.now + ms) then .empty else s.sets key
  expiresAt key := (s.expiresAt key).filter (s.now + ms < ·)
  now := s.now + ms

/-- `ZADD`. -/
def zadd (key : String) (score : ℤ) (member : M) : RecentDb M :=
  { s with sets := Function.update s.sets key ((s.sets key).add score member) }

/-- `ZREMRANGEBYSCORE -inf cutoff`: a key that has no member left is gone. -/
def zremrangebyscore (key : String) (cutoff : ℤ) : RecentDb M :=
  { s with
    sets := Function.update s.sets key ((s.sets key).dropUpTo cutoff)
    expiresAt :=
      if ((s.sets key).dropUpTo cutoff).entries.isEmpty then Function.update s.expiresAt key none
      else s.expiresAt }

/-- `EXPIRE`. -/
def expire (key : String) (ttl : ℤ) : RecentDb M :=
  if (s.sets key).entries.isEmpty then s
  else { s with expiresAt := Function.update s.expiresAt key (some (s.now + ttl)) }

/-- The pipeline of `RecordQuery`. -/
def pipeline (key : String) (score : ℤ) (member : M) : RecentDb M :=
  ((s.zadd key score member).zremrangebyscore key (s.now - repeatStoreTTL)).expire key repeatStoreTTL

variable (key : String) (score : ℤ) (member : M)

@[simp] theorem pipeline_now : (s.pipeline key score member).now = s.now := by
  unfold pipeline expire
  split_ifs <;> rfl

@[simp] theorem pipeline_sets_self : (s.pipeline key score member).sets key =
    ((s.sets key).add score member).dropUpTo (s.now - repeatStoreTTL) := by
  unfold pipeline expire
  split_ifs <;> simp [zremrangebyscore, zadd]

variable {key}

theorem pipeline_sets_ne {key' : String} (h : key' ≠ key) :
    (s.pipeline key score member).sets key' = s.sets key' := by
  unfold pipeline expire
  split_ifs <;> simp [zremrangebyscore, zadd, h]

theorem pipeline_expiresAt_ne {key' : String} (h : key' ≠ key) :
    (s.pipeline key score member).expiresAt key' = s.expiresAt key' := by
  unfold pipeline expire zremrangebyscore
  split_ifs <;> simp [zadd, h]

/-- The key expires after the time to live, if it is there at all. -/
theorem pipeline_expiresAt_self {x : ℤ} (h : (s.pipeline key score member).expiresAt key = some x) :
    x = s.now + repeatStoreTTL := by
  unfold pipeline expire at h
  split_ifs at h with hempty
  · -- nothing is left of the key
    have hgone : (((s.zadd key score member).sets key).dropUpTo (s.now - repeatStoreTTL)).entries.isEmpty := by
      simpa [zremrangebyscore] using hempty
    unfold zremrangebyscore at h
    rw [if_pos hgone] at h
    simp at h
  · have hx : s.now + repeatStoreTTL = x := by simpa [zremrangebyscore, zadd] using h
    exact hx.symm

end RecentDb

/-! ### The functions of the store -/

variable {F M : Type} [LinearOrder M]

/-- `RecordQuery`; `gap` milliseconds are between its two readings of the clock. -/
def recordQuery (json : Codec F M) (s : RecentDb M) (repo : String) (e : RecentQueryEntry F) (gap : ℕ) :
    RecentDb M :=
  if repo = "" ∨ e.embedding.length = 0 then s
  else
    let score := s.now
    (s.wait gap).pipeline (recentKey repo) score (json.marshal e)

section Detect

variable [Field F] [LinearOrder F] (sqrt : F → F) (json : Codec F M)

/-- The body of the loop of `DetectRepeat`. -/
def better (embed : List F) (best : RepeatHit F) (raw : M) : RepeatHit F :=
  match json.unmarshal raw with
  | none => best
  | some e =>
    let sim := cosine sqrt embed e.embedding
    if best.sim < sim then e.hit sim else best

/-- `DetectRepeat`. -/
def detectRepeat (s : RecentDb M) (repo : String) (embed : List F) : RepeatHit F :=
  if repo = "" ∨ embed.length = 0 then .none F
  else
    ((s.sets (recentKey repo)).rangeByScore (s.now - repeatLookbackWindow) repeatMaxEntriesPerRepo).foldl
      (better sqrt json embed) (.none F)

end Detect

/-! ### Runs -/

/-- What happens to the recent queries. -/
inductive RecentEvent (F : Type) where
  | wait (ms : ℕ)
  | record (repo : String) (e : RecentQueryEntry F) (gap : ℕ)

/-- A query that was recorded, and when. -/
structure RecordedQuery (F : Type) where
  repo : String
  entry : RecentQueryEntry F
  time : ℤ

/-- The server, with the queries that were recorded beside it, newest first. -/
structure RecentRun (F M : Type) [LinearOrder M] where
  db : RecentDb M
  log : List (RecordedQuery F)

namespace RecentRun

variable (json : Codec F M)

def start (now : ℤ) : RecentRun F M := ⟨.empty now, []⟩

/-- One event. -/
def next (s : RecentRun F M) : RecentEvent F → RecentRun F M
  | .wait ms => { s with db := s.db.wait ms }
  | .record repo e gap => {
      db := recordQuery json s.db repo e gap
      log := if repo = "" ∨ e.embedding.length = 0 then s.log else ⟨repo, e, s.db.now⟩ :: s.log }

theorem next_record (s : RecentRun F M) (repo : String) (e : RecentQueryEntry F) (gap : ℕ) :
    s.next json (.record repo e gap) = if repo = "" ∨ e.embedding.length = 0 then s else {
      db := (s.db.wait gap).pipeline (recentKey repo) s.db.now (json.marshal e)
      log := ⟨repo, e, s.db.now⟩ :: s.log } := by
  change RecentRun.mk (recordQuery json s.db repo e gap) _ = _
  unfold recordQuery
  split_ifs <;> rfl

/-- The state after a sequence of events. -/
def after (now : ℤ) (events : List (RecentEvent F)) : RecentRun F M := events.foldl (next json) (start now)

end RecentRun

/-! ### The look-back window -/

section Window

variable (json : Codec F M)

/-- The time an entry of a repo was last recorded at. -/
def lastAt (log : List (RecordedQuery F)) (repo : String) (m : M) : Option ℤ :=
  (log.find? fun r => r.repo = repo ∧ json.marshal r.entry = m).map (·.time)

/-- The entries of a repo that were last recorded within the look-back window, with their times. -/
def window (log : List (RecordedQuery F)) (repo : String) (now : ℤ) : Finset (ℤ ×ₗ M) :=
  ((log.filter (·.repo = repo)).map fun r => toLex (r.time, json.marshal r.entry)).toFinset.filter fun x =>
    lastAt json log repo (ofLex x).2 = some (ofLex x).1 ∧ now - repeatLookbackWindow ≤ (ofLex x).1

variable {json} {log : List (RecordedQuery F)} {repo : String}

theorem lastAt_cons (r : RecordedQuery F) (m : M) : lastAt json (r :: log) repo m =
    if r.repo = repo ∧ json.marshal r.entry = m then some r.time else lastAt json log repo m := by
  unfold lastAt
  rw [List.find?_cons]
  by_cases h : r.repo = repo ∧ json.marshal r.entry = m
  · rw [decide_eq_true h, if_pos h]
    rfl
  · rw [decide_eq_false h, if_neg h]

theorem exists_of_lastAt {m : M} {t : ℤ} (h : lastAt json log repo m = some t) :
    ∃ r ∈ log, r.repo = repo ∧ json.marshal r.entry = m ∧ r.time = t := by
  obtain ⟨r, hr, ht⟩ := Option.map_eq_some_iff.mp h
  have hfound := List.find?_some hr
  obtain ⟨hrepo, hm⟩ := of_decide_eq_true hfound
  exact ⟨r, List.mem_of_find?_eq_some hr, hrepo, hm, ht⟩

theorem mem_window {now t : ℤ} {m : M} : toLex (t, m) ∈ window json log repo now ↔
    lastAt json log repo m = some t ∧ now - repeatLookbackWindow ≤ t := by
  unfold window
  rw [Finset.mem_filter, List.mem_toFinset]
  refine ⟨fun h => h.2, fun h => ⟨?_, h⟩⟩
  obtain ⟨r, hr, hrepo, hm, ht⟩ := exists_of_lastAt h.1
  refine List.mem_map.mpr ⟨r, List.mem_filter.mpr ⟨hr, decide_eq_true hrepo⟩, ?_⟩
  rw [hm, ht]

/-- What is in a window was marshalled. -/
theorem exists_entry {now : ℤ} {x : ℤ ×ₗ M} (h : x ∈ window json log repo now) :
    ∃ e : RecentQueryEntry F, json.marshal e = (ofLex x).2 := by
  obtain ⟨r, -, -, hm, -⟩ := exists_of_lastAt (mem_window.mp (h : toLex ((ofLex x).1, (ofLex x).2) ∈ _)).1
  exact ⟨r.entry, hm⟩

end Window

/-! ### The sorted sets and the log -/

/-- **What the server keeps of the log.** -/
structure Tracks (json : Codec F M) (s : RecentRun F M) : Prop where
  /-- Nothing is recorded without a repo. -/
  named : ∀ m, lastAt json s.log "" m = none
  clock : ∀ repo m t, lastAt json s.log repo m = some t → t ≤ s.db.now
  /-- What is in a set was last recorded at its score. -/
  sound : ∀ repo t m, toLex (t, m) ∈ s.db.sets (recentKey repo) → lastAt json s.log repo m = some t
  /-- What was recorded within the time to live is in its set. -/
  kept : ∀ repo t m, lastAt json s.log repo m = some t → s.db.now - repeatStoreTTL < t →
    toLex (t, m) ∈ s.db.sets (recentKey repo)
  /-- A set expires when all its queries are older than the time to live. -/
  ttl : ∀ repo x, s.db.expiresAt (recentKey repo) = some x →
    ∀ m t, lastAt json s.log repo m = some t → t + repeatStoreTTL ≤ x

namespace Tracks

variable {json : Codec F M} {s : RecentRun F M}

theorem start (now : ℤ) : Tracks json (.start now : RecentRun F M) where
  named _ := rfl
  clock _ _ _ h := nomatch h
  sound _ _ _ h := absurd h (SortedSet.notMem_empty _)
  kept _ _ _ h := nomatch h
  ttl _ _ h := nomatch h

/-- Time passes. -/
theorem wait (h : Tracks json s) (ms : ℕ) : Tracks json { s with db := s.db.wait ms } where
  named := h.named
  clock repo m t ht := by
    have := h.clock repo m t ht
    change t ≤ s.db.now + ms
    omega
  sound repo t m hmem := by
    change toLex (t, m) ∈ (if _ then _ else _ : SortedSet ℤ M) at hmem
    split_ifs at hmem
    · exact absurd hmem (SortedSet.notMem_empty _)
    · exact h.sound repo t m hmem
  kept repo t m ht hlt := by
    change s.db.now + ms - repeatStoreTTL < t at hlt
    change toLex (t, m) ∈ (if _ then _ else _ : SortedSet ℤ M)
    rw [if_neg]
    · exact h.kept repo t m ht (by omega)
    · -- a set that expires has nothing left that is young enough
      rw [Option.any_eq_true]
      rintro ⟨x, hx, hle⟩
      have hx := h.ttl repo x hx m t ht
      have hle := of_decide_eq_true hle
      omega
  ttl repo x hx := h.ttl repo x (Option.filter_eq_some_iff.mp hx).1

/-- A query is recorded at a time that has come. -/
theorem pipeline (h : Tracks json s) {repo : String} (hrepo : repo ≠ "") (e : RecentQueryEntry F) {score : ℤ}
    (hscore : score ≤ s.db.now) : Tracks json {
      db := s.db.pipeline (recentKey repo) score (json.marshal e)
      log := ⟨repo, e, score⟩ :: s.log } := by
  have hclock : ∀ r m t, lastAt json (⟨repo, e, score⟩ :: s.log) r m = some t → t ≤ s.db.now := by
    intro r m t ht
    rw [lastAt_cons] at ht
    split_ifs at ht
    · cases ht
      exact hscore
    · exact h.clock r m t ht
  -- the log of another repo is as it was
  have hlog : ∀ r, r ≠ repo → ∀ m, lastAt json (⟨repo, e, score⟩ :: s.log) r m = lastAt json s.log r m := by
    intro r hr m
    rw [lastAt_cons, if_neg fun hboth => hr hboth.1.symm]
  refine ⟨?named, ?clock, ?sound, ?kept, ?ttl⟩
  case named =>
    intro m
    rw [hlog "" hrepo.symm]
    exact h.named m
  case clock =>
    intro r m t ht
    rw [RecentDb.pipeline_now]
    exact hclock r m t ht
  case sound =>
    intro r t m hmem
    by_cases hr : r = repo
    · subst hr
      simp only [RecentDb.pipeline_sets_self, SortedSet.mem_dropUpTo, SortedSet.mem_add, ofLex_toLex] at hmem
      rw [lastAt_cons]
      rcases hmem.1 with hnew | ⟨hold, hne⟩
      · cases hnew
        rw [if_pos ⟨rfl, rfl⟩]
      · rw [if_neg fun hboth => hne hboth.2.symm]
        exact h.sound r t m hold
    · simp only [RecentDb.pipeline_sets_ne _ _ _ (mt recentKey_inj.mp hr)] at hmem
      rw [hlog r hr]
      exact h.sound r t m hmem
  case kept =>
    intro r t m ht hlt
    rw [RecentDb.pipeline_now] at hlt
    by_cases hr : r = repo
    · subst hr
      simp only [RecentDb.pipeline_sets_self, SortedSet.mem_dropUpTo, SortedSet.mem_add, ofLex_toLex]
      refine ⟨?_, hlt⟩
      rw [lastAt_cons] at ht
      split_ifs at ht with hboth
      · cases ht
        exact .inl (by rw [hboth.2])
      · exact .inr ⟨h.kept r t m ht hlt, fun hm => hboth ⟨rfl, hm.symm⟩⟩
    · simp only [RecentDb.pipeline_sets_ne _ _ _ (mt recentKey_inj.mp hr)]
      exact h.kept r t m (hlog r hr m ▸ ht) hlt
  case ttl =>
    intro r x hx m t ht
    by_cases hr : r = repo
    · subst hr
      have hexp := RecentDb.pipeline_expiresAt_self _ _ _ hx
      have := hclock r m t ht
      omega
    · simp only [RecentDb.pipeline_expiresAt_ne _ _ _ (mt recentKey_inj.mp hr)] at hx
      exact h.ttl r x hx m t (hlog r hr m ▸ ht)

/-- One event. -/
theorem next (h : Tracks json s) (event : RecentEvent F) : Tracks json (s.next json event) := by
  cases event with
  | wait ms => exact h.wait ms
  | record repo e gap =>
    rw [RecentRun.next_record]
    split_ifs with hskip
    · exact h
    · refine (h.wait gap).pipeline (fun hrepo => hskip (.inl hrepo)) e ?_
      change s.db.now ≤ s.db.now + gap
      omega

/-- Any sequence of events. -/
theorem after (now : ℤ) (events : List (RecentEvent F)) : Tracks json (RecentRun.after json now events) := by
  unfold RecentRun.after
  generalize hs : (RecentRun.start now : RecentRun F M) = s
  have h : Tracks json s := hs ▸ start now
  clear hs
  induction events generalizing s with
  | nil => exact h
  | cons event events ih => exact ih _ (h.next event)

/-- **The part of a set that `DetectRepeat` reads from is the look-back window.** -/
theorem mem_since (h : Tracks json s) (repo : String) (x : ℤ ×ₗ M) :
    x ∈ (s.db.sets (recentKey repo)).since (s.db.now - repeatLookbackWindow) ↔
      x ∈ window json s.log repo s.db.now := by
  obtain ⟨t, m, rfl⟩ : ∃ t m, x = toLex (t, m) := ⟨(ofLex x).1, (ofLex x).2, rfl⟩
  rw [SortedSet.mem_since, mem_window, ofLex_toLex]
  refine and_congr_left fun hle => ⟨h.sound repo t m, fun ht => h.kept repo t m ht ?_⟩
  have : repeatLookbackWindow < repeatStoreTTL := by decide
  omega

end Tracks

/-! ### The best match -/

section Best

variable {F M : Type} [Field F] [LinearOrder F] (sqrt : F → F) (json : Codec F M)

/-- The match that is left of `best` after a list of members. -/
inductive BestOf (embed : List F) (best : RepeatHit F) (raws : List M) : RepeatHit F → Prop
  | same : (∀ raw ∈ raws, ∀ e, json.unmarshal raw = some e → cosine sqrt embed e.embedding ≤ best.sim) →
      BestOf embed best raws best
  | better (raw : M) (e : RecentQueryEntry F) : raw ∈ raws → json.unmarshal raw = some e →
      best.sim < cosine sqrt embed e.embedding →
      (∀ raw' ∈ raws, ∀ e', json.unmarshal raw' = some e' →
        cosine sqrt embed e'.embedding ≤ cosine sqrt embed e.embedding) →
      BestOf embed best raws (e.hit (cosine sqrt embed e.embedding))

variable {sqrt json} {embed : List F}

/-- One member. -/
theorem bestOf_better (best : RepeatHit F) (raw : M) :
    BestOf sqrt json embed best [raw] (better sqrt json embed best raw) := by
  unfold better
  split
  · rename_i hnone
    refine .same fun raw' hraw e he => ?_
    rw [List.mem_singleton.mp hraw, hnone] at he
    exact nomatch he
  · rename_i e he
    -- there is one entry to compare with
    have honly : ∀ raw' ∈ [raw], ∀ e', json.unmarshal raw' = some e' → e' = e := by
      intro raw' hraw e' he'
      rw [List.mem_singleton.mp hraw, he] at he'
      exact (Option.some.inj he').symm
    simp only
    split_ifs with hlt
    · exact .better raw e List.mem_cons_self he hlt fun raw' hraw e' he' => (honly raw' hraw e' he') ▸ le_rfl
    · exact .same fun raw' hraw e' he' => (honly raw' hraw e' he') ▸ not_lt.mp hlt

/-- One list after the other. -/
theorem BestOf.append {best mid hit : RepeatHit F} {raws raws' : List M} (h : BestOf sqrt json embed best raws mid)
    (h' : BestOf sqrt json embed mid raws' hit) : BestOf sqrt json embed best (raws ++ raws') hit := by
  cases h' with
  | same hle' =>
    cases h with
    | same hle =>
      refine .same fun raw hraw => ?_
      exact (List.mem_append.mp hraw).elim (hle raw) (hle' raw)
    | better raw e hraw he hlt hle =>
      refine .better raw e (List.mem_append_left _ hraw) he hlt fun raw' hraw' => ?_
      exact (List.mem_append.mp hraw').elim (hle raw') (hle' raw')
  | better raw e hraw he hlt' hle' =>
    -- the second list has a better one than the first
    have hfirst : best.sim ≤ mid.sim ∧
        ∀ raw ∈ raws, ∀ e, json.unmarshal raw = some e → cosine sqrt embed e.embedding ≤ mid.sim := by
      cases h with
      | same hle => exact ⟨le_rfl, hle⟩
      | better _ _ _ _ hlt hle => exact ⟨hlt.le, hle⟩
    refine .better raw e (List.mem_append_right _ hraw) he (hfirst.1.trans_lt hlt') fun raw' hraw' e' he' => ?_
    rcases List.mem_append.mp hraw' with hl | hr
    · exact (hfirst.2 raw' hl e' he').trans hlt'.le
    · exact hle' raw' hr e' he'

/-- The loop of `DetectRepeat`. -/
theorem bestOf_foldl (best : RepeatHit F) (raws : List M) :
    BestOf sqrt json embed best raws (raws.foldl (better sqrt json embed) best) := by
  induction raws generalizing best with
  | nil => exact .same fun raw hraw => absurd hraw List.not_mem_nil
  | cons raw raws ih => exact (bestOf_better best raw).append (ih _)

end Best

/-! ### What `DetectRepeat` is for -/

section Newest

variable [Field F] [LinearOrder F] (sqrt : F → F) (json : Codec F M)

/-- The entry is among the newest entries of the look-back window of the repo. -/
def Considered (s : RecentRun F M) (repo : String) (e : RecentQueryEntry F) : Prop :=
  ∃ t : ℤ, toLex (t, json.marshal e) ∈ (window json s.log repo s.db.now).newest repeatMaxEntriesPerRepo

/-- **The answer to a query**: an entry of maximal positive similarity among the newest ones of the look-back
window, and nothing when none is positive. -/
structure MostSimilar (s : RecentRun F M) (repo : String) (embed : List F) (hit : RepeatHit F) : Prop where
  found : (∃ e, Considered json s repo e ∧ 0 < cosine sqrt embed e.embedding) →
    ∃ e, Considered json s repo e ∧ 0 < cosine sqrt embed e.embedding ∧
      (∀ e', Considered json s repo e' → cosine sqrt embed e'.embedding ≤ cosine sqrt embed e.embedding) ∧
      hit = e.hit (cosine sqrt embed e.embedding)
  nothing : (∀ e, Considered json s repo e → cosine sqrt embed e.embedding ≤ 0) → hit = .none F

/-- The entries of a window can be told apart: by their ids, and none has a zero embedding. -/
structure Telling (s : RecentRun F M) (repo : String) : Prop where
  ids : ∀ e e' t t', toLex (t, json.marshal e) ∈ window json s.log repo s.db.now →
    toLex (t', json.marshal e') ∈ window json s.log repo s.db.now → e.queryID = e'.queryID → e = e'
  nonzero : ∀ e t, toLex (t, json.marshal e) ∈ window json s.log repo s.db.now → ∃ x ∈ e.embedding, x ≠ 0

variable {sqrt json} {s : RecentRun F M} {repo : String} {embed : List F}

/-- The best match of the entries that are to be considered. -/
theorem MostSimilar.of_bestOf {raws : List M} {hit : RepeatHit F}
    (hraws : ∀ e, Considered json s repo e ↔ ∃ raw ∈ raws, json.unmarshal raw = some e)
    (h : BestOf sqrt json embed (.none F) raws hit) : MostSimilar sqrt json s repo embed hit := by
  cases h with
  | same hle =>
    refine ⟨fun ⟨e, he, hpos⟩ => ?_, fun _ => rfl⟩
    obtain ⟨raw, hraw, hum⟩ := (hraws e).mp he
    exact absurd (hle raw hraw e hum) (not_le.mpr hpos)
  | better raw e hraw hum hlt hle =>
    have he : Considered json s repo e := (hraws e).mpr ⟨raw, hraw, hum⟩
    refine ⟨fun _ => ⟨e, he, hlt, fun e' he' => ?_, rfl⟩, fun hnone => absurd (hnone e he) (not_le.mpr hlt)⟩
    obtain ⟨raw', hraw', hum'⟩ := (hraws e').mp he'
    exact hle raw' hraw' e' hum'

/-- **A window within the limit**: the answer is right, whatever the query. -/
theorem detectRepeat_of_card_le (h : Tracks json s)
    (hcard : (window json s.log repo s.db.now).card ≤ repeatMaxEntriesPerRepo) (embed : List F) :
    MostSimilar sqrt json s repo embed (detectRepeat sqrt json s.db repo embed) := by
  have hconsidered : ∀ e, Considered json s repo e ↔
      ∃ t : ℤ, toLex (t, json.marshal e) ∈ window json s.log repo s.db.now := by
    intro e
    unfold Considered
    rw [Finset.newest_eq_self hcard]
  unfold detectRepeat
  split_ifs with hskip
  · -- nothing is like an empty query, and nothing is recorded without a repo
    have hle : ∀ e, Considered json s repo e → cosine sqrt embed e.embedding ≤ 0 := by
      intro e he
      rcases hskip with rfl | hempty
      · obtain ⟨t, ht⟩ := (hconsidered e).mp he
        rw [mem_window, h.named] at ht
        exact nomatch ht.1
      · unfold cosine List.cosine
        rw [if_pos (.inr hempty)]
    exact ⟨fun ⟨e, he, hpos⟩ => absurd (hle e he) (not_le.mpr hpos), fun _ => rfl⟩
  · have hlength := SortedSet.length_eq_card (h.mem_since repo)
    rw [SortedSet.rangeByScore_eq_all (hlength.trans_le hcard)]
    refine MostSimilar.of_bestOf (fun e => ?_) (bestOf_foldl _ _)
    rw [hconsidered e]
    constructor
    · rintro ⟨t, ht⟩
      exact ⟨json.marshal e, List.mem_map.mpr ⟨_, (h.mem_since repo _).mpr ht, rfl⟩, json.unmarshal_marshal e⟩
    · rintro ⟨raw, hraw, hum⟩
      obtain ⟨x, hx, rfl⟩ := List.mem_map.mp hraw
      have hx := (h.mem_since repo x).mp hx
      obtain ⟨e', he'⟩ := exists_entry hx
      rw [← he', json.unmarshal_marshal] at hum
      obtain rfl := Option.some.inj hum
      refine ⟨(ofLex x).1, ?_⟩
      rw [he']
      exact hx

/-- **A window beyond the limit**: there is a query for which the answer is wrong, the one that is the oldest query
of the window again. -/
theorem detectRepeat_of_card_gt [IsStrictOrderedRing F] (hsqrt : List.IsSqrt sqrt) (h : Tracks json s)
    (htell : Telling json s repo) (hcard : repeatMaxEntriesPerRepo < (window json s.log repo s.db.now).card) :
    ∃ embed, ¬ MostSimilar sqrt json s repo embed (detectRepeat sqrt json s.db repo embed) := by
  have hlength := SortedSet.length_eq_card (h.mem_since repo)
  obtain ⟨x, rest, hx, hmin, hrange⟩ := SortedSet.exists_rangeByScore_eq_cons (by decide : 0 < repeatMaxEntriesPerRepo)
    (hlength ▸ (Nat.zero_le _).trans_lt hcard)
  have hxw := (h.mem_since repo x).mp hx
  obtain ⟨e, he⟩ := exists_entry hxw
  have hew : toLex ((ofLex x).1, json.marshal e) ∈ window json s.log repo s.db.now := by
    rw [he]
    exact hxw
  have hnonzero := htell.nonzero e _ hew
  refine ⟨e.embedding, fun hright => ?_⟩
  -- the oldest entry is the first that is looked at, and it cannot be beaten
  have hhit : detectRepeat sqrt json s.db repo e.embedding = e.hit 1 := by
    have hself : cosine sqrt e.embedding e.embedding = 1 := List.cosine_self hsqrt hnonzero
    have hfirst : better sqrt json e.embedding (.none F) (ofLex x).2 = e.hit 1 := by
      unfold better
      rw [← he, json.unmarshal_marshal]
      simp only [hself]
      exact if_pos zero_lt_one
    have hskip : ¬ (repo = "" ∨ e.embedding.length = 0) := by
      rintro (rfl | hempty)
      · rw [mem_window, h.named] at hew
        exact nomatch hew.1
      · obtain ⟨y, hy, -⟩ := hnonzero
        rw [List.length_eq_zero_iff.mp hempty] at hy
        exact nomatch hy
    unfold detectRepeat
    rw [if_neg hskip, hrange, List.foldl_cons, hfirst]
    generalize hres : rest.foldl (better sqrt json e.embedding) (e.hit 1) = hit
    have hbest : BestOf sqrt json e.embedding (e.hit 1) rest hit := hres ▸ bestOf_foldl _ _
    cases hbest with
    | same _ => rfl
    | better raw e' _ _ hlt _ => exact absurd (List.cosine_le_one hsqrt e.embedding e'.embedding) (not_le.mpr hlt)
  rw [hhit] at hright
  -- so it would have to be among the newest
  have hnew : Considered json s repo e := by
    by_cases hpos : ∃ e', Considered json s repo e' ∧ 0 < cosine sqrt e.embedding e'.embedding
    · obtain ⟨e', he', -, -, heq⟩ := hright.found hpos
      obtain ⟨t, ht⟩ := he'
      have hsame := htell.ids e e' _ t hew (Finset.mem_newest.mp ht).1 (congrArg RepeatHit.prevQueryID heq)
      exact hsame ▸ ⟨t, ht⟩
    · have heq := hright.nothing fun e' he' => not_lt.mp fun hlt => hpos ⟨e', he', hlt⟩
      exact absurd (congrArg RepeatHit.sim heq) one_ne_zero
  obtain ⟨t, ht⟩ := hnew
  have htw := (mem_window.mp (Finset.mem_newest.mp ht).1).1
  rw [(mem_window.mp hew).1] at htw
  obtain rfl := Option.some.inj htw
  rw [he] at ht
  refine Finset.notMem_newest_of_forall_le hcard (fun y hy => ?_) ht
  exact hmin y ((h.mem_since repo y).mpr hy)

/-- **The repeat detection.** After any sequence of events, the answer to every query is right where the look-back
window of the repo has no more entries than the limit. Where it has more, and its entries can be told apart, there
is a query with a wrong answer. -/
theorem detectRepeat_right_iff [IsStrictOrderedRing F] (sqrt : F → F) (json : Codec F M) (now : ℤ)
    (events : List (RecentEvent F)) (repo : String) :
    let s := RecentRun.after json now events
    ((window json s.log repo s.db.now).card ≤ repeatMaxEntriesPerRepo →
      ∀ embed, MostSimilar sqrt json s repo embed (detectRepeat sqrt json s.db repo embed)) ∧
    (List.IsSqrt sqrt → Telling json s repo →
      (∀ embed, MostSimilar sqrt json s repo embed (detectRepeat sqrt json s.db repo embed)) →
      (window json s.log repo s.db.now).card ≤ repeatMaxEntriesPerRepo) := by
  have htracks : Tracks json (RecentRun.after json now events) := Tracks.after now events
  refine ⟨detectRepeat_of_card_le htracks, fun hsqrt htell hright => not_lt.mp fun hcard => ?_⟩
  obtain ⟨embed, hwrong⟩ := detectRepeat_of_card_gt hsqrt htracks htell hcard
  exact hwrong (hright embed)

end Newest

/-! ### A busy repo -/

/-- An entry as the list of its fields, in the order of its JSON object. -/
def fieldCodec : Codec ℚ (String ×ₗ String ×ₗ String ×ₗ String ×ₗ String ×ₗ List ℚ) where
  marshal e := toLex (e.queryID, toLex (e.intent, toLex (e.profileID, toLex (e.repo, toLex (e.topicID, e.embedding)))))
  unmarshal m :=
    let m₁ := (ofLex m).2
    let m₂ := (ofLex m₁).2
    let m₃ := (ofLex m₂).2
    let m₄ := (ofLex m₃).2
    some ⟨(ofLex m).1, (ofLex m₁).1, (ofLex m₂).1, (ofLex m₃).1, (ofLex m₄).1, (ofLex m₄).2⟩
  unmarshal_marshal _ := rfl

/-- A query about login, or about something else. -/
def busyEntry (i : ℕ) (login : Bool) : RecentQueryEntry ℚ :=
  ⟨"q" ++ toString i, "debug", "p", "shop", "", if login then [0, 1] else [1, 0]⟩

/-- Queries about something else and then one about login, a second apart. -/
def busyEvents (others : ℕ) : List (RecentEvent ℚ) :=
  ((List.range others).flatMap fun i => [.record "shop" (busyEntry i false) 0, .wait 1000]) ++
    [.record "shop" (busyEntry others true) 0, .wait 1000]

/-- The query about login that follows at once finds the one before it. -/
theorem calm_detects :
    let s := RecentRun.after fieldCodec 0 (busyEvents 2)
    MostSimilar Rat.sqrt fieldCodec s "shop" [0, 1] (detectRepeat Rat.sqrt fieldCodec s.db "shop" [0, 1]) ∧
      detectRepeat Rat.sqrt fieldCodec s.db "shop" [0, 1] = (busyEntry 2 true).hit 1 :=
  ⟨(detectRepeat_right_iff Rat.sqrt fieldCodec 0 (busyEvents 2) "shop").1 (by decide +kernel) [0, 1], by decide +kernel⟩

/-- After thirty others it does not. -/
theorem busy_missed :
    let s := RecentRun.after fieldCodec 0 (busyEvents 30)
    Considered fieldCodec s "shop" (busyEntry 30 true) ∧
      cosine Rat.sqrt [0, 1] (busyEntry 30 true).embedding = 1 ∧
      detectRepeat Rat.sqrt fieldCodec s.db "shop" [0, 1] = .none ℚ ∧
      ¬ MostSimilar Rat.sqrt fieldCodec s "shop" [0, 1] (detectRepeat Rat.sqrt fieldCodec s.db "shop" [0, 1]) := by
  intro s
  have hlast : Considered fieldCodec s "shop" (busyEntry 30 true) := ⟨30000, by decide +kernel⟩
  have hsim : cosine Rat.sqrt [0, 1] (busyEntry 30 true).embedding = 1 := by decide +kernel
  have hnone : detectRepeat Rat.sqrt fieldCodec s.db "shop" [0, 1] = .none ℚ := by decide +kernel
  refine ⟨hlast, hsim, hnone, fun hright => ?_⟩
  obtain ⟨e, -, hpos, -, heq⟩ := hright.found ⟨busyEntry 30 true, hlast, by rw [hsim]; exact zero_lt_one⟩
  rw [hnone] at heq
  exact hpos.ne (congrArg RepeatHit.sim heq)

end Devrouter.Repeat
