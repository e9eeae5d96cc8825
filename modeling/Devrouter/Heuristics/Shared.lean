import Mathlib.Data.Set.Insert
import Devrouter.Lib.Interleave
import Devrouter.Heuristics.Knobs

/-!
# Processes that share one server

Any number of processes on one Redis server, each with a picker of its own and one job at a time,
their commands interleaved in any order and failing at any point (`World.machine`, with `Job.prog` as
the programs).

What a process may rely on whatever the others do is put as a monitor of its commands (`etiquette`):
it takes down the values the process has been shown for a key, the keys its current job has found
missing, and whether the last command was an `EXISTS` that did not report the key. `Job.prog_obeys` is
the pass over the programs. It says that the frozen default is written right after such an `EXISTS`
only, that a live profile is seeded only under a key that was found missing, and that a promotion
writes one knob step from a profile that was seen under its key; and it says which candidates a job
can drop (`Op.Spares`).
-/

open Prog

namespace Devrouter

variable {F : Type}

/-! ### Jobs -/

/-- What a process can be busy with: an operation of the picker, the seeding at startup, or a bare
`EnsureDefault`. -/
inductive Job (F : Type) where
  | op (op : Op F)
  | warmDefaults (intents : List String)
  | ensureDefault (intent : String) (p : Profile)

/-- The program of a job; it returns the picker it leaves. -/
def Job.prog [Field F] [LinearOrder F] (sqrt : F → F) (cfg : Tunables) :
    Job F → Picker → Prog (redis F) Picker
  | .op o, p => do
    let (_, p) ← o.prog sqrt cfg p
    return p
  | .warmDefaults intents, p => do
    Devrouter.warmDefaults intents
    return p
  | .ensureDefault intent q, p => do
    let _ ← Devrouter.ensureDefault intent q
    return p

/-- Processes without candidates, on a server with any content. -/
def startWorld {T : Type} (r : Redis F) (tunableKnobs : T → List String) (frozen : T → Bool) :
    World (redis F) T Picker :=
  World.idle r fun t => ⟨Bandit.new (tunableKnobs t), frozen t⟩

/-- The `SET` a process is about to issue: who issues it, the key and the value. -/
def pendingSet {α : Type} : Prog (redis F) α → Option (Caller × String × Stored)
  | .exec (.set caller key v) _ => some (caller, key, v)
  | _ => none

theorem pendingSet_eq_some {α : Type} {p : Prog (redis F) α} {caller : Caller} {key : String}
    {v : Stored} (h : pendingSet p = some (caller, key, v)) :
    ∃ k, p = .exec (.set caller key v) k := by
  unfold pendingSet at h
  split at h
  · obtain ⟨rfl, rfl, rfl⟩ : _ ∧ _ ∧ _ := by simpa using h
    exact ⟨_, rfl⟩
  · cases h

/-- Every command but a `SET` of the key leaves a profile key as it is. -/
theorem Cmd.apply_str (c : Cmd F) (r : Redis F) {key : String}
    (h : ∀ caller v, c ≠ .set caller key v) : (c.apply r).2.str key = r.str key := by
  cases c with
  | set caller key' v =>
    have hne : key ≠ key' := fun hk => h caller v (by rw [hk])
    exact Function.update_of_ne hne _ _
  | get key' => rfl
  | existsKey key' => rfl
  | lpush key' e => rfl
  | ltrim key' stop => rfl
  | rpush key' row => rfl
  | lrange key' => rfl
  | hgetallTrace key' => rfl
  | hsetTrace key' fields => rfl
  | hgetall key' => rfl
  | hset key' field e => rfl

/-! ### The monitor -/

/-- What a process has learnt from its commands. -/
structure Notes where
  /-- The key of the last command, when it was an `EXISTS` that did not report it. -/
  absent : Option String
  /-- Keys a `GET` found missing. -/
  missing : Set String
  /-- Values read or written under a key. -/
  seen : Set (String × Stored)

namespace Notes

/-- Nothing that was taken down is forgotten. -/
def Le (σ σ' : Notes) : Prop := σ.missing ⊆ σ'.missing ∧ σ.seen ⊆ σ'.seen

theorem Le.refl (σ : Notes) : σ.Le σ := ⟨Set.Subset.refl _, Set.Subset.refl _⟩

theorem Le.trans {σ₁ σ₂ σ₃ : Notes} (h : σ₁.Le σ₂) (h' : σ₂.Le σ₃) : σ₁.Le σ₃ :=
  ⟨h.1.trans h'.1, h.2.trans h'.2⟩

/-- The profile `p` was seen as the live profile of an intent or bucket under `key`. -/
def Saw (σ : Notes) (key intent : String) (p : Profile) : Prop :=
  ∃ v, (key, v) ∈ σ.seen ∧ v.read intent = p

theorem Saw.mono {σ σ' : Notes} {key intent : String} {p : Profile} (h : σ.Saw key intent p)
    (hle : σ.Le σ') : σ'.Saw key intent p := by
  obtain ⟨v, hv, hp⟩ := h
  exact ⟨v, hle.2 hv, hp⟩

theorem Saw.inBounds {σ : Notes} {key intent : String} {p : Profile} (h : σ.Saw key intent p) :
    p.InBounds := by
  obtain ⟨v, -, rfl⟩ := h
  exact Stored.read_inBounds intent v

/-- The notes after a command was answered, or failed. -/
def next (σ : Notes) : (c : Cmd F) → Option c.Reply → Notes
  | .existsKey key, r =>
    { σ with absent := if Option.any (fun n : Nat => decide (0 < n)) r then none else some key }
  | .get key, r =>
    match (r : Option (Option Stored)) with
    | none => { σ with absent := none }
    | some none => { σ with absent := none, missing := insert key σ.missing }
    | some (some v) => { σ with absent := none, seen := insert (key, v) σ.seen }
  | .set _ key v, r =>
    -- what was written has been seen, if the write was answered
    match (r : Option Unit) with
    | none => { σ with absent := none }
    | some () => { σ with absent := none, seen := insert (key, v) σ.seen }
  | _, _ => { σ with absent := none }

/-- The writes a process may issue. -/
def Allows (σ : Notes) : Cmd F → Prop
  | .set .ensureDefault key _ => σ.absent = some key ∧ ∃ j, key = defaultKey j
  | .set .promote key v =>
    (∀ j, key ≠ defaultKey j) ∧
      ∃ base p intent, v = .json p ∧ Profile.OneKnobStep base p ∧ σ.Saw key intent base
  | .set .currentProfile key _ => (∀ j, key ≠ defaultKey j) ∧ key ∈ σ.missing
  | .set .currentProfileFor key _ => (∀ j, key ≠ defaultKey j) ∧ key ∈ σ.missing
  | .set _ key _ => ∀ j, key ≠ defaultKey j
  | _ => True

theorem le_next (σ : Notes) (c : Cmd F) (r : Option c.Reply) : σ.Le (σ.next c r) := by
  -- a note is only ever added, by a read that finds nothing or by one that finds a value
  cases c with
  | get key =>
    rcases r with _ | _ | v
    · exact .refl σ
    · exact ⟨Set.subset_insert _ _, Set.Subset.refl _⟩
    · exact ⟨Set.Subset.refl _, Set.subset_insert _ _⟩
  | set caller key v =>
    rcases r with _ | ⟨⟩
    · exact .refl σ
    · exact ⟨Set.Subset.refl _, Set.subset_insert _ _⟩
  | existsKey key => exact .refl σ
  | lpush key e => exact .refl σ
  | ltrim key stop => exact .refl σ
  | rpush key row => exact .refl σ
  | lrange key => exact .refl σ
  | hgetallTrace key => exact .refl σ
  | hsetTrace key fields => exact .refl σ
  | hgetall key => exact .refl σ
  | hset key field e => exact .refl σ

end Notes

/-- The observer of a process. -/
abbrev etiquette (F : Type) : Monitor (redis F) where
  State := Notes
  next σ c r := σ.next c r
  allows σ c := σ.Allows c

theorem etiquette_le (σ : Notes) (c : (redis F).Cmd) (r : Option ((redis F).Reply c)) :
    σ.Le ((etiquette F).next σ c r) := σ.le_next c r

/-! ### The store's functions -/

section Store

variable {σ : Notes} {intent repo topic : String}

theorem setCurrent_obeys {caller : Caller} {p : Profile} {Q : Option StoreErr → Notes → Prop}
    (hset : σ.Allows (F := F) (.set caller (currentKey intent) (.json p.clip)))
    (hfail : ∀ σ', σ.Le σ' → Q (some .redis) σ')
    (hok : ∀ σ', σ.Le σ' → (currentKey intent, .json p.clip) ∈ σ'.seen → Q none σ') :
    (setCurrent (F := F) caller intent p).Obeys (etiquette F) Q σ := by
  refine ⟨hset, fun r => ?_⟩
  rcases r with _ | ⟨⟩
  · exact hfail _ (.refl σ)
  · exact hok _ (σ.le_next (F := F) (.set caller (currentKey intent) (.json p.clip)) (some ()))
      (Set.mem_insert _ _)

theorem setCurrentFor_obeys {caller : Caller} {p : Profile} {Q : Option StoreErr → Notes → Prop}
    (hset : σ.Allows (F := F) (.set caller (currentKeyFor intent repo topic) (.json p.clip)))
    (hfail : ∀ σ', σ.Le σ' → Q (some .redis) σ')
    (hok : ∀ σ', σ.Le σ' → (currentKeyFor intent repo topic, .json p.clip) ∈ σ'.seen →
      Q none σ') :
    (setCurrentFor (F := F) caller intent repo topic p).Obeys (etiquette F) Q σ := by
  unfold setCurrentFor
  unfold currentKeyFor at hset hok
  split_ifs with hg
  · rw [if_pos hg] at hset hok
    exact setCurrent_obeys hset hfail hok
  · rw [if_neg hg] at hset hok
    refine ⟨hset, fun r => ?_⟩
    rcases r with _ | ⟨⟩
    · exact hfail _ (.refl σ)
    · exact hok _
        (σ.le_next (F := F) (.set caller (bucketCurrentKey intent repo topic) (.json p.clip))
          (some ()))
        (Set.mem_insert _ _)

/-- `EnsureDefault` writes right after its check. -/
theorem ensureDefault_obeys {p : Profile} {Q : Option StoreErr → Notes → Prop}
    (h : ∀ e σ', σ.Le σ' → Q e σ') :
    (ensureDefault (F := F) intent p).Obeys (etiquette F) Q σ := by
  refine ⟨trivial, fun n => ?_⟩
  have hle := σ.le_next (F := F) (.existsKey (defaultKey intent)) n
  change Obeys _ _ (if Option.any (fun n : Nat => decide (0 < n)) n then _ else _) _
  split_ifs with hn
  · exact h _ _ hle
  · refine ⟨?_, fun r => h _ _ (hle.trans (etiquette_le _ _ r))⟩
    -- the check did not report the key
    exact ⟨if_neg hn, intent, rfl⟩

/-- `CurrentProfile` seeds a missing key, and returns what it saw under it. -/
theorem currentProfile_obeys {Q : Profile × Option StoreErr → Notes → Prop}
    (h : ∀ p err σ', σ.Le σ' → (err = none → σ'.Saw (currentKey intent) intent p) → Q (p, err) σ') :
    (currentProfile (F := F) intent).Obeys (etiquette F) Q σ := by
  unfold currentProfile
  rw [obeys_bind]
  refine ⟨trivial, fun val => ?_⟩
  have hle := σ.le_next (F := F) (.get (currentKey intent)) val
  -- the read fails, finds nothing, or finds a profile
  rcases val with _ | _ | v
  · exact h _ _ _ hle fun he => nomatch he
  · change Obeys _ _ (setCurrent .currentProfile intent (Profile.default intent) >>= _) _
    rw [obeys_bind]
    -- nothing was found, so the thread may write the default there
    have hset : (σ.next (F := F) (.get (currentKey intent)) (some none)).Allows (F := F)
        (.set .currentProfile (currentKey intent) (.json (Profile.default intent).clip)) :=
      ⟨fun j => currentKey_ne_defaultKey intent j, Set.mem_insert _ _⟩
    refine setCurrent_obeys hset (fun σ' h' => h _ _ _ (hle.trans h') fun he => nomatch he)
      fun σ' h' hmem => ?_
    change Obeys _ _ (ensureDefault intent (Profile.default intent) >>= _) _
    rw [obeys_bind]
    refine ensureDefault_obeys fun e σ'' h'' => ?_
    cases e with
    | some e => exact h _ _ _ (hle.trans (h'.trans h'')) fun he => nomatch he
    | none =>
      refine h _ _ _ (hle.trans (h'.trans h'')) fun _ => ⟨_, h''.2 hmem, ?_⟩
      rw [Profile.clip_default]
      exact Profile.clip_default intent
  · -- the profile that is returned is the one that was seen
    have hsaw : (σ.next (F := F) (.get (currentKey intent)) (some (some v))).Saw
        (currentKey intent) intent (v.read intent) := ⟨v, Set.mem_insert _ _, rfl⟩
    cases v with
    | json p => exact h _ _ _ hle fun _ => hsaw
    | corrupt => exact h _ _ _ hle fun _ => hsaw

/-- `CurrentProfileFor` seeds missing keys, and returns what it saw under the bucket's. -/
theorem currentProfileFor_obeys {Q : Profile × Option StoreErr → Notes → Prop}
    (h : ∀ p err σ', σ.Le σ' → (err = none → σ'.Saw (currentKeyFor intent repo topic) intent p) →
      Q (p, err) σ') :
    (currentProfileFor (F := F) intent repo topic).Obeys (etiquette F) Q σ := by
  unfold currentProfileFor
  split_ifs with hg
  · have hkey : currentKeyFor intent repo topic = currentKey intent := if_pos hg
    rw [hkey] at h
    exact currentProfile_obeys h
  · have hkey : currentKeyFor intent repo topic = bucketCurrentKey intent repo topic := if_neg hg
    rw [hkey] at h
    rw [obeys_bind]
    refine ⟨trivial, fun val => ?_⟩
    have hle := σ.le_next (F := F) (.get (bucketCurrentKey intent repo topic)) val
    -- the read fails, finds nothing, or finds a profile of the bucket
    rcases val with _ | _ | v
    · exact h _ _ _ hle fun he => nomatch he
    · change Obeys _ _ (currentProfile intent >>= _) _
      rw [obeys_bind]
      refine currentProfile_obeys fun p err σ' h' hsaw => ?_
      cases err with
      | some e => exact h _ _ _ (hle.trans h') fun he => nomatch he
      | none =>
        change Obeys _ _ (setCurrentFor .currentProfileFor intent repo topic p >>= _) _
        rw [obeys_bind]
        -- nothing was found for the bucket, and this is still noted when the global profile is read
        have hset : σ'.Allows (F := F)
            (.set .currentProfileFor (currentKeyFor intent repo topic) (.json p.clip)) := by
          rw [hkey]
          exact ⟨fun j => bucketCurrentKey_ne_defaultKey _ _ _ j, h'.1 (Set.mem_insert _ _)⟩
        refine setCurrentFor_obeys hset
          (fun σ'' h'' => h _ _ _ (hle.trans (h'.trans h'')) fun he => nomatch he)
          fun σ'' h'' hmem => h _ _ _ (hle.trans (h'.trans h'')) fun _ => ⟨_, hkey ▸ hmem, ?_⟩
        rw [Stored.read_json, Profile.clip_clip, (hsaw rfl).inBounds.clip_eq]
    · have hsaw : (σ.next (F := F) (.get (bucketCurrentKey intent repo topic))
          (some (some v))).Saw (bucketCurrentKey intent repo topic) intent (v.read intent) :=
        ⟨v, Set.mem_insert _ _, rfl⟩
      cases v with
      | json p => exact h _ _ _ hle fun _ => hsaw
      | corrupt => exact h _ _ _ hle fun _ => hsaw

theorem loadDefault_obeys {Q : Profile × Option StoreErr → Notes → Prop}
    (h : ∀ pe σ', σ.Le σ' → Q pe σ') :
    (loadDefault (F := F) intent).Obeys (etiquette F) Q σ := by
  unfold loadDefault
  rw [obeys_bind]
  refine ⟨trivial, fun val => ?_⟩
  have hle := σ.le_next (F := F) (.get (defaultKey intent)) val
  rcases val with _ | _ | v
  · exact h _ _ hle
  · exact h _ _ hle
  · cases v with
    | json p => exact h _ _ hle
    | corrupt => exact h _ _ hle

theorem appendHistory_obeys {e : HistoryEntry} {Q : Option StoreErr → Notes → Prop}
    (h : ∀ err σ', σ.Le σ' → Q err σ') :
    (appendHistory (F := F) intent e).Obeys (etiquette F) Q σ :=
  ⟨trivial, fun r => ⟨trivial, fun r' => h _ _ ((etiquette_le σ _ r).trans (etiquette_le _ _ r'))⟩⟩

theorem appendHistoryFor_obeys {e : HistoryEntry} {Q : Option StoreErr → Notes → Prop}
    (h : ∀ err σ', σ.Le σ' → Q err σ') :
    (appendHistoryFor (F := F) intent repo topic e).Obeys (etiquette F) Q σ := by
  unfold appendHistoryFor
  split_ifs
  · exact appendHistory_obeys h
  · exact ⟨trivial, fun r => ⟨trivial, fun r' =>
      h _ _ ((etiquette_le σ _ r).trans (etiquette_le _ _ r'))⟩⟩

end Store

/-! ### Candidates -/

/-- The verdict ends the test of its candidate. -/
def Verdict.closes : Verdict → Bool
  | .stale => false
  | .keep _ => false
  | _ => true

theorem Candidate.SameTest.refl (c : Candidate) : c.SameTest c := ⟨rfl, rfl, rfl, rfl, rfl, rfl, rfl⟩

/-- The candidate is one knob step from a profile that was seen as its bucket's. -/
structure Candidate.Seen (c : Candidate) (σ : Notes) : Prop where
  saw : σ.Saw (Bandit.liveKey c) c.intent c.base
  step : Profile.OneKnobStep c.base c.profile
  inBounds : c.profile.InBounds

theorem Candidate.Seen.mono {c : Candidate} {σ σ' : Notes} (h : c.Seen σ) (hle : σ.Le σ') :
    c.Seen σ' := ⟨h.saw.mono hle, h.step, h.inBounds⟩

theorem Candidate.Seen.sameTest {c c' : Candidate} {σ : Notes} (h : c.Seen σ)
    (ht : c.SameTest c') : c'.Seen σ := by
  have hkey : Bandit.liveKey c' = Bandit.liveKey c := by
    unfold Bandit.liveKey
    rw [ht.intent, ht.repo, ht.topic]
  refine ⟨?_, ?_, ?_⟩
  · rw [hkey, ht.intent, ht.base]
    exact h.saw
  · rw [ht.base, ht.profile]
    exact h.step
  · rw [ht.profile]
    exact h.inBounds

namespace Bandit

/-- Every candidate is one knob step from a profile that was seen as its bucket's. -/
def Seen (b : Bandit) (σ : Notes) : Prop := ∀ key c, b.active key = some c → c.Seen σ

/-- Every candidate of `b` is still under test in `b'`, up to its samples, unless `closed` says
otherwise. -/
def Spares (b b' : Bandit) (closed : String → Candidate → Prop) : Prop :=
  ∀ key c, b.active key = some c →
    (∃ c', b'.active key = some c' ∧ c.SameTest c') ∨ closed key c

theorem Spares.refl (b : Bandit) (closed : String → Candidate → Prop) : b.Spares b closed :=
  fun _ c hc => .inl ⟨c, hc, .refl c⟩

variable {b : Bandit} {σ : Notes}

theorem Seen.mono {σ' : Notes} (h : b.Seen σ) (hle : σ.Le σ') : b.Seen σ' :=
  fun key c hc => (h key c hc).mono hle

/-- At the beginning of a job a process forgets its last check and the keys it found missing. -/
theorem Seen.renew (h : b.Seen σ) : b.Seen ⟨none, ∅, σ.seen⟩ := by
  intro key c hc
  obtain ⟨⟨v, hv, hread⟩, hstep, hin⟩ := h key c hc
  exact ⟨⟨v, hv, hread⟩, hstep, hin⟩

theorem Seen.put (h : b.Seen σ) {c : Candidate} (hc : c.Seen σ) (key : String) :
    (b.put key c).Seen σ := by
  intro key' c' hc'
  rcases active_of_put hc' with ⟨rfl, rfl⟩ | ⟨-, hc'⟩
  · exact hc
  · exact h key' c' hc'

theorem Seen.delete (h : b.Seen σ) (key : String) : (b.delete key).Seen σ :=
  fun key' c' hc' => h key' c' (active_of_delete hc').2

theorem Seen.deletePrefix (h : b.Seen σ) (pre : String) : (b.deletePrefix pre).Seen σ :=
  fun key c hc => h key c (active_of_deletePrefix hc).2

/-- A selection on a profile that was seen drops no candidate. -/
theorem select_seen (cfg : Tunables) (hb : b.Seen σ) {intent repo topic : String} {base : Profile}
    (hs : σ.Saw (currentKeyFor intent repo topic) intent base) (n : Int) (d : Draws)
    (closed : String → Candidate → Prop) :
    (b.select cfg intent repo topic base n d).2.Seen σ ∧
      b.Spares (b.select cfg intent repo topic base n d).2 closed := by
  rcases b.select_cases cfg intent repo topic base n d with hres | ⟨c, -, hres⟩ | ⟨hnone, hid, hres⟩
  · rw [hres]
    exact ⟨hb, .refl b closed⟩
  · rw [hres]
    exact ⟨hb, .refl b closed⟩
  · have hne : b.perturb base d ≠ base := fun he => hid (by rw [he])
    have hfresh : (Candidate.fresh intent repo topic base (b.perturb base d)).Seen σ :=
      ⟨hs, (b.perturb_eq_or_step hs.inBounds d).resolve_left hne, b.perturb_inBounds hs.inBounds d⟩
    rw [hres]
    refine ⟨hb.put hfresh _, fun key c hc => .inl ⟨c, ?_, .refl c⟩⟩
    -- the slot that is filled was empty
    have hk : key ≠ banditKey intent repo topic := fun hk => by
      rw [hk, hnone] at hc
      cases hc
    rw [put_active, Function.update_of_ne hk, hc]

/-- A candidate is recorded: another record of the same test takes its place. -/
theorem put_spares (hb : b.Seen σ) {key : String} {c c' : Candidate} (hc : b.active key = some c)
    (ht : c.SameTest c') {σ' : Notes} (hle : σ.Le σ') (closed : String → Candidate → Prop) :
    (b.put key c').Seen σ' ∧ b.Spares (b.put key c') closed := by
  refine ⟨(hb.mono hle).put (((hb key c hc).mono hle).sameTest ht) key, fun k d hd => .inl ?_⟩
  by_cases hk : k = key
  · subst hk
    obtain rfl : c = d := Option.some.inj (hc.symm.trans hd)
    exact ⟨c', Function.update_self _ _ _, ht⟩
  · exact ⟨d, (Function.update_of_ne hk _ _).trans hd, .refl d⟩

/-- A candidate is dropped whose test is closed. -/
theorem drop_spares (hb : b.Seen σ) {key : String} (c' : Candidate) {σ' : Notes} (hle : σ.Le σ')
    {closed : String → Candidate → Prop} (hclosed : ∀ d, closed key d) :
    ((b.put key c').delete key).Seen σ' ∧ b.Spares ((b.put key c').delete key) closed := by
  rw [delete_put]
  refine ⟨(hb.mono hle).delete key, fun k d hd => ?_⟩
  by_cases hk : k = key
  · subst hk
    exact .inr (hclosed d)
  · exact .inl ⟨d, (Function.update_of_ne hk _ _).trans hd, .refl d⟩

/-- The end of a test: it is logged, and its candidate is dropped. -/
theorem logged_obeys (hb : b.Seen σ) {key : String} (c' : Candidate) (e : HistoryEntry) {σ' : Notes} (hle : σ.Le σ')
    {closed : String → Candidate → Prop} (hclosed : ∀ d, closed key d) :
    (appendHistoryFor (F := F) c'.intent c'.repo c'.topic e >>= fun _ => pure ((b.put key c').delete key)).Obeys
      (etiquette F) (fun b' σ' => b'.Seen σ' ∧ b.Spares b' closed) σ' := by
  rw [obeys_bind]
  exact appendHistoryFor_obeys fun _ σ'' hle' => drop_spares hb c' (hle.trans hle') hclosed

/-- A decision drops its candidate only when the verdict closes the test, and promotes only what it
may. -/
theorem carryOut_obeys (hb : b.Seen σ) {key : String} {c : Candidate}
    (hc : b.active key = some c) (now : Int) {v : Verdict}
    (hv : v = .stale ∨ ∃ c', c.SameTest c' ∧
      (v = .keep c' ∨ v = .promote c' ∨ v = .discard c' ∨ v = .rollback c')) :
    (b.carryOut (F := F) key now v).Obeys (etiquette F)
      (fun b' σ' => b'.Seen σ' ∧ b.Spares b' fun k _ => k = key ∧ v.closes = true) σ := by
  -- stale, kept, promoted, discarded, rolled back
  rcases hv with rfl | ⟨c', ht, rfl | rfl | rfl | rfl⟩
  · exact ⟨hb, .refl b _⟩
  · exact put_spares hb hc ht (.refl σ) _
  · have hc' := (hb key c hc).sameTest ht
    -- the promotion is one step from the base the candidate was seen with
    have hset : σ.Allows (F := F) (.set .promote (currentKeyFor c'.intent c'.repo c'.topic)
        (.json c'.profile.clip)) :=
      ⟨fun j => currentKeyFor_ne_defaultKey _ _ _ j, c'.base, c'.profile, c'.intent,
        by rw [hc'.inBounds.clip_eq], hc'.step, hc'.saw⟩
    change Obeys _ _ (setCurrentFor .promote c'.intent c'.repo c'.topic c'.profile >>= _) _
    rw [obeys_bind]
    refine setCurrentFor_obeys hset (fun σ' hle => put_spares hb hc ht hle _) fun σ' hle _ => ?_
    exact logged_obeys hb c' _ hle fun _ => ⟨rfl, rfl⟩
  · exact logged_obeys hb c' _ (.refl σ) fun _ => ⟨rfl, rfl⟩
  · change Obeys _ _ (loadDefault c'.intent >>= _) _
    rw [obeys_bind]
    refine loadDefault_obeys fun de σ₁ h₁ => ?_
    obtain ⟨d, err⟩ := de
    -- a rollback may write whatever default was read
    have hset : ∀ p : Profile, σ₁.Allows (F := F)
        (.set .rollback (currentKeyFor c'.intent c'.repo c'.topic) (.json p.clip)) :=
      fun _ j => currentKeyFor_ne_defaultKey _ _ _ j
    change Obeys _ _ (setCurrentFor .rollback c'.intent c'.repo c'.topic _ >>= _) _
    rw [obeys_bind]
    exact setCurrentFor_obeys (hset _) (fun σ₂ h₂ => logged_obeys hb c' _ (h₁.trans h₂) fun _ => ⟨rfl, rfl⟩)
      fun σ₂ h₂ _ => logged_obeys hb c' _ (h₁.trans h₂) fun _ => ⟨rfl, rfl⟩

theorem update_obeys (hb : b.Seen σ) (intent repo topic profileID : String) (adjusted weight : ℚ)
    (now : Int) :
    (b.update (F := F) intent repo topic profileID adjusted weight now).Obeys (etiquette F)
      (fun b' σ' => b'.Seen σ' ∧ b.Spares b' fun k c =>
        k = banditKey intent repo topic ∧ (c.judge profileID adjusted weight).closes = true) σ := by
  cases hc : b.active (banditKey intent repo topic) with
  | none =>
    rw [update_none b profileID adjusted weight now hc]
    exact ⟨hb, .refl b _⟩
  | some c =>
    rw [update_eq b profileID adjusted weight now hc]
    -- the judged candidate is of the same test, so it has been seen too
    have hv : c.judge profileID adjusted weight = .stale ∨ ∃ c', c.SameTest c' ∧
        (c.judge profileID adjusted weight = .keep c' ∨
          c.judge profileID adjusted weight = .promote c' ∨
          c.judge profileID adjusted weight = .discard c' ∨
          c.judge profileID adjusted weight = .rollback c') := by
      rcases c.judge_cases profileID adjusted weight with hst | ⟨c', ht, hj⟩
      · exact .inl hst
      · exact .inr ⟨c', ht, hj.imp_left fun h => h.1⟩
    refine (carryOut_obeys hb hc now hv).mono fun b' σ' ⟨hs, hspare⟩ => ⟨hs, fun k d hd => ?_⟩
    refine (hspare k d hd).imp_right fun ⟨hk, hclose⟩ => ⟨hk, ?_⟩
    obtain rfl : d = c := Option.some.inj (hd.symm.trans (hk ▸ hc))
    exact hclose

theorem resetIntent_obeys (hb : b.Seen σ) (intent : String) (now : Int) :
    (b.resetIntent (F := F) intent now).Obeys (etiquette F)
      (fun eb σ' => eb.2.Seen σ' ∧ b.Spares eb.2 fun k _ => hasPrefix k (intent ++ "|") = true) σ := by
  unfold resetIntent
  rw [obeys_bind]
  refine loadDefault_obeys fun de σ₁ h₁ => ?_
  obtain ⟨d, err⟩ := de
  change Obeys _ _ (setCurrent .resetIntent intent _ >>= _) _
  rw [obeys_bind]
  refine setCurrent_obeys (fun j => currentKey_ne_defaultKey intent j)
    (fun σ₂ h₂ => ⟨hb.mono (h₁.trans h₂), .refl b _⟩) fun σ₂ h₂ _ => ?_
  change Obeys _ _ (appendHistory intent _ >>= _) _
  rw [obeys_bind]
  refine appendHistory_obeys fun _ σ₃ h₃ =>
    ⟨(hb.mono (h₁.trans (h₂.trans h₃))).deletePrefix _, fun k c hc => ?_⟩
  -- the tests of the intent are deleted, and every other one stays
  cases hp : hasPrefix k (intent ++ "|") with
  | true => exact .inr hp
  | false =>
    refine .inl ⟨c, ?_, .refl c⟩
    change (b.deletePrefix (intent ++ "|")).active k = some c
    rw [deletePrefix_active, hp]
    exact hc

end Bandit

/-! ### Operations -/

/-- The operation ends the test of the candidate `c` in a slot: a reset of its intent, or a reward
whose verdict, taken on the candidate's own samples, closes the test. -/
def Op.Closes (op : Op F) (key : String) (c : Candidate) : Prop :=
  (∃ intent now, op = .reset intent now ∧ hasPrefix key (intent ++ "|") = true) ∨
  (∃ w, op.reward = some w ∧ w.bucket.key = key ∧
    (c.judge w.profileID w.adjusted w.weight).closes = true)

/-- What a picker leaves: its candidates seen, and those of `p` spared but for the closed ones. -/
abbrev Picker.Leaves (p : Picker) (closed : String → Candidate → Prop) (p' : Picker)
    (σ : Notes) : Prop := p'.bandit.Seen σ ∧ p.bandit.Spares p'.bandit closed

section Operations

variable [Field F] [LinearOrder F] (sqrt : F → F) (cfg : Tunables) {p : Picker} {σ : Notes}
  {closed : String → Candidate → Prop}

theorem loadBucket_obeys (intent repo : String) (sh : Shuffle (TopicField F))
    {Q : List (TopicEntry F) → Notes → Prop} (h : ∀ entries σ', σ.Le σ' → Q entries σ') :
    (loadBucket sqrt sh intent repo).Obeys (etiquette F) Q σ := by
  refine ⟨trivial, fun r => ?_⟩
  have hle := etiquette_le σ (.hgetall (topicsKey intent repo)) r
  cases r with
  | none => exact h _ _ hle
  | some hash => exact h _ _ hle

namespace Picker

omit [Field F] [LinearOrder F] in
theorem pick_obeys (hp : p.bandit.Seen σ) (intent : String) (d : Draws) :
    (p.pick (F := F) cfg intent d).Obeys (etiquette F) (fun sp σ' => p.Leaves closed sp.2 σ') σ := by
  unfold pick
  rw [obeys_bind]
  refine currentProfile_obeys fun base err σ' hle hsaw => ?_
  cases err with
  | some e => exact ⟨hp.mono hle, .refl _ _⟩
  | none =>
    have hglobal : σ'.Saw (currentKeyFor intent "" intentGlobalTopic) intent base := hsaw rfl
    exact Bandit.select_seen cfg (hp.mono hle) hglobal 0 d closed

theorem samples_obeys (intent repo topic : String) (sh : Shuffle (TopicField F))
    {Q : Int → Notes → Prop} (h : ∀ n σ', σ.Le σ' → Q n σ') :
    (samples sqrt cfg intent repo topic sh).Obeys (etiquette F) Q σ := by
  unfold samples
  split_ifs
  · exact h _ _ (.refl σ)
  · rw [obeys_bind]
    refine loadBucket_obeys sqrt intent _ sh fun entries σ' hle => ?_
    cases entries.find? fun e => e.id = topic with
    | none => exact h _ _ hle
    | some e => exact h _ _ hle

theorem pickWithTopic_obeys (hp : p.bandit.Seen σ) (intent repo topic : String)
    (sh : Shuffle (TopicField F)) (d : Draws) :
    (p.pickWithTopic sqrt cfg intent repo topic sh d).Obeys (etiquette F)
      (fun sp σ' => p.Leaves closed sp.2 σ') σ := by
  unfold pickWithTopic
  split_ifs with hg
  · exact pick_obeys cfg hp intent d
  · rw [obeys_bind]
    refine samples_obeys sqrt cfg intent repo topic sh fun n σ₁ h₁ => ?_
    by_cases hn : n < cfg.sampleFloor
    · rw [if_pos hn, obeys_bind]
      refine currentProfile_obeys fun base err σ₂ h₂ _ => ?_
      cases err with
      | some e => exact ⟨hp.mono (h₁.trans h₂), .refl _ _⟩
      | none =>
        -- below the floor no candidate is generated
        have hcold : p.bandit.select cfg intent repo topic base n d = (base, p.bandit) :=
          Bandit.select_cold cfg p.bandit (Bool.eq_false_iff.mpr hg) hn
        change (p.bandit.select cfg intent repo topic base n d).2.Seen σ₂ ∧
          p.bandit.Spares (p.bandit.select cfg intent repo topic base n d).2 closed
        rw [hcold]
        exact ⟨hp.mono (h₁.trans h₂), .refl _ _⟩
    · rw [if_neg hn, obeys_bind]
      refine currentProfileFor_obeys fun base err σ₂ h₂ hsaw => ?_
      cases err with
      | some e => exact ⟨hp.mono (h₁.trans h₂), .refl _ _⟩
      | none => exact Bandit.select_seen cfg (hp.mono (h₁.trans h₂)) (hsaw rfl) n d closed

omit [Field F] [LinearOrder F] in
theorem updateWithTopic_obeys (hp : p.bandit.Seen σ) (intent repo topic profileID : String)
    (adjusted weight : ℚ) (now : Int) :
    (p.updateWithTopic (F := F) intent repo topic profileID adjusted weight now).Obeys (etiquette F)
      (fun p' σ' => p.Leaves (fun k c => k = Process.slotKey intent repo topic ∧
        (c.judge profileID adjusted weight).closes = true) p' σ') σ := by
  unfold updateWithTopic Process.slotKey
  by_cases hf : p.frozen = true
  · rw [if_pos hf]
    exact ⟨hp, .refl _ _⟩
  · rw [if_neg hf]
    split_ifs
    · rw [obeys_bind]
      exact Bandit.update_obeys hp _ _ _ _ _ _ _
    · rw [obeys_bind]
      exact Bandit.update_obeys hp _ _ _ _ _ _ _

omit [Field F] [LinearOrder F] in
theorem update_obeys (hp : p.bandit.Seen σ) (intent profileID : String) (adjusted weight : ℚ)
    (now : Int) :
    (p.update (F := F) intent profileID adjusted weight now).Obeys (etiquette F)
      (fun p' σ' => p.Leaves (fun k c => k = banditKey intent "" intentGlobalTopic ∧
        (c.judge profileID adjusted weight).closes = true) p' σ') σ := by
  unfold update
  split_ifs
  · exact ⟨hp, .refl _ _⟩
  · rw [obeys_bind]
    exact Bandit.update_obeys hp _ _ _ _ _ _ _

omit [Field F] [LinearOrder F] in
theorem reset_obeys (hp : p.bandit.Seen σ) (intent : String) (now : Int) :
    (p.reset (F := F) intent now).Obeys (etiquette F)
      (fun dp σ' => p.Leaves (fun k _ => hasPrefix k (intent ++ "|") = true) dp.2 σ') σ := by
  unfold reset
  rw [obeys_bind]
  refine (Bandit.resetIntent_obeys hp intent now).mono fun eb σ₁ ⟨hs, hspare⟩ => ?_
  obtain ⟨err, b⟩ := eb
  cases err with
  | some e => exact ⟨hs, hspare⟩
  | none =>
    change Obeys _ _ (loadDefault intent >>= _) _
    rw [obeys_bind]
    refine loadDefault_obeys fun de σ₂ h₂ => ?_
    obtain ⟨d, err⟩ := de
    cases err with
    | some e => exact ⟨hs.mono h₂, hspare⟩
    | none => exact ⟨hs.mono h₂, hspare⟩

end Picker

theorem resolve_obeys (intent repo : String) (embed : List F) (queryText : String)
    (sh : Shuffle (TopicField F)) (now : Int) {Q : String × String → Notes → Prop}
    (h : ∀ o σ', σ.Le σ' → Q o σ') :
    (resolve sqrt cfg intent repo embed queryText sh now).Obeys (etiquette F) Q σ := by
  unfold resolve
  split_ifs
  · exact h _ _ (.refl σ)
  · rw [obeys_bind]
    refine loadBucket_obeys sqrt intent _ sh fun entries σ₁ h₁ => ?_
    exact ⟨trivial, fun r => h _ _ (h₁.trans (etiquette_le _ _ r))⟩

omit [Field F] [LinearOrder F] in
theorem warmDefaults_obeys : ∀ (intents : List String) {σ : Notes} {Q : Unit → Notes → Prop},
    (∀ σ', σ.Le σ' → Q () σ') →
    (warmDefaults (F := F) intents).Obeys (etiquette F) Q σ
  | [], σ, _, h => h σ (.refl σ)
  | intent :: intents, σ, Q, h => by
    unfold warmDefaults
    rw [obeys_bind]
    exact currentProfile_obeys fun p err σ₁ h₁ _ =>
      warmDefaults_obeys intents fun σ₂ h₂ => h σ₂ (h₁.trans h₂)

/-- The slot of a bucket. -/
theorem Bucket.key_of (intent : Name) (repo : String) (topic : Name) :
    (Bucket.of intent repo topic).key = Process.slotKey intent repo topic := by
  unfold Process.slotKey
  split_ifs with hg
  · rw [Bucket.of_global hg]
    rfl
  · rw [Bucket.of_topic (Bool.eq_false_iff.mpr hg)]
    rfl

/-- **What an operation does whatever the others do**: it keeps the etiquette, leaves candidates that
are one knob step from a profile seen as their bucket's, and drops none but those it closes. -/
theorem Op.prog_obeys (hp : p.bandit.Seen σ) (op : Op F) :
    (op.prog sqrt cfg p).Obeys (etiquette F) (fun res σ' => p.Leaves op.Closes res.2 σ') σ := by
  -- each operation obeys as the picker's call does, and closes only its own tests
  cases op with
  | pick intent d =>
    change Obeys _ _ (p.pick cfg intent d >>= _) _
    rw [obeys_bind]
    exact Picker.pick_obeys cfg hp intent d
  | pickWithTopic intent repo topic sh d =>
    change Obeys _ _ (p.pickWithTopic sqrt cfg intent repo topic sh d >>= _) _
    rw [obeys_bind]
    exact Picker.pickWithTopic_obeys sqrt cfg hp intent repo topic sh d
  | update intent profileID adjusted weight now =>
    change Obeys _ _ (p.update intent profileID adjusted weight now >>= _) _
    rw [obeys_bind]
    refine (Picker.update_obeys hp _ _ _ _ _).mono fun p' σ' ⟨hs, hspare⟩ =>
      ⟨hs, fun k c hc => (hspare k c hc).imp_right fun ⟨hk, hclose⟩ => .inr ⟨_, rfl, hk.symm, hclose⟩⟩
  | updateWithTopic intent repo topic profileID adjusted weight now =>
    change Obeys _ _ (p.updateWithTopic intent repo topic profileID adjusted weight now >>= _) _
    rw [obeys_bind]
    refine (Picker.updateWithTopic_obeys hp _ _ _ _ _ _ _).mono fun p' σ' ⟨hs, hspare⟩ =>
      ⟨hs, fun k c hc => (hspare k c hc).imp_right fun ⟨hk, hclose⟩ =>
        .inr ⟨_, rfl, (Bucket.key_of intent repo topic).trans hk.symm, hclose⟩⟩
  | reset intent now =>
    change Obeys _ _ (p.reset intent now >>= _) _
    rw [obeys_bind]
    refine (Picker.reset_obeys hp intent now).mono fun dp σ' ⟨hs, hspare⟩ =>
      ⟨hs, fun k c hc => (hspare k c hc).imp_right fun hk => .inl ⟨intent, now, rfl, hk⟩⟩
  | resolve intent repo embed queryText sh now =>
    change Obeys _ _ (Devrouter.resolve sqrt cfg intent repo embed queryText sh now >>= _) _
    rw [obeys_bind]
    exact resolve_obeys sqrt cfg _ _ _ _ _ _ fun o σ' hle => ⟨hp.mono hle, .refl _ _⟩

/-- A job closes what its operation closes. -/
def Job.Closes : Job F → String → Candidate → Prop
  | .op o => o.Closes
  | _ => fun _ _ => False

theorem Job.prog_obeys (hp : p.bandit.Seen σ) (j : Job F) :
    (j.prog sqrt cfg p).Obeys (etiquette F) (p.Leaves j.Closes) σ := by
  cases j with
  | op o =>
    change Obeys _ _ (o.prog sqrt cfg p >>= _) _
    rw [obeys_bind]
    exact Op.prog_obeys sqrt cfg hp o
  | warmDefaults intents =>
    change Obeys _ _ (Devrouter.warmDefaults intents >>= _) _
    rw [obeys_bind]
    exact warmDefaults_obeys intents fun σ' hle => ⟨hp.mono hle, .refl _ _⟩
  | ensureDefault intent q =>
    change Obeys _ _ (Devrouter.ensureDefault intent q >>= _) _
    rw [obeys_bind]
    exact ensureDefault_obeys fun e σ' hle => ⟨hp.mono hle, .refl _ _⟩

end Operations

end Devrouter
