import Devrouter.Heuristics.Shared

/-!
# Promotions on a shared server

What is true of the live profiles when several processes tune them on one server. Nothing in the
package compares a candidate's base with what is stored: a promotion is a plain `SET` of a profile
made from a profile that was read at some earlier time, seeding is a `GET` and a `SET`, and a candidate
is judged on the samples of its own process. So `promotions_shared` speaks of the past: the base of a
promotion *was* stored under its key, a seeded key *was* found missing by the same job, and in both
cases it still stands if no other `SET` of the key came in between. `promotions_clash` has the runs in
which one did.

The past of a key is `Stood`. The invariant of a thread is that all it has taken down as a monitored
program (`etiquette`) did stand on the server.
-/

open Prog

namespace Devrouter

variable {F T L : Type}

/-- `key` held `o` after `i` commands, and it still does unless it has been `SET` since. -/
structure Stood (w : World (redis F) T L) (key : String) (o : Option Stored) (i : Nat) : Prop where
  was : ∃ r, w.past[i]? = some r ∧ r.str key = o
  still : (∀ d ∈ w.log.drop i, ∀ caller v, d.cmd ≠ .set caller key v) → w.shared.str key = o

/-- In its present job the process has read `key`, as its `i`-th command for some `i`, and found it
missing. -/
def ReadMissing (w : World (redis F) T L) (t : T) (key : String) : Prop :=
  ∃ i r, w.began t ≤ i ∧ w.log[i]? = some ⟨t, .get key, r⟩ ∧ Stood w key none i

/-- What stands now. -/
theorem Stood.now (w : World (redis F) T L) (key : String) :
    Stood w key (w.shared.str key) w.log.length :=
  ⟨⟨w.shared, w.past_last, rfl⟩, fun _ => rfl⟩

/-- A move that carries out no command changes no past. -/
theorem Stood.congr {w w' : World (redis F) T L} {key : String} {o : Option Stored} {i : Nat}
    (h : Stood w key o i) (hlog : w'.log = w.log) (hshared : w'.shared = w.shared) :
    Stood w' key o i := by
  obtain ⟨r, hr, ho⟩ := h.was
  refine ⟨⟨r, ?_, ho⟩, ?_⟩
  · unfold World.past
    rw [hlog, hshared]
    exact hr
  · rw [hlog, hshared]
    exact h.still

variable [DecidableEq T] {w : World (redis F) T L} {key : String}

/-- The past is not changed by another command. -/
theorem Stood.answer {o : Option Stored} {i : Nat} (h : Stood w key o i) (t : T) (c : Cmd F)
    (p : Prog (redis F) L) : Stood (w.answer t c p) key o i := by
  obtain ⟨r, hr, ho⟩ := h.was
  have hi : i < w.past.length := (List.getElem?_eq_some_iff.mp hr).1
  refine ⟨⟨r, ?_, ho⟩, fun hno => ?_⟩
  · rw [World.past_answer, List.getElem?_append_left hi]
    exact hr
  · have hdrop : (w.answer t c p).log.drop i = w.log.drop i ++ [⟨t, c, w.shared⟩] := by
      rw [World.past_length] at hi
      exact List.drop_append_of_le_length (by omega)
    rw [hdrop] at hno
    have hold := h.still fun d hd => hno d (List.mem_append_left _ hd)
    have hc := hno ⟨t, c, w.shared⟩ (List.mem_append_right _ (List.mem_singleton_self _))
    change (c.apply w.shared).2.str key = o
    rw [c.apply_str w.shared hc]
    exact hold

theorem ReadMissing.answer {t : T} (h : ReadMissing w t key) (t' : T) (c : Cmd F)
    (p : Prog (redis F) L) : ReadMissing (w.answer t' c p) t key := by
  obtain ⟨i, r, hb, hi, hs⟩ := h
  refine ⟨i, r, hb, ?_, hs.answer t' c p⟩
  change (w.log ++ [_])[i]? = _
  rw [List.getElem?_append_left (List.getElem?_eq_some_iff.mp hi).1]
  exact hi

/-! ### What a process has taken down -/

/-- The notes of a process are true of the past. -/
structure Witnessed (w : World (redis F) T L) (t : T) (σ : Notes) : Prop where
  seen : ∀ key v, (key, v) ∈ σ.seen → ∃ i, Stood w key (some v) i
  missing : ∀ key ∈ σ.missing, ReadMissing w t key
  began : w.began t ≤ w.log.length

namespace Witnessed

variable {t : T} {σ : Notes}

/-- A command is carried out, the notes are as they were. -/
theorem answer (h : Witnessed w t σ) (t' : T) (c : Cmd F) (p : Prog (redis F) L) :
    Witnessed (w.answer t' c p) t σ where
  seen key v hv := by
    obtain ⟨i, hi⟩ := h.seen key v hv
    exact ⟨i, hi.answer t' c p⟩
  missing key hkey := (h.missing key hkey).answer t' c p
  began := by
    change w.began t ≤ (w.log ++ [_]).length
    rw [List.length_append]
    exact Nat.le_add_right_of_le h.began

/-- The process takes down what its command was answered. -/
theorem next (h : Witnessed w t σ) (c : Cmd F) (p : Prog (redis F) L) :
    Witnessed (w.answer t c p) t (σ.next c (some (c.apply w.shared).1)) := by
  have hmono := h.answer t c p
  cases c with
  | get key =>
    change Witnessed _ t (σ.next (F := F) (.get key) (some (w.shared.str key)))
    cases hs : w.shared.str key with
    | none =>
      refine ⟨hmono.seen, fun key' hkey' => ?_, hmono.began⟩
      rcases Set.mem_insert_iff.mp hkey' with rfl | hkey'
      · -- the read itself is the entry of the log
        have hnow := (Stood.now w key').answer t (.get key') p
        rw [hs] at hnow
        refine ⟨w.log.length, w.shared, h.began, ?_, hnow⟩
        change (w.log ++ [_])[w.log.length]? = _
        rw [List.getElem?_concat_length]
      · exact hmono.missing key' hkey'
    | some v =>
      refine ⟨fun key' v' hv' => ?_, hmono.missing, hmono.began⟩
      rcases Set.mem_insert_iff.mp hv' with heq | hv'
      · obtain ⟨rfl, rfl⟩ := Prod.mk.inj heq
        have hnow := (Stood.now w key').answer t (.get key') p
        rw [hs] at hnow
        exact ⟨_, hnow⟩
      · exact hmono.seen key' v' hv'
  | set caller key v =>
    refine ⟨fun key' v' hv' => ?_, hmono.missing, hmono.began⟩
    rcases Set.mem_insert_iff.mp hv' with heq | hv'
    · obtain ⟨rfl, rfl⟩ := Prod.mk.inj heq
      -- what was written stands from now on
      have hnow := Stood.now (w.answer t (.set caller key' v') p) key'
      have hset : (w.answer t (.set caller key' v') p).shared.str key' = some v' :=
        Function.update_self _ _ _
      rw [hset] at hnow
      exact ⟨_, hnow⟩
    · exact hmono.seen key' v' hv'
  | existsKey key => exact ⟨hmono.seen, hmono.missing, hmono.began⟩
  | lpush key e => exact ⟨hmono.seen, hmono.missing, hmono.began⟩
  | ltrim key stop => exact ⟨hmono.seen, hmono.missing, hmono.began⟩
  | rpush key row => exact ⟨hmono.seen, hmono.missing, hmono.began⟩
  | lrange key => exact ⟨hmono.seen, hmono.missing, hmono.began⟩
  | hgetallTrace key => exact ⟨hmono.seen, hmono.missing, hmono.began⟩
  | hsetTrace key fields => exact ⟨hmono.seen, hmono.missing, hmono.began⟩
  | hgetall key => exact ⟨hmono.seen, hmono.missing, hmono.began⟩
  | hset key field e => exact ⟨hmono.seen, hmono.missing, hmono.began⟩

omit [DecidableEq T] in
/-- A move that carries out no command, and begins no job of the process. -/
theorem congr (h : Witnessed w t σ) {w' : World (redis F) T L} (hlog : w'.log = w.log)
    (hshared : w'.shared = w.shared) (hbegan : w'.began t = w.began t) : Witnessed w' t σ where
  seen key v hv := by
    obtain ⟨i, hi⟩ := h.seen key v hv
    exact ⟨i, hi.congr hlog hshared⟩
  missing key hkey := by
    obtain ⟨i, r, hi, hget, hs⟩ := h.missing key hkey
    refine ⟨i, r, ?_, ?_, hs.congr hlog hshared⟩
    · rw [hbegan]
      exact hi
    · rw [hlog]
      exact hget
  began := by
    rw [hbegan, hlog]
    exact h.began

omit [DecidableEq T] in
/-- A failed command teaches nothing. -/
theorem failed (h : Witnessed w t σ) (c : Cmd F) : Witnessed w t (σ.next c none) := by
  have hnone : (σ.next c none).seen = σ.seen ∧ (σ.next c none).missing = σ.missing := by
    cases c <;> exact ⟨rfl, rfl⟩
  refine ⟨?_, ?_, h.began⟩
  · rw [hnone.1]
    exact h.seen
  · rw [hnone.2]
    exact h.missing

/-- At the beginning of a job nothing is missing. -/
theorem renew (h : Witnessed w t σ) (p : Prog (redis F) L) :
    Witnessed (w.begin t p) t ⟨none, ∅, σ.seen⟩ where
  seen key v hv := by
    obtain ⟨i, hi⟩ := h.seen key v hv
    exact ⟨i, hi.congr rfl rfl⟩
  missing key hkey := absurd hkey (Set.notMem_empty key)
  began := by
    change Function.update w.began t w.log.length t ≤ w.log.length
    rw [Function.update_self]

end Witnessed

/-! ### Any interleaving -/

/-- A process keeps the etiquette on notes that are true of the past. -/
def Tracked (t : T) (p : Prog (redis F) Picker) (w : World (redis F) T Picker) : Prop :=
  ∃ σ, p.Obeys (etiquette F) (fun p' σ' => p'.bandit.Seen σ') σ ∧ Witnessed w t σ

omit [DecidableEq T] in
theorem tracked_start (r : Redis F) (tunableKnobs : T → List String) (frozen : T → Bool) (t : T) :
    Tracked t ((startWorld r tunableKnobs frozen).threads t) (startWorld r tunableKnobs frozen) := by
  refine ⟨⟨none, ∅, ∅⟩, ?_, ?_⟩
  · intro key c hc
    cases hc
  · refine ⟨fun key v hv => ?_, fun key hkey => ?_, le_rfl⟩
    · exact absurd hv (Set.notMem_empty _)
    · exact absurd hkey (Set.notMem_empty _)

variable [Field F] [LinearOrder F] (sqrt : F → F) (cfg : Tunables)

/-- Every move, of whichever process, keeps every process tracked. -/
theorem tracked_keeps :
    World.Keeps (T := T) (Job.prog (F := F) sqrt cfg) (fun _ _ => True) Tracked where
  start w t j l hw _ ht := by
    -- a thread keeps the notes of what it has seen, each with a witness in the history
    obtain ⟨σ, hσ, hwit⟩ := hw t
    rw [ht] at hσ
    have hj := Job.prog_obeys sqrt cfg (Bandit.Seen.renew hσ) j
    exact ⟨_, hj.mono fun _ _ h => h.1, hwit.renew _⟩
  answer w t c k hw _ ht := by
    obtain ⟨σ, hσ, hwit⟩ := hw t
    rw [ht] at hσ
    exact ⟨_, hσ.2 _, hwit.next c _⟩
  lose w t c k hw _ ht := by
    obtain ⟨σ, hσ, hwit⟩ := hw t
    rw [ht] at hσ
    -- the command took effect though its answer is lost
    exact ⟨_, hσ.2 _, (hwit.answer t c _).failed c⟩
  drop w t c k hw _ ht := by
    obtain ⟨σ, hσ, hwit⟩ := hw t
    rw [ht] at hσ
    -- the command did not reach the server, so the history is as it was
    have hsame : Witnessed (w.drop t (k none)) t σ := hwit.congr rfl rfl rfl
    exact ⟨_, hσ.2 _, hsame.failed c⟩
  begin_ne w t t' p hne h := by
    obtain ⟨σ, hσ, hwit⟩ := h
    exact ⟨σ, hσ, hwit.congr rfl rfl (Function.update_of_ne hne _ _)⟩
  answer_ne w t t' c k p hw _ _ _ := by
    obtain ⟨σ, hσ, hwit⟩ := hw t'
    exact ⟨σ, hσ, hwit.answer t c p⟩
  drop_ne w t t' p hne h := by
    obtain ⟨σ, hσ, hwit⟩ := h
    exact ⟨σ, hσ, hwit.congr rfl rfl rfl⟩

/-- **Promotions on a shared server.** In every interleaving of any number of processes on one server
with any content, with any commands failing:

* a promotion that is about to be written is one knob step from a profile that was stored under its
  key, and that is stored there still unless the key has been `SET` in between;
* a live profile that is about to be seeded goes under a key that the same job has read and found
  missing, and that is missing still unless it has been `SET` in between;
* a job leaves every candidate under test, whatever is stored, except those whose own samples close
  the test at this reward and those of an intent that it resets. -/
theorem promotions_shared (r : Redis F) (tunableKnobs : T → List String) (frozen : T → Bool)
    {ms : List (Move T (Job F))} {w : World (redis F) T Picker}
    (hrun : (World.machine (redis F) T (Job.prog sqrt cfg)).exec (startWorld r tunableKnobs frozen) ms
      = some w) :
    (∀ t key v, pendingSet (w.threads t) = some (.promote, key, v) →
      ∃ base p intent u i, v = .json p ∧ Profile.OneKnobStep base p ∧ Stored.read intent u = base ∧
        Stood w key (some u) i) ∧
    (∀ t caller key v, caller = .currentProfile ∨ caller = .currentProfileFor →
      pendingSet (w.threads t) = some (caller, key, v) → ReadMissing w t key) ∧
    (∀ t p j ms' w' p', w.threads t = .ret p → (∀ j', .start t j' ∉ ms') →
      (World.machine (redis F) T (Job.prog sqrt cfg)).exec w (.start t j :: ms') = some w' →
      w'.threads t = .ret p' → p.bandit.Spares p'.bandit j.Closes) := by
  have htracked : ∀ t, Tracked t (w.threads t) w :=
    World.thread_invariant (tracked_keeps sqrt cfg) (tracked_start r tunableKnobs frozen)
      (Machine.Along.of_forall_mem (fun _ _ _ => trivial) _) hrun
  refine ⟨?_, ?_, ?_⟩
  · intro t key v hp
    obtain ⟨σ, hσ, hwit⟩ := htracked t
    obtain ⟨k, hk⟩ := pendingSet_eq_some hp
    rw [hk] at hσ
    -- the etiquette of a promotion: its base was seen under the key
    obtain ⟨-, base, p, intent, hv, hstep, u, hu, hread⟩ := hσ.1
    obtain ⟨i, hi⟩ := hwit.seen key u hu
    exact ⟨base, p, intent, u, i, hv, hstep, hread, hi⟩
  · intro t caller key v hcaller hp
    obtain ⟨σ, hσ, hwit⟩ := htracked t
    obtain ⟨k, hk⟩ := pendingSet_eq_some hp
    rw [hk] at hσ
    have hallow : σ.Allows (F := F) (.set caller key v) := hσ.1
    rcases hcaller with rfl | rfl
    · exact hwit.missing key hallow.2
    · exact hwit.missing key hallow.2
  · intro t p j ms' w' p' ht hno hrun' ht'
    obtain ⟨σ, hσ, -⟩ := htracked t
    rw [ht] at hσ
    obtain ⟨w₁, hw₁, hrest⟩ := Machine.exec_cons_eq_some.mp hrun'
    obtain rfl : w.begin t (j.prog sqrt cfg p) = w₁ := by
      have hstep : w.step (Job.prog sqrt cfg) (.start t j) = some w₁ := hw₁
      simpa only [World.step, ht, Option.some.injEq] using hstep
    -- the job is followed from its first command to its end
    have hbegin : ((w.begin t (j.prog sqrt cfg p)).threads t).Obeys (etiquette F)
        (p.Leaves j.Closes) ⟨none, ∅, σ.seen⟩ := by
      rw [World.begin_threads_self]
      exact Job.prog_obeys sqrt cfg (Bandit.Seen.renew hσ) j
    obtain ⟨σ', hend⟩ := World.obeys_of_no_start ⟨_, hbegin⟩ hno hrest
    rw [ht'] at hend
    exact hend.2

/-! ### Runs -/

/-- Processes that tune one knob each. -/
def tuners (knobs : T → String) : World (redis ℚ) T Picker :=
  startWorld (Redis.empty ℚ) (fun t => [knobs t]) (fun _ => false)

/-- A query of the intent-global surface that explores, upwards. -/
def explore (t : T) : Move T (Job ℚ) := .start t (.op (.pick .debug ⟨0, 0, 1⟩))

/-- Rewards 0 for the base `d` and 1 for the candidate `p`, until the test is over. -/
def contest (t : T) (d p : Profile) : List (Move T (Job ℚ)) :=
  List.replicate 5 (.start t (.op (.update .debug d.id 0 1 0))) ++
    List.replicate 20 (.start t (.op (.update .debug p.id 1 1 0)))

/-- One process is about to promote, one to seed, and one asks for a default that exists. -/
theorem promotions_shared_three :
    let d := Profile.default "debug"
    let p := d.bump .maxTrace 1
    let ms : List (Move (Fin 3) (Job ℚ)) :=
      explore 0 :: List.replicate 4 (.ok 0) ++ contest 0 d p ++
        [.start 1 (.warmDefaults ["trace"]), .ok 1]
    ∃ w w', (World.machine (redis ℚ) (Fin 3) (Job.prog id .default)).exec
        (tuners fun _ => "max_trace") ms = some w ∧
      (World.machine (redis ℚ) (Fin 3) (Job.prog id .default)).exec w
        [.start 2 (.ensureDefault "debug" d), .ok 2] = some w' ∧
      (∃ base intent u i, Profile.OneKnobStep base p ∧ Stored.read intent u = base ∧
        Stood w (currentKey "debug") (some u) i) ∧
      ReadMissing w 1 (currentKey "trace") ∧
      ∃ q q', w.threads 2 = .ret q ∧ w'.threads 2 = .ret q' ∧
        q.bandit.Spares q'.bandit fun _ _ => False := by
  intro d p ms
  have hended : ((World.machine (redis ℚ) (Fin 3) (Job.prog id .default)).exec
      (tuners fun _ => "max_trace") (ms ++ [.start 2 (.ensureDefault "debug" d), .ok 2])).map
      (fun w => (w.threads 2).value?.isSome) = some true := by
    decide +kernel
  obtain ⟨w', hw', hended⟩ := Option.map_eq_some_iff.mp hended
  obtain ⟨w, hw, hlast⟩ := Machine.exec_append_eq_some.mp hw'
  -- where the three processes are
  have hpending : ((World.machine (redis ℚ) (Fin 3) (Job.prog id .default)).exec
      (tuners fun _ => "max_trace") ms).map (fun w => (pendingSet (w.threads 0),
        pendingSet (w.threads 1), (w.threads 2).value?.isSome))
      = some (some (.promote, currentKey "debug", .json p),
        some (.currentProfile, currentKey "trace", .json (Profile.default "trace")), true) := by
    decide +kernel
  rw [hw, Option.map_some, Option.some.injEq, Prod.mk.injEq, Prod.mk.injEq] at hpending
  obtain ⟨hpromote, hseed, hidle⟩ := hpending
  obtain ⟨q, hq⟩ := Option.isSome_iff_exists.mp hidle
  obtain ⟨q', hq'⟩ := Option.isSome_iff_exists.mp hended
  rw [Prog.value?_eq_some] at hq hq'
  obtain ⟨hpromoted, hseeded, hspared⟩ := promotions_shared id .default (Redis.empty ℚ)
    (fun _ => ["max_trace"]) (fun _ => false) hw
  obtain ⟨base, p', intent, u, i, hp', hstep, hread, hstood⟩ := hpromoted 0 _ _ hpromote
  obtain rfl : p = p' := Stored.json.inj hp'
  refine ⟨w, w', hw, hlast, ⟨base, intent, u, i, hstep, hread, hstood⟩,
    hseeded 1 _ _ _ (.inl rfl) hseed, q, q', hq, hq', ?_⟩
  refine hspared 2 q (.ensureDefault "debug" d) [.ok 2] w' q' hq (fun j hj => ?_) hlast hq'
  simp at hj

/-- **A promotion and a seeding overwrite a promotion, and a candidate outlives its base.** Two
processes tune a knob each, `p` is the candidate of one and `q` that of the other, both perturbed from
`d`. A promotion of `q` is about to be written where `p` was promoted; a seeding of `d` is about to be
written where `q` was promoted; and the candidate `p` is still under test after a query and a reward of
the profile `q` that is now stored. -/
theorem promotions_clash :
    let d := Profile.default "debug"
    let p := d.bump .maxTrace 1
    let q := d.bump .maxSnippets 1
    let key := currentKey "debug"
    let exec := (World.machine (redis ℚ) Bool (Job.prog id .default)).exec
      (tuners fun t => if t then "max_snippets" else "max_trace")
    let seedAndExplore (t : Bool) := explore t :: List.replicate 4 (.ok t)
    let promoteBoth := seedAndExplore false ++ [explore true, .ok true] ++ contest false d p ++
      List.replicate 3 (.ok false) ++ contest true d q
    let seedLate := [explore false, .ok false] ++ seedAndExplore true ++ contest true d q ++
      List.replicate 3 (.ok true)
    let outlive := seedAndExplore false ++ [explore true, .ok true] ++ contest true d q ++
      List.replicate 3 (.ok true) ++ [.start false (.op (.pick .debug ⟨1, 0, 0⟩)), .ok false,
        .start false (.op (.update .debug q.id 0 1 0))]
    ((exec promoteBoth).map fun w => (pendingSet (w.threads true), w.shared.str key))
        = some (some (.promote, key, .json q), some (.json p)) ∧
      ¬ Profile.OneKnobStep p q ∧
    ((exec seedLate).map fun w => (pendingSet (w.threads false), w.shared.str key))
        = some (some (.currentProfile, key, .json d), some (.json q)) ∧
    ((exec outlive).map fun w =>
        ((w.threads false).value?.bind fun picker =>
          (picker.bandit.active (banditKey "debug" "" intentGlobalTopic)).map fun c =>
            (c.profile, c.base, c.baseSamples), w.shared.str key))
        = some (some (p, d, []), some (.json q)) ∧
      d ≠ q := by
  intro d p q key exec seedAndExplore promoteBoth seedLate outlive
  refine ⟨?_, ?_, ?_, ?_, ?_⟩
  · decide +kernel
  · decide +kernel
  · decide +kernel
  · decide +kernel
  · decide +kernel

end Devrouter
