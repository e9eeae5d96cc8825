import Devrouter.Heuristics.Shared

/-!
# The frozen default is write-once

When the frozen default of an intent can change, over every interleaving of any number of processes
with any commands failing. `EnsureDefault` checks with `EXISTS` and writes with a plain `SET`, so two
things can go wrong between them: the check can fail, which is taken for a missing key, and another
process can write after it.

`Undisturbed` is the condition that neither happens with another profile. Under it a process that is
about to write the default finds the key empty or its own value there (`Primed`), and the default is
write-once (`frozenDefault_write_once`). Without it the default changes (`frozenDefault_overwritten`).
-/

open Prog

namespace Devrouter

variable {F T : Type}

/-- If the process is about to make the check of an `EnsureDefault`, the key is missing or holds the
profile that is written next should the check fail. -/
def UndisturbedCheck (w : World (redis F) T Picker) (t : T) : Prop :=
  ∀ key k v, w.threads t = .exec (.existsKey key) k →
    pendingSet (k none) = some (.ensureDefault, key, v) →
    w.shared.str key = none ∨ w.shared.str key = some v

/-- If the process is about to make the write of an `EnsureDefault`, every other one that is past its
check for the key is about to write the same. -/
def UndisturbedWrite (w : World (redis F) T Picker) (t : T) : Prop :=
  ∀ key v, pendingSet (w.threads t) = some (.ensureDefault, key, v) →
    ∀ t' v', t' ≠ t → pendingSet (w.threads t') = some (.ensureDefault, key, v') → v' = v

/-- No check of an `EnsureDefault` fails, or loses its answer, while the key holds another profile than
the one that is written next; and when an `EnsureDefault` writes, every other one that is past its check
for the key is about to write the same. -/
def Undisturbed (w : World (redis F) T Picker) : Move T (Job F) → Prop
  | .start _ _ => True
  | .fail t => UndisturbedCheck w t
  | .lost t => UndisturbedCheck w t ∧ UndisturbedWrite w t
  | .ok t => UndisturbedWrite w t

/-- A process keeps the etiquette, and one that is about to write a frozen default finds the key empty
or its own value there. -/
structure Primed (p : Prog (redis F) Picker) (r : Redis F) : Prop where
  obeys : ∃ σ, p.Obeys (etiquette F) (fun p' σ' => p'.bandit.Seen σ') σ
  pending : ∀ key v, pendingSet p = some (.ensureDefault, key, v) →
    r.str key = none ∨ r.str key = some v

/-- A process that is about to write a frozen default has just made its check. -/
theorem absent_of_pending {p : Prog (redis F) Picker} {Q : Picker → Notes → Prop} {σ : Notes}
    (h : p.Obeys (etiquette F) Q σ) {key : String} {v : Stored}
    (hp : pendingSet p = some (.ensureDefault, key, v)) :
    σ.absent = some key ∧ ∃ j, key = defaultKey j := by
  obtain ⟨k, rfl⟩ := pendingSet_eq_some hp
  exact h.1

/-- The check it has made. -/
theorem existsKey_of_absent {σ : Notes} {c : Cmd F} {r : Option c.Reply} {key : String}
    (h : (σ.next c r).absent = some key) :
    c = .existsKey key ∧ ∀ n : Nat, HEq r (some n) → n = 0 := by
  -- only the existence check leaves a key behind, and only when it found none
  cases c with
  | existsKey key' =>
    change (if Option.any (fun n : Nat => decide (0 < n)) r then none else some key') = some key at h
    split_ifs at h with hr
    obtain rfl : key' = key := Option.some.inj h
    refine ⟨rfl, fun n hn => ?_⟩
    obtain rfl : r = some n := eq_of_heq hn
    simpa using hr
  | get key' =>
    rcases r with _ | _ | v
    · cases h
    · cases h
    · cases h
  | set caller key' v =>
    rcases r with _ | ⟨⟩
    · cases h
    · cases h
  | lpush key' e => cases h
  | ltrim key' stop => cases h
  | rpush key' row => cases h
  | lrange key' => cases h
  | hgetallTrace key' => cases h
  | hsetTrace key' fields => cases h
  | hgetall key' => cases h
  | hset key' field e => cases h

/-- Only `EnsureDefault` writes a frozen default. -/
theorem caller_of_allows {σ : Notes} {caller : Caller} {intent : String} {v : Stored}
    (h : σ.Allows (F := F) (.set caller (defaultKey intent) v)) : caller = .ensureDefault := by
  cases caller with
  | ensureDefault => rfl
  | currentProfile => exact absurd rfl (h.1 intent)
  | currentProfileFor => exact absurd rfl (h.1 intent)
  | promote => exact absurd rfl (h.1 intent)
  | rollback => exact absurd rfl (h intent)
  | resetIntent => exact absurd rfl (h intent)

/-- **What a primed process does to a frozen default**: its next command leaves it. -/
theorem Primed.apply_default {c : Cmd F} {k : Option c.Reply → Prog (redis F) Picker} {r : Redis F}
    (h : Primed (.exec c k) r) {intent : String} {v : Stored}
    (hv : r.str (defaultKey intent) = some v) : (c.apply r).2.str (defaultKey intent) = some v := by
  by_cases hc : ∀ caller u, c ≠ .set caller (defaultKey intent) u
  · rw [c.apply_str r hc]
    exact hv
  · obtain ⟨caller, u, rfl⟩ : ∃ caller u, c = .set caller (defaultKey intent) u := by simpa using hc
    obtain ⟨⟨σ, hσ⟩, hpend⟩ := h
    obtain rfl := caller_of_allows hσ.1
    -- the key is not empty, so it holds what is written
    rcases hpend (defaultKey intent) u rfl with hn | hu
    · rw [hn] at hv
      cases hv
    · rw [hu, Option.some.injEq] at hv
      rw [← hv]
      exact Function.update_self _ _ _

variable [Field F] [LinearOrder F] [DecidableEq T] (sqrt : F → F) (cfg : Tunables)

/-- Undisturbed moves keep every process primed. -/
theorem primed_keeps : World.Keeps (T := T) (Job.prog sqrt cfg) Undisturbed
    (fun _ p w => Primed p w.shared) where
  start w t j l hw _ ht := by
    obtain ⟨⟨σ, hσ⟩, -⟩ := hw t
    rw [ht] at hσ
    -- a job does not begin with a write of the default
    have hj := Job.prog_obeys sqrt cfg (Bandit.Seen.renew hσ) j
    refine ⟨⟨_, hj.mono fun _ _ h => h.1⟩, fun key v hp => ?_⟩
    cases (absent_of_pending hj hp).1
  answer w t c k hw hok ht := by
    obtain ⟨⟨σ, hσ⟩, -⟩ := hw t
    rw [ht] at hσ
    refine ⟨⟨_, hσ.2 _⟩, fun key v hp => .inl ?_⟩
    obtain ⟨rfl, hzero⟩ := existsKey_of_absent (absent_of_pending (hσ.2 _) hp).1
    -- the check was answered: the key is missing
    have hn := hzero _ HEq.rfl
    change w.shared.str key = none
    cases hs : w.shared.str key with
    | none => rfl
    | some u => simp [Cmd.apply, hs] at hn
  lose w t c k hw hok ht := by
    obtain ⟨⟨σ, hσ⟩, -⟩ := hw t
    rw [ht] at hσ
    refine ⟨⟨_, hσ.2 _⟩, fun key v hp => ?_⟩
    -- a lost answer is taken for a missing key; the condition says what the key holds
    obtain ⟨rfl, -⟩ := existsKey_of_absent (absent_of_pending (hσ.2 _) hp).1
    exact hok.1 key k v ht hp
  drop w t c k hw hok ht := by
    obtain ⟨⟨σ, hσ⟩, -⟩ := hw t
    rw [ht] at hσ
    refine ⟨⟨_, hσ.2 _⟩, fun key v hp => ?_⟩
    obtain ⟨rfl, -⟩ := existsKey_of_absent (absent_of_pending (hσ.2 _) hp).1
    exact hok key k v ht hp
  begin_ne _ _ _ _ _ h := h
  answer_ne w t t' c k p hw hok ht hne := by
    have hwrite : UndisturbedWrite w t := hok.elim id fun h => h.2
    obtain ⟨hobeys, hpend⟩ := hw t'
    refine ⟨hobeys, fun key v hp => ?_⟩
    obtain ⟨σ', hσ'⟩ := hobeys
    obtain ⟨-, j, hj⟩ := absent_of_pending hσ' hp
    by_cases hc : ∀ caller u, c ≠ .set caller key u
    · change (c.apply w.shared).2.str key = none ∨ (c.apply w.shared).2.str key = some v
      rw [c.apply_str w.shared hc]
      exact hpend key v hp
    · -- only `EnsureDefault` writes the key, and it writes the same profile
      obtain ⟨caller, u, rfl⟩ : ∃ caller u, c = .set caller key u := by simpa using hc
      obtain ⟨⟨σ, hσ⟩, -⟩ := hw t
      rw [ht] at hσ
      obtain rfl : caller = .ensureDefault := by
        rw [hj] at hσ
        exact caller_of_allows hσ.1
      have hv : v = u := hwrite key u (by rw [ht]; rfl) t' v hne hp
      exact .inr (by rw [hv]; exact Function.update_self _ _ _)
  drop_ne _ _ _ _ _ h := h

/-- **The frozen default is write-once under `Undisturbed`.** In every interleaving of any number of
processes on one server with any content, with any commands failing, in which no failed check and no
other process's write comes between the check and the write of an `EnsureDefault` of another profile:
once the default of an intent holds a value, it holds that value. -/
theorem frozenDefault_write_once (r : Redis F) (tunableKnobs : T → List String) (frozen : T → Bool)
    {ms ms' : List (Move T (Job F))} {w w' : World (redis F) T Picker}
    (hrun : (World.machine (redis F) T (Job.prog sqrt cfg)).exec (startWorld r tunableKnobs frozen) ms
      = some w)
    (hrun' : (World.machine (redis F) T (Job.prog sqrt cfg)).exec w ms' = some w')
    (hok : (World.machine (redis F) T (Job.prog sqrt cfg)).Along Undisturbed
      (startWorld r tunableKnobs frozen) (ms ++ ms'))
    {intent : String} {v : Stored} (hv : w.shared.str (defaultKey intent) = some v) :
    w'.shared.str (defaultKey intent) = some v := by
  have hstart : ∀ t, Primed ((startWorld r tunableKnobs frozen).threads t) r := fun t =>
    ⟨⟨⟨none, ∅, ∅⟩, fun key c hc => nomatch hc⟩, fun key u hp => nomatch hp⟩
  -- a thread that is about to write the default has seen that there was none
  have hw : ∀ t, Primed (w.threads t) w.shared :=
    World.thread_invariant (primed_keeps sqrt cfg) hstart hok.append_left hrun
  have hkeep := primed_keeps (T := T) sqrt cfg
  refine Machine.stable (M := World.machine (redis F) T (Job.prog sqrt cfg))
    (I := fun w => ∀ t, Primed (w.threads t) w.shared)
    (R := fun w w' => ∀ v, w.shared.str (defaultKey intent) = some v →
      w'.shared.str (defaultKey intent) = some v)
    (fun w m w' hI hm hs => ⟨hkeep.step hI hm hs, fun v hv => ?_⟩) (fun _ _ h => h)
    (fun _ _ _ h h' v hv => h' v (h v hv)) hw (hok.append_right hrun) hrun' v hv
  rcases World.step_cases hs with ⟨t, j, l, -, -, rfl⟩ | ⟨t, c, k, -, ht, rfl⟩ |
    ⟨t, c, k, -, ht, rfl⟩ | ⟨t, c, k, -, -, rfl⟩
  · exact hv
  · -- a command that is carried out writes the default only where it is missing
    have hprimed := hI t
    rw [ht] at hprimed
    exact hprimed.apply_default hv
  · -- so does one whose answer is lost
    have hprimed := hI t
    rw [ht] at hprimed
    exact hprimed.apply_default hv
  · exact hv

/-- One process none of whose commands fails is undisturbed. -/
theorem undisturbed_alone [Subsingleton T] {ms : List (Move T (Job F))}
    (h : ∀ t, Move.fail t ∉ ms ∧ Move.lost t ∉ ms) (w : World (redis F) T Picker) :
    (World.machine (redis F) T (Job.prog sqrt cfg)).Along Undisturbed w ms := by
  refine Machine.Along.of_forall_mem (fun m hm w => ?_) w
  cases m with
  | start t j => trivial
  | ok t => exact fun _ _ _ t' _ hne => absurd (Subsingleton.elim t' t) hne
  | lost t => exact absurd hm (h t).2
  | fail t => exact absurd hm (h t).1

/-- A process without candidates and knobs. -/
def blank : World (redis ℚ) Unit Picker :=
  startWorld (Redis.empty ℚ) (fun _ => []) (fun _ => false)

/-- The default is written, and another `EnsureDefault` leaves it. -/
theorem frozenDefault_write_once_alone :
    let q := (Profile.default "debug").bump .maxTrace 1
    let first : List (Move Unit (Job ℚ)) :=
      [.start () (.ensureDefault "debug" (Profile.default "debug")), .ok (), .ok ()]
    let second : List (Move Unit (Job ℚ)) := [.start () (.ensureDefault "debug" q), .ok ()]
    ∃ w, (World.machine (redis ℚ) Unit (Job.prog id .default)).exec blank (first ++ second) = some w ∧
      w.shared.str (defaultKey "debug") = some (.json (Profile.default "debug")) := by
  intro q first second
  have hfirst : ∃ w, (World.machine (redis ℚ) Unit (Job.prog id .default)).exec blank first = some w ∧
      w.shared.str (defaultKey "debug") = some (.json (Profile.default "debug")) :=
    ⟨_, rfl, by decide +kernel⟩
  -- the first call writes the default and the second one finds it
  obtain ⟨w, hw, hv⟩ := hfirst
  obtain ⟨w', hw'⟩ : ∃ w',
      (World.machine (redis ℚ) Unit (Job.prog id .default)).exec w second = some w' := by
    obtain rfl := Option.some.inj hw
    exact ⟨_, rfl⟩
  refine ⟨w', Machine.exec_append_eq_some.mpr ⟨w, hw, hw'⟩, ?_⟩
  refine frozenDefault_write_once id .default (Redis.empty ℚ) (fun _ => []) (fun _ => false) hw hw'
    (undisturbed_alone id .default (fun t => ?_) _) hv
  simp [first, second]

/-- Two processes on one server. -/
def blankPair : World (redis ℚ) Bool Picker :=
  startWorld (Redis.empty ℚ) (fun _ => []) (fun _ => false)

/-- **The frozen default changes.** Two processes check before either writes; and, with one process, a
check that fails is followed by a write over the stored default. -/
theorem frozenDefault_overwritten :
    let d := Profile.default "debug"
    let q := d.bump .maxTrace 1
    let race : List (Move Bool (Job ℚ)) :=
      [.start false (.ensureDefault "debug" d), .start true (.ensureDefault "debug" q),
        .ok false, .ok true, .ok false]
    let failure : List (Move Bool (Job ℚ)) :=
      [.start false (.ensureDefault "debug" d), .ok false, .ok false,
        .start false (.ensureDefault "debug" q), .fail false]
    let stored (ms : List (Move Bool (Job ℚ))) : Option (Option Stored) :=
      ((World.machine (redis ℚ) Bool (Job.prog id .default)).exec blankPair ms).map
        fun w => w.shared.str (defaultKey "debug")
    (stored race = some (some (.json d)) ∧ stored (race ++ [.ok true]) = some (some (.json q))) ∧
      (stored failure = some (some (.json d)) ∧
        stored (failure ++ [.ok false]) = some (some (.json q))) ∧
      d ≠ q := by
  decide +kernel

end Devrouter
