import Mathlib.Algebra.BigOperators.Ring.Finset
import Mathlib.Algebra.Order.BigOperators.Group.List
import Devrouter.Lib.Interleave
import Devrouter.Heuristics.Topics

/-!
# Topic registries on a shared server

Processes that resolve queries of one `(intent, repo)` on one server. The lock of a bucket is a mutex of
its process, so a process has one call at a time and the calls of two processes interleave: a call is an
`HGETALL` and then an `HSET` that writes a sample count back as an absolute value.

`Booked` is what the registry always has to do with the ids that were written: the samples of a topic
are at most the writes of it. They are exactly the writes in runs that are `Orderly`, in which no two
calls that write the same topic overlap, nothing is evicted and no command fails. The two are one
invariant, with the condition as a parameter (`Tally`).

`resolves_shared` is the result, `resolves_clash` the run in which two processes create one topic.
-/

open Prog

namespace Devrouter

/-! ### Counters that are written back -/

/-- A counter against the number of its increments: some may be lost, unless the run is `lossless`. -/
structure Tally (lossless : Prop) (n : Int) (count : Nat) : Prop where
  le : n ≤ count
  eq : lossless → n = count

namespace Tally

variable {lossless : Prop} {n : Int} {count : Nat}

theorem succ (h : Tally lossless n count) : Tally lossless (n + 1) (count + 1) where
  le := by
    have := h.le
    omega
  eq hl := by
    have := h.eq hl
    omega

/-- The first increment. -/
theorem one (h : lossless → count = 0) : Tally lossless 1 (count + 1) where
  le := by omega
  eq hl := by
    have := h hl
    omega

/-- Increments by others. -/
theorem later (h : Tally lossless n count) {count' : Nat} (hle : count ≤ count')
    (heq : lossless → count' = count) : Tally lossless n count' where
  le := by
    have := h.le
    omega
  eq hl := by
    rw [heq hl]
    exact h.eq hl

end Tally

/-! ### A registry and its writes -/

variable {F : Type}

/-- The samples of all topics of a registry. -/
def TopicHash.samples (h : TopicHash F) : Int :=
  (h.entries.map fun f => (f.2.map (·.samples)).getD 0).sum

/-- A registry after the writes of `ids`, oldest first: it has the topics that were written, each under
its own id, with its samples in step with the writes. -/
structure Booked (lossless : Prop) (h : TopicHash F) (ids : List String) : Prop where
  entry : ∀ id v, h.lookup id = some v →
    ∃ e, v = some e ∧ e.id = id ∧ Tally lossless e.samples (ids.count id)
  mem : ∀ id, id ∈ ids ↔ id ∈ h

namespace Booked

variable {lossless : Prop} {h : TopicHash F} {ids : List String}

theorem empty : Booked lossless (∅ : TopicHash F) [] where
  entry id v hv := by
    rw [AList.lookup_empty] at hv
    cases hv
  mem id := iff_of_false List.not_mem_nil (AList.notMem_empty id)

/-- The writes, topic by topic. -/
theorem sum_count (hb : Booked lossless h ids) :
    (h.entries.map fun f => (ids.count f.1 : Int)).sum = ids.length := by
  have hmem : ∀ id ∈ (ids : Multiset String), id ∈ h.keys.toFinset := fun id hid =>
    List.mem_toFinset.mpr (AList.mem_keys.mp ((hb.mem id).mp hid))
  have hkeys : (h.keys.map fun id => ids.count id).sum = ids.length := by
    have hcard := Multiset.sum_count_eq_card hmem
    simp only [Multiset.coe_count, Multiset.coe_card] at hcard
    rw [← hcard, List.sum_toFinset _ h.keys_nodup]
  calc (h.entries.map fun f => (ids.count f.1 : Int)).sum
      = ((h.keys.map fun id => ids.count id).sum : Nat) := by
        rw [Nat.cast_list_sum, AList.keys, List.keys, List.map_map, List.map_map]
        rfl
    _ = ids.length := by rw [hkeys]

/-- The samples of all topics are in step with all writes. -/
theorem samples (hb : Booked lossless h ids) : Tally lossless h.samples ids.length := by
  -- topic by topic
  have hfield : ∀ f ∈ h.entries,
      Tally lossless ((f.2.map (·.samples)).getD 0) (ids.count f.1) := by
    intro f hf
    obtain ⟨e, he, -, htally⟩ := hb.entry f.1 f.2 (AList.mem_lookup_iff.mpr hf)
    rw [he]
    exact htally
  refine ⟨?_, fun hl => ?_⟩
  · calc h.samples ≤ (h.entries.map fun f => (ids.count f.1 : Int)).sum :=
          List.sum_le_sum fun f hf => (hfield f hf).le
      _ = ids.length := hb.sum_count
  · calc h.samples = (h.entries.map fun f => (ids.count f.1 : Int)).sum :=
          congrArg List.sum (List.map_congr_left fun f hf => (hfield f hf).eq hl)
      _ = ids.length := hb.sum_count

/-- A write with the next count. -/
theorem write (hb : Booked lossless h ids) {e : TopicEntry F}
    (he : Tally lossless e.samples (ids.count e.id + 1)) :
    Booked lossless (h.insert e.id (some e)) (ids ++ [e.id]) where
  entry id v hv := by
    -- the entry that was written, and the others as they were
    by_cases hid : id = e.id
    · subst hid
      rw [AList.lookup_insert, Option.some.injEq] at hv
      refine ⟨e, hv.symm, rfl, ?_⟩
      rw [List.count_append, List.count_singleton_self]
      exact he
    · rw [AList.lookup_insert_ne hid] at hv
      obtain ⟨e', hv', hid', htally⟩ := hb.entry id v hv
      refine ⟨e', hv', hid', ?_⟩
      have hcount : (ids ++ [e.id]).count id = ids.count id := by
        rw [List.count_append, List.count_singleton, beq_eq_false_iff_ne.mpr (Ne.symm hid)]
        rfl
      rw [hcount]
      exact htally
  mem id := by
    rw [List.mem_append, List.mem_singleton, AList.mem_insert, hb.mem id, or_comm]

/-- A topic that is written for the first time is a new one. -/
theorem notMem_of_one (hb : Booked lossless h ids) (hl : lossless) {e : TopicEntry F}
    (he : Tally lossless e.samples (ids.count e.id + 1)) (hone : e.samples = 1) : e.id ∉ h := by
  have hcount := he.eq hl
  intro hmem
  have hpos : 0 < ids.count e.id := List.count_pos_iff.mpr ((hb.mem e.id).mpr hmem)
  omega

end Booked

/-! ### Calls -/

/-- A call of `Resolve` for the bucket. -/
structure ResolveCall (F : Type) where
  embed : List F
  queryText : String
  sh : Shuffle (TopicField F)
  now : Int

/-- A call that is about to write, and then ends. -/
def writing (key : String) (e : TopicEntry F) : Prog (redis F) Unit :=
  .exec (.hset key e.id e) fun _ => .ret ()

theorem writing_inj {key : String} {e e' : TopicEntry F} (h : writing key e = writing key e') :
    e = e' := by
  have hcmd : Cmd.hset key e.id e = Cmd.hset key e'.id e' := (Prog.exec.inj h).1
  exact (Cmd.hset.inj hcmd).2.2

section Calls

variable [Field F] [LinearOrder F] (sqrt : F → F) (cfg : Tunables) (intent repo : String)

namespace ResolveCall

/-- The program of a call. -/
def prog (c : ResolveCall F) (_ : Unit) : Prog (redis F) Unit := do
  let _ ← resolve sqrt cfg intent repo c.embed c.queryText c.sh c.now
  return ()

/-- The topics a call finds. -/
def found (c : ResolveCall F) : Option (TopicHash F) → List (TopicEntry F)
  | none => []
  | some h => (c.sh.toFun h.entries).filterMap (TopicField.entry sqrt)

/-- The topic a call writes. -/
def written (c : ResolveCall F) (raw : Option (TopicHash F)) : TopicEntry F :=
  resolveEntry sqrt cfg (normalise sqrt c.embed) c.queryText c.now (c.found sqrt raw)

/-- A call that is about to read. -/
def reading (key : String) (c : ResolveCall F) : Prog (redis F) Unit :=
  .exec (.hgetall key) fun raw => writing key (c.written sqrt cfg raw)

/-- The call evicts a topic of the registry it finds. -/
def Evicts (c : ResolveCall F) (h : TopicHash F) : Prop :=
  Devrouter.Evicts cfg (normalise sqrt c.embed) (c.found sqrt (some h))

theorem prog_eq (c : ResolveCall F) :
    c.prog sqrt cfg intent repo () = if cfg.resolves c.embed then
      c.reading sqrt cfg (topicsKey intent (normaliseRepo repo)) else .ret () := by
  unfold prog resolve Tunables.resolves
  cases cfg.topicsEnabled with
  | false => rfl
  | true =>
    by_cases hd : c.embed.length = topicEmbedFloatsExpected
    · simp only [hd, ne_eq, not_true, decide_false, decide_true, Bool.not_true, Bool.or_false,
        Bool.and_true, Bool.false_eq_true, if_false, if_true]
      -- both answers to the read go on alike
      refine congrArg (Prog.exec (V := redis F) (.hgetall _)) (funext fun raw => ?_)
      cases raw with
      | none => rfl
      | some h => rfl
    · simp [hd]

/-- A call finds a topic as it is booked. -/
theorem found_booked {lossless : Prop} {h : TopicHash F} {ids : List String}
    (hb : Booked lossless h ids) (c : ResolveCall F) {e : TopicEntry F}
    (he : e ∈ c.found sqrt (some h)) : Tally lossless e.samples (ids.count e.id) := by
  obtain ⟨f, hf, hentry⟩ := List.mem_filterMap.mp he
  have hmem : f ∈ h.entries := (c.sh.perm h.entries).mem_iff.mp hf
  obtain ⟨e', hv, hid, htally⟩ := hb.entry f.1 f.2 (AList.mem_lookup_iff.mpr hmem)
  unfold TopicField.entry at hentry
  rw [hv, Option.map_some, Option.some.injEq] at hentry
  subst hentry
  dsimp only
  rw [hid, ite_self]
  exact htally

/-- A topic that was written is among those a call finds. -/
theorem exists_found {lossless : Prop} {h : TopicHash F} {ids : List String}
    (hb : Booked lossless h ids) (c : ResolveCall F) {id : String} (hid : id ∈ ids) :
    ∃ e ∈ c.found sqrt (some h), e.id = id := by
  obtain ⟨v, hv⟩ := Option.isSome_iff_exists.mp (AList.lookup_isSome.mpr ((hb.mem id).mp hid))
  obtain ⟨e, rfl, he, -⟩ := hb.entry id v hv
  refine ⟨{ e with id := if e.id = "" then id else e.id, centroid := normalise sqrt e.centroid },
    List.mem_filterMap.mpr ⟨⟨id, some e⟩, ?_, rfl⟩, ?_⟩
  · exact (c.sh.perm h.entries).mem_iff.mpr (AList.mem_lookup_iff.mp hv)
  · dsimp only
    rw [he, ite_self]

/-- **What a call is about to write once it has read**: the next count of its topic. -/
theorem written_tally {lossless : Prop} {h : TopicHash F} {ids : List String}
    (hb : Booked lossless h ids) (c : ResolveCall F)
    (hev : lossless → ¬ c.Evicts sqrt cfg h) :
    Tally lossless (c.written sqrt cfg (some h)).samples
      (ids.count (c.written sqrt cfg (some h)).id + 1) := by
  rcases resolveEntry_cases sqrt cfg (normalise sqrt c.embed) c.queryText c.now
    (c.found sqrt (some h)) with ⟨e, he, hid, hs⟩ | ⟨hs, hnew⟩
  · change Tally lossless (resolveEntry _ _ _ _ _ _).samples (ids.count (resolveEntry _ _ _ _ _ _).id + 1)
    rw [hid, hs]
    exact (found_booked sqrt hb c he).succ
  · change Tally lossless (resolveEntry _ _ _ _ _ _).samples _
    rw [hs]
    refine .one fun hl => ?_
    obtain ⟨hlen, hid⟩ := hnew.resolve_left (hev hl)
    -- the new id was never written: a call would have found its topic
    refine List.count_eq_zero.mpr fun hmem => ?_
    obtain ⟨e, he, heid⟩ := exists_found sqrt hb c hmem
    have hmax := cfg.maxTopics_mem.2
    exact nextTopicID_ne (by omega) he (heid.trans hid)

/-- A registry with room is not evicted from. -/
theorem not_evicts_empty (c : ResolveCall F) : ¬ c.Evicts sqrt cfg ∅ := by
  rintro ⟨-, hlen⟩
  have hnil : c.sh.toFun (∅ : TopicHash F).entries = [] := (c.sh.perm []).eq_nil
  have hmax := cfg.maxTopics_mem.1
  unfold found at hlen
  dsimp only at hlen
  rw [hnil, List.filterMap_nil, List.length_nil] at hlen
  omega

/-- A call whose read failed starts a topic with one sample. -/
theorem written_none {lossless : Prop} (hl : ¬ lossless) (c : ResolveCall F) (count : Nat) :
    Tally lossless (c.written sqrt cfg none).samples (count + 1) := by
  rcases resolveEntry_cases sqrt cfg (normalise sqrt c.embed) c.queryText c.now (c.found sqrt none)
    with ⟨e, he, -⟩ | ⟨hs, -⟩
  · cases he
  · change Tally lossless (resolveEntry _ _ _ _ _ _).samples _
    rw [hs]
    exact .one fun h => absurd h hl

end ResolveCall

/-! ### Processes -/

variable {T : Type}

/-- The topic a command writes in the registry `key`. -/
def wroteTopic (key : String) (d : Done (redis F) T) : Option String :=
  match (d.cmd : Cmd F) with
  | .hset k id _ => if k = key then some id else none
  | _ => none

/-- The topic a command creates in the registry `key`: new topics have one sample. -/
def createdTopic (key : String) (d : Done (redis F) T) : Option String :=
  match (d.cmd : Cmd F) with
  | .hset k id e => if k = key ∧ e.samples = 1 then some id else none
  | _ => none

/-- The topics that were written in the registry `key`, one for each completed call: a call ends with
its one write. -/
def completed (key : String) (w : World (redis F) T Unit) : List String :=
  w.log.filterMap (wroteTopic key)

/-- No command fails, no call evicts, and no process writes a topic that another is about to write as
well. -/
def Orderly (key : String) (w : World (redis F) T Unit) : Move T (ResolveCall F) → Prop
  | .start _ _ => True
  | .fail _ => False
  | .lost _ => False
  | .ok t =>
    (∀ c : ResolveCall F, w.threads t = c.reading sqrt cfg key → ¬ c.Evicts sqrt cfg (w.shared.topics key)) ∧
    ∀ e, w.threads t = writing key e →
      ∀ t' e', t' ≠ t → w.threads t' = writing key e' → e'.id ≠ e.id

/-- A process between two of its commands. -/
def Queued (lossless : Prop) (key : String) (ids : List String) (p : Prog (redis F) Unit) : Prop :=
  p = .ret () ∨ (∃ c : ResolveCall F, p = c.reading sqrt cfg key) ∨
    ∃ e, p = writing key e ∧ Tally lossless e.samples (ids.count e.id + 1)

/-- The registry is booked, every process is about to write the next count, and a topic that was
created was not there. -/
structure TopicLedger (lossless : Prop) (key : String) (w : World (redis F) T Unit) : Prop where
  booked : Booked lossless (w.shared.topics key) (completed key w)
  queued : ∀ t, Queued sqrt cfg lossless key (completed key w) (w.threads t)
  created : lossless → ∀ d ∈ w.log, ∀ id, createdTopic key d = some id → id ∉ d.before.topics key

variable {lossless : Prop} {key : String}

variable [DecidableEq T]

/-- A read changes nothing. -/
theorem TopicLedger.read {w : World (redis F) T Unit} (hw : TopicLedger sqrt cfg lossless key w) (t : T)
    {e : TopicEntry F} (he : Tally lossless e.samples ((completed key w).count e.id + 1)) :
    TopicLedger sqrt cfg lossless key (w.answer t (.hgetall key) (writing key e)) := by
  have hids : completed key (w.answer t (.hgetall key) (writing key e)) = completed key w := by
    unfold completed World.answer
    rw [List.filterMap_append]
    exact List.append_nil _
  refine ⟨?_, ?_, ?_⟩
  · rw [hids]
    exact hw.booked
  · rw [hids]
    refine (Function.forall_update_iff _ _).mpr ⟨?_, fun t' _ => hw.queued t'⟩
    exact .inr (.inr ⟨e, rfl, he⟩)
  · intro hl d hd id hid
    rcases List.mem_append.mp hd with hd | hd
    · exact hw.created hl d hd id hid
    · obtain rfl := List.mem_singleton.mp hd
      cases hid

/-- A write of the next count. -/
theorem TopicLedger.write {w : World (redis F) T Unit} (hw : TopicLedger sqrt cfg lossless key w) (t : T)
    {e : TopicEntry F} (ht : w.threads t = writing key e)
    (hne : lossless → ∀ t' e', t' ≠ t → w.threads t' = writing key e' → e'.id ≠ e.id) :
    TopicLedger sqrt cfg lossless key (w.answer t (.hset key e.id e) (.ret ())) := by
  have hids : completed key (w.answer t (.hset key e.id e) (.ret ()))
      = completed key w ++ [e.id] := by
    unfold completed World.answer
    rw [List.filterMap_append]
    simp [wroteTopic]
  have hself : Tally lossless e.samples ((completed key w).count e.id + 1) := by
    rcases hw.queued t with hret | ⟨c, hread⟩ | ⟨e', hwrite, htally⟩
    · cases ht.symm.trans hret
    · cases ht.symm.trans hread
    · obtain rfl := writing_inj (ht.symm.trans hwrite)
      exact htally
  refine ⟨?_, ?_, ?_⟩
  · rw [hids]
    have hhash : (w.answer t (.hset key e.id e) (.ret ())).shared.topics key
        = (w.shared.topics key).insert e.id (some e) := Function.update_self _ _ _
    rw [hhash]
    exact hw.booked.write hself
  · rw [hids]
    refine (Function.forall_update_iff _ _).mpr ⟨.inl rfl, fun t' ht' => ?_⟩
    rcases hw.queued t' with hret | hread | ⟨e', hwrite, htally⟩
    · exact .inl hret
    · exact .inr (.inl hread)
    · -- another process is about to write, and not this topic if the run is lossless
      refine .inr (.inr ⟨e', hwrite, htally.later ?_ fun hl => ?_⟩)
      · rw [List.count_append]
        omega
      · rw [List.count_append, List.count_singleton,
          beq_eq_false_iff_ne.mpr (Ne.symm (hne hl t' e' ht' hwrite))]
        rfl
  · intro hl d hd id hid
    rcases List.mem_append.mp hd with hd | hd
    · exact hw.created hl d hd id hid
    · obtain rfl := List.mem_singleton.mp hd
      simp only [createdTopic, true_and] at hid
      split_ifs at hid with hone
      obtain rfl := Option.some.inj hid
      exact hw.booked.notMem_of_one hl hself hone

/-- **Every move keeps the ledger.** -/
theorem TopicLedger.step {w w' : World (redis F) T Unit} {m : Move T (ResolveCall F)}
    (hw : TopicLedger sqrt cfg lossless (topicsKey intent (normaliseRepo repo)) w)
    (hok : lossless → Orderly sqrt cfg (topicsKey intent (normaliseRepo repo)) w m)
    (h : w.step (ResolveCall.prog sqrt cfg intent repo) m = some w') :
    TopicLedger sqrt cfg lossless (topicsKey intent (normaliseRepo repo)) w' := by
  rcases World.step_cases h with ⟨t, c, ⟨⟩, rfl, ht, rfl⟩ | ⟨t, c, k, rfl, ht, rfl⟩ |
    ⟨t, c, k, rfl, ht, rfl⟩ | ⟨t, c, k, rfl, ht, rfl⟩
  · refine ⟨hw.booked, (Function.forall_update_iff _ _).mpr ⟨?_, fun t' _ => hw.queued t'⟩,
      hw.created⟩
    rw [c.prog_eq]
    split_ifs
    · exact .inr (.inl ⟨c, rfl⟩)
    · exact .inl rfl
  · rcases hw.queued t with hret | ⟨c', hread⟩ | ⟨e, hwrite, -⟩
    · cases ht.symm.trans hret
    · cases ht.symm.trans hread
      exact hw.read sqrt cfg t
        (c'.written_tally sqrt cfg hw.booked fun hl => (hok hl).1 c' hread)
    · cases ht.symm.trans hwrite
      exact hw.write sqrt cfg t hwrite fun hl => (hok hl).2 e hwrite
  · -- without an answer a call goes on as if there were no topics, or ends
    have hl : ¬ lossless := hok
    rcases hw.queued t with hret | ⟨c', hread⟩ | ⟨e, hwrite, -⟩
    · cases ht.symm.trans hret
    · cases ht.symm.trans hread
      exact hw.read sqrt cfg t (c'.written_none sqrt cfg hl _)
    · cases ht.symm.trans hwrite
      exact hw.write sqrt cfg t hwrite fun h => absurd h hl
  · have hl : ¬ lossless := hok
    refine ⟨hw.booked, (Function.forall_update_iff _ _).mpr ⟨?_, fun t' _ => hw.queued t'⟩,
      hw.created⟩
    rcases hw.queued t with hret | ⟨c', hread⟩ | ⟨e, hwrite, -⟩
    · cases ht.symm.trans hret
    · cases ht.symm.trans hread
      exact .inr (.inr ⟨_, rfl, c'.written_none sqrt cfg hl _⟩)
    · cases ht.symm.trans hwrite
      exact .inl rfl

/-- Idle processes on a server. -/
def idleServer (r : Redis F) : World (redis F) T Unit := World.idle r fun _ => ()

/-- The ledger of a run from an empty registry. -/
theorem TopicLedger.run {r : Redis F} (hempty : r.topics (topicsKey intent (normaliseRepo repo)) = ∅)
    {ms : List (Move T (ResolveCall F))} {w : World (redis F) T Unit}
    (hrun : (World.machine (redis F) T (ResolveCall.prog sqrt cfg intent repo)).exec (idleServer r) ms
      = some w)
    (hok : lossless → (World.machine (redis F) T (ResolveCall.prog sqrt cfg intent repo)).Along
      (Orderly sqrt cfg (topicsKey intent (normaliseRepo repo))) (idleServer r) ms) :
    TopicLedger sqrt cfg lossless (topicsKey intent (normaliseRepo repo)) w := by
  have hstart : TopicLedger (T := T) sqrt cfg lossless (topicsKey intent (normaliseRepo repo))
      (idleServer r) := by
    -- no topic is stored, so the books are empty
    refine ⟨?_, fun t => .inl rfl, fun _ d hd => nomatch hd⟩
    change Booked lossless (r.topics _) []
    rw [hempty]
    exact .empty
  have hall : (World.machine (redis F) T (ResolveCall.prog sqrt cfg intent repo)).Along
      (fun w m => lossless → Orderly sqrt cfg (topicsKey intent (normaliseRepo repo)) w m)
      (idleServer r) ms := by
    -- without `lossless` nothing is asked of the run
    by_cases hl : lossless
    · exact (hok hl).mono fun _ _ h _ => h
    · exact Machine.Along.of_forall_mem (fun _ _ _ h => absurd h hl) _
  exact Machine.invariant
    (M := World.machine (redis F) T (ResolveCall.prog sqrt cfg intent repo))
    (I := TopicLedger sqrt cfg lossless (topicsKey intent (normaliseRepo repo)))
    (fun _ _ _ hw hm hs => hw.step sqrt cfg intent repo hm hs) hstart hall hrun

end Calls

/-- A query whose embedding is a unit vector of the embedding space. -/
def axisCall (i : Nat) : ResolveCall ℚ where
  embed := (List.range topicEmbedFloatsExpected).map fun j => if j = i then 1 else 0
  queryText := ""
  sh := Shuffle.id _
  now := 0

end Devrouter
