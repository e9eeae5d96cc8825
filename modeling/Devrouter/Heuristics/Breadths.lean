import Devrouter.Lib.Fields
import Devrouter.Lib.Machine
import Devrouter.Heuristics.SourceBandit

/-!
# Served and stored breadths

Runs of selections and updates of the source bandit in one process, on a server that answers every
command. Whatever the server holds at the start, every breadth that is served is within the guardrails, at
most one source of a query is served something else than its stored breadth, and the record of the query
names it; an update for anything but the candidate under test or its base changes nothing.

The stored breadth of a cell moves only with a decision on a candidate of that cell, by one step or to the
frozen default (`Moves`). This takes more: the cells that a run addresses must have keys of their own
(`Unaliased`), and the keys are the parts of a cell joined by colons, which a repo or the name of a source
may contain. `breadths_lawful` is the result, `aliased_breadth_jumps` the run in which two cells share a key.
-/

open Prog

namespace Devrouter

/-! ### Reading -/

namespace SourceDb

/-- Nothing that is stored is overwritten. -/
def Grows (db db' : SourceDb) : Prop := ∀ key t, db.str key = some t → db'.str key = some t

/-- What is stored under the key is the breadth `v`, or no number. -/
def Shows (db : SourceDb) (key : String) (v : Int) : Prop :=
  ∃ t, db.str key = some t ∧ ∀ w, readBreadth t = some w → w = v

variable {db db' db'' : SourceDb} {key : String} {v : Int}

theorem Grows.refl (db : SourceDb) : db.Grows db := fun _ _ h => h

theorem Grows.trans (h : db.Grows db') (h' : db'.Grows db'') : db.Grows db'' := fun key t ht =>
  h' key t (h key t ht)

theorem Shows.grows (h : db.Shows key v) (hgrows : db.Grows db') : db'.Shows key v := by
  obtain ⟨t, ht, hread⟩ := h
  exact ⟨t, hgrows key t ht, hread⟩

/-- A stored breadth is kept. -/
theorem Grows.breadth (h : db.Grows db') (hv : db.breadth key = some v) :
    db'.breadth key = some v := by
  unfold SourceDb.breadth at hv ⊢
  obtain ⟨t, ht, hread⟩ := Option.bind_eq_some_iff.mp hv
  rw [h key t ht]
  exact hread

theorem Shows.breadth_eq (h : db.Shows key v) {w : Int} (hw : db.breadth key = some w) : w = v := by
  obtain ⟨t, ht, hread⟩ := h
  unfold SourceDb.breadth at hw
  rw [ht] at hw
  exact hread w hw

/-- What was just written is shown. -/
theorem shows_set (db : SourceDb) (key : String) (h : InSourceBounds v) : (db.set key v).Shows key v := by
  refine ⟨toString v, Function.update_self _ _ _, fun w hw => ?_⟩
  rw [readBreadth_toString h] at hw
  exact (Option.some.inj hw).symm

end SourceDb

/-- What is read from a text is within the guardrails. -/
theorem readBreadth_mem {t : String} {v : Int} (h : readBreadth t = some v) : InSourceBounds v := by
  obtain ⟨n, -, rfl⟩ := Option.map_eq_some_iff.mp h
  exact clipSourceDocs_mem n

theorem currentSourceBreadth_run_none (intent repo topic source : String) (seedDefault : Int)
    {db : SourceDb} (h : db.str (sourceCurrentKey intent repo topic source) = none) :
    (currentSourceBreadth intent repo topic source seedDefault).run db
      = (clipSourceDocs seedDefault,
          (db.set (sourceCurrentKey intent repo topic source) (clipSourceDocs seedDefault)).setNX
            (sourceDefaultKey intent repo topic source) (clipSourceDocs seedDefault)) := by
  unfold currentSourceBreadth
  rw [run_bind, run_call]
  simp only [SourceCmd.apply, h]
  rfl

theorem currentSourceBreadth_run_some (intent repo topic source : String) (seedDefault : Int)
    {db : SourceDb} {t : String} (h : db.str (sourceCurrentKey intent repo topic source) = some t) :
    (currentSourceBreadth intent repo topic source seedDefault).run db
      = ((readBreadth t).getD (clipSourceDocs seedDefault), db) := by
  unfold currentSourceBreadth
  rw [run_bind, run_call]
  simp only [SourceCmd.apply, h]
  rfl

/-- **One read** answers with the stored breadth, which it may just have stored. -/
theorem currentSourceBreadth_spec (intent repo topic source : String) (seedDefault : Int)
    (db : SourceDb) :
    let out := (currentSourceBreadth intent repo topic source seedDefault).run db
    InSourceBounds out.1 ∧ db.Grows out.2 ∧
      out.2.Shows (sourceCurrentKey intent repo topic source) out.1 := by
  intro out
  have hclip := clipSourceDocs_mem seedDefault
  unfold out
  -- a stored breadth is served as it stands, unless it cannot be read
  cases h : db.str (sourceCurrentKey intent repo topic source) with
  | some t =>
    rw [currentSourceBreadth_run_some intent repo topic source seedDefault h]
    cases hread : readBreadth t with
    | some v =>
      refine ⟨readBreadth_mem hread, .refl db, t, h, fun w hw => ?_⟩
      exact Option.some.inj (hw.symm.trans hread)
    | none =>
      refine ⟨hclip, .refl db, t, h, fun w hw => ?_⟩
      cases hread.symm.trans hw
  | none =>
    -- nothing is stored: the clipped default is written and served
    rw [currentSourceBreadth_run_none intent repo topic source seedDefault h]
    have hset : db.Grows (db.set (sourceCurrentKey intent repo topic source)
        (clipSourceDocs seedDefault)) := by
      intro key t ht
      rw [SourceDb.set_str, Function.update_of_ne, ht]
      rintro rfl
      cases h.symm.trans ht
    have hnx : ∀ db' : SourceDb, db'.Grows (db'.setNX (sourceDefaultKey intent repo topic source)
        (clipSourceDocs seedDefault)) := fun db' key t ht => SourceDb.setNX_str_of_some ht _
    exact ⟨hclip, hset.trans (hnx _), (SourceDb.shows_set db _ hclip).grows (hnx _)⟩

/-- The breadths of the sources of a bucket are the stored ones. -/
def Breadths.Stored (intent repo topic : String) (m : Breadths) (db : SourceDb) : Prop :=
  ∀ name v, m name = some v →
    InSourceBounds v ∧ db.Shows (sourceCurrentKey intent repo topic name) v

/-- **The reads of a selection.** Every source of the query is read. -/
theorem readBreadths_spec (intent repo topic : String) (seeds : List SourceSeed) (m : Breadths)
    (db : SourceDb) (hm : m.Stored intent repo topic db) :
    let out := (SourceBandit.readBreadths intent repo topic seeds m).run db
    db.Grows out.2 ∧ out.1.Stored intent repo topic out.2 ∧
      (∀ name, (m name).isSome → (out.1 name).isSome) ∧ ∀ sd ∈ seeds, (out.1 sd.name).isSome := by
  induction seeds generalizing m db with
  | nil => exact ⟨.refl db, hm, fun _ h => h, nofun⟩
  | cons sd seeds ih =>
    intro out
    set seedDefault := if sd.default ≤ 0 then 5 else sd.default
    obtain ⟨hmem, hgrows, hshows⟩ :=
      currentSourceBreadth_spec intent repo topic sd.name seedDefault db
    set first := (currentSourceBreadth intent repo topic sd.name seedDefault).run db
    have hfirst : Breadths.Stored intent repo topic (Function.update m sd.name (some first.1))
        first.2 := by
      intro name v hv
      by_cases hname : name = sd.name
      · subst hname
        rw [Function.update_self] at hv
        obtain rfl := Option.some.inj hv
        exact ⟨hmem, hshows⟩
      · rw [Function.update_of_ne hname] at hv
        obtain ⟨hv', hold⟩ := hm name v hv
        exact ⟨hv', hold.grows hgrows⟩
    -- a later source neither changes what an earlier one shows nor forgets it
    have hout : out = (SourceBandit.readBreadths intent repo topic seeds
        (Function.update m sd.name (some first.1))).run first.2 := run_bind _ _ _
    obtain ⟨hgrows', hstored, hkept, hread⟩ := ih _ _ hfirst
    rw [← hout] at hgrows' hstored hkept hread
    refine ⟨hgrows.trans hgrows', hstored, fun name hname => hkept name ?_, fun sd' hsd' => ?_⟩
    · by_cases heq : name = sd.name
      · subst heq
        rw [Function.update_self]
        rfl
      · rwa [Function.update_of_ne heq]
    · rcases List.mem_cons.mp hsd' with rfl | hsd'
      · refine hkept _ ?_
        rw [Function.update_self]
        rfl
      · exact hread sd' hsd'

/-! ### Keys -/

namespace SourceCell

/-- The key of a cell without a colon in its intent, topic and source determines the cell. -/
def Plain (p : SourceCell) : Prop :=
  ':' ∉ p.intent.toList ∧ ':' ∉ p.topic.toList ∧ ':' ∉ p.source.toList

theorem currentKey_inj {p q : SourceCell} (hp : p.Plain) (hq : q.Plain)
    (h : p.currentKey = q.currentKey) : p = q := by
  have hsep : (":" : String).toList = [':'] := rfl
  have h' : p.intent ++ ":" ++ p.repo ++ ":" ++ p.topic ++ ":" ++ p.source
      = q.intent ++ ":" ++ q.repo ++ ":" ++ q.topic ++ ":" ++ q.source := by
    have hl := congrArg String.toList h
    rw [← String.toList_inj]
    simpa [currentKey, sourceCurrentKey, keySource, ← List.append_assoc] using hl
  rw [String.append_sep_inj_right hsep hp.2.2 hq.2.2,
    String.append_sep_inj_right hsep hp.2.1 hq.2.1, String.append_sep_inj hsep hp.1 hq.1] at h'
  obtain ⟨⟨⟨hintent, hrepo⟩, htopic⟩, hsource⟩ := h'
  cases p
  cases q
  cases hintent
  cases hrepo
  cases htopic
  cases hsource
  rfl

/-- No breadth is kept where a frozen default is. -/
theorem currentKey_ne_defaultKey (p q : SourceCell) : p.currentKey ≠ q.defaultKey := by
  intro h
  have hsep : (":" : String).toList = [':'] := rfl
  have h' : p.intent ++ ":" ++ p.repo ++ ":" ++ p.topic ++ ":" ++ p.source ++ ":" ++ "current"
      = q.intent ++ ":" ++ q.repo ++ ":" ++ q.topic ++ ":" ++ q.source ++ ":" ++ "default" := by
    have hl := congrArg String.toList h
    rw [← String.toList_inj]
    simpa [currentKey, sourceCurrentKey, defaultKey, sourceDefaultKey, keySource] using hl
  have hlast := ((String.append_sep_inj_right hsep (by decide) (by decide)).mp h').2
  exact absurd hlast (by decide)

/-- Two cells that share their breadth share their frozen default. -/
theorem defaultKey_eq {p q : SourceCell} (h : p.currentKey = q.currentKey) :
    p.defaultKey = q.defaultKey := by
  have hl := congrArg String.toList h
  rw [← String.toList_inj]
  simp only [currentKey, sourceCurrentKey, defaultKey, sourceDefaultKey, String.toList_append] at hl ⊢
  rw [List.append_cancel_right hl]

end SourceCell

/-! ### Runs -/

/-- A query, as the selection sees it. -/
structure SourceQuery where
  intent : String
  repo : String
  topic : String
  seeds : List SourceSeed
  bucketSamples : Int
  draws : SourceDraws

/-- The cell of a source of the query. -/
def SourceQuery.cell (q : SourceQuery) (source : String) : SourceCell :=
  ⟨q.intent, q.repo, q.topic, source⟩

/-- A reward for the source that was explored. -/
structure SourceReward where
  intent : String
  repo : String
  topic : String
  source : String
  servedVal : Int
  adjustedReward : ℚ
  weight : ℚ
  now : Int

/-- The key of the candidate the reward may be for. -/
def SourceReward.bucketKey (u : SourceReward) : String := banditKey u.intent u.repo u.topic

inductive SourceOp where
  | select (q : SourceQuery)
  | update (u : SourceReward)

/-- The cells an operation addresses. An update acts on a cell that a selection has addressed. -/
def SourceOp.cells : SourceOp → List SourceCell
  | .select q => q.seeds.map fun sd => q.cell sd.name
  | .update _ => []

/-- The bandit and the server. -/
structure SourceState where
  bandit : SourceBandit
  db : SourceDb

namespace SourceState

variable (cfg : Tunables)

/-- What `SelectAll` returns and leaves. -/
def selectAll (s : SourceState) (q : SourceQuery) :
    ((Breadths × Option ExploreRec) × SourceBandit) × SourceDb :=
  (s.bandit.selectAll cfg q.intent q.repo q.topic q.seeds q.bucketSamples q.draws).run s.db

/-- The breadth each source of a query is served. -/
def served (s : SourceState) (q : SourceQuery) : Breadths := (s.selectAll cfg q).1.1.1

/-- The exploration record of a query. -/
def record (s : SourceState) (q : SourceQuery) : Option ExploreRec := (s.selectAll cfg q).1.1.2

def afterSelect (s : SourceState) (q : SourceQuery) : SourceState :=
  ⟨(s.selectAll cfg q).1.2, (s.selectAll cfg q).2⟩

def afterUpdate (s : SourceState) (u : SourceReward) : SourceState :=
  let out := (s.bandit.update u.intent u.repo u.topic u.source u.servedVal u.adjustedReward u.weight
    u.now).run s.db
  ⟨out.1, out.2⟩

def next (s : SourceState) : SourceOp → SourceState
  | .select q => s.afterSelect cfg q
  | .update u => s.afterUpdate u

def machine : Machine SourceState SourceOp where
  step s op := some (s.next cfg op)

/-- The candidates under test: at the key of their bucket, within the guardrails and one step from their
base. -/
def Sound (s : SourceState) : Prop :=
  ∀ key c, s.bandit.active key = some c → key = c.cell.bucketKey ∧ InSourceBounds c.val ∧
    InSourceBounds c.base ∧ (c.val = c.base + 1 ∨ c.val = c.base - 1)

/-- The candidates are of cells of `U`, and their bases are the stored breadths. -/
def Placed (U : Set SourceCell) (s : SourceState) : Prop :=
  ∀ key c, s.bandit.active key = some c → c.cell ∈ U ∧ s.db.Shows c.cell.currentKey c.base

theorem Sound.new (enabled : Bool) (db : SourceDb) : Sound ⟨SourceBandit.new enabled, db⟩ := by
  intro key c hc
  cases hc

theorem Placed.new (U : Set SourceCell) (enabled : Bool) (db : SourceDb) :
    Placed U ⟨SourceBandit.new enabled, db⟩ := by
  intro key c hc
  cases hc

/-- **Selection**, after the reads. -/
theorem selectAll_cases (s : SourceState) (q : SourceQuery) :
    ∃ (m : Breadths) (db : SourceDb),
      s.db.Grows db ∧ m.Stored q.intent q.repo q.topic db ∧ (∀ sd ∈ q.seeds, (m sd.name).isSome) ∧
      s.selectAll cfg q
        = (s.bandit.choose cfg q.intent q.repo q.topic q.seeds q.bucketSamples q.draws m, db) := by
  obtain ⟨hgrows, hstored, -, hread⟩ := readBreadths_spec q.intent q.repo q.topic q.seeds
    (fun _ => none) s.db nofun
  refine ⟨_, _, hgrows, hstored, hread, ?_⟩
  unfold selectAll SourceBandit.selectAll
  rw [run_bind, run_pure]

/-! ### What a step keeps -/

variable {cfg} {s : SourceState}

/-- A perturbation that moved was not clipped. -/
theorem perturb_step {base : Int} {d : SourceDraws} (hbase : InSourceBounds base)
    (hne : SourceBandit.perturb base d ≠ base) :
    SourceBandit.perturb base d = base + 1 ∨ SourceBandit.perturb base d = base - 1 := by
  unfold SourceBandit.perturb at hne ⊢
  split_ifs at hne ⊢
  · exact .inr (clipSourceDocs_step hbase (.inr rfl) hne)
  · exact .inl (clipSourceDocs_step hbase (.inl rfl) hne)

/-- A candidate that was not put under test by the selection was under test before. -/
theorem afterSelect_active {q : SourceQuery} {key : String} {c : SourceCandidate}
    (hc : (s.afterSelect cfg q).bandit.active key = some c) :
    s.bandit.active key = some c ∨
      key = c.cell.bucketKey ∧ (∃ sd ∈ q.seeds, c.cell = q.cell sd.name) ∧ InSourceBounds c.base ∧
        (c.val = c.base + 1 ∨ c.val = c.base - 1) ∧ InSourceBounds c.val ∧
        (s.afterSelect cfg q).db.Shows c.cell.currentKey c.base := by
  obtain ⟨m, db, -, hstored, hread, hrun⟩ := s.selectAll_cases cfg q
  unfold afterSelect at hc ⊢
  rw [hrun] at hc ⊢
  dsimp only at hc ⊢
  -- the choice drops a test, serves one that runs, or opens one at the base that was read
  rcases s.bandit.choose_cases cfg q.intent q.repo q.topic q.seeds q.bucketSamples q.draws m with
    ⟨b', hb', hout⟩ | ⟨c', v, -, -, hout⟩ | ⟨sd, hsd, v, base, hbase, hv, hne, hout⟩
  · rw [hout] at hc
    rcases hb' with rfl | rfl
    · exact .inl hc
    · exact .inl (SourceBandit.active_of_delete hc).2
  · rw [hout] at hc
    exact .inl hc
  · rw [hout] at hc
    rcases SourceBandit.active_of_put hc with ⟨rfl, rfl⟩ | hold
    · -- a new test begins at the breadth that the store shows for its source
      obtain ⟨w, hw⟩ := Option.isSome_iff_exists.mp (hread sd hsd)
      obtain ⟨hmem, hshows⟩ := hstored sd.name w hw
      obtain rfl : base = w := by rw [hbase, hw, Option.getD_some]
      subst hv
      exact .inr ⟨rfl, ⟨sd, hsd, rfl⟩, hmem, perturb_step hmem hne, clipSourceDocs_mem _, hshows⟩
    · exact .inl hold

/-- A candidate after an update is one from before, with other samples. -/
theorem afterUpdate_active {u : SourceReward} {key : String} {c : SourceCandidate}
    (hc : (s.afterUpdate u).bandit.active key = some c) :
    ∃ c₀, s.bandit.active key = some c₀ ∧ c₀.Resampled c := by
  unfold afterUpdate at hc
  dsimp only at hc
  rcases s.bandit.update_cases u.intent u.repo u.topic u.source u.servedVal u.adjustedReward u.weight
    u.now s.db with hout | ⟨c₀, hc₀, -, -, hdecided⟩
  · rw [hout] at hc
    exact ⟨c, hc, ⟨rfl, rfl, rfl⟩⟩
  · generalize (s.bandit.update u.intent u.repo u.topic u.source u.servedVal u.adjustedReward u.weight
      u.now).run s.db = out at hc hdecided
    cases hdecided with
    | sampled h =>
      rcases SourceBandit.active_of_put hc with ⟨rfl, rfl⟩ | hold
      · exact ⟨c₀, hc₀, h⟩
      · exact ⟨c, hold, ⟨rfl, rfl, rfl⟩⟩
    | discarded => exact ⟨c, (SourceBandit.active_of_delete hc).2, ⟨rfl, rfl, rfl⟩⟩
    | promoted _ => exact ⟨c, (SourceBandit.active_of_delete hc).2, ⟨rfl, rfl, rfl⟩⟩
    | rolledBack _ => exact ⟨c, (SourceBandit.active_of_delete hc).2, ⟨rfl, rfl, rfl⟩⟩

/-- The candidates stay sound. -/
theorem Sound.next (hs : s.Sound) (op : SourceOp) : (s.next cfg op).Sound := by
  intro key c hc
  cases op with
  | select q =>
    rcases afterSelect_active hc with hold | ⟨hkey, -, hbase, hstep, hval, -⟩
    · exact hs key c hold
    · exact ⟨hkey, hval, hbase, hstep⟩
  | update u =>
    obtain ⟨c₀, hc₀, hcell, hval, hbase⟩ := afterUpdate_active hc
    rw [hcell, hval, hbase]
    exact hs key c₀ hc₀

/-- The server after an update: a breadth is written only for the candidate of the bucket, and the
candidate is then gone. -/
theorem afterUpdate_db (s : SourceState) (u : SourceReward) :
    (s.afterUpdate u).db = s.db ∨
      ∃ c v, s.bandit.active u.bucketKey = some c ∧
        (s.afterUpdate u).bandit = s.bandit.delete u.bucketKey ∧
        (s.afterUpdate u).db.str = (s.db.set c.cell.currentKey (clipSourceDocs v)).str ∧
        (v = c.val ∨
          v = (s.db.breadth c.cell.defaultKey).getD (clipSourceDocs c.base)) := by
  unfold afterUpdate
  dsimp only
  rcases s.bandit.update_cases u.intent u.repo u.topic u.source u.servedVal u.adjustedReward u.weight
    u.now s.db with hout | ⟨c, hc, -, -, hdecided⟩
  · rw [hout]
    exact .inl rfl
  · -- a decided test is closed, and its cell is set to the tested value or back to the default
    generalize (s.bandit.update u.intent u.repo u.topic u.source u.servedVal u.adjustedReward u.weight
      u.now).run s.db = out at hdecided
    cases hdecided with
    | sampled _ => exact .inl rfl
    | discarded => exact .inl rfl
    | promoted hstr => exact .inr ⟨c, _, hc, rfl, hstr, .inl rfl⟩
    | rolledBack hstr => exact .inr ⟨c, _, hc, rfl, hstr, .inr rfl⟩

/-- **The candidates stay in place** while the cells of `U` have keys of their own. -/
theorem Placed.next {U : Set SourceCell} (hU : U.InjOn SourceCell.currentKey) (hsound : s.Sound)
    (hs : s.Placed U) (op : SourceOp) (hop : ∀ p ∈ op.cells, p ∈ U) : (s.next cfg op).Placed U := by
  intro key c hc
  cases op with
  | select q =>
    obtain ⟨m, db, hgrows, -, -, hrun⟩ := s.selectAll_cases cfg q
    have hdb : (s.next cfg (.select q)).db = db := congrArg Prod.snd hrun
    rcases afterSelect_active hc with hold | ⟨-, ⟨sd, hsd, hcell⟩, -, -, -, hshows⟩
    · obtain ⟨hcell, hshows⟩ := hs key c hold
      rw [hdb]
      exact ⟨hcell, hshows.grows hgrows⟩
    · refine ⟨?_, hshows⟩
      rw [hcell]
      exact hop _ (List.mem_map_of_mem hsd)
  | update u =>
    obtain ⟨c₀, hc₀, hcell, -, hbase⟩ := afterUpdate_active hc
    obtain ⟨hmem, hshows⟩ := hs key c₀ hc₀
    rw [hcell, hbase]
    refine ⟨hmem, ?_⟩
    rcases s.afterUpdate_db u with hdb | ⟨c', v, hc', hbandit, hstr, -⟩
    · change (s.afterUpdate u).db.Shows _ _
      rwa [hdb]
    · -- the candidate that was decided is of another bucket, so of another cell and of another key
      have hne : key ≠ u.bucketKey := by
        change (s.afterUpdate u).bandit.active key = some c at hc
        rw [hbandit] at hc
        exact (SourceBandit.active_of_delete hc).1
      have hkey : c₀.cell.currentKey ≠ c'.cell.currentKey := by
        intro heq
        have hcells := hU hmem (hs _ c' hc').1 heq
        rw [(hsound key c₀ hc₀).1, (hsound _ c' hc').1, hcells] at hne
        exact hne rfl
      obtain ⟨t, ht, hread⟩ := hshows
      refine ⟨t, ?_, hread⟩
      change (s.afterUpdate u).db.str _ = _
      rw [hstr, SourceDb.set_str, Function.update_of_ne hkey, ht]

/-- **What a query is served**: for each source a breadth within the guardrails, which is the stored one
unless the record names the source. -/
theorem served_spec (hs : s.Sound) (q : SourceQuery) {name : String} {v : Int}
    (hv : s.served cfg q name = some v) :
    InSourceBounds v ∧ ((s.afterSelect cfg q).db.Shows (q.cell name).currentKey v ∨
      ∃ base, s.record cfg q = some ⟨name, v, base⟩) := by
  obtain ⟨m, db, -, hstored, hread, hrun⟩ := s.selectAll_cases cfg q
  unfold served at hv
  unfold afterSelect record
  rw [hrun] at hv ⊢
  dsimp only at hv ⊢
  -- one source is served a breadth of its own
  have hexplored : ∀ (source : String) (w base : Int) (b : SourceBandit), InSourceBounds w →
      s.bandit.choose cfg q.intent q.repo q.topic q.seeds q.bucketSamples q.draws m
        = ((Function.update m source (some w), some ⟨source, w, base⟩), b) →
      InSourceBounds v ∧ (db.Shows (q.cell name).currentKey v ∨
        ∃ base, (s.bandit.choose cfg q.intent q.repo q.topic q.seeds q.bucketSamples q.draws m).1.2
          = some ⟨name, v, base⟩) := by
    intro source w base b hw hout
    rw [hout] at hv ⊢
    dsimp only at hv
    by_cases hname : name = source
    · subst hname
      rw [Function.update_self, Option.some.injEq] at hv
      subst hv
      exact ⟨hw, .inr ⟨base, rfl⟩⟩
    · rw [Function.update_of_ne hname] at hv
      exact (hstored name v hv).imp_right .inl
  rcases s.bandit.choose_cases cfg q.intent q.repo q.topic q.seeds q.bucketSamples q.draws m with
    ⟨b', -, hout⟩ | ⟨c, w, hc, hw, hout⟩ | ⟨sd, -, w, base, -, hw, -, hout⟩
  · rw [hout] at hv
    exact (hstored name v hv).imp_right .inl
  · refine hexplored _ _ _ _ ?_ hout
    obtain ⟨-, hval, hbase, -⟩ := hs _ c hc
    rcases hw with rfl | rfl
    · exact hval
    · exact hbase
  · refine hexplored _ _ _ _ ?_ hout
    rw [hw]
    exact clipSourceDocs_mem _

/-- **A stale reward** changes nothing. -/
theorem afterUpdate_stale {u : SourceReward} (h : ∀ c, s.bandit.active u.bucketKey = some c →
    c.source = u.source → u.servedVal ≠ c.val ∧ u.servedVal ≠ c.base) : s.afterUpdate u = s := by
  unfold afterUpdate
  rcases s.bandit.update_cases u.intent u.repo u.topic u.source u.servedVal u.adjustedReward u.weight
    u.now s.db with hout | ⟨c, hc, hsource, hserved, -⟩
  · rw [hout]
  · obtain ⟨hval, hbase⟩ := h c hc hsource
    exact absurd hserved (not_or.mpr ⟨hval, hbase⟩)

/-- The reward moves the breadth of the cell from `v` to `v'`: its candidate, one step away, is promoted, or
its frozen default comes back. -/
def Moves (s : SourceState) (u : SourceReward) (p : SourceCell) (v v' : Int) : Prop :=
  ∃ c, s.bandit.active u.bucketKey = some c ∧ c.cell.currentKey = p.currentKey ∧
    ((v = c.base ∧ v' = c.val ∧ (v' = v + 1 ∨ v' = v - 1)) ∨ s.db.breadth p.defaultKey = some v')

/-- A selection leaves a stored breadth. -/
theorem afterSelect_breadth (q : SourceQuery) {key : String} {v : Int}
    (hv : s.db.breadth key = some v) : (s.afterSelect cfg q).db.breadth key = some v := by
  obtain ⟨m, db, hgrows, -, -, hrun⟩ := s.selectAll_cases cfg q
  have hdb : (s.afterSelect cfg q).db = db := congrArg Prod.snd hrun
  rw [hdb]
  exact hgrows.breadth hv

/-- An update leaves the frozen defaults. -/
theorem afterUpdate_default (u : SourceReward) (p : SourceCell) :
    (s.afterUpdate u).db.breadth p.defaultKey = s.db.breadth p.defaultKey := by
  unfold SourceDb.breadth
  rcases s.afterUpdate_db u with hdb | ⟨c, v, -, -, hstr, -⟩
  · rw [hdb]
  · rw [hstr, SourceDb.set_str, Function.update_of_ne (SourceCell.currentKey_ne_defaultKey _ _).symm]

/-- **The stored breadths** move by a promotion or a rollback only. -/
theorem afterUpdate_breadth {U : Set SourceCell} (hsound : s.Sound) (hs : s.Placed U)
    (u : SourceReward) {p : SourceCell} {v : Int} (hv : s.db.breadth p.currentKey = some v) :
    ∃ v', (s.afterUpdate u).db.breadth p.currentKey = some v' ∧ (v' = v ∨ s.Moves u p v v') := by
  rcases s.afterUpdate_db u with hdb | ⟨c, w, hc, -, hstr, hw⟩
  · rw [hdb]
    exact ⟨v, hv, .inl rfl⟩
  unfold SourceDb.breadth at hv ⊢
  rw [hstr, SourceDb.set_str]
  by_cases hkey : c.cell.currentKey = p.currentKey
  · -- the breadth of the candidate's cell, which is its base
    obtain ⟨-, hval, hbase, hstep⟩ := hsound _ c hc
    rw [← hkey] at hv ⊢
    obtain rfl : v = c.base := (hs _ c hc).2.breadth_eq hv
    rw [Function.update_self, Option.bind_some, readBreadth_toString (clipSourceDocs_mem w)]
    refine ⟨_, rfl, ?_⟩
    rcases hw with rfl | rfl
    · rw [clipSourceDocs_of_mem hval]
      exact .inr ⟨c, hc, hkey, .inl ⟨rfl, rfl, hstep⟩⟩
    · cases hfrozen : s.db.breadth c.cell.defaultKey with
      | none =>
        rw [Option.getD_none, clipSourceDocs_of_mem hbase, clipSourceDocs_of_mem hbase]
        exact .inl rfl
      | some d =>
        have hd : InSourceBounds d := by
          obtain ⟨t, -, hread⟩ := Option.bind_eq_some_iff.mp hfrozen
          exact readBreadth_mem hread
        rw [Option.getD_some, clipSourceDocs_of_mem hd]
        refine .inr ⟨c, hc, hkey, .inr ?_⟩
        rw [← SourceCell.defaultKey_eq hkey]
        exact hfrozen
  · rw [Function.update_of_ne (Ne.symm hkey)]
    exact ⟨v, hv, .inl rfl⟩

end SourceState

/-! ### The result -/

/-- The cells that the selections of a run address. -/
def Addressed (ops : List SourceOp) : Set SourceCell := {p | ∃ op ∈ ops, p ∈ op.cells}

/-- No two cells of the run share a key. -/
def Unaliased (ops : List SourceOp) : Prop := (Addressed ops).InjOn SourceCell.currentKey

/-- Cells without colons in their intents, topics and sources do not share keys. -/
theorem Unaliased.of_plain {ops : List SourceOp} (h : ∀ p ∈ Addressed ops, p.Plain) :
    Unaliased ops := fun p hp q hq heq => SourceCell.currentKey_inj (h p hp) (h q hq) heq

/-- **Served and stored breadths.** In every run of selections and updates, from a server with any
content: every breadth that is served is within the guardrails, and one that is not the stored one is
named by the record of the query; a reward that is not for the value or the base of the candidate under
test changes nothing; the frozen defaults stay. When no two cells of the run share a key, a stored breadth
stays through a selection, and moves with an update by one step to the candidate of its cell or to its
frozen default. -/
theorem breadths_lawful (cfg : Tunables) (enabled : Bool) (db : SourceDb) {ops : List SourceOp}
    {s : SourceState}
    (hrun : (SourceState.machine cfg).exec ⟨SourceBandit.new enabled, db⟩ ops = some s) :
    (∀ (q : SourceQuery) (name : String) (v : Int), s.served cfg q name = some v →
      InSourceBounds v ∧
        ∀ w, (s.afterSelect cfg q).db.breadth (q.cell name).currentKey = some w → v ≠ w →
          ∃ base, s.record cfg q = some ⟨name, v, base⟩) ∧
    (∀ u : SourceReward, (∀ c, s.bandit.active u.bucketKey = some c → c.source = u.source →
      u.servedVal ≠ c.val ∧ u.servedVal ≠ c.base) → s.afterUpdate u = s) ∧
    (∀ (p : SourceCell) (v : Int), s.db.breadth p.defaultKey = some v →
      ∀ op, (s.next cfg op).db.breadth p.defaultKey = some v) ∧
    (Unaliased ops → ∀ (p : SourceCell) (v : Int), s.db.breadth p.currentKey = some v →
      (∀ q, (s.afterSelect cfg q).db.breadth p.currentKey = some v) ∧
      ∀ u, ∃ v', (s.afterUpdate u).db.breadth p.currentKey = some v' ∧
        (v' = v ∨ s.Moves u p v v')) := by
  have hcells : (SourceState.machine cfg).Along (fun _ op => ∀ p ∈ op.cells, p ∈ Addressed ops)
      ⟨SourceBandit.new enabled, db⟩ ops :=
    Machine.Along.of_forall_mem (fun op hop _ p hp => ⟨op, hop, hp⟩) _
  have hsound : s.Sound :=
    -- the invariant holds along the run, since no step needs more than the cells it names
    Machine.invariant (M := SourceState.machine cfg) (I := SourceState.Sound)
      (fun s op s' hs _ h => Option.some.inj h ▸ hs.next op) (.new enabled db) hcells hrun
  refine ⟨fun q name v hv => ?_, fun u hu => SourceState.afterUpdate_stale hu, fun p v hv op => ?_,
    fun hU p v hv => ⟨fun q => SourceState.afterSelect_breadth q hv, fun u => ?_⟩⟩
  · obtain ⟨hmem, hserved⟩ := SourceState.served_spec hsound q hv
    refine ⟨hmem, fun w hw hne => hserved.resolve_left fun hshows => hne ?_⟩
    exact (hshows.breadth_eq hw).symm
  · -- the default is written once, when the bucket is first read
    cases op with
    | select q => exact SourceState.afterSelect_breadth q hv
    | update u => exact (SourceState.afterUpdate_default u p).trans hv
  · -- the live value needs the cells to have different keys, which is `Unaliased`
    have hinv : s.Sound ∧ s.Placed (Addressed ops) :=
      Machine.invariant (M := SourceState.machine cfg)
        (I := fun s => s.Sound ∧ s.Placed (Addressed ops))
        (fun s op s' hs hop h => Option.some.inj h ▸ ⟨hs.1.next op, hs.2.next hU hs.1 op hop⟩)
        ⟨.new enabled db, .new _ enabled db⟩ hcells hrun
    exact SourceState.afterUpdate_breadth hinv.1 hinv.2 u hv

/-- A query of a bucket that is warm, whose only source is explored. -/
def exploringQuery (repo source : String) (direction : ℚ) : SourceQuery where
  intent := "debug"
  repo := repo
  topic := "t-0"
  seeds := [⟨source, 5⟩]
  bucketSamples := 20
  draws := ⟨0, 0, direction⟩

/-- A reward for it. -/
def exploredReward (repo source : String) (servedVal : Int) (reward : ℚ) : SourceReward where
  intent := "debug"
  repo := repo
  topic := "t-0"
  source := source
  servedVal := servedVal
  adjustedReward := reward
  weight := 1
  now := 1

/-- One source is explored. -/
theorem breadths_lawful_once :
    let q := exploringQuery "r" "docs" 1
    ∃ s, (SourceState.machine .default).exec ⟨SourceBandit.new true, .empty⟩ [.select q] = some s ∧
      s.db.breadth (q.cell "docs").currentKey = some 5 ∧
      ∀ u, ∃ v', (s.afterUpdate u).db.breadth (q.cell "docs").currentKey = some v' ∧
        (v' = 5 ∨ s.Moves u (q.cell "docs") 5 v') := by
  intro q
  obtain ⟨s, hrun⟩ : ∃ s, (SourceState.machine .default).exec ⟨SourceBandit.new true, .empty⟩
      [.select q] = some s := ⟨_, rfl⟩
  have hfive : ((SourceState.machine .default).exec ⟨SourceBandit.new true, .empty⟩
      [.select q]).bind (fun s => s.db.breadth (q.cell "docs").currentKey) = some 5 := by
    decide +kernel
  rw [hrun, Option.bind_some] at hfive
  -- the cells of the run have plain names, so their keys differ
  have hplain : ∀ p ∈ Addressed [.select q], p.Plain := by
    rintro p ⟨op, hop, hp⟩
    obtain rfl := List.mem_singleton.mp hop
    obtain rfl := List.mem_singleton.mp hp
    unfold SourceCell.Plain
    decide
  exact ⟨s, hrun, hfive, ((breadths_lawful .default true .empty hrun).2.2.2
    (.of_plain hplain) (q.cell "docs") 5 hfive).2⟩

/-- **A breadth jumps.** The source `a:t-0:b` of the repo `r` and the source `b` of the repo `r:t-0:a`
share a key. Both have the breadth 5, and a candidate one step up and one step down; both candidates are
promoted, and the second promotion takes the breadth from 6 to 4. -/
theorem aliased_breadth_jumps :
    let q := exploringQuery "r" "a:t-0:b" 1
    let q' := exploringQuery "r:t-0:a" "b" 0
    let base := exploredReward "r" "a:t-0:b" 5 0
    let base' := exploredReward "r:t-0:a" "b" 5 0
    let reward := exploredReward "r" "a:t-0:b" 6 1
    let reward' := exploredReward "r:t-0:a" "b" 4 1
    let ops : List SourceOp := [.select q, .select q'] ++
      (List.replicate 5 base ++ List.replicate 5 base' ++ List.replicate 20 reward ++
        List.replicate 19 reward').map .update
    ((SourceState.machine .default).exec ⟨SourceBandit.new true, .empty⟩ ops).map (fun s =>
        (s.db.breadth (q.cell "a:t-0:b").currentKey, s.db.breadth (q.cell "a:t-0:b").defaultKey,
          (s.afterUpdate reward').db.breadth (q.cell "a:t-0:b").currentKey))
      = some (some 6, some 5, some 4) := by
  decide +kernel

end Devrouter
