import Devrouter.Router.Credit

/-!
# Whose feedback it is

A feedback that names a query joins it when its trace is stored and can be read. When the trace has
expired or its read fails, the feedback joins the most recent call on the connection instead, whichever
query that was; `SubmitFeedback` says of a missing trace that it is dropped.

`Joined` is the inversion of the join. `credited_iff` says from which states a feedback that names a query
is credited to it or to nobody: those where the trace is known, or the last-call LRU offers no other call.
-/

open Prog

namespace Devrouter

variable {F : Type} (env : FeedbackEnv F) (s : Session) (call : FeedbackCall) (now : Int)

/-- What a feedback leaves: its answer, the router's memory and the stores. -/
abbrev Submitted (F : Type) : Type :=
  ((FeedbackResult × Option FlowOverlayResult) × Session) × (stores F).State

namespace LastCallLRU

/-- The most recent call, when a feedback can be joined with it. -/
def Offers (l : LastCallLRU) (now : Int) (e : LastCallEntry) : Prop :=
  l.mostRecent now = some e ∧ e.queryID ≠ "" ∧ e.intent ≠ ""

end LastCallLRU

/-! ### The join -/

/-- The joins of a feedback: the query it names, by the trace it names, or else the most recent call. -/
inductive Joined (r : Redis F) (fields : TraceFields) : Join → TraceFields → Prop
  | named (hfields : fields ≠ []) : Joined r fields (joinNamed env.formatG call.queryID fields) fields
  | recent {e : LastCallEntry} {fields' : TraceFields} (hfields : fields = [])
      (he : s.lastCalls.Offers now e) (htrace : fields' = [] ∨ fields' = r.traceOf e.queryID) :
      Joined r fields (joinRecent env.formatG e fields') fields'

theorem droppedResult_joinedVia : droppedResult.joinedVia ≠ "lru_fallback" := by decide

theorem joinNamed_joinedVia (formatG : ℚ → String) (queryID : String) (fields : TraceFields) :
    (joinNamed formatG queryID fields).joinedVia ≠ "lru_fallback" := by
  change "explicit" ≠ "lru_fallback"
  decide

theorem completeJoin_eq_some {j j' : Join} {fields fields' : TraceFields}
    (h : completeJoin j fields = some (j', fields')) : j' = j ∧ fields' = fields ∧ j.complete = true := by
  unfold completeJoin at h
  split_ifs at h with hcomplete
  obtain ⟨rfl, rfl⟩ := Prod.mk.inj (Option.some.inj h)
  exact ⟨rfl, rfl, hcomplete⟩

theorem Join.complete_iff {j : Join} : j.complete = true ↔ j.queryID ≠ "" ∧ j.intent ≠ "" := by
  simp [complete]

/-- A trace is read as it is, or not at all. -/
theorem getTrace_wp (r : Redis F) (queryID : String) :
    (getTrace queryID).wp (fun fields r' => r' = r ∧ (fields = [] ∨ fields = r.traceOf queryID)) r := by
  unfold getTrace Redis.traceOf
  split_ifs
  · exact ⟨rfl, .inl rfl⟩
  · exact ⟨⟨rfl, .inl rfl⟩, ⟨rfl, .inr rfl⟩⟩

theorem joinFrom_wp (r : Redis F) (fields : TraceFields) :
    (joinFrom env.formatG call.queryID (s.lastCalls.mostRecent now) fields).wp (fun o r' => r' = r ∧
      ∀ j fields', o = some (j, fields') → Joined env s call now r fields j fields') r := by
  unfold joinFrom
  by_cases hfields : fields = []
  · subst hfields
    rw [if_pos List.isEmpty_nil]
    cases hrecent : s.lastCalls.mostRecent now with
    | none => exact ⟨rfl, nofun⟩
    | some e =>
      dsimp only
      rw [wp_bind]
      -- whether the entry's own trace is read or not, the join is the entry's
      refine wp_mono (getTrace_wp r e.queryID) ?_
      rintro fields' _ ⟨rfl, htrace⟩
      refine ⟨rfl, fun j fields'' hj => ?_⟩
      obtain ⟨rfl, rfl, hcomplete⟩ := completeJoin_eq_some hj
      obtain ⟨hquery, hintent⟩ := Join.complete_iff.mp hcomplete
      exact .recent rfl ⟨hrecent, hquery, hintent⟩ htrace
  · rw [if_neg (by simpa using hfields)]
    refine ⟨rfl, fun j fields'' hj => ?_⟩
    obtain ⟨rfl, rfl, -⟩ := completeJoin_eq_some hj
    exact .named hfields

/-- **A feedback** changes nothing, or changes what is keyed by the query it joined. -/
theorem submitFrom_wp (w : (stores F).State) (fields : TraceFields) :
    (submitFrom env s call now fields).wp (fun out w' =>
      (out = ((droppedResult, none), s) ∧ w' = w) ∨
        ∃ j fields', Joined env s call now w.1 fields j fields' ∧
          Credited env call now j fields' s out.2 w w' ∧ out.1.1.joinedVia = j.joinedVia) w := by
  unfold submitFrom
  rw [wp_bind, wp_left]
  refine wp_mono (joinFrom_wp env s call now w.1 fields) ?_
  rintro o _ ⟨rfl, hjoin⟩
  cases o with
  | none => exact .inl ⟨rfl, rfl⟩
  | some p =>
    obtain ⟨j, fields'⟩ := p
    refine wp_mono (creditJoin_wp env s call now j fields' w) fun out w' h => .inr ?_
    exact ⟨j, fields', hjoin j fields' rfl, h⟩

/-- A reward that nothing kept from being written. -/
theorem creditBucket_run_rewards (p : Picker) (j : Join) (input : FeedbackInput) (now : Int) (r : Redis F) :
    ∃ row : RewardRow, row.queryID = j.queryID ∧
      (((creditBucket p j input now).run r).2.rewards
          (rewardKeyFor j.intent j.repo j.topicID (dayOf now))
        = r.rewards (rewardKeyFor j.intent j.repo j.topicID (dayOf now)) ++ [row]) := by
  have hpatch : ∀ fields r', ((patchTrace (F := F) j.queryID fields).run r').2.rewards = r'.rewards :=
    fun fields r' => (run_of_wp (patchTrace_wp j.queryID fields r')).1
  have hupdate : ∀ adjusted r', ((p.updateWithTopic (F := F) j.intent j.repo j.topicID j.profileID adjusted
      explicitWeight now).run r').2.rewards = r'.rewards :=
    fun adjusted r' => (run_of_wp (updateWithTopic_wp p _ _ _ _ adjusted _ now r')).1.1
  unfold creditBucket
  simp only [run_bind, rollingMeanFor_run, appendRewardFor_run, run_pure, hupdate, hpatch]
  exact ⟨feedbackRow j input _ _ now, rfl, Function.update_self _ _ _⟩

theorem creditJoin_run_rewards (w : (stores F).State) (j : Join) (fields : TraceFields) :
    ∃ key, ∃ row : RewardRow, row.queryID = j.queryID ∧
      ((creditJoin env s call now j fields).run w).2.1.rewards key = w.1.rewards key ++ [row] := by
  obtain ⟨row, hquery, hrow⟩ :=
    creditBucket_run_rewards s.picker j call.toFeedbackInput now w.1
  refine ⟨rewardKeyFor j.intent j.repo j.topicID (dayOf now), row, hquery, ?_⟩
  unfold creditJoin
  simp only [run_bind, run_left, run_right, run_pure]
  exact hrow

/-! ### Credit where it is due -/

/-- The join is of the query the feedback names: by its trace, or by its own call. -/
def Own (w : (stores F).State) (j : Join) (fields : TraceFields) : Prop :=
  (fields = w.1.traceOf call.queryID ∧ j = joinNamed env.formatG call.queryID fields) ∨
    ∃ e, s.lastCalls.mostRecent now = some e ∧ e.queryID = call.queryID ∧
      (fields = [] ∨ fields = w.1.traceOf call.queryID) ∧ j = joinRecent env.formatG e fields

variable {env s call now}

theorem Own.queryID {w : (stores F).State} {j : Join} {fields : TraceFields}
    (h : Own env s call now w j fields) : j.queryID = call.queryID := by
  rcases h with ⟨-, rfl⟩ | ⟨e, -, he, -, rfl⟩
  · rfl
  · exact he

variable (env s call now)

/-- The feedback is credited to the query it names, or to nobody. -/
def CreditedRightly (w : (stores F).State) (out : Submitted F) : Prop :=
  (out.1.2 = s ∧ out.2 = w) ∨
    ∃ j fields, Own env s call now w j fields ∧ Credited env call now j fields s out.1.2 w out.2

/-- The feedback was joined with the most recent call. -/
def Submitted.FellBack (out : Submitted F) : Prop := out.1.1.1.joinedVia = "lru_fallback"

/-- The trace of the query is stored, and the read of it goes through. -/
def TraceKnown (w : (stores F).State) (unread : Bool) : Prop :=
  unread = false ∧ w.1.traceOf call.queryID ≠ []

/-- The fields of the trace a feedback names, as far as they can be read. -/
def namedFields (w : (stores F).State) (unread : Bool) : TraceFields :=
  if unread then [] else w.1.traceOf call.queryID

variable {env s call now}

theorem namedFields_ne_nil {w : (stores F).State} {unread : Bool} :
    namedFields call w unread ≠ [] ↔ TraceKnown call w unread := by
  unfold namedFields TraceKnown
  cases unread <;> simp

/-- The first command of a feedback that names a query reads its trace. -/
theorem submit_runFaults (hq : call.queryID ≠ "") (w : (stores F).State) (fails : ℕ → Bool) :
    (submit env s call now).runFaults fails w
      = (submitFrom env s call now (namedFields call w (fails 0))).runFaults (fun n => fails (n + 1)) w := by
  unfold submit getTrace namedFields Redis.traceOf
  rw [if_neg hq, if_neg hq]
  cases hfails : fails 0 with
  | true => exact if_pos hfails
  | false => exact if_neg (by rw [hfails]; decide)

/-- A join with the trace the feedback names, or with the query's own call, is its own. -/
theorem Joined.own {w : (stores F).State} {unread : Bool} {j : Join} {fields : TraceFields}
    (h : Joined env s call now w.1 (namedFields call w unread) j fields)
    (hown : ∀ e, s.lastCalls.Offers now e → ¬ TraceKnown call w unread → e.queryID = call.queryID) :
    Own env s call now w j fields := by
  cases h with
  | named hfields =>
    obtain ⟨rfl, -⟩ := namedFields_ne_nil.mp hfields
    exact .inl ⟨rfl, rfl⟩
  -- a call was offered although the trace is not known
  | recent hfields he htrace =>
    have hquery := hown _ he fun hknown => namedFields_ne_nil.mpr hknown hfields
    refine .inr ⟨_, he.1, hquery, ?_, rfl⟩
    rwa [← hquery]

/-- When the trace is known or no other call is offered, whatever else fails. -/
theorem creditedRightly_of (hq : call.queryID ≠ "") {w : (stores F).State} {fails : ℕ → Bool}
    (h : TraceKnown call w (fails 0) ∨ ∀ e, s.lastCalls.Offers now e → e.queryID = call.queryID) :
    CreditedRightly env s call now w ((submit env s call now).runFaults fails w) := by
  rw [submit_runFaults hq]
  rcases runFaults_of_wp (submitFrom_wp env s call now w _) (fun n => fails (n + 1)) with
    ⟨hout, hw⟩ | ⟨j, fields, hjoined, hcredited, -⟩
  · exact .inl ⟨congrArg Prod.snd hout, hw⟩
  · refine .inr ⟨j, fields, hjoined.own fun e he hunknown => ?_, hcredited⟩
    exact h.resolve_left hunknown e he

theorem not_fellBack_of (hq : call.queryID ≠ "") {w : (stores F).State} {fails : ℕ → Bool}
    (h : TraceKnown call w (fails 0) ∨ ∀ e, ¬ s.lastCalls.Offers now e) :
    ¬ Submitted.FellBack ((submit env s call now).runFaults fails w) := by
  unfold Submitted.FellBack
  rw [submit_runFaults hq]
  rcases runFaults_of_wp (submitFrom_wp env s call now w _) (fun n => fails (n + 1)) with
    ⟨hout, -⟩ | ⟨j, fields, hjoined, -, hvia⟩
  · rw [hout]
    exact droppedResult_joinedVia
  · rw [hvia]
    cases hjoined with
    | named hfields => exact joinNamed_joinedVia env.formatG call.queryID _
    | recent hfields he htrace =>
      rcases h with hknown | hnone
      · exact absurd hfields (namedFields_ne_nil.mpr hknown)
      · exact absurd he (hnone _)

/-! ### Credit where it is not -/

/-- With no trace to go by, the most recent call is credited. -/
theorem submitFrom_run_recent {e : LastCallEntry} (he : s.lastCalls.Offers now e) (w : (stores F).State) :
    (submitFrom env s call now []).run w
      = (creditJoin env s call now (joinRecent env.formatG e (w.1.traceOf e.queryID))
          (w.1.traceOf e.queryID)).run w := by
  obtain ⟨hrecent, hquery, hintent⟩ := he
  have hcomplete : completeJoin (joinRecent env.formatG e (w.1.traceOf e.queryID)) (w.1.traceOf e.queryID)
      = some (joinRecent env.formatG e (w.1.traceOf e.queryID), w.1.traceOf e.queryID) :=
    if_pos (Join.complete_iff.mpr ⟨hquery, hintent⟩)
  have hjoin : (joinFrom env.formatG call.queryID (s.lastCalls.mostRecent now) []).run w.1
      = (some (joinRecent env.formatG e (w.1.traceOf e.queryID), w.1.traceOf e.queryID), w.1) := by
    unfold joinFrom
    rw [if_pos List.isEmpty_nil, hrecent]
    dsimp only
    rw [run_bind, getTrace_run, run_pure, hcomplete]
  unfold submitFrom
  rw [run_bind, run_left, hjoin]

/-- A run in which the trace is not known and nothing else fails. -/
theorem submit_run_recent (hq : call.queryID ≠ "") {w : (stores F).State} {unread : Bool}
    (hunknown : ¬ TraceKnown call w unread) {e : LastCallEntry} (he : s.lastCalls.Offers now e) :
    (submit env s call now).runFaults (consFault unread fun _ => false) w
      = (creditJoin env s call now (joinRecent env.formatG e (w.1.traceOf e.queryID))
          (w.1.traceOf e.queryID)).run w := by
  have hnil : namedFields call w unread = [] := by
    by_contra hne
    exact hunknown (namedFields_ne_nil.mp hne)
  rw [submit_runFaults hq]
  change (submitFrom env s call now (namedFields call w unread)).runFaults (fun _ => false) w = _
  rw [hnil, runFaults_false, submitFrom_run_recent he]

theorem submit_run_recent_fellBack (hq : call.queryID ≠ "") {w : (stores F).State} {unread : Bool}
    (hunknown : ¬ TraceKnown call w unread) {e : LastCallEntry} (he : s.lastCalls.Offers now e) :
    Submitted.FellBack ((submit env s call now).runFaults (consFault unread fun _ => false) w) := by
  rw [submit_run_recent hq hunknown he]
  exact (run_of_wp (creditJoin_wp env s call now _ _ w)).2

/-- A row of another query is no credit to the query of the feedback. -/
theorem not_creditedRightly {w : (stores F).State} {out : Submitted F} {key : String} {row : RewardRow}
    (hrow : out.2.1.rewards key = w.1.rewards key ++ [row]) (hother : row.queryID ≠ call.queryID) :
    ¬ CreditedRightly env s call now w out := by
  have hchanged : out.2.1.rewards key ≠ w.1.rewards key := by
    rw [hrow]
    simp
  -- the row excludes both: the list has grown, and not by a row of the query
  rintro (⟨-, hw⟩ | ⟨j, fields, hown, hcredited⟩)
  · exact hchanged (by rw [hw])
  · rcases hcredited.bucket.rewards key with hsame | ⟨-, row', hquery, -, hrow'⟩
    · exact hchanged hsame
    · have hrows : row = row' := by simpa using hrow.symm.trans hrow'
      exact hother (hrows ▸ hquery.trans hown.queryID)

/-- The most recent call is another query's, and its reward is not the feedback's to give. -/
theorem submit_run_recent_wrong (hq : call.queryID ≠ "") {w : (stores F).State} {unread : Bool}
    (hunknown : ¬ TraceKnown call w unread) {e : LastCallEntry} (he : s.lastCalls.Offers now e)
    (hother : e.queryID ≠ call.queryID) :
    ¬ CreditedRightly env s call now w
      ((submit env s call now).runFaults (consFault unread fun _ => false) w) := by
  obtain ⟨key, row, hquery, hrow⟩ := creditJoin_run_rewards env s call now w
    (joinRecent env.formatG e (w.1.traceOf e.queryID)) (w.1.traceOf e.queryID)
  rw [submit_run_recent hq hunknown he]
  refine not_creditedRightly hrow ?_
  rw [hquery]
  exact hother

/-! ### Exactly when -/

variable (env s call now)

/-- **A feedback that names a query**, from any state. `unread` says whether the read of its trace fails;
the other commands fail or not, as they may. It is credited to its query or to nobody, and is joined with
no recent call, exactly when its trace is known or no call is offered; the credit alone is right also when
the call that is offered is the query's own. -/
theorem credited_iff (w : (stores F).State) (unread : Bool) (hq : call.queryID ≠ "") :
    ((∀ fails : ℕ → Bool, fails 0 = unread →
        CreditedRightly env s call now w ((submit env s call now).runFaults fails w) ∧
          ¬ Submitted.FellBack ((submit env s call now).runFaults fails w)) ↔
      TraceKnown call w unread ∨ ∀ e, ¬ s.lastCalls.Offers now e) ∧
    ((∀ fails : ℕ → Bool, fails 0 = unread →
        CreditedRightly env s call now w ((submit env s call now).runFaults fails w)) ↔
      TraceKnown call w unread ∨ ∀ e, s.lastCalls.Offers now e → e.queryID = call.queryID) := by
  refine ⟨⟨fun h => ?_, ?_⟩, ⟨fun h => ?_, ?_⟩⟩
  -- the run in which nothing but the first read fails
  · by_contra hcond
    rw [not_or, not_forall_not] at hcond
    obtain ⟨hunknown, e, he⟩ := hcond
    exact (h (consFault unread fun _ => false) rfl).2 (submit_run_recent_fellBack hq hunknown he)
  · rintro hcond fails rfl
    refine ⟨creditedRightly_of hq ?_, not_fellBack_of hq hcond⟩
    exact hcond.imp_right fun hnone e he => absurd he (hnone e)
  · by_contra hcond
    rw [not_or, not_forall] at hcond
    obtain ⟨hunknown, e, hother⟩ := hcond
    obtain ⟨he, hne⟩ := Classical.not_imp.mp hother
    exact submit_run_recent_wrong hq hunknown he hne (h (consFault unread fun _ => false) rfl)
  · rintro hcond fails rfl
    exact creditedRightly_of hq hcond

/-! ### A late feedback -/

/-- A program with no embeddings. -/
def plainEnv : FeedbackEnv ℚ where
  formatG := toString
  embed _ := none
  mean _ x _ := x
  lower := id
  keyspace := .mem

/-- The most recent call on the connection. -/
def recentCall : LastCallEntry := ⟨"b", "debug", "p", "r", "t-0"⟩

def recentSession : Session where
  picker := ⟨.new [], false⟩
  sources := .new false
  lastCalls := (LastCallLRU.new 16 600000).push recentCall 0

/-- The trace of the most recent call is the only one left. -/
def recentStores : (stores ℚ).State :=
  ({ Redis.empty ℚ with
      trace := Function.update (fun _ => []) (traceKey "b") [("intent", .text "debug")] },
    .empty, .empty, .empty ℚ)

def feedbackFor (queryID : String) : FeedbackCall where
  queryID := queryID
  additionalFiles := 3
  revisitedFiles := 0
  filePaths := ""
  success := true
  flowID := ""
  missingFiles := ""

theorem recentCall_offered : recentSession.lastCalls.Offers 1000 recentCall := by
  unfold LastCallLRU.Offers
  decide

/-- The feedback for a query whose trace is stored, whatever fails once it is read. -/
theorem credited_iff_once :
    TraceKnown (feedbackFor "b") recentStores false ∧
      ∀ fails : ℕ → Bool, fails 0 = false →
        CreditedRightly plainEnv recentSession (feedbackFor "b") 1000 recentStores
            ((submit plainEnv recentSession (feedbackFor "b") 1000).runFaults fails recentStores) ∧
          ¬ Submitted.FellBack
            ((submit plainEnv recentSession (feedbackFor "b") 1000).runFaults fails recentStores) := by
  have hquery : (feedbackFor "b").queryID ≠ "" := by decide
  have hknown : TraceKnown (feedbackFor "b") recentStores false := by
    refine ⟨rfl, ?_⟩
    decide
  exact ⟨hknown, (credited_iff plainEnv recentSession (feedbackFor "b") 1000 recentStores false
    hquery).1.mpr (.inl hknown)⟩

/-- A feedback for a query whose trace has expired is credited to the most recent call. -/
theorem late_feedback_credits_other :
    let out := (submit plainEnv recentSession (feedbackFor "a") 1000).run recentStores
    ¬ CreditedRightly plainEnv recentSession (feedbackFor "a") 1000 recentStores out ∧
      Submitted.FellBack out := by
  have hquery : (feedbackFor "a").queryID ≠ "" := by decide
  have hgone : Redis.traceOf recentStores.1 "a" = [] := by decide
  have hunknown : ¬ TraceKnown (feedbackFor "a") recentStores false := fun h => h.2 hgone
  have hrun : (submit plainEnv recentSession (feedbackFor "a") 1000).run recentStores
      = (submit plainEnv recentSession (feedbackFor "a") 1000).runFaults (consFault false fun _ => false)
          recentStores := by
    rw [consFault_false, runFaults_false]
  dsimp only
  rw [hrun]
  exact ⟨submit_run_recent_wrong hquery hunknown recentCall_offered (by decide),
    submit_run_recent_fellBack hquery hunknown recentCall_offered⟩

end Devrouter
