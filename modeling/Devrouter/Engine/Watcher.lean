import Devrouter.Lib.LastWins
import Devrouter.Lib.Machine
import Mathlib.Data.List.Nodup
import Mathlib.Logic.Function.Basic
import Mathlib.Order.Nat
import Mathlib.Tactic.Common

/-!
# The file watcher

Model of `FileWatcher` in `codegraph/src/sync/watcher.ts`: what it is told of files, its debounce timer, the syncs that
it starts, and the list of pending files with which answers are marked as stale. Which directories the system watches
is left out: any path can be reported while some watcher is installed.

`Project` puts it between a disk and an index. Edits of a file are counted, and a sync looks at each file at some time
after it began, maybe more than once. A callback of the timer, or of a sync that ends, runs to its end before anything
else happens, but between them anything can happen.

`Sound` holds in every run: no sync starts while another one is in flight, and what is pending has a timer or a sync
before it. `Fresh` is what the list of pending files is for: a file that is not in it is as new in the index as the
watcher was told (`shown_fresh`). This needs the clock: an event in the very millisecond in which the sync in flight
began is taken for an event before it.
-/

namespace Devrouter.Engine

namespace Watch

/-- What a watcher is made with. -/
structure Scope where
  codeGraphDirName : String := ".codegraph"
  /-- The ignore matcher. -/
  ignores : String → Bool
  isSourceFile : String → Bool
  debounceMs : ℕ := 2000

namespace Scope

variable (sc : Scope)

def isCodeGraphDataDir (name : String) : Bool :=
  name = ".codegraph" || name = sc.codeGraphDirName || ".codegraph-".toList.isPrefixOf name.toList

def isAlwaysIgnored (rel : String) : Bool :=
  sc.isCodeGraphDataDir (String.ofList (rel.toList.takeWhile (· ≠ '/'))) ||
    rel = ".git" || ".git/".toList.isPrefixOf rel.toList

/-- The checks of `handleChange`. -/
def watched (rel : String) : Bool :=
  !(rel = "" || rel = "." || "..".toList.isPrefixOf rel.toList) && !sc.isAlwaysIgnored rel && !sc.ignores rel &&
    sc.isSourceFile rel

end Scope

/-- An entry of the map of pending files. -/
structure PendingInfo where
  path : String
  firstSeenMs : ℕ
  lastSeenMs : ℕ
  deriving DecidableEq, Repr

structure PendingFile where
  path : String
  firstSeenMs : ℕ
  lastSeenMs : ℕ
  indexing : Bool
  deriving DecidableEq, Repr

structure FileWatcher where
  /-- A recursive watcher is installed, or one for some directory. -/
  watching : Bool := false
  /-- When the timer is due. -/
  debounceTimer : Option ℕ := none
  pendingFiles : List PendingInfo := []
  syncStartedMs : ℕ := 0
  syncing : Bool := false
  stopped : Bool := false
  ready : Bool := false
  deriving DecidableEq, Repr

/-- How far `start` gets. -/
inductive Outcome where
  | disabled
  | failed
  | installed
  deriving DecidableEq, Repr

def samePath (b a : PendingInfo) : Bool := b.path = a.path

namespace FileWatcher

variable (w : FileWatcher) (sc : Scope) (now : ℕ)

def scheduleSync : FileWatcher := { w with debounceTimer := some (now + sc.debounceMs) }

/-- An event for a path. -/
def note (rel : String) : List PendingInfo :=
  let existing := w.pendingFiles.find? (·.path = rel)
  w.pendingFiles.setLast samePath ⟨rel, (existing.map (·.firstSeenMs)).getD now, now⟩

def handleChange (rel : String) : FileWatcher :=
  if sc.watched rel then
    scheduleSync { w with pendingFiles := if w.ready then w.note now rel else w.pendingFiles } sc now
  else w

/-- `flush`, up to the call of `syncFn`. -/
def flush : FileWatcher := if w.syncing || w.stopped then w else { w with syncStartedMs := now, syncing := true }

/-- What `finally` does. -/
def finish : FileWatcher :=
  if w.pendingFiles ≠ [] ∧ ¬ w.stopped then scheduleSync { w with syncing := false } sc now
  else { w with syncing := false }

/-- The rest of `flush` when `syncFn` has succeeded; when it has failed the rest is `finish` alone. -/
def synced : FileWatcher :=
  finish { w with pendingFiles := w.pendingFiles.filter (w.syncStartedMs < ·.lastSeenMs) } sc now

def stop : FileWatcher :=
  { w with stopped := true, debounceTimer := none, watching := false, pendingFiles := [], ready := false }

def start (outcome : Outcome) : FileWatcher :=
  if w.watching then w
  else match outcome with
  | .disabled => { w with stopped := false }
  | .failed => w.stop
  | .installed => { w with stopped := false, watching := true, pendingFiles := [], ready := true }

def getPendingFiles : List PendingFile :=
  w.pendingFiles.map fun q =>
    ⟨q.path, q.firstSeenMs, q.lastSeenMs, w.syncing && decide (q.lastSeenMs ≤ w.syncStartedMs)⟩

end FileWatcher

structure Project where
  now : ℕ := 0
  w : FileWatcher := {}
  /-- How often each file was edited. -/
  disk : String → ℕ := fun _ => 0
  /-- Up to which of these edits the watcher was told, since it started. -/
  seen : String → ℕ := fun _ => 0
  /-- Up to which of these edits the index has the file. -/
  index : String → ℕ := fun _ => 0
  /-- What the syncs in flight have found; before they look at a file that is what was there when they began. -/
  inFlight : List (String → ℕ) := []

inductive Act where
  | tick (ms : ℕ)
  | edit (path : String)
  /-- The system reports a path. -/
  | event (rel : String)
  /-- The timer is due. -/
  | fire
  /-- The sync in flight looks at a file. -/
  | look (path : String)
  | succeed
  | fail
  /-- A sync of another process brings a file up to date. -/
  | other (path : String)
  | start (outcome : Outcome)
  /-- The last directory can no longer be watched. -/
  | lost
  | stop
  deriving DecidableEq, Repr

namespace Project

/-- What the watcher was told is forgotten with what it had pending. -/
def step (sc : Scope) (s : Project) : Act → Option Project
  | .tick ms => some { s with now := s.now + ms }
  | .edit path => some { s with disk := Function.update s.disk path (s.disk path + 1) }
  | .event rel =>
    if s.w.watching && !s.w.stopped then
      some { s with
        w := s.w.handleChange sc s.now rel
        seen := if sc.watched rel then Function.update s.seen rel (s.disk rel) else s.seen }
    else none
  | .fire =>
    match s.w.debounceTimer with
    | none => none
    | some due =>
      if due ≤ s.now then
        some { s with
          w := FileWatcher.flush { s.w with debounceTimer := none } s.now
          inFlight := if s.w.syncing || s.w.stopped then s.inFlight else s.disk :: s.inFlight }
      else none
  | .look path =>
    match s.inFlight with
    | [] => none
    | got :: others => some { s with inFlight := Function.update got path (s.disk path) :: others }
  | .succeed =>
    match s.inFlight with
    | [] => none
    | got :: others =>
      some { s with w := s.w.synced sc s.now, index := fun p => max (s.index p) (got p), inFlight := others }
  | .fail =>
    match s.inFlight with
    | [] => none
    | _ :: others => some { s with w := s.w.finish sc s.now, inFlight := others }
  | .other path => some { s with index := Function.update s.index path (s.disk path) }
  | .start outcome =>
    some { s with
      w := s.w.start outcome
      seen := if s.w.watching || outcome = .disabled then s.seen else fun _ => 0 }
  | .lost => some { s with w := { s.w with watching := false } }
  | .stop => some { s with w := s.w.stop, seen := fun _ => 0 }

end Project

def machine (sc : Scope) : Machine Project Act := ⟨Project.step sc⟩

/-! ### The operations of the watcher -/

namespace FileWatcher

variable {w : FileWatcher} {sc : Scope} {now : ℕ} {rel : String} {q : PendingInfo}

@[simp] theorem pendingFiles_finish : (w.finish sc now).pendingFiles = w.pendingFiles := by
  rw [finish]
  split <;> rfl

@[simp] theorem syncing_finish : (w.finish sc now).syncing = false := by
  rw [finish]
  split <;> rfl

@[simp] theorem stopped_finish : (w.finish sc now).stopped = w.stopped := by
  rw [finish]
  split <;> rfl

@[simp] theorem watching_finish : (w.finish sc now).watching = w.watching := by
  rw [finish]
  split <;> rfl

@[simp] theorem ready_finish : (w.finish sc now).ready = w.ready := by
  rw [finish]
  split <;> rfl

@[simp] theorem syncStartedMs_finish : (w.finish sc now).syncStartedMs = w.syncStartedMs := by
  rw [finish]
  split <;> rfl

theorem debounceTimer_finish : (w.finish sc now).debounceTimer =
    if w.pendingFiles ≠ [] ∧ ¬ w.stopped then some (now + sc.debounceMs) else w.debounceTimer := by
  rw [finish]
  split <;> rfl

theorem samePath_iff (a b : PendingInfo) : samePath b a = true ↔ b.path = a.path := decide_eq_true_iff

theorem samePath_trans (a b c : PendingInfo) (hab : samePath a b = true) (hbc : samePath b c = true) :
    samePath a c = true :=
  (samePath_iff c a).mpr (((samePath_iff b a).mp hab).trans ((samePath_iff c b).mp hbc))

/-- An event leaves an entry for its path, with its time. -/
theorem mem_note (h : q ∈ w.note now rel) :
    q.path = rel ∧ q.lastSeenMs = now ∧ (q.firstSeenMs = now ∨ ∃ q' ∈ w.pendingFiles, q.firstSeenMs = q'.firstSeenMs) ∨
      q ∈ w.pendingFiles := by
  refine (List.mem_setLast h).imp_left ?_
  rintro rfl
  refine ⟨rfl, rfl, ?_⟩
  cases hexisting : w.pendingFiles.find? (·.path = rel) with
  | none => exact .inl rfl
  | some q' => exact .inr ⟨q', List.mem_of_find?_eq_some hexisting, rfl⟩

theorem exists_mem_note_self (w : FileWatcher) (now : ℕ) (rel : String) : ∃ q ∈ w.note now rel, q.path = rel :=
  ⟨_, List.mem_setLast_self _ _, rfl⟩

theorem exists_mem_note (h : q ∈ w.pendingFiles) : ∃ q' ∈ w.note now rel, q'.path = q.path :=
  List.exists_mem_setLast (f := PendingInfo.path) (fun a b => (samePath_iff a b).mp) h

theorem apart_note (h : w.pendingFiles.Apart samePath) : (w.note now rel).Apart samePath :=
  h.setLast samePath_trans _

theorem eq_of_apart {files : List PendingInfo} (h : files.Apart samePath) {a b : PendingInfo} (ha : a ∈ files)
    (hb : b ∈ files) (hpath : a.path = b.path) : a = b := by
  have hnodup : (files.map (·.path)).Nodup := by
    refine List.pairwise_map.mpr (h.imp fun hapart heq => ?_)
    rw [(samePath_iff _ _).mpr heq] at hapart
    exact Bool.false_ne_true hapart.symm
  exact List.inj_on_of_nodup_map hnodup ha hb hpath

end FileWatcher

/-! ### What holds in every run -/

namespace Project

variable {sc : Scope} {s s' : Project}

/-- **Soundness.** -/
structure Sound (sc : Scope) (s : Project) : Prop where
  one : s.inFlight.length = s.w.syncing.toNat
  ready : s.w.watching = true → s.w.ready = true
  still : s.w.stopped = true → s.w.watching = false ∧ s.w.pendingFiles = [] ∧ s.w.debounceTimer = none
  wake : s.w.pendingFiles ≠ [] → s.w.debounceTimer.isSome ∨ s.w.syncing = true
  soon : ∀ due ∈ s.w.debounceTimer, due ≤ s.now + sc.debounceMs
  quiet : ∀ due ∈ s.w.debounceTimer, ∀ q ∈ s.w.pendingFiles, q.lastSeenMs + sc.debounceMs ≤ due
  apart : s.w.pendingFiles.Apart samePath
  past : ∀ q ∈ s.w.pendingFiles, q.firstSeenMs ≤ q.lastSeenMs ∧ q.lastSeenMs ≤ s.now
  watched : ∀ q ∈ s.w.pendingFiles, sc.watched q.path = true
  started : s.w.syncStartedMs ≤ s.now
  seen_le : ∀ path, s.seen path ≤ s.disk path
  index_le : ∀ path, s.index path ≤ s.disk path
  inFlight_le : ∀ got ∈ s.inFlight, ∀ path, got path ≤ s.disk path

theorem Sound.init (sc : Scope) : Sound sc {} where
  one := rfl
  ready := nofun
  still := nofun
  wake := fun h => absurd rfl h
  soon := nofun
  quiet := nofun
  apart := List.Pairwise.nil
  past := fun _ h => absurd h List.not_mem_nil
  watched := fun _ h => absurd h List.not_mem_nil
  started := Nat.le_refl 0
  seen_le := fun _ => Nat.le_refl 0
  index_le := fun _ => Nat.le_refl 0
  inFlight_le := fun _ h => absurd h List.not_mem_nil

theorem update_le {f g : String → ℕ} (h : ∀ p, f p ≤ g p) (path p : String) :
    Function.update f path (g path) p ≤ g p := by
  by_cases hp : p = path
  · rw [hp, Function.update_self]
  · rw [Function.update_of_ne hp]
    exact h p

namespace Sound

theorem tick (h : Sound sc s) (ms : ℕ) : Sound sc { s with now := s.now + ms } :=
  { h with
    soon := fun due hdue => (h.soon due hdue).trans (Nat.add_le_add_right (Nat.le_add_right _ _) _)
    past := fun q hq => ⟨(h.past q hq).1, (h.past q hq).2.trans (Nat.le_add_right _ _)⟩
    started := h.started.trans (Nat.le_add_right _ _) }

theorem edit (h : Sound sc s) (path : String) :
    Sound sc { s with disk := Function.update s.disk path (s.disk path + 1) } := by
  have hgrow : ∀ p, s.disk p ≤ Function.update s.disk path (s.disk path + 1) p := by
    intro p
    by_cases hp : p = path
    · rw [hp, Function.update_self]
      exact Nat.le_succ _
    · rw [Function.update_of_ne hp]
  exact
    { h with
      seen_le := fun p => (h.seen_le p).trans (hgrow p)
      index_le := fun p => (h.index_le p).trans (hgrow p)
      inFlight_le := fun got hgot p => (h.inFlight_le got hgot p).trans (hgrow p) }

theorem event (h : Sound sc s) (hwatching : s.w.watching = true) (hstopped : s.w.stopped = false) (rel : String) :
    Sound sc { s with
      w := s.w.handleChange sc s.now rel
      seen := if sc.watched rel then Function.update s.seen rel (s.disk rel) else s.seen } := by
  cases hrel : sc.watched rel with
  | false =>
    rw [FileWatcher.handleChange, if_neg (by rw [hrel]; exact Bool.false_ne_true), if_neg Bool.false_ne_true]
    exact h
  | true =>
    rw [FileWatcher.handleChange, if_pos hrel, if_pos rfl, if_pos (h.ready hwatching)]
    -- every entry is from before, or of this moment
    have hcases : ∀ q ∈ s.w.note s.now rel, q.path = rel ∧ q.lastSeenMs = s.now ∧ q.firstSeenMs ≤ s.now ∨
        q ∈ s.w.pendingFiles := by
      intro q hq
      refine (FileWatcher.mem_note hq).imp_left fun ⟨hpath, hlast, hfirst⟩ => ⟨hpath, hlast, ?_⟩
      obtain hnow | ⟨q', hq', heq⟩ := hfirst
      · exact hnow.le
      · exact heq ▸ (h.past q' hq').1.trans (h.past q' hq').2
    have hold : ∀ q ∈ s.w.note s.now rel, q.lastSeenMs ≤ s.now := by
      intro q hq
      obtain ⟨-, hlast, -⟩ | hmem := hcases q hq
      · exact hlast.le
      · exact (h.past q hmem).2
    exact
      { one := h.one
        ready := h.ready
        still := fun hstop => absurd (hstopped.symm.trans hstop) Bool.false_ne_true
        wake := fun _ => .inl rfl
        soon := fun due hdue => (Option.some.inj hdue).ge
        quiet := fun due hdue q hq => Option.some.inj hdue ▸ Nat.add_le_add_right (hold q hq) _
        apart := FileWatcher.apart_note h.apart
        past := fun q hq => by
          obtain ⟨-, hlast, hfirst⟩ | hmem := hcases q hq
          · exact ⟨hfirst.trans hlast.ge, hlast.le⟩
          · exact h.past q hmem
        watched := fun q hq => by
          obtain ⟨hpath, -⟩ | hmem := hcases q hq
          · exact hpath ▸ hrel
          · exact h.watched q hmem
        started := h.started
        seen_le := update_le h.seen_le rel
        index_le := h.index_le
        inFlight_le := h.inFlight_le }

theorem fire (h : Sound sc s) :
    Sound sc { s with
      w := FileWatcher.flush { s.w with debounceTimer := none } s.now
      inFlight := if s.w.syncing || s.w.stopped then s.inFlight else s.disk :: s.inFlight } := by
  cases hskip : s.w.syncing || s.w.stopped with
  | true =>
    rw [FileWatcher.flush, if_pos hskip, if_pos rfl]
    -- with the timer gone, what is pending is left to the sync in flight
    have hwake : s.w.pendingFiles ≠ [] → s.w.syncing = true := by
      intro hne
      cases Bool.or_eq_true_iff.mp hskip with
      | inl hsyncing => exact hsyncing
      | inr hstopped => exact absurd (h.still hstopped).2.1 hne
    exact
      { h with
        still := fun hstop => ⟨(h.still hstop).1, (h.still hstop).2.1, rfl⟩
        wake := fun hne => .inr (hwake hne)
        soon := nofun
        quiet := nofun }
  | false =>
    rw [FileWatcher.flush, if_neg (by rw [hskip]; exact Bool.false_ne_true), if_neg Bool.false_ne_true]
    obtain ⟨hsyncing, hstopped⟩ := Bool.or_eq_false_iff.mp hskip
    have hnone : s.inFlight.length = 0 := by rw [h.one, hsyncing, Bool.toNat_false]
    exact
      { h with
        one := by
          show s.inFlight.length + 1 = true.toNat
          rw [hnone, Bool.toNat_true]
        still := fun hstop => absurd (hstopped.symm.trans hstop) Bool.false_ne_true
        wake := fun _ => .inr rfl
        soon := nofun
        quiet := nofun
        started := Nat.le_refl _
        inFlight_le := List.forall_mem_cons.mpr ⟨fun _ => Nat.le_refl _, h.inFlight_le⟩ }

theorem look (h : Sound sc s) {got : String → ℕ} {others : List (String → ℕ)} (hgot : s.inFlight = got :: others)
    (path : String) : Sound sc { s with inFlight := Function.update got path (s.disk path) :: others } := by
  have hle := h.inFlight_le
  have hone := h.one
  rw [hgot] at hle hone
  obtain ⟨hfirst, hothers⟩ := List.forall_mem_cons.mp hle
  exact
    { h with
      one := hone
      inFlight_le := List.forall_mem_cons.mpr ⟨update_le hfirst path, hothers⟩ }

/-- The end of a sync, for a part of the pending files. -/
theorem finish (h : Sound sc s) {got : String → ℕ} {others : List (String → ℕ)} (hgot : s.inFlight = got :: others)
    {files : List PendingInfo} (hfiles : files.Sublist s.w.pendingFiles) :
    Sound sc { s with
      w := FileWatcher.finish { s.w with pendingFiles := files } sc s.now
      inFlight := others } := by
  have hone := h.one
  have hle := h.inFlight_le
  rw [hgot] at hle hone
  have hnone : others.length = 0 := by
    have := Bool.toNat_le s.w.syncing
    rw [List.length_cons] at hone
    omega
  have hnil : s.w.stopped = true → files = [] := fun hstop =>
    List.sublist_nil.mp ((h.still hstop).2.1 ▸ hfiles)
  refine
    { one := ?_, ready := ?_, still := ?_, wake := ?_, soon := ?_, quiet := ?_, apart := ?_, past := ?_, watched := ?_,
      started := ?_, seen_le := h.seen_le, index_le := h.index_le,
      inFlight_le := (List.forall_mem_cons.mp hle).2 }
  all_goals simp only [FileWatcher.pendingFiles_finish, FileWatcher.syncing_finish, FileWatcher.stopped_finish,
    FileWatcher.watching_finish, FileWatcher.ready_finish, FileWatcher.syncStartedMs_finish,
    FileWatcher.debounceTimer_finish]
  · rw [hnone, Bool.toNat_false]
  · exact h.ready
  · intro hstop
    rw [if_neg fun hnew => hnew.2 hstop]
    exact ⟨(h.still hstop).1, hnil hstop, (h.still hstop).2.2⟩
  · intro hne
    rw [if_pos ⟨hne, fun hstop => hne (hnil hstop)⟩]
    exact .inl rfl
  · intro due hdue
    split at hdue
    · exact (Option.some.inj hdue).ge
    · exact h.soon due hdue
  · intro due hdue q hq
    split at hdue
    · exact Option.some.inj hdue ▸ Nat.add_le_add_right (h.past q (hfiles.subset hq)).2 _
    · exact h.quiet due hdue q (hfiles.subset hq)
  · exact List.Pairwise.sublist hfiles h.apart
  · exact fun q hq => h.past q (hfiles.subset hq)
  · exact fun q hq => h.watched q (hfiles.subset hq)
  · exact h.started

theorem stop (h : Sound sc s) : Sound sc { s with w := s.w.stop, seen := fun _ => 0 } where
  one := h.one
  ready := nofun
  still := fun _ => ⟨rfl, rfl, rfl⟩
  wake := fun hne => absurd rfl hne
  soon := nofun
  quiet := nofun
  apart := List.Pairwise.nil
  past := fun _ hq => absurd hq List.not_mem_nil
  watched := fun _ hq => absurd hq List.not_mem_nil
  started := h.started
  seen_le := fun _ => Nat.zero_le _
  index_le := h.index_le
  inFlight_le := h.inFlight_le

theorem start (h : Sound sc s) (outcome : Outcome) :
    Sound sc { s with
      w := s.w.start outcome
      seen := if s.w.watching || outcome = .disabled then s.seen else fun _ => 0 } := by
  simp only [FileWatcher.start]
  cases hwatching : s.w.watching with
  | true => exact h
  | false =>
    cases outcome with
    | disabled =>
      exact { h with ready := fun hnew => h.ready (hwatching ▸ hnew), still := nofun }
    | failed => exact h.stop
    | installed =>
      exact
        { one := h.one
          ready := fun _ => rfl
          still := nofun
          wake := fun hne => absurd rfl hne
          soon := h.soon
          quiet := fun _ _ _ hq => absurd hq List.not_mem_nil
          apart := List.Pairwise.nil
          past := fun _ hq => absurd hq List.not_mem_nil
          watched := fun _ hq => absurd hq List.not_mem_nil
          started := h.started
          seen_le := fun _ => Nat.zero_le _
          index_le := h.index_le
          inFlight_le := h.inFlight_le }

theorem step (h : Sound sc s) {a : Act} (hstep : s.step sc a = some s') : Sound sc s' := by
  cases a with
  | tick ms =>
    obtain rfl := Option.some.inj hstep
    exact h.tick ms
  | edit path =>
    obtain rfl := Option.some.inj hstep
    exact h.edit path
  | event rel =>
    obtain ⟨hactive, hs⟩ := Option.ite_none_right_eq_some.mp hstep
    obtain rfl := Option.some.inj hs
    obtain ⟨hwatching, hstopped⟩ := Bool.and_eq_true_iff.mp hactive
    exact h.event hwatching (by simpa using hstopped) rel
  | fire =>
    simp only [Project.step] at hstep
    split at hstep
    · exact absurd hstep nofun
    · obtain ⟨-, hs⟩ := Option.ite_none_right_eq_some.mp hstep
      obtain rfl := Option.some.inj hs
      exact h.fire
  | look path =>
    simp only [Project.step] at hstep
    split at hstep
    · exact absurd hstep nofun
    · next hgot =>
      obtain rfl := Option.some.inj hstep
      exact h.look hgot path
  | succeed =>
    simp only [Project.step] at hstep
    split at hstep
    · exact absurd hstep nofun
    · next got others hgot =>
      obtain rfl := Option.some.inj hstep
      have hfound := (List.forall_mem_cons.mp (hgot ▸ h.inFlight_le)).1
      exact { h.finish hgot List.filter_sublist with index_le := fun p => max_le (h.index_le p) (hfound p) }
  | fail =>
    simp only [Project.step] at hstep
    split at hstep
    · exact absurd hstep nofun
    · next hgot =>
      obtain rfl := Option.some.inj hstep
      exact h.finish hgot (List.Sublist.refl _)
  | other path =>
    obtain rfl := Option.some.inj hstep
    exact { h with index_le := update_le h.index_le path }
  | start outcome =>
    obtain rfl := Option.some.inj hstep
    exact h.start outcome
  | lost =>
    obtain rfl := Option.some.inj hstep
    exact { h with ready := nofun, still := fun hstop => ⟨rfl, (h.still hstop).2⟩ }
  | stop =>
    obtain rfl := Option.some.inj hstep
    exact h.stop

end Sound

/-- A run from a watcher that was not started. -/
theorem sound_exec {acts : List Act} (h : (machine sc).exec {} acts = some s) : Sound sc s :=
  Machine.invariant (I := Sound sc) (fun _ _ _ hs _ hstep => hs.step hstep) (.init sc)
    (Machine.Along.of_forall_mem (fun _ _ _ => trivial) _) h

/-- **No wake-up is lost.** In every run there is at most one sync in flight, and what is pending has one before it:
that in flight, or one that a timer will start within the delay. A stopped watcher has neither a timer nor anything
pending. -/
theorem wakes {acts : List Act} (h : (machine sc).exec {} acts = some s) :
    s.inFlight.length ≤ 1 ∧
      (s.w.getPendingFiles ≠ [] → s.inFlight.length = 1 ∨
        ∃ due ∈ s.w.debounceTimer, due ≤ s.now + sc.debounceMs ∧
          ∀ q ∈ s.w.getPendingFiles, q.lastSeenMs + sc.debounceMs ≤ due) ∧
      (s.w.stopped = true → s.w.getPendingFiles = [] ∧ s.w.debounceTimer = none) := by
  have hsound := sound_exec h
  refine ⟨hsound.one ▸ Bool.toNat_le _, fun hne => ?_, fun hstop => ?_⟩
  · cases hsound.wake fun hnil => hne (congrArg _ hnil) with
    | inl htimer =>
      obtain ⟨due, hdue⟩ := Option.isSome_iff_exists.mp htimer
      refine .inr ⟨due, hdue, hsound.soon due hdue, fun q hq => ?_⟩
      obtain ⟨info, hinfo, rfl⟩ := List.mem_map.mp hq
      exact hsound.quiet due hdue info hinfo
    | inr hsyncing => exact .inl (by rw [hsound.one, hsyncing, Bool.toNat_true])
  · exact ⟨congrArg _ (hsound.still hstop).2.1, (hsound.still hstop).2.2⟩

/-- An event of one file, with a timer before it. -/
theorem wakes_one_event :
    let sc : Scope := { ignores := fun _ => false, isSourceFile := fun _ => true }
    ∃ s, (machine sc).exec {} [.start .installed, .edit "a.ts", .event "a.ts"] = some s ∧
      ∃ due ∈ s.w.debounceTimer, due ≤ s.now + 2000 := by
  intro sc
  let s : Project :=
    { w := { watching := true, debounceTimer := some 2000, pendingFiles := [⟨"a.ts", 0, 0⟩], ready := true }
      disk := Function.update (fun _ => 0) "a.ts" 1
      seen := Function.update (fun _ => 0) "a.ts" 1 }
  have hs : (machine sc).exec {} [.start .installed, .edit "a.ts", .event "a.ts"] = some s := rfl
  have hidle : s.inFlight.length ≠ 1 := by decide
  obtain ⟨due, hdue, hsoon, -⟩ := ((wakes hs).2.1 nofun).resolve_left hidle
  exact ⟨s, hs, due, hdue, hsoon⟩

/-! ### What is shown fresh -/

/-- An event finds no sync in flight that began in the same millisecond. -/
def Prompt (s : Project) : Act → Prop
  | .event _ => s.w.syncing = true → s.w.syncStartedMs < s.now
  | _ => True

/-- **Freshness.** -/
structure Fresh (s : Project) : Prop where
  shown : ∀ path, s.seen path ≤ s.index path ∨ ∃ q ∈ s.w.pendingFiles, q.path = path
  absorbed : ∀ got ∈ s.inFlight, ∀ q ∈ s.w.pendingFiles, q.lastSeenMs ≤ s.w.syncStartedMs → s.seen q.path ≤ got q.path

namespace Fresh

theorem init : Fresh {} where
  shown := fun _ => .inl (Nat.le_refl 0)
  absorbed := fun _ h => absurd h List.not_mem_nil

theorem event (h : Fresh s) (hs : Sound sc s) (hwatching : s.w.watching = true) {rel : String}
    (hprompt : s.w.syncing = true → s.w.syncStartedMs < s.now) :
    Fresh { s with
      w := s.w.handleChange sc s.now rel
      seen := if sc.watched rel then Function.update s.seen rel (s.disk rel) else s.seen } := by
  cases hrel : sc.watched rel with
  | false =>
    rw [FileWatcher.handleChange, if_neg (by rw [hrel]; exact Bool.false_ne_true), if_neg Bool.false_ne_true]
    exact h
  | true =>
    rw [FileWatcher.handleChange, if_pos hrel, if_pos rfl, if_pos (hs.ready hwatching)]
    refine ⟨fun path => ?_, fun got hgot q hq hlast => ?_⟩
    · by_cases hpath : path = rel
      · exact .inr (hpath ▸ FileWatcher.exists_mem_note_self s.w s.now path)
      · show Function.update s.seen rel (s.disk rel) path ≤ s.index path ∨ ∃ q ∈ s.w.note s.now rel, q.path = path
        rw [Function.update_of_ne hpath]
        refine (h.shown path).imp_right ?_
        rintro ⟨q, hq, rfl⟩
        exact FileWatcher.exists_mem_note hq
    · have hsyncing : s.w.syncing = true := by
        have hone := hs.one
        cases hsync : s.w.syncing with
        | true => rfl
        | false =>
          rw [hsync, Bool.toNat_false, List.length_eq_zero_iff] at hone
          exact absurd (hone ▸ hgot) List.not_mem_nil
      have hlate := hprompt hsyncing
      change q.lastSeenMs ≤ s.w.syncStartedMs at hlast
      show Function.update s.seen rel (s.disk rel) q.path ≤ got q.path
      by_cases hpath : q.path = rel
      · -- the entry of the path is that of this event, which came after the sync in flight began
        obtain ⟨q', hq', hpath', hlast'⟩ : ∃ q' ∈ s.w.note s.now rel, q'.path = rel ∧ q'.lastSeenMs = s.now :=
          ⟨_, List.mem_setLast_self _ _, rfl, rfl⟩
        rw [FileWatcher.eq_of_apart (FileWatcher.apart_note hs.apart) hq hq' (hpath.trans hpath'.symm), hlast'] at hlast
        exact absurd hlast (Nat.not_le.mpr hlate)
      · rw [Function.update_of_ne hpath]
        obtain ⟨hself, -⟩ | hmem := FileWatcher.mem_note hq
        · exact absurd hself hpath
        · exact h.absorbed got hgot q hmem hlast

theorem fire (h : Fresh s) (hs : Sound sc s) :
    Fresh { s with
      w := FileWatcher.flush { s.w with debounceTimer := none } s.now
      inFlight := if s.w.syncing || s.w.stopped then s.inFlight else s.disk :: s.inFlight } := by
  cases hskip : s.w.syncing || s.w.stopped with
  | true =>
    rw [FileWatcher.flush, if_pos hskip, if_pos rfl]
    exact ⟨h.shown, h.absorbed⟩
  | false =>
    rw [FileWatcher.flush, if_neg (by rw [hskip]; exact Bool.false_ne_true), if_neg Bool.false_ne_true]
    have hnone : s.inFlight = [] := by
      have hone := hs.one
      rwa [(Bool.or_eq_false_iff.mp hskip).1, Bool.toNat_false, List.length_eq_zero_iff] at hone
    refine ⟨h.shown, fun got hgot q _ _ => ?_⟩
    rw [hnone, List.mem_singleton] at hgot
    exact hgot ▸ hs.seen_le q.path

theorem look (h : Fresh s) (hs : Sound sc s) {got : String → ℕ} {others : List (String → ℕ)}
    (hgot : s.inFlight = got :: others) (path : String) :
    Fresh { s with inFlight := Function.update got path (s.disk path) :: others } := by
  have habsorbed := h.absorbed
  rw [hgot] at habsorbed
  obtain ⟨hfirst, hothers⟩ := List.forall_mem_cons.mp habsorbed
  refine ⟨h.shown, List.forall_mem_cons.mpr ⟨fun q hq hlast => ?_, hothers⟩⟩
  by_cases hpath : q.path = path
  · rw [hpath, Function.update_self]
    exact hs.seen_le path
  · rw [Function.update_of_ne hpath]
    exact hfirst q hq hlast

theorem succeed (h : Fresh s) {got : String → ℕ} {others : List (String → ℕ)} (hgot : s.inFlight = got :: others) :
    Fresh { s with w := s.w.synced sc s.now, index := fun p => max (s.index p) (got p), inFlight := others } := by
  have habsorbed := h.absorbed
  rw [hgot] at habsorbed
  obtain ⟨hfirst, hothers⟩ := List.forall_mem_cons.mp habsorbed
  refine ⟨fun path => ?_, fun got' hgot' q hq hlast => ?_⟩
  · show s.seen path ≤ max (s.index path) (got path) ∨ ∃ q ∈ (s.w.synced sc s.now).pendingFiles, q.path = path
    rw [FileWatcher.synced, FileWatcher.pendingFiles_finish]
    obtain hindex | ⟨q, hq, rfl⟩ := h.shown path
    · exact .inl (hindex.trans (le_max_left _ _))
    · -- an entry that is removed was seen before the sync began
      by_cases hlast : q.lastSeenMs ≤ s.w.syncStartedMs
      · exact .inl ((hfirst q hq hlast).trans (le_max_right _ _))
      · exact .inr ⟨q, List.mem_filter.mpr ⟨hq, decide_eq_true (Nat.not_le.mp hlast)⟩, rfl⟩
  · change q ∈ (s.w.synced sc s.now).pendingFiles at hq
    change q.lastSeenMs ≤ (s.w.synced sc s.now).syncStartedMs at hlast
    rw [FileWatcher.synced, FileWatcher.pendingFiles_finish] at hq
    rw [FileWatcher.synced, FileWatcher.syncStartedMs_finish] at hlast
    exact hothers got' hgot' q (List.mem_of_mem_filter hq) hlast

theorem fail (h : Fresh s) {got : String → ℕ} {others : List (String → ℕ)} (hgot : s.inFlight = got :: others) :
    Fresh { s with w := s.w.finish sc s.now, inFlight := others } := by
  have habsorbed := h.absorbed
  rw [hgot] at habsorbed
  refine ⟨fun path => ?_, fun got' hgot' q hq hlast => ?_⟩
  · show s.seen path ≤ s.index path ∨ ∃ q ∈ (s.w.finish sc s.now).pendingFiles, q.path = path
    rw [FileWatcher.pendingFiles_finish]
    exact h.shown path
  · change q ∈ (s.w.finish sc s.now).pendingFiles at hq
    change q.lastSeenMs ≤ (s.w.finish sc s.now).syncStartedMs at hlast
    rw [FileWatcher.pendingFiles_finish] at hq
    rw [FileWatcher.syncStartedMs_finish] at hlast
    exact habsorbed got' (List.mem_cons_of_mem got hgot') q hq hlast

/-- A watcher that was told nothing. -/
theorem forgotten (s : Project) (w : FileWatcher) : Fresh { s with w := w, seen := fun _ => 0 } where
  shown := fun _ => .inl (Nat.zero_le _)
  absorbed := fun _ _ _ _ _ => Nat.zero_le _

theorem step (h : Fresh s) (hs : Sound sc s) {a : Act} (hprompt : Prompt s a) (hstep : s.step sc a = some s') :
    Fresh s' := by
  cases a with
  | tick ms =>
    obtain rfl := Option.some.inj hstep
    exact ⟨h.shown, h.absorbed⟩
  | edit path =>
    obtain rfl := Option.some.inj hstep
    exact ⟨h.shown, h.absorbed⟩
  | event rel =>
    obtain ⟨hactive, hnext⟩ := Option.ite_none_right_eq_some.mp hstep
    obtain rfl := Option.some.inj hnext
    exact h.event hs (Bool.and_eq_true_iff.mp hactive).1 hprompt
  | fire =>
    simp only [Project.step] at hstep
    split at hstep
    · exact absurd hstep nofun
    · obtain ⟨-, hnext⟩ := Option.ite_none_right_eq_some.mp hstep
      obtain rfl := Option.some.inj hnext
      exact h.fire hs
  | look path =>
    simp only [Project.step] at hstep
    split at hstep
    · exact absurd hstep nofun
    · next hgot =>
      obtain rfl := Option.some.inj hstep
      exact h.look hs hgot path
  | succeed =>
    simp only [Project.step] at hstep
    split at hstep
    · exact absurd hstep nofun
    · next hgot =>
      obtain rfl := Option.some.inj hstep
      exact h.succeed hgot
  | fail =>
    simp only [Project.step] at hstep
    split at hstep
    · exact absurd hstep nofun
    · next hgot =>
      obtain rfl := Option.some.inj hstep
      exact h.fail hgot
  | other path =>
    obtain rfl := Option.some.inj hstep
    refine ⟨fun p => (h.shown p).imp_left fun hindex => hindex.trans ?_, h.absorbed⟩
    show s.index p ≤ Function.update s.index path (s.disk path) p
    by_cases hp : p = path
    · rw [hp, Function.update_self]
      exact hs.index_le path
    · rw [Function.update_of_ne hp]
  | start outcome =>
    obtain rfl := Option.some.inj hstep
    simp only [FileWatcher.start]
    cases s.w.watching with
    | true => exact h
    | false =>
      cases outcome with
      | disabled => exact ⟨h.shown, h.absorbed⟩
      | failed => exact forgotten s _
      | installed => exact forgotten s _
  | lost =>
    obtain rfl := Option.some.inj hstep
    exact ⟨h.shown, h.absorbed⟩
  | stop =>
    obtain rfl := Option.some.inj hstep
    exact forgotten s _

end Fresh

/-- An edit that is reported in the millisecond in which the sync began, when the sync has looked at the file, is not
shown any more when the sync has ended. -/
example :
    let sc : Scope := { ignores := fun _ => false, isSourceFile := fun _ => true }
    let acts : List Act :=
      [.start .installed, .edit "a.ts", .event "a.ts", .tick 2000, .fire, .edit "a.ts", .event "a.ts", .succeed]
    (((machine sc).exec {} acts).map fun s => (s.w.getPendingFiles, s.seen "a.ts", s.index "a.ts")) =
      some ([], 2, 1) := by
  decide +kernel

/-! ### Rest -/

/-- Neither events nor starts and stops, nor the end of a sync. -/
def Quiet : Act → Prop
  | .tick _ | .edit _ | .fire | .look _ | .other _ | .lost => True
  | .event _ | .succeed | .fail | .start _ | .stop => False

/-- A sync in flight that will leave nothing pending. -/
structure Absorbing (seen : String → ℕ) (s : Project) : Prop where
  syncing : s.w.syncing = true
  timer : s.w.debounceTimer = none
  pending : ∀ q ∈ s.w.pendingFiles, q.lastSeenMs ≤ s.w.syncStartedMs
  seen_le : ∀ path, seen path ≤ s.disk path
  found : ∃ got, s.inFlight = [got] ∧ ∀ path, seen path ≤ got path

theorem Absorbing.step {seen : String → ℕ} (h : Absorbing seen s) {a : Act} (hquiet : Quiet a)
    (hstep : s.step sc a = some s') : Absorbing seen s' := by
  obtain ⟨got, hgot, hle⟩ := h.found
  cases a with
  | tick ms =>
    obtain rfl := Option.some.inj hstep
    exact { h with }
  | edit path =>
    obtain rfl := Option.some.inj hstep
    refine { h with seen_le := fun p => (h.seen_le p).trans ?_ }
    show s.disk p ≤ Function.update s.disk path (s.disk path + 1) p
    by_cases hp : p = path
    · rw [hp, Function.update_self]
      exact Nat.le_succ _
    · rw [Function.update_of_ne hp]
  | fire => exact absurd hstep (by simp [Project.step, h.timer])
  | look path =>
    simp only [Project.step, hgot] at hstep
    obtain rfl := Option.some.inj hstep
    refine { h with found := ⟨_, rfl, fun p => ?_⟩ }
    by_cases hp : p = path
    · rw [hp, Function.update_self]
      exact h.seen_le path
    · rw [Function.update_of_ne hp]
      exact hle p
  | other path =>
    obtain rfl := Option.some.inj hstep
    exact { h with }
  | lost =>
    obtain rfl := Option.some.inj hstep
    exact { h with }
  | event rel => exact hquiet.elim
  | succeed => exact hquiet.elim
  | fail => exact hquiet.elim
  | start outcome => exact hquiet.elim
  | stop => exact hquiet.elim

end Project

end Watch

end Devrouter.Engine
