import Mathlib.Data.List.Perm.Basic
import Devrouter.Lib.Machine

/-!
# Bounded fan-out

Jobs wait for one of `slots` places, run, and send their result on a channel when they finish. A run of the
machine starts and finishes jobs in any order that the places allow.

When all jobs are finished the channel holds each of them once, and any order of them is possible
(`FanOut.exec_finished_iff`).
-/

/-- The jobs that wait for a place, those that run, and those whose results were sent, in that order. -/
structure FanOut (J : Type) where
  waiting : List J
  running : List J
  sent : List J

namespace FanOut

inductive Move (J : Type) where
  | start (j : J)
  | finish (j : J)

variable {J : Type} [DecidableEq J] {slots : ℕ}

def step (slots : ℕ) (s : FanOut J) : Move J → Option (FanOut J)
  | .start j =>
    if j ∈ s.waiting ∧ s.running.length < slots then
      some { s with waiting := s.waiting.erase j, running := j :: s.running }
    else none
  | .finish j => if j ∈ s.running then some { s with running := s.running.erase j, sent := s.sent ++ [j] } else none

def machine (slots : ℕ) : Machine (FanOut J) (Move J) := ⟨step slots⟩

/-- All jobs wait. -/
def queued (jobs : List J) : FanOut J := ⟨jobs, [], []⟩

/-- All jobs are done; their results stand in the channel in this order. -/
def finished (order : List J) : FanOut J := ⟨[], [], order⟩

def all (s : FanOut J) : List J := s.sent ++ (s.running ++ s.waiting)

/-- No step loses a job or makes one. -/
theorem all_perm_of_step {s t : FanOut J} {m : Move J} (h : step slots s m = some t) : t.all.Perm s.all := by
  cases m with
  | start j =>
    rw [step] at h
    split at h
    next hstart =>
      -- the job goes from the waiting to the running ones
      rw [← Option.some.inj h]
      refine List.Perm.append_left s.sent ?_
      calc ((j :: s.running) ++ s.waiting.erase j).Perm (s.running ++ j :: s.waiting.erase j) := List.perm_middle.symm
        List.Perm _ (s.running ++ s.waiting) := (List.perm_cons_erase hstart.1).symm.append_left s.running
    · cases h
  | finish j =>
    rw [step] at h
    split at h
    next hrunning =>
      -- the job goes from the running to the sent ones
      rw [← Option.some.inj h]
      show ((s.sent ++ [j]) ++ (s.running.erase j ++ s.waiting)).Perm (s.sent ++ (s.running ++ s.waiting))
      rw [List.append_assoc, List.singleton_append, ← List.cons_append]
      exact ((List.perm_cons_erase hrunning).symm.append_right s.waiting).append_left s.sent
    · cases h

theorem all_perm {s t : FanOut J} {run : List (Move J)} (h : (machine slots).exec s run = some t) :
    t.all.Perm s.all := by
  have halong : (machine slots).Along (fun _ _ => True) s run :=
    Machine.Along.of_forall_mem (fun _ _ _ => trivial) s
  refine Machine.stable (I := fun _ => True) (R := fun s t => t.all.Perm s.all) ?_
    (fun s => List.Perm.refl s.all) (fun _ _ _ h h' => h'.trans h) trivial halong h
  exact fun s m t _ _ hstep => ⟨trivial, all_perm_of_step hstep⟩

/-- Jobs can be done one after the other. -/
theorem exists_run (hslots : 0 < slots) (order jobs sent : List J) (h : order.Perm jobs) :
    ∃ run, (machine slots).exec ⟨jobs, [], sent⟩ run = some ⟨[], [], sent ++ order⟩ := by
  induction order generalizing jobs sent with
  | nil =>
    rw [List.nil_perm.mp h]
    exact ⟨[], by rw [List.append_nil, Machine.exec_nil]⟩
  | cons j order ih =>
    have hj : j ∈ jobs := h.subset List.mem_cons_self
    obtain ⟨run, hrun⟩ := ih (jobs.erase j) (sent ++ [j]) ((List.cons_perm_iff_perm_erase.mp h).2)
    have hstart : step slots ⟨jobs, [], sent⟩ (.start j) = some ⟨jobs.erase j, [j], sent⟩ := if_pos ⟨hj, hslots⟩
    have hfinish : step slots ⟨jobs.erase j, [j], sent⟩ (.finish j) = some ⟨jobs.erase j, [], sent ++ [j]⟩ := by
      rw [step, if_pos List.mem_cons_self, List.erase_cons_head]
    refine ⟨.start j :: .finish j :: run, Machine.exec_cons_eq_some.mpr ⟨_, hstart, ?_⟩⟩
    refine Machine.exec_cons_eq_some.mpr ⟨_, hfinish, ?_⟩
    rw [hrun, List.append_assoc, List.singleton_append]

/-- **What a fan-out sends.** The results of all jobs, each once, in any order. -/
theorem exec_finished_iff (hslots : 0 < slots) {jobs order : List J} :
    (∃ run, (machine slots).exec (queued jobs) run = some (finished order)) ↔ order.Perm jobs := by
  constructor
  · rintro ⟨run, hrun⟩
    simpa [all, queued, finished] using all_perm hrun
  · exact exists_run hslots order jobs []

end FanOut
