import Porch.RepoController.World

/- When a reconcile that has found nothing to do comes back: the interval of
   `getRequeueInterval` against the tests that say what is due. Both read the same times, but
   the retry of an error is counted from the error by the one and from now by the other, a
   `runOnceAt` that is still to come is waited for without a health check, and a change of
   `runOnceAt` is acknowledged before the rest has been looked at. -/
namespace Porch.RepoController.Requeue

open Go

variable (cfg : Config) (now : Time) (repo : Repository)

/-- One of the operations that a decision schedules is due. -/
def somethingDue : Bool :=
  isOneTimeSyncDue now repo || isErrorRetryDue now repo || isFullSyncDue cfg now repo ||
    isHealthCheckDue cfg now repo

def schedule : Option (Time → Time) :=
  if repo.spec.schedule = [] then none else cfg.cron repo.spec.schedule

/-- The interval after an error with this message. -/
def retryInterval (message : Str) : Time :=
  if message ≠ [] then determineRetryInterval message else 30 * second

/-- What is left of an interval, or all of it if nothing is. -/
def remaining (interval since : Time) : Time :=
  if interval - (now - since) ≤ 0 then interval else interval - (now - since)

/-- The times at which a reconcile that has nothing to do comes back before anything is due. -/
def InTime : Prop :=
  match repo.status.condition with
  | none => cfg.healthCheckFrequency ≤ 0 ∧ ∀ t ∈ repo.spec.runOnceAt, t ≤ now
  | some cond =>
    if cond.isFalse .error then
      (cond.message ≠ [] → now ≤ cond.lastTransitionTime) ∧
        ∀ t ∈ repo.spec.runOnceAt, repo.status.observedRunOnceAt ≠ some t →
          now + retryInterval cond.message ≤ t + 1
    else
      match repo.spec.runOnceAt with
      | some t =>
        if now < t then t ≤ cond.lastTransitionTime + cfg.healthCheckFrequency
        else
          -- The next reconcile is one second later.
          repo.status.observedRunOnceAt = some t ∧
            now + second ≤ cond.lastTransitionTime + cfg.healthCheckFrequency ∧
            ∃ last ∈ repo.status.lastFullSyncTime,
              match schedule cfg repo with
              | some next => now + second ≤ next last + 1
              | none => now + second ≤ last + cfg.fullSyncFrequency
      | none =>
        -- An interval that is not positive is over at once.
        (cfg.healthCheckFrequency ≤ 0 ∧ cfg.healthCheckFrequency ≤ now - cond.lastTransitionTime) ∨
          (cfg.fullSyncFrequency ≤ 0 ∧
            ∀ last ∈ repo.status.lastFullSyncTime, cfg.fullSyncFrequency ≤ now - last) ∨
          isFullSyncDue cfg now repo = false ∧ isHealthCheckDue cfg now repo = false ∧
            ∀ next ∈ schedule cfg repo, ∀ last ∈ repo.status.lastFullSyncTime, next last = now →
              remaining now cfg.healthCheckFrequency cond.lastTransitionTime ≤ 1 ∨
                remaining now cfg.fullSyncFrequency last ≤ 1

/-- Nothing is due within this interval. -/
def QuietFor (d : Time) : Prop := ∀ t, now ≤ t → t < now + d → somethingDue cfg t repo = false

variable {cfg now repo} {t d : Time} {cond : Condition}

theorem idle_decision {seen : Bool}
    (h : (determineSyncDecision cfg now seen repo).1 = ⟨.healthCheck, false, false, d⟩) :
    d = getRequeueInterval cfg now repo := by
  unfold determineSyncDecision at h
  split_ifs at h <;> simp at h <;> exact h.symm

/-- The last moment at which no full sync is due, besides by `runOnceAt`. -/
def lastQuiet (cfg : Config) (repo : Repository) : Option Time :=
  repo.status.lastFullSyncTime.map fun last =>
    match schedule cfg repo with
    | some next => next last
    | none => last + cfg.fullSyncFrequency - 1

theorem oneTimeSync_false : isOneTimeSyncDue t repo = false ↔
    ∀ b ∈ repo.spec.runOnceAt, repo.status.observedRunOnceAt ≠ some b → t ≤ b := by
  unfold isOneTimeSyncDue
  cases repo.spec.runOnceAt <;> simp
  grind

theorem fullSync_false (herr : inErrorState repo = false) : isFullSyncDue cfg t repo = false ↔
    (∃ b ∈ repo.spec.runOnceAt, t < b) ∨ ∃ b ∈ lastQuiet cfg repo, t ≤ b := by
  simp only [isFullSyncDue, lastQuiet, herr, Bool.false_eq_true, if_false]
  rw [← schedule]
  cases repo.spec.runOnceAt <;> cases repo.status.lastFullSyncTime <;> cases schedule cfg repo <;>
    simp <;> grind

/-- What it takes for nothing to be due. -/
theorem somethingDue_false : somethingDue cfg t repo = false ↔ ∃ cond ∈ repo.status.condition,
    isOneTimeSyncDue t repo = false ∧
      if cond.isFalse .error then
        cond.message ≠ [] → t < cond.lastTransitionTime + determineRetryInterval cond.message
      else isFullSyncDue cfg t repo = false ∧ t < cond.lastTransitionTime + cfg.healthCheckFrequency := by
  cases hcond : repo.status.condition with
  | none => simp [somethingDue, isHealthCheckDue, inErrorState, hcond]
  | some cond =>
    cases herr : cond.isFalse .error <;>
      simp [somethingDue, isErrorRetryDue, isHealthCheckDue, isFullSyncDue, inErrorState, hcond, herr] <;>
      grind

/-- What is not due was not due before, so it is enough to look at the last moment. -/
theorem quietFor_iff :
    QuietFor cfg now repo d ↔ (0 < d → somethingDue cfg (now + d - 1) repo = false) := by
  refine ⟨fun h hd => h _ (by grind) (by grind), fun h t hnow ht => ?_⟩
  obtain ⟨cond, hcond, honce, hrest⟩ := somethingDue_false.mp (h (by grind))
  refine somethingDue_false.mpr ⟨cond, hcond, ?_, ?_⟩
  · rw [oneTimeSync_false] at honce ⊢
    grind
  · split_ifs at hrest ⊢ with herr
    · grind
    · have hstate : inErrorState repo = false := by simpa [inErrorState, Option.mem_def.mp hcond] using herr
      rw [fullSync_false hstate] at hrest ⊢
      grind

section

variable (hd : d = getRequeueInterval cfg now repo)
include hd

/-- A repository that has no condition yet. -/
theorem quietFor_new (hcond : repo.status.condition = none) :
    QuietFor cfg now repo d ↔ InTime cfg now repo := by
  rw [quietFor_iff, InTime, hcond, hd, getRequeueInterval, hcond, Option.filter_none,
    calculateNextSyncInterval, hcond]
  simp only [somethingDue_false, hcond]
  cases repo.spec.runOnceAt <;> simp [Option.filter_some]
  grind

/-- A repository in error. -/
theorem quietFor_error (hcond : repo.status.condition = some cond) (herr : cond.isFalse .error = true) :
    QuietFor cfg now repo d ↔ InTime cfg now repo := by
  have hinterval : d = retryInterval cond.message := by
    rw [hd, getRequeueInterval, hcond, Option.filter_some, if_pos herr]
    rfl
  have hpos : 0 < d := by
    unfold retryInterval determineRetryInterval at hinterval
    dsimp only at hinterval
    split_ifs at hinterval <;> grind
  rw [quietFor_iff, InTime, hcond, somethingDue_false, oneTimeSync_false, hcond]
  simp [herr, hpos, ← hinterval]
  grind [retryInterval]

theorem quietFor_healthy (hcond : repo.status.condition = some cond) (herr : cond.isFalse .error = false) :
    QuietFor cfg now repo d ↔ InTime cfg now repo := by
  have hstate : inErrorState repo = false := by simp [inErrorState, hcond, herr]
  have hcheck : isHealthCheckDue cfg now repo = false ↔
      now < cond.lastTransitionTime + cfg.healthCheckFrequency := by
    simp only [isHealthCheckDue, hstate, hcond, Bool.false_eq_true, if_false, decide_eq_false_iff_not]
    grind
  rw [getRequeueInterval, hcond, Option.filter_some, if_neg (by simp [herr]), calculateNextSyncInterval,
    hcond] at hd
  rw [quietFor_iff, InTime, somethingDue_false, hcond]
  simp only [herr, fullSync_false hstate, hcheck, oneTimeSync_false, Option.mem_some_iff,
    exists_eq_left', if_false, Bool.false_eq_true]
  cases hrun : repo.spec.runOnceAt with
  | some b =>
    rw [hrun] at hd
    by_cases hb : now < b
    · simp [Option.filter_some, hb] at hd ⊢
      grind
    · simp [Option.filter_some, hb] at hd ⊢
      rw [hd, lastQuiet]
      cases repo.status.lastFullSyncTime <;> cases schedule cfg repo <;> simp <;> grind
  | none =>
    -- The next health check and the next full sync, the earlier one first.
    simp only [hrun, Option.filter_none, ne_eq, not_true_eq_false, if_false, nextFullSyncInterval] at hd
    rw [show (if repo.spec.schedule = [] then none else cfg.cron repo.spec.schedule) = schedule cfg repo
      from rfl] at hd
    unfold lastQuiet
    cases hlast : repo.status.lastFullSyncTime <;> cases hsched : schedule cfg repo <;>
      simp [hlast, hsched] at hd ⊢ <;> grind [remaining]

end

/-- **A reconcile that finds nothing to do comes back before anything is due exactly at these
    times**: a repository in error whose condition is not older than now, with no `runOnceAt`
    before the retry; a `runOnceAt` still to come, but not after the next health check; an
    observed `runOnceAt`, with nothing due in the next second; and otherwise with nothing due
    now, and the next scheduled sync not due this very moment. -/
theorem requeued_in_time (cfg : Config) (now : Time) (seen : Bool) (repo : Repository) (d : Time)
    (h : (determineSyncDecision cfg now seen repo).1 = ⟨.healthCheck, false, false, d⟩) :
    QuietFor cfg now repo d ↔ InTime cfg now repo := by
  have hd := idle_decision h
  cases hcond : repo.status.condition with
  | none => exact quietFor_new hd hcond
  | some cond =>
    cases herr : cond.isFalse .error with
    | true => exact quietFor_error hd hcond herr
    | false => exact quietFor_healthy hd hcond herr

/-- A repository that has been synced, with the condition written at time 0. -/
def synced (status : RepositoryStatus) : Repository :=
  let repo : Repository := { generation := 1, spec := { fields := "git" } }
  { repo with
    status :=
      { condition := some (buildRepositoryCondition 0 repo status "connection refused")
        lastFullSyncTime := some 0, observedGeneration := 1 } }

theorem requeued_in_time_ready :
    (determineSyncDecision sampleConfig (10 * second) true (synced .ready)).1 =
        ⟨.healthCheck, false, false, 290 * second⟩ ∧
      QuietFor sampleConfig (10 * second) (synced .ready) (290 * second) := by
  have hidle : (determineSyncDecision sampleConfig (10 * second) true (synced .ready)).1 =
      ⟨.healthCheck, false, false, 290 * second⟩ := by
    decide +kernel
  refine ⟨hidle, (requeued_in_time _ _ _ _ _ hidle).mpr (.inr (.inr ⟨?_, ?_, ?_⟩))⟩
  · decide +kernel
  · decide +kernel
  · exact nofun

/-- **The retry of an error comes too late.** Ten seconds after the error the retry is due in
    twenty, and the reconcile is asked for in thirty. -/
theorem retry_requeued_late :
    (determineSyncDecision sampleConfig (10 * second) true (synced .error)).1 =
        ⟨.healthCheck, false, false, 30 * second⟩ ∧
      isErrorRetryDue (30 * second) (synced .error) = true ∧
      ¬ QuietFor sampleConfig (10 * second) (synced .error) (30 * second) := by
  refine ⟨by decide +kernel, by decide +kernel, fun h => ?_⟩
  exact absurd (h (30 * second) (by decide) (by decide)) (by decide +kernel)

end Porch.RepoController.Requeue
