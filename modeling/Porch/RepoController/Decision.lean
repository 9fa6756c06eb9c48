import Porch.Go.Strings

/- What the controller of repositories decides, of
   `controllers/repositories/pkg/controllers/repository`.

     sync.go    determineSyncDecision, isSyncInProgress, isOneTimeSyncDue, isErrorRetryDue,
                isFullSyncDue, isHealthCheckDue, getRequeueInterval, calculateNextSyncInterval,
                determineRetryInterval, calculateNextFullSyncTime, getSyncStaleTimeout
     status.go  buildRepositoryCondition, hasSpecChanged

   Times and durations are nanoseconds. The only condition that the controller looks at and
   writes is `Ready`, so a status has at most one. A `sync` block without fields counts as
   none. One decision reads the clock once, and parsing a cron expression is a parameter. -/
namespace Porch.RepoController

open Go

abbrev Time := Int

abbrev second : Time := 1000000000

abbrev minute : Time := 60 * second

structure RepositorySpec where
  /-- Every field besides `sync`. -/
  fields : Str
  schedule : Str := []
  runOnceAt : Option Time := none
deriving DecidableEq, Repr

inductive Reason where
  | reconciling
  | ready
  | error
deriving DecidableEq, Repr

/-- The condition `Ready`. -/
structure Condition where
  status : Bool
  reason : Reason
  observedGeneration : Nat
  lastTransitionTime : Time
  message : Str
deriving DecidableEq, Repr

structure ApiStatus where
  condition : Option Condition := none
  lastFullSyncTime : Option Time := none
  observedGeneration : Nat := 0
  observedRunOnceAt : Option Time := none
  packageCount : Nat := 0
  gitCommitHash : Str := []
  nextFullSyncTime : Option Time := none
deriving DecidableEq, Repr

structure Repository where
  generation : Nat
  finalizer : Bool := false
  deletionTimestamp : Bool := false
  spec : RepositorySpec
  status : ApiStatus := {}
deriving DecidableEq, Repr

inductive RepositoryStatus where
  | syncInProgress
  | ready
  | error
deriving DecidableEq, Repr

structure Config where
  healthCheckFrequency : Time
  fullSyncFrequency : Time
  syncStaleTimeout : Time
  /-- `cron.ParseStandard`: the next run after a time. -/
  cron : Str → Option (Time → Time)

/-! The conditions -/

def buildRepositoryCondition (now : Time) (repo : Repository) (status : RepositoryStatus)
    (errorMsg : Str) : Condition :=
  match status with
  | .syncInProgress =>
    { status := false, reason := .reconciling, observedGeneration := repo.generation,
      lastTransitionTime := now, message := "Repository reconciliation in progress" }
  | .ready =>
    { status := true, reason := .ready, observedGeneration := repo.generation,
      lastTransitionTime := now, message := "Repository Ready" }
  | .error =>
    { status := false, reason := .error, observedGeneration := repo.generation,
      lastTransitionTime := now,
      message := if errorMsg = [] then "unknown error" else errorMsg }

def hasSpecChanged (repo : Repository) : Bool := repo.status.observedGeneration ≠ repo.generation

/-- The condition is `Ready=False` for this reason. -/
def Condition.isFalse (cond : Condition) (reason : Reason) : Bool :=
  cond.status = false ∧ cond.reason = reason

def inErrorState (repo : Repository) : Bool := repo.status.condition.any (·.isFalse .error)

def getSyncStaleTimeout (cfg : Config) : Time :=
  if 0 < cfg.syncStaleTimeout then cfg.syncStaleTimeout else 20 * minute

def isSyncInProgress (cfg : Config) (now : Time) (repo : Repository) : Bool :=
  repo.status.condition.any fun cond =>
    cond.isFalse .reconciling && decide (now - cond.lastTransitionTime ≤ getSyncStaleTimeout cfg)

def isOneTimeSyncDue (now : Time) (repo : Repository) : Bool :=
  repo.spec.runOnceAt.any fun t => decide (t < now) && decide (repo.status.observedRunOnceAt ≠ some t)

/-- The text of an error has one of these parts. -/
def containsAny (err : Str) (parts : List String) : Bool := parts.any fun p => p.toList <:+: err

def determineRetryInterval (err : Str) : Time :=
  let err := err.map Char.toLower
  if containsAny err ["no such host", "connection refused"] then 30 * second
  else if containsAny err ["authentication", "permission denied", "failed to resolve credentials",
    "resolved credentials are invalid"] then 10 * minute
  else if containsAny err ["not found", "invalid", "branch"] then 2 * minute
  else if containsAny err ["timeout", "deadline exceeded"] then minute
  else if containsAny err ["certificate", "tls", "ssl"] then 5 * minute
  else if containsAny err ["rate limit", "too many requests"] then 5 * minute
  else 30 * second

def isErrorRetryDue (now : Time) (repo : Repository) : Bool :=
  repo.status.condition.any fun cond =>
    cond.isFalse .error && decide (cond.message ≠ []) &&
      decide (determineRetryInterval cond.message ≤ now - cond.lastTransitionTime)

def isFullSyncDue (cfg : Config) (now : Time) (repo : Repository) : Bool :=
  if repo.spec.runOnceAt.any fun t => decide (now < t) then false
  else if inErrorState repo then false
  else
    match repo.status.lastFullSyncTime with
    | none => true
    | some last =>
      match if repo.spec.schedule = [] then none else cfg.cron repo.spec.schedule with
      | some next => decide (next last < now)
      | none => decide (cfg.fullSyncFrequency ≤ now - last)

def isHealthCheckDue (cfg : Config) (now : Time) (repo : Repository) : Bool :=
  if inErrorState repo then false
  else
    match repo.status.condition with
    | none => true
    | some cond => decide (cfg.healthCheckFrequency ≤ now - cond.lastTransitionTime)

/-! When to look again -/

/-- How long until the next full sync, by the schedule or by the frequency. -/
def nextFullSyncInterval (cfg : Config) (now : Time) (repo : Repository) : Time :=
  let byFrequency :=
    match repo.status.lastFullSyncTime with
    | none => cfg.fullSyncFrequency
    | some last =>
      if cfg.fullSyncFrequency - (now - last) ≤ 0 then cfg.fullSyncFrequency
      else cfg.fullSyncFrequency - (now - last)
  match if repo.spec.schedule = [] then none else cfg.cron repo.spec.schedule with
  | none => byFrequency
  | some next =>
    let scheduled := next (repo.status.lastFullSyncTime.getD now) - now
    if 0 < scheduled ∧ scheduled < byFrequency then scheduled else byFrequency

def calculateNextSyncInterval (cfg : Config) (now : Time) (repo : Repository) : Time :=
  match repo.spec.runOnceAt.filter fun t => decide (now < t) with
  | some t => t - now
  | none =>
    match repo.status.condition with
    | none => cfg.healthCheckFrequency
    | some cond =>
      if repo.spec.runOnceAt ≠ none then second
      else
        let elapsed := now - cond.lastTransitionTime
        let nextHealthCheck :=
          if cfg.healthCheckFrequency - elapsed ≤ 0 then cfg.healthCheckFrequency
          else cfg.healthCheckFrequency - elapsed
        min nextHealthCheck (nextFullSyncInterval cfg now repo)

def getRequeueInterval (cfg : Config) (now : Time) (repo : Repository) : Time :=
  match repo.status.condition.filter (·.isFalse .error) with
  | some cond => if cond.message ≠ [] then determineRetryInterval cond.message else 30 * second
  | none => calculateNextSyncInterval cfg now repo

def calculateNextFullSyncTime (cfg : Config) (now : Time) (repo : Repository) : Time :=
  match if repo.spec.schedule = [] then none else cfg.cron repo.spec.schedule with
  | some next => next (repo.status.lastFullSyncTime.getD now)
  | none => now + cfg.fullSyncFrequency

/-! The decision -/

inductive OperationType where
  | healthCheck
  | fullSync
  | openOnly
deriving DecidableEq, Repr

structure SyncDecision where
  type : OperationType
  syncNecessary : Bool
  useExponentialBackoff : Bool := false
  delayBeforeNextSync : Time := 0
deriving DecidableEq, Repr

/-- The operation that is due, and the object with the generation that it acknowledges; `seen`
    says that the repository has been opened since the controller started. -/
def determineSyncDecision (cfg : Config) (now : Time) (seen : Bool) (repo : Repository) :
    SyncDecision × Repository :=
  if isSyncInProgress cfg now repo then
    (⟨.healthCheck, false, true, 0⟩, repo)
  else if !seen && repo.status.lastFullSyncTime.isSome && !hasSpecChanged repo &&
      !isOneTimeSyncDue now repo then
    (⟨.openOnly, true, false, 0⟩, repo)
  else if isOneTimeSyncDue now repo then
    (⟨.fullSync, true, false, 0⟩, repo)
  else if hasSpecChanged repo then
    if repo.spec.runOnceAt ≠ repo.status.observedRunOnceAt then
      let repo := { repo with status := { repo.status with observedGeneration := repo.generation } }
      (⟨.healthCheck, false, false, getRequeueInterval cfg now repo⟩, repo)
    else
      (⟨.fullSync, true, false, 0⟩, repo)
  else if isErrorRetryDue now repo then
    (⟨.healthCheck, true, false, 0⟩, repo)
  else if isFullSyncDue cfg now repo then
    (⟨.fullSync, true, false, 0⟩, repo)
  else if isHealthCheckDue cfg now repo then
    (⟨.healthCheck, true, false, 0⟩, repo)
  else
    (⟨.healthCheck, false, false, getRequeueInterval cfg now repo⟩, repo)

end Porch.RepoController
