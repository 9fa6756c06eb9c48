import Porch.Lts.Program
import Porch.RepoController.Decision

/- The reconcile loop of the controller of repositories, and what its background syncs do.

     repository_controller.go  reconcile, performOpenOnly, performHealthCheckSync,
                               performFullSync, ensureFinalizer
     deletion.go               handleDeletion
     status.go                 updateRepoStatusWithBackoff
     sync.go                   handleSync

   Every read, write and other answer from outside is a call. The object in hand is a value:
   the patch of the finalizer answers with the object as it is then stored, while the status
   is applied with an object of its own. A status is retried on conflicts, which is one call
   here. A panic in a background sync is a failure of it. Logs and the times of the next
   sync that only a log shows are left out. -/
namespace Porch.RepoController

open Go

structure Result where
  requeue : Bool := false
  requeueAfter : Time := 0
deriving DecidableEq, Repr

inductive Call where
  | get
  | patchFinalizer
  /-- `List`, `CloseRepository` and `Update` of a deletion. -/
  | listRepositories
  | closeRepository
  | removeFinalizer
  | now
  /-- The clock and `coldStartRepos`, as a decision about the object reads them. -/
  | decisionInputs (repo : Repository)
  | storeColdStart
  | patchStatus (status : ApiStatus)
  | checkRepositoryConnectivity (repo : Repository)
  | openRepository (repo : Repository)
  /-- A place in `syncLimiter` is taken, if there is one, and given back. -/
  | takeSlot
  | giveSlot
  /-- `go`: a background sync of the object. -/
  | goSync (repo : Repository)
deriving DecidableEq, Repr

/-- What a call is answered by; the calls that can fail answer with their error. -/
abbrev Answer : Call → Type
  | .get => Except Str (Option Repository)
  | .patchFinalizer => Except Str Repository
  | .now => Time
  | .decisionInputs _ => Time × Bool
  | .takeSlot => Bool
  | .storeColdStart | .giveSlot | .goSync _ => Unit
  /- An error comes with whether the time of the deletion was up. -/
  | .listRepositories => Option (Str × Bool)
  | .closeRepository | .removeFinalizer | .patchStatus _
  | .checkRepositoryConnectivity _ | .openRepository _ => Option Str

abbrev Reconciler := Lts.Prog Call Answer

def call (e : Call) : Reconciler (Answer e) := Lts.Prog.perform e

abbrev Outcome := Except Str Result

/-- The reconcile ends and asks for another one after a while. -/
def requeueAfter (t : Time) : Outcome := .ok { requeueAfter := t }

/-- The status that is applied: a new condition, and the other fields as they are in hand. -/
def statusPatch (now : Time) (repo : Repository) (status : RepositoryStatus) (err : Option Str) :
    ApiStatus :=
  { repo.status with condition := some (buildRepositoryCondition now repo status (err.getD [])) }

theorem statusPatch_ready (now : Time) (repo : Repository) (status : RepositoryStatus) (err : Option Str) :
    (statusPatch now repo status err).condition.any (·.status) = decide (status = .ready) := by
  cases status <;> rfl

theorem statusPatch_error (now : Time) (repo : Repository) (status : RepositoryStatus) (err : Option Str) :
    (statusPatch now repo status err).condition.any (·.isFalse .error) = decide (status = .error) := by
  cases status <;> rfl

def updateRepoStatusWithBackoff (repo : Repository) (status : RepositoryStatus)
    (syncError : Option Str) : Reconciler (Option Str) := do
  let now ← call .now
  call (.patchStatus (statusPatch now repo status syncError))

variable (cfg : Config)

def ensureFinalizer (repo : Repository) : Reconciler (Except Str Repository) :=
  if repo.finalizer then pure (.ok repo) else call .patchFinalizer

/-- The cache is closed and the finalizer removed. -/
def closeAndRelease : Reconciler Outcome := do
  match ← call .closeRepository with
  | some _ => pure (requeueAfter minute)
  | none =>
    match ← call .removeFinalizer with
    | some err => pure (.error err)
    | none => pure (.ok {})

def handleDeletion : Reconciler Outcome := do
  match ← call .listRepositories with
  | some (err, timedOut) => pure (if timedOut then requeueAfter minute else .error err)
  | none => closeAndRelease

/-! The operations -/

/-- The background sync is started, or the error of a full limiter is reported. -/
def launchSync (repo : Repository) : Reconciler Outcome := do
  if ← call .takeSlot then
    call (.goSync repo)
    pure (requeueAfter cfg.healthCheckFrequency)
  else
    let _ ← updateRepoStatusWithBackoff repo .error (some "sync capacity exceeded, retrying after 30s")
    pure (requeueAfter (30 * second))

def performFullSync (repo : Repository) : Reconciler Outcome := do
  match ← updateRepoStatusWithBackoff repo .syncInProgress none with
  | some err => pure (.error err)
  | none => launchSync cfg repo

/-- A check or an open has failed: the error is reported. -/
def reportFailure (repo : Repository) (err : Str) (retryInterval : Time) : Reconciler Outcome := do
  let _ ← updateRepoStatusWithBackoff repo .error (some err)
  pure (requeueAfter retryInterval)

def minRetryInterval : Time := 30 * second

/-- A check has passed: the repository is ready again, and is synced if it was in error. -/
def recover (repo : Repository) : Reconciler Outcome := do
  let _ ← updateRepoStatusWithBackoff repo .ready none
  if inErrorState repo then performFullSync cfg repo
  else pure (requeueAfter cfg.healthCheckFrequency)

def performHealthCheckSync (repo : Repository) : Reconciler Outcome := do
  match ← call (.checkRepositoryConnectivity repo) with
  | some err => reportFailure repo err (max (determineRetryInterval err) minRetryInterval)
  | none => recover cfg repo

/-- The open of a cold start, after the check. -/
def openIntoCache (repo : Repository) : Reconciler Outcome := do
  match ← call (.openRepository repo) with
  | some err => reportFailure repo err (determineRetryInterval err)
  | none =>
    call .storeColdStart
    let _ ← updateRepoStatusWithBackoff repo .ready none
    pure (requeueAfter cfg.healthCheckFrequency)

def checkAndOpen (repo : Repository) : Reconciler Outcome := do
  match ← call (.checkRepositoryConnectivity repo) with
  | some err => reportFailure repo err (max (determineRetryInterval err) minRetryInterval)
  | none => openIntoCache cfg repo

def performOpenOnly (repo : Repository) : Reconciler Outcome := do
  if ← call .takeSlot then
    let outcome ← checkAndOpen cfg repo
    call .giveSlot
    pure outcome
  else
    pure (requeueAfter second)

/-! The loop -/

/-- Nothing is due: the status is written all the same. -/
def acknowledge (decision : SyncDecision) (repo : Repository) : Reconciler Outcome := do
  match ← updateRepoStatusWithBackoff repo .ready none with
  | some err => pure (.error err)
  | none =>
    if decision.useExponentialBackoff then pure (.ok { requeue := true })
    else if decision.delayBeforeNextSync ≤ 0 then pure (requeueAfter second)
    else pure (requeueAfter decision.delayBeforeNextSync)

def perform (decision : SyncDecision) (repo : Repository) : Reconciler Outcome :=
  if decision.syncNecessary = false then acknowledge decision repo
  else
    match decision.type with
    | .healthCheck => performHealthCheckSync cfg repo
    | .openOnly => performOpenOnly cfg repo
    | .fullSync => performFullSync cfg repo

def decideAndPerform (repo : Repository) : Reconciler Outcome := do
  let inputs ← call (.decisionInputs repo)
  let decided := determineSyncDecision cfg inputs.1 inputs.2 repo
  perform cfg decided.1 decided.2

def reconcileRepository (repo : Repository) : Reconciler Outcome := do
  match ← ensureFinalizer repo with
  | .error err => pure (.error err)
  | .ok repo => decideAndPerform cfg repo

def reconcile : Reconciler Outcome := do
  match ← call .get with
  | .error err => pure (.error err)
  | .ok none => pure (.ok {})
  | .ok (some repo) => if repo.deletionTimestamp then handleDeletion else reconcileRepository cfg repo

/-! The background sync -/

/-- What `syncRepository` returns: the number of packages and the commit, or an error. -/
abbrev SyncOutcome := Except Str (Nat × Str)

/-- The object of a background sync after the sync. -/
def handleSync (now : Time) (outcome : SyncOutcome) (repo : Repository) : Repository :=
  match outcome with
  | .error _ => repo
  | .ok (packageCount, commitHash) =>
    let status : ApiStatus :=
      { repo.status with
        lastFullSyncTime := some now
        observedGeneration := repo.generation
        observedRunOnceAt := repo.spec.runOnceAt
        packageCount := packageCount
        gitCommitHash := commitHash }
    let repo := { repo with status := status }
    { repo with
      status := { repo.status with nextFullSyncTime := some (calculateNextFullSyncTime cfg now repo) } }

/-! What the parts call -/

/-- The calls that neither read the object, nor apply a status, nor start a sync. -/
def Call.isPlain : Call → Bool
  | .get | .patchStatus _ | .goSync _ => false
  | _ => true

section Calls

open Lts.Prog

variable {cfg} {C : Call → Prop} {repo : Repository} (hplain : ∀ e : Call, e.isPlain = true → C e)

/-- Statuses of this kind, applied with the object in hand, are among the calls. -/
abbrev Applies (C : Call → Prop) (repo : Repository) (status : RepositoryStatus) : Prop :=
  ∀ now err, C (.patchStatus (statusPatch now repo status err))

include hplain

theorem updateRepoStatus_uses {status : RepositoryStatus} (err : Option Str)
    (hstat : Applies C repo status) :
    Uses C (fun _ _ => True) (fun _ => True) (updateRepoStatusWithBackoff repo status err) :=
  ⟨hplain _ rfl, fun now _ => ⟨hstat now err, fun _ _ => trivial⟩⟩

theorem reportFailure_uses (err : Str) (retry : Time) (herror : Applies C repo .error) :
    Uses C (fun _ _ => True) (fun _ => True) (reportFailure repo err retry) :=
  (updateRepoStatus_uses hplain _ herror).bind fun _ _ => uses_pure trivial

theorem launchSync_uses (herror : Applies C repo .error) (hsync : C (.goSync repo)) :
    Uses C (fun _ _ => True) (fun _ => True) (launchSync cfg repo) := by
  exact ⟨hplain _ rfl, fun
    | false, _ => (updateRepoStatus_uses hplain _ herror).bind fun _ _ => uses_pure trivial
    | true, _ => ⟨hsync, fun _ _ => uses_pure trivial⟩⟩

theorem performFullSync_uses (hprogress : Applies C repo .syncInProgress) (herror : Applies C repo .error)
    (hsync : C (.goSync repo)) : Uses C (fun _ _ => True) (fun _ => True) (performFullSync cfg repo) := by
  exact (updateRepoStatus_uses hplain _ hprogress).bind fun
    | some _, _ => uses_pure trivial
    | none, _ => launchSync_uses hplain herror hsync

theorem acknowledge_uses (decision : SyncDecision) (hready : Applies C repo .ready) :
    Uses C (fun _ _ => True) (fun _ => True) (acknowledge decision repo) := by
  refine (updateRepoStatus_uses hplain _ hready).bind fun
    | some _, _ => uses_pure trivial
    | none, _ => ?_
  dsimp only
  split
  · exact uses_pure trivial
  · split <;> exact uses_pure trivial

section

variable (hready : Applies C repo .ready) (herror : Applies C repo .error)
include hready herror

theorem openIntoCache_uses : Uses C (fun _ _ => True) (fun _ => True) (openIntoCache cfg repo) := by
  exact ⟨hplain _ rfl, fun
    | some err, _ => reportFailure_uses hplain err _ herror
    | none, _ => ⟨hplain _ rfl, fun _ _ =>
      (updateRepoStatus_uses hplain _ hready).bind fun _ _ => uses_pure trivial⟩⟩

theorem checkAndOpen_uses : Uses C (fun _ _ => True) (fun _ => True) (checkAndOpen cfg repo) := by
  exact ⟨hplain _ rfl, fun
    | some err, _ => reportFailure_uses hplain err _ herror
    | none, _ => openIntoCache_uses hplain hready herror⟩

theorem performOpenOnly_uses :
    Uses C (fun _ _ => True) (fun _ => True) (performOpenOnly cfg repo) := by
  refine ⟨hplain _ rfl, fun | false, _ => uses_pure trivial | true, _ => ?_⟩
  show Uses _ _ _ (checkAndOpen cfg repo >>= fun outcome => call .giveSlot >>= fun _ => pure outcome)
  exact (checkAndOpen_uses hplain hready herror).bind fun _ _ =>
    ⟨hplain _ rfl, fun _ _ => uses_pure trivial⟩

end

theorem handleDeletion_uses : Uses C (fun _ _ => True) (fun _ => True) handleDeletion := by
  exact ⟨hplain _ rfl, fun
    | some _, _ => uses_pure trivial
    | none, _ => ⟨hplain _ rfl, fun
      | some _, _ => uses_pure trivial
      | none, _ => ⟨hplain _ rfl, fun | some _, _ | none, _ => uses_pure trivial⟩⟩⟩

end Calls

/-! The frame of a reconcile -/

section Frame

open Lts.Prog

variable {cfg} {σ : Type} {ρ : Rules Call Answer σ} {safe : σ → Call → Prop} {I : σ → Prop}
  {J H : Repository → σ → Prop}

/-- What holds after the object has been asked for: of the object, if there is one. -/
def AfterGet (I : σ → Prop) (J : Repository → σ → Prop) : Except Str (Option Repository) → σ → Prop
  | .ok (some repo) => J repo
  | .ok none | .error _ => I

/-- What holds after the finalizer has been added. -/
def AfterFinalizer (I : σ → Prop) (H : Repository → σ → Prop) : Except Str Repository → σ → Prop
  | .ok repo => H repo
  | .error _ => I

theorem afterGet_stable (hI : Stable ρ I) (hJ : ∀ repo, Stable ρ (J repo))
    (r : Except Str (Option Repository)) : Stable ρ (AfterGet I J r) :=
  match r with
  | .ok (some repo) => hJ repo
  | .ok none | .error _ => hI

theorem afterFinalizer_stable (hI : Stable ρ I) (hH : ∀ repo, Stable ρ (H repo))
    (r : Except Str Repository) : Stable ρ (AfterFinalizer I H r) :=
  match r with
  | .ok repo => hH repo
  | .error _ => hI

/-- **The rule for a reconcile.** With `J` for the object as it is read and `H` for the object that
    the decision is about, it remains to follow the decision and the deletion. -/
theorem reconcile_triple (hI : Stable ρ I) (hJ : ∀ repo, Stable ρ (J repo))
    (hJH : ∀ repo s, J repo s → H repo s) (hget : Triple ρ safe I (call .get) (AfterGet I J))
    (hfin : ∀ repo, Triple ρ safe (J repo) (call .patchFinalizer) (AfterFinalizer I H))
    (hdel : ∀ repo, Triple ρ safe (J repo) handleDeletion fun _ => I)
    (hdecide : ∀ repo, Triple ρ safe (H repo) (decideAndPerform cfg repo) fun _ => I) :
    Triple ρ safe I (reconcile cfg) fun _ => I := by
  refine hget.bind fun | .error _ | .ok none => triple_pure hI fun _ h => h | .ok (some repo) => ?_
  dsimp only
  split
  · exact hdel repo
  · refine Triple.bind (M := AfterFinalizer I H) ?_ fun read => ?_
    · unfold ensureFinalizer
      split
      · exact triple_pure (hJ repo) fun s h => hJH repo s h
      · exact hfin repo
    · cases read with
      | error err => exact triple_pure hI fun _ h => h
      | ok read => exact hdecide read

end Frame

end Porch.RepoController
