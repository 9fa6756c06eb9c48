import Porch.K8s.Apply
import Porch.Lts.Run
import Porch.PrController.Object
import Porch.PrController.Siblings

/- The placeholder of the main branch, which follows the published revisions of a package.

     packagerevision_controller.go  reconcileLifecycle, updateStatus
     mainrevision.go                createMainPackageRevision, patchMainSpecMetadata, patchMainStatus
     ownership.go                   handleDeletion
     contentcache.go                updateLifecycle, getMainPackageContent
     packagerevision_webhook.go     mayBecome, the guard of `delete`

   The revisions of one package of a repository. The users take one action after another, and
   each is reconciled to its end: a reconcile is one step, with the failures of its calls as its
   outcome, and it comes again as long as it asks for it. Every read is current. What the
   placeholder carries is applied by several managers: the create, the two managers of the
   refresh, and the reconcile of the placeholder itself. The sub-fields of a lock have their
   owners each. Where the cache is not the database the lock of the placeholder has the
   registered branch for its reference.

   The refresh is made on two branches of `reconcileLifecycle`, and only one of them asks whether
   the revision is the latest (`older_revision_on_main`). -/
namespace Porch.PrController.MainRevision

open Go K8s

/-- The field managers of the placeholder: the create, `packagerev-controller-main-meta`,
    `packagerev-controller-main` and `packagerev-controller`. -/
inductive Manager where
  | create
  | mainMeta
  | main
  | controller
deriving DecidableEq, Repr

/-- A numbered revision, or one that is on its way to become one: the object, and what the cache
    has stored of it. -/
structure Revision where
  name : Str
  lifecycle : Lifecycle
  deletionTimestamp : Bool := false
  /-- `status.revision` -/
  statusRevision : Nat := 0
  labels : Labels := []
  annotations : Labels := []
  readinessGates : List Str := []
  stored : Lifecycle
  revision : Nat := 0
  upstreamLock : Option Locator := none
  selfLock : Option Locator := none
deriving DecidableEq, Repr

structure Main where
  lifecycle : Lifecycle
  deletionTimestamp : Bool := false
  labels : FieldMap Str Manager Str
  annotations : FieldMap Str Manager Str
  readinessGates : Field Manager (List Str)
  upstreamLock : FieldMap Str Manager Str := []
  selfLock : FieldMap Str Manager Str := []

/-- The locks that the cache has of the placeholder. -/
structure Locks where
  upstreamLock : Option Locator
  selfLock : Option Locator
deriving DecidableEq, Repr

/-- The sub-fields of a lock on git that are not empty. -/
def lockFields (lock : Option Locator) : Labels :=
  let fields : Locator → Labels := fun lock =>
    [("type", "git"), ("git.repo", lock.repo), ("git.directory", lock.directory),
      ("git.ref", lock.ref), ("git.commit", lock.commit)]
  (lock.elim [] fields).filter (·.2 ≠ [])

/-- Where the package revisions of the repository are cached. -/
inductive Backend where
  | database
  | git (branch : Str)
deriving DecidableEq, Repr

structure State where
  backend : Backend := .database
  revisions : List Revision := []
  main : Option Main := none
  mainContent : Option Locks := none
  /-- The revision whose reconcile is queued. -/
  queue : Option Str := none

/-- A list that is left out when it is empty. -/
def omitEmpty (gates : List Str) : Option (List Str) := if gates = [] then none else some gates

/-! The placeholder -/

namespace Main

/-- The object that `createMainPackageRevision` creates. -/
def new (pr : Revision) : Main where
  lifecycle := .published
  labels := FieldMap.create .create pr.labels
  annotations := FieldMap.create .create pr.annotations
  readinessGates := Field.create .create (omitEmpty pr.readinessGates)

def patchMainSpecMetadata (main : Main) (pr : Revision) : Main :=
  { main with
    labels := main.labels.apply .mainMeta pr.labels
    annotations := main.annotations.apply .mainMeta pr.annotations
    readinessGates := main.readinessGates.apply .mainMeta (omitEmpty pr.readinessGates) }

def applyLocks (main : Main) (manager : Manager) (locks : Locks) : Main :=
  { main with
    upstreamLock := main.upstreamLock.apply manager (lockFields locks.upstreamLock)
    selfLock := main.selfLock.apply manager (lockFields locks.selfLock) }

end Main

def Revision.locks (pr : Revision) : Locks := ⟨pr.upstreamLock, pr.selfLock⟩

/-- The locks of the placeholder that `ToMainPackageRevision` derives from a revision. -/
def Backend.mainLocks (pr : Revision) : Backend → Locks
  | database => pr.locks
  | git branch => { pr.locks with selfLock := pr.selfLock.map ({ · with ref := branch }) }

def Main.patchMainStatus (main : Main) (locks : Locks) : Main := main.applyLocks .main locks

/-! The reconcile of a revision -/

/-- An error, by what the reconcile does about it. -/
inductive Failure where
  | transient
  | terminal
deriving DecidableEq, Repr

/-- How the calls of a reconcile end: the fields name those that fail. -/
structure Outcome where
  getPackageContent : Option Failure := none
  /-- The render guard blocks the transition. -/
  renderGuard : Bool := false
  updateLifecycle : Option Failure := none
  /-- The lock that the published package has in git. -/
  lock : Locator
  updateStatus : Bool := false
  updateLatestRevisionLabels : Bool := false
  getMain : Bool := false
  createMain : Bool := false
  patchMainSpecMetadata : Bool := false
  patchMainStatus : Bool := false
  deleteFromGit : Bool := false
  patchFinalizer : Bool := false
deriving DecidableEq, Repr

def Revision.sibling (r : Revision) : Sibling := ⟨r.name, r.deletionTimestamp, r.lifecycle, r.statusRevision⟩

namespace State

variable (st : State)

def find (name : Str) : Option Revision := st.revisions.find? (·.name = name)

def update (name : Str) (f : Revision → Revision) : State :=
  { st with revisions := st.revisions.map fun r => if r.name = name then f r else r }

def done : State := { st with queue := none }

def withMain (main : Main) : State := { st with main := some main }

/-- The number of the next revision: one more than the latest. -/
def nextRevision : Nat := (st.revisions.map (·.revision)).foldr max 0 + 1

/-- What the list of the package revisions of the package shows. The placeholder is one of them. -/
def siblings : List Sibling :=
  st.revisions.map Revision.sibling ++
    st.main.toList.map fun main => ⟨"main", main.deletionTimestamp, main.lifecycle, -1⟩

end State

/-- The number is written to the status of what is published. -/
def Revision.withStatus (r : Revision) : Revision :=
  { r with statusRevision := if lifecycleIsPublished r.stored then r.revision else r.statusRevision }

/-- The errors of `updateStatus` are only logged. -/
def updateStatus (o : Outcome) (name : Str) (st : State) : State :=
  if o.updateStatus then st else st.update name Revision.withStatus

/-- Returns whether it succeeds. `pr` is the revision with what the cache has stored of it. -/
def createMainPackageRevision (o : Outcome) (pr : Revision) (st : State) : Bool × State :=
  if o.getMain then (false, st)
  else
    match st.main with
    | some main =>
      if main.deletionTimestamp ∨ main.lifecycle ≠ .published then (true, st)
      else if o.patchMainSpecMetadata then (false, st)
      else if o.patchMainStatus then (false, st.withMain (main.patchMainSpecMetadata pr))
      else (true, st.withMain ((main.patchMainSpecMetadata pr).patchMainStatus (st.backend.mainLocks pr)))
    | none =>
      if o.createMain then (false, st)
      else if o.patchMainStatus then (false, st.withMain (Main.new pr))
      else (true, st.withMain ((Main.new pr).patchMainStatus (st.backend.mainLocks pr)))

/-- The revision as it is stored when it is published. -/
def Revision.publishedAs (r : Revision) (n : Nat) (lock : Locator) : Revision :=
  { r with stored := .published, revision := n, selfLock := some lock }

/-- `UpdateLifecycle` of the cache: what is approved gets its number and its place in git, and
    the placeholder in the cache is derived from it. -/
def updateLifecycle (o : Outcome) (pr : Revision) (st : State) : State :=
  if pr.stored = .proposed ∧ pr.lifecycle = .published then
    { st.update pr.name (·.publishedAs st.nextRevision o.lock) with
      mainContent := some (st.backend.mainLocks (pr.publishedAs st.nextRevision o.lock)) }
  else st.update pr.name fun r => { r with stored := pr.lifecycle }

/-- The branch of `reconcileLifecycle` for a lifecycle that is the desired one. -/
def refresh (o : Outcome) (pr : Revision) (st : State) : State :=
  let st := updateStatus o pr.name st
  if lifecycleIsPublished pr.lifecycle then
    if o.updateLatestRevisionLabels then st
    else if Sibling.latestName pr.sibling st.siblings = some pr.name then
      let (ok, st) := createMainPackageRevision o pr st
      if ok then st.done else st
    else st.done
  else st.done

/-- What follows on a transition. An error of `createMainPackageRevision` is only logged. -/
def afterTransition (o : Outcome) (pr : Revision) (st : State) : State :=
  let st := updateStatus o pr.name st
  if lifecycleIsPublished pr.lifecycle then
    match st.find pr.name with
    | some pr => (createMainPackageRevision o pr st).2
    | none => st
  else st.done

/-- The branch of `reconcileLifecycle` for a transition. -/
def transition (o : Outcome) (pr : Revision) (st : State) : State :=
  if (pr.lifecycle = .published ∨ pr.lifecycle = .proposed) ∧ o.renderGuard then updateStatus o pr.name st
  else
    match o.updateLifecycle with
    | some .transient => st
    | some .terminal => st.done
    | none => afterTransition o pr (updateLifecycle o pr st)

def reconcileLifecycle (o : Outcome) (pr : Revision) (st : State) : State :=
  match o.getPackageContent with
  | some .transient => st
  | some .terminal => st.done
  | none => if pr.stored = pr.lifecycle then refresh o pr st else transition o pr st

/-- The deletion of a revision that is not published, or is proposed for deletion. -/
def handleDeletion (o : Outcome) (pr : Revision) (st : State) : State :=
  if o.deleteFromGit ∨ o.updateLatestRevisionLabels ∨ o.patchFinalizer then st
  else { st.done with revisions := st.revisions.filter (·.name ≠ pr.name) }

def reconcile (o : Outcome) (pr : Revision) (st : State) : State :=
  if pr.deletionTimestamp then handleDeletion o pr st else reconcileLifecycle o pr st

/-! The actions of the users -/

/-- The transitions that the webhook admits. -/
def mayBecome : Lifecycle → Lifecycle → Bool
  | .draft, .proposed | .proposed, .draft | .proposed, .published => true
  | .published, .deletionProposed | .deletionProposed, .published => true
  | _, _ => false

inductive Event where
  /-- A revision is proposed, with what its users and its content have made of it. -/
  | propose (pr : Revision)
  | setLifecycle (name : Str) (lifecycle : Lifecycle)
  | delete (name : Str)
  | reconcile (o : Outcome)
  /-- The placeholder is reconciled itself. -/
  | reconcileMain
  | setMainLifecycle (lifecycle : Lifecycle)
  | deleteMain
deriving Repr

namespace State

def proposed (pr : Revision) : Revision :=
  { pr with
    lifecycle := .proposed
    stored := .proposed
    deletionTimestamp := false
    statusRevision := 0
    revision := 0 }

/-- An action on a revision, which queues its reconcile. -/
def act (st : State) (name : Str) (may : Revision → Bool) (f : Revision → Revision) : Option State :=
  match st.find name with
  | some pr =>
    if st.queue = none ∧ may pr then some { st.update name f with queue := some name } else none
  | none => none

def step (st : State) : Event → Option State
  | .propose pr =>
    if st.queue = none ∧ (st.find pr.name).isNone then
      some { st with revisions := proposed pr :: st.revisions }
    else none
  | .setLifecycle name lifecycle =>
    st.act name (fun pr => mayBecome pr.lifecycle lifecycle) fun pr => { pr with lifecycle := lifecycle }
  | .delete name =>
    st.act name (fun pr => pr.lifecycle ≠ .published) fun pr => { pr with deletionTimestamp := true }
  | .reconcile o =>
    match st.queue.bind st.find with
    | some pr => some (MainRevision.reconcile o pr st)
    | none => none
  | .reconcileMain =>
    match st.main, st.mainContent with
    | some main, some locks => some (st.withMain (main.applyLocks .controller locks))
    | _, _ => none
  | .setMainLifecycle lifecycle => st.main.map fun main => st.withMain { main with lifecycle := lifecycle }
  | .deleteMain => st.main.map fun _ => { st with main := none }

end State

/-! What the placeholder is to carry -/

def Revision.numbered (r : Revision) : Bool := lifecycleIsPublished r.lifecycle && 0 < r.statusRevision

/-- The numbered published revision with the greatest number. -/
@[mk_iff]
structure Greatest (st : State) (r : Revision) : Prop where
  mem : r ∈ st.revisions
  numbered : r.numbered = true
  greatest : ∀ r' ∈ st.revisions, r'.numbered = true → r'.statusRevision ≤ r.statusRevision

/-- The package metadata, the readiness gates and the locks are those of the revision. -/
structure Matches (main : Main) (r : Revision) : Prop where
  labels : ∀ k, (main.labels.get k).value = r.labels.lookup k
  annotations : ∀ k, (main.annotations.get k).value = r.annotations.lookup k
  readinessGates : main.readinessGates.value = omitEmpty r.readinessGates
  upstreamLock : ∀ k, (main.upstreamLock.get k).value = (lockFields r.upstreamLock).lookup k
  selfLock : ∀ k, (main.selfLock.get k).value = (lockFields r.selfLock).lookup k

/-- The placeholder, while it is published, carries what the greatest revision carries. -/
def Tracks (st : State) : Prop :=
  ∀ r, Greatest st r → ∀ main ∈ st.main, main.lifecycle = .published → Matches main r

/-! An older revision on the placeholder -/

/-- A revision whose packages have one label. -/
def sampleRevision (name label : String) : Revision where
  name := name.toList
  lifecycle := .proposed
  labels := [("tier", label.toList)]
  stored := .proposed

def smooth : Outcome := { lock := ⟨[], [], [], []⟩ }

/-- A revision is published and reconciled to the end. -/
def publish (name label : String) : List Event :=
  [.propose (sampleRevision name label), .setLifecycle name.toList .published, .reconcile smooth,
   .reconcile smooth]

/-- Two revisions are published, and the deletion of the first one is proposed. -/
def olderProposed : List Event :=
  publish "v1" "gold" ++ publish "v2" "silver" ++
    [.setLifecycle "v1" .deletionProposed, .reconcile smooth, .reconcile smooth]

instance (st : State) (r : Revision) : Decidable (Greatest st r) :=
  decidable_of_iff _ (greatest_iff st r).symm

/-- The label of the greatest revision is not the one on the published placeholder. -/
def otherLabel (st : State) (key : Str) : Prop :=
  ∃ r ∈ st.revisions, Greatest st r ∧ ∃ main ∈ st.main,
    main.lifecycle = .published ∧ (main.labels.get key).value ≠ r.labels.lookup key

instance (st : State) (key : Str) : Decidable (otherLabel st key) := by
  unfold otherLabel
  infer_instance

/-- **The placeholder goes back to an older revision** when the deletion of that one is proposed. -/
theorem older_revision_on_main :
    ∃ es st, Lts.run State.step {} es = some st ∧ st.queue = none ∧ ¬ Tracks st := by
  obtain ⟨st, hst, hqueue, r, -, hmax, main, hmain, hpub, hother⟩ :
      ∃ st, Lts.run State.step {} olderProposed = some st ∧ st.queue = none ∧ otherLabel st "tier" := by
    decide +kernel
  exact ⟨_, st, hst, hqueue, fun htracks => hother ((htracks r hmax main hmain hpub).labels _)⟩

end Porch.PrController.MainRevision
