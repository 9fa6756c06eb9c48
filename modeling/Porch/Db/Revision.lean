import Porch.Db.Store

/- The methods of `dbPackageRevision` that write the database. A method works on the
   database and on its receiver, which keeps what the method has assigned to it also
   when the method fails.

     publishPR, publishPlaceholderPRForPR  publishPRUnder, publishPlaceholderPRForPRUnder
     UpdateLifecycle, ...OnPublishedPR     updateLifecycle, updateLifecycleOnPublishedPR

   `push` stands for `PushPublishedPackageRevision`, which writes the external
   repository only and returns the commit it made; `now` is the clock of the call.
   Notifications to watchers are left out. The database may also refuse a call of a
   publish for reasons of its own: `Faults` says which of them get such an answer. -/
namespace Porch.Db

open Go Sql

abbrev Method (α : Type) := Proc (Database × DbPackageRevision) CacheError α

def unpushedGitCommit : Str := "not-pushed"

def hasBeenPushedToGit (pr : DbPackageRevision) : Bool :=
  pr.lastPushedDbUpdated.isSome || (pr.extCommit ≠ [] && pr.extCommit ≠ unpushedGitCommit)

/-- `prNeedsPushToGit`, and `dbContentChangedSincePush`, which is the same. -/
def prNeedsPushToGit (pr : DbPackageRevision) : Bool :=
  match pr.lastPushedDbUpdated with
  | none => true
  | some t => t ≠ pr.updated

def preservePushMarkersIfUnset (pr existing : DbPackageRevision) : DbPackageRevision :=
  if pr.lastPushedDbUpdated.isSome || existing.lastPushedDbUpdated.isNone then pr
  else
    { pr with
      lastPushedDbUpdated := existing.lastPushedDbUpdated
      extCommit := if pr.extCommit = unpushedGitCommit then existing.extCommit else pr.extCommit }

/-- `savePackageRevision` of a package revision. -/
def savePackageRevision (now : Nat) (saveResources : Bool) : Method Unit := do
  .assign fun pr => if saveResources && pr.deployment then { pr with updated := now } else pr
  let pr ← .this
  match ← (Proc.onFst (pkgRevReadFromDB pr.pkgRevKey false)).attempt with
  | .ok existing =>
    .assign fun pr => preservePushMarkersIfUnset pr existing
    let pr ← .this
    .onFst (pkgRevUpdateDB pr saveResources)
  | .error .noRows => .onFst (pkgRevWriteToDB pr)
  | .error e => .throw e

/-- The receiver takes the push markers of the stored row if it has none. -/
def preserveFromDB : Method Unit := do
  let pr ← .this
  match ← (Proc.onFst (pkgRevReadFromDB pr.pkgRevKey false)).attempt with
  | .ok existing => .assign fun pr => preservePushMarkersIfUnset pr existing
  | .error .noRows => pure ()
  | .error e => .throw e

def setMeta (labels : Labels) : Method Unit := do
  .assign fun pr => { pr with labels := labels }
  preserveFromDB
  let pr ← .this
  .onFst (pkgRevUpdateDB pr false)

/-- The workspace of the placeholder: the repository's branch, or `main`. -/
def placeholderWorkspace (k : RepositoryKey) : Str :=
  if k.placeholderWSname = [] then "main" else k.placeholderWSname

/-- The key of the placeholder of a package. -/
def placeholderKey (pk : PackageKey) : PackageRevisionKey where
  pkgKey := pk
  revision := -1
  workspaceName := placeholderWorkspace pk.repoKey

def toMainPackageRevision (now : Nat) (pr : DbPackageRevision) : DbPackageRevision where
  pkgRevKey := placeholderKey pr.pkgRevKey.pkgKey
  updated := now
  lifecycle := pr.lifecycle
  extCommit := pr.extCommit
  deployment := pr.deployment
  tasks := pr.tasks
  kptfile := pr.kptfile
  resources := pr.resources

def setRevision (n : Int) (pr : DbPackageRevision) : DbPackageRevision :=
  { pr with pkgRevKey := { pr.pkgRevKey with revision := n } }

/-- `updateLifecycleOnPublishedPR`: a published object left with revision 0 by a
    failed publish takes its revision from the database. -/
def updateLifecycleOnPublishedPR (now : Nat) (newLifecycle : Lifecycle) : Method Unit := do
  let pr ← .this
  if pr.pkgRevKey.revision = 0 then
    let persisted ← .onFst (pkgRevReadFromDB pr.pkgRevKey false)
    if persisted.pkgRevKey.revision ≤ 0 then .throw .notPublishedRevision
    else .assign (setRevision persisted.pkgRevKey.revision)
  .assign fun pr => { pr with lifecycle := newLifecycle }
  savePackageRevision now false

/-! Publishing -/

structure Faults where
  latest : Option CacheError := none
  update : Option CacheError := none
  resources : Option CacheError := none
  placeholder : Option CacheError := none

def orFault {α : Type} (fault : Option CacheError) (x : Method α) : Method α :=
  match fault with
  | none => x
  | some e => .throw e

section Under

variable (push : Database → DbPackageRevision → Except CacheError Str) (faults : Faults) (now : Nat)

/-- `publishPlaceholderPRForPR`. The two branches of the source for revision 1 and
    above differ in the notification only. -/
def publishPlaceholderPRForPRUnder : Method Unit := do
  let pr ← .this
  let prWithResources ←
    if pr.resources = [] then
      orFault faults.resources (.onFst (pkgRevReadFromDB pr.pkgRevKey true))
    else pure pr
  if 1 ≤ prWithResources.pkgRevKey.revision then
    orFault faults.placeholder
      (.onFst (pkgRevUpdateDB (toMainPackageRevision now prWithResources) true))

/-- `publishPR` after the push. -/
def storePublished : Method Unit := do
  let pr ← .this
  orFault faults.update (.onFst (pkgRevUpdateDB pr false))
  .assign fun pr => { pr with latest := true }
  publishPlaceholderPRForPRUnder faults now

def publishPRUnder (newLifecycle : Lifecycle) : Method Unit := do
  let pr ← .this
  let latestRev ← orFault faults.latest (.onFst (pkgRevGetlatestRevFromDB pr.pkgRevKey.pkgKey))
  .assign fun pr => { setRevision (latestRev + 1) pr with lifecycle := newLifecycle }
  let pr ← .this
  match ← (Proc.onFst (.query fun db => push db pr)).attempt with
  | .error e =>
    .assign fun pr => { setRevision 0 pr with lifecycle := .proposed }
    .throw e
  | .ok commit =>
    .assign fun pr => { pr with extCommit := commit, lastPushedDbUpdated := some pr.updated }
    storePublished faults now

def updateLifecycleUnder (opened : RepositoryKey → Bool) (newLifecycle : Lifecycle) :
    Method Unit := do
  let pr ← .this
  if ¬ opened pr.pkgRevKey.pkgKey.repoKey then .throw .noRepository
  else if pr.lifecycle = .proposed ∧ newLifecycle = .published then
    match ← (publishPRUnder push faults now newLifecycle).attempt with
    | .error e =>
      .assign (setRevision 0)
      .throw e
    | .ok _ => .assign fun pr => { pr with lifecycle := newLifecycle }
  else if lifecycleIsPublished pr.lifecycle then updateLifecycleOnPublishedPR now newLifecycle
  else .assign fun pr => { pr with lifecycle := newLifecycle }

end Under

/-- `UpdateLifecycle`, where the database refuses no call. -/
def updateLifecycle (push : Database → DbPackageRevision → Except CacheError Str)
    (opened : RepositoryKey → Bool) (now : Nat) (newLifecycle : Lifecycle) : Method Unit :=
  updateLifecycleUnder push {} now opened newLifecycle

end Porch.Db
