import Porch.Db.Sync

/- Editing a draft in the database and pushing it in the background, of
   `pkg/cache/dbcache/dbrepository.go`, `dbpackagerevision.go` and `dbpushtogit.go`.

     PushDraftPackageRevision  pushDraftToGit

   The lock of the package is held by each of these but `UpdateResources`, which
   touches its object only. Who the user is, what `spec` takes from the Kptfile and the
   size of the resources are left out. -/
namespace Porch.Db

open Go Sql

def copyToThis (pr other : DbPackageRevision) : DbPackageRevision :=
  { pr with
    pkgRevKey := other.pkgRevKey
    updated := other.updated
    lifecycle := other.lifecycle
    tasks := other.tasks
    resources := other.resources
    lastPushedDbUpdated := other.lastPushedDbUpdated }

/-- `dbRepository.UpdatePackageRevision`: opens a package revision as a draft. -/
def DbRepository.updatePackageRevision (now : Nat) : Method Unit := do
  let pr ← .this
  let readPr ← .onFst (pkgRevReadFromDB pr.pkgRevKey true)
  .assign fun pr => copyToThis pr readPr
  preserveFromDB
  .assign fun pr => { pr with updated := now }

/-- `UpdateResources`. `change` is a task that may be the first of a package revision. -/
def DbPackageRevision.updateResources (new : Resources) (change : Option Str)
    (pr : DbPackageRevision) : DbPackageRevision :=
  { pr with
    resources := new
    resourcesDirty := true
    kptfile := kptfileOf new
    tasks := change.getD pr.tasks }

variable (repo : DbRepository) (opened : RepositoryKey → Bool)

/-- `dbRepository.savePackageRevision` as a method of the package revision, which also
    keeps what a failed call has assigned to it. -/
def DbRepository.save (now : Nat) (saveResources : Bool) : Method Unit := do
  let d ← .this
  .onFst (savePackageIfNew opened d.pkgRevKey.pkgKey)
  Porch.Db.savePackageRevision now saveResources
  .onFst (repoUpdateDB repo.repoKey repo.deployment)

theorem DbRepository.savePackageRevision_eq_save (now : Nat) (d : DbPackageRevision) (b : Bool)
    (db : Database) :
    (repo.savePackageRevision opened now d b db).2 = (repo.save opened now b (db, d)).2.1 := by
  simp only [DbRepository.savePackageRevision, DbRepository.save, bind, Proc.bind, Proc.this,
    Proc.onFst, Proc.call]
  rcases savePackageIfNew opened d.pkgRevKey.pkgKey db with ⟨_ | _, db₁⟩
  · rfl
  · rcases hsave : Porch.Db.savePackageRevision now b (db₁, d) with ⟨_ | _, db₂, d₂⟩
    · simp only [hsave, Except.map]
    · simp only [hsave, Except.map]
      rcases repoUpdateDB repo.repoKey repo.deployment db₂ with ⟨_ | _, db₃⟩ <;> rfl

def DbRepository.savePackageRevisionDraft (now : Nat) : Method Unit := do
  let d ← .this
  repo.save opened now d.resourcesDirty

def DbRepository.closePackageRevisionDraft (now : Nat) : Method Unit :=
  repo.savePackageRevisionDraft opened now

/-- The object that `CreatePackageRevisionDraft` makes. -/
def DbRepository.newDraft (now : Nat) (packageName workspaceName : Str) (labels : Labels)
    (tasks : Str) : DbPackageRevision where
  pkgRevKey := { pkgKey := fromFullPathname repo.repoKey packageName, workspaceName := workspaceName }
  labels := labels
  updated := now
  lifecycle := .draft
  extCommit := unpushedGitCommit
  deployment := repo.deployment
  tasks := tasks

def DbRepository.createPackageRevisionDraft (now : Nat) (packageName workspaceName : Str)
    (labels : Labels) (tasks : Str) : Proc Database CacheError DbPackageRevision :=
  (repo.savePackageRevisionDraft opened now).call
    (repo.newDraft now packageName workspaceName labels tasks)

/-! Pushing -/

/-- The UPDATE of `pkgRevSetLastPushedInDB`: the row has to be unpublished and as it
    was read. -/
def setLastPushed (k : Str × Str) (commit : Str) (expectedUpdated : Nat) (t : PkgRevTable) :
    Except DbError PkgRevTable :=
  match t.lookup k with
  | none => .ok t
  | some old =>
    if old.updated = expectedUpdated ∧ ¬ lifecycleIsPublished old.lifecycle then
      overwriteRow t old { old with extCommit := commit, lastPushedDbUpdated := some expectedUpdated }
    else .ok t

def pkgRevSetLastPushedInDB (prk : PackageRevisionKey) (commit : Str) (expectedUpdated : Nat) :
    Proc Database CacheError Unit :=
  pkgRevStmt fun db => setLastPushed (dbKey prk) commit expectedUpdated db.pkgRevs

/-- How the external repository ends a push. -/
inductive PushOutcome where
  | refused
  /-- Taken, and the database can or cannot be reached afterwards. -/
  | taken (commit : Str) (reachable : Bool)
deriving DecidableEq, Repr

/-- A git repository takes packages with a Kptfile only. -/
def includesKptfile (resources : Resources) : Bool := resources.any fun f => f.1 = "Kptfile"

/-- `PushDraftPackageRevision`, on the database and the content of the draft in git. -/
def pushDraftToGit (prk : PackageRevisionKey) (outcome : PushOutcome) (db : Database)
    (git : Option Resources) : Database × Option Resources :=
  match pkgRevReadFromDB prk true db with
  | (.error _, _) => (db, git)
  | (.ok pr, _) =>
    if isDraftOrProposed pr.lifecycle && prNeedsPushToGit pr && includesKptfile pr.resources then
      match outcome with
      | .refused => (db, git)
      | .taken commit reachable =>
        (if reachable then (pkgRevSetLastPushedInDB prk commit pr.updated db).2 else db,
          some pr.resources)
    else (db, git)

end Porch.Db
