import Porch.Db.Sync
import Porch.Git.Repository

/- Pushing a cached package revision to its git repository,
   `pkg/cache/dbcache/dbpushtogit.go`.

   The package revision is as it was read from the database. -/
namespace Porch.Db

open Go Git ApiUtil

variable (host : Host) (repo : GitRepository) (rules : NameRules)

/-- The key that the branch of a package revision is looked up with. -/
def branchFilter (k : PackageRevisionKey) : PackageRevisionKey where
  pkgKey := k.pkgKey
  workspaceName := k.workspaceName

/-- The API object of the package revision gives the draft its names. -/
def createGitDraft (k : PackageRevisionKey) : Proc Remote GitError GitPackageRevisionDraft :=
  createPackageRevisionDraft repo rules k.pkgKey.toPkgPathname k.workspaceName

/-- `GetOrCreateGitDraft`: the first package revision of the listing is updated. When
    there is none, and when the listing fails, a draft is created. -/
def getOrCreateGitDraft (k : PackageRevisionKey) : Proc Remote GitError GitPackageRevisionDraft := do
  match ← (Proc.query fun git =>
      Git.listPackageRevisions host repo git.refs (branchFilter k)).attempt with
  | .ok (existing :: _) => updatePackageRevision repo existing
  | _ => createGitDraft repo rules k

/-- The last part of both pushes: the resources and the lifecycle of the draft are set,
    and it is closed. -/
def writeGitDraft (d : GitPackageRevisionDraft) (pr : DbPackageRevision) :
    Proc Remote GitError Unit := do
  let d ← .query fun _ => updateDraftResources d pr.resources
  closePackageRevisionDraft host repo { d with lifecycle := pr.lifecycle } pr.pkgRevKey.revision

/-- `PushDraftPackageRevision` between the reads and writes of the database. -/
def pushDraftPackageRevision (pr : DbPackageRevision) : Proc Remote GitError Unit := do
  if isDraftOrProposed pr.lifecycle && prNeedsPushToGit pr then
    let d ← getOrCreateGitDraft host repo rules pr.pkgRevKey
    writeGitDraft host repo d pr
  else pure ()

def pushPublishedPackageRevision (pr : DbPackageRevision)
    (pushDraftsToGit existingGitBranch : Bool) : Proc Remote GitError Unit := do
  if pr.lifecycle ≠ .published then .throw .lifecycleNotPublished
  else
    let d ← if pushDraftsToGit && existingGitBranch then
        getOrCreateGitDraft host repo rules pr.pkgRevKey
      else createGitDraft repo rules pr.pkgRevKey
    writeGitDraft host repo d pr

end Porch.Db
