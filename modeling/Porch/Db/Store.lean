import Porch.Db.Schema
import Porch.Go.Proc
import Porch.Key.Types

/- The database of the cache as a whole, and the functions of `pkg/cache/dbcache`
   that read and write it. Each is a procedure over the database: a failed
   statement changes nothing, and what earlier statements of the same call have
   written stays.

     repositories, packages         RepoRow, PkgRow
     pkgRevScanRowsFromDB           scanRow, on the joined rows of joinRow
     pkgRevReadLatestPRFromDB, ...  pkgRevReadLatestPRFromDB, pkgRevGetlatestRevFromDB

   `opened` says for which keys the cache holds an open repository; package rows of
   other repositories are skipped by `pkgScanRowsFromDB`. The resources table is a
   map from the key of a package revision to its files, and time is a number. -/
namespace Porch.Db

open Go Sql

abbrev Resources := List (Str × Str)

/-- The text of the Kptfile, of which `extractKptfileStatus` is a function. -/
def kptfileOf (resources : Resources) : Option Str :=
  (resources.find? fun f => f.1 = "Kptfile".toList).map (·.2)

structure RepoRow where
  namesp : Str
  name : Str
  directory : Str := []
  defaultWsName : Str := []
  deployment : Bool := false
deriving DecidableEq, Repr

def RepoRow.key (r : RepoRow) : Str × Str := (r.namesp, r.name)

structure PkgRow where
  namesp : Str
  name : Str
  repoName : Str
  path : Str
deriving DecidableEq, Repr

def PkgRow.key (p : PkgRow) : Str × Str := (p.namesp, p.name)

structure Database where
  repositories : Table RepoRow.key := .empty
  packages : Table PkgRow.key := .empty
  pkgRevs : PkgRevTable := .empty
  resources : Str × Str → Resources := fun _ => []

inductive CacheError where
  | db (e : DbError)
  /-- `sql.ErrNoRows` -/
  | noRows
  | multipleLatest
  | immutableColumns
  | noRepository
  | notPublishedRevision
  | external
  | packageCount (n : Nat)
deriving DecidableEq, Repr

/-- The in-memory object of a package revision. -/
structure DbPackageRevision where
  pkgRevKey : PackageRevisionKey
  labels : Labels := []
  updated : Nat := 0
  lifecycle : Lifecycle
  extCommit : Str := []
  latest : Bool := false
  deployment : Bool := false
  tasks : Str := []
  /-- The Kptfile from which the field `kptfileStatus` has been extracted. -/
  kptfile : Option Str := none
  resources : Resources := []
  resourcesDirty : Bool := false
  lastPushedDbUpdated : Option Nat := none
deriving DecidableEq, Repr

/-- Namespace and object name, the key of the row. -/
def dbKey (k : PackageRevisionKey) : Str × Str := (k.pkgKey.repoKey.namesp, k.k8sName)

def pkgDbKey (k : PackageKey) : Str × Str := (k.repoKey.namesp, k.k8sName)

/-- The columns that `pkgRevWriteToDB` and `pkgRevUpdateDB` write. -/
def DbPackageRevision.row (pr : DbPackageRevision) : PkgRevRow where
  namesp := pr.pkgRevKey.pkgKey.repoKey.namesp
  name := pr.pkgRevKey.k8sName
  packageName := pr.pkgRevKey.pkgKey.k8sName
  revision := pr.pkgRevKey.revision
  labels := pr.labels
  updated := pr.updated
  lifecycle := pr.lifecycle
  extCommit := pr.extCommit
  tasks := pr.tasks
  kptfile := pr.kptfile
  lastPushedDbUpdated := pr.lastPushedDbUpdated

/-- The columns that `pkgWriteToDB` writes. -/
def pkgRow (pk : PackageKey) : PkgRow where
  namesp := pk.repoKey.namesp
  name := pk.k8sName
  repoName := pk.repoKey.name
  path := pk.path

@[simp] theorem row_key (pr : DbPackageRevision) : pr.row.key = dbKey pr.pkgRevKey := rfl

/-! Reading -/

def repoKeyOf (r : RepoRow) : RepositoryKey where
  namesp := r.namesp
  name := r.name
  path := r.directory
  placeholderWSname := r.defaultWsName

/-- The package key that `pkgScanRowsFromDB` and `pkgRevScanRowsFromDB` rebuild. -/
def pkgKeyOf (r : RepoRow) (p : PkgRow) : PackageKey where
  repoKey := repoKeyOf r
  path := p.path
  package := k8sName2PkgName p.name

/-- One row of `pkgRevScanRowsFromDB`. -/
def scanRow (r : RepoRow) (p : PkgRow) (x : PkgRevRow) : DbPackageRevision where
  pkgRevKey :=
    { pkgKey := pkgKeyOf r p
      revision := x.revision
      workspaceName := k8sName2PkgRevWSName p.name x.name }
  labels := x.labels
  updated := x.updated
  lifecycle := x.lifecycle
  extCommit := x.extCommit
  latest := x.latest
  deployment := r.deployment
  tasks := x.tasks
  kptfile := x.kptfile
  lastPushedDbUpdated := x.lastPushedDbUpdated

/-- The inner join with packages and repositories. -/
def joinPkg (db : Database) (p : PkgRow) : Option (RepoRow × PkgRow) :=
  (db.repositories.lookup (p.namesp, p.repoName)).map fun r => (r, p)

def joinRow (db : Database) (x : PkgRevRow) : Option DbPackageRevision := do
  let p ← db.packages.lookup (x.namesp, x.packageName)
  let (r, p) ← joinPkg db p
  return scanRow r p x

/-- `pkgRevReadFromDB`. The primary key gives at most one row. -/
def pkgRevReadFromDB (prk : PackageRevisionKey) (readResources : Bool) :
    Proc Database CacheError DbPackageRevision :=
  .query fun db =>
    match (db.pkgRevs.lookup (dbKey prk)).bind (joinRow db) with
    | none => .error .noRows
    | some pr =>
      .ok (if readResources then { pr with resources := db.resources (dbKey pr.pkgRevKey) } else pr)

/-- The rows of a package, joined, for the statements with
    `packages.k8s_name_space=$1 AND packages.k8s_name=$2`. -/
def packageRows (db : Database) (pk : PackageKey) : List DbPackageRevision :=
  (db.pkgRevs.rows.filter fun x => (x.namesp, x.packageName) = pkgDbKey pk).filterMap (joinRow db)

def pkgRevReadPRsFromDB (pk : PackageKey) : Proc Database CacheError (List DbPackageRevision) :=
  .query fun db => .ok (packageRows db pk)

def pkgRevReadLatestPRFromDB (pk : PackageKey) : Proc Database CacheError (Option DbPackageRevision) :=
  .query fun db =>
    match (packageRows db pk).filter fun pr => pr.latest && 0 < pr.pkgRevKey.revision with
    | [] => .ok none
    | [pr] => .ok (some pr)
    | _ => .error .multipleLatest

def pkgRevGetlatestRevFromDB (pk : PackageKey) : Proc Database CacheError Int := do
  match ← pkgRevReadLatestPRFromDB pk with
  | some pr => return pr.pkgRevKey.revision
  | none => return 0

/-! Writing package revisions -/

/-- The foreign key to packages, checked at the end of a statement. -/
def checkPackage (db : Database) (r : PkgRevRow) (t : PkgRevTable) : Except DbError PkgRevTable :=
  if (db.packages.lookup (r.namesp, r.packageName)).isSome then .ok t
  else .error .foreignKeyViolation

/-- A statement on `package_revisions`. -/
def pkgRevStmt (f : Database → Except DbError PkgRevTable) : Proc Database CacheError Unit :=
  .stmt fun db =>
    match f db with
    | .ok t => .ok { db with pkgRevs := t }
    | .error e => .error (.db e)

/-- `pkgRevResourcesWriteToDB`, one transaction. A file without a name violates
    `CHECK (resource_key != '')`. -/
def pkgRevResourcesWriteToDB (pr : DbPackageRevision) : Proc Database CacheError Unit :=
  .stmt fun db =>
    if pr.resources.any fun f => f.1 = [] then .error (.db .checkViolation)
    else .ok { db with
      resources := Function.update db.resources (dbKey pr.pkgRevKey) pr.resources }

def pkgRevWriteToDB (pr : DbPackageRevision) : Proc Database CacheError Unit := do
  pkgRevStmt fun db => insertRow db.pkgRevs pr.row >>= checkPackage db pr.row
  pkgRevResourcesWriteToDB pr

def pkgRevUpdateDB (pr : DbPackageRevision) (updateResources : Bool) :
    Proc Database CacheError Unit := do
  pkgRevStmt fun db =>
    if pr.pkgRevKey.revision = -1 then upsertRow db.pkgRevs pr.row >>= checkPackage db pr.row
    else updateRow db.pkgRevs pr.row
  if updateResources then pkgRevResourcesWriteToDB pr

def pkgRevResourcesDeleteFromDB (prk : PackageRevisionKey) : Proc Database CacheError Unit :=
  .stmt fun db => .ok { db with resources := Function.update db.resources (dbKey prk) [] }

def pkgRevDeleteFromDB (prk : PackageRevisionKey) : Proc Database CacheError Unit := do
  pkgRevResourcesDeleteFromDB prk
  pkgRevStmt fun db => deleteRow db.pkgRevs (dbKey prk)

/-! Packages and repositories -/

variable (opened : RepositoryKey → Bool)

/-- `pkgReadFromDB`: the key of the stored package. -/
def pkgReadFromDB (pk : PackageKey) : Proc Database CacheError PackageKey :=
  .query fun db =>
    match (db.packages.lookup (pkgDbKey pk)).bind (joinPkg db) with
    | none => .error .noRows
    | some (r, p) => if opened (repoKeyOf r) then .ok (pkgKeyOf r p) else .error .noRows

def pkgWriteToDB (pk : PackageKey) : Proc Database CacheError Unit :=
  .stmt fun db =>
    let p := pkgRow pk
    if p.namesp = [] ∨ p.name = [] then .error (.db .checkViolation)
    else
      match db.packages.insert p with
      | none => .error (.db .duplicateKey)
      | some packages =>
        if (db.repositories.lookup (p.namesp, p.repoName)).isSome then
          .ok { db with packages := packages }
        else .error (.db .foreignKeyViolation)

/-- `pkgUpdateDB`, with the trigger on the immutable columns. The columns that may
    change are not modelled. -/
def pkgUpdateDB (pk : PackageKey) : Proc Database CacheError Unit :=
  .stmt fun db =>
    match db.packages.lookup (pkgDbKey pk) with
    | none => .error (.db .noRowUpdated)
    | some p =>
      if p.repoName = pk.repoKey.name ∧ p.path = pk.path then .ok db
      else .error .immutableColumns

def savePackage (pk : PackageKey) : Proc Database CacheError Unit := do
  match ← (pkgReadFromDB opened pk).attempt with
  | .ok _ => pkgUpdateDB pk
  | .error .noRows => pkgWriteToDB pk
  | .error e => .throw e

/-- `pkgDeleteFromDB`, with the cascade to package revisions and resources. -/
def pkgDeleteFromDB (pk : PackageKey) : Proc Database CacheError Unit :=
  .stmt fun db =>
    let gone : Str × Str → Bool := fun k =>
      match db.pkgRevs.lookup k with
      | some x => (x.namesp, x.packageName) = pkgDbKey pk
      | none => false
    .ok { db with
      packages := db.packages.deleteWhere (·.key = pkgDbKey pk)
      pkgRevs := deletePackageRows db.pkgRevs (pkgDbKey pk).1 (pkgDbKey pk).2
      resources := fun k => if gone k then [] else db.resources k }

/-- `repoUpdateDB`, with the trigger on the immutable columns. -/
def repoUpdateDB (rk : RepositoryKey) (deployment : Bool) : Proc Database CacheError Unit :=
  .stmt fun db =>
    match db.repositories.lookup (rk.namesp, rk.name) with
    | none => .error (.db .noRowUpdated)
    | some r =>
      if r.directory = rk.path ∧ r.defaultWsName = rk.placeholderWSname then
        .ok { db with repositories := db.repositories.set { r with deployment := deployment } }
      else .error .immutableColumns

end Porch.Db
