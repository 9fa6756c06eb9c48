import Mathlib.Data.List.AList
import Porch.Db.Revision

/- `repositorySync.sync` of `pkg/cache/dbcache/dbreposync.go`, with what it calls of
   `dbRepository` and `dbPackage`.

     ListPackages, ListPackageRevisions  pkgListPkgsFromDB, listPackageRevisions
     handleInCachedOnly                  handleInCachedOnly, deleteCachedOnlyPR
     cacheExternalPRs                    cacheExternalPRs, cacheExternalPR

   A map is an `AList`; the order in which `range` goes over one is not specified by
   the language, and the model takes it as a `MapOrder`. `opened` says which
   repositories the cache holds open, `now` gives the clock at each package revision
   that is cached. The pushes that sync starts in the background are returned, not
   run. Locks, statistics and notifications are left out. -/
namespace Porch.Db

open Go Sql

/-- The fields of `dbRepository` that sync reads. -/
structure DbRepository where
  repoKey : RepositoryKey
  deployment : Bool := false
  pushDraftsToGit : Bool := false
deriving DecidableEq, Repr

/-- What `GetPackageRevision` of an external package revision tells. -/
structure ExtSpec where
  lifecycle : Lifecycle
  labels : Labels := []
  tasks : Str := []
deriving DecidableEq, Repr

/-- A package revision in the external repository. -/
structure ExtPackageRevision where
  key : PackageRevisionKey
  getPackageRevision : Except CacheError ExtSpec
  getResources : Except CacheError Resources := .ok []
  /-- The commit of `GetLock`, whose error is ignored. -/
  lock : Str := []

/-- The external repository as one sync finds it. -/
structure External where
  version : Except CacheError Str
  listing : Except CacheError (List ExtPackageRevision)

abbrev PRMap (α : Type) := AList fun _ : PackageRevisionKey => α

/-- An order of iteration over the entries of a map. -/
structure MapOrder where
  iter : List PackageRevisionKey → List PackageRevisionKey
  perm : ∀ ks, (iter ks).Perm ks

/-- The receiver of sync: what it remembers of the external repository. -/
structure RepositorySync where
  lastExternalRepoVersion : Str := []
  lastExternalPRMap : PRMap ExtPackageRevision := ∅

/-- `PrSlice2Map`: a later entry replaces an earlier one of the same key. -/
def prSlice2Map {α : Type} (key : α → PackageRevisionKey) (prs : List α) : PRMap α :=
  prs.foldl (fun m pr => m.insert (key pr) pr) ∅

def isDraftOrProposed (l : Lifecycle) : Bool := l = .draft || l = .proposed

/-! Listing -/

section Listing

variable (opened : RepositoryKey → Bool)

/-- `split_part(name, '.', -1)`. -/
def splitPartLast (name : Str) : Str := (name.splitOn '.').getLastD []

/-- `pkgListFilter2WhereClause`: an empty field of the key gives no clause. -/
def pkgListFilter2WhereClause (pk : PackageKey) (r : RepoRow) (p : PkgRow) : Bool :=
  pk.repoKey.matches (repoKeyOf r) &&
    (fieldMatches pk.package (splitPartLast p.name) && fieldMatches pk.path p.path)

/-- `pkgListPkgsFromDB`: the keys of the packages found. -/
def pkgListPkgsFromDB (pk : PackageKey) : Proc Database CacheError (List PackageKey) :=
  .query fun db =>
    let rows := db.packages.rows.filterMap (joinPkg db)
    let found := rows.filter fun (r, p) => pkgListFilter2WhereClause pk r p && opened (repoKeyOf r)
    .ok (found.map fun (r, p) => pkgKeyOf r p)

/-- `dbRepository.ListPackageRevisions` for a filter with lifecycles only. The key of
    the filter is the repository's, and an empty list of lifecycles gives no clause. -/
def listPackageRevisions (rk : RepositoryKey) (lifecycles : List Lifecycle) :
    Proc Database CacheError (List DbPackageRevision) :=
  .query fun db =>
    let rows := db.pkgRevs.rows.filterMap (joinRow db)
    .ok (rows.filter fun pr =>
      rk.matches pr.pkgRevKey.pkgKey.repoKey &&
        ((lifecycles.isEmpty || lifecycles.contains pr.lifecycle) &&
          opened pr.pkgRevKey.pkgKey.repoKey))

def getCachedPRMap (repo : DbRepository) : Proc Database CacheError (PRMap DbPackageRevision) := do
  let prs ← listPackageRevisions opened repo.repoKey
    (if repo.pushDraftsToGit then [] else [.published, .deletionProposed])
  return prSlice2Map (·.pkgRevKey) prs

end Listing

/-- `getExternalPRMap`: the listing is read again only when the version has changed. -/
def getExternalPRMap (ext : External) :
    Proc (Database × RepositorySync) CacheError (PRMap ExtPackageRevision) := do
  let version ← .query fun _ => ext.version
  let s ← .this
  if s.lastExternalRepoVersion = version then return s.lastExternalPRMap
  else
    let prs ← .query fun _ => ext.listing
    let map := prSlice2Map (·.key) prs
    .assign fun _ => { lastExternalRepoVersion := version, lastExternalPRMap := map }
    return map

/-- The keys in the left map only, in both maps and in the right map only. -/
structure Comparison where
  leftOnly : List PackageRevisionKey
  both : List PackageRevisionKey
  rightOnly : List PackageRevisionKey

/-- `comparePRMaps`. -/
def comparePRMaps {α β : Type} (left right : MapOrder) (leftMap : PRMap α) (rightMap : PRMap β) :
    Comparison where
  leftOnly := (left.iter leftMap.keys).filter (· ∉ rightMap)
  both := (left.iter leftMap.keys).filter (· ∈ rightMap)
  rightOnly := (right.iter rightMap.keys).filter (· ∉ leftMap)

/-! Deleting -/

section Cached

variable (repo : DbRepository) (opened : RepositoryKey → Bool)

/-- `dbPackage.DeletePackageRevision` without the external repository. -/
def deletePackageRevision (pk : PackageKey) (pr : DbPackageRevision) :
    Proc Database CacheError Unit := do
  pkgRevDeleteFromDB pr.pkgRevKey
  let prs ← pkgRevReadPRsFromDB pk
  if prs = [] then pkgDeleteFromDB pk

def deleteCachedOnlyPR (prk : PackageRevisionKey) (snapshot : DbPackageRevision) :
    Proc Database CacheError Unit := do
  match ← (pkgRevReadFromDB prk false).attempt with
  | .error .noRows => pure ()
  | .error e => .throw e
  | .ok freshPR =>
    if freshPR.updated ≠ snapshot.updated then pure ()
    else if isDraftOrProposed freshPR.lifecycle && !hasBeenPushedToGit freshPR then pure ()
    else
      match ← pkgListPkgsFromDB opened { prk.pkgKey with repoKey := repo.repoKey } with
      | [pk] => deletePackageRevision pk freshPR
      | pkgs => .throw (.packageCount pkgs.length)

/-- `handleInCachedOnly`, with the package revisions that it queues for a push. -/
def handleInCachedOnly (cached : PRMap DbPackageRevision) :
    List PackageRevisionKey → Proc Database CacheError (List DbPackageRevision)
  | [] => pure []
  | k :: ks =>
    match cached.lookup k with
    | none => handleInCachedOnly cached ks
    | some dbPR =>
      if isDraftOrProposed dbPR.lifecycle && !hasBeenPushedToGit dbPR then do
        let prsToPush ← handleInCachedOnly cached ks
        return (if repo.pushDraftsToGit then dbPR :: prsToPush else prsToPush)
      else do
        deleteCachedOnlyPR repo opened k dbPR
        handleInCachedOnly cached ks

/-- `handleInBoth`: the package revisions that it queues for a push. -/
def handleInBoth (cached : PRMap DbPackageRevision) (inBoth : List PackageRevisionKey) :
    List DbPackageRevision :=
  (inBoth.filterMap cached.lookup).filter fun pr =>
    isDraftOrProposed pr.lifecycle && prNeedsPushToGit pr

end Cached

/-! Caching -/

section External

/-- Whether PostgreSQL TEXT can hold the string. -/
def isText (s : Str) : Bool := !s.contains (Char.ofNat 0)

def sanitizeResources (resources : Resources) : Resources :=
  resources.filter fun f => isText f.1 && isText f.2

variable (repo : DbRepository) (opened : RepositoryKey → Bool)

/-- The first part of `dbRepository.savePackageRevision`: a package that is not stored
    yet is saved. -/
def savePackageIfNew (pk : PackageKey) : Proc Database CacheError Unit := do
  match ← (pkgReadFromDB opened pk).attempt with
  | .ok _ => pure ()
  | .error .noRows => savePackage opened pk
  | .error e => .throw e

def DbRepository.savePackageRevision (now : Nat) (d : DbPackageRevision) (saveResources : Bool) :
    Proc Database CacheError DbPackageRevision := do
  savePackageIfNew opened d.pkgRevKey.pkgKey
  let pkgRev ← (Porch.Db.savePackageRevision now saveResources).call d
  repoUpdateDB repo.repoKey repo.deployment
  return pkgRev

/-- The package revision that is cached for an external one. -/
def cachedOf (now : Nat) (e : ExtPackageRevision) (spec : ExtSpec) (resources : Resources) :
    DbPackageRevision where
  pkgRevKey := e.key
  labels := spec.labels
  updated := now
  lifecycle := spec.lifecycle
  extCommit := e.lock
  deployment := repo.deployment
  tasks := spec.tasks
  kptfile := kptfileOf (sanitizeResources resources)
  resources := sanitizeResources resources

/-- One turn of the loop of `cacheExternalPRs`. -/
def cacheExternalPR (now : Nat) (e : ExtPackageRevision) : Proc Database CacheError Unit := do
  let spec ← .query fun _ => e.getPackageRevision
  let resources ← .query fun _ => e.getResources
  if e.key.revision = 0 && lifecycleIsPublished spec.lifecycle then pure ()
  else
    let _ ← repo.savePackageRevision opened now (cachedOf repo now e spec resources) true

def cacheExternalPRs (now : PackageRevisionKey → Nat) (external : PRMap ExtPackageRevision) :
    List PackageRevisionKey → Proc Database CacheError Unit
  | [] => pure ()
  | k :: ks => do
    match external.lookup k with
    | none => cacheExternalPRs now external ks
    | some e =>
      cacheExternalPR repo opened (now k) e
      cacheExternalPRs now external ks

end External

/-! Sync -/

section Sync

variable (repo : DbRepository) (opened : RepositoryKey → Bool) (left right : MapOrder)
  (now : PackageRevisionKey → Nat) (ext : External)

/-- The first half of `sync`: what it reads, how the two sides compare, and the
    removal of what is cached only. -/
def syncCachedOnly : Proc (Database × RepositorySync) CacheError
    (PRMap DbPackageRevision × PRMap ExtPackageRevision × Comparison × List DbPackageRevision) := do
  let cachedPrMap ← .onFst (getCachedPRMap opened repo)
  let externalPrMap ← getExternalPRMap ext
  let comparison := comparePRMaps left right cachedPrMap externalPrMap
  let prsToPush ← .onFst (handleInCachedOnly repo opened cachedPrMap comparison.leftOnly)
  return (cachedPrMap, externalPrMap, comparison, prsToPush)

/-- `sync`, with the package revisions that it queues for a push. -/
def sync : Proc (Database × RepositorySync) CacheError (List DbPackageRevision) := do
  let (cachedPrMap, externalPrMap, comparison, prsToPush) ←
    syncCachedOnly repo opened left right ext
  .onFst (cacheExternalPRs repo opened now externalPrMap comparison.rightOnly)
  return (if repo.pushDraftsToGit then prsToPush ++ handleInBoth cachedPrMap comparison.both
    else prsToPush)

end Sync

end Porch.Db
