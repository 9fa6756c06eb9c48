import Mathlib.Data.List.AList
import Porch.Api
import Porch.Git.Refs
import Porch.Go.Proc

/- `gitRepository` of `pkg/externalrepo/git/git.go`, with `push.go`: what it lists, and how
   a draft is opened, edited, closed and pushed.

     commitPackageToMainInRepo  commitPackageToMain

   The local clone is what a fetch makes it, equal to the remote. `Remote.updates` is
   the list of the reference updates that the remote has taken. A commit is the tree,
   the annotations of its message and its parents. What go-git and the remote decide
   are parameters: the order of a log, the order of a map, and which pushes the remote
   takes; a push is tried once. Tasks, times and authors are left out. -/
namespace Porch.Git

open Go ApiUtil

/-- What a commit message says about a package. -/
structure GitAnnotation where
  packagePath : Str
  workspaceName : Str
  revision : Str
deriving DecidableEq, Repr

inductive Commit where
  | mk (tree : Tree) (annotations : List GitAnnotation) (parents : List Commit)

namespace Commit

def tree : Commit → Tree
  | mk t _ _ => t

def annotations : Commit → List GitAnnotation
  | mk _ as _ => as

end Commit

/-- References by name, in the order in which go-git lists them. -/
abbrev Refs := AList fun _ : Str => Commit

/-- An update of a reference: a new commit, or none to delete it. -/
structure RefUpdate where
  name : Str
  commit : Option Commit

structure Remote where
  refs : Refs
  updates : List RefUpdate := []

/-- The fields of `gitRepository` that are read here. -/
structure GitRepository where
  key : RepositoryKey
  branch : Str

structure GitPackageRevision where
  prKey : PackageRevisionKey
  ref : Option (Str × Commit)
  tree : Tree
  commit : Commit

structure GitPackageRevisionDraft where
  prKey : PackageRevisionKey
  lifecycle : Lifecycle
  /-- The branch that the draft was loaded from. -/
  base : Option (Str × Commit) := none
  /-- None is the zero hash. -/
  commit : Option Commit
  tree : Option Tree := none

/-- What the model leaves to go-git and to the remote. -/
structure Host where
  /-- `repo.Log` in the order of committer time. -/
  log : Commit → List Commit
  /-- The order of iteration over a `packageList`. -/
  order : List PackageListEntry → List PackageListEntry
  order_perm : ∀ ps, (order ps).Perm ps
  /-- Whether the remote takes a push. -/
  accepts : Refs → List RefUpdate → Bool

variable (host : Host) (repo : GitRepository)

/-! Listing -/

/-- `buildGitPackageRevision`. -/
def buildGitPackageRevision (p : PackageListEntry) (revisionStr workspace : Str)
    (ref : Str × Commit) : GitPackageRevision :=
  let revision := revision2Int revisionStr
  let workspace :=
    if revision ≠ -1 then
      if workspace = [] then 'v' :: revision2Str revision else workspace
    else revisionStr
  { prKey := { pkgKey := p.pkgKey, revision := revision, workspaceName := workspace }
    ref := some ref
    tree := p.tree
    commit := ref.2 }

def loadDraft (ref : Str × Commit) : Except GitError (Option GitPackageRevision) := do
  let (pkgPathAndName, workspaceName) ← parseDraftName ref.1
  if !packageInDirectory pkgPathAndName repo.key.path then return none
  else
    return (findPackage repo.key ref.2.tree pkgPathAndName).map fun p =>
      buildGitPackageRevision p "0" workspaceName ref

def findLatestPackageCommit (start : Commit) (k : PackageKey) : Option Commit :=
  (host.log start).find? fun c => c.annotations.any fun a => a.packagePath = k.toFullPathname

/-- `getPkgWorkspace`: empty when no annotation tells it. -/
def getPkgWorkspace (p : PackageListEntry) (ref : Str × Commit) : Str :=
  let ofItsOwn := isTagInLocalRepo ref.1 || isDraftBranchNameInLocal ref.1 ||
    isProposedBranchNameInLocal ref.1
  let commit := if ofItsOwn then some ref.2 else findLatestPackageCommit host ref.2 p.pkgKey
  let annotations := (commit.map (·.annotations)).getD []
  ((annotations.find? fun a =>
    a.packagePath = p.pkgKey.toFullPathname && a.workspaceName ≠ []).map (·.workspaceName)).getD []

/-- `loadTaggedPackage`: a tag outside the directory gives no package. -/
def loadTaggedPackage (ref : Str × Commit) : Option GitPackageRevision :=
  match getTagNameInLocalRepo ref.1 with
  | none => none
  | some name =>
    let slash := lastIndex ['/'] name
    let path := name.take slash.toNat
    if slash < 0 || !packageInDirectory path repo.key.path then none
    else
      (findPackage repo.key ref.2.tree path).map fun p =>
        buildGitPackageRevision p (name.drop (slash + 1).toNat) (getPkgWorkspace host p ref) ref

/-- `discoverFinalizedPackages` on the registered branch. -/
def discoverFinalizedPackages (ref : Str × Commit) : List GitPackageRevision :=
  (host.order (discoverPackagesInTree repo.key ref.2.tree)).map fun p =>
    buildGitPackageRevision p repo.branch (getPkgWorkspace host p ref) ref

/-- What the loop of `listPackageRevisions` has collected. -/
structure Scan where
  main : Option (Str × Commit) := none
  drafts : List GitPackageRevision := []
  result : List GitPackageRevision := []

/-- One reference in the loop of `listPackageRevisions`. -/
def scanRef (s : Scan) (ref : Str × Commit) : Except GitError Scan :=
  if ref.1 = refInLocal repo.branch then .ok { s with main := some ref }
  else if isProposedBranchNameInLocal ref.1 || isDraftBranchNameInLocal ref.1 then do
    return { s with drafts := s.drafts ++ (← loadDraft repo ref).toList }
  else if isTagInLocalRepo ref.1 then
    .ok { s with result := s.result ++ (loadTaggedPackage host repo ref).toList }
  else .ok s

/-- `listPackageRevisions` for a filter with a key only. -/
def listPackageRevisions (refs : Refs) (key : PackageRevisionKey) :
    Except GitError (List GitPackageRevision) := do
  let s ← (refs.entries.map fun e => (e.1, e.2)).foldlM (scanRef host repo) {}
  let mainpkgs := s.main.toList.flatMap (discoverFinalizedPackages host repo)
  return (s.result ++ mainpkgs ++ s.drafts).filter fun p => key.matches p.prKey

/-! Drafts -/

/-- `CreatePackageRevisionDraft` for the package name and workspace of an API object. -/
def createPackageRevisionDraft (rules : NameRules) (packageName workspaceName : Str) :
    Proc Remote GitError GitPackageRevisionDraft :=
  .query fun git =>
    let pkgKey := fromFullPathname repo.key packageName
    match validPkgRevObjName rules repo.key.name pkgKey.path pkgKey.package workspaceName with
    | some err => .error (.invalidName err)
    | none => .ok
      { prKey := { pkgKey := pkgKey, workspaceName := workspaceName }
        lifecycle := .draft
        commit := git.refs.lookup (refInLocal repo.branch) }

/-- `UpdatePackageRevision`. A reference that `loadDraft` takes is that of a draft or of
    a proposed package revision, and `getLifecycle` goes by its name. -/
def updatePackageRevision (old : GitPackageRevision) :
    Proc Remote GitError GitPackageRevisionDraft :=
  .query fun git =>
    match old.ref with
    | none => .error .finalPackage
    | some ref =>
      match git.refs.lookup ref.1 with
      | none => .error .refNotFound
      | some head =>
        match loadDraft repo (ref.1, head) with
        | .error e => .error e
        | .ok none => .error .packageNotFound
        | .ok (some rev) => .ok
          { prKey := old.prKey
            lifecycle := if isDraftBranchNameInLocal ref.1 then .draft else .proposed
            base := rev.ref
            commit := some rev.commit
            tree := some rev.tree }

/-- The elements of the path of the draft's package. -/
def GitPackageRevisionDraft.parts (d : GitPackageRevisionDraft) : List Str :=
  d.prKey.pkgKey.toFullPathname.splitOn '/'

/-- The annotation of the commits of a draft. -/
def GitPackageRevisionDraft.annotation (d : GitPackageRevisionDraft) : GitAnnotation where
  packagePath := d.prKey.pkgKey.toFullPathname
  workspaceName := d.prKey.workspaceName
  revision := revision2Str d.prKey.revision

/-- The tree of the package after a commit, if it is one of the trees written. -/
def packageTreeOf (trees : Trees) (depth : Nat) (parts : List Str) : Except GitError (Option Tree) :=
  match trees parts with
  | none => .ok none
  | some _ => (storeTrees trees (depth + 1) parts).map some

/-- `commitHelper.commit` for the package of the draft: the new commit and the tree of
    the package. -/
def commitTrees (d : GitPackageRevisionDraft) (trees : Trees) (depth : Nat)
    (parents : List Commit) : Except GitError (Commit × Option Tree) := do
  let root ← storeTrees trees (depth + 1) []
  let packageTree ← packageTreeOf trees depth d.parts
  return (.mk root [d.annotation] parents, packageTree)

def updateDraftResources (d : GitPackageRevisionDraft) (resources : List (Str × Str)) :
    Except GitError GitPackageRevisionDraft := do
  let root := (d.commit.map (·.tree)).getD []
  let path := d.prKey.pkgKey.toFullPathname
  let trees ← initializeTrees root d.parts.dropLast (d.parts.getLastD []) none
  let trees ← resources.foldlM
    (fun trees (k, v) => storeFile trees (joinPath [path, k]) v) trees
  let kptfile := (joinPath [path, "Kptfile"]).splitOn '/'
  if (((trees kptfile.dropLast).getD []).lookup "Kptfile".toList).isNone then .error .noKptfile
  else
    let depth := (path :: resources.map fun (k, _) => joinPath [path, k]).foldl
      (fun n p => max n (p.splitOn '/').length) 0
    let (commit, packageTree) ← commitTrees d trees depth d.commit.toList
    return { d with commit := some commit, tree := packageTree }

/-! Pushing -/

abbrev PushRefs := AList fun _ : Str => Option Commit

/-- `commitPackageToMainInRepo`. -/
def commitPackageToMain (d : GitPackageRevisionDraft) (refs : Refs) :
    Except GitError (Commit × Option Tree) := do
  match refs.lookup (refInLocal repo.branch) with
  | none => .error .noBranch
  | some head =>
    let trees ← initializeTrees head.tree d.parts.dropLast (d.parts.getLastD []) d.tree
    commitTrees d trees d.parts.length (head :: d.commit.toList)

def applyUpdate (refs : Refs) (u : RefUpdate) : Refs :=
  match u.commit with
  | some c => refs.insert u.name c
  | none => refs.erase u.name

/-- `buildRefSpecs`: the updates that are pushed. -/
def buildRefSpecs (pushRefs : PushRefs) : List RefUpdate :=
  pushRefs.entries.map fun e => ⟨e.1, e.2⟩

/-- The remote after it has taken updates. -/
def Remote.take (git : Remote) (us : List RefUpdate) : Remote where
  refs := us.foldl applyUpdate git.refs
  updates := git.updates ++ us

/-- One attempt of `pushAndCleanup`, after its commits have been made. -/
def pushAndCleanup (pushRefs : PushRefs) : Proc Remote GitError Unit :=
  .stmt fun git =>
    if host.accepts git.refs (buildRefSpecs pushRefs) then .ok (git.take (buildRefSpecs pushRefs))
    else .error .rejected

structure PushRefSpecBuilder where
  pushRefs : PushRefs := ∅
  require : PushRefs := ∅

namespace PushRefSpecBuilder

def addRefToPush (b : PushRefSpecBuilder) (commit : Option Commit) (name : Str) : PushRefSpecBuilder :=
  { b with pushRefs := b.pushRefs.insert name commit }

def requireRef (b : PushRefSpecBuilder) (ref : Str × Option Commit) : PushRefSpecBuilder :=
  { b with require := b.require.insert ref.1 ref.2 }

def addRefToDelete (b : PushRefSpecBuilder) (ref : Str × Option Commit) : PushRefSpecBuilder :=
  (b.addRefToPush none ref.1).requireRef ref

/-- The deletion of the base of a draft, when `delete` says so. -/
def deleteBase (d : GitPackageRevisionDraft) (delete : Str → Bool) (b : PushRefSpecBuilder) :
    PushRefSpecBuilder :=
  match d.base with
  | none => b
  | some base => if delete base.1 then b.addRefToDelete (base.1, some base.2) else b

end PushRefSpecBuilder

inductive CommitOperation where
  | approval (draft : GitPackageRevisionDraft) (tag : Str)
  | deletion (branch : Str) (prKey : PackageRevisionKey)

/-- `createPackageDeleteCommitInRepo`: none when there is nothing to delete. -/
def createPackageDeleteCommit (branch : Str) (key : PackageRevisionKey) (refs : Refs) :
    Except GitError (Option Commit) :=
  let parts := key.pkgKey.toFullPathname.splitOn '/'
  match refs.lookup branch with
  | none => .ok none
  | some head =>
    match treeAt head.tree parts with
    | none => .ok none
    | some _ => do
      let trees ← initializeTrees head.tree parts.dropLast (parts.getLastD []) none
      let root ← storeTrees trees (parts.length + 1) []
      return some (.mk root [] [head])

/-- One round of the loop of `executeCommitOperations`. -/
def executeCommitOperation (refs : Refs) (b : PushRefSpecBuilder) :
    CommitOperation → Except GitError (CommitOperation × PushRefSpecBuilder)
  | .approval d tag => do
    let (commit, tree) ← commitPackageToMain repo d refs
    let b := (b.addRefToPush (some commit) (refInLocal repo.branch)).addRefToPush (some commit) tag
    -- the draft is the caller's: the next attempt finds it changed
    return (.approval { d with commit := some commit, tree := tree } tag, b)
  | .deletion branch prKey => do
    let commit ← createPackageDeleteCommit branch prKey refs
    return (.deletion branch prKey, if commit.isNone then b else b.addRefToPush commit branch)

/-- `executeCommitOperations`; an error leaves what the operations before it have changed. -/
def executeCommitOperations (refs : Refs) :
    List CommitOperation → PushRefSpecBuilder → (List CommitOperation × PushRefSpecBuilder) × Option GitError
  | [], b => (([], b), none)
  | op :: ops, b =>
    match executeCommitOperation repo refs b op with
    | .error e => ((op :: ops, b), some e)
    | .ok (op, b) =>
      let (rest, err) := executeCommitOperations refs ops b
      ((op :: rest.1, rest.2), err)

/-- What is given to `pushAndCleanup`: at most one operation, and a branch from which a package is
    deleted is not pushed otherwise. -/
structure Prepared where
  builder : PushRefSpecBuilder
  op : Option CommitOperation
  notPushed : ∀ branch key c, op = some (.deletion branch key) → builder.pushRefs.lookup branch ≠ some (some c)

/-- What a first attempt pushes that sees these references. -/
def firstPush (p : Prepared) (refs : Refs) : Except GitError PushRefs :=
  match executeCommitOperations repo refs p.op.toList p.builder with
  | ((_, b), none) => .ok b.pushRefs
  | (_, some e) => .error e

/-- The draft with the version that it is published with. -/
def GitPackageRevisionDraft.versioned (d : GitPackageRevisionDraft) (version : Int) :
    GitPackageRevisionDraft :=
  { d with prKey := { d.prKey with revision := version } }

/-- What `ClosePackageRevisionDraft` prepares. -/
def closePush (d : GitPackageRevisionDraft) (version : Int) : Except GitError Prepared :=
  let draftBranch := refInLocal (createDraftName d.prKey)
  let proposedBranch := refInLocal (createProposedName d.prKey)
  match d.lifecycle with
  | .published | .deletionProposed =>
    if version = 0 then .error .missingVersion
    else
      let d := d.versioned version
      .ok { builder := PushRefSpecBuilder.deleteBase d (fun base =>
              base = refInLocal (createDraftName d.prKey) || base = refInLocal (createProposedName d.prKey)) {}
            op := some (.approval d (createFinalTagNameInLocal d.prKey))
            notPushed := by simp }
  | .proposed =>
    .ok { builder := PushRefSpecBuilder.deleteBase d (fun base => base ≠ proposedBranch)
            (PushRefSpecBuilder.addRefToPush {} d.commit proposedBranch)
          op := none
          notPushed := by simp }
  | .draft =>
    .ok { builder := PushRefSpecBuilder.deleteBase d (fun base => base ≠ draftBranch)
            (PushRefSpecBuilder.addRefToPush {} d.commit draftBranch)
          op := none
          notPushed := by simp }

/-- What `ClosePackageRevisionDraft` pushes. -/
def closeRefs (d : GitPackageRevisionDraft) (version : Int) (refs : Refs) : Except GitError PushRefs :=
  (closePush d version).bind fun p => firstPush repo p refs

def closePackageRevisionDraft (d : GitPackageRevisionDraft) (version : Int) :
    Proc Remote GitError Unit := do
  let pushRefs ← .query fun git => closeRefs repo d version git.refs
  pushAndCleanup host pushRefs

end Porch.Git
