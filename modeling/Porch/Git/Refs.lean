import Porch.Git.Tree

/- The names of the references of a git repository, `pkg/externalrepo/git/ref.go`. -/
namespace Porch.Git

open Go

def branchPrefixInLocalRepo : Str := "refs/remotes/origin/"
def tagsPrefixInLocalRepo : Str := "refs/tags/"
def draftsPrefix : Str := "drafts/"
def proposedPrefix : Str := "proposed/"
def deletionProposedPrefix : Str := "deletionProposed/"

/-- `refInLocal`: the local reference of a branch. -/
def refInLocal (branch : Str) : Str := branchPrefixInLocalRepo ++ branch

def cutPrefix (s pre : Str) : Option Str :=
  if pre.isPrefixOf s then some (s.drop pre.length) else none

def getDraftBranchNameInLocal (name : Str) : Option Str := cutPrefix name (refInLocal draftsPrefix)

def getProposedBranchNameInLocal (name : Str) : Option Str :=
  cutPrefix name (refInLocal proposedPrefix)

def getTagNameInLocalRepo (name : Str) : Option Str := cutPrefix name tagsPrefixInLocalRepo

def isDraftBranchNameInLocal (name : Str) : Bool := (getDraftBranchNameInLocal name).isSome

def isProposedBranchNameInLocal (name : Str) : Bool := (getProposedBranchNameInLocal name).isSome

def isTagInLocalRepo (name : Str) : Bool := (getTagNameInLocalRepo name).isSome

/-! Revisions -/

def revision2Str (revision : Int) : Str := (toString revision).toList

/-- `Revision2Int`: -1 when the string is not a number. -/
def revision2Int (revisionStr : Str) : Int := (atoi (trimPrefix revisionStr ['v'])).getD (-1)

/-! Names of a package revision -/

def createDraftName (key : PackageRevisionKey) : Str :=
  draftsPrefix ++ joinPath [key.pkgKey.toFullPathname, key.workspaceName]

def createProposedName (key : PackageRevisionKey) : Str :=
  proposedPrefix ++ joinPath [key.pkgKey.toFullPathname, key.workspaceName]

def createDeletionProposedName (key : PackageRevisionKey) : Str :=
  deletionProposedPrefix ++
    if 0 < key.revision then
      joinPath [key.pkgKey.toFullPathname, 'v' :: revision2Str key.revision]
    else joinPath [key.pkgKey.toFullPathname, '/' :: key.workspaceName]

def createFinalTagNameInLocal (key : PackageRevisionKey) : Str :=
  tagsPrefixInLocalRepo ++
    if 0 < key.revision then
      joinPath [key.pkgKey.toFullPathname, 'v' :: revision2Str key.revision]
    else joinPath [key.pkgKey.toFullPathname, '/' :: key.workspaceName]

/-- `parseDraftName`: the package path and the workspace. -/
def parseDraftName (refName : Str) : Except GitError (Str × Str) :=
  match (getDraftBranchNameInLocal refName).or (getProposedBranchNameInLocal refName) with
  | none => .error .invalidDraftName
  | some suffix =>
    let revIndex := lastIndex ['/'] suffix
    if revIndex ≤ 0 then .error .invalidDraftName
    else .ok (suffix.take revIndex.toNat, suffix.drop (revIndex + 1).toNat)

def packageInDirectory (pkg dir : Str) : Bool :=
  dir = [] || dir.isPrefixOf pkg && (pkg.length = dir.length || pkg[dir.length]? = some '/')

end Porch.Git
