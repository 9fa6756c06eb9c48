import Porch.Go.Error
import Porch.Key.ObjName

/- The keys of `api/porch/key`: repositories, packages and package revisions,
   their partial matching, and the way between a key and its object name.

   `matches` reads an empty string, and revision 0, on the receiver as a
   wildcard. -/
namespace Porch

open Go ApiUtil

structure RepositoryKey where
  namesp : Str := []
  name : Str := []
  path : Str := []
  placeholderWSname : Str := []
deriving DecidableEq, Repr

structure PackageKey where
  repoKey : RepositoryKey := {}
  path : Str := []
  package : Str := []
deriving DecidableEq, Repr

structure PackageRevisionKey where
  pkgKey : PackageKey := {}
  revision : Int := 0
  workspaceName : Str := []
deriving DecidableEq, Repr

/-- A field of the receiver matches when it is empty or equal. -/
def fieldMatches (mine other : Str) : Bool := mine = [] || mine = other

def RepositoryKey.matches (k other : RepositoryKey) : Bool :=
  fieldMatches k.namesp other.namesp && fieldMatches k.name other.name &&
    fieldMatches k.path other.path && fieldMatches k.placeholderWSname other.placeholderWSname

def PackageKey.matches (k other : PackageKey) : Bool :=
  fieldMatches k.path other.path && fieldMatches k.package other.package &&
    k.repoKey.matches other.repoKey

def PackageRevisionKey.matches (k other : PackageRevisionKey) : Bool :=
  (k.revision = 0 || k.revision = other.revision) &&
    fieldMatches k.workspaceName other.workspaceName && k.pkgKey.matches other.pkgKey

@[simp] theorem fieldMatches_iff {mine other : Str} :
    fieldMatches mine other ↔ mine = [] ∨ mine = other := by
  simp [fieldMatches]

theorem RepositoryKey.matches_self (k : RepositoryKey) : k.matches k := by
  simp [RepositoryKey.matches]

/-! Object names -/

/-- `PackageKey.K8SName`, which is `ComposePkgObjName` of package key. -/
def PackageKey.k8sName (k : PackageKey) : Str :=
  composePkgObjName k.repoKey.name k.path k.package

/-- `PackageRevisionKey.K8SName`, which is `ComposePkgRevObjName` of package key. -/
def PackageRevisionKey.k8sName (k : PackageRevisionKey) : Str :=
  composePkgRevObjName k.pkgKey.repoKey.name k.pkgKey.path k.pkgKey.package k.workspaceName

def k8sName2PkgRevWSName (k8sNamePkg k8sName : Str) : Str := k8sName.drop (k8sNamePkg.length + 1)

def k8sName2PkgName (k8sName : Str) : Str := k8sName.drop (lastIndex ['.'] k8sName + 1).toNat

variable (rules : NameRules)

def pkgK8sName2Key (k8sNamespace k8sName : Str) : Except Str PackageKey :=
  let parsedPkg := splitIn3OnDelimiter k8sName '.'
  let packagePath := replaceChar '.' '/' parsedPkg.2.1
  okUnless (validPkgObjName rules parsedPkg.1 packagePath parsedPkg.2.2)
    { repoKey := { namesp := k8sNamespace, name := parsedPkg.1 }
      path := packagePath
      package := parsedPkg.2.2 }

/-- The name that `PkgRevK8sName2Key` splits: the dots of the workspace are
    written as dashes. -/
def conditionedK8SName (k8sName workspaceName : Str) : Str :=
  if '.' ∈ workspaceName then
    k8sName.take (k8sName.length - workspaceName.length) ++ replaceChar '.' '-' workspaceName
  else k8sName

/-- `PkgRevK8sName2Key`. The revision is not in the name and stays 0. -/
def pkgRevK8sName2Key (k8sNamespace k8sName : Str) : Except Str PackageRevisionKey :=
  let workspaceName := getPRWorkspaceName k8sName
  let parsedPR := splitIn3OnDelimiter (conditionedK8SName k8sName workspaceName) '.'
  let parsedPkg := splitIn3OnDelimiter (parsedPR.1 ++ '.' :: parsedPR.2.1) '.'
  let packagePath := replaceChar '.' '/' parsedPkg.2.1
  okUnless (validPkgRevObjName rules parsedPR.1 packagePath parsedPkg.2.2 parsedPR.2.2)
    { pkgKey :=
        { repoKey := { namesp := k8sNamespace, name := parsedPR.1 }
          path := packagePath
          package := parsedPkg.2.2 }
      workspaceName := workspaceName }

/-! Path names -/

/-- `SplitPackagePathName`: the parent directory and the leaf name. -/
def splitPackagePathName (fullpath : Str) : Str × Str :=
  let pkgPath := trim '/' fullpath
  let slashIndex := lastIndex ['/'] pkgPath
  if 0 ≤ slashIndex then (pkgPath.take slashIndex.toNat, pkgPath.drop (slashIndex + 1).toNat)
  else ([], pkgPath)

def fromFullPathname (repoKey : RepositoryKey) (fullpath : Str) : PackageKey :=
  let pn := splitPackagePathName fullpath
  { repoKey := repoKey, path := pn.1, package := pn.2 }

/-- The leaf is the last element of the path, and is empty only if there is none. -/
theorem fromFullPathname_spec (rk : RepositoryKey) (name : Str) :
    let k := fromFullPathname rk name
    pathElems k.path ++ pathElems k.package = pathElems name ∧ '/' ∉ k.package ∧
      (k.package = [] → k.path = []) := by
  rw [← pathElems_trim]
  by_cases hslash : '/' ∈ trim '/' name
  · obtain ⟨a, b, hab, hb⟩ := exists_last_of_mem hslash
    have hkey : fromFullPathname rk name = ⟨rk, a, b⟩ := by
      obtain ⟨htake, hdrop⟩ := take_drop_lastIndex (a := a) hb
      simp only [fromFullPathname, splitPackagePathName, hab, htake, hdrop]
      rw [if_pos (by rw [lastIndex_char hb]; omega)]
    -- the name that is trimmed does not end in a slash
    have hne : b ≠ [] := by
      rintro rfl
      have hlast := List.rdropWhile_last_not (· = '/') (name.dropWhile (· = '/'))
        (by rw [trim] at hab; simp [hab])
      simp only [trim] at hab
      simp [hab] at hlast
    rw [hkey, hab]
    exact ⟨pathElems_append.symm, hb, fun h => absurd h hne⟩
  · have hkey : fromFullPathname rk name = ⟨rk, [], trim '/' name⟩ := by
      simp only [fromFullPathname, splitPackagePathName, lastIndex_char_of_not_mem hslash]
      rfl
    rw [hkey]
    exact ⟨rfl, hslash, fun _ => rfl⟩

def PackageKey.toPkgPathname (k : PackageKey) : Str := joinPath [k.path, k.package]

def PackageKey.toFullPathname (k : PackageKey) : Str :=
  joinPath [k.repoKey.path, k.path, k.package]

end Porch
