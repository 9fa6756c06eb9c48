import Porch.Key.Types

/- Git trees and the commits of `pkg/externalrepo/git/commit.go`, with the package
   discovery of `package_tree.go`.

     object.Tree, object.TreeEntry  Tree, Node
     storeTrees, commit             storeTrees, commitTree

   A tree is the list of its entries. A path is the list of its elements where the
   source splits and joins it at every step. The hash of a stored tree is the tree, and
   the zero hash is the entry `dirty`; the order in which git sorts the entries of a
   tree is left out, since entries are looked up by name. -/
namespace Porch.Git

open Go Function

inductive GitError where
  /-- A part of a package path is a file. -/
  | notDirectory
  | missingTree
  | noFileName
  | noKptfile
  | invalidDraftName
  | invalidName (err : Str)
  | noBranch
  | missingVersion
  | lifecycleNotPublished
  | packageNotFound
  | finalPackage
  | refNotFound
  | rejected
  | noRef
  /-- The tag is not the one of the package revision. -/
  | otherTag
  | unknownRef
deriving DecidableEq, Repr

inductive FileMode where
  | regular
  | executable
  | symlink
  | submodule
deriving DecidableEq, Repr

def FileMode.isFile (m : FileMode) : Bool := m ≠ .submodule

inductive Node where
  | blob (mode : FileMode) (contents : Str)
  | dir (entries : List (Str × Node))

abbrev Tree := List (Str × Node)

/-- An entry of a tree that is being written. -/
inductive TreeEntry where
  | stored (n : Node)
  /-- A directory that has not been stored: its hash is zero. -/
  | dirty

/-- The trees that are being written, by path. -/
abbrev Trees := List Str → Option (List (Str × TreeEntry))

/-- `Tree.Tree(path)`: none when a directory is missing or is a file. -/
def treeAt : Tree → List Str → Option Tree
  | t, [] => some t
  | t, name :: rest =>
    match t.lookup name with
    | some (.dir entries) => treeAt entries rest
    | _ => none

def fileAt : Tree → List Str → Option (FileMode × Str)
  | _, [] => none
  | t, name :: rest =>
    match t.lookup name with
    | some (.blob mode contents) => if rest = [] then some (mode, contents) else none
    | some (.dir entries) => fileAt entries rest
    | none => none

/-! Writing -/

def setOrAddTreeEntry (name : Str) (e : TreeEntry) :
    List (Str × TreeEntry) → List (Str × TreeEntry)
  | [] => [(name, e)]
  | x :: xs => if x.1 = name then (name, e) :: xs else x :: setOrAddTreeEntry name e xs

def removeTreeEntry (name : Str) : List (Str × TreeEntry) → List (Str × TreeEntry)
  | [] => []
  | x :: xs => if x.1 = name then xs else x :: removeTreeEntry name xs

def loaded (t : Tree) : List (Str × TreeEntry) := t.map fun (name, n) => (name, .stored n)

/-- The loop of `initializeTrees` over the ancestors of the package. -/
def loadAncestors (dir : List Str) : List Str → Trees → Except GitError Trees
  | [], trees => .ok trees
  | name :: rest, trees => do
    let parent := (trees dir).getD []
    let current ← match parent.lookup name with
      | none => .ok []
      | some (.stored (.dir entries)) => .ok (loaded entries)
      | some (.stored (.blob _ _)) => .error .notDirectory
      | some .dirty => .error .missingTree
    loadAncestors (dir ++ [name]) rest
      (update (update trees dir (some (setOrAddTreeEntry name .dirty parent)))
        (dir ++ [name]) (some current))

/-- The last part of `initializeTrees`: the package tree is written below its parent, or
    without a package tree the entry of the package is removed. -/
def placePackage (trees : Trees) (parent : List Str) (lastPart : Str) : Option Tree → Trees
  | some t =>
    update (update trees (parent ++ [lastPart]) (some (loaded t)))
      parent (some (setOrAddTreeEntry lastPart .dirty ((trees parent).getD [])))
  | none =>
    update trees parent (some (removeTreeEntry lastPart ((trees parent).getD [])))

/-- `initializeTrees` for the package path `ancestors/lastPart`. -/
def initializeTrees (root : Tree) (ancestors : List Str) (lastPart : Str)
    (packageTree : Option Tree) : Except GitError Trees := do
  let trees ← loadAncestors [] ancestors (update (fun _ => none) [] (some (loaded root)))
  return placePackage trees ancestors lastPart packageTree

/-- The entry that `ensureTree` writes: it takes the place of a stored entry of that
    name, and is appended otherwise. -/
def addDirectory (name : Str) : List (Str × TreeEntry) → List (Str × TreeEntry)
  | [] => [(name, .dirty)]
  | (n, .stored e) :: xs =>
    if n = name then (name, .dirty) :: xs else (n, .stored e) :: addDirectory name xs
  | (n, .dirty) :: xs => (n, .dirty) :: addDirectory name xs

/-- `ensureTree`, on the elements of the path from the last to the first. -/
def ensureTree (trees : Trees) : List Str → Trees
  | [] => trees
  | base :: rdir =>
    match trees (base :: rdir).reverse with
    | some _ => trees
    | none =>
      let trees := ensureTree trees rdir
      let parent := (trees rdir.reverse).getD []
      update (update trees rdir.reverse (some (addDirectory base parent)))
        (base :: rdir).reverse (some [])

def storeFile (trees : Trees) (path : Str) (contents : Str) : Except GitError Trees :=
  let parts := path.splitOn '/'
  let dir := parts.dropLast
  let file := parts.getLastD []
  if file = [] then .error .noFileName
  else
    let trees := ensureTree trees dir.reverse
    .ok (update trees dir
      (some (setOrAddTreeEntry file (.stored (.blob .regular contents)) ((trees dir).getD []))))

/-- `storeTrees`. The trees that are written are nested at most `fuel` deep; a child
    that is empty is pruned. -/
def storeTrees (trees : Trees) : Nat → List Str → Except GitError Tree
  | 0, _ => .error .missingTree
  | fuel + 1, dir =>
    match trees dir with
    | none => .error .missingTree
    | some entries => entries.foldrM (fun (name, e) rest =>
        match e with
        | .stored n => .ok ((name, n) :: rest)
        | .dirty => do
          let child ← storeTrees trees fuel (dir ++ [name])
          if child.isEmpty then .ok rest else .ok ((name, .dir child) :: rest)) []

/-! Packages -/

/-- Whether the tree is a package: it has a Kptfile that is a file. -/
def hasKptfile (t : Tree) : Bool :=
  t.any fun (name, n) => name = "Kptfile" && match n with
    | .blob mode _ => mode.isFile
    | .dir _ => false

def trimPrefix (s pre : Str) : Str := if pre.isPrefixOf s then s.drop pre.length else s

/-- An entry of `packageList.packages`. -/
structure PackageListEntry where
  pkgKey : PackageKey
  tree : Tree

/-- The entry of the package at `treePath`. -/
def packageEntry (repoKey : RepositoryKey) (treePath : Str) (t : Tree) : PackageListEntry where
  pkgKey := fromFullPathname repoKey (trimPrefix treePath repoKey.path)
  tree := t

mutual

/-- `discoverPackages` with recursion. -/
def discoverPackages (repoKey : RepositoryKey) (treePath : Str) : Node → List PackageListEntry
  | .blob _ _ => []
  | .dir entries =>
    if hasKptfile entries then [packageEntry repoKey treePath entries]
    else discoverEntries repoKey treePath entries

/-- Its loop over the entries of a directory. -/
def discoverEntries (repoKey : RepositoryKey) (treePath : Str) :
    List (Str × Node) → List PackageListEntry
  | [] => []
  | (name, n) :: rest =>
    discoverPackages repoKey (joinPath [treePath, name]) n ++ discoverEntries repoKey treePath rest

end

/-- The elements of a path that is a filter: the empty one is the root. -/
def pathParts (path : Str) : List Str := if path = [] then [] else path.splitOn '/'

def findPackage (repoKey : RepositoryKey) (root : Tree) (packagePath : Str) :
    Option PackageListEntry :=
  ((treeAt root (pathParts packagePath)).filter hasKptfile).map (packageEntry repoKey packagePath)

/-- `discoverPackagesInTree` from the directory of the repository. -/
def discoverPackagesInTree (repoKey : RepositoryKey) (root : Tree) : List PackageListEntry :=
  match treeAt root (pathParts repoKey.path) with
  | none => []
  | some t => discoverPackages repoKey repoKey.path (.dir t)

end Porch.Git
