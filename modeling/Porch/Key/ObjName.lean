import Porch.Go.Path

/- Kubernetes object names of packages and package revisions: the composers and
   validators of `api/util/util.go`. A package revision is named
   `repo.path.with.dots.package.workspace`, a package by the same name less the
   workspace.

   The two DNS-1123 checks come from k8s.io/apimachinery and `%q` from package
   fmt's table of printable runes. They are a parameter of the model,
   `NameRules`, whose fields state what the documentation of the two checks
   promises: a label is lower-case alphanumerics and `-`, alphanumeric at both
   ends, at most 63 characters; a subdomain is such labels (of any length)
   separated by dots, at most 253 characters in all. The error texts are left
   open.

   An `error` result is `Option Str`: `none` is nil, `some` holds the text. -/
namespace Porch.ApiUtil

open Go

def isLowerAlnum (c : Char) : Bool := ('a' ≤ c && c ≤ 'z') || ('0' ≤ c && c ≤ '9')

/-- `[a-z0-9]([-a-z0-9]*[a-z0-9])?`, the format of both DNS-1123 checks. -/
def dns1123LabelFmt (s : Str) : Bool :=
  s.all (fun c => isLowerAlnum c || c == '-') && s.head?.any isLowerAlnum &&
    s.getLast?.any isLowerAlnum

/-- What the code uses of k8s.io/apimachinery and of fmt's `%q`. -/
structure NameRules where
  isDNS1123Label : Str → List Str
  isDNS1123Subdomain : Str → List Str
  quote : Str → Str
  label_ok : ∀ s, isDNS1123Label s = [] ↔ dns1123LabelFmt s ∧ s.length ≤ 63
  subdomain_ok : ∀ s,
    isDNS1123Subdomain s = [] ↔ (∀ l ∈ s.splitOn '.', dns1123LabelFmt l) ∧ s.length ≤ 253

/-- Rules that accept what the documented ones accept, with short error texts. -/
def NameRules.documented : NameRules where
  isDNS1123Label s :=
    if dns1123LabelFmt s ∧ s.length ≤ 63 then [] else ["not an RFC 1123 label"]
  isDNS1123Subdomain s :=
    if (∀ l ∈ s.splitOn '.', dns1123LabelFmt l) ∧ s.length ≤ 253 then []
    else ["not an RFC 1123 subdomain"]
  quote s := '"' :: s ++ ['"']
  label_ok s := by
    split
    · next h => simpa using h
    · next h => exact iff_of_false (by simp) h
  subdomain_ok s := by
    split
    · next h => simpa using h
    · next h => exact iff_of_false (by simp) h

def invalidConst : Str := " is invalid: "

variable (rules : NameRules)

/-- `ValidateK8SName`: an RFC 1123 label. -/
def validateK8SName (k8sName : Str) : Option Str :=
  match rules.isDNS1123Label k8sName with
  | [] => none
  | errs => some (join ',' errs)

/-- `ValidateDirectoryName`: a label with `/` allowed as a separator. -/
def validateDirectoryName (directory : Str) (mandatory : Bool) : Option Str :=
  let slashErrs :=
    if ['/', '/'] <:+: directory then ["consecutive '/' characters are not allowed".toList]
    else []
  let dirNoSlash := removeChar '/' directory
  let dirErrs :=
    if mandatory || 0 < dirNoSlash.length then slashErrs ++ rules.isDNS1123Label dirNoSlash
    else []
  match dirErrs with
  | [] => none
  | errs => some (join ',' errs)

def validateRepository (repoName directory : Str) : Option Str :=
  let nameErrs := rules.isDNS1123Label repoName
  let dirErr := validateDirectoryName rules directory false
  if nameErrs = [] ∧ dirErr = none then none
  else
    let repoErrString :=
      if nameErrs ≠ [] then
        "repository name ".toList ++ repoName ++ invalidConst ++ join ',' nameErrs ++ ['\n']
      else []
    let dirErrString :=
      match dirErr with
      | some e => "directory name ".toList ++ directory ++ invalidConst ++ e ++ ['\n']
      | none => []
    some (repoErrString ++ dirErrString)

/-- The path and package of an object name, with `/` written as `.`. -/
def dottedPath (path packageName : Str) : Str :=
  trim '.' (replaceChar '/' '.' (joinPath [path, packageName]))

def composePkgObjName (repoName path packageName : Str) : Str :=
  if repoName = [] ∨ packageName = [] then []
  else repoName ++ '.' :: dottedPath path packageName

def composePkgRevObjName (repoName path packageName workspace : Str) : Str :=
  if repoName = [] ∨ packageName = [] ∨ workspace = [] then []
  else repoName ++ '.' :: dottedPath path packageName ++ '.' :: workspace

/-- The two texts that an invalid part of a name adds to the error. -/
def partErrs (part whole what : Str) (s : Str) : Option Str → List Str
  | none => []
  | some e =>
    [part ++ ' ' :: rules.quote s ++ " of " ++ whole ++ " is invalid\n",
      what ++ s ++ invalidConst ++ e ++ ['\n']]

/-- `validPkgNamePart`. The repository's own error text is added as it is. -/
def validPkgNamePart (repoName path packageName : Str) : List Str :=
  (match validateRepository rules repoName [] with
    | none => []
    | some e =>
      ["repository part ".toList ++ rules.quote repoName ++ " of object name is invalid\n".toList,
        e]) ++
  partErrs rules "package path part".toList "object name".toList "path ".toList path
    (validateDirectoryName rules path false) ++
  partErrs rules "package name part".toList "object name".toList "package name ".toList packageName
    (validateK8SName rules packageName)

/-- The two texts for a composed name that is not a subdomain. -/
def objNameErrs (what objName : Str) : List Str :=
  match rules.isDNS1123Subdomain objName with
  | [] => []
  | errs =>
    [what ++ ' ' :: rules.quote objName ++ " is invalid\n",
      what ++ ' ' :: objName ++ invalidConst ++ errs.flatten ++ ['\n']]

def validPkgObjName (repoName path packageName : Str) : Option Str :=
  let errSlice := validPkgNamePart rules repoName path packageName
  let errSlice :=
    if errSlice = [] then
      objNameErrs rules "package kubernetes name"
        (composePkgObjName repoName path packageName)
    else errSlice
  if errSlice = [] then none
  else some ("package kubernetes resource name is invalid:\n" ++ errSlice.flatten)

def validPkgRevObjName (repoName path packageName workspace : Str) : Option Str :=
  let errSlice := validPkgNamePart rules repoName path packageName ++
    partErrs rules "workspace name part" "package revision name"
      "workspace name " workspace (validateK8SName rules workspace)
  let errSlice :=
    if errSlice = [] then
      objNameErrs rules "package revision kubernetes name"
        (composePkgRevObjName repoName path packageName workspace)
    else errSlice
  if errSlice = [] then none
  else some ("package revision kubernetes resource name is invalid:\n" ++ errSlice.flatten)

def isDigit (c : Char) : Bool := '0' ≤ c && c ≤ '9'

/-- A match of `^\.v[0-9\.]*[0-9]$`. -/
def semverSuffix : Str → Bool
  | '.' :: 'v' :: r => r.all (fun c => isDigit c || c == '.') && r.getLast?.any isDigit
  | _ => false

/-- `GetPRWorkspaceName`. The unanchored regexp `\.v[0-9\.]*[0-9]$` matches when
    some end of the name does. -/
def getPRWorkspaceName (k8sName : Str) : Str :=
  if '.' ∉ k8sName then []
  else if k8sName.tails.any semverSuffix then
    k8sName.drop (lastIndex ".v" k8sName + 1).toNat
  else k8sName.drop (lastIndex ['.'] k8sName + 1).toNat

/-- `SplitIn3OnDelimiter`: head, middle and tail. -/
def splitIn3OnDelimiter (splitee : Str) (delimiter : Char) : Str × Str × Str :=
  match splitee.splitOn delimiter with
  | [] => ([], [], [])
  | [s] => (s, [], [])
  | [s, t] => (s, [], t)
  | [s, m, t] => (s, m, t)
  | s :: m :: rest =>
    (s, rest.dropLast.foldl (fun acc p => acc ++ delimiter :: p) m, rest.getLastD [])

end Porch.ApiUtil
