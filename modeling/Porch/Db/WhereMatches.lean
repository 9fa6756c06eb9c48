import Porch.Db.Store
import Porch.Db.WhereClause

/- The WHERE clause of a list request against `Matches`: the two say the same of every
   package revision that is stored under valid names.

     column='value'                                Comparison.column
     split_part(packages.k8s_name, '.', -1)='...'  Comparison.packageName
     substring(package_revisions.k8s_name from
       length(package_revisions.package_k8s_name)+2) Comparison.workspace
     spec::jsonb->'packageMetadata'->'labels' @> ... Comparison.kptfileLabels

   The database keeps no column for the package and none for the workspace: both are cut
   out of composed names. -/
namespace Porch.Db.Where

open Go Sql K8s ApiUtil Registry

/-! Rows -/

/-- A row of the join, with the JSON of `spec`, `packageMetadata`, `labels`. -/
structure Joined where
  repo : RepoRow
  pkg : PkgRow
  rev : PkgRevRow
  labels : Option Labels

/-- The columns that are compared as they are. -/
inductive TextColumn where
  | repoNamespace
  | repoName
  | repoDirectory
  | repoDefaultWs
  | packagePath
deriving DecidableEq, Repr

def TextColumn.name : TextColumn → Str
  | repoNamespace => "repositories.k8s_name_space"
  | repoName => "repositories.k8s_name"
  | repoDirectory => "repositories.directory"
  | repoDefaultWs => "repositories.default_ws_name"
  | packagePath => "packages.package_path"

def TextColumn.value (x : Joined) : TextColumn → Str
  | repoNamespace => x.repo.namesp
  | repoName => x.repo.name
  | repoDirectory => x.repo.directory
  | repoDefaultWs => x.repo.defaultWsName
  | packagePath => x.pkg.path

/-- `split_part(s, '.', -1)`: the last field. -/
def splitPartLast (s : Str) : Str := (s.splitOn '.').getLastD []

/-- `substring(s from n)`; characters are counted from 1. -/
def substringFrom (s : Str) (n : Nat) : Str := s.drop (n - 1)

/-- `labels @> constant`, where the constant is the JSON of one entry. -/
def containsJson (labels : Option Labels) (constant : Str) : Tri :=
  labels.map fun l => (Json.readEntry constant).any fun entry => l.lookup entry.1 = some entry.2

/-! Comparisons -/

inductive Comparison where
  | column (c : TextColumn) (value : Str)
  | packageName (value : Str)
  | revision (n : Int)
  | workspace (value : Str)
  | lifecycles (ls : List Lifecycle)
  | kptfileLabels (entries : Labels)
deriving Repr

namespace Comparison

def pieces : Comparison → List Piece
  | column c value => isText c.name value
  | packageName value => packageNameIs "packages.k8s_name" value
  | revision n => isNumber "package_revisions.revision" n
  | workspace value => workspaceIs "package_revisions.k8s_name" value
  | lifecycles ls => lifecycleIsOneOf "package_revisions.lifecycle" ls
  | kptfileLabels entries =>
    allOf (entries.map fun entry => containsEntry kptfileLabelsPieces entry.1 entry.2)

def eval (x : Joined) : Comparison → Tri
  | column c value => eq (some (c.value x)) (some value)
  | packageName value => eq (some (splitPartLast x.pkg.name)) (some value)
  | revision n => eq (some x.rev.revision) (some n)
  | workspace value =>
    eq (some (substringFrom x.rev.name (x.rev.packageName.length + 2))) (some value)
  | lifecycles ls =>
    ls.foldr (fun l t => Tri.or (eq (some (lifecycleText x.rev.lifecycle)) (some (lifecycleText l))) t)
      (some false)
  | kptfileLabels entries =>
    entries.foldr (fun entry t => Tri.and (containsJson x.labels (Json.marshalEntry entry.1 entry.2)) t)
      (some true)

end Comparison

/-- The comparisons of a filter without a label selector. -/
def prConditions (f : ListPackageRevisionFilter) : List Comparison :=
  let k := f.key.pkgKey
  (if k.repoKey.namesp = [] then [] else [.column .repoNamespace k.repoKey.namesp]) ++
  (if k.repoKey.name = [] then [] else [.column .repoName k.repoKey.name]) ++
  (if k.repoKey.path = [] then [] else [.column .repoDirectory k.repoKey.path]) ++
  (if k.repoKey.placeholderWSname = [] then [] else [.column .repoDefaultWs k.repoKey.placeholderWSname]) ++
  (if k.package = [] then [] else [.packageName k.package]) ++
  (if k.path = [] then [] else [.column .packagePath k.path]) ++
  (if f.key.revision = 0 then [] else [.revision f.key.revision]) ++
  (if f.key.workspaceName = [] then [] else [.workspace f.key.workspaceName]) ++
  (if f.lifecycles = [] then [] else [.lifecycles f.lifecycles]) ++
  (if f.kptfileLabels = [] then [] else [.kptfileLabels f.kptfileLabels])

/-- Whether a conjunction selects the row. -/
def selects (cs : List Comparison) (x : Joined) : Bool :=
  (cs.foldr (fun c t => Tri.and (c.eval x) t) (some true)).holds

/-! Stored revisions -/

/-- The path is one that the validators take, or its segments are labels. -/
def PathParts (path : Str) : Prop := DirOk path ∨ ∀ segment ∈ pathElems path, IsLabel segment

/-- A package revision that is stored: repository, path segments and package are valid parts of an
    object name. The workspace is not restricted. -/
structure Stored where
  revision : Revision
  repo : IsLabel revision.key.pkgKey.repoKey.name
  path : PathParts revision.key.pkgKey.path
  package : IsLabel revision.key.pkgKey.package
  workspace : revision.key.workspaceName ≠ []

/-- The object in memory. -/
def Stored.pr (s : Stored) : DbPackageRevision where
  pkgRevKey := s.revision.key
  labels := s.revision.labels
  lifecycle := s.revision.lifecycle
  latest := s.revision.latest

/-- The rows that are written for it; the latest revision is found by the triggers. An empty map
    of labels is left out of the JSON. -/
def Stored.joined (s : Stored) : Joined where
  repo :=
    { namesp := s.revision.key.pkgKey.repoKey.namesp
      name := s.revision.key.pkgKey.repoKey.name
      directory := s.revision.key.pkgKey.repoKey.path
      defaultWsName := s.revision.key.pkgKey.repoKey.placeholderWSname }
  pkg := pkgRow s.revision.key.pkgKey
  rev := { s.pr.row with latest := s.revision.latest }
  labels := s.revision.packageMetadata.bind fun l => if l = [] then none else some l

/-! The names are taken apart again -/

section Names

variable {path : Str}

theorem PathParts.no_dot (h : PathParts path) : '.' ∉ path := by
  obtain hdir | hsegments := h
  · exact hdir.no_dot
  · intro hdot
    rw [← join_splitOn (c := '/') (s := path)] at hdot
    obtain ⟨segment, hmem, hc⟩ := (mem_join hdot).resolve_left (by decide)
    have hne : segment ≠ [] := List.ne_nil_of_mem hc
    exact (hsegments segment (by simp [pathElems, hmem, hne])).no_dot hc

theorem pkgName_eq (s : Stored) : s.revision.key.pkgKey.k8sName =
      join '.' (s.revision.key.pkgKey.repoKey.name :: pathElems s.revision.key.pkgKey.path ++
        [s.revision.key.pkgKey.package]) :=
  composePkgObjName_eq s.repo.ne_nil s.path.no_dot s.package

/-- **The last field of the package name is the package.** -/
theorem splitPartLast_pkgName (s : Stored) :
    splitPartLast s.revision.key.pkgKey.k8sName = s.revision.key.pkgKey.package := by
  have hparts : ∀ p ∈ s.revision.key.pkgKey.repoKey.name :: pathElems s.revision.key.pkgKey.path ++
      [s.revision.key.pkgKey.package], '.' ∉ p := by
    intro p hp
    simp only [List.cons_append, List.mem_cons, List.mem_append, List.not_mem_nil, or_false] at hp
    obtain rfl | hp | rfl := hp
    · exact s.repo.no_dot
    · exact no_dot_of_mem_splitOn s.path.no_dot (mem_pathElems hp).1
    · exact s.package.no_dot
  rw [splitPartLast, pkgName_eq, splitOn_join hparts (by simp)]
  exact List.getLastD_concat ..

/-- **What follows the package name is the workspace**, dots and all. -/
theorem substringFrom_name (s : Stored) :
    substringFrom s.revision.key.k8sName (s.revision.key.pkgKey.k8sName.length + 2) =
      s.revision.key.workspaceName := by
  have hname : s.revision.key.k8sName = s.revision.key.pkgKey.k8sName ++ '.' :: s.revision.key.workspaceName := by
    rw [pkgName_eq]
    exact composePkgRevObjName_eq s.repo.ne_nil s.path.no_dot s.package s.workspace
  rw [hname, substringFrom]
  simp [List.drop_append]

/-- **A row is read back as the revision that it was stored for.** -/
theorem scanRow_key (s : Stored) :
    (scanRow s.joined.repo s.joined.pkg s.joined.rev).pkgRevKey = s.revision.key := by
  have hname : s.revision.key.pkgKey.k8sName =
      join '.' (s.revision.key.pkgKey.repoKey.name :: pathElems s.revision.key.pkgKey.path) ++
        '.' :: s.revision.key.pkgKey.package := by
    rw [pkgName_eq, join_concat (by simp)]
  have hpkg : k8sName2PkgName s.revision.key.pkgKey.k8sName = s.revision.key.pkgKey.package := by
    rw [hname]
    exact (take_drop_lastIndex s.package.no_dot).2
  have hws : k8sName2PkgRevWSName s.revision.key.pkgKey.k8sName s.revision.key.k8sName =
      s.revision.key.workspaceName := substringFrom_name s
  simp only [scanRow, pkgKeyOf, repoKeyOf, Stored.joined, Stored.pr, pkgRow, DbPackageRevision.row, hpkg, hws]

end Names

/-! One comparison at a time -/

section Comparisons

variable {x : Joined} {cs ds : List Comparison}

theorem selects_nil : selects [] x = true := rfl

theorem selects_cons (c : Comparison) : selects (c :: cs) x = ((c.eval x).holds && selects cs x) := by
  simp [selects]

theorem selects_append : selects (cs ++ ds) x = (selects cs x && selects ds x) := by
  induction cs with
  | nil => simp [selects_nil]
  | cons c cs ih => rw [List.cons_append, selects_cons, selects_cons, ih, Bool.and_assoc]

theorem selects_unless {p : Prop} [Decidable p] (c : Comparison) :
    selects (if p then [] else [c]) x = (decide p || (c.eval x).holds) := by
  by_cases hp : p
  · simp [hp, selects_nil]
  · simp [hp, selects_cons, selects_nil]

theorem selects_field {value stored : Str} {c : Comparison} (h : c.eval x = eq (some stored) (some value)) :
    selects (if value = [] then [] else [c]) x = fieldMatches value stored := by
  rw [selects_unless, h, eq_some, Tri.holds_some]
  simp [fieldMatches, eq_comm]

theorem lifecycleText_inj {a b : Lifecycle} : lifecycleText a = lifecycleText b ↔ a = b := by
  constructor
  · intro h
    cases a <;> cases b <;> first | rfl | exact absurd h (by decide)
  · intro h
    rw [h]

theorem holds_lifecycles (ls : List Lifecycle) :
    ((Comparison.lifecycles ls).eval x).holds = ls.contains x.rev.lifecycle := by
  simp only [Comparison.eval]
  induction ls with
  | nil => rfl
  | cons l ls ih =>
    rw [List.foldr_cons, Tri.holds_or, ih]
    simp [lifecycleText_inj]

theorem holds_containsJson (labels : Option Labels) (key value : Str) :
    (containsJson labels (Json.marshalEntry key value)).holds =
      labels.any fun l => l.lookup key = some value := by
  simp only [containsJson, Json.readEntry_marshalEntry]
  cases labels <;> simp

theorem holds_kptfileLabels (entries : Labels) : ((Comparison.kptfileLabels entries).eval x).holds =
      entries.all fun entry => x.labels.any fun l => l.lookup entry.1 = some entry.2 := by
  simp only [Comparison.eval]
  induction entries with
  | nil => rfl
  | cons entry entries ih => rw [List.foldr_cons, Tri.holds_and, ih, holds_containsJson, List.all_cons]

theorem holds_storedLabels (s : Stored) {entries : Labels} (h : entries ≠ []) :
    ((Comparison.kptfileLabels entries).eval s.joined).holds =
      s.revision.packageMetadata.any fun l => entries.all fun entry => l.lookup entry.1 = some entry.2 := by
  rw [holds_kptfileLabels]
  obtain ⟨entry, rest, rfl⟩ := List.exists_cons_of_ne_nil h
  cases hmeta : s.revision.packageMetadata with
  | none => simp [Stored.joined, hmeta]
  | some l =>
    by_cases hl : l = [] <;> simp [Stored.joined, hmeta, hl]

end Comparisons

/-! The clause -/

theorem prComparisons_eq {f : ListPackageRevisionFilter} (h : f.label = none) :
    prComparisons f = (prConditions f).map Comparison.pieces := by
  have hunless : ∀ {p : Prop} [Decidable p] (c : Comparison),
      (if p then [] else [c]).map Comparison.pieces = if p then [] else [c.pieces] := by
    intro p _ c
    split <;> rfl
  simp only [prComparisons, packageComparisons, repoComparisons, prConditions, List.map_append, hunless, h,
    labelComparisons, List.append_nil]
  rfl

/-- **The comparisons select the row of a revision exactly if the revision matches.** -/
theorem selects_prConditions (f : ListPackageRevisionFilter) (s : Stored) (h : f.label = none) :
    selects (prConditions f) s.joined = f.matches s.revision := by
  have hcolumn : ∀ (c : TextColumn) (value : Str),
      selects (if value = [] then [] else [.column c value]) s.joined = fieldMatches value (c.value s.joined) :=
    fun c value => selects_field rfl
  have hpkg : ∀ value : Str, selects (if value = [] then [] else [.packageName value]) s.joined =
      fieldMatches value s.revision.key.pkgKey.package := by
    intro value
    rw [← splitPartLast_pkgName s]
    exact selects_field rfl
  have hws : ∀ value : Str, selects (if value = [] then [] else [.workspace value]) s.joined =
      fieldMatches value s.revision.key.workspaceName := by
    intro value
    rw [← substringFrom_name s]
    exact selects_field rfl
  have hrev : ∀ n : Int, selects (if n = 0 then [] else [.revision n]) s.joined =
      (decide (n = 0) || decide (n = s.revision.key.revision)) := by
    intro n
    rw [selects_unless]
    simp [Comparison.eval, Stored.joined, Stored.pr, DbPackageRevision.row, eq_comm]
  have hlcs : selects (if f.lifecycles = [] then [] else [.lifecycles f.lifecycles]) s.joined =
      (decide (f.lifecycles = []) || f.lifecycles.contains s.revision.lifecycle) := by
    rw [selects_unless, holds_lifecycles]
    rfl
  have hlabels : selects (if f.kptfileLabels = [] then [] else [.kptfileLabels f.kptfileLabels]) s.joined =
      f.matchesKptfileLabels s.revision := by
    rw [selects_unless]
    by_cases hnil : f.kptfileLabels = []
    · simp [hnil, ListPackageRevisionFilter.matchesKptfileLabels]
    · rw [holds_storedLabels s hnil]
      rfl
  have hlabel : f.matchesLabels s.revision = true := by
    simp [ListPackageRevisionFilter.matchesLabels, h]
  simp only [prConditions, selects_append, hcolumn, hpkg, hws, hrev, hlcs, hlabels]
  simp only [ListPackageRevisionFilter.matches, PackageRevisionKey.matches, PackageKey.matches,
    RepositoryKey.matches, hlabel, Bool.and_true, TextColumn.value, Stored.joined, pkgRow]
  ac_rfl

structure QuoteFreeKey (k : PackageRevisionKey) : Prop where
  namesp : '\'' ∉ k.pkgKey.repoKey.namesp
  repo : '\'' ∉ k.pkgKey.repoKey.name
  directory : '\'' ∉ k.pkgKey.repoKey.path
  placeholder : '\'' ∉ k.pkgKey.repoKey.placeholderWSname
  package : '\'' ∉ k.pkgKey.package
  path : '\'' ∉ k.pkgKey.path
  workspace : '\'' ∉ k.workspaceName

/-- **The clause of a filter without quotes and without a label selector is read as the comparisons
    of the filter, and of any stored revisions it selects those that match.** The revision of a row
    is the one that it is read back as. -/
theorem where_selects_matching (f : ListPackageRevisionFilter) (hlabel : f.label = none)
    (hquotes : QuoteFreeKey f.key) (stored : List Stored) :
    ReadsAs (prListFilter2WhereClause f) ((prConditions f).map Comparison.pieces) ∧
    stored.filter (fun s => selects (prConditions f) s.joined) =
      stored.filter (fun s => f.matches s.revision) ∧
    ∀ s ∈ stored, (scanRow s.joined.repo s.joined.pkg s.joined.rev).pkgRevKey = s.revision.key := by
  refine ⟨?_, List.filter_congr fun s _ => selects_prConditions f s hlabel, fun s _ => scanRow_key s⟩
  rw [← prComparisons_eq hlabel]
  have hsel : ∀ sel, f.label = some sel → Validated sel := by
    intro sel hsel
    rw [hlabel] at hsel
    cases hsel
  rw [pr_readsAs_iff hsel, quoteFree_package, quoteFree_repo]
  exact ⟨⟨⟨hquotes.namesp, hquotes.repo, hquotes.directory, hquotes.placeholder⟩, hquotes.package,
    hquotes.path⟩, hquotes.workspace⟩

/-- The revision `v1.2.3` of `a/b/app`, which has a label. -/
def dotted : Stored where
  revision :=
    { key :=
        { pkgKey :=
            { repoKey := { namesp := "ns", name := "repo", placeholderWSname := "main" }
              path := "a/b"
              package := "app" }
          revision := 1
          workspaceName := "v1.2.3" }
      lifecycle := .published
      packageMetadata := some [("tier", "web")] }
  repo := by unfold IsLabel; decide
  path := .inl (by unfold DirOk IsLabel; decide)
  package := by unfold IsLabel; decide
  workspace := by decide

def byWorkspaceAndLabel : ListPackageRevisionFilter where
  key := { pkgKey := { package := "app" }, workspaceName := "v1.2.3" }
  lifecycles := [.published, .deletionProposed]
  kptfileLabels := [("tier", "web")]

/-- It is found by package, workspace, lifecycle and label. -/
theorem where_selects_matching_dotted :
    [dotted].filter (fun s => selects (prConditions byWorkspaceAndLabel) s.joined) = [dotted] := by
  rw [(where_selects_matching byWorkspaceAndLabel rfl ⟨by decide, by decide, by decide, by decide, by decide,
    by decide, by decide⟩ [dotted]).2.1]
  exact List.filter_eq_self.mpr fun s hs => by rw [List.mem_singleton.mp hs]; decide

end Porch.Db.Where
