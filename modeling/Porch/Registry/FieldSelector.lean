import Porch.Api
import Porch.Git.Refs
import Porch.K8s.Selector

/- Field selectors of list requests: `pkg/registry/porch/fieldselector.go` and the
   filters of `pkg/repository/repository.go` that they are turned into.

     PrFilterFieldMappings            prFilterField
     getPkgRevLabels, .MatchesLabels  Revision.labelSet, .matchesLabels

   The requirements are folded into one filter. Each writes some parts of it, and what it
   writes replaces what is there, so a part holds what the last requirement that writes
   it has written (`parsed_from`); only the lifecycles add up.

   Of the API object the fields that a requirement can name are kept. A map is the list
   of its entries. -/
namespace Porch.Registry

open Go K8s Git

/-! Requirements and filters -/

/-- `fields.Requirement`. -/
structure FieldRequirement where
  field : Str
  operator : Operator
  value : Str
deriving DecidableEq, Repr

/-- `PkgRevFieldSelector`: the fields that can be selected on. -/
inductive PkgRevFieldSelector where
  | name
  | namesp
  | revision
  | packageName
  | repository
  | workspaceName
  | lifecycle
deriving DecidableEq, Repr

def PkgRevFieldSelector.text : PkgRevFieldSelector → Str
  | name => "metadata.name"
  | namesp => "metadata.namespace"
  | revision => "spec.revision"
  | packageName => "spec.packageName"
  | repository => "spec.repository"
  | workspaceName => "spec.workspaceName"
  | lifecycle => "spec.lifecycle"

/-- `PackageRevisionSelectableFields`. -/
def packageRevisionSelectableFields : List PkgRevFieldSelector :=
  [.name, .namesp, .revision, .packageName, .repository, .workspaceName, .lifecycle]

/-- What a requirement is about: one of the fields, or a label of the Kptfile. -/
inductive Target where
  | selectable (f : PkgRevFieldSelector)
  | kptfileLabel (key : Str)
deriving DecidableEq, Repr

def labelsFieldStart : Str := "spec.packageMetadata.labels["

/-- The field `spec.packageMetadata.labels[key]`. -/
def kptfileLabelKey (field : Str) : Option Str :=
  if labelsFieldStart.isPrefixOf field && field.getLast? = some ']' then
    some ((field.drop labelsFieldStart.length).dropLast)
  else none

def targetOf (field : Str) : Option Target :=
  match kptfileLabelKey field with
  | some key => some (.kptfileLabel key)
  | none => (packageRevisionSelectableFields.find? (·.text = field)).map .selectable

def FieldRequirement.target (r : FieldRequirement) : Option Target := targetOf r.field

/-- `ListPackageRevisionFilter`. -/
structure ListPackageRevisionFilter where
  key : PackageRevisionKey := {}
  lifecycles : List Lifecycle := []
  kptfileLabels : Labels := []
  label : Option Selector := none

/-- `ListPackageFilter`. -/
structure ListPackageFilter where
  key : PackageKey := {}
deriving DecidableEq, Repr

def lifecycleText : Lifecycle → Str
  | .draft => "Draft"
  | .proposed => "Proposed"
  | .published => "Published"
  | .deletionProposed => "DeletionProposed"

/-- `IsValid`, with the lifecycle that the text stands for. -/
def lifecycleOf (s : Str) : Option Lifecycle :=
  [Lifecycle.draft, .proposed, .published, .deletionProposed].find? (lifecycleText · = s)

/-- The text of an operator, `selection.Operator`. -/
def operatorText : Operator → Str
  | .doesNotExist => "!"
  | .equals => "="
  | .doubleEquals => "=="
  | .isIn => "in"
  | .notEquals => "!="
  | .notIn => "notin"
  | .isPresent => "exists"
  | .greaterThan => "gt"
  | .lessThan => "lt"

/-- An error of the parsers: a bad request, the error of a package name, or two
    namespaces that do not agree. -/
inductive SelectorError where
  | badRequest (message : Str)
  | badName (message : Str)
  | conflictingNamespaces (message : Str)
deriving DecidableEq, Repr

/-! Parsing -/

section Parse

variable (rules : ApiUtil.NameRules)

def unsupportedValue (r : FieldRequirement) : SelectorError :=
  .badRequest ("unsupported fieldSelector value " ++ rules.quote r.value ++
    " for field " ++ rules.quote r.field ++ " with operator " ++
    rules.quote (operatorText r.operator))

def unsupportedOperator (r : FieldRequirement) : SelectorError :=
  .badRequest ("unsupported fieldSelector operator " ++ rules.quote (operatorText r.operator) ++
    " for field " ++ rules.quote r.field)

def unknownField (r : FieldRequirement) : SelectorError :=
  .badRequest ("unknown fieldSelector field " ++ rules.quote r.field)

/-- The parent directory and the leaf of `spec.packageName`, none for the directory if
    there is no slash. -/
def splitPackageName (fullPkgName : Str) : Option Str × Str :=
  let split := fullPkgName.splitOn '/'
  if 1 < split.length then (some (join '/' split.dropLast), split.getLastD [])
  else (none, fullPkgName)

/-- `PrFilterFieldMappings`. The error of a name that does not parse is declared in the
    inner scope, so that the outer one, nil, is returned. -/
def prFilterField (sel : PkgRevFieldSelector) (f : ListPackageRevisionFilter) (value : Str) :
    Except SelectorError ListPackageRevisionFilter :=
  match sel with
  | .name =>
    match pkgRevK8sName2Key rules [] value with
    | .ok filterKey => .ok { f with key := filterKey }
    | .error _ => .ok f
  | .namesp => .ok { f with key.pkgKey.repoKey.namesp := value }
  | .revision => .ok { f with key.revision := revision2Int value }
  | .packageName =>
    match splitPackageName value with
    | (some path, package) =>
      .ok { f with key.pkgKey.package := package, key.pkgKey.path := path }
    | (none, package) => .ok { f with key.pkgKey.package := package }
  | .repository => .ok { f with key.pkgKey.repoKey.name := value }
  | .workspaceName => .ok { f with key.workspaceName := value }
  | .lifecycle =>
    match lifecycleOf value with
    | some l => .ok { f with lifecycles := f.lifecycles ++ [l] }
    | none =>
      .error (.badRequest ("unsupported fieldSelector value " ++ rules.quote value ++
        " for field " ++ rules.quote PkgRevFieldSelector.lifecycle.text))

/-- `m[key] = value`. -/
def setEntry (m : Labels) (key value : Str) : Labels := (key, value) :: m.filter (·.1 ≠ key)

/-- One turn of the loop of `parsePackageRevisionFieldSelector`. -/
def applyRequirement (f : ListPackageRevisionFilter) (r : FieldRequirement) :
    Except SelectorError ListPackageRevisionFilter :=
  if r.operator ≠ .equals ∧ r.operator ≠ .doubleEquals then .error (unsupportedOperator rules r)
  else if r.value = [] then .error (unsupportedValue rules r)
  else
    match r.target with
    | some (.kptfileLabel labelKey) =>
      if labelKey = [] then
        .error (.badRequest ("label key cannot be empty in field selector " ++
          rules.quote r.field))
      else .ok { f with kptfileLabels := setEntry f.kptfileLabels labelKey r.value }
    | some (.selectable sel) => prFilterField rules sel f r.value
    | none => .error (unknownField rules r)

/-- The namespace of the request against that of the selector. -/
def checkNamespace (namesp : Str) (selected : Str) : Option SelectorError :=
  if namesp ≠ [] ∧ selected ≠ [] ∧ selected ≠ namesp then
    some (.conflictingNamespaces ("conflicting namespaces specified: " ++
      rules.quote namesp ++ " and " ++ rules.quote selected))
  else none

def parsePackageRevisionFieldSelector (label : Option Selector)
    (fieldSelector : Option (List FieldRequirement)) (namesp : Str) :
    Except SelectorError ListPackageRevisionFilter :=
  match fieldSelector with
  | none => .ok { label := label, key.pkgKey.repoKey.namesp := namesp }
  | some requirements => do
    let f ← requirements.foldlM (applyRequirement rules) { label := label }
    okUnless (checkNamespace rules namesp f.key.pkgKey.repoKey.namesp)
      (if namesp = [] then f else { f with key.pkgKey.repoKey.namesp := namesp })

/-- One turn of the loop of `parsePackageFieldSelector`. -/
def applyPackageRequirement (f : ListPackageFilter) (r : FieldRequirement) :
    Except SelectorError ListPackageFilter :=
  if r.operator ≠ .equals ∧ r.operator ≠ .doesNotExist then .error (unsupportedOperator rules r)
  else if r.value = [] then .error (unsupportedValue rules r)
  else if r.field = PkgRevFieldSelector.name.text then
    match pkgK8sName2Key rules [] r.value with
    | .ok filterKey => .ok { f with key := filterKey }
    | .error e => .error (.badName e)
  else if r.field = PkgRevFieldSelector.namesp.text then
    .ok { f with key.repoKey.namesp := r.value }
  else if r.field = PkgRevFieldSelector.packageName.text then .ok { f with key.package := r.value }
  else if r.field = PkgRevFieldSelector.repository.text then
    .ok { f with key.repoKey.name := r.value }
  else .error (unknownField rules r)

def parsePackageFieldSelector (fieldSelector : Option (List FieldRequirement)) (namesp : Str) :
    Except SelectorError ListPackageFilter :=
  match fieldSelector with
  | none => .ok { key.repoKey.namesp := namesp }
  | some requirements => do
    let f ← requirements.foldlM (applyPackageRequirement rules) {}
    okUnless (checkNamespace rules namesp f.key.repoKey.namesp)
      (if namesp = [] then f else { f with key.repoKey.namesp := namesp })

end Parse

/-! Matching -/

/-- The fields of the API object that a requirement can name. -/
structure ApiPackageRevision where
  name : Str
  namesp : Str
  packageName : Str
  repositoryName : Str
  workspaceName : Str
  revision : Int
  lifecycle : Lifecycle
  packageMetadata : Option Labels
deriving DecidableEq, Repr

/-- A package revision as `Matches` sees it: its key and lifecycle, the labels of its
    metadata, whether it is the latest, and the labels of its Kptfile, none where the
    package metadata is nil. -/
structure Revision where
  key : PackageRevisionKey
  lifecycle : Lifecycle
  labels : Labels := []
  latest : Bool := false
  packageMetadata : Option Labels := none
deriving DecidableEq, Repr

/-- `GetPackageRevision`. -/
def Revision.getPackageRevision (p : Revision) : ApiPackageRevision where
  name := p.key.k8sName
  namesp := p.key.pkgKey.repoKey.namesp
  packageName := p.key.pkgKey.toPkgPathname
  repositoryName := p.key.pkgKey.repoKey.name
  workspaceName := p.key.workspaceName
  revision := p.key.revision
  lifecycle := p.lifecycle
  packageMetadata := p.packageMetadata

/-- `getPkgRevLabels`. -/
def Revision.labelSet (p : Revision) : Labels :=
  if p.latest then setEntry p.labels latestPackageRevisionKey latestPackageRevisionValue
  else p.labels

namespace ListPackageRevisionFilter

def matchesLabels (f : ListPackageRevisionFilter) (p : Revision) : Bool :=
  f.label.all fun sel => sel.matches p.labelSet

/-- The test on the labels of the Kptfile. -/
def matchesKptfileLabels (f : ListPackageRevisionFilter) (p : Revision) : Bool :=
  f.kptfileLabels = [] ||
    p.getPackageRevision.packageMetadata.any fun labels =>
      f.kptfileLabels.all fun entry => labels.lookup entry.1 = some entry.2

def «matches» (f : ListPackageRevisionFilter) (p : Revision) : Bool :=
  f.key.matches p.key && (f.lifecycles = [] || f.lifecycles.contains p.lifecycle) &&
    f.matchesKptfileLabels p && f.matchesLabels p

end ListPackageRevisionFilter

/-! What the filter holds -/

section Writes

variable (rules : ApiUtil.NameRules)

def nameKey (name : Str) : Option PackageRevisionKey :=
  (pkgRevK8sName2Key rules [] name).toOption

/-- What a requirement writes into a part of the key: `own` if it is on the field of
    that part, and the part of the key of a name that is read. -/
def writesPart {α : Type} (own : PkgRevFieldSelector → Str → Option α)
    (part : PackageRevisionKey → α) (r : FieldRequirement) : Option α :=
  match r.target with
  | some (.selectable .name) => (nameKey rules r.value).map part
  | some (.selectable sel) => own sel r.value
  | _ => none

def writesNamespace : FieldRequirement → Option Str :=
  writesPart rules (fun sel v => if sel = .namesp then some v else none)
    (·.pkgKey.repoKey.namesp)

def writesRepository : FieldRequirement → Option Str :=
  writesPart rules (fun sel v => if sel = .repository then some v else none)
    (·.pkgKey.repoKey.name)

def writesPath : FieldRequirement → Option Str :=
  writesPart rules (fun sel v => if sel = .packageName then (splitPackageName v).1 else none)
    (·.pkgKey.path)

def writesPackage : FieldRequirement → Option Str :=
  writesPart rules (fun sel v => if sel = .packageName then some (splitPackageName v).2 else none)
    (·.pkgKey.package)

def writesWorkspace : FieldRequirement → Option Str :=
  writesPart rules (fun sel v => if sel = .workspaceName then some v else none) (·.workspaceName)

def writesRevision : FieldRequirement → Option Int :=
  writesPart rules (fun sel v => if sel = .revision then some (revision2Int v) else none)
    (·.revision)

/-- The lifecycle that a requirement adds. -/
def writesLifecycle (r : FieldRequirement) : Option Lifecycle :=
  if r.target = some (.selectable .lifecycle) then lifecycleOf r.value else none

attribute [simp] writesNamespace writesRepository writesPath writesPackage writesWorkspace
  writesRevision writesPart writesLifecycle

/-- The value that a requirement gives to a label of the Kptfile. -/
def writesLabel (key : Str) (r : FieldRequirement) : Option Str :=
  if r.target = some (.kptfileLabel key) then some r.value else none

/-- What the last requirement that writes has written. -/
def lastWrite {α : Type} (write : FieldRequirement → Option α) (rs : List FieldRequirement) :
    Option α :=
  (rs.filterMap write).getLast?

/-- **A part of a filter that each requirement may replace holds what was written
    last.** -/
theorem foldlM_lastWrite {σ α : Type} {step : σ → FieldRequirement → Except SelectorError σ}
    {g : σ → α} {write : FieldRequirement → Option α} {rs : List FieldRequirement} {f f' : σ}
    (h : rs.foldlM step f = .ok f')
    (hstep : ∀ {f r f'}, step f r = .ok f' → g f' = (write r).getD (g f)) :
    g f' = (lastWrite write rs).getD (g f) := by
  induction rs generalizing f with
  | nil =>
    cases h
    rfl
  | cons r rs ih =>
    rw [List.foldlM_cons] at h
    obtain ⟨f₁, h₁, h⟩ := bind_eq_ok.mp h
    rw [ih h, hstep h₁]
    cases hw : write r with
    | none => simp [lastWrite, hw]
    | some a => simp only [lastWrite, List.filterMap_cons, hw, List.getLast?_cons, Option.getD_some]

structure Written (f : ListPackageRevisionFilter) (r : FieldRequirement)
    (f' : ListPackageRevisionFilter) : Prop where
  namesp : f'.key.pkgKey.repoKey.namesp =
    (writesNamespace rules r).getD f.key.pkgKey.repoKey.namesp
  repository : f'.key.pkgKey.repoKey.name =
    (writesRepository rules r).getD f.key.pkgKey.repoKey.name
  path : f'.key.pkgKey.path = (writesPath rules r).getD f.key.pkgKey.path
  package : f'.key.pkgKey.package = (writesPackage rules r).getD f.key.pkgKey.package
  workspace : f'.key.workspaceName = (writesWorkspace rules r).getD f.key.workspaceName
  revision : f'.key.revision = (writesRevision rules r).getD f.key.revision
  lifecycles : f'.lifecycles = f.lifecycles ++ (writesLifecycle r).toList
  labels : ∀ k, f'.kptfileLabels.lookup k = (writesLabel k r).or (f.kptfileLabels.lookup k)
  label : f'.label = f.label
  repoPath : f.key.pkgKey.repoKey.path = [] → f'.key.pkgKey.repoKey.path = []
  placeholder : f.key.pkgKey.repoKey.placeholderWSname = [] →
    f'.key.pkgKey.repoKey.placeholderWSname = []
  nodup : (f.kptfileLabels.map Prod.fst).Nodup → (f'.kptfileLabels.map Prod.fst).Nodup

end Writes

section Written

variable {rules : ApiUtil.NameRules} {f f' : ListPackageRevisionFilter} {r : FieldRequirement}

theorem lookup_setEntry (m : Labels) (key value k : Str) :
    (setEntry m key value).lookup k = if k = key then some value else m.lookup k := by
  unfold setEntry
  rw [List.lookup_cons]
  by_cases hk : k = key
  · simp [hk]
  · rw [beq_eq_false_iff_ne.mpr hk, if_neg hk]
    exact (lookup_filter (p := (· ≠ key))).trans (by simp [hk])

theorem nodup_setEntry {m : Labels} (h : (m.map Prod.fst).Nodup) (key value : Str) :
    ((setEntry m key value).map Prod.fst).Nodup := by
  refine List.nodup_cons.mpr ⟨?_, (List.filter_sublist.map Prod.fst).nodup h⟩
  simp

theorem nameKey_blank {name : Str} {k : PackageRevisionKey} (h : nameKey rules name = some k) :
    k.pkgKey.repoKey.path = [] ∧ k.pkgKey.repoKey.placeholderWSname = [] ∧
      k.pkgKey.repoKey.namesp = [] ∧ k.revision = 0 := by
  unfold nameKey at h
  cases hname : pkgRevK8sName2Key rules [] name with
  | error e => simp [hname, Except.toOption] at h
  | ok k' =>
    obtain rfl : k' = k := by simpa [hname, Except.toOption] using h
    obtain ⟨-, rfl⟩ := okUnless_eq_ok.mp hname
    exact ⟨rfl, rfl, rfl, rfl⟩

theorem prFilterField_written {sel : PkgRevFieldSelector} (ht : r.target = some (.selectable sel))
    (h : prFilterField rules sel f r.value = .ok f') : Written rules f r f' := by
  have hlabel : ∀ k, writesLabel k r = none := fun k => if_neg (by simp [ht])
  cases sel with
  | name =>
    simp only [prFilterField] at h
    cases hkey : pkgRevK8sName2Key rules [] r.value with
    | error e =>
      rw [hkey] at h
      cases h
      have hname : nameKey rules r.value = none := by simp [nameKey, hkey, Except.toOption]
      constructor <;> simp [hlabel, ht, hname]
    | ok k =>
      rw [hkey] at h
      cases h
      have hname : nameKey rules r.value = some k := by simp [nameKey, hkey, Except.toOption]
      have hblank := nameKey_blank hname
      constructor <;> simp [hlabel, ht, hname, hblank]
  | packageName =>
    simp only [prFilterField] at h
    cases hsplit : splitPackageName r.value with
    | mk path package =>
      rw [hsplit] at h
      cases path <;> cases h <;> constructor <;>
        simp [hlabel, ht, hsplit]
  | lifecycle =>
    simp only [prFilterField] at h
    cases hl : lifecycleOf r.value with
    | none => simp [hl] at h
    | some l =>
      rw [hl] at h
      cases h
      constructor <;> simp [hlabel, ht, hl]
  | namesp | revision | repository | workspaceName =>
    cases h
    constructor <;> simp [hlabel, ht]

/-- What the loop does with a requirement that it accepts. -/
theorem applyRequirement_ok (h : applyRequirement rules f r = .ok f') : r.value ≠ [] ∧
      ((∃ sel, r.target = some (.selectable sel) ∧ prFilterField rules sel f r.value = .ok f') ∨
        ∃ key, r.target = some (.kptfileLabel key) ∧ key ≠ [] ∧
          f' = { f with kptfileLabels := setEntry f.kptfileLabels key r.value }) := by
  unfold applyRequirement at h
  split at h
  · cases h
  split at h
  · cases h
  next hvalue =>
    refine ⟨hvalue, ?_⟩
    split at h
    · next key ht =>
      split at h
      · cases h
      · next hkey =>
        cases h
        exact .inr ⟨key, ht, hkey, rfl⟩
    · next sel ht => exact .inl ⟨sel, ht, h⟩
    · cases h

theorem applyRequirement_written (h : applyRequirement rules f r = .ok f') :
    Written rules f r f' := by
  obtain ⟨-, ⟨sel, ht, h⟩ | ⟨key, ht, -, rfl⟩⟩ := applyRequirement_ok h
  · exact prFilterField_written ht h
  · have hlabels : ∀ k, (setEntry f.kptfileLabels key r.value).lookup k =
        (writesLabel k r).or (f.kptfileLabels.lookup k) := by
      intro k
      rw [lookup_setEntry, writesLabel, ht]
      by_cases hk : k = key
      · simp [hk]
      · simp [hk, Ne.symm hk]
    constructor
    case labels => exact hlabels
    case nodup => exact fun h => nodup_setEntry h key r.value
    all_goals simp [ht]

variable {rs : List FieldRequirement}

theorem foldlM_lifecycles (h : rs.foldlM (applyRequirement rules) f = .ok f') :
    f'.lifecycles = f.lifecycles ++ rs.filterMap writesLifecycle := by
  induction rs generalizing f with
  | nil =>
    cases h
    simp
  | cons r rs ih =>
    rw [List.foldlM_cons] at h
    obtain ⟨f₁, h₁, h⟩ := bind_eq_ok.mp h
    rw [ih h, (applyRequirement_written h₁).lifecycles]
    cases hw : writesLifecycle r <;> simp [hw, -writesLifecycle]

theorem lastWrite_map {α β : Type} (write : FieldRequirement → Option α) (g : α → β)
    (rs : List FieldRequirement) :
    lastWrite (fun r => (write r).map g) rs = (lastWrite write rs).map g := by
  unfold lastWrite
  rw [← List.getLast?_map, List.map_filterMap]

theorem foldlM_label (h : rs.foldlM (applyRequirement rules) f = .ok f') (k : Str) :
    f'.kptfileLabels.lookup k = (lastWrite (writesLabel k) rs).or (f.kptfileLabels.lookup k) := by
  have hlast := foldlM_lastWrite (g := fun f => f.kptfileLabels.lookup k) h
    fun {f r f'} hw => show _ = ((writesLabel k r).map some).getD _ by
      rw [(applyRequirement_written hw).labels k]
      cases writesLabel k r <;> rfl
  rw [hlast, lastWrite_map]
  cases lastWrite (writesLabel k) rs <;> rfl

/-- A requirement that the loop accepts: it has a value, is on a known field, and a
    lifecycle is one of the four. -/
structure FieldRequirement.Accepted (r : FieldRequirement) : Prop where
  value : r.value ≠ []
  target : r.target.isSome
  lifecycle : r.target = some (.selectable .lifecycle) → (lifecycleOf r.value).isSome

theorem applyRequirement_accepted (h : applyRequirement rules f r = .ok f') : r.Accepted := by
  obtain ⟨hvalue, ⟨sel, ht, h⟩ | ⟨key, ht, -, -⟩⟩ := applyRequirement_ok h
  · refine ⟨hvalue, by simp [ht], fun hl => ?_⟩
    obtain rfl : sel = .lifecycle := by simpa [ht] using hl
    simp only [prFilterField] at h
    cases hl : lifecycleOf r.value with
    | none => simp [hl] at h
    | some l => rfl
  · exact ⟨hvalue, by simp [ht], fun hl => by simp [ht] at hl⟩

theorem foldlM_accepted
    (h : rs.foldlM (applyRequirement rules) f = .ok f') : ∀ r ∈ rs, r.Accepted := by
  induction rs generalizing f with
  | nil => simp
  | cons r rs ih =>
    rw [List.foldlM_cons] at h
    obtain ⟨f₁, h₁, h⟩ := bind_eq_ok.mp h
    exact List.forall_mem_cons.mpr ⟨applyRequirement_accepted h₁, ih h⟩

end Written

/-- The key with what was written last in each part; the namespace of a request that has
    one goes before. -/
def lastKey (rules : ApiUtil.NameRules) (rs : List FieldRequirement) (namesp : Str) :
    PackageRevisionKey where
  pkgKey :=
    { repoKey :=
        { namesp := if namesp = [] then (lastWrite (writesNamespace rules) rs).getD [] else namesp
          name := (lastWrite (writesRepository rules) rs).getD [] }
      path := (lastWrite (writesPath rules) rs).getD []
      package := (lastWrite (writesPackage rules) rs).getD [] }
  revision := (lastWrite (writesRevision rules) rs).getD 0
  workspaceName := (lastWrite (writesWorkspace rules) rs).getD []

structure ParsedFrom (rules : ApiUtil.NameRules) (label : Option Selector)
    (rs : List FieldRequirement) (namesp : Str) (f : ListPackageRevisionFilter) : Prop where
  key : f.key = lastKey rules rs namesp
  lifecycles : f.lifecycles = rs.filterMap writesLifecycle
  labels : ∀ k, f.kptfileLabels.lookup k = lastWrite (writesLabel k) rs
  nodup : (f.kptfileLabels.map Prod.fst).Nodup
  label : f.label = label
  accepted : ∀ r ∈ rs, r.Accepted
  noConflict : namesp ≠ [] → (lastWrite (writesNamespace rules) rs).getD [] = [] ∨
    (lastWrite (writesNamespace rules) rs).getD [] = namesp

variable {rules : ApiUtil.NameRules} {namesp : Str}

variable {label : Option Selector} {f : ListPackageRevisionFilter}
  {fieldSelector : Option (List FieldRequirement)}

theorem parsed_last {rs : List FieldRequirement}
    (h : parsePackageRevisionFieldSelector rules label (some rs) namesp = .ok f) :
    ParsedFrom rules label rs namesp f := by
  simp only [parsePackageRevisionFieldSelector] at h
  obtain ⟨f₁, hfold, h⟩ := bind_eq_ok.mp h
  obtain ⟨hcheck, rfl⟩ := okUnless_eq_ok.mp h
  have hns := foldlM_lastWrite (g := fun f => f.key.pkgKey.repoKey.namesp) hfold
    fun hw => (applyRequirement_written hw).namesp
  have hrepo := foldlM_lastWrite (g := fun f => f.key.pkgKey.repoKey.name) hfold
    fun hw => (applyRequirement_written hw).repository
  have hpath := foldlM_lastWrite (g := fun f => f.key.pkgKey.path) hfold
    fun hw => (applyRequirement_written hw).path
  have hpkg := foldlM_lastWrite (g := fun f => f.key.pkgKey.package) hfold
    fun hw => (applyRequirement_written hw).package
  have hws := foldlM_lastWrite (g := fun f => f.key.workspaceName) hfold
    fun hw => (applyRequirement_written hw).workspace
  have hrev := foldlM_lastWrite (g := fun f => f.key.revision) hfold
    fun hw => (applyRequirement_written hw).revision
  have hblank := foldlM_keeps (P := fun f => f.key.pkgKey.repoKey.path = [] ∧
      f.key.pkgKey.repoKey.placeholderWSname = [] ∧ f.label = label ∧
      (f.kptfileLabels.map Prod.fst).Nodup)
    (fun _ _ _ _ hstep hf => by
      have hw := applyRequirement_written hstep
      exact ⟨hw.repoPath hf.1, hw.placeholder hf.2.1, hw.label.trans hf.2.2.1, hw.nodup hf.2.2.2⟩)
    hfold ⟨rfl, rfl, rfl, List.nodup_nil⟩
  obtain ⟨hrepoPath, hplaceholder, hlabel, hnodup⟩ := hblank
  have hkey : f₁.key = lastKey rules rs [] := by
    obtain ⟨⟨⟨⟨ns, name, rp, ph⟩, path, package⟩, rev, ws⟩, ls, kl, la⟩ := f₁
    simp only at hns hrepo hpath hpkg hws hrev hrepoPath hplaceholder
    simp [lastKey, hns, hrepo, hpath, hpkg, hws, hrev, hrepoPath, hplaceholder]
  refine ⟨?_, ?_, fun k => ?_, ?_, ?_, foldlM_accepted hfold, fun hne => ?_⟩
  · split
    · next hempty => rw [hkey, hempty]
    · next hne => simp [hkey, lastKey, hne]
  · have hl := foldlM_lifecycles hfold
    split <;> simpa using hl
  · have hl := foldlM_label hfold k
    split <;> simpa using hl
  · split <;> exact hnodup
  · split <;> exact hlabel
  · unfold checkNamespace at hcheck
    by_contra hcon
    rw [not_or] at hcon
    have hsel : f₁.key.pkgKey.repoKey.namesp = (lastWrite (writesNamespace rules) rs).getD [] := hns
    rw [if_pos ⟨hne, hsel ▸ hcon.1, hsel ▸ hcon.2⟩] at hcheck
    cases hcheck

/-- **Every part of a parsed filter holds what the last requirement that writes it has
    written.** -/
theorem parsed_from
    (h : parsePackageRevisionFieldSelector rules label fieldSelector namesp = .ok f) :
    ParsedFrom rules label (fieldSelector.getD []) namesp f := by
  cases fieldSelector with
  | some rs => exact parsed_last h
  | none =>
    cases h
    refine ⟨?_, rfl, fun k => rfl, List.nodup_nil, rfl, by simp, fun _ => .inl rfl⟩
    by_cases hempty : namesp = [] <;> simp [lastKey, lastWrite, hempty]

/-! The filter of a request for packages -/

/-- The key that a package name is read as. -/
def pkgNameKey (rules : ApiUtil.NameRules) (name : Str) : Option PackageKey :=
  (pkgK8sName2Key rules [] name).toOption

/-- The package that a requirement writes. -/
def writesPkgPackage (rules : ApiUtil.NameRules) (r : FieldRequirement) : Option Str :=
  if r.field = PkgRevFieldSelector.name.text then (pkgNameKey rules r.value).map (·.package)
  else if r.field = PkgRevFieldSelector.packageName.text then some r.value
  else none

/-- The path that a requirement writes: only a name does. -/
def writesPkgPath (rules : ApiUtil.NameRules) (r : FieldRequirement) : Option Str :=
  if r.field = PkgRevFieldSelector.name.text then (pkgNameKey rules r.value).map (·.path) else none

theorem applyPackageRequirement_written {f f' : ListPackageFilter}
    {r : FieldRequirement} (h : applyPackageRequirement rules f r = .ok f') :
    f'.key.package = (writesPkgPackage rules r).getD f.key.package ∧
      f'.key.path = (writesPkgPath rules r).getD f.key.path := by
  have hnames : PkgRevFieldSelector.namesp.text ≠ PkgRevFieldSelector.packageName.text ∧
      PkgRevFieldSelector.repository.text ≠ PkgRevFieldSelector.packageName.text := by
    decide +kernel
  unfold applyPackageRequirement at h
  unfold writesPkgPackage writesPkgPath pkgNameKey
  split at h
  · cases h
  split at h
  · cases h
  split at h
  · next hfield =>
    rw [if_pos hfield, if_pos hfield]
    cases hkey : pkgK8sName2Key rules [] r.value with
    | error e => simp [hkey] at h
    | ok k =>
      rw [hkey] at h
      cases h
      exact ⟨rfl, rfl⟩
  next hname =>
    rw [if_neg hname, if_neg hname]
    split at h
    · next hfield =>
      cases h
      rw [if_neg (hfield ▸ hnames.1)]
      exact ⟨rfl, rfl⟩
    split at h
    · next hfield =>
      cases h
      rw [if_pos hfield]
      exact ⟨rfl, rfl⟩
    next hpkg =>
      rw [if_neg hpkg]
      split at h
      · cases h
        exact ⟨rfl, rfl⟩
      · cases h

theorem parsedPackage_last {f : ListPackageFilter}
    (h : parsePackageFieldSelector rules fieldSelector namesp = .ok f) :
    f.key.package = (lastWrite (writesPkgPackage rules) (fieldSelector.getD [])).getD [] ∧
      f.key.path = (lastWrite (writesPkgPath rules) (fieldSelector.getD [])).getD [] := by
  cases fieldSelector with
  | none =>
    cases h
    exact ⟨rfl, rfl⟩
  | some rs =>
    simp only [parsePackageFieldSelector] at h
    obtain ⟨f₁, hfold, h⟩ := bind_eq_ok.mp h
    obtain ⟨-, rfl⟩ := okUnless_eq_ok.mp h
    have hpkg := foldlM_lastWrite (g := fun f : ListPackageFilter => f.key.package) hfold
      fun hw => (applyPackageRequirement_written hw).1
    have hpath := foldlM_lastWrite (g := fun f : ListPackageFilter => f.key.path) hfold
      fun hw => (applyPackageRequirement_written hw).2
    split <;> exact ⟨hpkg, hpath⟩

end Porch.Registry
