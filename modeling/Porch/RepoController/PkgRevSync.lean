import Mathlib.Logic.Function.Basic
import Porch.PrController.Object

/- The package revisions of a repository as objects: a full sync of a repository brings the
   v1alpha2 `PackageRevision` objects in line with the packages that its cache lists, of
   `controllers/repositories/pkg/controllers/repository/pkgrevsync.go`.

     syncPackageRevisions, listExistingPackageRevisions, applyDesiredPackageRevisions,
     deleteStalePackageRevisions, applyPackageRevision, applySeedFields,
     packageRevisionUpToDate, repoOwnedLabelsMatch, resourcesSizeBytesUpToDate,
     buildPackageRevision, computeLatestRevisions, packageRevisionLabelsWithLatest,
     sourceMetadata

   The objects are those of the API server by namespace and name. An apply with force sets the
   fields that it has; a field that it leaves out goes, unless another manager owns it too. How
   the API server answers to the calls for a package is given with the package, and what the
   package reports about itself does not change in the course of a sync.

   The lifecycle is part of what is applied to an object that exists, so it follows the cache
   whenever anything else about the object is out of date (`pending_transition_undone`).
   `sync_keeps_lifecycles_iff` says when every object keeps its lifecycle. -/
namespace Porch.RepoController.PkgRevSync

open Go Porch.PrController

abbrev Id := Str × Str

structure ObjectStatus where
  upstreamLock : Option Locator := none
  selfLock : Option Locator := none
  deployment : Bool := false
  resourcesSizeBytes : Nat := 0
  revision : Int := 0
  publishedBy : Str := []
  publishedAt : Option Nat := none
  packageConditions : List Str := []
deriving DecidableEq, Repr

structure Object where
  labels : Labels := []
  annotations : Labels := []
  /-- The UID of the repository that owns the object. -/
  owner : Option Str := none
  finalizer : Bool := false
  deleting : Bool := false
  spec : Spec
  status : ObjectStatus := {}
deriving DecidableEq, Repr

abbrev Objects := Id → Option Object

structure Repo where
  name : Str
  ns : Str
  uid : Str
  deployment : Bool := false
deriving DecidableEq, Repr

/-- A package revision of the cache, by what is asked of it. -/
structure PkgRev where
  kubeObjectName : Str
  kubeObjectNamespace : Str
  pkgPathname : Str
  repositoryName : Str
  workspaceName : Str
  revision : Int
  lifecycle : Lifecycle
  upstreamLock : Option Locator := none
  selfLock : Option Locator := none
  /-- The size of the resources, if they can be read. -/
  resourcesSize : Option Nat := none
  readinessGates : List Str := []
  packageMetadata : Option PackageMetadata := none
  packageConditions : List Str := []
  commitTime : Option Nat := none
  commitAuthor : Str := []
  metaLabels : Labels := []
  metaAnnotations : Labels := []
deriving DecidableEq, Repr

/-- How the API server answers to the calls for a package. -/
structure Answers where
  /-- The object, and then its status, can be applied. -/
  spec : Bool := true
  status : Bool := true
  /-- Other managers own the fields of the status too that are left out. -/
  others : Bool := false
  /-- The seed fields can be applied without a conflict. -/
  seedSpec : Bool := true
  seedStatus : Bool := true
deriving DecidableEq, Repr

/-! Labels -/

def repositoryLabel : Str := "porch.kpt.dev/repository"

def latestRevisionLabel : Str := "porch.kpt.dev/latest-revision"

/-- The labels that controllers manage, with the one of v1alpha1. -/
def systemLabels : List Str := [repositoryLabel, latestRevisionLabel, "kpt.dev/latest-revision"]

def setLabels (applied labels : Labels) : Labels :=
  applied ++ labels.filter fun kv => applied.lookup kv.1 = none

/-- `labels[key]`, where a key that is absent is the empty string. -/
def labelValue (labels : Labels) (key : Str) : Str := (labels.lookup key).getD []

def packageRevisionLabelsWithLatest (repoName : Str) (isLatest : Bool) : Labels :=
  [(repositoryLabel, repoName),
   (latestRevisionLabel, if isLatest then latestPackageRevisionValue else "false")]

/-- The labels and annotations of the package that are carried over. -/
def sourceMetadata (pkgRev : PkgRev) : Labels × Labels :=
  (pkgRev.metaLabels.filter fun kv => kv.1 ∉ systemLabels, pkgRev.metaAnnotations)

/-! The objects that are wanted -/

/-- A candidate for the latest revision of the package. -/
def eligible (path : Str) (p : PkgRev) : Bool :=
  lifecycleIsPublished p.lifecycle ∧ 0 < p.revision ∧ p.pkgPathname = path

/-- The first of the greatest revisions of a package. -/
def latestPerPkg (pkgRevs : List PkgRev) (path : Str) : Option PkgRev :=
  pkgRevs.foldl
    (fun best p => if eligible path p && best.all fun b => decide (b.revision < p.revision) then some p else best)
    none

def computeLatestRevisions (pkgRevs : List PkgRev) (name : Str) : Bool :=
  pkgRevs.any fun p => ((latestPerPkg pkgRevs p.pkgPathname).map (·.kubeObjectName)) = some name

def buildPackageRevision (repo : Repo) (pkgRev : PkgRev) (isLatest : Bool) : Object where
  labels := packageRevisionLabelsWithLatest repo.name isLatest
  owner := some repo.uid
  spec :=
    { packageName := pkgRev.pkgPathname
      repositoryName := pkgRev.repositoryName
      workspaceName := pkgRev.workspaceName
      lifecycle := some pkgRev.lifecycle }
  status :=
    { upstreamLock := pkgRev.upstreamLock
      selfLock := pkgRev.selfLock
      deployment := repo.deployment
      resourcesSizeBytes := pkgRev.resourcesSize.getD 0 }

def repoOwnedLabelsMatch (existing desired : Labels) : Bool :=
  labelValue existing repositoryLabel = labelValue desired repositoryLabel ∧
    labelValue existing latestRevisionLabel = labelValue desired latestRevisionLabel

def resourcesSizeBytesUpToDate (existing desired : Nat) : Bool := desired = 0 ∨ existing = desired

def packageRevisionUpToDate (existing desired : Object) : Bool :=
  repoOwnedLabelsMatch existing.labels desired.labels &&
    decide (existing.status.deployment = desired.status.deployment) &&
    resourcesSizeBytesUpToDate existing.status.resourcesSizeBytes desired.status.resourcesSizeBytes &&
    decide (existing.status.upstreamLock = desired.status.upstreamLock) &&
    decide (existing.status.selfLock = desired.status.selfLock)

/-! What is applied -/

/-- The object after an apply of the metadata and the spec, which is created if it is absent. -/
def appliedSpec (desired : Object) : Option Object → Object
  | none => { desired with status := {} }
  | some old =>
    { old with
      labels := setLabels desired.labels old.labels
      owner := desired.owner
      spec :=
        { old.spec with
          packageName := desired.spec.packageName
          repositoryName := desired.spec.repositoryName
          workspaceName := desired.spec.workspaceName
          lifecycle := desired.spec.lifecycle } }

def appliedStatus (others : Bool) (desired old : ObjectStatus) : ObjectStatus :=
  { old with
    upstreamLock := desired.upstreamLock <|> if others then old.upstreamLock else none
    selfLock := desired.selfLock <|> if others then old.selfLock else none
    deployment := desired.deployment || (others && old.deployment)
    resourcesSizeBytes :=
      if desired.resourcesSizeBytes = 0 ∧ others then old.resourcesSizeBytes else desired.resourcesSizeBytes }

/-- The object is applied; an error is left in the log. -/
def applyPackageRevision (a : Answers) (desired : Object) (old : Option Object) : Option Object :=
  if a.spec then
    let applied := appliedSpec desired old
    if a.status then some { applied with status := appliedStatus a.others desired.status applied.status }
    else some applied
  else old

/-- The fields of a new object that the repository only seeds. -/
def seededSpec (pkgRev : PkgRev) (o : Object) : Object :=
  { o with
    labels := setLabels (sourceMetadata pkgRev).1 o.labels
    annotations := setLabels (sourceMetadata pkgRev).2 o.annotations
    spec :=
      { o.spec with
        lifecycle := some pkgRev.lifecycle
        readinessGates := pkgRev.readinessGates
        packageMetadata := pkgRev.packageMetadata <|> o.spec.packageMetadata } }

def seededStatus (pkgRev : PkgRev) (o : Object) : Object :=
  let status := { o.status with packageConditions := pkgRev.packageConditions }
  if lifecycleIsPublished pkgRev.lifecycle then
    { o with
      status :=
        { status with
          revision := pkgRev.revision
          publishedBy := pkgRev.commitAuthor
          publishedAt := pkgRev.commitTime <|> status.publishedAt } }
  else { o with status := status }

def applySeedFields (a : Answers) (pkgRev : PkgRev) (o : Object) : Object :=
  let o := if a.seedSpec then seededSpec pkgRev o else o
  if a.seedStatus then seededStatus pkgRev o else o

/-! The sync -/

section Sync

variable (repo : Repo) (pkgRevs : List (PkgRev × Answers)) (objects : Objects)

/-- The objects that carry the label of the repository, by name. -/
def listExistingPackageRevisions (name : Str) : Option Object :=
  (objects (repo.ns, name)).filter fun o => o.labels.lookup repositoryLabel = some repo.name

def id (p : PkgRev) : Id := (p.kubeObjectNamespace, p.kubeObjectName)

/-- The object that is wanted for a package of the list. -/
def desiredFor (p : PkgRev) : Object :=
  buildPackageRevision repo p (computeLatestRevisions (pkgRevs.map (·.1)) p.kubeObjectName)

/-- The package is passed over: its object was made by a user, or is up to date. -/
def skipped (existing : Option Object) (desired : Object) : Bool :=
  existing.any fun ex => decide (ex.spec.source ≠ none) || packageRevisionUpToDate ex desired

/-- What is done for one package; `existing` are the objects as listed before. -/
def applyDesired (existing : Str → Option Object) (desired : PkgRev → Object) (objects : Objects)
    (entry : PkgRev × Answers) : Objects :=
  let (p, a) := entry
  if skipped (existing p.kubeObjectName) (desired p) then objects
  else
    let applied := applyPackageRevision a (desired p) (objects (id p))
    let seeded :=
      if (existing p.kubeObjectName).isNone && a.spec && a.status then applied.map (applySeedFields a p)
      else applied
    Function.update objects (id p) seeded

def applyDesiredPackageRevisions : Objects :=
  pkgRevs.foldl
    (applyDesired (listExistingPackageRevisions repo objects) (desiredFor repo pkgRevs)) objects

/-- An object is deleted, or is on its way if it has a finalizer. -/
def deleted (o : Object) : Option Object := if o.finalizer then some { o with deleting := true } else none

/-- The objects that were listed, are not wanted and were not made by a user; `deletes` says for
    which of them the call works. -/
def deleteStalePackageRevisions (deletes : Str → Bool) (after : Objects) : Objects := fun i =>
  let stale := decide (i.1 = repo.ns) && decide (i.2 ∉ pkgRevs.map (·.1.kubeObjectName)) && deletes i.2 &&
    (listExistingPackageRevisions repo objects i.2).any fun ex => decide (ex.spec.source = none)
  if stale then (after i).bind deleted else after i

/-- The objects after a sync; `lists` says that the objects can be listed. -/
def syncPackageRevisions (lists : Bool) (deletes : Str → Bool) : Objects :=
  if lists then
    deleteStalePackageRevisions repo pkgRevs objects deletes (applyDesiredPackageRevisions repo pkgRevs objects)
  else objects

/-! What happens to the lifecycle -/

/-- The lifecycle of an object, if there is one. -/
def lifecycleAt (objects : Objects) (i : Id) : Option (Option Lifecycle) := (objects i).map (·.spec.lifecycle)

/-- What the apply for a package sets the lifecycle of an object to. -/
def setsLifecycle (i : Id) (entry : PkgRev × Answers) : Option Lifecycle :=
  if id entry.1 = i ∧ entry.2.spec = true ∧
      skipped (listExistingPackageRevisions repo objects entry.1.kubeObjectName)
        (desiredFor repo pkgRevs entry.1) = false then
    some entry.1.lifecycle
  else none

/-- What the last apply to an object sets its lifecycle to: the last package in the list with
    the name of the object that is not passed over and can be applied. -/
def lastLifecycle (i : Id) : Option Lifecycle :=
  (pkgRevs.filterMap (setsLifecycle repo pkgRevs objects i)).getLast?

end Sync

section Lifecycle

variable {repo : Repo} {pkgRevs : List (PkgRev × Answers)} {objects after : Objects} {i : Id}

theorem applySeedFields_lifecycle (a : Answers) (p : PkgRev) (o : Object)
    (h : o.spec.lifecycle = some p.lifecycle) :
    (applySeedFields a p o).spec.lifecycle = some p.lifecycle := by
  have hstat : ∀ o' : Object, (seededStatus p o').spec = o'.spec := fun o' => by
    unfold seededStatus
    split <;> rfl
  have hspec : (if a.seedSpec then seededSpec p o else o).spec.lifecycle = some p.lifecycle := by
    split
    · rfl
    · exact h
  show (if a.seedStatus then seededStatus p _ else _).spec.lifecycle = some p.lifecycle
  cases a.seedStatus with
  | false => exact hspec
  | true => exact (congrArg _ (hstat _)).trans hspec

variable {a : Answers} {deletes : Str → Bool} (desired : Object) (old : Option Object)

theorem applyPackageRevision_lifecycle (h : a.spec = true) :
    ∃ o, applyPackageRevision a desired old = some o ∧ o.spec.lifecycle = desired.spec.lifecycle := by
  have hspec : (appliedSpec desired old).spec.lifecycle = desired.spec.lifecycle := by
    cases old <;> rfl
  unfold applyPackageRevision
  rw [if_pos h]
  split <;> exact ⟨_, rfl, hspec⟩

theorem applyPackageRevision_failed
    (h : a.spec = false) : applyPackageRevision a desired old = old := by
  rw [applyPackageRevision, if_neg (by simp [h])]

/-- **One package**: its apply sets the lifecycle of its object, and of no other. -/
theorem applyDesired_lifecycle (entry : PkgRev × Answers) :
    lifecycleAt (applyDesired (listExistingPackageRevisions repo objects) (desiredFor repo pkgRevs) after entry) i =
      ((setsLifecycle repo pkgRevs objects i entry).map some).or (lifecycleAt after i) := by
  obtain ⟨p, a⟩ := entry
  unfold applyDesired setsLifecycle
  dsimp only
  cases hskip : skipped (listExistingPackageRevisions repo objects p.kubeObjectName) (desiredFor repo pkgRevs p) with
  | true => simp
  | false =>
    by_cases hid : id p = i
    · subst hid
      cases ha : a.spec with
      | false => simp [lifecycleAt, applyPackageRevision_failed _ _ ha]
      | true =>
        obtain ⟨o, ho, hlifecycle⟩ :=
          applyPackageRevision_lifecycle (desiredFor repo pkgRevs p) (after (id p)) ha
        have hdesired : o.spec.lifecycle = some p.lifecycle := hlifecycle
        simp only [Bool.false_eq_true, if_false, lifecycleAt, Function.update_self, ho, and_self, if_true]
        split
        · simp [applySeedFields_lifecycle a p o hdesired]
        · simp [hdesired]
    · have hother : i ≠ id p := fun h => hid h.symm
      simp [lifecycleAt, hid, Function.update_of_ne hother]

/-- **The whole list**: an object has the lifecycle that was set last. -/
theorem foldl_lifecycle (entries : List (PkgRev × Answers)) : lifecycleAt (entries.foldl
        (applyDesired (listExistingPackageRevisions repo objects) (desiredFor repo pkgRevs)) after) i =
      (((entries.filterMap (setsLifecycle repo pkgRevs objects i)).getLast?).map some).or
        (lifecycleAt after i) := by
  induction entries generalizing after with
  | nil => rfl
  | cons entry entries ih =>
    rw [List.foldl_cons, ih, applyDesired_lifecycle]
    cases hset : setsLifecycle repo pkgRevs objects i entry with
    | none => simp [hset]
    | some lc =>
      simp only [List.filterMap_cons, hset, List.getLast?_cons, Option.map_some, Option.some_or]
      cases (entries.filterMap (setsLifecycle repo pkgRevs objects i)).getLast? <;> rfl

theorem applied_lifecycle : lifecycleAt (applyDesiredPackageRevisions repo pkgRevs objects) i =
      ((lastLifecycle repo pkgRevs objects i).map some).or (lifecycleAt objects i) :=
  foldl_lifecycle pkgRevs

theorem deleteStale_lifecycle {o : Object}
    (h : deleteStalePackageRevisions repo pkgRevs objects deletes after i = some o) :
    lifecycleAt after i = some o.spec.lifecycle := by
  unfold deleteStalePackageRevisions at h
  dsimp only at h
  split at h
  · obtain ⟨old, hold, hdel⟩ := Option.bind_eq_some_iff.mp h
    obtain ⟨-, heq⟩ := Option.ite_none_right_eq_some.mp hdel
    cases heq
    rw [lifecycleAt, hold]
    rfl
  · rw [lifecycleAt, h]
    rfl

theorem deleteStale_of_listed (h : i.2 ∈ pkgRevs.map (·.1.kubeObjectName)) :
    deleteStalePackageRevisions repo pkgRevs objects deletes after i = after i := by
  unfold deleteStalePackageRevisions
  simp [h]

theorem listed_of_lastLifecycle {lc : Lifecycle} (h : lastLifecycle repo pkgRevs objects i = some lc) :
    i.2 ∈ pkgRevs.map (·.1.kubeObjectName) := by
  have hmem := List.mem_of_getLast? h
  obtain ⟨entry, hentry, hset⟩ := List.mem_filterMap.mp hmem
  obtain ⟨⟨hid, -, -⟩, -⟩ := Option.ite_none_right_eq_some.mp hset
  exact List.mem_map.mpr ⟨entry, hentry, congrArg Prod.snd hid⟩

/-- **A sync leaves the lifecycle of every object as it is if and only if**, for each object, the
    last package of the list that is applied to it has its lifecycle. -/
theorem sync_keeps_lifecycles_iff (repo : Repo) (pkgRevs : List (PkgRev × Answers)) (objects : Objects)
    (lists : Bool) (deletes : Str → Bool) :
    (∀ i o o', objects i = some o → syncPackageRevisions repo pkgRevs objects lists deletes i = some o' →
        o'.spec.lifecycle = o.spec.lifecycle) ↔
      (lists = true → ∀ i o, objects i = some o → ∀ lc ∈ lastLifecycle repo pkgRevs objects i,
        o.spec.lifecycle = some lc) := by
  have hat : ∀ {i o}, objects i = some o → lifecycleAt objects i = some o.spec.lifecycle := fun h => by
    rw [lifecycleAt, h]
    rfl
  constructor
  · intro hkeeps hlists i o ho lc hlc
    have hlisted := listed_of_lastLifecycle hlc
    have happlied : lifecycleAt (applyDesiredPackageRevisions repo pkgRevs objects) i = some lc := by
      rw [applied_lifecycle, Option.mem_def.mp hlc]
      rfl
    obtain ⟨o', ho', hlifecycle⟩ := Option.map_eq_some_iff.mp happlied
    have hsync : syncPackageRevisions repo pkgRevs objects lists deletes i = some o' := by
      rw [syncPackageRevisions, if_pos hlists, deleteStale_of_listed hlisted]
      exact ho'
    exact (hkeeps i o o' ho hsync).symm.trans hlifecycle
  · intro hcond i o o' ho hsync
    unfold syncPackageRevisions at hsync
    split at hsync
    · next hlists =>
      have hafter := deleteStale_lifecycle hsync
      rw [applied_lifecycle, hat ho] at hafter
      cases hlc : lastLifecycle repo pkgRevs objects i with
      | none =>
        rw [hlc] at hafter
        exact (Option.some.inj hafter).symm
      | some lc =>
        rw [hlc] at hafter
        exact (Option.some.inj hafter).symm.trans (hcond hlists i o ho lc hlc).symm
    · cases ho.symm.trans hsync
      rfl

end Lifecycle

/-! A transition that is still pending -/

/-- A package that was found in the repository, as a draft. -/
def samplePkgRev : PkgRev :=
  { kubeObjectName := "r.p.ws", kubeObjectNamespace := "ns", pkgPathname := "p",
    repositoryName := "r", workspaceName := "ws", revision := 0, lifecycle := .draft,
    selfLock := some ⟨"repo", "p", "drafts/p/ws", "c2"⟩ }

/-- Its object: a user has proposed it, and its lock is of an older commit. -/
def proposedObject : Object :=
  { labels := packageRevisionLabelsWithLatest "r" false
    spec := ⟨"p", "r", "ws", some .proposed, none, none, [], none⟩
    status := { selfLock := some ⟨"repo", "p", "drafts/p/ws", "c1"⟩ } }

def sampleObjects : Objects := fun i => if i = id samplePkgRev then some proposedObject else none

/-- **The transition is undone**: the lock is out of date, so the whole object is applied, with
    the lifecycle that the cache still has. -/
theorem pending_transition_undone :
    (sampleObjects (id samplePkgRev)).map (·.spec.lifecycle) = some (some .proposed) ∧
      (syncPackageRevisions ⟨"r", "ns", "uid", false⟩ [(samplePkgRev, {})] sampleObjects
        true (fun _ => true) (id samplePkgRev)).map (·.spec.lifecycle) = some (some .draft) := by
  decide +kernel

end Porch.RepoController.PkgRevSync
