import Porch.PrController.Reconcile

/- What the controller works on: the object in the API server with its earlier versions, the
   package in the content cache, and the updates of `PackageRevisionResources` that are under
   way. `exec` answers the calls of a reconcile, `move` is what users and the API server of
   the resources do in between. What a run leaves open is in the outcome of a call: whether
   it fails, how old a read from the cache of the client is, what a renderer returns.

     contentcache.go  the calls on the package, updatedLifecycle
     packagerevisionresources.go, UpdatePackageResourcesWithoutRender,
     patchRenderRequestAnnotation          pushOpen, pushClose, pushAnnotate
     Handle of the webhook                 update

   The package is kept as the database cache keeps it: `CreateNewDraft` stores a draft at
   once, and closing a draft writes the lifecycle that it was opened with. A call that
   fails changes nothing. A status applied by a field manager replaces what the manager
   has applied before; of the labels and annotations in `spec.packageMetadata` a manager
   owns single keys. Three fields only record what has happened: the outputs of renders
   without an error, whether the draft of the source has been closed, and from which push
   the stored content comes. -/
namespace Porch.PrController

open Go

/-- The package revision in the content cache. -/
structure Package where
  lifecycle : Lifecycle
  revision : Int
  resources : Resources
deriving DecidableEq, Repr

/-- An update of the resources by a user, which has been opened, and closed if it has a
    version. -/
structure Push where
  draft : Draft
  version : Option Str := none
deriving DecidableEq, Repr

structure Cluster where
  live : PackageRevision
  /-- The versions before, the last one first. -/
  past : List PackageRevision := []
  /-- The condition `Rendered` is as the manager `packagerev-controller` has applied it. -/
  renderedByCore : Bool := false
  /-- The keys of `spec.packageMetadata` that the manager `packagerev-controller-kptfile`
      alone owns. -/
  kptfileLabels : List Str := []
  kptfileAnnotations : List Str := []
  package : Option Package := none
  pushes : List Push := []
  outputs : List Resources := []
  sourceClosed : Bool := false
  /-- The number of pushes that have been closed. -/
  lastPush : Nat := 0
  /-- The push that the stored content comes from, and the one that the content last read
      for a rewrite comes from. -/
  basis : Nat := 0
  readBasis : Nat := 0
deriving DecidableEq, Repr

structure Outcome where
  err : Option Str := none
  /-- How many versions a read from the cache is behind. -/
  lag : Nat := 0
  time : Nat := 0
  yes : Bool := true
  migration : Option Str := some "true"
  resources : Resources := []
  limited : Bool := false
  pipelineErr : Option Str := none
  /-- The latest revision of the package when it is published. -/
  latest : Nat := 0
  /-- A condition that a manager no longer applies goes. -/
  drops : Bool := false
  commitTime : Option Nat := none
  commitAuthor : Str := []
  lock : Except Str (Option Locator) := .ok none
  upstreamLock : Except Str (Option Locator) := .ok none

namespace Cluster

variable (c : Cluster) (o : Outcome)

/-- The object is stored in a new version. -/
def write (pr : PackageRevision) : Cluster := { c with live := pr, past := c.live :: c.past }

/-- A call that fails, with the error of its outcome, or works. -/
def attempt {α : Type} (ok : Except Str α × Cluster) : Option (Except Str α × Cluster) :=
  match o.err with
  | some err => some (.error err, c)
  | none => some ok

/-- A patch of the object, which answers with the object stored. -/
def patch (pr : PackageRevision) : Option (Except Str PackageRevision × Cluster) :=
  c.attempt o (.ok pr, c.write pr)

def stamped (cond : Condition) : Condition :=
  { cond with lastTransitionTime := cond.lastTransitionTime <|> some o.time }

/-- The status as `packagerev-controller` applies it. -/
def applyStatus (status : CoreStatus) (ready : Condition) (rendered : Option Condition) : Cluster :=
  let kept := if c.renderedByCore && o.drops then none else c.live.status.rendered
  let status : Status :=
    { c.live.status with
      toCoreStatus := status
      ready := some (stamped o ready)
      rendered := (rendered.map (stamped o)) <|> kept }
  { c.write { c.live with status := status } with
    renderedByCore := rendered.isSome || c.renderedByCore }

/-- The status as `packagerev-controller-render` applies it. -/
def applyRenderStatus (rendering observed : Str) (rendered : Condition) : Cluster :=
  let status : Status :=
    { c.live.status with
      renderingPrrResourceVersion := rendering
      observedPrrResourceVersion := observed
      rendered := some (stamped o rendered) }
  { c.write { c.live with status := status } with renderedByCore := false }

/-- A map as a manager applies it: the keys it applies are set, and those that only it has
    owned and no longer applies go. -/
def applyMap (owned : List Str) (current applied : Option Labels) : Option Labels :=
  let kept := (current.getD []).filter fun kv => (applied.getD []).lookup kv.1 = none ∧ kv.1 ∉ owned
  let merged := applied.getD [] ++ kept
  if merged = [] then (if current = some [] then some [] else none) else some merged

/-- The keys that a manager owns alone after it has applied a map: a key that was there with
    the same value stays that of the others too. -/
def ownedAfterApply (owned : List Str) (current applied : Option Labels) : List Str :=
  ((applied.getD []).filter fun kv =>
    kv.1 ∈ owned ∨ (current.getD []).lookup kv.1 ≠ some kv.2).map (·.1)

/-- The spec as `packagerev-controller-kptfile` applies it. -/
def applySpec (gates : Option (List Str)) (metadata : Option PackageMetadata) : Cluster :=
  let labels := c.live.spec.packageMetadata.bind (·.labels)
  let annotations := c.live.spec.packageMetadata.bind (·.annotations)
  let appliedLabels := metadata.bind (·.labels)
  let appliedAnnotations := metadata.bind (·.annotations)
  let merged : PackageMetadata :=
    { labels := applyMap c.kptfileLabels labels appliedLabels
      annotations := applyMap c.kptfileAnnotations annotations appliedAnnotations }
  let spec : Spec :=
    { c.live.spec with
      readinessGates := gates.getD c.live.spec.readinessGates
      packageMetadata :=
        if c.live.spec.packageMetadata = none ∧ metadata = none then none else some merged }
  let generation := if spec = c.live.spec then c.live.generation else c.live.generation + 1
  { c.write { c.live with spec := spec, generation := generation } with
    kptfileLabels := ownedAfterApply c.kptfileLabels labels appliedLabels
    kptfileAnnotations := ownedAfterApply c.kptfileAnnotations annotations appliedAnnotations }

def content (p : Package) : Content where
  lifecycle := p.lifecycle
  revision := p.revision
  commitTime := o.commitTime
  commitAuthor := o.commitAuthor
  lock := o.lock
  upstreamLock := o.upstreamLock

/-- The error of `findPackageRevision`. -/
def packageNotFound : Str := "package revision not found in repository"

def onPackage {α : Type} (ok : Package → Except Str α × Cluster) : Option (Except Str α × Cluster) :=
  match c.package with
  | none => c.attempt o (.error packageNotFound, c)
  | some p => c.attempt o (ok p)

/-- A package with a new lifecycle, as `contentCache.UpdateLifecycle` stores it: a proposed
    package gets its revision when it is published, and every other change is made with the
    revision that is there. -/
def updatedLifecycle (p : Package) (desired : Lifecycle) : Package :=
  if p.lifecycle = .proposed ∧ desired = .published then
    { p with lifecycle := desired, revision := o.latest + 1 }
  else { p with lifecycle := desired }

def updateLifecycle (desired : Option Lifecycle) (p : Package) : Except Str Content × Cluster :=
  match desired with
  | none => (.error "invalid desired lifecycle value", c)
  | some desired =>
    let updated := updatedLifecycle o p desired
    (.ok (content o updated), { c with package := some updated })

def createNewDraft : Except Str Draft × Cluster :=
  let resources := (c.package.map (·.resources)).getD []
  (.ok ⟨true, .draft, 0, []⟩,
    { c with package := some ⟨.draft, 0, resources⟩, readBasis := 0 })

def closeDraft (draft : Draft) : Cluster :=
  { c with
    package := some ⟨draft.lifecycle, draft.revision, draft.resources⟩
    sourceClosed := c.sourceClosed || draft.isNew
    basis := c.readBasis }

/-- The content that is read to be rewritten. -/
def readFor (use : Use) : Cluster :=
  match use with
  | .metadata | .subpackage | .render => { c with readBasis := c.basis }
  | .verification | .lifecycle | .status => c

/-- `renderWithConcurrencyLimit`. The output of a render without an error is recorded. -/
def renderAnswer : RenderAnswer × Cluster :=
  if o.limited then (.limited, c)
  else
    match o.err, o.pipelineErr with
    | some err, _ => (.failed err, c)
    | none, some err => (.result o.resources (some err), c)
    | none, none => (.result o.resources none, { c with outputs := o.resources :: c.outputs })

/-- A read of the object, so many versions behind. -/
def read (lag : Nat) : Except GetError PackageRevision :=
  match o.err, (c.live :: c.past)[lag]? with
  | some err, _ => .error (.other err)
  | none, none => .error .notFound
  | none, some pr => .ok pr

/-- The answer to a call of the reconcile. -/
def exec : (call : Call) → Option (Answer call × Cluster)
  | .get => some (c.read o o.lag, c)
  | .getLive => some (c.read o 0, c)
  | .patchFinalizer owner =>
    c.patch o
      { c.live with
        hasFinalizer := true, hasOwnerReference := owner || c.live.hasOwnerReference }
  | .patchRepositoryLabel value => c.patch o { c.live with repositoryLabel := some value }
  | .patchLatestRevisionLabel value => c.patch o { c.live with latestRevisionLabel := some value }
  | .patchRenderRequest value => c.patch o { c.live with renderRequest := value }
  | .getRepository => c.attempt o (.ok o.migration, c)
  | .applyStatus status ready rendered =>
    c.attempt o (.ok (), c.applyStatus o status ready rendered)
  | .applyRenderStatus rendering observed rendered =>
    c.attempt o (.ok (), c.applyRenderStatus o rendering observed rendered)
  | .applySpec gates metadata => c.attempt o (.ok (), c.applySpec gates metadata)
  | .applyPackageConditions conditions =>
    c.attempt o (.ok (), c.write { c.live with
      status := { c.live.status with packageConditions := conditions } })
  | .now => some (o.time, c)
  | .pollAgain => some (o.yes, c)
  | .fetchSource _ | .fetchSubpackage _ => c.attempt o (.ok o.resources, c)
  | .getContent _ => c.onPackage o fun p => (.ok (content o p), c)
  | .getResources use => c.onPackage o fun p => (.ok p.resources, c.readFor use)
  | .createNewDraft => c.attempt o c.createNewDraft
  | .createDraftFromExisting =>
    c.onPackage o fun p => (.ok ⟨false, p.lifecycle, p.revision, p.resources⟩, c)
  | .updateResources _ _ => c.attempt o (.ok (), c)
  | .closeDraft draft => c.attempt o (.ok (), c.closeDraft draft)
  | .updateLifecycle desired => c.onPackage o (c.updateLifecycle o desired)
  | .render _ => some (c.renderAnswer o)
  | .updateLatestRevisionLabels => c.attempt o (.ok o.yes, c)
  | .createMainPackageRevision => c.attempt o (.ok (), c)

/-! The others -/

inductive Move where
  /-- An update of the spec, the annotations and the labels. -/
  | update (new : PackageRevision)
  | pushOpen (resources : Resources)
  | pushClose (i : Nat) (version : Str)
  /-- The patch of the annotation, which can fail. -/
  | pushAnnotate (i : Nat) (works : Bool)
deriving DecidableEq, Repr

/-- The object after an update by a user, to whom the status is closed. -/
def edited (new : PackageRevision) : PackageRevision :=
  { c.live with
    generation := if new.spec = c.live.spec then c.live.generation else c.live.generation + 1
    repositoryLabel := new.repositoryLabel
    latestRevisionLabel := new.latestRevisionLabel
    renderRequest := new.renderRequest
    pushOnFnRenderFailure := new.pushOnFnRenderFailure
    spec := new.spec }

/-- The keys that a manager still owns alone when a user has updated a map: those with the
    value that they had. -/
def ownedAfterUpdate (owned : List Str) (old new : Option Labels) : List Str :=
  owned.filter fun k => (new.getD []).lookup k = (old.getD []).lookup k

def update (new : PackageRevision) : Option Cluster :=
  match validateUpdate c.live (c.edited new) with
  | some _ => none
  | none =>
    some { c.write (c.edited new) with
      kptfileLabels := ownedAfterUpdate c.kptfileLabels
        (c.live.spec.packageMetadata.bind (·.labels)) (new.spec.packageMetadata.bind (·.labels))
      kptfileAnnotations := ownedAfterUpdate c.kptfileAnnotations
        (c.live.spec.packageMetadata.bind (·.annotations))
        (new.spec.packageMetadata.bind (·.annotations)) }

/-- `UpdatePackageResourcesWithoutRender` up to its draft: the package is a draft. -/
def pushOpen (resources : Resources) : Option Cluster := do
  let p ← c.package
  if p.lifecycle = .draft then
    some { c with pushes := c.pushes ++ [{ draft := ⟨false, p.lifecycle, p.revision, resources⟩ }] }
  else none

/-- The draft of a push is closed, and its content stored in the given version. -/
def pushClose (i : Nat) (version : Str) : Option Cluster := do
  let push ← c.pushes[i]?
  if push.version = none then
    let d := push.draft
    some { c with
      package := some ⟨d.lifecycle, d.revision, d.resources⟩
      pushes := c.pushes.set i { push with version := some version }
      lastPush := c.lastPush + 1
      basis := c.lastPush + 1 }
  else none

/-- `patchRenderRequestAnnotation`. -/
def pushAnnotate (i : Nat) (works : Bool) : Option Cluster := do
  let push ← c.pushes[i]?
  let version ← push.version
  let closed := { c with pushes := c.pushes.eraseIdx i }
  if works then some (closed.write { c.live with renderRequest := version }) else some closed

def move : Move → Option Cluster
  | .update new => c.update new
  | .pushOpen resources => c.pushOpen resources
  | .pushClose i version => c.pushClose i version
  | .pushAnnotate i works => c.pushAnnotate i works

/-- The status that the repository controller gives to an object for what it has found. -/
def seeded (p : Package) (publishedBy : Str) (publishedAt : Option Nat) (conditions : List Str) :
    Status :=
  if lifecycleIsPublished p.lifecycle then
    { revision := p.revision, publishedBy := publishedBy, publishedAt := publishedAt
      packageConditions := conditions }
  else { packageConditions := conditions }

/-- The webhook admits the object. A user creates it with a source, and nothing is stored
    yet; one that has been found in the repository has the lifecycle of what is stored. -/
def Admitted (pr : PackageRevision) (package : Option Package) : Prop :=
  validateCreate none none pr = none ∧
    if pr.spec.source.isSome then package = none ∧ pr.status = {}
    else
      ∃ p by_ at_ conditions, package = some p ∧ pr.spec.lifecycle = some p.lifecycle ∧
        (pr.status = {} ∨ pr.status = seeded p by_ at_ conditions)

end Cluster

/-! The controller in its cluster -/

abbrev World := Lts.System Call Answer (Except Str Result) Cluster

abbrev Event := Lts.SystemEvent Cluster.Move Outcome

/-- A step of a user, of the API server of the resources, or of the reconcile. -/
def step (cfg : Config) : World → Event → Option World :=
  Lts.System.step Cluster.move (fun c call o => c.exec o call) (reconcile cfg)

/-- The world of an object that has been created. -/
def World.created (pr : PackageRevision) (package : Option Package) : World :=
  ⟨{ live := pr, package := package }, none⟩

/-- So many calls that work, each with the given files where it returns any. -/
def calls (files : Resources) (n : Nat) : List Event := List.replicate n (.go { resources := files })

/-- A controller for packages whose Kptfile has neither labels nor annotations. -/
def plainConfig : Config where
  decodeKptfile _ := .ok ⟨kptfileName, none, none, [], [], []⟩
  encodeKptfile _ := .ok []
  clearStatus := id
  subpackageOperationHash op := op.subpackageDir
  isValidSubpackageDir _ := none
  composeSubpkgObjName := .ok
  parseKptfile _ := none
  setKptfileName _ := .ok

/-! Pieces of runs -/

/-- The object with a lifecycle asked for. -/
def PackageRevision.withLifecycle (pr : PackageRevision) (desired : Lifecycle) : PackageRevision :=
  { pr with spec := { pr.spec with lifecycle := some desired } }

def newDraft : PackageRevision where
  spec :=
    { packageName := "pkg", repositoryName := "repo", workspaceName := "v1"
      lifecycle := some .draft, source := some (.init []) }

def someFiles : Resources := [(kptfileName, "kind: Kptfile")]

/-- The reconciles that create the package from its source, and that render it. -/
def createRun : List Event := .start :: calls someFiles 15

def renderRun : List Event := .start :: calls someFiles 16

/-- An update of the resources without a failure. -/
def pushRun (files : Resources) (version : Str) : List Event :=
  [.other (.pushOpen files), .other (.pushClose 0 version), .other (.pushAnnotate 0 true)]

def askFor (desired : Lifecycle) : List Event := [.other (.update (newDraft.withLifecycle desired))]

/-- The package is created, rendered, proposed and published. -/
def publishRun : List Event :=
  createRun ++ renderRun ++ askFor .proposed ++ .start :: calls someFiles 9 ++
    askFor .published ++ .start :: calls someFiles 10

end Porch.PrController
