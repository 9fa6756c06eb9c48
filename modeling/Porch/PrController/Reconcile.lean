import Porch.Lts.Program
import Porch.PrController.Object

/- The reconcile loop of the controller of v1alpha2 package revisions, of
   `controllers/packagerevisions/pkg/controllers/packagerevision`. Every read, write and
   other answer from outside is a call; the rest is as in the source.

     packagerevision_controller.go   reconcile, reconcileLifecycle, reconcileSource,
                                     reconcileSubpackageOperation, verifyRepoMigrated,
                                     finalizeDraftAndUpdateStatus, reconcileRender
     render.go      executeRender, requeueOrFailRender, checkRenderStale,
                    persistAndSyncKptfile, syncKptfileFields, readPackageResources,
                    writeRenderedResources, verifyResourcesAvailable
     status.go      updateStatusWithRetry, updateStatus, updateRenderStatus,
                    refreshRenderedGeneration, setFailedConditionsAndLog, setRenderFailed,
                    updateKptfileFields
     metadata.go    reconcilePackageMetadata, readAndParseKptfile, applyAndWriteMetadata,
                    triggerRenderIfNeeded, applyPackageMetadataToKptfile, applyMetadataMap,
                    setRenderRequestAnnotation
     subpackage.go  applySubpackageOperation, upsertSubpackageResourcesInDraftResources,
                    insertSubpackageResources, upgradeSubpackageResources
     ownership.go, labels.go         ensureFinalizerAndOwner, ensureRepositoryLabel,
                                     ensureLatestRevisionLabel

   The object in hand is a value: a function that changes it hands it back. A patch of the
   object itself answers with the object as it is then stored, and that is what is in hand
   afterwards, as the client does it; the applies of the status are made with an object of
   their own. Reading a Kptfile and writing one, the digest of a subpackage operation and
   the names of subpackages are parameters. Logs, metrics and the mirroring of Kptfile
   labels into the labels of the object are left out. -/
namespace Porch.PrController

open Go

abbrev Resources := List (Str × Str)

def kptfileName : Str := "Kptfile"

/-- `resources[path] = data`. -/
def setFile (path data : Str) : Resources → Resources
  | [] => [(path, data)]
  | f :: fs => if f.1 = path then (path, data) :: fs else f :: setFile path data fs

def calculateResourcesSize (resources : Resources) : Nat :=
  (resources.map fun f => (f.2.map Char.utf8Size).sum).sum

/-- What the controller reads of a Kptfile; the rest is carried along. -/
structure KptFile where
  kind : Str
  labels : Option Labels
  annotations : Option Labels
  readinessGates : List Str
  conditions : List Str
  rest : Str
deriving DecidableEq, Repr

inductive KptfileError where
  | setName (err : Str)
  | write (err : Str)
deriving DecidableEq, Repr

structure Config where
  /-- A renderer is set. -/
  renderer : Bool := true
  renderRequeueDelay : Nat := 2000
  transientErrorRetryDeadline : Nat := 60000
  /-- At most so many reads of the status after a patch. -/
  readbacks : Nat := 20
  decodeKptfile : Str → Except Str KptFile
  encodeKptfile : KptFile → Except Str Str
  /-- The status of a Kptfile is cleared, as far as it can be parsed. -/
  clearStatus : Str → Str
  subpackageOperationHash : SubpackageOperation → Str
  isValidSubpackageDir : Str → Option Str
  composeSubpkgObjName : Str → Except Str Str
  /-- The error of parsing the Kptfile of a package, if there is one. -/
  parseKptfile : Resources → Option Str
  /-- The Kptfile of a package is given a name. -/
  setKptfileName : Str → Resources → Except KptfileError Resources

/-- A package revision of the content cache. -/
structure Content where
  lifecycle : Lifecycle
  revision : Int
  commitTime : Option Nat
  commitAuthor : Str
  lock : Except Str (Option Locator)
  upstreamLock : Except Str (Option Locator)

structure Draft where
  /-- Made by `CreateNewDraft`. -/
  isNew : Bool
  lifecycle : Lifecycle
  revision : Int
  resources : Resources
deriving DecidableEq, Repr

inductive Use where
  | metadata
  | subpackage
  | render
  | verification
  | lifecycle
  | status
deriving DecidableEq, Repr

inductive GetError where
  | notFound
  | other (err : Str)
deriving DecidableEq, Repr

def GetError.text : GetError → Str
  | notFound => "not found"
  | other err => err

/-- The answer of a renderer behind its limit. -/
inductive RenderAnswer where
  | limited
  /-- The file system could not be written or read. -/
  | failed (err : Str)
  | result (resources : Resources) (err : Option Str)
deriving DecidableEq, Repr

inductive Call where
  /-- The object from the cache of the client. -/
  | get
  /-- The object from the API server. -/
  | getLive
  | patchFinalizer (owner : Bool)
  | patchRepositoryLabel (value : Str)
  | patchLatestRevisionLabel (value : Str)
  | patchRenderRequest (value : Str)
  | getRepository
  | applyStatus (status : CoreStatus) (ready : Condition) (rendered : Option Condition)
  | applyRenderStatus (rendering observed : Str) (rendered : Condition)
  | applySpec (gates : Option (List Str)) (metadata : Option PackageMetadata)
  | applyPackageConditions (conditions : List Str)
  | now
  /-- Whether a read is to be tried again: the deadline is not over. -/
  | pollAgain
  | fetchSource (source : Source)
  | fetchSubpackage (op : SubpackageOperation)
  | getContent (use : Use)
  | getResources (use : Use)
  | createNewDraft
  | createDraftFromExisting
  | updateResources (draft : Draft) (operation : Str)
  | closeDraft (draft : Draft)
  | updateLifecycle (desired : Option Lifecycle)
  | render (resources : Resources)
  /-- Answers whether this is the latest revision. -/
  | updateLatestRevisionLabels
  | createMainPackageRevision

abbrev Answer : Call → Type
  | .get | .getLive => Except GetError PackageRevision
  | .patchFinalizer _ | .patchRepositoryLabel _ | .patchLatestRevisionLabel _
  | .patchRenderRequest _ => Except Str PackageRevision
  | .getRepository => Except Str (Option Str)
  | .applyStatus _ _ _ | .applyRenderStatus _ _ _ | .applySpec _ _
  | .applyPackageConditions _ => Except Str Unit
  | .now => Nat
  | .pollAgain => Bool
  | .fetchSource _ | .fetchSubpackage _ | .getResources _ => Except Str Resources
  | .getContent _ | .updateLifecycle _ => Except Str Content
  | .createNewDraft | .createDraftFromExisting => Except Str Draft
  | .updateResources _ _ | .closeDraft _ => Except Str Unit
  | .render _ => RenderAnswer
  | .updateLatestRevisionLabels => Except Str Bool
  | .createMainPackageRevision => Except Str Unit

abbrev Reconciler := Lts.Prog Call Answer

def call (c : Call) : Reconciler (Answer c) := Lts.Prog.perform c

/-- `ctrl.Result`. -/
inductive Result where
  | done
  | requeue
  | after (delay : Nat)
deriving DecidableEq, Repr

/-- The result asks for another reconcile: a delay of zero does not. -/
def Result.asksRequeue : Result → Bool
  | done => false
  | requeue => true
  | after delay => 0 < delay

def reconciledRetryInterval : Nat := 100

/-- What a part of the reconcile returns: a result ends the reconcile. -/
abbrev PartResult := Except Str (Option Result)

/-! Status -/

/-- The status that `updateStatus` applies. -/
def appliedStatus (pr : PackageRevision) (content : Option Content) (resources : Option Resources)
    (creationSource lastSubpackageOperationHash : Str) : CoreStatus :=
  let status : CoreStatus :=
    { pr.status.toCoreStatus with
      observedGeneration := pr.generation
      creationSource := if creationSource = [] then pr.status.creationSource else creationSource
      lastSubpackageOperationHash :=
        if lastSubpackageOperationHash = [] then pr.status.lastSubpackageOperationHash
        else lastSubpackageOperationHash }
  match content with
  | none => status
  | some content =>
    let published : CoreStatus :=
      if lifecycleIsPublished content.lifecycle then
        { status with
          revision := content.revision
          publishedBy := content.commitAuthor
          publishedAt := content.commitTime <|> status.publishedAt }
      else status
    { published with
      selfLock := content.lock.toOption.getD published.selfLock
      upstreamLock := content.upstreamLock.toOption.getD published.upstreamLock
      resourcesSizeBytes :=
        (resources.map calculateResourcesSize).getD published.resourcesSizeBytes }

/-- The files of the content whose status is written, as far as they can be read. -/
def contentResources : Option Content → Reconciler (Option Resources)
  | none => pure none
  | some _ => (·.toOption) <$> call (.getResources .status)

def updateStatus (pr : PackageRevision) (content : Option Content)
    (creationSource lastSubpackageOperationHash : Str) (ready : Condition)
    (rendered : Option Condition) : Reconciler Unit := do
  let resources ← contentResources content
  let _ ← call (.applyStatus
    (appliedStatus pr content resources creationSource lastSubpackageOperationHash) ready rendered)
  pure ()

/-- A read of `updateStatusWithRetry` after its patch: the error, unless the markers are
    there. -/
def confirmMarkers (creationSource lastSubpackageOperationHash : Str) :
    Except GetError PackageRevision → Option Str
  | .error err => some (wrap "failed to read status after patch" err.text)
  | .ok fresh =>
    if (creationSource = [] ∨ fresh.status.creationSource = creationSource) ∧
        (lastSubpackageOperationHash = [] ∨
          fresh.status.lastSubpackageOperationHash = lastSubpackageOperationHash) then none
    else some "completion status not yet visible after patch"

/-- The reads of `updateStatusWithRetry` after its patch. -/
def readBack (creationSource lastSubpackageOperationHash : Str) : Nat → Reconciler (Option Str)
  | 0 => pure (some "completion status not yet visible after patch")
  | n + 1 => do
    match confirmMarkers creationSource lastSubpackageOperationHash (← call .get) with
    | none => pure none
    | some err =>
      if ← call .pollAgain then readBack creationSource lastSubpackageOperationHash n
      else pure (some err)

def updateRenderStatus (pr : PackageRevision) (renderingVersion observedVersion : Str)
    (rendered : Condition) : Reconciler (Except Str Unit) :=
  call (.applyRenderStatus renderingVersion
    (if observedVersion = [] then pr.status.observedPrrResourceVersion else observedVersion) rendered)

def refreshRenderedGeneration (pr : PackageRevision) : Reconciler Unit := do
  match pr.status.rendered with
  | none => pure ()
  | some c =>
    if c.status = .true ∧ c.observedGeneration < pr.generation then
      let _ ← updateRenderStatus pr pr.status.renderingPrrResourceVersion []
        { c with observedGeneration := pr.generation }
      pure ()
    else pure ()

/-- `setFailedConditionsAndLog`, which hands the error back. -/
def setFailedConditionsAndLog (pr : PackageRevision) (err : Str) : Reconciler PartResult := do
  let failed := condition pr.generation .false .failed err
  updateStatus pr none [] [] failed (some failed)
  pure (.error err)

def setRenderFailed (pr : PackageRevision) (err : Str) : Reconciler Unit := do
  let _ ← updateRenderStatus pr [] pr.renderRequest
    (condition pr.generation .false .renderFailed err)
  updateStatus pr none [] [] (condition pr.generation .false .renderFailed "render failed") none

/-- A condition of a retry keeps the time of the first one. -/
def keepPendingSince (pr : PackageRevision) (c : Condition) : Condition :=
  { c with lastTransitionTime := pendingSince pr }

def updateStatusWithRetry (cfg : Config) (pr : PackageRevision) (content : Option Content)
    (creationSource lastSubpackageOperationHash : Str) (ready : Condition) :
    Reconciler (Option Str) := do
  updateStatus pr content creationSource lastSubpackageOperationHash ready none
  readBack creationSource lastSubpackageOperationHash (cfg.readbacks + 1)

section

variable (cfg : Config)

/-! The Kptfile and the object -/

def kptfileFromResources (resources : Resources) : Except Str KptFile :=
  match resources.lookup kptfileName with
  | none | some [] => .ok ⟨[], none, none, [], [], []⟩
  | some kf => (cfg.decodeKptfile kf).mapError (wrap "decode Kptfile")

/-- `maps.Equal`. -/
def mapsEqual (a b : Option Labels) : Bool :=
  (a.getD []).length = (b.getD []).length ∧
    ∀ kv ∈ a.getD [], (b.getD []).lookup kv.1 = some kv.2

def packageMetadataEqual (a b : Option PackageMetadata) : Bool :=
  match a, b with
  | none, none => true
  | some a, some b => mapsEqual a.labels b.labels && mapsEqual a.annotations b.annotations
  | _, _ => false

def kptfileToPackageMetadata (kf : KptFile) : Option PackageMetadata :=
  if kf.labels.getD [] = [] ∧ kf.annotations.getD [] = [] then none
  else some ⟨kf.labels, kf.annotations⟩

/-- `applySpec`, when there is a field to apply. -/
def applySpec (gates : Option (List Str)) (metadata : Option PackageMetadata) : Reconciler Unit := do
  if gates = none ∧ metadata = none then pure ()
  else
    let _ ← call (.applySpec gates metadata)
    pure ()

/-- `applyStatus` with the conditions of the Kptfile, when there are any. -/
def applyPackageConditions (conditions : List Str) : Reconciler Unit := do
  if conditions = [] then pure ()
  else
    let _ ← call (.applyPackageConditions conditions)
    pure ()

def updateKptfileFields (pr : PackageRevision) (kf : KptFile) : Reconciler Unit := do
  let gates := kf.readinessGates
  let metadata := kptfileToPackageMetadata kf
  if gates = [] ∧ metadata = none ∧ kf.conditions = [] then pure ()
  else
    let metadataToSync :=
      if packageMetadataEqual pr.spec.packageMetadata metadata then none else metadata
    applySpec (if gates = [] then none else some gates) metadataToSync
    applyPackageConditions kf.conditions

def syncKptfileFields (pr : PackageRevision) (renderedResources : Resources) : Reconciler Unit :=
  match kptfileFromResources cfg renderedResources with
  | .error _ => pure ()
  | .ok kf => if kf.kind = [] then pure () else updateKptfileFields pr kf

/-! Rendering -/

def readPackageResources : Reconciler (Except Str Resources) := do
  match ← call (.getContent .render) with
  | .error err => pure (.error (wrap "get content for render" err))
  | .ok _ =>
    match ← call (.getResources .render) with
    | .error err => pure (.error (wrap "read resources for render" err))
    | .ok resources => pure (.ok resources)

def writeRenderedResources (resources : Resources) : Reconciler (Except Str Unit) := do
  match ← call .createDraftFromExisting with
  | .error err => pure (.error (wrap "create draft for render" err))
  | .ok draft =>
    let draft := { draft with resources := resources }
    match ← call (.updateResources draft "rendered") with
    | .error err => pure (.error (wrap "write rendered resources" err))
    | .ok _ =>
      match ← call (.closeDraft draft) with
      | .error err => pure (.error (wrap "close draft after render" err))
      | .ok _ => pure (.ok ())

def persistAndSyncKptfile (pr : PackageRevision) (resources : Resources) : Reconciler Unit := do
  match ← writeRenderedResources resources with
  | .error _ => pure ()
  | .ok _ => syncKptfileFields cfg pr resources

/-- The files of a failed render are kept if the package asks for it. -/
def persistOnFailure (pr : PackageRevision) (resources : Resources) : Reconciler Unit :=
  if isPushOnRenderFailure pr then persistAndSyncKptfile cfg pr resources else pure ()

/-- The error may pass, and the deadline for that is not over. -/
def mayRetry (pr : PackageRevision) (err : Str) : Reconciler Bool :=
  if isTransientError err then
    (fun now => !pendingExpired pr cfg.transientErrorRetryDeadline now) <$> call .now
  else pure false

def requeueOrFailRender (pr : PackageRevision) (err : Str) : Reconciler (Option Result) := do
  if ← mayRetry cfg pr err then
    updateStatus pr none [] []
      (keepPendingSince pr (condition pr.generation .false .transientRetry err)) none
    let _ ← updateRenderStatus pr pr.status.renderingPrrResourceVersion []
      (condition pr.generation .unknown .pending "awaiting content")
    pure (some (.after reconciledRetryInterval))
  else pure none

/-- A failure of a render: a retry if it may pass, a failed render otherwise. -/
def retryOrFailRender (pr : PackageRevision) (err : Str) : Reconciler PartResult := do
  match ← requeueOrFailRender cfg pr err with
  | some result => pure (.ok (some result))
  | none =>
    setRenderFailed pr err
    pure (.error err)

def checkRenderStale (rendered : Str) : Reconciler PartResult := do
  match ← call .getLive with
  | .error err => pure (.error (wrap "re-read PR after render" err.text))
  | .ok current =>
    if isRenderStale current.renderRequest rendered then pure (.ok (some .requeue))
    else pure (.ok none)

def executeRender (pr : PackageRevision) : Reconciler PartResult := do
  match ← readPackageResources with
  | .error err => retryOrFailRender cfg pr err
  | .ok resources =>
    match ← call (.render resources) with
    | .limited => pure (.ok (some (.after cfg.renderRequeueDelay)))
    | .failed err =>
      setRenderFailed pr err
      pure (.error (wrap "render failed" err))
    | .result rendered pipelineErr =>
      match ← checkRenderStale pr.renderRequest with
      | .error err => pure (.error err)
      | .ok (some stale) => pure (.ok (some stale))
      | .ok none =>
        match pipelineErr with
        | some err =>
          persistOnFailure cfg pr rendered
          setRenderFailed pr err
          pure (.error (wrap "render pipeline failed" err))
        | none =>
          match ← writeRenderedResources rendered with
          | .error err => retryOrFailRender cfg pr err
          | .ok _ =>
            syncKptfileFields cfg pr rendered
            pure (.ok none)

/-- The reads of `verifyResourcesAvailable`, with so many retries left. -/
def verifyContent : Nat → Reconciler (Except Str Unit)
  | 0 => do
    match ← call (.getContent .verification) with
    | .ok _ => pure (.ok ())
    | .error err =>
      pure (.error (wrap "package not accessible in cache after render (after 3 attempts)" err))
  | n + 1 => do
    match ← call (.getContent .verification) with
    | .ok _ => pure (.ok ())
    | .error _ =>
      if ← call .pollAgain then verifyContent n
      else pure (.error "context canceled during resource verification")

def verifyResourcesAvailable : Reconciler (Except Str Unit) := do
  match ← verifyContent 2 with
  | .error err => pure (.error err)
  | .ok _ =>
    match ← call (.getResources .verification) with
    | .error err => pure (.error (wrap "failed to load resources after verification" err))
    | .ok resources =>
      if resources = [] then
        pure (.error "no resources found after render - package is empty after rendering")
      else pure (.ok ())

def reconcileRender (pr : PackageRevision) : Reconciler PartResult := do
  if !cfg.renderer then pure (.ok none)
  else
    let trigger := renderTrigger pr
    if !trigger.annotation && !trigger.source then
      refreshRenderedGeneration pr
      pure (.ok none)
    else
      let _ ← updateRenderStatus pr trigger.requested []
        (condition pr.generation .unknown .pending "rendering")
      match ← executeRender cfg pr with
      | .error err => pure (.error err)
      | .ok (some result) => pure (.ok (some result))
      | .ok none =>
        match ← verifyResourcesAvailable with
        | .error err => retryOrFailRender cfg pr err
        | .ok _ =>
          match ← updateRenderStatus pr [] (observedVersionAfterRender trigger.requested pr.renderRequest)
              (condition pr.generation .true .rendered []) with
          | .error _ => pure (.ok (some (.after reconciledRetryInterval)))
          | .ok _ => pure (.ok none)

/-! Source and subpackages -/

/-- `finalizeDraftAndUpdateStatus`, once the draft has been closed. -/
def recordCompletion (pr : PackageRevision) (creationSource subpackageOperationHash : Str) :
    Reconciler PartResult := do
  let content ← call (.getContent .status)
  match ← updateStatusWithRetry cfg pr content.toOption creationSource subpackageOperationHash
      (condition pr.generation .false .pending "awaiting render") with
  | some err =>
    let now ← call .now
    if pendingExpired pr cfg.transientErrorRetryDeadline now then
      setFailedConditionsAndLog pr (wrap "completion status not confirmed" err)
    else
      updateStatus pr none creationSource subpackageOperationHash
        (keepPendingSince pr (condition pr.generation .false .transientRetry
          "awaiting completion-status confirmation")) none
      pure (.ok (some (.after reconciledRetryInterval)))
  | none =>
    let _ ← updateRenderStatus pr [] []
      (condition pr.generation .unknown .pending "awaiting render")
    pure (.ok (some (.after reconciledRetryInterval)))

def finalizeDraftAndUpdateStatus (pr : PackageRevision) (draft : Draft) (resources : Resources)
    (creationSource subpackageOperationHash : Str) : Reconciler PartResult := do
  let operationType := if creationSource = [] then subpackageOperationHash else creationSource
  let draft := { draft with resources := resources }
  match ← call (.updateResources draft operationType) with
  | .error err => setFailedConditionsAndLog pr (wrap "update resources" err)
  | .ok _ =>
    match ← call (.closeDraft draft) with
    | .error err => setFailedConditionsAndLog pr (wrap "close draft" err)
    | .ok _ => recordCompletion cfg pr creationSource subpackageOperationHash

/-- `verifyRepoMigrated`: the error, if there is one. -/
def verifyRepoMigrated (pr : PackageRevision) : Reconciler (Option Str) := do
  match ← call .getRepository with
  | .error err =>
    pure (some ("get repository ".toList ++ pr.ns ++ '/' :: pr.spec.repositoryName ++ ": ".toList ++ err))
  | .ok migration =>
    if migration = some "true".toList then pure none
    else pure (some ("repository ".toList ++ pr.ns ++ '/' :: pr.spec.repositoryName ++
      " not enabled for v1alpha2".toList))

/-- The name that `applySource` gives to what it does. -/
def Source.operation : Source → Str
  | init _ => "init"
  | cloneFrom _ => "clone"
  | copyFrom _ => "copy"
  | upgrade _ _ _ _ => "upgrade"
  | empty => []

/-- `applySource`, when there is a source to apply. -/
def applySource (source : Source) : Reconciler (Except Str Resources) :=
  match source with
  | .empty => pure (.error "source has no fields set")
  | source => call (.fetchSource source)

def reconcileSource (pr : PackageRevision) : Reconciler PartResult := do
  match pr.spec.source with
  | none => pure (.ok none)
  | some source =>
    if pr.status.creationSource ≠ [] then pure (.ok none)
    else
      match ← verifyRepoMigrated pr with
      | some err => setFailedConditionsAndLog pr err
      | none =>
        match ← applySource source with
        | .error err => setFailedConditionsAndLog pr err
        | .ok resources =>
          match ← call .createNewDraft with
          | .error err => setFailedConditionsAndLog pr (wrap "create draft" err)
          | .ok draft => finalizeDraftAndUpdateStatus cfg pr draft resources source.operation []

def parentSubpackageFound (subpackageDir resourceKey : Str) : Str :=
  if kptfileName <:+ resourceKey then
    let dir :=
      if '/' :: kptfileName <:+ resourceKey then
        resourceKey.take (resourceKey.length - (kptfileName.length + 1))
      else resourceKey
    if subpackageDir = dir ∨ dir ++ ['/'] <+: subpackageDir then dir else []
  else []

/-- The files of a subpackage put under its directory. -/
def placeSubpackage (subpackageDir : Str) (subpackage parent : Resources) : Resources :=
  subpackage.foldl (fun fs f => setFile (subpackageDir ++ '/' :: f.1) f.2 fs) parent

/-- The text of a refusal because of a subpackage above the requested one. -/
def alreadyAt (found subpackageDir : Str) : Str :=
  "parent already has a subpackage at " ++ quoted found ++
    " (requested subpackageDir: " ++ quoted subpackageDir ++ ")"

/-- `insertSubpackageResourcesInDraftResources`. -/
def insertSubpackageResources (subpackageDir : Str) (parent subpackage : Resources) :
    Except Str Resources :=
  let refused := parent.findSome? fun f =>
    let found := parentSubpackageFound subpackageDir f.1
    if found ≠ [] then
      some ("cannot clone subpackage into another subpackage, " ++
        alreadyAt found subpackageDir)
    else if f.1 = subpackageDir ∨ subpackageDir ++ ['/'] <+: f.1 then
      some ("cannot clone subpackage into parent, parent already has content at " ++
        quoted subpackageDir)
    else none
  match refused with
  | some err => .error err
  | none =>
    let placed := placeSubpackage subpackageDir subpackage parent
    let kptfile := subpackageDir ++ '/' :: kptfileName
    .ok (setFile kptfile (cfg.clearStatus ((placed.lookup kptfile).getD [])) placed)

/-- `upgradeSubpackageResourcesInDraftResources`. -/
def upgradeSubpackageResources (subpackageDir : Str) (parent subpackage : Resources) :
    Except Str Resources :=
  let inDir := fun f : Str × Str => (subpackageDir ++ ['/']).isPrefixOf f.1
  let refused := parent.findSome? fun f =>
    if f.1 = subpackageDir then
      some ("cannot upgrade subpackage in parent, parent already has content at " ++
        quoted subpackageDir)
    else if inDir f then none
    else
      let found := parentSubpackageFound subpackageDir f.1
      if found ≠ [] then
        some ("cannot upgrade subpackage in another subpackage, " ++
          alreadyAt found subpackageDir)
      else none
  match refused with
  | some err => .error err
  | none =>
    if parent.any inDir then
      .ok (placeSubpackage subpackageDir subpackage (parent.filter fun f => !inDir f))
    else
      .error ("cannot find subpackage in parent, parent does not have a subpackage at " ++
        quoted subpackageDir)

/-- `upsertSubpackageResourcesInDraftResources`. -/
def upsertSubpackageResources (op : SubpackageOperation) (parent subpackage : Resources) :
    Except Str Resources :=
  match op.change with
  | .cloneFrom _ => insertSubpackageResources cfg op.subpackageDir parent subpackage
  | .upgrade _ _ _ _ => upgradeSubpackageResources op.subpackageDir parent subpackage
  | .empty => .error "subpackageOperation has no fields set"

/-- `applySubpackageOperation`, when there is an operation to apply. -/
def applySubpackageOperation (op : SubpackageOperation) : Reconciler (Except Str Resources) :=
  match cfg.isValidSubpackageDir op.subpackageDir with
  | some err =>
    pure (.error ("specified subpackage directory " ++ quoted op.subpackageDir ++
      wrap " is invalid" err))
  | none =>
    match op.change with
    | .empty => pure (.error "subpackageOperation has no fields set")
    | _ => call (.fetchSubpackage op)

/-- `getPackageResources`, of the package itself. -/
def getPackageResources : Reconciler (Except Str Resources) := do
  match ← call (.getContent .subpackage) with
  | .error err => pure (.error err)
  | .ok _ => call (.getResources .subpackage)

/-- The name of a subpackage is written to its Kptfile, in `reconcileSubpackageOperation`. An
    error comes with whether it is set in the conditions: that of the last step is not. -/
def nameSubpackage (op : SubpackageOperation) (fetched : Resources) :
    Except (Str × Bool) Resources :=
  match cfg.parseKptfile fetched with
  | some err => .error (wrap "failed to parse subpackage Kptfile" err, true)
  | none =>
    match cfg.composeSubpkgObjName op.subpackageDir with
    | .error err => .error (wrap "failed to compose subpackage name for subpackage" err, true)
    | .ok name =>
      match cfg.setKptfileName name fetched with
      | .error (.setName err) =>
        .error ("failed to write package name " ++
          quoted ((op.subpackageDir.splitOn '/').getLastD []) ++
          wrap " to subpackage Kptfile" err, true)
      | .error (.write err) =>
        .error ("failed to write to subpackage Kptfile " ++
          quoted (op.subpackageDir ++ '/' :: kptfileName) ++ ": " ++ err, false)
      | .ok subpackage => .ok subpackage

def reconcileSubpackageOperation (pr : PackageRevision) : Reconciler PartResult := do
  if shouldSkipSubpackageOperation cfg.subpackageOperationHash pr then pure (.ok none)
  else
    match pr.spec.subpackageOperation with
    | none => pure (.ok none)
    | some op =>
      match ← applySubpackageOperation cfg op with
      | .error err => setFailedConditionsAndLog pr err
      | .ok fetched =>
        match nameSubpackage cfg op fetched with
        | .error (err, true) => setFailedConditionsAndLog pr err
        | .error (err, false) => pure (.error err)
        | .ok subpackage =>
          match ← getPackageResources with
          | .error err => setFailedConditionsAndLog pr (wrap "failed to read parent resources" err)
          | .ok parent =>
            match upsertSubpackageResources cfg op parent subpackage with
            | .error err =>
              setFailedConditionsAndLog pr
                (wrap "failed to upsert subpackage resources into parent resources" err)
            | .ok resources =>
              match ← call .createDraftFromExisting with
              | .error err =>
                setFailedConditionsAndLog pr (wrap "create draft on existing package revision" err)
              | .ok draft =>
                finalizeDraftAndUpdateStatus cfg pr draft resources []
                  (getSubpackageOperationHash cfg.subpackageOperationHash pr)

/-! Metadata -/

def applyMetadataMap (current desired : Option Labels) : Option Labels × Bool :=
  match desired with
  | none => (current, false)
  | some d =>
    if mapsEqual current (some d) then (current, false)
    else if d = [] then (none, true)
    else (some d, true)

def applyPackageMetadataToKptfile (kf : KptFile) (pr : PackageRevision) : KptFile × Bool :=
  match pr.spec.packageMetadata with
  | none => (kf, false)
  | some metadata =>
    let labels := applyMetadataMap kf.labels metadata.labels
    let annotations := applyMetadataMap kf.annotations metadata.annotations
    ({ kf with labels := labels.1, annotations := annotations.1 }, labels.2 || annotations.2)

def readAndParseKptfile : Reconciler (Except Str (Resources × KptFile)) := do
  match ← call (.getContent .metadata) with
  | .error err => pure (.error err)
  | .ok _ =>
    match ← call (.getResources .metadata) with
    | .error err => pure (.error err)
    | .ok resources => pure ((kptfileFromResources cfg resources).map fun kf => (resources, kf))

def applyAndWriteMetadata (pr : PackageRevision) (resources : Resources) (kf : KptFile) :
    Reconciler (Except Str Bool) := do
  let (kf, changed) := applyPackageMetadataToKptfile kf pr
  if !changed then pure (.ok false)
  else
    match cfg.encodeKptfile kf with
    | .error err => pure (.error err)
    | .ok updated =>
      match ← call .createDraftFromExisting with
      | .error err => pure (.error err)
      | .ok draft =>
        let draft := { draft with resources := setFile kptfileName updated resources }
        match ← call (.updateResources draft "metadata-sync") with
        | .error err => pure (.error err)
        | .ok _ =>
          match ← call (.closeDraft draft) with
          | .error err => pure (.error err)
          | .ok _ => pure (.ok true)

def formatTime (now : Nat) : Str := Nat.toDigits 10 now

/-- `triggerRenderIfNeeded` and `setRenderRequestAnnotation`. The object in hand has the new
    annotation also when the patch has failed. -/
def triggerRenderIfNeeded (pr : PackageRevision) :
    Reconciler (Option Result × PackageRevision) := do
  if isRenderedTrue pr then
    let value := formatTime (← call .now)
    match ← call (.patchRenderRequest value) with
    | .error _ => pure (none, { pr with renderRequest := value })
    | .ok stored => pure (some .requeue, stored)
  else pure (none, pr)

/-- `reconcilePackageMetadata`, whose errors are all swallowed. -/
def reconcilePackageMetadata (pr : PackageRevision) :
    Reconciler (Option Result × PackageRevision) := do
  if pr.spec.lifecycle ≠ some .draft then pure (none, pr)
  else if pr.spec.packageMetadata = none then pure (none, pr)
  else if pr.renderRequest ≠ pr.status.observedPrrResourceVersion then pure (none, pr)
  else if pr.status.creationSource ≠ [] ∧ ¬ isRenderedTrue pr then pure (none, pr)
  else
    match ← readAndParseKptfile cfg with
    | .error _ => pure (none, pr)
    | .ok (resources, kf) =>
      match ← applyAndWriteMetadata cfg pr resources kf with
      | .ok true => triggerRenderIfNeeded pr
      | .ok false | .error _ => pure (none, pr)

/-! Lifecycle -/

def reconcileLifecycle (pr : PackageRevision) : Reconciler (Except Str Result) := do
  let desiredLifecycle := pr.spec.lifecycle
  let published := desiredLifecycle.any lifecycleIsPublished
  match ← call (.getContent .lifecycle) with
  | .error err =>
    if !isTransientError err then
      updateStatus pr none [] [] (condition pr.generation .false .failed err) none
      pure (.ok .done)
    else
      let cond := condition pr.generation .false .transientRetry err
      let now ← call .now
      if pendingExpired pr cfg.transientErrorRetryDeadline now then
        updateStatus pr none [] [] { cond with reason := .failed } none
        pure (.ok .done)
      else
        updateStatus pr none [] [] (keepPendingSince pr cond) none
        pure (.ok (.after reconciledRetryInterval))
  | .ok content =>
    if some content.lifecycle = desiredLifecycle then
      updateStatus pr content [] [] (condition pr.generation .true .ready []) none
      if published ∧ pr.status.revision ≠ -1 then
        match ← call .updateLatestRevisionLabels with
        | .error _ => pure (.ok (.after reconciledRetryInterval))
        | .ok isLatest =>
          if isLatest then
            match ← call .createMainPackageRevision with
            | .error _ => pure (.ok .requeue)
            | .ok _ => pure (.ok .done)
          else pure (.ok .done)
      else pure (.ok .done)
    else
      let blocked :=
        if desiredLifecycle = some .published ∨ desiredLifecycle = some .proposed then
          validateRenderStateBeforePublish pr
        else none
      match blocked with
      | some err =>
        updateStatus pr content [] [] (condition pr.generation .false .pending err) none
        pure (.ok .requeue)
      | none =>
        match ← call (.updateLifecycle desiredLifecycle) with
        | .error err =>
          if ← mayRetry cfg pr err then
            updateStatus pr none [] []
              (keepPendingSince pr (condition pr.generation .false .transientRetry err)) none
            pure (.ok (.after reconciledRetryInterval))
          else
            updateStatus pr none [] [] (condition pr.generation .false .failed err) none
            pure (.ok .done)
        | .ok updated =>
          updateStatus pr updated [] [] (condition pr.generation .true .ready []) none
          if published then
            let _ ← call .createMainPackageRevision
            pure (.ok .requeue)
          else pure (.ok .done)

/-! The reconcile -/

/-- A reference to the repository is to be set, and `setOwnerReference` finds it. -/
def findsOwner (pr : PackageRevision) : Reconciler Bool :=
  if pr.hasOwnerReference then pure false else (·.toOption.isSome) <$> call .getRepository

def ensureFinalizerAndOwner (pr : PackageRevision) : Reconciler (Except Str PackageRevision) := do
  let owner ← findsOwner pr
  if !pr.hasFinalizer || owner then
    return (← call (.patchFinalizer owner)).mapError (wrap "failed to patch finalizer/ownerReference")
  else pure (.ok pr)

def ensureRepositoryLabel (pr : PackageRevision) : Reconciler (Except Str PackageRevision) := do
  if pr.repositoryLabel = some pr.spec.repositoryName then pure (.ok pr)
  else
    return (← call (.patchRepositoryLabel pr.spec.repositoryName)).mapError
      (wrap "failed to set repository label")

def ensureLatestRevisionLabel (pr : PackageRevision) : Reconciler (Except Str PackageRevision) := do
  if pr.latestRevisionLabel.isSome then pure (.ok pr)
  else
    return (← call (.patchLatestRevisionLabel "false")).mapError
      (wrap "failed to set latest-revision label")

/-- The first steps of a reconcile, which make the object complete. -/
def ensureMetadata (pr : PackageRevision) : Reconciler (Except Str PackageRevision) := do
  match ← ensureFinalizerAndOwner pr with
  | .error err => pure (.error err)
  | .ok pr =>
    match ← ensureRepositoryLabel pr with
    | .error err => pure (.error err)
    | .ok pr => ensureLatestRevisionLabel pr

def ignoreNotFound : GetError → Except Str Result
  | .notFound => .ok .done
  | .other err => .error err

/-- `reconcileContent`, after the metadata. -/
def reconcileOperationAndRender (pr : PackageRevision) : Reconciler (Option Result) := do
  match ← reconcileSubpackageOperation cfg pr with
  | .error _ => pure (some .done)
  | .ok (some result) => pure (some result)
  | .ok none =>
    match ← reconcileRender cfg pr with
    | .error _ => pure (some .done)
    | .ok result => pure result

/-- The parts of a reconcile that end it with a result or with an error that is swallowed. -/
def reconcileContent (pr : PackageRevision) : Reconciler (Option Result) := do
  match ← reconcileSource cfg pr with
  | .error _ => pure (some .done)
  | .ok (some result) => pure (some result)
  | .ok none =>
    match ← reconcilePackageMetadata cfg pr with
    | (some result, _) => pure (some result)
    | (none, pr) => reconcileOperationAndRender cfg pr

def reconcile : Reconciler (Except Str Result) := do
  match ← call .get with
  | .error err => pure (ignoreNotFound err)
  | .ok pr =>
    match ← ensureMetadata pr with
    | .error err => pure (.error err)
    | .ok pr =>
      if pr.spec.lifecycle = none then pure (.ok .done)
      else
        match ← reconcileContent cfg pr with
        | some result => pure (.ok result)
        | none =>
          match ← call .get with
          | .error err => pure (ignoreNotFound err)
          | .ok pr => reconcileLifecycle cfg pr

end

end Porch.PrController
