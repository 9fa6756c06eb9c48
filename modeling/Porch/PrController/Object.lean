import Porch.Api

/- The v1alpha2 `PackageRevision` object, and what the controller and the webhook read off
   it without a call.

     PackageRevisionSpec, PackageRevisionStatus           Spec, Status
     metav1.Condition, readyCondition, renderedCondition  Condition, condition

   An annotation that is absent is the empty string, as the code reads it; of the
   annotations and labels those are kept that the code reads. The two conditions are
   fields, since the list of conditions is keyed by type. The object is not being deleted.
   Of `ValidateCreate` the checks on the repository and on the other objects of the
   namespace are parameters. -/
namespace Porch.PrController

open Go

inductive ConditionStatus where
  | true
  | false
  | unknown
deriving DecidableEq, Repr

inductive Reason where
  | ready
  | pending
  | failed
  | rendered
  | renderFailed
  /-- `transientRetryReasonInternal`. -/
  | transientRetry
deriving DecidableEq, Repr

structure Condition where
  status : ConditionStatus
  reason : Reason
  message : Str
  observedGeneration : Nat
  /-- None stands for the time of the write. -/
  lastTransitionTime : Option Nat
deriving DecidableEq, Repr

/-- `readyCondition` and `renderedCondition`. -/
def condition (generation : Nat) (status : ConditionStatus) (reason : Reason) (message : Str) :
    Condition where
  status := status
  reason := reason
  message := message
  observedGeneration := generation
  lastTransitionTime := none

structure Locator where
  repo : Str
  directory : Str
  ref : Str
  commit : Str
deriving DecidableEq, Repr

structure PackageMetadata where
  /-- None is the nil map. -/
  labels : Option Labels
  annotations : Option Labels
deriving DecidableEq, Repr

/-- `PackageSource`, of which one field is to be set. -/
inductive Source where
  | init (description : Str)
  | cloneFrom (upstream : Str)
  | copyFrom (name : Str)
  | upgrade (oldUpstream newUpstream currentPackage strategy : Str)
  | empty
deriving DecidableEq, Repr

inductive SubpackageChange where
  | cloneFrom (upstream : Str)
  | upgrade (oldUpstream newUpstream currentPackage strategy : Str)
  | empty
deriving DecidableEq, Repr

structure SubpackageOperation where
  subpackageDir : Str
  change : SubpackageChange
deriving DecidableEq, Repr

structure Spec where
  packageName : Str
  repositoryName : Str
  workspaceName : Str
  /-- None is the empty string. -/
  lifecycle : Option Lifecycle
  source : Option Source := none
  subpackageOperation : Option SubpackageOperation := none
  readinessGates : List Str := []
  packageMetadata : Option PackageMetadata := none
deriving DecidableEq, Repr

/-- The part of the status, besides the conditions, that the field manager
    `packagerev-controller` owns. -/
structure CoreStatus where
  observedGeneration : Nat := 0
  revision : Int := 0
  publishedBy : Str := []
  publishedAt : Option Nat := none
  selfLock : Option Locator := none
  upstreamLock : Option Locator := none
  resourcesSizeBytes : Nat := 0
  creationSource : Str := []
  lastSubpackageOperationHash : Str := []
deriving DecidableEq, Repr

structure Status extends CoreStatus where
  observedPrrResourceVersion : Str := []
  renderingPrrResourceVersion : Str := []
  ready : Option Condition := none
  rendered : Option Condition := none
  packageConditions : List Str := []
deriving DecidableEq, Repr

structure PackageRevision where
  ns : Str := []
  generation : Nat := 1
  /-- The finalizer and the reference to the repository are there. -/
  hasFinalizer : Bool := false
  hasOwnerReference : Bool := false
  repositoryLabel : Option Str := none
  latestRevisionLabel : Option Str := none
  /-- The annotation `porch.kpt.dev/render-request`. -/
  renderRequest : Str := []
  /-- The annotation `porch.kpt.dev/push-on-render-failure`. -/
  pushOnFnRenderFailure : Str := []
  spec : Spec
  status : Status := {}
deriving DecidableEq, Repr

/-- `%q`, of a text without characters to escape. -/
def quoted (s : Str) : Str := '"' :: s ++ ['"']

def wrap (text : String) (err : Str) : Str := text.toList ++ ": " ++ err

/-! Conditions and retries -/

def transientErrorPatterns : List Str :=
  ["not found", "does not exist", "connection refused", "connection reset", "connection lost",
    "tls handshake timeout", "broken pipe", "i/o timeout", "timeout", "eof", "temporary failure",
    "no route to host", "server misbehaving"].map String.toList

/-- `IsTransientError`, on the text of the error. -/
def isTransientError (err : Str) : Bool :=
  transientErrorPatterns.any fun p => p <:+: err.map Char.toLower

/-- `pendingSince`, where none is the zero time. -/
def pendingSince (pr : PackageRevision) : Option Nat :=
  match pr.status.ready with
  | some c => if c.status = .false ∧ c.reason = .transientRetry then c.lastTransitionTime else none
  | none => none

def pendingExpired (pr : PackageRevision) (deadline now : Nat) : Bool :=
  match pendingSince pr with
  | none => false
  | some since => deadline ≤ now - since

/-! When a render is due -/

def isRenderedTrue (pr : PackageRevision) : Bool :=
  match pr.status.rendered with
  | some c => c.status = .true
  | none => false

/-- What `renderTrigger` returns. -/
structure RenderTrigger where
  requested : Str
  annotation : Bool
  source : Bool
deriving DecidableEq, Repr

def renderTrigger (pr : PackageRevision) : RenderTrigger :=
  if pr.spec.lifecycle ≠ some .draft then ⟨[], false, false⟩
  else
    { requested := pr.renderRequest
      annotation := pr.renderRequest ≠ [] ∧ pr.renderRequest ≠ pr.status.observedPrrResourceVersion
      source := pr.status.creationSource ≠ [] ∧ ¬ isRenderedTrue pr }

def isRenderStale ( currentAnnotation rendered : Str) : Bool := currentAnnotation ≠ rendered

def observedVersionAfterRender (requested annotation : Str) : Str :=
  if requested ≠ [] then requested else annotation

def isPushOnRenderFailure (pr : PackageRevision) : Bool :=
  pr.pushOnFnRenderFailure = "true"

/-- `validateRenderStateBeforePublish`: the error, if there is one. -/
def validateRenderStateBeforePublish (pr : PackageRevision) : Option Str :=
  let observed := pr.status.observedPrrResourceVersion
  let requested := pr.renderRequest
  if pr.status.renderingPrrResourceVersion ≠ [] then some "render in progress"
  else if observed ≠ requested then
    some ("render not yet observed (observed=" ++ quoted observed ++
      ", requested=" ++ quoted requested ++ ")")
  else none

/-! Subpackage operations -/

/-- `getSubpackageOperationHash`, over the digest of an operation, which is empty when the
    operation cannot be marshalled. -/
def getSubpackageOperationHash (hash : SubpackageOperation → Str) (pr : PackageRevision) : Str :=
  match pr.spec.subpackageOperation with
  | none => pr.status.lastSubpackageOperationHash
  | some op => hash op

def shouldSkipSubpackageOperation (hash : SubpackageOperation → Str) (pr : PackageRevision) : Bool :=
  match pr.spec.subpackageOperation with
  | none => true
  | some _ =>
    let subpackageOperationHash := getSubpackageOperationHash hash pr
    if subpackageOperationHash = [] then false
    else subpackageOperationHash = pr.status.lastSubpackageOperationHash

/-! The webhook -/

def lifecycleName : Option Lifecycle → Str
  | none => []
  | some .draft => "Draft"
  | some .proposed => "Proposed"
  | some .published => "Published"
  | some .deletionProposed => "DeletionProposed"

def validateImmutableFields (oldPR newPR : PackageRevision) : Option Str :=
  if oldPR.spec.repositoryName ≠ newPR.spec.repositoryName then
    some "repository field is immutable"
  else if oldPR.spec.packageName ≠ newPR.spec.packageName then
    some "packageName field is immutable"
  else if oldPR.spec.workspaceName ≠ newPR.spec.workspaceName then
    some "workspaceName field is immutable"
  else if oldPR.spec.source ≠ newPR.spec.source then some "source field is immutable"
  else none

def allowedTransitions : Option Lifecycle → Option (List Lifecycle)
  | some .draft => some [.proposed]
  | some .proposed => some [.published, .draft]
  | some .published => some [.deletionProposed]
  | some .deletionProposed => some [.published]
  | none => none

def validateLifecycleTransition (source target : Option Lifecycle) : Option Str :=
  let text := "invalid transition " ++ lifecycleName source ++ " → " ++
    lifecycleName target
  match allowedTransitions source with
  | none => some text
  | some allowed =>
    if target ∈ allowed.map some then none
    else
      some (text ++ " (allowed: " ++
        ", ".toList.intercalate (allowed.map fun l => lifecycleName (some l)) ++ ")".toList)

def validateRenderRacePrevention (pr : PackageRevision) : Option Str :=
  if pr.status.renderingPrrResourceVersion ≠ [] then
    some "cannot change lifecycle while render is in progress"
  else if pr.renderRequest ≠ [] ∧ pr.status.observedPrrResourceVersion ≠ pr.renderRequest then
    some "cannot change lifecycle until content is rendered"
  else none

/-- `ValidateCreate`. `repository` is the error of `validateRepositoryAnnotation`, and
    `workspace` that of `validateWorkspaceUniqueness`. -/
def validateCreate (repository workspace : Option Str) (obj : PackageRevision) : Option Str :=
  let shared :=
    match repository with
    | some err => some (wrap "repository validation failed" err)
    | none => workspace.map (wrap "workspace uniqueness check failed")
  if obj.spec.subpackageOperation ≠ none then
    some "subpackage operations are not allowed at creation"
  else if obj.spec.source = none then shared
  else if obj.spec.lifecycle = none then some "lifecycle is required on creation"
  else if obj.spec.lifecycle ≠ some .draft ∧ obj.spec.lifecycle ≠ some .proposed then
    some ("lifecycle must be Draft or Proposed on creation, got " ++
      lifecycleName obj.spec.lifecycle)
  else shared

def validateUpdate (oldObj newObj : PackageRevision) : Option Str :=
  match validateImmutableFields oldObj newObj with
  | some err => some (wrap "immutable field validation failed" err)
  | none =>
    if oldObj.spec.subpackageOperation ≠ newObj.spec.subpackageOperation ∧
        newObj.spec.lifecycle ≠ some .draft then
      some "subpackage operations are only allowed on Draft packages"
    else if oldObj.spec.lifecycle ≠ newObj.spec.lifecycle then
      match validateLifecycleTransition oldObj.spec.lifecycle newObj.spec.lifecycle with
      | some err => some (wrap "lifecycle transition validation failed" err)
      | none =>
        if newObj.spec.lifecycle ≠ some .draft then
          (validateRenderRacePrevention newObj).map (wrap "render race prevention failed")
        else none
    else none

end Porch.PrController
