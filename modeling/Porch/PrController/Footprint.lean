import Porch.PrController.Cluster

/- The calls that the parts of a reconcile make. Each lemma is about any set `C` of calls
   that has the reads and the writes of the part, so that an invariant which these calls
   keep is kept by the part (`Lts.Prog.Uses.triple`). The first steps hand on the object that
   a patch answers with, and have a rule of their own. -/
namespace Porch.PrController

open Go Lts.Prog

/-- The call writes neither the object nor the package. -/
@[reducible] def Call.isRead : Call → Bool
  | .get | .getLive | .getRepository | .now | .pollAgain | .fetchSource _ | .fetchSubpackage _
  | .getContent _ | .getResources _ | .createDraftFromExisting | .updateResources _ _ | .render _
  | .updateLatestRevisionLabels | .createMainPackageRevision => true
  | _ => false

attribute [simp] call Call.isRead

@[simp] theorem forall_except {ε α : Type} {P : Except ε α → Prop} :
    (∀ r, P r) ↔ (∀ err, P (.error err)) ∧ ∀ a, P (.ok a) :=
  ⟨fun h => ⟨fun _ => h _, fun _ => h _⟩, fun h => Except.rec h.1 h.2⟩

/-- The condition, if one is applied, is not that of a render that worked. -/
def NotRendered (rendered : Option Condition) : Prop := ∀ cond ∈ rendered, cond.status ≠ .true

theorem notRendered_none : NotRendered none := fun _ h => by cases h

section Status

variable {pr : PackageRevision} {resources : Option Resources} {cs h : Str}

@[simp] theorem appliedStatus_none_revision :
    (appliedStatus pr none resources cs h).revision = pr.status.revision := rfl

theorem appliedStatus_some_revision (content : Content) :
    (appliedStatus pr (some content) resources cs h).revision =
      if lifecycleIsPublished content.lifecycle then content.revision else pr.status.revision := by
  simp only [appliedStatus]
  split <;> rfl

@[simp] theorem appliedStatus_creationSource (content : Option Content) :
    (appliedStatus pr content resources cs h).creationSource =
      if cs = [] then pr.status.creationSource else cs := by
  cases content with
  | none => rfl
  | some content =>
    simp only [appliedStatus]
    split <;> rfl

end Status

variable {cfg : Config} {pr : PackageRevision}

section Uses

variable {C : Call → Prop} {B : (e : Call) → Answer e → Prop}
  (hread : ∀ e : Call, e.isRead = true → C e)

include hread

theorem uses_read {e : Call} {A : Answer e → Prop} (he : e.isRead = true) (hA : ∀ r, B e r → A r) :
    Uses C B A (call e) :=
  uses_perform (hread e he) hA

/-! Status -/

theorem updateStatus_uses {content : Option Content} {cs h : Str} {ready : Condition}
    {rendered : Option Condition}
    (happly : ∀ resources, C (.applyStatus (appliedStatus pr content resources cs h) ready rendered)) :
    Uses C B (fun _ => True) (updateStatus pr content cs h ready rendered) := by
  have hfiles : Uses C B (fun _ => True) (contentResources content) := by
    cases content with
    | none => exact uses_pure trivial
    | some _ => exact Uses.map (uses_read hread rfl fun _ _ => trivial)
  refine hfiles.bind fun resources _ => ?_
  exact Uses.bind (uses_perform (happly resources) fun _ _ => trivial) fun _ _ => uses_pure trivial

theorem readBack_uses {cs h : Str} (n : Nat) : Uses C B (fun _ => True) (readBack cs h n) := by
  induction n with
  | zero => simp [readBack]
  | succ n ih =>
    refine uses_call (hread _ rfl) fun got _ => ?_
    cases confirmMarkers cs h got <;> simp [hread, ih]

omit hread in
theorem updateRenderStatus_uses {rendering observed : Str} {rendered : Condition}
    (happly : ∀ observed, C (.applyRenderStatus rendering observed rendered)) :
    Uses C B (fun _ => True) (updateRenderStatus pr rendering observed rendered) :=
  uses_perform (happly _) fun _ _ => trivial

theorem setFailedConditionsAndLog_uses (happly : ∀ ready rendered, NotRendered rendered →
      C (.applyStatus (appliedStatus pr none none [] []) ready rendered)) (err : Str) :
    Uses C B (· ≠ .ok none) (setFailedConditionsAndLog pr err) := by
  refine Uses.bind (updateStatus_uses hread fun _ => happly _ _ ?_) fun _ _ => uses_pure (by simp)
  rintro cond ⟨⟩
  simp [condition]

theorem mayRetry_uses {err : Str} : Uses C B (fun _ => True) (mayRetry cfg pr err) := by
  unfold mayRetry
  split
  · exact Uses.map (uses_read hread rfl fun _ _ => trivial)
  · exact uses_pure trivial

/-! Source and subpackages -/

theorem verifyRepoMigrated_uses : Uses C B (fun _ => True) (verifyRepoMigrated pr) := by
  simp only [verifyRepoMigrated, call, uses_call_iff, forall_except, hread, true_and]
  refine ⟨fun _ _ => trivial, fun migration _ => ?_⟩
  split <;> trivial

theorem applySource_uses (source : Source) :
    Uses C B (fun r => ∀ files, r = .ok files → source ≠ .empty) (applySource source) := by
  cases source with
  | empty => exact uses_pure fun _ h => by cases h
  | _ =>
    show Uses C B _ (call (.fetchSource _))
    refine uses_read hread rfl ?_
    simp

omit hread in
theorem reconcileSource_skip (hskip : pr.spec.source = none ∨ pr.status.creationSource ≠ []) :
    reconcileSource cfg pr = pure (.ok none) := by
  unfold reconcileSource
  split
  · rfl
  · next source hsrc => exact if_pos (hskip.resolve_left (by simp [hsrc]))

theorem applySubpackageOperation_uses (op : SubpackageOperation) :
    Uses C B (fun _ => True) (applySubpackageOperation cfg op) := by
  unfold applySubpackageOperation
  split
  · exact uses_pure trivial
  · split
    · exact uses_pure trivial
    · exact uses_read hread rfl fun _ _ => trivial

theorem getPackageResources_uses : Uses C B (fun _ => True) getPackageResources := by
  exact uses_call (hread _ rfl) fun
    | .error _, _ => uses_pure trivial
    | .ok _, _ => uses_read hread rfl fun _ _ => trivial

omit hread in
theorem reconcileSubpackageOperation_skip
    (hskip : shouldSkipSubpackageOperation cfg.subpackageOperationHash pr = true) :
    reconcileSubpackageOperation cfg pr = pure (.ok none) := by
  unfold reconcileSubpackageOperation
  rw [hskip]
  rfl

section Completion

variable (hrend : ∀ cond : Condition, cond.status = .unknown →
  C (.applyRenderStatus [] pr.status.observedPrrResourceVersion cond))

include hrend

section Finalize

variable {cs h : Str} (happly : ∀ content resources cs' h' ready rendered,
  (∀ ct ∈ content, B (.getContent .status) (.ok ct)) → NotRendered rendered →
  (cs' = cs ∧ h' = h) ∨ (cs' = [] ∧ h' = []) →
  C (.applyStatus (appliedStatus pr content resources cs' h') ready rendered))

include happly

theorem recordCompletion_uses : Uses C B (· ≠ .ok none) (recordCompletion cfg pr cs h) := by
  refine uses_call (hread _ rfl) fun content hcont => ?_
  refine Uses.bind (A := fun _ => True) ?_ fun confirmed _ => ?_
  · refine Uses.bind (updateStatus_uses hread fun _ =>
        happly _ _ _ _ _ _ ?_ notRendered_none (.inl ⟨rfl, rfl⟩))
      fun _ _ => readBack_uses hread _
    cases content with
    | error err => exact nofun
    | ok content => rintro _ ⟨⟩; exact hcont
  · cases confirmed with
    | some err =>
      refine uses_call (hread _ rfl) fun now _ => ?_
      split
      · exact setFailedConditionsAndLog_uses hread
          (fun _ _ hr => happly _ _ _ _ _ _ nofun hr (.inr ⟨rfl, rfl⟩)) _
      · exact Uses.bind (updateStatus_uses hread fun _ =>
          happly _ _ _ _ _ _ nofun notRendered_none (.inl ⟨rfl, rfl⟩))
          fun _ _ => uses_pure (by simp)
    | none =>
      exact uses_call (hrend _ rfl) fun _ _ => uses_pure (by simp)

theorem finalizeDraftAndUpdateStatus_uses {draft : Draft} {resources : Resources}
    (hclose : C (.closeDraft { draft with resources := resources })) :
    Uses C B (· ≠ .ok none) (finalizeDraftAndUpdateStatus cfg pr draft resources cs h) := by
  have hfail := setFailedConditionsAndLog_uses (B := B) hread fun _ _ hr =>
    happly _ _ _ _ _ _ nofun hr (.inr ⟨rfl, rfl⟩)
  refine uses_call (hread _ rfl) fun | .error _, _ => hfail _ | .ok _, _ => ?_
  exact uses_call hclose fun
    | .error _, _ => hfail _
    | .ok _, _ => recordCompletion_uses hread hrend happly

end Finalize

theorem reconcileSource_uses (hnew : C .createNewDraft)
    (hclose : ∀ draft resources, B .createNewDraft (.ok draft) →
      C (.closeDraft { draft with resources := resources }))
    (happly : ∀ content resources cs ready rendered,
      (∀ ct ∈ content, B (.getContent .status) (.ok ct)) → NotRendered rendered →
      C (.applyStatus (appliedStatus pr content resources cs []) ready rendered))
    (hsrc : pr.spec.source ≠ none) (hnone : pr.status.creationSource = []) :
    Uses C B (· ≠ .ok none) (reconcileSource cfg pr) := by
  have hfail := setFailedConditionsAndLog_uses (B := B) hread fun _ _ => happly _ _ _ _ _ nofun
  obtain ⟨source, hsrc⟩ := Option.ne_none_iff_exists'.mp hsrc
  unfold reconcileSource
  rw [hsrc]
  dsimp only
  rw [if_neg (not_not.mpr hnone)]
  refine (verifyRepoMigrated_uses hread).bind fun | some _, _ => hfail _ | none, _ => ?_
  refine (applySource_uses hread source).bind fun | .error _, _ => hfail _ | .ok _, _ => ?_
  refine uses_call hnew fun | .error _, _ => hfail _ | .ok _, hopened => ?_
  refine finalizeDraftAndUpdateStatus_uses hread hrend ?_ (hclose _ _ hopened)
  rintro _ _ _ _ _ _ hcont hr (⟨-, rfl⟩ | ⟨-, rfl⟩)
  · exact happly _ _ _ _ _ hcont hr
  · exact happly _ _ _ _ _ hcont hr

variable (hclose : ∀ draft resources, B .createDraftFromExisting (.ok draft) →
    C (.closeDraft { draft with resources := resources }))
  (happly : ∀ content resources h ready rendered,
    (∀ ct ∈ content, B (.getContent .status) (.ok ct)) → NotRendered rendered →
    C (.applyStatus (appliedStatus pr content resources [] h) ready rendered))

include hclose happly

/-- A subpackage operation, when there is one to apply. -/
theorem reconcileSubpackageOperation_uses
    (hdue : shouldSkipSubpackageOperation cfg.subpackageOperationHash pr = false) :
    Uses C B (· ≠ .ok none) (reconcileSubpackageOperation cfg pr) := by
  have hfail := setFailedConditionsAndLog_uses (B := B) hread fun _ _ => happly _ _ _ _ _ nofun
  unfold reconcileSubpackageOperation
  rw [hdue]
  cases hop : pr.spec.subpackageOperation with
  | none => simp [shouldSkipSubpackageOperation, hop] at hdue
  | some op =>
    refine (applySubpackageOperation_uses hread op).bind fun | .error _, _ => hfail _ | .ok _, _ => ?_
    dsimp only
    split
    · exact hfail _
    · exact uses_pure (by simp)
    · refine (getPackageResources_uses hread).bind fun | .error _, _ => hfail _ | .ok _, _ => ?_
      dsimp only
      split
      · exact hfail _
      · refine uses_call (hread _ rfl) fun | .error _, _ => hfail _ | .ok _, hopened => ?_
        refine finalizeDraftAndUpdateStatus_uses hread hrend ?_ (hclose _ _ hopened)
        rintro _ _ _ _ _ _ hcont hr (⟨rfl, -⟩ | ⟨rfl, -⟩)
        · exact happly _ _ _ _ _ hcont hr
        · exact happly _ _ _ _ _ hcont hr

theorem reconcileSubpackageOperation_uses_any :
    Uses C B (fun _ => True) (reconcileSubpackageOperation cfg pr) := by
  cases hskip : shouldSkipSubpackageOperation cfg.subpackageOperationHash pr with
  | true =>
    rw [reconcileSubpackageOperation_skip hskip]
    exact uses_pure trivial
  | false =>
    exact (reconcileSubpackageOperation_uses hread hrend hclose happly hskip).mono (fun _ => id)
      fun _ _ => trivial

end Completion

/-! Metadata -/

theorem readAndParseKptfile_uses : Uses C B (fun _ => True) (readAndParseKptfile cfg) := by
  simp [readAndParseKptfile, hread]

theorem applyAndWriteMetadata_uses {resources : Resources} {kf : KptFile}
    (hclose : ∀ draft resources, B .createDraftFromExisting (.ok draft) →
      C (.closeDraft { draft with resources := resources })) :
    Uses C B (fun _ => True) (applyAndWriteMetadata cfg pr resources kf) := by
  unfold applyAndWriteMetadata
  dsimp only
  split
  · exact uses_pure trivial
  · split
    · exact uses_pure trivial
    · simp +contextual [hread, hclose]

theorem triggerRenderIfNeeded_uses (hpatch : ∀ value, C (.patchRenderRequest value)) :
    Uses C B (fun r => r.1 = none → r.2.status = pr.status) (triggerRenderIfNeeded pr) := by
  unfold triggerRenderIfNeeded
  split <;> simp [hread, hpatch]

theorem reconcilePackageMetadata_uses
    (hclose : ∀ draft resources, B .createDraftFromExisting (.ok draft) →
      C (.closeDraft { draft with resources := resources }))
    (hpatch : ∀ value, C (.patchRenderRequest value)) :
    Uses C B (fun r => r.1 = none → r.2.status = pr.status) (reconcilePackageMetadata cfg pr) := by
  have hsame : Uses C B (fun r => r.1 = none → r.2.status = pr.status)
      (pure (none, pr) : Reconciler (Option Result × PackageRevision)) := uses_pure fun _ => rfl
  unfold reconcilePackageMetadata
  split
  · exact hsame
  split
  · exact hsame
  split
  · exact hsame
  split
  · exact hsame
  refine (readAndParseKptfile_uses hread).bind fun | .error _, _ => hsame | .ok _, _ => ?_
  exact (applyAndWriteMetadata_uses hread hclose).bind fun
    | .error _, _ | .ok false, _ => hsame
    | .ok true, _ => triggerRenderIfNeeded_uses hread hpatch

/-! Rendering -/

theorem readPackageResources_uses : Uses C B (fun _ => True) readPackageResources := by
  simp [readPackageResources, hread]

theorem writeRenderedResources_uses {resources : Resources}
    (hclose : ∀ draft, B .createDraftFromExisting (.ok draft) →
      C (.closeDraft { draft with resources := resources })) :
    Uses C B (fun _ => True) (writeRenderedResources resources) := by
  simp +contextual [writeRenderedResources, hread, hclose]

theorem verifyContent_uses (n : Nat) : Uses C B (fun _ => True) (verifyContent n) := by
  induction n with
  | zero => simp [verifyContent, hread]
  | succ n ih =>
    refine uses_call (hread _ rfl) fun | .ok _, _ => uses_pure trivial | .error _, _ => ?_
    exact uses_call (hread _ rfl) fun | true, _ => ih | false, _ => uses_pure trivial

theorem verifyResourcesAvailable_uses : Uses C B (fun _ => True) verifyResourcesAvailable := by
  refine (verifyContent_uses hread 2).bind fun | .error _, _ => uses_pure trivial | .ok _, _ => ?_
  refine uses_call (hread _ rfl) fun resources _ => ?_
  cases resources with
  | error err => exact uses_pure trivial
  | ok _ => dsimp only; split <;> exact uses_pure trivial

omit hread in
theorem refreshRenderedGeneration_uses (hrend : ∀ observed rendered,
      C (.applyRenderStatus pr.status.renderingPrrResourceVersion observed rendered)) :
    Uses C B (fun _ => True) (refreshRenderedGeneration pr) := by
  unfold refreshRenderedGeneration
  split
  · exact uses_pure trivial
  split
  · exact (updateRenderStatus_uses fun observed => hrend observed _).bind fun _ _ => uses_pure trivial
  · exact uses_pure trivial

omit hread in
theorem reconcileRender_idle_uses
    (hidle : RenderTrigger.annotation (renderTrigger pr) = false ∧ (renderTrigger pr).source = false)
    (hrend : ∀ observed rendered,
      C (.applyRenderStatus pr.status.renderingPrrResourceVersion observed rendered)) :
    Uses C B (· = .ok none) (reconcileRender cfg pr) := by
  unfold reconcileRender
  split
  · exact uses_pure rfl
  · dsimp only
    rw [hidle.1, hidle.2]
    exact (refreshRenderedGeneration_uses hrend).bind fun _ _ => uses_pure rfl

omit hread in
theorem reconcileContent_skip (hskip : pr.spec.source = none ∨ pr.status.creationSource ≠ []) :
    reconcileContent cfg pr = (do
      match ← reconcilePackageMetadata cfg pr with
      | (some result, _) => pure (some result)
      | (none, pr) => reconcileOperationAndRender cfg pr) := by
  unfold reconcileContent
  rw [reconcileSource_skip hskip]
  rfl

section Kptfile

variable (hspec : ∀ gates metadata, C (.applySpec gates metadata))
  (hconds : ∀ conditions, C (.applyPackageConditions conditions))

include hspec

omit hread in
theorem applySpec_uses (gates : Option (List Str)) (metadata : Option PackageMetadata) :
    Uses C B (fun _ => True) (applySpec gates metadata) := by
  unfold applySpec
  split <;> simp [hspec]

include hconds

omit hread hspec in
theorem applyPackageConditions_uses (conditions : List Str) :
    Uses C B (fun _ => True) (applyPackageConditions conditions) := by
  unfold applyPackageConditions
  split <;> simp [hconds]

omit hread in
theorem syncKptfileFields_uses {resources : Resources} :
    Uses C B (fun _ => True) (syncKptfileFields cfg pr resources) := by
  unfold syncKptfileFields
  split
  · exact uses_pure trivial
  split
  · exact uses_pure trivial
  unfold updateKptfileFields
  dsimp only
  split
  · exact uses_pure trivial
  · exact (applySpec_uses hspec _ _).bind fun _ _ => applyPackageConditions_uses hconds _

theorem persistOnFailure_uses {resources : Resources}
    (hclose : ∀ draft, isPushOnRenderFailure pr = true → B .createDraftFromExisting (.ok draft) →
      C (.closeDraft { draft with resources := resources })) :
    Uses C B (fun _ => True) (persistOnFailure cfg pr resources) := by
  unfold persistOnFailure
  split
  · next hpush =>
    exact (writeRenderedResources_uses hread fun draft => hclose draft hpush).bind fun
      | .error _, _ => uses_pure trivial
      | .ok _, _ => syncKptfileFields_uses hspec hconds
  · exact uses_pure trivial

/-- The writes of a render, and of what is recorded of it. -/
theorem reconcileRender_uses
    (happly : ∀ ready, C (.applyStatus (appliedStatus pr none none [] []) ready none))
    (hrend : ∀ rendering observed rendered, C (.applyRenderStatus rendering observed rendered))
    (hclose : ∀ draft resources rendered err, B .createDraftFromExisting (.ok draft) →
      B (.render resources) (.result rendered err) → (err = none ∨ isPushOnRenderFailure pr = true) →
      C (.closeDraft { draft with resources := rendered })) :
    Uses C B (fun _ => True) (reconcileRender cfg pr) := by
  have hmark : ∀ rendering observed rendered, Uses C B (fun _ => True)
      (updateRenderStatus pr rendering observed rendered) := fun rendering observed rendered =>
    updateRenderStatus_uses fun observed => hrend rendering observed rendered
  have hstat : ∀ ready, Uses C B (fun _ => True) (updateStatus pr none [] [] ready none) :=
    fun ready => (uses_perform (happly ready) fun _ _ => trivial).bind fun _ _ => uses_pure trivial
  have hfailed : ∀ err, Uses C B (fun _ => True) (setRenderFailed pr err) := fun err =>
    (hmark _ _ _).bind fun _ _ => hstat _
  have hretry : ∀ err, Uses C B (fun _ => True) (retryOrFailRender cfg pr err) := by
    intro err
    refine Uses.bind (A := fun _ => True) ?_ fun retried _ => ?_
    · refine (mayRetry_uses hread).bind fun retry _ => ?_
      cases retry with
      | true =>
        exact (hstat _).bind fun _ _ => (hmark _ _ _).bind fun _ _ => uses_pure trivial
      | false => exact uses_pure trivial
    · cases retried with
      | some result => exact uses_pure trivial
      | none => exact (hfailed err).bind fun _ _ => uses_pure trivial
  have hexec : Uses C B (fun _ => True) (executeRender cfg pr) := by
    refine (readPackageResources_uses hread).bind fun | .error err, _ => hretry err | .ok _, _ => ?_
    refine uses_call (hread _ rfl) fun
      | .limited, _ => uses_pure trivial
      | .failed err, _ => (hfailed err).bind fun _ _ => uses_pure trivial
      | .result _ pipelineErr, hans => ?_
    refine Uses.bind (A := fun _ => True) ?_ fun stale _ => ?_
    · refine uses_call (hread _ rfl) fun current _ => ?_
      cases current with
      | error err => exact uses_pure trivial
      | ok current => dsimp only; split <;> exact uses_pure trivial
    match stale with
    | .error _ | .ok (some _) => exact uses_pure trivial
    | .ok none =>
      cases pipelineErr with
      | some err =>
        exact (persistOnFailure_uses hread hspec hconds fun draft hpush hdraft =>
          hclose draft _ _ _ hdraft hans (.inr hpush)).bind fun _ _ =>
          (hfailed err).bind fun _ _ => uses_pure trivial
      | none =>
        refine (writeRenderedResources_uses hread fun draft hdraft =>
          hclose draft _ _ _ hdraft hans (.inl rfl)).bind fun written _ => ?_
        cases written with
        | error err => exact hretry err
        | ok _ =>
          exact (syncKptfileFields_uses hspec hconds).bind fun _ _ => uses_pure trivial
  unfold reconcileRender
  split
  · exact uses_pure trivial
  dsimp only
  split
  · exact (refreshRenderedGeneration_uses fun _ _ => hrend _ _ _).bind fun _ _ => uses_pure trivial
  refine (hmark _ _ _).bind fun _ _ => hexec.bind fun
    | .error _, _ | .ok (some _), _ => uses_pure trivial
    | .ok none, _ => ?_
  refine (verifyResourcesAvailable_uses hread).bind fun | .error err, _ => hretry err | .ok _, _ => ?_
  refine (hmark _ _ _).bind fun recorded _ => ?_
  cases recorded <;> exact uses_pure trivial

variable (hrend : ∀ rendering observed rendered, C (.applyRenderStatus rendering observed rendered))
  (hclose : ∀ draft resources, B .createDraftFromExisting (.ok draft) →
    C (.closeDraft { draft with resources := resources }))

include hrend hclose

theorem reconcileOperationAndRender_uses (happly : ∀ content resources h ready rendered,
      (∀ ct ∈ content, B (.getContent .status) (.ok ct)) → NotRendered rendered →
      C (.applyStatus (appliedStatus pr content resources [] h) ready rendered)) :
    Uses C B (fun _ => True) (reconcileOperationAndRender cfg pr) := by
  refine (reconcileSubpackageOperation_uses_any hread (fun _ _ => hrend _ _ _) hclose happly).bind fun
    | .error _, _ | .ok (some _), _ => uses_pure trivial
    | .ok none, _ => ?_
  exact (reconcileRender_uses hread hspec hconds (fun _ => happly _ _ _ _ _ nofun notRendered_none)
    hrend fun draft _ _ _ hdraft _ _ => hclose draft _ hdraft).bind fun
    | .error _, _ | .ok _, _ => uses_pure trivial

/-- A reconcile whose source has been applied. -/
theorem reconcileContent_uses (hskip : pr.spec.source = none ∨ pr.status.creationSource ≠ [])
    (hpatch : ∀ value, C (.patchRenderRequest value))
    (happly : ∀ pr' : PackageRevision, pr'.status = pr.status → ∀ content resources h ready rendered,
      (∀ ct ∈ content, B (.getContent .status) (.ok ct)) → NotRendered rendered →
      C (.applyStatus (appliedStatus pr' content resources [] h) ready rendered)) :
    Uses C B (fun _ => True) (reconcileContent cfg pr) := by
  rw [reconcileContent_skip hskip]
  exact (reconcilePackageMetadata_uses hread hclose hpatch).bind fun
    | (some _, _), _ => uses_pure trivial
    | (none, pr'), hsynced => reconcileOperationAndRender_uses hread hspec hconds hrend hclose
        (happly pr' (hsynced rfl))

end Kptfile

/-! Lifecycle -/

theorem reconcileLifecycle_uses (happly : ∀ content resources ready,
      (∀ ct ∈ content, B (.getContent .lifecycle) (.ok ct) ∨
        B (.updateLifecycle pr.spec.lifecycle) (.ok ct)) →
      C (.applyStatus (appliedStatus pr content resources [] []) ready none))
    (hupd : C (.updateLifecycle pr.spec.lifecycle)) :
    Uses C B (fun _ => True) (reconcileLifecycle cfg pr) := by
  have hstat : ∀ content ready, (∀ ct ∈ content, B (.getContent .lifecycle) (.ok ct) ∨
      B (.updateLifecycle pr.spec.lifecycle) (.ok ct)) →
      Uses C B (fun _ => True) (updateStatus pr content [] [] ready none) :=
    fun content ready hcont => updateStatus_uses hread fun resources =>
      happly content resources ready hcont
  have hnone : ∀ ready, Uses C B (fun _ => True) (updateStatus pr none [] [] ready none) :=
    fun ready => hstat none ready nofun
  refine uses_call (hread _ rfl) fun content hcont => ?_
  cases content with
  | error err =>
    dsimp only
    split
    · exact (hnone _).bind fun _ _ => uses_pure trivial
    · refine uses_call (hread _ rfl) fun now _ => ?_
      split <;> exact (hnone _).bind fun _ _ => uses_pure trivial
  | ok content =>
    have hread' : ∀ ct ∈ some content, B (.getContent .lifecycle) (.ok ct) ∨
        B (.updateLifecycle pr.spec.lifecycle) (.ok ct) := by
      rintro _ ⟨⟩
      exact .inl hcont
    dsimp only
    split
    · refine (hstat _ _ hread').bind fun _ _ => ?_
      split
      · refine uses_call (hread _ rfl) fun | .error _, _ => uses_pure trivial | .ok _, _ => ?_
        dsimp only
        split
        · refine uses_call (hread _ rfl) fun main _ => ?_
          cases main <;> exact uses_pure trivial
        · exact uses_pure trivial
      · exact uses_pure trivial
    · split
      · exact (hstat _ _ hread').bind fun _ _ => uses_pure trivial
      · refine uses_call hupd fun updated hupdated => ?_
        cases updated with
        | error err =>
          refine (mayRetry_uses hread).bind fun retry _ => ?_
          split <;> exact (hnone _).bind fun _ _ => uses_pure trivial
        | ok updated =>
          refine (hstat _ _ ?_).bind fun _ _ => ?_
          · rintro _ ⟨⟩
            exact .inr hupdated
          split
          · exact uses_call (hread _ rfl) fun _ _ => uses_pure trivial
          · exact uses_pure trivial

end Uses

/-! The first steps -/

section Triples

variable {ρ : Rules Call Answer Cluster} {safe : Cluster → Call → Prop}

/-- What holds with the answer of a call that works, and what holds if it fails. -/
def Answered {ε α : Type} (H : α → Cluster → Prop) (E : Cluster → Prop) : Except ε α → Cluster → Prop
  | .error _ => E
  | .ok a => H a

theorem answered_stable {ε α : Type} {H : α → Cluster → Prop} {E : Cluster → Prop}
    (hH : ∀ a, Stable ρ (H a)) (hE : Stable ρ E) (r : Except ε α) : Stable ρ (Answered H E r) := by
  cases r with
  | error => exact hE
  | ok a => exact hH a

section FirstSteps

variable {H : PackageRevision → Cluster → Prop} {E : Cluster → Prop}

theorem triple_mapError {P : Cluster → Prop} {p : Reconciler (Except Str PackageRevision)}
    {text : Str → Str} (hp : Triple ρ safe P p (Answered H E)) (hH : ∀ pr, Stable ρ (H pr))
    (hE : Stable ρ E) : Triple ρ safe P (do return (← p).mapError text) (Answered H E) := by
  exact hp.bind fun
    | .error _ => triple_pure hE fun c h => h
    | .ok pr => triple_pure (hH pr) fun c h => h

/-- What holds of the object in hand holds of it after the first steps if each of their
    patches keeps it. -/
theorem ensureMetadata_triple (hH : ∀ pr, Stable ρ (H pr)) (hE : Stable ρ E)
    (howner : ∀ pr, Triple ρ safe (H pr) (call .getRepository) fun _ => H pr)
    (hfin : ∀ pr owner, Triple ρ safe (H pr) (call (.patchFinalizer owner)) (Answered H E))
    (hrepo : ∀ pr value,
      Triple ρ safe (H pr) (call (.patchRepositoryLabel value)) (Answered H E))
    (hlat : ∀ pr value,
      Triple ρ safe (H pr) (call (.patchLatestRevisionLabel value)) (Answered H E)) :
    Triple ρ safe (H pr) (ensureMetadata pr) (Answered H E) := by
  have hsame : ∀ pr, Triple ρ safe (H pr) (pure (.ok pr) : Reconciler (Except Str _)) (Answered H E) := fun pr =>
    triple_pure (hH pr) fun c h => h
  have herror : ∀ err, Triple ρ safe E (pure (.error err) : Reconciler (Except Str _)) (Answered H E) := fun err =>
    triple_pure hE fun c h => h
  have hfinds : Triple ρ safe (H pr) (findsOwner pr) fun _ => H pr := by
    unfold findsOwner
    split
    · exact triple_pure (hH pr) fun c h => h
    · exact (howner pr).bind fun _ => triple_pure (hH pr) fun c h => h
  refine Triple.bind (M := Answered H E) ?_ fun finalized => ?_
  · refine hfinds.bind fun owner => ?_
    split
    · exact triple_mapError (hfin pr owner) hH hE
    · exact hsame pr
  cases finalized with
  | error err => exact herror err
  | ok pr =>
    refine Triple.bind (M := Answered H E) ?_ fun labelled => ?_
    · unfold ensureRepositoryLabel
      split
      · exact hsame pr
      · exact triple_mapError (hrepo pr _) hH hE
    cases labelled with
    | error err => exact herror err
    | ok pr =>
      dsimp only [ensureLatestRevisionLabel]
      split
      · exact hsame pr
      · exact triple_mapError (hlat pr _) hH hE

end FirstSteps

section Source

variable {P Q : Cluster → Prop} {D : Draft → Cluster → Prop} {R : PartResult → Cluster → Prop}

/-- The end of the source and of a subpackage operation: `P` holds up to the closing of the
    draft, and `Q` after it. -/
theorem finalizeDraft_triple {draft : Draft} {resources : Resources} {cs h : Str}
    (hupd : ∀ draft operation,
      Triple ρ safe P (call (.updateResources draft operation)) fun _ => P)
    (hfail : ∀ err, Triple ρ safe P (setFailedConditionsAndLog pr err) R)
    (hclose : Triple ρ safe P (call (.closeDraft { draft with resources := resources })) (Answered (fun _ => Q) P))
    (hrecord : Triple ρ safe Q (recordCompletion cfg pr cs h) R) :
    Triple ρ safe P (finalizeDraftAndUpdateStatus cfg pr draft resources cs h) R := by
  refine (hupd _ _).bind fun | .error _ => hfail _ | .ok _ => ?_
  exact hclose.bind fun | .error _ => hfail _ | .ok _ => hrecord

/-- The source, when it is to be applied: `D` holds with the draft that is opened for it. -/
theorem reconcileSource_triple {source : Source} (hsrc : pr.spec.source = some source)
    (hdue : pr.status.creationSource = [])
    (hmigrated : Triple ρ safe P (verifyRepoMigrated pr) fun _ => P)
    (happly : Triple ρ safe P (applySource source)
      fun r c => (∀ files, r = .ok files → source ≠ .empty) ∧ P c)
    (hfail : ∀ err, Triple ρ safe P (setFailedConditionsAndLog pr err) R)
    (hopen : Triple ρ safe P (call .createNewDraft) (Answered D P))
    (hfinal : ∀ draft resources, source ≠ .empty → Triple ρ safe (D draft)
      (finalizeDraftAndUpdateStatus cfg pr draft resources source.operation []) R) :
    Triple ρ safe P (reconcileSource cfg pr) R := by
  unfold reconcileSource
  rw [hsrc]
  dsimp only
  rw [if_neg (not_not.mpr hdue)]
  refine hmigrated.bind fun | some _ => hfail _ | none => ?_
  refine happly.bind_of fun | .error _, _ => hfail _ | .ok resources, hempty => ?_
  exact hopen.bind fun
    | .error _ => hfail _
    | .ok draft => hfinal draft resources (hempty resources rfl)

end Source

section Lifecycle

variable {P Q : Cluster → Prop} {K : Content → Cluster → Prop}

theorem updateStatus_triple {content : Option Content} {cs h : Str} {ready : Condition}
    {rendered : Option Condition} (hQ : Stable ρ Q)
    (hfiles : Triple ρ safe P (contentResources content) fun _ => P)
    (happly : ∀ resources, Triple ρ safe P
      (call (.applyStatus (appliedStatus pr content resources cs h) ready rendered)) fun _ => Q) :
    Triple ρ safe P (updateStatus pr content cs h ready rendered) fun _ => Q :=
  hfiles.bind fun resources => (happly resources).bind fun _ => triple_pure hQ fun _ h => h

/-- The lifecycle part: with the content in hand `K` holds, and `Q` when the status has been
    written. -/
theorem reconcileLifecycle_triple (hP : Stable ρ P) (hQ : Stable ρ Q)
    (hget : Triple ρ safe P (call (.getContent .lifecycle)) (Answered K P))
    (hnow : Triple ρ safe P (call .now) fun _ => P)
    (hnone : ∀ ready, Triple ρ safe P (updateStatus pr none [] [] ready none) fun _ => Q)
    (hsome : ∀ content ready,
      Triple ρ safe (K content) (updateStatus pr (some content) [] [] ready none) fun _ => Q)
    (hupd : ∀ content : Content, some content.lifecycle ≠ pr.spec.lifecycle →
      ((pr.spec.lifecycle = some .published ∨ pr.spec.lifecycle = some .proposed) →
        validateRenderStateBeforePublish pr = none) →
      Triple ρ safe (K content) (call (.updateLifecycle pr.spec.lifecycle)) (Answered K P))
    (hlat : Triple ρ safe Q (call .updateLatestRevisionLabels) fun _ => Q)
    (hmain : Triple ρ safe Q (call .createMainPackageRevision) fun _ => Q) :
    Triple ρ safe P (reconcileLifecycle cfg pr) fun _ => Q := by
  have hend : ∀ answer : Except Str Result, Triple ρ safe Q (pure answer) fun _ => Q := fun answer =>
    triple_pure hQ fun c h => h
  refine hget.bind fun content => ?_
  cases content with
  | error err =>
    dsimp only
    split
    · exact (hnone _).bind fun _ => hend _
    · refine hnow.bind fun now => ?_
      split <;> exact (hnone _).bind fun _ => hend _
  | ok content =>
    change Triple ρ safe (K content) _ _
    dsimp only
    split
    · refine (hsome content _).bind fun _ => ?_
      split
      · refine hlat.bind fun | .error _ => hend _ | .ok _ => ?_
        dsimp only
        split
        · exact hmain.bind fun | .error _ => hend _ | .ok _ => hend _
        · exact hend _
      · exact hend _
    · next hdiffers =>
      split
      · exact (hsome content _).bind fun _ => hend _
      · next hblocked =>
        refine (hupd content hdiffers fun hdesired => ?_).bind fun updated => ?_
        · rw [if_pos hdesired] at hblocked
          exact hblocked
        cases updated with
        | error err =>
          refine Triple.bind (M := fun _ => P) ?_ fun retry => ?_
          · unfold mayRetry
            split
            · exact hnow.bind fun _ => triple_pure hP fun c h => h
            · exact triple_pure hP fun c h => h
          split <;> exact (hnone _).bind fun _ => hend _
        | ok updated =>
          refine (hsome updated _).bind fun _ => ?_
          split
          · exact hmain.bind fun _ => hend _
          · exact hend _

end Lifecycle

/-! The reconcile -/

/-- `I` holds between the parts of a reconcile, `H` with the object in hand, and `J` when the
    content is done. -/
theorem reconcile_triple {I J : Cluster → Prop} {H H' : PackageRevision → Cluster → Prop}
    {Q : Option Result → Cluster → Prop} (hI : Stable ρ I) (hH : ∀ pr c, H pr c → I c)
    (hsome : ∀ result c, Q (some result) c → I c) (hJ : ∀ c, J c → I c) (hnone : ∀ c, Q none c → J c)
    (hget : Triple ρ safe I (call .get) (Answered H I))
    (hmeta : ∀ pr, Triple ρ safe (H pr) (ensureMetadata pr) (Answered H I))
    (hcont : ∀ pr, Triple ρ safe (H pr) (reconcileContent cfg pr) Q)
    (hagain : Triple ρ safe J (call .get) (Answered H' J))
    (hlc : ∀ pr, Triple ρ safe (H' pr) (reconcileLifecycle cfg pr) fun _ => I) :
    Triple ρ safe I (reconcile cfg) fun _ => I := by
  have hend : ∀ answer : Except Str Result, Triple ρ safe I (pure answer) fun _ => I := fun answer =>
    triple_pure hI fun c h => h
  refine hget.bind fun | .error _ => hend _ | .ok pr => ?_
  refine (hmeta pr).bind fun | .error _ => hend _ | .ok pr => ?_
  dsimp only
  split
  · exact (hend _).pre (hH pr)
  · refine (hcont pr).bind fun | some result => (hend _).pre (hsome result) | none => ?_
    exact (hagain.pre hnone).bind fun | .error _ => (hend _).pre hJ | .ok pr => hlc pr

end Triples

end Porch.PrController
