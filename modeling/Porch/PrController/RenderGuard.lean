import Porch.PrController.Cluster

/- The two guards of a lifecycle change: `validateRenderRacePrevention` of the webhook and
   `validateRenderStateBeforePublish` of the controller. They differ in one state of the
   object: the annotation has been taken away and a version has been observed
   (`guards_agree_iff`). A user can lead the object there (`guards_disagree`); the change is
   then admitted, and every reconcile refuses it. -/
namespace Porch.PrController

open Go

@[simp] theorem withLifecycle_status (pr : PackageRevision) (desired : Lifecycle) :
    (pr.withLifecycle desired).status = pr.status := rfl

@[simp] theorem withLifecycle_renderRequest (pr : PackageRevision) (desired : Lifecycle) :
    (pr.withLifecycle desired).renderRequest = pr.renderRequest := rfl

/-- No render is due, and none is running. -/
def NoRenderPending (pr : PackageRevision) : Prop :=
  RenderTrigger.annotation (renderTrigger pr) = false ∧ (renderTrigger pr).source = false ∧
    pr.status.renderingPrrResourceVersion = []

instance (pr : PackageRevision) : Decidable (NoRenderPending pr) := inferInstanceAs (Decidable (_ ∧ _))

theorem validateRenderRacePrevention_eq_none_iff (pr : PackageRevision) :
    validateRenderRacePrevention pr = none ↔ pr.status.renderingPrrResourceVersion = [] ∧
        (pr.renderRequest = [] ∨ pr.status.observedPrrResourceVersion = pr.renderRequest) := by
  unfold validateRenderRacePrevention
  split
  · next h => simp [h]
  · next h =>
    rw [not_not] at h
    split
    · next hreq => simp [h, hreq]
    · next hreq =>
      rw [not_and_or, not_not, not_not] at hreq
      simp [h, hreq]

theorem validateRenderStateBeforePublish_eq_none_iff (pr : PackageRevision) :
    validateRenderStateBeforePublish pr = none ↔ pr.status.renderingPrrResourceVersion = [] ∧
        pr.status.observedPrrResourceVersion = pr.renderRequest := by
  unfold validateRenderStateBeforePublish
  dsimp only
  split
  · next h => simp [h]
  · next h =>
    rw [not_not] at h
    split
    · next hobs => simp [h, hobs]
    · next hobs =>
      rw [not_not] at hobs
      simp [h, hobs]

/-- **The guards agree unless a version has been observed and no request is there.** In every
    state of the object without a pending render the webhook admits a lifecycle change
    exactly when the controller lets it through, if and only if an object without a render
    request has no observed version either. -/
theorem guards_agree_iff (pr : PackageRevision) (desired : Lifecycle) (hnone : NoRenderPending pr) :
    (validateRenderRacePrevention (pr.withLifecycle desired) = none ↔
      validateRenderStateBeforePublish (pr.withLifecycle desired) = none) ↔
    (pr.renderRequest = [] → pr.status.observedPrrResourceVersion = []) := by
  have hidle : pr.status.renderingPrrResourceVersion = [] := hnone.2.2
  rw [validateRenderRacePrevention_eq_none_iff, validateRenderStateBeforePublish_eq_none_iff]
  simp only [withLifecycle_status, withLifecycle_renderRequest, hidle, true_and]
  constructor
  · intro hagree hreq
    rw [hagree.mp (.inl hreq), hreq]
  · intro hobs
    constructor
    · rintro (hreq | heq)
      · rw [hobs hreq, hreq]
      · exact heq
    · exact .inr

theorem guards_agree_iff_rendered : ∃ w, Lts.run (step plainConfig) (World.created newDraft none)
        (createRun ++ renderRun ++ pushRun someFiles "1" ++ renderRun) = some w ∧
      NoRenderPending w.state.live ∧
      (validateRenderRacePrevention (w.state.live.withLifecycle .proposed) = none ↔
        validateRenderStateBeforePublish (w.state.live.withLifecycle .proposed) = none) := by
  obtain ⟨w, hw, hnone, hreq⟩ : ∃ w, Lts.run (step plainConfig) (World.created newDraft none)
        (createRun ++ renderRun ++ pushRun someFiles "1" ++ renderRun) = some w ∧
      NoRenderPending w.state.live ∧ w.state.live.renderRequest ≠ [] := by
    decide +kernel
  exact ⟨w, hw, hnone, (guards_agree_iff _ .proposed hnone).mpr fun hempty => absurd hempty hreq⟩

/-- **The guards can differ.** A draft is pushed to and rendered, and the user takes the
    annotation away. No render is due or running, the webhook admits the proposal, and the
    controller refuses it. -/
theorem guards_disagree : ∃ w, Lts.run (step plainConfig) (World.created newDraft none)
        (createRun ++ renderRun ++ pushRun someFiles "1" ++ renderRun ++
          [.other (.update newDraft)]) = some w ∧ NoRenderPending w.state.live ∧
      validateUpdate w.state.live (w.state.live.withLifecycle .proposed) = none ∧
      validateRenderRacePrevention (w.state.live.withLifecycle .proposed) = none ∧
      validateRenderStateBeforePublish (w.state.live.withLifecycle .proposed) ≠ none := by
  decide +kernel

end Porch.PrController
