import Porch.PrController.Cluster

/- What the webhook has checked of an update that it admits (`validateUpdate_admitted`). -/
namespace Porch.PrController

open Go

/-- What the webhook has checked of an update that it admits. -/
structure UpdateAdmitted (old new : PackageRevision) : Prop where
  source : new.spec.source = old.spec.source
  operation : new.spec.subpackageOperation = old.spec.subpackageOperation ∨
    new.spec.lifecycle = some .draft
  transition : new.spec.lifecycle = old.spec.lifecycle ∨
    ∃ allowed, allowedTransitions old.spec.lifecycle = some allowed ∧
      ∃ l ∈ allowed, new.spec.lifecycle = some l
  rendered : new.spec.lifecycle ≠ old.spec.lifecycle → new.spec.lifecycle ≠ some .draft →
    validateRenderRacePrevention new = none

theorem validateImmutableFields_source {old new : PackageRevision}
    (h : validateImmutableFields old new = none) : new.spec.source = old.spec.source := by
  unfold validateImmutableFields at h
  split_ifs at h with _ _ _ hsrc
  exact (not_not.mp hsrc).symm

theorem validateLifecycleTransition_allowed {source target : Option Lifecycle}
    (h : validateLifecycleTransition source target = none) :
    ∃ allowed, allowedTransitions source = some allowed ∧ ∃ l ∈ allowed, target = some l := by
  unfold validateLifecycleTransition at h
  dsimp only at h
  split at h
  · cases h
  · next allowed hallowed =>
    split_ifs at h with hmem
    obtain ⟨l, hl, rfl⟩ := List.mem_map.mp hmem
    exact ⟨allowed, hallowed, l, hl, rfl⟩

theorem validateUpdate_admitted {old new : PackageRevision} (h : validateUpdate old new = none) :
    UpdateAdmitted old new := by
  unfold validateUpdate at h
  split at h
  · cases h
  · next himmutable =>
    have hsrc := validateImmutableFields_source himmutable
    split at h
    · cases h
    next hoperation =>
    have hop : new.spec.subpackageOperation = old.spec.subpackageOperation ∨
        new.spec.lifecycle = some .draft := by
      rw [not_and_or, not_not, not_not] at hoperation
      exact hoperation.imp Eq.symm id
    split at h
    · split at h
      · cases h
      next htrans =>
      refine ⟨hsrc, hop, .inr (validateLifecycleTransition_allowed htrans), ?_⟩
      intro _ hdraft
      rw [if_pos hdraft] at h
      exact Option.map_eq_none_iff.mp h
    · next hsame =>
      have heq : new.spec.lifecycle = old.spec.lifecycle := (not_not.mp hsame).symm
      exact ⟨hsrc, hop, .inl heq, fun hne => absurd heq hne⟩

end Porch.PrController
