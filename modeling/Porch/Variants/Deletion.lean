import Porch.Variants.Upstream

/- What becomes of the package revisions of a PackageVariant that is being deleted.

     Reconcile (deletion)  release, reconcileDeleted

   Every call may fail, and the errors of the loop are only logged. The calls for an item of
   the list concern the object of that name alone, so an item is followed together with what
   is stored of it. Once the finalizer is gone, the garbage collector deletes what still has
   the owner reference; `published_released_iff` says when nothing published has it. -/
namespace Porch.Variants

open Go

/-- `unset` is the empty policy. -/
inductive DeletionPolicy where
  | unset
  | delete
  | orphan
  | invalid (text : Str)
deriving DecidableEq, Repr

structure PackageVariant where
  uid : Str
  deletionPolicy : DeletionPolicy := .unset

/-- An item of the loop: the object as it is stored, as the controller has it in hand, and
    how many calls have been made for it. -/
structure Item where
  stored : Option PackageRevision
  pr : PackageRevision
  calls : Nat := 0

def hasOurOwnerReference (pv : PackageVariant) (owners : List Str) : Bool :=
  owners.any fun owner => owner = pv.uid

def removeOwnerRefByUID (ownerRefs : List Str) (ownerToRemove : Str) : List Str :=
  ownerRefs.filter fun owner => owner ≠ ownerToRemove

section Calls

variable (fails : Nat → Bool) (pv : PackageVariant)

def Item.call (x : Item) (result : Option PackageRevision) : Item :=
  { x with stored := if fails x.calls then x.stored else result, calls := x.calls + 1 }

/-- `Update`, which finds no object that has been deleted. -/
def Item.update (x : Item) : Item := x.call fails (x.stored.map fun _ => x.pr)

def Item.delete (x : Item) : Item := x.call fails none

def orphanPackageRevision (x : Item) : Item :=
  let ownerReferences := removeOwnerRefByUID x.pr.ownerReferences pv.uid
  Item.update fails { x with pr := { x.pr with ownerReferences := ownerReferences } }

def deletePackageRevision (x : Item) : Item :=
  match x.pr.lifecycle with
  | .draft | .proposed => x.delete fails
  -- the lifecycle in hand stays so when the update fails
  | .published => Item.update fails { x with pr := { x.pr with lifecycle := .deletionProposed } }
  | .deletionProposed => x

def deleteOrOrphan (x : Item) : Item :=
  match pv.deletionPolicy with
  | .unset | .delete => deletePackageRevision fails x
  | .orphan => orphanPackageRevision fails pv x
  | .invalid _ => x

/-- The body of the loop. -/
def release (pr : PackageRevision) : Item :=
  let x : Item := { stored := some pr, pr := pr }
  if hasOurOwnerReference pv pr.ownerReferences then
    let x := deleteOrOrphan fails pv x
    if x.pr.lifecycle = .deletionProposed then orphanPackageRevision fails pv x else x
  else x

end Calls

/-- The package revisions that are stored after a reconcile, and whether it has removed the
    finalizer. -/
def reconcileDeleted (fails : Str → Nat → Bool) (finalizerFails : Bool) (pv : PackageVariant)
    (prList : List PackageRevision) : List PackageRevision × Bool :=
  (prList.filterMap fun pr => (release (fails pr.name) pv pr).stored, !finalizerFails)

/-- The package revision is published and has the owner reference. -/
def Bound (pv : PackageVariant) (pr : PackageRevision) : Prop :=
  lifecycleIsPublished pr.lifecycle = true ∧ pv.uid ∈ pr.ownerReferences

/-- The calls for a published package revision that take the owner reference away. -/
def orphaning : DeletionPolicy → Lifecycle → List Nat
  | .orphan, .deletionProposed => [0, 1]
  | _, .deletionProposed | .orphan, _ => [0]
  | .unset, _ | .delete, _ => [1]
  | .invalid _, _ => []

theorem hasOurOwnerReference_iff {pv : PackageVariant} {owners : List Str} :
    hasOurOwnerReference pv owners = true ↔ pv.uid ∈ owners := by
  simp [hasOurOwnerReference]

/-- **An item stays bound exactly when every call that would release it fails.** -/
theorem release_bound_iff (fails : Nat → Bool) (pv : PackageVariant) (pr : PackageRevision) :
    (∃ p ∈ (release fails pv pr).stored, Bound pv p) ↔
      Bound pv pr ∧ ∀ n ∈ orphaning pv.deletionPolicy pr.lifecycle, fails n = true := by
  by_cases howned : pv.uid ∈ pr.ownerReferences
  · rw [release, if_pos (hasOurOwnerReference_iff.mpr howned)]
    -- at most two calls are made for an item
    cases hlife : pr.lifecycle <;> cases hpol : pv.deletionPolicy <;>
      cases h₀ : fails 0 <;> cases h₁ : fails 1 <;>
      simp [deleteOrOrphan, deletePackageRevision, orphanPackageRevision, removeOwnerRefByUID,
        Item.update, Item.delete, Item.call, orphaning, Bound, lifecycleIsPublished, hlife, hpol,
        h₀, h₁, howned]
  · rw [release, if_neg (hasOurOwnerReference_iff.not.mpr howned)]
    simp [Bound, howned]

/-- **Nothing published goes with the PackageVariant exactly when the finalizer stays, or for
    each published package revision that it owns a releasing call is made and works.** -/
theorem published_released_iff (fails : Str → Nat → Bool) (finalizerFails : Bool)
    (pv : PackageVariant) (prList : List PackageRevision) :
    ((reconcileDeleted fails finalizerFails pv prList).2 = true →
      ∀ pr ∈ (reconcileDeleted fails finalizerFails pv prList).1,
        lifecycleIsPublished pr.lifecycle = true → pv.uid ∉ pr.ownerReferences) ↔
      finalizerFails = true ∨ ∀ pr ∈ prList, lifecycleIsPublished pr.lifecycle = true →
        pv.uid ∈ pr.ownerReferences →
        ∃ n ∈ orphaning pv.deletionPolicy pr.lifecycle, fails pr.name n = false := by
  cases finalizerFails with
  | true => simp [reconcileDeleted]
  | false =>
    have hitem : ∀ pr : PackageRevision, (∀ p ∈ (release (fails pr.name) pv pr).stored, ¬ Bound pv p) ↔
        (Bound pv pr → ∃ n ∈ orphaning pv.deletionPolicy pr.lifecycle, fails pr.name n = false) := by
      intro pr
      have h := release_bound_iff (fails pr.name) pv pr
      rw [← not_iff_not]
      simpa using h
    simp only [Bound, not_and, and_imp] at hitem
    simp only [reconcileDeleted, Bool.not_false, true_implies, Bool.false_eq_true, false_or,
      List.mem_filterMap]
    constructor
    · intro h pr hpr
      exact (hitem pr).mp fun p hp => h p ⟨pr, hpr, hp⟩
    · rintro h p ⟨pr, hpr, hp⟩
      exact (hitem pr).mpr (h pr hpr) p hp

/-- The deletion of a published package revision is proposed, the second update fails, and the
    finalizer is removed. -/
theorem deletionProposed_still_owned :
    reconcileDeleted (fun _ n => n = 1) false { uid := "pv" }
      [{ name := "repo.pkg.v1", lifecycle := .published, ownerReferences := ["pv"] }] =
      ([{ name := "repo.pkg.v1", lifecycle := .deletionProposed,
          ownerReferences := ["pv"] }], true) := by decide

end Porch.Variants
