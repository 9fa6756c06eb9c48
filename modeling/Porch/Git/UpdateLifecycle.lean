import Porch.Git.PushRetry

/- Proposing a deletion and taking it back: `UpdateLifecycle` of `pkg/externalrepo/git/git.go`.

     getLifecycle, checkPublishedLifecycle  Proposals.getLifecycle

   The lifecycle of a published package revision is read from a cache of the branches that
   propose a deletion, loaded from the references of the local repository when it is nil.
   `UpdateLifecycle` writes the cache before it pushes, and `DeletePackageRevision` after: when
   the push fails the new lifecycle is reported although the branch is not there
   (`lifecycle_update_iff`). A cache that cannot be loaded stays nil, and a write to it panics. -/
namespace Porch.Git

open Go

/-- The cache, and what `References` gives: none when the cache is nil and when the
    references cannot be read. -/
structure Proposals where
  deletionProposedCache : Option (List Str)
  references : Option Refs

/-- A package revision as far as its lifecycle goes: its key and its reference. -/
abbrev Loaded := PackageRevisionKey × Option Str

namespace Proposals

variable (r : Proposals)

def load : Proposals :=
  { r with deletionProposedCache :=
      r.deletionProposedCache.or (r.references.map deletionProposedBranches) }

/-- `getLifecycle`, and the repository as it leaves it. A nil cache holds no branch. -/
def getLifecycle (p : Loaded) : Lifecycle × Proposals :=
  let r' := if p.2.any isDraftBranchNameInLocal || p.2.any isProposedBranchNameInLocal then r
    else r.load
  (Git.getLifecycle (r'.deletionProposedCache.getD []) p.1 p.2, r')

def lifecycle (p : Loaded) : Lifecycle := (r.getLifecycle p).1

end Proposals

/-- Whether what the push returns is an error for the caller. -/
def pushFails : Option PushError → Bool
  | none | some .upToDate => false
  | some _ => true

inductive Ending where
  | returns | error | panics
deriving DecidableEq

/-- `UpdateLifecycle`. The push returns this error and leaves these references. -/
def updateLifecycle (push : Option PushError) (references : Option Refs) (p : Loaded)
    (newLifecycle : Lifecycle) (r : Proposals) : Ending × Proposals :=
  let (_, r) := r.getLifecycle p
  let (old, r) := r.getLifecycle p
  let branch := createDeletionProposedName p.1
  let ending := if pushFails push then .error else .returns
  match old, newLifecycle with
  | .published, .deletionProposed =>
    match r.deletionProposedCache with
    | none => (.panics, r)
    | some cache => (ending, ⟨some (branch :: cache), references⟩)
  | .deletionProposed, .published =>
    (ending, ⟨r.deletionProposedCache.map (·.filter (· ≠ branch)), references⟩)
  | _, _ => (.error, r)

/-! What is reported -/

variable {r : Proposals} {p q : Loaded} {push : Option PushError} {references : Option Refs}
  {new : Lifecycle} {cache : List Str}

theorem load_load : r.load.load = r.load := by
  simp [Proposals.load, Option.or_assoc, Option.or_self]

theorem lifecycle_eq :
    r.lifecycle q = getLifecycle (r.load.deletionProposedCache.getD []) q.1 q.2 := by
  unfold Proposals.lifecycle Proposals.getLifecycle getLifecycle
  cases q.2.any isDraftBranchNameInLocal
  · cases q.2.any isProposedBranchNameInLocal <;> rfl
  · rfl

/-- Reading a lifecycle changes none. -/
theorem lifecycle_read : (r.getLifecycle p).2.lifecycle q = r.lifecycle q := by
  unfold Proposals.getLifecycle
  dsimp only
  split
  · rfl
  · rw [lifecycle_eq, lifecycle_eq, load_load]

/-- The changes of lifecycle that `UpdateLifecycle` makes. -/
def Changes (old new : Lifecycle) : Prop :=
  old = .published ∧ new = .deletionProposed ∨ old = .deletionProposed ∧ new = .published

/-- What is to hold of a call: it does not panic, an error leaves every lifecycle as it was, and
    success brings the requested one. -/
structure Updates (r : Proposals) (p : Loaded) (new : Lifecycle) (result : Ending × Proposals) :
    Prop where
  returns : result.1 ≠ .panics
  failed : result.1 = .error → ∀ q, result.2.lifecycle q = r.lifecycle q
  updated : result.1 = .returns → result.2.lifecycle p = new

theorem updateLifecycle_error (h : ¬ Changes (r.lifecycle p) new) :
    updateLifecycle push references p new r =
      (.error, ((r.getLifecycle p).2.getLifecycle p).2) := by
  have hold : ((r.getLifecycle p).2.getLifecycle p).1 = r.lifecycle p := lifecycle_read
  unfold updateLifecycle
  dsimp only
  rw [hold]
  split
  · exact absurd (.inl ⟨‹_›, rfl⟩) h
  · exact absurd (.inr ⟨‹_›, rfl⟩) h
  · rfl

theorem not_draft_of_changes (h : Changes (r.lifecycle p) new) :
    p.2.any isDraftBranchNameInLocal = false ∧ p.2.any isProposedBranchNameInLocal = false := by
  rw [lifecycle_eq, getLifecycle] at h
  cases hdraft : p.2.any isDraftBranchNameInLocal
  · cases hprop : p.2.any isProposedBranchNameInLocal
    · exact ⟨rfl, rfl⟩
    · simp [hdraft, hprop, Changes] at h
  · simp [hdraft, Changes] at h

/-- The branches after the change of lifecycle. -/
def proposed (new : Lifecycle) (branch : Str) (cache : List Str) : List Str :=
  if new = .published then cache.filter (· ≠ branch) else branch :: cache

theorem lifecycle_proposed (cache : List Str) (references : Option Refs) (h : Changes (r.lifecycle p) new) :
    Proposals.lifecycle ⟨some (proposed new (createDeletionProposedName p.1) cache), references⟩ p =
      new := by
  obtain ⟨hdraft, hprop⟩ := not_draft_of_changes h
  obtain ⟨-, rfl⟩ | ⟨-, rfl⟩ := h
  · simp [lifecycle_eq, getLifecycle, Proposals.load, hdraft, hprop, proposed]
  · simp [lifecycle_eq, getLifecycle, Proposals.load, hdraft, hprop, proposed]

theorem updateLifecycle_changes (h : Changes (r.lifecycle p) new) :
    updateLifecycle push references p new r =
      match r.load.deletionProposedCache with
      | none => (.panics, r.load)
      | some cache => (if pushFails push then .error else .returns,
          ⟨some (proposed new (createDeletionProposedName p.1) cache), references⟩) := by
  obtain ⟨hdraft, hprop⟩ := not_draft_of_changes h
  have hread : ∀ r : Proposals, (r.getLifecycle p).2 = r.load := fun r => by
    simp [Proposals.getLifecycle, hdraft, hprop]
  have hold : ((r.getLifecycle p).2.getLifecycle p).1 = r.lifecycle p := lifecycle_read
  unfold updateLifecycle
  dsimp only
  rw [hold, hread, hread, load_load]
  obtain ⟨hp, rfl⟩ | ⟨hp, rfl⟩ := h
  · rw [hp]
    cases r.load.deletionProposedCache <;> rfl
  · rw [hp]
    cases hcache : r.load.deletionProposedCache with
    | some cache => rfl
    -- a nil cache proposes no deletion
    | none => simp [lifecycle_eq, hcache, getLifecycle, hdraft, hprop] at hp

/-- **A call does what it should exactly when it does not change the lifecycle, or the cache can
    be loaded and the push does not fail.** -/
theorem lifecycle_update_iff (r : Proposals) (p : Loaded) (new : Lifecycle)
    (push : Option PushError) (references : Option Refs) :
    Updates r p new (updateLifecycle push references p new r) ↔
      (Changes (r.lifecycle p) new →
        (r.deletionProposedCache.isSome ∨ r.references.isSome) ∧ pushFails push = false) := by
  by_cases h : Changes (r.lifecycle p) new
  · have hknown : r.deletionProposedCache.isSome ∨ r.references.isSome ↔
        r.load.deletionProposedCache.isSome = true := by simp [Proposals.load]
    have hchanged : r.lifecycle p ≠ new := by
      obtain ⟨hp, rfl⟩ | ⟨hp, rfl⟩ := h <;> simp [hp]
    rw [updateLifecycle_changes h, hknown]
    cases hcache : r.load.deletionProposedCache with
    | none => exact ⟨fun hu => absurd rfl hu.returns, fun hc => by simpa using hc h⟩
    | some cache =>
      have hnew := lifecycle_proposed cache references h
      cases pushFails push with
      | true =>
        exact ⟨fun hu => absurd ((hu.failed rfl p).symm.trans hnew) hchanged,
          fun hc => nomatch (hc h).2⟩
      | false => exact ⟨fun _ _ => ⟨rfl, rfl⟩, fun _ => ⟨nofun, nofun, fun _ => hnew⟩⟩
  · rw [updateLifecycle_error h]
    refine ⟨fun _ hc => absurd hc h, fun _ => ⟨nofun, fun _ q => ?_, nofun⟩⟩
    rw [lifecycle_read, lifecycle_read]

/-- The deletion of `app` `v1` is proposed: when the push fails it is reported as proposed, and
    when the references cannot be read the call panics. -/
theorem proposed_though_push_failed :
    let key : PackageRevisionKey :=
      { pkgKey := { repoKey := {}, package := "app" }, revision := 1, workspaceName := "v1" }
    let p : Loaded := (key, some "refs/tags/app/v1".toList)
    let failed := updateLifecycle (some (.failed "broken pipe")) (some ∅) p .deletionProposed ⟨none, some ∅⟩
    Proposals.lifecycle ⟨none, some ∅⟩ p = .published ∧ failed.1 = .error ∧
      failed.2.lifecycle p = .deletionProposed ∧
      (updateLifecycle none none p .deletionProposed ⟨none, none⟩).1 = .panics := by
  decide +kernel

end Porch.Git
