import Porch.CrCache.Repository
import Porch.Git.CloseSpec
import Porch.Git.Delete

/- The git repository as the one behind the cache. `Version` is the list of references
   with the hashes of their commits, of which git.go takes the SHA-256. Of a package
   revision the key and the name of its reference are kept; whether it is published
   follows from the name, and does not change when its deletion is proposed. -/
namespace Porch.CrCache

open Go Git

/-- What the cache sees of a `gitPackageRevision`. -/
structure RevisionRef where
  key : PackageRevisionKey
  ref : Option Str
deriving DecidableEq, Repr

/-- Not loaded from the branch of a draft or of a proposed package revision. -/
def RevisionRef.published (p : RevisionRef) : Bool :=
  lifecycleIsPublished (getLifecycle [] p.key p.ref)

/-- `gitPackageRevision.ToMainPackageRevision`. -/
def RevisionRef.toMain (repo : GitRepository) (p : RevisionRef) : RevisionRef where
  key :=
    { p.key with revision := -1, workspaceName := p.key.pkgKey.repoKey.placeholderWSname }
  ref := some (refInLocal repo.branch)

/-- The package revision that git returns for a draft closed with a version. -/
def closedRevision (d : GitPackageRevisionDraft) (version : Int) : RevisionRef :=
  { key := d.closedKey version, ref := some (targetRef d version) }

theorem published_closedRevision (d : GitPackageRevisionDraft) (version : Int) :
    (closedRevision d version).published = lifecycleIsPublished d.lifecycle := by
  obtain ⟨key, lifecycle, base, commit, tree⟩ := d
  cases lifecycle <;> rfl

variable (host : Host) (repo : GitRepository) (hash : Commit → Str)

theorem numbered_published {refs : Refs} {gs : List GitPackageRevision} {g : GitPackageRevision}
    (h : Git.listPackageRevisions host repo refs {} = .ok gs) (hg : g ∈ gs)
    (hrev : 1 ≤ g.prKey.revision) : RevisionRef.published ⟨g.prKey, g.ref.map (·.1)⟩ = true := by
  obtain ⟨_, ref, _, hfrom⟩ := (mem_listed h).mp hg
  -- a name that is not one of a draft is that of a published revision
  have hpublished : isDraftBranchNameInLocal ref.1 = false → isProposedBranchNameInLocal ref.1 = false →
      RevisionRef.published ⟨g.prKey, g.ref.map (·.1)⟩ = true := by
    intro hdraft hprop
    simp [RevisionRef.published, getLifecycle, hfrom.ref_eq, hdraft, hprop, lifecycleIsPublished]
  cases hfrom with
  | branch p hname hp hbuild =>
    have hnum : 1 ≤ revision2Int repo.branch := by
      rw [hbuild] at hrev
      exact hrev
    obtain ⟨hdraft, hprop⟩ := not_draft_of_number (by omega : revision2Int repo.branch ≠ -1)
    rw [← hname] at hdraft hprop
    exact hpublished hdraft hprop
  | draft hmain hname hload =>
    obtain ⟨path, ws, p, _, _, _, hbuild⟩ := loadDraft_ok.mp hload
    have hzero : g.prKey.revision = 0 := by
      rw [hbuild]
      rfl
    omega
  | tag hmain hname hload =>
    have hbr := not_branch_of_tag hname
    rw [Bool.or_eq_false_iff] at hbr
    exact hpublished hbr.1 hbr.2

def gitExternal : External where
  State := Remote
  Version := List (Str × Str)
  Revision := RevisionRef
  Draft := GitPackageRevisionDraft
  key := RevisionRef.key
  published := RevisionRef.published
  toMainPackageRevision := RevisionRef.toMain repo
  draftKey := fun d => d.prKey
  publishes := fun d => lifecycleIsPublished d.lifecycle
  version := fun git => git.refs.entries.map fun e => (e.1, hash e.2)
  listPackageRevisions := fun git =>
    match Git.listPackageRevisions host repo git.refs {} with
    | .ok gs => some (gs.map fun g => ⟨g.prKey, g.ref.map (·.1)⟩)
    | .error _ => none
  closePackageRevisionDraft := fun d n git =>
    match Git.closePackageRevisionDraft host repo d n git with
    | (.ok (), git') => some (git', closedRevision d n)
    | (.error _, _) => none
  deletePackageRevision := fun p git =>
    match Git.deletePackageRevision host repo p.key (getLifecycle [] p.key p.ref) p.ref git with
    | (.ok (), git') => some git'
    | (.error _, _) => none
  close_key := by
    intro d n git git' p h
    split at h
    · cases h
      refine ⟨?_, published_closedRevision d n, ?_⟩
      · unfold closedRevision GitPackageRevisionDraft.closedKey
        simp only
        split <;> rfl
      · unfold closedRevision GitPackageRevisionDraft.closedKey
        simp only
        split <;> rfl
    · cases h
  Sound := fun d => d.Sound repo
  Has := HasTag host repo
  has_listed := by
    intro git k ps hk h
    split at h
    · rename_i gs hlist
      cases h
      obtain ⟨g, hg, hkey⟩ := hk.listed hlist
      exact ⟨_, List.mem_map_of_mem hg, hkey⟩
    · cases h
  close_has := by
    intro d n git git' p h hd hpub hn hmax
    split at h
    · rename_i hclose
      cases h
      exact close_hasTag hd hpub hn hmax hclose
    · cases h
  close_keeps := by
    intro d n git git' p k h hd hk hother
    split at h
    · rename_i hclose
      cases h
      exact close_keepsTag hd hk hother hclose
    · cases h
  main_revision := fun _ => rfl
  numbered_published := by
    intro git ps p h hp hrev
    split at h
    · rename_i gs hlist
      cases h
      obtain ⟨g, hg, rfl⟩ := List.mem_map.mp hp
      exact numbered_published host repo hlist hg hrev
    · cases h

/-! A repository to run on -/

abbrev onTrunk : External :=
  gitExternal trunkHost trunkRepo fun c => c.annotations.flatMap (·.workspaceName)

def emptyCommit : Commit := .mk [] [] []

def trunk : onTrunk.State :=
  ({ refs := (∅ : Refs).insert (refInLocal trunkRepo.branch) emptyCommit } : Remote)

/-- A draft of the package in a workspace. -/
def draftIn (package workspaceName : String) (lifecycle : Lifecycle) : onTrunk.Draft :=
  ({ prKey :=
       { pkgKey := { repoKey := trunkRepo.key, package := package.toList }
         workspaceName := workspaceName.toList }
     lifecycle := lifecycle
     commit := some (.mk
       [(package.toList, .dir [("Kptfile", .blob .regular workspaceName.toList)])]
       [⟨package.toList, workspaceName.toList, []⟩] [emptyCommit])
     tree := some [("Kptfile", .blob .regular workspaceName.toList)] } :
    GitPackageRevisionDraft)

def keyOf (package workspaceName : String) : PackageRevisionKey :=
  onTrunk.draftKey (draftIn package workspaceName .draft)

end Porch.CrCache
