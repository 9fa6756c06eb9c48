import Porch.Git.RefSpec

/- Deleting a package revision: `DeletePackageRevision` of `pkg/externalrepo/git/git.go`
   and `getReferenceName` of `ref.go`.

     getLifecycle, checkPublishedLifecycle  getLifecycle
     updateDeletionProposedCache            deletionProposedBranches

   A package revision of git is deleted by the reference that it was loaded from. One
   that comes from a cache has only its key and its lifecycle, and the reference is made
   from these; it is the same one for drafts and for tags `v1`, `v2`, ..., but not for
   other tags (`deletes_from_branch_instead_of_tag`) nor on every branch. -/
namespace Porch.Git

open Go

def isBranchInLocalRepo (name : Str) : Bool := branchPrefixInLocalRepo.isPrefixOf name

/-- `updateDeletionProposedCache`. -/
def deletionProposedBranches (refs : Refs) : List Str :=
  refs.keys.filterMap fun name =>
    (cutPrefix name (refInLocal deletionProposedPrefix)).map (deletionProposedPrefix ++ ·)

/-- `getLifecycle` of a package revision with this key and reference. -/
def getLifecycle (deletionProposed : List Str) (key : PackageRevisionKey) (ref : Option Str) :
    Lifecycle :=
  if ref.any isDraftBranchNameInLocal then .draft
  else if ref.any isProposedBranchNameInLocal then .proposed
  else if createDeletionProposedName key ∈ deletionProposed then .deletionProposed
  else .published

/-- `getReferenceName`: empty when the key and the lifecycle do not tell it. -/
def getReferenceName (key : PackageRevisionKey) (lifecycle : Lifecycle) : Str :=
  if 0 < key.revision then
    tagsPrefixInLocalRepo ++ key.pkgKey.toFullPathname ++ "/v" ++ revision2Str key.revision
  else
    match lifecycle with
    | .draft =>
      refInLocal draftsPrefix ++ key.pkgKey.toFullPathname ++ '/' :: key.workspaceName
    | .proposed =>
      refInLocal proposedPrefix ++ key.pkgKey.toFullPathname ++ '/' :: key.workspaceName
    | .published | .deletionProposed =>
      if key.revision = -1 then refInLocal key.pkgKey.repoKey.placeholderWSname else []

theorem notPushed_delete (deletionProposedBranch branch : Str) (c : Commit) :
    (PushRefSpecBuilder.addRefToDelete {} (deletionProposedBranch, none)).pushRefs.lookup branch ≠ some (some c) := by
  show ((∅ : PushRefs).insert deletionProposedBranch none).lookup branch ≠ some (some c)
  by_cases h : branch = deletionProposedBranch
  · rw [h, AList.lookup_insert]
    simp
  · rw [AList.lookup_insert_ne h]
    simp

/-- What `DeletePackageRevision` prepares for a key and a reference name. -/
def deletePush (key : PackageRevisionKey) (referenceName : Str) (refs : Refs) : Except GitError Prepared :=
  let deletionProposedBranch := refInLocal (createDeletionProposedName key)
  if referenceName = [] then .error .noRef
  else if isTagInLocalRepo referenceName then
    if referenceName ≠ createFinalTagNameInLocal key then .error .otherTag
    else
      match refs.lookup referenceName with
      | none => .error .refNotFound
      | some c =>
        .ok { builder := (PushRefSpecBuilder.addRefToDelete {} (referenceName, some c)).addRefToDelete
                (deletionProposedBranch, none)
              op := none
              notPushed := by simp }
  else if isDraftBranchNameInLocal referenceName || isProposedBranchNameInLocal referenceName then
    match refs.lookup referenceName with
    | none => .error .refNotFound
    | some c =>
      .ok { builder := PushRefSpecBuilder.addRefToDelete {} (referenceName, some c)
            op := none
            notPushed := by simp }
  else if isBranchInLocalRepo referenceName then
    .ok { builder := PushRefSpecBuilder.addRefToDelete {} (deletionProposedBranch, none)
          op := some (.deletion referenceName key)
          notPushed := fun branch _ c _ => notPushed_delete deletionProposedBranch branch c }
  else .error .unknownRef

/-- `DeletePackageRevision`, of a package revision that is not one of git's when `ref` is
    none. -/
def deletePackageRevision (host : Host) (repo : GitRepository) (key : PackageRevisionKey)
    (lifecycle : Lifecycle) (ref : Option Str) : Proc Remote GitError Unit := do
  let referenceName := ref.getD (getReferenceName key lifecycle)
  let pushRefs ← .query fun git =>
    (deletePush key referenceName git.refs).bind fun p => firstPush repo p git.refs
  pushAndCleanup host pushRefs

/-! Revisions and branches -/

theorem revision2Int_drafts (x : Str) : revision2Int (draftsPrefix ++ x) = -1 := by
  have h : trimPrefix (draftsPrefix ++ x) ['v'] = 'd' :: ("rafts/" ++ x) := rfl
  rw [revision2Int, h, atoi_eq_none (by decide) (by decide) (by decide)]
  rfl

theorem revision2Int_proposed (x : Str) : revision2Int (proposedPrefix ++ x) = -1 := by
  have h : trimPrefix (proposedPrefix ++ x) ['v'] = 'p' :: ("roposed/" ++ x) := rfl
  rw [revision2Int, h, atoi_eq_none (by decide) (by decide) (by decide)]
  rfl

theorem cutPrefix_refInLocal {name pre : Str} (h : (cutPrefix (refInLocal name) (refInLocal pre)).isSome) :
    ∃ x, name = pre ++ x := by
  obtain ⟨x, hx⟩ := Option.isSome_iff_exists.mp h
  rw [cutPrefix_eq_some, refInLocal, refInLocal, List.append_assoc, List.append_right_inj] at hx
  exact ⟨x, hx⟩

theorem not_draft_of_number {name : Str} (h : revision2Int name ≠ -1) :
    isDraftBranchNameInLocal (refInLocal name) = false ∧
      isProposedBranchNameInLocal (refInLocal name) = false := by
  refine ⟨?_, ?_⟩
  · apply Bool.eq_false_iff.mpr
    intro hdraft
    obtain ⟨x, rfl⟩ := cutPrefix_refInLocal hdraft
    exact h (revision2Int_drafts x)
  · apply Bool.eq_false_iff.mpr
    intro hprop
    obtain ⟨x, rfl⟩ := cutPrefix_refInLocal hprop
    exact h (revision2Int_proposed x)

/-! The reference made from the key -/

def tagRevision (name : Str) : Str := name.drop (lastIndex ['/'] name + 1).toNat

/-- The references that are made again from what is listed of them: the branch if it is
    neither a number nor one of a draft, every draft, and the tags `v1`, `v2`, ... -/
def Rebuilds (repo : GitRepository) (name : Str) : Prop :=
  if name = refInLocal repo.branch then
    revision2Int repo.branch = -1 ∧ isDraftBranchNameInLocal name = false ∧
      isProposedBranchNameInLocal name = false
  else
    isTagInLocalRepo name → 0 < revision2Int (tagRevision name) ∧
      tagRevision name = 'v' :: revision2Str (revision2Int (tagRevision name))

instance (repo : GitRepository) (name : Str) : Decidable (Rebuilds repo name) := by
  unfold Rebuilds
  infer_instance

mutual

theorem repoKey_of_mem_discoverPackages {rk : RepositoryKey} {treePath : Str} {p : PackageListEntry} :
    ∀ n : Node, p ∈ discoverPackages rk treePath n → p.pkgKey.repoKey = rk
  | .blob _ _, h => by cases h
  | .dir entries, h => by
    unfold discoverPackages at h
    split at h
    · rw [List.mem_singleton.mp h]
      rfl
    · exact repoKey_of_mem_discoverEntries entries h

theorem repoKey_of_mem_discoverEntries {rk : RepositoryKey} {treePath : Str} {p : PackageListEntry} :
    ∀ entries : List (Str × Node), p ∈ discoverEntries rk treePath entries → p.pkgKey.repoKey = rk
  | [], h => by cases h
  | (_, n) :: rest, h => by
    obtain h | h := List.mem_append.mp h
    · exact repoKey_of_mem_discoverPackages n h
    · exact repoKey_of_mem_discoverEntries rest h

end

theorem repoKey_of_mem_discoverPackagesInTree {rk : RepositoryKey} {root : Tree}
    {p : PackageListEntry} (hp : p ∈ discoverPackagesInTree rk root) : p.pkgKey.repoKey = rk := by
  unfold discoverPackagesInTree at hp
  split at hp
  · cases hp
  · exact repoKey_of_mem_discoverPackages (.dir _) hp

section ReferenceName

variable {host : Host} {repo : GitRepository} {g : GitPackageRevision} {ref : Str × Commit}
  {deletionProposed : List Str} {key : PackageRevisionKey} {x : Str}

theorem getReferenceName_of_pos (lifecycle : Lifecycle) (h : 0 < key.revision) :
    getReferenceName key lifecycle = tagsPrefixInLocalRepo ++
      (key.pkgKey.toFullPathname ++ '/' :: 'v' :: revision2Str key.revision) := by
  unfold getReferenceName
  rw [if_pos h, List.append_assoc, List.append_assoc]
  rfl

theorem getReferenceName_of_not_pos (h : ¬ 0 < key.revision) :
    getReferenceName key (getLifecycle deletionProposed key (some x)) =
      if isDraftBranchNameInLocal x then
        refInLocal draftsPrefix ++ key.pkgKey.toFullPathname ++ '/' :: key.workspaceName
      else if isProposedBranchNameInLocal x then
        refInLocal proposedPrefix ++ key.pkgKey.toFullPathname ++ '/' :: key.workspaceName
      else if key.revision = -1 then refInLocal key.pkgKey.repoKey.placeholderWSname else [] := by
  unfold getReferenceName getLifecycle
  rw [if_neg h]
  simp only [Option.any_some]
  by_cases hdraft : isDraftBranchNameInLocal x = true
  · simp only [hdraft, if_true]
  · by_cases hprop : isProposedBranchNameInLocal x = true
    · simp only [hdraft, hprop, if_true, if_false, Bool.false_eq_true]
    · by_cases hmem : createDeletionProposedName key ∈ deletionProposed
      · simp only [hdraft, hprop, hmem, if_true, if_false, Bool.false_eq_true]
      · simp only [hdraft, hprop, hmem, if_false, Bool.false_eq_true]

theorem getReferenceName_draft (hname : PlainPath ref.1) (hload : loadDraft repo ref = .ok (some g)) :
    getReferenceName g.prKey (getLifecycle deletionProposed g.prKey (some ref.1)) = ref.1 := by
  obtain ⟨name, c⟩ := ref
  obtain ⟨path, ws, _, _, hfull, hrev, hws, _, _, hcase⟩ := loadDraft_key hname hload
  rw [getReferenceName_of_not_pos (by omega), hfull, hws]
  obtain rfl | rfl := hcase
  · have hdraft : isDraftBranchNameInLocal (refInLocal draftsPrefix ++ (path ++ '/' :: ws)) = true :=
      rfl
    rw [if_pos hdraft, List.append_assoc]
  · have hdraft : isDraftBranchNameInLocal
        (refInLocal proposedPrefix ++ (path ++ '/' :: ws)) = false := rfl
    have hprop : isProposedBranchNameInLocal
        (refInLocal proposedPrefix ++ (path ++ '/' :: ws)) = true := rfl
    rw [if_neg (by rw [hdraft]; exact Bool.false_ne_true), if_pos hprop, List.append_assoc]

/-- What the name of a tag says of the package revision loaded from it. -/
theorem loadTaggedPackage_key (hname : PlainPath ref.1)
    (hload : loadTaggedPackage host repo ref = some g) :
    ∃ path rev, ref.1 = tagsPrefixInLocalRepo ++ (path ++ '/' :: rev) ∧ '/' ∉ rev ∧
      g.prKey.pkgKey.toFullPathname = path ∧ g.prKey.revision = revision2Int rev := by
  unfold loadTaggedPackage at hload
  cases htag : getTagNameInLocalRepo ref.1 with
  | none =>
    rw [htag] at hload
    cases hload
  | some name =>
    have href : ref.1 = tagsPrefixInLocalRepo ++ name := cutPrefix_eq_some.mp htag
    rw [htag] at hload
    by_cases hslash : '/' ∈ name
    · obtain ⟨path, rev, rfl, hrev⟩ := exists_last_of_mem hslash
      obtain ⟨htake, hdrop⟩ := take_drop_lastIndex (a := path) hrev
      simp only [htake, hdrop] at hload
      split at hload
      · cases hload
      · next hdir =>
        obtain ⟨p, hfind, rfl⟩ := Option.map_eq_some_iff.mp hload
        obtain ⟨_, -, -, rfl⟩ := findPackage_eq_some.mp hfind
        have hpath : PlainPath path := by
          rw [href] at hname
          exact (plainPath_append.mp (plainPath_append (a := "refs/tags").mp hname).2).1
        have hin : packageInDirectory path repo.key.path := by
          simp only [Bool.or_eq_true, Bool.not_eq_true', not_or, Bool.not_eq_false] at hdir
          exact hdir.2
        exact ⟨path, rev, href, hrev, toFullPathname_found hpath hin, rfl⟩
    · simp only [lastIndex_char_of_not_mem hslash] at hload
      cases hload

theorem tagRevision_append {path rev : Str} (h : '/' ∉ rev) :
    tagRevision (tagsPrefixInLocalRepo ++ (path ++ '/' :: rev)) = rev := by
  rw [← List.append_assoc]
  exact (take_drop_lastIndex h).2

/-- A tag is found again when it is the one that its number is written as. -/
theorem getReferenceName_tag (hname : PlainPath ref.1)
    (hload : loadTaggedPackage host repo ref = some g) :
    getReferenceName g.prKey (getLifecycle deletionProposed g.prKey (some ref.1)) = ref.1 ↔
      0 < revision2Int (tagRevision ref.1) ∧
        tagRevision ref.1 = 'v' :: revision2Str (revision2Int (tagRevision ref.1)) := by
  obtain ⟨path, rev, href, hslash, hfull, hrev⟩ := loadTaggedPackage_key hname hload
  have htag : isTagInLocalRepo ref.1 := by
    rw [href]
    rfl
  obtain ⟨hdraft, hprop⟩ := Bool.or_eq_false_iff.mp (not_branch_of_tag htag)
  rw [href, tagRevision_append hslash, ← href]
  by_cases hpos : 0 < g.prKey.revision
  · rw [getReferenceName_of_pos _ hpos, hfull, hrev, href]
    rw [hrev] at hpos
    simp only [List.append_cancel_left_eq, List.cons.injEq, true_and, hpos]
    exact eq_comm
  · rw [getReferenceName_of_not_pos hpos, hdraft, hprop]
    rw [hrev] at hpos
    refine iff_of_false ?_ fun h => hpos h.1
    simp only [Bool.false_eq_true, if_false]
    split
    · intro h
      exact branch_ne_tag _ _ (h.trans href)
    · intro h
      rw [href] at h
      cases h

theorem append_slash_ne (pre path name : Str) :
    refInLocal pre ++ path ++ '/' :: name ≠ refInLocal name := by
  intro h
  have hlen := congrArg List.length h
  simp only [refInLocal, List.length_append, List.length_cons] at hlen
  omega

/-- The branch is found again when the package revisions on it are the placeholders. -/
theorem getReferenceName_branch (hname : ref.1 = refInLocal repo.branch)
    (hrepo : key.pkgKey.repoKey.placeholderWSname = repo.branch)
    (hrev : key.revision = revision2Int repo.branch)
    (hws : key.revision = -1 → key.workspaceName = repo.branch) :
    getReferenceName key (getLifecycle deletionProposed key (some ref.1)) = ref.1 ↔
      revision2Int repo.branch = -1 ∧ isDraftBranchNameInLocal ref.1 = false ∧
        isProposedBranchNameInLocal ref.1 = false := by
  by_cases hpos : 0 < key.revision
  · refine iff_of_false ?_ (by omega)
    rw [getReferenceName_of_pos _ hpos, hname]
    exact (branch_ne_tag _ _).symm
  · rw [getReferenceName_of_not_pos hpos]
    by_cases hminus : key.revision = -1
    · rw [hws hminus, if_pos hminus, hrepo]
      by_cases hdraft : isDraftBranchNameInLocal ref.1 = true
      · rw [if_pos hdraft]
        refine iff_of_false ?_ (by simp [hdraft])
        rw [hname]
        exact append_slash_ne draftsPrefix _ _
      · rw [if_neg hdraft]
        by_cases hprop : isProposedBranchNameInLocal ref.1 = true
        · rw [if_pos hprop]
          refine iff_of_false ?_ (by simp [hprop])
          rw [hname]
          exact append_slash_ne proposedPrefix _ _
        · rw [if_neg hprop]
          refine iff_of_true hname.symm ⟨hrev ▸ hminus, ?_, ?_⟩
          · exact Bool.eq_false_iff.mpr hdraft
          · exact Bool.eq_false_iff.mpr hprop
    · -- the branch is a number, so it is not one of a draft
      have hnum : revision2Int repo.branch ≠ -1 := hrev ▸ hminus
      obtain ⟨hdraft, hprop⟩ := not_draft_of_number hnum
      refine iff_of_false ?_ (fun h => hnum h.1)
      rw [hname, hdraft, hprop, if_neg hminus]
      exact (List.append_ne_nil_of_left_ne_nil (by decide) repo.branch).symm

end ReferenceName

/-- The reference that a package revision was loaded from is made again from its key and
    lifecycle exactly when it rebuilds. -/
theorem LoadedFrom.getReferenceName {host : Host} {repo : GitRepository} {g : GitPackageRevision}
    {source : Str × Commit} (hfrom : LoadedFrom host repo g source)
    (hrepo : repo.key.placeholderWSname = repo.branch) (hname : PlainPath source.1)
    (deletionProposed : List Str) :
    getReferenceName g.prKey (getLifecycle deletionProposed g.prKey (some source.1)) = source.1 ↔
      Rebuilds repo source.1 := by
  unfold Rebuilds
  cases hfrom with
  | branch p hbr hp hbuild =>
    rw [if_pos hbr, hbuild]
    apply getReferenceName_branch hbr
    · show p.pkgKey.repoKey.placeholderWSname = repo.branch
      rw [repoKey_of_mem_discoverPackagesInTree hp, hrepo]
    · rfl
    · intro hminus
      have hminus : revision2Int repo.branch = -1 := hminus
      simp [buildGitPackageRevision, hminus]
  | draft hmain hdraft hload =>
    have htag : ¬ isTagInLocalRepo source.1 = true := by
      intro htag
      rw [Bool.or_comm, not_branch_of_tag htag] at hdraft
      cases hdraft
    rw [if_neg hmain]
    exact iff_of_true (getReferenceName_draft hname hload) fun h => absurd h htag
  | tag hmain htag hload =>
    rw [if_neg hmain]
    simp only [htag, forall_const]
    exact getReferenceName_tag hname hload

/-- **The cached form of a listed package revision names the reference that it was loaded
    from exactly when the reference rebuilds, and is then deleted as git's own form is.** The
    repository key is the one that `OpenRepository` makes, and git keeps the names of
    references clean. -/
theorem getReferenceName_iff (host : Host) (repo : GitRepository)
    (hrepo : repo.key.placeholderWSname = repo.branch) {refs : Refs} {filter : PackageRevisionKey}
    {gs : List GitPackageRevision} {g : GitPackageRevision} {ref : Str × Commit}
    (hlist : listPackageRevisions host repo refs filter = .ok gs) (hg : g ∈ gs)
    (href : g.ref = some ref) (hname : PlainPath ref.1) (deletionProposed : List Str) :
    let lifecycle := getLifecycle deletionProposed g.prKey (some ref.1)
    (getReferenceName g.prKey lifecycle = ref.1 ↔ Rebuilds repo ref.1) ∧
      (Rebuilds repo ref.1 → deletePackageRevision host repo g.prKey lifecycle none =
        deletePackageRevision host repo g.prKey lifecycle (some ref.1)) := by
  intro lifecycle
  obtain ⟨_, source, _, hfrom⟩ := (mem_listed hlist).mp hg
  obtain rfl : source = ref := Option.some.inj (hfrom.ref_eq.symm.trans href)
  have hiff := hfrom.getReferenceName hrepo hname deletionProposed
  refine ⟨hiff, ?_⟩
  intro hrebuilds
  unfold deletePackageRevision
  rw [Option.getD_none, Option.getD_some, hiff.mpr hrebuilds]

/-! A repository to run on -/

def trunkHost : Host where
  log := fun c => [c]
  order := fun ps => ps
  order_perm := fun ps => List.Perm.refl ps
  accepts := fun _ _ => true

def trunkRepo : GitRepository where
  key := { namesp := "ns", name := "repo", placeholderWSname := "main" }
  branch := "main"

/-- The package `app` on the branch and on a tag. -/
def taggedAs (tag : String) : Remote where
  refs :=
    let commit : Commit := .mk [("app", .dir [("Kptfile", .blob .regular [])])] [] []
    ((∅ : Refs).insert (refInLocal trunkRepo.branch) commit).insert
      ("refs/tags/app/" ++ tag.toList) commit

/-- What is listed: the keys and the references. -/
def listedRefs (git : Remote) : Option (List (PackageRevisionKey × Option Str)) :=
  match listPackageRevisions trunkHost trunkRepo git.refs {} with
  | .ok gs => some (gs.map fun g => (g.prKey, g.ref.map (·.1)))
  | .error _ => none

/-- The references with the names in the trees of their commits. -/
def refNames (git : Remote) : List (Str × List Str) :=
  git.refs.entries.map fun e => (e.1, e.2.tree.map (·.1))

/-- The key of the package `app`. -/
def appKey (revision : Int) (workspaceName : String) : PackageRevisionKey where
  pkgKey := { repoKey := trunkRepo.key, package := "app" }
  revision := revision
  workspaceName := workspaceName.toList

theorem mem_listedRefs {git : Remote} {rs : List (PackageRevisionKey × Option Str)}
    {key : PackageRevisionKey} {name : Str} (h : listedRefs git = some rs)
    (hmem : (key, some name) ∈ rs) :
    ∃ gs g c, listPackageRevisions trunkHost trunkRepo git.refs {} = .ok gs ∧ g ∈ gs ∧
      g.prKey = key ∧ g.ref = some (name, c) := by
  unfold listedRefs at h
  split at h
  · rename_i gs hgs
    cases h
    obtain ⟨g, hg, heq⟩ := List.mem_map.mp hmem
    obtain ⟨hkey, hname⟩ := Prod.mk.inj heq
    obtain ⟨⟨_, c⟩, href, rfl⟩ := Option.map_eq_some_iff.mp hname
    exact ⟨gs, g, c, hgs, hg, hkey, href⟩
  · cases h

theorem getReferenceName_iff_v3 :
    ∃ gs g, listPackageRevisions trunkHost trunkRepo (taggedAs "v3").refs {} = .ok gs ∧ g ∈ gs ∧
      g.prKey = appKey 3 "v3" ∧
      getReferenceName g.prKey (getLifecycle [] g.prKey (some "refs/tags/app/v3".toList)) =
        "refs/tags/app/v3".toList := by
  have hlisted : listedRefs (taggedAs "v3") = some [(appKey 3 "v3", some "refs/tags/app/v3".toList),
      (appKey (-1) "main", some (refInLocal "main".toList))] := by decide +kernel
  obtain ⟨gs, g, c, hgs, hg, hkey, href⟩ := mem_listedRefs hlisted List.mem_cons_self
  have hname : PlainPath "refs/tags/app/v3".toList := by decide +kernel
  have hrebuilds : Rebuilds trunkRepo "refs/tags/app/v3".toList := by decide +kernel
  have h := getReferenceName_iff trunkHost trunkRepo rfl hgs hg href hname []
  exact ⟨gs, g, hgs, hg, hkey, h.1.mpr hrebuilds⟩

/-- **The package revision of the tag `v1.2.3` has no number, and deleting its cached form
    takes the package off the branch and leaves the tag.** -/
theorem deletes_from_branch_instead_of_tag :
    let key := appKey (-1) "v1.2.3"
    let lifecycle := getLifecycle [] key (some "refs/tags/app/v1.2.3".toList)
    listedRefs (taggedAs "v1.2.3") = some [(key, some "refs/tags/app/v1.2.3".toList),
      (appKey (-1) "main", some (refInLocal "main".toList))] ∧
    getReferenceName key lifecycle = refInLocal "main".toList ∧
    refNames (deletePackageRevision trunkHost trunkRepo key lifecycle none (taggedAs "v1.2.3")).2 =
      [(refInLocal "main".toList, []), ("refs/tags/app/v1.2.3".toList, ["app".toList])] := by
  decide +kernel

end Porch.Git
