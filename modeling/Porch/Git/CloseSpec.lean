import Porch.Git.RefSpec
import Porch.Git.TreeFrame

/- What closing a draft leaves in the remote. The references that are pushed are the
   target of the draft, its base and, for a published one, the registered branch
   (`closeRefs_ok`); the commit has the tree of the draft in the directory of its package
   (`package_placed`) and other files as they were (`commitPackageToMain_frame`). -/
namespace Porch.Git

open Go

variable {host : Host} {repo : GitRepository} {git git' : Remote} {d : GitPackageRevisionDraft}

/-! The references that are pushed -/

variable {refs : Refs} {pushRefs : PushRefs} {n : Str} {c : Option Commit} {v : Int}

variable {u : RefUpdate} {b : PushRefSpecBuilder} {delete : Str → Bool} {commit : Commit} {packageTree : Option Tree}
  {t : Tree} {us : List RefUpdate}

theorem mem_buildRefSpecs :
    u ∈ buildRefSpecs pushRefs ↔ pushRefs.lookup u.name = some u.commit := by
  unfold buildRefSpecs
  rw [List.mem_map]
  constructor
  · intro ⟨e, he, hu⟩
    rw [← hu]
    exact AList.mem_lookup_iff.mpr he
  · intro h
    exact ⟨⟨u.name, u.commit⟩, AList.mem_lookup_iff.mp h, rfl⟩

theorem lookup_insert_cases {α : Type} {refs : AList fun _ : Str => α} {x c : α} {m : Str}
    (h : (refs.insert m x).lookup n = some c) : n = m ∧ c = x ∨ refs.lookup n = some c := by
  by_cases hn : n = m
  · subst hn
    rw [AList.lookup_insert] at h
    exact .inl ⟨rfl, (Option.some.inj h).symm⟩
  · rw [AList.lookup_insert_ne hn] at h
    exact .inr h

theorem lookup_deleteBase (h : (b.deleteBase d delete).pushRefs.lookup n = some c) :
    (∃ base, d.base = some base ∧ n = base.1) ∨ b.pushRefs.lookup n = some c := by
  unfold PushRefSpecBuilder.deleteBase at h
  split at h
  · exact .inr h
  · next base hbase =>
    split at h
    · exact (lookup_insert_cases h).imp_left fun hn => ⟨base, hbase, hn.1⟩
    · exact .inr h

theorem mem_deleteBase (h : n ∈ b.pushRefs) : n ∈ (b.deleteBase d delete).pushRefs := by
  unfold PushRefSpecBuilder.deleteBase
  split
  · exact h
  · split
    · exact (AList.mem_insert _).mpr (.inr h)
    · exact h

theorem firstPush_of_op {p : Prepared} {op op' : CommitOperation} (hop : p.op = some op)
    (h : executeCommitOperation repo refs p.builder op = .ok (op', b)) : firstPush repo p refs = .ok b.pushRefs := by
  simp [firstPush, hop, executeCommitOperations, h]

theorem firstPush_op {p : Prepared} {op : CommitOperation} (hop : p.op = some op)
    (h : firstPush repo p refs = .ok pushRefs) :
    ∃ op' b, executeCommitOperation repo refs p.builder op = .ok (op', b) ∧ b.pushRefs = pushRefs := by
  rcases hone : executeCommitOperation repo refs p.builder op with e | ⟨op', b⟩
  · simp [firstPush, hop, executeCommitOperations, hone] at h
  · rw [firstPush_of_op hop hone] at h
    exact ⟨op', b, rfl, Except.ok.inj h⟩

theorem closeRefs_approval (hpub : lifecycleIsPublished d.lifecycle)
    (h : closeRefs repo d v refs = .ok pushRefs) :
    ∃ commit packageTree, commitPackageToMain repo (d.versioned v) refs = .ok (commit, packageTree) ∧
      pushRefs.lookup (createFinalTagNameInLocal (d.versioned v).prKey) = some (some commit) ∧
      ∀ n c, pushRefs.lookup n = some c → (∃ base, d.base = some base ∧ n = base.1) ∨
        n = createFinalTagNameInLocal (d.versioned v).prKey ∨ n = refInLocal repo.branch ∧ c = some commit := by
  obtain ⟨p, hp, h⟩ := bind_eq_ok.mp h
  unfold closePush at hp
  cases hlife : d.lifecycle with
  | draft | proposed =>
    rw [hlife] at hpub
    cases hpub
  | published | deletionProposed =>
    simp only [hlife] at hp
    split at hp
    · cases hp
    cases hp
    obtain ⟨op', b, hop, rfl⟩ := firstPush_op rfl h
    obtain ⟨cp, hcmt, hop⟩ := bind_eq_ok.mp hop
    cases hop
    refine ⟨cp.1, cp.2, hcmt, AList.lookup_insert _, fun n c hn => ?_⟩
    obtain ⟨hn, -⟩ | hn := lookup_insert_cases hn
    · exact .inr (.inl hn)
    obtain hmain | hn := lookup_insert_cases hn
    · exact .inr (.inr hmain)
    obtain hbase | hn := lookup_deleteBase hn
    · exact .inl hbase
    · cases hn

/-- The reference that a draft is pushed to when it is closed. -/
def targetRef (d : GitPackageRevisionDraft) (v : Int) : Str :=
  match d.lifecycle with
  | .published | .deletionProposed => createFinalTagNameInLocal (d.versioned v).prKey
  | .proposed => refInLocal (createProposedName d.prKey)
  | .draft => refInLocal (createDraftName d.prKey)

/-- **What closing a draft pushes.** -/
theorem closeRefs_ok (h : closeRefs repo d v refs = .ok pushRefs) : targetRef d v ∈ pushRefs ∧
      ∀ n c, pushRefs.lookup n = some c → (∃ base, d.base = some base ∧ n = base.1) ∨
        n = targetRef d v ∨ n = refInLocal repo.branch ∧ ∃ commit packageTree, c = some commit ∧
          commitPackageToMain repo (d.versioned v) refs = .ok (commit, packageTree) := by
  have hbr : ∀ (target : Str) (delete : Str → Bool),
      pushRefs = ((PushRefSpecBuilder.addRefToPush {} d.commit target).deleteBase d delete).pushRefs →
      target ∈ pushRefs ∧ ∀ n c, pushRefs.lookup n = some c →
        (∃ base, d.base = some base ∧ n = base.1) ∨ n = target := by
    rintro target delete rfl
    refine ⟨mem_deleteBase ((AList.mem_insert _).mpr (.inl rfl)), fun n c hn => ?_⟩
    obtain hbase | hn := lookup_deleteBase hn
    · exact .inl hbase
    · obtain ⟨hn, -⟩ | hn := lookup_insert_cases hn
      · exact .inr hn
      · cases hn
  unfold targetRef
  cases hd : d.lifecycle with
  | draft | proposed =>
    obtain ⟨p, hp, h⟩ := bind_eq_ok.mp h
    simp only [closePush, hd] at hp
    cases hp
    obtain ⟨htgt, hall⟩ := hbr _ _ (Except.ok.inj h).symm
    exact ⟨htgt, fun n c hn => (hall n c hn).imp_right .inl⟩
  | published | deletionProposed =>
    obtain ⟨commit, packageTree, hcmt, htag, hall⟩ := closeRefs_approval (by rw [hd]; rfl) h
    refine ⟨AList.lookup_isSome.mp (by rw [htag]; rfl), fun n c hn => ?_⟩
    obtain hbase | htag | ⟨hmain, hc⟩ := hall n c hn
    · exact .inl hbase
    · exact .inr (.inl htag)
    · exact .inr (.inr ⟨hmain, commit, packageTree, hc, hcmt⟩)

/-! The commit -/

theorem dropLast_append_getLastD (path : Str) : (path.splitOn '/').dropLast ++
    [(path.splitOn '/').getLastD []] = path.splitOn '/' := by
  have hne : path.splitOn '/' ≠ [] := List.splitOn_ne_nil _ _
  rw [List.getLastD_eq_getLast?, List.getLast?_eq_some_getLast hne, Option.getD_some,
    List.dropLast_append_getLast hne]

theorem GitPackageRevisionDraft.parts_eq (d : GitPackageRevisionDraft) :
    d.parts.dropLast ++ [d.parts.getLastD []] = d.parts := dropLast_append_getLastD _

/-- **What a commit on the registered branch is made from.** -/
theorem commitPackageToMain_made (h : commitPackageToMain repo d refs = .ok (commit, packageTree)) :
    ∃ head loaded root, refs.lookup (refInLocal repo.branch) = some head ∧
      loadAncestors [] d.parts.dropLast (Function.update (fun _ => none) [] (some (Git.loaded head.tree))) =
        .ok loaded ∧ storeTrees (placePackage loaded d.parts.dropLast (d.parts.getLastD []) d.tree)
        (d.parts.length + 1) [] = .ok root ∧
      packageTreeOf (placePackage loaded d.parts.dropLast (d.parts.getLastD []) d.tree)
        d.parts.length d.parts = .ok packageTree ∧
      commit = .mk root [d.annotation] (head :: d.commit.toList) := by
  unfold commitPackageToMain at h
  cases hhead : refs.lookup (refInLocal repo.branch) with
  | none =>
    rw [hhead] at h
    cases h
  | some head =>
    rw [hhead] at h
    obtain ⟨trees, htrees, h⟩ := bind_eq_ok.mp h
    obtain ⟨loaded, hload, hplace⟩ := bind_eq_ok.mp htrees
    cases hplace
    obtain ⟨root, hroot, h⟩ := bind_eq_ok.mp h
    obtain ⟨pt, hpt, h⟩ := bind_eq_ok.mp h
    cases h
    exact ⟨head, loaded, root, rfl, hload, hroot, hpt, rfl⟩

theorem commitPackageToMain_frame {refs : Refs}
    (h : commitPackageToMain repo d refs = .ok (commit, packageTree)) :
    ∃ head, refs.lookup (refInLocal repo.branch) = some head ∧
      (UniqueAlong head.tree d.parts → ∀ q, ¬ d.parts <+: q →
        fileAt commit.tree q = fileAt head.tree q) := by
  obtain ⟨head, loaded, root, hhead, hload, hroot, -, rfl⟩ := commitPackageToMain_made h
  refine ⟨head, hhead, fun huniq q hq => ?_⟩
  rw [← d.parts_eq] at huniq hq
  exact (writesOnly_placePackage ..).frame (Function.update_self ..) huniq hload hroot hq

theorem commitPackageToMain_package (ht : d.tree = some t) (hne : t ≠ [])
    (h : commitPackageToMain repo d refs = .ok (commit, packageTree)) :
    treeAt commit.tree d.parts = some t ∧ commit.annotations = [d.annotation] := by
  obtain ⟨head, loaded, root, -, hload, hroot, -, rfl⟩ := commitPackageToMain_made h
  rw [← d.parts_eq]
  exact ⟨(package_placed (Function.update_self ..) hload hroot).1 t ht hne, rfl⟩

theorem ne_nil_of_hasKptfile (h : hasKptfile t) : t ≠ [] := by
  rintro rfl
  cases h

/-! The remote -/

theorem lookup_foldl_of_not_mem (h : n ∉ us.map (·.name)) :
    (us.foldl applyUpdate refs).lookup n = refs.lookup n := by
  induction us generalizing refs with
  | nil => rfl
  | cons u us ih =>
    rw [List.map_cons, List.mem_cons, not_or] at h
    rw [List.foldl_cons, ih h.2, applyUpdate]
    split
    · exact AList.lookup_insert_ne h.1
    · exact AList.lookup_erase_ne h.1

theorem lookup_foldl_of_mem (hnodup : (us.map (·.name)).Nodup) (h : u ∈ us) :
    (us.foldl applyUpdate refs).lookup u.name = u.commit := by
  induction us generalizing refs with
  | nil => cases h
  | cons u' us ih =>
    obtain ⟨hnot, hnodup⟩ := List.nodup_cons.mp hnodup
    rw [List.foldl_cons]
    obtain rfl | h := List.mem_cons.mp h
    · rw [lookup_foldl_of_not_mem hnot, applyUpdate]
      split
      · rename_i c hc
        rw [hc, AList.lookup_insert]
      · rename_i hc
        rw [hc, AList.lookup_erase]
    · exact ih hnodup h

theorem nodup_buildRefSpecs : ((buildRefSpecs pushRefs).map (·.name)).Nodup := by
  have hkeys : (buildRefSpecs pushRefs).map (·.name) = pushRefs.keys := by
    simp only [buildRefSpecs, List.map_map]
    rfl
  rw [hkeys]
  exact pushRefs.keys_nodup

theorem lookup_take_of_some (h : pushRefs.lookup n = some c) :
    (git.take (buildRefSpecs pushRefs)).refs.lookup n = c :=
  lookup_foldl_of_mem (u := ⟨n, c⟩) nodup_buildRefSpecs (mem_buildRefSpecs.mpr h)

theorem lookup_take_of_none (h : pushRefs.lookup n = none) :
    (git.take (buildRefSpecs pushRefs)).refs.lookup n = git.refs.lookup n := by
  apply lookup_foldl_of_not_mem
  intro hmem
  obtain ⟨u, hu, rfl⟩ := List.mem_map.mp hmem
  rw [mem_buildRefSpecs.mp hu] at h
  cases h

theorem closePackageRevisionDraft_ok
    (h : closePackageRevisionDraft host repo d v git = (.ok (), git')) :
    ∃ pushRefs, closeRefs repo d v git.refs = .ok pushRefs ∧
      git' = git.take (buildRefSpecs pushRefs) := by
  obtain ⟨pushRefs, git₁, hquery, hpush⟩ := Proc.bind_eq_ok.mp h
  obtain ⟨hrefs, rfl⟩ := Proc.query_eq_ok.mp hquery
  refine ⟨pushRefs, hrefs, ?_⟩
  unfold pushAndCleanup Proc.stmt at hpush
  simp only at hpush
  split at hpush
  · rename_i s hs
    cases hpush
    split at hs
    · cases hs
      rfl
    · cases hs
  · cases hpush

/-! Published revisions -/

/-- The key of the package revision that a closed draft becomes. -/
def GitPackageRevisionDraft.closedKey (d : GitPackageRevisionDraft) (version : Int) :
    PackageRevisionKey :=
  let key := if lifecycleIsPublished d.lifecycle then (d.versioned version).prKey else d.prKey
  { key with
    workspaceName :=
      if key.workspaceName = [] then 'v' :: revision2Str key.revision else key.workspaceName }

/-- A draft as it is opened: its key is the one that is listed for its directory, it has a
    Kptfile, and it was not loaded from a tag. -/
structure GitPackageRevisionDraft.Sound (repo : GitRepository) (d : GitPackageRevisionDraft) :
    Prop where
  directory : packageInDirectory d.prKey.pkgKey.toFullPathname repo.key.path
  path : PlainPath d.prKey.pkgKey.toFullPathname
  canonical : fromFullPathname repo.key
    (trimPrefix d.prKey.pkgKey.toFullPathname repo.key.path) = d.prKey.pkgKey
  base : ∀ base, d.base = some base → isTagInLocalRepo base.1 = false
  package : ∃ t, d.tree = some t ∧ hasKptfile t

instance (repo : GitRepository) (d : GitPackageRevisionDraft) : Decidable (d.Sound repo) :=
  decidable_of_iff
    (packageInDirectory d.prKey.pkgKey.toFullPathname repo.key.path = true ∧
      PlainPath d.prKey.pkgKey.toFullPathname ∧
      fromFullPathname repo.key (trimPrefix d.prKey.pkgKey.toFullPathname repo.key.path) =
        d.prKey.pkgKey ∧
      (∀ base ∈ d.base, isTagInLocalRepo base.1 = false) ∧ ∃ t ∈ d.tree, hasKptfile t = true)
    ⟨fun h => ⟨h.1, h.2.1, h.2.2.1, h.2.2.2.1, h.2.2.2.2⟩,
      fun h => ⟨h.directory, h.path, h.canonical, h.base, h.package⟩⟩

/-- The remote has the package revision on its tag. -/
structure HasTag (host : Host) (repo : GitRepository) (git : Remote) (k : PackageRevisionKey) :
    Prop where
  number : 1 ≤ k.revision
  path : PlainPath k.pkgKey.toFullPathname
  canonical : fromFullPathname repo.key (trimPrefix k.pkgKey.toFullPathname repo.key.path) = k.pkgKey
  loads : ∃ c g, git.refs.lookup (createFinalTagNameInLocal k) = some c ∧
    loadTaggedPackage host repo (createFinalTagNameInLocal k, c) = some g ∧ g.prKey = k

section Published

variable {k : PackageRevisionKey} {commit : Commit} {packageTree : Option Tree}

theorem createFinalTagNameInLocal_eq (hpath : PlainPath k.pkgKey.toFullPathname)
    (hrev : 0 < k.revision) : createFinalTagNameInLocal k =
      tagsPrefixInLocalRepo ++ (k.pkgKey.toFullPathname ++ '/' :: 'v' :: revision2Str k.revision) := by
  rw [createFinalTagNameInLocal, if_pos hrev, joinPath_two hpath (plainPath_version hrev)]

theorem isTag_createFinalTagNameInLocal : isTagInLocalRepo (createFinalTagNameInLocal k) := rfl

/-- Tags tell package directories and numbers apart. -/
theorem createFinalTagNameInLocal_names {k' : PackageRevisionKey}
    (hpath : PlainPath k.pkgKey.toFullPathname) (hpath' : PlainPath k'.pkgKey.toFullPathname)
    (hrev : 0 < k.revision) (hrev' : 0 < k'.revision)
    (h : createFinalTagNameInLocal k = createFinalTagNameInLocal k') :
    k.pkgKey.toFullPathname = k'.pkgKey.toFullPathname ∧ k.revision = k'.revision := by
  rw [createFinalTagNameInLocal_eq hpath hrev, createFinalTagNameInLocal_eq hpath' hrev'] at h
  obtain ⟨hpaths, hvers⟩ :=
    leaf_inj (version_no_slash hrev) (version_no_slash hrev') (List.append_cancel_left h)
  exact ⟨hpaths, revision2Str_inj hrev hrev' (List.cons.inj hvers).2⟩

variable {path : Str}

theorem findPackage_of_treeAt (rk : RepositoryKey) {root t : Tree} (hpath : path ≠ [])
    (h : treeAt root (path.splitOn '/') = some t) (hkpt : hasKptfile t) :
    findPackage rk root path = some (packageEntry rk path t) := by
  have hparts : pathParts path = path.splitOn '/' := if_neg hpath
  exact findPackage_eq_some.mpr ⟨t, hparts ▸ h, hkpt, rfl⟩

theorem loadTaggedPackage_of_found {rev : Str} {p : PackageListEntry}
    (hrev : '/' ∉ rev) (hdir : packageInDirectory path repo.key.path)
    (hfind : findPackage repo.key commit.tree path = some p) :
    let ref := (tagsPrefixInLocalRepo ++ (path ++ '/' :: rev), commit)
    loadTaggedPackage host repo ref =
      some (buildGitPackageRevision p rev (getPkgWorkspace host p ref) ref) := by
  have hname : getTagNameInLocalRepo (tagsPrefixInLocalRepo ++ (path ++ '/' :: rev)) =
      some (path ++ '/' :: rev) := cutPrefix_eq_some.mpr rfl
  obtain ⟨htake, hdrop⟩ := take_drop_lastIndex (a := path) hrev
  have hslash : ¬ lastIndex ['/'] (path ++ '/' :: rev) < 0 := by
    rw [lastIndex_char hrev]
    omega
  simp only [loadTaggedPackage, hname, htake, hdrop, hslash, hdir, hfind]
  rfl

/-- **A published draft is loaded from its tag with the key that it was closed with.** -/
theorem loadTaggedPackage_published (host : Host) (hd : d.Sound repo) (hv : 1 ≤ v) (hmax : v < 2 ^ 63)
    (hpub : lifecycleIsPublished d.lifecycle)
    (hcmt : commitPackageToMain repo (d.versioned v) refs = .ok (commit, packageTree)) :
    ∃ g, loadTaggedPackage host repo (createFinalTagNameInLocal (d.closedKey v), commit) = some g ∧
      g.prKey = d.closedKey v := by
  have hpos : 0 < v := by omega
  obtain ⟨t, ht, hkpt⟩ := hd.package
  obtain ⟨htree, hann⟩ :=
    commitPackageToMain_package (d := d.versioned v) ht (ne_nil_of_hasKptfile hkpt) hcmt
  have hfind := findPackage_of_treeAt repo.key hd.path.ne_nil htree hkpt
  have hkey : d.closedKey v = { pkgKey := d.prKey.pkgKey, revision := v, workspaceName :=
      if d.prKey.workspaceName = [] then 'v' :: revision2Str v else d.prKey.workspaceName } := by
    simp only [GitPackageRevisionDraft.closedKey, hpub, if_true]
    rfl
  have htag : createFinalTagNameInLocal (d.closedKey v) = tagsPrefixInLocalRepo ++
      (d.prKey.pkgKey.toFullPathname ++ '/' :: 'v' :: revision2Str v) := by
    rw [hkey]
    exact createFinalTagNameInLocal_eq hd.path hpos
  rw [htag, loadTaggedPackage_of_found (version_no_slash hpos) hd.directory hfind]
  refine ⟨_, rfl, ?_⟩
  have hfull : (packageEntry repo.key d.prKey.pkgKey.toFullPathname t).pkgKey = d.prKey.pkgKey :=
    hd.canonical
  -- the only annotation is that of the draft, which tells the workspace
  have hworkspace : getPkgWorkspace host (packageEntry repo.key d.prKey.pkgKey.toFullPathname t)
      (tagsPrefixInLocalRepo ++ (d.prKey.pkgKey.toFullPathname ++ '/' :: 'v' :: revision2Str v),
        commit) = d.prKey.workspaceName := by
    have hown : isTagInLocalRepo (tagsPrefixInLocalRepo ++
        (d.prKey.pkgKey.toFullPathname ++ '/' :: 'v' :: revision2Str v)) = true := rfl
    simp only [getPkgWorkspace, hown, Bool.true_or, if_true, Option.map_some, Option.getD_some,
      hann, hfull, List.find?_cons]
    by_cases hws : d.prKey.workspaceName = []
    · simp [GitPackageRevisionDraft.annotation, GitPackageRevisionDraft.versioned, hws]
    · simp [GitPackageRevisionDraft.annotation, GitPackageRevisionDraft.versioned, hws]
  rw [hkey]
  simp only [buildGitPackageRevision, revision2Int_tag hv hmax, hworkspace, hfull]
  rw [if_pos (by omega)]

/-- **A published draft is on its tag.** -/
theorem close_hasTag (hd : d.Sound repo) (hpub : lifecycleIsPublished d.lifecycle)
    (hv : 1 ≤ v) (hmax : v < 2 ^ 63)
    (h : closePackageRevisionDraft host repo d v git = (.ok (), git')) :
    HasTag host repo git' (d.closedKey v) := by
  obtain ⟨pushRefs, hrefs, rfl⟩ := closePackageRevisionDraft_ok h
  obtain ⟨commit, packageTree, hcmt, hlook, -⟩ := closeRefs_approval hpub hrefs
  obtain ⟨g, hload, hkey⟩ := loadTaggedPackage_published host hd hv hmax hpub hcmt
  have hclosed : (d.closedKey v).pkgKey = d.prKey.pkgKey ∧ (d.closedKey v).revision = v := by
    simp only [GitPackageRevisionDraft.closedKey, hpub, if_true]
    exact ⟨rfl, rfl⟩
  have htag : createFinalTagNameInLocal (d.closedKey v) =
      createFinalTagNameInLocal (d.versioned v).prKey := by
    rw [createFinalTagNameInLocal_eq (by rw [hclosed.1]; exact hd.path) (by rw [hclosed.2]; omega),
      createFinalTagNameInLocal_eq (k := (d.versioned v).prKey) hd.path
        (show 0 < v by omega), hclosed.1, hclosed.2]
    rfl
  refine ⟨?_, ?_, ?_, commit, g, ?_, hload, hkey⟩
  · rw [hclosed.2]
    exact hv
  · rw [hclosed.1]
    exact hd.path
  · rw [hclosed.1]
    exact hd.canonical
  · rw [htag]
    exact lookup_take_of_some hlook

/-- **Closing a draft leaves the tags of other numbers and packages.** -/
theorem close_keepsTag (hd : d.Sound repo) (hk : HasTag host repo git k)
    (hother : lifecycleIsPublished d.lifecycle → 1 ≤ v ∧ (d.prKey.pkgKey = k.pkgKey → v ≠ k.revision))
    (h : closePackageRevisionDraft host repo d v git = (.ok (), git')) :
    HasTag host repo git' k := by
  obtain ⟨pushRefs, hrefs, rfl⟩ := closePackageRevisionDraft_ok h
  have hpos : 0 < k.revision := hk.number
  have hpublished : lifecycleIsPublished d.lifecycle →
      createFinalTagNameInLocal k ≠ createFinalTagNameInLocal (d.versioned v).prKey := by
    intro hpub heq
    obtain ⟨hv, hne⟩ := hother hpub
    have hd' : PlainPath (d.versioned v).prKey.pkgKey.toFullPathname := hd.path
    have hv' : 0 < (d.versioned v).prKey.revision := by
      show 0 < v
      omega
    obtain ⟨hpath, hrev⟩ := createFinalTagNameInLocal_names hk.path hd' hpos hv' heq
    have hpath' : k.pkgKey.toFullPathname = d.prKey.pkgKey.toFullPathname := hpath
    have hpkg : d.prKey.pkgKey = k.pkgKey := by rw [← hd.canonical, ← hk.canonical, hpath']
    exact hne hpkg hrev.symm
  have hnone : pushRefs.lookup (createFinalTagNameInLocal k) = none := by
    by_contra hsome
    obtain ⟨c, hc⟩ := Option.ne_none_iff_exists'.mp hsome
    obtain ⟨base, hbase, hn⟩ | htgt | ⟨hmain, _⟩ := (closeRefs_ok hrefs).2 _ c hc
    · have htag : isTagInLocalRepo base.1 = true := by
        rw [← hn]
        rfl
      rw [hd.base base hbase] at htag
      cases htag
    · unfold targetRef at htgt
      cases hlife : d.lifecycle with
      | published | deletionProposed =>
        simp only [hlife] at htgt
        exact hpublished (by rw [hlife]; rfl) htgt
      | draft | proposed =>
        simp only [hlife] at htgt
        exact branch_ne_tag _ _ htgt.symm
    · exact branch_ne_tag _ _ hmain.symm
  obtain ⟨c, g, hlook, hload, hkey⟩ := hk.loads
  refine ⟨hk.number, hk.path, hk.canonical, c, g, ?_, hload, hkey⟩
  rw [lookup_take_of_none hnone]
  exact hlook

theorem HasTag.listed {gs : List GitPackageRevision} (hk : HasTag host repo git k)
    (h : listPackageRevisions host repo git.refs {} = .ok gs) : ∃ g ∈ gs, g.prKey = k := by
  obtain ⟨c, g, hlook, hload, hkey⟩ := hk.loads
  have hany : PackageRevisionKey.matches {} g.prKey := by
    simp [PackageRevisionKey.matches, PackageKey.matches, RepositoryKey.matches, fieldMatches]
  have htag : isTagInLocalRepo (createFinalTagNameInLocal k, c).1 := isTag_createFinalTagNameInLocal
  exact ⟨g, (mem_listed h).mpr ⟨hany, _, hlook, .tag (ne_branch_of_tag htag) htag hload⟩, hkey⟩

end Published

end Porch.Git
