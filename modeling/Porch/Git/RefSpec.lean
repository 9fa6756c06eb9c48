import Porch.Git.Repository

/- A draft that is listed has the names of the branch that it was loaded from
   (`loadDraft_names`), because git keeps the names of references clean: no element of
   one is empty or begins with a dot. -/
namespace Porch.Git

open Go List

/-! Path names -/

section PathNames

variable {path x : Str} {rk : RepositoryKey}

/-- A package path and its leaf name have the elements of the whole. -/
theorem splitPackagePathName_elems (h : x = [] ∨ PlainPath x) :
    ((splitPackagePathName x).1 = [] ∨ PlainPath (splitPackagePathName x).1) ∧
      ((splitPackagePathName x).2 = [] ∨ PlainPath (splitPackagePathName x).2) ∧
      pathElems (splitPackagePathName x).1 ++ pathElems (splitPackagePathName x).2 =
        pathElems x := by
  have htrim : trim '/' x = x := by
    obtain rfl | hx := h
    · rfl
    · rw [← join_splitOn (c := '/') (s := x)]
      exact trim_join (splitOn_ne_nil '/' x) fun p hp => ⟨(hx p hp).1, not_mem_of_splitOn hp⟩
  by_cases hslash : '/' ∈ x
  · obtain ⟨a, b, rfl, hb⟩ := exists_last_of_mem hslash
    have hidx := lastIndex_char (a := a) hb
    have hsplit : splitPackagePathName (a ++ '/' :: b) = (a, b) := by
      obtain ⟨htake, hdrop⟩ := take_drop_lastIndex (a := a) hb
      simp only [splitPackagePathName, htrim, htake, hdrop]
      rw [if_pos (by omega)]
    have hplain := plainPath_append.mp (h.resolve_left (by simp))
    rw [hsplit]
    exact ⟨.inr hplain.1, .inr hplain.2, pathElems_append.symm⟩
  · have hsplit : splitPackagePathName x = ([], x) := by
      simp only [splitPackagePathName, htrim, lastIndex_char_of_not_mem hslash]
      rfl
    rw [hsplit]
    exact ⟨.inl rfl, h, rfl⟩

theorem splitPackagePathName_cons : splitPackagePathName ('/' :: x) = splitPackagePathName x := by
  simp only [splitPackagePathName, trim_cons_self]

/-- The directory of a package that was found at `path` is `path`. -/
theorem toFullPathname_found (hpath : PlainPath path) (hdir : packageInDirectory path rk.path) :
    (fromFullPathname rk (trimPrefix path rk.path)).toFullPathname = path := by
  -- what is left of the path after the directory of the repository
  have hrest : ∃ x, (x = [] ∨ PlainPath x) ∧ (rk.path = [] ∨ PlainPath rk.path) ∧
      splitPackagePathName (trimPrefix path rk.path) = splitPackagePathName x ∧
      pathElems rk.path ++ pathElems x = pathElems path := by
    by_cases hrk : rk.path = []
    · refine ⟨path, .inr hpath, .inl hrk, ?_, by rw [hrk]; rfl⟩
      rw [hrk, trimPrefix, if_pos (by simp)]
      rfl
    · simp only [packageInDirectory, hrk, decide_false, Bool.false_or, Bool.and_eq_true,
        Bool.or_eq_true, decide_eq_true_eq, isPrefixOf_iff_prefix] at hdir
      obtain ⟨⟨rest, hrest⟩, hend⟩ := hdir
      have htrim : trimPrefix path rk.path = rest := by
        rw [trimPrefix, if_pos ( isPrefixOf_iff_prefix.mpr ⟨rest, hrest⟩), ← hrest, drop_left]
      rw [htrim]
      cases rest with
      | nil =>
        rw [append_nil] at hrest
        rw [hrest]
        exact ⟨[], .inl rfl, .inr hpath, rfl, append_nil _⟩
      | cons c r =>
        have hc : c = '/' := by
          rw [← hrest] at hend
          simpa using hend
        subst hc
        have hplain := plainPath_append.mp (hrest ▸ hpath)
        refine ⟨r, .inr hplain.2, .inr hplain.1, splitPackagePathName_cons, ?_⟩
        rw [← hrest, pathElems_append]
  obtain ⟨x, hx, hrk, hsplit, helems⟩ := hrest
  obtain ⟨h₁, h₂, hsum⟩ := splitPackagePathName_elems hx
  have hflat : [rk.path, (splitPackagePathName x).1, (splitPackagePathName x).2].flatMap pathElems =
      pathElems path := by
    simp only [flatMap_cons, flatMap_nil, append_nil]
    rw [hsum, helems]
  show joinPath [rk.path, (splitPackagePathName (trimPrefix path rk.path)).1,
    (splitPackagePathName (trimPrefix path rk.path)).2] = path
  rw [hsplit, joinPath_elems _ (hflat ▸ hpath.pathElems_ne_nil), hflat, hpath.join_pathElems]
  intro e he
  simp only [mem_cons, not_mem_nil, or_false] at he
  obtain rfl | rfl | rfl := he
  · exact hrk
  · exact h₁
  · exact h₂

end PathNames

/-! Drafts -/

section Drafts

variable {repo : GitRepository} {name path ws s pre r : Str} {c : Commit} {g : GitPackageRevision}

theorem cutPrefix_eq_some : cutPrefix s pre = some r ↔ s = pre ++ r := by
  unfold cutPrefix
  split
  · next h =>
    obtain ⟨t, rfl⟩ := isPrefixOf_iff_prefix.mp h
    rw [drop_left, Option.some.injEq, append_cancel_left_eq]
  · next h =>
    refine iff_of_false (by simp) fun hs => h ?_
    exact isPrefixOf_iff_prefix.mpr ⟨r, hs.symm⟩

theorem parseDraftName_ok (h : parseDraftName name = .ok (path, ws)) :
    '/' ∉ ws ∧ (name = refInLocal draftsPrefix ++ (path ++ '/' :: ws) ∨
      name = refInLocal proposedPrefix ++ (path ++ '/' :: ws)) := by
  unfold parseDraftName at h
  split at h
  · cases h
  · next suffix hsuf =>
    have hname : name = refInLocal draftsPrefix ++ suffix ∨
        name = refInLocal proposedPrefix ++ suffix := by
      obtain hdraft | ⟨-, hprop⟩ := Option.or_eq_some_iff.mp hsuf
      · exact .inl (cutPrefix_eq_some.mp hdraft)
      · exact .inr (cutPrefix_eq_some.mp hprop)
    by_cases hslash : '/' ∈ suffix
    · obtain ⟨a, b, rfl, hb⟩ := exists_last_of_mem hslash
      obtain ⟨htake, hdrop⟩ := take_drop_lastIndex (a := a) hb
      simp only [htake, hdrop] at h
      split at h
      · cases h
      · cases h
        exact ⟨hb, hname⟩
    · simp only [lastIndex_char_of_not_mem hslash] at h
      cases h

theorem findPackage_eq_some {rk : RepositoryKey} {t : Tree} {p : PackageListEntry} :
    findPackage rk t path = some p ↔ ∃ t', treeAt t (pathParts path) = some t' ∧ hasKptfile t' ∧
      p = packageEntry rk path t' := by
  simp only [findPackage, Option.map_eq_some_iff, Option.filter_eq_some_iff, and_assoc,
    eq_comm (a := p)]

/-- What `loadDraft` has found when it gives a package revision. -/
theorem loadDraft_ok : loadDraft repo (name, c) = .ok (some g) ↔
    ∃ path ws p, parseDraftName name = .ok (path, ws) ∧ packageInDirectory path repo.key.path ∧
      findPackage repo.key c.tree path = some p ∧
      g = buildGitPackageRevision p "0" ws (name, c) := by
  constructor
  · intro h
    obtain ⟨⟨path, ws⟩, hparse, h⟩ := bind_eq_ok.mp h
    dsimp only at h
    split at h
    · cases h
    · next hdir =>
      obtain ⟨p, hfind, hg⟩ := Option.map_eq_some_iff.mp (Except.ok.inj h)
      exact ⟨path, ws, p, hparse, by simpa using hdir, hfind, hg.symm⟩
  · rintro ⟨path, ws, p, hparse, hdir, hfind, rfl⟩
    refine bind_eq_ok.mpr ⟨_, hparse, ?_⟩
    simp only [hdir, hfind]
    rfl

theorem buildGitPackageRevision_draft {p : PackageListEntry} {ref : Str × Commit} (hws : ws ≠ []) :
    (buildGitPackageRevision p "0" ws ref).prKey =
      { pkgKey := p.pkgKey, revision := 0, workspaceName := ws } := by
  have hzero : revision2Int "0" = 0 := by decide
  simp only [buildGitPackageRevision, hzero, hws]
  rfl

theorem plainPath_of_draft {path : Str} (hname : PlainPath name)
    (h : name = refInLocal draftsPrefix ++ (path ++ '/' :: ws) ∨
      name = refInLocal proposedPrefix ++ (path ++ '/' :: ws)) : PlainPath path ∧ PlainPath ws := by
  refine plainPath_append.mp ?_
  obtain hdraft | hprop := h
  · rw [hdraft] at hname
    exact (plainPath_append (a := "refs/remotes/origin/drafts").mp hname).2
  · rw [hprop] at hname
    exact (plainPath_append (a := "refs/remotes/origin/proposed").mp hname).2

/-- The key of a draft is that of the package and the workspace in its name. -/
theorem loadDraft_key (hname : PlainPath name) (h : loadDraft repo (name, c) = .ok (some g)) :
    ∃ path ws, PlainPath path ∧ PlainPath ws ∧ g.prKey.pkgKey.toFullPathname = path ∧
      g.prKey.revision = 0 ∧ g.prKey.workspaceName = ws ∧ g.ref = some (name, c) ∧ g.commit = c ∧
      (name = refInLocal draftsPrefix ++ (path ++ '/' :: ws) ∨
        name = refInLocal proposedPrefix ++ (path ++ '/' :: ws)) := by
  obtain ⟨path, ws, p, hparse, hin, hfind, rfl⟩ := loadDraft_ok.mp h
  obtain ⟨hslash, hcase⟩ := parseDraftName_ok hparse
  obtain ⟨hpath, hws⟩ := plainPath_of_draft hname hcase
  have hfull : p.pkgKey.toFullPathname = path := by
    obtain ⟨_, -, -, rfl⟩ := findPackage_eq_some.mp hfind
    exact toFullPathname_found hpath hin
  rw [buildGitPackageRevision_draft hws.ne_nil]
  exact ⟨path, ws, hpath, hws, hfull, rfl, rfl, rfl, rfl, hcase⟩

/-- **A draft has the names of its branch.** -/
theorem loadDraft_names (hname : PlainPath name) (h : loadDraft repo (name, c) = .ok (some g)) :
    PlainPath g.prKey.pkgKey.toFullPathname ∧ g.ref = some (name, c) ∧ g.commit = c ∧
      (name = refInLocal (createDraftName g.prKey) ∨
        name = refInLocal (createProposedName g.prKey)) := by
  obtain ⟨path, ws, hpath, hws, hfull, _, hworkspace, href, hcmt, hcase⟩ := loadDraft_key hname h
  refine ⟨hfull ▸ hpath, href, hcmt, ?_⟩
  rw [createDraftName, createProposedName, hfull, hworkspace, joinPath_two hpath hws]
  exact hcase

end Drafts

/-! Distinct names -/

section Distinct

variable {k k' : PackageRevisionKey} {a b w : Str}

theorem leaf_inj {v : Str} (hw : '/' ∉ w) (hv : '/' ∉ v) (h : a ++ '/' :: w = b ++ '/' :: v) :
    a = b ∧ w = v := by
  obtain ⟨htake, hdrop⟩ := take_drop_lastIndex (a := a) hw
  obtain ⟨htake', hdrop'⟩ := take_drop_lastIndex (a := b) hv
  rw [h] at htake hdrop
  exact ⟨htake.symm.trans htake', hdrop.symm.trans hdrop'⟩

theorem joinPath_inj (ha : PlainPath a) (hb : PlainPath b) (hw : PlainPath w)
    (h : joinPath [a, w] = joinPath [b, w]) : a = b := by
  rw [joinPath_two ha hw, joinPath_two hb hw] at h
  exact append_cancel_right h

theorem createDraftName_inj (ha : PlainPath k.pkgKey.toFullPathname)
    (hb : PlainPath k'.pkgKey.toFullPathname) (hw : PlainPath k.workspaceName)
    (hws : k.workspaceName = k'.workspaceName)
    (h : createDraftName k = createDraftName k' ∨ createProposedName k = createProposedName k') :
    k.pkgKey.toFullPathname = k'.pkgKey.toFullPathname := by
  unfold createDraftName createProposedName at h
  rw [← hws, append_right_inj, append_right_inj, or_self] at h
  exact joinPath_inj ha hb hw h

theorem revision2Str_natCast (m : Nat) : revision2Str (m : Int) = Nat.toDigits 10 m := by
  show (Nat.repr m).toList = _
  simp [Nat.repr]

theorem revision2Str_negSucc (m : Nat) :
    revision2Str (Int.negSucc m) = '-' :: Nat.toDigits 10 (m + 1) := by
  show (("-" : String) ++ Nat.repr (m + 1)).toList = _
  simp [Nat.repr]

variable {n : Int}

theorem version_no_slash (h : 0 < n) : '/' ∉ 'v' :: revision2Str n := by
  obtain ⟨m, rfl⟩ := Int.eq_ofNat_of_zero_le h.le
  rw [revision2Str_natCast, mem_cons, not_or]
  refine ⟨by decide, ?_⟩
  intro hmem
  exact absurd (Nat.isDigit_of_mem_toDigits (by decide) (by decide) hmem) (by decide)

theorem revision2Int_tag (h : 1 ≤ n) (hmax : n < 2 ^ 63) :
    revision2Int ('v' :: revision2Str n) = n := by
  obtain ⟨m, rfl⟩ := Int.eq_ofNat_of_zero_le (by omega : 0 ≤ n)
  have htrim : trimPrefix ('v' :: Nat.toDigits 10 m) ['v'] = Nat.toDigits 10 m := by
    simp [trimPrefix]
  rw [revision2Int, revision2Str_natCast, htrim, atoi_toDigits (by omega), Option.getD_some]

theorem revision2Str_inj {m : Int} (hm : 0 < m) (hn : 0 < n)
    (h : revision2Str m = revision2Str n) : m = n := by
  obtain ⟨m, rfl⟩ := Int.eq_ofNat_of_zero_le hm.le
  obtain ⟨n, rfl⟩ := Int.eq_ofNat_of_zero_le hn.le
  rw [revision2Str_natCast, revision2Str_natCast] at h
  have hvalue := congrArg (fun ds => Nat.ofDigitChars 10 ds 0) h
  simp only [Nat.ofDigitChars_ten_toDigits] at hvalue
  rw [hvalue]

theorem plainPath_version (h : 0 < n) : PlainPath ('v' :: revision2Str n) :=
  (plainPath_leaf (version_no_slash h)).mpr ⟨by simp, by simp, by simp⟩

theorem draft_ne_proposed (x y : Str) :
    refInLocal (draftsPrefix ++ x) ≠ refInLocal (proposedPrefix ++ y) := by
  intro h
  have hdraft : isDraftBranchNameInLocal (refInLocal (draftsPrefix ++ x)) = true := rfl
  rw [h] at hdraft
  cases hdraft

theorem branch_ne_tag (x y : Str) : refInLocal x ≠ tagsPrefixInLocalRepo ++ y := by
  intro h
  have htag : isTagInLocalRepo (refInLocal x) = false := rfl
  rw [h] at htag
  cases htag

theorem createFinalTagNameInLocal_inj (ha : PlainPath k.pkgKey.toFullPathname)
    (hb : PlainPath k'.pkgKey.toFullPathname) (hw : PlainPath k.workspaceName)
    (hws : k.workspaceName = k'.workspaceName) (hrev : k.revision = k'.revision)
    (h : createFinalTagNameInLocal k = createFinalTagNameInLocal k') :
    k.pkgKey.toFullPathname = k'.pkgKey.toFullPathname := by
  unfold createFinalTagNameInLocal at h
  rw [← hrev, ← hws] at h
  replace h := append_cancel_left h
  by_cases hpos : 0 < k.revision
  · rw [if_pos hpos, if_pos hpos] at h
    exact joinPath_inj ha hb (plainPath_version hpos) h
  · rw [if_neg hpos, if_neg hpos, joinPath_slash ha hw, joinPath_slash hb hw] at h
    exact append_cancel_right h

/-- The directory `x` is above `y`, as git sees the names of references. -/
def Above (x y : Str) : Prop := x ++ ['/'] <+: y

instance (x y : Str) : Decidable (Above x y) := inferInstanceAs (Decidable (_ <+: _))

theorem leaf_above {v : Str} (hv : '/' ∉ v) (h : Above (a ++ '/' :: w) (b ++ '/' :: v)) : Above a b := by
  obtain ⟨r, hr⟩ := h
  rw [append_assoc] at hr
  obtain ⟨t, rfl, -⟩ | ⟨t, ht, hr⟩ := append_eq_append_iff.mp hr
  · exact ⟨w ++ t, by simp⟩
  · cases t with
    | nil => exact ⟨w, by simpa using ht⟩
    | cons c t =>
      cases hr
      exact absurd (mem_append_right t mem_cons_self) hv

/-- Names that are made of a path and a leaf. -/
theorem leaf_names_apart (pre : Str) {v : Str} (ha : PlainPath a) (hb : PlainPath b)
    (hw : '/' ∉ w ∧ PlainPath w) (hv : '/' ∉ v ∧ PlainPath v) (hab : ¬ Above a b) :
    (pre ++ joinPath [a, w] = pre ++ joinPath [b, v] → a = b ∧ w = v) ∧
      ¬ Above (pre ++ joinPath [a, w]) (pre ++ joinPath [b, v]) := by
  rw [joinPath_two ha hw.2, joinPath_two hb hv.2]
  constructor
  · exact fun h => leaf_inj hw.1 hv.1 (append_cancel_left h)
  · rw [Above, append_assoc, prefix_append_right_inj]
    exact fun h => hab (leaf_above hv.1 h)

theorem parseDraftName_leaf {name : Str} (ha : PlainPath a) (hw : '/' ∉ w)
    (h : (getDraftBranchNameInLocal name).or (getProposedBranchNameInLocal name) =
      some (a ++ '/' :: w)) : parseDraftName name = .ok (a, w) := by
  obtain ⟨htake, hdrop⟩ := take_drop_lastIndex (a := a) hw
  have hpos : ¬ lastIndex ['/'] (a ++ '/' :: w) ≤ 0 := by
    have := length_pos_iff.mpr ha.ne_nil
    rw [lastIndex_char hw]
    omega
  simp only [parseDraftName, h, if_neg hpos, htake, hdrop]

/-- **The references of package revisions are apart.** The name of a draft gives back its package
    and its workspace. When the packages are not nested, names of one kind are equal only for the
    same revision, and none is above another. -/
theorem reference_names_apart (ha : PlainPath k.pkgKey.toFullPathname)
    (hb : PlainPath k'.pkgKey.toFullPathname)
    (hnest : k.pkgKey.toFullPathname = k'.pkgKey.toFullPathname ∨
      ¬ Above k.pkgKey.toFullPathname k'.pkgKey.toFullPathname ∧
        ¬ Above k'.pkgKey.toFullPathname k.pkgKey.toFullPathname)
    (hws : ∀ w ∈ [k.workspaceName, k'.workspaceName], '/' ∉ w ∧ w ≠ [] ∧ PlainElem w) :
    (∀ name ∈ [createDraftName, createProposedName],
      parseDraftName (refInLocal (name k)) = .ok (k.pkgKey.toFullPathname, k.workspaceName) ∧
      (refInLocal (name k) = refInLocal (name k') →
        k.pkgKey.toFullPathname = k'.pkgKey.toFullPathname ∧ k.workspaceName = k'.workspaceName) ∧
      ¬ Above (refInLocal (name k)) (refInLocal (name k'))) ∧
    (0 < k.revision → 0 < k'.revision →
      ∀ name ∈ [createFinalTagNameInLocal, refInLocal ∘ createDeletionProposedName],
      (name k = name k' →
        k.pkgKey.toFullPathname = k'.pkgKey.toFullPathname ∧ k.revision = k'.revision) ∧
      ¬ Above (name k) (name k')) := by
  have hab : ¬ Above k.pkgKey.toFullPathname k'.pkgKey.toFullPathname := by
    obtain heq | hnest := hnest
    · rw [heq]
      exact fun h => absurd h.length_le (by simp)
    · exact hnest.1
  have hleaf : ∀ w ∈ [k.workspaceName, k'.workspaceName], '/' ∉ w ∧ PlainPath w := fun w hw =>
    ⟨(hws w hw).1, (plainPath_leaf (hws w hw).1).mpr (hws w hw).2⟩
  obtain ⟨hw, hw'⟩ : _ ∧ _ := by simpa using hleaf
  constructor
  · have hapart (pre : Str) := leaf_names_apart (refInLocal pre) ha hb hw hw' hab
    have hjoin := joinPath_two ha hw.2
    simp only [forall_mem_cons, not_mem_nil, false_implies, implies_true, and_true]
    constructor
    · refine ⟨parseDraftName_leaf ha hw.1 (Option.or_eq_some_iff.mpr (.inl ?_)), hapart draftsPrefix⟩
      rw [createDraftName, hjoin]
      exact cutPrefix_eq_some.mpr rfl
    · refine ⟨parseDraftName_leaf ha hw.1 (Option.or_eq_some_iff.mpr (.inr ⟨rfl, ?_⟩)), hapart proposedPrefix⟩
      rw [createProposedName, hjoin]
      exact cutPrefix_eq_some.mpr rfl
  · intro hrev hrev'
    have hver (pre : Str) : (_ → _ ∧ k.revision = k'.revision) ∧ _ :=
      (leaf_names_apart pre ha hb ⟨version_no_slash hrev, plainPath_version hrev⟩
        ⟨version_no_slash hrev', plainPath_version hrev'⟩ hab).imp_left fun h heq =>
          (h heq).imp_right fun hv => revision2Str_inj hrev hrev' (cons.inj hv).2
    simp only [forall_mem_cons, not_mem_nil, false_implies, implies_true, and_true,
      Function.comp_apply, createFinalTagNameInLocal, createDeletionProposedName, if_pos hrev, if_pos hrev']
    exact ⟨hver tagsPrefixInLocalRepo, hver (refInLocal deletionProposedPrefix)⟩

theorem reference_names_apart_siblings :
    let key (package : Str) : PackageRevisionKey :=
      { pkgKey := { path := "a", package }, workspaceName := "v1", revision := 1 }
    parseDraftName (refInLocal (createDraftName (key "b"))) = .ok ("a/b", "v1") ∧
      ¬ Above (createFinalTagNameInLocal (key "b")) (createFinalTagNameInLocal (key "c")) := by
  intro key
  have h := @reference_names_apart (key "b") (key "c") (by decide +kernel) (by decide +kernel)
    (by decide +kernel) (by decide +kernel)
  exact ⟨(h.1 createDraftName (by simp)).1,
    (h.2 (by decide) (by decide) createFinalTagNameInLocal (by simp)).2⟩

end Distinct

/-! Listings -/

section Listing

variable {host : Host} {repo : GitRepository} {g : GitPackageRevision} {s s' : Scan}
  {rs rs' : List (Str × Commit)} {ref : Str × Commit}

/-- The package revision was loaded from a draft or proposed branch. -/
def GitPackageRevision.onBranch (g : GitPackageRevision) : Bool :=
  g.ref.any fun ref => isDraftBranchNameInLocal ref.1 || isProposedBranchNameInLocal ref.1

/-- The reference that `listPackageRevisions` turns into the package revision `g`. -/
inductive LoadedFrom (host : Host) (repo : GitRepository) (g : GitPackageRevision)
    (ref : Str × Commit) : Prop
  | branch (p : PackageListEntry) (hname : ref.1 = refInLocal repo.branch)
      (hp : p ∈ discoverPackagesInTree repo.key ref.2.tree)
      (hg : g = buildGitPackageRevision p repo.branch (getPkgWorkspace host p ref) ref)
  | draft (hmain : ref.1 ≠ refInLocal repo.branch)
      (hname : isProposedBranchNameInLocal ref.1 || isDraftBranchNameInLocal ref.1)
      (hload : loadDraft repo ref = .ok (some g))
  | tag (hmain : ref.1 ≠ refInLocal repo.branch) (hname : isTagInLocalRepo ref.1)
      (hload : loadTaggedPackage host repo ref = some g)

/-- The drafts of a reference. -/
def draftsOf (repo : GitRepository) (ref : Str × Commit) : List GitPackageRevision :=
  if ref.1 ≠ refInLocal repo.branch ∧
      (isProposedBranchNameInLocal ref.1 || isDraftBranchNameInLocal ref.1) then
    match loadDraft repo ref with
    | .ok o => o.toList
    | .error _ => []
  else []

/-- The package of a tag. -/
def taggedOf (host : Host) (repo : GitRepository) (ref : Str × Commit) : List GitPackageRevision :=
  if isTagInLocalRepo ref.1 then (loadTaggedPackage host repo ref).toList else []

theorem not_branch_of_tag {name : Str} (h : isTagInLocalRepo name) :
    (isDraftBranchNameInLocal name || isProposedBranchNameInLocal name) = false := by
  obtain ⟨r, hr⟩ := Option.isSome_iff_exists.mp h
  rw [cutPrefix_eq_some.mp hr]
  rfl

theorem ne_branch_of_tag {name : Str} (h : isTagInLocalRepo name) : name ≠ refInLocal repo.branch := by
  rintro rfl
  obtain ⟨r, hr⟩ := Option.isSome_iff_exists.mp h
  exact branch_ne_tag repo.branch r (cutPrefix_eq_some.mp hr)

/-- What a turn of the loop adds. -/
theorem scanRef_ok (h : scanRef host repo s ref = .ok s') :
    s' = { main := if ref.1 = refInLocal repo.branch then some ref else s.main
           drafts := s.drafts ++ draftsOf repo ref
           result := s.result ++ taggedOf host repo ref } := by
  unfold scanRef at h
  unfold draftsOf taggedOf
  split at h
  · next hmain =>
    have hnot : ¬ isTagInLocalRepo ref.1 = true := fun htag => ne_branch_of_tag htag hmain
    cases h
    rw [if_pos hmain, if_neg (fun hne => hne.1 hmain), if_neg hnot, append_nil, append_nil]
  · next hmain =>
    split at h
    · next hdraft =>
      have hnot : ¬ isTagInLocalRepo ref.1 = true := by
        intro htag
        rw [Bool.or_comm, not_branch_of_tag htag] at hdraft
        cases hdraft
      obtain ⟨o, hload, h⟩ := bind_eq_ok.mp h
      cases h
      simp [hmain, hnot, hdraft, hload]
    · next hdraft =>
      split at h
      · next htag =>
        cases h
        simp [hmain, htag, hdraft]
      · next htag =>
        cases h
        simp [hmain, htag, hdraft]

/-- The reference is not a draft whose name cannot be parsed. -/
def Parses (repo : GitRepository) (ref : Str × Commit) : Prop :=
  ref.1 ≠ refInLocal repo.branch →
    (isProposedBranchNameInLocal ref.1 || isDraftBranchNameInLocal ref.1) →
      ∃ x, parseDraftName ref.1 = .ok x

theorem scanRef_isOk (host : Host) (s : Scan) : (∃ s', scanRef host repo s ref = .ok s') ↔ Parses repo ref := by
  have hload : (∃ o, loadDraft repo ref = .ok o) ↔ ∃ x, parseDraftName ref.1 = .ok x := by
    unfold loadDraft
    cases parseDraftName ref.1 with
    | error e => simp [bind, Except.bind]
    | ok x =>
      simp only [bind, Except.bind]
      split <;> simp [pure, Except.pure]
  unfold scanRef Parses
  split
  · next hmain => simp [hmain]
  · next hmain =>
    split
    · next hdraft =>
      rw [← hload]
      simp only [ne_eq, hmain, hdraft, not_false_eq_true, forall_const]
      cases loadDraft repo ref <;> simp [bind, Except.bind, pure, Except.pure]
    · next hdraft => split <;> simp [hdraft]

theorem scan_isOk (host : Host) (s : Scan) :
    (∃ s', rs.foldlM (scanRef host repo) s = .ok s') ↔ ∀ ref ∈ rs, Parses repo ref := by
  induction rs generalizing s with
  | nil => simp [pure, Except.pure]
  | cons r rs ih =>
    rw [forall_mem_cons, ← scanRef_isOk host s]
    simp only [foldlM_cons, bind_eq_ok]
    constructor
    · rintro ⟨s', s₁, hstep, hrest⟩
      exact ⟨⟨s₁, hstep⟩, (ih s₁).mp ⟨s', hrest⟩⟩
    · rintro ⟨⟨s₁, hstep⟩, hrest⟩
      obtain ⟨s', hs'⟩ := (ih s₁).mpr hrest
      exact ⟨s', s₁, hstep, hs'⟩

theorem scan_ok (h : rs.foldlM (scanRef host repo) s = .ok s') :
    s'.drafts = s.drafts ++ rs.flatMap (draftsOf repo) ∧
      s'.result = s.result ++ rs.flatMap (taggedOf host repo) ∧
      s'.main = (rs.reverse.find? (·.1 = refInLocal repo.branch)).or s.main := by
  induction rs generalizing s with
  | nil =>
    cases h
    simp
  | cons r rs ih =>
    rw [foldlM_cons] at h
    obtain ⟨s₁, hstep, hrest⟩ := bind_eq_ok.mp h
    obtain ⟨hdrafts, hresult, hmain⟩ := ih hrest
    rw [scanRef_ok hstep] at hdrafts hresult hmain
    refine ⟨by rw [hdrafts]; simp, by rw [hresult]; simp, hmain.trans ?_⟩
    simp only [reverse_cons, find?_append, Option.or_assoc]
    by_cases hr : r.1 = refInLocal repo.branch <;> simp [hr]

variable {refs : Refs} {key : PackageRevisionKey} {gs : List GitPackageRevision}

/-- The references in the order in which they are listed. -/
def refList (refs : Refs) : List (Str × Commit) := refs.entries.map fun e => (e.1, e.2)

theorem mem_refList : ref ∈ refList refs ↔ refs.lookup ref.1 = some ref.2 := by
  rw [← Option.mem_def, AList.mem_lookup_iff, refList, mem_map]
  constructor
  · rintro ⟨e, he, rfl⟩
    exact he
  · exact fun h => ⟨⟨ref.1, ref.2⟩, h, rfl⟩

/-- **What a listing that succeeds is made of**: the tags, the packages on the registered branch
    and the drafts. -/
theorem listPackageRevisions_ok (h : listPackageRevisions host repo refs key = .ok gs) :
    ∃ main : Option (Str × Commit),
      (∀ ref, main = some ref ↔ refs.lookup ref.1 = some ref.2 ∧ ref.1 = refInLocal repo.branch) ∧
      gs = ((refList refs).flatMap (taggedOf host repo) ++
        main.toList.flatMap (discoverFinalizedPackages host repo) ++
        (refList refs).flatMap (draftsOf repo)).filter fun p => key.matches p.prKey := by
  obtain ⟨s, hscan, h⟩ := bind_eq_ok.mp h
  obtain ⟨hdrafts, hresult, hmain⟩ := scan_ok hscan
  cases h
  refine ⟨s.main, fun ref => ?_, by rw [hdrafts, hresult]; rfl⟩
  rw [hmain, ← mem_refList, Option.or_none]
  constructor
  · intro hfind
    exact ⟨mem_reverse.mp (mem_of_find?_eq_some hfind), by simpa using find?_some hfind⟩
  · rintro ⟨hmem, hname⟩
    -- there is one reference of each name
    obtain ⟨ref', hfind⟩ : ∃ ref', (refList refs).reverse.find?
        (·.1 = refInLocal repo.branch) = some ref' :=
      Option.isSome_iff_exists.mp (find?_isSome.mpr ⟨ref, mem_reverse.mpr hmem, decide_eq_true hname⟩)
    have hmem' := mem_refList.mp (mem_reverse.mp (mem_of_find?_eq_some hfind))
    have hname' : ref'.1 = refInLocal repo.branch := by simpa using find?_some hfind
    have hlook := mem_refList.mp hmem
    rw [hname] at hlook
    rw [hname', hlook] at hmem'
    show (refList refs).reverse.find? _ = some ref
    rw [hfind, Option.some.injEq]
    exact Prod.ext (hname'.trans hname.symm) (Option.some.inj hmem').symm

theorem listPackageRevisions_isOk : (∃ gs, listPackageRevisions host repo refs key = .ok gs) ↔
    ∀ ref ∈ refList refs, Parses repo ref := by
  rw [← scan_isOk host {}]
  constructor
  · rintro ⟨gs, h⟩
    obtain ⟨s, hscan, -⟩ := bind_eq_ok.mp h
    exact ⟨s, hscan⟩
  · rintro ⟨s, hscan⟩
    exact ⟨_, bind_eq_ok.mpr ⟨s, hscan, rfl⟩⟩

theorem mem_draftsOf : g ∈ draftsOf repo ref ↔ ref.1 ≠ refInLocal repo.branch ∧
    (isProposedBranchNameInLocal ref.1 || isDraftBranchNameInLocal ref.1) ∧
      loadDraft repo ref = .ok (some g) := by
  unfold draftsOf
  split
  · next h =>
    rw [and_iff_right h.1, and_iff_right h.2]
    cases loadDraft repo ref <;> simp
  · next h => simpa using fun h₁ h₂ => absurd ⟨h₁, by simpa using h₂⟩ h

/-- **A package revision is listed if and only if it is loaded from one of the references.** -/
theorem mem_listed (h : listPackageRevisions host repo refs key = .ok gs) :
    g ∈ gs ↔ key.matches g.prKey ∧
      ∃ ref : Str × Commit, refs.lookup ref.1 = some ref.2 ∧ LoadedFrom host repo g ref := by
  obtain ⟨main, hmain, rfl⟩ := listPackageRevisions_ok h
  simp only [mem_filter, mem_append, mem_flatMap, Option.mem_toList, mem_refList,
    discoverFinalizedPackages, mem_map, (host.order_perm _).mem_iff, and_comm (a := key.matches _ = true)]
  refine and_congr_left fun _ => ⟨?_, ?_⟩
  · rintro ((⟨ref, hlook, hg⟩ | ⟨ref, href, p, hp, rfl⟩) | ⟨ref, hlook, hg⟩)
    · unfold taggedOf at hg
      split at hg
      · next htag => exact ⟨ref, hlook, .tag (ne_branch_of_tag htag) htag (Option.mem_toList.mp hg)⟩
      · cases hg
    · obtain ⟨hlook, hname⟩ := (hmain ref).mp href
      exact ⟨ref, hlook, .branch p hname hp rfl⟩
    · obtain ⟨hne, hname, hload⟩ := mem_draftsOf.mp hg
      exact ⟨ref, hlook, .draft hne hname hload⟩
  · rintro ⟨ref, hlook, hfrom⟩
    cases hfrom with
    | branch p hname hp hg => exact .inl (.inr ⟨ref, (hmain ref).mpr ⟨hlook, hname⟩, p, hp, hg.symm⟩)
    | draft hne hname hload => exact .inr ⟨ref, hlook, mem_draftsOf.mpr ⟨hne, hname, hload⟩⟩
    | tag hne htag hload =>
      refine .inl (.inl ⟨ref, hlook, ?_⟩)
      rw [taggedOf, if_pos htag]
      exact Option.mem_toList.mpr hload

theorem loadTaggedPackage_ref (h : loadTaggedPackage host repo ref = some g) :
    g.ref = some ref := by
  unfold loadTaggedPackage at h
  split at h
  · cases h
  · simp only at h
    split at h
    · cases h
    · obtain ⟨p, -, rfl⟩ := Option.map_eq_some_iff.mp h
      rfl

/-- What is loaded from a reference has this reference. -/
theorem LoadedFrom.ref_eq (h : LoadedFrom host repo g ref) : g.ref = some ref := by
  cases h with
  | branch p hname hp hg => rw [hg]; rfl
  | draft hmain hname hload =>
    obtain ⟨path, ws, p, -, -, -, rfl⟩ := loadDraft_ok.mp hload
    rfl
  | tag hmain hname hload => exact loadTaggedPackage_ref hload

end Listing

end Porch.Git
