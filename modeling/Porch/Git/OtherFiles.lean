import Porch.Git.CloseSpec
import Porch.Git.Delete

/- The commits of a package and the files of the others: publishing puts the tree of the draft
   in the place of the package, deleting leaves nothing there, and neither changes other files.

   `UpdateDraftResources` joins the keys of the resources to the path of the package as they
   are. A key that leads out of the package, as `../other/new`, replaces a whole directory
   there (`other_package_lost`); resources from the API are checked before
   (`ValidateResourcePaths`). With keys that stay in the package other files are as they
   were. -/
namespace Porch.Git

open Go Function

/-! Writing files -/

variable {trees written written' : Trees} {parent dir : List Str} {lastPart name n : Str}
  {entries : List (Str × TreeEntry)}

theorem named_addDirectory (h : n ≠ name) : named n (addDirectory name entries) = named n entries := by
  induction entries with
  | nil => simp [addDirectory, named, h.symm]
  | cons x xs ih =>
    obtain ⟨m, e⟩ := x
    cases e with
    | dirty => simp [addDirectory, named_cons, ih]
    | stored node =>
      unfold addDirectory
      split
      · next hm => simp [named_cons, hm, h.symm]
      · simp [named_cons, ih]

/-- An entry at or below the package is its own, or in a directory of the package. -/
theorem at_or_below (h : parent ++ [lastPart] <+: dir ++ [name]) :
    (dir = parent ∧ name = lastPart) ∨ parent ++ [lastPart] <+: dir := by
  refine (List.prefix_concat_iff.mp h).imp_left fun heq => ?_
  obtain ⟨hpar, hlast⟩ := List.append_inj' heq rfl
  exact ⟨hpar.symm, (List.singleton_inj.mp hlast).symm⟩

namespace WritesOnly

section

variable (hw : WritesOnly trees written parent lastPart)
include hw

theorem below (hdir : parent ++ [lastPart] <+: dir) (v : Option (List (Str × TreeEntry))) :
    WritesOnly trees (update written dir v) parent lastPart := by
  have hpar : parent <+: dir := (List.prefix_append ..).trans hdir
  have hne : parent ≠ dir := fun heq => by
    have := hdir.length_le
    simp [heq] at this
  obtain ⟨entries, hat, hnamed⟩ := hw.siblings
  refine ⟨fun d hd => ?_, entries, (update_of_ne hne _ _).trans hat, hnamed⟩
  rw [update_of_ne fun heq : d = dir => hd (heq ▸ hpar)]
  exact hw.outside d hd

/-- A change of the entry `name` in `dir`, where `dir/name` is at or below the package. -/
theorem entry {f : List (Str × TreeEntry) → List (Str × TreeEntry)}
    (hdir : parent ++ [lastPart] <+: dir ++ [name])
    (hf : ∀ n xs, n ≠ name → named n (f xs) = named n xs) :
    WritesOnly trees (update written dir (some (f ((written dir).getD [])))) parent lastPart := by
  obtain ⟨rfl, rfl⟩ | hbelow := at_or_below hdir
  · obtain ⟨entries, hat, hnamed⟩ := hw.siblings
    refine ⟨fun d hd => ?_, _, update_self .., fun n hn => ?_⟩
    · rw [update_of_ne fun heq : d = dir => hd (heq ▸ List.prefix_rfl)]
      exact hw.outside d hd
    · rw [hf n _ hn, hat]
      exact hnamed n hn
  · exact hw.below hbelow _

theorem ensureTree {r : List Str} (hr : r.reverse = parent ∨ parent ++ [lastPart] <+: r.reverse) :
    WritesOnly trees (ensureTree written r) parent lastPart := by
  induction r with
  | nil => exact hw
  | cons base rdir ih =>
    unfold Git.ensureTree
    split
    · exact hw
    · next hnone =>
      rw [List.reverse_cons] at hr hnone ⊢
      have hbelow : parent ++ [lastPart] <+: rdir.reverse ++ [base] := by
        refine hr.resolve_left fun heq => ?_
        obtain ⟨entries, hat, -⟩ := hw.siblings
        rw [heq, hat] at hnone
        cases hnone
      refine ((ih ?_).entry hbelow fun _ _ => named_addDirectory).below hbelow _
      exact (at_or_below hbelow).imp_left And.left

theorem storeFile {path contents : Str} (hpath : parent ++ [lastPart] <+: path.splitOn '/')
    (h : storeFile written path contents = .ok written') :
    WritesOnly trees written' parent lastPart := by
  unfold Git.storeFile at h
  dsimp only at h
  rw [← dropLast_append_getLastD path] at hpath
  split at h
  · cases h
  · cases h
    refine (hw.ensureTree ?_).entry hpath fun _ _ => named_setOrAdd_ne
    rw [List.reverse_reverse]
    exact (at_or_below hpath).imp_left And.left

end

end WritesOnly

/-! The commits -/

theorem replaced_files {root t : Tree} {path : Str} {packageTree : Option Tree} {fuel : Nat}
    (huniq : UniqueAlong root (path.splitOn '/'))
    (hload : loadAncestors [] (path.splitOn '/').dropLast
      (update (fun _ => none) [] (some (loaded root))) = .ok trees)
    (hstore : storeTrees (placePackage trees (path.splitOn '/').dropLast
      ((path.splitOn '/').getLastD []) packageTree) fuel [] = .ok t) :
    (∀ q, ¬ path.splitOn '/' <+: q → fileAt t q = fileAt root q) ∧
      ∀ q, fileAt t (path.splitOn '/' ++ q) = fileAt (packageTree.getD []) q := by
  rw [← dropLast_append_getLastD] at huniq ⊢
  refine ⟨fun q => (writesOnly_placePackage ..).frame (update_self ..) huniq hload hstore, fun q => ?_⟩
  rw [List.append_assoc]
  exact (package_placed (update_self ..) hload hstore).2 huniq q

/-- **Commits keep the files of other packages.** Outside of the package, a commit that publishes,
    deletes or edits has the files of its parent commit; editing is with keys that stay in the
    package. In it are the files of the draft that is published, and none after it is deleted. -/
theorem other_files_kept (repo : GitRepository) (d : GitPackageRevisionDraft) (branch : Str)
    (key : PackageRevisionKey) (refs : Refs) (head commit : Commit) :
    (∀ packageTree, refs.lookup (refInLocal repo.branch) = some head →
      UniqueAlong head.tree d.parts → commitPackageToMain repo d refs = .ok (commit, packageTree) →
      (∀ q, ¬ d.parts <+: q → fileAt commit.tree q = fileAt head.tree q) ∧
        ∀ q, fileAt commit.tree (d.parts ++ q) = fileAt (d.tree.getD []) q) ∧
    (∀ parts, parts = key.pkgKey.toFullPathname.splitOn '/' → refs.lookup branch = some head →
      UniqueAlong head.tree parts → createPackageDeleteCommit branch key refs = .ok (some commit) →
      (∀ q, ¬ parts <+: q → fileAt commit.tree q = fileAt head.tree q) ∧
        ∀ q, fileAt commit.tree (parts ++ q) = none) ∧
    ∀ resources d' base, d'.commit = some commit → updateDraftResources d resources = .ok d' →
      base = (d.commit.map (·.tree)).getD [] → UniqueAlong base d.parts →
      (∀ r ∈ resources, d.parts <+: (joinPath [d.prKey.pkgKey.toFullPathname, r.1]).splitOn '/') →
      ∀ q, ¬ d.parts <+: q → fileAt commit.tree q = fileAt base q := by
  refine ⟨fun packageTree hhead huniq h => ?_, ?_, ?_⟩
  · obtain ⟨head', loaded, root, hhead', hload, hroot, -, rfl⟩ := commitPackageToMain_made h
    obtain rfl : head = head' := Option.some.inj (hhead.symm.trans hhead')
    exact replaced_files huniq hload hroot
  · rintro _ rfl hhead huniq h
    unfold createPackageDeleteCommit at h
    simp only [hhead] at h
    split at h
    · cases h
    · obtain ⟨trees, htrees, h⟩ := bind_eq_ok.mp h
      obtain ⟨loaded, hload, hplace⟩ := bind_eq_ok.mp htrees
      cases hplace
      obtain ⟨root, hroot, h⟩ := bind_eq_ok.mp h
      cases h
      obtain ⟨hframe, hgone⟩ := replaced_files huniq hload hroot
      refine ⟨hframe, fun q => (hgone q).trans ?_⟩
      cases q <;> rfl
  · rintro resources d' _ hcmt h rfl huniq hkeys q hq
    obtain ⟨trees, htrees, h⟩ := bind_eq_ok.mp h
    obtain ⟨loaded, hload, hplace⟩ := bind_eq_ok.mp htrees
    cases hplace
    obtain ⟨written, hfold, h⟩ := bind_eq_ok.mp h
    dsimp only at h
    split at h
    · cases h
    · obtain ⟨⟨commit', pt⟩, hmade, h⟩ := bind_eq_ok.mp h
      cases h
      cases hcmt
      obtain ⟨root, hroot, hmade⟩ := bind_eq_ok.mp hmade
      obtain ⟨_, -, hmade⟩ := bind_eq_ok.mp hmade
      cases hmade
      rw [← d.parts_eq] at huniq hkeys hq
      have hw := foldlM_keeps (P := fun written => WritesOnly loaded written d.parts.dropLast
        (d.parts.getLastD [])) (fun r hr _ _ hstore hw => hw.storeFile (hkeys r hr) hstore) hfold
        (writesOnly_placePackage ..)
      exact hw.frame (update_self ..) huniq hload hroot hq

/-- A draft of `pkg` beside the package `other`. -/
def besideOther : GitPackageRevisionDraft where
  prKey := { pkgKey := { package := "pkg" } }
  lifecycle := .draft
  commit := some (.mk [("other", .dir [("Kptfile", .blob .regular "kept")])] [] [])

/-- **A key can lead out of the package**, and replaces the directory there. -/
theorem other_package_lost :
    ((updateDraftResources besideOther [("Kptfile", "x"), ("../other/new", "y")]).toOption.bind
      (·.commit)).map (fun c => (fileAt c.tree ["other", "Kptfile"], fileAt c.tree ["other", "new"])) =
      some (none, some (.regular, "y".toList)) := by
  decide +kernel

theorem other_files_kept_beside : ∃ d' commit,
    updateDraftResources besideOther [("Kptfile", "x")] = .ok d' ∧ d'.commit = some commit ∧
      fileAt commit.tree ["other", "Kptfile"] = some (.regular, "kept".toList) := by
  have hmade : (updateDraftResources besideOther [("Kptfile", "x")]).toOption.any
      (·.commit.isSome) = true := by decide +kernel
  have hparts : besideOther.parts = ["pkg".toList] := by decide +kernel
  cases hedited : updateDraftResources besideOther [("Kptfile", "x")] with
  | error e =>
    rw [hedited] at hmade
    cases hmade
  | ok d' =>
    rw [hedited] at hmade
    obtain ⟨commit, hcmt⟩ : ∃ commit, d'.commit = some commit := Option.isSome_iff_exists.mp hmade
    refine ⟨d', commit, rfl, hcmt, ?_⟩
    refine ((other_files_kept ⟨besideOther.prKey.pkgKey.repoKey, []⟩ besideOther [] besideOther.prKey ∅
      (.mk [] [] []) commit).2.2 _ d' _ hcmt hedited rfl ?_ (by decide +kernel) _ (by decide +kernel)).trans ?_
    · rw [hparts]
      exact ⟨by decide, trivial⟩
    · decide +kernel

end Porch.Git
