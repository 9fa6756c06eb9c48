import Porch.Go.RunningMax
import Porch.Key.Types
import Porch.RepoController.PkgRevSync

/- The flag of the latest revisions of a CR-cached repository, and the choice of the latest
   revisions that the repository controller makes from a listing of the same cache.

     pkg/cache/crcache/util.go  identifyLatestRevisions: consider, latest
     pkgrevsync.go              computeLatestRevisions

   A map is iterated in any order: the loop runs over a list, and what is said about it is
   said for every permutation. The loop of the cache groups the revisions by the last element
   of their path alone, so of two packages `a/app` and `b/app` only one gets a flag
   (`shared_leaf_loses_flag`); the controller groups them by the whole path.
   `latest_flags_exact_iff` says for which contents of the map every order gives the flags
   that the packages call for. -/
namespace Porch.CrCache.LatestFlag

open Go Function List

/-- `cachedPackageRevision`, as far as the loop reads it. -/
structure Revision where
  key : PackageRevisionKey
  lifecycle : Lifecycle
deriving DecidableEq, Repr

namespace Revision

variable (r : Revision)

def number : Int := r.key.revision

/-- The last element of the path of the package. -/
def leaf : Str := r.key.pkgKey.package

def published : Bool := lifecycleIsPublished r.lifecycle

end Revision

/-- A package of a git tree: its name is the last element of its path. -/
structure IsLeaf (k : PackageKey) : Prop where
  slash : '/' ∉ k.package
  plain : PlainElem k.package
  root : k.package = [] → k.path = []

instance (k : PackageKey) : Decidable (IsLeaf k) :=
  decidable_of_iff ('/' ∉ k.package ∧ PlainElem k.package ∧ (k.package = [] → k.path = []))
    ⟨fun h => ⟨h.1, h.2.1, h.2.2⟩, fun h => ⟨h.slash, h.plain, h.root⟩⟩

/-- The map of the cached revisions of a repository, by their keys. -/
structure Cached where
  revisions : List Revision
  repoKey : RepositoryKey
  nodup : (revisions.map Revision.key).Nodup
  inRepo : ∀ r ∈ revisions, r.key.pkgKey.repoKey = repoKey
  isLeaf : ∀ r ∈ revisions, IsLeaf r.key.pkgKey

/-! The loops -/

/-- One turn of the loop of `identifyLatestRevisions`: the latest by name, so far. -/
def consider (latest : Str → Option Revision) (current : Revision) : Str → Option Revision :=
  if current.published then
    match latest current.leaf with
    | some previous =>
      if current.number > previous.number then update latest current.leaf (some current) else latest
    | none =>
      -- the placeholder of the main branch is never the first candidate
      if current.number ≠ -1 then update latest current.leaf (some current) else latest
  else latest

def latest (order : List Revision) : Str → Option Revision := order.foldl consider fun _ => none

/-- The flag of a revision after `identifyLatestRevisions` has gone through the map in an order. -/
def isLatestRevision (order : List Revision) (r : Revision) : Bool := latest order r.leaf = some r

/-- What the controller asks of a revision. -/
def Revision.pkgRev (r : Revision) : RepoController.PkgRevSync.PkgRev where
  kubeObjectName := r.key.k8sName
  kubeObjectNamespace := r.key.pkgKey.repoKey.namesp
  pkgPathname := r.key.pkgKey.toPkgPathname
  repositoryName := r.key.pkgKey.repoKey.name
  workspaceName := r.key.workspaceName
  revision := r.key.revision
  lifecycle := r.lifecycle

/-! What the flags are to be -/

def Revision.numbered (r : Revision) : Prop := r.published = true ∧ 1 ≤ r.number

instance (r : Revision) : Decidable r.numbered := inferInstanceAs (Decidable (_ ∧ _))

/-- The greatest of the published revisions of its package. -/
structure Greatest (m : Cached) (r : Revision) : Prop where
  numbered : r.numbered
  greatest : ∀ r' ∈ m.revisions, r'.published = true → r'.key.pkgKey = r.key.pkgKey → r'.number ≤ r.number

/-- Whatever the order, the greatest revisions of the packages have the flag, and no others. -/
def FlagsGreatest (m : Cached) : Prop :=
  ∀ order : List Revision, order.Perm m.revisions → ∀ r ∈ m.revisions, isLatestRevision order r = true ↔ Greatest m r

/-- Whatever the orders, the controller takes the flagged revisions for the latest ones. -/
def AgreesWithController (m : Cached) : Prop :=
  ∀ order : List Revision, order.Perm m.revisions → ∀ listing : List Revision, listing.Perm m.revisions → ∀ name,
    RepoController.PkgRevSync.computeLatestRevisions (listing.map Revision.pkgRev) name = true ↔
      ∃ r ∈ m.revisions, isLatestRevision order r = true ∧ r.key.k8sName = name

/-! The condition -/

structure Unambiguous (m : Cached) : Prop where
  /-- Packages with numbered revisions have different names. -/
  leaves : ∀ r ∈ m.revisions, ∀ r' ∈ m.revisions, r.numbered → r'.numbered → r.leaf = r'.leaf →
    r.key.pkgKey = r'.key.pkgKey
  /-- The greatest number of a package is that of one revision. -/
  numbers : ∀ r ∈ m.revisions, ∀ r' ∈ m.revisions, Greatest m r → Greatest m r' →
    r.key.pkgKey = r'.key.pkgKey → r = r'
  /-- A published revision without a number has a name that a numbered one has too, unless it is
      the placeholder of the main branch. -/
  unnumbered : ∀ r ∈ m.revisions, r.published = true → r.number < 1 → r.number ≠ -1 →
    ∃ r' ∈ m.revisions, r'.numbered ∧ r'.leaf = r.leaf

/-! The loop of the cache -/

/-- The candidates for a name: the published revisions of that name, from the first one on that is
    not a placeholder. -/
def candidates (order : List Revision) (name : Str) : List Revision :=
  (order.filter fun r => r.published ∧ r.leaf = name).dropWhile fun r => r.number = -1

variable {order : List Revision} {name : Str} {r r' : Revision}

theorem mem_of_mem_candidates (h : r ∈ candidates order name) :
    r ∈ order ∧ r.published = true ∧ r.leaf = name := by
  have hfilter := (dropWhile_sublist _).subset h
  simpa [and_assoc] using hfilter

theorem mem_candidates (hr : r ∈ order) (hpub : r.published = true) (hmain : r.number ≠ -1) :
    r ∈ candidates order r.leaf := by
  have hfilter : r ∈ order.filter fun r' => r'.published ∧ r'.leaf = r.leaf := by simp [hr, hpub]
  have hsplit := takeWhile_append_dropWhile (p := fun r' : Revision => decide (r'.number = -1))
    (l := order.filter fun r' => r'.published ∧ r'.leaf = r.leaf)
  rw [← hsplit] at hfilter
  obtain hbefore | hafter := mem_append.mp hfilter
  · have hnumber := mem_takeWhile_imp hbefore
    exact absurd (of_decide_eq_true hnumber) hmain
  · exact hafter

theorem exists_candidate (h : r ∈ candidates order name) :
    ∃ first ∈ candidates order name, first.number ≠ -1 := by
  have hne : candidates order name ≠ [] := ne_nil_of_mem h
  refine ⟨_, head_mem hne, ?_⟩
  exact of_decide_eq_false (head_dropWhile_not (fun r : Revision => decide (r.number = -1)) hne)

/-- **The loop keeps the greatest of the candidates for each name.** -/
theorem latest_eq (order : List Revision) (name : Str) :
    latest order name = runningMax Revision.number (candidates order name) := by
  induction order using List.reverseRecOn with
  | nil => rfl
  | append_singleton order current ih =>
    have hlast : latest (order ++ [current]) = consider (latest order) current := by simp [latest]
    rw [hlast]
    by_cases hcand : current.published = true ∧ current.leaf = name
    · obtain ⟨hpub, rfl⟩ := hcand
      have hcands : candidates (order ++ [current]) current.leaf =
          if candidates order current.leaf = [] then [current].dropWhile fun r => r.number = -1
          else candidates order current.leaf ++ [current] := by
        simp [candidates, List.filter_append, hpub, List.dropWhile_append, List.isEmpty_iff]
      rw [hcands, consider, if_pos hpub]
      cases hprev : latest order current.leaf with
      | none =>
        rw [hprev] at ih
        rw [if_pos ((runningMax_spec _).1 ih.symm)]
        by_cases hmain : current.number = -1
        · simp [hmain, runningMax, hprev]
        · simp [hmain, runningMax, keepGreater]
      | some previous =>
        rw [hprev] at ih
        have hne : candidates order current.leaf ≠ [] := List.ne_nil_of_mem (runningMax_mem ih.symm)
        have hconcat : runningMax Revision.number (candidates order current.leaf ++ [current]) =
            keepGreater Revision.number (some previous) current := by
          rw [runningMax, List.foldl_concat, ← runningMax, ← ih]
        rw [if_neg hne, hconcat, keepGreater_some]
        by_cases hlt : previous.number < current.number
        · simp [hlt]
        · simp [hlt, hprev]
    · have hsame : candidates (order ++ [current]) name = candidates order name := by
        simp only [candidates, List.filter_append]
        simp [hcand]
      rw [hsame, ← ih, consider]
      by_cases hpub : current.published = true
      · have hleaf : name ≠ current.leaf := fun h => hcand ⟨hpub, h.symm⟩
        rw [if_pos hpub]
        cases latest order current.leaf with
        | none | some =>
          dsimp only
          split <;> simp [update_of_ne hleaf]
      · rw [if_neg hpub]

/-! The loop of the controller -/

theorem eligible_pkgRev (path : Str) (r : Revision) :
    RepoController.PkgRevSync.eligible path r.pkgRev = true ↔
      r.numbered ∧ r.key.pkgKey.toPkgPathname = path := by
  simp only [RepoController.PkgRevSync.eligible, decide_eq_true_eq, Revision.numbered, and_assoc]
  exact Iff.rfl

theorem latestPerPkg_eq (listing : List Revision) (path : Str) :
    RepoController.PkgRevSync.latestPerPkg (listing.map Revision.pkgRev) path =
      (runningMax Revision.number
        (listing.filter fun r => r.numbered ∧ r.key.pkgKey.toPkgPathname = path)).map Revision.pkgRev := by
  induction listing using reverseRecOn with
  | nil => rfl
  | append_singleton listing r ih =>
    rw [map_append, map_singleton, RepoController.PkgRevSync.latestPerPkg, foldl_concat,
      ← RepoController.PkgRevSync.latestPerPkg, ih, filter_append]
    by_cases hr : r.numbered ∧ r.key.pkgKey.toPkgPathname = path
    · have helig := (eligible_pkgRev path r).mpr hr
      rw [filter_singleton, decide_eq_true hr, cond_true, runningMax, runningMax, foldl_concat, helig]
      generalize foldl _ _ _ = best
      cases best with
      | none => rfl
      | some b =>
        rw [keepGreater_some]
        simp only [Option.map_some, Option.all_some, Bool.true_and, decide_eq_true_eq]
        show (if b.number < r.number then some r.pkgRev else some b.pkgRev) = _
        split <;> rfl
    · have helig : RepoController.PkgRevSync.eligible path r.pkgRev = false :=
        Bool.eq_false_iff.mpr fun h => hr ((eligible_pkgRev path r).mp h)
      simp [helig, hr]

/-- **The controller chooses the first of the greatest revisions of a path.** -/
theorem computeLatest_iff (listing : List Revision) (name : Str) :
    RepoController.PkgRevSync.computeLatestRevisions (listing.map Revision.pkgRev) name = true ↔
      ∃ path r, runningMax Revision.number
        (listing.filter fun r => r.numbered ∧ r.key.pkgKey.toPkgPathname = path) = some r ∧
          r.key.k8sName = name := by
  simp only [RepoController.PkgRevSync.computeLatestRevisions, any_map, any_eq_true,
    comp_apply, decide_eq_true_eq, latestPerPkg_eq, Option.map_map, Option.map_eq_some_iff]
  constructor
  · rintro ⟨r, -, best, hbest, hname⟩
    exact ⟨_, best, hbest, hname⟩
  · rintro ⟨path, best, hbest, hname⟩
    obtain ⟨hmem, -, rfl⟩ : best ∈ listing ∧ best.numbered ∧ best.key.pkgKey.toPkgPathname = path := by
      simpa using runningMax_mem hbest
    exact ⟨best, hmem, best, hbest, hname⟩

/-! Packages with the same path -/

theorem IsLeaf.package_eq {k k' : PackageKey} (h : IsLeaf k) (h' : IsLeaf k')
    (hpath : k.toPkgPathname = k'.toPkgPathname) : k.package = k'.package := by
  have hbase : ∀ {k : PackageKey}, IsLeaf k → base k.toPkgPathname = some k.package := by
    intro k h
    by_cases hne : k.package = []
    · rw [PackageKey.toPkgPathname, hne, h.root hne]
      rfl
    · exact base_joinPath hne h.slash h.plain
  exact Option.some.inj ((hbase h).symm.trans ((congrArg base hpath).trans (hbase h')))

/-! What the flags are -/

variable {m : Cached}

theorem isLatestRevision_iff : isLatestRevision order r = true ↔ latest order r.leaf = some r := by
  simp [isLatestRevision]

theorem exists_greatest (hr : r ∈ m.revisions) (hnum : r.numbered) :
    ∃ g ∈ m.revisions, Greatest m g ∧ g.key.pkgKey = r.key.pkgKey := by
  have hmem : r ∈ m.revisions.filter fun r' => r'.published ∧ r'.key.pkgKey = r.key.pkgKey := by
    simp [hr, hnum.1]
  obtain ⟨g, hg⟩ := exists_runningMax Revision.number hmem
  obtain ⟨hgmem, hpub, hkey⟩ : g ∈ m.revisions ∧ g.published = true ∧ g.key.pkgKey = r.key.pkgKey := by
    simpa using runningMax_mem hg
  have hle := le_runningMax hg hmem
  refine ⟨g, hgmem, ⟨⟨hpub, hnum.2.trans hle⟩, fun r' hr' hpub' hkey' => ?_⟩, hkey⟩
  exact le_runningMax hg (by simp [hr', hpub', hkey', hkey])

theorem unambiguous_of_flags (h : FlagsGreatest m) : Unambiguous m := by
  have hflag : ∀ r ∈ m.revisions, isLatestRevision m.revisions r = true ↔ Greatest m r := h _ (.refl _)
  have hone : ∀ r ∈ m.revisions, ∀ r' ∈ m.revisions, Greatest m r → Greatest m r' → r.leaf = r'.leaf → r = r' := by
    intro r hr r' hr' hg hg' hleaf
    have hlat := isLatestRevision_iff.mp ((hflag r hr).mpr hg)
    have hlat' := isLatestRevision_iff.mp ((hflag r' hr').mpr hg')
    rw [hleaf, hlat'] at hlat
    exact (Option.some.inj hlat).symm
  refine ⟨fun r hr r' hr' hnum hnum' hleaf => ?_, fun r hr r' hr' hg hg' hkey => ?_, fun r hr hpub hlt hmain => ?_⟩
  · obtain ⟨g, hgmem, hg, hkey⟩ := exists_greatest hr hnum
    obtain ⟨g', hgmem', hg', hkey'⟩ := exists_greatest hr' hnum'
    have hleaves : g.leaf = g'.leaf :=
      (congrArg PackageKey.package hkey).trans (hleaf.trans (congrArg PackageKey.package hkey').symm)
    rw [← hkey, ← hkey', hone g hgmem g' hgmem' hg hg' hleaves]
  · exact hone r hr r' hr' hg hg' (congrArg PackageKey.package hkey)
  · obtain ⟨w, hw⟩ := exists_runningMax Revision.number (mem_candidates hr hpub hmain)
    obtain ⟨hwmem, -, hleaf⟩ := mem_of_mem_candidates (runningMax_mem hw)
    have hlat : isLatestRevision m.revisions w = true := by
      rw [isLatestRevision_iff, hleaf, latest_eq]
      exact hw
    exact ⟨w, hwmem, ((hflag w hwmem).mp hlat).numbered, hleaf⟩

theorem Unambiguous.unique (h : Unambiguous m) (hr : r ∈ m.revisions) (hr' : r' ∈ m.revisions)
    (hg : Greatest m r) (hnum : r'.numbered) (hleaf : r'.leaf = r.leaf) (hle : r.number ≤ r'.number) : r' = r := by
  have hkey := h.leaves r' hr' r hr hnum hg.numbered hleaf
  refine h.numbers r' hr' r hr ⟨hnum, fun r'' hr'' hpub hkey' => ?_⟩ hg hkey
  exact (hg.greatest r'' hr'' hpub (hkey'.trans hkey)).trans hle

theorem Unambiguous.flags (h : Unambiguous m) : FlagsGreatest m := by
  intro order hperm r hr
  rw [isLatestRevision_iff, latest_eq]
  constructor
  · intro hlat
    obtain ⟨-, hpub, -⟩ := mem_of_mem_candidates (runningMax_mem hlat)
    -- some numbered revision has the name, and then the one that is kept is numbered
    obtain ⟨n, hn, hnum, hleaf⟩ : ∃ n ∈ m.revisions, n.numbered ∧ n.leaf = r.leaf := by
      obtain ⟨first, hfirst, hmain⟩ := exists_candidate (runningMax_mem hlat)
      obtain ⟨hmem, hpub', hleaf⟩ := mem_of_mem_candidates hfirst
      have hmem' : first ∈ m.revisions := hperm.mem_iff.mp hmem
      by_cases hnum : 1 ≤ first.number
      · exact ⟨first, hmem', ⟨hpub', hnum⟩, hleaf⟩
      · obtain ⟨n, hn, hnum, hleaf'⟩ := h.unnumbered first hmem' hpub' (not_le.mp hnum) hmain
        exact ⟨n, hn, hnum, hleaf'.trans hleaf⟩
    have hbound : ∀ r' ∈ m.revisions, r'.numbered → r'.leaf = r.leaf → r'.number ≤ r.number := by
      intro r' hr' hnum' hleaf'
      have hcand := mem_candidates (hperm.mem_iff.mpr hr') hnum'.1 (by have := hnum'.2; omega)
      rw [hleaf'] at hcand
      exact le_runningMax hlat hcand
    have hnumbered : r.numbered := ⟨hpub, hnum.2.trans (hbound n hn hnum hleaf)⟩
    refine ⟨hnumbered, fun r' hr' hpub' hkey => ?_⟩
    by_cases hpos : 1 ≤ r'.number
    · exact hbound r' hr' ⟨hpub', hpos⟩ (congrArg PackageKey.package hkey)
    · have := hnumbered.2
      omega
  · intro hg
    have hcand := mem_candidates (hperm.mem_iff.mpr hr) hg.numbered.1 (by have := hg.numbered.2; omega)
    obtain ⟨w, hw⟩ := exists_runningMax Revision.number hcand
    obtain ⟨hmem, hpub, hleaf⟩ := mem_of_mem_candidates (runningMax_mem hw)
    have hle := le_runningMax hw hcand
    have hwr := h.unique hr (hperm.mem_iff.mp hmem) hg ⟨hpub, hg.numbered.2.trans hle⟩ hleaf hle
    rw [hw, hwr]

theorem Unambiguous.agrees (h : Unambiguous m) : AgreesWithController m := by
  intro order horder listing hlisting name
  rw [computeLatest_iff]
  have hflag := h.flags order horder
  -- two numbered revisions of one path are revisions of one package
  have hpaths : ∀ r ∈ m.revisions, ∀ r' ∈ m.revisions,
      r'.key.pkgKey.toPkgPathname = r.key.pkgKey.toPkgPathname → r'.leaf = r.leaf :=
    fun r hr r' hr' hpath => (m.isLeaf r' hr').package_eq (m.isLeaf r hr) hpath
  constructor
  · rintro ⟨path, r, hbest, hname⟩
    obtain ⟨hmem, hnum, rfl⟩ : r ∈ listing ∧ r.numbered ∧ r.key.pkgKey.toPkgPathname = path := by
      simpa using runningMax_mem hbest
    have hr := hlisting.mem_iff.mp hmem
    refine ⟨r, hr, (hflag r hr).mpr ⟨hnum, fun r' hr' hpub hkey => ?_⟩, hname⟩
    by_cases hpos : 1 ≤ r'.number
    · refine le_runningMax hbest ?_
      simp [hlisting.mem_iff.mpr hr', Revision.numbered, hpub, hpos, hkey]
    · have := hnum.2
      omega
  · rintro ⟨r, hr, hlat, hname⟩
    have hg := (hflag r hr).mp hlat
    have hmem : r ∈ listing.filter fun r' => r'.numbered ∧ r'.key.pkgKey.toPkgPathname = r.key.pkgKey.toPkgPathname := by
      simp [hlisting.mem_iff.mpr hr, hg.numbered]
    obtain ⟨best, hbest⟩ := exists_runningMax Revision.number hmem
    obtain ⟨hbestMem, hnum, hpath⟩ : best ∈ listing ∧ best.numbered ∧
        best.key.pkgKey.toPkgPathname = r.key.pkgKey.toPkgPathname := by
      simpa using runningMax_mem hbest
    have hbestMem' := hlisting.mem_iff.mp hbestMem
    have hsame := h.unique hr hbestMem' hg hnum (hpaths r hr best hbestMem' hpath) (le_runningMax hbest hmem)
    exact ⟨_, best, hbest, hsame ▸ hname⟩

/-- **When the flags are right.** Whatever the order, exactly the greatest revision of each package
    is flagged, and the controller makes the same choice, if and only if the packages with numbered
    revisions have different names, each has one greatest revision, and no published revision
    without a number stands alone under its name. -/
theorem latest_flags_exact_iff (m : Cached) : FlagsGreatest m ∧ AgreesWithController m ↔ Unambiguous m :=
  ⟨fun h => unambiguous_of_flags h.1, fun h => ⟨h.flags, h.agrees⟩⟩

/-! Two packages of one name -/

def revisionAt (path package workspaceName : String) (revision : Int) : Revision where
  key :=
    { pkgKey := { repoKey := {}, path := path.toList, package := package.toList }
      revision := revision
      workspaceName := workspaceName.toList }
  lifecycle := .published

/-- `a/app` and `b/app`, both published. -/
def sharedLeaf : Cached where
  revisions := [revisionAt "a" "app" "v1" 1, revisionAt "b" "app" "v1" 1]
  repoKey := {}
  nodup := by decide
  inRepo := by decide
  isLeaf := by decide

/-- **Of two packages with the same name only one gets the flag.** -/
theorem shared_leaf_loses_flag : ¬ (FlagsGreatest sharedLeaf ∧ AgreesWithController sharedLeaf) := by
  rintro ⟨hflags, -⟩
  have hmem : revisionAt "b" "app" "v1" 1 ∈ sharedLeaf.revisions := by decide
  have hmax : Greatest sharedLeaf (revisionAt "b" "app" "v1" 1) := ⟨by decide, by decide⟩
  have hflag := (hflags sharedLeaf.revisions (.refl _) _ hmem).mpr hmax
  have hnot : isLatestRevision sharedLeaf.revisions (revisionAt "b" "app" "v1" 1) = false := by decide
  exact Bool.false_ne_true (hnot.symm.trans hflag)

end Porch.CrCache.LatestFlag
