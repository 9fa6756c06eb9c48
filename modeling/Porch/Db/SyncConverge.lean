import Porch.Db.SyncSave
import Porch.Go.Maps

/- Sync brings the cache to what the external repository lists, and a second sync finds
   nothing to do (`sync_converges`), when the tables and the listing are `SyncReady`.

   Outside that condition it does not. The look-up of the package of a revision that is
   cached only takes an empty path for any path: next to a package of the same name in
   a directory, a package at the root of the repository cannot be cleaned up
   (`root_package_not_removed`). -/
namespace Porch.Db

open Go Sql Proc

/-! Maps of package revisions -/

section Map

variable {α : Type} {key : α → PackageRevisionKey} {prs : List α} {k : PackageRevisionKey} {a : α}

theorem mem_leftOnly {β : Type} (left right : MapOrder) (m : PRMap α) (m' : PRMap β)
    (k : PackageRevisionKey) : k ∈ (comparePRMaps left right m m').leftOnly ↔ k ∈ m ∧ k ∉ m' := by
  simp only [comparePRMaps, List.mem_filter, (left.perm m.keys).mem_iff, decide_eq_true_eq]
  exact Iff.rfl

theorem mem_rightOnly {β : Type} (left right : MapOrder) (m : PRMap α) (m' : PRMap β)
    (k : PackageRevisionKey) : k ∈ (comparePRMaps left right m m').rightOnly ↔ k ∈ m' ∧ k ∉ m := by
  simp only [comparePRMaps, List.mem_filter, (right.perm m'.keys).mem_iff, decide_eq_true_eq]
  exact Iff.rfl

theorem prSlice2Map_lookup (h : (prSlice2Map key prs).lookup k = some a) : a ∈ prs ∧ key a = k :=
  mapBy_lookup h

theorem mem_prSlice2Map : k ∈ prSlice2Map key prs ↔ ∃ a ∈ prs, key a = k :=
  mem_mapBy

end Map

/-! The cached side -/

section Cached

variable {repo : DbRepository} {opened : RepositoryKey → Bool} {db : Database}

/-- The rows that the cached map of sync shows. -/
def InScope (repo : DbRepository) (x : PkgRevRow) : Prop :=
  repo.pushDraftsToGit ∨ lifecycleIsPublished x.lifecycle

theorem mem_publishedLifecycles {l : Lifecycle} :
    l ∈ [Lifecycle.published, .deletionProposed] ↔ lifecycleIsPublished l := by
  cases l <;> decide

theorem mem_listPackageRevisions (opened : RepositoryKey → Bool) (db : Database) (rk : RepositoryKey)
    (lifecycles : List Lifecycle) : ∃ prs, listPackageRevisions opened rk lifecycles db = (.ok prs, db) ∧
      ∀ pr, pr ∈ prs ↔ ∃ x ∈ db.pkgRevs, joinRow db x = some pr ∧
        rk.matches pr.pkgRevKey.pkgKey.repoKey ∧ opened pr.pkgRevKey.pkgKey.repoKey ∧
        (lifecycles = [] ∨ x.lifecycle ∈ lifecycles) := by
  refine ⟨_, query_eq_ok.mpr ⟨rfl, rfl⟩, fun pr => ?_⟩
  simp only [List.mem_filter, List.mem_filterMap, Bool.and_eq_true, Bool.or_eq_true,
    List.isEmpty_iff, List.contains_iff_mem]
  constructor
  · rintro ⟨⟨x, hx, hjoin⟩, hmatch, hlife, hopen⟩
    obtain ⟨p, -, r, hr, -, -, rfl⟩ := joinRow_eq_some_mem.mp hjoin
    exact ⟨x, hx, hjoin, hmatch, hopen, hlife⟩
  · rintro ⟨x, hx, hjoin, hmatch, hopen, hlife⟩
    obtain ⟨p, -, r, hr, -, -, rfl⟩ := joinRow_eq_some_mem.mp hjoin
    exact ⟨⟨x, hx, hjoin⟩, hmatch, hlife, hopen⟩

theorem listPackageRevisions_ok (h : Healthy repo opened db) (lifecycles : List Lifecycle) :
    ∃ prs, listPackageRevisions opened repo.repoKey lifecycles db = (.ok prs, db) ∧
      ∀ pr, pr ∈ prs ↔ ∃ x ∈ db.pkgRevs, joinRow db x = some pr ∧
        pr.pkgRevKey.pkgKey.repoKey = repo.repoKey ∧
        (lifecycles = [] ∨ x.lifecycle ∈ lifecycles) := by
  obtain ⟨prs, hlist, hmem⟩ := mem_listPackageRevisions opened db repo.repoKey
    lifecycles
  refine ⟨prs, hlist, fun pr => (hmem pr).trans ⟨?_, ?_⟩⟩
  · rintro ⟨x, hx, hjoin, hmatch, -, hlife⟩
    obtain ⟨p, -, r, hr, -, -, rfl⟩ := joinRow_eq_some_mem.mp hjoin
    exact ⟨x, hx, hjoin, h.repoKey_of_matches hr hmatch, hlife⟩
  · rintro ⟨x, hx, hjoin, hrepo, hlife⟩
    rw [hrepo]
    exact ⟨x, hx, hjoin, repo.repoKey.matches_self, h.isOpen, hlife⟩

theorem inScope_iff {x : PkgRevRow} : ((if repo.pushDraftsToGit then []
      else [Lifecycle.published, .deletionProposed]) = [] ∨
      x.lifecycle ∈ (if repo.pushDraftsToGit then []
        else [Lifecycle.published, .deletionProposed])) ↔ InScope repo x := by
  unfold InScope
  cases repo.pushDraftsToGit with
  | true => simp
  | false => simp only [Bool.false_eq_true, if_false, mem_publishedLifecycles]; simp

/-- The map has the keys of the rows in scope, and shows them. -/
structure CachedMap (repo : DbRepository) (db : Database) (cached : PRMap DbPackageRevision) :
    Prop where
  shown : ∀ k ∈ cached, ∃ x, CachedAs repo db cached k x ∧ InScope repo x
  mem : ∀ x ∈ db.pkgRevs, ∀ k, rowKey db x = some k → k.pkgKey.repoKey = repo.repoKey →
    InScope repo x → k ∈ cached

theorem getCachedPRMap_ok (h : Healthy repo opened db) :
    ∃ cached, getCachedPRMap opened repo db = (.ok cached, db) ∧ CachedMap repo db cached := by
  obtain ⟨prs, hlist, hmem⟩ := listPackageRevisions_ok h
    (if repo.pushDraftsToGit then [] else [.published, .deletionProposed])
  have hscope : ∀ x : PkgRevRow, _ ↔ InScope repo x := fun _ => inScope_iff
  refine ⟨prSlice2Map (·.pkgRevKey) prs, bind_eq_ok.mpr ⟨prs, db, hlist, rfl⟩,
    fun k hk => ?_, fun x hx k hk hrepo hin => ?_⟩
  · obtain ⟨pr, hlook⟩ := Option.isSome_iff_exists.mp (AList.lookup_isSome.mpr hk)
    obtain ⟨hpr, rfl⟩ := prSlice2Map_lookup hlook
    obtain ⟨x, hx, hjoin, hrepo, hlife⟩ := (hmem pr).mp hpr
    refine ⟨x, ⟨hx, ?_, hrepo, pr, hlook, ?_⟩, (hscope x).mp hlife⟩
    · rw [rowKey, hjoin]
      rfl
    · obtain ⟨p, -, r, -, -, -, rfl⟩ := joinRow_eq_some_mem.mp hjoin
      exact ⟨rfl, rfl, rfl⟩
  · obtain ⟨pr, hjoin, hprk⟩ := Option.map_eq_some_iff.mp hk
    refine mem_prSlice2Map.mpr ⟨pr, (hmem pr).mpr ⟨x, hx, hjoin, ?_, (hscope x).mpr hin⟩, hprk⟩
    rw [hprk]
    exact hrepo

end Cached

/-! The condition -/

/-- The row is cached only, and sync removes it. -/
def SyncRemoves (repo : DbRepository) (db : Database) (external : PRMap ExtPackageRevision)
    (x : PkgRevRow) : Prop :=
  ∃ k, rowKey db x = some k ∧ k.pkgKey.repoKey = repo.repoKey ∧ k ∉ external ∧
    InScope repo x ∧ removable x

/-- What sync needs of the tables and of the listing. -/
structure SyncReady (repo : DbRepository) (opened : RepositoryKey → Bool) (db : Database)
    (external : PRMap ExtPackageRevision) : Prop where
  healthy : Healthy repo opened db
  /-- Every entry of the listing can be cached, or is published without a revision. -/
  listing : ∀ k ∈ external, Skips external k ∨ ∃ l, Caches repo external k l
  /-- Drafts are listed only if drafts are pushed. -/
  drafts : repo.pushDraftsToGit = false → ∀ k l, Caches repo external k l → lifecycleIsPublished l
  /-- No two of them share a name, or a number in one package. -/
  apart : ∀ k k' l l', k ≠ k' → Caches repo external k l → Caches repo external k' l' → Apart k k'
  /-- A stored package of the same name is the same package. -/
  package : ∀ k l, Caches repo external k l → ∀ p ∈ db.packages, p.key = pkgDbKey k.pkgKey →
    p.repoName = repo.repoKey.name ∧ p.path = k.pkgKey.path
  /-- A stored row of the same name is the same package revision, is removed, or is a
      proposed draft of it. -/
  name : ∀ k l, Caches repo external k l → ∀ x ∈ db.pkgRevs, x.key = dbKey k →
    rowKey db x = some k ∨ SyncRemoves repo db external x ∨
      x.lifecycle = .proposed ∧ x.packageName = k.pkgKey.k8sName ∧ 0 < k.revision
  /-- The package of a row that is removed is found. -/
  found : ∀ x ∈ db.pkgRevs, SyncRemoves repo db external x → ∀ k, rowKey db x = some k →
    FindsOne repo db k.pkgKey

/-- The external package revisions that should be cached as published. -/
def ExternalPublished (external : PRMap ExtPackageRevision) (k : PackageRevisionKey) : Prop :=
  ∃ e spec, external.lookup k = some e ∧ e.getPackageRevision = .ok spec ∧
    lifecycleIsPublished spec.lifecycle ∧ k.revision ≠ 0

/-- The keys of the cached published package revisions. -/
def publishedKeys (repo : DbRepository) (opened : RepositoryKey → Bool) (db : Database) :
    List PackageRevisionKey :=
  match (listPackageRevisions opened repo.repoKey [.published, .deletionProposed] db).1 with
  | .ok prs => prs.map (·.pkgRevKey)
  | .error _ => []

variable {k : PackageRevisionKey}

theorem mem_publishedKeys {repo : DbRepository} {opened : RepositoryKey → Bool} {db : Database}
    (h : Healthy repo opened db) :
    k ∈ publishedKeys repo opened db ↔ ∃ x ∈ db.pkgRevs, rowKey db x = some k ∧
      k.pkgKey.repoKey = repo.repoKey ∧ lifecycleIsPublished x.lifecycle := by
  obtain ⟨prs, hlist, hmem⟩ := listPackageRevisions_ok h [.published, .deletionProposed]
  simp only [publishedKeys, hlist, List.mem_map, hmem, mem_publishedLifecycles]
  constructor
  · rintro ⟨pr, ⟨x, hx, hjoin, hrepo, hlife⟩, rfl⟩
    exact ⟨x, hx, by rw [rowKey, hjoin]; rfl, hrepo, hlife.resolve_left (by simp)⟩
  · rintro ⟨x, hx, hk, hrepo, hpub⟩
    obtain ⟨pr, hjoin, rfl⟩ := Option.map_eq_some_iff.mp hk
    exact ⟨pr, ⟨x, hx, hjoin, hrepo, .inr hpub⟩, rfl⟩

/-! The two halves -/

section Halves

variable {repo : DbRepository} {opened : RepositoryKey → Bool} {db db₁ db₂ : Database}
  {external : PRMap ExtPackageRevision} {cached : PRMap DbPackageRevision}
  {x : PkgRevRow} {k : PackageRevisionKey}

theorem rowKey_revision (h : rowKey db x = some k) : k.revision = x.revision := by
  obtain ⟨_, _, _, _, -, -, rfl⟩ := rowKey_eq_some.mp h
  rfl

variable {l : Lifecycle}

theorem Caches.ofRepo (h : Caches repo external k l) : k.pkgKey.repoKey = repo.repoKey := by
  obtain ⟨e, _, _, -, rfl, he, -, -⟩ := h
  exact he.ofRepo

theorem Caches.mem (h : Caches repo external k l) : k ∈ external := by
  obtain ⟨e, _, _, hlook, -⟩ := h
  exact AList.lookup_isSome.mp (by rw [hlook]; rfl)

theorem Caches.published_iff (h : Caches repo external k l) :
    lifecycleIsPublished l ↔ k.revision ≠ 0 := by
  obtain ⟨e, _, _, -, rfl, -, hcache, rfl⟩ := h
  exact hcache

theorem Skips.revision (h : Skips external k) : k.revision = 0 := by
  obtain ⟨e, _, _, -, rfl, -, -, hzero, -⟩ := h
  exact hzero

theorem SyncReady.caches_of_revision (h : SyncReady repo opened db external) (hk : k ∈ external)
    (hrev : k.revision ≠ 0) : ∃ l, Caches repo external k l ∧ lifecycleIsPublished l := by
  obtain hskip | ⟨l, hc⟩ := h.listing k hk
  · exact absurd hskip.revision hrev
  · exact ⟨l, hc, hc.published_iff.mpr hrev⟩

theorem SyncReady.externalPublished_iff (h : SyncReady repo opened db external) :
    ExternalPublished external k ↔ ∃ l, Caches repo external k l ∧ lifecycleIsPublished l := by
  constructor
  · intro ⟨e, spec, hlook, _, _, hrev⟩
    exact h.caches_of_revision (AList.lookup_isSome.mp (by rw [hlook]; rfl)) hrev
  · intro ⟨l, hc, hpub⟩
    have hrev := hc.published_iff.mp hpub
    obtain ⟨e, spec, _, hlook, -, he, -, rfl⟩ := hc
    exact ⟨e, spec, hlook, he.getPackageRevision, hpub, hrev⟩

theorem SyncReady.inScope (h : SyncReady repo opened db external)
    (hc : Caches repo external k l) (hrow : RowOk x) (hk : rowKey db₂ x = some k) :
    InScope repo x := by
  cases hpush : repo.pushDraftsToGit with
  | true => exact .inl hpush
  | false =>
    refine .inr (hrow.published_iff.mpr ?_)
    rw [← rowKey_revision hk]
    exact hc.published_iff.mp (h.drafts hpush k l hc)

theorem syncRemoves_or_mem (hk : rowKey db x = some k) (hrepo : k.pkgKey.repoKey = repo.repoKey)
    (hpub : lifecycleIsPublished x.lifecycle) : SyncRemoves repo db external x ∨ k ∈ external := by
  by_cases hext : k ∈ external
  · exact .inr hext
  · refine .inl ⟨k, hk, hrepo, hext, .inr hpub, ?_⟩
    unfold removable isDraftOrProposed
    cases hl : x.lifecycle <;> simp_all [lifecycleIsPublished]

/-- After the first half the rows that sync removes are gone and the others are as they
    were. -/
structure FirstHalf (repo : DbRepository) (opened : RepositoryKey → Bool) (db : Database)
    (external : PRMap ExtPackageRevision) (db₁ : Database) : Prop where
  healthy : Healthy repo opened db₁
  repositories : db₁.repositories = db.repositories
  packages : ∀ p ∈ db₁.packages, p ∈ db.packages
  gone : ∀ x ∈ db.pkgRevs, SyncRemoves repo db external x → rowAt db₁.pkgRevs x.key = none
  kept : ∀ x ∈ db.pkgRevs, ¬ SyncRemoves repo db external x →
    rowAt db₁.pkgRevs x.key = some x.content
  noneNew : ∀ n, rowAt db.pkgRevs n = none → rowAt db₁.pkgRevs n = none

theorem handleInCachedOnly_firstHalf (left right : MapOrder) (h : Healthy repo opened db)
    (hfound : ∀ x ∈ db.pkgRevs, SyncRemoves repo db external x → ∀ k, rowKey db x = some k →
      FindsOne repo db k.pkgKey) (hcached : CachedMap repo db cached) : ∃ prs db₁, handleInCachedOnly repo opened cached
        (comparePRMaps left right cached external).leftOnly db = (.ok prs, db₁) ∧
      FirstHalf repo opened db external db₁ := by
  have hmem := mem_leftOnly left right cached external
  have hnodup : (comparePRMaps left right cached external).leftOnly.Nodup :=
    ((left.perm cached.keys).nodup_iff.mpr cached.keys_nodup).filter _
  obtain ⟨prs, db₁, hloop, hhealthy, hrepos, hpkgs, hrows⟩ :=
    handleInCachedOnly_ok cached _ h hnodup (fun k hk => by
      obtain ⟨hkc, hke⟩ := (hmem k).mp hk
      obtain ⟨x, hx, hscope⟩ := hcached.shown k hkc
      refine ⟨x, hx, fun hrem => ?_⟩
      exact hfound x hx.1 ⟨k, hx.2.1, hx.2.2.1, hke, hscope, hrem⟩ k hx.2.1)
  refine ⟨prs, db₁, hloop, hhealthy, hrepos, hpkgs, fun x hx hremoves => ?_,
    fun x hx hkeep => ?_, fun n hn => by rw [hrows, hn]; rfl⟩
  · obtain ⟨k, hk, hrepo, hext, hscope, hrem⟩ := hremoves
    rw [hrows, rowAt_of_mem hx]
    refine Option.filter_eq_none_iff.mpr fun y hy => ?_
    cases hy
    have hany : ((comparePRMaps left right cached external).leftOnly.any
        fun k => decide (dbKey k = x.key)) = true :=
      List.any_eq_true.mpr ⟨k, (hmem k).mpr ⟨hcached.mem x hx k hk hrepo hscope, hext⟩,
        decide_eq_true (h.readBack x hx k hk hrepo).1⟩
    have hrem' : removable x.content = true := hrem
    simp [hany, hrem']
  · rw [hrows, rowAt_of_mem hx]
    refine Option.filter_eq_some_iff.mpr ⟨rfl, ?_⟩
    rw [Bool.not_eq_true', Bool.and_eq_false_iff]
    by_cases hrem : removable x = true
    · refine .inr (Bool.eq_false_iff.mpr fun hany => hkeep ?_)
      obtain ⟨k, hk, hkx⟩ := List.any_eq_true.mp hany
      obtain ⟨hkc, hke⟩ := (hmem k).mp hk
      obtain ⟨z, hz, hscope⟩ := hcached.shown k hkc
      have hzx : z = x := Table.eq_of_key_eq hz.1 hx
        ((h.readBack z hz.1 k hz.2.1 hz.2.2.1).1.symm.trans (of_decide_eq_true hkx))
      rw [hzx] at hz hscope
      exact ⟨k, hz.2.1, hz.2.2.1, hke, hscope, hrem⟩
    · exact .inl (Bool.eq_false_iff.mpr hrem)

/-- A row that is left after the first half. -/
theorem FirstHalf.row (h₁ : FirstHalf repo opened db external db₁) (hx : x ∈ db₁.pkgRevs) :
    ∃ y ∈ db.pkgRevs, y.content = x.content ∧ ¬ SyncRemoves repo db external y ∧
      ∃ k, rowKey db y = some k ∧ rowKey db₁ x = some k := by
  have hrow := rowAt_of_mem hx
  cases hold : rowAt db.pkgRevs x.key with
  | none =>
    rw [h₁.noneNew _ hold] at hrow
    cases hrow
  | some z =>
    obtain ⟨y, hy, hyk, -⟩ := rowAt_eq_some.mp hold
    have hkeep : ¬ SyncRemoves repo db external y := by
      intro hremoves
      rw [← hyk, h₁.gone y hy hremoves] at hrow
      cases hrow
    have hyx : y.content = x.content := by
      have := h₁.kept y hy hkeep
      rw [hyk, hrow] at this
      exact (Option.some.inj this).symm
    obtain ⟨k, hk⟩ := h₁.healthy.exists_rowKey hx
    refine ⟨y, hy, hyx, hkeep, k, ?_, hk⟩
    rw [rowKey_of_content hyx]
    exact rowKey_mono (.of_eq h₁.repositories.symm) (fun p hp _ => h₁.packages p hp) hk

/-- A package revision that is cached and not in the cached map finds room. -/
theorem SyncReady.saveReady (h : SyncReady repo opened db external)
    (h₁ : FirstHalf repo opened db external db₁)
    (hcached : CachedMap repo db cached) (hc : Caches repo external k l) (hk : k ∉ cached) :
    SaveReady repo db₁ k := by
  refine ⟨fun p hp => h.package k l hc p (h₁.packages p hp), fun x hx hxk => ?_,
    fun hpos x hx hxpkg hxrev => ?_⟩
  · obtain ⟨y, hy, hyx, hkeep, -⟩ := h₁.row hx
    obtain hown | hremoves | hprop := h.name k l hc y hy ((key_of_content hyx).trans hxk)
    · -- its own row would be in the cached map
      exact absurd (hcached.mem y hy k hown hc.ofRepo (h.inScope hc (h.healthy.rows y hy) hown)) hk
    · exact absurd hremoves hkeep
    · rw [lifecycle_of_content hyx, packageName_of_content hyx] at hprop
      exact hprop
  · -- a row of the package with the number is listed, under another key
    obtain ⟨y, hy, hyx, hkeep, k', hk', -⟩ := h₁.row hx
    have hypkg : (y.namesp, y.packageName) = pkgDbKey k.pkgKey :=
      (package_of_content hyx).trans hxpkg
    have hyrev : y.revision = k.revision := (revision_of_content hyx).trans hxrev
    have hrepo' : k'.pkgKey.repoKey = repo.repoKey := by
      obtain ⟨p, hp, r, hr, hpk, hrk, rfl⟩ := rowKey_eq_some.mp hk'
      have hpr := (h.package k l hc p hp (hpk.trans hypkg)).1
      obtain ⟨r₀, hr₀, heq⟩ := h.healthy.stored
      have hpns : p.namesp = repo.repoKey.namesp := by
        rw [← hc.ofRepo]
        exact congrArg Prod.fst (hpk.trans hypkg)
      have hrr : r = r₀ := by
        apply Table.eq_of_key_eq hr hr₀
        rw [hrk, hpns, hpr, ← heq]
        rfl
      show repoKeyOf r = repo.repoKey
      rw [hrr, heq]
    have hpub : lifecycleIsPublished y.lifecycle :=
      (h.healthy.rows y hy).published_iff.mpr (by omega)
    have hmem : k' ∈ external :=
      (syncRemoves_or_mem hk' hrepo' hpub).resolve_left hkeep
    have hrev' := rowKey_revision hk'
    obtain ⟨l', hc', -⟩ := h.caches_of_revision hmem (by omega)
    have hne : k' ≠ k := by
      intro heq
      exact hk (heq ▸ hcached.mem y hy k' hk' hrepo' (.inr hpub))
    have hback := (h.healthy.readBack y hy k' hk' hrepo').2
    exact (h.apart k' k l' l hne hc' hc).number (hback.trans hypkg) hpos (by omega)

structure SecondHalf (repo : DbRepository) (opened : RepositoryKey → Bool) (db : Database)
    (external : PRMap ExtPackageRevision) (db₂ : Database) : Prop where
  healthy : Healthy repo opened db₂
  /-- A row is that of a package revision that is cached, or was there and is not one that
      sync removes. -/
  row : ∀ x ∈ db₂.pkgRevs, ∃ k, rowKey db₂ x = some k ∧
    ((∃ l, Caches repo external k l ∧ x.lifecycle = l) ∨
      ∃ y ∈ db.pkgRevs, y.content = x.content ∧ rowKey db y = some k ∧
        ¬ SyncRemoves repo db external y)
  /-- Every package revision that is cached has a row. -/
  cached : ∀ k l, Caches repo external k l → ∃ x ∈ db₂.pkgRevs, rowKey db₂ x = some k

theorem cacheExternalPRs_secondHalf (left right : MapOrder) (h : SyncReady repo opened db external)
    (h₁ : FirstHalf repo opened db external db₁)
    (hcached : CachedMap repo db cached) (now : PackageRevisionKey → Nat) :
    ∃ db₂, cacheExternalPRs repo opened now external
        (comparePRMaps left right cached external).rightOnly db₁ = (.ok (), db₂) ∧
      SecondHalf repo opened db external db₂ := by
  have hmem := mem_rightOnly left right cached external
  have hnodup : (comparePRMaps left right cached external).rightOnly.Nodup :=
    ((right.perm external.keys).nodup_iff.mpr external.keys_nodup).filter _
  obtain ⟨db₂, hloop, hall⟩ := cacheExternalPRs_addsAll external now
    (comparePRMaps left right cached external).rightOnly h₁.healthy hnodup
    (fun k hk => by
      obtain ⟨hke, hkc⟩ := (hmem k).mp hk
      obtain hskip | ⟨l, hc⟩ := h.listing k hke
      · exact .inl hskip
      · exact .inr ⟨l, hc, h.saveReady h₁ hcached hc hkc⟩)
    (fun k _ k' _ hne l l' hc hc' => h.apart k k' l l' hne hc hc')
  refine ⟨db₂, hloop, hall.healthy, fun x hx => ?_, fun k l hc => ?_⟩
  · by_cases hnew : ∃ k ∈ (comparePRMaps left right cached external).rightOnly, ∃ l,
        Caches repo external k l ∧ dbKey k = x.key
    · obtain ⟨k, hk, l, hc, hkx⟩ := hnew
      obtain ⟨y, hy, hlife, -, hkey⟩ := hall.cached k hk l hc
      rw [hkx, rowAt_of_mem hx] at hy
      have hyx : x.content = y := Option.some.inj hy
      refine ⟨k, ?_, .inl ⟨l, hc, ?_⟩⟩
      · rw [← rowKey_content, hyx, hkey]
      · rw [← hlife, ← hyx]
        rfl
    · have hother : rowAt db₂.pkgRevs x.key = rowAt db₁.pkgRevs x.key :=
        hall.others x.key fun k hk l hc hkx => hnew ⟨k, hk, l, hc, hkx⟩
      rw [rowAt_of_mem hx] at hother
      obtain ⟨x₁, hx₁, -, hx₁x⟩ := rowAt_eq_some.mp hother.symm
      obtain ⟨y, hy, hyx₁, hkeep, k, hky, hkx₁⟩ := h₁.row hx₁
      refine ⟨k, ?_, .inr ⟨y, hy, hyx₁.trans hx₁x, hky, hkeep⟩⟩
      rw [← rowKey_of_content hx₁x]
      exact rowKey_mono hall.repositories (fun p hp _ => hall.packages p hp) hkx₁
  · by_cases hkc : k ∈ cached
    · -- its row was in the cached map and is still there
      obtain ⟨x, ⟨hx, hxk, hrepo, -⟩, -⟩ := hcached.shown k hkc
      have hname := (h.healthy.readBack x hx k hxk hrepo).1
      have hkeep : ¬ SyncRemoves repo db external x := by
        intro ⟨k', hk', _, hext, _⟩
        cases hk'.symm.trans hxk
        exact hext hc.mem
      have hother : rowAt db₂.pkgRevs x.key = rowAt db₁.pkgRevs x.key := by
        apply hall.others
        intro k' hk' l' hc' heq
        have hne : k' ≠ k := fun heq' => ((hmem k').mp hk').2 (heq' ▸ hkc)
        exact (h.apart k' k l' l hne hc' hc).name (heq.trans hname.symm)
      rw [h₁.kept x hx hkeep] at hother
      obtain ⟨x₂, hx₂, -, hx₂x⟩ := rowAt_eq_some.mp hother
      obtain ⟨x₁, hx₁, -, hx₁x⟩ := rowAt_eq_some.mp (h₁.kept x hx hkeep)
      obtain ⟨y, hy, hyx₁, -, k', hky, hkx₁⟩ := h₁.row hx₁
      refine ⟨x₂, hx₂, ?_⟩
      rw [rowKey_of_content (hyx₁.trans hx₁x), hxk] at hky
      cases hky
      rw [rowKey_of_content (hx₂x.trans hx₁x.symm)]
      exact rowKey_mono hall.repositories (fun p hp _ => hall.packages p hp) hkx₁
    · obtain ⟨y, hy, -, -, hkey⟩ := hall.cached k ((hmem k).mpr ⟨hc.mem, hkc⟩) l hc
      obtain ⟨x, hx, -, hxy⟩ := rowAt_eq_some.mp hy
      exact ⟨x, hx, by rw [← rowKey_content, hxy, hkey]⟩

/-- **The cached published revisions are then the external ones.** -/
theorem SecondHalf.mem_publishedKeys (h : SyncReady repo opened db external)
    (h₂ : SecondHalf repo opened db external db₂) :
    k ∈ publishedKeys repo opened db₂ ↔ ExternalPublished external k := by
  rw [Db.mem_publishedKeys h₂.healthy, h.externalPublished_iff]
  constructor
  · intro ⟨x, hx, hk, hrepo, hpub⟩
    obtain ⟨k', hk', hrow⟩ := h₂.row x hx
    cases hk.symm.trans hk'
    obtain ⟨l, hc, rfl⟩ | ⟨y, hy, hyx, hky, hkeep⟩ := hrow
    · exact ⟨x.lifecycle, hc, hpub⟩
    · -- a published row that is left is listed
      have hpub' : lifecycleIsPublished y.lifecycle := by rwa [lifecycle_of_content hyx]
      have hmem := (syncRemoves_or_mem hky hrepo hpub').resolve_left hkeep
      apply h.caches_of_revision hmem
      rw [rowKey_revision hk]
      exact (h₂.healthy.rows x hx).published_iff.mp hpub
  · intro ⟨l, hc, hpub⟩
    obtain ⟨x, hx, hk⟩ := h₂.cached k l hc
    refine ⟨x, hx, hk, hc.ofRepo, (h₂.healthy.rows x hx).published_iff.mpr ?_⟩
    rw [← rowKey_revision hk]
    exact hc.published_iff.mp hpub

/-! A second run -/

theorem handleInCachedOnly_idle (repo : DbRepository) (opened : RepositoryKey → Bool)
    (ks : List PackageRevisionKey)
    (hks : ∀ k ∈ ks, ∃ x, CachedAs repo db cached k x ∧ removable x = false) :
    ∃ prs, handleInCachedOnly repo opened cached ks db = (.ok prs, db) := by
  induction ks with
  | nil => exact ⟨[], rfl⟩
  | cons k ks ih =>
    obtain ⟨prs, hloop⟩ := ih fun k' hk' => hks k' (List.mem_cons_of_mem k hk')
    obtain ⟨x, ⟨-, -, -, pr, hlook, hshows⟩, hkeep⟩ := hks k List.mem_cons_self
    have hguard : (isDraftOrProposed pr.lifecycle && !hasBeenPushedToGit pr) = true := by
      rw [hshows.2.1, hshows.2.2]
      rwa [removable, Bool.not_eq_false'] at hkeep
    refine ⟨if repo.pushDraftsToGit then pr :: prs else prs, ?_⟩
    unfold handleInCachedOnly
    simp only [hlook]
    rw [if_pos hguard]
    exact bind_eq_ok.mpr ⟨prs, db, hloop, rfl⟩

theorem cacheExternalPRs_idle (now : PackageRevisionKey → Nat) (ks : List PackageRevisionKey)
    (hks : ∀ k ∈ ks, Skips external k) :
    cacheExternalPRs repo opened now external ks db = (.ok (), db) := by
  induction ks with
  | nil => rfl
  | cons k ks ih =>
    have hskip := hks k List.mem_cons_self
    obtain ⟨e, hlook⟩ : ∃ e, external.lookup k = some e := by
      obtain ⟨e, _, _, hlook, -⟩ := hskip
      exact ⟨e, hlook⟩
    unfold cacheExternalPRs
    simp only [hlook]
    refine bind_eq_ok.mpr ⟨(), db, cacheExternalPR_skips hskip hlook _ db, ?_⟩
    exact ih fun k' hk' => hks k' (List.mem_cons_of_mem k hk')

theorem SecondHalf.leftOnly_idle (h₂ : SecondHalf repo opened db external db₂)
    (hcached : CachedMap repo db₂ cached) (hk : k ∈ cached) (hke : k ∉ external) :
    ∃ x, CachedAs repo db₂ cached k x ∧ removable x = false := by
  obtain ⟨x, hx, hscope⟩ := hcached.shown k hk
  refine ⟨x, hx, Bool.eq_false_iff.mpr fun hrem => ?_⟩
  obtain ⟨k', hk', hrow⟩ := h₂.row x hx.1
  cases hx.2.1.symm.trans hk'
  obtain ⟨l, hc, -⟩ | ⟨y, -, hyx, hky, hkeep⟩ := hrow
  · exact hke hc.mem
  · refine hkeep ⟨k, hky, hx.2.2.1, hke, ?_, ?_⟩
    · rwa [InScope, lifecycle_of_content hyx]
    · rwa [removable_of_content hyx]

theorem SecondHalf.rightOnly_idle (h : SyncReady repo opened db external)
    (h₂ : SecondHalf repo opened db external db₂)
    (hcached : CachedMap repo db₂ cached) (hk : k ∉ cached) (hke : k ∈ external) :
    Skips external k := by
  obtain hskip | ⟨l, hc⟩ := h.listing k hke
  · exact hskip
  · -- a package revision that was cached is in the cached map
    obtain ⟨x, hx, hxk⟩ := h₂.cached k l hc
    exact absurd (hcached.mem x hx k hxk hc.ofRepo (h.inScope hc (h₂.healthy.rows x hx) hxk)) hk

end Halves

/-! Convergence -/

section Sync

variable {repo : DbRepository} {opened : RepositoryKey → Bool} {ext : External} {db : Database}
  {s : RepositorySync} {prs : List ExtPackageRevision}

/-- No call to git fails, and what sync remembers under the current version is the
    current listing. -/
structure Lists (ext : External) (s : RepositorySync) (prs : List ExtPackageRevision) : Prop where
  listing : ext.listing = .ok prs
  version : ∃ v, ext.version = .ok v ∧
    (s.lastExternalRepoVersion = v → s.lastExternalPRMap = prSlice2Map (·.key) prs)

/-- Under the version that sync remembers, its map is taken and nothing changes. -/
theorem getExternalPRMap_current (h : ext.version = .ok s.lastExternalRepoVersion) (db : Database) :
    getExternalPRMap ext (db, s) = (.ok s.lastExternalPRMap, (db, s)) := by
  refine bind_eq_ok.mpr ⟨_, _, query_eq_ok.mpr ⟨h, rfl⟩, ?_⟩
  rw [this_bind, if_pos rfl]
  rfl

/-- The external map is that of the listing, and it is remembered. -/
theorem Lists.getExternalPRMap (h : Lists ext s prs) (db : Database) :
    ∃ s', Db.getExternalPRMap ext (db, s) = (.ok (prSlice2Map (·.key) prs), (db, s')) ∧
      ∀ db', Db.getExternalPRMap ext (db', s') = (.ok (prSlice2Map (·.key) prs), (db', s')) := by
  obtain ⟨hlisting, v, hver, hmap⟩ := h
  by_cases hv : s.lastExternalRepoVersion = v
  · rw [← hmap hv]
    have hsame := getExternalPRMap_current (hv ▸ hver)
    exact ⟨s, hsame db, hsame⟩
  · refine ⟨⟨v, prSlice2Map (·.key) prs⟩, ?_, getExternalPRMap_current hver⟩
    refine bind_eq_ok.mpr ⟨v, _, query_eq_ok.mpr ⟨hver, rfl⟩, ?_⟩
    rw [this_bind, if_neg hv]
    exact bind_eq_ok.mpr ⟨prs, _, query_eq_ok.mpr ⟨hlisting, rfl⟩, rfl⟩

theorem sync_of_parts {left right : MapOrder} {now : PackageRevisionKey → Nat} {s' : RepositorySync}
    {cached : PRMap DbPackageRevision} {external : PRMap ExtPackageRevision}
    {db₁ db₂ : Database} {pushed : List DbPackageRevision}
    (hcached : getCachedPRMap opened repo db = (.ok cached, db))
    (hexternal : getExternalPRMap ext (db, s) = (.ok external, (db, s')))
    (hleft : handleInCachedOnly repo opened cached
      (comparePRMaps left right cached external).leftOnly db = (.ok pushed, db₁))
    (hright : cacheExternalPRs repo opened now external
      (comparePRMaps left right cached external).rightOnly db₁ = (.ok (), db₂)) :
    ∃ prs, sync repo opened left right now ext (db, s) = (.ok prs, (db₂, s')) := by
  have hfirst : syncCachedOnly repo opened left right ext (db, s) =
      (.ok (cached, external, comparePRMaps left right cached external, pushed), (db₁, s')) := by
    refine bind_eq_ok.mpr ⟨cached, (db, s), onFst_eq_ok.mpr ⟨hcached, rfl⟩, ?_⟩
    refine bind_eq_ok.mpr ⟨external, (db, s'), hexternal, ?_⟩
    exact bind_eq_ok.mpr ⟨pushed, (db₁, s'), onFst_eq_ok.mpr ⟨hleft, rfl⟩, rfl⟩
  refine ⟨if repo.pushDraftsToGit then pushed ++ handleInBoth cached
    (comparePRMaps left right cached external).both else pushed, ?_⟩
  refine bind_eq_ok.mpr ⟨_, (db₁, s'), hfirst, ?_⟩
  exact bind_eq_ok.mpr ⟨(), (db₂, s'), onFst_eq_ok.mpr ⟨hright, rfl⟩, rfl⟩

/-- **Sync converges.** When the tables and the listing are ready, a run succeeds, the
    cached published revisions are then the external ones that have a revision, and a
    second run leaves the database and what sync remembers as they are. -/
theorem sync_converges (left right : MapOrder) (now : PackageRevisionKey → Nat)
    (hlists : Lists ext s prs) (h : SyncReady repo opened db (prSlice2Map (·.key) prs)) :
    ∃ pushed db' s', sync repo opened left right now ext (db, s) = (.ok pushed, (db', s')) ∧
      (∀ k, k ∈ publishedKeys repo opened db' ↔ ExternalPublished (prSlice2Map (·.key) prs) k) ∧
      ∀ left' right' now', ∃ pushed',
        sync repo opened left' right' now' ext (db', s') = (.ok pushed', (db', s')) := by
  obtain ⟨s', hext, hagain⟩ := hlists.getExternalPRMap db
  obtain ⟨cached, hmap, hcached⟩ := getCachedPRMap_ok h.healthy
  obtain ⟨pushed₁, db₁, hleft, h₁⟩ := handleInCachedOnly_firstHalf left right h.healthy h.found hcached
  obtain ⟨db₂, hright, h₂⟩ := cacheExternalPRs_secondHalf left right h h₁ hcached now
  obtain ⟨pushed, hrun⟩ := sync_of_parts hmap hext hleft hright
  refine ⟨pushed, db₂, s', hrun, fun k => h₂.mem_publishedKeys h, fun left' right' now' => ?_⟩
  -- the second run reads the tables that the first one left
  obtain ⟨cached', hmap', hcached'⟩ := getCachedPRMap_ok h₂.healthy
  obtain ⟨pushed', hidle⟩ := handleInCachedOnly_idle repo opened
    (comparePRMaps left' right' cached' (prSlice2Map (·.key) prs)).leftOnly fun k hk => by
      obtain ⟨hkc, hke⟩ := (mem_leftOnly left' right' cached' _ k).mp hk
      exact h₂.leftOnly_idle hcached' hkc hke
  refine sync_of_parts hmap' (hagain db₂) hidle (cacheExternalPRs_idle now' _ fun k hk => ?_)
  obtain ⟨hke, hkc⟩ := (mem_rightOnly left' right' cached' _ k).mp hk
  exact h₂.rightOnly_idle h hcached' hkc hke

end Sync

/-! A package that has moved from the root into the directory `a` -/

def goneFromGit : DbPackageRevision where
  pkgRevKey := keyIn [] "pkg" 1 "v1"
  lifecycle := .published

def nowInGit : ExtPackageRevision :=
  inGit (keyIn "a" "pkg" 1 "v1") .published

theorem lists_nowInGit : Lists (gitOf [nowInGit]) {} [nowInGit] :=
  ⟨rfl, "1", rfl, fun h => absurd h (by decide)⟩

theorem lookup_nowInGit {e : ExtPackageRevision}
    (h : (prSlice2Map (·.key) [nowInGit]).lookup k = some e) : e = nowInGit ∧ k = nowInGit.key := by
  obtain ⟨he, hk⟩ := prSlice2Map_lookup h
  rw [List.mem_singleton] at he
  rw [← hk, he]
  exact ⟨rfl, rfl⟩

theorem rows_goneFromGit {x : PkgRevRow} (hx : x ∈ (storeOf [goneFromGit]).pkgRevs) :
    x = { goneFromGit.row with latest := true } := by
  revert x
  decide

theorem packages_goneFromGit {p : PkgRow} (hp : p ∈ (storeOf [goneFromGit]).packages) :
    p.key = pkgDbKey goneFromGit.pkgRevKey.pkgKey := by
  revert p
  decide

theorem rowKey_goneFromGit {x : PkgRevRow}
    (hx : x ∈ (storeOf [goneFromGit]).pkgRevs) (hk : rowKey (storeOf [goneFromGit]) x = some k) :
    k = goneFromGit.pkgRevKey := by
  rw [rows_goneFromGit hx] at hk
  have : rowKey (storeOf [goneFromGit]) { goneFromGit.row with latest := true } =
      some goneFromGit.pkgRevKey := by decide
  exact Option.some.inj (hk.symm.trans this)

theorem healthy_goneFromGit : Healthy blueprints (fun _ => true) (storeOf [goneFromGit]) where
  isOpen := rfl
  stored := by decide
  named := by decide
  packages := by decide
  repositories := by decide
  rows := by decide
  readBack := by
    intro x hx k hk _
    rw [rowKey_goneFromGit hx hk, rows_goneFromGit hx]
    decide

theorem syncReady_goneFromGit : SyncReady blueprints (fun _ => true) (storeOf [goneFromGit])
    (prSlice2Map (·.key) [nowInGit]) := by
  have hcaches : ∀ {k l}, Caches blueprints (prSlice2Map (·.key) [nowInGit]) k l →
      k = nowInGit.key ∧ l = .published := by
    intro k l hc
    obtain ⟨e, spec, res, hlook, -, he, -, rfl⟩ := hc
    obtain ⟨rfl, hk⟩ := lookup_nowInGit hlook
    cases he.getPackageRevision
    exact ⟨hk, rfl⟩
  refine ⟨healthy_goneFromGit, fun k hk => ?_, fun _ k l hc => ?_, fun k k' l l' hne hc hc' => ?_,
    fun k l hc p hp hpk => ?_, fun k l hc x hx hxk => ?_, fun x hx _ k hk p hp _ _ _ _ => ?_⟩
  · obtain ⟨e, he⟩ := Option.isSome_iff_exists.mp (AList.lookup_isSome.mpr hk)
    obtain ⟨rfl, rfl⟩ := lookup_nowInGit he
    refine .inr ⟨.published, nowInGit, { lifecycle := .published },
      [("Kptfile", "of git")], he, rfl, ⟨rfl, rfl, ?_, rfl, ?_, ?_, ?_⟩, ?_, rfl⟩
    iterate 4 decide
    exact iff_of_true rfl (by decide)
  · rw [(hcaches hc).2]
    rfl
  · rw [(hcaches hc).1, (hcaches hc').1] at hne
    exact absurd rfl hne
  · rw [packages_goneFromGit hp, (hcaches hc).1] at hpk
    exact absurd hpk (by decide)
  · rw [rows_goneFromGit hx, (hcaches hc).1] at hxk
    exact absurd hxk (by decide)
  · rw [rowKey_goneFromGit hx hk]
    exact packages_goneFromGit hp

/-- The cached revision of the root is removed and that of the directory is cached. -/
theorem sync_converges_moved_package :
    ∃ pushed db' s', sync blueprints (fun _ => true) inOrder inOrder (fun _ => 1)
        (gitOf [nowInGit]) (storeOf [goneFromGit], {}) = (.ok pushed, (db', s')) ∧
      (∀ k, k ∈ publishedKeys blueprints (fun _ => true) db' ↔
        ExternalPublished (prSlice2Map (·.key) [nowInGit]) k) ∧ ∀ left' right' now', ∃ pushed',
        sync blueprints (fun _ => true) left' right' now' (gitOf [nowInGit]) (db', s') =
          (.ok pushed', (db', s')) :=
  sync_converges inOrder inOrder (fun _ => 1) lists_nowInGit syncReady_goneFromGit

/-- The package has been copied, and the one at the root is gone from git. -/
theorem root_package_not_removed : Lists (gitOf [nowInGit]) {} [nowInGit] ∧
      (sync blueprints (fun _ => true) inOrder inOrder (fun _ => 1) (gitOf [nowInGit])
        (storeOf [goneFromGit, { goneFromGit with pkgRevKey := nowInGit.key }], {})).1 =
          .error (.packageCount 2) :=
  ⟨lists_nowInGit, by decide⟩

end Porch.Db
