import Porch.Db.Accepts
import Porch.Db.SyncFrame

/- The first half of sync when nothing else writes: it removes the rows that are cached
   only, and nothing else.

   `Healthy` is what the tables of an open repository are, together with the condition
   that a key read from the tables is the key under which it was written. The package
   look-up of `deleteCachedOnlyPR` goes by a key in which an empty path matches every
   path; `FindsOne` says that it finds the one package. -/
namespace Porch.Db

open Go Sql Function Table

/-! The key of a row -/

/-- The key that a listing gives for a row. -/
def rowKey (db : Database) (x : PkgRevRow) : Option PackageRevisionKey :=
  (joinRow db x).map (·.pkgRevKey)

variable {db db' : Database} {x y : PkgRevRow} {k : PackageRevisionKey}

theorem joinRow_eq_some_mem {q : DbPackageRevision} :
    joinRow db x = some q ↔ ∃ p ∈ db.packages, ∃ r ∈ db.repositories,
      p.key = (x.namesp, x.packageName) ∧ r.key = (p.namesp, p.repoName) ∧ q = scanRow r p x := by
  rw [joinRow_eq_some]
  simp only [lookup_eq_some]
  constructor
  · rintro ⟨p, r, hp, hr, hq⟩
    exact ⟨p, hp.1, r, hr.1, hp.2, hr.2, hq⟩
  · rintro ⟨p, hp, r, hr, hpk, hrk, hq⟩
    exact ⟨p, r, ⟨hp, hpk⟩, ⟨hr, hrk⟩, hq⟩

theorem rowKey_eq_some : rowKey db x = some k ↔ ∃ p ∈ db.packages, ∃ r ∈ db.repositories,
      p.key = (x.namesp, x.packageName) ∧ r.key = (p.namesp, p.repoName) ∧
        (scanRow r p x).pkgRevKey = k := by
  simp only [rowKey, Option.map_eq_some_iff, joinRow_eq_some_mem]
  exact ⟨fun ⟨_, ⟨p, hp, r, hr, hpk, hrk, hq⟩, hk⟩ => ⟨p, hp, r, hr, hpk, hrk, hq ▸ hk⟩,
    fun ⟨p, hp, r, hr, hpk, hrk, hk⟩ => ⟨_, ⟨p, hp, r, hr, hpk, hrk, rfl⟩, hk⟩⟩

theorem rowKey_content : rowKey db x.content = rowKey db x := by
  apply Option.ext
  intro k
  rw [rowKey_eq_some, rowKey_eq_some]
  exact Iff.rfl

theorem rowKey_of_content (h : x.content = y.content) : rowKey db x = rowKey db y := by
  rw [← rowKey_content, h, rowKey_content]

/-- The tables hold the same repositories, up to the columns that no key reads. -/
def SameRepos (db db' : Database) : Prop :=
  (∀ r ∈ db.repositories, ∃ r' ∈ db'.repositories, repoKeyOf r' = repoKeyOf r) ∧
    ∀ r' ∈ db'.repositories, ∃ r ∈ db.repositories, repoKeyOf r = repoKeyOf r'

theorem SameRepos.of_eq (h : db'.repositories = db.repositories) : SameRepos db db' := by
  rw [SameRepos, h]
  exact ⟨fun r hr => ⟨r, hr, rfl⟩, fun r hr => ⟨r, hr, rfl⟩⟩

theorem key_of_repoKeyOf {r r' : RepoRow} (h : repoKeyOf r = repoKeyOf r') : r.key = r'.key := by
  have hns : r.namesp = r'.namesp := congrArg RepositoryKey.namesp h
  have hname : r.name = r'.name := congrArg RepositoryKey.name h
  rw [RepoRow.key, RepoRow.key, hns, hname]

theorem rowKey_mono (hrepos : SameRepos db db')
    (hpkgs : ∀ p ∈ db.packages, p.key = (x.namesp, x.packageName) → p ∈ db'.packages)
    (h : rowKey db x = some k) : rowKey db' x = some k := by
  obtain ⟨p, hp, r, hr, hpk, hrk, hk⟩ := rowKey_eq_some.mp h
  obtain ⟨r', hr', heq⟩ := hrepos.1 r hr
  refine rowKey_eq_some.mpr ⟨p, hpkgs p hp hpk, r', hr', hpk, ?_, ?_⟩
  · rw [key_of_repoKeyOf heq, hrk]
  · rw [← hk]
    simp only [scanRow, pkgKeyOf, heq]

/-- The database and the Go code read the same package name. -/
theorem splitPartLast_eq (name : Str) : splitPartLast name = k8sName2PkgName name := by
  by_cases h : '.' ∈ name
  · -- everything after the last dot
    obtain ⟨a, b, rfl, hb⟩ := exists_last_of_mem h
    rw [k8sName2PkgName, (take_drop_lastIndex hb).2, splitPartLast, List.splitOn_append_cons_self,
      List.splitOn_eq_singleton hb]
    simp
  · rw [splitPartLast, List.splitOn_eq_singleton h, k8sName2PkgName, lastIndex_char_of_not_mem h]
    rfl

/-! The tables of an open repository -/

/-- Whether sync takes a stored draft as pushed. -/
def pushedRow (x : PkgRevRow) : Bool :=
  x.lastPushedDbUpdated.isSome || (x.extCommit ≠ [] && x.extCommit ≠ unpushedGitCommit)

structure Healthy (repo : DbRepository) (opened : RepositoryKey → Bool) (db : Database) : Prop where
  isOpen : opened repo.repoKey
  stored : ∃ r ∈ db.repositories, repoKeyOf r = repo.repoKey
  named : repo.repoKey.namesp ≠ [] ∧ repo.repoKey.name ≠ []
  /-- The foreign keys. -/
  packages : ∀ x ∈ db.pkgRevs, ∃ p ∈ db.packages, p.key = (x.namesp, x.packageName)
  repositories : ∀ p ∈ db.packages, ∃ r ∈ db.repositories, r.key = (p.namesp, p.repoName)
  rows : ∀ x ∈ db.pkgRevs, RowOk x
  /-- The names that a key of the repository composes are those of its row. -/
  readBack : ∀ x ∈ db.pkgRevs, ∀ k, rowKey db x = some k → k.pkgKey.repoKey = repo.repoKey →
    dbKey k = x.key ∧ pkgDbKey k.pkgKey = (x.namesp, x.packageName)

section Healthy

variable {repo : DbRepository} {opened : RepositoryKey → Bool}

theorem Healthy.exists_rowKey (h : Healthy repo opened db) (hx : x ∈ db.pkgRevs) :
    ∃ k, rowKey db x = some k := by
  obtain ⟨p, hp, hpk⟩ := h.packages x hx
  obtain ⟨r, hr, hrk⟩ := h.repositories p hp
  exact ⟨_, rowKey_eq_some.mpr ⟨p, hp, r, hr, hpk, hrk, rfl⟩⟩

theorem Healthy.repoKey_of_matches (h : Healthy repo opened db) {r : RepoRow}
    (hr : r ∈ db.repositories) (hm : repo.repoKey.matches (repoKeyOf r)) :
    repoKeyOf r = repo.repoKey := by
  obtain ⟨r₀, hr₀, heq⟩ := h.stored
  simp only [RepositoryKey.matches, Bool.and_eq_true, fieldMatches_iff] at hm
  have hns : repo.repoKey.namesp = r.namesp := hm.1.1.1.resolve_left h.named.1
  have hname : repo.repoKey.name = r.name := hm.1.1.2.resolve_left h.named.2
  have hkey : r.key = r₀.key := by
    rw [RepoRow.key, ← hns, ← hname, ← heq]
    rfl
  rw [eq_of_key_eq hr hr₀ hkey, heq]

theorem Healthy.shrink (h : Healthy repo opened db) (hrepos : db'.repositories = db.repositories)
    (hpkgs : ∀ p ∈ db'.packages, p ∈ db.packages)
    (hrows : ∀ x ∈ db'.pkgRevs, RowOk x ∧ ∃ y ∈ db.pkgRevs, y.content = x.content)
    (hused : ∀ x ∈ db'.pkgRevs, ∃ p ∈ db'.packages, p.key = (x.namesp, x.packageName)) :
    Healthy repo opened db' where
  isOpen := h.isOpen
  stored := hrepos ▸ h.stored
  named := h.named
  packages := hused
  repositories := fun p hp => hrepos ▸ h.repositories p (hpkgs p hp)
  rows := fun x hx => (hrows x hx).1
  readBack := by
    intro x hx k hk hrepo
    obtain ⟨-, y, hy, hyx⟩ := hrows x hx
    have hyk : rowKey db y = some k := by
      rw [rowKey_of_content hyx]
      exact rowKey_mono (.of_eq hrepos.symm) (fun p hp _ => hpkgs p hp) hk
    have hback := h.readBack y hy k hyk hrepo
    rw [key_of_content hyx, package_of_content hyx] at hback
    exact hback

end Healthy

/-! Deleting one package revision -/

/-- The package look-up for a key of the repository finds its own package only. -/
def FindsOne (repo : DbRepository) (db : Database) (pk : PackageKey) : Prop :=
  ∀ p ∈ db.packages, p.namesp = repo.repoKey.namesp → p.repoName = repo.repoKey.name →
    fieldMatches pk.package (k8sName2PkgName p.name) → fieldMatches pk.path p.path →
      p.key = pkgDbKey pk

/-- `db'` is `db` without the row of `n`, and maybe without its package. -/
structure Removes (repo : DbRepository) (opened : RepositoryKey → Bool) (n : Str × Str)
    (db db' : Database) : Prop where
  healthy : Healthy repo opened db'
  rows : rowAt db'.pkgRevs = update (rowAt db.pkgRevs) n none
  repositories : db'.repositories = db.repositories
  packages : ∀ p ∈ db'.packages, p ∈ db.packages

section Delete

variable {repo : DbRepository} {opened : RepositoryKey → Bool}

theorem pkgListPkgsFromDB_one (h : Healthy repo opened db) {pk : PackageKey} {p : PkgRow}
    {r : RepoRow} (hp : p ∈ db.packages) (hr : r ∈ db.repositories)
    (hrk : r.key = (p.namesp, p.repoName)) (hrepo : repoKeyOf r = repo.repoKey)
    (hpk : pkgKeyOf r p = pk) (hkey : pkgDbKey pk = p.key) (hone : FindsOne repo db pk) :
    pkgListPkgsFromDB opened { pk with repoKey := repo.repoKey } db = (.ok [pk], db) := by
  have hjoin : joinPkg db p = some (r, p) := by
    rw [joinPkg, lookup_eq_some.mpr ⟨hr, hrk⟩]
    rfl
  refine Proc.query_eq_ok.mpr ⟨?_, rfl⟩
  simp only [List.filter_filterMap, List.map_filterMap, Except.ok.injEq]
  refine filterMap_eq_singleton hp ?_ fun q hq hsome => ?_
  · have hclause : pkgListFilter2WhereClause { pk with repoKey := repo.repoKey } r p = true := by
      rw [← hpk]
      simp [pkgListFilter2WhereClause, pkgKeyOf, hrepo, RepositoryKey.matches_self,
        splitPartLast_eq]
    simp only [hjoin, Option.filter_some, hclause, hrepo, h.isOpen, Bool.and_self, if_true,
      Option.map_some, hpk]
  · -- another package that matches has the same name
    obtain ⟨b, hb⟩ := Option.isSome_iff_exists.mp hsome
    obtain ⟨⟨r', q'⟩, hfilter, -⟩ := Option.map_eq_some_iff.mp hb
    obtain ⟨hjoin', hand⟩ := Option.filter_eq_some_iff.mp hfilter
    obtain ⟨r'', hlook, heq⟩ := Option.map_eq_some_iff.mp hjoin'
    cases heq
    obtain ⟨hr', hrk'⟩ := lookup_eq_some.mp hlook
    simp only [pkgListFilter2WhereClause, Bool.and_eq_true, splitPartLast_eq] at hand
    obtain ⟨⟨hmatch, hpkg, hpath⟩, -⟩ := hand
    have hrepo' := h.repoKey_of_matches hr' hmatch
    have hns : q.namesp = repo.repoKey.namesp := by
      rw [← hrepo']
      exact (congrArg Prod.fst hrk').symm
    have hname : q.repoName = repo.repoKey.name := by
      rw [← hrepo']
      exact (congrArg Prod.snd hrk').symm
    exact eq_of_key_eq hq hp ((hone q hq hns hname hpkg hpath).trans hkey)

/-- Deleting a package revision removes its row, and its package with the last one. -/
theorem deletePackageRevision_ok (h : Healthy repo opened db) {pr : DbPackageRevision}
    (hx : x ∈ db.pkgRevs) (hk : rowKey db x = some k) (hrepo : k.pkgKey.repoKey = repo.repoKey)
    (hpr : pr.pkgRevKey = k) : ∃ db', deletePackageRevision k.pkgKey pr db = (.ok (), db') ∧
      Removes repo opened x.key db db' := by
  obtain ⟨hname, -⟩ := h.readBack x hx k hk hrepo
  obtain ⟨t, ht, hdel⟩ := pkgRevDeleteFromDB_eq pr.pkgRevKey db
  rw [hpr, hname] at ht
  have hrow := deleteRow_rowAt ht
  have hok := deleteRow_rowOk h.rows ht
  -- every row that is left was there
  have hleft : ∀ y ∈ t, ∃ z ∈ db.pkgRevs, z.content = y.content := by
    intro y hy
    have hyt := rowAt_of_mem hy
    rw [hrow] at hyt
    have hne : y.key ≠ x.key := by
      intro heq
      rw [heq, update_self] at hyt
      cases hyt
    rw [update_of_ne hne] at hyt
    obtain ⟨z, hz, -, hzy⟩ := rowAt_eq_some.mp hyt
    exact ⟨z, hz, hzy⟩
  have hpackages : ∀ y ∈ t, ∃ p ∈ db.packages, p.key = (y.namesp, y.packageName) := by
    intro y hy
    obtain ⟨z, hz, hzy⟩ := hleft y hy
    rw [← package_of_content hzy]
    exact h.packages z hz
  let db₁ : Database := { db with
    pkgRevs := t
    resources := update db.resources (dbKey pr.pkgRevKey) [] }
  have h₁ : Healthy repo opened db₁ :=
    h.shrink rfl (fun p hp => hp) (fun y hy => ⟨hok y hy, hleft y hy⟩) hpackages
  by_cases hempty : packageRows db₁ k.pkgKey = []
  · -- the package goes too, and no row is left in it
    have hnone : ∀ y ∈ t, (y.namesp, y.packageName) ≠ pkgDbKey k.pkgKey := by
      intro y hy heq
      obtain ⟨k', hk'⟩ := h₁.exists_rowKey hy
      obtain ⟨q, hq, -⟩ := Option.map_eq_some_iff.mp hk'
      have : q ∈ packageRows db₁ k.pkgKey := by
        refine List.mem_filterMap.mpr ⟨y, List.mem_filter.mpr ⟨hy, ?_⟩, hq⟩
        simpa using heq
      rw [hempty] at this
      cases this
    have hrows : rowAt (deletePackageRows t (pkgDbKey k.pkgKey).1 (pkgDbKey k.pkgKey).2) =
        rowAt t := by
      funext n
      rw [deletePackageRows_rowAt]
      cases hn : rowAt t n with
      | none => rfl
      | some y =>
        obtain ⟨z, hz, -, rfl⟩ := rowAt_eq_some.mp hn
        exact Option.filter_eq_some_iff.mpr ⟨rfl, decide_eq_true (hnone z hz)⟩
    refine ⟨(pkgDeleteFromDB k.pkgKey db₁).2, Proc.bind_eq_ok.mpr ⟨(), db₁, hdel,
      Proc.bind_eq_ok.mpr ⟨_, db₁, Proc.query_eq_ok.mpr ⟨rfl, rfl⟩, ?_⟩⟩, ?_⟩
    · rw [if_pos hempty]
      rfl
    · refine ⟨h₁.shrink rfl (fun p hp => (mem_deleteWhere.mp hp).1) ?_ ?_,
        hrows.trans hrow, rfl, fun p hp => (mem_deleteWhere.mp hp).1⟩
      · intro y hy
        have hy := (mem_deleteWhere.mp hy).1
        exact ⟨hok y hy, y, hy, rfl⟩
      · intro y hy
        have hy := (mem_deleteWhere.mp hy).1
        obtain ⟨p, hp, hpk⟩ := hpackages y hy
        refine ⟨p, mem_deleteWhere.mpr ⟨hp, ?_⟩, hpk⟩
        rw [decide_eq_true_eq, hpk]
        exact hnone y hy
  · refine ⟨db₁, Proc.bind_eq_ok.mpr ⟨(), db₁, hdel, Proc.bind_eq_ok.mpr
      ⟨_, db₁, Proc.query_eq_ok.mpr ⟨rfl, rfl⟩, ?_⟩⟩, h₁, hrow, rfl, fun p hp => hp⟩
    rw [if_neg hempty]
    exact Proc.pure_eq_ok.mpr ⟨rfl, rfl⟩

/-- Whether sync removes the row when it is cached only. -/
def removable (x : PkgRevRow) : Bool := !(isDraftOrProposed x.lifecycle && !pushedRow x)

def Shows (pr : DbPackageRevision) (x : PkgRevRow) : Prop :=
  pr.updated = x.updated ∧ pr.lifecycle = x.lifecycle ∧ hasBeenPushedToGit pr = pushedRow x

theorem Shows.of_content {pr : DbPackageRevision} (h : Shows pr x) (hxy : y.content = x.content) :
    Shows pr y :=
  ⟨h.1.trans (column_of_content PkgRevRow.updated (fun _ => rfl) hxy).symm,
    h.2.1.trans (lifecycle_of_content hxy).symm,
    h.2.2.trans (column_of_content pushedRow (fun _ => rfl) hxy).symm⟩

theorem removable_of_content (h : y.content = x.content) : removable y = removable x :=
  column_of_content removable (fun _ => rfl) h

theorem deleteCachedOnlyPR_ok (h : Healthy repo opened db) {snapshot : DbPackageRevision}
    (hx : x ∈ db.pkgRevs) (hk : rowKey db x = some k) (hrepo : k.pkgKey.repoKey = repo.repoKey)
    (hshows : Shows snapshot x) (hremove : removable x) (hone : FindsOne repo db k.pkgKey) :
    ∃ db', deleteCachedOnlyPR repo opened k snapshot db = (.ok (), db') ∧
      Removes repo opened x.key db db' := by
  obtain ⟨hname, hpkgName⟩ := h.readBack x hx k hk hrepo
  obtain ⟨p, hp, r, hr, hpk, hrk, hscan⟩ := rowKey_eq_some.mp hk
  have hjoin : joinRow db x = some (scanRow r p x) :=
    joinRow_eq_some_mem.mpr ⟨p, hp, r, hr, hpk, hrk, rfl⟩
  have hread : pkgRevReadFromDB k false db = (.ok (scanRow r p x), db) := by
    refine Proc.query_eq_ok.mpr ⟨?_, rfl⟩
    rw [lookup_eq_some.mpr ⟨hx, hname.symm⟩, Option.bind_some, hjoin]
    rfl
  have hpkgKey : pkgKeyOf r p = k.pkgKey := by
    rw [← hscan]
    rfl
  have hrepo' : repoKeyOf r = repo.repoKey := by
    rw [← hrepo, ← hpkgKey]
    rfl
  obtain ⟨db', hdel, hrem⟩ := deletePackageRevision_ok h hx hk hrepo hscan
  refine ⟨db', Proc.bind_eq_ok.mpr ⟨_, db, Proc.attempt_eq_ok.mpr hread, ?_⟩, hrem⟩
  have hguard : ¬ (isDraftOrProposed (scanRow r p x).lifecycle &&
      !hasBeenPushedToGit (scanRow r p x)) = true := by
    have : removable x = true := hremove
    rw [removable, Bool.not_eq_true'] at this
    rw [Bool.not_eq_true]
    exact this
  have hupd : ¬ (scanRow r p x).updated ≠ snapshot.updated := not_not.mpr hshows.1.symm
  simp only
  rw [if_neg hupd, if_neg hguard]
  refine Proc.bind_eq_ok.mpr ⟨[k.pkgKey], db, ?_, hdel⟩
  exact pkgListPkgsFromDB_one h hp hr hrk hrepo' hpkgKey (hpkgName.trans hpk.symm) hone

/-! The loop -/

/-- A row of the repository that a map of cached package revisions shows under `k`. -/
def CachedAs (repo : DbRepository) (db : Database) (cached : PRMap DbPackageRevision)
    (k : PackageRevisionKey) (x : PkgRevRow) : Prop :=
  x ∈ db.pkgRevs ∧ rowKey db x = some k ∧ k.pkgKey.repoKey = repo.repoKey ∧
    ∃ pr, cached.lookup k = some pr ∧ Shows pr x

theorem CachedAs.of_removes {cached : PRMap DbPackageRevision} {n : Str × Str}
    (hrem : Removes repo opened n db db') (h : CachedAs repo db cached k x) (hne : x.key ≠ n) :
    ∃ y, y.content = x.content ∧ CachedAs repo db' cached k y := by
  obtain ⟨hx, hk, hrepo, pr, hlook, hshows⟩ := h
  have hrow : rowAt db'.pkgRevs x.key = some x.content := by
    rw [hrem.rows, update_of_ne hne, rowAt_of_mem hx]
  obtain ⟨y, hy, -, hyx⟩ := rowAt_eq_some.mp hrow
  refine ⟨y, hyx, hy, ?_, hrepo, pr, hlook, hshows.of_content hyx⟩
  rw [← rowKey_of_content hyx] at hk
  refine rowKey_mono (.of_eq hrem.repositories) (fun p hp hpk => ?_) hk
  -- the package of a row that is left is left
  obtain ⟨p', hp', hpk'⟩ := hrem.healthy.packages y hy
  rw [eq_of_key_eq hp (hrem.packages p' hp') (hpk.trans hpk'.symm)]
  exact hp'

theorem FindsOne.mono {pk : PackageKey} (h : FindsOne repo db pk)
    (hpkgs : ∀ p ∈ db'.packages, p ∈ db.packages) : FindsOne repo db' pk :=
  fun p hp => h p (hpkgs p hp)

/-- **The loop removes the removable rows of its keys and nothing else.** -/
theorem handleInCachedOnly_ok (cached : PRMap DbPackageRevision) (ks : List PackageRevisionKey)
    (h : Healthy repo opened db) (hnodup : ks.Nodup)
    (hks : ∀ k ∈ ks, ∃ x, CachedAs repo db cached k x ∧ (removable x → FindsOne repo db k.pkgKey)) :
    ∃ prs db', handleInCachedOnly repo opened cached ks db = (.ok prs, db') ∧
      Healthy repo opened db' ∧ db'.repositories = db.repositories ∧
      (∀ p ∈ db'.packages, p ∈ db.packages) ∧
      ∀ n, rowAt db'.pkgRevs n = (rowAt db.pkgRevs n).filter fun y =>
        !(removable y && ks.any fun k => dbKey k = n) := by
  induction ks generalizing db with
  | nil =>
    refine ⟨[], db, rfl, h, rfl, fun p hp => hp, fun n => ?_⟩
    cases rowAt db.pkgRevs n with
    | none => rfl
    | some y => simp [Option.filter_some]
  | cons k ks ih =>
    obtain ⟨hnotin, hnodup⟩ := List.nodup_cons.mp hnodup
    obtain ⟨x, hcached, hone⟩ := hks k List.mem_cons_self
    obtain ⟨hx, hk, hrepo, pr, hlook, hshows⟩ := hcached
    obtain ⟨hname, -⟩ := h.readBack x hx k hk hrepo
    have hrow : rowAt db.pkgRevs (dbKey k) = some x.content := by rw [hname, rowAt_of_mem hx]
    unfold handleInCachedOnly
    simp only [hlook]
    by_cases hremove : removable x
    · -- the row goes, and the other keys are shown as before
      have hguard : ¬ (isDraftOrProposed pr.lifecycle && !hasBeenPushedToGit pr) = true := by
        rw [hshows.2.1, hshows.2.2, Bool.not_eq_true]
        rwa [removable, Bool.not_eq_true'] at hremove
      rw [if_neg hguard]
      obtain ⟨db₁, hdel, hrem⟩ :=
        deleteCachedOnlyPR_ok h hx hk hrepo hshows hremove (hone hremove)
      obtain ⟨prs, db', hloop, hhealthy, hrepos, hpkgs, hrows⟩ := ih hrem.healthy hnodup (by
        intro k' hk'
        obtain ⟨x', hcached', hone'⟩ := hks k' (List.mem_cons_of_mem k hk')
        have hne : x'.key ≠ x.key := by
          intro heq
          have hxx : x' = x := eq_of_key_eq hcached'.1 hx heq
          have hkk : some k' = some k := by rw [← hcached'.2.1, ← hk, hxx]
          rw [Option.some.inj hkk] at hk'
          exact hnotin hk'
        obtain ⟨y, hyx, hy⟩ := hcached'.of_removes hrem hne
        refine ⟨y, hy, fun hry => FindsOne.mono (hone' ?_) hrem.packages⟩
        rwa [← removable_of_content hyx])
      refine ⟨prs, db', Proc.bind_eq_ok.mpr ⟨(), db₁, hdel, hloop⟩, hhealthy,
        hrepos.trans hrem.repositories, fun p hp => hrem.packages p (hpkgs p hp),
        fun n => ?_⟩
      rw [hrows, hrem.rows]
      by_cases hn : n = x.key
      · rw [hn, update_self, ← hname, hrow]
        have hrc : removable x.content = true := hremove
        simp [Option.filter_some, hrc]
      · rw [update_of_ne hn]
        have hn' : dbKey k ≠ n := by
          rw [hname]
          exact Ne.symm hn
        simp [hn']
    · -- a draft that has not been pushed stays
      have hguard : (isDraftOrProposed pr.lifecycle && !hasBeenPushedToGit pr) = true := by
        rw [hshows.2.1, hshows.2.2]
        rwa [removable, Bool.not_eq_true', Bool.not_eq_false] at hremove
      rw [if_pos hguard]
      obtain ⟨prs, db', hloop, hhealthy, hrepos, hpkgs, hrows⟩ :=
        ih h hnodup fun k' hk' => hks k' (List.mem_cons_of_mem k hk')
      refine ⟨_, db', Proc.bind_eq_ok.mpr ⟨prs, db', hloop, rfl⟩, hhealthy, hrepos, hpkgs,
        fun n => ?_⟩
      rw [hrows]
      by_cases hn : dbKey k = n
      · have hrc : removable x.content = false := Bool.eq_false_iff.mpr hremove
        rw [← hn, hrow]
        simp [Option.filter_some, hrc]
      · simp [hn]

end Delete

end Porch.Db
