import Porch.Db.SyncDelete

/- The second half of sync when nothing else writes: each external package revision that
   is cached gets a row under its own key.

   `ExtOk` is what a package revision of a git listing is, together with the condition
   that its package name is the last part of the package's object name. `SaveReady` says
   that nothing in the tables stands in its way. -/
namespace Porch.Db

open Go Sql Function Proc

/-- An external package revision that can be cached. -/
structure ExtOk (repo : DbRepository) (e : ExtPackageRevision) (spec : ExtSpec)
    (resources : Resources) : Prop where
  getPackageRevision : e.getPackageRevision = .ok spec
  getResources : e.getResources = .ok resources
  files : ∀ f ∈ resources, f.1 ≠ []
  ofRepo : e.key.pkgKey.repoKey = repo.repoKey
  named : e.key.pkgKey.package ≠ [] ∧ e.key.workspaceName ≠ []
  readBack : k8sName2PkgName e.key.pkgKey.k8sName = e.key.pkgKey.package
  inRange : -1 ≤ e.key.revision ∧ e.key.revision ≤ 2147483647

/-- It is cached: published with a revision, or a draft without one. -/
def Cacheable (e : ExtPackageRevision) (spec : ExtSpec) : Prop :=
  lifecycleIsPublished spec.lifecycle ↔ e.key.revision ≠ 0

/-- The tables have room for it: its package is stored with its path if it is stored, its
    name is free or that of a proposed draft of the package, and so is its number. -/
structure SaveReady (repo : DbRepository) (db : Database) (k : PackageRevisionKey) : Prop where
  package : ∀ p ∈ db.packages, p.key = pkgDbKey k.pkgKey →
    p.repoName = repo.repoKey.name ∧ p.path = k.pkgKey.path
  name : ∀ x ∈ db.pkgRevs, x.key = dbKey k →
    x.lifecycle = .proposed ∧ x.packageName = k.pkgKey.k8sName ∧ 0 < k.revision
  number : 0 < k.revision → ∀ x ∈ db.pkgRevs, (x.namesp, x.packageName) = pkgDbKey k.pkgKey →
    x.revision ≠ k.revision

/-- `db'` is `db` with a row of key `k`. -/
structure Adds (repo : DbRepository) (opened : RepositoryKey → Bool) (k : PackageRevisionKey)
    (lifecycle : Lifecycle) (db db' : Database) : Prop where
  healthy : Healthy repo opened db'
  repositories : SameRepos db db'
  packages : ∀ p ∈ db.packages, p ∈ db'.packages
  onlyNew : ∀ p ∈ db'.packages, p ∈ db.packages ∨
    p.key = pkgDbKey k.pkgKey ∧ p.repoName = repo.repoKey.name ∧ p.path = k.pkgKey.path
  row : ∃ y : PkgRevRow, rowAt db'.pkgRevs = update (rowAt db.pkgRevs) (dbKey k) (some y) ∧
    y.lifecycle = lifecycle ∧ y.revision = k.revision ∧ rowKey db' y = some k

section Names

variable {k : PackageRevisionKey}

theorem k8sName_eq_append (hrepo : k.pkgKey.repoKey.name ≠ []) (hpkg : k.pkgKey.package ≠ [])
    (hws : k.workspaceName ≠ []) : k.k8sName = k.pkgKey.k8sName ++ '.' :: k.workspaceName := by
  unfold PackageRevisionKey.k8sName PackageKey.k8sName ApiUtil.composePkgRevObjName
    ApiUtil.composePkgObjName
  rw [if_neg (by simp [hrepo, hpkg, hws]), if_neg (by simp [hrepo, hpkg])]

theorem pkgKey_k8sName_ne_nil (hrepo : k.pkgKey.repoKey.name ≠ []) (hpkg : k.pkgKey.package ≠ []) :
    k.pkgKey.k8sName ≠ [] := by
  unfold PackageKey.k8sName ApiUtil.composePkgObjName
  rw [if_neg (by simp [hrepo, hpkg])]
  simp

end Names

section Save

variable {repo : DbRepository} {opened : RepositoryKey → Bool} {db db' : Database}
  {e : ExtPackageRevision} {spec : ExtSpec} {resources : Resources}

theorem lookup_repo (h : ∃ r ∈ db.repositories, repoKeyOf r = repo.repoKey) :
    ∃ r, db.repositories.lookup (repo.repoKey.namesp, repo.repoKey.name) = some r ∧
      repoKeyOf r = repo.repoKey := by
  obtain ⟨r, hr, heq⟩ := h
  refine ⟨r, Table.lookup_eq_some.mpr ⟨hr, ?_⟩, heq⟩
  rw [← heq]
  rfl

/-- The package is there after the first part of a save. -/
theorem savePackageIfNew_ok (h : Healthy repo opened db) {pk : PackageKey}
    (hrepo : pk.repoKey = repo.repoKey) (hname : pk.k8sName ≠ [])
    (hsto : ∀ p ∈ db.packages, p.key = pkgDbKey pk →
      p.repoName = repo.repoKey.name ∧ p.path = pk.path) :
    ∃ packages, savePackageIfNew opened pk db = (.ok (), { db with packages := packages }) ∧
      (∀ p ∈ db.packages, p ∈ packages) ∧
      (∃ p ∈ packages, p.key = pkgDbKey pk ∧ p.repoName = repo.repoKey.name ∧ p.path = pk.path) ∧
      ∀ p ∈ packages, p ∈ db.packages ∨
        p.key = pkgDbKey pk ∧ p.repoName = repo.repoKey.name ∧ p.path = pk.path := by
  obtain ⟨r, hlook, heq⟩ := lookup_repo h.stored
  cases hpkg : db.packages.lookup (pkgDbKey pk) with
  | some p =>
    -- the package is stored, and the repository that it joins is open
    obtain ⟨hp, hpk⟩ := Table.lookup_eq_some.mp hpkg
    obtain ⟨hrepoName, hpath⟩ := hsto p hp hpk
    have hns : p.namesp = repo.repoKey.namesp := by
      rw [← hrepo]
      exact congrArg Prod.fst hpk
    have hjoin : joinPkg db p = some (r, p) := by
      rw [joinPkg, hns, hrepoName, hlook]
      rfl
    have hread : pkgReadFromDB opened pk db = (.ok (pkgKeyOf r p), db) := by
      refine query_eq_ok.mpr ⟨?_, rfl⟩
      rw [hpkg, Option.bind_some, hjoin]
      simp only [heq, h.isOpen, if_true]
    refine ⟨db.packages, ?_, fun q hq => hq, ⟨p, hp, hpk, hrepoName, hpath⟩, fun q hq => .inl hq⟩
    exact bind_eq_ok.mpr ⟨_, db, attempt_eq_ok.mpr hread, rfl⟩
  | none =>
    have hread : pkgReadFromDB opened pk db = (.error .noRows, db) := by
      refine Prod.ext ?_ rfl
      simp only [pkgReadFromDB, query, hpkg, Option.bind_none]
    let p := pkgRow pk
    obtain ⟨packages, hpackages⟩ := Table.exists_insert (r := p) (Table.lookup_eq_none.mp hpkg)
    have hnonempty : ¬ (p.namesp = [] ∨ p.name = []) := by
      have hns : p.namesp ≠ [] := by
        show pk.repoKey.namesp ≠ []
        rw [hrepo]
        exact h.named.1
      exact not_or.mpr ⟨hns, hname⟩
    have hwrite : pkgWriteToDB pk db = (.ok (), { db with packages := packages }) := by
      refine stmt_eq_ok.mpr ?_
      show (if p.namesp = [] ∨ p.name = [] then _ else _) = _
      rw [if_neg hnonempty]
      rw [hpackages]
      show (if (db.repositories.lookup (pk.repoKey.namesp, pk.repoKey.name)).isSome then _ else _)
        = _
      rw [hrepo, hlook]
      rfl
    have hmem : ∀ q, q ∈ packages ↔ q = p ∨ q ∈ db.packages := fun q => Table.mem_insert hpackages
    have hp : p.key = pkgDbKey pk ∧ p.repoName = repo.repoKey.name ∧ p.path = pk.path :=
      ⟨rfl, congrArg RepositoryKey.name hrepo, rfl⟩
    refine ⟨packages, ?_, fun q hq => (hmem q).mpr (.inr hq), ⟨p, (hmem p).mpr (.inl rfl), hp⟩, ?_⟩
    · refine bind_eq_ok.mpr ⟨_, db, attempt_eq_ok.mpr hread, ?_⟩
      exact bind_eq_ok.mpr ⟨_, db, attempt_eq_ok.mpr hread, hwrite⟩
    · intro q hq
      obtain rfl | hq := (hmem q).mp hq
      · exact .inr hp
      · exact .inl hq

theorem repoUpdateDB_ok (h : ∃ r ∈ db.repositories, repoKeyOf r = repo.repoKey)
    (deployment : Bool) : ∃ repositories, repoUpdateDB repo.repoKey deployment db =
        (.ok (), { db with repositories := repositories }) ∧
      SameRepos db { db with repositories := repositories } := by
  obtain ⟨r, hlook, heq⟩ := lookup_repo h
  obtain ⟨hr, -⟩ := Table.lookup_eq_some.mp hlook
  let r' : RepoRow := { r with deployment := deployment }
  have hmem : ∀ x, x ∈ db.repositories.set r' ↔ x = r' ∨ x ∈ db.repositories ∧ x.key ≠ r'.key :=
    fun x => Table.mem_set ⟨r, hr, rfl⟩
  refine ⟨db.repositories.set r', ?_, fun x hx => ?_, fun x hx => ?_⟩
  · refine stmt_eq_ok.mpr ?_
    simp only [hlook]
    rw [if_pos]
    exact ⟨congrArg RepositoryKey.path heq, congrArg RepositoryKey.placeholderWSname heq⟩
  · by_cases hk : x.key = r'.key
    · refine ⟨r', (hmem r').mpr (.inl rfl), ?_⟩
      rw [Table.eq_of_key_eq hx hr hk]
      rfl
    · exact ⟨x, (hmem x).mpr (.inr ⟨hx, hk⟩), rfl⟩
  · obtain rfl | ⟨hx, -⟩ := (hmem x).mp hx
    · exact ⟨r, hr, rfl⟩
    · exact ⟨x, hx, rfl⟩

/-- What is needed to save the row of an object. -/
structure RowReady (db : Database) (d : DbPackageRevision) : Prop where
  inRange : -1 ≤ d.pkgRevKey.revision ∧ d.pkgRevKey.revision ≤ 2147483647
  named : d.pkgRevKey.pkgKey.repoKey.namesp ≠ [] ∧ d.pkgRevKey.k8sName ≠ []
  published_iff : lifecycleIsPublished d.lifecycle ↔ d.pkgRevKey.revision ≠ 0
  files : ∀ f ∈ d.resources, f.1 ≠ []
  package : (db.packages.lookup (pkgDbKey d.pkgRevKey.pkgKey)).isSome
  name : ∀ x ∈ db.pkgRevs, x.key = dbKey d.pkgRevKey →
    x.lifecycle = .proposed ∧ x.packageName = d.pkgRevKey.pkgKey.k8sName ∧
      0 < d.pkgRevKey.revision
  number : 0 < d.pkgRevKey.revision → ∀ x ∈ db.pkgRevs,
    (x.namesp, x.packageName) = pkgDbKey d.pkgRevKey.pkgKey → x.revision ≠ d.pkgRevKey.revision

variable {d : DbPackageRevision} {k : PackageRevisionKey} {l : Lifecycle}
  {external : PRMap ExtPackageRevision}

/-- Another object with the same key, lifecycle and files is as ready. -/
theorem RowReady.congr {d' : DbPackageRevision} (h : RowReady db d)
    (hkey : d'.pkgRevKey = d.pkgRevKey) (hcont : d'.content = d.content) : RowReady db d' := by
  have hlife : d'.lifecycle = d.lifecycle := congrArg Prod.fst hcont
  have hfiles : d'.resources = d.resources := congrArg (fun c => c.2.2) hcont
  constructor
  · rw [hkey]; exact h.inRange
  · rw [hkey]; exact h.named
  · rw [hkey, hlife]; exact h.published_iff
  · rw [hfiles]; exact h.files
  · rw [hkey]; exact h.package
  · rw [hkey]; exact h.name
  · rw [hkey]; exact h.number

theorem RowReady.integerError (h : RowReady db d) : integerError d.row = none := by
  refine if_neg ?_
  show ¬ (d.pkgRevKey.revision < -2147483648 ∨ 2147483647 < d.pkgRevKey.revision)
  have := h.inRange
  omega

theorem RowReady.checkError (h : RowReady db d) : checkError d.row = none :=
  if_neg (not_or.mpr h.named)

theorem RowReady.rowOk (h : RowReady db d) : RowOk { d.row with latest := false } := by
  by_cases hpub : lifecycleIsPublished d.lifecycle = true
  · have hne := h.published_iff.mp hpub
    have hrange := h.inRange
    by_cases hneg : d.pkgRevKey.revision = -1
    · exact .inl ⟨hneg, hpub⟩
    · refine .inr (.inr ⟨?_, hpub⟩)
      show 0 < d.pkgRevKey.revision
      omega
  · refine .inr (.inl ⟨?_, hpub, rfl⟩)
    by_contra hne
    exact hpub (h.published_iff.mpr hne)

theorem RowReady.fresh (h : RowReady db d) (hpos : 0 < d.row.revision) :
    ∀ x ∈ db.pkgRevs, samePackage x d.row → x.revision ≠ d.row.revision := by
  intro x hx hsame
  apply h.number hpos x hx
  obtain ⟨hns, hpkg⟩ := samePackage_iff.mp hsame
  rw [hns, hpkg]
  rfl

theorem pkgRevResourcesWriteToDB_ok (hfiles : ∀ f ∈ d.resources, f.1 ≠ []) (db : Database) :
    pkgRevResourcesWriteToDB d db = (.ok (), { db with
      resources := update db.resources (dbKey d.pkgRevKey) d.resources }) := by
  refine stmt_eq_ok.mpr (if_neg ?_)
  rw [List.any_eq_true]
  intro ⟨f, hf, hnil⟩
  exact hfiles f hf (by simpa using hnil)

/-- The tables after the row of an object has been saved. -/
def RowSaved (db : Database) (d : DbPackageRevision) (db' : Database) : Prop :=
  db'.repositories = db.repositories ∧ db'.packages = db.packages ∧
    (∀ x ∈ db'.pkgRevs, RowOk x) ∧ Stores db.pkgRevs d.row db'.pkgRevs

theorem pkgRevWriteToDB_ok (h : RowReady db d)
    (hrows : ∀ x ∈ db.pkgRevs, RowOk x) (hfree : ∀ x ∈ db.pkgRevs, x.key ≠ dbKey d.pkgRevKey) :
    ∃ db', pkgRevWriteToDB d db = (.ok (), db') ∧ RowSaved db d db' := by
  obtain ⟨t, ht, hok⟩ :=
    insertRow_accepts hrows h.rowOk h.integerError h.checkError hfree h.fresh
  have hcheck : checkPackage db d.row t = .ok t := if_pos h.package
  refine ⟨_, bind_eq_ok.mpr ⟨(), { db with pkgRevs := t }, ?_,
    pkgRevResourcesWriteToDB_ok h.files _⟩, rfl, rfl, hok, (insertRow_stores ht).1⟩
  exact pkgRevStmt_eq_ok.mpr ⟨t, bind_eq_ok.mpr ⟨t, ht, hcheck⟩, rfl⟩

theorem pkgRevUpdateDB_number_ok (h : RowReady db d)
    (hrows : ∀ x ∈ db.pkgRevs, RowOk x) {x : PkgRevRow} (hx : x ∈ db.pkgRevs)
    (hkey : x.key = dbKey d.pkgRevKey) :
    ∃ db', pkgRevUpdateDB d true db = (.ok (), db') ∧ RowSaved db d db' := by
  obtain ⟨hprop, hpkg, hpos⟩ := h.name x hx hkey
  have hpub : lifecycleIsPublished d.lifecycle := h.published_iff.mpr (by omega)
  obtain ⟨t, ht, hok⟩ := updateRow_accepts_number (r := d.row) hrows hx hkey.symm hpkg.symm
    hprop hpos hpub h.integerError (h.fresh hpos)
  refine ⟨_, bind_eq_ok.mpr ⟨(), { db with pkgRevs := t }, ?_,
    pkgRevResourcesWriteToDB_ok h.files _⟩, rfl, rfl, hok, (updateRow_stores ht).1⟩
  refine pkgRevStmt_eq_ok.mpr ⟨t, ?_, rfl⟩
  rw [if_neg (by omega)]
  exact ht

/-- The row of an object is written, or numbers the draft of its name. -/
theorem savePackageRevision_ok (now : Nat) (h : RowReady db d)
    (hrows : ∀ x ∈ db.pkgRevs, RowOk x) (hjoin : ∀ x ∈ db.pkgRevs, (joinRow db x).isSome) :
    ∃ d' db', savePackageRevision now true (db, d) = (.ok (), db', d') ∧
      d'.pkgRevKey = d.pkgRevKey ∧ d'.lifecycle = d.lifecycle ∧ RowSaved db d' db' := by
  obtain ⟨existing, hread, heq⟩ | ⟨hread, heq⟩ := savePackageRevision_cases now true db d
  · obtain ⟨-, x, hx, hxk, -⟩ := pkgRevReadFromDB_ok hread
    have hkey := (preserve_key (stamped now true d) existing).trans (stamped_key now true d)
    have hcont := (preserve_content (stamped now true d) existing).trans
      (stamped_content now true d)
    obtain ⟨db', hupd, hsaved⟩ := pkgRevUpdateDB_number_ok (h.congr hkey hcont) hrows hx
      (by rw [hxk, hkey])
    refine ⟨_, db', ?_, hkey, congrArg Prod.fst hcont, hsaved⟩
    rw [heq, hupd]
  · have hfree : ∀ x ∈ db.pkgRevs, x.key ≠ dbKey d.pkgRevKey := by
      intro x hx hxk
      obtain ⟨q, hq⟩ := Option.isSome_iff_exists.mp (hjoin x hx)
      have hres := congrArg Prod.fst hread
      simp only [pkgRevReadFromDB, query, Table.lookup_eq_some.mpr ⟨hx, hxk⟩,
        Option.bind_some, hq] at hres
      cases hres
    have hkey := stamped_key now true d
    have hcont := stamped_content now true d
    obtain ⟨db', hwrite, hsaved⟩ := pkgRevWriteToDB_ok (h.congr hkey hcont) hrows
      (by rw [hkey]; exact hfree)
    refine ⟨_, db', ?_, hkey, congrArg Prod.fst hcont, hsaved⟩
    rw [heq, hwrite]

/-- The tables with one more row, and maybe its package. -/
theorem Healthy.grow (h : Healthy repo opened db) {row : PkgRevRow}
    (hrepos : SameRepos db db') (hpkgs : ∀ p ∈ db.packages, p ∈ db'.packages)
    (honly : ∀ p ∈ db'.packages, p ∈ db.packages ∨
      p.key = pkgDbKey k.pkgKey ∧ p.repoName = repo.repoKey.name ∧ p.path = k.pkgKey.path)
    (hrepo : k.pkgKey.repoKey = repo.repoKey) (hrows : ∀ x ∈ db'.pkgRevs, RowOk x)
    (hstores : Stores db.pkgRevs row db'.pkgRevs) (hkey : rowKey db' row = some k)
    (hname : dbKey k = row.key) (hpkg : pkgDbKey k.pkgKey = (row.namesp, row.packageName)) :
    Healthy repo opened db' := by
  -- a row is the new one or an old one
  have hcases : ∀ x ∈ db'.pkgRevs, x.content = row.content ∨
      ∃ y ∈ db.pkgRevs, y.content = x.content := fun x hx => (hstores.only x hx).imp_right And.right
  have hsto : ∃ r ∈ db'.repositories, repoKeyOf r = repo.repoKey := by
    obtain ⟨r, hr, heq⟩ := h.stored
    obtain ⟨r', hr', heq'⟩ := hrepos.1 r hr
    exact ⟨r', hr', heq'.trans heq⟩
  refine ⟨h.isOpen, hsto, h.named, fun x hx => ?_, fun p hp => ?_, hrows, fun x hx k' hk' hr => ?_⟩
  · obtain hxr | ⟨y, hy, hyx⟩ := hcases x hx
    · obtain ⟨p, hp, _, _, hpk, -⟩ := rowKey_eq_some.mp hkey
      exact ⟨p, hp, hpk.trans (package_of_content hxr).symm⟩
    · obtain ⟨p, hp, hpk⟩ := h.packages y hy
      exact ⟨p, hpkgs p hp, hpk.trans (package_of_content hyx)⟩
  · obtain hp | ⟨hpk, hpr, -⟩ := honly p hp
    · obtain ⟨r, hr, hrk⟩ := h.repositories p hp
      obtain ⟨r', hr', heq⟩ := hrepos.1 r hr
      exact ⟨r', hr', (key_of_repoKeyOf heq).trans hrk⟩
    · obtain ⟨r, hr, heq⟩ := hsto
      refine ⟨r, hr, ?_⟩
      have hns : p.namesp = repo.repoKey.namesp := by
        rw [← hrepo]
        exact congrArg Prod.fst hpk
      rw [hns, hpr, ← heq]
      rfl
  · obtain hxr | ⟨y, hy, hyx⟩ := hcases x hx
    · rw [rowKey_of_content hxr, hkey] at hk'
      cases hk'
      rw [key_of_content hxr, package_of_content hxr]
      exact ⟨hname, hpkg⟩
    · obtain ⟨k'', hk''⟩ := h.exists_rowKey hy
      have hmono := rowKey_mono hrepos (fun p hp _ => hpkgs p hp) hk''
      rw [rowKey_of_content hyx, hk'] at hmono
      cases hmono
      have hback := h.readBack y hy k' hk'' hr
      rw [key_of_content hyx, package_of_content hyx] at hback
      exact hback

/-- **An external package revision that finds room is cached under its key.** -/
theorem cacheExternalPR_adds (h : Healthy repo opened db) (he : ExtOk repo e spec resources)
    (hcache : Cacheable e spec) (hready : SaveReady repo db e.key) (now : Nat) :
    ∃ db', cacheExternalPR repo opened now e db = (.ok (), db') ∧
      Adds repo opened e.key spec.lifecycle db db' := by
  have hrepoName : e.key.pkgKey.repoKey.name ≠ [] := by
    rw [he.ofRepo]
    exact h.named.2
  have hpkgName := pkgKey_k8sName_ne_nil hrepoName he.named.1
  have hk8sName := k8sName_eq_append hrepoName he.named.1 he.named.2
  -- the package
  obtain ⟨packages, hsavePkg, hpkgs, ⟨p, hp, hpk, hpr, hpath⟩, honly⟩ :=
    savePackageIfNew_ok h he.ofRepo hpkgName hready.package
  let db₁ : Database := { db with packages := packages }
  have hjoin : ∀ x ∈ db₁.pkgRevs, (joinRow db₁ x).isSome := by
    intro x hx
    obtain ⟨k, hk⟩ := h.exists_rowKey hx
    have hsame : SameRepos db db₁ := .of_eq rfl
    have hk₁ : rowKey db₁ x = some k := rowKey_mono hsame (fun q hq _ => hpkgs q hq) hk
    obtain ⟨q, hq, -⟩ := Option.map_eq_some_iff.mp hk₁
    rw [hq]
    rfl
  -- the row
  let d : DbPackageRevision := cachedOf repo now e spec resources
  have hrow : RowReady db₁ d := by
    refine ⟨he.inRange, ⟨?_, ?_⟩, hcache, ?_, ?_, hready.name, hready.number⟩
    · show e.key.pkgKey.repoKey.namesp ≠ []
      rw [he.ofRepo]
      exact h.named.1
    · show e.key.k8sName ≠ []
      rw [hk8sName]
      simp
    · intro f hf
      exact he.files f (List.mem_of_mem_filter hf)
    · show (packages.lookup (pkgDbKey e.key.pkgKey)).isSome
      rw [Table.lookup_eq_some.mpr ⟨hp, hpk⟩]
      rfl
  obtain ⟨d', db₂, hsave, hkey', hlife', hrepos₂, hpkgs₂, hrows₂, hstores⟩ :=
    savePackageRevision_ok now hrow h.rows hjoin
  have hkd : d'.pkgRevKey = e.key := hkey'
  obtain rfl : db₂.packages = packages := hpkgs₂
  -- the repository
  have hsto₂ : ∃ r ∈ db₂.repositories, repoKeyOf r = repo.repoKey := by
    rw [hrepos₂]
    exact h.stored
  obtain ⟨repositories, hupd, hsame⟩ := repoUpdateDB_ok hsto₂ repo.deployment
  let db₃ : Database := { db₂ with repositories := repositories }
  have hrepos : SameRepos db db₃ := by
    rw [SameRepos, ← show db₂.repositories = db.repositories from hrepos₂]
    exact hsame
  have hkey₃ : rowKey db₃ d'.row = some e.key := by
    obtain ⟨r, hr, heq⟩ := h.stored
    obtain ⟨r', hr', heq'⟩ := hrepos.1 r hr
    refine rowKey_eq_some.mpr ⟨p, hp, r', hr', ?_, ?_, ?_⟩
    · rw [hpk, DbPackageRevision.row, hkey']
      rfl
    · have hns : p.namesp = repo.repoKey.namesp := by
        rw [← he.ofRepo]
        exact congrArg Prod.fst hpk
      rw [hns, hpr, ← heq, ← heq']
      rfl
    · have hpname : p.name = e.key.pkgKey.k8sName := congrArg Prod.snd hpk
      simp only [scanRow, pkgKeyOf, heq', heq, hpath, hpname, he.readBack, DbPackageRevision.row,
        hkd, hk8sName, k8sName2PkgRevWSName, ← he.ofRepo]
      simp
  have hname : dbKey e.key = d'.row.key := by rw [row_key, hkd]
  have hpkgRow : pkgDbKey e.key.pkgKey = (d'.row.namesp, d'.row.packageName) := by
    rw [DbPackageRevision.row, hkd]
    rfl
  refine ⟨db₃, ?_, h.grow hrepos hpkgs honly he.ofRepo hrows₂ hstores hkey₃ hname hpkgRow, hrepos,
    hpkgs, honly, d'.row.content, ?_, hlife', ?_, ?_⟩
  · have hskip : ¬ (e.key.revision = 0 && lifecycleIsPublished spec.lifecycle) = true := by
      rw [Bool.and_eq_true, decide_eq_true_eq]
      rintro ⟨hzero, hpub⟩
      exact hcache.mp hpub hzero
    refine bind_eq_ok.mpr ⟨spec, db, query_eq_ok.mpr ⟨he.getPackageRevision, rfl⟩, ?_⟩
    refine bind_eq_ok.mpr ⟨resources, db, query_eq_ok.mpr ⟨he.getResources, rfl⟩, ?_⟩
    rw [if_neg hskip]
    refine bind_eq_ok.mpr ⟨d', db₃, ?_, rfl⟩
    refine bind_eq_ok.mpr ⟨(), db₁, hsavePkg, ?_⟩
    refine bind_eq_ok.mpr ⟨d', db₂, call_eq_ok.mpr ⟨(), hsave⟩, ?_⟩
    exact bind_eq_ok.mpr ⟨(), db₃, hupd, rfl⟩
  · rw [hname]
    exact hstores.rowAt
  · show d'.pkgRevKey.revision = e.key.revision
    rw [hkd]
  · rw [rowKey_content, hkey₃]

/-! The loop -/

/-- Two package revisions that can both be cached. -/
structure Apart (k k' : PackageRevisionKey) : Prop where
  name : dbKey k ≠ dbKey k'
  path : pkgDbKey k.pkgKey = pkgDbKey k'.pkgKey → k.pkgKey.path = k'.pkgKey.path
  number : pkgDbKey k.pkgKey = pkgDbKey k'.pkgKey → 0 < k'.revision → k.revision ≠ k'.revision

/-- A row that has been added leaves room for another. -/
theorem SaveReady.of_adds {k' : PackageRevisionKey}
    (hadds : Adds repo opened k l db db') (hrepo : k.pkgKey.repoKey = repo.repoKey)
    (hapart : Apart k k') (h : SaveReady repo db k') : SaveReady repo db' k' := by
  obtain ⟨y, hrows, -, hrev, hkey⟩ := hadds.row
  -- a row of `db'` is the new one or has the content of an old one
  have hcases : ∀ x ∈ db'.pkgRevs, x.key = dbKey k ∧ x.content = y ∨
      x.key ≠ dbKey k ∧ ∃ z ∈ db.pkgRevs, z.content = x.content := by
    intro x hx
    have hxrow := rowAt_of_mem hx
    rw [hrows] at hxrow
    by_cases hxk : x.key = dbKey k
    · rw [hxk, update_self] at hxrow
      exact .inl ⟨hxk, (Option.some.inj hxrow).symm⟩
    · rw [update_of_ne hxk] at hxrow
      obtain ⟨z, hz, -, hzx⟩ := rowAt_eq_some.mp hxrow
      exact .inr ⟨hxk, z, hz, hzx⟩
  refine ⟨fun p hp hpk => ?_, fun x hx hxk => ?_, fun hpos x hx hxpkg => ?_⟩
  · obtain hp | ⟨hpk', hpr, hpath⟩ := hadds.onlyNew p hp
    · exact h.package p hp hpk
    · exact ⟨hpr, hpath.trans (hapart.path (hpk'.symm.trans hpk))⟩
  · obtain ⟨hxk', -⟩ | ⟨-, z, hz, hzx⟩ := hcases x hx
    · exact absurd (hxk'.symm.trans hxk) hapart.name
    · have hz' := h.name z hz ((key_of_content hzx).trans hxk)
      rw [lifecycle_of_content hzx, packageName_of_content hzx] at hz'
      exact hz'
  · obtain ⟨hxk', hxy⟩ | ⟨-, z, hz, hzx⟩ := hcases x hx
    · -- the new row is in its own package
      have hxkey : rowKey db' x = some k := by rw [← rowKey_content, hxy, hkey]
      have hback := (hadds.healthy.readBack x hx k hxkey hrepo).2
      have hxrev : x.revision = k.revision := by
        rw [← hrev, ← hxy]
        rfl
      rw [hxrev]
      exact hapart.number (hback.trans hxpkg) hpos
    · rw [← revision_of_content hzx]
      exact h.number hpos z hz ((package_of_content hzx).trans hxpkg)

/-- What the listing has under `k` is cached, with lifecycle `l`. -/
def Caches (repo : DbRepository) (external : PRMap ExtPackageRevision) (k : PackageRevisionKey)
    (l : Lifecycle) : Prop :=
  ∃ e spec resources, external.lookup k = some e ∧ e.key = k ∧ ExtOk repo e spec resources ∧
    Cacheable e spec ∧ spec.lifecycle = l

/-- What the listing has under `k` is skipped: published without a revision. -/
def Skips (external : PRMap ExtPackageRevision) (k : PackageRevisionKey) : Prop :=
  ∃ e spec resources, external.lookup k = some e ∧ e.key = k ∧ e.getPackageRevision = .ok spec ∧
    e.getResources = .ok resources ∧ e.key.revision = 0 ∧ lifecycleIsPublished spec.lifecycle

theorem Caches.lifecycle_unique
    {l' : Lifecycle} (h : Caches repo external k l) (h' : Caches repo external k l') : l = l' := by
  obtain ⟨e, spec, res, hlook, -, he, -, rfl⟩ := h
  obtain ⟨e', spec', res', hlook', -, he', -, rfl⟩ := h'
  cases hlook.symm.trans hlook'
  cases he.getPackageRevision.symm.trans he'.getPackageRevision
  rfl

theorem Skips.not_caches (h : Skips external k) : ¬ Caches repo external k l := by
  intro h'
  obtain ⟨e, spec, res, hlook, -, hspec, -, hzero, hpub⟩ := h
  obtain ⟨e', spec', res', hlook', -, he', hcache, -⟩ := h'
  cases hlook.symm.trans hlook'
  cases hspec.symm.trans he'.getPackageRevision
  exact hcache.mp hpub hzero

theorem cacheExternalPR_skips
    (h : Skips external k) (hlook : external.lookup k = some e) (now : Nat) (db : Database) :
    cacheExternalPR repo opened now e db = (.ok (), db) := by
  obtain ⟨e', spec, res, hlook', -, hspec, hres, hzero, hpub⟩ := h
  cases hlook.symm.trans hlook'
  refine bind_eq_ok.mpr ⟨spec, db, query_eq_ok.mpr ⟨hspec, rfl⟩, ?_⟩
  refine bind_eq_ok.mpr ⟨res, db, query_eq_ok.mpr ⟨hres, rfl⟩, ?_⟩
  rw [if_pos (by simp [hzero, hpub])]
  rfl

/-- The tables after the loop over `ks`. -/
structure AddsAll (repo : DbRepository) (opened : RepositoryKey → Bool)
    (external : PRMap ExtPackageRevision) (ks : List PackageRevisionKey) (db db' : Database) :
    Prop where
  healthy : Healthy repo opened db'
  repositories : SameRepos db db'
  packages : ∀ p ∈ db.packages, p ∈ db'.packages
  /-- Every package revision that is cached has its row. -/
  cached : ∀ k ∈ ks, ∀ l, Caches repo external k l → ∃ y, rowAt db'.pkgRevs (dbKey k) = some y ∧
    y.lifecycle = l ∧ y.revision = k.revision ∧ rowKey db' y = some k
  /-- The other rows are as they were. -/
  others : ∀ n, (∀ k ∈ ks, ∀ l, Caches repo external k l → dbKey k ≠ n) →
    rowAt db'.pkgRevs n = rowAt db.pkgRevs n

theorem SameRepos.trans {db₁ db₂ db₃ : Database} (h₁ : SameRepos db₁ db₂)
    (h₂ : SameRepos db₂ db₃) : SameRepos db₁ db₃ := by
  refine ⟨fun r hr => ?_, fun r hr => ?_⟩
  · obtain ⟨r₂, hr₂, heq₂⟩ := h₁.1 r hr
    obtain ⟨r₃, hr₃, heq₃⟩ := h₂.1 r₂ hr₂
    exact ⟨r₃, hr₃, heq₃.trans heq₂⟩
  · obtain ⟨r₂, hr₂, heq₂⟩ := h₂.2 r hr
    obtain ⟨r₁, hr₁, heq₁⟩ := h₁.2 r₂ hr₂
    exact ⟨r₁, hr₁, heq₁.trans heq₂⟩

/-- **The loop caches every package revision that is not skipped, and changes no other
    row.** -/
theorem cacheExternalPRs_addsAll (external : PRMap ExtPackageRevision)
    (now : PackageRevisionKey → Nat) (ks : List PackageRevisionKey)
    (h : Healthy repo opened db) (hnodup : ks.Nodup)
    (hks : ∀ k ∈ ks, Skips external k ∨ ∃ l, Caches repo external k l ∧ SaveReady repo db k)
    (hapart : ∀ k ∈ ks, ∀ k' ∈ ks, k ≠ k' → ∀ l l', Caches repo external k l →
      Caches repo external k' l' → Apart k k') :
    ∃ db', cacheExternalPRs repo opened now external ks db = (.ok (), db') ∧
      AddsAll repo opened external ks db db' := by
  induction ks generalizing db with
  | nil =>
    refine ⟨db, rfl, h, .of_eq rfl, fun p hp => hp, fun k hk => ?_, fun n _ => rfl⟩
    cases hk
  | cons k ks ih =>
    obtain ⟨hnotin, htail⟩ := List.nodup_cons.mp hnodup
    have hapart' : ∀ k₁ ∈ ks, ∀ k₂ ∈ ks, k₁ ≠ k₂ → ∀ l l', Caches repo external k₁ l →
        Caches repo external k₂ l' → Apart k₁ k₂ := fun k₁ h₁ k₂ h₂ =>
      hapart k₁ (List.mem_cons_of_mem k h₁) k₂ (List.mem_cons_of_mem k h₂)
    unfold cacheExternalPRs
    obtain hskip | ⟨l, hcaches, hready⟩ := hks k List.mem_cons_self
    · -- nothing is written for this key
      obtain ⟨db', hloop, hall⟩ :=
        ih h htail (fun k' hk' => hks k' (List.mem_cons_of_mem k hk')) hapart'
      have hskip₀ := hskip
      obtain ⟨e, _, _, hlook, -⟩ := hskip
      simp only [hlook]
      refine ⟨db', bind_eq_ok.mpr ⟨(), db, cacheExternalPR_skips hskip₀ hlook _ db, hloop⟩,
        hall.healthy, hall.repositories, hall.packages, fun k' hk' l' hl' => ?_, fun n hn => ?_⟩
      · obtain rfl | hk' := List.mem_cons.mp hk'
        · exact absurd hl' hskip₀.not_caches
        · exact hall.cached k' hk' l' hl'
      · exact hall.others n fun k' hk' => hn k' (List.mem_cons_of_mem k hk')
    · have hcaches₀ := hcaches
      obtain ⟨e, spec, res, hlook, rfl, he, hcache, rfl⟩ := hcaches
      simp only [hlook]
      obtain ⟨db₁, hone, hadds⟩ := cacheExternalPR_adds h he hcache hready (now e.key)
      have hne : ∀ k' ∈ ks, e.key ≠ k' := fun k' hk' heq => hnotin (heq ▸ hk')
      obtain ⟨db', hloop, hall⟩ := ih hadds.healthy htail (fun k' hk' => by
        obtain hskip' | ⟨l', hcaches', hready'⟩ := hks k' (List.mem_cons_of_mem _ hk')
        · exact .inl hskip'
        · have hap := hapart e.key List.mem_cons_self k' (List.mem_cons_of_mem _ hk')
            (hne k' hk') _ l' hcaches₀ hcaches'
          exact .inr ⟨l', hcaches', hready'.of_adds hadds he.ofRepo hap⟩) hapart'
      obtain ⟨y, hrows, hlife, hrev, hkey⟩ := hadds.row
      refine ⟨db', bind_eq_ok.mpr ⟨(), db₁, hone, hloop⟩, hall.healthy,
        hadds.repositories.trans hall.repositories,
        fun p hp => hall.packages p (hadds.packages p hp), fun k' hk' l' hl' => ?_, fun n hn => ?_⟩
      · obtain rfl | hk' := List.mem_cons.mp hk'
        · -- later package revisions have other names
          have hfree : ∀ k' ∈ ks, ∀ l', Caches repo external k' l' → dbKey k' ≠ dbKey e.key :=
            fun k' hk' l' hc' => (hapart e.key List.mem_cons_self k' (List.mem_cons_of_mem _ hk')
              (hne k' hk') _ l' hcaches₀ hc').name.symm
          refine ⟨y, ?_, hlife.trans (hcaches₀.lifecycle_unique hl'), hrev, ?_⟩
          · rw [hall.others _ hfree, hrows, update_self]
          · exact rowKey_mono hall.repositories (fun p hp _ => hall.packages p hp) hkey
        · exact hall.cached k' hk' l' hl'
      · rw [hall.others n fun k' hk' => hn k' (List.mem_cons_of_mem _ hk'), hrows,
          update_of_ne (hn e.key List.mem_cons_self _ hcaches₀).symm]

end Save

end Porch.Db
