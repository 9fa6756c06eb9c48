import Porch.Db.StoreSpec

/- Publishing a proposed package revision writes two rows: its own, with the next
   revision number, and the placeholder of its package, an upsert at revision -1
   under the name of the repository's branch. The trigger lets a write to revision
   -1 through before it looks at the revision that is stored, so the second write
   takes the number from whatever published row has that name.

   `publish_clean_iff` says when a successful publish is clean: exactly when the
   placeholder's name is neither the published revision's own nor that of a row
   with a revision of 0 or more. `failed_publish_restores_iff` says when a publish
   that fails leaves the object in memory as it was. -/
namespace Porch.Db

open Go Sql Proc

/-- What publishing `p` at revision `rev` should do to the table. -/
structure PublishedCleanly (t t' : PkgRevTable) (p : PackageRevisionKey) (rev : Int) : Prop where
  /-- Other rows of the package with a revision keep revision and lifecycle. -/
  others : ∀ x ∈ t, (x.namesp, x.packageName) = pkgDbKey p.pkgKey → x.key ≠ dbKey p →
    0 ≤ x.revision → ∃ y ∈ t', y.key = x.key ∧ y.revision = x.revision ∧ y.lifecycle = x.lifecycle
  /-- The revision is stored as Published under its own name. -/
  self : ∃ y ∈ t', y.key = dbKey p ∧ y.lifecycle = .published ∧ y.revision = rev
  /-- No published row changes its number. -/
  numbered : ∀ x ∈ t, lifecycleIsPublished x.lifecycle → 1 ≤ x.revision →
    ∃ y ∈ t', y.key = x.key ∧ y.revision = x.revision

/-- The placeholder's name is free for it: not the name of `p`, and held by no row
    with a revision of 0 or more. -/
def PlaceholderFree (t : PkgRevTable) (p : PackageRevisionKey) : Prop :=
  dbKey (placeholderKey p.pkgKey) ≠ dbKey p ∧
    ∀ x ∈ t, x.key = dbKey (placeholderKey p.pkgKey) → x.revision < 0

/-! The two writes -/

section Table

variable {t t₁ t₂ : PkgRevTable} {r rp old : PkgRevRow} {p : PackageRevisionKey}

/-- The update of the row and the upsert of the placeholder, on the table. -/
theorem publishedCleanly_iff (hold : old ∈ t) (holdKey : old.key = dbKey p)
    (hprop : old.lifecycle = .proposed) (hr : r.key = dbKey p)
    (hpub : r.lifecycle = .published) (hrev : 1 ≤ r.revision)
    (hrp : rp.key = dbKey (placeholderKey p.pkgKey))
    (hrpPkg : (rp.namesp, rp.packageName) = pkgDbKey p.pkgKey) (hrpRev : rp.revision = -1)
    (h₁ : Stores t r t₁) (h₂ : Stores t₁ rp t₂)
    (hsame : ∀ x ∈ t₁, x.key = rp.key → rp.packageName = x.packageName) :
    PublishedCleanly t t₂ p r.revision ↔ PlaceholderFree t p := by
  obtain ⟨yp, hyp, hypc⟩ := h₂.stored
  obtain ⟨y₁, hy₁, hy₁c⟩ := h₁.stored
  constructor
  · intro h
    refine ⟨fun hkey => ?_, fun x hx hxk => ?_⟩
    · -- the placeholder has overwritten the published row
      obtain ⟨y, hy, hyk, -, hyrev⟩ := h.self
      have hyy : y = yp := Table.eq_of_key_eq hy hyp (by
        rw [hyk, key_of_content hypc, hrp, hkey])
      have := revision_of_content hypc
      rw [← hyy, hyrev, hrpRev] at this
      omega
    · by_contra hneg
      -- a row of the package with a revision has been overwritten
      have hxne : x.key ≠ r.key := by
        intro hxr
        obtain ⟨y, hy, hyk, -, hyrev⟩ := h.self
        have hyy : y = yp := Table.eq_of_key_eq hy hyp (by
          rw [hyk, key_of_content hypc, hrp, ← hr, ← hxr, hxk])
        have := revision_of_content hypc
        rw [← hyy, hyrev, hrpRev] at this
        omega
      obtain ⟨x₁, hx₁, hx₁c⟩ := h₁.kept x hx hxne
      have hx₁k : x₁.key = rp.key := by rw [key_of_content hx₁c, hxk, hrp]
      have hpkg : x.packageName = rp.packageName := by
        rw [← packageName_of_content hx₁c, hsame x₁ hx₁ hx₁k]
      have hns : x.namesp = rp.namesp := congrArg Prod.fst (hxk.trans hrp.symm)
      obtain ⟨y, hy, hyk, hyrev, -⟩ :=
        h.others x hx (by rw [hns, hpkg, hrpPkg]) (hr ▸ hxne) (by omega)
      have hyy : y = yp := Table.eq_of_key_eq hy hyp (by
        rw [hyk, hxk, key_of_content hypc, hrp])
      have := revision_of_content hypc
      rw [← hyy, hyrev, hrpRev] at this
      omega
  · intro ⟨hkey, hfree⟩
    -- a row with another key and a revision of 0 or more survives both writes
    have hsurvive : ∀ x ∈ t, x.key ≠ dbKey p → 0 ≤ x.revision →
        ∃ y ∈ t₂, y.content = x.content := by
      intro x hx hxne hxrev
      obtain ⟨x₁, hx₁, hx₁c⟩ := h₁.kept x hx (hr ▸ hxne)
      have hx₁ne : x₁.key ≠ rp.key := by
        rw [key_of_content hx₁c, hrp]
        intro hxk
        have := hfree x hx hxk
        omega
      obtain ⟨x₂, hx₂, hx₂c⟩ := h₂.kept x₁ hx₁ hx₁ne
      exact ⟨x₂, hx₂, hx₂c.trans hx₁c⟩
    refine ⟨fun x hx _ hxne hxrev => ?_, ?_, fun x hx hxpub hxrev => ?_⟩
    · obtain ⟨y, hy, hyc⟩ := hsurvive x hx hxne hxrev
      exact ⟨y, hy, key_of_content hyc, revision_of_content hyc, lifecycle_of_content hyc⟩
    · have hne : y₁.key ≠ rp.key := by
        rw [key_of_content hy₁c, hr, hrp]
        exact hkey.symm
      obtain ⟨y₂, hy₂, hy₂c⟩ := h₂.kept y₁ hy₁ hne
      have hyc := hy₂c.trans hy₁c
      exact ⟨y₂, hy₂, (key_of_content hyc).trans hr, (lifecycle_of_content hyc).trans hpub,
        revision_of_content hyc⟩
    · have hxne : x.key ≠ dbKey p := by
        intro hxk
        rw [Table.eq_of_key_eq hx hold (hxk.trans holdKey.symm), hprop] at hxpub
        cases hxpub
      obtain ⟨y, hy, hyc⟩ := hsurvive x hx hxne (by omega)
      exact ⟨y, hy, key_of_content hyc, revision_of_content hyc⟩

end Table

/-! The methods -/

section Method

variable {push : Database → DbPackageRevision → Except CacheError Str}
  {opened : RepositoryKey → Bool} {now : Nat} {db db' : Database} {p p' pr pr' : DbPackageRevision}
  {u : Unit}

/-- The placeholder is made from the revision itself, also when its resources have
    to be read first. -/
theorem publishPlaceholder_ok
    (h : publishPlaceholderPRForPRUnder {} now (db, pr) = (.ok u, db', pr'))
    (hrev : 1 ≤ pr.pkgRevKey.revision)
    (hread : ∀ q, pkgRevReadFromDB pr.pkgRevKey true db = (.ok q, db) →
      q.pkgRevKey = pr.pkgRevKey) : ∃ q : DbPackageRevision, q.pkgRevKey = pr.pkgRevKey ∧
      pkgRevUpdateDB (toMainPackageRevision now q) true db = (.ok (), db') := by
  rw [publishPlaceholderPRForPRUnder, this_bind] at h
  dsimp only [orFault] at h
  -- both branches go on with an object of the same key in the same database
  have hobj : ∃ q : DbPackageRevision, q.pkgRevKey = pr.pkgRevKey ∧ ∃ pr₁,
      (if 1 ≤ q.pkgRevKey.revision then
        onFst (pkgRevUpdateDB (toMainPackageRevision now q) true) else pure ()) (db, pr₁) =
      (.ok u, db', pr') := by
    split at h
    · obtain ⟨q, ⟨db₁, pr₁⟩, hq, h⟩ := bind_eq_ok.mp h
      obtain ⟨hread', -⟩ := onFst_eq_ok.mp hq
      obtain ⟨hdb₁, -⟩ := pkgRevReadFromDB_ok hread'
      simp only at hdb₁ hread'
      subst db₁
      exact ⟨q, hread q hread', pr₁, h⟩
    · obtain ⟨q, ⟨db₁, pr₁⟩, hq, h⟩ := bind_eq_ok.mp h
      obtain ⟨rfl, hs⟩ := pure_eq_ok.mp hq
      cases hs
      exact ⟨pr, rfl, pr, h⟩
  obtain ⟨q, hkey, pr₁, h⟩ := hobj
  rw [if_pos (by rw [hkey]; exact hrev)] at h
  obtain ⟨hupd, -⟩ := onFst_eq_ok.mp h
  exact ⟨q, hkey, hupd⟩

theorem publishPR_ok (h : publishPRUnder push {} now .published (db, p) = (.ok u, db', p')) :
    ∃ (rev : Int) (pr : DbPackageRevision) (db₁ : Database),
      pkgRevGetlatestRevFromDB p.pkgRevKey.pkgKey db = (.ok rev, db) ∧
      pr.pkgRevKey = { p.pkgRevKey with revision := rev + 1 } ∧ pr.lifecycle = .published ∧
      pkgRevUpdateDB pr false db = (.ok (), db₁) ∧
      publishPlaceholderPRForPRUnder {} now (db₁, { pr with latest := true }) = (.ok u, db', p') := by
  rw [publishPRUnder, this_bind] at h
  dsimp only [orFault, storePublished] at h
  obtain ⟨rev, ⟨db₁, p₁⟩, hrev, h⟩ := bind_eq_ok.mp h
  obtain ⟨hlat, hp₁⟩ := onFst_eq_ok.mp hrev
  obtain ⟨hdb₁, -⟩ := pkgRevGetlatestRevFromDB_ok hlat
  dsimp only at hdb₁ hp₁ hlat
  subst db₁ p₁
  rw [assign_bind, this_bind, attempt_bind] at h
  -- the push reads the database only
  cases hpush : push db { setRevision (rev + 1) p with lifecycle := .published } with
  | error e =>
    simp only [onFst, query, hpush] at h
    exact absurd h throw_ne_ok
  | ok commit =>
    simp only [onFst, query, hpush] at h
    rw [assign_bind, this_bind] at h
    obtain ⟨_, ⟨db₂, pr₁⟩, hupd, h⟩ := bind_eq_ok.mp h
    obtain ⟨hupd, rfl⟩ := onFst_eq_ok.mp hupd
    exact ⟨rev, _, db₂, hlat, rfl, rfl, hupd, h⟩

theorem updateLifecycle_publish_ok (hprop : p.lifecycle = .proposed)
    (h : updateLifecycle push opened now .published (db, p) = (.ok u, db', p')) :
    ∃ p₁, publishPRUnder push {} now .published (db, p) = (.ok (), db', p₁) := by
  rw [updateLifecycle, updateLifecycleUnder, this_bind] at h
  split at h
  · exact absurd h throw_ne_ok
  · rw [if_pos ⟨hprop, rfl⟩, attempt_bind] at h
    rcases hpublish : publishPRUnder push {} now .published (db, p) with ⟨e | _, db₁, p₁⟩
    · rw [hpublish] at h
      exact absurd h throw_ne_ok
    · rw [hpublish] at h
      cases h
      exact ⟨p₁, rfl⟩

/-- After its row has got a new revision, the object is read back under the same key
    with that revision. -/
theorem read_after_update {q : DbPackageRevision} {n : Int} {t : PkgRevTable} {b : Bool}
    (hread : pkgRevReadFromDB p.pkgRevKey false db = (.ok q, db)) (hq : q.pkgRevKey = p.pkgRevKey)
    (hkey : pr.pkgRevKey = { p.pkgRevKey with revision := n })
    (hupd : updateRow db.pkgRevs pr.row = .ok t) {q' : DbPackageRevision}
    (h : pkgRevReadFromDB pr.pkgRevKey b { db with pkgRevs := t } =
      (.ok q', { db with pkgRevs := t })) : q'.pkgRevKey = pr.pkgRevKey := by
  have hdb : dbKey pr.pkgRevKey = dbKey p.pkgRevKey := by
    rw [hkey]
    rfl
  obtain ⟨-, x, hx, hxk, q₀, hjoin, hq₀, -⟩ := pkgRevReadFromDB_ok hread
  obtain ⟨-, y, hy, hyk, q₁, hjoin', hq₁, -⟩ := pkgRevReadFromDB_ok h
  obtain ⟨⟨⟨z, hz, hzc⟩, -, -⟩, old, hold, holdk, hpkg⟩ := updateRow_stores hupd
  -- the row is the one that the update has stored over the row of the first read
  have hyz : y = z := Table.eq_of_key_eq hy hz (hyk.trans (key_of_content hzc).symm)
  have hxold : x = old :=
    Table.eq_of_key_eq hx hold (by rw [hxk, holdk, row_key, hdb])
  subst y x
  have hpkgName : z.packageName = old.packageName := (packageName_of_content hzc).trans hpkg
  have hzold : z.key = old.key := (key_of_content hzc).trans holdk.symm
  have hns : z.namesp = old.namesp := congrArg Prod.fst hzold
  have hname : z.name = old.name := congrArg Prod.snd hzold
  obtain ⟨pk, r, hpk, hr, rfl⟩ := joinRow_eq_some.mp hjoin
  obtain ⟨pk', r', hpk', hr', rfl⟩ := joinRow_eq_some.mp hjoin'
  rw [hns, hpkgName] at hpk'
  obtain rfl : pk = pk' := Option.some.inj (hpk.symm.trans hpk')
  obtain rfl : r = r' := Option.some.inj (hr.symm.trans hr')
  have hp : p.pkgRevKey = (scanRow r pk old).pkgRevKey := hq.symm.trans hq₀
  rw [hq₁, hkey, hp]
  simp only [scanRow, hname, revision_of_content hzc]
  rw [DbPackageRevision.row, hkey]

/-- **A successful publish is clean exactly when the placeholder's name is free.** -/
theorem publish_clean_iff (push : Database → DbPackageRevision → Except CacheError Str)
    (opened : RepositoryKey → Bool) (now : Nat) (db db' : Database) (p p' : DbPackageRevision)
    (hprop : p.lifecycle = .proposed)
    (hread : ∃ q, pkgRevReadFromDB p.pkgRevKey false db = (.ok q, db) ∧
      q.pkgRevKey = p.pkgRevKey ∧ q.lifecycle = .proposed)
    (hok : updateLifecycle push opened now .published (db, p) = (.ok (), db', p')) :
    (∃ rev, pkgRevGetlatestRevFromDB p.pkgRevKey.pkgKey db = (.ok rev, db) ∧
      PublishedCleanly db.pkgRevs db'.pkgRevs p.pkgRevKey (rev + 1)) ↔
      PlaceholderFree db.pkgRevs p.pkgRevKey := by
  obtain ⟨q, hq, hqkey, hqlife⟩ := hread
  obtain ⟨p₁, hpublish⟩ := updateLifecycle_publish_ok hprop hok
  obtain ⟨rev, pr, db₁, hlat, hkey, hlife, hupd, hplaceholder⟩ := publishPR_ok hpublish
  obtain ⟨-, hnn⟩ := pkgRevGetlatestRevFromDB_ok hlat
  have hprRev : pr.pkgRevKey.revision = rev + 1 := by rw [hkey]
  have hprPkg : pr.pkgRevKey.pkgKey = p.pkgRevKey.pkgKey := by rw [hkey]
  obtain ⟨t₁, hrow, rfl⟩ := pkgRevUpdateDB_ok (by omega) hupd
  obtain ⟨m, hmkey, hmain⟩ := publishPlaceholder_ok hplaceholder
    (by show 1 ≤ pr.pkgRevKey.revision; omega)
    fun q' hq' => read_after_update hq hqkey hkey hrow hq'
  have hups := pkgRevUpdateDB_placeholder_ok rfl hmain
  obtain ⟨x, hx, hxk, q₀, hjoin, -, hlife₀⟩ := (pkgRevReadFromDB_ok hq).2
  obtain ⟨_, _, -, -, rfl⟩ := joinRow_eq_some.mp hjoin
  obtain ⟨hstores₁, -⟩ := updateRow_stores hrow
  obtain ⟨hstores₂, hsame⟩ := upsertRow_stores rfl hups
  have hmain : m.pkgRevKey.pkgKey = p.pkgRevKey.pkgKey := by rw [hmkey]; exact hprPkg
  have hclean := publishedCleanly_iff (p := p.pkgRevKey) hx hxk (hlife₀.symm.trans hqlife)
    (by rw [row_key, hkey]; rfl) hlife (by show 1 ≤ pr.pkgRevKey.revision; omega)
    (by rw [row_key]; simp only [toMainPackageRevision, hmain])
    (by simp only [DbPackageRevision.row, toMainPackageRevision, placeholderKey, hmain, pkgDbKey])
    rfl hstores₁ hstores₂ fun x hx hxk => hsame x hx hxk
  rw [show pr.row.revision = rev + 1 from hprRev] at hclean
  refine ⟨fun ⟨rev', hrev', h⟩ => hclean.mp ?_, fun h => ⟨rev, hlat, hclean.mpr h⟩⟩
  rw [hlat] at hrev'
  cases hrev'
  exact h

end Method

/-! A repository with one package, and one proposed revision in it -/

def sampleRepo : RepoRow where
  namesp := "ns"
  name := "repo"
  defaultWsName := "main"

def sampleProposed (workspaceName : Str) : DbPackageRevision where
  pkgRevKey :=
    { pkgKey := { repoKey := repoKeyOf sampleRepo, path := [], package := "pkg" }
      revision := 0
      workspaceName := workspaceName }
  lifecycle := .proposed
  resources := [("Kptfile", "v")]

/-- The database after the revision has been created as a draft and proposed. -/
def sampleStore (workspaceName : Str) : Database :=
  let create : Proc Database CacheError Unit := do
    savePackage (fun _ => true) (sampleProposed workspaceName).pkgRevKey.pkgKey
    pkgRevWriteToDB { sampleProposed workspaceName with lifecycle := .draft }
    pkgRevUpdateDB (sampleProposed workspaceName) false
  (create { repositories := ⟨[sampleRepo], by decide⟩ }).2

def samplePublish (workspaceName : Str) : Except CacheError Unit × Database × DbPackageRevision :=
  updateLifecycle (fun _ _ => .ok "commit") (fun _ => true) 1 .published
    (sampleStore workspaceName, sampleProposed workspaceName)

/-- Workspace `v1` of a repository on branch `main`. -/
theorem publish_clean_iff_v1 :
    (∃ rev, pkgRevGetlatestRevFromDB (sampleProposed "v1").pkgRevKey.pkgKey
        (sampleStore "v1") = (.ok rev, sampleStore "v1") ∧
      PublishedCleanly (sampleStore "v1").pkgRevs (samplePublish "v1").2.1.pkgRevs
        (sampleProposed "v1").pkgRevKey (rev + 1)) ↔
      PlaceholderFree (sampleStore "v1").pkgRevs (sampleProposed "v1").pkgRevKey :=
  publish_clean_iff (fun _ _ => .ok "commit") (fun _ => true) 1 (sampleStore "v1")
    (samplePublish "v1").2.1 (sampleProposed "v1") (samplePublish "v1").2.2
    rfl ⟨{ sampleProposed "v1" with resources := [] }, Prod.ext (by decide) rfl, rfl, rfl⟩
    (Prod.ext (by decide) rfl)

/-- Workspace `main` of a repository on branch `main`: the call succeeds, and the row
    of the revision has become the placeholder. -/
theorem placeholder_takes_published_row : (samplePublish "main").1 = .ok () ∧
      (pkgRevReadFromDB (sampleProposed "main").pkgRevKey false
        (sampleStore "main")).1 = .ok { sampleProposed "main" with resources := [] } ∧
      (pkgRevGetlatestRevFromDB (sampleProposed "main").pkgRevKey.pkgKey
        (sampleStore "main")).1 = .ok 0 ∧
      ¬ PublishedCleanly (sampleStore "main").pkgRevs
        (samplePublish "main").2.1.pkgRevs (sampleProposed "main").pkgRevKey 1 := by
  refine ⟨by decide, by decide, by decide, fun h => ?_⟩
  have hrows : ∀ y ∈ (samplePublish "main").2.1.pkgRevs.rows, y.revision = -1 := by decide
  obtain ⟨y, hy, -, -, hrev⟩ := h.self
  rw [hrows y hy] at hrev
  omega

/-! A publish that fails -/

section Failure

variable (push : Database → DbPackageRevision → Except CacheError Str) (faults : Faults)

/-- The in-memory fields that a publish assigns. -/
structure SameFields (p p' : DbPackageRevision) : Prop where
  lifecycle : p'.lifecycle = p.lifecycle
  revision : p'.pkgRevKey.revision = p.pkgRevKey.revision
  extCommit : p'.extCommit = p.extCommit
  lastPushed : p'.lastPushedDbUpdated = p.lastPushedDbUpdated

/-- The latest revision can be read and git takes the push of the next one. -/
def Pushes (db : Database) (p : DbPackageRevision) : Prop :=
  faults.latest = none ∧ ∃ rev commit,
    pkgRevGetlatestRevFromDB p.pkgRevKey.pkgKey db = (.ok rev, db) ∧
      push db { setRevision (rev + 1) p with lifecycle := .published } = .ok commit

variable {push faults} {now : Nat} {db db' : Database} {p p' : DbPackageRevision}

theorem storePublished_lifecycle (s : Database × DbPackageRevision) :
    (storePublished faults now s).2.2.lifecycle = s.2.lifecycle := by
  have frame : Frame fun s s' : Database × DbPackageRevision =>
      s'.2.lifecycle = s.2.lifecycle := ⟨fun _ => rfl, fun _ _ _ h₁ h₂ => h₂.trans h₁⟩
  have hcall {α : Type} (fault : Option CacheError) (x : Proc Database CacheError α) :
      Keeps (fun s s' => s'.2.lifecycle = s.2.lifecycle) (orFault fault (onFst x)) := by
    intro s
    cases fault <;> rfl
  refine frame.bind (fun _ => rfl) (fun pr => frame.bind (hcall _ _) fun _ => ?_) s
  unfold publishPlaceholderPRForPRUnder
  refine frame.bind (fun _ => rfl) fun _ => frame.bind (fun _ => rfl) fun pr => ?_
  -- both branches go on to the placeholder
  have hlast (q : DbPackageRevision) : Keeps (fun s s' => s'.2.lifecycle = s.2.lifecycle)
      (if 1 ≤ q.pkgRevKey.revision then orFault faults.placeholder
        (.onFst (pkgRevUpdateDB (toMainPackageRevision now q) true)) else pure ()) := by
    split
    · exact hcall _ _
    · exact fun _ => rfl
  dsimp only
  split
  · exact frame.bind (hcall _ _) hlast
  · exact frame.bind (fun _ => rfl) hlast

theorem publishPRUnder_pushed (now : Nat) (h : Pushes push faults db p) :
    (publishPRUnder push faults now .published (db, p)).2.2.lifecycle = .published := by
  obtain ⟨hfault, rev, commit, hrev, hpush⟩ := h
  rw [publishPRUnder, this_bind, hfault, orFault,
    bind_run_ok (onFst_eq_ok.mpr ⟨hrev, rfl⟩), assign_bind, this_bind,
    attempt_bind]
  simp only [onFst, query, hpush]
  rw [assign_bind]
  exact storePublished_lifecycle _

/-- Nothing is kept of a publish that fails up to the push, the revision apart. -/
theorem publishPRUnder_unpushed (now : Nat) (hprop : p.lifecycle = .proposed)
    (h : ¬ Pushes push faults db p) :
    ∃ e q, (publishPRUnder push faults now .published (db, p)).1 = .error e ∧
      (publishPRUnder push faults now .published (db, p)).2.2 = setRevision q p := by
  rw [publishPRUnder, this_bind]
  cases hfault : faults.latest with
  | some e => exact ⟨e, p.pkgRevKey.revision, rfl, rfl⟩
  | none =>
    rw [orFault]
    rcases hrev : pkgRevGetlatestRevFromDB p.pkgRevKey.pkgKey db with ⟨e | rev, db₁⟩
    · rw [bind_run_error (e := e) (t := (db₁, p)) (by simp [onFst, hrev])]
      exact ⟨e, p.pkgRevKey.revision, rfl, rfl⟩
    · obtain rfl : db₁ = db := (pkgRevGetlatestRevFromDB_ok hrev).1
      rw [bind_run_ok (onFst_eq_ok.mpr ⟨hrev, rfl⟩), assign_bind, this_bind,
        attempt_bind]
      cases hpush : push db₁ { setRevision (rev + 1) p with lifecycle := .published } with
      | ok commit => exact absurd ⟨hfault, rev, commit, hrev, hpush⟩ h
      | error e =>
        simp only [onFst, query, hpush]
        refine ⟨e, 0, rfl, ?_⟩
        show { setRevision 0 p with lifecycle := .proposed } = setRevision 0 p
        rw [← hprop]
        rfl

/-- **A failed publish leaves the object as it was exactly when it fails before git has
    taken the push.** -/
theorem failed_publish_restores_iff
    (push : Database → DbPackageRevision → Except CacheError Str) (faults : Faults) (now : Nat)
    (opened : RepositoryKey → Bool) (db db' : Database) (p p' : DbPackageRevision) (e : CacheError)
    (hprop : p.lifecycle = .proposed)
    (hfail : updateLifecycleUnder push faults now opened .published (db, p) = (.error e, db', p')) :
    SameFields p p' ↔ opened p.pkgRevKey.pkgKey.repoKey = false ∨
      (p.pkgRevKey.revision = 0 ∧ ¬ Pushes push faults db p) := by
  rw [updateLifecycleUnder, this_bind] at hfail
  by_cases hopened : opened p.pkgRevKey.pkgKey.repoKey = false
  · rw [if_pos (by simp [hopened])] at hfail
    cases hfail
    exact ⟨fun _ => .inl hopened, fun _ => ⟨rfl, rfl, rfl, rfl⟩⟩
  · rw [if_neg (by simpa using hopened), if_pos ⟨hprop, rfl⟩, attempt_bind] at hfail
    rw [or_iff_right hopened]
    by_cases hpushes : Pushes push faults db p
    · -- the object stays published whatever fails afterwards
      have hlife := publishPRUnder_pushed now hpushes
      have hp' : p'.lifecycle = .published := by
        cases hres : (publishPRUnder push faults now .published (db, p)).1 with
        | ok u =>
          rw [hres] at hfail
          cases hfail
        | error e' =>
          rw [hres] at hfail
          cases hfail
          exact hlife
      refine ⟨fun h => ?_, fun h => absurd hpushes h.2⟩
      have := h.lifecycle
      rw [hp', hprop] at this
      cases this
    · obtain ⟨e', q, hres, hstate⟩ := publishPRUnder_unpushed now hprop hpushes
      rw [hres] at hfail
      have hp' : setRevision 0 (publishPRUnder push faults now .published (db, p)).2.2 = p' :=
        congrArg (fun x => x.2.2) hfail
      rw [hstate] at hp'
      subst hp'
      exact ⟨fun h => ⟨h.revision.symm, hpushes⟩, fun h => ⟨rfl, h.1.symm, rfl, rfl⟩⟩

end Failure

/-- A publish of workspace `v1` that git answers with `answer`. -/
def sampleFailed (answer : Except CacheError Str) (faults : Faults) :
    Except CacheError Unit × Database × DbPackageRevision :=
  updateLifecycleUnder (fun _ _ => answer) faults 1 (fun _ => true) .published
    (sampleStore "v1", sampleProposed "v1")

theorem failed_publish_restores_iff_refused :
    SameFields (sampleProposed "v1") (sampleFailed (.error .external) {}).2.2 ↔
      true = false ∨ ((0 : Int) = 0 ∧ ¬ Pushes (fun _ _ => .error .external) {}
        (sampleStore "v1") (sampleProposed "v1")) :=
  failed_publish_restores_iff (fun _ _ => .error .external) {} 1 (fun _ => true) _
    (sampleFailed (.error .external) {}).2.1 _ _ .external rfl (Prod.ext (by decide) rfl)

/-- Git takes the push, and the row cannot be updated: the object stays Published, with
    revision 0 and the new commit. -/
theorem failed_update_leaves_published :
    (sampleFailed (.ok "commit") { update := some .noRows }).1 = .error .noRows ∧
      ¬ SameFields (sampleProposed "v1")
        (sampleFailed (.ok "commit") { update := some .noRows }).2.2 :=
  ⟨by decide, fun h => absurd h.lifecycle (by decide)⟩

end Porch.Db
