import Porch.Db.Sync
import Porch.Db.View

/- What sync leaves alone, however it ends: its first half only erases, so a row that is
   still there afterwards is as it was (`syncCachedOnly_erases`), and a save changes the
   content of its own name only (`savePackageRevision_content`). -/
namespace Porch.Db

open Go Sql Function Proc

/-! Erasing -/

/-- Every row of `db'` is a row of `db`, with the same resources. -/
def Erases (db db' : Database) : Prop :=
  ∀ k, rowAt db'.pkgRevs k = none ∨
    rowAt db'.pkgRevs k = rowAt db.pkgRevs k ∧ db'.resources k = db.resources k

theorem Erases.frame : Proc.Frame Erases := by
  refine ⟨fun _ _ => .inr ⟨rfl, rfl⟩, fun db₁ db₂ db₃ h₁ h₂ k => ?_⟩
  obtain hnone | ⟨hrow, hres⟩ := h₂ k
  · exact .inl hnone
  · obtain hnone | ⟨hrow', hres'⟩ := h₁ k
    · exact .inl (hrow.trans hnone)
    · exact .inr ⟨hrow.trans hrow', hres.trans hres'⟩

theorem pkgRevDeleteFromDB_erases (prk : PackageRevisionKey) :
    Proc.Keeps Erases (pkgRevDeleteFromDB prk) := by
  intro db k
  obtain ⟨t, ht, heq⟩ := pkgRevDeleteFromDB_eq prk db
  simp only [heq, deleteRow_rowAt ht]
  by_cases hk : k = dbKey prk
  · subst hk
    exact .inl (update_self ..)
  · exact .inr ⟨update_of_ne hk .., update_of_ne hk ..⟩

theorem pkgDeleteFromDB_erases (pk : PackageKey) : Proc.Keeps Erases (pkgDeleteFromDB pk) := by
  apply Erases.frame.stmt
  intro db db' h k
  cases h
  simp only [deletePackageRows_rowAt]
  cases hrow : rowAt db.pkgRevs k with
  | none => exact .inl rfl
  | some y =>
    by_cases hy : (y.namesp, y.packageName) = pkgDbKey pk
    · exact .inl (Option.filter_eq_none_iff.mpr fun z hz => by cases hz; simpa using hy)
    · refine .inr ⟨Option.filter_eq_some_iff.mpr ⟨rfl, decide_eq_true hy⟩, ?_⟩
      -- the row is not one of the cascade
      obtain ⟨x, hx, hxk, rfl⟩ := rowAt_eq_some.mp hrow
      refine if_neg ?_
      simp only [Table.lookup_eq_some.mpr ⟨hx, hxk⟩, decide_eq_true_eq]
      exact hy

section Rules

variable {R : Database → Database → Prop} (hR : Proc.Frame R) {opened : RepositoryKey → Bool}
include hR

section

variable (hrow : ∀ prk, Proc.Keeps R (pkgRevDeleteFromDB prk))
  (hpkg : ∀ pk, Proc.Keeps R (pkgDeleteFromDB pk))
include hrow hpkg

theorem keeps_deletePackageRevision (pk : PackageKey) (pr : DbPackageRevision) :
    Proc.Keeps R (deletePackageRevision pk pr) := by
  refine hR.bind (hrow _) fun _ => hR.bind hR.query fun prs => ?_
  split
  · exact hpkg pk
  · exact hR.pure

theorem keeps_deleteCachedOnlyPR {repo : DbRepository}
    (prk : PackageRevisionKey) (snapshot : DbPackageRevision) :
    Proc.Keeps R (deleteCachedOnlyPR repo opened prk snapshot) := by
  refine hR.bind (keeps_attempt hR.query) fun outcome => ?_
  split
  · exact hR.pure
  · exact hR.throw
  · split
    · exact hR.pure
    · split
      · exact hR.pure
      · refine hR.bind hR.query fun pkgs => ?_
        split
        · exact keeps_deletePackageRevision hR hrow hpkg _ _
        · exact hR.throw

end

/-- A package that is there already is only looked at. -/
theorem keeps_savePackage {pk : PackageKey} (hpkg : Proc.Keeps R (pkgWriteToDB pk)) :
    Proc.Keeps R (savePackage opened pk) := by
  refine hR.bind (keeps_attempt hR.query) fun outcome => ?_
  split
  · refine hR.stmt fun db db' h => ?_
    split at h
    · cases h
    · split at h
      · cases h
        exact hR.refl db
      · cases h
  · exact hpkg
  · exact hR.throw

theorem keeps_savePackageIfNew {pk : PackageKey} (hpkg : Proc.Keeps R (pkgWriteToDB pk)) :
    Proc.Keeps R (savePackageIfNew opened pk) := by
  refine hR.bind (keeps_attempt hR.query) fun outcome => ?_
  split
  · exact hR.pure
  · exact keeps_savePackage hR hpkg
  · exact hR.throw

end Rules

section Sync

variable {repo : DbRepository} {opened : RepositoryKey → Bool} {left right : MapOrder}
  {now : PackageRevisionKey → Nat} {ext : External}

theorem deleteCachedOnlyPR_erases (prk : PackageRevisionKey) (snapshot : DbPackageRevision) :
    Proc.Keeps Erases (deleteCachedOnlyPR repo opened prk snapshot) :=
  keeps_deleteCachedOnlyPR Erases.frame pkgRevDeleteFromDB_erases pkgDeleteFromDB_erases prk snapshot

theorem handleInCachedOnly_erases (cached : PRMap DbPackageRevision)
    (ks : List PackageRevisionKey) :
    Proc.Keeps Erases (handleInCachedOnly repo opened cached ks) := by
  induction ks with
  | nil => exact Erases.frame.pure
  | cons k ks ih =>
    unfold handleInCachedOnly
    split
    · exact ih
    · split
      · exact Erases.frame.bind ih fun _ => Erases.frame.pure
      · exact Erases.frame.bind (deleteCachedOnlyPR_erases _ _) fun _ => ih

theorem getExternalPRMap_keeps :
    Proc.Keeps (fun s s' : Database × RepositorySync => s'.1 = s.1) (getExternalPRMap ext) := by
  have frame : Frame fun s s' : Database × RepositorySync => s'.1 = s.1 :=
    ⟨fun _ => rfl, fun _ _ _ h₁ h₂ => h₂.trans h₁⟩
  refine frame.bind frame.query fun version => frame.bind (fun _ => rfl) fun s => ?_
  split
  · exact frame.pure
  · exact frame.bind frame.query fun prs => frame.bind (fun _ => rfl) fun _ => frame.pure

/-- **The first half of sync only erases.** -/
theorem syncCachedOnly_erases : Proc.Keeps (fun s s' : Database × RepositorySync => Erases s.1 s'.1)
      (syncCachedOnly repo opened left right ext) := by
  have frame := Erases.frame.fst (τ := RepositorySync)
  refine frame.bind (keeps_onFst ?_) fun cached => frame.bind (fun s => ?_) fun external => ?_
  · exact Erases.frame.bind Erases.frame.query fun _ => Erases.frame.pure
  · show Erases s.1 _
    rw [getExternalPRMap_keeps s]
    exact Erases.frame.refl s.1
  · exact frame.bind (keeps_onFst (handleInCachedOnly_erases _ _)) fun _ => frame.pure

end Sync

/-! Saving -/

/-- The functions that write packages and repositories leave the rows of package
    revisions alone. -/
def SameRows (db db' : Database) : Prop :=
  db'.pkgRevs = db.pkgRevs ∧ db'.resources = db.resources

theorem SameRows.frame : Proc.Frame SameRows :=
  ⟨fun _ => ⟨rfl, rfl⟩, fun _ _ _ h₁ h₂ => ⟨h₂.1.trans h₁.1, h₂.2.trans h₁.2⟩⟩

theorem SameRows.contentAt {db db' : Database} (h : SameRows db db') (k : Str × Str) :
    contentAt db' k = contentAt db k := by
  rw [Porch.Db.contentAt, Porch.Db.contentAt, h.1, h.2]

theorem pkgWriteToDB_sameRows (pk : PackageKey) : Proc.Keeps SameRows (pkgWriteToDB pk) :=
  keeps_pkgWriteToDB SameRows.frame fun _ _ _ _ => ⟨rfl, rfl⟩

theorem repoUpdateDB_sameRows (rk : RepositoryKey) (deployment : Bool) :
    Proc.Keeps SameRows (repoUpdateDB rk deployment) :=
  keeps_repoUpdateDB SameRows.frame fun _ _ _ => ⟨rfl, rfl⟩

theorem savePackageIfNew_sameRows (opened : RepositoryKey → Bool) (pk : PackageKey) :
    Proc.Keeps SameRows (savePackageIfNew opened pk) :=
  keeps_savePackageIfNew SameRows.frame (pkgWriteToDB_sameRows pk)

/-- If `k` holds `o`, it still does. -/
def StillHolds (k : Str × Str) (o : Option (Lifecycle × Str × Resources)) (db db' : Database) :
    Prop := contentAt db k = o → contentAt db' k = o

section Save

variable {k : Str × Str} {o : Option (Lifecycle × Str × Resources)} {pr : DbPackageRevision}

theorem StillHolds.frame : Proc.Frame (StillHolds k o) := .imp fun db => contentAt db k = o

variable {db db' : Database} {u : Unit}

theorem SameRows.stillHolds (h : SameRows db db') : StillHolds k o db db' :=
  fun hk => (h.contentAt k).trans hk

section

variable (hpr : dbKey pr.pkgRevKey = k → o = some pr.content)
include hpr

theorem stillHolds_of_stores {t : PkgRevTable} (h : Stores db.pkgRevs pr.row t) :
    StillHolds k o db { db with pkgRevs := t } := by
  intro hk
  show (rowAt t k).map _ = o
  rw [h.rowAt]
  by_cases hkey : k = dbKey pr.pkgRevKey
  · -- the resources are still those of the row before, which are the object's
    have ho := hpr hkey.symm
    rw [ho] at hk ⊢
    obtain ⟨y, -, hy⟩ := Option.map_eq_some_iff.mp hk
    rw [row_key, ← hkey, update_self]
    simp only [DbPackageRevision.content, Prod.mk.injEq] at hy
    simp only [Option.map_some, content_lifecycle, content_tasks, hy.2.2]
    rfl
  · rw [row_key, update_of_ne hkey]
    exact hk

theorem pkgRevResourcesWriteToDB_stillHolds :
    Proc.Keeps (StillHolds k o) (pkgRevResourcesWriteToDB pr) := by
  apply keeps_pkgRevResourcesWriteToDB StillHolds.frame
  intro db hk
  show (rowAt db.pkgRevs k).map _ = o
  by_cases hkey : k = dbKey pr.pkgRevKey
  · have ho := hpr hkey.symm
    rw [ho] at hk ⊢
    obtain ⟨y, hrow, hy⟩ := Option.map_eq_some_iff.mp hk
    simp only [DbPackageRevision.content, Prod.mk.injEq] at hy
    rw [hrow, ← hkey]
    simp only [Option.map_some, update_self, hy.1, hy.2.1]
    rfl
  · simp only [update_of_ne hkey]
    exact hk

theorem pkgRevUpdateDB_stillHolds (b : Bool) : Proc.Keeps (StillHolds k o) (pkgRevUpdateDB pr b) :=
  keeps_pkgRevUpdateDB StillHolds.frame
    (fun _ _ ht => stillHolds_of_stores hpr (pkgRevUpdateDB_stores ht))
    (pkgRevResourcesWriteToDB_stillHolds hpr) b

theorem pkgRevWriteToDB_stillHolds : Proc.Keeps (StillHolds k o) (pkgRevWriteToDB pr) :=
  keeps_pkgRevWriteToDB StillHolds.frame
    (fun _ _ ht => stillHolds_of_stores hpr (pkgRevWriteToDB_stores ht))
    (pkgRevResourcesWriteToDB_stillHolds hpr)

end

theorem contentAt_of_saved {t : PkgRevTable} (hrow : Stores db.pkgRevs pr.row t)
    (hres : pkgRevResourcesWriteToDB pr { db with pkgRevs := t } = (.ok u, db')) :
    contentAt db' (dbKey pr.pkgRevKey) = some pr.content := by
  have h := stmt_eq_ok.mp hres
  split at h
  · cases h
  · cases h
    rw [contentAt]
    simp only [hrow.rowAt, row_key, update_self, Option.map_some]
    rfl

theorem pkgRevUpdateDB_contentAt (h : pkgRevUpdateDB pr true db = (.ok u, db')) :
    contentAt db' (dbKey pr.pkgRevKey) = some pr.content := by
  obtain ⟨_, db₁, hstmt, h⟩ := bind_eq_ok.mp h
  obtain ⟨t, ht, rfl⟩ := pkgRevStmt_eq_ok.mp hstmt
  exact contentAt_of_saved (pkgRevUpdateDB_stores ht) h

theorem pkgRevWriteToDB_contentAt (h : pkgRevWriteToDB pr db = (.ok u, db')) :
    contentAt db' (dbKey pr.pkgRevKey) = some pr.content := by
  obtain ⟨_, db₁, hstmt, h⟩ := bind_eq_ok.mp h
  obtain ⟨t, ht, rfl⟩ := pkgRevStmt_eq_ok.mp hstmt
  exact contentAt_of_saved (pkgRevWriteToDB_stores ht) h

theorem stamped_content (now : Nat) (b : Bool) (d : DbPackageRevision) :
    (stamped now b d).content = d.content := by
  unfold stamped
  split <;> rfl

theorem preserve_key (d existing : DbPackageRevision) :
    (preservePushMarkersIfUnset d existing).pkgRevKey = d.pkgRevKey := by
  unfold preservePushMarkersIfUnset
  split <;> rfl

theorem preserve_content (d existing : DbPackageRevision) :
    (preservePushMarkersIfUnset d existing).content = d.content := by
  unfold preservePushMarkersIfUnset
  split <;> rfl

/-- A save changes the content of its own key only, and on success that is what the
    object holds. -/
theorem savePackageRevision_content (now : Nat) (db : Database) (d : DbPackageRevision) :
    (∀ k o, (dbKey d.pkgRevKey = k → o = some d.content) →
        StillHolds k o db (savePackageRevision now true (db, d)).2.1) ∧
      (∀ u s', savePackageRevision now true (db, d) = (.ok u, s') →
        contentAt s'.1 (dbKey d.pkgRevKey) = some d.content) := by
  obtain ⟨existing, -, heq⟩ | ⟨-, heq⟩ := savePackageRevision_cases now true db d
  · have hkey : (preservePushMarkersIfUnset (stamped now true d) existing).pkgRevKey =
        d.pkgRevKey := (preserve_key _ _).trans (stamped_key now true d)
    have hcont : (preservePushMarkersIfUnset (stamped now true d) existing).content =
        d.content := (preserve_content _ _).trans (stamped_content now true d)
    rw [heq, ← hkey, ← hcont]
    refine ⟨fun k o hpr => pkgRevUpdateDB_stillHolds hpr true db, fun u s' h => ?_⟩
    obtain ⟨hres, rfl⟩ := Prod.ext_iff.mp h
    exact pkgRevUpdateDB_contentAt (Prod.ext hres rfl)
  · rw [heq, ← stamped_key now true d, ← stamped_content now true d]
    refine ⟨fun k o hpr => pkgRevWriteToDB_stillHolds hpr db, fun u s' h => ?_⟩
    obtain ⟨hres, rfl⟩ := Prod.ext_iff.mp h
    exact pkgRevWriteToDB_contentAt (Prod.ext hres rfl)

theorem DbRepository.savePackageRevision_stillHolds (repo : DbRepository)
    (opened : RepositoryKey → Bool) (now : Nat) (d : DbPackageRevision)
    (hd : dbKey d.pkgRevKey = k → o = some d.content) :
    Proc.Keeps (StillHolds k o) (repo.savePackageRevision opened now d true) := by
  refine StillHolds.frame.bind
    (fun db => (savePackageIfNew_sameRows opened _ db).stillHolds) fun _ => ?_
  refine StillHolds.frame.bind
    (fun db => (savePackageRevision_content now db d).1 k o hd) fun _ => ?_
  refine StillHolds.frame.bind
    (fun db => (repoUpdateDB_sameRows _ _ db).stillHolds) fun _ => ?_
  exact StillHolds.frame.pure

theorem DbRepository.savePackageRevision_contentAt {repo : DbRepository}
    {opened : RepositoryKey → Bool} {now : Nat} {d d' : DbPackageRevision}
    (h : repo.savePackageRevision opened now d true db = (.ok d', db')) :
    contentAt db' (dbKey d.pkgRevKey) = some d.content := by
  obtain ⟨_, db₁, -, h⟩ := bind_eq_ok.mp h
  obtain ⟨d₂, db₂, hsave, h⟩ := bind_eq_ok.mp h
  obtain ⟨u, hsave⟩ := call_eq_ok.mp hsave
  obtain ⟨_, db₃, hrepo, h⟩ := bind_eq_ok.mp h
  obtain ⟨-, rfl⟩ := pure_eq_ok.mp h
  have hsame := repoUpdateDB_sameRows repo.repoKey repo.deployment db₂
  rw [hrepo] at hsame
  rw [hsame.contentAt]
  exact (savePackageRevision_content now db₁ d).2 u _ hsave

end Save

/-! A repository whose package `pkg` has one draft -/

def blueprints : DbRepository where
  repoKey :=
    { namesp := "ns"
      name := "blueprints"
      placeholderWSname := "main" }

def blueprintsRow : RepoRow where
  namesp := "ns"
  name := "blueprints"
  defaultWsName := "main"

/-- The key of a package revision of `blueprints`. -/
def keyIn (path package : Str) (revision : Int) (workspaceName : Str) : PackageRevisionKey where
  pkgKey := { repoKey := blueprints.repoKey, path := path, package := package }
  revision := revision
  workspaceName := workspaceName

/-- The database after the package revisions have been saved one by one. -/
def storeOf (prs : List DbPackageRevision) : Database :=
  prs.foldl (fun db pr => (blueprints.savePackageRevision (fun _ => true) 0 pr true db).2)
    { repositories := ⟨[blueprintsRow], by decide⟩ }

def gitOf (prs : List ExtPackageRevision) : External where
  version := .ok "1"
  listing := .ok prs

def inOrder : MapOrder where
  iter ks := ks
  perm ks := .refl ks

def dbDraft : DbPackageRevision where
  pkgRevKey := keyIn [] "pkg" 0 "v1"
  lifecycle := .draft
  resources := [("Kptfile", "of the database")]

/-- The external package revision of a key, with one file. -/
def inGit (key : PackageRevisionKey) (lifecycle : Lifecycle) : ExtPackageRevision where
  key := key
  getPackageRevision := .ok { lifecycle := lifecycle }
  getResources := .ok [("Kptfile", "of git")]

end Porch.Db
