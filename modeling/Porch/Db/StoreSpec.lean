import Porch.Db.Revision
import Porch.Db.TriggerSpec

/- What the functions of the store read and write. -/
namespace Porch.Db

open Go Sql Proc

variable {db db' : Database} {pr : DbPackageRevision} {prk : PackageRevisionKey} {u : Unit}

theorem pkgRevStmt_eq_ok {f : Database → Except DbError PkgRevTable} :
    pkgRevStmt f db = (.ok u, db') ↔ ∃ t, f db = .ok t ∧ db' = { db with pkgRevs := t } := by
  rw [pkgRevStmt, stmt_eq_ok]
  cases f db with
  | error e => simp
  | ok t => simp [eq_comm]

theorem checkPackage_eq_ok {r : PkgRevRow} {t t' : PkgRevTable} :
    checkPackage db r t = .ok t' → t' = t := by
  unfold checkPackage
  split
  · intro h
    cases h
    rfl
  · intro h
    cases h

theorem pkgRevUpdateDB_ok (hrev : pr.pkgRevKey.revision ≠ -1)
    (h : pkgRevUpdateDB pr false db = (.ok u, db')) :
    ∃ t, updateRow db.pkgRevs pr.row = .ok t ∧ db' = { db with pkgRevs := t } := by
  obtain ⟨_, db₁, hstmt, h⟩ := bind_eq_ok.mp h
  obtain ⟨-, rfl⟩ := pure_eq_ok.mp h
  obtain ⟨t, ht, rfl⟩ := pkgRevStmt_eq_ok.mp hstmt
  rw [if_neg hrev] at ht
  exact ⟨t, ht, rfl⟩

theorem pkgRevUpdateDB_placeholder_ok (hrev : pr.pkgRevKey.revision = -1)
    (h : pkgRevUpdateDB pr true db = (.ok u, db')) :
    upsertRow db.pkgRevs pr.row = .ok db'.pkgRevs := by
  obtain ⟨_, db₁, hstmt, h⟩ := bind_eq_ok.mp h
  obtain ⟨t, ht, rfl⟩ := pkgRevStmt_eq_ok.mp hstmt
  rw [if_pos hrev] at ht
  obtain ⟨t', hups, ht⟩ := bind_eq_ok.mp ht
  rw [if_pos rfl] at h
  have hres := stmt_eq_ok.mp h
  split at hres
  · cases hres
  · cases hres
    cases checkPackage_eq_ok ht
    exact hups

theorem pkgRevGetlatestRevFromDB_ok {pk : PackageKey} {n : Int}
    (h : pkgRevGetlatestRevFromDB pk db = (.ok n, db')) : db' = db ∧ 0 ≤ n := by
  obtain ⟨o, db₁, hread, h⟩ := bind_eq_ok.mp h
  obtain ⟨hq, rfl⟩ := query_eq_ok.mp hread
  cases o with
  | none =>
    obtain ⟨rfl, rfl⟩ := pure_eq_ok.mp h
    exact ⟨rfl, le_rfl⟩
  | some q =>
    obtain ⟨rfl, rfl⟩ := pure_eq_ok.mp h
    refine ⟨rfl, ?_⟩
    split at hq
    · cases hq
    · next q' hfilter =>
      cases hq
      have hmem : q ∈ (packageRows db pk).filter fun pr => pr.latest && 0 < pr.pkgRevKey.revision := by
        rw [hfilter]
        exact List.mem_singleton.mpr rfl
      have hpos := (List.mem_filter.mp hmem).2
      simp only [Bool.and_eq_true, decide_eq_true_eq] at hpos
      omega
    · cases hq

theorem pkgRevReadFromDB_ok {b : Bool} {q : DbPackageRevision}
    (h : pkgRevReadFromDB prk b db = (.ok q, db')) :
    db' = db ∧ ∃ x ∈ db.pkgRevs, x.key = dbKey prk ∧
      ∃ q₀, joinRow db x = some q₀ ∧ q.pkgRevKey = q₀.pkgRevKey ∧ q.lifecycle = q₀.lifecycle := by
  obtain ⟨hq, rfl⟩ := query_eq_ok.mp h
  refine ⟨rfl, ?_⟩
  split at hq
  · cases hq
  · next q₀ hbind =>
    obtain ⟨x, hlook, hjoin⟩ := Option.bind_eq_some_iff.mp hbind
    obtain ⟨hx, hkey⟩ := Table.lookup_eq_some.mp hlook
    refine ⟨x, hx, hkey, q₀, hjoin, ?_⟩
    split at hq
    · cases hq
      exact ⟨rfl, rfl⟩
    · cases hq
      exact ⟨rfl, rfl⟩

theorem joinRow_eq_some {x : PkgRevRow} {q : DbPackageRevision} :
    joinRow db x = some q ↔ ∃ p r, db.packages.lookup (x.namesp, x.packageName) = some p ∧
      db.repositories.lookup (p.namesp, p.repoName) = some r ∧ q = scanRow r p x := by
  simp only [joinRow, joinPkg, bind, Option.bind_eq_some_iff, Option.map_eq_some_iff, pure,
    Option.some.injEq, Prod.exists, Prod.mk.injEq]
  constructor
  · rintro ⟨p, hp, r, p', ⟨_, hr, rfl, rfl⟩, rfl⟩
    exact ⟨p, _, hp, hr, rfl⟩
  · rintro ⟨p, r, hp, hr, rfl⟩
    exact ⟨p, hp, r, p, ⟨r, hr, rfl, rfl⟩, rfl⟩

theorem pkgRevReadFromDB_cases (prk : PackageRevisionKey) (b : Bool) (db : Database) :
    (∃ q, pkgRevReadFromDB prk b db = (.ok q, db)) ∨
      pkgRevReadFromDB prk b db = (.error .noRows, db) := by
  simp only [pkgRevReadFromDB, query]
  cases (db.pkgRevs.lookup (dbKey prk)).bind (joinRow db) with
  | none => exact .inr rfl
  | some q => exact .inl ⟨_, rfl⟩

theorem pkgRevUpdateDB_stores {t : PkgRevTable}
    (h : (if pr.pkgRevKey.revision = -1 then upsertRow db.pkgRevs pr.row >>= checkPackage db pr.row
      else updateRow db.pkgRevs pr.row) = .ok t) : Stores db.pkgRevs pr.row t := by
  split at h
  · next hrev =>
    obtain ⟨t', hups, hcheck⟩ := bind_eq_ok.mp h
    cases checkPackage_eq_ok hcheck
    exact (upsertRow_stores hrev hups).1
  · exact (updateRow_stores h).1

theorem pkgRevWriteToDB_stores {t : PkgRevTable}
    (h : insertRow db.pkgRevs pr.row >>= checkPackage db pr.row = .ok t) :
    Stores db.pkgRevs pr.row t := by
  obtain ⟨t', hins, hcheck⟩ := bind_eq_ok.mp h
  cases checkPackage_eq_ok hcheck
  exact (insertRow_stores hins).1

theorem pkgRevDeleteFromDB_eq (prk : PackageRevisionKey) (db : Database) :
    ∃ t, deleteRow db.pkgRevs (dbKey prk) = .ok t ∧
      pkgRevDeleteFromDB prk db = (.ok (), { db with
        pkgRevs := t
        resources := Function.update db.resources (dbKey prk) [] }) := by
  obtain ⟨t, ht⟩ := deleteRow_total db.pkgRevs (dbKey prk)
  refine ⟨t, ht, bind_eq_ok.mpr ⟨(), _, stmt_eq_ok.mpr rfl, ?_⟩⟩
  exact pkgRevStmt_eq_ok.mpr ⟨t, ht, rfl⟩

/-! Frames -/

section Frame

variable {R : Database → Database → Prop} (hR : Proc.Frame R)
include hR

theorem keeps_pkgRevStmt {f : Database → Except DbError PkgRevTable}
    (hf : ∀ db t, f db = .ok t → R db { db with pkgRevs := t }) : Proc.Keeps R (pkgRevStmt f) := by
  refine hR.stmt fun db db' h => ?_
  split at h
  · next t ht =>
    cases h
    exact hf db t ht
  · cases h

theorem keeps_pkgRevResourcesWriteToDB (hres : ∀ db : Database, R db { db with
      resources := Function.update db.resources (dbKey pr.pkgRevKey) pr.resources }) :
    Proc.Keeps R (pkgRevResourcesWriteToDB pr) := by
  refine hR.stmt fun db db' h => ?_
  split at h
  · cases h
  · cases h
    exact hres db

theorem keeps_pkgRevUpdateDB (hrow : ∀ (db : Database) t,
      (if pr.pkgRevKey.revision = -1 then upsertRow db.pkgRevs pr.row >>= checkPackage db pr.row
        else updateRow db.pkgRevs pr.row) = .ok t → R db { db with pkgRevs := t })
    (hres : Proc.Keeps R (pkgRevResourcesWriteToDB pr)) (b : Bool) :
    Proc.Keeps R (pkgRevUpdateDB pr b) := by
  refine hR.bind (keeps_pkgRevStmt hR hrow) fun _ => ?_
  split
  · exact hres
  · exact hR.pure

theorem keeps_pkgRevWriteToDB (hrow : ∀ (db : Database) t,
      insertRow db.pkgRevs pr.row >>= checkPackage db pr.row = .ok t → R db { db with pkgRevs := t })
    (hres : Proc.Keeps R (pkgRevResourcesWriteToDB pr)) : Proc.Keeps R (pkgRevWriteToDB pr) :=
  hR.bind (keeps_pkgRevStmt hR hrow) fun _ => hres

/-- The key of the package is new, and its repository is there. -/
theorem keeps_pkgWriteToDB {pk : PackageKey} (hpkg : ∀ (db : Database) packages,
      db.packages.insert (pkgRow pk) = some packages →
      (db.repositories.lookup (pk.repoKey.namesp, pk.repoKey.name)).isSome →
      R db { db with packages := packages }) : Proc.Keeps R (pkgWriteToDB pk) := by
  refine hR.stmt fun db db' h => ?_
  dsimp only at h
  split at h
  · cases h
  · split at h
    · cases h
    · next packages hins =>
      split at h
      · next hrepo =>
        cases h
        exact hpkg db packages hins hrepo
      · cases h

theorem keeps_repoUpdateDB {rk : RepositoryKey} {deployment : Bool} (hrepo : ∀ (db : Database) r,
      r ∈ db.repositories →
      R db { db with repositories := db.repositories.set { r with deployment := deployment } }) :
    Proc.Keeps R (repoUpdateDB rk deployment) := by
  refine hR.stmt fun db db' h => ?_
  split at h
  · cases h
  · next r hr =>
    split at h
    · cases h
      exact hrepo db r (Table.lookup_eq_some.mp hr).1
    · cases h

end Frame

/-! Saving -/

/-- The receiver of `savePackageRevision` with its time. -/
def stamped (now : Nat) (saveResources : Bool) (d : DbPackageRevision) : DbPackageRevision :=
  if saveResources && d.deployment then { d with updated := now } else d

theorem stamped_key (now : Nat) (b : Bool) (d : DbPackageRevision) :
    (stamped now b d).pkgRevKey = d.pkgRevKey := by
  unfold stamped
  split <;> rfl

/-- A save is an update of the row that the read finds, or a write. -/
theorem savePackageRevision_cases (now : Nat) (b : Bool) (db : Database) (d : DbPackageRevision) :
    (∃ existing, pkgRevReadFromDB d.pkgRevKey false db = (.ok existing, db) ∧
      savePackageRevision now b (db, d) =
        ((pkgRevUpdateDB (preservePushMarkersIfUnset (stamped now b d) existing) b db).1,
          (pkgRevUpdateDB (preservePushMarkersIfUnset (stamped now b d) existing) b db).2,
          preservePushMarkersIfUnset (stamped now b d) existing)) ∨
    (pkgRevReadFromDB d.pkgRevKey false db = (.error .noRows, db) ∧
      savePackageRevision now b (db, d) =
        ((pkgRevWriteToDB (stamped now b d) db).1, (pkgRevWriteToDB (stamped now b d) db).2,
          stamped now b d)) := by
  have hkey := stamped_key now b d
  unfold stamped at hkey
  obtain ⟨existing, hread⟩ | hread := pkgRevReadFromDB_cases d.pkgRevKey false db
  · refine .inl ⟨existing, hread, ?_⟩
    rw [savePackageRevision, Proc.assign_bind, Proc.this_bind]
    simp only [bind, Proc.bind, Proc.attempt, Proc.onFst, hkey, hread]
    rfl
  · refine .inr ⟨hread, ?_⟩
    rw [savePackageRevision, Proc.assign_bind, Proc.this_bind]
    simp only [bind, Proc.bind, Proc.attempt, Proc.onFst, hkey, hread]
    rfl

end Porch.Db
