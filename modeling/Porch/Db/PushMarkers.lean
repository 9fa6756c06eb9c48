import Porch.Db.Draft
import Porch.Db.SyncFrame
import Porch.Lts.Marker
import Porch.Lts.Run

/- The markers of a draft that is pushed to git in the background. `updated` and
   `last_pushed_db_updated` of the row are the stamp and the mark of a `Marker.Cell`; the
   package revisions in memory are its copies.

   In a run in which metadata is only written from objects that are as new as the row,
   and a draft is only closed once, the markers are true (`markers_true`). Otherwise
   they need not be: `SetMeta` writes the whole row of an object that was read earlier,
   and takes the time of an edit back together with the marker
   (`stale_metadata_hides_edit`). -/
namespace Porch.Db

open Go Sql Function Marker Lts Proc

/-- A package revision in memory, and whether it has been opened or created as a draft
    and not been closed since. -/
structure Handle where
  pr : DbPackageRevision
  unsaved : Bool := false

/-- The database, the objects in memory, the content of the draft in git, and the time. -/
structure World where
  db : Database
  objs : Nat → Option Handle
  git : Option Resources
  clock : Nat

/-- What is done with the package revision of one key. -/
inductive DraftEvent where
  | get (i : Nat) (readResources : Bool)
  | create (i now : Nat) (packageName workspaceName : Str) (labels : Labels) (tasks : Str)
  | updatePackageRevision (i now : Nat)
  | updateResources (i : Nat) (new : Resources) (change : Option Str)
  | close (i now : Nat)
  | setMeta (i : Nat) (labels : Labels)
  /-- Sync finds it in the cache only, or in git only. -/
  | deleteCachedOnly (snapshot : DbPackageRevision)
  | cacheExternal (now : Nat) (e : ExtPackageRevision)
  | push (outcome : PushOutcome)

section Step

variable (repo : DbRepository) (opened : RepositoryKey → Bool) (k : PackageRevisionKey)

def World.put (w : World) (i : Nat) (h : Handle) : World :=
  { w with objs := update w.objs i (some h) }

/-- A method of the object `i`, and whether the object is open after it. -/
def World.call (w : World) (i : Nat) (m : Method Unit) (unsaved : Bool → Bool → Bool) :
    Option World :=
  (w.objs i).map fun h =>
    let r := m (w.db, h.pr)
    { w with db := r.2.1 }.put i ⟨r.2.2, unsaved h.unsaved r.1.isOk⟩

/-- One event. Times of the clock that are given out grow. -/
def World.step (w : World) : DraftEvent → Option World
  | .get i readResources =>
    match pkgRevReadFromDB k readResources w.db with
    | (.ok pr, _) => some (w.put i ⟨pr, false⟩)
    | (.error _, _) => some w
  | .create i now packageName workspaceName labels tasks =>
    if w.clock < now ∧ (repo.newDraft now packageName workspaceName labels tasks).pkgRevKey = k then
      match repo.createPackageRevisionDraft opened now packageName workspaceName labels tasks w.db with
      | (.ok pr, db) => some ({ w with db := db, clock := now }.put i ⟨pr, true⟩)
      | (.error _, db) => some { w with db := db, clock := now }
    else none
  | .updatePackageRevision i now =>
    if w.clock < now then
      { w with clock := now }.call i (DbRepository.updatePackageRevision now) or
    else none
  | .updateResources i new change =>
    (w.objs i).map fun h => w.put i { h with pr := h.pr.updateResources new change }
  | .close i now =>
    if w.clock < now then
      { w with clock := now }.call i (repo.closePackageRevisionDraft opened now) fun _ _ => false
    else none
  | .setMeta i labels => w.call i (setMeta labels) fun unsaved _ => unsaved
  | .deleteCachedOnly snapshot =>
    some { w with db := (deleteCachedOnlyPR repo opened k snapshot w.db).2 }
  | .cacheExternal now e =>
    if w.clock < now ∧ e.key = k then
      some { w with db := (cacheExternalPR repo opened now e w.db).2, clock := now }
    else none
  | .push outcome =>
    let r := pushDraftToGit k outcome w.db w.git
    some { w with db := r.1, git := r.2 }

/-- Metadata is written from an object that has the time of the row, a draft that has
    been opened or created is closed once, and what is created is not there yet. -/
def Careful (w : World) : DraftEvent → Prop
  | .setMeta i _ => ∀ h y, w.objs i = some h → rowAt w.db.pkgRevs (dbKey k) = some y →
      y.updated = h.pr.updated
  | .close i _ => ∀ h, w.objs i = some h → h.unsaved = true
  | .create .. => rowAt w.db.pkgRevs (dbKey k) = none
  | _ => True

/-- The row does not say that it has been pushed unless git has its resources. -/
def MarkersTrue (w : World) : Prop :=
  ∀ y, rowAt w.db.pkgRevs (dbKey k) = some y → y.lastPushedDbUpdated = some y.updated →
    w.git = some (w.db.resources (dbKey k))

end Step

/-! The key and the rows around it -/

/-- The key of a draft that is read back from its own names. -/
structure ReadBack (k : PackageRevisionKey) : Prop where
  package : k8sName2PkgName k.pkgKey.k8sName = k.pkgKey.package
  workspace : k8sName2PkgRevWSName k.pkgKey.k8sName k.k8sName = k.workspaceName
  revision : k.revision = 0

/-- The rows of the repository and of the package of `k` are those that `k` names. -/
structure Based (k : PackageRevisionKey) (db : Database) : Prop where
  repo : ∀ r ∈ db.repositories, r.key = (k.pkgKey.repoKey.namesp, k.pkgKey.repoKey.name) →
    repoKeyOf r = k.pkgKey.repoKey
  pkg : ∀ p ∈ db.packages, p.key = pkgDbKey k.pkgKey →
    p.repoName = k.pkgKey.repoKey.name ∧ p.path = k.pkgKey.path

/-- The row of `k` is that of a draft of its package. -/
def RowOfDraft (k : PackageRevisionKey) (db : Database) : Prop :=
  ∀ y, rowAt db.pkgRevs (dbKey k) = some y → y.packageName = k.pkgKey.k8sName ∧ y.revision = 0

structure OfDraft (k : PackageRevisionKey) (db : Database) : Prop where
  based : Based k db
  row : RowOfDraft k db

def StaysBased (k : PackageRevisionKey) (db db' : Database) : Prop := Based k db → Based k db'

section Base

variable {k : PackageRevisionKey} {db db' : Database} (pr : DbPackageRevision) (repo : DbRepository)
  (opened : RepositoryKey → Bool)

theorem StaysBased.frame : Proc.Frame (StaysBased k) := .imp (Based k)

theorem staysBased_of_eq (hrepos : db'.repositories = db.repositories)
    (hpkgs : ∀ p ∈ db'.packages, p ∈ db.packages) : StaysBased k db db' :=
  fun h => ⟨fun r hr => h.repo r (hrepos ▸ hr), fun p hp => h.pkg p (hpkgs p hp)⟩

theorem pkgRevStmt_based (f : Database → Except DbError PkgRevTable) :
    Proc.Keeps (StaysBased k) (pkgRevStmt f) :=
  keeps_pkgRevStmt StaysBased.frame fun _ _ _ => staysBased_of_eq rfl fun _ hp => hp

theorem pkgRevResourcesWriteToDB_based : Proc.Keeps (StaysBased k) (pkgRevResourcesWriteToDB pr) :=
  keeps_pkgRevResourcesWriteToDB StaysBased.frame fun _ => staysBased_of_eq rfl fun _ hp => hp

theorem pkgRevUpdateDB_based (b : Bool) : Proc.Keeps (StaysBased k) (pkgRevUpdateDB pr b) :=
  keeps_pkgRevUpdateDB StaysBased.frame (fun _ _ _ => staysBased_of_eq rfl fun _ hp => hp)
    (pkgRevResourcesWriteToDB_based pr) b

theorem pkgRevWriteToDB_based : Proc.Keeps (StaysBased k) (pkgRevWriteToDB pr) :=
  keeps_pkgRevWriteToDB StaysBased.frame (fun _ _ _ => staysBased_of_eq rfl fun _ hp => hp)
    (pkgRevResourcesWriteToDB_based pr)

theorem savePackageIfNew_based : Proc.Keeps (StaysBased k) (savePackageIfNew opened k.pkgKey) := by
  refine keeps_savePackageIfNew StaysBased.frame (keeps_pkgWriteToDB StaysBased.frame ?_)
  intro db packages hins _ hbased
  refine ⟨hbased.repo, fun p hp hkey => ?_⟩
  obtain rfl | hp := (Table.mem_insert hins).mp hp
  · exact ⟨rfl, rfl⟩
  · exact hbased.pkg p hp hkey

theorem repoUpdateDB_based (rk : RepositoryKey) (deployment : Bool) :
    Proc.Keeps (StaysBased k) (repoUpdateDB rk deployment) := by
  refine keeps_repoUpdateDB StaysBased.frame fun db r hmem hbased => ?_
  have hthere : ∃ r₀ ∈ db.repositories, r₀.key = RepoRow.key { r with deployment := deployment } :=
    ⟨r, hmem, rfl⟩
  refine ⟨fun r' hr' hkey' => ?_, hbased.pkg⟩
  obtain rfl | ⟨hr', -⟩ := (Table.mem_set hthere).mp hr'
  · exact hbased.repo r hmem hkey'
  · exact hbased.repo r' hr' hkey'

theorem deleteCachedOnlyPR_based (prk : PackageRevisionKey) (snapshot : DbPackageRevision) :
    Proc.Keeps (StaysBased k) (deleteCachedOnlyPR repo opened prk snapshot) := by
  refine keeps_deleteCachedOnlyPR StaysBased.frame (fun prk => ?_) (fun pk => ?_) prk snapshot
  · refine StaysBased.frame.bind (StaysBased.frame.stmt fun db db' h => ?_) fun _ => pkgRevStmt_based _
    cases h
    exact staysBased_of_eq rfl fun p hp => hp
  · refine StaysBased.frame.stmt fun db db' h => ?_
    cases h
    exact staysBased_of_eq rfl fun p hp => (Table.mem_deleteWhere.mp hp).1

end Base

/-! What is written of a package revision -/

/-- The row of `k` with its resources, as a cell. -/
def cellOf (k : PackageRevisionKey) (db : Database) : Option (Cell Resources) :=
  (rowAt db.pkgRevs (dbKey k)).map fun y =>
    ⟨y.updated, y.lastPushedDbUpdated, db.resources (dbKey k)⟩

/-- The row of the object has been written; its resources may have been. -/
def RowWritten (pr : DbPackageRevision) (db : Database) : Prop :=
  rowAt db.pkgRevs (dbKey pr.pkgRevKey) = some pr.row.content

section Cell

variable {k : PackageRevisionKey} {db db' : Database} {pr d q : DbPackageRevision}

theorem SameRows.cellOf (h : SameRows db db') : cellOf k db' = cellOf k db := by
  rw [Porch.Db.cellOf, Porch.Db.cellOf, h.1, h.2]

theorem SameRows.rowOfDraft (h : SameRows db db') (hrow : RowOfDraft k db) : RowOfDraft k db' := by
  rw [RowOfDraft, h.1]
  exact hrow

theorem rowWritten_of_stores {t : PkgRevTable} (h : Stores db.pkgRevs pr.row t)
    (ht : db'.pkgRevs = t) : RowWritten pr db' := by
  rw [RowWritten, ht, h.rowAt, row_key, update_self]

theorem RowWritten.cell (h : RowWritten pr db') (hk : pr.pkgRevKey = k) :
    cellOf k db' = some ⟨pr.updated, pr.lastPushedDbUpdated, db'.resources (dbKey k)⟩ := by
  subst hk
  rw [cellOf, show rowAt _ _ = _ from h]
  rfl

theorem RowWritten.rowOfDraft (h : RowWritten pr db') (hk : pr.pkgRevKey = k)
    (hrev : k.revision = 0) : RowOfDraft k db' := by
  subst hk
  intro y hy
  rw [show rowAt _ _ = _ from h] at hy
  cases hy
  exact ⟨rfl, hrev⟩

theorem pkgRevResourcesWriteToDB_rows (pr : DbPackageRevision) (db : Database) :
    (pkgRevResourcesWriteToDB pr db).2.pkgRevs = db.pkgRevs := by
  unfold pkgRevResourcesWriteToDB stmt
  split
  · next h =>
    split at h
    · cases h
    · cases h
      rfl
  · rfl

theorem pkgRevStmt_cases (f : Database → Except DbError PkgRevTable) (db : Database) :
    (∃ e, pkgRevStmt f db = (.error e, db)) ∨
      ∃ t, f db = .ok t ∧ pkgRevStmt f db = (.ok (), { db with pkgRevs := t }) := by
  cases h : f db with
  | error e => exact .inl ⟨.db e, by simp only [pkgRevStmt, stmt, h]⟩
  | ok t => exact .inr ⟨t, rfl, pkgRevStmt_eq_ok.mpr ⟨t, h, rfl⟩⟩

theorem pkgRevUpdateDB_written (pr : DbPackageRevision) (b : Bool) (db : Database) :
    (pkgRevUpdateDB pr b db).2 = db ∨ RowWritten pr (pkgRevUpdateDB pr b db).2 ∧
      (b = false → (pkgRevUpdateDB pr b db).2.resources = db.resources) ∧
      (pr.pkgRevKey.revision ≠ -1 → ∃ y, rowAt db.pkgRevs (dbKey pr.pkgRevKey) = some y) := by
  obtain ⟨e, hstmt⟩ | ⟨t, ht, hstmt⟩ := pkgRevStmt_cases (fun db =>
    if pr.pkgRevKey.revision = -1 then upsertRow db.pkgRevs pr.row >>= checkPackage db pr.row
    else updateRow db.pkgRevs pr.row) db
  · left
    have herr : pkgRevUpdateDB pr b db = (.error e, db) := bind_run_error hstmt
    rw [herr]
  · right
    have hrest : pkgRevUpdateDB pr b db =
        (if b = true then pkgRevResourcesWriteToDB pr else pure ()) { db with pkgRevs := t } :=
      bind_run_ok hstmt
    have hstores := pkgRevUpdateDB_stores ht
    rw [hrest]
    refine ⟨?_, fun hb => by rw [hb]; rfl, fun hrev => ?_⟩
    · cases b with
      | false => exact rowWritten_of_stores hstores rfl
      | true => exact rowWritten_of_stores hstores (pkgRevResourcesWriteToDB_rows pr _)
    · rw [if_neg hrev] at ht
      obtain ⟨-, old, hold, hkey, -⟩ := updateRow_stores ht
      exact ⟨old.content, rowAt_eq_some.mpr ⟨old, hold, hkey, rfl⟩⟩

theorem pkgRevWriteToDB_written (pr : DbPackageRevision) (db : Database) :
    (pkgRevWriteToDB pr db).2 = db ∨ RowWritten pr (pkgRevWriteToDB pr db).2 := by
  obtain ⟨e, hstmt⟩ | ⟨t, ht, hstmt⟩ := pkgRevStmt_cases
    (fun db => insertRow db.pkgRevs pr.row >>= checkPackage db pr.row) db
  · left
    have herr : pkgRevWriteToDB pr db = (.error e, db) := bind_run_error hstmt
    rw [herr]
  · right
    have hrest : pkgRevWriteToDB pr db = pkgRevResourcesWriteToDB pr { db with pkgRevs := t } :=
      bind_run_ok hstmt
    rw [hrest]
    exact rowWritten_of_stores (pkgRevWriteToDB_stores ht) (pkgRevResourcesWriteToDB_rows pr _)

variable {b : Bool}

theorem preserve_mark (d existing : DbPackageRevision) :
    (preservePushMarkersIfUnset d existing).lastPushedDbUpdated =
      d.lastPushedDbUpdated.or existing.lastPushedDbUpdated := by
  unfold preservePushMarkersIfUnset
  cases hd : d.lastPushedDbUpdated with
  | some t => simp [hd]
  | none =>
    cases he : existing.lastPushedDbUpdated with
    | none => simp [hd]
    | some t => simp

theorem preserve_updated (d existing : DbPackageRevision) :
    (preservePushMarkersIfUnset d existing).updated = d.updated := by
  unfold preservePushMarkersIfUnset
  split <;> rfl

/-- What a method that writes the object `d` leaves, with the time `t`. -/
structure Writes (k : PackageRevisionKey) (db : Database) (d : DbPackageRevision) (t : Nat)
    (r : Database × DbPackageRevision) : Prop where
  key : r.2.pkgRevKey = k
  stamp : r.2.updated = t
  mark : r.2.lastPushedDbUpdated = d.lastPushedDbUpdated ∨
    r.2.lastPushedDbUpdated = d.lastPushedDbUpdated.or ((cellOf k db).bind (·.mark))
  cell : cellOf k r.1 = cellOf k db ∨
    cellOf k r.1 = some ⟨t, r.2.lastPushedDbUpdated, r.1.resources (dbKey k)⟩
  db : OfDraft k db → OfDraft k r.1

theorem writes_of (hk : ReadBack k) (hkey : pr.pkgRevKey = k)
    (hmark : pr.lastPushedDbUpdated = d.lastPushedDbUpdated ∨
      pr.lastPushedDbUpdated = d.lastPushedDbUpdated.or ((cellOf k db).bind (·.mark)))
    (hwritten : db' = db ∨ RowWritten pr db') (hbased : StaysBased k db db') :
    Writes k db d pr.updated (db', pr) := by
  refine ⟨hkey, rfl, hmark, ?_, fun hdb => ⟨hbased hdb.based, ?_⟩⟩
  · exact hwritten.imp (congrArg (cellOf k)) fun hwritten => hwritten.cell hkey
  · obtain rfl | hwritten := hwritten
    · exact hdb.row
    · exact hwritten.rowOfDraft hkey hk.revision

theorem stamped_mark (now : Nat) (b : Bool) (d : DbPackageRevision) :
    (stamped now b d).lastPushedDbUpdated = d.lastPushedDbUpdated := by
  unfold stamped
  split <;> rfl

theorem setMeta_cases (labels : Labels) (db : Database) (d : DbPackageRevision) :
    ∃ d' : DbPackageRevision, setMeta labels (db, d) =
        ((pkgRevUpdateDB d' false db).1, (pkgRevUpdateDB d' false db).2, d') ∧
      (d' = { d with labels := labels } ∨
        ∃ existing, pkgRevReadFromDB d.pkgRevKey false db = (.ok existing, db) ∧
          d' = preservePushMarkersIfUnset { d with labels := labels } existing) := by
  obtain ⟨existing, hread⟩ | hread := pkgRevReadFromDB_cases d.pkgRevKey false db
  · refine ⟨_, ?_, .inr ⟨existing, hread, rfl⟩⟩
    simp only [setMeta, preserveFromDB, bind, Proc.bind, Proc.assign, Proc.this, Proc.attempt, Proc.onFst, hread]
  · refine ⟨_, ?_, .inl rfl⟩
    simp only [setMeta, preserveFromDB, bind, Proc.bind, Proc.assign, Proc.this, Proc.attempt, Proc.onFst, hread]
    rfl

theorem pkgRevReadFromDB_flag (h : pkgRevReadFromDB k true db = (.ok q, db')) :
    ∃ q', pkgRevReadFromDB k false db = (.ok q', db) := by
  obtain ⟨hq, -⟩ := query_eq_ok.mp h
  split at hq
  · cases hq
  · next q₀ hbind => exact ⟨q₀, query_eq_ok.mpr ⟨by rw [hbind]; rfl, rfl⟩⟩

theorem Writes.frame {db₁ db₂ : Database} {t : Nat} {r : Database × DbPackageRevision}
    (h : Writes k db₁ d t r) (hbefore : SameRows db db₁) (hbased : StaysBased k db db₁)
    (hafter : SameRows r.1 db₂) (hbased' : StaysBased k r.1 db₂) : Writes k db d t (db₂, r.2) := by
  have hcell : cellOf k db₁ = cellOf k db := hbefore.cellOf
  refine ⟨h.key, h.stamp, hcell ▸ h.mark, ?_, fun hdb => ?_⟩
  · rw [hafter.cellOf, hafter.2, ← hcell]
    exact h.cell
  · have hdb₁ := h.db ⟨hbased hdb.based, hbefore.rowOfDraft hdb.row⟩
    exact ⟨hbased' hdb₁.based, hafter.rowOfDraft hdb₁.row⟩

section

variable (repo : DbRepository) (opened : RepositoryKey → Bool)
include repo opened

/-- Where there is no row, a save that succeeds stores the object's resources. -/
theorem DbRepository.save_new
    (hd : d.pkgRevKey = k) (hfree : rowAt db.pkgRevs (dbKey k) = none) {now : Nat}
    {u : Unit} {d' : DbPackageRevision} (h : repo.save opened now b (db, d) = (.ok u, db', d')) :
    contentAt db' (dbKey k) = some d.content := by
  rw [DbRepository.save, this_bind] at h
  obtain ⟨_, ⟨db₁, d₁⟩, hpkg, h⟩ := bind_eq_ok.mp h
  obtain ⟨hpkg, rfl⟩ := onFst_eq_ok.mp hpkg
  obtain ⟨_, ⟨db₂, d₂⟩, hsave, h⟩ := bind_eq_ok.mp h
  obtain ⟨hrepo, rfl⟩ := onFst_eq_ok.mp h
  have hsame : SameRows db db₁ := by
    have hs := savePackageIfNew_sameRows opened d.pkgRevKey.pkgKey db
    rwa [hpkg] at hs
  have hsame' : SameRows db₂ db' := by
    have hs := repoUpdateDB_sameRows repo.repoKey repo.deployment db₂
    rwa [hrepo] at hs
  rw [hsame'.contentAt]
  obtain ⟨existing, hread, -⟩ | ⟨-, heq⟩ := savePackageRevision_cases now b db₁ d
  · obtain ⟨-, x, hx, hxk, -⟩ := pkgRevReadFromDB_ok hread
    exact absurd (hxk.trans (congrArg dbKey hd)) (rowAt_eq_none.mp hfree x (hsame.1 ▸ hx))
  · rw [heq] at hsave
    obtain ⟨hok, hstate⟩ := Prod.ext_iff.mp hsave
    have hwrite : pkgRevWriteToDB (stamped now b d) db₁ = (.ok _, db₂) :=
      Prod.ext hok (congrArg Prod.fst hstate)
    have hcont := pkgRevWriteToDB_contentAt hwrite
    rwa [stamped_key, stamped_content, hd] at hcont

theorem cacheExternalPR_state (now : Nat) (e : ExtPackageRevision) (db : Database) :
    (cacheExternalPR repo opened now e db).2 = db ∨ ∃ spec resources,
      (cacheExternalPR repo opened now e db).2 =
        (repo.save opened now true (db, cachedOf repo now e spec resources)).2.1 := by
  simp only [cacheExternalPR, bind, Proc.bind, Proc.query]
  cases e.getPackageRevision with
  | error err => exact .inl rfl
  | ok spec =>
    cases e.getResources with
    | error err => exact .inl rfl
    | ok resources =>
      simp only
      split
      · exact .inl rfl
      · refine .inr ⟨spec, resources, ?_⟩
        rw [← DbRepository.savePackageRevision_eq_save]
        rcases hsave : repo.savePackageRevision opened now (cachedOf repo now e spec resources) true
          db with ⟨_ | _, db₁⟩
        · simp only [Proc.bind, hsave]
        · simp only [Proc.bind, hsave]
          rfl

theorem deleteCachedOnlyPR_cell (hrow : RowOfDraft k db) (snapshot : DbPackageRevision) :
    RowOfDraft k (deleteCachedOnlyPR repo opened k snapshot db).2 ∧
      (cellOf k (deleteCachedOnlyPR repo opened k snapshot db).2 = cellOf k db ∨
        cellOf k (deleteCachedOnlyPR repo opened k snapshot db).2 = none) := by
  obtain hnone | ⟨hsame, hres⟩ := deleteCachedOnlyPR_erases k snapshot db (dbKey k)
  · refine ⟨fun y hy => ?_, .inr ?_⟩
    · rw [hnone] at hy
      cases hy
    · rw [cellOf, hnone]
      rfl
  · refine ⟨fun y hy => hrow y (hsame ▸ hy), .inl ?_⟩
    rw [cellOf, cellOf, hsame, hres]

end

/-- The markers of a push are recorded in the row that was read. -/
theorem pkgRevSetLastPushedInDB_cell {c : Cell Resources} (hc : cellOf k db = some c)
    (hrow : RowOfDraft k db) (commit : Str) :
    RowOfDraft k (pkgRevSetLastPushedInDB k commit c.stamp db).2 ∧
      (cellOf k (pkgRevSetLastPushedInDB k commit c.stamp db).2 = some c ∨
        cellOf k (pkgRevSetLastPushedInDB k commit c.stamp db).2 =
          some { c with mark := some c.stamp }) := by
  obtain ⟨e, hstmt⟩ | ⟨t, ht, hstmt⟩ :=
    pkgRevStmt_cases (fun db => setLastPushed (dbKey k) commit c.stamp db.pkgRevs) db
  · rw [pkgRevSetLastPushedInDB, hstmt]
    exact ⟨hrow, .inl hc⟩
  · rw [pkgRevSetLastPushedInDB, hstmt]
    have hsame : t = db.pkgRevs → RowOfDraft k { db with pkgRevs := t } ∧
        (cellOf k { db with pkgRevs := t } = some c ∨
          cellOf k { db with pkgRevs := t } = some { c with mark := some c.stamp }) := by
      intro h
      rw [h]
      exact ⟨hrow, .inl hc⟩
    unfold setLastPushed at ht
    split at ht
    · exact hsame (Except.ok.inj ht).symm
    · next old hlook =>
      split at ht
      · next hguard =>
        obtain ⟨hold, hkey⟩ := Table.lookup_eq_some.mp hlook
        have hat : rowAt db.pkgRevs (dbKey k) = some old.content := hkey ▸ rowAt_of_mem hold
        have hsameKey : PkgRevRow.key { old with
            extCommit := commit, lastPushedDbUpdated := some c.stamp } = old.key := rfl
        obtain ⟨hstores, -⟩ := overwriteRow_stores hsameKey ht
        have hrow' : rowAt t (dbKey k) = some (PkgRevRow.content
            { old with extCommit := commit, lastPushedDbUpdated := some c.stamp }) := by
          rw [hstores.rowAt, ← hkey]
          exact update_self ..
        refine ⟨fun y hy => ?_, .inr ?_⟩
        · rw [hrow'] at hy
          cases hy
          obtain ⟨hpkg, hrev⟩ := hrow old.content hat
          exact ⟨hpkg, hrev⟩
        · rw [cellOf, hat] at hc
          rw [cellOf, hrow', ← Option.some.inj hc]
          rfl
      · exact hsame (Except.ok.inj ht).symm

/-! What is read is what is there -/

section Read

variable (hk : ReadBack k) (hdb : OfDraft k db)
include hk hdb

/-- **A read gives the key back, with the stamp and the mark of the cell.** -/
theorem read_cell (h : pkgRevReadFromDB k b db = (.ok q, db')) : q.pkgRevKey = k ∧
      cellOf k db = some ⟨q.updated, q.lastPushedDbUpdated, db.resources (dbKey k)⟩ ∧
      (b = true → q.resources = db.resources (dbKey k)) := by
  obtain ⟨hq, -⟩ := query_eq_ok.mp h
  split at hq
  · cases hq
  · next q₀ hbind =>
    obtain ⟨x, hlook, hjoin⟩ := Option.bind_eq_some_iff.mp hbind
    obtain ⟨hx, hxk⟩ := Table.lookup_eq_some.mp hlook
    obtain ⟨p, r, hp, hr, rfl⟩ := joinRow_eq_some.mp hjoin
    have hat : rowAt db.pkgRevs (dbKey k) = some x.content := hxk ▸ rowAt_of_mem hx
    obtain ⟨hpkg, hrev⟩ := hdb.row x.content hat
    obtain ⟨hpmem, hpkey⟩ := Table.lookup_eq_some.mp hp
    obtain ⟨hrmem, hrkey⟩ := Table.lookup_eq_some.mp hr
    have hns : x.namesp = k.pkgKey.repoKey.namesp := congrArg Prod.fst hxk
    have hname : x.name = k.k8sName := congrArg Prod.snd hxk
    have hpname : p.name = k.pkgKey.k8sName := (congrArg Prod.snd hpkey).trans hpkg
    have hpns : p.namesp = k.pkgKey.repoKey.namesp := (congrArg Prod.fst hpkey).trans hns
    obtain ⟨hprepo, hppath⟩ := hdb.based.pkg p hpmem (Prod.ext hpns hpname)
    have hrk : repoKeyOf r = k.pkgKey.repoKey :=
      hdb.based.repo r hrmem (hrkey.trans (by rw [hpns, hprepo]))
    have hkey : (scanRow r p x).pkgRevKey = k := by
      simp only [scanRow, pkgKeyOf, hrk, hppath, hpname, hname, hk.package, hk.workspace]
      rw [show x.revision = k.revision from hrev.trans hk.revision.symm]
    have hcell : cellOf k db = some ⟨x.updated, x.lastPushedDbUpdated, db.resources (dbKey k)⟩ := by
      rw [cellOf, hat]
      rfl
    cases b with
    | false =>
      cases hq
      exact ⟨hkey, hcell, fun h => by cases h⟩
    | true =>
      cases hq
      exact ⟨hkey, hcell, fun _ => congrArg (fun k => db.resources (dbKey k)) hkey⟩

theorem mark_of_read (hread : pkgRevReadFromDB k false db = (.ok q, db')) :
    (preservePushMarkersIfUnset d q).lastPushedDbUpdated =
      d.lastPushedDbUpdated.or ((cellOf k db).bind (·.mark)) := by
  obtain ⟨-, hcell, -⟩ := read_cell hk hdb hread
  rw [preserve_mark, hcell]
  rfl

theorem savePackageRevision_writes (hd : d.pkgRevKey = k) (now : Nat) (b : Bool) :
    Writes k db d (stamped now b d).updated (savePackageRevision now b (db, d)).2 := by
  have hkey : (stamped now b d).pkgRevKey = k := (stamped_key now b d).trans hd
  obtain ⟨existing, hread, heq⟩ | ⟨-, heq⟩ := savePackageRevision_cases now b db d
  · rw [heq, ← preserve_updated (stamped now b d) existing]
    apply writes_of hk ((preserve_key _ _).trans hkey) (.inr ?_)
      ((pkgRevUpdateDB_written _ b db).imp_right And.left) (pkgRevUpdateDB_based _ b db)
    rw [mark_of_read hk hdb (hd ▸ hread), stamped_mark]
  · rw [heq]
    exact writes_of hk hkey (.inl (stamped_mark now b d)) (pkgRevWriteToDB_written _ db)
      (pkgRevWriteToDB_based _ db)

theorem setMeta_writes (hd : d.pkgRevKey = k) (labels : Labels) : Writes k db d d.updated (setMeta labels (db, d)).2 ∧
      ((setMeta labels (db, d)).2.1 = db ∨ (∃ y, rowAt db.pkgRevs (dbKey k) = some y) ∧
        (setMeta labels (db, d)).2.1.resources = db.resources) := by
  obtain ⟨d', heq, hd'⟩ := setMeta_cases labels db d
  have hkey : d'.pkgRevKey = k ∧ d'.updated = d.updated ∧
      (d'.lastPushedDbUpdated = d.lastPushedDbUpdated ∨
        d'.lastPushedDbUpdated = d.lastPushedDbUpdated.or ((cellOf k db).bind (·.mark))) := by
    obtain rfl | ⟨existing, hread, rfl⟩ := hd'
    · exact ⟨hd, rfl, .inl rfl⟩
    · refine ⟨(preserve_key _ _).trans hd, preserve_updated _ _, .inr ?_⟩
      exact mark_of_read hk hdb (hd ▸ hread)
  obtain ⟨hkey, hupd, hmark⟩ := hkey
  rw [heq, ← hupd]
  have hwritten := pkgRevUpdateDB_written d' false db
  refine ⟨writes_of hk hkey hmark (hwritten.imp_right And.left) (pkgRevUpdateDB_based d' false db),
    hwritten.imp_right ?_⟩
  rintro ⟨-, hres, hthere⟩
  refine ⟨hkey ▸ hthere ?_, hres rfl⟩
  rw [hkey, hk.revision]
  decide

/-- Opening a draft takes the row as it is, with a new time. -/
theorem updatePackageRevision_opens (hd : d.pkgRevKey = k) (now : Nat) :
    (∃ e, DbRepository.updatePackageRevision now (db, d) = (.error e, db, d)) ∨
      ∃ d', DbRepository.updatePackageRevision now (db, d) = (.ok (), db, d') ∧ d'.pkgRevKey = k ∧
        d'.updated = now ∧ ∃ c, cellOf k db = some c ∧ d'.lastPushedDbUpdated = c.mark := by
  obtain ⟨q, hread⟩ | hread := pkgRevReadFromDB_cases k true db
  · right
    obtain ⟨hqkey, hcell, -⟩ := read_cell hk hdb hread
    obtain ⟨existing, hread'⟩ := pkgRevReadFromDB_flag hread
    obtain ⟨-, hcell', -⟩ := read_cell hk hdb hread'
    refine ⟨{ preservePushMarkersIfUnset (copyToThis d q) existing with updated := now }, ?_, ?_⟩
    · simp only [DbRepository.updatePackageRevision, preserveFromDB, bind, Proc.bind, Proc.assign,
        Proc.this, Proc.attempt, Proc.onFst, hd, hread, copyToThis, hqkey, hread']
    · refine ⟨(preserve_key _ _).trans hqkey, rfl, _, hcell, ?_⟩
      -- the second read finds the marks of the first
      have hsame : existing.lastPushedDbUpdated = q.lastPushedDbUpdated := by
        rw [hcell] at hcell'
        exact (congrArg Cell.mark (Option.some.inj hcell')).symm
      show (preservePushMarkersIfUnset (copyToThis d q) existing).lastPushedDbUpdated = _
      rw [preserve_mark, hsame]
      exact Option.or_self
  · left
    refine ⟨.noRows, ?_⟩
    simp only [DbRepository.updatePackageRevision, bind, Proc.bind, Proc.this, Proc.onFst, hd, hread]

/-- A save writes the object with its own time, or with that of the save. -/
theorem DbRepository.save_writes (repo : DbRepository) (opened : RepositoryKey → Bool)
    (hd : d.pkgRevKey = k)
    (now : Nat) (b : Bool) : ∃ t, (t = d.updated ∨ t = now) ∧
      Writes k db d t (repo.save opened now b (db, d)).2 := by
  have hpkg := savePackageIfNew_sameRows opened k.pkgKey db
  have hpkgBased : StaysBased k db (savePackageIfNew opened k.pkgKey db).2 :=
    savePackageIfNew_based opened db
  rcases hsave : savePackageIfNew opened k.pkgKey db with ⟨e | _, db₁⟩
  · refine ⟨d.updated, .inl rfl, ?_⟩
    rw [hsave] at hpkg hpkgBased
    have hrun : repo.save opened now b (db, d) = (.error e, db₁, d) := by
      simp only [DbRepository.save, bind, Proc.bind, Proc.this, Proc.onFst, hd, hsave]
    rw [hrun]
    exact ⟨hd, rfl, .inl rfl, .inl hpkg.cellOf, fun h => ⟨hpkgBased h.based, hpkg.rowOfDraft h.row⟩⟩
  · rw [hsave] at hpkg hpkgBased
    have hwrites := savePackageRevision_writes hk ⟨hpkgBased hdb.based, hpkg.rowOfDraft hdb.row⟩ hd now b
    refine ⟨(stamped now b d).updated, ?_, ?_⟩
    · unfold stamped
      split
      · exact .inr rfl
      · exact .inl rfl
    · have hrest : repo.save opened now b (db, d) =
          (do
            Porch.Db.savePackageRevision now b
            .onFst (repoUpdateDB repo.repoKey repo.deployment) : Method Unit) (db₁, d) := by
        simp only [DbRepository.save, bind, Proc.bind, Proc.this, Proc.onFst, hd, hsave]
      rcases hstore : Porch.Db.savePackageRevision now b (db₁, d) with ⟨e | _, db₂, d₂⟩
      · rw [hstore] at hwrites
        rw [hrest, Proc.bind_run_error hstore]
        exact hwrites.frame hpkg hpkgBased (SameRows.frame.refl db₂) (StaysBased.frame.refl db₂)
      · rw [hstore] at hwrites
        rw [hrest, Proc.bind_run_ok hstore]
        exact hwrites.frame hpkg hpkgBased (repoUpdateDB_sameRows _ _ db₂)
          (repoUpdateDB_based _ _ db₂)

theorem cacheExternalPR_cell (repo : DbRepository) (opened : RepositoryKey → Bool)
    {e : ExtPackageRevision}
    (he : e.key = k) (now : Nat) : OfDraft k (cacheExternalPR repo opened now e db).2 ∧
      (cellOf k (cacheExternalPR repo opened now e db).2 = cellOf k db ∨
        ∃ m x, (m = none ∨ m = (cellOf k db).bind (·.mark)) ∧
          cellOf k (cacheExternalPR repo opened now e db).2 = some ⟨now, m, x⟩) := by
  obtain hsame | ⟨spec, resources, hsave⟩ := cacheExternalPR_state repo opened now e db
  · rw [hsame]
    exact ⟨hdb, .inl rfl⟩
  · rw [hsave]
    obtain ⟨t, ht, hw⟩ := repo.save_writes hk hdb opened
      (show (cachedOf repo now e spec resources).pkgRevKey = k from he) now true
    have ht' : t = now := ht.elim id id
    refine ⟨hw.db hdb, hw.cell.imp_right fun hcell => ⟨_, _, ?_, ht' ▸ hcell⟩⟩
    obtain hmark | hmark := hw.mark
    · exact .inl hmark
    · exact .inr (hmark.trans (Option.none_or ..))

/-- **What a push does.** Nothing, or the content of the cell goes to git, and the cell
    may say so. -/
theorem pushDraftToGit_cell (outcome : PushOutcome) (git : Option Resources) :
    pushDraftToGit k outcome db git = (db, git) ∨ ∃ c m, cellOf k db = some c ∧
      includesKptfile c.content = true ∧ (m = c.mark ∨ m = some c.stamp) ∧
      cellOf k (pushDraftToGit k outcome db git).1 = some { c with mark := m } ∧
      (pushDraftToGit k outcome db git).2 = some c.content ∧
      OfDraft k (pushDraftToGit k outcome db git).1 := by
  unfold pushDraftToGit
  split
  · exact .inl rfl
  · next pr _ hread =>
    obtain ⟨-, hcell, hres⟩ := read_cell hk hdb hread
    split
    · next hdue =>
      have hkpt : includesKptfile (db.resources (dbKey k)) = true := by
        rw [← hres rfl]
        exact (Bool.and_eq_true_iff.mp hdue).2
      cases outcome with
      | refused => exact .inl rfl
      | taken commit reachable =>
        cases reachable with
        | false =>
          exact .inr ⟨_, _, hcell, hkpt, .inl rfl, hcell, congrArg some (hres rfl), hdb⟩
        | true =>
          obtain ⟨hrow', hcell'⟩ := pkgRevSetLastPushedInDB_cell hcell hdb.row commit
          have hdb' : OfDraft k (pkgRevSetLastPushedInDB k commit pr.updated db).2 :=
            ⟨pkgRevStmt_based _ db hdb.based, hrow'⟩
          obtain hcell' | hcell' := hcell'
          · exact .inr ⟨_, _, hcell, hkpt, .inl rfl, hcell', congrArg some (hres rfl), hdb'⟩
          · exact .inr ⟨_, _, hcell, hkpt, .inr rfl, hcell', congrArg some (hres rfl), hdb'⟩
    · exact .inl rfl

end Read

end Cell

/-! Runs -/

section Runs

variable {repo : DbRepository} {opened : RepositoryKey → Bool} {k : PackageRevisionKey}
  {w w' : World}

/-- The stamp and the mark of an object in memory. -/
def Handle.copy (h : Handle) : Copy :=
  ⟨h.pr.updated, h.pr.lastPushedDbUpdated, h.unsaved⟩

/-- The world of a package revision as a cell with copies. -/
def World.abs (k : PackageRevisionKey) (w : World) : State Nat Resources where
  cell := cellOf k w.db
  remote := w.git
  copies i := (w.objs i).map Handle.copy
  clock := w.clock

/-- Every object is of the key, and so are the rows. -/
structure World.Ok (k : PackageRevisionKey) (w : World) : Prop where
  db : OfDraft k w.db
  objs : ∀ i h, w.objs i = some h → h.pr.pkgRevKey = k

theorem abs_put (w : World) (i : Nat) (h : Handle) :
    (w.put i h).abs k = (w.abs k).put i h.copy := by
  unfold World.abs World.put State.put
  simp only [State.mk.injEq, true_and, and_true]
  exact comp_update (Option.map Handle.copy) w.objs i (some h)

theorem World.Ok.put (hw : w.Ok k) (i : Nat) (h : Handle) (hkey : h.pr.pkgRevKey = k) :
    (w.put i h).Ok k := by
  refine ⟨hw.db, fun j h' (hj : update w.objs i (some h) j = some h') => ?_⟩
  by_cases hji : j = i
  · rw [hji, update_self] at hj
    rw [← Option.some.inj hj]
    exact hkey
  · rw [update_of_ne hji] at hj
    exact hw.objs j h' hj

variable {db : Database} {i now : Nat} {h : Handle}

theorem World.Ok.setDb (hw : w.Ok k) (hdb : OfDraft k db) (t : Nat) : World.Ok k { w with db := db, clock := t } :=
  ⟨hdb, hw.objs⟩

theorem abs_copies (hi : w.objs i = some h) :
    (w.abs k).copies i = some h.copy := congrArg (Option.map Handle.copy) hi

theorem abs_put_same (hi : w.objs i = some h) (h' : Handle) (hc : h'.copy = h.copy) :
    (w.put i h').abs k = w.abs k := by
  rw [abs_put, hc, State.put, ← abs_copies hi, update_eq_self]

theorem abs_setDb {git : Option Resources} {t : Nat}
    {c : Option (Cell Resources)} (hcell : cellOf k db = c) :
    World.abs k { w with db := db, git := git, clock := t } =
      { w.abs k with cell := c, remote := git, clock := t } := by
  subst hcell
  rfl

section

variable (hk : ReadBack k) (hw : w.Ok k)
include hk hw

theorem close_simulates
    (hi : w.objs i = some h) (hu : h.unsaved = true) (hnow : w.clock < now) :
    let r := repo.closePackageRevisionDraft opened now (w.db, h.pr)
    let w' := { w with db := r.2.1, clock := now }.put i ⟨r.2.2, false⟩
    w'.Ok k ∧ Step includesKptfile (w.abs k) (w'.abs k) := by
  intro r w'
  obtain ⟨t, ht, hwrites⟩ := repo.save_writes hk hw.db opened (hw.objs i h hi) now
    h.pr.resourcesDirty
  have hstamp : t = r.2.2.updated := hwrites.stamp.symm
  subst hstamp
  refine ⟨(hw.setDb (hwrites.db hw.db) now).put i _ hwrites.key, ?_⟩
  rw [abs_put]
  apply Step.saved i h.copy r.2.2.lastPushedDbUpdated r.2.2.updated now (cellOf k r.2.1)
    (abs_copies hi) hu hwrites.mark (Nat.le_of_lt hnow)
  · obtain ht | ht := ht
    · exact .inl ht
    · exact .inr ⟨ht ▸ hnow, Nat.le_of_eq ht⟩
  · exact hwrites.cell.imp_right fun hcell => ⟨_, hcell⟩

/-- An object that is as new as the row writes its metadata. -/
theorem setMeta_simulates (labels : Labels)
    (hi : w.objs i = some h)
    (hnew : ∀ y, rowAt w.db.pkgRevs (dbKey k) = some y → y.updated = h.pr.updated) :
    let r := setMeta labels (w.db, h.pr)
    let w' := { w with db := r.2.1 }.put i ⟨r.2.2, h.unsaved⟩
    w'.Ok k ∧ Step includesKptfile (w.abs k) (w'.abs k) := by
  intro r w'
  obtain ⟨hwrites, hres⟩ := setMeta_writes hk hw.db (hw.objs i h hi) labels
  refine ⟨(hw.setDb (hwrites.db hw.db) w.clock).put i _ hwrites.key, ?_⟩
  have hcopy : (Handle.mk r.2.2 h.unsaved).copy =
      ⟨h.copy.stamp, r.2.2.lastPushedDbUpdated, h.copy.unsaved⟩ := by
    rw [Handle.copy, hwrites.stamp]
    rfl
  have hstamp : ∀ c, cellOf k w.db = some c → c.stamp = h.copy.stamp := by
    intro c hc
    obtain ⟨y, hy, rfl⟩ := Option.map_eq_some_iff.mp hc
    exact hnew y hy
  rw [abs_put, hcopy]
  apply Step.touched i h.copy r.2.2.lastPushedDbUpdated (cellOf k r.2.1) (abs_copies hi)
    hstamp hwrites.mark
  obtain hsame | ⟨⟨y, hy⟩, hres⟩ := hres
  · exact .inl (congrArg (cellOf k) hsame)
  · refine hwrites.cell.imp_right fun hcell => ?_
    have hc : cellOf k w.db =
        some ⟨y.updated, y.lastPushedDbUpdated, w.db.resources (dbKey k)⟩ := by
      rw [cellOf, hy]
      rfl
    refine ⟨_, hc, ?_⟩
    rw [hcell, hres, hnew y hy]

/-- A new draft has no files that git would take. -/
theorem create_simulates {packageName workspaceName tasks : Str} {labels : Labels}
    (hkey : (repo.newDraft now packageName workspaceName labels tasks).pkgRevKey = k)
    (hnow : w.clock < now) (hfree : rowAt w.db.pkgRevs (dbKey k) = none)
    (h : w.step repo opened k (.create i now packageName workspaceName labels tasks) = some w') :
    w'.Ok k ∧ Step includesKptfile (w.abs k) (w'.abs k) := by
  have hcell : cellOf k w.db = none := by
    rw [cellOf, hfree]
    rfl
  obtain ⟨t, ht, hwrites⟩ := repo.save_writes hk hw.db opened hkey now false
  obtain rfl : t = now := ht.elim id id
  have hcreate : repo.createPackageRevisionDraft opened t packageName workspaceName labels tasks w.db =
      (repo.save opened t false).call (repo.newDraft t packageName workspaceName labels tasks) w.db :=
    rfl
  simp only [World.step, if_pos (And.intro hnow hkey), hcreate, call] at h
  rcases hrun : repo.save opened t false
    (w.db, repo.newDraft t packageName workspaceName labels tasks) with ⟨e | u, db', d'⟩
  · rw [hrun] at hwrites h
    cases h
    refine ⟨hw.setDb (hwrites.db hw.db) t, ?_⟩
    obtain hsame | hnew := hwrites.cell
    · rw [abs_setDb hsame]
      exact .tick t (Nat.le_of_lt hnow)
    · rw [abs_setDb hnew]
      exact .stored t _ _ hnow hwrites.mark
  · have hcont := repo.save_new opened hkey hfree hrun
    rw [hrun] at hwrites h
    cases h
    refine ⟨(hw.setDb (hwrites.db hw.db) t).put i _ hwrites.key, ?_⟩
    -- the row is there, without files and without a mark
    have hmark : d'.lastPushedDbUpdated = none := by
      obtain hm | hm := hwrites.mark
      · exact hm
      · rw [hm, hcell]
        rfl
    have hthere : cellOf k db' = some ⟨t, none, []⟩ := by
      obtain ⟨y, hy, hfields⟩ := Option.map_eq_some_iff.mp hcont
      have hfiles : db'.resources (dbKey k) = [] := congrArg (fun c => c.2.2) hfields
      obtain hsame | hnew := hwrites.cell
      · rw [hcell, cellOf, hy] at hsame
        cases hsame
      · rw [hnew, hmark, hfiles]
    have hcopy : (Handle.mk d' true).copy = ⟨t, none, true⟩ := by
      rw [Handle.copy, hwrites.stamp, hmark]
    rw [abs_put, hcopy, abs_setDb hthere]
    exact .created i t [] hcell hnow rfl

/-- **Every careful event is a step of the protocol.** -/
theorem step_simulates {e : DraftEvent} (hok : Careful k w e)
    (h : w.step repo opened k e = some w') :
    w'.Ok k ∧ Step includesKptfile (w.abs k) (w'.abs k) := by
  have hskip : Step includesKptfile (w.abs k) (w.abs k) := .tick w.clock (Nat.le_refl _)
  cases e with
  | get i readResources =>
    simp only [World.step] at h
    split at h
    · next pr _ hread =>
      cases h
      obtain ⟨hkey, hcell, -⟩ := read_cell hk hw.db hread
      refine ⟨hw.put i _ hkey, ?_⟩
      rw [abs_put]
      have hread' : (w.abs k).cell = _ := hcell
      exact .read i _ hread'
    · cases h
      exact ⟨hw, hskip⟩
  | create i now packageName workspaceName labels tasks =>
    have hguard := (Option.ite_none_right_eq_some.mp h).1
    exact create_simulates hk hw hguard.2 hguard.1 hok h
  | updatePackageRevision i now =>
    obtain ⟨hnow, h⟩ := Option.ite_none_right_eq_some.mp h
    obtain ⟨hd, hi, rfl⟩ := Option.map_eq_some_iff.mp h
    have hw₁ : World.Ok k { w with clock := now } := hw.setDb hw.db now
    obtain ⟨e, hrun⟩ | ⟨d', hrun, hkey, hstamp, c, hcell, hmark⟩ :=
      updatePackageRevision_opens hk hw.db (hw.objs i hd hi) now
    · -- the object is as before
      simp only [hrun]
      have hcopy : (Handle.mk hd.pr (hd.unsaved || false)).copy = hd.copy := by
        rw [Handle.copy, Bool.or_false]
        rfl
      refine ⟨hw₁.put i _ (hw.objs i hd hi), ?_⟩
      have habs : World.abs k (World.put { w with clock := now } i ⟨hd.pr, hd.unsaved || false⟩) =
          { w.abs k with clock := now } := abs_put_same hi _ hcopy
      exact habs ▸ .tick now (Nat.le_of_lt hnow)
    · simp only [hrun]
      refine ⟨hw₁.put i _ hkey, ?_⟩
      have hcopy : (Handle.mk d' (hd.unsaved || true)).copy = ⟨now, c.mark, true⟩ := by
        rw [Handle.copy, hstamp, hmark, Bool.or_true]
      have hcell' : (w.abs k).cell = some c := hcell
      have habs : World.abs k (World.put { w with clock := now } i ⟨d', hd.unsaved || true⟩) =
          { (w.abs k).put i ⟨now, c.mark, true⟩ with clock := now } := by
        rw [abs_put, hcopy]
        rfl
      exact habs ▸ .opened i c now hcell' hnow
  | updateResources i new change =>
    obtain ⟨hd, hi, rfl⟩ := Option.map_eq_some_iff.mp h
    have hkey : (hd.pr.updateResources new change).pkgRevKey = k := hw.objs i hd hi
    refine ⟨hw.put i _ hkey, ?_⟩
    rw [abs_put_same hi { hd with pr := hd.pr.updateResources new change } rfl]
    exact hskip
  | close i now =>
    obtain ⟨hnow, h⟩ := Option.ite_none_right_eq_some.mp h
    obtain ⟨hd, hi, rfl⟩ := Option.map_eq_some_iff.mp h
    exact close_simulates hk hw hi (hok hd hi) hnow
  | setMeta i labels =>
    obtain ⟨hd, hi, rfl⟩ := Option.map_eq_some_iff.mp h
    exact setMeta_simulates hk hw labels hi fun y hy => hok hd y hi hy
  | deleteCachedOnly snapshot =>
    cases h
    obtain ⟨hrow, hcell⟩ := deleteCachedOnlyPR_cell repo opened hw.db.row snapshot
    refine ⟨⟨⟨deleteCachedOnlyPR_based repo opened k snapshot w.db hw.db.based, hrow⟩, hw.objs⟩, ?_⟩
    obtain hcell | hcell := hcell
    · rw [abs_setDb hcell]
      exact hskip
    · rw [abs_setDb hcell]
      exact .removed
  | cacheExternal now e =>
    obtain ⟨hguard, rfl⟩ := Option.ite_none_right_eq_some.mp h |>.imp_right Option.some.inj
    obtain ⟨hdb, hcell⟩ :=
      cacheExternalPR_cell hk hw.db repo opened hguard.2 now
    refine ⟨hw.setDb hdb now, ?_⟩
    obtain hcell | ⟨m, x, hm, hcell⟩ := hcell
    · rw [abs_setDb hcell]
      exact .tick now (Nat.le_of_lt hguard.1)
    · rw [abs_setDb hcell]
      refine .stored now m x hguard.1 (hm.imp_right fun hm => hm.trans ?_)
      exact (Option.none_or ..).symm
  | push outcome =>
    cases h
    obtain hsame | ⟨c, m, hcell, hfit, hm, hcell', hgit, hdb⟩ :=
      pushDraftToGit_cell hk hw.db outcome w.git
    · simp only [hsame]
      exact ⟨hw, hskip⟩
    · refine ⟨⟨hdb, hw.objs⟩, ?_⟩
      rw [abs_setDb hcell', hgit]
      have hc : (w.abs k).cell = some c := hcell
      exact .pushed c m hc hfit hm

end

/-- A world without objects in memory, whose markers are true. -/
structure World.Fresh (k : PackageRevisionKey) (w : World) : Prop where
  objs : ∀ i, w.objs i = none
  based : Based k w.db
  row : RowOfDraft k w.db
  time : ∀ y, rowAt w.db.pkgRevs (dbKey k) = some y →
    y.updated ≤ w.clock ∧ ∀ t, y.lastPushedDbUpdated = some t → t ≤ w.clock
  markers : MarkersTrue k w

theorem World.Fresh.ok (hw : w.Fresh k) : w.Ok k :=
  ⟨⟨hw.based, hw.row⟩, fun i h hi => by rw [hw.objs i] at hi; cases hi⟩

theorem cellOf_eq_some {c : Cell Resources} :
    cellOf k db = some c ↔ ∃ y, rowAt db.pkgRevs (dbKey k) = some y ∧
      c = ⟨y.updated, y.lastPushedDbUpdated, db.resources (dbKey k)⟩ := by
  rw [cellOf, Option.map_eq_some_iff]
  exact exists_congr fun y => and_congr_right fun _ => eq_comm

theorem World.Fresh.inv (hw : w.Fresh k) : Inv includesKptfile (w.abs k) := by
  have hnone : ∀ i h, (w.abs k).copies i ≠ some h := by
    intro i h (hi : (w.objs i).map Handle.copy = some h)
    rw [hw.objs i] at hi
    cases hi
  refine ⟨fun c hc hmark => ?_, fun i h c hi => absurd hi (hnone i h),
    fun i h c hi => absurd hi (hnone i h), fun i j h h' hi => absurd hi (hnone i h),
    fun i j h h' hi => absurd hi (hnone i h), fun c hc => ?_, fun i h hi => absurd hi (hnone i h)⟩
  · obtain ⟨y, hy, rfl⟩ := cellOf_eq_some.mp hc
    exact hw.markers y hy hmark
  · obtain ⟨y, hy, rfl⟩ := cellOf_eq_some.mp hc
    exact hw.time y hy

/-- **In careful runs the markers are true.** Whatever the order of edits, metadata
    writes, syncs and pushes, a row that says that it has been pushed has been. -/
theorem markers_true (repo : DbRepository) (opened : RepositoryKey → Bool) (hk : ReadBack k)
    (hw : w.Fresh k) {es : List DraftEvent}
    (hcareful : Along (World.step repo opened k) (Careful k) w es)
    (hrun : run (World.step repo opened k) w es = some w') : MarkersTrue k w' := by
  have hstep : ∀ w e w', (w.Ok k ∧ Inv includesKptfile (w.abs k)) → Careful k w e →
      World.step repo opened k w e = some w' → w'.Ok k ∧ Inv includesKptfile (w'.abs k) := by
    intro w e w' hw hok he
    obtain ⟨hok', hsim⟩ := step_simulates hk hw.1 hok he
    exact ⟨hok', hw.2.step hsim⟩
  obtain ⟨-, hinv⟩ := run_invariant hstep ⟨hw.ok, hw.inv⟩ hcareful hrun
  intro y hy hmark
  exact hinv.pushed _ (cellOf_eq_some.mpr ⟨y, hy, rfl⟩) hmark

end Runs

/-! A draft that has been pushed -/

def pushedDraft : DbPackageRevision :=
  { dbDraft with updated := 1, lastPushedDbUpdated := some 1 }

def pushedWorld : World where
  db := storeOf [pushedDraft]
  objs _ := none
  git := some pushedDraft.resources
  clock := 1

def editedFiles : Resources := [("Kptfile", "edited")]

/-- An edit of the draft by the object 1, up to the close. -/
def openEdit : List DraftEvent :=
  [.get 1 true, .updatePackageRevision 1 2, .updateResources 1 editedFiles none]

def pushedEdit : List DraftEvent := openEdit ++ [.close 1 3] ++ [.push (.taken "c2" true)]

/-- The object 0 is read before the edit and writes its metadata after it. -/
def staleMetadata : List DraftEvent := .get 0 true :: openEdit ++ [.close 1 3, .setMeta 0 []]

/-- The time, the marker and the files of the draft, and its files in git. -/
structure Shown where
  updated : Nat
  lastPushed : Option Nat
  files : Resources
  git : Option Resources
deriving DecidableEq, Repr

def shown (w : World) : Option Shown :=
  (rowAt w.db.pkgRevs (dbKey dbDraft.pkgRevKey)).map fun y =>
    ⟨y.updated, y.lastPushedDbUpdated, w.db.resources (dbKey dbDraft.pkgRevKey), w.git⟩

theorem readBack_dbDraft : ReadBack dbDraft.pkgRevKey := ⟨by decide, by decide, rfl⟩

theorem fresh_pushedWorld : pushedWorld.Fresh dbDraft.pkgRevKey := by
  have hrow : ∀ y, rowAt pushedWorld.db.pkgRevs (dbKey dbDraft.pkgRevKey) = some y →
      y = pushedDraft.row.content := by
    intro y hy
    have hat : rowAt pushedWorld.db.pkgRevs (dbKey dbDraft.pkgRevKey) =
        some pushedDraft.row.content := by decide +kernel
    exact (Option.some.inj (hat.symm.trans hy)).symm
  refine ⟨fun _ => rfl, ⟨by decide +kernel, by decide +kernel⟩, fun y hy => ?_, fun y hy => ?_,
    fun y hy _ => ?_⟩
  · rw [hrow y hy]
    decide
  · rw [hrow y hy]
    exact ⟨Nat.le_refl 1, fun t ht => by cases ht; exact Nat.le_refl 1⟩
  · decide +kernel

/-- The edit is pushed, and the row says so. -/
theorem markers_true_pushed_edit :
    ∃ w, run (World.step blueprints (fun _ => true) dbDraft.pkgRevKey) pushedWorld pushedEdit =
        some w ∧ shown w = some ⟨2, some 2, editedFiles, some editedFiles⟩ ∧
      MarkersTrue dbDraft.pkgRevKey w := by
  have hopened : Along (World.step blueprints (fun _ => true) dbDraft.pkgRevKey)
      (Careful dbDraft.pkgRevKey) pushedWorld openEdit :=
    ⟨trivial, fun _ _ => ⟨trivial, fun _ _ => ⟨trivial, fun _ _ => trivial⟩⟩⟩
  have hcareful : Along (World.step blueprints (fun _ => true) dbDraft.pkgRevKey)
      (Careful dbDraft.pkgRevKey) pushedWorld pushedEdit := by
    refine along_concat (along_concat hopened ?_) fun _ _ => trivial
    -- the object that is closed has been opened
    intro w hw h hh
    have hopen : ((run (World.step blueprints (fun _ => true) dbDraft.pkgRevKey) pushedWorld
        openEdit).bind fun w => (w.objs 1).map (·.unsaved)) = some true := by decide +kernel
    rw [hw, Option.bind_some, hh] at hopen
    exact Option.some.inj hopen
  refine exists_reached (by decide +kernel) fun w hw _ => ?_
  exact markers_true blueprints _ readBack_dbDraft fresh_pushedWorld hcareful hw

/-- The row has the new files with the time and the marker of the old ones, which are
    still in git. -/
theorem stale_metadata_hides_edit : pushedWorld.Fresh dbDraft.pkgRevKey ∧
      ∃ w, run (World.step blueprints (fun _ => true) dbDraft.pkgRevKey) pushedWorld
          staleMetadata = some w ∧ shown w = some ⟨1, some 1, editedFiles, some dbDraft.resources⟩ ∧
        ¬ MarkersTrue dbDraft.pkgRevKey w := by
  refine ⟨fresh_pushedWorld, exists_reached (by decide +kernel) fun w hw hw' htrue => ?_⟩
  obtain ⟨y, hy, hfields⟩ := Option.map_eq_some_iff.mp hw'
  simp only [Shown.mk.injEq] at hfields
  obtain ⟨hupd, hpushed, hfiles, hgit⟩ := hfields
  have hsame := htrue y hy (by rw [hpushed, hupd])
  rw [hgit, hfiles] at hsame
  exact absurd hsame (by decide)

end Porch.Db
