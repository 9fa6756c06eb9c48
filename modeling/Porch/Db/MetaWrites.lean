import Porch.Db.PushMarkers

/- What a write of metadata does to the rest of a row. Objects of a package revision are
   read from the database at any time, edited, closed, moved through the lifecycle and
   published, and any of them may write metadata at any later time.

     pkgRevReadFromDB                 RevisionEvent.get
     UpdateLifecycle (and publishPR)  updateLifecycle
     ClosePackageRevisionDraft        close
     PushDraftPackageRevision         push

   `SetMeta` takes the lock of the package for the write only and then updates the whole
   row from its object. `setMeta_keeps_row_iff` says when the other columns stay as they
   are: when the object agrees with the row, or the triggers refuse it. Otherwise the
   write takes back what others have written (`metadata_takes_back_proposal`).

   A push to git and the current user play no part; the outcome of the push of
   `publishPR` is part of the event. `status` is the status that `extractKptfileStatus`
   finds in a Kptfile. -/
namespace Porch.Db.MetaWrites

open Go Sql Table Proc

/-- The database and the objects in memory. -/
structure Revisions where
  db : Database
  objs : Nat → Option DbPackageRevision

inductive RevisionEvent where
  | get (i : Nat) (k : PackageRevisionKey) (readResources : Bool)
  | updatePackageRevision (i now : Nat)
  | updateResources (i : Nat) (new : Resources) (change : Option Str)
  | updateLifecycle (i now : Nat) (newLifecycle : Lifecycle) (pushed : Except CacheError Str)
  | close (i now : Nat)
  | setMeta (i : Nat) (labels : Labels)
  | push (k : PackageRevisionKey) (outcome : PushOutcome)

def Revisions.put (w : Revisions) (i : Nat) (pr : DbPackageRevision) : Revisions :=
  { w with objs := Function.update w.objs i (some pr) }

/-- A method of the object `i`, however it ends. -/
def Revisions.call (w : Revisions) (i : Nat) (m : Method Unit) : Revisions :=
  match w.objs i with
  | none => w
  | some pr => { w with db := (m (w.db, pr)).2.1 }.put i (m (w.db, pr)).2.2

section Step

variable (repo : DbRepository) (opened : RepositoryKey → Bool)

def Revisions.step (w : Revisions) : RevisionEvent → Revisions
  | .get i k readResources =>
    match pkgRevReadFromDB k readResources w.db with
    | (.ok pr, _) => w.put i pr
    | (.error _, _) => w
  | .updatePackageRevision i now => w.call i (DbRepository.updatePackageRevision now)
  | .updateResources i new change =>
    match w.objs i with
    | none => w
    | some pr => w.put i (pr.updateResources new change)
  | .updateLifecycle i now newLifecycle pushed =>
    w.call i (updateLifecycle (fun _ _ => pushed) opened now newLifecycle)
  | .close i now => w.call i (repo.closePackageRevisionDraft opened now)
  | .setMeta i labels => w.call i (Porch.Db.setMeta labels)
  | .push k outcome => { w with db := (pushDraftToGit k outcome w.db none).1 }

def Revisions.run (w : Revisions) (events : List RevisionEvent) : Revisions :=
  events.foldl (Revisions.step repo opened) w

end Step

/-! The columns -/

section Columns

variable {σ : Type} (status : Option Str → σ)

/-- Every column but the metadata is the same. -/
structure SameButMeta (old new : PkgRevRow) : Prop where
  packageName : new.packageName = old.packageName
  revision : new.revision = old.revision
  lifecycle : new.lifecycle = old.lifecycle
  tasks : new.tasks = old.tasks
  kptfileStatus : status new.kptfile = status old.kptfile
  extCommit : new.extCommit = old.extCommit
  updated : new.updated = old.updated
  lastPushedDbUpdated : new.lastPushedDbUpdated = old.lastPushedDbUpdated

/-- The object agrees with the row. It may not know yet that the row has been pushed. -/
structure Current (pr : DbPackageRevision) (y : PkgRevRow) : Prop where
  packageName : pr.pkgRevKey.pkgKey.k8sName = y.packageName
  revision : pr.pkgRevKey.revision = y.revision
  lifecycle : pr.lifecycle = y.lifecycle
  tasks : pr.tasks = y.tasks
  kptfileStatus : status pr.kptfile = status y.kptfile
  updated : pr.updated = y.updated
  lastPushedDbUpdated : pr.lastPushedDbUpdated = none ∨ pr.lastPushedDbUpdated = y.lastPushedDbUpdated
  extCommit : pr.extCommit = y.extCommit ∨
    pr.extCommit = unpushedGitCommit ∧ pr.lastPushedDbUpdated = none ∧ y.lastPushedDbUpdated ≠ none

/-- The object as `SetMeta` writes it over the row `y`. -/
def written (labels : Labels) (pr : DbPackageRevision) (y : PkgRevRow) : DbPackageRevision :=
  preservePushMarkersIfUnset { pr with labels := labels }
    { pr with lastPushedDbUpdated := y.lastPushedDbUpdated, extCommit := y.extCommit }

/-- The statement of `pkgRevUpdateDB`. -/
def updateStatement (db : Database) (pr : DbPackageRevision) : Except DbError PkgRevTable :=
  if pr.pkgRevKey.revision = -1 then upsertRow db.pkgRevs pr.row >>= checkPackage db pr.row
  else updateRow db.pkgRevs pr.row

/-- The table does not take the row: a trigger raises an exception, or a constraint is violated. -/
def Refused (db : Database) (pr : DbPackageRevision) : Prop := ∃ e, updateStatement db pr = .error e

variable {status} {pr : DbPackageRevision} {y : PkgRevRow} {labels : Labels}

theorem SameButMeta.refl (y : PkgRevRow) : SameButMeta status y y := ⟨rfl, rfl, rfl, rfl, rfl, rfl, rfl, rfl⟩

theorem written_of_known (h : pr.lastPushedDbUpdated.isSome || y.lastPushedDbUpdated.isNone) :
    written labels pr y = { pr with labels := labels } := if_pos h

theorem written_of_unknown (h : ¬ (pr.lastPushedDbUpdated.isSome || y.lastPushedDbUpdated.isNone)) :
    written labels pr y = { pr with
      labels := labels
      lastPushedDbUpdated := y.lastPushedDbUpdated
      extCommit := if pr.extCommit = unpushedGitCommit then y.extCommit else pr.extCommit } := if_neg h

/-- **What is written is the row with other metadata exactly if the object is current.** -/
theorem sameButMeta_written_iff :
    SameButMeta status y (written labels pr y).row.content ↔ Current status pr y := by
  by_cases hknown : pr.lastPushedDbUpdated.isSome || y.lastPushedDbUpdated.isNone
  · -- the object keeps its own markers
    rw [written_of_known hknown]
    constructor
    · intro h
      exact ⟨h.packageName, h.revision, h.lifecycle, h.tasks, h.kptfileStatus, h.updated,
        .inr h.lastPushedDbUpdated, .inl h.extCommit⟩
    · intro h
      have hpushed : pr.lastPushedDbUpdated = y.lastPushedDbUpdated := by
        obtain hnone | hsame := h.lastPushedDbUpdated
        · simp only [hnone, Option.isSome_none, Bool.false_or, Option.isNone_iff_eq_none] at hknown
          rw [hnone, hknown]
        · exact hsame
      have hcmt : pr.extCommit = y.extCommit := by
        obtain hsame | ⟨_, hnone, hne⟩ := h.extCommit
        · exact hsame
        · exact absurd (hpushed.symm.trans hnone) hne
      exact ⟨h.packageName, h.revision, h.lifecycle, h.tasks, h.kptfileStatus, hcmt, h.updated, hpushed⟩
  · -- the object takes the markers of the row
    rw [written_of_unknown hknown]
    simp only [Bool.or_eq_true, not_or, Option.isSome_iff_ne_none, not_not,
      Option.isNone_iff_eq_none] at hknown
    obtain ⟨hnone, hne⟩ := hknown
    constructor
    · intro h
      refine ⟨h.packageName, h.revision, h.lifecycle, h.tasks, h.kptfileStatus, h.updated, .inl hnone, ?_⟩
      by_cases hcmt : pr.extCommit = unpushedGitCommit
      · exact .inr ⟨hcmt, hnone, hne⟩
      · have hsame := h.extCommit
        simp only [DbPackageRevision.row, PkgRevRow.content, if_neg hcmt] at hsame
        exact .inl hsame
    · intro h
      refine ⟨h.packageName, h.revision, h.lifecycle, h.tasks, h.kptfileStatus, ?_, h.updated, rfl⟩
      show (if pr.extCommit = unpushedGitCommit then y.extCommit else pr.extCommit) = y.extCommit
      split
      · rfl
      · obtain hsame | ⟨hcmt, _⟩ := h.extCommit
        · exact hsame
        · contradiction

end Columns

/-! What every method keeps -/

section Frame

variable {R : Database → Database → Prop}

/-- A relation that the statements behind the methods of a package revision keep. -/
structure KeptByStatements (R : Database → Database → Prop) : Prop extends Proc.Frame R where
  update : ∀ pr b, Proc.Keeps R (pkgRevUpdateDB pr b)
  write : ∀ pr, Proc.Keeps R (pkgRevWriteToDB pr)
  setLastPushed : ∀ k commit t, Proc.Keeps R (pkgRevSetLastPushedInDB k commit t)
  package : ∀ pk, Proc.Keeps R (pkgWriteToDB pk)
  repository : ∀ rk deployment, Proc.Keeps R (repoUpdateDB rk deployment)

namespace KeptByStatements

def Method (R : Database → Database → Prop) (m : Porch.Db.Method Unit) : Prop :=
  Proc.Keeps (fun p p' : Database × DbPackageRevision => R p.1 p'.1) m

theorem setMeta (h : KeptByStatements R) (labels : Labels) : Method R (Porch.Db.setMeta labels) := by
  intro ⟨db, pr⟩
  obtain ⟨pr', heq, _⟩ := setMeta_cases labels db pr
  show R db (Porch.Db.setMeta labels (db, pr)).2.1
  rw [heq]
  exact h.update pr' false db

theorem savePackageRevision (h : KeptByStatements R) (now : Nat) (b : Bool) :
    Method R (savePackageRevision now b) := by
  intro ⟨db, pr⟩
  show R db (Porch.Db.savePackageRevision now b (db, pr)).2.1
  obtain ⟨existing, _, heq⟩ | ⟨_, heq⟩ := savePackageRevision_cases now b db pr
  · rw [heq]
    exact h.update _ b db
  · rw [heq]
    exact h.write _ db

section Methods

variable (h : KeptByStatements R) (push : Database → DbPackageRevision → Except CacheError Str)
  (repo : DbRepository) (opened : RepositoryKey → Bool) (now : Nat) (newLifecycle : Lifecycle)
include h

theorem read (k : PackageRevisionKey) (b : Bool) :
    Proc.Keeps (fun p p' : Database × DbPackageRevision => R p.1 p'.1)
      (Proc.onFst (τ := DbPackageRevision) (pkgRevReadFromDB k b)) :=
  keeps_onFst h.query

theorem updateDB (pr : DbPackageRevision) (b : Bool) : Method R (Proc.onFst (pkgRevUpdateDB pr b)) :=
  keeps_onFst (h.update pr b)

theorem close : Method R (repo.closePackageRevisionDraft opened now) := by
  refine h.fst.bind h.this fun d => h.fst.bind h.this fun d' => ?_
  refine h.fst.bind (keeps_onFst (keeps_savePackageIfNew h.toFrame (h.package _))) fun _ => ?_
  exact h.fst.bind (h.savePackageRevision now _) fun _ => keeps_onFst (h.repository _ _)

theorem preserveFromDB : Method R preserveFromDB := by
  refine h.fst.bind h.this fun pr => h.fst.bind (keeps_attempt (h.read _ _)) fun outcome => ?_
  split
  · exact h.assign
  · exact h.fst.pure
  · exact h.fst.throw

theorem updatePackageRevision : Method R (DbRepository.updatePackageRevision now) := by
  refine h.fst.bind h.this fun pr => h.fst.bind (h.read _ _) fun readPr => ?_
  refine h.fst.bind h.assign fun _ => h.fst.bind h.preserveFromDB fun _ => ?_
  exact h.assign

theorem publishPlaceholder : Method R (publishPlaceholderPRForPRUnder {} now) := by
  have hpub : ∀ q : DbPackageRevision, Method R
      (if 1 ≤ q.pkgRevKey.revision then onFst (pkgRevUpdateDB (toMainPackageRevision now q) true)
        else pure ()) := by
    intro q
    split
    · exact h.updateDB _ _
    · exact h.fst.pure
  refine h.fst.bind h.this fun pr => ?_
  dsimp only
  split
  · exact h.fst.bind (h.read _ _) hpub
  · exact h.fst.bind h.fst.pure hpub

theorem publishPR : Method R (publishPRUnder push {} now newLifecycle) := by
  have hquery : ∀ {α : Type} (f : Database → Except CacheError α), Keeps R (query f) :=
    fun f => h.query
  refine h.fst.bind h.this fun pr => h.fst.bind (keeps_onFst ?_) fun latestRev => ?_
  · refine h.bind (hquery _) fun latest => ?_
    split <;> exact h.pure
  refine h.fst.bind h.assign fun _ => h.fst.bind h.this fun pr => ?_
  refine h.fst.bind (keeps_attempt (keeps_onFst (hquery _))) fun outcome => ?_
  split
  · exact h.fst.bind h.assign fun _ => h.fst.throw
  · refine h.fst.bind h.assign fun _ => h.fst.bind h.this fun pr => ?_
    refine h.fst.bind (h.updateDB _ _) fun _ => h.fst.bind h.assign fun _ => ?_
    exact h.publishPlaceholder now

theorem updateLifecycleOnPublishedPR : Method R (updateLifecycleOnPublishedPR now newLifecycle) := by
  have hsave : Method R (do
      assign fun pr : DbPackageRevision => { pr with lifecycle := newLifecycle }
      Porch.Db.savePackageRevision now false) :=
    h.fst.bind h.assign fun _ => h.savePackageRevision now false
  refine h.fst.bind h.this fun pr => ?_
  dsimp only
  split
  · refine h.fst.bind (h.read _ _) fun persisted => ?_
    split
    · exact h.fst.bind h.fst.throw fun _ => hsave
    · exact h.fst.bind h.assign fun _ => hsave
  · exact hsave

theorem updateLifecycle : Method R (updateLifecycle push opened now newLifecycle) := by
  refine h.fst.bind h.this fun pr => ?_
  split
  · exact h.fst.throw
  · split
    · refine h.fst.bind (keeps_attempt (h.publishPR push now newLifecycle)) fun outcome => ?_
      split
      · exact h.fst.bind h.assign fun _ => h.fst.throw
      · exact h.assign
    · split
      · exact h.updateLifecycleOnPublishedPR now newLifecycle
      · exact h.assign

theorem pushDraftToGit (k : PackageRevisionKey) (outcome : PushOutcome) (db : Database)
    (git : Option Resources) : R db (pushDraftToGit k outcome db git).1 := by
  unfold Porch.Db.pushDraftToGit
  split
  · exact h.refl db
  · split
    · split
      · exact h.refl db
      · dsimp only
        split
        · exact h.setLastPushed k _ _ db
        · exact h.refl db
    · exact h.refl db

theorem call (w : Revisions) (i : Nat) {m : Porch.Db.Method Unit} (hm : Method R m) : R w.db (w.call i m).db := by
  unfold Revisions.call
  split
  · exact h.refl w.db
  · next pr _ => exact hm (w.db, pr)

theorem step (w : Revisions) (e : RevisionEvent) : R w.db (w.step repo opened e).db := by
  cases e with
  | get i k b =>
    simp only [Revisions.step]
    split <;> exact h.refl w.db
  | updatePackageRevision i now => exact h.call w i (h.updatePackageRevision now)
  | updateResources i new change =>
    simp only [Revisions.step]
    split <;> exact h.refl w.db
  | updateLifecycle i now newLifecycle pushed => exact h.call w i (h.updateLifecycle _ opened now newLifecycle)
  | close i now => exact h.call w i (h.close repo opened now)
  | setMeta i labels => exact h.call w i (h.setMeta labels)
  | push k outcome => exact h.pushDraftToGit k outcome w.db none

/-- **The run rule.** What every statement keeps, every run keeps. -/
theorem run (w : Revisions) (events : List RevisionEvent) : R w.db (w.run repo opened events).db := by
  induction events generalizing w with
  | nil => exact h.refl w.db
  | cons e events ih => exact h.trans _ _ _ (h.step repo opened w e) (ih (w.step repo opened e))

end Methods

end KeptByStatements

end Frame

/-! Foreign keys -/

/-- The package of every row and the repository of every package are stored. -/
structure Referenced (db : Database) : Prop where
  packages : ∀ x ∈ db.pkgRevs, (db.packages.lookup (x.namesp, x.packageName)).isSome
  repositories : ∀ p ∈ db.packages, (db.repositories.lookup (p.namesp, p.repoName)).isSome

def StaysReferenced (db db' : Database) : Prop := Referenced db → Referenced db'

section ForeignKeys

variable {db db' : Database} {t : PkgRevTable}

theorem Referenced.stores {r : PkgRevRow} (h : Referenced db) (hstores : Stores db.pkgRevs r t)
    (hpkg : (db.packages.lookup (r.namesp, r.packageName)).isSome) : Referenced { db with pkgRevs := t } := by
  refine ⟨fun y hy => ?_, h.repositories⟩
  obtain hnew | ⟨_, x, hx, hold⟩ := hstores.only y hy
  · rw [package_of_content hnew]
    exact hpkg
  · rw [← package_of_content hold]
    exact h.packages x hx

theorem Referenced.overwrites {r old : PkgRevRow} (h : Referenced db) (hstores : Stores db.pkgRevs r t)
    (hold : old ∈ db.pkgRevs) (hkey : old.key = r.key) (hpkg : r.packageName = old.packageName) :
    Referenced { db with pkgRevs := t } := by
  refine h.stores hstores ?_
  have hns : old.namesp = r.namesp := congrArg Prod.fst hkey
  rw [hpkg, ← hns]
  exact h.packages old hold

theorem checkPackage_known {r : PkgRevRow} {t' : PkgRevTable} (h : checkPackage db r t = .ok t') :
    t = t' ∧ (db.packages.lookup (r.namesp, r.packageName)).isSome := by
  unfold checkPackage at h
  split at h
  · next hsome =>
    cases h
    exact ⟨rfl, hsome⟩
  · cases h

theorem StaysReferenced.frame : Proc.Frame StaysReferenced := .imp Referenced

theorem pkgRevResourcesWriteToDB_referenced (pr : DbPackageRevision) :
    Proc.Keeps StaysReferenced (pkgRevResourcesWriteToDB pr) :=
  keeps_pkgRevResourcesWriteToDB StaysReferenced.frame fun _ hrefs => ⟨hrefs.packages, hrefs.repositories⟩

theorem pkgRevUpdateDB_referenced (pr : DbPackageRevision) (b : Bool) :
    Proc.Keeps StaysReferenced (pkgRevUpdateDB pr b) := by
  refine keeps_pkgRevUpdateDB StaysReferenced.frame (fun db t ht hrefs => ?_)
    (pkgRevResourcesWriteToDB_referenced pr) b
  split at ht
  · next hrev =>
    obtain ⟨t', hups, hcheck⟩ := bind_eq_ok.mp ht
    obtain ⟨rfl, hpkg⟩ := checkPackage_known hcheck
    exact hrefs.stores (upsertRow_stores hrev hups).1 hpkg
  · obtain ⟨hstores, old, hold, hkey, hpkg⟩ := updateRow_stores ht
    exact hrefs.overwrites hstores hold hkey hpkg

theorem pkgRevWriteToDB_referenced (pr : DbPackageRevision) : Proc.Keeps StaysReferenced (pkgRevWriteToDB pr) := by
  refine keeps_pkgRevWriteToDB StaysReferenced.frame (fun db t ht hrefs => ?_)
    (pkgRevResourcesWriteToDB_referenced pr)
  obtain ⟨t', hins, hcheck⟩ := bind_eq_ok.mp ht
  obtain ⟨rfl, hpkg⟩ := checkPackage_known hcheck
  exact hrefs.stores (insertRow_stores hins).1 hpkg

theorem pkgRevSetLastPushedInDB_referenced (k : PackageRevisionKey) (commit : Str) (expectedUpdated : Nat) :
    Proc.Keeps StaysReferenced (pkgRevSetLastPushedInDB k commit expectedUpdated) := by
  refine keeps_pkgRevStmt StaysReferenced.frame fun db t ht hrefs => ?_
  unfold setLastPushed at ht
  split at ht
  · cases ht
    exact hrefs
  · next old hold =>
    split at ht
    · have hmem := (lookup_eq_some.mp hold).1
      have hkey : PkgRevRow.key { old with
          extCommit := commit, lastPushedDbUpdated := some expectedUpdated } = old.key := rfl
      obtain ⟨hstores, hpkg⟩ := overwriteRow_stores hkey ht
      exact hrefs.overwrites hstores hmem hkey.symm hpkg
    · cases ht
      exact hrefs

theorem pkgWriteToDB_referenced (pk : PackageKey) : Proc.Keeps StaysReferenced (pkgWriteToDB pk) := by
  refine keeps_pkgWriteToDB StaysReferenced.frame fun db packages hins hrepo hrefs => ?_
  refine ⟨fun x hx => ?_, fun p hp => ?_⟩
  · obtain ⟨p, hp⟩ := Option.isSome_iff_exists.mp (hrefs.packages x hx)
    obtain ⟨hmem, hkey⟩ := lookup_eq_some.mp hp
    refine Option.isSome_iff_exists.mpr ⟨p, lookup_eq_some.mpr ⟨?_, hkey⟩⟩
    exact (mem_insert hins).mpr (.inr hmem)
  · obtain rfl | hp := (mem_insert hins).mp hp
    · exact hrepo
    · exact hrefs.repositories p hp

theorem repoUpdateDB_referenced (rk : RepositoryKey) (deployment : Bool) :
    Proc.Keeps StaysReferenced (repoUpdateDB rk deployment) := by
  refine keeps_repoUpdateDB StaysReferenced.frame fun db r hmem hrefs => ?_
  refine ⟨hrefs.packages, fun p hp => ?_⟩
  have hthere : ∃ r₀ ∈ db.repositories, r₀.key = RepoRow.key { r with deployment := deployment } :=
    ⟨r, hmem, rfl⟩
  obtain ⟨r₁, hr₁⟩ := Option.isSome_iff_exists.mp (hrefs.repositories p hp)
  obtain ⟨hmem₁, hkey₁⟩ := lookup_eq_some.mp hr₁
  refine Option.isSome_iff_exists.mpr ?_
  by_cases hsame : r₁.key = r.key
  · refine ⟨{ r with deployment := deployment }, lookup_eq_some.mpr ⟨?_, ?_⟩⟩
    · exact (mem_set hthere).mpr (.inl rfl)
    · exact hsame.symm.trans hkey₁
  · exact ⟨r₁, lookup_eq_some.mpr ⟨(mem_set hthere).mpr (.inr ⟨hmem₁, hsame⟩), hkey₁⟩⟩

theorem referenced_kept : KeptByStatements StaysReferenced where
  toFrame := StaysReferenced.frame
  update := pkgRevUpdateDB_referenced
  write := pkgRevWriteToDB_referenced
  setLastPushed := pkgRevSetLastPushedInDB_referenced
  package := pkgWriteToDB_referenced
  repository := repoUpdateDB_referenced

theorem Referenced.read {pr : DbPackageRevision} {y : PkgRevRow} (h : Referenced db)
    (hy : rowAt db.pkgRevs (dbKey pr.pkgRevKey) = some y) :
    ∃ existing, pkgRevReadFromDB pr.pkgRevKey false db = (.ok existing, db) ∧
      existing.lastPushedDbUpdated = y.lastPushedDbUpdated ∧ existing.extCommit = y.extCommit := by
  obtain ⟨x, hx, hkey, rfl⟩ := rowAt_eq_some.mp hy
  obtain ⟨p, hp⟩ := Option.isSome_iff_exists.mp (h.packages x hx)
  obtain ⟨r, hr⟩ := Option.isSome_iff_exists.mp (h.repositories p (lookup_eq_some.mp hp).1)
  have hjoin : joinRow db x = some (scanRow r p x) := joinRow_eq_some.mpr ⟨p, r, hp, hr, rfl⟩
  have hlook : db.pkgRevs.lookup (dbKey pr.pkgRevKey) = some x := lookup_eq_some.mpr ⟨hx, hkey⟩
  refine ⟨scanRow r p x, ?_, rfl, rfl⟩
  simp only [pkgRevReadFromDB, query, hlook, Option.bind_some, hjoin]
  rfl

end ForeignKeys

/-! Metadata -/

section Main

variable {σ : Type} {status : Option Str → σ} {db : Database} {pr : DbPackageRevision} {y : PkgRevRow}

theorem setMeta_eq (hrefs : Referenced db) (hy : rowAt db.pkgRevs (dbKey pr.pkgRevKey) = some y)
    (labels : Labels) :
    (Porch.Db.setMeta labels (db, pr)).2.1 = (pkgRevUpdateDB (written labels pr y) false db).2 := by
  obtain ⟨existing, hread, hpushed, hcmt⟩ := hrefs.read hy
  have hwritten : preservePushMarkersIfUnset { pr with labels := labels } existing = written labels pr y := by
    simp only [written, preservePushMarkersIfUnset, hpushed, hcmt]
  simp only [Porch.Db.setMeta, Porch.Db.preserveFromDB, bind, Proc.bind, Proc.assign, Proc.this, Proc.attempt, Proc.onFst,
    hread, hwritten]

theorem written_key (labels : Labels) (pr : DbPackageRevision) (y : PkgRevRow) :
    (written labels pr y).pkgRevKey = pr.pkgRevKey := preserve_key _ _

theorem pkgRevUpdateDB_refused_or (db : Database) (pr : DbPackageRevision) :
    Refused db pr ∧ (pkgRevUpdateDB pr false db).2 = db ∨
      ¬ Refused db pr ∧ RowWritten pr (pkgRevUpdateDB pr false db).2 := by
  obtain ⟨e, hstmt⟩ | ⟨t, ht, hstmt⟩ := pkgRevStmt_cases (fun db => updateStatement db pr) db
  · left
    have herr : pkgRevUpdateDB pr false db = (.error e, db) := bind_run_error hstmt
    refine ⟨?_, by rw [herr]⟩
    cases hs : updateStatement db pr with
    | error e' => exact ⟨e', hs⟩
    | ok t => simp only [pkgRevStmt, stmt, hs, Prod.mk.injEq, reduceCtorEq, false_and] at hstmt
  · right
    have hrest : pkgRevUpdateDB pr false db = (.ok (), { db with pkgRevs := t }) := bind_run_ok hstmt
    refine ⟨?_, ?_⟩
    · rintro ⟨e, he⟩
      rw [ht] at he
      cases he
    · rw [hrest]
      exact rowWritten_of_stores (pkgRevUpdateDB_stores ht) rfl

theorem setMeta_row_iff (hrefs : Referenced db) (hy : rowAt db.pkgRevs (dbKey pr.pkgRevKey) = some y)
    (labels : Labels) :
    (∃ y', rowAt (Porch.Db.setMeta labels (db, pr)).2.1.pkgRevs (dbKey pr.pkgRevKey) = some y' ∧
        SameButMeta status y y') ↔
      Current status pr y ∨ Refused db (written labels pr y) := by
  rw [setMeta_eq hrefs hy]
  obtain ⟨hrefused, hsame⟩ | ⟨htaken, hrow⟩ := pkgRevUpdateDB_refused_or db (written labels pr y)
  · rw [hsame]
    exact iff_of_true ⟨y, hy, .refl y⟩ (.inr hrefused)
  · rw [RowWritten, written_key] at hrow
    rw [hrow]
    constructor
    · rintro ⟨y', hy', hsame⟩
      cases hy'
      exact .inl (sameButMeta_written_iff.mp hsame)
    · intro h
      exact ⟨_, rfl, sameButMeta_written_iff.mpr (h.resolve_right htaken)⟩

/-- **A write of metadata leaves the other columns alone if and only if its object agrees with the
    row that it finds, or the table refuses it**, at every point of every run. -/
theorem setMeta_keeps_row_iff (status : Option Str → σ) (repo : DbRepository) (opened : RepositoryKey → Bool)
    (w : Revisions) (hrefs : Referenced w.db) (events : List RevisionEvent) (i : Nat)
    (hi : (w.run repo opened events).objs i = some pr)
    (hy : rowAt (w.run repo opened events).db.pkgRevs (dbKey pr.pkgRevKey) = some y) (labels : Labels) :
    (∃ y', rowAt ((w.run repo opened events).step repo opened (.setMeta i labels)).db.pkgRevs
        (dbKey pr.pkgRevKey) = some y' ∧ SameButMeta status y y') ↔
      Current status pr y ∨ Refused (w.run repo opened events).db (written labels pr y) := by
  have hstep : ((w.run repo opened events).step repo opened (.setMeta i labels)).db =
      (Porch.Db.setMeta labels ((w.run repo opened events).db, pr)).2.1 := by
    simp only [Revisions.step, Revisions.call, hi]
    rfl
  rw [hstep]
  exact setMeta_row_iff (referenced_kept.run repo opened w events hrefs) hy labels

end Main

/-! A draft that is proposed -/

def draftWorld : Revisions where
  db := storeOf [dbDraft]
  objs _ := none

/-- The object 0 is read as a draft; the object 1 proposes the revision. -/
def proposal : List RevisionEvent :=
  [.get 0 dbDraft.pkgRevKey false, .get 1 dbDraft.pkgRevKey true, .updatePackageRevision 1 1,
    .updateLifecycle 1 2 .proposed (.ok []), .close 1 3]

def proposedRow : PkgRevRow := { dbDraft.row with lifecycle := .proposed, updated := 1 }

def lifecycleOf (w : Revisions) : Option Lifecycle :=
  (rowAt w.db.pkgRevs (dbKey dbDraft.pkgRevKey)).map (·.lifecycle)

theorem referenced_draftWorld : Referenced draftWorld.db :=
  ⟨by decide +kernel, by decide +kernel⟩

/-- The object that has proposed the revision may write metadata. -/
theorem setMeta_keeps_row_iff_proposer :
    ∃ y y', rowAt (draftWorld.run blueprints (fun _ => true) proposal).db.pkgRevs (dbKey dbDraft.pkgRevKey) = some y ∧
      rowAt ((draftWorld.run blueprints (fun _ => true) proposal).step blueprints (fun _ => true)
        (.setMeta 1 [])).db.pkgRevs (dbKey dbDraft.pkgRevKey) = some y' ∧ SameButMeta id y y' := by
  have hobj : ((draftWorld.run blueprints (fun _ => true) proposal).objs 1).map
      (fun pr => (pr.pkgRevKey, pr.row.content)) = some (dbDraft.pkgRevKey, proposedRow) := by decide +kernel
  have hrow : rowAt (draftWorld.run blueprints (fun _ => true) proposal).db.pkgRevs (dbKey dbDraft.pkgRevKey) =
      some proposedRow := by decide +kernel
  obtain ⟨pr, hpr, hboth⟩ := Option.map_eq_some_iff.mp hobj
  have hkey : pr.pkgRevKey = dbDraft.pkgRevKey := congrArg Prod.fst hboth
  have hcont : pr.row.content = proposedRow := congrArg Prod.snd hboth
  have hcur : Current id pr proposedRow := by
    rw [← hcont]
    exact ⟨rfl, rfl, rfl, rfl, rfl, rfl, .inr rfl, .inl rfl⟩
  rw [← hkey] at hrow
  obtain ⟨y', hy', hsame⟩ := (setMeta_keeps_row_iff id blueprints (fun _ => true) draftWorld referenced_draftWorld
    proposal 1 hpr hrow []).mpr (.inl hcur)
  rw [hkey] at hy' hrow
  exact ⟨_, y', hrow, hy', hsame⟩

/-- The metadata of an object that was read before the proposal makes the revision a draft again. -/
theorem metadata_takes_back_proposal :
    Referenced draftWorld.db ∧
    lifecycleOf (draftWorld.run blueprints (fun _ => true) proposal) = some .proposed ∧
    lifecycleOf ((draftWorld.run blueprints (fun _ => true) proposal).step blueprints (fun _ => true)
      (.setMeta 0 [])) = some .draft :=
  ⟨referenced_draftWorld, by decide +kernel, by decide +kernel⟩

end Porch.Db.MetaWrites
