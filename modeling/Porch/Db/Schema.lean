import Porch.Api
import Porch.Go.Error
import Porch.Sql.Logic
import Porch.Sql.Table

/- The `package_revisions` table of `api/sql/porch-db.sql` with its two triggers,
   and the statements that the cache runs on it.

     check_package_revisions_columns  rowCheck, then fireColumns
     check_package_revisions_delete   fireDelete
     INSERT of pkgRevWriteToDB        insertRow
     UPDATE of pkgRevUpdateDB         updateRow
     upsert of pkgRevUpdateDB         upsertRow   (the statement for revision -1)
     DELETE of pkgRevDeleteFromDB     deleteRow
     ON DELETE CASCADE from packages  deletePackageRows

   On an insert the trigger's OLD is NULL, so each comparison with a field of OLD
   is unknown and takes no branch. `rowCheck` is the trigger up to the point
   where it first reads the table. The trigger's own `UPDATE ... SET latest`
   fires the trigger again on each row it changes; there NEW and OLD agree on the
   revision, and `rowCheck_latest_only` shows that such a call never gets past
   `rowCheck`.

   Of ext_pr_id only the git commit is kept, and kptfile_status is kept as the Kptfile
   that it has been extracted from. The columns spec, updatedby, resources_size and
   upstream_ref_name are read by nothing modelled here and are left out. The foreign key
   is checked where the packages table is (Db.Store). -/
namespace Porch.Db

open Go Sql

/-- A row of `package_revisions`. -/
structure PkgRevRow where
  namesp : Str
  name : Str
  packageName : Str
  revision : Int
  labels : Labels := []
  updated : Nat := 0
  lifecycle : Lifecycle
  extCommit : Str := []
  latest : Bool := false
  tasks : Str := []
  kptfile : Option Str := none
  lastPushedDbUpdated : Option Nat := none
deriving DecidableEq, Repr

def PkgRevRow.key (r : PkgRevRow) : Str × Str := (r.namesp, r.name)

abbrev PkgRevTable := Table PkgRevRow.key

/-- The exceptions that the column trigger raises. -/
inductive TriggerError where
  | immutablePackage
  | revisionBelowMinusOne
  | lifecycleOfMinusOne (new : Lifecycle)
  | revisionToZero (old : Option Int)
  | zeroNotDraft
  | revisionOnDraft (new : Int)
  | lifecycleChange (old : Option Lifecycle) (new : Lifecycle)
  | revisionChange (old : Option Int) (new : Int)
  | notProposed (old : Option Lifecycle)
  | revisionExists (new : Int)
deriving DecidableEq, Repr

inductive DbError where
  | raised (e : TriggerError)
  /-- PostgreSQL: the tuple to be updated was already modified by an operation
      triggered by the current command. -/
  | tupleModified
  | integerOutOfRange
  | checkViolation
  | duplicateKey
  | foreignKeyViolation
  /-- `pkgRevUpdateDB`: no rows or multiple rows found for updating. -/
  | noRowUpdated
deriving DecidableEq, Repr

/-- How the trigger goes on after the row checks. -/
inductive Verdict where
  | returnNew
  | assignRevision
deriving DecidableEq, Repr

/-! The column trigger -/

/-- `l = 'Published' OR l = 'DeletionProposed'`. -/
def isPublishedTri (l : Option Lifecycle) : Tri :=
  Tri.or (eq l (some .published)) (eq l (some .deletionProposed))

/-- `l = 'Draft' OR l = 'Proposed'`. -/
def isDraftTri (l : Option Lifecycle) : Tri :=
  Tri.or (eq l (some .draft)) (eq l (some .proposed))

/-- `check_package_revisions_columns` up to its first query. -/
def rowCheck (old : Option PkgRevRow) (new : PkgRevRow) : Except TriggerError Verdict :=
  let oldRevision := old.map (·.revision)
  let oldLifecycle := old.map (·.lifecycle)
  if (ne (some new.packageName) (old.map (·.packageName))).holds then .error .immutablePackage
  else if (Tri.or (lt (some new.revision) (some (-1))) (lt oldRevision (some (-1)))).holds then
    .error .revisionBelowMinusOne
  else if (Tri.or (eq (some new.revision) (some (-1))) (eq oldRevision (some (-1)))).holds then
    if (Tri.or (Tri.not (isPublishedTri (some new.lifecycle)))
        (Tri.not (isPublishedTri oldLifecycle))).holds then
      .error (.lifecycleOfMinusOne new.lifecycle)
    else .ok .returnNew
  else if new.revision = 0 then
    if (ne oldRevision (some 0)).holds then .error (.revisionToZero oldRevision)
    else if (Tri.or (Tri.not (isDraftTri (some new.lifecycle)))
        (Tri.not (isDraftTri oldLifecycle))).holds then .error .zeroNotDraft
    else .ok .returnNew
  else if new.lifecycle = .draft then .error (.revisionOnDraft new.revision)
  else if (eq (some new.revision) oldRevision).holds then
    if (eq (some new.lifecycle) oldLifecycle).holds then .ok .returnNew
    else if (isPublishedTri (some new.lifecycle)).holds then .ok .returnNew
    else .error (.lifecycleChange oldLifecycle new.lifecycle)
  else if (ne oldRevision (some 0)).holds then .error (.revisionChange oldRevision new.revision)
  else if (ne oldLifecycle (some .proposed)).holds then .error (.notProposed oldLifecycle)
  else .ok .assignRevision

def samePackage (x y : PkgRevRow) : Bool := x.namesp = y.namesp && x.packageName = y.packageName

/-- The trigger's exception on a row whose `latest` alone is set to `b`. -/
def latestError (b : Bool) (r : PkgRevRow) : Option TriggerError :=
  match rowCheck (some r) { r with latest := b } with
  | .error e => some e
  | .ok _ => none

/-- `UPDATE package_revisions SET latest = b WHERE p` run by a trigger. It fails
    with the exception of the first row that raises one. -/
def updateLatest (t : PkgRevTable) (p : PkgRevRow → Bool) (b : Bool) :
    Except DbError PkgRevTable :=
  okUnless ((t.rows.filter p).findSome? (latestError b) |>.map .raised)
    (t.updateWhere p (fun r => { r with latest := b }) fun _ => rfl)

/-- `SELECT MAX(revision)` over the numbered revisions of a row's package. -/
def maxRevision (t : PkgRevTable) (r : PkgRevRow) : Option Int :=
  t.maxWhere (fun x => samePackage x r && 0 < x.revision) (·.revision)

/-- The trigger makes NEW the latest revision when it is published at or above
    every numbered revision of its package. -/
def becomesLatest (t : PkgRevTable) (new : PkgRevRow) : Bool :=
  new.lifecycle = .published && 0 < new.revision &&
    match maxRevision t new with
    | none => true
    | some m => m ≤ new.revision

/-- `check_package_revisions_columns`: the table and the row after the trigger. -/
def fireColumns (t : PkgRevTable) (old : Option PkgRevRow) (new : PkgRevRow) :
    Except DbError (PkgRevTable × PkgRevRow) :=
  match rowCheck old new with
  | .error e => .error (.raised e)
  | .ok .returnNew => .ok (t, new)
  | .ok .assignRevision =>
    if t.rows.any fun x => samePackage x new && x.revision = new.revision then
      .error (.raised (.revisionExists new.revision))
    else if becomesLatest t new then
      (updateLatest t (fun x => samePackage x new && x.latest) false).map fun t' =>
        (t', { new with latest := true })
    else .ok (t, new)

/-- `check_package_revisions_delete`, after the row `old` has gone. -/
def fireDelete (t : PkgRevTable) (old : PkgRevRow) : Except DbError PkgRevTable :=
  match maxRevision t old with
  | none => .ok t
  | some m =>
    updateLatest t
      (fun x => samePackage x old && x.revision = m && lifecycleIsPublished x.lifecycle) true

/-! The statements -/

/-- `revision INTEGER`. -/
def integerError (r : PkgRevRow) : Option DbError :=
  if r.revision < -2147483648 ∨ 2147483647 < r.revision then some .integerOutOfRange else none

/-- `CHECK (k8s_name_space != '')` and `CHECK (k8s_name != '')`. -/
def checkError (r : PkgRevRow) : Option DbError :=
  if r.namesp = [] ∨ r.name = [] then some .checkViolation else none

/-- The INSERT of `pkgRevWriteToDB`. The column `latest` is not written and
    starts FALSE. Constraints are checked after the trigger. -/
def insertRow (t : PkgRevTable) (r : PkgRevRow) : Except DbError PkgRevTable := do
  let r ← okUnless (integerError r) { r with latest := false }
  let (t, r) ← fireColumns t none r
  let r ← okUnless (checkError r) r
  match t.insert r with
  | none => .error .duplicateKey
  | some t => .ok t

/-- Writes `new` over the stored row `old`, through the trigger. A row that the
    trigger's own update has changed cannot be updated any more. -/
def overwriteRow (t : PkgRevTable) (old new : PkgRevRow) : Except DbError PkgRevTable := do
  let (t', r) ← fireColumns t (some old) { new with latest := old.latest }
  if t'.lookup old.key = some old then .ok (t'.set r) else .error .tupleModified

/-- The UPDATE of `pkgRevUpdateDB`, which has to find its row. -/
def updateRow (t : PkgRevTable) (r : PkgRevRow) : Except DbError PkgRevTable := do
  let r ← okUnless (integerError r) r
  match t.lookup r.key with
  | none => .error .noRowUpdated
  | some old => overwriteRow t old r

/-- The INSERT ... ON CONFLICT DO UPDATE of `pkgRevUpdateDB`. The trigger runs for
    the insert first, and again for the update when the key is taken. -/
def upsertRow (t : PkgRevTable) (r : PkgRevRow) : Except DbError PkgRevTable := do
  let r ← okUnless (integerError r) { r with latest := false }
  let (t, r) ← fireColumns t none r
  let r ← okUnless (checkError r) r
  match t.lookup r.key with
  | some old => overwriteRow t old r
  | none =>
    match t.insert r with
    | none => .error .duplicateKey
    | some t => .ok t

/-- The DELETE of `pkgRevDeleteFromDB`. -/
def deleteRow (t : PkgRevTable) (k : Str × Str) : Except DbError PkgRevTable :=
  match t.lookup k with
  | none => .ok t
  | some old => fireDelete (t.deleteWhere (·.key = k)) old

/-- The cascade from a deleted package. Its rows go in one statement, so the
    delete trigger finds no row of the package and changes nothing. -/
def deletePackageRows (t : PkgRevTable) (namesp packageName : Str) : PkgRevTable :=
  t.deleteWhere fun r => r.namesp = namesp && r.packageName = packageName

end Porch.Db
