import Mathlib.Data.List.Basic
import Mathlib.Tactic.Common
import Porch.Go.Strings

/- The downstreams of a package revision: `FindAllUpstreamReferencesInRepositories` of both
   caches, which decides whether a package revision may be deleted.

     crcache/cache.go              findInCrCache, Task.names
     dbcache/dbpackagerevisionsql  findUpstreamRefsFromDB, extractUpstreamRefName,
                                   pkgRevWriteToDB, pkgRevUpdateDB, pkgRevDeleteFromDB (Write),
                                   backfillUpstreamRefName (select, fill, backfill)

   The CR cache goes through all tasks of all revisions. The database looks up one column, which
   every write fills from the task list, and the start-up fills for the rows that were written
   before the column existed: it goes through them in the order of the database, in batches, each
   of which starts after the last row of the one before. The column holds one name, the first
   that the tasks give, so a second upstream is not found (`second_upstream_missed`).
   `upstream_reports_iff` says when both caches report what the tasks name. -/
namespace Porch.Cache.UpstreamRefs

open Go List

inductive TaskType where
  | init
  | clone
  | edit
  | upgrade
  | other (name : Str)
deriving DecidableEq, Repr

/-- A task, as far as it refers to package revisions. -/
structure Task where
  type : TaskType
  /-- `clone`, if there is one, with the name of its `upstreamRef`, if there is one. -/
  clone : Option (Option Str) := none
  /-- The name of the `newUpstream` of `upgrade`, if there is one. -/
  upgrade : Option Str := none
deriving DecidableEq, Repr

structure Stored where
  ns : Str
  name : Str
  revision : Int
  tasks : List Task
  named : name ≠ []
deriving DecidableEq, Repr

abbrev Id := Str × Str

def Stored.id (r : Stored) : Id := (r.ns, r.name)

/-! The CR cache -/

def Task.names (task : Task) (prName : Str) : Bool :=
  match task.type with
  | .clone => task.clone = some (some prName)
  | .upgrade => task.upgrade = some prName
  | .init | .edit | .other _ => false

structure CrRepository where
  ns : Str
  revisions : List Stored
deriving DecidableEq, Repr

/-- A revision that is not a placeholder and names the package revision. -/
def Stored.refersTo (r : Stored) (prName : Str) : Bool :=
  r.revision ≠ -1 && r.tasks.any fun task => task.names prName

/-- The name of a downstream, or the empty string. The repositories and their revisions come in any
    order. -/
def findInCrCache (repos : List CrRepository) (ns prName : Str) : Str :=
  match (repos.filter (·.ns = ns)).findSome? fun repo => repo.revisions.find? (·.refersTo prName) with
  | some r => r.name
  | none => []

/-! The database -/

/-- The name that a task gives, or the empty string. -/
def Task.reference (task : Task) : Str :=
  match task.type with
  | .clone => (task.clone.bind id).getD []
  | .upgrade => task.upgrade.getD []
  | .init | .edit | .other _ => []

def extractUpstreamRefName : List Task → Str
  | [] => []
  | task :: tasks => if task.reference ≠ [] then task.reference else extractUpstreamRefName tasks

structure Row extends Stored where
  upstreamRefName : Str
deriving DecidableEq, Repr

def findUpstreamRefsFromDB (rows : List Row) (ns prName : Str) : Str :=
  if prName = [] then []
  else
    match rows.find? fun row => row.ns = ns ∧ row.revision ≠ -1 ∧ row.upstreamRefName ≠ [] ∧
        row.upstreamRefName = prName with
    | some row => row.name
    | none => []

/-- The row that a package revision is written as. -/
def Row.of (pr : Stored) : Row := { pr with upstreamRefName := extractUpstreamRefName pr.tasks }

inductive Write where
  | write (pr : Stored)
  | update (pr : Stored)
  | delete (id : Id)
deriving Repr

/-- The placeholder of the main branch is inserted when it is not there. -/
def Write.apply (rows : List Row) : Write → List Row
  | .write pr => Row.of pr :: rows
  | .update pr =>
    let updated := rows.map fun row => if row.id = pr.id then Row.of pr else row
    if pr.revision = -1 ∧ rows.all fun row => row.id ≠ pr.id then Row.of pr :: rows else updated
  | .delete id => rows.filter (·.id ≠ id)

/-! The start-up -/

structure Collation where
  lt : Id → Id → Bool
  irrefl : ∀ a, lt a a = false
  trans : ∀ a b c, lt a b = true → lt b c = true → lt a c = true
  total : ∀ a b, lt a b = true ∨ a = b ∨ lt b a = true

/-- The rows that the backfill is to look at. -/
def Row.pending (row : Row) : Bool := row.upstreamRefName = [] ∧ row.revision ≠ -1 ∧ row.tasks ≠ []

/-- The table at start-up: its rows in the order of the database, with the column filled or empty. -/
structure Table (c : Collation) where
  rows : List Row
  sorted : rows.Pairwise fun a b => c.lt a.id b.id = true
  column : ∀ row ∈ rows, row.upstreamRefName = [] ∨ row.upstreamRefName = extractUpstreamRefName row.tasks

namespace Collation

variable (c : Collation)

/-- The row comes after the last one that has been looked at. -/
def after (cursor : Option Id) (id : Id) : Bool :=
  match cursor with
  | none => true
  | some last => c.lt last id

def select (batch : Nat) (rows : List Row) (cursor : Option Id) : List Row :=
  (rows.filter fun row => row.pending && c.after cursor row.id).take batch

end Collation

def fill (selected : List Row) (row : Row) : Row :=
  match selected.find? (·.id = row.id) with
  | some u =>
    if extractUpstreamRefName u.tasks ≠ [] then { row with upstreamRefName := extractUpstreamRefName u.tasks }
    else row
  | none => row

/-- The loop, with a number of batches that it may go through. -/
def backfill (c : Collation) (batch : Nat) : Nat → List Row → Option Id → List Row
  | 0, rows, _ => rows
  | fuel + 1, rows, cursor =>
    match (c.select batch rows cursor).getLast? with
    | none => rows
    | some last =>
      let filled := rows.map (fill (c.select batch rows cursor))
      if (c.select batch rows cursor).length < batch then filled
      else backfill c batch fuel filled (some last.id)

def backfillBatchSize : Nat := 500

def backfillUpstreamRefName (c : Collation) (rows : List Row) : List Row :=
  backfill c backfillBatchSize (rows.length + 1) rows none

/-- The table after the start-up and the writes that follow. -/
def Table.after {c : Collation} (table : Table c) (writes : List Write) : List Row :=
  writes.foldl Write.apply (backfillUpstreamRefName c table.rows)

/-! What is to be reported -/

/-- Some revision of the namespace other than a placeholder has a clone or upgrade task that names it. -/
def Named (rows : List Row) (ns prName : Str) : Prop :=
  ∃ row ∈ rows, row.ns = ns ∧ row.revision ≠ -1 ∧ ∃ task ∈ row.tasks, task.names prName = true

/-- The first of the tasks that names a package revision names this one. -/
def FirstNames (tasks : List Task) (prName : Str) : Prop :=
  ∃ earlier task later, tasks = earlier ++ task :: later ∧ task.names prName = true ∧
    ∀ t ∈ earlier, ∀ name, name ≠ [] → t.names name = false

/-- Some revision of the namespace other than a placeholder names it first. -/
def NamedFirst (rows : List Row) (ns prName : Str) : Prop :=
  ∃ row ∈ rows, row.ns = ns ∧ row.revision ≠ -1 ∧ FirstNames row.tasks prName

/-- The CR cache holds the revisions that the table holds. -/
def SameRevisions (repos : List CrRepository) (rows : List Row) : Prop :=
  ∀ ns r, (∃ repo ∈ repos, repo.ns = ns ∧ r ∈ repo.revisions) ↔ r.ns = ns ∧ r ∈ rows.map Row.toStored

/-! Tasks -/

variable {task : Task} {tasks : List Task} {prName ns : Str} {rows : List Row} {row : Row}

theorem names_iff (h : prName ≠ []) : task.names prName = true ↔ task.reference = prName := by
  unfold Task.names Task.reference
  split
  · rcases task.clone with _ | _ | name <;> simp [h.symm]
  · rcases task.upgrade with _ | name <;> simp [h.symm]
  all_goals simp [h.symm]

theorem names_nothing_iff : (∀ name, name ≠ [] → task.names name = false) ↔ task.reference = [] := by
  constructor
  · intro h
    by_contra hne
    exact Bool.false_ne_true ((h _ hne).symm.trans ((names_iff hne).mpr rfl))
  · intro h name hname
    refine Bool.eq_false_iff.mpr fun hnames => hname ?_
    rw [← (names_iff hname).mp hnames, h]

/-- **The column holds the name that the tasks give first.** -/
theorem extractUpstreamRefName_iff (h : prName ≠ []) :
    extractUpstreamRefName tasks = prName ↔ FirstNames tasks prName := by
  constructor
  · intro hex
    induction tasks with
    | nil => exact absurd hex.symm h
    | cons task tasks ih =>
      unfold extractUpstreamRefName at hex
      split at hex
      · exact ⟨[], task, tasks, rfl, (names_iff h).mpr hex, nofun⟩
      · rename_i hnone
        obtain ⟨earlier, first, later, rfl, hfirst, hearlier⟩ := ih hex
        refine ⟨task :: earlier, first, later, rfl, hfirst, forall_mem_cons.mpr ⟨?_, hearlier⟩⟩
        exact names_nothing_iff.mpr (not_not.mp hnone)
  · intro ⟨earlier, first, later, htasks, hfirst, hearlier⟩
    subst htasks
    induction earlier with
    | nil =>
      have href := (names_iff h).mp hfirst
      simp [extractUpstreamRefName, href, h]
    | cons task earlier ih =>
      obtain ⟨hhead, htail⟩ := forall_mem_cons.mp hearlier
      have href := names_nothing_iff.mp hhead
      simpa [extractUpstreamRefName, href] using ih htail

def Row.filled (row : Row) : Prop :=
  row.revision ≠ -1 → row.upstreamRefName = extractUpstreamRefName row.tasks

/-! The backfill -/

section Backfill

variable {c : Collation} {batch : Nat} {cursor : Option Id} {selected : List Row}

theorem fill_toStored (selected : List Row) (row : Row) : (fill selected row).toStored = row.toStored := by
  unfold fill
  split
  · split <;> rfl
  · rfl

theorem Row.filled_of_not_pending (h : row.pending = false)
    (hcolumn : row.upstreamRefName = [] ∨ row.upstreamRefName = extractUpstreamRefName row.tasks) : row.filled := by
  intro hmain
  obtain hempty | hfilled := hcolumn
  · have htasks : row.tasks = [] := by
      by_contra hne
      simp [Row.pending, hempty, hmain, hne] at h
    rw [hempty, htasks]
    rfl
  · exact hfilled

theorem eq_of_id (hsorted : rows.Pairwise fun a b => c.lt a.id b.id = true) {a b : Row} (ha : a ∈ rows)
    (hb : b ∈ rows) (hid : a.id = b.id) : a = b := by
  have hids : (rows.map fun row => row.id).Nodup := by
    refine pairwise_map.mpr (hsorted.imp fun {x y} hlt heq => ?_)
    rw [heq, c.irrefl] at hlt
    cases hlt
  exact inj_on_of_nodup_map hids ha hb hid

section

variable (hsorted : rows.Pairwise fun a b => c.lt a.id b.id = true) (hrow : row ∈ rows)
  (hsub : ∀ u ∈ selected, u ∈ rows)
include hsorted hrow hsub

theorem fill_selected (hmem : row ∈ selected) (hempty : row.upstreamRefName = []) :
    (fill selected row).filled := by
  have hsome : (selected.find? (·.id = row.id)).isSome = true := by simpa using ⟨row, hmem, rfl⟩
  obtain ⟨u, hu⟩ := Option.isSome_iff_exists.mp hsome
  have huid : u.id = row.id := by simpa using find?_some hu
  obtain rfl : u = row := eq_of_id hsorted (hsub u (mem_of_find?_eq_some hu)) hrow huid
  intro _
  unfold fill
  rw [hu]
  dsimp only
  split
  · rfl
  · rename_i hnone
    rw [hempty, not_not.mp hnone]

theorem fill_of_notMem (hmem : row ∉ selected) : fill selected row = row := by
  unfold fill
  split
  · rename_i u hu
    have huid : u.id = row.id := by simpa using find?_some hu
    have hu' := mem_of_find?_eq_some hu
    rw [eq_of_id hsorted (hsub u hu') hrow huid] at hu'
    exact absurd hu' hmem
  · rfl

end

theorem mem_select (h : row ∈ c.select batch rows cursor) :
    row ∈ rows ∧ row.pending = true ∧ c.after cursor row.id = true := by
  have hfilter := mem_of_mem_take h
  simpa using hfilter

theorem lt_of_not_selected (hsorted : rows.Pairwise fun a b => c.lt a.id b.id = true) (hrow : row ∈ rows)
    (hpend : row.pending = true) (hafter : c.after cursor row.id = true)
    (hmem : row ∉ c.select batch rows cursor) {u : Row} (hu : u ∈ c.select batch rows cursor) :
    c.lt u.id row.id = true := by
  have hfilter : row ∈ rows.filter fun row => row.pending && c.after cursor row.id := by
    simp [hrow, hpend, hafter]
  have hpair := hsorted.filter fun row => row.pending && c.after cursor row.id
  rw [← take_append_drop batch (rows.filter _)] at hfilter hpair
  have hdrop := (mem_append.mp hfilter).resolve_left hmem
  exact (pairwise_append.mp hpair).2.2 u hu row hdrop

theorem mem_select_of_short (h : (c.select batch rows cursor).length < batch) (hrow : row ∈ rows)
    (hpend : row.pending = true) (hafter : c.after cursor row.id = true) : row ∈ c.select batch rows cursor := by
  have hall : c.select batch rows cursor = rows.filter fun row => row.pending && c.after cursor row.id := by
    refine take_of_length_le ?_
    rw [Collation.select, length_take] at h
    omega
  simp [hall, hrow, hpend, hafter]

theorem countP_after_lt {last : Row} (hlast : last ∈ rows) (hafter : c.after cursor last.id = true) :
    rows.countP (fun row => c.after (some last.id) row.id) < rows.countP fun row => c.after cursor row.id := by
  have himp : ∀ id, c.after (some last.id) id = true → c.after cursor id = true := by
    intro id h
    cases cursor with
    | none => rfl
    | some start => exact c.trans _ _ _ hafter h
  rw [countP_eq_countP_filter_add rows (fun row => c.after cursor row.id) fun row => c.after (some last.id) row.id]
  have hleft : (rows.filter fun row => c.after (some last.id) row.id).countP (fun row => c.after cursor row.id) =
      rows.countP fun row => c.after (some last.id) row.id := by
    rw [countP_filter]
    refine countP_congr fun row _ => ?_
    simpa using himp row.id
  rw [hleft]
  refine Nat.lt_add_of_pos_right (countP_pos_iff.mpr ⟨last, ?_, hafter⟩)
  have hself : c.after (some last.id) last.id = false := c.irrefl last.id
  simp [hlast, hself]

/-- **The backfill fills the column of every row**, in however many batches. -/
theorem backfill_filled (hbatch : 0 < batch) (fuel : Nat) (rows : List Row) (cursor : Option Id)
    (hsorted : rows.Pairwise fun a b => c.lt a.id b.id = true)
    (hrows : ∀ row ∈ rows, row.filled ∨ row.pending = true ∧ c.after cursor row.id = true)
    (hfuel : rows.countP (fun row => c.after cursor row.id) ≤ fuel) :
    ∀ row ∈ backfill c batch fuel rows cursor, row.filled := by
  -- by induction on the batches: what is not filled is pending after the cursor
  induction fuel generalizing rows cursor with
  | zero =>
    intro row hrow
    exact (hrows row hrow).resolve_right fun h => countP_eq_zero.mp (Nat.le_zero.mp hfuel) row hrow h.2
  | succ fuel ih =>
    have hsub : ∀ u ∈ c.select batch rows cursor, u ∈ rows := fun u hu => (mem_select hu).1
    have hfill : ∀ row ∈ rows, (fill (c.select batch rows cursor) row).filled ∨
        row ∉ c.select batch rows cursor ∧ fill (c.select batch rows cursor) row = row ∧
          row.pending = true ∧ c.after cursor row.id = true := by
      intro row hrow
      by_cases hmem : row ∈ c.select batch rows cursor
      · have hpend := (mem_select hmem).2.1
        simp only [Row.pending, decide_eq_true_eq] at hpend
        exact .inl (fill_selected hsorted hrow hsub hmem hpend.1)
      · have hsame := fill_of_notMem hsorted hrow hsub hmem
        rw [hsame]
        exact (hrows row hrow).imp_right fun h => ⟨hmem, rfl, h⟩
    unfold backfill
    split
    · rename_i hnone
      have hnil : c.select batch rows cursor = [] := getLast?_eq_none_iff.mp hnone
      refine fun row hrow => (hrows row hrow).resolve_right fun h => ?_
      have hmem := mem_select_of_short (by rw [hnil]; exact hbatch) hrow h.1 h.2
      simp [hnil] at hmem
    · rename_i last hlast
      have hlastMem : last ∈ c.select batch rows cursor := mem_of_getLast? hlast
      dsimp only
      split
      · rename_i hshort
        intro filled hfilled
        obtain ⟨row, hrow, rfl⟩ := mem_map.mp hfilled
        refine (hfill row hrow).resolve_right fun ⟨hmem, _, hpend, hafter⟩ => hmem ?_
        exact mem_select_of_short hshort hrow hpend hafter
      · have hid : ∀ row, (fill (c.select batch rows cursor) row).id = row.id :=
          fun row => congrArg Stored.id (fill_toStored _ row)
        refine ih (rows.map (fill (c.select batch rows cursor))) (some last.id) ?_ ?_ ?_
        · refine pairwise_map.mpr (hsorted.imp fun {a b} hlt => ?_)
          rw [hid, hid]
          exact hlt
        · intro filled hfilled
          obtain ⟨row, hrow, rfl⟩ := mem_map.mp hfilled
          refine (hfill row hrow).imp_right fun ⟨hmem, hsame, hpend, hafter⟩ => ?_
          rw [hsame]
          exact ⟨hpend, lt_of_not_selected hsorted hrow hpend hafter hmem hlastMem⟩
        · have hcount := countP_after_lt (hsub last hlastMem) (mem_select hlastMem).2.2
          have hmap : (rows.map (fill (c.select batch rows cursor))).countP
              (fun row => c.after (some last.id) row.id) = rows.countP fun row => c.after (some last.id) row.id := by
            rw [countP_map]
            exact countP_congr fun row _ => by simp [hid row]
          omega

theorem backfillUpstreamRefName_filled (table : Table c) :
    ∀ row ∈ backfillUpstreamRefName c table.rows, row.filled := by
  apply backfill_filled (by decide) _ _ _ table.sorted
  · intro row hrow
    cases hpend : row.pending with
    | false => exact .inl (Row.filled_of_not_pending hpend (table.column row hrow))
    | true => exact .inr ⟨rfl, rfl⟩
  · have hle := countP_le_length (p := fun row : Row => c.after none row.id) (l := table.rows)
    omega

end Backfill

/-! Writes -/

theorem Row.of_filled (pr : Stored) : (Row.of pr).filled := fun _ => rfl

theorem Write.apply_filled (w : Write) (h : ∀ row ∈ rows, row.filled) : ∀ row ∈ w.apply rows, row.filled := by
  intro row hrow
  cases w with
  | write pr =>
    obtain rfl | hold := mem_cons.mp hrow
    · exact Row.of_filled pr
    · exact h row hold
  | update pr =>
    simp only [Write.apply] at hrow
    split at hrow
    · obtain rfl | hold := mem_cons.mp hrow
      · exact Row.of_filled pr
      · exact h row hold
    · obtain ⟨old, hold, rfl⟩ := mem_map.mp hrow
      split
      · exact Row.of_filled pr
      · exact h old hold
  | delete id => exact h row (mem_of_mem_filter hrow)

theorem filled_foldl (writes : List Write) (h : ∀ row ∈ rows, row.filled) :
    ∀ row ∈ writes.foldl Write.apply rows, row.filled := by
  induction writes generalizing rows with
  | nil => exact h
  | cons w writes ih => exact ih (w.apply_filled h)

/-- **The column is exact at all times**: whatever the start-up has found and whatever is written. -/
theorem Table.after_filled {c : Collation} (table : Table c) (writes : List Write) :
    ∀ row ∈ table.after writes, row.filled :=
  filled_foldl writes (backfillUpstreamRefName_filled table)

/-! Reports -/

theorem findUpstreamRefsFromDB_iff (hn : prName ≠ []) (hfilled : ∀ row ∈ rows, row.filled) :
    findUpstreamRefsFromDB rows ns prName ≠ [] ↔ NamedFirst rows ns prName := by
  unfold findUpstreamRefsFromDB
  rw [if_neg hn]
  cases hfind : rows.find? fun row => row.ns = ns ∧ row.revision ≠ -1 ∧ row.upstreamRefName ≠ [] ∧
      row.upstreamRefName = prName with
  | some row =>
    have hmem := mem_of_find?_eq_some hfind
    have hrow := find?_some hfind
    simp only [decide_eq_true_eq] at hrow
    refine iff_of_true row.named ⟨row, hmem, hrow.1, hrow.2.1, ?_⟩
    rw [← extractUpstreamRefName_iff hn, ← hfilled row hmem hrow.2.1]
    exact hrow.2.2.2
  | none =>
    refine iff_of_false (fun h => h rfl) ?_
    intro ⟨row, hmem, hns, hrev, hex⟩
    have hnot := find?_eq_none.mp hfind row hmem
    rw [← extractUpstreamRefName_iff hn, ← hfilled row hmem hrev] at hex
    simp [hns, hrev, hex, hn] at hnot

theorem refersTo_iff (r : Stored) :
    r.refersTo prName = true ↔ r.revision ≠ -1 ∧ ∃ task ∈ r.tasks, task.names prName = true := by
  simp [Stored.refersTo]

theorem findInCrCache_iff {repos : List CrRepository} (hsame : SameRevisions repos rows) :
    findInCrCache repos ns prName ≠ [] ↔ Named rows ns prName := by
  unfold findInCrCache
  cases hfind : (repos.filter (·.ns = ns)).findSome? fun repo => repo.revisions.find? (·.refersTo prName) with
  | some r =>
    obtain ⟨repo, hrepo, hr⟩ := exists_of_findSome?_eq_some hfind
    simp only [mem_filter, decide_eq_true_eq] at hrepo
    have hmem := mem_of_find?_eq_some hr
    obtain ⟨hns, hrow⟩ := (hsame ns r).mp ⟨repo, hrepo.1, hrepo.2, hmem⟩
    have hrefers : r.refersTo prName = true := find?_some (p := fun r : Stored => r.refersTo prName) hr
    obtain ⟨hrev, hnames⟩ := (refersTo_iff r).mp hrefers
    obtain ⟨row, hmem', rfl⟩ := mem_map.mp hrow
    exact iff_of_true row.named ⟨row, hmem', hns, hrev, hnames⟩
  | none =>
    refine iff_of_false (fun h => h rfl) ?_
    intro ⟨row, hrow, hns, hrev, hnames⟩
    obtain ⟨repo, hrepo, hrepoNs, hmem⟩ :=
      (hsame ns row.toStored).mpr ⟨hns, mem_map.mpr ⟨row, hrow, rfl⟩⟩
    have hnone := findSome?_eq_none_iff.mp hfind repo (by simp [hrepo, hrepoNs])
    have hnot := find?_eq_none.mp hnone row.toStored hmem
    exact hnot ((refersTo_iff _).mpr ⟨hrev, hnames⟩)

theorem named_of_namedFirst (h : NamedFirst rows ns prName) : Named rows ns prName := by
  obtain ⟨row, hrow, hns, hrev, earlier, first, later, htasks, hfirst, _⟩ := h
  refine ⟨row, hrow, hns, hrev, first, ?_, hfirst⟩
  simp [htasks]

/-- **Both caches report a downstream exactly when there is one, if and only if a name that some task
    gives is also the first that some revision gives.** The CR cache always does; the database holds
    the first name of each revision only. -/
theorem upstream_reports_iff (c : Collation) (table : Table c) (writes : List Write)
    (repos : List CrRepository) (hsame : SameRevisions repos (table.after writes)) (ns prName : Str)
    (hn : prName ≠ []) :
    ((findUpstreamRefsFromDB (table.after writes) ns prName ≠ [] ↔ Named (table.after writes) ns prName) ∧
      (findInCrCache repos ns prName ≠ [] ↔ Named (table.after writes) ns prName)) ↔
    (Named (table.after writes) ns prName → NamedFirst (table.after writes) ns prName) := by
  rw [findUpstreamRefsFromDB_iff hn (table.after_filled writes), findInCrCache_iff hsame]
  constructor
  · intro ⟨hdb, _⟩
    exact hdb.mpr
  · intro hfirst
    exact ⟨⟨named_of_namedFirst, hfirst⟩, Iff.rfl⟩

/-- Names compared by code points, the namespace first. -/
def codePoints : Collation where
  lt a b := decide (toLex a < toLex b)
  irrefl a := by simp
  trans a b c hab hbc := by
    simp only [decide_eq_true_eq] at hab hbc ⊢
    exact lt_trans hab hbc
  total a b := by simpa using lt_trichotomy (toLex a) (toLex b)

/-- A clone of `a` that has been upgraded to `b`. -/
def upgraded : Stored where
  ns := "ns"
  name := "r.p.v1"
  revision := 1
  tasks := [{ type := .clone, clone := some (some "a") }, { type := .upgrade, upgrade := some "b" }]
  named := by decide

def emptyTable : Table codePoints := ⟨[], .nil, nofun⟩

def crRepository : CrRepository := ⟨"ns", [upgraded]⟩

theorem after_upgraded : emptyTable.after [.write upgraded] = [Row.of upgraded] := rfl

theorem sameRevisions_upgraded : SameRevisions [crRepository] (emptyTable.after [.write upgraded]) := by
  intro ns r
  rw [after_upgraded]
  constructor
  · intro ⟨repo, hrepo, hns, hr⟩
    obtain rfl := mem_singleton.mp hrepo
    obtain rfl : r = upgraded := mem_singleton.mp hr
    exact ⟨hns, mem_singleton_self _⟩
  · intro ⟨hns, hr⟩
    obtain rfl : r = upgraded := mem_singleton.mp hr
    exact ⟨crRepository, mem_singleton_self _, hns, mem_singleton_self _⟩

theorem named_upgraded : Named (emptyTable.after [.write upgraded]) "ns" "b" := by
  rw [after_upgraded]
  refine ⟨Row.of upgraded, mem_singleton_self _, rfl, by decide, ?_⟩
  exact ⟨upgraded.tasks.getLast (by decide), getLast_mem _, by decide⟩

theorem upstream_reports_iff_first :
    findUpstreamRefsFromDB (emptyTable.after [.write upgraded]) "ns" "a" ≠ [] ↔
    Named (emptyTable.after [.write upgraded]) "ns" "a" := by
  refine ((upstream_reports_iff codePoints emptyTable [.write upgraded] [crRepository] sameRevisions_upgraded
    "ns" "a" (by decide)).mpr fun _ => ?_).1
  rw [after_upgraded]
  exact ⟨Row.of upgraded, mem_singleton_self _, rfl, by decide,
    [], _, _, rfl, by decide, nofun⟩

/-- The database does not know that `b` is in use, and lets it go; the CR cache keeps it. -/
theorem second_upstream_missed :
    findUpstreamRefsFromDB (emptyTable.after [.write upgraded]) "ns" "b" = [] ∧
    findInCrCache [crRepository] "ns" "b" = "r.p.v1" ∧
    SameRevisions [crRepository] (emptyTable.after [.write upgraded]) ∧
    Named (emptyTable.after [.write upgraded]) "ns" "b" :=
  ⟨by rw [after_upgraded]; decide, by decide, sameRevisions_upgraded, named_upgraded⟩

end Porch.Cache.UpstreamRefs
