import Porch.Db.StoreSpec

/- The rows of `package_revisions` as a function of their key, without `latest`.
   Seen so, each statement changes its own key and nothing else:

     insertRow, updateRow, upsertRow  rowAt t' = Function.update (rowAt t) r.key (some r.content)
     deleteRow                        rowAt t' = Function.update (rowAt t) k none
     deletePackageRows                rowAt t' k = (rowAt t k).filter ...

   `contentAt` is what a package revision holds for its user. -/
namespace Porch.Db

open Go Sql Function

variable {t t' : PkgRevTable} {r x y : PkgRevRow} {k : Str × Str}

/-- The row of a key, without `latest`. -/
def rowAt (t : PkgRevTable) (k : Str × Str) : Option PkgRevRow :=
  (t.lookup k).map PkgRevRow.content

theorem rowAt_eq_some : rowAt t k = some y ↔ ∃ x ∈ t, x.key = k ∧ x.content = y := by
  simp only [rowAt, Option.map_eq_some_iff, Table.lookup_eq_some, and_assoc]

theorem rowAt_eq_none : rowAt t k = none ↔ ∀ x ∈ t, x.key ≠ k := by
  rw [rowAt, Option.map_eq_none_iff, Table.lookup_eq_none]

theorem rowAt_of_mem (hx : x ∈ t) : rowAt t x.key = some x.content :=
  rowAt_eq_some.mpr ⟨x, hx, rfl, rfl⟩

@[simp] theorem content_key : x.content.key = x.key := rfl

@[simp] theorem content_content : x.content.content = x.content := rfl

@[simp] theorem content_lifecycle : x.content.lifecycle = x.lifecycle := rfl

@[simp] theorem content_tasks : x.content.tasks = x.tasks := rfl

@[simp] theorem content_revision : x.content.revision = x.revision := rfl

@[simp] theorem content_namesp : x.content.namesp = x.namesp := rfl

@[simp] theorem content_packageName : x.content.packageName = x.packageName := rfl

theorem Stores.rowAt (h : Stores t r t') :
    rowAt t' = update (rowAt t) r.key (some r.content) := by
  funext k
  by_cases hk : k = r.key
  · subst hk
    obtain ⟨y, hy, hyc⟩ := h.stored
    rw [update_self, ← key_of_content hyc, rowAt_of_mem hy, hyc]
  · rw [update_of_ne hk]
    apply Option.ext
    intro z
    rw [rowAt_eq_some, rowAt_eq_some]
    refine ⟨fun ⟨y, hy, hyk, hyz⟩ => ?_, fun ⟨x, hx, hxk, hxz⟩ => ?_⟩
    · obtain hyr | ⟨-, x, hx, hxy⟩ := h.only y hy
      · exact absurd (hyk.symm.trans (key_of_content hyr)) hk
      · exact ⟨x, hx, (key_of_content hxy).trans hyk, hxy.trans hyz⟩
    · obtain ⟨y, hy, hyx⟩ := h.kept x hx (by rw [hxk]; exact hk)
      exact ⟨y, hy, (key_of_content hyx).trans hxk, hyx.trans hxz⟩

theorem fireDelete_rowAt (h : fireDelete t x = .ok t') : rowAt t' = rowAt t := by
  funext k
  apply Option.ext
  intro z
  rw [rowAt_eq_some, rowAt_eq_some]
  obtain ⟨-, rfl⟩ | ⟨m, -, hmem⟩ := fireDelete_ok h
  · exact Iff.rfl
  · have hc : ∀ y : PkgRevRow, (if samePackage y x && y.revision = m &&
        lifecycleIsPublished y.lifecycle then { y with latest := true } else y).content =
        y.content := by
      intro y
      split <;> rfl
    refine ⟨fun ⟨y, hy, hyk, hyz⟩ => ?_, fun ⟨y, hy, hyk, hyz⟩ => ?_⟩
    · obtain ⟨y₀, hy₀, rfl⟩ := (hmem y).mp hy
      exact ⟨y₀, hy₀, (key_of_content (hc y₀)).symm.trans hyk, (hc y₀).symm.trans hyz⟩
    · exact ⟨_, (hmem _).mpr ⟨y, hy, rfl⟩, (key_of_content (hc y)).trans hyk, (hc y).trans hyz⟩

theorem deleteRow_rowAt (h : deleteRow t k = .ok t') :
    rowAt t' = update (rowAt t) k none := by
  obtain ⟨rfl, hfree⟩ | ⟨old, hold, hkey, hfire⟩ := deleteRow_ok h
  · rw [← rowAt_eq_none.mpr hfree, update_eq_self]
  · rw [fireDelete_rowAt hfire]
    funext k'
    apply Option.ext
    intro z
    by_cases hk : k' = k
    · subst hk
      rw [update_self, rowAt_eq_some]
      refine iff_of_false ?_ (by simp)
      rintro ⟨x, hx, hxk, -⟩
      exact (Table.mem_deleteWhere.mp hx).2 (by simpa using hxk)
    · rw [update_of_ne hk]
      simp only [rowAt_eq_some, Table.mem_deleteWhere, decide_eq_true_eq]
      constructor
      · rintro ⟨x, hx, h⟩
        exact ⟨x, hx.1, h⟩
      · rintro ⟨x, hx, hxk, h⟩
        exact ⟨x, ⟨hx, fun hxk' => hk (hxk.symm.trans hxk')⟩, hxk, h⟩

theorem deletePackageRows_rowAt (namesp packageName : Str) :
    rowAt (deletePackageRows t namesp packageName) k =
      (rowAt t k).filter fun y => decide ((y.namesp, y.packageName) ≠ (namesp, packageName)) := by
  have hmem : ∀ x : PkgRevRow, x ∈ deletePackageRows t namesp packageName ↔
      x ∈ t ∧ (x.namesp, x.packageName) ≠ (namesp, packageName) := by
    intro x
    rw [deletePackageRows, Table.mem_deleteWhere]
    simp
  apply Option.ext
  intro z
  simp only [Option.filter_eq_some_iff, rowAt_eq_some, hmem, decide_eq_true_eq]
  refine ⟨fun ⟨x, ⟨hx, hne⟩, hk, hz⟩ => ⟨⟨x, hx, hk, hz⟩, ?_⟩,
    fun ⟨⟨x, hx, hk, hz⟩, hne⟩ => ⟨x, ⟨hx, ?_⟩, hk, hz⟩⟩
  · subst hz
    exact hne
  · subst hz
    exact hne

/-! What a package revision holds -/

/-- The lifecycle, tasks and resources stored under a key. -/
def contentAt (db : Database) (k : Str × Str) : Option (Lifecycle × Str × Resources) :=
  (rowAt db.pkgRevs k).map fun y => (y.lifecycle, y.tasks, db.resources k)

def DbPackageRevision.content (pr : DbPackageRevision) : Lifecycle × Str × Resources :=
  (pr.lifecycle, pr.tasks, pr.resources)

end Porch.Db
