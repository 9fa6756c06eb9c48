import Porch.Db.View

/- When the statements of a save go through. A table of `RowOk` rows stays one, and
   it takes every row that is `RowOk` itself, has a free name and, if it is numbered,
   a free number in its package; a proposed draft can also get its number. -/
namespace Porch.Db

open Go Sql

/-- A row as the cache writes it: a placeholder, a draft or a numbered revision. -/
def RowOk (x : PkgRevRow) : Prop :=
  x.revision = -1 ∧ lifecycleIsPublished x.lifecycle ∨
    x.revision = 0 ∧ ¬ lifecycleIsPublished x.lifecycle ∧ x.latest = false ∨
    0 < x.revision ∧ lifecycleIsPublished x.lifecycle

instance (x : PkgRevRow) : Decidable (RowOk x) := inferInstanceAs (Decidable (_ ∨ _))

variable {t t' : PkgRevTable} {r old new x : PkgRevRow}

theorem RowOk.legal (h : RowOk x) : Legal x := by
  obtain ⟨hrev, hpub⟩ | ⟨hrev, hpub, -⟩ | ⟨hrev, hpub⟩ := h
  · exact .inl ⟨hrev, hpub⟩
  · exact .inr (.inl ⟨hrev, hpub⟩)
  · refine .inr (.inr ⟨hrev, fun hdraft => ?_⟩)
    rw [hdraft] at hpub
    cases hpub

theorem RowOk.not_latest (h : RowOk x) : RowOk { x with latest := false } :=
  h.imp_right fun h => h.imp_left fun h => ⟨h.1, h.2.1, rfl⟩

theorem RowOk.setLatest (h : RowOk x) (hpos : 0 < x.revision) (b : Bool) :
    RowOk { x with latest := b } := by
  obtain ⟨hrev, -⟩ | ⟨hrev, -⟩ | h := h
  · omega
  · omega
  · exact .inr (.inr h)

theorem RowOk.published_iff (h : RowOk x) : lifecycleIsPublished x.lifecycle ↔ x.revision ≠ 0 := by
  obtain ⟨hrev, hpub⟩ | ⟨hrev, hpub, -⟩ | ⟨hrev, hpub⟩ := h
  · exact iff_of_true hpub (by omega)
  · exact iff_of_false hpub (by omega)
  · exact iff_of_true hpub (by omega)

/-! The trigger -/

theorem fireColumns_rowOk {old' : Option PkgRevRow} {t₁ : PkgRevTable} {r₁ : PkgRevRow}
    (ht : ∀ x ∈ t, RowOk x) (hnew : RowOk new) (h : fireColumns t old' new = .ok (t₁, r₁)) :
    RowOk r₁ ∧ ∀ x ∈ t₁, RowOk x := by
  obtain ⟨rfl, rfl⟩ | ⟨hb, rfl, rfl⟩ := fireColumns_cases h
  · exact ⟨hnew, ht⟩
  · refine ⟨hnew.setLatest (becomesLatest_iff.mp hb).2.1 true, fun x hx => ?_⟩
    obtain ⟨y, hy, rfl⟩ := mem_demoteAll.mp hx
    split
    · exact (ht y hy).not_latest
    · exact ht y hy

theorem fireColumns_total {old' : Option PkgRevRow} {v : Verdict}
    (hv : rowCheck old' new = .ok v) (ht : ∀ x ∈ t, RowOk x)
    (hfresh : 0 < new.revision → ∀ x ∈ t, samePackage x new → x.revision ≠ new.revision)
    (hpos : v = .assignRevision → 0 < new.revision) :
    ∃ t₁ r₁, fireColumns t old' new = .ok (t₁, r₁) := by
  cases v with
  | returnNew => exact ⟨_, _, fireColumns_return hv⟩
  | assignRevision =>
    by_cases hb : becomesLatest t new
    · exact ⟨_, _, fireColumns_latest hv (hfresh (hpos rfl)) hb fun x hx _ _ => (ht x hx).legal⟩
    · exact ⟨_, _, fireColumns_not_latest hv (hfresh (hpos rfl)) hb⟩

/-! The statements -/

/-- A row with a free name and a free number is inserted. -/
theorem insertRow_accepts (ht : ∀ x ∈ t, RowOk x) (hr : RowOk { r with latest := false })
    (hint : integerError r = none) (hcheck : checkError r = none)
    (hfree : ∀ x ∈ t, x.key ≠ r.key)
    (hfresh : 0 < r.revision → ∀ x ∈ t, samePackage x r → x.revision ≠ r.revision) :
    ∃ t', insertRow t r = .ok t' ∧ ∀ x ∈ t', RowOk x := by
  have hv : ∃ v, rowCheck none { r with latest := false } = .ok v ∧
      (v = .assignRevision → 0 < r.revision) := by
    obtain ⟨hrev, hpub⟩ | ⟨hrev, hpub, -⟩ | ⟨hrev, hpub⟩ := hr
    · exact ⟨.returnNew, rowCheck_insert.mpr (.inl ⟨rfl, hrev, hpub⟩), by simp⟩
    · exact ⟨.returnNew, rowCheck_insert.mpr (.inr (.inl ⟨rfl, hrev, hpub⟩)), by simp⟩
    · refine ⟨.assignRevision, rowCheck_insert.mpr (.inr (.inr ⟨rfl, hrev, fun hd => ?_⟩)),
        fun _ => hrev⟩
      have hd : r.lifecycle = .draft := hd
      rw [hd] at hpub
      cases hpub
  obtain ⟨v, hv, hpos⟩ := hv
  obtain ⟨t₁, r₁, hfire⟩ := fireColumns_total hv ht hfresh hpos
  obtain ⟨hr₁, ht₁⟩ := fireColumns_rowOk ht hr hfire
  -- the trigger gives the row back under its own name, and adds no other
  have hkey : r₁.key = { r with latest := false }.key := fireColumns_key hfire
  have hfree₁ : ∀ x ∈ t₁, x.key ≠ r₁.key := by
    intro x hx
    obtain ⟨y, hy, hyx⟩ := (fireColumns_content hfire).2.2 x hx
    rw [hkey, ← key_of_content hyx]
    exact hfree y hy
  have hcheck₁ : checkError r₁ = none := by
    obtain ⟨-, rfl⟩ | ⟨-, -, rfl⟩ := fireColumns_cases hfire <;> exact hcheck
  obtain ⟨t', ht'⟩ := Table.exists_insert hfree₁
  refine ⟨t', ?_, fun x hx => ?_⟩
  · refine okUnless_bind_eq_ok.mpr ⟨hint, bind_eq_ok.mpr ⟨_, hfire, ?_⟩⟩
    refine okUnless_bind_eq_ok.mpr ⟨hcheck₁, ?_⟩
    rw [ht']
  · obtain rfl | hx := (Table.mem_insert ht').mp hx
    · exact hr₁
    · exact ht₁ x hx

/-- A proposed draft gets a number that is free in its package. -/
theorem updateRow_accepts_number (ht : ∀ x ∈ t, RowOk x) (hold : old ∈ t)
    (hkey : r.key = old.key) (hpkg : r.packageName = old.packageName)
    (hprop : old.lifecycle = .proposed) (hpos : 0 < r.revision)
    (hpub : lifecycleIsPublished r.lifecycle) (hint : integerError r = none)
    (hfresh : ∀ x ∈ t, samePackage x r → x.revision ≠ r.revision) :
    ∃ t', updateRow t r = .ok t' ∧ ∀ x ∈ t', RowOk x := by
  have hzero : old.revision = 0 ∧ old.latest = false := by
    obtain ⟨-, hp⟩ | ⟨hrev, -, hl⟩ | ⟨-, hp⟩ := ht old hold
    · rw [hprop] at hp
      cases hp
    · exact ⟨hrev, hl⟩
    · rw [hprop] at hp
      cases hp
  have hv : rowCheck (some old) { r with latest := old.latest } = .ok .assignRevision := by
    refine rowCheck_update.mpr ⟨hpkg, by omega, by show -1 ≤ r.revision; omega,
      .inr (.inr (.inr ⟨rfl, hpos, hzero.1, hprop, fun hd => ?_⟩))⟩
    have hd : r.lifecycle = .draft := hd
    rw [hd] at hpub
    cases hpub
  obtain ⟨t₁, r₁, hfire⟩ := fireColumns_total hv ht (fun _ => hfresh) fun _ => hpos
  have hnew : RowOk { r with latest := old.latest } := .inr (.inr ⟨hpos, hpub⟩)
  obtain ⟨hr₁, ht₁⟩ := fireColumns_rowOk ht hnew hfire
  -- the draft is not flagged, so the trigger leaves it as it is
  have hold₁ : old ∈ t₁ := by
    obtain ⟨rfl, -⟩ | ⟨-, rfl, -⟩ := fireColumns_cases hfire
    · exact hold
    · exact mem_demoteAll.mpr ⟨old, hold, by simp [hzero.2]⟩
  have hkey₁ : r₁.key = old.key := (fireColumns_key hfire).trans hkey
  refine ⟨t₁.set r₁, ?_, fun x hx => ?_⟩
  · refine okUnless_bind_eq_ok.mpr ⟨hint, ?_⟩
    rw [hkey, Table.lookup_eq_some.mpr ⟨hold, rfl⟩]
    refine bind_eq_ok.mpr ⟨_, hfire, ?_⟩
    simp only [Table.lookup_eq_some.mpr ⟨hold₁, rfl⟩, if_true]
  · obtain rfl | ⟨hx, -⟩ := (Table.mem_set ⟨old, hold₁, hkey₁.symm⟩).mp hx
    · exact hr₁
    · exact ht₁ x hx

theorem deleteRow_rowOk {k : Str × Str} (ht : ∀ x ∈ t, RowOk x) (h : deleteRow t k = .ok t') :
    ∀ x ∈ t', RowOk x := by
  obtain ⟨rfl, -⟩ | ⟨old, -, -, hfire⟩ := deleteRow_ok h
  · exact ht
  · have hleft : ∀ x ∈ t.deleteWhere (·.key = k), RowOk x := fun x hx =>
      ht x (Table.mem_deleteWhere.mp hx).1
    obtain ⟨-, rfl⟩ | ⟨m, hm, hmem⟩ := fireDelete_ok hfire
    · exact hleft
    · obtain ⟨⟨z, -, hz, hzm⟩, -⟩ := Table.maxWhere_eq_some.mp hm
      simp only [Bool.and_eq_true, decide_eq_true_eq] at hz
      intro x hx
      obtain ⟨y, hy, rfl⟩ := (hmem x).mp hx
      split
      · next hp =>
        simp only [Bool.and_eq_true, decide_eq_true_eq] at hp
        exact (hleft y hy).setLatest (by omega) true
      · exact hleft y hy

end Porch.Db
