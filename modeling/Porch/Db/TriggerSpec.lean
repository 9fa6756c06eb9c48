import Porch.Db.Schema

/- What the triggers and the statements on `package_revisions` do, without the
   three-valued logic: one inversion lemma for each, from which the invariants of
   the table are derived. -/
namespace Porch.Db

open Go Sql Table

variable {t t' : PkgRevTable} {r old new x : PkgRevRow} {v : Verdict}

/-! The row checks -/

@[simp] theorem holds_isPublishedTri (l : Lifecycle) :
    (isPublishedTri (some l)).holds = lifecycleIsPublished l := by
  cases l <;> rfl

@[simp] theorem holds_not_isPublishedTri (l : Lifecycle) :
    (Tri.not (isPublishedTri (some l))).holds = !lifecycleIsPublished l := by
  cases l <;> rfl

@[simp] theorem holds_not_isDraftTri (l : Lifecycle) :
    (Tri.not (isDraftTri (some l))).holds = lifecycleIsPublished l := by
  cases l <;> rfl

@[simp] theorem isPublishedTri_none : isPublishedTri none = none := rfl

@[simp] theorem isDraftTri_none : isDraftTri none = none := rfl

theorem rowCheck_none : rowCheck none new = if new.revision < -1 then .error .revisionBelowMinusOne
      else if new.revision = -1 then if lifecycleIsPublished new.lifecycle then .ok .returnNew
        else .error (.lifecycleOfMinusOne new.lifecycle) else if new.revision = 0 then
        if lifecycleIsPublished new.lifecycle then .error .zeroNotDraft else .ok .returnNew
      else if new.lifecycle = .draft then .error (.revisionOnDraft new.revision)
      else .ok .assignRevision := by
  have hpub : (Tri.or (Tri.not (isPublishedTri (some new.lifecycle)))
      (Tri.not (isPublishedTri none))).holds = !lifecycleIsPublished new.lifecycle := by
    simp
  have hdraft : (Tri.or (Tri.not (isDraftTri (some new.lifecycle)))
      (Tri.not (isDraftTri none))).holds = lifecycleIsPublished new.lifecycle := by
    simp
  simp only [rowCheck, Option.map_none, hpub, hdraft, ne_none_right, ne_none_left, lt_none_left,
    lt_some, eq_some, eq_none_left, eq_none_right, Tri.or_none_right, Tri.holds_none]
  cases hp : lifecycleIsPublished new.lifecycle <;> simp [Tri.holds]

theorem rowCheck_insert : rowCheck none new = .ok v ↔
      v = .returnNew ∧ new.revision = -1 ∧ lifecycleIsPublished new.lifecycle ∨
      v = .returnNew ∧ new.revision = 0 ∧ ¬ lifecycleIsPublished new.lifecycle ∨
      v = .assignRevision ∧ 0 < new.revision ∧ new.lifecycle ≠ .draft := by
  rw [rowCheck_none]
  grind

theorem rowCheck_some : rowCheck (some old) new =
      if new.packageName ≠ old.packageName then .error .immutablePackage
      else if new.revision < -1 ∨ old.revision < -1 then .error .revisionBelowMinusOne
      else if new.revision = -1 ∨ old.revision = -1 then
        if lifecycleIsPublished new.lifecycle ∧ lifecycleIsPublished old.lifecycle then
          .ok .returnNew else .error (.lifecycleOfMinusOne new.lifecycle)
      else if new.revision = 0 then
        if old.revision ≠ 0 then .error (.revisionToZero (some old.revision))
        else if lifecycleIsPublished new.lifecycle ∨ lifecycleIsPublished old.lifecycle then
          .error .zeroNotDraft else .ok .returnNew
      else if new.lifecycle = .draft then .error (.revisionOnDraft new.revision)
      else if new.revision = old.revision then if new.lifecycle = old.lifecycle then .ok .returnNew
        else if lifecycleIsPublished new.lifecycle then .ok .returnNew
        else .error (.lifecycleChange (some old.lifecycle) new.lifecycle)
      else if old.revision ≠ 0 then .error (.revisionChange (some old.revision) new.revision)
      else if old.lifecycle ≠ .proposed then .error (.notProposed (some old.lifecycle))
      else .ok .assignRevision := by
  simp only [rowCheck, Option.map_some, Tri.holds_or, holds_not_isPublishedTri,
    holds_not_isDraftTri, holds_isPublishedTri, ne_some, lt_some, eq_some, Tri.holds_some]
  cases hn : lifecycleIsPublished new.lifecycle <;>
    cases ho : lifecycleIsPublished old.lifecycle <;> simp

theorem rowCheck_update : rowCheck (some old) new = .ok v ↔
      new.packageName = old.packageName ∧ -1 ≤ old.revision ∧ -1 ≤ new.revision ∧
      (v = .returnNew ∧ (new.revision = -1 ∨ old.revision = -1) ∧
          lifecycleIsPublished new.lifecycle ∧ lifecycleIsPublished old.lifecycle ∨
        v = .returnNew ∧ new.revision = 0 ∧ old.revision = 0 ∧
          ¬ lifecycleIsPublished new.lifecycle ∧ ¬ lifecycleIsPublished old.lifecycle ∨
        v = .returnNew ∧ 0 < new.revision ∧ new.revision = old.revision ∧ new.lifecycle ≠ .draft ∧
          (new.lifecycle = old.lifecycle ∨ lifecycleIsPublished new.lifecycle) ∨
        v = .assignRevision ∧ 0 < new.revision ∧ old.revision = 0 ∧
          old.lifecycle = .proposed ∧ new.lifecycle ≠ .draft) := by
  rw [rowCheck_some]
  grind

/-- A revision and lifecycle that the trigger accepts on a row that stays as it
    is: what the trigger's own `SET latest` needs. -/
def Legal (r : PkgRevRow) : Prop :=
  r.revision = -1 ∧ lifecycleIsPublished r.lifecycle ∨
    r.revision = 0 ∧ ¬ lifecycleIsPublished r.lifecycle ∨ 0 < r.revision ∧ r.lifecycle ≠ .draft

variable {b : Bool} {old' : Option PkgRevRow}

/-- A change of `latest` alone never gets past the row checks, so the trigger does
    not go on from its own update to another. -/
theorem rowCheck_latest_only (h : rowCheck (some r) { r with latest := b } = .ok v) :
    v = .returnNew := by
  obtain ⟨-, -, -, h | h | h | h⟩ := rowCheck_update.mp h
  · exact h.1
  · exact h.1
  · exact h.1
  · have hpos : 0 < r.revision := h.2.1
    have hzero : r.revision = 0 := h.2.2.1
    omega

theorem latestError_eq_none : latestError b r = none ↔ Legal r := by
  unfold latestError Legal
  rw [rowCheck_some]
  grind

theorem updateLatest_eq_ok {p : PkgRevRow → Bool} : updateLatest t p b = .ok t' ↔
      (∀ r ∈ t, p r → Legal r) ∧
        t' = t.updateWhere p (fun r => { r with latest := b }) fun _ => rfl := by
  rw [updateLatest, okUnless_eq_ok]
  refine and_congr ?_ eq_comm
  simp only [Option.map_eq_none_iff, List.findSome?_eq_none_iff, List.mem_filter,
    latestError_eq_none, and_imp, mem_def]

/-! The trigger as a whole -/

theorem samePackage_iff {y : PkgRevRow} :
    samePackage x y ↔ x.namesp = y.namesp ∧ x.packageName = y.packageName := by
  simp [samePackage]

theorem becomesLatest_iff : becomesLatest t new ↔ new.lifecycle = .published ∧ 0 < new.revision ∧
      ∀ x ∈ t, samePackage x new → 0 < x.revision → x.revision ≤ new.revision := by
  simp only [becomesLatest, Bool.and_eq_true, decide_eq_true_eq, and_assoc]
  refine and_congr_right fun _ => and_congr_right fun _ => ?_
  cases hm : maxRevision t new with
  | none =>
    have hnone := maxWhere_eq_none.mp hm
    refine iff_of_true rfl fun x hx hp hpos => ?_
    exact absurd (by simp [hp, hpos]) (hnone x hx)
  | some m =>
    obtain ⟨⟨y, hy, hp, hym⟩, hmax⟩ := maxWhere_eq_some.mp hm
    simp only [Bool.and_eq_true, decide_eq_true_eq] at hp hmax ⊢
    constructor
    · intro hle x hx hx' hpos
      exact (hmax x hx ⟨hx', hpos⟩).trans hle
    · intro hall
      exact hym ▸ hall y hy hp.1 hp.2

/-- The rows after the trigger has taken `latest` from the package of `new`. -/
def demoteAll (t : PkgRevTable) (new : PkgRevRow) : PkgRevTable :=
  t.updateWhere (fun x => samePackage x new && x.latest) (fun r => { r with latest := false })
    fun _ => rfl

theorem fireColumns_return (hv : rowCheck old' new = .ok .returnNew) :
    fireColumns t old' new = .ok (t, new) := by
  simp [fireColumns, hv]

theorem any_revision_iff :
    (t.rows.any fun x => samePackage x new && x.revision = new.revision) = true ↔
      ¬ ∀ x ∈ t, samePackage x new → x.revision ≠ new.revision := by
  simp [mem_def]

section

variable (hv : rowCheck old' new = .ok .assignRevision)
include hv

/-- A row that gets its revision number: the number is new in the package, and the
    row becomes the latest one or leaves the others as they are. -/
theorem fireColumns_assign (h : fireColumns t old' new = .ok (t', r)) :
    (∀ x ∈ t, samePackage x new → x.revision ≠ new.revision) ∧
      (becomesLatest t new ∧ t' = demoteAll t new ∧ r = { new with latest := true } ∨
        ¬ becomesLatest t new ∧ t' = t ∧ r = new) := by
  simp only [fireColumns, hv] at h
  split at h
  · cases h
  · next hcount =>
    refine ⟨not_not.mp (any_revision_iff.not.mp hcount), ?_⟩
    split at h
    · next hb =>
      obtain ⟨t₁, hu, h⟩ := bind_eq_ok.mp h
      cases h
      exact .inl ⟨hb, (updateLatest_eq_ok.mp hu).2, rfl⟩
    · next hb =>
      cases h
      exact .inr ⟨hb, rfl, rfl⟩

theorem fireColumns_latest (hfresh : ∀ x ∈ t, samePackage x new → x.revision ≠ new.revision)
    (hb : becomesLatest t new) (hlegal : ∀ x ∈ t, samePackage x new → x.latest → Legal x) :
    fireColumns t old' new = .ok (demoteAll t new, { new with latest := true }) := by
  have hu : updateLatest t (fun x => samePackage x new && x.latest) false =
      .ok (demoteAll t new) := by
    refine updateLatest_eq_ok.mpr ⟨fun x hx hp => ?_, rfl⟩
    rw [Bool.and_eq_true] at hp
    exact hlegal x hx hp.1 hp.2
  simp only [fireColumns, hv]
  rw [if_neg (any_revision_iff.not.mpr (not_not.mpr hfresh)), if_pos hb, hu]
  rfl

theorem fireColumns_not_latest (hfresh : ∀ x ∈ t, samePackage x new → x.revision ≠ new.revision)
    (hb : ¬ becomesLatest t new) : fireColumns t old' new = .ok (t, new) := by
  simp only [fireColumns, hv]
  rw [if_neg (any_revision_iff.not.mpr (not_not.mpr hfresh)), if_neg hb]

end

theorem fireColumns_row_ok (h : fireColumns t old' new = .ok (t', r)) :
    ∃ v, rowCheck old' new = .ok v := by
  cases hv : rowCheck old' new with
  | error e =>
    simp only [fireColumns, hv] at h
    cases h
  | ok v => exact ⟨v, rfl⟩

theorem fireColumns_cases (h : fireColumns t old' new = .ok (t', r)) :
    t' = t ∧ r = new ∨ becomesLatest t new ∧ t' = demoteAll t new ∧ r = { new with latest := true } := by
  obtain ⟨v, hv⟩ := fireColumns_row_ok h
  cases v with
  | returnNew =>
    rw [fireColumns_return hv] at h
    cases h
    exact .inl ⟨rfl, rfl⟩
  | assignRevision =>
    exact (fireColumns_assign hv h).2.elim .inr fun h => .inl h.2

theorem fireColumns_key (h : fireColumns t old' new = .ok (t', r)) : r.key = new.key := by
  obtain ⟨-, rfl⟩ | ⟨-, -, rfl⟩ := fireColumns_cases h <;> rfl

theorem mem_demoteAll : x ∈ demoteAll t new ↔
      ∃ y ∈ t, (if samePackage y new && y.latest then { y with latest := false } else y) = x :=
  mem_updateWhere

/-! The statements -/

theorem insertRow_ok (h : insertRow t r = .ok t') :
    ∃ t₁ r₁, fireColumns t none { r with latest := false } = .ok (t₁, r₁) ∧
      (∀ x ∈ t₁, x.key ≠ r₁.key) ∧ ∀ x, x ∈ t' ↔ x = r₁ ∨ x ∈ t₁ := by
  obtain ⟨-, h⟩ := okUnless_bind_eq_ok.mp h
  obtain ⟨⟨t₁, r₁⟩, hfire, h⟩ := bind_eq_ok.mp h
  obtain ⟨-, h⟩ := okUnless_bind_eq_ok.mp h
  split at h
  · cases h
  · next t₂ hins =>
    cases h
    exact ⟨t₁, r₁, hfire, (insert_eq_some.mp hins).1, fun x => mem_insert hins⟩

theorem overwriteRow_ok (hkey : new.key = old.key) (h : overwriteRow t old new = .ok t') :
    ∃ t₁ r₁, fireColumns t (some old) { new with latest := old.latest } = .ok (t₁, r₁) ∧
      old ∈ t₁ ∧ ∀ x, x ∈ t' ↔ x = r₁ ∨ x ∈ t₁ ∧ x.key ≠ r₁.key := by
  obtain ⟨⟨t₁, r₁⟩, hfire, h⟩ := bind_eq_ok.mp h
  simp only at h
  split at h
  · next hlook =>
    cases h
    have hmem : old ∈ t₁ := (lookup_eq_some.mp hlook).1
    refine ⟨t₁, r₁, hfire, hmem, fun x => mem_set ⟨old, hmem, ?_⟩⟩
    rw [fireColumns_key hfire]
    exact hkey.symm
  · cases h

theorem updateRow_ok (h : updateRow t r = .ok t') :
    ∃ old ∈ t, r.key = old.key ∧ overwriteRow t old r = .ok t' := by
  obtain ⟨-, h⟩ := okUnless_bind_eq_ok.mp h
  split at h
  · cases h
  · next old hlook =>
    obtain ⟨hold, hkey⟩ := lookup_eq_some.mp hlook
    exact ⟨old, hold, hkey.symm, h⟩

/-- An accepted upsert at revision -1 adds its row, or overwrites the row of its
    key. -/
theorem upsertRow_ok (hrev : r.revision = -1) (h : upsertRow t r = .ok t') :
    lifecycleIsPublished r.lifecycle ∧
      ((∃ old ∈ t, r.key = old.key ∧ overwriteRow t old r = .ok t') ∨
        (∀ x ∈ t, x.key ≠ r.key) ∧ ∀ x, x ∈ t' ↔ x = { r with latest := false } ∨ x ∈ t) := by
  obtain ⟨-, h⟩ := okUnless_bind_eq_ok.mp h
  obtain ⟨⟨t₁, r₁⟩, hfire, h⟩ := bind_eq_ok.mp h
  obtain ⟨-, h⟩ := okUnless_bind_eq_ok.mp h
  obtain ⟨v, hv⟩ := fireColumns_row_ok hfire
  -- at revision -1 the trigger returns early and leaves the table as it is
  obtain ⟨rfl, -, hpub⟩ | ⟨-, hzero, -⟩ | ⟨-, hpos, -⟩ := rowCheck_insert.mp hv
  · rw [fireColumns_return hv] at hfire
    cases hfire
    refine ⟨hpub, ?_⟩
    split at h
    · next old hlook =>
      obtain ⟨hold, hkey⟩ := lookup_eq_some.mp hlook
      exact .inl ⟨old, hold, hkey.symm, h⟩
    · next hlook =>
      split at h
      · cases h
      · next t₂ hins =>
        cases h
        exact .inr ⟨lookup_eq_none.mp hlook, fun x => mem_insert hins⟩
  · have : r.revision = 0 := hzero
    omega
  · have : 0 < r.revision := hpos
    omega

/-- What a delete does: the row goes, and the greatest published revision that is
    left in its package gets `latest`. -/
theorem deleteRow_ok {k : Str × Str} (h : deleteRow t k = .ok t') : (t' = t ∧ ∀ x ∈ t, x.key ≠ k) ∨
      ∃ old ∈ t, old.key = k ∧ fireDelete (t.deleteWhere (·.key = k)) old = .ok t' := by
  unfold deleteRow at h
  split at h
  · next hlook =>
    cases h
    exact .inl ⟨rfl, lookup_eq_none.mp hlook⟩
  · next old hlook =>
    obtain ⟨hold, hkey⟩ := lookup_eq_some.mp hlook
    exact .inr ⟨old, hold, hkey, h⟩

theorem fireDelete_ok (h : fireDelete t old = .ok t') : maxRevision t old = none ∧ t' = t ∨
      ∃ m, maxRevision t old = some m ∧
        ∀ x, x ∈ t' ↔ ∃ y ∈ t, (if samePackage y old && y.revision = m &&
          lifecycleIsPublished y.lifecycle then { y with latest := true } else y) = x := by
  unfold fireDelete at h
  split at h
  · next hm =>
    cases h
    exact .inl ⟨hm, rfl⟩
  · next m hm =>
    obtain ⟨-, rfl⟩ := updateLatest_eq_ok.mp h
    exact .inr ⟨m, hm, fun x => mem_updateWhere⟩

theorem deleteRow_total (t : PkgRevTable) (k : Str × Str) : ∃ t', deleteRow t k = .ok t' := by
  unfold deleteRow
  split
  · exact ⟨t, rfl⟩
  · next old _ =>
    unfold fireDelete
    split
    · exact ⟨_, rfl⟩
    · next m hm =>
      obtain ⟨⟨y, -, hy, hym⟩, -⟩ := maxWhere_eq_some.mp hm
      simp only [Bool.and_eq_true, decide_eq_true_eq] at hy
      refine ⟨_, updateLatest_eq_ok.mpr ⟨fun r _ hr => ?_, rfl⟩⟩
      simp only [Bool.and_eq_true, decide_eq_true_eq] at hr
      refine .inr (.inr ⟨by omega, fun hdraft => ?_⟩)
      rw [hdraft] at hr
      exact absurd hr.2 (by decide)

/-! What a statement stores, up to `latest`

The triggers move `latest` between rows, so a statement is described by the rows
without it. -/

/-- The columns of a row that the statements write. -/
def PkgRevRow.content (r : PkgRevRow) : PkgRevRow := { r with latest := false }

theorem column_of_content {α : Type} (f : PkgRevRow → α) (hf : ∀ y : PkgRevRow, f y.content = f y)
    (h : x.content = r.content) : f x = f r := by
  rw [← hf x, h, hf r]

section

variable (h : x.content = r.content)
include h

theorem key_of_content : x.key = r.key :=
  column_of_content PkgRevRow.key (fun _ => rfl) h

theorem revision_of_content : x.revision = r.revision :=
  column_of_content PkgRevRow.revision (fun _ => rfl) h

theorem lifecycle_of_content : x.lifecycle = r.lifecycle :=
  column_of_content PkgRevRow.lifecycle (fun _ => rfl) h

theorem packageName_of_content : x.packageName = r.packageName :=
  column_of_content PkgRevRow.packageName (fun _ => rfl) h

theorem package_of_content : (x.namesp, x.packageName) = (r.namesp, r.packageName) :=
  column_of_content (fun y => (y.namesp, y.packageName)) (fun _ => rfl) h

end

/-- `t'` is `t` with `r` stored under its key. -/
structure Stores (t : PkgRevTable) (r : PkgRevRow) (t' : PkgRevTable) : Prop where
  stored : ∃ y ∈ t', y.content = r.content
  kept : ∀ x ∈ t, x.key ≠ r.key → ∃ y ∈ t', y.content = x.content
  only : ∀ y ∈ t', y.content = r.content ∨ y.key ≠ r.key ∧ ∃ x ∈ t, x.content = y.content

theorem fireColumns_content (h : fireColumns t old' new = .ok (t', r)) :
    r.content = new.content ∧ (∀ x ∈ t, ∃ y ∈ t', y.content = x.content) ∧
      ∀ y ∈ t', ∃ x ∈ t, x.content = y.content := by
  obtain ⟨ht, rfl⟩ | ⟨-, ht, rfl⟩ := fireColumns_cases h
  · rw [ht]
    exact ⟨rfl, fun x hx => ⟨x, hx, rfl⟩, fun x hx => ⟨x, hx, rfl⟩⟩
  · have hdemote : ∀ x : PkgRevRow, (if samePackage x new && x.latest then
        { x with latest := false } else x).content = x.content := by
      intro x
      split <;> rfl
    rw [ht]
    refine ⟨rfl, fun x hx => ⟨_, mem_demoteAll.mpr ⟨x, hx, rfl⟩, hdemote x⟩, fun y hy => ?_⟩
    obtain ⟨x, hx, rfl⟩ := mem_demoteAll.mp hy
    exact ⟨x, hx, (hdemote x).symm⟩

theorem insertRow_stores (h : insertRow t r = .ok t') : Stores t r t' ∧ ∀ x ∈ t, x.key ≠ r.key := by
  obtain ⟨t₁, r₁, hfire, hfree, hmem⟩ := insertRow_ok h
  obtain ⟨hr₁, hto, hfrom⟩ := fireColumns_content hfire
  have hkey : r₁.key = r.key := key_of_content hr₁
  refine ⟨⟨⟨r₁, (hmem r₁).mpr (.inl rfl), hr₁⟩, fun x hx _ => ?_, fun y hy => ?_⟩, fun x hx => ?_⟩
  · obtain ⟨y, hy, hyx⟩ := hto x hx
    exact ⟨y, (hmem y).mpr (.inr hy), hyx⟩
  · obtain rfl | hy := (hmem y).mp hy
    · exact .inl hr₁
    · exact .inr ⟨hkey ▸ hfree y hy, hfrom y hy⟩
  · obtain ⟨y, hy, hyx⟩ := hto x hx
    rw [← key_of_content hyx, ← hkey]
    exact hfree y hy

theorem overwriteRow_stores (hkey : r.key = old.key) (h : overwriteRow t old r = .ok t') :
    Stores t r t' ∧ r.packageName = old.packageName := by
  obtain ⟨t₁, r₁, hfire, -, hmem⟩ := overwriteRow_ok hkey h
  obtain ⟨hr₁, hto, hfrom⟩ := fireColumns_content hfire
  have hkey₁ : r₁.key = r.key := key_of_content hr₁
  refine ⟨⟨⟨r₁, (hmem r₁).mpr (.inl rfl), hr₁⟩, fun x hx hne => ?_, fun y hy => ?_⟩, ?_⟩
  · obtain ⟨y, hy, hyx⟩ := hto x hx
    refine ⟨y, (hmem y).mpr (.inr ⟨hy, ?_⟩), hyx⟩
    rw [key_of_content hyx, hkey₁]
    exact hne
  · obtain rfl | ⟨hy, hne⟩ := (hmem y).mp hy
    · exact .inl hr₁
    · exact .inr ⟨hkey₁ ▸ hne, hfrom y hy⟩
  · obtain ⟨v, hv⟩ := fireColumns_row_ok hfire
    exact (rowCheck_update.mp hv).1

theorem updateRow_stores (h : updateRow t r = .ok t') :
    Stores t r t' ∧ ∃ old ∈ t, old.key = r.key ∧ r.packageName = old.packageName := by
  obtain ⟨old, hold, hkey, hover⟩ := updateRow_ok h
  obtain ⟨hstores, hpkg⟩ := overwriteRow_stores hkey hover
  exact ⟨hstores, old, hold, hkey.symm, hpkg⟩

theorem upsertRow_stores (hrev : r.revision = -1) (h : upsertRow t r = .ok t') :
    Stores t r t' ∧ ∀ old ∈ t, old.key = r.key → r.packageName = old.packageName := by
  obtain ⟨-, ⟨old, hold, hkey, hover⟩ | ⟨hfree, hmem⟩⟩ := upsertRow_ok hrev h
  · obtain ⟨hstores, hpkg⟩ := overwriteRow_stores hkey hover
    refine ⟨hstores, fun x hx hxk => ?_⟩
    rw [eq_of_key_eq hx hold (hxk.trans hkey)]
    exact hpkg
  · refine ⟨⟨⟨_, (hmem _).mpr (.inl rfl), rfl⟩, fun x hx _ => ⟨x, (hmem x).mpr (.inr hx), rfl⟩,
      fun y hy => ?_⟩, fun x hx hxk => absurd hxk (hfree x hx)⟩
    obtain rfl | hy := (hmem y).mp hy
    · exact .inl rfl
    · exact .inr ⟨hfree y hy, y, hy, rfl⟩

end Porch.Db
