import Porch.Db.TriggerSpec
import Porch.Sql.GroupMax

/- The `latest` column over whole runs of the `package_revisions` table. A run
   starts from the empty table and applies accepted writes: inserts, updates and
   upserts of the columns that `pkgRevWriteToDB` and `pkgRevUpdateDB` write,
   deletes, and the cascade from a package.

   The invariant `Consistent` is the abstract one of `Sql.FlagsMax` on the rows
   with a positive revision, together with what the other rows are. It holds in
   every state of a run whose writes are all `Safe` (`latest_is_greatest`). The
   triggers also accept writes that are not: a row that enters as
   DeletionProposed above all others never gets the flag
   (`deletionProposed_insert_not_latest`). -/
namespace Porch.Db

open Go Sql Table

/-- A write of the cache to `package_revisions`. -/
inductive Write where
  | insert (r : PkgRevRow)
  | update (r : PkgRevRow)
  | upsert (r : PkgRevRow)
  | delete (k : Str × Str)
  | deletePackage (namesp packageName : Str)

def Write.apply (t : PkgRevTable) : Write → Except DbError PkgRevTable
  | .insert r => insertRow t r
  | .update r => updateRow t r
  | .upsert r => if r.revision = -1 then upsertRow t r else updateRow t r
  | .delete k => deleteRow t k
  | .deletePackage namesp packageName => .ok (deletePackageRows t namesp packageName)

/-- A row may get a positive revision as Published, or as DeletionProposed below a
    revision that its package already has. -/
def MayEnter (t : PkgRevTable) (r : PkgRevRow) : Prop :=
  r.lifecycle = .published ∨
    r.lifecycle = .deletionProposed ∧ ∃ x ∈ t, samePackage x r ∧ r.revision < x.revision

/-- The writes under which `latest` stays right. -/
def Safe (t : PkgRevTable) : Write → Prop
  | .insert r => 0 < r.revision → MayEnter t r
  | .update r | .upsert r => ∀ old ∈ t, old.key = r.key →
      (old.revision = -1 ↔ r.revision = -1) ∧
        (old.revision = 0 → 0 < r.revision → MayEnter t r)
  | .delete _ | .deletePackage _ _ => True

/-- The tables that a run of accepted writes reaches from the empty table, when
    each write meets `P` in the state before it. -/
inductive Reaches (P : PkgRevTable → Write → Prop) : PkgRevTable → Prop where
  | empty : Reaches P .empty
  | step {t t' : PkgRevTable} (w : Write) :
      Reaches P t → P t w → w.apply t = .ok t' → Reaches P t'

/-- Every package with a published numbered revision has exactly one row with
    `latest`, and that row is the one with the greatest revision. -/
def LatestIsGreatest (t : PkgRevTable) : Prop :=
  ∀ r ∈ t, 0 < r.revision → lifecycleIsPublished r.lifecycle →
    ∃ m ∈ t, samePackage m r ∧ m.latest ∧
      ∀ x ∈ t, samePackage x r → x ≠ m → x.latest = false ∧ x.revision < m.revision

/-! The invariant -/

def packageOf (r : PkgRevRow) : Str × Str := (r.namesp, r.packageName)

def numbered (t : PkgRevTable) : Set PkgRevRow := {r | r ∈ t ∧ 0 < r.revision}

/-- What a row is at each kind of revision. -/
def Settled (r : PkgRevRow) : Prop :=
  r.revision = -1 ∧ lifecycleIsPublished r.lifecycle ∧ r.latest = false ∨
    r.revision = 0 ∧ ¬ lifecycleIsPublished r.lifecycle ∧ r.latest = false ∨
    0 < r.revision ∧ lifecycleIsPublished r.lifecycle

structure Consistent (t : PkgRevTable) : Prop where
  settled : ∀ r ∈ t, Settled r
  flags : FlagsMax packageOf PkgRevRow.revision PkgRevRow.latest (numbered t)

variable {t t' : PkgRevTable} {r old new x y : PkgRevRow}

theorem samePackage_iff_packageOf : samePackage x y ↔ packageOf x = packageOf y := by
  rw [samePackage_iff, packageOf, packageOf, Prod.mk.injEq]

theorem Settled.latest_false (h : Settled r) (hrev : r.revision ≤ 0) : r.latest = false := by
  obtain ⟨-, -, hl⟩ | ⟨-, -, hl⟩ | ⟨hpos, -⟩ := h
  · exact hl
  · exact hl
  · omega

theorem finite_numbered (t : PkgRevTable) : (numbered t).Finite :=
  (List.finite_toSet t.rows).subset fun _ hr => hr.1

theorem Consistent.latestIsGreatest (h : Consistent t) : LatestIsGreatest t := by
  intro r hr hpos _
  obtain ⟨m, hm, hgroup, hflag⟩ := h.flags.exists_flag (finite_numbered t) ⟨hr, hpos⟩
  refine ⟨m, hm.1, samePackage_iff_packageOf.mpr hgroup, hflag, fun x hx hxr hne => ?_⟩
  have hxm : packageOf x = packageOf m := (samePackage_iff_packageOf.mp hxr).trans hgroup.symm
  by_cases hxpos : 0 < x.revision
  · obtain ⟨hlt, hno⟩ := h.flags.lt_of_flag hm ⟨hx, hxpos⟩ hxm hflag hne
    exact ⟨by simpa using hno, hlt⟩
  · have hmpos : 0 < m.revision := hm.2
    exact ⟨(h.settled x hx).latest_false (by omega), by omega⟩

theorem consistent_empty : Consistent .empty where
  settled := fun r hr => absurd hr not_mem_empty
  flags := by
    have : numbered .empty = ∅ := Set.eq_empty_of_forall_notMem fun r hr =>
      not_mem_empty hr.1
    rw [this]
    exact FlagsMax.of_empty

theorem numbered_insert (hpos : 0 < r.revision) (hmem : ∀ x ∈ t', x = r ∨ x ∈ t) (hr : r ∈ t')
    (hkeep : ∀ x ∈ t, 0 < x.revision → x ∈ t') : numbered t' = insert r (numbered t) := by
  ext x
  constructor
  · intro ⟨hx, hxpos⟩
    exact (hmem x hx).imp_right fun hx => ⟨hx, hxpos⟩
  · rintro (rfl | hx)
    · exact ⟨hr, hpos⟩
    · exact ⟨hkeep x hx.1 hx.2, hx.2⟩

theorem numbered_image {f : PkgRevRow → PkgRevRow} (hf : ∀ x ∈ t, (f x).revision = x.revision)
    (hrows : ∀ x, x ∈ t' ↔ ∃ y ∈ t, f y = x) : numbered t' = f '' numbered t := by
  ext x
  constructor
  · intro ⟨hx, hpos⟩
    obtain ⟨y, hy, rfl⟩ := (hrows x).mp hx
    exact ⟨y, ⟨hy, hf y hy ▸ hpos⟩, rfl⟩
  · rintro ⟨y, ⟨hy, hpos⟩, rfl⟩
    exact ⟨(hrows _).mpr ⟨y, hy, rfl⟩, (hf y hy).symm ▸ hpos⟩

theorem Settled.setLatest {b : Bool} (h : Settled x) (hb : x.revision ≤ 0 → b = false) :
    Settled { x with latest := b } := by
  obtain ⟨hrev, hpub, -⟩ | ⟨hrev, hpub, -⟩ | ⟨hrev, hpub⟩ := h
  · exact .inl ⟨hrev, hpub, hb (by omega)⟩
  · exact .inr (.inl ⟨hrev, hpub, hb (by omega)⟩)
  · exact .inr (.inr ⟨hrev, hpub⟩)

/-- A row without a number comes in, and the numbered rows stay. -/
theorem Consistent.unnumbered (h : Consistent t) (hr : Settled r) (hrev : r.revision ≤ 0)
    (hmem : ∀ x ∈ t', x = r ∨ x ∈ t) (hkeep : ∀ x ∈ t, 0 < x.revision → x ∈ t') :
    Consistent t' := by
  refine ⟨fun x hx => ?_, ?_⟩
  · obtain rfl | hx := hmem x hx
    · exact hr
    · exact h.settled x hx
  · have hnum : numbered t' = numbered t := by
      ext x
      refine ⟨fun ⟨hx, hpos⟩ => ?_, fun hx => ⟨hkeep x hx.1 hx.2, hx.2⟩⟩
      obtain rfl | hx := hmem x hx
      · omega
      · exact ⟨hx, hpos⟩
    rw [hnum]
    exact h.flags

/-! A row gets a positive revision -/

/-- The trigger's change to a row when `new` becomes the latest one. -/
def demote (new x : PkgRevRow) : PkgRevRow :=
  if samePackage x new && x.latest then { x with latest := false } else x

theorem demote_eq (new x : PkgRevRow) :
    demote new x = { x with latest := x.latest && !samePackage x new } := by
  cases x with
  | mk namesp name packageName revision labels updated lifecycle extCommit latest tasks pushed =>
    unfold demote
    cases latest <;> cases samePackage _ new <;> rfl

theorem demote_revision (new x : PkgRevRow) : (demote new x).revision = x.revision := by
  rw [demote_eq]

theorem Settled.demote (h : Settled x) : Settled (demote new x) := by
  rw [demote_eq]
  exact h.setLatest fun hrev => by simp [h.latest_false hrev]

theorem mem_demoteAll_iff : x ∈ demoteAll t new ↔ ∃ y ∈ t, demote new y = x := mem_demoteAll

theorem MayEnter.exists_greater (h : MayEnter t new) (hpos : 0 < new.revision)
    (hb : ¬ becomesLatest t new) : ∃ z ∈ numbered t, samePackage z new ∧ new.revision < z.revision := by
  obtain hpub | ⟨-, z, hz, hsame, hlt⟩ := h
  · rw [becomesLatest_iff] at hb
    simp only [hpub, hpos, true_and, not_forall, not_le] at hb
    obtain ⟨z, hz, hsame, hzpos, hlt⟩ := hb
    exact ⟨z, ⟨hz, hzpos⟩, hsame, hlt⟩
  · exact ⟨z, ⟨hz, by omega⟩, hsame, hlt⟩

theorem MayEnter.published (h : MayEnter t new) : lifecycleIsPublished new.lifecycle := by
  obtain hl | ⟨hl, -⟩ := h
  · rw [hl]
    rfl
  · rw [hl]
    rfl

/-- **A row that enters the numbered revisions keeps the invariant.** It covers the
    insert and the update from revision 0: `t'` holds the row as the trigger
    returns it and every numbered row that the trigger leaves. -/
theorem Consistent.enter {t₁ : PkgRevTable} {old' : Option PkgRevRow} {r₁ : PkgRevRow}
    (h : Consistent t) (hpos : 0 < new.revision) (hlat : new.latest = false)
    (hmay : MayEnter t new) (hv : rowCheck old' new = .ok .assignRevision)
    (hfire : fireColumns t old' new = .ok (t₁, r₁)) (hmem : ∀ x ∈ t', x = r₁ ∨ x ∈ t₁)
    (hr₁ : r₁ ∈ t') (hkeep : ∀ x ∈ t₁, 0 < x.revision → x ∈ t') : Consistent t' := by
  obtain ⟨hfresh, hcases⟩ := fireColumns_assign hv hfire
  obtain ⟨hb, rfl, rfl⟩ | ⟨hb, ht₁, hr⟩ := hcases
  · -- the new row is the greatest, and the trigger takes the flag from the others
    have hmax := (becomesLatest_iff.mp hb).2.2
    refine ⟨fun x hx => ?_, ?_⟩
    · obtain rfl | hx := hmem x hx
      · exact .inr (.inr ⟨hpos, hmay.published⟩)
      · obtain ⟨y, hy, rfl⟩ := mem_demoteAll_iff.mp hx
        exact (h.settled y hy).demote
    · rw [numbered_insert (r := { new with latest := true }) hpos hmem hr₁ hkeep,
        numbered_image (fun x _ => demote_revision new x) fun x => mem_demoteAll_iff]
      refine h.flags.insert_max (fun x hx => ?_) (fun x hx => ?_) rfl (fun x hx hgroup => ?_)
      · rw [demote_eq]
        exact ⟨rfl, rfl⟩
      · rw [demote_eq]
        have : samePackage x new ↔ packageOf x = packageOf new := samePackage_iff_packageOf
        have hr : packageOf { new with latest := true } = packageOf new := rfl
        simp [hr, ← this]
      · have hsame : samePackage x new := samePackage_iff_packageOf.mpr hgroup
        have hle := hmax x hx.1 hsame hx.2
        have hne := hfresh x hx.1 hsame
        exact lt_of_le_of_ne hle hne
  · -- a greater numbered row keeps the flag
    subst t₁ r₁
    obtain ⟨z, hz, hsame, hlt⟩ := hmay.exists_greater hpos hb
    refine ⟨fun x hx => ?_, ?_⟩
    · obtain rfl | hx := hmem x hx
      · exact .inr (.inr ⟨hpos, hmay.published⟩)
      · exact h.settled x hx
    · rw [numbered_insert hpos hmem hr₁ hkeep]
      refine h.flags.insert_low (by simp [hlat]) (fun x hx hgroup => ?_)
        ⟨z, hz, samePackage_iff_packageOf.mp hsame, hlt⟩
      exact hfresh x hx.1 (samePackage_iff_packageOf.mpr hgroup)

/-! One write -/

theorem Consistent.insertRow (h : Consistent t) (hsafe : 0 < r.revision → MayEnter t r)
    (hok : insertRow t r = .ok t') : Consistent t' := by
  obtain ⟨t₁, r₁, hfire, -, hmem⟩ := insertRow_ok hok
  obtain ⟨v, hv⟩ := fireColumns_row_ok hfire
  have hkeep : ∀ x ∈ t₁, 0 < x.revision → x ∈ t' := fun x hx _ => (hmem x).mpr (.inr hx)
  obtain ⟨rfl, hrev, hpub⟩ | ⟨rfl, hrev, hpub⟩ | ⟨rfl, hpos, -⟩ := rowCheck_insert.mp hv
  · rw [fireColumns_return hv] at hfire
    cases hfire
    have hrev' : r.revision = -1 := hrev
    exact h.unnumbered (.inl ⟨hrev, hpub, rfl⟩) (by simp [hrev']) (fun x => (hmem x).mp) hkeep
  · rw [fireColumns_return hv] at hfire
    cases hfire
    have hrev' : r.revision = 0 := hrev
    exact h.unnumbered (.inr (.inl ⟨hrev, hpub, rfl⟩)) (by simp [hrev']) (fun x => (hmem x).mp)
      hkeep
  · have hmay : MayEnter t { r with latest := false } := hsafe hpos
    exact h.enter hpos rfl hmay hv hfire (fun x => (hmem x).mp) ((hmem r₁).mpr (.inl rfl)) hkeep

section

variable (h : Consistent t) (hold : old ∈ t) (hkey : r.key = old.key)
include h hold hkey

theorem Consistent.overwrite_unnumbered
    (hr : Settled r) (hrev : r.revision ≤ 0) (hrev' : old.revision ≤ 0)
    (hmem : ∀ x, x ∈ t' ↔ x = r ∨ x ∈ t ∧ x.key ≠ r.key) : Consistent t' := by
  refine h.unnumbered hr hrev (fun x hx => ((hmem x).mp hx).imp_right And.left) fun x hx hpos => ?_
  refine (hmem x).mpr (.inr ⟨hx, fun hk => ?_⟩)
  have hxold : x = old := eq_of_key_eq hx hold (hk.trans hkey)
  rw [hxold] at hpos
  omega

/-- A numbered row that is overwritten at its own revision. -/
theorem Consistent.overwrite_numbered
    (hpkg : packageOf r = packageOf old) (hrev : r.revision = old.revision)
    (hlat : r.latest = old.latest) (hpos : 0 < r.revision)
    (hpub : lifecycleIsPublished r.lifecycle)
    (hmem : ∀ x, x ∈ t' ↔ x = r ∨ x ∈ t ∧ x.key ≠ r.key) : Consistent t' := by
  let f : PkgRevRow → PkgRevRow := fun x => if x.key = r.key then r else x
  have hf : ∀ x ∈ t, f x = r ∧ x = old ∨ f x = x := by
    intro x hx
    by_cases hk : x.key = r.key
    · exact .inl ⟨if_pos hk, eq_of_key_eq hx hold (hk.trans hkey)⟩
    · exact .inr (if_neg hk)
  have hrank : ∀ x ∈ t, packageOf (f x) = packageOf x ∧ (f x).revision = x.revision := by
    intro x hx
    obtain ⟨hfx, rfl⟩ | hfx := hf x hx
    · rw [hfx]
      exact ⟨hpkg, hrev⟩
    · rw [hfx]
      exact ⟨rfl, rfl⟩
  refine ⟨fun x hx => ?_, ?_⟩
  · obtain rfl | ⟨hx, -⟩ := (hmem x).mp hx
    · exact .inr (.inr ⟨hpos, hpub⟩)
    · exact h.settled x hx
  · have hrows : ∀ x, x ∈ t' ↔ ∃ y ∈ t, f y = x := by
      intro x
      rw [hmem]
      constructor
      · rintro (rfl | ⟨hx, hk⟩)
        · exact ⟨old, hold, if_pos hkey.symm⟩
        · exact ⟨x, hx, if_neg hk⟩
      · rintro ⟨y, hy, rfl⟩
        by_cases hk : y.key = r.key
        · exact .inl (if_pos hk)
        · have hfy : f y = y := if_neg hk
          rw [hfy]
          exact .inr ⟨hy, hk⟩
    rw [numbered_image (fun x hx => (hrank x hx).2) hrows]
    refine h.flags.map (fun x hx => hrank x hx.1) (fun x hx => ?_)
    obtain ⟨hfx, rfl⟩ | hfx := hf x hx.1
    · rw [hfx, hlat]
    · rw [hfx]

theorem Consistent.overwriteRow (hminus : old.revision = -1 ↔ r.revision = -1)
    (hmay : old.revision = 0 → 0 < r.revision → MayEnter t r)
    (hok : overwriteRow t old r = .ok t') : Consistent t' := by
  obtain ⟨t₁, r₁, hfire, -, hmem⟩ := overwriteRow_ok hkey hok
  obtain ⟨v, hv⟩ := fireColumns_row_ok hfire
  have hset := h.settled old hold
  have hkey₁ : r₁.key = old.key := (fireColumns_key hfire).trans hkey
  obtain ⟨hpkg, -, -, hcases⟩ := rowCheck_update.mp hv
  obtain ⟨rfl, hrev, hpub, -⟩ | ⟨rfl, hrev, hrev', hpub, -⟩ | ⟨rfl, hpos, hrev, -, hlc⟩ |
    ⟨rfl, hpos, hrev, -, -⟩ := hcases
  · -- revision -1 stays revision -1
    rw [fireColumns_return hv] at hfire
    cases hfire
    have hr : r.revision = -1 := hrev.elim id hminus.mp
    have ho : old.revision = -1 := hminus.mpr hr
    exact h.overwrite_unnumbered hold hkey₁ (.inl ⟨hr, hpub, hset.latest_false (by omega)⟩)
      (by simp [hr]) (by omega) hmem
  · -- a draft stays a draft
    rw [fireColumns_return hv] at hfire
    cases hfire
    have hr : r.revision = 0 := hrev
    exact h.overwrite_unnumbered hold hkey₁ (.inr (.inl ⟨hr, hpub, hset.latest_false (by omega)⟩))
      (by simp [hr]) (by omega) hmem
  · -- a numbered revision keeps its number
    rw [fireColumns_return hv] at hfire
    cases hfire
    have hns : r.namesp = old.namesp := congrArg Prod.fst hkey
    have hpub : lifecycleIsPublished r.lifecycle := by
      obtain hl | hp := hlc
      · obtain ⟨ho, -, -⟩ | ⟨ho, -, -⟩ | ⟨-, hp⟩ := hset
        · have : 0 < r.revision := hpos
          have : r.revision = old.revision := hrev
          omega
        · have : 0 < r.revision := hpos
          have : r.revision = old.revision := hrev
          omega
        · have hl' : r.lifecycle = old.lifecycle := hl
          rw [hl']
          exact hp
      · exact hp
    refine h.overwrite_numbered hold hkey₁ ?_ hrev rfl hpos hpub hmem
    show (r.namesp, r.packageName) = (old.namesp, old.packageName)
    rw [hns, show r.packageName = old.packageName from hpkg]
  · -- a proposed draft gets its number
    have hmay' : MayEnter t { r with latest := old.latest } := hmay hrev hpos
    have hlat : old.latest = false := hset.latest_false (by omega)
    refine h.enter hpos hlat hmay' hv hfire (fun x hx => ?_) ((hmem r₁).mpr (.inl rfl)) ?_
    · exact ((hmem x).mp hx).imp_right And.left
    · intro x hx hxpos
      refine (hmem x).mpr (.inr ⟨hx, fun hk => ?_⟩)
      -- only the overwritten draft has the key, and it has no number
      obtain ⟨y, hy, hyx⟩ : ∃ y ∈ t, y.key = x.key ∧ y.revision = x.revision := by
        obtain ⟨ht, -⟩ | ⟨-, ht, -⟩ := fireColumns_cases hfire
        · exact ⟨x, ht ▸ hx, rfl, rfl⟩
        · obtain ⟨y, hy, rfl⟩ := mem_demoteAll_iff.mp (ht ▸ hx)
          refine ⟨y, hy, ?_, (demote_revision _ y).symm⟩
          rw [demote_eq]
          rfl
      have hyold : y = old := eq_of_key_eq hy hold (by rw [hyx.1, hk, hkey₁])
      rw [hyold] at hyx
      omega

end

def promote (old : PkgRevRow) (m : Int) (x : PkgRevRow) : PkgRevRow :=
  if samePackage x old && x.revision = m && lifecycleIsPublished x.lifecycle then
    { x with latest := true }
  else x

theorem promote_eq (old : PkgRevRow) (m : Int) (x : PkgRevRow) :
    promote old m x = { x with
      latest := x.latest || (samePackage x old && x.revision = m &&
        lifecycleIsPublished x.lifecycle) } := by
  unfold promote
  split
  · next h => simp [h]
  · next h => simp [Bool.eq_false_iff.mpr h]

theorem Settled.promote {m : Int} (h : Settled x) (hm : 0 < m) : Settled (promote old m x) := by
  rw [promote_eq]
  refine h.setLatest fun hrev => ?_
  have hne : x.revision ≠ m := by omega
  simp [h.latest_false hrev, hne]

theorem Consistent.deleteRow {k : Str × Str} (h : Consistent t) (hok : deleteRow t k = .ok t') :
    Consistent t' := by
  obtain ⟨rfl, -⟩ | ⟨old, hold, hkey, hfire⟩ := deleteRow_ok hok
  · exact h
  · have hmem : ∀ x, x ∈ t.deleteWhere (·.key = k) ↔ x ∈ t ∧ x ≠ old := by
      intro x
      rw [mem_deleteWhere]
      refine and_congr_right fun hx => ?_
      simp only [decide_eq_true_eq]
      refine not_congr ⟨fun hk => eq_of_key_eq hx hold (hk.trans hkey.symm), ?_⟩
      intro hx
      rw [hx, hkey]
    have hleft : numbered t \ {old} = numbered (t.deleteWhere (·.key = k)) := by
      ext x
      show (x ∈ t ∧ 0 < x.revision) ∧ x ≠ old ↔ x ∈ t.deleteWhere (·.key = k) ∧ 0 < x.revision
      rw [hmem]
      exact and_right_comm
    obtain ⟨hnone, rfl⟩ | ⟨m, hsome, hrows⟩ := fireDelete_ok hfire
    · -- no numbered revision is left in the package
      have hnone' := maxWhere_eq_none.mp hnone
      refine ⟨fun x hx => h.settled x ((hmem x).mp hx).1, ?_⟩
      have hflags := h.flags.remove (r := old) (f := id) (fun x _ => ⟨rfl, rfl⟩) fun x hx => ?_
      · rw [Set.image_id, hleft] at hflags
        exact hflags
      · refine ⟨Or.inl, fun hor => ?_⟩
        obtain hflag | ⟨hgroup, -⟩ := hor
        · exact hflag
        · rw [hleft] at hx
          have hsame : samePackage x old := samePackage_iff_packageOf.mpr hgroup
          exact absurd (by simp [hsame, hx.2]) (hnone' x hx.1)
    · -- the greatest one left gets the flag
      obtain ⟨⟨z, hz, hzp, hzm⟩, hmax⟩ := maxWhere_eq_some.mp hsome
      simp only [Bool.and_eq_true, decide_eq_true_eq] at hzp hmax
      have hmpos : 0 < m := hzm ▸ hzp.2
      have hrows' : ∀ x, x ∈ t' ↔ ∃ y ∈ t.deleteWhere (·.key = k), promote old m y = x := hrows
      have hnum : numbered t' = promote old m '' (numbered t \ {old}) := by
        rw [hleft]
        exact numbered_image (fun x _ => by rw [promote_eq]) hrows'
      refine ⟨fun x hx => ?_, ?_⟩
      · obtain ⟨y, hy, rfl⟩ := (hrows' x).mp hx
        exact (h.settled y ((hmem y).mp hy).1).promote hmpos
      · rw [hnum]
        refine h.flags.remove (fun x _ => ?_) fun x hx => ?_
        · rw [promote_eq]
          exact ⟨rfl, rfl⟩
        · have hpub : lifecycleIsPublished x.lifecycle := by
            have hpos : 0 < x.revision := hx.1.2
            obtain ⟨hrev, -, -⟩ | ⟨hrev, -, -⟩ | ⟨-, hpub⟩ := h.settled x hx.1.1
            · omega
            · omega
            · exact hpub
          rw [hleft] at hx ⊢
          rw [promote_eq, ← samePackage_iff_packageOf]
          simp only [hpub, Bool.and_true, Bool.or_eq_true, Bool.and_eq_true, decide_eq_true_eq]
          refine or_congr_right (and_congr_right fun hsame => ?_)
          constructor
          · intro hxm y hy hgroup
            rw [hxm]
            exact hmax y hy.1 ⟨samePackage_iff_packageOf.mpr hgroup, hy.2⟩
          · intro hall
            have hle := hmax x hx.1 ⟨hsame, hx.2⟩
            have hge := hall z ⟨hz, hzp.2⟩ (samePackage_iff_packageOf.mp hzp.1)
            omega

theorem Consistent.deletePackageRows (h : Consistent t) (namesp packageName : Str) :
    Consistent (deletePackageRows t namesp packageName) := by
  have hmem : ∀ x, x ∈ Db.deletePackageRows t namesp packageName ↔
      x ∈ t ∧ packageOf x ≠ (namesp, packageName) := by
    intro x
    rw [Db.deletePackageRows, mem_deleteWhere, packageOf]
    simp
  refine ⟨fun x hx => h.settled x ((hmem x).mp hx).1, ?_⟩
  have hnum : numbered (Db.deletePackageRows t namesp packageName) =
      {x ∈ numbered t | packageOf x ≠ (namesp, packageName)} := by
    ext x
    show x ∈ Db.deletePackageRows t namesp packageName ∧ _ ↔ (x ∈ t ∧ _) ∧ _
    rw [hmem]
    exact and_right_comm
  rw [hnum]
  exact h.flags.filter_group fun g => g ≠ (namesp, packageName)

/-! Runs -/

theorem Consistent.step (h : Consistent t) (w : Write) (hsafe : Safe t w)
    (hok : w.apply t = .ok t') : Consistent t' := by
  cases w with
  | insert r => exact h.insertRow hsafe hok
  | update r =>
    obtain ⟨old, hold, hkey, hover⟩ := updateRow_ok hok
    obtain ⟨hminus, hmay⟩ := hsafe old hold hkey.symm
    exact h.overwriteRow hold hkey hminus hmay hover
  | upsert r =>
    simp only [Write.apply] at hok
    split at hok
    · next hrev =>
      obtain ⟨hpub, ⟨old, hold, hkey, hover⟩ | ⟨-, hmem⟩⟩ := upsertRow_ok hrev hok
      · obtain ⟨hminus, hmay⟩ := hsafe old hold hkey.symm
        exact h.overwriteRow hold hkey hminus hmay hover
      · have hset : Settled { r with latest := false } := .inl ⟨hrev, hpub, rfl⟩
        exact h.unnumbered hset (by simp [hrev]) (fun x => (hmem x).mp) fun x hx _ =>
          (hmem x).mpr (.inr hx)
    · obtain ⟨old, hold, hkey, hover⟩ := updateRow_ok hok
      obtain ⟨hminus, hmay⟩ := hsafe old hold hkey.symm
      exact h.overwriteRow hold hkey hminus hmay hover
  | delete k => exact h.deleteRow hok
  | deletePackage namesp packageName =>
    cases hok
    exact h.deletePackageRows namesp packageName

theorem Reaches.consistent (h : Reaches Safe t) : Consistent t := by
  induction h with
  | empty => exact consistent_empty
  | step w _ hsafe hok ih => exact ih.step w hsafe hok

/-- **In every state that safe writes reach, `latest` marks the greatest
    revision.** -/
theorem latest_is_greatest (h : Reaches Safe t) : LatestIsGreatest t :=
  h.consistent.latestIsGreatest

/-- Revision `n` of one package, at workspace `ws`. -/
def sampleRow (ws : String) (n : Int) (l : Lifecycle) (latest : Bool) : PkgRevRow :=
  { namesp := "ns"
    name := "repo.pkg." ++ ws.toList
    packageName := "repo.pkg"
    revision := n
    lifecycle := l
    latest := latest }

theorem latest_is_greatest_after_two_publishes :
    LatestIsGreatest
      ⟨[sampleRow "v2" 2 .published true, sampleRow "v1" 1 .published false], by decide⟩ := by
  have h₁ : Reaches Safe ⟨[sampleRow "v1" 1 .published true], by decide⟩ :=
    .step (.insert (sampleRow "v1" 1 .published false)) .empty (fun _ => .inl rfl) rfl
  exact latest_is_greatest
    (.step (.insert (sampleRow "v2" 2 .published false)) h₁ (fun _ => .inl rfl) rfl)

/-- Without the condition it fails after one accepted insert: a first revision
    that enters as DeletionProposed is never marked. -/
theorem deletionProposed_insert_not_latest :
    ¬ ∀ t, Reaches (fun _ _ => True) t → LatestIsGreatest t := by
  intro h
  let r := sampleRow "v1" 1 .deletionProposed false
  have hrun : Reaches (fun _ _ => True) ⟨[r], by decide⟩ :=
    .step (.insert r) .empty trivial rfl
  obtain ⟨m, hm, -, hlat, -⟩ := h _ hrun r (List.mem_singleton.mpr rfl) (by decide) rfl
  rw [List.mem_singleton.mp hm] at hlat
  cases hlat

end Porch.Db
