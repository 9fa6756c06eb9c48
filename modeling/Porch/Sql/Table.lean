import Mathlib

/- A table with a primary key: a list of rows no two of which have the same key,
   the uniqueness carried by the structure. The operations are what single
   statements do to the rows, over any row type and any key.

     INSERT                     insert (none on a duplicate key)
     UPDATE ... WHERE p         updateWhere p f
     DELETE ... WHERE p         deleteWhere p
     SELECT ... WHERE pk = k    lookup k
     SELECT MAX(f) ... WHERE p  maxWhere p f -/
namespace Sql

open List

variable {κ ρ : Type}

structure Table (key : ρ → κ) where
  rows : List ρ
  keys_nodup : (rows.map key).Nodup

namespace Table

variable {key : ρ → κ} (t : Table key)

def empty : Table key := ⟨[], by simp⟩

instance : Membership ρ (Table key) := ⟨fun t r => r ∈ t.rows⟩

theorem mem_def {r : ρ} : r ∈ t ↔ r ∈ t.rows := Iff.rfl

@[simp] theorem not_mem_empty {r : ρ} : r ∉ (empty : Table key) := by
  simp [mem_def, empty]

instance {P : ρ → Prop} [DecidablePred P] : Decidable (∀ r ∈ t, P r) :=
  inferInstanceAs (Decidable (∀ r ∈ t.rows, P r))

instance {P : ρ → Prop} [DecidablePred P] : Decidable (∃ r ∈ t, P r) :=
  inferInstanceAs (Decidable (∃ r ∈ t.rows, P r))

def lookup [DecidableEq κ] (k : κ) : Option ρ := t.rows.find? fun r => decide (key r = k)

/-- Adds a row, or fails when its key is taken. -/
def insert [DecidableEq κ] (r : ρ) : Option (Table key) :=
  if h : key r ∈ t.rows.map key then none
  else some ⟨r :: t.rows, by simpa using ⟨by simpa using h, t.keys_nodup⟩⟩

/-- Replaces the rows where `p` holds. The replacement keeps the key. -/
def updateWhere (p : ρ → Bool) (f : ρ → ρ) (hf : ∀ r, key (f r) = key r) : Table key :=
  ⟨t.rows.map fun r => if p r then f r else r, by
    have hkeys : (key ∘ fun r => if p r then f r else r) = key := by
      funext r
      by_cases hp : p r
      · simp [hp, hf]
      · simp [hp]
    rw [List.map_map, hkeys]
    exact t.keys_nodup⟩

/-- Writes `r` over the row with its key. -/
def set [DecidableEq κ] (r : ρ) : Table key :=
  ⟨t.rows.map fun x => if key x = key r then r else x, by
    have hkeys : (key ∘ fun x => if key x = key r then r else x) = key := by
      funext x
      by_cases hx : key x = key r <;> simp [hx]
    rw [List.map_map, hkeys]
    exact t.keys_nodup⟩

/-- Removes the rows where `p` holds. -/
def deleteWhere (p : ρ → Bool) : Table key :=
  ⟨t.rows.filter fun r => !p r, t.keys_nodup.sublist (List.filter_sublist.map key)⟩

/-- `SELECT MAX(f) WHERE p`, NULL when no row qualifies. -/
def maxWhere (p : ρ → Bool) (f : ρ → Int) : Option Int :=
  ((t.rows.filter p).map f).max?

/-! Membership after each operation -/

variable {t} {r x : ρ} {k : κ}

theorem eq_of_key_eq (hr : r ∈ t) (hx : x ∈ t) (h : key r = key x) : r = x :=
  inj_on_of_nodup_map t.keys_nodup hr hx h

theorem lookup_eq_some [DecidableEq κ] : t.lookup k = some r ↔ r ∈ t ∧ key r = k := by
  constructor
  · intro h
    exact ⟨mem_of_find?_eq_some h, by simpa using find?_some h⟩
  · rintro ⟨hr, rfl⟩
    cases hx : t.lookup (key r) with
    | none =>
      have := find?_eq_none.mp hx r hr
      simp at this
    | some x =>
      have hxr : key x = key r := by simpa using find?_some hx
      rw [eq_of_key_eq (mem_of_find?_eq_some hx) hr hxr]

theorem lookup_eq_none [DecidableEq κ] : t.lookup k = none ↔ ∀ r ∈ t, key r ≠ k := by
  simp [lookup, find?_eq_none, mem_def]

variable {t' : Table key} {p : ρ → Bool} {f : ρ → Int}

theorem insert_eq_some [DecidableEq κ] :
    t.insert r = some t' ↔ (∀ x ∈ t, key x ≠ key r) ∧ t'.rows = r :: t.rows := by
  have hkey : key r ∈ t.rows.map key ↔ ¬ ∀ x ∈ t, key x ≠ key r := by simp [mem_def]
  unfold insert
  split
  · next h => simp [hkey.mp h]
  · next h =>
    have hfree : ∀ x ∈ t, key x ≠ key r := not_not.mp (hkey.not.mp h)
    simp only [Option.some.injEq]
    constructor
    · rintro rfl
      exact ⟨hfree, rfl⟩
    · rintro ⟨-, hrows⟩
      cases t'
      simp_all

theorem exists_insert [DecidableEq κ] (h : ∀ x ∈ t, key x ≠ key r) : ∃ t', t.insert r = some t' := by
  refine Option.ne_none_iff_exists'.mp ?_
  simpa [insert, mem_def] using h

theorem mem_insert [DecidableEq κ] (h : t.insert r = some t') : x ∈ t' ↔ x = r ∨ x ∈ t := by
  rw [mem_def, (insert_eq_some.mp h).2, mem_cons, mem_def]

theorem mem_updateWhere {f : ρ → ρ} {hf : ∀ r, key (f r) = key r} :
    x ∈ t.updateWhere p f hf ↔ ∃ r ∈ t, (if p r then f r else r) = x := by
  simp [mem_def, updateWhere]

theorem mem_set [DecidableEq κ] (hk : ∃ y ∈ t, key y = key r) :
    x ∈ t.set r ↔ x = r ∨ (x ∈ t ∧ key x ≠ key r) := by
  obtain ⟨y, hy, hyr⟩ := hk
  simp only [mem_def, set, mem_map]
  constructor
  · rintro ⟨z, hz, rfl⟩
    by_cases hzr : key z = key r
    · exact .inl (by simp [hzr])
    · exact .inr (by simp [hzr, hz])
  · rintro (rfl | ⟨hx, hxr⟩)
    · exact ⟨y, hy, by simp [hyr]⟩
    · exact ⟨x, hx, by simp [hxr]⟩

@[simp] theorem mem_deleteWhere : x ∈ t.deleteWhere p ↔ x ∈ t ∧ ¬ p x := by
  simp [mem_def, deleteWhere]

theorem maxWhere_eq_some {m : Int} : t.maxWhere p f = some m ↔
      (∃ r ∈ t, p r ∧ f r = m) ∧ ∀ r ∈ t, p r → f r ≤ m := by
  rw [maxWhere, max?_eq_some_iff]
  constructor
  · rintro ⟨hm, hmax⟩
    obtain ⟨r, hr, rfl⟩ := mem_map.mp hm
    obtain ⟨hr, hp⟩ := mem_filter.mp hr
    refine ⟨⟨r, hr, hp, rfl⟩, fun x hx hpx => hmax _ (mem_map_of_mem ?_)⟩
    exact mem_filter.mpr ⟨hx, hpx⟩
  · rintro ⟨⟨r, hr, hp, rfl⟩, hmax⟩
    refine ⟨mem_map_of_mem (mem_filter.mpr ⟨hr, hp⟩), fun m hm => ?_⟩
    obtain ⟨x, hx, rfl⟩ := mem_map.mp hm
    obtain ⟨hx, hpx⟩ := mem_filter.mp hx
    exact hmax x hx hpx

theorem maxWhere_eq_none : t.maxWhere p f = none ↔ ∀ r ∈ t, ¬ p r := by
  rw [maxWhere, max?_eq_none_iff]
  simp [mem_def]

theorem filterMap_eq_singleton {β : Type} {g : ρ → Option β} {b : β} (hr : r ∈ t)
    (hb : g r = some b) (hone : ∀ x ∈ t, (g x).isSome → x = r) : t.rows.filterMap g = [b] := by
  have hnodup : t.rows.Nodup := Nodup.of_map key t.keys_nodup
  obtain ⟨l, l', hrows⟩ := append_of_mem hr
  rw [hrows] at hnodup
  -- no other row answers
  have hnil : ∀ m : List ρ, (∀ x ∈ m, x ∈ t ∧ x ≠ r) → m.filterMap g = [] := by
    intro m hm
    refine filterMap_eq_nil_iff.mpr fun x hx => ?_
    by_contra hne
    exact (hm x hx).2 (hone x (hm x hx).1 (Option.isSome_iff_ne_none.mpr hne))
  rw [hrows, filterMap_append, filterMap_cons_some hb, hnil l, hnil l', nil_append]
  · intro x hx
    refine ⟨by rw [mem_def, hrows]; simp [hx], ?_⟩
    rintro rfl
    exact (nodup_cons.mp (nodup_append.mp hnodup).2.1).1 hx
  · intro x hx
    refine ⟨by rw [mem_def, hrows]; simp [hx], ?_⟩
    rintro rfl
    exact (nodup_append.mp hnodup).2.2 x hx x mem_cons_self rfl

end Table

end Sql
