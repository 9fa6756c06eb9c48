import Mathlib.Data.List.AList

/- Maps that a loop fills from a list: a later element takes the place of an earlier one. -/
namespace Go

variable {κ α : Type} [DecidableEq κ] {key : α → κ} {l : List α} {k : κ} {a : α}

def mapBy (key : α → κ) (l : List α) : AList fun _ : κ => α :=
  l.foldl (fun m a => m.insert (key a) a) ∅

theorem mapBy_lookup (h : (mapBy key l).lookup k = some a) : a ∈ l ∧ key a = k := by
  suffices hfold : ∀ m : AList fun _ : κ => α,
      (l.foldl (fun m a => m.insert (key a) a) m).lookup k = some a →
        a ∈ l ∧ key a = k ∨ m.lookup k = some a from (hfold ∅ h).resolve_right nofun
  clear h
  induction l with
  | nil => exact fun m h => .inr h
  | cons b l ih =>
    intro m h
    obtain ⟨ha, hk⟩ | hm := ih (m.insert (key b) b) h
    · exact .inl ⟨List.mem_cons_of_mem b ha, hk⟩
    · by_cases hkey : k = key b
      · subst hkey
        rw [AList.lookup_insert] at hm
        cases hm
        exact .inl ⟨List.mem_cons_self, rfl⟩
      · rw [AList.lookup_insert_ne hkey] at hm
        exact .inr hm

theorem mem_mapBy : k ∈ mapBy key l ↔ ∃ a ∈ l, key a = k := by
  suffices hfold : ∀ m : AList fun _ : κ => α,
      k ∈ l.foldl (fun m a => m.insert (key a) a) m ↔ k ∈ m ∨ ∃ a ∈ l, key a = k from
    (hfold ∅).trans (or_iff_right (AList.notMem_empty k))
  induction l with
  | nil => simp
  | cons b l ih =>
    intro m
    rw [List.foldl_cons, ih, AList.mem_insert]
    simp only [List.mem_cons, exists_eq_or_imp]
    rw [or_comm (a := k = key b), or_assoc, eq_comm (a := k)]

theorem mapBy_of_mem (key : α → κ) (ha : a ∈ l) :
    ∃ b ∈ l, (mapBy key l).lookup (key a) = some b ∧ key b = key a := by
  have hin : key a ∈ mapBy key l := mem_mapBy.mpr ⟨a, ha, rfl⟩
  obtain ⟨b, hb⟩ := Option.isSome_iff_exists.mp (AList.lookup_isSome.mpr hin)
  obtain ⟨hmem, hkey⟩ := mapBy_lookup hb
  exact ⟨b, hmem, hb, hkey⟩

end Go
