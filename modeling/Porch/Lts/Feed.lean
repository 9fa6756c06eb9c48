import Mathlib.Data.List.Basic
import Mathlib.Data.List.Nodup

/- Feeds of changes to entries under keys. An event says what there is under at most one
   key from then on, so that what there is under a key after some events is what the last
   one about it says, and what was there before only if there is none
   (`value_of_touches`, `value_of_not_touches`). Entries with distinct keys are a list that
   is changed in the same way (`lookup_put`, `lookup_drop`). -/
namespace Feed

section Events

variable {ε κ α : Type} (effect : ε → Option (κ × Option α))

def Touches (k : κ) (es : List ε) : Prop := ∃ e ∈ es, ∃ v, effect e = some (k, v)

section Touches

variable {effect} {k : κ} {e : ε} {es es' : List ε}

@[simp] theorem not_touches_nil : ¬ Touches effect k [] := by
  simp [Touches]

@[simp] theorem touches_cons : Touches effect k (e :: es) ↔ (∃ v, effect e = some (k, v)) ∨ Touches effect k es := by
  simp [Touches]

@[simp] theorem touches_append : Touches effect k (es ++ es') ↔ Touches effect k es ∨ Touches effect k es' := by
  simp [Touches, or_and_right, exists_or]

end Touches

variable [DecidableEq κ]

/-- What there is under a key after an event. -/
def after (k : κ) (o : Option α) (e : ε) : Option α :=
  match effect e with
  | some (k', v) => if k' = k then v else o
  | none => o

/-- What there is under a key after some events. -/
def value (k : κ) (o : Option α) (es : List ε) : Option α := es.foldl (after effect k) o

variable {effect} {k : κ} {o o' : Option α} {e : ε} {es es' : List ε}

@[simp] theorem value_nil : value effect k o [] = o := rfl

@[simp] theorem value_cons : value effect k o (e :: es) = value effect k (after effect k o e) es := rfl

@[simp] theorem value_append : value effect k o (es ++ es') = value effect k (value effect k o es) es' :=
  List.foldl_append

theorem after_of_effect {v : Option α} (h : effect e = some (k, v)) : after effect k o e = v := by
  simp [after, h]

theorem after_of_other (h : ∀ v, effect e ≠ some (k, v)) : after effect k o e = o := by
  unfold after
  split
  · next k' v he =>
    have hk : k' ≠ k := by
      intro hk
      exact h v (hk ▸ he)
    rw [if_neg hk]
  · rfl

theorem value_of_not_touches (h : ¬ Touches effect k es) : value effect k o es = o := by
  induction es generalizing o with
  | nil => rfl
  | cons e es ih =>
    rw [touches_cons, not_or, not_exists] at h
    rw [value_cons, after_of_other h.1]
    exact ih h.2

/-- **The last event about a key decides.** -/
theorem value_of_touches (h : Touches effect k es) : value effect k o es = value effect k o' es := by
  induction es generalizing o o' with
  | nil => exact absurd h not_touches_nil
  | cons e es ih =>
    rw [value_cons, value_cons]
    by_cases hes : Touches effect k es
    · exact ih hes
    · -- the event at the head is the last one about the key
      obtain ⟨v, he⟩ := (touches_cons.mp h).resolve_right hes
      rw [after_of_effect he, after_of_effect he]

end Events

section Lists

variable {κ α : Type} [DecidableEq κ] (key : α → κ)

def lookup (k : κ) (l : List α) : Option α := l.find? fun a => key a = k

/-- The entries without the one under a key. -/
def drop (k : κ) (l : List α) : List α := l.filter fun a => key a ≠ k

variable {key} {k k' : κ} {a : α} {l : List α}

@[simp] theorem lookup_nil : lookup key k [] = none := rfl

theorem lookup_cons : lookup key k (a :: l) = if key a = k then some a else lookup key k l := by
  by_cases h : key a = k <;> simp [lookup, h]

theorem lookup_drop : lookup key k (drop key k' l) = if k' = k then none else lookup key k l := by
  induction l with
  | nil => simp [drop]
  | cons a l ih =>
    unfold drop at ih ⊢
    by_cases ha : key a = k'
    · rw [List.filter_cons_of_neg (by simpa using ha), ih, lookup_cons, ha]
      by_cases hk : k' = k <;> simp [hk]
    · rw [List.filter_cons_of_pos (by simpa using ha), lookup_cons, lookup_cons, ih]
      by_cases hk : key a = k
      · have hne : k' ≠ k := fun h => ha (hk.trans h.symm)
        simp [hk, hne]
      · simp [hk]

theorem lookup_put : lookup key k (a :: drop key (key a) l) = if key a = k then some a else lookup key k l := by
  rw [lookup_cons, lookup_drop]
  by_cases h : key a = k <;> simp [h]

theorem nodup_drop (h : (l.map key).Nodup) : ((drop key k l).map key).Nodup :=
  (List.filter_sublist.map key).nodup h

theorem nodup_put (h : (l.map key).Nodup) : ((a :: drop key (key a) l).map key).Nodup := by
  rw [List.map_cons, List.nodup_cons]
  refine ⟨?_, nodup_drop h⟩
  simp [drop]

theorem mem_of_lookup (h : lookup key k l = some a) : a ∈ l := List.mem_of_find?_eq_some h

theorem mem_iff_lookup (h : (l.map key).Nodup) : a ∈ l ↔ lookup key (key a) l = some a := by
  refine ⟨fun ha => ?_, mem_of_lookup⟩
  induction l with
  | nil => cases ha
  | cons b l ih =>
    rw [List.map_cons, List.nodup_cons] at h
    rw [lookup_cons]
    obtain rfl | ha := List.mem_cons.mp ha
    · simp
    · have hne : key b ≠ key a := by
        intro heq
        exact h.1 (heq ▸ List.mem_map_of_mem ha)
      rw [if_neg hne]
      exact ih h.2 ha

theorem lookup_filter {p : α → Bool} (h : (l.map key).Nodup) :
    lookup key k (l.filter p) = (lookup key k l).filter p := by
  induction l with
  | nil => rfl
  | cons a l ih =>
    rw [List.map_cons, List.nodup_cons] at h
    by_cases hk : key a = k
    · have habs : lookup key k (l.filter p) = none := by
        refine List.find?_eq_none.mpr fun b hb => ?_
        have hne : key b ≠ key a := by
          intro heq
          exact h.1 (heq ▸ List.mem_map_of_mem (List.mem_of_mem_filter hb))
        simpa [← hk] using hne
      by_cases hp : p a = true
      · rw [List.filter_cons_of_pos hp, lookup_cons, lookup_cons]
        simp [hk, hp, Option.filter]
      · rw [List.filter_cons_of_neg hp, lookup_cons, habs]
        simp [hk, hp, Option.filter]
    · by_cases hp : p a = true
      · rw [List.filter_cons_of_pos hp, lookup_cons, lookup_cons, ih h.2]
        simp [hk]
      · rw [List.filter_cons_of_neg hp, lookup_cons, ih h.2]
        simp [hk]

end Lists

end Feed
