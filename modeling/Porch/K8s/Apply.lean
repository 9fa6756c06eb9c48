import Mathlib.Data.List.Basic

/- Server-side apply on one field, with the managers that own it.

   A manager that applies a value becomes an owner. It takes the field over from the others
   when the value is a new one (the apply is forced), and shares it with them when the value
   is the one that is there. A manager that leaves the field out gives it up, and the field
   goes when no other manager owns it. A map is applied field by field. -/
namespace K8s

structure Field (μ α : Type) where
  value : Option α
  owners : List μ
  /-- What nobody owns is not there. -/
  owned : owners = [] → value = none

namespace Field

variable {μ α : Type}

instance : Inhabited (Field μ α) := ⟨⟨none, [], fun _ => rfl⟩⟩

/-- A field that a manager writes on a new object. -/
def create (m : μ) : Option α → Field μ α
  | some a => ⟨some a, [m], nofun⟩
  | none => default

@[simp] theorem create_value (m : μ) (v : Option α) : (create m v).value = v := by
  cases v <;> rfl

variable [DecidableEq μ]

def leave (f : Field μ α) (m : μ) : Field μ α :=
  if h : f.owners.filter (· ≠ m) = [] then default
  else ⟨f.value, f.owners.filter (· ≠ m), fun h' => absurd h' h⟩

section

variable (f : Field μ α) (m : μ)
include f m

theorem leave_value_eq_none_iff :
    (f.leave m).value = none ↔ f.value = none ∨ ∀ o ∈ f.owners, o = m := by
  unfold leave
  split
  · rename_i h
    simp only [List.filter_eq_nil_iff, decide_not, Bool.not_eq_true', decide_eq_false_iff_not,
      Decidable.not_not] at h
    exact iff_of_true rfl (.inr h)
  · rename_i h
    refine ⟨.inl, fun hor => hor.resolve_right fun hall => h ?_⟩
    simp only [List.filter_eq_nil_iff, decide_not, Bool.not_eq_true', decide_eq_false_iff_not,
      Decidable.not_not]
    exact hall

variable [DecidableEq α]

def apply (f : Field μ α) (m : μ) : Option α → Field μ α
  | some a =>
    if f.value = some a then ⟨some a, m :: f.owners.filter (· ≠ m), nofun⟩ else ⟨some a, [m], nofun⟩
  | none => f.leave m

@[simp] theorem apply_some_value (a : α) : (f.apply m (some a)).value = some a := by
  simp only [apply]
  split <;> rfl

@[simp] theorem apply_none : f.apply m none = f.leave m := rfl

def Yields (f : Field μ α) (m : μ) (v : Option α) : Prop :=
  v = none → f.value = none ∨ ∀ o ∈ f.owners, o = m

instance (f : Field μ α) (m : μ) (v : Option α) : Decidable (f.Yields m v) :=
  inferInstanceAs (Decidable (_ → _))

/-- **The field has the applied value** unless it is left out and another manager keeps it. -/
theorem apply_value_eq_iff (v : Option α) : (f.apply m v).value = v ↔ f.Yields m v := by
  cases v with
  | some a => simp [Yields]
  | none => simpa [Yields] using f.leave_value_eq_none_iff m

theorem apply_value_self : (f.apply m f.value).value = f.value :=
  (f.apply_value_eq_iff m f.value).mpr fun h => .inl h

end

end Field

/-! Maps -/

/-- The fields of a map, each with its owners. -/
abbrev FieldMap (κ μ α : Type) := List (κ × Field μ α)

namespace FieldMap

variable {κ μ α : Type} [BEq κ] [LawfulBEq κ]

/-- The field of a key; a key that is not there has the field that nobody owns. -/
def get (f : FieldMap κ μ α) (k : κ) : Field μ α := (f.lookup k).getD default

/-- The map with the fields `g` for the keys `ks`. -/
def ofKeys (ks : List κ) (g : κ → Field μ α) : FieldMap κ μ α := ks.map fun k => (k, g k)

theorem get_ofKeys {ks : List κ} {g : κ → Field μ α} (h : ∀ k ∉ ks, g k = default) (k : κ) :
    (ofKeys ks g).get k = g k := by
  unfold get ofKeys
  by_cases hk : k ∈ ks
  · rw [List.lookup_graph g hk]
    rfl
  · rw [h k hk, List.lookup_eq_none_iff.mpr]
    · rfl
    · intro p hp
      obtain ⟨k', hk', rfl⟩ := List.mem_map.mp hp
      exact bne_iff_ne.mpr fun heq => hk (heq ▸ hk')

theorem lookup_of_notMem {β : Type} {v : List (κ × β)} {k : κ} (h : k ∉ v.map Prod.fst) :
    v.lookup k = none :=
  List.lookup_eq_none_iff.mpr fun _ hkv => bne_iff_ne.mpr fun heq => h (heq ▸ List.mem_map_of_mem hkv)

/-- The map that a manager writes on a new object. -/
def create (m : μ) (v : List (κ × α)) : FieldMap κ μ α :=
  ofKeys (v.map Prod.fst) fun k => Field.create m (v.lookup k)

theorem get_create (m : μ) (v : List (κ × α)) (k : κ) :
    (create m v).get k = Field.create m (v.lookup k) := by
  refine get_ofKeys (fun k hk => ?_) k
  rw [lookup_of_notMem hk]
  rfl

/-- No other manager keeps a key that is left out. -/
def Yields (f : FieldMap κ μ α) (m : μ) (v : List (κ × α)) : Prop :=
  ∀ kf ∈ f, kf.2.Yields m (v.lookup kf.1)

theorem Yields.get {f : FieldMap κ μ α} {m : μ} {v : List (κ × α)} (h : f.Yields m v) (k : κ) :
    (f.get k).Yields m (v.lookup k) := by
  unfold FieldMap.get
  match hk : f.lookup k with
  | none => exact fun _ => .inl rfl
  | some field =>
    obtain ⟨l₁, l₂, rfl, -⟩ := List.lookup_eq_some_iff.mp hk
    exact h (k, field) (by simp)

variable [DecidableEq μ] [DecidableEq α]

def apply (f : FieldMap κ μ α) (m : μ) (v : List (κ × α)) : FieldMap κ μ α :=
  ofKeys (f.map Prod.fst ++ v.map Prod.fst) fun k => (f.get k).apply m (v.lookup k)

theorem get_apply (f : FieldMap κ μ α) (m : μ) (v : List (κ × α)) (k : κ) :
    (f.apply m v).get k = (f.get k).apply m (v.lookup k) := by
  refine get_ofKeys (fun k hk => ?_) k
  obtain ⟨hf, hv⟩ := not_or.mp fun h => hk (List.mem_append.mpr h)
  rw [get, lookup_of_notMem hf, lookup_of_notMem hv]
  rfl

instance (f : FieldMap κ μ α) (m : μ) (v : List (κ × α)) : Decidable (f.Yields m v) :=
  inferInstanceAs (Decidable (∀ kf ∈ f, _))

/-- **The map is the applied one**, when no other manager keeps more of it. -/
theorem get_apply_value {f : FieldMap κ μ α} {m : μ} {v : List (κ × α)} (h : f.Yields m v) (k : κ) :
    ((f.apply m v).get k).value = v.lookup k := by
  rw [get_apply]
  exact ((f.get k).apply_value_eq_iff m (v.lookup k)).mpr (h.get k)

end FieldMap

end K8s
