import Mathlib.Logic.Function.Basic
import Mathlib.Data.Option.Basic

/- A stored cell that is copied to a remote in the background. The cell carries the
   time of its last change, its stamp, and the stamp at which it was last pushed, its
   mark; writers work on copies of both. The cell says that it has been pushed when its
   mark is its stamp.

   Under the discipline of `Step` the cell never says so wrongly (`Step.inv`):

     a copy is saved once after it has been opened, with the stamp of the opening;
     a copy is written back without content only while the cell has its stamp;
     a new cell has a content that cannot be pushed until it is saved.

   Stamps that are given out are greater than all that there are. -/
namespace Marker

open Function

structure Cell (α : Type) where
  stamp : Nat
  mark : Option Nat
  content : α

structure Copy where
  stamp : Nat
  mark : Option Nat
  /-- Opened or created, and not saved since. -/
  unsaved : Bool

structure State (ι α : Type) where
  cell : Option (Cell α)
  remote : Option α
  copies : ι → Option Copy
  clock : Nat

variable {ι α : Type} [DecidableEq ι]

/-- The mark of the cell, if there is one. -/
def State.mark (s : State ι α) : Option Nat := s.cell.bind (·.mark)

def State.put (s : State ι α) (i : ι) (h : Copy) : State ι α :=
  { s with copies := update s.copies i (some h) }

/-- A copy without a mark takes that of the cell. -/
def Inherits (s : State ι α) (own m : Option Nat) : Prop := m = own ∨ m = own.or s.mark

/-- One step of a writer, of the push or of the clean-up. `fit` says which contents the
    remote takes. -/
inductive Step (fit : α → Bool) (s : State ι α) : State ι α → Prop
  | tick (t : Nat) : s.clock ≤ t → Step fit s { s with clock := t }
  | read (i : ι) (c : Cell α) : s.cell = some c → Step fit s (s.put i ⟨c.stamp, c.mark, false⟩)
  | opened (i : ι) (c : Cell α) (t : Nat) : s.cell = some c → s.clock < t →
      Step fit s { s.put i ⟨t, c.mark, true⟩ with clock := t }
  | created (i : ι) (t : Nat) (x : α) : s.cell = none → s.clock < t → fit x = false →
      Step fit s { s.put i ⟨t, none, true⟩ with cell := some ⟨t, none, x⟩, clock := t }
  /-- The save of an opened copy, whether or not it reaches the cell. -/
  | saved (i : ι) (h : Copy) (m : Option Nat) (t clock : Nat) (cell : Option (Cell α)) :
      s.copies i = some h → h.unsaved = true → Inherits s h.mark m →
      s.clock ≤ clock → (t = h.stamp ∨ s.clock < t ∧ t ≤ clock) →
      (cell = s.cell ∨ ∃ x, cell = some ⟨t, m, x⟩) →
      Step fit s { s.put i ⟨t, m, false⟩ with cell := cell, clock := clock }
  /-- A copy is written back without its content. -/
  | touched (i : ι) (h : Copy) (m : Option Nat) (cell : Option (Cell α)) :
      s.copies i = some h → (∀ c, s.cell = some c → c.stamp = h.stamp) → Inherits s h.mark m →
      (cell = s.cell ∨ ∃ c, s.cell = some c ∧ cell = some { c with mark := m }) →
      Step fit s { s.put i ⟨h.stamp, m, h.unsaved⟩ with cell := cell }
  /-- The content reaches the remote, and the mark may not be recorded. -/
  | pushed (c : Cell α) (m : Option Nat) : s.cell = some c → fit c.content = true →
      (m = c.mark ∨ m = some c.stamp) →
      Step fit s { s with cell := some { c with mark := m }, remote := some c.content }
  | removed : Step fit s { s with cell := none }
  /-- A content from elsewhere is stored. -/
  | stored (t : Nat) (m : Option Nat) (x : α) : s.clock < t → Inherits s none m →
      Step fit s { s with cell := some ⟨t, m, x⟩, clock := t }

structure Inv (fit : α → Bool) (s : State ι α) : Prop where
  /-- A cell that says so has been pushed. -/
  pushed : ∀ c, s.cell = some c → c.mark = some c.stamp → s.remote = some c.content
  /-- So has the cell of a copy that says so, as long as it has the copy's stamp. -/
  copied : ∀ i h c, s.copies i = some h → s.cell = some c → h.mark = some h.stamp →
    h.stamp = c.stamp → s.remote = some c.content
  /-- The stamp of an opened copy has not been pushed, and cannot be. -/
  cellUnsaved : ∀ i h c, s.copies i = some h → h.unsaved = true → s.cell = some c →
    c.mark ≠ some h.stamp ∧ (c.stamp = h.stamp → fit c.content = false)
  copyUnsaved : ∀ i j h h', s.copies i = some h → h.unsaved = true → s.copies j = some h' →
    h'.mark ≠ some h.stamp
  distinct : ∀ i j h h', s.copies i = some h → s.copies j = some h' → h.unsaved = true →
    h'.unsaved = true → h.stamp = h'.stamp → i = j
  cellTime : ∀ c, s.cell = some c → c.stamp ≤ s.clock ∧ ∀ t, c.mark = some t → t ≤ s.clock
  copyTime : ∀ i h, s.copies i = some h → h.stamp ≤ s.clock ∧ ∀ t, h.mark = some t → t ≤ s.clock

variable {fit : α → Bool} {s s' : State ι α} {i j : ι} {h h' : Copy} {m : Option Nat}

variable {t clock : Nat} {c : Cell α} {cell : Option (Cell α)}

omit [DecidableEq ι] in
/-- An inherited mark is the copy's own or that of the cell. -/
theorem Inherits.cases {own : Option Nat} (hm : Inherits s own m) (t : Nat) (ht : m = some t) :
    own = some t ∨ ∃ c, s.cell = some c ∧ c.mark = some t := by
  obtain hm | hm := hm
  · exact .inl (hm.symm.trans ht)
  · rw [hm, Option.or_eq_some_iff] at ht
    obtain ht | ⟨-, ht⟩ := ht
    · exact .inl ht
    · exact .inr (Option.bind_eq_some_iff.mp ht)

section

variable (hs : Inv fit s)
include hs

omit [DecidableEq ι] in
theorem Inv.saved_mark (hi : s.copies i = some h) (hu : h.unsaved = true) (hm : Inherits s h.mark m)
    (ht : t = h.stamp ∨ s.clock < t ∧ t ≤ clock) : m ≠ some t := by
  intro hmt
  obtain hown | ⟨c, hc, hct⟩ := hm.cases t hmt
  · obtain rfl | ht := ht
    · exact hs.copyUnsaved i i h h hi hu hi hown
    · have hle := (hs.copyTime i h hi).2 t hown
      omega
  · obtain rfl | ht := ht
    · exact (hs.cellUnsaved i h c hi hu hc).1 hct
    · have hle := (hs.cellTime c hc).2 t hct
      omega

theorem Inv.saved (hi : s.copies i = some h)
    (hu : h.unsaved = true) (hm : Inherits s h.mark m) (hclock : s.clock ≤ clock)
    (ht : t = h.stamp ∨ s.clock < t ∧ t ≤ clock)
    (hnew : cell = s.cell ∨ ∃ x, cell = some ⟨t, m, x⟩) :
    Inv fit { s.put i ⟨t, m, false⟩ with cell := cell, clock := clock } := by
  have hne := hs.saved_mark hi hu hm ht
  have hmark := hm.cases
  clear hm
  obtain ⟨hpushed, hcopied, hcell, hcopy, hdistinct, htime, htimes⟩ := hs
  obtain rfl | ⟨x, rfl⟩ := hnew
  all_goals refine ⟨?_, ?_, ?_, ?_, ?_, ?_, ?_⟩ <;> simp only [State.put, update_apply] <;> grind

theorem Inv.touched (hi : s.copies i = some h)
    (hc : ∀ c, s.cell = some c → c.stamp = h.stamp) (hm : Inherits s h.mark m)
    (hnew : cell = s.cell ∨ ∃ c, s.cell = some c ∧ cell = some { c with mark := m }) :
    Inv fit { s.put i ⟨h.stamp, m, h.unsaved⟩ with cell := cell } := by
  have hmark := hm.cases
  clear hm
  obtain ⟨hpushed, hcopied, hcell, hcopy, hdistinct, htime, htimes⟩ := hs
  obtain rfl | ⟨c, hsc, rfl⟩ := hnew
  all_goals refine ⟨?_, ?_, ?_, ?_, ?_, ?_, ?_⟩ <;> simp only [State.put, update_apply] <;> grind

/-- **The cell never says wrongly that it has been pushed.** -/
theorem Inv.step (hstep : Step fit s s') : Inv fit s' := by
  cases hstep with
  | tick t ht =>
    obtain ⟨hpushed, hcopied, hcell, hcopy, hdistinct, htime, htimes⟩ := hs
    refine ⟨hpushed, hcopied, hcell, hcopy, hdistinct, ?_, ?_⟩ <;> grind
  | read | opened | created =>
    obtain ⟨hpushed, hcopied, hcell, hcopy, hdistinct, htime, htimes⟩ := hs
    refine ⟨?_, ?_, ?_, ?_, ?_, ?_, ?_⟩ <;> simp only [State.put, update_apply] <;> grind
  | saved i h m t clock cell hi hu hm hclock ht hnew => exact hs.saved hi hu hm hclock ht hnew
  | touched i h m cell hi hc hm hnew => exact hs.touched hi hc hm hnew
  | pushed | removed =>
    obtain ⟨hpushed, hcopied, hcell, hcopy, hdistinct, htime, htimes⟩ := hs
    refine ⟨?_, ?_, ?_, ?_, ?_, ?_, ?_⟩ <;> grind
  | stored t m x ht hm =>
    have hmark : ∀ u, m = some u → ∃ c, s.cell = some c ∧ c.mark = some u := by
      intro u hu
      obtain hnone | hcell := hm.cases u hu
      · cases hnone
      · exact hcell
    obtain ⟨hpushed, hcopied, hcell, hcopy, hdistinct, htime, htimes⟩ := hs
    refine ⟨?_, ?_, ?_, ?_, ?_, ?_, ?_⟩ <;> grind

end

end Marker
