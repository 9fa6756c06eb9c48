import Mathlib.Algebra.BigOperators.Group.Finset.Basic
import Mathlib.Data.Fintype.BigOperators

/- How many parties are in a state of some kind, when one of them moves. -/
namespace Lts

open Function

variable {ι α : Type} [Fintype ι]

/-- The number of parties whose state has the property. -/
def count (p : α → Bool) (f : ι → α) : Nat := (Finset.univ.filter fun i => p (f i) = true).card

variable {p : α → Bool} {f : ι → α} {i j : ι}

theorem count_eq_zero : count p f = 0 ↔ ∀ i, p (f i) = false := by
  simp [count, Finset.filter_eq_empty_iff]

theorem count_congr {g : ι → α} (h : ∀ i, p (f i) = p (g i)) : count p f = count p g := by
  simp [count, h]

variable [DecidableEq ι]

/-- **The count after one party has moved.** -/
theorem count_update (p : α → Bool) (f : ι → α) (i : ι) (x : α) :
    count p (update f i x) + (p (f i)).toNat = count p f + (p x).toNat := by
  have hsum : ∀ g : ι → α, count p g = ∑ j, (p (g j)).toNat := by
    intro g
    rw [count, Finset.card_filter]
    apply Finset.sum_congr rfl
    intro j _
    cases p (g j) <;> rfl
  have hcomp : (fun j => (p (update f i x j)).toNat) =
      update (fun j => (p (f j)).toNat) i (p x).toNat := by
    funext j
    exact apply_update (fun _ y => (p y).toNat) f i x j
  rw [hsum, hsum, hcomp, Finset.sum_update_of_mem (Finset.mem_univ i),
    ← Finset.sum_sdiff (Finset.subset_univ {i}), Finset.sum_singleton]
  omega

theorem count_update_same {x : α} (h : p x = p (f i)) :
    count p (update f i x) = count p f := by
  have hcount := count_update p f i x
  rw [h] at hcount
  omega

end Lts
