import Mathlib

/- Rows in groups, ranked by a number, with a flag that marks the greatest row of
   each group. This is the meaning of a stored "latest" column, said for any row
   type: `FlagsMax` is the invariant, and one lemma for each kind of write says
   when the write keeps it. A write is given by what it does to a row, a function
   that keeps group and rank. -/
namespace Sql

variable {ρ γ : Type} (group : ρ → γ) (rank : ρ → Int) (flag : ρ → Bool)

/-- Ranks are unique in a group, and the flag is on the greatest row alone. -/
structure FlagsMax (S : Set ρ) : Prop where
  rank_inj : ∀ x ∈ S, ∀ y ∈ S, group x = group y → rank x = rank y → x = y
  flag_iff : ∀ x ∈ S, flag x ↔ ∀ y ∈ S, group y = group x → rank y ≤ rank x

/-- `f` changes neither group nor rank of a row in `S`. -/
def KeepsRank (f : ρ → ρ) (S : Set ρ) : Prop :=
  ∀ x ∈ S, group (f x) = group x ∧ rank (f x) = rank x

namespace FlagsMax

variable {group rank flag} {S : Set ρ} {f : ρ → ρ} {r : ρ}

theorem of_empty : FlagsMax group rank flag ∅ where
  rank_inj := fun _ hx => absurd hx (Set.notMem_empty _)
  flag_iff := fun _ hx => absurd hx (Set.notMem_empty _)

theorem image (hf : KeepsRank group rank f S) (h : FlagsMax group rank (fun x => flag (f x)) S) :
    FlagsMax group rank flag (f '' S) where
  rank_inj := by
    rintro _ ⟨x, hx, rfl⟩ _ ⟨y, hy, rfl⟩ hgroup hrank
    rw [(hf x hx).1, (hf y hy).1] at hgroup
    rw [(hf x hx).2, (hf y hy).2] at hrank
    rw [h.rank_inj x hx y hy hgroup hrank]
  flag_iff := by
    rintro _ ⟨x, hx, rfl⟩
    rw [h.flag_iff x hx, Set.forall_mem_image]
    refine forall₂_congr fun y hy => ?_
    rw [(hf x hx).1, (hf x hx).2, (hf y hy).1, (hf y hy).2]

section

variable (h : FlagsMax group rank flag S)
include h

theorem lt_of_flag {m x : ρ} (hm : m ∈ S) (hx : x ∈ S)
    (hgroup : group x = group m) (hflag : flag m) (hne : x ≠ m) : rank x < rank m ∧ ¬ flag x := by
  have hle : rank x ≤ rank m := (h.flag_iff m hm).mp hflag x hx hgroup
  have hrank : rank x ≠ rank m := fun e => hne (h.rank_inj x hx m hm hgroup e)
  refine ⟨by omega, fun hx' => ?_⟩
  have := (h.flag_iff x hx).mp hx' m hm hgroup.symm
  omega

theorem exists_flag (hfin : S.Finite) {x : ρ} (hx : x ∈ S) :
    ∃ m ∈ S, group m = group x ∧ flag m := by
  have hsub : {y ∈ S | group y = group x}.Finite := hfin.subset fun y hy => hy.1
  obtain ⟨m, ⟨hm, hgroup⟩, hmax⟩ := hsub.exists_maximalFor rank _ ⟨x, hx, rfl⟩
  refine ⟨m, hm, hgroup, (h.flag_iff m hm).mpr fun y hy hy' => ?_⟩
  have := hmax ⟨hy, hy'.trans hgroup⟩
  omega

theorem map (hf : KeepsRank group rank f S)
    (hflag : ∀ x ∈ S, flag (f x) = flag x) : FlagsMax group rank flag (f '' S) :=
  .image hf
    { rank_inj := h.rank_inj
      flag_iff := fun x hx => by rw [hflag x hx, h.flag_iff x hx] }

/-- A new greatest row of its group, whose other rows lose the flag. -/
theorem insert_max (hf : KeepsRank group rank f S)
    (hdemote : ∀ x ∈ S, flag (f x) ↔ flag x ∧ group x ≠ group r) (hr : flag r)
    (hmax : ∀ x ∈ S, group x = group r → rank x < rank r) :
    FlagsMax group rank flag (insert r (f '' S)) where
  rank_inj := by
    rintro _ (rfl | ⟨x, hx, rfl⟩) _ (rfl | ⟨y, hy, rfl⟩) hgroup hrank
    · rfl
    · rw [(hf y hy).1] at hgroup
      rw [(hf y hy).2] at hrank
      have := hmax y hy hgroup.symm
      omega
    · rw [(hf x hx).1] at hgroup
      rw [(hf x hx).2] at hrank
      have := hmax x hx hgroup
      omega
    · rw [(hf x hx).1, (hf y hy).1] at hgroup
      rw [(hf x hx).2, (hf y hy).2] at hrank
      rw [h.rank_inj x hx y hy hgroup hrank]
  flag_iff := by
    rintro _ (rfl | ⟨x, hx, rfl⟩)
    · refine iff_of_true hr ?_
      rintro _ (rfl | ⟨y, hy, rfl⟩) hgroup
      · exact le_rfl
      · rw [(hf y hy).1] at hgroup
        rw [(hf y hy).2]
        exact (hmax y hy hgroup).le
    · rw [hdemote x hx, h.flag_iff x hx, (hf x hx).1, (hf x hx).2]
      constructor
      · rintro ⟨hx', hne⟩ _ (rfl | ⟨y, hy, rfl⟩) hgroup
        · exact absurd hgroup.symm hne
        · rw [(hf y hy).1] at hgroup
          rw [(hf y hy).2]
          exact hx' y hy hgroup
      · intro hall
        refine ⟨fun y hy hgroup => ?_, fun hgroup => ?_⟩
        · have := hall (f y) (.inr ⟨y, hy, rfl⟩) (by rw [(hf y hy).1, hgroup])
          rwa [(hf y hy).2] at this
        · -- the new row is above every row of its group
          have hle := hall r (.inl rfl) hgroup.symm
          have := hmax x hx hgroup
          omega

theorem insert_low (hr : ¬ flag r)
    (hfresh : ∀ x ∈ S, group x = group r → rank x ≠ rank r)
    (hlow : ∃ z ∈ S, group z = group r ∧ rank r < rank z) :
    FlagsMax group rank flag (insert r S) where
  rank_inj := by
    rintro x (rfl | hx) y (rfl | hy) hgroup hrank
    · rfl
    · exact absurd hrank.symm (hfresh y hy hgroup.symm)
    · exact absurd hrank (hfresh x hx hgroup)
    · exact h.rank_inj x hx y hy hgroup hrank
  flag_iff := by
    obtain ⟨z, hz, hzr, hlt⟩ := hlow
    rintro x (rfl | hx)
    · refine iff_of_false hr fun hall => ?_
      have := hall z (.inr hz) hzr
      omega
    · rw [h.flag_iff x hx]
      constructor
      · rintro hall y (rfl | hy) hgroup
        · have := hall z hz (hzr.trans hgroup)
          omega
        · exact hall y hy hgroup
      · exact fun hall y hy => hall y (.inr hy)

/-- A row goes, and the greatest row left in its group gets the flag. -/
theorem remove (hf : KeepsRank group rank f (S \ {r}))
    (hpromote : ∀ x ∈ S \ {r}, flag (f x) ↔ flag x ∨
      group x = group r ∧ ∀ y ∈ S \ {r}, group y = group r → rank y ≤ rank x) :
    FlagsMax group rank flag (f '' (S \ {r})) := by
  refine .image hf ⟨fun x hx y hy => h.rank_inj x hx.1 y hy.1, fun x hx => ?_⟩
  rw [hpromote x hx, h.flag_iff x hx.1]
  constructor
  · rintro (hall | ⟨hgroup, hall⟩) y hy hy'
    · exact hall y hy.1 hy'
    · exact hall y hy (hy'.trans hgroup)
  · intro hall
    by_cases hgroup : group x = group r
    · exact .inr ⟨hgroup, fun y hy hy' => hall y hy (hy'.trans hgroup.symm)⟩
    · -- the removed row was in another group
      refine .inl fun y hy hy' => ?_
      by_cases hyr : y = r
      · exact absurd (hyr ▸ hy').symm hgroup
      · exact hall y ⟨hy, hyr⟩ hy'

theorem filter_group (p : γ → Prop) :
    FlagsMax group rank flag {x ∈ S | p (group x)} where
  rank_inj := fun x hx y hy => h.rank_inj x hx.1 y hy.1
  flag_iff := by
    intro x hx
    rw [h.flag_iff x hx.1]
    refine ⟨fun hall y hy => hall y hy.1, fun hall y hy hgroup => hall y ⟨hy, ?_⟩ hgroup⟩
    rw [hgroup]
    exact hx.2

end

end FlagsMax

end Sql
