import Mathlib.Data.List.Induction

/- Loops that keep the greatest element so far, by a number. An element takes the place of
   the one that is kept only when its number is greater, so of several greatest ones the
   first is kept. -/
namespace Go

variable {α : Type} (rank : α → Int)

def keepGreater (best : Option α) (a : α) : Option α :=
  if best.all fun b => decide (rank b < rank a) then some a else best

def runningMax (as : List α) : Option α := as.foldl (keepGreater rank) none

variable {rank} {as : List α} {a m : α}

theorem keepGreater_none : keepGreater rank none a = some a := rfl

theorem keepGreater_some : keepGreater rank (some m) a = if rank m < rank a then some a else some m := by
  simp [keepGreater]

/-- **What is kept is one of the greatest.** -/
theorem runningMax_spec (as : List α) : (runningMax rank as = none → as = []) ∧
      ∀ m, runningMax rank as = some m → m ∈ as ∧ ∀ a ∈ as, rank a ≤ rank m := by
  induction as using List.reverseRecOn with
  | nil => exact ⟨fun _ => rfl, nofun⟩
  | append_singleton as a ih =>
    have hlast : runningMax rank (as ++ [a]) = keepGreater rank (runningMax rank as) a := by
      simp [runningMax]
    rw [hlast]
    cases hbest : runningMax rank as with
    | none =>
      rw [keepGreater_none, ih.1 hbest]
      simp
    | some b =>
      obtain ⟨hb, hmax⟩ := ih.2 b hbest
      rw [keepGreater_some]
      split
      · rename_i hlt
        refine ⟨nofun, fun m hm => ?_⟩
        obtain rfl := Option.some.inj hm
        refine ⟨by simp, fun x hx => ?_⟩
        obtain hx | rfl : x ∈ as ∨ x = a := by simpa using hx
        · have := hmax x hx
          omega
        · exact Int.le_refl _
      · rename_i hle
        refine ⟨nofun, fun m hm => ?_⟩
        obtain rfl := Option.some.inj hm
        refine ⟨by simp [hb], fun x hx => ?_⟩
        obtain hx | rfl : x ∈ as ∨ x = a := by simpa using hx
        · exact hmax x hx
        · omega

theorem runningMax_mem (h : runningMax rank as = some m) : m ∈ as := ((runningMax_spec as).2 m h).1

theorem le_runningMax (h : runningMax rank as = some m) (ha : a ∈ as) : rank a ≤ rank m :=
  ((runningMax_spec as).2 m h).2 a ha

theorem exists_runningMax (rank : α → Int) (ha : a ∈ as) : ∃ m, runningMax rank as = some m := by
  cases h : runningMax rank as with
  | none =>
    rw [(runningMax_spec as).1 h] at ha
    cases ha
  | some m => exact ⟨m, rfl⟩

end Go
