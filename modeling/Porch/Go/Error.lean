import Mathlib

/- Go's `(value, error)` results as `Except`. A call whose error is passed on is a
   bind; `bind_eq_ok` takes a successful computation apart, call by call. -/
namespace Go

variable {ε α β : Type}

/-- `if err != nil { return ..., err }` before a value is returned. -/
def okUnless (err : Option ε) (value : α) : Except ε α :=
  match err with
  | some e => .error e
  | none => .ok value

theorem okUnless_eq_ok {err : Option ε} {value r : α} :
    okUnless err value = .ok r ↔ err = none ∧ value = r := by
  cases err <;> simp [okUnless]

theorem bind_eq_ok {x : Except ε α} {f : α → Except ε β} {b : β} :
    (x >>= f) = .ok b ↔ ∃ a, x = .ok a ∧ f a = .ok b := by
  rcases x with _ | a
  · exact iff_of_false (fun h => by cases h) fun ⟨_, h, _⟩ => by cases h
  · exact ⟨fun h => ⟨a, rfl, h⟩, fun ⟨_, h, h'⟩ => by cases h; exact h'⟩

theorem okUnless_bind_eq_ok {err : Option ε} {a : α} {f : α → Except ε β} {b : β} :
    (okUnless err a >>= f) = .ok b ↔ err = none ∧ f a = .ok b := by
  simp [bind_eq_ok, okUnless_eq_ok, and_assoc]

/-- What every step of a loop keeps, the loop keeps. -/
theorem foldlM_keeps {f : β → α → Except ε β} {P : β → Prop} {xs : List α} {s s' : β}
    (hstep : ∀ x ∈ xs, ∀ s s', f s x = .ok s' → P s → P s') (h : xs.foldlM f s = .ok s')
    (hs : P s) : P s' := by
  induction xs generalizing s with
  | nil =>
    cases h
    exact hs
  | cons x xs ih =>
    rw [List.foldlM_cons] at h
    obtain ⟨s₁, hx, h⟩ := bind_eq_ok.mp h
    exact ih (fun y hy => hstep y (List.mem_cons_of_mem x hy)) h (hstep x List.mem_cons_self s s₁ hx hs)

end Go
