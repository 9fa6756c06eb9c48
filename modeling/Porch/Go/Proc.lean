import Porch.Go.Error

/- A procedure that works on a state and may fail. A failed call hands back the
   state as it was left at the point of failure: the effects of the calls before
   it stay. Each rule comes in two forms, for a call that succeeds (`..._eq_ok`)
   and for what holds however the call ends (`Keeps`). -/
namespace Go

/-- A procedure over the state `σ` with errors `ε` and result `α`. -/
def Proc (σ ε α : Type) := σ → Except ε α × σ

namespace Proc

variable {σ ε α β : Type}

protected def pure (a : α) : Proc σ ε α := fun s => (.ok a, s)

protected def bind (x : Proc σ ε α) (f : α → Proc σ ε β) : Proc σ ε β := fun s =>
  match x s with
  | (.ok a, s') => f a s'
  | (.error e, s') => (.error e, s')

instance : Monad (Proc σ ε) where
  pure := Proc.pure
  bind := Proc.bind

def throw (e : ε) : Proc σ ε α := fun s => (.error e, s)

def query (f : σ → Except ε α) : Proc σ ε α := fun s => (f s, s)

/-- A write to the state. A failed one changes nothing. -/
def stmt (f : σ → Except ε σ) : Proc σ ε Unit := fun s =>
  match f s with
  | .ok s' => (.ok (), s')
  | .error e => (.error e, s)

/-- Runs `x` and gives its outcome to the caller instead of failing. -/
def attempt (x : Proc σ ε α) : Proc σ ε (Except ε α) := fun s => (.ok (x s).1, (x s).2)

def onFst {τ : Type} (x : Proc σ ε α) : Proc (σ × τ) ε α := fun s => ((x s.1).1, (x s.1).2, s.2)

/-- Reads the other part, the receiver of a method. -/
def this {τ : Type} : Proc (σ × τ) ε τ := fun s => (.ok s.2, s)

def assign {τ : Type} (f : τ → τ) : Proc (σ × τ) ε Unit := fun s => (.ok (), s.1, f s.2)

/-- Calls a method on the receiver `t` and hands the receiver back. -/
def call {τ : Type} (x : Proc (σ × τ) ε α) (t : τ) : Proc σ ε τ := fun s =>
  ((x (s, t)).1.map fun _ => (x (s, t)).2.2, (x (s, t)).2.1)

/-! Successful calls -/

variable {x : Proc σ ε α} {f : α → Proc σ ε β} {s s' : σ} {a : α} {b : β}

theorem pure_eq_ok {a' : α} : (pure a : Proc σ ε α) s = (.ok a', s') ↔ a = a' ∧ s = s' := by
  show (Except.ok a, s) = _ ↔ _
  simp

theorem bind_eq_ok :
    (x >>= f) s = (.ok b, s') ↔ ∃ a s₁, x s = (.ok a, s₁) ∧ f a s₁ = (.ok b, s') := by
  show Proc.bind x f s = _ ↔ _
  unfold Proc.bind
  rcases x s with ⟨_ | a, s₁⟩ <;> simp

theorem bind_run_ok (h : x s = (.ok a, s')) : (x >>= f) s = f a s' := by
  show Proc.bind x f s = _
  simp only [Proc.bind, h]

theorem bind_run_error {e : ε} {t : σ} (h : x s = (.error e, t)) : (x >>= f) s = (.error e, t) := by
  show Proc.bind x f s = _
  simp only [Proc.bind, h]

variable {τ : Type} {p p' : σ × τ}

theorem this_bind {f : τ → Proc (σ × τ) ε β} : (this >>= f) p = f p.2 p := rfl

theorem assign_bind {g : τ → τ} {f : Unit → Proc (σ × τ) ε β} :
    (assign g >>= f) p = f () (p.1, g p.2) := rfl

theorem attempt_bind {f : Except ε α → Proc σ ε β} : (attempt x >>= f) s = f (x s).1 (x s).2 := rfl

theorem query_eq_ok {g : σ → Except ε α} : query g s = (.ok a, s') ↔ g s = .ok a ∧ s = s' := by
  simp [query]

theorem stmt_eq_ok {g : σ → Except ε σ} {u : Unit} : stmt g s = (.ok u, s') ↔ g s = .ok s' := by
  unfold stmt
  split
  · next h => simp [h]
  · next h => simp [h]

theorem onFst_eq_ok : onFst x p = (.ok a, p') ↔ x p.1 = (.ok a, p'.1) ∧ p.2 = p'.2 := by
  simp only [onFst, Prod.ext_iff, and_assoc]

theorem call_eq_ok {x : Proc (σ × τ) ε α} {t t' : τ} :
    call x t s = (.ok t', s') ↔ ∃ a, x (s, t) = (.ok a, s', t') := by
  unfold call
  rcases x (s, t) with ⟨_ | a, s₁, t₁⟩
  · simp [Except.map]
  · simp [Except.map, and_comm]

theorem attempt_eq_ok {r : Except ε α} : attempt x s = (.ok r, s') ↔ x s = (r, s') := by
  simp [attempt, Prod.ext_iff]

theorem throw_ne_ok {e : ε} : (throw e : Proc σ ε α) s ≠ (.ok a, s') := by
  simp [throw]

/-! However the call ends -/

/-- Every run of `x` from `s` leaves a state related to `s` by `R`. -/
def Keeps (R : σ → σ → Prop) (x : Proc σ ε α) : Prop := ∀ s, R s (x s).2

/-- A relation between a state and the states that are reached from it. -/
structure Frame (R : σ → σ → Prop) : Prop where
  refl : ∀ s, R s s
  trans : ∀ s₁ s₂ s₃, R s₁ s₂ → R s₂ s₃ → R s₁ s₃

variable {R : σ → σ → Prop}

theorem keeps_attempt (hx : Keeps R x) : Keeps R (attempt x) := fun s => hx s

theorem keeps_onFst (hx : Keeps R x) :
    Keeps (fun p p' : σ × τ => R p.1 p'.1) (onFst x) := fun p => hx p.1

/-- What holds stays true. -/
theorem Frame.imp (P : σ → Prop) : Frame fun s s' => P s → P s' :=
  ⟨fun _ h => h, fun _ _ _ h₁ h₂ h => h₂ (h₁ h)⟩

namespace Frame

variable (hR : Frame R)
include hR

theorem pure : Keeps R (Pure.pure a : Proc σ ε α) := fun s => hR.refl s

theorem throw {e : ε} : Keeps R (Proc.throw e : Proc σ ε α) := fun s => hR.refl s

theorem query {g : σ → Except ε α} : Keeps R (Proc.query g) := fun s => hR.refl s

theorem stmt {g : σ → Except ε σ} (hg : ∀ s s', g s = .ok s' → R s s') : Keeps R (Proc.stmt g) := by
  intro s
  unfold Proc.stmt
  split
  · next s' h => exact hg s s' h
  · exact hR.refl s

theorem bind (hx : Keeps R x) (hf : ∀ a, Keeps R (f a)) : Keeps R (x >>= f) := by
  intro s
  show R s (Proc.bind x f s).2
  have h₁ := hx s
  unfold Proc.bind
  rcases hxs : x s with ⟨_ | a, s₁⟩
  · rw [hxs] at h₁
    exact h₁
  · rw [hxs] at h₁
    exact hR.trans _ _ _ h₁ (hf a s₁)

variable {τ : Type}

/-- The relation on the first part of the state. -/
theorem fst : Frame fun p p' : σ × τ => R p.1 p'.1 :=
  ⟨fun p => hR.refl p.1, fun p₁ p₂ p₃ => hR.trans p₁.1 p₂.1 p₃.1⟩

theorem this :
    Keeps (fun p p' : σ × τ => R p.1 p'.1) (Proc.this : Proc (σ × τ) ε τ) := fun p => hR.refl p.1

theorem assign {g : τ → τ} :
    Keeps (fun p p' : σ × τ => R p.1 p'.1) (Proc.assign g : Proc (σ × τ) ε Unit) :=
  fun p => hR.refl p.1

end Frame

end Proc

end Go
