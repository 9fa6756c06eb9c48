import Mathlib.Logic.Relation
import Porch.Lts.Run

/- Programs that call on the world around them, and a logic for their runs among others.

   A program is a tree: it returns, or makes a call and goes on with the answer. What a
   call does is said by the world: `exec s e o` is the answer to the call `e` in the state
   `s` and the state after it, where `o` settles what is left open (a failure, a late read).
   Between two calls of the program the other parties move as they like.

   `Holds` follows a program over every answer and every move of the others between its
   calls; `Triple` is the usual form with a precondition, with a rule for each way to build
   a program. `System.run_inv` leads from a triple to the runs of a system in which the
   program is started over and over. -/
namespace Lts

/-- A program over the calls `E`, where the call `e` is answered by an `R e`. -/
inductive Prog (E : Type) (R : E → Type) (α : Type) where
  | ret (a : α)
  | call (e : E) (k : R e → Prog E R α)

namespace Prog

variable {E : Type} {R : E → Type} {α β σ : Type}

protected def bind : Prog E R α → (α → Prog E R β) → Prog E R β
  | ret a, f => f a
  | call e k, f => call e fun r => (k r).bind f

instance : Monad (Prog E R) where
  pure := ret
  bind := Prog.bind

/-- The program that makes one call and returns the answer. -/
def perform (e : E) : Prog E R (R e) := call e ret

def next : Prog E R α → Option E
  | ret _ => none
  | call e _ => some e

/-- As long as the answers are among `B`, every call of the program is one of `C`, and what it
    returns is one of `A`. -/
def Uses (C : E → Prop) (B : (e : E) → R e → Prop) (A : α → Prop) : Prog E R α → Prop
  | ret a => A a
  | call e k => C e ∧ ∀ r, B e r → Uses C B A (k r)

section Uses

variable {C : E → Prop} {B : (e : E) → R e → Prop} {A : α → Prop}

theorem uses_pure {a : α} (ha : A a) : Uses C B A (pure a : Prog E R α) := ha

@[simp] theorem uses_pure_iff {a : α} : Uses C B A (pure a : Prog E R α) ↔ A a := Iff.rfl

theorem uses_perform {e : E} {A : R e → Prop} (he : C e) (hA : ∀ r, B e r → A r) :
    Uses C B A (perform e : Prog E R (R e)) :=
  ⟨he, hA⟩

variable {A' : β → Prop}

theorem Uses.bind {p : Prog E R α} {f : α → Prog E R β} (hp : Uses C B A p)
    (hf : ∀ a, A a → Uses C B A' (f a)) : Uses C B A' (p >>= f) := by
  induction p with
  | ret a => exact hf a hp
  | call e k ih => exact ⟨hp.1, fun r hr => ih r (hp.2 r hr)⟩

theorem uses_call {e : E} {f : R e → Prog E R β} (he : C e)
    (hf : ∀ r, B e r → Uses C B A' (f r)) : Uses C B A' (perform e >>= f) :=
  ⟨he, hf⟩

@[simp] theorem uses_call_iff {e : E} {f : R e → Prog E R β} :
    Uses C B A' (perform e >>= f) ↔ C e ∧ ∀ r, B e r → Uses C B A' (f r) := Iff.rfl

theorem Uses.map {p : Prog E R α} {f : α → β}
    (hp : Uses C B (fun a => A' (f a)) p) : Uses C B A' (f <$> p) :=
  Uses.bind (f := fun a => pure (f a)) hp fun _ ha => ha

theorem Uses.mono {C' : E → Prop} {A' : α → Prop} {p : Prog E R α} (hp : Uses C B A p)
    (hC : ∀ e, C e → C' e) (hA : ∀ a, A a → A' a) : Uses C' B A' p := by
  induction p with
  | ret a => exact hA a hp
  | call e k ih => exact ⟨hC e hp.1, fun r hr => ih r (hp.2 r hr)⟩

end Uses

/-! Following a program among others -/

/-- What can happen while a program runs: `env s s'` is a move of another party, and
    `may s e r s'` says that the call `e` can be answered by `r` and leave `s'`. -/
structure Rules (E : Type) (R : E → Type) (σ : Type) where
  env : σ → σ → Prop
  may : σ → (e : E) → R e → σ → Prop

variable (ρ : Rules E R σ) (safe : σ → E → Prop)

/-- However the world answers and the others move, each call of the program is safe in the
    state that it finds, and what the program returns meets `Q`. -/
def Holds (Q : α → σ → Prop) : Prog E R α → σ → Prop
  | ret a, s => ∀ s₁, Relation.ReflTransGen ρ.env s s₁ → Q a s₁
  | call e k, s => ∀ s₁, Relation.ReflTransGen ρ.env s s₁ →
      safe s₁ e ∧ ∀ r s', ρ.may s₁ e r s' → Holds Q (k r) s'

variable {ρ safe} {Q : α → σ → Prop} {p : Prog E R α} {s s' : σ}

theorem Holds.env_moves (h : Holds ρ safe Q p s) (hs : Relation.ReflTransGen ρ.env s s') :
    Holds ρ safe Q p s' := by
  cases p with
  | ret | call => exact fun s₁ h₁ => h s₁ (hs.trans h₁)

theorem Holds.env_move (h : Holds ρ safe Q p s) (hs : ρ.env s s') : Holds ρ safe Q p s' :=
  h.env_moves (.single hs)

variable {e : E} {P : σ → Prop}

variable {k : R e → Prog E R α} {a : α} {Q' : α → σ → Prop} {f : α → Prog E R β} {A : α → Prop}

theorem Holds.answered {r : R e}
    (h : Holds ρ safe Q (call e k) s) (hr : ρ.may s e r s') : Holds ρ safe Q (k r) s' :=
  (h s .refl).2 r s' hr

theorem Holds.call_safe (h : Holds ρ safe Q (call e k) s) : safe s e :=
  (h s .refl).1

theorem Holds.returns (h : Holds ρ safe Q (ret a) s) : Q a s := h s .refl

/-- A predicate that the moves of the others keep. -/
def Stable (ρ : Rules E R σ) (P : σ → Prop) : Prop := ∀ s s', ρ.env s s' → P s → P s'

theorem Stable.moves (hP : Stable ρ P) (hs : Relation.ReflTransGen ρ.env s s')
    (h : P s) : P s' := by
  induction hs with
  | refl => exact h
  | tail _ hmove ih => exact hP _ _ hmove ih

/-- From every state of `P` the program is safe and ends with `Q`. -/
def Triple (ρ : Rules E R σ) (safe : σ → E → Prop) (P : σ → Prop) (p : Prog E R α)
    (Q : α → σ → Prop) : Prop :=
  ∀ s, P s → Holds ρ safe Q p s

theorem Triple.pre {P' : σ → Prop} (h : Triple ρ safe P p Q) (hP : ∀ s, P' s → P s) :
    Triple ρ safe P' p Q :=
  fun s hs => h s (hP s hs)

theorem Holds.post (h : Holds ρ safe Q p s) (hQ : ∀ a s, Q a s → Q' a s) : Holds ρ safe Q' p s := by
  induction p generalizing s with
  | ret a => exact fun s₁ h₁ => hQ a s₁ (h s₁ h₁)
  | call e k ih => exact fun s₁ h₁ => ⟨(h s₁ h₁).1, fun r s' hr => ih r ((h s₁ h₁).2 r s' hr)⟩

theorem Triple.post (h : Triple ρ safe P p Q) (hQ : ∀ a s, Q a s → Q' a s) : Triple ρ safe P p Q' :=
  fun s hs => (h s hs).post hQ

theorem triple_pure (hP : Stable ρ P) (h : ∀ s, P s → Q a s) : Triple ρ safe P (pure a) Q :=
  fun _ hs s₁ h₁ => h s₁ (hP.moves h₁ hs)

theorem triple_perform {M : R e → σ → Prop} (hP : Stable ρ P)
    (hM : ∀ r, Stable ρ (M r)) (hsafe : ∀ s, P s → safe s e)
    (h : ∀ s r s', P s → ρ.may s e r s' → M r s') : Triple ρ safe P (perform e) M := by
  intro s hs s₁ h₁
  have hs₁ : P s₁ := hP.moves h₁ hs
  refine ⟨hsafe s₁ hs₁, fun r s' hr s₂ h₂ => ?_⟩
  exact (hM r).moves h₂ (h s₁ r s' hs₁ hr)

theorem Triple.bind {M : α → σ → Prop}
    {Q : β → σ → Prop} (hp : Triple ρ safe P p M) (hf : ∀ a, Triple ρ safe (M a) (f a) Q) :
    Triple ρ safe P (p >>= f) Q := by
  intro s hs
  have hM := hp s hs
  clear hs hp
  induction p generalizing s with
  | ret a => exact hf a s hM.returns
  | call e k ih => exact fun s₁ h₁ => ⟨(hM s₁ h₁).1, fun r s' hr => ih r s' ((hM s₁ h₁).2 r s' hr)⟩

theorem Triple.bind_of {M : σ → Prop} {Q : β → σ → Prop}
    (hp : Triple ρ safe P p fun a s => A a ∧ M s) (hf : ∀ a, A a → Triple ρ safe M (f a) Q) :
    Triple ρ safe P (p >>= f) Q :=
  hp.bind fun a s h => hf a h.1 s h.2

/-- **What every call of a kind keeps, a program of such calls keeps.** The answers in states
    that meet `P` are those that the calls and the result depend on. -/
theorem Uses.triple {C : E → Prop} {B : (e : E) → R e → Prop}
    (hp : Uses C B A p) (hP : Stable ρ P) (hsafe : ∀ s e, C e → P s → safe s e)
    (hC : ∀ s e r s', C e → P s → ρ.may s e r s' → B e r ∧ P s') :
    Triple ρ safe P p fun a s => A a ∧ P s := by
  intro s hs
  induction p generalizing s with
  | ret a => exact fun s₁ h₁ => ⟨hp, hP.moves h₁ hs⟩
  | call e k ih =>
    intro s₁ h₁
    have hs₁ : P s₁ := hP.moves h₁ hs
    refine ⟨hsafe s₁ e hp.1 hs₁, fun r s' hr => ?_⟩
    obtain ⟨hB, hs'⟩ := hC s₁ e r s' hp.1 hs₁ hr
    exact ih r (hp.2 r hB) s' hs'

end Prog

/-! A system that runs one program over and over -/

/-- The state, and the program as far as it is still to be run. -/
structure System (E : Type) (R : E → Type) (α σ : Type) where
  state : σ
  running : Option (Prog E R α)

inductive SystemEvent (ε ο : Type) where
  /-- Another party moves. -/
  | other (e : ε)
  | start
  /-- The next call of the program is made, with the outcome `o`. -/
  | go (o : ο)

namespace System

variable {E : Type} {R : E → Type} {α σ ε ο : Type}

/-- No call of the program is outstanding. -/
def idle (w : System E R α σ) : Bool :=
  match w.running with
  | none | some (.ret _) => true
  | some (.call _ _) => false

def next (w : System E R α σ) : Option E := w.running.bind Prog.next

variable (env : σ → ε → Option σ) (exec : σ → (e : E) → ο → Option (R e × σ)) (prog : Prog E R α)

def step (w : System E R α σ) : SystemEvent ε ο → Option (System E R α σ)
  | .other e => (env w.state e).map fun s => { w with state := s }
  | .start =>
    match w.running with
    | none | some (.ret _) => some { w with running := some prog }
    | some (.call _ _) => none
  | .go o =>
    match w.running with
    | some (.call e k) => (exec w.state e o).map fun rs => { state := rs.2, running := some (k rs.1) }
    | none | some (.ret _) => none

variable (okIdle okBusy : σ → ε → Prop) (okCall : σ → E → ο → Prop)

/-- A condition on the steps of a system: on the moves of the others while the program is
    not running and while it is, and on the calls. -/
def ok (w : System E R α σ) : SystemEvent ε ο → Prop
  | .other e => if w.idle then okIdle w.state e else okBusy w.state e
  | .start => True
  | .go o => ∀ e ∈ w.next, okCall w.state e o

instance [∀ s e, Decidable (okIdle s e)] [∀ s e, Decidable (okBusy s e)]
    [∀ s e o, Decidable (okCall s e o)] (w : System E R α σ) (ev : SystemEvent ε ο) :
    Decidable (ok okIdle okBusy okCall w ev) :=
  match ev with
  | .other e => inferInstanceAs (Decidable (if w.idle then okIdle w.state e else okBusy w.state e))
  | .start => isTrue trivial
  | .go o => inferInstanceAs (Decidable (∀ e ∈ w.next, okCall w.state e o))

/-- What can happen while the program runs, as the condition allows it. -/
def rules : Prog.Rules E R σ where
  env s s' := ∃ e, okBusy s e ∧ env s e = some s'
  may s e r s' := ∃ o, okCall s e o ∧ exec s e o = some (r, s')

variable {env exec prog okIdle okBusy okCall}

/-- What holds of a system whose program keeps to `Holds`. -/
def Inv (ρ : Prog.Rules E R σ) (safe : σ → E → Prop) (I : σ → Prop) (Q : α → σ → Prop)
    (w : System E R α σ) : Prop :=
  match w.running with
  | none => I w.state
  | some (.ret a) => Q a w.state
  | some (.call e k) => Prog.Holds ρ safe Q (.call e k) w.state

variable {safe : σ → E → Prop} {I : σ → Prop} {Q : α → σ → Prop} {w w' : System E R α σ}

variable {s : σ} {ρ : Prog.Rules E R σ}

theorem inv_of_holds {p : Prog E R α} (h : Prog.Holds (rules env exec okBusy okCall) safe Q p s) :
    Inv (rules env exec okBusy okCall) safe I Q ⟨s, some p⟩ := by
  cases p with
  | ret a => exact h.returns
  | call e k => exact h

section

variable (hI : ∀ s e s', okIdle s e → env s e = some s' → I s → I s')
  (hQ : ∀ a s e s', okIdle s e → env s e = some s' → Q a s → Q a s') (hrestart : ∀ a s, Q a s → I s)
  (hprog : Prog.Triple (rules env exec okBusy okCall) safe I prog Q)
include hI hQ hrestart hprog

/-- **From a triple to the steps of the system.** A program that is started with `I` and
    ends with `Q` keeps to its triple among the others, and so over and over. -/
theorem inv_step (w : System E R α σ) (ev : SystemEvent ε ο) (w' : System E R α σ)
    (h : Inv (rules env exec okBusy okCall) safe I Q w) (hok : ok okIdle okBusy okCall w ev)
    (hstep : step env exec prog w ev = some w') :
    Inv (rules env exec okBusy okCall) safe I Q w' := by
  obtain ⟨s, running⟩ := w
  cases ev with
  | other e =>
    obtain ⟨s', hs', rfl⟩ := Option.map_eq_some_iff.mp hstep
    match running with
    | none => exact hI s e s' hok hs' h
    | some (.ret a) => exact hQ a s e s' hok hs' h
    | some (.call c k) => exact Prog.Holds.env_move (p := .call c k) h ⟨e, hok, hs'⟩
  | start =>
    match running with
    | none =>
      cases hstep
      exact inv_of_holds (hprog s h)
    | some (.ret a) =>
      cases hstep
      exact inv_of_holds (hprog s (hrestart a s h))
  | go o =>
    match running with
    | some (.call c k) =>
      obtain ⟨⟨r, s'⟩, hs', rfl⟩ := Option.map_eq_some_iff.mp hstep
      exact inv_of_holds (Prog.Holds.answered h ⟨o, hok c rfl, hs'⟩)

/-- **The runs of a system.** In every run that meets the condition the program keeps to
    its triple. -/
theorem run_inv (hs : I s) {es : List (SystemEvent ε ο)}
    (hok : Along (step env exec prog) (ok okIdle okBusy okCall) ⟨s, none⟩ es)
    (hrun : run (step env exec prog) ⟨s, none⟩ es = some w) :
    Inv (rules env exec okBusy okCall) safe I Q w := by
  have h₀ : Inv (rules env exec okBusy okCall) safe I Q ⟨s, none⟩ := hs
  exact run_invariant (inv_step hI hQ hrestart hprog) h₀ hok hrun

end

theorem step_state {ev : SystemEvent ε ο} (h : step env exec prog w ev = some w') :
    (∃ e, ev = .other e ∧ env w.state e = some w'.state) ∨ w'.state = w.state ∨
      ∃ o e r, w.next = some e ∧ exec w.state e o = some (r, w'.state) := by
  obtain ⟨s, running⟩ := w
  cases ev with
  | other e =>
    obtain ⟨s', hs', rfl⟩ := Option.map_eq_some_iff.mp h
    exact .inl ⟨e, rfl, hs'⟩
  | start =>
    match running with
    | none | some (.ret _) =>
      cases h
      exact .inr (.inl rfl)
  | go o =>
    match running with
    | some (.call e k) =>
      obtain ⟨⟨r, s'⟩, hs', rfl⟩ := Option.map_eq_some_iff.mp h
      exact .inr (.inr ⟨o, e, r, rfl, hs'⟩)

theorem Inv.next_safe {e : E} (h : Inv ρ safe I Q w) (he : w.next = some e) : safe w.state e := by
  obtain ⟨s, running⟩ := w
  match running with
  | some (.call c k) =>
    cases he
    exact Prog.Holds.call_safe h

/-- What holds between the runs of the program, when it has returned, and whenever it makes a
    call holds in every state. -/
theorem Inv.state {P : σ → Prop} (h : Inv ρ safe I Q w) (hI : ∀ s, I s → P s)
    (hQ : ∀ a s, Q a s → P s) (hsafe : ∀ s e, safe s e → P s) : P w.state := by
  obtain ⟨s, running⟩ := w
  match running with
  | none => exact hI s h
  | some (.ret a) => exact hQ a s h
  | some (.call e k) => exact hsafe s e (Prog.Holds.call_safe h)

/-- **What an invariant implies between the runs of the program, and the program itself keeps,
    holds in every state.** -/
theorem run_safe {P : σ → Prop} (hI : ∀ s e s', okIdle s e → env s e = some s' → I s → I s')
    (hprog : Prog.Triple (rules env exec okBusy okCall) (fun s _ => P s) I prog fun _ => I)
    (hP : ∀ s, I s → P s) (hs : I s) {es : List (SystemEvent ε ο)}
    (hok : Along (step env exec prog) (ok okIdle okBusy okCall) ⟨s, none⟩ es)
    (hrun : run (step env exec prog) ⟨s, none⟩ es = some w) : P w.state :=
  (run_inv hI (fun _ => hI) (fun _ _ h => h) hprog hs hok hrun).state hP (fun _ => hP) fun _ _ h => h

end System

end Lts
