import Porch.Key.Types
import Porch.Lts.Run

/- `SafeRepoMap` of `pkg/cache/repomap/saferepomap.go` under any number of calls at once.

     sync.Map       entry
     LoadOrCreate   loadOrStore to returned
     LoadAndDelete  loadAndDelete, taken

   The operations of the map are atomic, and a call that finds the once of its loader
   running waits. A loader that has failed stays in the map if the call that runs its
   create function is not the one that stored it, and the clean-up of a failed one takes
   out whatever is under the key by then (`failed_entry_kept`). Neither happens in a run in
   which create functions fail only for the call that stored the loader, and no loader is
   deleted before it is done (`failed_entry_removed`). -/
namespace Porch.RepoMap

open Function Lts

inductive Once where
  | fresh
  | running
  | done
deriving DecidableEq, Repr

/-- A loader with the key that it was stored under; `failed` says that `err` is set. -/
structure RepoLoader (ρ : Type) where
  key : RepositoryKey := {}
  once : Once := .fresh
  repo : Option ρ := none
  failed : Bool := false

/-- What a call does next. `loaded` says that another call has stored the loader. -/
inductive Phase (ρ : Type) where
  | idle
  | loadOrStore (key : RepositoryKey)
  | doOnce (l : Nat) (loaded : Bool)
  | create (l : Nat) (loaded : Bool)
  | delete (l : Nat)
  | leave (l : Nat)
  /-- None is an error. -/
  | returned (repo : Option ρ)
  | loadAndDelete (key : RepositoryKey)
  /-- None when nothing was found; a loader that is not done has no repository. -/
  | taken (repo : Option (Option ρ))
deriving DecidableEq

inductive Call where
  | loadOrCreate (key : RepositoryKey)
  | loadAndDelete (key : RepositoryKey)

def Call.first {ρ : Type} : Call → Phase ρ
  | loadOrCreate k => .loadOrStore k
  | loadAndDelete k => .loadAndDelete k

structure World (ρ ι : Type) where
  entry : RepositoryKey → Option Nat := fun _ => none
  /-- The loaders that have been made. -/
  loaders : Nat → RepoLoader ρ := fun _ => {}
  made : Nat := 0
  phase : ι → Phase ρ := fun _ => .idle

inductive Event (ρ ι : Type) where
  | start (i : ι) (c : Call)
  /-- A call goes on. A create function that returns gives `created`, none for an error. -/
  | go (i : ι) (created : Option ρ)

variable {ρ ι : Type}

/-- A loader that no call is at work on. -/
def RepoLoader.Settled (x : RepoLoader ρ) (stored : Prop) : Prop :=
  (x.once = .fresh → stored) ∧ (x.once = .done → x.failed = true → ¬ stored)

def Phase.runs (l : Nat) : Phase ρ → Bool
  | create l' _ | delete l' | leave l' => l' = l
  | _ => false

namespace World

section Step

variable [DecidableEq ι] (w : World ρ ι)

def goto (i : ι) (ph : Phase ρ) : World ρ ι := { w with phase := update w.phase i ph }

def setLoader (l : Nat) (x : RepoLoader ρ) : World ρ ι :=
  { w with loaders := update w.loaders l x }

def setEntry (k : RepositoryKey) (l : Option Nat) : World ρ ι :=
  { w with entry := update w.entry k l }

def store (k : RepositoryKey) : World ρ ι :=
  { w with
    entry := update w.entry k (some w.made)
    loaders := update w.loaders w.made { key := k }
    made := w.made + 1 }

def go (i : ι) (created : Option ρ) : Phase ρ → Option (World ρ ι)
  | .loadOrStore k =>
    match w.entry k with
    | some l => w.goto i (.doOnce l true)
    | none => (w.store k).goto i (.doOnce w.made false)
  | .doOnce l loaded =>
    match (w.loaders l).once with
    | .fresh => (w.setLoader l { w.loaders l with once := .running }).goto i (.create l loaded)
    | .running => none
    | .done => w.goto i (.returned (w.loaders l).repo)
  | .create l loaded =>
    (w.setLoader l { w.loaders l with repo := created, failed := created.isNone }).goto i
      (if created.isNone && !loaded then .delete l else .leave l)
  | .delete l => (w.setEntry (w.loaders l).key none).goto i (.leave l)
  | .leave l =>
    (w.setLoader l { w.loaders l with once := .done }).goto i (.returned (w.loaders l).repo)
  | .loadAndDelete k =>
    (w.setEntry k none).goto i (.taken ((w.entry k).map fun l => (w.loaders l).repo))
  | .idle | .returned _ | .taken _ => none

def step : Event ρ ι → Option (World ρ ι)
  | .start i c => match w.phase i with
    | .idle => w.goto i c.first
    | _ => none
  | .go i created => w.go i created (w.phase i)

end Step

/-! Runs in order -/

variable (w : World ρ ι)

/-- The condition on the step of a call in a phase. -/
def InOrderGo (created : Option ρ) : Phase ρ → Prop
  | .create _ loaded => created.isNone = true → loaded = false
  | .loadAndDelete k => ∀ l ∈ w.entry k, (w.loaders l).once = .done
  | _ => True

def InOrder : Event ρ ι → Prop
  | .start .. => True
  | .go i created => w.InOrderGo created (w.phase i)

instance (created : Option ρ) (ph : Phase ρ) : Decidable (w.InOrderGo created ph) := by
  cases ph <;> dsimp only [InOrderGo] <;> infer_instance

instance (ev : Event ρ ι) : Decidable (w.InOrder ev) := by
  cases ev <;> dsimp only [InOrder] <;> infer_instance

def Stored (l : Nat) : Prop := w.entry (w.loaders l).key = some l

def Fits : Phase ρ → Prop
  | .doOnce l _ => l < w.made
  | .create l _ => l < w.made ∧ (w.loaders l).once = .running ∧ w.Stored l
  | .delete l => l < w.made ∧ (w.loaders l).once = .running ∧ w.Stored l ∧ (w.loaders l).repo = none
  | .leave l =>
    l < w.made ∧ (w.loaders l).once = .running ∧ ((w.loaders l).failed = true → ¬ w.Stored l)
  | _ => True

structure Inv : Prop where
  entries : ∀ k l, w.entry k = some l → l < w.made ∧ (w.loaders l).key = k
  settled : ∀ l, l < w.made → (w.loaders l).Settled (w.Stored l)
  alone : ∀ i j l, (w.phase i).runs l = true → (w.phase j).runs l = true → i = j
  fits : ∀ i, w.Fits (w.phase i)

variable {w} {w₁ : World ρ ι} {ph : Phase ρ} {i : ι} {l : Nat}

theorem Fits.frame (h : w.Fits ph) (hmade : w.made ≤ w₁.made)
    (hframe : ∀ l, l < w.made → ph.runs l = true →
      w₁.loaders l = w.loaders l ∧ (w₁.Stored l ↔ w.Stored l)) : w₁.Fits ph := by
  cases ph with
  | doOnce l loaded => exact Nat.lt_of_lt_of_le h hmade
  | create l | delete l | leave l =>
    obtain ⟨hloader, hsto⟩ := hframe l h.1 (decide_eq_true rfl)
    simp only [Fits, hloader, hsto]
    exact ⟨Nat.lt_of_lt_of_le h.1 hmade, h.2⟩
  | _ => trivial

theorem Fits.running (h : w.Fits ph) (hruns : ph.runs l = true) :
    l < w.made ∧ (w.loaders l).once = .running := by
  cases ph with
  | create | delete | leave =>
    obtain rfl := of_decide_eq_true hruns
    exact ⟨h.1, h.2.1⟩
  | _ => cases hruns

section Steps

variable [DecidableEq ι]

/-- The call goes on to a phase, and the loaders that change have no other runner. -/
theorem Inv.goto (h : w.Inv) (hphase : w₁.phase = w.phase) (hmade : w.made ≤ w₁.made)
    (hentries : ∀ k l, w₁.entry k = some l → l < w₁.made ∧ (w₁.loaders l).key = k)
    (hloader : ∀ l, l < w₁.made →
      l < w.made ∧ w₁.loaders l = w.loaders l ∧ (w₁.Stored l ↔ w.Stored l) ∨
        (w₁.loaders l).Settled (w₁.Stored l) ∧ ∀ j, j ≠ i → (w.phase j).runs l = false)
    (hself : w₁.Fits ph)
    (hruns : ∀ l, ph.runs l = true → ∀ j, j ≠ i → (w.phase j).runs l = false) :
    (w₁.goto i ph).Inv := by
  refine ⟨hentries, fun l hl => ?_, fun j k l hj hk => ?_, ?_⟩
  · obtain ⟨hlt, heq, hsto⟩ | hl := hloader l hl
    · show (w₁.loaders l).Settled (w₁.Stored l)
      rw [heq, hsto]
      exact h.settled l hlt
    · exact hl.1
  · simp only [World.goto, hphase, update_apply] at hj hk
    split at hj <;> split at hk
    case isTrue.isTrue hji hki => exact hji.trans hki.symm
    case isTrue.isFalse hki => exact nomatch (hruns l hj k hki).symm.trans hk
    case isFalse.isTrue hji _ => exact nomatch (hruns l hk j hji).symm.trans hj
    case isFalse.isFalse => exact h.alone j k l hj hk
  · refine (forall_update_iff w₁.phase fun _ => w₁.Fits).mpr ⟨hself, fun j hj => ?_⟩
    rw [hphase]
    refine (h.fits j).frame hmade fun l hlt hl => ?_
    obtain hsame | hother := hloader l (Nat.lt_of_lt_of_le hlt hmade)
    · exact hsame.2
    · exact nomatch (hother.2 j hj).symm.trans hl

theorem Inv.turn (h : w.Inv) (hself : w.Fits ph) (hruns : ∀ l, ph.runs l = false) :
    (w.goto i ph).Inv :=
  h.goto rfl (Nat.le_refl _) h.entries (fun _ hl => .inl ⟨hl, rfl, .rfl⟩) hself
    fun l hl => nomatch (hruns l).symm.trans hl

/-- The call changes the loader that it runs, or is the first to enter. -/
theorem Inv.setLoader {x : RepoLoader ρ} (h : w.Inv)
    (hkey : x.key = (w.loaders l).key) (hrunner : ∀ j, j ≠ i → (w.phase j).runs l = false)
    (hsettled : x.Settled (w.Stored l))
    (hself : (w.setLoader l x).Fits ph) (hruns : ∀ l', ph.runs l' = true → l' = l) :
    ((w.setLoader l x).goto i ph).Inv := by
  refine h.goto rfl (Nat.le_refl _) (fun k l' hk => ?_) (fun l' hl' => ?_) hself
    fun l' hl' => hruns l' hl' ▸ hrunner
  · obtain ⟨hlt, hk'⟩ := h.entries k l' hk
    refine ⟨hlt, ?_⟩
    rcases eq_or_ne l' l with rfl | hne
    · simp [World.setLoader, hkey, hk']
    · simp [World.setLoader, hne, hk']
  · rcases eq_or_ne l' l with rfl | hne
    · refine .inr ⟨?_, hrunner⟩
      simpa [World.Stored, World.setLoader, hkey] using hsettled
    · exact .inl ⟨hl', by simp [World.setLoader, hne], by simp [World.Stored, World.setLoader, hne]⟩

/-- An entry is taken out that no call but this one is at work on. -/
theorem Inv.setEntry {k : RepositoryKey} (h : w.Inv)
    (hother : ∀ l, w.entry k = some l →
      (w.loaders l).once ≠ .fresh ∧ ∀ j, j ≠ i → (w.phase j).runs l = false)
    (hself : (w.setEntry k none).Fits ph)
    (hruns : ∀ l, ph.runs l = true → ∀ j, j ≠ i → (w.phase j).runs l = false) :
    ((w.setEntry k none).goto i ph).Inv := by
  have hentry : ∀ k', (w.setEntry k none).entry k' = if k' = k then none else w.entry k' := by
    intro k'
    simp only [World.setEntry, update_apply]
  refine h.goto rfl (Nat.le_refl _) (fun k' l hk' => ?_) (fun l hl => ?_) hself hruns
  · rw [hentry] at hk'
    split at hk'
    · cases hk'
    · exact h.entries k' l hk'
  · by_cases hk : w.entry k = some l
    · have hkey : (w.loaders l).key = k := (h.entries k l hk).2
      refine .inr ⟨⟨fun hfresh => absurd hfresh (hother l hk).1, fun _ _ hst => ?_⟩, (hother l hk).2⟩
      simp [World.Stored, World.setEntry, hkey] at hst
    · refine .inl ⟨hl, rfl, ?_⟩
      unfold World.Stored
      rw [hentry]
      split
      · rename_i heq
        have heq : (w.loaders l).key = k := heq
        rw [heq]
        exact iff_of_false nofun hk
      · rfl

theorem Inv.store {k : RepositoryKey} (h : w.Inv) (hk : w.entry k = none) :
    ((w.store k).goto i (.doOnce w.made false)).Inv := by
  have hnew : (w.store k).loaders w.made = { key := k } := update_self _ _ _
  have hloader : ∀ l, l < w.made → (w.store k).loaders l = w.loaders l :=
    fun l hl => update_of_ne (Nat.ne_of_lt hl) _ _
  have hentry : ∀ k', (w.store k).entry k' = if k' = k then some w.made else w.entry k' := by
    intro k'
    simp only [World.store, update_apply]
  refine h.goto rfl (Nat.le_succ _) (fun k' l hk' => ?_) (fun l hl => ?_) (Nat.lt_succ_self _) nofun
  · rw [hentry] at hk'
    split at hk'
    · rename_i heq
      cases hk'
      exact ⟨Nat.lt_succ_self _, by rw [hnew, heq]⟩
    · obtain ⟨hl, hkey⟩ := h.entries k' l hk'
      exact ⟨Nat.lt_succ_of_lt hl, by rw [hloader l hl, hkey]⟩
  · obtain hl | rfl := Nat.lt_succ_iff_lt_or_eq.mp hl
    · refine .inl ⟨hl, hloader l hl, ?_⟩
      unfold World.Stored
      rw [hloader l hl, hentry]
      split
      · rename_i heq
        rw [heq, hk]
        simp [Nat.ne_of_gt hl]
      · rfl
    · refine .inr ⟨?_, fun j _ => Bool.eq_false_iff.mpr fun hruns => ?_⟩
      · rw [World.Stored, hnew, hentry, if_pos rfl]
        exact ⟨fun _ => rfl, nofun⟩
      · exact Nat.lt_irrefl _ ((h.fits j).running hruns).1

theorem Inv.go {created : Option ρ} (h : w.Inv) (hok : w.InOrder (.go i created))
    (hgo : w.go i created (w.phase i) = some w₁) : w₁.Inv := by
  have hfits := h.fits i
  have hok : w.InOrderGo created (w.phase i) := hok
  have hrunner : ∀ l, (w.phase i).runs l = true → ∀ j, j ≠ i → (w.phase j).runs l = false := by
    intro l hl j hj
    apply Bool.eq_false_iff.mpr
    intro hruns
    exact hj (h.alone j i l hruns hl)
  cases hph : w.phase i <;> rw [hph] at hgo hfits hok hrunner
  case loadOrStore k =>
    simp only [World.go] at hgo
    split at hgo
    · rename_i l hk
      cases hgo
      exact h.turn (h.entries k l hk).1 (fun _ => rfl)
    · rename_i hk
      cases hgo
      exact h.store hk
  case doOnce l loaded =>
    simp only [World.go] at hgo
    split at hgo
    · rename_i honce
      cases hgo
      have hst := (h.settled l hfits).1 honce
      -- a loader that nobody has entered has no runner
      have hnone : ∀ j, j ≠ i → (w.phase j).runs l = false := by
        intro j _
        apply Bool.eq_false_iff.mpr
        intro hruns
        rw [((h.fits j).running hruns).2] at honce
        cases honce
      refine h.setLoader rfl hnone ⟨nofun, nofun⟩ ⟨hfits, ?_, ?_⟩ fun l' hl' => (of_decide_eq_true hl').symm
      · simp only [World.setLoader, update_self]
      · simpa only [World.Stored, World.setLoader, update_self] using hst
    · cases hgo
    · cases hgo
      exact h.turn trivial (fun _ => rfl)
  case create l loaded =>
    cases hgo
    obtain ⟨hl, honce, hst⟩ := hfits
    have hruns : (Phase.create l loaded : Phase ρ).runs l = true := decide_eq_true rfl
    refine h.setLoader rfl (hrunner l hruns) ?_ ?_ fun l' hl' => ?_
    · simp [RepoLoader.Settled, honce]
    · split
      · rename_i hfail
        simp only [Bool.and_eq_true, Option.isNone_iff_eq_none] at hfail
        simpa [World.Fits, World.Stored, World.setLoader, hl, honce, hfail.1] using hst
      · rename_i hfail
        have hcreated : created.isNone = false := by
          cases hnone : created.isNone
          · rfl
          · simp [hnone, hok hnone] at hfail
        simp [World.Fits, World.setLoader, hl, honce, hcreated]
    · split at hl' <;> exact (of_decide_eq_true hl').symm
  case delete l =>
    cases hgo
    obtain ⟨hl, honce, hst, _⟩ := hfits
    have hruns : (Phase.delete l : Phase ρ).runs l = true := decide_eq_true rfl
    refine h.setEntry (fun l' heq => ?_) ⟨hl, honce, fun _ hst' => ?_⟩ hrunner
    · obtain rfl : l = l' := Option.some.inj (hst.symm.trans heq)
      exact ⟨by rw [honce]; nofun, hrunner l hruns⟩
    · simp [World.Stored, World.setEntry] at hst'
  case leave l =>
    cases hgo
    obtain ⟨hl, honce, hfailed⟩ := hfits
    have hruns : (Phase.leave l : Phase ρ).runs l = true := decide_eq_true rfl
    exact h.setLoader rfl (hrunner l hruns) ⟨nofun, fun _ => hfailed⟩ trivial nofun
  case loadAndDelete k =>
    cases hgo
    refine h.setEntry (fun l heq => ⟨by rw [hok l heq]; nofun, fun j _ => ?_⟩) trivial nofun
    apply Bool.eq_false_iff.mpr
    intro hruns
    exact nomatch ((h.fits j).running hruns).2.symm.trans (hok l heq)
  all_goals cases hgo

theorem Inv.step {ev : Event ρ ι} (h : w.Inv) (hok : w.InOrder ev) (hstep : w.step ev = some w₁) :
    w₁.Inv := by
  cases ev with
  | start i c =>
    simp only [World.step] at hstep
    split at hstep
    · cases hstep
      cases c with
      | loadOrCreate | loadAndDelete => exact h.turn trivial (fun _ => rfl)
    · cases hstep
  | go i created => exact h.go hok hstep

end Steps

theorem inv_init : ({} : World ρ ι).Inv where
  entries := nofun
  settled := nofun
  alone := nofun
  fits _ := trivial

end World

/-- **In every state of a run in order, no entry has failed once it is done, and a call
    that cleans up after a failure finds no entry that has been created.** -/
theorem failed_entry_removed [DecidableEq ι] {es : List (Event ρ ι)} {w : World ρ ι}
    (hok : Along World.step World.InOrder {} es) (hrun : run World.step {} es = some w) :
    (∀ k l, w.entry k = some l → (w.loaders l).once = .done → (w.loaders l).failed = false) ∧
      ∀ i l, w.phase i = .delete l →
        ∀ l', w.entry (w.loaders l).key = some l' → (w.loaders l').repo = none := by
  have h : w.Inv :=
    run_invariant (fun _ _ _ h hok hstep => h.step hok hstep) World.inv_init hok hrun
  refine ⟨?_, ?_⟩
  · intro k l hk hdone
    apply Bool.eq_false_iff.mpr
    intro hfailed
    apply (h.settled l (h.entries k l hk).1).2 hdone hfailed
    unfold World.Stored
    rw [(h.entries k l hk).2]
    exact hk
  · intro i l hph l' hl'
    have hfits := h.fits i
    rw [hph] at hfits
    obtain ⟨_, _, hst, hrepo⟩ := hfits
    have heq : l = l' := Option.some.inj (hst.symm.trans hl')
    rw [← heq]
    exact hrepo

/-- What three calls have returned, and the entry of the key. -/
structure Seen where
  phases : List (Phase Unit)
  entry : Option (Once × Option Unit)
deriving DecidableEq

def seen (w : World Unit (Fin 3)) : Seen where
  phases := [w.phase 0, w.phase 1, w.phase 2]
  entry := (w.entry {}).map fun l => ((w.loaders l).once, (w.loaders l).repo)

/-- A creation fails for the call that stored the loader, and the next one succeeds. -/
def retryRun : List (Event Unit (Fin 3)) :=
  [.start 0 (.loadOrCreate {}), .go 0 none, .go 0 none, .start 1 (.loadOrCreate {}), .go 1 none, .go 0 none, .go 0 none, .go 0 none,
    .go 1 none, .start 2 (.loadOrCreate {}), .go 2 none, .go 2 none, .go 2 (some ()), .go 2 none]

theorem failed_entry_removed_retryRun : ∃ w, run World.step {} retryRun = some w ∧
      seen w = ⟨[.returned none, .returned none, .returned (some ())], some (.done, some ())⟩ ∧
      ∀ k l, w.entry k = some l → (w.loaders l).once = .done → (w.loaders l).failed = false := by
  refine exists_reached (by decide +kernel) fun w hw _ => ?_
  exact (failed_entry_removed (by decide +kernel) hw).1

/-- **Create functions of a key run one at a time**, and none while the entry of the key is
    done, in every state of a run in order. -/
theorem one_create_at_a_time [DecidableEq ι] {es : List (Event ρ ι)} {w : World ρ ι}
    (hok : Along World.step World.InOrder {} es) (hrun : run World.step {} es = some w)
    {i : ι} {l : Nat} {loaded : Bool} (hi : w.phase i = .create l loaded) :
    (∀ l', w.entry (w.loaders l).key = some l' → (w.loaders l').once = .running) ∧
      ∀ j l' loaded', w.phase j = .create l' loaded' → (w.loaders l').key = (w.loaders l).key → j = i := by
  have h : w.Inv :=
    run_invariant (fun _ _ _ h hok hstep => h.step hok hstep) World.inv_init hok hrun
  have hfits := h.fits i
  rw [hi] at hfits
  obtain ⟨_, honce, hst⟩ := hfits
  have hsame : ∀ l', w.entry (w.loaders l).key = some l' → l' = l :=
    fun l' hl' => Option.some.inj (hl'.symm.trans hst)
  refine ⟨fun l' hl' => hsame l' hl' ▸ honce, fun j l' loaded' hj hkey => ?_⟩
  have hfits' := h.fits j
  rw [hj] at hfits'
  obtain rfl : l' = l := hsame l' (hkey ▸ hfits'.2.2)
  exact h.alone j i l' (by simp [hj, Phase.runs]) (by simp [hi, Phase.runs])

theorem one_create_at_a_time_first : ∃ w, run World.step ({} : World Unit (Fin 3)) (retryRun.take 5) = some w ∧
    w.phase 0 = .create 0 false ∧
      ∀ j l loaded, w.phase j = .create l loaded → (w.loaders l).key = (w.loaders 0).key → j = 0 :=
  exists_reached (by decide +kernel) fun _ hw hph => (one_create_at_a_time (by decide +kernel) hw hph).2

/-- **A failure that is not that of the call that stored the loader stays for good, and a
    later call returns it without running its own create function; the failure of a loader
    that was taken out in the meantime takes out the one created after it.** -/
theorem failed_entry_kept :
    let shared := [.start 0 (.loadOrCreate {}), .go 0 none, .start 1 (.loadOrCreate {}), .go 1 none, .go 1 none, .go 1 none,
      .go 1 none, .go 0 none, .start 2 (.loadOrCreate {}), .go 2 none, .go 2 none]
    let created := [.start 0 (.loadOrCreate {}), .go 0 none, .go 0 none, .start 1 (.loadAndDelete {}), .go 1 none,
      .start 2 (.loadOrCreate {}), .go 2 none, .go 2 none, .go 2 (some ()), .go 2 none]
    (run World.step {} shared).map seen =
      some ⟨[.returned none, .returned none, .returned none], some (.done, none)⟩ ∧
    (run World.step {} created).map seen =
      some ⟨[.create 0 false, .taken (some none), .returned (some ())], some (.done, some ())⟩ ∧
    (run World.step {} (created ++ [.go 0 none, .go 0 none, .go 0 none])).map seen =
      some ⟨[.returned none, .taken (some none), .returned (some ())], none⟩ := by
  decide +kernel

end Porch.RepoMap
