import Porch.RepoController.World

/- `status.observedGeneration`, the generation of the spec that the controller has taken note of.

   A full sync that succeeds acknowledges the generation of its copy. A reconcile that finds
   the spec changed acknowledges it without a sync if `runOnceAt` is not the one that was
   observed last, and takes that for a sign that nothing else has changed. Every generation
   is acknowledged with reason in every run in which the object does not change in the
   middle of a reconcile, `runOnceAt` is changed only while all the other fields are synced,
   and other fields are changed only while `runOnceAt` is the observed one
   (`acknowledged_with_reason`). -/
namespace Porch.RepoController.Acknowledged

open Go Lts.Prog Lts

/-- Every field but `runOnceAt` is as it was synced last, and as the syncs have it that are under
    way. -/
@[mk_iff]
structure Synced (w : World) : Prop where
  last : ∃ synced ∈ w.history.lastSynced, w.repo.spec.SameButRunOnceAt synced
  copies : ∀ s ∈ w.syncs, s.active = true → w.repo.spec.SameButRunOnceAt s.copy.spec

/-- `runOnceAt` is the one that was observed, also for the syncs that are under way. -/
@[mk_iff]
structure Settled (w : World) : Prop where
  observed : w.repo.status.observedRunOnceAt = w.repo.spec.runOnceAt
  copies : ∀ s ∈ w.syncs, s.active = true → s.copy.spec.runOnceAt = w.repo.spec.runOnceAt ∧
    s.copy.status.observedRunOnceAt = w.repo.spec.runOnceAt

instance (w : World) : Decidable (Synced w) :=
  decidable_of_iff _ (synced_iff w).symm

instance (w : World) : Decidable (Settled w) :=
  decidable_of_iff _ (settled_iff w).symm

/-- An edit that does not touch more than it may. -/
def okEdit (w : World) (spec : RepositorySpec) : Prop :=
  w.repo.spec.SameButRunOnceAt spec ∧ Synced w ∨ spec.runOnceAt = w.repo.spec.runOnceAt ∧ Settled w

instance (w : World) (spec : RepositorySpec) : Decidable (okEdit w spec) :=
  inferInstanceAs (Decidable (_ ∧ _ ∨ _ ∧ _))

/-- Clearing `runOnceAt` is an edit too. -/
def okMove (w : World) : Move → Prop
  | .edit spec => okEdit w spec
  | .clear _ _ => okEdit w { w.repo.spec with runOnceAt := none }
  | .tick _ | .delete | .finish _ _ | .write _ _ => True

/-- In the middle of a reconcile the spec does not change, and no full sync comes to its end. -/
def okBusy (_ : World) : Move → Prop
  | .edit _ | .clear _ _ | .finish _ _ => False
  | .tick _ | .delete | .write _ _ => True

instance (w : World) (m : Move) : Decidable (okMove w m) := by
  cases m <;> dsimp only [okMove] <;> infer_instance

instance (w : World) (m : Move) : Decidable (okBusy w m) := by
  cases m <;> dsimp only [okBusy] <;> infer_instance

def ok : Controller → Event → Prop := System.ok okMove okBusy fun _ _ _ => True

instance (c : Controller) (ev : Event) : Decidable (ok c ev) :=
  inferInstanceAs (Decidable (System.ok _ _ _ _ _))

/-! What holds at all times -/

structure Known (w : World) : Prop where
  sound : w.history.unsound = false
  observed : w.repo.status.observedGeneration ∈ w.history.sound
  copies : ∀ s ∈ w.syncs, s.copy.status.observedGeneration ∈ w.history.sound
  spec : w.history.specs.lookup w.repo.generation = some w.repo.spec

structure Sound (w : World) : Prop extends Known w where
  either : Synced w ∨ Settled w

variable {cfg : Config} {w w' : World} {m : Move} {a b c : RepositorySpec}

theorem same_trans (h : a.SameButRunOnceAt b) (h' : b.SameButRunOnceAt c) : a.SameButRunOnceAt c :=
  Eq.trans h h'

theorem same_symm (h : a.SameButRunOnceAt b) : b.SameButRunOnceAt a := Eq.symm h

/-! What changes without consequence -/

/-- Nothing changes that is looked at here; the syncs that are under way were so before, with the
    same copies. -/
inductive Kept (w : World) : World → Prop
  | intro {now : Time} {finalizer deletionTimestamp gone seen falseReady unserved : Bool} {syncs : List Sync}
      {failures met reported recovered : Nat} {served : List Time}
      (hsyncs : ∀ s ∈ syncs, ∃ t ∈ w.syncs, t.copy = s.copy ∧ (s.active = true → t.active = true)) :
      Kept w
        { now, gone, seen, syncs
          repo := { w.repo with finalizer, deletionTimestamp }
          history := { w.history with failures, met, reported, recovered, falseReady, served, unserved } }

variable {failure i : Nat} {status : ApiStatus} {s : Sync} {e : Call}

theorem Known.kept (h : Known w) (hkept : Kept w w') : Known w' := by
  obtain ⟨hsyncs⟩ := hkept
  refine ⟨h.sound, h.observed, fun s hs => ?_, h.spec⟩
  obtain ⟨t, ht, hcopy, -⟩ := hsyncs s hs
  exact hcopy ▸ h.copies t ht

theorem Synced.kept (h : Synced w) (hkept : Kept w w') : Synced w' := by
  obtain ⟨hsyncs⟩ := hkept
  refine ⟨h.last, fun s hs ha => ?_⟩
  obtain ⟨t, ht, hcopy, hactive⟩ := hsyncs s hs
  exact hcopy ▸ h.copies t ht (hactive ha)

theorem Settled.kept (h : Settled w) (hkept : Kept w w') : Settled w' := by
  obtain ⟨hsyncs⟩ := hkept
  refine ⟨h.observed, fun s hs ha => ?_⟩
  obtain ⟨t, ht, hcopy, hactive⟩ := hsyncs s hs
  exact hcopy ▸ h.copies t ht (hactive ha)

theorem Sound.kept (h : Sound w) (hkept : Kept w w') : Sound w' :=
  ⟨h.toKnown.kept hkept, h.either.imp (·.kept hkept) (·.kept hkept)⟩

/-- A sync changes its stage. -/
theorem copies_set (hs : w.syncs[i]? = some s) (hactive : s.active = true) (stage : Stage) :
    ∀ t ∈ w.syncs.set i { s with stage := stage },
      ∃ t' ∈ w.syncs, t'.copy = t.copy ∧ (t.active = true → t'.active = true) := by
  intro t ht
  obtain rfl | ht := (mem_set_iff hs).mp ht
  · exact ⟨s, List.mem_of_getElem? hs, rfl, fun _ => hactive⟩
  · exact ⟨t, List.mem_of_mem_eraseIdx ht, rfl, id⟩

theorem copies_erase :
    ∀ t ∈ w.syncs.eraseIdx i, ∃ t' ∈ w.syncs, t'.copy = t.copy ∧ (t.active = true → t'.active = true) :=
  fun t ht => ⟨t, List.mem_of_mem_eraseIdx ht, rfl, id⟩

theorem exec_kept (he : e.isPlain = true) (o : Open) : Kept w (w.exec o e).2 := by
  generalize hexec : (w.exec o e).2 = w'
  cases w.exec_cases hexec with
  | visits | writes | launches => cases he
  | _ => exact ⟨fun s hs => ⟨s, hs, rfl, id⟩⟩

/-! During a reconcile -/

/-- The state while a reconcile has this object in hand. -/
structure Holding (repo : Repository) (w : World) : Prop extends Known w where
  spec_eq : repo.spec = w.repo.spec
  generation_eq : repo.generation = w.repo.generation
  acknowledged : repo.status.observedGeneration ∈ w.history.sound
  either : Synced w ∨ repo.status.observedRunOnceAt = w.repo.spec.runOnceAt ∧ Settled w

/-- The state while a reconcile acknowledges the generation of the spec without a sync. -/
structure Acknowledging (repo : Repository) (w : World) : Prop extends Known w where
  observed_eq : repo.status.observedGeneration = w.repo.generation
  synced : Synced w

variable {repo : Repository}

theorem Holding.toSound (h : Holding repo w) : Sound w := ⟨h.toKnown, h.either.imp_right (·.2)⟩

theorem Acknowledging.toSound (h : Acknowledging repo w) : Sound w := ⟨h.toKnown, .inl h.synced⟩

theorem Holding.kept (h : Holding repo w) (hkept : Kept w w') : Holding repo w' := by
  have hknown := h.toKnown.kept hkept
  have heither := h.either.imp (·.kept hkept) (And.imp_right (·.kept hkept))
  obtain ⟨hsyncs⟩ := hkept
  exact ⟨hknown, h.spec_eq, h.generation_eq, h.acknowledged, heither⟩

theorem Acknowledging.kept (h : Acknowledging repo w) (hkept : Kept w w') : Acknowledging repo w' := by
  have hknown := h.toKnown.kept hkept
  have hsynced := h.synced.kept hkept
  obtain ⟨hsyncs⟩ := hkept
  exact ⟨hknown, h.observed_eq, hsynced⟩

theorem Sound.holding (h : Sound w) (hspec : repo.spec = w.repo.spec)
    (hgen : repo.generation = w.repo.generation) (hstat : repo.status = w.repo.status) :
    Holding repo w := by
  refine ⟨h.toKnown, hspec, hgen, by rw [hstat]; exact h.observed, h.either.imp_right fun hs => ?_⟩
  rw [hstat]
  exact ⟨hs.observed, hs⟩

/-! A status is written -/

theorem Known.applyStatus (h : Known w)
    (hreason : w.history.Reason status.observedGeneration) : Known (w.applyStatus failure status) := by
  have hsound : (w.applyStatus failure status).history.sound = status.observedGeneration :: w.history.sound :=
    if_pos hreason
  refine ⟨?_, ?_, ?_, h.spec⟩
  · show (w.history.unsound || !decide (w.history.Reason status.observedGeneration)) = false
    rw [h.sound, decide_eq_true hreason]
    rfl
  · rw [hsound]
    exact List.mem_cons_self
  · intro s hs
    rw [hsound]
    exact List.mem_cons_of_mem _ (h.copies s hs)

theorem Acknowledging.applyStatus (h : Acknowledging repo w)
    (hreason : w.history.Reason status.observedGeneration) : Acknowledging repo (w.applyStatus failure status) :=
  ⟨h.toKnown.applyStatus hreason, h.observed_eq, ⟨h.synced.last, h.synced.copies⟩⟩

section

variable (hgen : status.observedGeneration ∈ w.history.sound)
include hgen

theorem Sound.applyStatus (h : Sound w) (hrun : Settled w → status.observedRunOnceAt = w.repo.spec.runOnceAt) :
    Sound (w.applyStatus failure status) := by
  refine ⟨h.toKnown.applyStatus (.inl hgen), h.either.imp (fun hs => ?_) fun hs => ?_⟩
  · exact ⟨hs.last, hs.copies⟩
  · exact ⟨hrun hs, hs.copies⟩

theorem Holding.applyStatus (h : Holding repo w) (hrun : repo.status.observedRunOnceAt = w.repo.spec.runOnceAt →
      Settled w → status.observedRunOnceAt = w.repo.spec.runOnceAt) :
    Holding repo (w.applyStatus failure status) := by
  have hsound : (w.applyStatus failure status).history.sound = status.observedGeneration :: w.history.sound :=
    if_pos (.inl hgen)
  refine ⟨h.toKnown.applyStatus (.inl hgen), h.spec_eq, h.generation_eq, ?_,
    h.either.imp (fun hs => ?_) fun hs => ?_⟩
  · rw [hsound]
    exact List.mem_cons_of_mem _ h.acknowledged
  · exact ⟨hs.last, hs.copies⟩
  · exact ⟨hs.1, hrun hs.1 hs.2, hs.2.copies⟩

end

/-! What the others do -/

abbrev rules (cfg : Config) : Rules Call Answer World :=
  System.rules (World.move cfg) answer okBusy fun _ _ _ => True

/-- In the middle of a reconcile the others write the status of a sync, if anything. -/
theorem stable_of {I : World → Prop} (hknown : ∀ {w}, I w → Known w) (hkept : ∀ {w w'}, I w → Kept w w' → I w')
    (happly : ∀ {w} failure status, I w → status.observedGeneration ∈ w.history.sound →
      (Settled w → status.observedRunOnceAt = w.repo.spec.runOnceAt) → I (w.applyStatus failure status)) :
    Stable (rules cfg) I := by
  rintro w w' ⟨m, hok, hmove⟩ h
  cases World.move_cases hmove with
  | tick | deleteBegins | deleted => exact hkept h ⟨fun s hs => ⟨s, hs, rfl, id⟩⟩
  | edit | succeeds | fails | clears => exact hok.elim
  | @writes i s o failure w₁ syncs hs hstage hw₁ hsyncs =>
    have hmem : s ∈ w.syncs := List.mem_of_getElem? hs
    have hactive : s.active = true := by simp [Sync.active, hstage]
    have hcopies : ∀ t ∈ syncs, ∃ t' ∈ w.syncs, t'.copy = t.copy ∧ (t.active = true → t'.active = true) := by
      obtain ⟨rfl, -⟩ | rfl := hsyncs
      exacts [copies_set hs hactive _, copies_erase]
    obtain rfl | rfl := hw₁
    · exact hkept h ⟨hcopies⟩
    · have h₁ := happly ((failure.map (·.2)).getD 0) (w.endStatus s failure) h ((hknown h).copies s hmem)
        fun hs => (hs.copies s hmem hactive).2
      refine hkept h₁ ?_
      exact ⟨hcopies⟩

theorem holding_stable (repo : Repository) : Stable (rules cfg) (Holding repo) :=
  stable_of (·.toKnown) .kept fun _ _ h hgen hrun => h.applyStatus hgen fun _ => hrun

theorem acknowledging_stable (repo : Repository) : Stable (rules cfg) (Acknowledging repo) :=
  stable_of (·.toKnown) .kept fun _ _ h hgen _ => h.applyStatus (.inl hgen)

theorem sound_stable : Stable (rules cfg) Sound :=
  stable_of (·.toKnown) .kept fun _ _ h hgen hrun => h.applyStatus hgen hrun

theorem Sound.edited {spec : RepositorySpec} (h : Sound w) (hok : okEdit w spec) : Sound (w.edited spec) := by
  refine ⟨⟨h.sound, h.observed, h.copies, by simp⟩, hok.imp (fun ⟨hsame, hsynced⟩ => ?_) fun ⟨hsame, hs⟩ => ?_⟩
  · obtain ⟨synced, hmem, hlast⟩ := hsynced.last
    refine ⟨⟨synced, hmem, ?_⟩, fun s hs ha => ?_⟩
    · exact same_trans (same_symm hsame) hlast
    · exact same_trans (same_symm hsame) (hsynced.copies s hs ha)
  · refine ⟨hs.observed.trans hsame.symm, ?_⟩
    show ∀ s ∈ w.syncs, s.active = true → s.copy.spec.runOnceAt = spec.runOnceAt ∧ _ = spec.runOnceAt
    rw [hsame]
    exact hs.copies

theorem Sound.succeed (h : Sound w) (done : Nat × Str) (hs : w.syncs[i]? = some s)
    (hstage : s.stage = .running) : Sound (w.succeed cfg i s done) := by
  have hmem : s ∈ w.syncs := List.mem_of_getElem? hs
  have hactive : s.active = true := by simp [Sync.active, hstage]
  have hcases : ∀ t ∈ (w.succeed cfg i s done).syncs, _ := fun t => (mem_set_iff hs).mp
  refine ⟨⟨h.sound, List.mem_cons_of_mem _ h.observed, fun t ht => ?_, h.spec⟩,
    h.either.imp (fun hsynced => ⟨⟨s.copy.spec, rfl, hsynced.copies s hmem hactive⟩, fun t ht ha => ?_⟩)
      fun hsettled => ⟨hsettled.observed, fun t ht ha => ?_⟩⟩ <;>
    obtain rfl | ht := hcases t ht
  · exact List.mem_cons_self
  · exact List.mem_cons_of_mem _ (h.copies t (List.mem_of_mem_eraseIdx ht))
  · exact hsynced.copies s hmem hactive
  · exact hsynced.copies t (List.mem_of_mem_eraseIdx ht) ha
  · have hcopy := (hsettled.copies s hmem hactive).1
    exact ⟨hcopy, hcopy⟩
  · exact hsettled.copies t (List.mem_of_mem_eraseIdx ht) ha

theorem Sound.move (hok : okMove w m) (hmove : w.move cfg m = some w') (h : Sound w) : Sound w' := by
  cases World.move_cases hmove with
  | tick | deleteBegins | deleted | writes => exact sound_stable w _ ⟨_, by trivial, hmove⟩ h
  | edit hw' =>
    obtain ⟨rfl, -⟩ | rfl := hw'
    exacts [h, h.edited hok]
  | succeeds done hs hstage => exact h.succeed done hs hstage
  | fails err hs hstage => exact h.kept ⟨copies_set hs (by simp [Sync.active, hstage]) _⟩
  | clears hs hstage hw₁ =>
    obtain rfl | rfl := hw₁
    exacts [h.kept ⟨copies_erase⟩, (h.edited hok).kept ⟨copies_erase⟩]

/-! The parts of a reconcile -/

/-- Started with `P` and among the others, the program ends with `Q`, and never is a generation
    acknowledged without a reason. -/
abbrev Runs (cfg : Config) {α : Type} (P : World → Prop) (p : Reconciler α) (Q : α → World → Prop) : Prop :=
  Triple (rules cfg) (fun w _ => w.history.unsound = false) P p Q

def FromCopy (repo : Repository) : Call → Prop
  | .patchStatus status => status.observedGeneration = repo.status.observedGeneration ∧
      status.observedRunOnceAt = repo.status.observedRunOnceAt
  | .goSync copy => copy = repo
  | .get => False
  | _ => True

theorem fromCopy_of_isPlain (e : Call) (he : e.isPlain = true) : FromCopy repo e := by
  cases e with
  | get | patchStatus | goSync => cases he
  | _ => trivial

theorem fromCopy_applies (repo : Repository) (status : RepositoryStatus) :
    Applies (FromCopy repo) repo status :=
  fun _ _ => ⟨rfl, rfl⟩

theorem Holding.launch (h : Holding repo w) : Holding repo (w.launch repo) := by
  refine ⟨⟨h.sound, h.observed, fun s hs => ?_, h.spec⟩, h.spec_eq, h.generation_eq, h.acknowledged,
    h.either.imp (fun hsynced => ⟨hsynced.last, fun s hs ha => ?_⟩) fun hsettled =>
      ⟨hsettled.1, hsettled.2.observed, fun s hs ha => ?_⟩⟩
  · obtain rfl | hs := List.mem_cons.mp hs
    · exact h.acknowledged
    · exact h.copies s hs
  · obtain rfl | hs := List.mem_cons.mp hs
    · show w.repo.spec.SameButRunOnceAt repo.spec
      rw [h.spec_eq]
      rfl
    · exact hsynced.copies s hs ha
  · obtain rfl | hs := List.mem_cons.mp hs
    · exact ⟨congrArg _ h.spec_eq, hsettled.1⟩
    · exact hsettled.2.copies s hs ha

theorem Holding.exec (h : Holding repo w) (he : FromCopy repo e) (o : Open) :
    Holding repo (w.exec o e).2 := by
  cases e with
  | get => exact he.elim
  | goSync copy =>
    cases he
    exact h.launch
  | patchStatus status =>
    generalize hexec : (w.exec o (.patchStatus status)).2 = w'
    cases w.exec_cases hexec with
    | same => exact h
    | writes => exact h.applyStatus (he.1 ▸ h.acknowledged) fun hobserved _ => he.2.trans hobserved
  | _ => exact h.kept (exec_kept rfl o)

theorem Acknowledging.exec (h : Acknowledging repo w) (he : FromCopy repo e)
    (hsync : ∀ copy, e ≠ .goSync copy) (o : Open) : Acknowledging repo (w.exec o e).2 := by
  cases e with
  | get => exact he.elim
  | goSync copy => exact absurd rfl (hsync copy)
  | patchStatus status =>
    generalize hexec : (w.exec o (.patchStatus status)).2 = w'
    cases w.exec_cases hexec with
    | same => exact h
    | writes =>
      have hgen : status.observedGeneration = w.repo.generation := he.1.trans h.observed_eq
      obtain ⟨synced, hlast, hsame⟩ := h.synced.last
      have hreason : w.history.Reason status.observedGeneration :=
        .inr ⟨w.repo.spec, hgen ▸ h.spec, synced, hlast, hsame⟩
      exact h.applyStatus hreason
  | _ => exact h.kept (exec_kept rfl o)

theorem keep_holding {α : Type} {p : Reconciler α}
    (hp : Uses (FromCopy repo) (fun _ _ => True) (fun _ => True) p) :
    Runs cfg (Holding repo) p fun _ => Holding repo :=
  triple_uses hp (holding_stable repo) (fun _ h => h.sound) fun _ _ o he h _ => h.exec he o

theorem acknowledge_runs (decision : SyncDecision) :
    Runs cfg (Acknowledging repo) (acknowledge decision repo) fun _ => Sound := by
  have huses : Uses (fun e => FromCopy repo e ∧ ∀ copy, e ≠ .goSync copy) (fun _ _ => True) (fun _ => True)
      (acknowledge decision repo) := by
    refine acknowledge_uses (fun e he => ⟨fromCopy_of_isPlain e he, ?_⟩) decision
      fun now err => ⟨fromCopy_applies repo _ now err, fun _ => by simp⟩
    rintro copy rfl
    cases he
  refine (triple_uses huses (acknowledging_stable repo) (fun _ h => h.sound) ?_).post fun _ _ h => h.toSound
  exact fun _ _ o he h _ => h.exec he.1 he.2 o

/-- The object that a decision leaves in hand is the one that it was about, unless it acknowledges
    the generation because `runOnceAt` has changed. -/
theorem decision_cases (cfg : Config) (now : Time) (seen : Bool) (repo : Repository) :
    (determineSyncDecision cfg now seen repo).2 = repo ∨
      repo.spec.runOnceAt ≠ repo.status.observedRunOnceAt ∧
      (determineSyncDecision cfg now seen repo).1.syncNecessary = false ∧
      (determineSyncDecision cfg now seen repo).2 =
        { repo with status := { repo.status with observedGeneration := repo.generation } } := by
  unfold determineSyncDecision
  split
  · exact .inl rfl
  · split
    · exact .inl rfl
    · split
      · exact .inl rfl
      · split
        · split
          · next hne => exact .inr ⟨hne, rfl, rfl⟩
          · exact .inl rfl
        · split
          · exact .inl rfl
          · split
            · exact .inl rfl
            · split <;> exact .inl rfl

theorem perform_uses (decision : SyncDecision) :
    Uses (FromCopy repo) (fun _ _ => True) (fun _ => True) (perform cfg decision repo) := by
  have hready := fromCopy_applies repo .ready
  have herror := fromCopy_applies repo .error
  have hprogress := fromCopy_applies repo .syncInProgress
  have hfull : Uses (FromCopy repo) (fun _ _ => True) (fun _ => True) (performFullSync cfg repo) :=
    performFullSync_uses fromCopy_of_isPlain hprogress herror rfl
  unfold perform
  split
  · exact acknowledge_uses fromCopy_of_isPlain decision hready
  · split
    · refine ⟨trivial, fun r _ => ?_⟩
      cases r with
      | some err => exact reportFailure_uses fromCopy_of_isPlain err _ herror
      | none =>
        refine (updateRepoStatus_uses fromCopy_of_isPlain none hready).bind fun _ _ => ?_
        split
        · exact hfull
        · exact uses_pure trivial
    · exact performOpenOnly_uses fromCopy_of_isPlain hready herror
    · exact hfull

theorem decideAndPerform_runs (repo : Repository) :
    Runs cfg (Holding repo) (decideAndPerform cfg repo) fun _ => Sound := by
  refine Triple.bind (M := fun _ => Holding repo) (keep_holding ⟨trivial, fun _ _ => trivial⟩) fun inputs => ?_
  show Runs cfg _ (perform cfg _ _) _
  obtain hsame | ⟨hne, hidle, hack⟩ := decision_cases cfg inputs.1 inputs.2 repo
  · rw [hsame]
    exact (keep_holding (perform_uses _)).post fun _ _ h => h.toSound
  · rw [perform, if_pos hidle, hack]
    refine (acknowledge_runs _).pre fun w h => ⟨h.toKnown, h.generation_eq, ?_⟩
    -- `runOnceAt` is not the one that was observed, so everything else is synced.
    obtain hsynced | hsettled := h.either
    · exact hsynced
    · exact absurd ((congrArg _ h.spec_eq).trans hsettled.1.symm) hne

theorem visit_sound (h : Sound w) : Sound w.visit := by
  refine h.kept ⟨fun s hs => ?_⟩
  obtain ⟨t, ht, rfl⟩ := List.mem_map.mp hs
  exact ⟨t, ht, rfl, id⟩

theorem patchFinalizer_runs (repo : Repository) :
    Runs cfg (Holding repo) (call .patchFinalizer) (AfterFinalizer Sound Holding) := by
  refine triple_patchFinalizer (holding_stable repo) sound_stable holding_stable (fun _ h => h.sound) ?_
  intro w o h
  have hkept : Kept w _ := exec_kept (e := .patchFinalizer) rfl o
  have hsound : Sound _ := (h.kept hkept).toSound
  refine ⟨hsound, ?_⟩
  generalize (w.exec o .patchFinalizer).2 = w' at hkept hsound ⊢
  obtain ⟨-⟩ := hkept
  exact hsound.holding rfl rfl rfl

theorem get_runs : Runs cfg Sound (call .get) (AfterGet Sound Holding) :=
  triple_get sound_stable holding_stable (fun _ h => h.sound) fun _ _ h _ => (visit_sound h).holding rfl rfl rfl

theorem reconcile_runs : Runs cfg Sound (reconcile cfg) fun _ => Sound := by
  refine reconcile_triple sound_stable holding_stable (fun _ _ h => h) get_runs patchFinalizer_runs ?_
    decideAndPerform_runs
  exact fun repo => (keep_holding (handleDeletion_uses fromCopy_of_isPlain)).post fun _ _ h => h.toSound

/-! The runs of the controller -/

/-- **A generation is acknowledged only after a full sync with its spec, or if its spec differs
    from the one synced last in `runOnceAt` alone**, in every run that meets the condition, from
    the creation of a repository without `runOnceAt`. -/
theorem acknowledged_with_reason (cfg : Config) {spec : RepositorySpec} (hspec : spec.runOnceAt = none)
    {es : List Event} {c : Controller} (hok : Along (step cfg) ok (started (.new spec)) es)
    (hrun : run (step cfg) (started (.new spec)) es = some c) : c.state.history.unsound = false := by
  have hstart : Sound (.new spec) := by
    refine ⟨⟨rfl, List.mem_cons_self, by simp [World.new], by simp [World.new]⟩, .inr ⟨hspec.symm, ?_⟩⟩
    simp [World.new]
  exact System.run_safe (P := fun w => w.history.unsound = false) (fun _ _ _ hok hmove h => h.move hok hmove)
    reconcile_runs (fun _ h => h.sound) hstart hok hrun

/-- A field is changed and synced; then `runOnceAt` is set, and acknowledged. -/
def editsApart : List Event :=
  reconcileOf 7 ++ syncEnds ++ [.other (.edit { fields := "git2" })] ++ reconcileOf 6 ++ syncEnds ++
    [.other (.edit { fields := "git2", runOnceAt := some (50 * second) })] ++ reconcileOf 4

theorem acknowledged_with_reason_sample :
    ∃ c, run (step sampleConfig) (started created) editsApart = some c ∧
      c.state.history.unsound = false := by
  refine exists_reached_of_isSome (by decide +kernel) fun c hc => ?_
  exact acknowledged_with_reason sampleConfig rfl (by decide +kernel) hc

/-- `runOnceAt` is set, the one-time sync is made and clears it; then a field is changed. -/
def changeAfterOneTimeSync : List Event :=
  reconcileOf 7 ++ syncEnds ++ [.other (.edit { fields := "git", runOnceAt := some (50 * second) })] ++
    reconcileOf 4 ++ [wait 60] ++ reconcileOf 6 ++ syncEnds ++ [.other (.clear 0 {})] ++
    reconcileOf 4 ++ [.other (.edit { fields := "git2" })] ++ reconcileOf 4

/-- **A change is acknowledged and never synced.** After a one-time sync the observed `runOnceAt`
    differs from the one in the spec, which has been cleared, and the next change of another
    field passes for a change of `runOnceAt`: it is acknowledged, no sync is under way, and the
    last one was made with the old spec. -/
theorem change_acknowledged_unsynced :
    ∃ es c, run (step sampleConfig) (started created) es = some c ∧
      c.state.history.unsound = true ∧ c.state.repo.status.observedGeneration = c.state.repo.generation ∧
      c.state.repo.spec.fields = "git2".toList ∧ c.state.syncs = [] ∧
      c.state.history.lastSynced.map (·.fields) = some "git".toList :=
  ⟨changeAfterOneTimeSync, by decide +kernel⟩

end Porch.RepoController.Acknowledged
