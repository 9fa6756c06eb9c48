import Porch.RepoController.World

/- `spec.sync.runOnceAt`, the time of a full sync that has been asked for once.

   A full sync that succeeds records the `runOnceAt` of its copy as observed and then clears
   `runOnceAt` in the spec, whatever started the sync. A repository that recovers from an
   error is synced at once, also before that time, and this sync uses up the one that was
   asked for (`one_time_sync_used_up`). No `runOnceAt` is recorded or cleared before a full
   sync that began at or after it has succeeded in every run in which no check succeeds of a
   repository in error whose `runOnceAt` lies ahead, and a sync that clears `runOnceAt` finds
   the one it began with (`one_time_sync_served`). -/
namespace Porch.RepoController.RunOnce

open Go Lts.Prog Lts

/-- A sync that clears `runOnceAt` finds the one of its copy. -/
def okMove (w : World) : Move → Prop
  | .clear i _ => ∀ s ∈ w.syncs[i]?, w.repo.spec.runOnceAt = none ∨
      w.repo.spec.runOnceAt = s.copy.spec.runOnceAt
  | .tick _ | .edit _ | .delete | .finish _ _ | .write _ _ => True

/-- No check of a repository in error succeeds while its `runOnceAt` lies ahead. -/
def okCall (w : World) (e : Call) (o : Open) : Prop :=
  match e with
  | .checkRepositoryConnectivity repo =>
    o.err = none → inErrorState repo = true → ∀ t ∈ repo.spec.runOnceAt, t ≤ w.now
  | _ => True

instance (w : World) (m : Move) : Decidable (okMove w m) := by
  induction m using Move.casesOn <;> dsimp only [okMove] <;> infer_instance

instance (w : World) (e : Call) (o : Open) : Decidable (okCall w e o) := by
  induction e using Call.casesOn <;> dsimp only [okCall] <;> infer_instance

def ok : Controller → Event → Prop := System.ok okMove okMove okCall

instance (c : Controller) (ev : Event) : Decidable (ok c ev) :=
  inferInstanceAs (Decidable (System.ok _ _ _ _ _))

/-! What holds at all times -/

/-- A full sync that began at or after the time, if there is one, has succeeded. -/
def Served (starts : List Time) (t : Option Time) : Prop := ∀ t' ∈ t, ∃ start ∈ starts, t' ≤ start

structure SyncOk (now : Time) (starts : List Time) (s : Sync) : Prop where
  started : s.startedAt ≤ now
  observed : Served starts s.copy.status.observedRunOnceAt
  due : s.stage = .running → ∀ t ∈ s.copy.spec.runOnceAt, t ≤ s.startedAt
  done : s.stage = .finished none ∨ s.stage = .clearing → Served starts s.copy.spec.runOnceAt

structure SoundAt (now : Time) (starts : List Time) (unserved : Bool) (observed : Option Time)
    (syncs : List Sync) : Prop where
  served : unserved = false
  past : ∀ t ∈ starts, t ≤ now
  observed : Served starts observed
  syncs : ∀ s ∈ syncs, SyncOk now starts s

def Sound (w : World) : Prop :=
  SoundAt w.now w.history.served w.history.unserved w.repo.status.observedRunOnceAt w.syncs

variable {cfg : Config} {w w' : World} {m : Move}

/-- Nothing that was served is forgotten, and time goes on. -/
structure Later (w w' : World) : Prop where
  served : w.history.served ⊆ w'.history.served
  now : w.now ≤ w'.now

variable {t : Option Time} {s : Sync} {α : Type} {p : Reconciler α}

theorem Served.later (h : Served w.history.served t) (hlater : Later w w') : Served w'.history.served t := by
  intro t' ht'
  obtain ⟨start, hstart, hle⟩ := h t' ht'
  exact ⟨start, hlater.served hstart, hle⟩

theorem SyncOk.later (h : SyncOk w.now w.history.served s) (hlater : Later w w') :
    SyncOk w'.now w'.history.served s :=
  ⟨h.started.trans hlater.now, h.observed.later hlater, h.due, fun hs => (h.done hs).later hlater⟩

theorem any_not_served {h : History} (ht : Served h.served t) :
    (t.any fun t' => !decide (h.Served t')) = false := by
  cases t with
  | none => rfl
  | some t' =>
    have hserved : h.Served t' := ht t' rfl
    simp [hserved]

theorem Sound.applyStatus (h : Sound w) {failure : Nat} {status : ApiStatus}
    (hstat : Served w.history.served status.observedRunOnceAt) : Sound (w.applyStatus failure status) := by
  refine { h with served := ?_, observed := hstat }
  show (w.history.unserved || _) = false
  rw [h.served, any_not_served hstat]
  rfl

theorem Sound.succeed (h : Sound w) {i : Nat} (done : Nat × Str) (hs : w.syncs[i]? = some s)
    (hstage : s.stage = .running) : Sound (w.succeed cfg i s done) := by
  have hsync := h.syncs s (List.mem_of_getElem? hs)
  have hlater : Later w (w.succeed cfg i s done) := ⟨List.subset_cons_self .., le_rfl⟩
  -- The sync began at or after the time of its copy.
  have hcopy : Served (w.succeed cfg i s done).history.served s.copy.spec.runOnceAt := fun t ht =>
    ⟨s.startedAt, List.mem_cons_self, hsync.due hstage t ht⟩
  refine ⟨h.served, fun t ht => ?_, h.observed.later hlater, fun t ht => ?_⟩
  · obtain rfl | ht := List.mem_cons.mp ht
    · exact hsync.started
    · exact h.past t ht
  · obtain rfl | ht := (mem_set_iff hs).mp ht
    · exact ⟨hsync.started, hcopy, nofun, fun _ => hcopy⟩
    · exact (h.syncs t (List.mem_of_mem_eraseIdx ht)).later hlater

theorem Sound.move (hok : okMove w m) (hmove : w.move cfg m = some w') (h : Sound w) : Sound w' := by
  cases World.move_cases hmove with
  | tick d =>
    have hlater : Later w { w with now := w.now + d } :=
      ⟨List.Subset.refl _, Int.le_add_of_nonneg_right (Int.natCast_nonneg d)⟩
    exact ⟨h.served, fun t ht => (h.past t ht).trans hlater.now, h.observed, fun s hs => (h.syncs s hs).later hlater⟩
  | deleteBegins | deleted => exact h
  | edit hw' => obtain ⟨rfl, -⟩ | rfl := hw' <;> exact h
  | succeeds done hs hstage => exact h.succeed done hs hstage
  | @fails i s err hs hstage =>
    refine { h with syncs := fun t ht => ?_ }
    obtain rfl | ht := (mem_set_iff hs).mp ht
    · exact { h.syncs s (List.mem_of_getElem? hs) with due := nofun, done := by rintro (h | h) <;> cases h }
    · exact h.syncs t (List.mem_of_mem_eraseIdx ht)
  | @writes i s o failure w₁ syncs hs hstage hw₁ hsyncs =>
    have hsync := h.syncs s (List.mem_of_getElem? hs)
    have h₁ : Sound { w with syncs := syncs } := by
      refine { h with syncs := fun t ht => ?_ }
      obtain ⟨rfl, rfl⟩ | ht := mem_of_written hsyncs hs ht
      · exact { hsync with due := nofun, done := fun _ => hsync.done (.inl hstage) }
      · exact h.syncs t ht
    obtain rfl | rfl := hw₁
    · exact h₁
    · exact h₁.applyStatus hsync.observed
  | @clears i s o w₁ unserved hs hstage hw₁ hunserved =>
    have hspec : Served w.history.served w.repo.spec.runOnceAt := by
      obtain hnone | hsame := hok s hs
      · rw [hnone]
        exact nofun
      · rw [hsame]
        exact (h.syncs s (List.mem_of_getElem? hs)).done (.inr hstage)
    have hfalse : unserved = false := by
      rw [any_not_served hspec, Bool.or_false, or_self] at hunserved
      exact hunserved.trans h.served
    obtain rfl | rfl := hw₁
    all_goals exact { h with served := hfalse, syncs := fun t ht => h.syncs t (List.mem_of_mem_eraseIdx ht) }

/-! The parts of a reconcile -/

abbrev rules (cfg : Config) : Rules Call Answer World :=
  System.rules (World.move cfg) answer okMove okCall

/-- Started with `P` and among the others, the program ends with `Q`, and never is a `runOnceAt`
    taken for served that is not. -/
abbrev Runs (cfg : Config) {α : Type} (P : World → Prop) (p : Reconciler α) (Q : α → World → Prop) : Prop :=
  Triple (rules cfg) (fun w _ => w.history.unserved = false) P p Q

/-- The state while a reconcile has this object in hand. -/
structure Holding (repo : Repository) (w : World) : Prop where
  sound : Sound w
  observed : Served w.history.served repo.status.observedRunOnceAt

/-- The time of the object in hand has come. -/
structure Due (repo : Repository) (w : World) : Prop extends Holding repo w where
  due : ∀ t ∈ repo.spec.runOnceAt, t ≤ w.now

variable {repo : Repository}

theorem move_later (hmove : w.move cfg m = some w') : Later w w' := by
  cases World.move_cases hmove with
  | tick d => exact ⟨List.Subset.refl _, Int.le_add_of_nonneg_right (Int.natCast_nonneg d)⟩
  | edit hw' => obtain ⟨rfl, -⟩ | rfl := hw' <;> exact ⟨List.Subset.refl _, le_rfl⟩
  | succeeds done hs hstage => exact ⟨List.subset_cons_self .., le_rfl⟩
  | deleteBegins | deleted | fails => exact ⟨List.Subset.refl _, le_rfl⟩
  | writes _ _ hw₁ | clears _ _ hw₁ => obtain rfl | rfl := hw₁ <;> exact ⟨List.Subset.refl _, le_rfl⟩

theorem sound_stable : Stable (rules cfg) Sound := by
  rintro w w' ⟨m, hok, hmove⟩ h
  exact h.move hok hmove

theorem holding_stable (repo : Repository) : Stable (rules cfg) (Holding repo) := by
  rintro w w' ⟨m, hok, hmove⟩ h
  exact ⟨h.sound.move hok hmove, h.observed.later (move_later hmove)⟩

theorem due_stable (repo : Repository) : Stable (rules cfg) (Due repo) := by
  intro w w' hmove h
  refine ⟨holding_stable repo w w' hmove h.toHolding, fun t ht => ?_⟩
  obtain ⟨m, -, hmove⟩ := hmove
  exact (h.due t ht).trans (move_later hmove).now

/-- The calls with this object in hand that start no sync. -/
def Careful (repo : Repository) : Call → Prop
  | .patchStatus status => status.observedRunOnceAt = repo.status.observedRunOnceAt
  | .goSync _ | .get => False
  | _ => True

theorem careful_of_isPlain (e : Call) (he : e.isPlain = true) : Careful repo e := by
  cases e with
  | get | patchStatus | goSync => cases he
  | _ => trivial

theorem careful_applies (repo : Repository) (status : RepositoryStatus) : Applies (Careful repo) repo status :=
  fun _ _ => rfl

theorem Holding.exec {e : Call} (h : Holding repo w) (he : Careful repo e) (o : Open) :
    Sound (w.exec o e).2 ∧ Later w (w.exec o e).2 := by
  generalize hexec : (w.exec o e).2 = w'
  cases w.exec_cases hexec with
  | visits | launches => exact he.elim
  | writes status =>
    have hstat : status.observedRunOnceAt = repo.status.observedRunOnceAt := he
    exact ⟨h.sound.applyStatus (hstat ▸ h.observed), ⟨List.Subset.refl _, le_rfl⟩⟩
  | _ => exact ⟨h.sound, ⟨List.Subset.refl _, le_rfl⟩⟩

theorem keep_holding (hp : Uses (Careful repo) (fun _ _ => True) (fun _ => True) p) :
    Runs cfg (Holding repo) p fun _ => Holding repo := by
  refine triple_uses hp (holding_stable repo) (fun _ h => h.sound.served) fun w e o he h _ => ?_
  obtain ⟨hsound, hlater⟩ := h.exec he o
  exact ⟨hsound, h.observed.later hlater⟩

theorem keep_due (hp : Uses (Careful repo) (fun _ _ => True) (fun _ => True) p) :
    Runs cfg (Due repo) p fun _ => Due repo := by
  refine triple_uses hp (due_stable repo) (fun _ h => h.sound.served) fun w e o he h _ => ?_
  obtain ⟨hsound, hlater⟩ := h.toHolding.exec he o
  exact ⟨⟨hsound, h.observed.later hlater⟩, fun t ht => (h.due t ht).trans hlater.now⟩

theorem Due.launch (h : Due repo w) : Sound (w.launch repo) := by
  refine { h.sound with syncs := fun s hs => ?_ }
  obtain rfl | hs := List.mem_cons.mp hs
  · exact ⟨le_rfl, h.observed, fun _ => h.due, by rintro (h | h) <;> cases h⟩
  · exact h.sound.syncs s hs

theorem performFullSync_runs (repo : Repository) :
    Runs cfg (Due repo) (performFullSync cfg repo) fun _ => Sound := by
  have hupd : ∀ status err, Runs cfg (Due repo) (updateRepoStatusWithBackoff repo status err) fun _ => Due repo :=
    fun status err => keep_due (updateRepoStatus_uses careful_of_isPlain err (careful_applies repo status))
  refine (hupd .syncInProgress none).bind fun
    | .some _ => triple_pure (due_stable repo) fun _ h => h.sound
    | none => ?_
  refine Triple.bind (M := fun _ => Due repo) (keep_due ⟨trivial, fun _ _ => trivial⟩) fun
    | .false => (hupd .error _).bind fun _ => triple_pure (due_stable repo) fun _ h => h.sound
    | .true => ?_
  refine Triple.bind (M := fun _ => Sound) ?_ fun _ => triple_pure sound_stable fun _ h => h
  exact triple_call (due_stable repo) (fun _ => sound_stable) (fun _ h => h.sound.served) fun _ _ h _ => h.launch

/-- A check of a repository in error that succeeds finds the time of the object come. -/
theorem performHealthCheckSync_runs (repo : Repository) :
    Runs cfg (Holding repo) (performHealthCheckSync cfg repo) fun _ => Sound := by
  refine Triple.bind
    (M := fun r w => Holding repo w ∧ (r = none → inErrorState repo = true → Due repo w)) ?_ fun r => ?_
  · refine triple_call (holding_stable repo) ?_ (fun _ h => h.sound.served) fun w o h hcall => ?_
    · exact fun r w w' hmove h => ⟨holding_stable repo w w' hmove h.1,
        fun hr herror => due_stable repo w w' hmove (h.2 hr herror)⟩
    · obtain ⟨hsound, hlater⟩ := h.exec (e := .checkRepositoryConnectivity repo) trivial o
      have hholding : Holding repo _ := ⟨hsound, h.observed.later hlater⟩
      refine ⟨hholding, fun hr herror => ⟨hholding, fun t ht => ?_⟩⟩
      have hnone : o.err = none := by
        simp only [World.exec, World.check] at hr
        split at hr
        · cases hr
        · assumption
      exact (hcall hnone herror t ht).trans hlater.now
  · cases r with
    | some err =>
      refine Triple.pre (P := Holding repo) ?_ fun _ h => h.1
      exact (keep_holding (reportFailure_uses careful_of_isPlain err _ (careful_applies repo _))).post
        fun _ _ h => h.sound
    | none =>
      have huses := updateRepoStatus_uses careful_of_isPlain none (careful_applies repo .ready)
      by_cases herror : inErrorState repo = true
      · refine Triple.pre (P := Due repo) ?_ fun _ h => h.2 rfl herror
        refine (keep_due huses).bind fun _ => ?_
        rw [if_pos herror]
        exact performFullSync_runs repo
      · refine Triple.pre (P := Holding repo) ?_ fun _ h => h.1
        refine (keep_holding huses).bind fun _ => ?_
        rw [if_neg herror]
        exact triple_pure (holding_stable repo) fun _ h => h.sound

/-- A full sync is decided on only when the time has come, or has been observed. -/
theorem decision_due (cfg : Config) (now : Time) (seen : Bool) (repo : Repository)
    (h : (determineSyncDecision cfg now seen repo).1.type = .fullSync) :
    (∀ t ∈ repo.spec.runOnceAt, t ≤ now) ∨ repo.spec.runOnceAt = repo.status.observedRunOnceAt := by
  unfold determineSyncDecision at h
  split at h
  · cases h
  · split at h
    · cases h
    · split at h
      · next hdue =>
        refine .inl fun t ht => ?_
        rw [isOneTimeSyncDue, ht] at hdue
        simp only [Option.any_some, Bool.and_eq_true, decide_eq_true_eq] at hdue
        exact hdue.1.le
      · split at h
        · split at h
          · cases h
          · next heq => exact .inr (not_not.mp heq)
        · split at h
          · cases h
          · split at h
            · next hdue =>
              refine .inl fun t ht => ?_
              by_contra hlt
              rw [isFullSyncDue, ht] at hdue
              simp [not_le.mp hlt] at hdue
            · split at h <;> cases h

theorem decision_copy (cfg : Config) (now : Time) (seen : Bool) (repo : Repository) :
    (determineSyncDecision cfg now seen repo).2.spec = repo.spec ∧
      (determineSyncDecision cfg now seen repo).2.status.observedRunOnceAt = repo.status.observedRunOnceAt := by
  unfold determineSyncDecision
  repeat' split
  all_goals exact ⟨rfl, rfl⟩

theorem decideAndPerform_runs (repo : Repository) :
    Runs cfg (Holding repo) (decideAndPerform cfg repo) fun _ => Sound := by
  refine Triple.bind (M := fun r w => Holding repo w ∧ r.1 ≤ w.now) ?_ fun inputs => ?_
  · refine triple_call (holding_stable repo) ?_ (fun _ h => h.sound.served) fun w o h _ => ⟨h, le_rfl⟩
    rintro r w w' hmove h
    refine ⟨holding_stable repo w w' hmove h.1, ?_⟩
    obtain ⟨m, -, hmove⟩ := hmove
    exact h.2.trans (move_later hmove).now
  · show Runs cfg _ (perform cfg _ _) _
    have hdue := decision_due cfg inputs.1 inputs.2 repo
    obtain ⟨hspec, hobserved⟩ := decision_copy cfg inputs.1 inputs.2 repo
    generalize hdecided : determineSyncDecision cfg inputs.1 inputs.2 repo = decided at hdue hspec hobserved
    have hcopy : ∀ w, Holding repo w → Holding decided.2 w := fun w h => ⟨h.sound, hobserved ▸ h.observed⟩
    have hplain : ∀ {p : Reconciler Outcome}, Uses (Careful decided.2) (fun _ _ => True) (fun _ => True) p →
        Runs cfg (fun w => Holding repo w ∧ inputs.1 ≤ w.now) p fun _ => Sound := fun hp =>
      ((keep_holding hp).post fun _ _ h => h.sound).pre fun w h => hcopy w h.1
    have hready := careful_applies decided.2 .ready
    unfold perform
    split
    · exact hplain (acknowledge_uses careful_of_isPlain _ hready)
    · split
      · exact (performHealthCheckSync_runs _).pre fun w h => hcopy w h.1
      · exact hplain (performOpenOnly_uses careful_of_isPlain hready (careful_applies _ .error))
      · next htype =>
        refine (performFullSync_runs _).pre fun w h => ⟨hcopy w h.1, fun t ht => ?_⟩
        rw [hspec] at ht
        obtain hcome | heq := hdue htype
        · exact (hcome t ht).trans h.2
        · -- The time has been observed, so a sync that began after it has succeeded.
          obtain ⟨start, hstart, hle⟩ := h.1.observed t (heq ▸ ht)
          exact hle.trans (h.1.sound.past start hstart)

theorem patchFinalizer_runs (repo : Repository) :
    Runs cfg (Holding repo) (call .patchFinalizer) (AfterFinalizer Sound Holding) := by
  refine triple_patchFinalizer (holding_stable repo) sound_stable holding_stable (fun _ h => h.sound.served) ?_
  intro w o h
  obtain ⟨hsound, hlater⟩ := h.exec (e := .patchFinalizer) trivial o
  exact ⟨hsound, hsound, h.sound.observed.later hlater⟩

theorem get_runs : Runs cfg Sound (call .get) (AfterGet Sound Holding) := by
  refine triple_get sound_stable holding_stable (fun _ h => h.served) fun w o h _ => ⟨?_, h.observed⟩
  refine { h with syncs := fun s hs => ?_ }
  obtain ⟨t, ht, rfl⟩ := List.mem_map.mp hs
  exact { h.syncs t ht with }

theorem reconcile_runs : Runs cfg Sound (reconcile cfg) fun _ => Sound := by
  refine reconcile_triple sound_stable holding_stable (fun _ _ h => h) get_runs patchFinalizer_runs ?_
    decideAndPerform_runs
  exact fun repo => (keep_holding (handleDeletion_uses careful_of_isPlain)).post fun _ _ h => h.sound

/-! The runs of the controller -/

/-- **A `runOnceAt` is recorded as observed, and cleared, only after a full sync that began at or
    after it has succeeded**, in every run that meets the condition. -/
theorem one_time_sync_served (cfg : Config) {spec : RepositorySpec} {es : List Event} {c : Controller}
    (hok : Along (step cfg) ok (started (.new spec)) es)
    (hrun : run (step cfg) (started (.new spec)) es = some c) : c.state.history.unserved = false := by
  have hstart : Sound (.new spec) :=
    ⟨rfl, by simp [World.new], nofun, by simp [World.new]⟩
  exact System.run_safe (P := fun w => w.history.unserved = false) (fun _ _ _ hok hmove h => h.move hok hmove)
    reconcile_runs (fun _ h => h.served) hstart hok hrun

/-- The one-time sync is made when its time has come. -/
def oneTimeSync : List Event :=
  reconcileOf 7 ++ syncEnds ++ [.other (.edit { fields := "git", runOnceAt := some (50 * second) })] ++
    reconcileOf 4 ++ [wait 60] ++ reconcileOf 6 ++ syncEnds ++ [.other (.clear 0 {})]

theorem one_time_sync_served_sample :
    ∃ c, run (step sampleConfig) (started created) oneTimeSync = some c ∧
      c.state.history.unserved = false := by
  refine exists_reached_of_isSome (by decide +kernel) fun c hc => ?_
  exact one_time_sync_served sampleConfig (by decide +kernel) hc

/-- A health check fails while a one-time sync is pending, and the next one succeeds. -/
def recoveryBefore : List Event :=
  reconcileOf 7 ++ syncEnds ++ [.other (.edit { fields := "git", runOnceAt := some (10000 * second) })] ++
    reconcileOf 4 ++ [wait 300, .start, .go {}, .go {},
      .go { err := some "connection refused" }, .go {}, .go {}, wait 30] ++
    reconcileOf 9 ++ syncEnds ++ [.other (.clear 0 {})]

/-- **The recovery from an error uses up the one-time sync.** The sync after the recovery has the
    pending `runOnceAt` in its copy, records it as observed and clears it, long before its time. -/
theorem one_time_sync_used_up : ∃ es c, run (step sampleConfig) (started created) es = some c ∧
      c.state.history.unserved = true ∧ c.state.repo.status.observedRunOnceAt = some (10000 * second) ∧
      c.state.repo.spec.runOnceAt = none ∧ c.state.now < 10000 * second :=
  ⟨recoveryBefore, by decide +kernel⟩

end Porch.RepoController.RunOnce
