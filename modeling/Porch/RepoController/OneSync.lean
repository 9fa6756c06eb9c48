import Porch.RepoController.World

/- Full syncs of one repository, and how many of them run at a time.

   What keeps a second full sync from starting is the condition that says that one is in
   progress. A reconcile that finds it decides to do nothing, and then writes that the
   repository is ready, as it does whenever nothing is due; so the reconcile after it finds
   no sync in progress and starts another one (`second_sync_started`). -/
namespace Porch.RepoController.OneSync

open Go Lts.Prog Lts

/-! No full sync runs longer than the time after which it counts as stale. It counts from the
status that announces it. -/

def inTimeMove (cfg : Config) (w : World) : Move → Prop
  | .tick d => ∀ s ∈ w.syncs, s.active = true → w.now + d - s.markedAt ≤ getSyncStaleTimeout cfg
  | .edit _ | .delete | .finish _ _ | .write _ _ | .clear _ _ => True

def inTimeCall (cfg : Config) (w : World) (e : Call) (_ : Open) : Prop :=
  match e with
  | .goSync _ => w.now - w.lastTransition ≤ getSyncStaleTimeout cfg
  | _ => True

instance (cfg : Config) (w : World) (m : Move) : Decidable (inTimeMove cfg w m) := by
  induction m using Move.casesOn <;> dsimp only [inTimeMove] <;> infer_instance

instance (cfg : Config) (w : World) (e : Call) (o : Open) : Decidable (inTimeCall cfg w e o) := by
  cases e <;> dsimp only [inTimeCall] <;> infer_instance

/-- The condition on the calls: when the object is read, no reconcile has read it yet since the
    sync began that is running. -/
def okCall (cfg : Config) (w : World) (e : Call) (o : Open) : Prop :=
  inTimeCall cfg w e o ∧ (e = .get → ∀ s ∈ w.syncs, s.active = true → s.visited = false)

instance (cfg : Config) (w : World) (e : Call) (o : Open) : Decidable (okCall cfg w e o) :=
  inferInstanceAs (Decidable (_ ∧ (_ → ∀ s ∈ w.syncs, _ → _)))

def InTime (cfg : Config) : Controller → Event → Prop :=
  System.ok (inTimeMove cfg) (inTimeMove cfg) (inTimeCall cfg)

def ok (cfg : Config) : Controller → Event → Prop :=
  System.ok (inTimeMove cfg) (inTimeMove cfg) (okCall cfg)

instance (cfg : Config) (c : Controller) (ev : Event) : Decidable (InTime cfg c ev) :=
  inferInstanceAs (Decidable (System.ok _ _ _ _ _))

instance (cfg : Config) (c : Controller) (ev : Event) : Decidable (ok cfg c ev) :=
  inferInstanceAs (Decidable (System.ok _ _ _ _ _))

def running (w : World) : Nat := w.syncs.countP Sync.active

/-! What holds of the syncs at all times -/

/-- The status says that this sync is in progress. -/
def Shows (status : ApiStatus) (s : Sync) : Prop :=
  ∃ cond ∈ status.condition, cond.isFalse .reconciling = true ∧ cond.lastTransitionTime = s.markedAt

/-- At most one sync is running, not for too long, and it is one that meets `P`. -/
structure AtMostOne (cfg : Config) (P : Sync → Prop) (now : Time) (syncs : List Sync) : Prop where
  few : syncs.countP Sync.active ≤ 1
  each : ∀ s ∈ syncs, s.active = true → now - s.markedAt ≤ getSyncStaleTimeout cfg ∧ P s

variable {cfg : Config} {P P' : Sync → Prop} {w w' : World} {m : Move}

section

variable {now : Time} {syncs : List Sync} (h : AtMostOne cfg P now syncs)
include h

theorem AtMostOne.imp (hP : ∀ s ∈ syncs, s.active = true → P s → P' s) : AtMostOne cfg P' now syncs :=
  ⟨h.few, fun s hs ha => (h.each s hs ha).imp_right (hP s hs ha)⟩

/-- The sync goes on, or comes to its end. -/
theorem AtMostOne.update {i : Nat} {s s' : Sync} (hs : syncs[i]? = some s) (hactive : s.active = true)
    (hmarked : s'.markedAt = s.markedAt) (hP : P s → P s') : AtMostOne cfg P now (syncs.set i s') := by
  refine ⟨?_, fun t ht ha => ?_⟩
  · have hcount := h.few
    rw [countP_of_getElem? _ hs, hactive, if_pos rfl] at hcount
    rw [countP_set _ hs]
    split <;> omega
  · obtain rfl | ht := (mem_set_iff hs).mp ht
    · rw [hmarked]
      exact (h.each s (List.mem_of_getElem? hs) hactive).imp_right hP
    · exact h.each t (List.mem_of_mem_eraseIdx ht) ha

theorem AtMostOne.erase (i : Nat) : AtMostOne cfg P now (syncs.eraseIdx i) :=
  ⟨(List.eraseIdx_sublist _ _).countP_le.trans h.few, fun t ht => h.each t (List.mem_of_mem_eraseIdx ht)⟩

end

section

variable (h : AtMostOne cfg P w.now w.syncs)
include h

theorem AtMostOne.move (hP : ∀ s s' : Sync, s'.visited = s.visited →
      s'.markedAt = s.markedAt → P s → P s')
    (hok : inTimeMove cfg w m) (hmove : w.move cfg m = some w') : AtMostOne cfg P w'.now w'.syncs := by
  cases World.move_cases hmove with
  | tick d => exact ⟨h.few, fun s hs ha => ⟨hok s hs ha, (h.each s hs ha).2⟩⟩
  | edit hw' => obtain ⟨rfl, -⟩ | rfl := hw' <;> exact h
  | deleteBegins | deleted => exact h
  | succeeds _ hs hstage | fails _ hs hstage =>
    exact h.update hs (by simp [Sync.active, hstage]) rfl (hP _ _ rfl rfl)
  | writes hs hstage hw₁ hsyncs =>
    obtain ⟨rfl, -⟩ | rfl := hsyncs <;> obtain rfl | rfl := hw₁
    any_goals exact h.erase _
    all_goals exact h.update hs (by simp [Sync.active, hstage]) rfl (hP _ _ rfl rfl)
  | clears hs hstage hw₁ => obtain rfl | rfl := hw₁ <;> exact h.erase _

/-- A status is written by a sync that was running, and none is then. -/
theorem AtMostOne.status_kept (hmove : w.move cfg m = some w') :
    w'.repo.status = w.repo.status ∨ ∀ s ∈ w'.syncs, s.active = false := by
  cases World.move_cases hmove with
  | tick d => exact .inl rfl
  | edit hw' => obtain ⟨rfl, -⟩ | rfl := hw' <;> exact .inl rfl
  | deleteBegins | deleted | succeeds | fails => exact .inl rfl
  | clears hs hstage hw₁ => obtain rfl | rfl := hw₁ <;> exact .inl rfl
  | @writes i s o failure w₁ syncs hs hstage hw₁ hsyncs =>
    refine .inr ?_
    have hcount := h.few
    rw [countP_of_getElem? _ hs, if_pos (by simp [Sync.active, hstage])] at hcount
    have hrest : ∀ t ∈ w.syncs.eraseIdx i, t.active = false := by
      intro t ht
      have hzero : (w.syncs.eraseIdx i).countP Sync.active = 0 := by omega
      simpa using List.countP_eq_zero.mp hzero t ht
    obtain ⟨rfl, -⟩ | rfl := hsyncs
    · intro t ht
      obtain rfl | ht := (mem_set_iff hs).mp ht
      exacts [rfl, hrest t ht]
    · exact hrest

end

/-! The parts of a reconcile -/

abbrev rules (cfg : Config) : Rules Call Answer World :=
  System.rules (World.move cfg) answer (inTimeMove cfg) (okCall cfg)

/-- Started with `P` and among the others, the program ends with `Q`, and never is more than one
    sync running. -/
abbrev Runs (cfg : Config) {α : Type} (P : World → Prop) (p : Reconciler α) (Q : α → World → Prop) : Prop :=
  Triple (rules cfg) (fun w _ => running w ≤ 1) P p Q

/-- Between reconciles: a sync that no reconcile has seen is shown in the status. -/
def Between (cfg : Config) (w : World) : Prop :=
  AtMostOne cfg (fun s => s.visited = true ∨ Shows w.repo.status s) w.now w.syncs

/-- During a reconcile: it has seen every sync. -/
def Seen (cfg : Config) (w : World) : Prop := AtMostOne cfg (fun s => s.visited = true) w.now w.syncs

/-- During a reconcile that has read this object: its status shows every sync. -/
def Holding (cfg : Config) (repo : Repository) (w : World) : Prop :=
  AtMostOne cfg (fun s => s.visited = true ∧ Shows repo.status s) w.now w.syncs

/-- The reconcile has written no status yet, so that the one in the API server shows them too. -/
def JustRead (cfg : Config) (repo : Repository) (w : World) : Prop :=
  AtMostOne cfg (fun s => (s.visited = true ∧ Shows repo.status s) ∧ Shows w.repo.status s) w.now w.syncs

def Quiet (cfg : Config) (w : World) : Prop := AtMostOne cfg (fun _ => False) w.now w.syncs

/-- No sync is running, and the status says that one is in progress. -/
structure Announced (cfg : Config) (w : World) : Prop where
  quiet : Quiet cfg w
  shown : ∃ cond ∈ w.repo.status.condition, cond.isFalse .reconciling = true

theorem Seen.between (h : Seen cfg w) : Between cfg w := h.imp fun _ _ _ => .inl

theorem Holding.seen {repo : Repository} (h : Holding cfg repo w) : Seen cfg w :=
  h.imp fun _ _ _ hs => hs.1

theorem Quiet.seen (h : Quiet cfg w) : Seen cfg w := h.imp fun _ _ _ hs => hs.elim

theorem Quiet.inactive (h : Quiet cfg w) : ∀ s ∈ w.syncs, s.active = false := by
  intro s hs
  cases ha : s.active with
  | false => rfl
  | true => exact (h.each s hs ha).2.elim

/-- What is said of the sync that is running and of the status is kept by the others: only that
    sync writes the status. -/
theorem AtMostOne.stable {K : ApiStatus → Sync → Prop}
    (hK : ∀ status (s s' : Sync), s'.visited = s.visited → s'.markedAt = s.markedAt → K status s → K status s') :
    Stable (rules cfg) fun w => AtMostOne cfg (K w.repo.status) w.now w.syncs := by
  rintro w w' ⟨m, hok, hmove⟩ h
  have hkept : AtMostOne cfg (K w.repo.status) w'.now w'.syncs := h.move (hK _) hok hmove
  obtain hstat | hnone := h.status_kept hmove
  · rw [hstat]
    exact hkept
  · exact hkept.imp fun s hs ha _ => by simp [hnone s hs] at ha

theorem Shows.congr {status : ApiStatus} {s s' : Sync} (hmarked : s'.markedAt = s.markedAt)
    (h : Shows status s) : Shows status s' := by
  unfold Shows at h ⊢
  rw [hmarked]
  exact h

theorem seen_stable : Stable (rules cfg) (Seen cfg) :=
  AtMostOne.stable (K := fun _ s => s.visited = true) fun _ _ _ hv _ hs => hv.trans hs

theorem between_stable : Stable (rules cfg) (Between cfg) :=
  AtMostOne.stable (K := fun status s => s.visited = true ∨ Shows status s)
    fun _ _ _ hv hm hs => hs.imp (hv.trans ·) (Shows.congr hm)

theorem holding_stable (repo : Repository) : Stable (rules cfg) (Holding cfg repo) :=
  AtMostOne.stable (K := fun _ s => s.visited = true ∧ Shows repo.status s)
    fun _ _ _ hv hm hs => ⟨hv.trans hs.1, Shows.congr hm hs.2⟩

theorem justRead_stable (repo : Repository) : Stable (rules cfg) (JustRead cfg repo) :=
  AtMostOne.stable (K := fun status s => (s.visited = true ∧ Shows repo.status s) ∧ Shows status s)
    fun _ _ _ hv hm hs => ⟨⟨hv.trans hs.1.1, Shows.congr hm hs.1.2⟩, Shows.congr hm hs.2⟩

theorem quiet_stable : Stable (rules cfg) (Quiet cfg) :=
  AtMostOne.stable (K := fun _ _ => False) fun _ _ _ _ _ hs => hs

theorem announced_stable : Stable (rules cfg) (Announced cfg) := by
  rintro w w' ⟨m, hok, hmove⟩ h
  refine ⟨quiet_stable w w' ⟨m, hok, hmove⟩ h.quiet, ?_⟩
  have hinactive := h.quiet.inactive
  -- A sync that writes its status is running.
  cases World.move_cases hmove with
  | writes hs hstage =>
    have hs' := hinactive _ (List.mem_of_getElem? hs)
    simp [Sync.active, hstage] at hs'
  | edit hw' => obtain ⟨rfl, -⟩ | rfl := hw' <;> exact h.shown
  | clears hs hstage hw₁ => obtain rfl | rfl := hw₁ <;> exact h.shown
  | _ => exact h.shown

/-- The calls that neither read the object nor start a sync. -/
def Plain : Call → Prop
  | .get | .goSync _ => False
  | _ => True

theorem AtMostOne.exec {e : Call} (h : AtMostOne cfg P w.now w.syncs) (he : Plain e) (o : Open) :
    AtMostOne cfg P (w.exec o e).2.now (w.exec o e).2.syncs := by
  generalize hexec : (w.exec o e).2 = w'
  cases w.exec_cases hexec with
  | visits | launches => exact he.elim
  | _ => exact h

theorem keep {α : Type} {p : Reconciler α} (hP : Stable (rules cfg) fun w => AtMostOne cfg P w.now w.syncs)
    (hp : Uses Plain (fun _ _ => True) (fun _ => True) p) :
    Runs cfg (fun w => AtMostOne cfg P w.now w.syncs) p fun _ w => AtMostOne cfg P w.now w.syncs :=
  triple_uses hp hP (fun _ h => h.few) fun _ _ o he h _ => h.exec he o

theorem plain_of_isPlain (e : Call) (he : e.isPlain = true) : Plain e := by
  cases e with
  | get | goSync => cases he
  | _ => trivial

theorem plain_applies (repo : Repository) (status : RepositoryStatus) : Applies Plain repo status :=
  fun _ _ => trivial

theorem plain_runs {α : Type} {p : Reconciler α} (hp : Uses Plain (fun _ _ => True) (fun _ => True) p) :
    Runs cfg (Seen cfg) p fun _ => Between cfg :=
  (keep seen_stable hp).post fun _ _ h => Seen.between h

theorem update_quiet (repo : Repository) (status : RepositoryStatus) (err : Option Str) :
    Runs cfg (Quiet cfg) (updateRepoStatusWithBackoff repo status err) fun _ => Quiet cfg :=
  keep quiet_stable (updateRepoStatus_uses plain_of_isPlain err (plain_applies _ status))

/-- The status is written, or the write is answered by an error. -/
theorem announce_runs (repo : Repository) :
    Runs cfg (Quiet cfg) (updateRepoStatusWithBackoff repo .syncInProgress none)
      fun r w => Quiet cfg w ∧ (r = none → Announced cfg w) := by
  have hquiet : ∀ r : Option Str, Stable (rules cfg) fun w => Quiet cfg w ∧ (r = none → Announced cfg w) :=
    fun r w w' hmove h =>
      ⟨quiet_stable w w' hmove h.1, fun hr => announced_stable w w' hmove (h.2 hr)⟩
  refine Triple.bind (M := fun _ => Quiet cfg) (keep quiet_stable ⟨trivial, fun _ _ => trivial⟩) fun now => ?_
  refine triple_call quiet_stable hquiet (fun _ h => h.few) fun w o h _ => ?_
  have hw' := AtMostOne.exec (e := .patchStatus (statusPatch now repo .syncInProgress none)) h trivial o
  refine ⟨hw', fun hr => ⟨hw', ?_⟩⟩
  -- No error: the object was there, and the status has been applied.
  simp only [World.exec, World.patchStatus] at hr ⊢
  split at hr
  · cases hr
  · next hgone =>
    rw [if_neg hgone, World.attempt, if_pos (.inl hr)]
    exact ⟨_, rfl, rfl⟩

theorem launch_between {repo : Repository} (h : Announced cfg w)
    (hfresh : w.now - w.lastTransition ≤ getSyncStaleTimeout cfg) : Between cfg (w.launch repo) := by
  obtain ⟨cond, hcond, hprogress⟩ := h.shown
  have hnone : w.syncs.countP Sync.active = 0 :=
    List.countP_eq_zero.mpr fun s hs => by simp [h.quiet.inactive s hs]
  have hmarked : w.lastTransition = cond.lastTransitionTime := by
    rw [World.lastTransition, hcond]
    rfl
  refine ⟨?_, fun s hs ha => ?_⟩
  · show (_ :: w.syncs).countP Sync.active ≤ 1
    rw [List.countP_cons, hnone]
    split <;> omega
  · obtain rfl | hs := List.mem_cons.mp hs
    · exact ⟨hfresh, .inr ⟨cond, hcond, hprogress, hmarked.symm⟩⟩
    · simp [h.quiet.inactive s hs] at ha

theorem launchSync_runs (repo : Repository) :
    Runs cfg (Announced cfg) (launchSync cfg repo) fun _ => Between cfg := by
  refine Triple.bind (M := fun _ => Announced cfg) ?_ fun free => ?_
  · exact triple_call announced_stable (fun _ => announced_stable) (fun _ h => h.quiet.few) fun _ _ h _ => h
  · cases free with
    | false =>
      refine (plain_runs ?_).pre fun w h => h.quiet.seen
      exact (updateRepoStatus_uses plain_of_isPlain _ (plain_applies _ _)).bind fun _ _ => uses_pure trivial
    | true =>
      refine Triple.bind (M := fun _ => Between cfg) ?_ fun _ => triple_pure between_stable fun _ h => h
      refine triple_call announced_stable (fun _ => between_stable) (fun _ h => h.quiet.few) ?_
      exact fun w o h hcall => launch_between h hcall.1

theorem performFullSync_runs (repo : Repository) :
    Runs cfg (Quiet cfg) (performFullSync cfg repo) fun _ => Between cfg := by
  refine (announce_runs repo).bind fun r => ?_
  cases r with
  | some err =>
    refine Triple.pre (P := Quiet cfg) ?_ fun _ h => h.1
    exact triple_pure quiet_stable fun _ h => (Quiet.seen h).between
  | none => exact (launchSync_runs repo).pre fun _ h => h.2 rfl

theorem performHealthCheckSync_runs (repo : Repository) :
    Runs cfg (Quiet cfg) (performHealthCheckSync cfg repo) fun _ => Between cfg := by
  refine Triple.bind (M := fun _ => Quiet cfg) (keep quiet_stable ⟨trivial, fun _ _ => trivial⟩) fun r => ?_
  cases r with
  | some err =>
    refine (plain_runs ?_).pre fun _ h => Quiet.seen h
    exact reportFailure_uses plain_of_isPlain err _ (plain_applies _ _)
  | none =>
    refine (update_quiet repo .ready none).bind fun _ => ?_
    split
    · exact performFullSync_runs repo
    · exact triple_pure quiet_stable fun _ h => (Quiet.seen h).between

/-- A reconcile that finds the sync in progress starts none, and otherwise none is running. -/
theorem decideAndPerform_runs (repo : Repository) :
    Runs cfg (Holding cfg repo) (decideAndPerform cfg repo) fun _ => Between cfg := by
  refine Triple.bind
    (M := fun r w => Seen cfg w ∧ (isSyncInProgress cfg r.1 repo = false → Quiet cfg w)) ?_ fun inputs => ?_
  · refine triple_call (holding_stable repo) ?_ (fun _ h => h.few) fun w o h _ => ?_
    · exact fun r w w' hmove h =>
        ⟨seen_stable w w' hmove h.1, fun hr => quiet_stable w w' hmove (h.2 hr)⟩
    · refine ⟨h.seen, fun hidle => ?_⟩
      -- A sync that is running would be shown, and is not stale.
      refine h.imp fun s hs ha hshown => ?_
      obtain ⟨-, cond, hcond, hprogress, hmarked⟩ := hshown
      have hfresh := (h.each s hs ha).1
      rw [← hmarked] at hfresh
      rw [isSyncInProgress, hcond] at hidle
      simp only [Option.any_some, hprogress, Bool.true_and, decide_eq_false_iff_not] at hidle
      exact hidle hfresh
  · show Runs cfg _ (perform cfg _ _) _
    by_cases hprogress : isSyncInProgress cfg inputs.1 repo = true
    · refine Triple.pre ?_ fun w h => h.1
      rw [determineSyncDecision, if_pos hprogress]
      exact plain_runs (acknowledge_uses plain_of_isPlain _ (plain_applies _ _))
    · refine Triple.pre (P := Quiet cfg) ?_ fun w h => h.2 (by simpa using hprogress)
      unfold perform
      split
      · exact (plain_runs (acknowledge_uses plain_of_isPlain _ (plain_applies _ _))).pre fun _ h => Quiet.seen h
      · split
        · exact performHealthCheckSync_runs _
        · exact (plain_runs (performOpenOnly_uses plain_of_isPlain (plain_applies _ _) (plain_applies _ _))).pre
            fun _ h => Quiet.seen h
        · exact performFullSync_runs _

theorem patchFinalizer_runs (repo : Repository) :
    Runs cfg (JustRead cfg repo) (call .patchFinalizer) (AfterFinalizer (Between cfg) (Holding cfg)) := by
  refine triple_patchFinalizer (justRead_stable repo) between_stable holding_stable (fun _ h => h.few) ?_
  intro w o h
  have hw' := AtMostOne.exec (e := .patchFinalizer) h trivial o
  exact ⟨hw'.imp fun _ _ _ hs => .inl hs.1.1, hw'.imp fun _ _ _ hs => ⟨hs.1.1, hs.2⟩⟩

theorem visit_justRead (hok : ∀ s ∈ w.syncs, s.active = true → s.visited = false) (h : Between cfg w) :
    JustRead cfg w.repo w.visit := by
  refine ⟨?_, fun s hs ha => ?_⟩
  · show (w.syncs.map _).countP Sync.active ≤ 1
    rw [List.countP_map]
    exact h.few
  · obtain ⟨t, ht, rfl⟩ := List.mem_map.mp hs
    obtain ⟨hfresh, hmeets⟩ := h.each t ht ha
    have hshown : Shows w.repo.status t := hmeets.resolve_left (by simp [hok t ht ha])
    exact ⟨hfresh, ⟨rfl, hshown⟩, hshown⟩

theorem reconcile_runs : Runs cfg (Between cfg) (reconcile cfg) fun _ => Between cfg := by
  refine reconcile_triple between_stable justRead_stable ?_ ?_ patchFinalizer_runs ?_ decideAndPerform_runs
  · exact fun repo w h => h.imp fun _ _ _ hs => hs.1
  · refine triple_get between_stable justRead_stable (fun _ h => h.few) ?_
    exact fun w o h hcall => visit_justRead (hcall.2 rfl) h
  · exact fun repo => (plain_runs (handleDeletion_uses plain_of_isPlain)).pre
      fun w h => h.imp fun _ _ _ hs => hs.1.1

/-! The runs of the controller -/

/-- **At most one full sync of the repository runs at a time** in every run in which at most one
    reconcile reads the object in the course of each full sync. -/
theorem one_sync_at_a_time (cfg : Config) {w : World} (hw : w.syncs = []) {es : List Event}
    {c : Controller} (hok : Along (step cfg) (ok cfg) (started w) es)
    (hrun : run (step cfg) (started w) es = some c) : running c.state ≤ 1 := by
  have hstart : Between cfg w := ⟨by simp [hw], by simp [hw]⟩
  exact System.run_safe (P := fun w => running w ≤ 1) (fun w m w' hok hmove => between_stable w w' ⟨m, hok, hmove⟩)
    reconcile_runs (fun _ h => h.few) hstart hok hrun

/-! A repository that is read twice while it is synced -/

theorem one_sync_at_a_time_sample : ∃ c, run (step sampleConfig) (started created)
        (reconcileOf 7 ++ [wait 300] ++ reconcileOf 4 ++ syncEnds ++ reconcileOf 4) = some c ∧
      running c.state ≤ 1 := by
  refine exists_reached_of_isSome (by decide +kernel) fun c hc => ?_
  exact one_sync_at_a_time sampleConfig rfl (by decide +kernel) hc

/-- **A second full sync starts while the first one is running.** The first reconcile starts a
    sync; the second one finds it in progress and writes that the repository is ready; the
    third one finds nothing in progress, and the spec still not synced. -/
theorem second_sync_started :
    ∃ es c, Along (step sampleConfig) (InTime sampleConfig) (started created) es ∧
      run (step sampleConfig) (started created) es = some c ∧ running c.state = 2 := by
  obtain ⟨c, hc, htwo⟩ : ∃ c, run (step sampleConfig) (started created)
      (reconcileOf 7 ++ [wait 300] ++ reconcileOf 4 ++ reconcileOf 6) = some c ∧
        running c.state = 2 := by
    decide +kernel
  exact ⟨_, c, by decide +kernel, hc, htwo⟩

end Porch.RepoController.OneSync
