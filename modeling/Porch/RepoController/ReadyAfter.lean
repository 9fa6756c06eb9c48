import Porch.RepoController.World

/- When a repository whose failure has been reported is ready again.

   Ready is written after a check or a full sync that has succeeded, and also by a reconcile
   that finds nothing to do. The second one does not look at why there is nothing to do: while
   the interval before the next retry of a failure is not over, nothing is due, and the error
   is overwritten (`ready_without_recovery`). In every run in which a reconcile that comes
   while a failure is outstanding finds something due, nothing fails while a full sync is on
   its way, and no full sync reports a failure in the middle of a reconcile, Ready is written
   only after a check or a full sync that began after the failure and succeeded
   (`ready_only_after_recovery`). -/
namespace Porch.RepoController.ReadyAfter

open Go Lts.Prog Lts

/-- A failure has been reported, and no operation that began after it has succeeded. -/
def Outstanding (w : World) : Prop := w.history.recovered < w.history.reported

instance (w : World) : Decidable (Outstanding w) := inferInstanceAs (Decidable (_ < _))

/-- The sync has not failed, and its status is still to be written. -/
def hopeful (s : Sync) : Bool := s.stage = .running ∨ s.stage = .finished none

/-- A full sync fails only while no other one is on its way. -/
def okMove (w : World) : Move → Prop
  | .finish i (.error _) => ∀ s ∈ w.syncs.eraseIdx i, hopeful s = false
  | .finish _ (.ok _) | .tick _ | .edit _ | .delete | .write _ _ | .clear _ _ => True

/-- In the middle of a reconcile, no full sync reports a failure. -/
def okBusy (w : World) (m : Move) : Prop :=
  okMove w m ∧
    match m with
    | .write i _ => ∀ s ∈ w.syncs[i]?, s.stage = .finished none
    | .finish _ _ | .tick _ | .edit _ | .delete | .clear _ _ => True

/-- A check or an open fails only while no full sync is on its way, and a reconcile that comes
    while a failure is outstanding finds something due. -/
def okCall (cfg : Config) (w : World) (e : Call) (o : Open) : Prop :=
  match e with
  | .checkRepositoryConnectivity _ | .openRepository _ =>
    o.err ≠ none → ∀ s ∈ w.syncs, hopeful s = false
  | .decisionInputs repo =>
    Outstanding w → (determineSyncDecision cfg w.now w.seen repo).1.syncNecessary = true
  | _ => True

instance (w : World) (m : Move) : Decidable (okMove w m) :=
  match m with
  | .finish _ (.error _) => inferInstanceAs (Decidable (∀ s ∈ _, _))
  | .finish _ (.ok _) | .tick _ | .edit _ | .delete | .write _ _ | .clear _ _ => isTrue trivial

instance (w : World) (m : Move) : Decidable (okBusy w m) := by
  induction m using Move.casesOn <;> dsimp only [okBusy] <;> infer_instance

instance (cfg : Config) (w : World) (e : Call) (o : Open) : Decidable (okCall cfg w e o) := by
  induction e using Call.casesOn <;> dsimp only [okCall] <;> infer_instance

def ok (cfg : Config) : Controller → Event → Prop := System.ok okMove okBusy (okCall cfg)

instance (cfg : Config) (c : Controller) (ev : Event) : Decidable (ok cfg c ev) :=
  inferInstanceAs (Decidable (System.ok _ _ _ _ _))

/-! What holds at all times -/

/-- What holds of a sync when so many failures have happened and been recovered from. -/
structure SyncOk (failures recovered : Nat) (s : Sync) : Prop where
  begun : hopeful s = true → s.begun = failures
  recovered : s.stage = .finished none → recovered = failures
  number : ∀ err n, s.stage = .finished (some (err, n)) → n ≤ failures

structure Sound (w : World) : Prop where
  reported : w.history.reported ≤ w.history.failures
  recovered : w.history.recovered ≤ w.history.failures
  met : w.history.met ≤ w.history.failures
  true_ready : w.history.falseReady = false
  syncs : ∀ s ∈ w.syncs, SyncOk w.history.failures w.history.recovered s

def Recovered (w : World) : Prop := Sound w ∧ ¬ Outstanding w

variable {cfg : Config} {w w' : World} {m : Move} {s : Sync} {status : RepositoryStatus} {α : Type} {p : Reconciler α}

/-- A failure happens while the sync is not on its way. -/
theorem SyncOk.fail {n m : Nat} (h : SyncOk n m s) (hhopeless : hopeful s = false) : SyncOk (n + 1) m s where
  begun := by simp [hhopeless]
  recovered hfin := by simp [hopeful, hfin] at hhopeless
  number err k hfin := Nat.le_succ_of_le (h.number err k hfin)

/-! What is written -/

theorem Sound.applyStatus (h : Sound w) {failure : Nat} {status : ApiStatus}
    (hfailure : failure ≤ w.history.failures)
    (hready : status.condition.any (·.status) = true → ¬ Outstanding w) :
    Sound (w.applyStatus failure status) := by
  refine { h with reported := ?_, true_ready := ?_ }
  · show (if _ then _ else _) ≤ w.history.failures
    split
    · exact max_le h.reported hfailure
    · exact h.reported
  · show (w.history.falseReady || _) = false
    rw [h.true_ready, Bool.false_or]
    cases hany : status.condition.any (·.status) with
    | false => rfl
    | true => simpa [Outstanding] using hready hany

theorem endStatus_ready (s : Sync) (failure : Option (Str × Nat))
    (h : (w.endStatus s failure).condition.any (·.status) = true) : failure = none := by
  rw [World.endStatus, statusPatch_ready] at h
  by_contra hfailure
  simp [hfailure] at h

theorem Sound.move (hok : okMove w m) (hmove : w.move cfg m = some w') (h : Sound w) : Sound w' := by
  cases World.move_cases hmove with
  | tick d | deleteBegins | deleted => exact { h with }
  | edit hw' => obtain ⟨rfl, -⟩ | rfl := hw' <;> exact { h with }
  | @succeeds i s done hs hstage =>
    have hsync := h.syncs s (List.mem_of_getElem? hs)
    have hbegun : s.begun = w.history.failures := hsync.begun (by simp [hopeful, hstage])
    have hrecov : max w.history.recovered s.begun = w.history.failures := by
      have := h.recovered
      omega
    refine { h with recovered := hrecov.le, syncs := fun t ht => ?_ }
    obtain rfl | ht := (mem_set_iff hs).mp ht
    · exact ⟨fun _ => hbegun, fun _ => hrecov, nofun⟩
    · exact { h.syncs t (List.mem_of_mem_eraseIdx ht) with recovered := fun _ => hrecov }
  | @fails i s err hs hstage =>
    refine ⟨Nat.le_succ_of_le h.reported, Nat.le_succ_of_le h.recovered, Nat.le_succ_of_le h.met,
      h.true_ready, fun t ht => ?_⟩
    obtain rfl | ht := (mem_set_iff hs).mp ht
    · exact ⟨by simp [hopeful], nofun, by rintro _ _ ⟨⟩; exact le_rfl⟩
    · exact (h.syncs t (List.mem_of_mem_eraseIdx ht)).fail (hok t ht)
  | @writes i s o failure w₁ syncs hs hstage hw₁ hsyncs =>
    have hsync := h.syncs s (List.mem_of_getElem? hs)
    have h₁ : Sound { w with syncs := syncs } := by
      refine { h with syncs := fun t ht => ?_ }
      obtain ⟨rfl, -⟩ | ht := mem_of_written hsyncs hs ht
      exacts [⟨by simp [hopeful], nofun, nofun⟩, h.syncs t ht]
    obtain rfl | rfl := hw₁
    · exact h₁
    · refine h₁.applyStatus ?_ fun hready => ?_
      · cases failure with
        | none => exact Nat.zero_le _
        | some f => exact hsync.number f.1 f.2 hstage
      · obtain rfl := endStatus_ready s failure hready
        -- The sync has succeeded, and no failure has happened since it began.
        have hrecov := hsync.recovered hstage
        have hreported := h.reported
        simp only [Outstanding]
        omega
  | clears hs hstage hw₁ =>
    obtain rfl | rfl := hw₁
    all_goals exact { h with syncs := fun t ht => h.syncs t (List.mem_of_mem_eraseIdx ht) }

/-! The calls of a reconcile -/

section Calls

variable {e : Call} {o : Open}

theorem Sound.visit (h : Sound w) : Sound w.visit := by
  refine { h with met := Nat.zero_le _, syncs := fun s hs => ?_ }
  obtain ⟨t, ht, rfl⟩ := List.mem_map.mp hs
  exact { h.syncs t ht with }

theorem Sound.launch (h : Sound w) (repo : Repository) : Sound (w.launch repo) := by
  refine { h with syncs := fun s hs => ?_ }
  obtain rfl | hs := List.mem_cons.mp hs
  · exact ⟨fun _ => rfl, nofun, nofun⟩
  · exact h.syncs s hs

theorem Sound.fail (h : Sound w) (hsyncs : ∀ s ∈ w.syncs, hopeful s = false) :
    Sound { w with history := w.history.fail } :=
  ⟨Nat.le_succ_of_le h.reported, Nat.le_succ_of_le h.recovered, le_rfl, h.true_ready,
    fun s hs => (h.syncs s hs).fail (hsyncs s hs)⟩

theorem Sound.recover (h : Sound w) :
    Sound { w with history := w.history.recover w.history.failures } := by
  have hmax : max w.history.recovered w.history.failures = w.history.failures := max_eq_right h.recovered
  exact { h with recovered := hmax.le, syncs := fun s hs => { h.syncs s hs with recovered := fun _ => hmax } }

theorem Sound.exec (h : Sound w) (hcall : okCall cfg w e o)
    (hready : ∀ status, e = .patchStatus status → status.condition.any (·.status) = true → ¬ Outstanding w) :
    Sound (w.exec o e).2 := by
  generalize hexec : (w.exec o e).2 = w'
  cases w.exec_cases hexec with
  | same => exact h
  | visits => exact h.visit
  | adds | removes | stores => exact { h with }
  | writes status => exact h.applyStatus h.met (hready status rfl)
  | recovers => exact h.recover
  | checkFails _ herr | openFails _ herr => exact h.fail (hcall herr)
  | launches repo => exact h.launch repo

/-- What is reported and recovered from stays so, unless an error is reported. -/
theorem exec_outstanding
    (herror : ∀ status, e = .patchStatus status → status.condition.any (·.isFalse .error) = false)
    (h : ¬ Outstanding w) : ¬ Outstanding (w.exec o e).2 := by
  generalize hexec : (w.exec o e).2 = w'
  cases w.exec_cases hexec with
  | writes status => simpa [Outstanding, World.applyStatus, History.write, herror status rfl] using h
  | recovers =>
    simp only [Outstanding, History.recover] at h ⊢
    omega
  | _ => exact h

end Calls

/-! The parts of a reconcile -/

abbrev rules (cfg : Config) : Rules Call Answer World :=
  System.rules (World.move cfg) answer okBusy (okCall cfg)

/-- Started with `P` and among the others, the program ends with `Q`, and never is Ready written
    while a failure is outstanding. -/
abbrev Runs (cfg : Config) {α : Type} (P : World → Prop) (p : Reconciler α) (Q : α → World → Prop) : Prop :=
  Triple (rules cfg) (fun w _ => w.history.falseReady = false) P p Q

theorem sound_stable : Stable (rules cfg) Sound := by
  rintro w w' ⟨m, hok, hmove⟩ h
  exact h.move hok.1 hmove

/-- The others report no failure in the middle of a reconcile. -/
theorem recovered_stable : Stable (rules cfg) Recovered := by
  rintro w w' ⟨m, hok, hmove⟩ ⟨hsound, h⟩
  refine ⟨hsound.move hok.1 hmove, ?_⟩
  cases World.move_cases hmove with
  | tick d | deleteBegins | deleted => exact h
  | edit hw' => obtain ⟨rfl, -⟩ | rfl := hw' <;> exact h
  | succeeds done hs hstage =>
    simp only [Outstanding, World.succeed, History.recover] at h ⊢
    omega
  | fails err hs hstage => exact h
  | @writes i s o failure w₁ syncs hs hstage hw₁ hsyncs =>
    obtain rfl | rfl := hw₁
    · exact h
    · have hfin := hok.2 s hs
      rw [hstage] at hfin
      cases hfin
      have hready : (w.endStatus s none).condition.any (·.isFalse .error) = false := statusPatch_error ..
      simpa [Outstanding, World.applyStatus, History.write, hready] using h
  | clears hs hstage hw₁ => obtain rfl | rfl := hw₁ <;> exact h

/-- The calls that do not write Ready, and those that report no error. -/
def NotReady : Call → Prop
  | .patchStatus status => status.condition.any (·.status) = false
  | _ => True

def NotError : Call → Prop
  | .patchStatus status => status.condition.any (·.isFalse .error) = false
  | _ => True

theorem notReady_of_isPlain (e : Call) (he : e.isPlain = true) : NotReady e := by
  cases e with
  | patchStatus => cases he
  | _ => trivial

theorem notError_of_isPlain (e : Call) (he : e.isPlain = true) : NotError e := by
  cases e with
  | patchStatus => cases he
  | _ => trivial

theorem notReady_applies (repo : Repository) (h : status ≠ .ready) :
    Applies NotReady repo status := by
  intro now err
  show (statusPatch now repo status err).condition.any (·.status) = false
  rw [statusPatch_ready]
  exact decide_eq_false h

theorem notError_applies (repo : Repository) (h : status ≠ .error) :
    Applies NotError repo status := by
  intro now err
  show (statusPatch now repo status err).condition.any (·.isFalse .error) = false
  rw [statusPatch_error]
  exact decide_eq_false h

theorem keep_sound (hp : Uses NotReady (fun _ _ => True) (fun _ => True) p) :
    Runs cfg Sound p fun _ => Sound := by
  refine triple_uses hp sound_stable (fun _ h => h.true_ready) fun w e o he h hcall => h.exec hcall ?_
  rintro status rfl hready
  have hnot : status.condition.any (·.status) = false := he
  simp [hnot] at hready

theorem keep_recovered (hp : Uses NotError (fun _ _ => True) (fun _ => True) p) :
    Runs cfg Recovered p fun _ => Recovered := by
  refine triple_uses hp recovered_stable (fun _ h => h.1.true_ready) fun w e o he ⟨hsound, h⟩ hcall => ?_
  refine ⟨hsound.exec hcall fun _ _ _ => h, exec_outstanding ?_ h⟩
  rintro status rfl
  exact he

section

variable (repo : Repository)
include repo

theorem check_runs : Runs cfg Sound (call (.checkRepositoryConnectivity repo))
      fun r w => Sound w ∧ (r = none → Recovered w) := by
  have hstable : ∀ r : Option Str, Stable (rules cfg) fun w => Sound w ∧ (r = none → Recovered w) :=
    fun r w w' hmove h => ⟨sound_stable w w' hmove h.1, fun hr => recovered_stable w w' hmove (h.2 hr)⟩
  refine triple_call sound_stable hstable (fun _ h => h.true_ready) fun w o h hcall => ?_
  have hsound := h.exec hcall (by rintro status ⟨⟩)
  refine ⟨hsound, fun hr => ⟨hsound, ?_⟩⟩
  simp only [World.exec, World.check] at hr ⊢
  split at hr
  · cases hr
  · have hreported := h.reported
    simp only [Outstanding, History.recover]
    omega

theorem performFullSync_runs : Runs cfg Sound (performFullSync cfg repo) fun _ => Sound :=
  keep_sound (performFullSync_uses notReady_of_isPlain (notReady_applies repo (by decide))
    (notReady_applies repo (by decide)) trivial)

theorem reportFailure_runs (err : Str) (retry : Time) :
    Runs cfg Sound (reportFailure repo err retry) fun _ => Sound :=
  keep_sound (reportFailure_uses notReady_of_isPlain err retry (notReady_applies repo (by decide)))

theorem ready_runs :
    Runs cfg Recovered (updateRepoStatusWithBackoff repo .ready none) fun _ => Recovered :=
  keep_recovered (updateRepoStatus_uses notError_of_isPlain none (notError_applies repo (by decide)))

theorem performHealthCheckSync_runs :
    Runs cfg Sound (performHealthCheckSync cfg repo) fun _ => Sound := by
  refine (check_runs repo).bind fun
    | .some err => (reportFailure_runs repo err _).pre fun _ h => h.1
    | none => ?_
  refine Triple.pre (P := Recovered) ?_ fun _ h => h.2 rfl
  refine (ready_runs repo).bind fun _ => ?_
  split
  · exact (performFullSync_runs repo).pre fun _ h => h.1
  · exact triple_pure recovered_stable fun _ h => h.1

/-- An open that fails is reported; one that works leaves nothing outstanding, as the check
    before it has succeeded. -/
theorem openIntoCache_runs : Runs cfg Recovered (openIntoCache cfg repo) fun _ => Sound := by
  refine Triple.bind (M := fun _ => Recovered) ?_ fun r => ?_
  · exact keep_recovered ⟨trivial, fun _ _ => trivial⟩
  · cases r with
    | some err => exact (reportFailure_runs repo err _).pre fun _ h => h.1
    | none =>
      refine Triple.bind (M := fun _ => Recovered) ?_ fun _ => ?_
      · exact keep_recovered ⟨trivial, fun _ _ => trivial⟩
      · exact (ready_runs repo).bind fun _ => triple_pure recovered_stable fun _ h => h.1

theorem performOpenOnly_runs : Runs cfg Sound (performOpenOnly cfg repo) fun _ => Sound := by
  refine Triple.bind (M := fun _ => Sound) (keep_sound ⟨trivial, fun _ _ => trivial⟩) fun
    | .false => triple_pure sound_stable fun _ h => h
    | .true => ?_
  refine Triple.bind (M := fun _ => Sound) ?_ fun _ =>
    keep_sound ⟨trivial, fun _ _ => uses_pure trivial⟩
  exact (check_runs repo).bind fun
    | some err => (reportFailure_runs repo err _).pre fun _ h => h.1
    | none => (openIntoCache_runs repo).pre fun _ h => h.2 rfl

theorem decideAndPerform_runs : Runs cfg Sound (decideAndPerform cfg repo) fun _ => Sound := by
  refine Triple.bind (M := fun r w => Sound w ∧
    ((determineSyncDecision cfg r.1 r.2 repo).1.syncNecessary = false → Recovered w)) ?_ fun inputs => ?_
  · refine triple_call sound_stable ?_ (fun _ h => h.true_ready) fun w o h hcall => ?_
    · exact fun r w w' hmove h =>
        ⟨sound_stable w w' hmove h.1, fun hr => recovered_stable w w' hmove (h.2 hr)⟩
    · refine ⟨h, fun hidle => ⟨h, fun hout => ?_⟩⟩
      have hdue : (determineSyncDecision cfg w.now w.seen repo).1.syncNecessary = true := hcall hout
      cases hdue.symm.trans hidle
  · show Runs cfg _ (perform cfg _ _) _
    unfold perform
    split
    · next hidle =>
      refine Triple.pre (P := Recovered) ?_ fun _ h => h.2 hidle
      exact (keep_recovered (acknowledge_uses notError_of_isPlain _ (notError_applies _ (by decide)))).post
        fun _ _ h => h.1
    · refine Triple.pre (P := Sound) ?_ fun _ h => h.1
      split
      · exact performHealthCheckSync_runs _
      · exact performOpenOnly_runs _
      · exact performFullSync_runs _

end

theorem reconcile_runs : Runs cfg Sound (reconcile cfg) fun _ => Sound := by
  have hplain : ∀ e, NotReady e → Runs cfg Sound (call e) fun _ => Sound := fun e he =>
    keep_sound ⟨he, fun _ _ => trivial⟩
  refine reconcile_triple (J := fun _ => Sound) sound_stable (fun _ => sound_stable) (fun _ _ h => h) ?_ ?_ ?_
    decideAndPerform_runs
  · refine (hplain .get trivial).post fun r w h => ?_
    match r with
    | .ok (some _) | .ok none | .error _ => exact h
  · refine fun repo => (hplain .patchFinalizer trivial).post fun r w h => ?_
    cases r <;> exact h
  · exact fun _ => keep_sound (handleDeletion_uses notReady_of_isPlain)

/-! The runs of the controller -/

/-- **After a failure that has been reported, Ready is written only after a check or a full sync
    that began after the failure and succeeded**, in every run that meets the condition. -/
theorem ready_only_after_recovery (cfg : Config) {w : World} (hsyncs : w.syncs = []) (hw : w.history.Blank)
    {es : List Event} {c : Controller} (hok : Along (step cfg) (ok cfg) (started w) es)
    (hrun : run (step cfg) (started w) es = some c) : c.state.history.falseReady = false := by
  have hstart : Sound w := by
    rw [History.Blank] at hw
    refine ⟨?_, ?_, ?_, ?_, by simp [hsyncs]⟩ <;> rw [hw]
  exact System.run_safe (P := fun w => w.history.falseReady = false)
    (fun _ _ _ hok hmove h => h.move hok hmove) reconcile_runs (fun _ h => h.true_ready) hstart hok hrun

def checkFails : List Event :=
  [wait 300, .start, .go {}, .go {}, .go { err := some "connection refused" }, .go {}, .go {}]

theorem ready_only_after_recovery_sample : ∃ c, run (step sampleConfig) (started created)
        (reconcileOf 7 ++ syncEnds ++ checkFails ++ [wait 30] ++ reconcileOf 9) = some c ∧
      c.state.history.falseReady = false := by
  refine exists_reached_of_isSome (by decide +kernel) fun c hc => ?_
  exact ready_only_after_recovery sampleConfig (w := created) rfl (Eq.refl _) (by decide +kernel) hc

/-- **The error is overwritten by a reconcile that finds nothing due.** The repository has been
    synced, a health check fails and is reported; one second later a reconcile comes, for
    which neither the retry nor anything else is due, and writes Ready. -/
theorem ready_without_recovery : ∃ es c, run (step sampleConfig) (started created) es = some c ∧
      c.state.history.falseReady = true ∧ c.state.repo.status.condition.any (·.status) = true :=
  ⟨reconcileOf 7 ++ syncEnds ++ checkFails ++ [wait 1] ++ reconcileOf 4, by decide +kernel⟩

end Porch.RepoController.ReadyAfter
