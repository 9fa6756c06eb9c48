import Porch.PrController.Frame
import Porch.PrController.RenderGuard

/- `status.renderingPrrResourceVersion`, the marker of a render that is running. While it is
   set, the webhook and the controller refuse every lifecycle change.

   A reconcile sets the marker before it renders, and can end for good without clearing it:
   the read after the render fails, the patch that records a failed render fails, or the
   reconcile finds the marker set and ends before it renders (`marker_left_behind`). In
   every run in which the read and that patch work, and each reconcile that finds the marker
   set reads the object as it is and has a render to do first, no reconcile ends quietly with
   the marker set (`quiet_end_clears_marker`). -/
namespace Porch.PrController.RenderMarker

open Go Lts.Prog Lts Cluster

def marker (c : Cluster) : Str := c.live.status.renderingPrrResourceVersion

/-- A reconcile with this object in hand gets to its render. -/
def AsksForRender (cfg : Config) (pr : PackageRevision) : Prop :=
  cfg.renderer = true ∧ (RenderTrigger.annotation (renderTrigger pr) = true ∨ (renderTrigger pr).source = true) ∧
    (pr.spec.source = none ∨ pr.status.creationSource ≠ []) ∧
    shouldSkipSubpackageOperation cfg.subpackageOperationHash pr = true

instance (cfg : Config) (pr : PackageRevision) : Decidable (AsksForRender cfg pr) :=
  inferInstanceAs (Decidable (_ ∧ _))

/-- The condition on the calls: while the marker is set, the object is read as it is and asks
    for a render, the read after a render works, a failed render is recorded, and a render
    that has to wait is retried. -/
def okCall (cfg : Config) (c : Cluster) (e : Call) (o : Outcome) : Prop :=
  match e with
  | .get => marker c ≠ [] → o.lag = 0 ∧ AsksForRender cfg c.live
  | .patchFinalizer _ | .patchRepositoryLabel _ | .patchLatestRevisionLabel _ =>
    marker c ≠ [] → AsksForRender cfg c.live
  | .getLive => marker c ≠ [] → o.err = none
  | .applyRenderStatus _ _ rendered => rendered.reason = .renderFailed → marker c ≠ [] → o.err = none
  | .render _ => o.limited = true → marker c ≠ [] → 0 < cfg.renderRequeueDelay
  | _ => True

instance (cfg : Config) (c : Cluster) (e : Call) (o : Outcome) : Decidable (okCall cfg c e o) := by
  induction e using Call.casesOn <;> dsimp only [okCall] <;> infer_instance

def ok (cfg : Config) : World → Event → Prop :=
  System.ok (fun _ _ => True) (fun _ _ => True) (okCall cfg)

instance (cfg : Config) (w : World) (ev : Event) : Decidable (ok cfg w ev) :=
  inferInstanceAs (Decidable (System.ok _ _ _ _ _))

/-- The reconcile has ended, without an error and without asking for another one. -/
def EndsQuietly (w : World) : Prop :=
  match w.running with
  | some (.ret (.ok result)) => result.asksRequeue = false
  | _ => False

instance (w : World) : Decidable (EndsQuietly w) :=
  match hw : w.running with
  | some (.ret (.ok result)) =>
    decidable_of_iff (result.asksRequeue = false) (by simp [EndsQuietly, hw])
  | some (.ret (.error _)) | some (.call _ _) | none => isFalse (by simp [EndsQuietly, hw])

/-! What the calls keep -/

/-- A version with the marker set is not rendered. -/
def VersionOk (pr : PackageRevision) : Prop :=
  pr.status.renderingPrrResourceVersion ≠ [] → isRenderedTrue pr = false

def Sound (c : Cluster) : Prop := c.Versions VersionOk

def Clear (c : Cluster) : Prop := Sound c ∧ marker c = []

theorem versionOk_of_status {v w : PackageRevision} (h : v.status = w.status) (hv : VersionOk v) :
    VersionOk w := by
  unfold VersionOk isRenderedTrue at hv ⊢
  rw [← h]
  exact hv

theorem Sound.live {c : Cluster} (h : Sound c) : VersionOk c.live := h _ List.mem_cons_self

/-- The calls that keep the versions sound, and those that keep the marker clear too. -/
def KeepsSound : Call → Prop
  | .applyStatus _ _ rendered => NotRendered rendered
  | .applyRenderStatus rendering _ rendered => rendering = [] ∨ rendered.status ≠ .true
  | _ => True

def KeepsClear : Call → Prop
  | .applyStatus _ _ rendered => NotRendered rendered
  | .applyRenderStatus rendering _ _ => rendering = []
  | _ => True

theorem keepsSound_of_isRead (e : Call) (he : e.isRead = true) : KeepsSound e := by
  cases e with
  | applyStatus | applyRenderStatus => cases he
  | _ => trivial

theorem keepsClear_of_isRead (e : Call) (he : e.isRead = true) : KeepsClear e := by
  cases e with
  | applyStatus | applyRenderStatus => cases he
  | _ => trivial

theorem KeepsClear.keepsSound {e : Call} (he : KeepsClear e) : KeepsSound e := by
  cases e with
  | applyStatus => exact he
  | applyRenderStatus => exact .inl he
  | _ => trivial

section Calls

variable {c c' : Cluster} {o : Outcome}

theorem Sound.write {pr : PackageRevision} (h : Sound c) (hpr : VersionOk pr) (hlive : c'.live = pr)
    (hpast : c'.past = c.live :: c.past) : Sound c' :=
  Versions.write h hpr hlive hpast

theorem versionOk_applyStatus {status : CoreStatus} {ready : Condition} {rendered : Option Condition}
    (h : VersionOk c.live) (hr : NotRendered rendered) :
    VersionOk (c.applyStatus o status ready rendered).live := by
  intro hmarker
  have hlive : isRenderedTrue c.live = false := h hmarker
  cases rendered with
  | some cond =>
    have hcond : cond.status ≠ .true := hr cond rfl
    simp [isRenderedTrue, applyStatus, write, stamped, hcond]
  | none =>
    simp only [isRenderedTrue, applyStatus, write, Option.map_none] at hlive ⊢
    cases c.renderedByCore && o.drops with
    | true => rfl
    | false => exact hlive

variable {e : Call} {r : Answer e}

theorem versionOk_effect (he : KeepsSound e) (h : VersionOk c.live) :
    VersionOk (c.effect o e).live := by
  cases e with
  | applyStatus status ready rendered => exact versionOk_applyStatus h he
  | applyRenderStatus rendering observed rendered =>
    intro hmarker
    obtain hnil | hstat := he
    · exact absurd hnil hmarker
    · simp [isRenderedTrue, effect, applyRenderStatus, write,
        stamped, hstat]
  | applyPackageConditions => exact h
  | _ => exact versionOk_of_status (effect_status rfl).symm h

theorem exec_keeps_sound (he : KeepsSound e) (h : Sound c)
    (hexec : c.exec o e = some (r, c')) : Sound c' :=
  Versions.exec h (fun _ _ => versionOk_effect he h.live) hexec

theorem exec_keeps_clear (he : KeepsClear e) (h : Clear c)
    (hexec : c.exec o e = some (r, c')) : Clear c' := by
  refine ⟨exec_keeps_sound he.keepsSound h.1 hexec, ?_⟩
  obtain heq | ⟨-, -, rfl⟩ := exec_cases hexec
  · rw [heq]
    exact h.2
  · cases e with
    | applyRenderStatus rendering observed rendered => exact he
    | applyStatus | applyPackageConditions => exact h.2
    | _ =>
      show (c.effect o _).live.status.renderingPrrResourceVersion = []
      rw [effect_status rfl]
      exact h.2

end Calls

/-! The parts of a reconcile -/

section Parts

variable (cfg : Config)

abbrev rules : Rules Call Answer Cluster := Cluster.rules (fun _ _ => True) (okCall cfg)

/-- Started with `P` and among the others, the program ends with `Q`. -/
abbrev Runs {α : Type} (P : Cluster → Prop) (p : Reconciler α) (Q : α → Cluster → Prop) : Prop :=
  Triple (rules cfg) (fun _ _ => True) P p Q

/-- The state while a reconcile has this object in hand: if the marker is set, the render is
    still to come. -/
structure Holding (pr : PackageRevision) (c : Cluster) : Prop where
  sound : Sound c
  asks : marker c ≠ [] → AsksForRender cfg pr
  version : VersionOk pr

/-- The state after a part that ends the reconcile with a result. -/
structure Ended (result : Result) (c : Cluster) : Prop where
  sound : Sound c
  clear : result.asksRequeue = false → marker c = []

variable {cfg} {pr : PackageRevision}

variable {c : Cluster} {result : Result} {α : Type} {A : α → Prop} {p : Reconciler α}

theorem Clear.ended (h : Clear c) (result : Result) : Ended result c :=
  ⟨h.1, fun _ => h.2⟩

theorem Sound.ended (h : Sound c) (hr : result.asksRequeue = true) : Ended result c :=
  ⟨h, fun hq => by simp [hr] at hq⟩

theorem Clear.holding (h : Clear c) (hpr : VersionOk pr) : Holding cfg pr c :=
  ⟨h.1, fun hm => absurd h.2 hm, hpr⟩

theorem Holding.clear (h : Holding cfg pr c) (hpr : ¬ AsksForRender cfg pr) : Clear c :=
  ⟨h.sound, by_contra fun hm => hpr (h.asks hm)⟩

theorem marker_move {c' : Cluster} (h : (rules cfg).env c c') : marker c' = marker c := by
  obtain ⟨m, -, hm⟩ := h
  exact congrArg (·.renderingPrrResourceVersion) (move_status hm)

theorem sound_stable : Stable (rules cfg) Sound := by
  rintro c c' ⟨m, -, hm⟩ h
  exact Versions.move h (fun _ _ => versionOk_of_status) hm

/-- What is said of the marker besides soundness is stable. -/
theorem stable_marker {P : Cluster → Prop} {R : Str → Prop} (hP : ∀ c, P c ↔ Sound c ∧ R (marker c)) :
    Stable (rules cfg) P := by
  intro c c' hmove h
  have hc := (hP c).mp h
  refine (hP c').mpr ⟨sound_stable c c' hmove hc.1, ?_⟩
  rw [marker_move hmove]
  exact hc.2

theorem clear_stable : Stable (rules cfg) Clear := stable_marker (R := (· = [])) fun _ => Iff.rfl

theorem ended_stable (result : Result) : Stable (rules cfg) (Ended result) :=
  stable_marker (R := fun m => result.asksRequeue = false → m = [])
    fun _ => ⟨fun h => ⟨h.sound, h.clear⟩, fun h => ⟨h.1, h.2⟩⟩

theorem holding_stable (pr : PackageRevision) : Stable (rules cfg) (Holding cfg pr) :=
  stable_marker (R := fun m => (m ≠ [] → AsksForRender cfg pr) ∧ VersionOk pr)
    fun _ => ⟨fun h => ⟨h.sound, h.asks, h.version⟩, fun h => ⟨h.1, h.2.1, h.2.2⟩⟩

theorem keep_sound (hp : Uses KeepsSound (fun _ _ => True) A p) :
    Runs cfg Sound p fun a c => A a ∧ Sound c :=
  hp.triple sound_stable (fun _ _ _ _ => trivial) fun _ _ _ _ he h ⟨_, _, hexec⟩ =>
    ⟨trivial, exec_keeps_sound he h hexec⟩

theorem keep_clear (hp : Uses KeepsClear (fun _ _ => True) A p) :
    Runs cfg Clear p fun a c => A a ∧ Clear c :=
  hp.triple clear_stable (fun _ _ _ _ => trivial) fun _ _ _ _ he h ⟨_, _, hexec⟩ =>
    ⟨trivial, exec_keeps_clear he h hexec⟩

/-! Rendering -/

theorem clearing_patch {observed : Str} {rendered : Condition} {Q : Except Str Unit → Cluster → Prop}
    (hQ : ∀ r, Stable (rules cfg) (Q r)) (hok : ∀ c, Clear c → Q (.ok ()) c)
    (herr : ∀ err c o, Sound c → okCall cfg c (.applyRenderStatus [] observed rendered) o →
      o.err = some err → Q (.error err) c) :
    Runs cfg Sound (call (.applyRenderStatus [] observed rendered)) Q := by
  refine triple_perform sound_stable hQ (fun _ _ => trivial) ?_
  rintro c r c' h ⟨o, hcall, hexec⟩
  obtain ⟨err, ho, rfl, rfl⟩ | ⟨-, heq⟩ := attempt_cases hexec
  · exact herr err c' o h hcall ho
  · have hsound : Sound c' :=
      exec_keeps_sound (e := .applyRenderStatus [] observed rendered) (Or.inl rfl) h hexec
    cases heq
    exact hok _ ⟨hsound, rfl⟩

theorem setRenderFailed_runs (err : Str) :
    Runs cfg Sound (setRenderFailed pr err) fun _ => Clear := by
  refine Triple.bind (M := fun _ => Clear) ?_ fun _ => ?_
  · refine clearing_patch (fun _ => clear_stable) (fun c h => h) ?_
    intro err c o h hcall ho
    refine ⟨h, by_contra fun hm => ?_⟩
    rw [hcall rfl hm] at ho
    cases ho
  · exact (keep_clear (updateStatus_uses keepsClear_of_isRead fun _ => notRendered_none)).post
      fun _ _ h => h.2

theorem requeueOrFailRender_uses (err : Str) :
    Uses KeepsSound (fun _ _ => True) (fun r => ∀ result ∈ r, result.asksRequeue = true)
      (requeueOrFailRender cfg pr err) := by
  refine Uses.bind (A := fun _ => True) (mayRetry_uses keepsSound_of_isRead) fun
    | .false, _ => uses_pure fun _ h => by cases h
    | .true, _ => ?_
  refine (updateStatus_uses keepsSound_of_isRead fun _ => notRendered_none).bind fun _ _ => ?_
  refine (updateRenderStatus_uses fun _ => .inr (by simp [condition])).bind fun _ _ => ?_
  exact uses_pure fun _ h => by cases h; rfl

/-- How a render ends: with an error that leaves the marker clear, with a result, or with its
    output stored. -/
def RenderPost (stored : Cluster → Prop) : PartResult → Cluster → Prop
  | .error _ => Clear
  | .ok (some result) => Ended result
  | .ok none => stored

theorem retryOrFailRender_runs (err : Str) (stored : Cluster → Prop) :
    Runs cfg Sound (retryOrFailRender cfg pr err) (RenderPost stored) := by
  refine (keep_sound (requeueOrFailRender_uses err)).bind_of fun
    | .some result, hretried => triple_pure sound_stable fun c h => h.ended (hretried result rfl)
    | none, _ => ?_
  exact Triple.bind (setRenderFailed_runs err) fun _ => triple_pure clear_stable fun c h => h

theorem checkRenderStale_runs (rendered : Str) :
    Runs cfg Sound (checkRenderStale rendered) (RenderPost Sound) := by
  -- The read finds the object, unless there is nothing to clear.
  refine Triple.bind (M := fun r c => r.isOk = true ∧ Sound c ∨ Clear c) ?_ fun read => ?_
  · refine triple_perform sound_stable ?_ (fun _ _ => trivial) ?_
    · rintro r c c' hmove (⟨hr, h⟩ | h)
      · exact .inl ⟨hr, sound_stable c c' hmove h⟩
      · exact .inr (clear_stable c c' hmove h)
    · rintro c r c' h ⟨o, hcall, hexec⟩
      have heq : (c.read o 0, c) = (r, c') := Option.some.inj hexec
      cases heq
      by_cases hm : marker c = []
      · exact .inr ⟨h, hm⟩
      · refine .inl ⟨?_, h⟩
        simp [Cluster.read, hcall hm, Except.isOk, Except.toBool]
  · cases read with
    | error err =>
      refine (triple_pure clear_stable fun c h => h).pre ?_
      rintro c (⟨hr, -⟩ | h)
      · cases hr
      · exact h
    | ok current =>
      refine Triple.pre (P := Sound) ?_ fun c h => h.elim (·.2) (·.1)
      dsimp only
      split
      · exact triple_pure sound_stable fun c h => h.ended rfl
      · exact triple_pure sound_stable fun c h => h

theorem executeRender_runs : Runs cfg Sound (executeRender cfg pr) (RenderPost Sound) := by
  have hretry : ∀ err, Runs cfg Sound (retryOrFailRender cfg pr err) (RenderPost Sound) := fun err =>
    retryOrFailRender_runs err _
  have hfailed : ∀ err text : Str, Runs cfg Sound
      (do setRenderFailed pr err; pure (.error text) : Reconciler PartResult) (RenderPost Sound) :=
    fun err text => (setRenderFailed_runs err).bind fun _ => triple_pure clear_stable fun c h => h
  refine (keep_sound (readPackageResources_uses keepsSound_of_isRead)).bind_of fun
    | .error err, _ => hretry err
    | .ok _, _ => ?_
  -- A render that finds no place is retried, unless there is nothing to clear.
  refine Triple.bind (M := fun r c => Sound c ∧
    (r = .limited → marker c ≠ [] → 0 < cfg.renderRequeueDelay)) ?_ fun answer => ?_
  · refine triple_perform sound_stable ?_ (fun _ _ => trivial) ?_
    · exact fun r => stable_marker
        (R := fun m => r = .limited → m ≠ [] → 0 < cfg.renderRequeueDelay) fun _ => Iff.rfl
    · rintro c r c' h ⟨o, hcall, hexec⟩
      refine ⟨exec_keeps_sound (keepsSound_of_isRead _ rfl) h hexec, fun hr hm => ?_⟩
      have hlive := (exec_isRead_live rfl hexec).1
      refine hcall ?_ (by rw [marker, ← hlive]; exact hm)
      have heq : c.renderAnswer o = (r, c') := Option.some.inj hexec
      by_contra hlimited
      rw [hr, renderAnswer, if_neg hlimited] at heq
      split at heq <;> cases heq
  · cases answer with
    | limited =>
      refine Triple.pre (P := Ended (.after cfg.renderRequeueDelay))
        (triple_pure (ended_stable _) fun c h => h) ?_
      refine fun c h => ⟨h.1, fun hq => by_contra fun hm => ?_⟩
      simp only [Result.asksRequeue, decide_eq_false_iff_not] at hq
      exact hq (h.2 rfl hm)
    | failed err => exact (hfailed _ _).pre fun c h => h.1
    | result rendered pipelineErr =>
      refine Triple.bind ((checkRenderStale_runs _).pre fun c h => h.1) fun
        | .error _ => triple_pure clear_stable fun c h => h
        | .ok (some result) => triple_pure (ended_stable result) fun c h => h
        | .ok none => ?_
      cases pipelineErr with
      | some err =>
        refine (keep_sound (persistOnFailure_uses keepsSound_of_isRead (fun _ _ => trivial)
          (fun _ => trivial) fun _ _ _ => trivial)).bind_of fun _ _ => ?_
        exact hfailed _ _
      | none =>
        refine (keep_sound (writeRenderedResources_uses keepsSound_of_isRead
          fun _ _ => trivial)).bind_of fun written _ => ?_
        cases written with
        | error err => exact hretry _
        | ok _ =>
          refine (keep_sound (syncKptfileFields_uses (fun _ _ => trivial)
            fun _ => trivial)).bind_of fun _ _ => ?_
          exact triple_pure sound_stable fun c h => h

/-- The generation of a render that worked is brought up to date, and the marker of such a
    version is empty. -/
theorem refreshRenderedGeneration_uses (hpr : VersionOk pr) :
    Uses KeepsClear (fun _ _ => True) (fun _ => True) (refreshRenderedGeneration pr) := by
  unfold refreshRenderedGeneration
  cases hrend : pr.status.rendered with
  | none => exact uses_pure trivial
  | some cond =>
    dsimp only
    split
    · next htrue =>
      have hmarker : pr.status.renderingPrrResourceVersion = [] := by
        by_contra hm
        have := hpr hm
        simp [isRenderedTrue, hrend, htrue.1] at this
      exact (updateRenderStatus_uses fun _ => hmarker).bind fun _ _ => uses_pure trivial
    · exact uses_pure trivial

theorem reconcileRender_runs :
    Runs cfg (Holding cfg pr) (reconcileRender cfg pr) (RenderPost Clear) := by
  unfold reconcileRender
  split
  · next hrenderer =>
    refine Triple.pre (triple_pure clear_stable fun c h => h) fun c h => h.clear fun hasks => ?_
    simp [hasks.1] at hrenderer
  · dsimp only
    split
    · next htrigger =>
      have hpr : ¬ AsksForRender cfg pr := fun hasks => by
        simp only [Bool.and_eq_true, Bool.not_eq_true'] at htrigger
        simpa [htrigger.1, htrigger.2] using hasks.2.1
      intro c h
      refine ((keep_clear (refreshRenderedGeneration_uses h.version)).bind_of fun _ _ => ?_) c
        (h.clear hpr)
      exact triple_pure clear_stable fun c h => h
    · refine Triple.pre (P := Sound) ?_ fun c h => h.sound
      have hmark : Uses KeepsSound (fun _ _ => True) (fun _ => True) (updateRenderStatus pr
          (renderTrigger pr).requested []
          (condition pr.generation .unknown .pending "rendering")) :=
        updateRenderStatus_uses fun _ => .inr (by simp [condition])
      refine (keep_sound hmark).bind_of fun _ _ => ?_
      refine Triple.bind executeRender_runs fun executed => ?_
      obtain _ | _ | result := executed
      · exact triple_pure clear_stable fun c h => h
      rotate_left
      · exact triple_pure (ended_stable result) fun c h => h
      refine (keep_sound (verifyResourcesAvailable_uses keepsSound_of_isRead)).bind_of
        fun verified _ => ?_
      cases verified with
      | error err => exact retryOrFailRender_runs err _
      | ok _ =>
        -- The last patch clears the marker, or the render is done again.
        refine Triple.bind (M := fun r c => Sound c ∧ (r = .ok () → marker c = [])) ?_
          fun recorded => ?_
        · refine clearing_patch ?_ (fun c h => ⟨h.1, fun _ => h.2⟩) ?_
          · exact fun r => stable_marker (R := fun m => r = .ok () → m = []) fun _ => Iff.rfl
          · exact fun err c o h _ _ => ⟨h, fun hr => by cases hr⟩
        · cases recorded with
          | error err =>
            exact Triple.pre (triple_pure sound_stable fun c h => h.ended rfl) fun c h => h.1
          | ok _ =>
            exact Triple.pre (triple_pure clear_stable fun c h => h) fun c h => ⟨h.1, h.2 rfl⟩

/-! The parts before the render -/

theorem asksForRender_congr {v w : PackageRevision} (hspec : v.spec = w.spec)
    (hreq : v.renderRequest = w.renderRequest) (hstat : v.status = w.status) :
    AsksForRender cfg v ↔ AsksForRender cfg w := by
  cases v
  cases w
  cases hspec
  cases hreq
  cases hstat
  exact Iff.rfl

theorem ensureMetadata_runs :
    Runs cfg (Holding cfg pr) (ensureMetadata pr) (Answered (Holding cfg) Sound) := by
  refine ensureMetadata_rules
    (G := fun c => marker c ≠ [] → AsksForRender cfg c.live) sound_stable holding_stable
    (fun _ _ h => h.sound) (fun _ _ _ => trivial) ?_ ?_ ?_
  · intro c e o he hwrite hok
    cases e with
    | patchFinalizer | patchRepositoryLabel | patchLatestRevisionLabel => exact hok
    | getRepository => cases hwrite
    | _ => cases he
  · intro pr c c' o r h hexec
    rw [exec_isRead rfl hexec]
    exact ⟨h.sound, h.asks, h.version⟩
  · intro pr new c h hasks hspec hreq hstat
    have hnew : VersionOk new := versionOk_of_status hstat.symm h.sound.live
    refine ⟨h.sound.write hnew rfl rfl, fun hm => ?_, hnew⟩
    rw [asksForRender_congr hspec hreq hstat]
    refine hasks ?_
    rw [marker, ← hstat]
    exact hm

/-- How the source and a subpackage operation end. -/
def ContentPost (cfg : Config) (pr : PackageRevision) : PartResult → Cluster → Prop
  | .ok none => Holding cfg pr
  | _ => Clear

theorem contentPost_of_ne {r : PartResult} (hr : r ≠ .ok none) : ContentPost cfg pr r = Clear := by
  match r with
  | .ok none => exact absurd rfl hr
  | .ok (some _) | .error _ => rfl

theorem content_runs {p : Reconciler PartResult} (hp : Uses KeepsClear (fun _ _ => True) (· ≠ .ok none) p)
    (hpr : ¬ AsksForRender cfg pr) : Runs cfg (Holding cfg pr) p (ContentPost cfg pr) := by
  refine ((keep_clear hp).post ?_).pre fun c h => h.clear hpr
  rintro r c ⟨hr, h⟩
  rw [contentPost_of_ne hr]
  exact h

theorem reconcileSource_runs :
    Runs cfg (Holding cfg pr) (reconcileSource cfg pr) (ContentPost cfg pr) := by
  by_cases hdue : pr.spec.source ≠ none ∧ pr.status.creationSource = []
  · refine content_runs (reconcileSource_uses keepsClear_of_isRead (fun _ _ => rfl) trivial
      (fun _ _ _ => trivial) (fun _ _ _ _ _ _ h => h) hdue.1 hdue.2) fun hasks => ?_
    exact hasks.2.2.1.elim hdue.1 fun h => h hdue.2
  · rw [not_and_or, not_not] at hdue
    rw [reconcileSource_skip hdue]
    exact triple_pure (holding_stable pr) fun c h => h

theorem reconcileSubpackageOperation_runs :
    Runs cfg (Holding cfg pr) (reconcileSubpackageOperation cfg pr) (ContentPost cfg pr) := by
  cases hskip : shouldSkipSubpackageOperation cfg.subpackageOperationHash pr with
  | false =>
    refine content_runs (reconcileSubpackageOperation_uses keepsClear_of_isRead (fun _ _ => rfl)
      (fun _ _ _ => trivial) (fun _ _ _ _ _ _ h => h) hskip) fun hasks => ?_
    exact absurd hasks.2.2.2 (by simp [hskip])
  | true =>
    rw [reconcileSubpackageOperation_skip hskip]
    exact triple_pure (holding_stable pr) fun c h => h

def MetadataPost (cfg : Config) : Option Result × PackageRevision → Cluster → Prop
  | (some _, _) => Clear
  | (none, pr) => Holding cfg pr

/-- The metadata are left alone while a render is due. -/
theorem reconcilePackageMetadata_runs :
    Runs cfg (Holding cfg pr) (reconcilePackageMetadata cfg pr) (MetadataPost cfg) := by
  by_cases hasks : AsksForRender cfg pr
  · have hskip : reconcilePackageMetadata cfg pr = pure (none, pr) := by
      unfold reconcilePackageMetadata
      split
      · rfl
      split
      · rfl
      split
      · rfl
      split
      · rfl
      · next hdraft _ hobserved hsrc =>
        have htrigger := hasks.2.1
        simp only [renderTrigger, hdraft, if_false, decide_eq_true_eq] at htrigger
        exact htrigger.elim (fun h => absurd h.2 hobserved) fun h => absurd h hsrc
    rw [hskip]
    exact triple_pure (holding_stable pr) fun c h => h
  · intro c h
    refine ((keep_clear (reconcilePackageMetadata_uses keepsClear_of_isRead
      (fun _ _ _ => trivial) fun _ => trivial)).post ?_) c (h.clear hasks)
    rintro ⟨result, pr'⟩ c' ⟨hstat, hclear⟩
    cases result with
    | some _ => exact hclear
    | none => exact hclear.holding (versionOk_of_status (hstat rfl).symm h.version)

def ReconciledPost : Option Result → Cluster → Prop
  | some result => Ended result
  | none => Clear

theorem reconcileContent_runs :
    Runs cfg (Holding cfg pr) (reconcileContent cfg pr) ReconciledPost := by
  have hend : ∀ result, Runs cfg Clear (pure (some result)) ReconciledPost := fun result =>
    triple_pure clear_stable fun c h => h.ended result
  refine reconcileSource_runs.bind fun | .error _ | .ok (some _) => hend _ | .ok none => ?_
  refine reconcilePackageMetadata_runs.bind fun | (some _, _) => hend _ | (none, _) => ?_
  refine reconcileSubpackageOperation_runs.bind fun | .error _ | .ok (some _) => hend _ | .ok none => ?_
  exact reconcileRender_runs.bind fun
    | .error _ => hend _
    | .ok (some result) => triple_pure (ended_stable result) fun c h => h
    | .ok none => triple_pure clear_stable fun c h => h

/-! The reconcile -/

def ReconcilePost (answer : Except Str Result) (c : Cluster) : Prop :=
  Sound c ∧ ∀ result, answer = .ok result → result.asksRequeue = false → marker c = []

theorem Ended.reconcilePost (h : Ended result c) : ReconcilePost (.ok result) c :=
  ⟨h.sound, fun _ heq => by cases heq; exact h.clear⟩

theorem Clear.reconcilePost (h : Clear c) (answer : Except Str Result) : ReconcilePost answer c :=
  ⟨h.1, fun _ _ _ => h.2⟩

/-- The first read: an object with the marker set is found as it is, with a render to do. -/
def GetPost (cfg : Config) : Except GetError PackageRevision → Cluster → Prop
  | .error .notFound => Clear
  | .error (.other _) => Sound
  | .ok pr => Holding cfg pr

theorem get_runs : Runs cfg Sound (call .get) (GetPost cfg) := by
  refine triple_perform sound_stable ?_ (fun _ _ => trivial) ?_
  · intro r
    match r with
    | .error .notFound => exact clear_stable
    | .error (.other _) => exact sound_stable
    | .ok pr => exact holding_stable pr
  · rintro c r c' h ⟨o, hcall, hexec⟩
    have heq : (c.read o o.lag, c) = (r, c') := Option.some.inj hexec
    cases heq
    by_cases hm : marker c = []
    · match hread : c.read o o.lag with
      | .error .notFound => exact ⟨h, hm⟩
      | .error (.other _) => exact h
      | .ok pr => exact Clear.holding ⟨h, hm⟩ (h pr (Cluster.read_mem hread))
    · obtain ⟨hlag, hasks⟩ := hcall hm
      rw [hlag]
      match hread : c.read o 0 with
      | .error .notFound =>
        cases ho : o.err <;> simp [Cluster.read, ho] at hread
      | .error (.other _) => exact h
      | .ok pr =>
        rw [Cluster.read_zero hread]
        exact ⟨h, fun _ => hasks, h.live⟩

theorem reconcile_runs : Runs cfg Sound (reconcile cfg) ReconcilePost := by
  refine get_runs.bind fun
    | .error .notFound => triple_pure clear_stable fun c h => h.reconcilePost _
    | .error (.other _) => triple_pure sound_stable fun c h => ⟨h, fun _ heq => by cases heq⟩
    | .ok pr => ?_
  refine ensureMetadata_runs.bind fun
    | .error _ => triple_pure sound_stable fun c h => ⟨h, fun _ heq => by cases heq⟩
    | .ok pr => ?_
  dsimp only
  split
  · next hnone =>
    refine Triple.pre (triple_pure clear_stable fun c h => h.reconcilePost _) fun c h =>
      h.clear fun hasks => ?_
    simpa [renderTrigger, hnone] using hasks.2.1
  · refine reconcileContent_runs.bind fun
      | .some result => triple_pure (ended_stable result) fun c h => h.reconcilePost
      | none => ?_
    have hget : Uses KeepsClear (fun _ _ => True) (fun _ => True) (call .get) :=
      uses_read keepsClear_of_isRead rfl fun _ _ => trivial
    refine (keep_clear hget).bind_of fun
      | .error _, _ => triple_pure clear_stable fun c h => h.reconcilePost _
      | .ok _, _ => ?_
    exact (keep_clear (reconcileLifecycle_uses keepsClear_of_isRead
      (fun _ _ _ _ => notRendered_none) trivial)).post fun a c h => h.2.reconcilePost a

end Parts

/-! Whole runs -/

theorem sound_created {pr : PackageRevision} {package : Option Package}
    (h : Cluster.Admitted pr package) : Sound { live := pr, package := package } := by
  intro v hv hm
  obtain rfl : v = pr := List.mem_singleton.mp hv
  refine absurd ?_ hm
  have hstat := h.2
  split at hstat
  · rw [hstat.2]
  · obtain ⟨p, publishedBy, publishedAt, conditions, -, -, hstat | hstat⟩ := hstat
    · rw [hstat]
    · rw [hstat, seeded]
      split <;> rfl

/-- **A reconcile that ends quietly leaves no marker.** In every run from the creation of an
    object whose steps meet the condition, whenever a reconcile has ended without an error
    and without asking for another one, `status.renderingPrrResourceVersion` is empty. -/
theorem quiet_end_clears_marker {cfg : Config} {pr : PackageRevision} {package : Option Package}
    {es : List Event} {w : World} (hadmitted : Cluster.Admitted pr package)
    (hok : Along (step cfg) (ok cfg) (World.created pr package) es)
    (hrun : run (step cfg) (World.created pr package) es = some w) (hend : EndsQuietly w) :
    w.state.live.status.renderingPrrResourceVersion = [] := by
  have hmove : ∀ {c c' : Cluster} {m : Move}, c.move m = some c' →
      (rules cfg).env c c' := fun h => ⟨_, trivial, h⟩
  have hinv := System.run_inv (I := Sound) (Q := ReconcilePost)
    (fun c m c' _ hm h => sound_stable c c' (hmove hm) h)
    (fun a c m c' _ hm h => by
      refine ⟨sound_stable c c' (hmove hm) h.1, fun result ha hq => ?_⟩
      rw [marker_move (hmove hm)]
      exact h.2 result ha hq)
    (fun a c h => h.1) reconcile_runs (sound_created hadmitted) hok hrun
  clear hok hrun
  obtain ⟨c, running⟩ := w
  match running with
  | none | some (.call _ _) | some (.ret (.error _)) => exact hend.elim
  | some (.ret (.ok result)) => exact hinv.2 result rfl hend

/-- A render, a push and its render, which end quietly. -/
theorem quiet_end_clears_marker_after_push :
    ∃ w, run (step plainConfig) (World.created newDraft none)
        (createRun ++ renderRun ++ pushRun someFiles "1" ++ renderRun) = some w ∧
      EndsQuietly w ∧ w.state.live.status.renderingPrrResourceVersion = [] := by
  refine exists_reached (by decide +kernel) fun w hw hend => ?_
  have hadmitted : Admitted newDraft none := ⟨by decide +kernel, rfl, rfl⟩
  exact quiet_end_clears_marker hadmitted (by decide +kernel) hw hend

/-- The reconcile after a push, up to the read after its render, which fails. -/
def failedReadRun : List Event :=
  .start :: calls someFiles 5 ++ [.go { err := some "connection refused" }]

/-- **The marker can be left behind.** The read after the render of a push fails. The
    reconcile ends without an error and without asking for another one, the marker is set,
    and the webhook and the controller refuse the proposal of the package. -/
theorem marker_left_behind : ∃ w, run (step plainConfig) (World.created newDraft none)
        (createRun ++ renderRun ++ pushRun someFiles "1" ++ failedReadRun) = some w ∧
      EndsQuietly w ∧ w.state.live.status.renderingPrrResourceVersion ≠ [] ∧
      validateUpdate w.state.live (w.state.live.withLifecycle .proposed) ≠ none ∧
      validateRenderStateBeforePublish w.state.live ≠ none := by
  decide +kernel

end Porch.PrController.RenderMarker
