import Porch.PrController.Frame
import Porch.PrController.RenderGuard

/- When a reconcile writes the content of a package: for the source, the metadata, a
   subpackage operation and a render. Each part has its own guard on the lifecycle, and the
   subpackage operation has none.

   In every run in which the lifecycle asked for does not change during a reconcile, and
   what a reconcile reads has its source applied, has no operation left to do unless it is a
   draft, and has nothing to write if it is to be a draft again and is not yet stored as
   one, the content of a package is only written while it is to be and is stored as a draft
   (`content_written_to_drafts`). -/
namespace Porch.PrController.ContentWrites

open Go Lts.Prog Cluster Lts

/-- The calls that write the content of the package. -/
def writesContent : Call → Bool
  | .createNewDraft | .closeDraft _ => true
  | _ => false

/-- The package is stored as a draft, if it is stored. -/
def AllDraft (c : Cluster) : Prop := ∀ p ∈ c.package, p.lifecycle = .draft

instance (c : Cluster) : Decidable (AllDraft c) :=
  inferInstanceAs (Decidable (∀ p ∈ c.package, p.lifecycle = .draft))

/-- The metadata of the object are those of the Kptfile. -/
def inSync (cfg : Config) (pr : PackageRevision) (resources : Resources) : Bool :=
  match kptfileFromResources cfg resources with
  | .error _ => true
  | .ok kf => !(applyPackageMetadataToKptfile kf pr).2

/-- No part of a reconcile has content to write. -/
def NothingToWrite (cfg : Config) (c : Cluster) (pr : PackageRevision) : Prop :=
  (RenderTrigger.annotation (renderTrigger pr) = false ∧ (renderTrigger pr).source = false) ∧
    shouldSkipSubpackageOperation cfg.subpackageOperationHash pr = true ∧
    ∀ p ∈ c.package, inSync cfg pr p.resources = true

instance (cfg : Config) (c : Cluster) (pr : PackageRevision) : Decidable (NothingToWrite cfg c pr) :=
  inferInstanceAs (Decidable (_ ∧ _))

/-- What is asked of an object that a reconcile reads. -/
def Guard (cfg : Config) (c : Cluster) (pr : PackageRevision) : Prop :=
  pr.spec.lifecycle = c.live.spec.lifecycle ∧
    (c.sourceClosed = true → pr.status.creationSource ≠ []) ∧
    if pr.spec.lifecycle = some .draft then AllDraft c ∨ NothingToWrite cfg c pr
    else shouldSkipSubpackageOperation cfg.subpackageOperationHash pr = true

instance (cfg : Config) (c : Cluster) (pr : PackageRevision) : Decidable (Guard cfg c pr) :=
  inferInstanceAs (Decidable (_ ∧ _))

def okCall (cfg : Config) (c : Cluster) (e : Call) (o : Outcome) : Prop :=
  match e with
  | .get => ∀ v ∈ (c.read o o.lag).toOption, Guard cfg c v
  | .patchFinalizer _ | .patchRepositoryLabel _ | .patchLatestRevisionLabel _ => Guard cfg c c.live
  | _ => True

instance (cfg : Config) (c : Cluster) (e : Call) (o : Outcome) : Decidable (okCall cfg c e o) := by
  unfold okCall
  split <;> infer_instance

/-- The lifecycle asked for does not change during a reconcile. -/
def okBusy (c : Cluster) : Move → Prop
  | .update new => new.spec.lifecycle = c.live.spec.lifecycle
  | _ => True

instance (c : Cluster) (m : Move) : Decidable (okBusy c m) :=
  match m with
  | .update _ => inferInstanceAs (Decidable (_ = _))
  | .pushOpen _ | .pushClose _ _ | .pushAnnotate _ _ => isTrue trivial

def ok (cfg : Config) : World → Event → Prop :=
  System.ok (fun _ _ => True) okBusy (okCall cfg)

instance (cfg : Config) (w : World) (ev : Event) : Decidable (ok cfg w ev) :=
  inferInstanceAs (Decidable (System.ok _ _ _ _ _))

/-! The invariant -/

/-- The versions have the source of the object, and pushes are drafts. -/
structure Sound (source : Option Source) (c : Cluster) : Prop where
  versions : c.Versions fun v => v.spec.source = source
  pushes : c.PushesDraft

variable {source : Option Source} {cfg : Config} {pr : PackageRevision} {c c' : Cluster} {o : Outcome}

theorem Sound.live (h : Sound source c) : c.live.spec.source = source :=
  h.versions _ List.mem_cons_self

variable {e : Call} {m : Move} {α : Type} {s : Source} {r : Answer e} {A : α → Prop}
  {p : Reconciler α}

theorem sound_exec (h : Sound source c) (hexec : c.exec o e = some (r, c')) : Sound source c' :=
  ⟨h.versions.exec_source hexec, h.pushes.exec hexec⟩

theorem sound_move (h : Sound source c) (hm : c.move m = some c') : Sound source c' :=
  ⟨h.versions.move_source hm, h.pushes.move hm⟩

/-- A move leaves the package alone, or closes a draft. -/
theorem package_move (h : Sound source c) (hm : c.move m = some c') :
    c'.package = c.package ∨ AllDraft c' := by
  cases moved hm with
  | pushClose hpush =>
    right
    rintro p ⟨⟩
    exact h.pushes _ (List.mem_of_getElem? hpush)
  | _ => exact .inl rfl

theorem lifecycle_move (hok : okBusy c m) (hm : c.move m = some c') :
    c'.live.spec.lifecycle = c.live.spec.lifecycle := by
  cases moved hm with
  | update => exact hok
  | _ => rfl

/-! The parts of a reconcile -/

abbrev rules (cfg : Config) : Rules Call Answer Cluster := Cluster.rules okBusy (okCall cfg)

/-- Content is written before the source has been applied, or to a draft. -/
def Safe (c : Cluster) (e : Call) : Prop :=
  writesContent e = true → c.sourceClosed = true ∨ c.live.spec.source = none →
    c.live.spec.lifecycle = some .draft ∧ AllDraft c

/-- Started with `P` and among the others, the program is safe and ends with `Q`. -/
abbrev Runs (cfg : Config) {α : Type} (P : Cluster → Prop) (p : Reconciler α)
    (Q : α → Cluster → Prop) : Prop :=
  Triple (rules cfg) Safe P p Q

theorem sound_stable : Stable (rules cfg) (Sound source) := by
  rintro c c' ⟨m, -, hm⟩ h
  exact sound_move h hm

theorem keep_sound (hp : Uses (fun e => writesContent e = false) (fun _ _ => True) A p) :
    Runs cfg (Sound source) p fun a c => A a ∧ Sound source c := by
  refine hp.triple sound_stable ?_ ?_
  · intro c e he _ hwrites
    rw [he] at hwrites
    cases hwrites
  · rintro c e r c' - h ⟨o, -, hexec⟩
    exact ⟨trivial, sound_exec h hexec⟩

theorem no_content_of_isRead (e : Call) (he : e.isRead = true) : writesContent e = false := by
  cases e with
  | createNewDraft | closeDraft => cases he
  | _ => rfl

/-- The object is to be a draft, and the package is stored as one. -/
structure Drafting (source : Option Source) (c : Cluster) : Prop where
  sound : Sound source c
  lifecycle : c.live.spec.lifecycle = some .draft
  draft : AllDraft c

theorem drafting_stable : Stable (rules cfg) (Drafting source) := by
  rintro c c' ⟨m, hok, hm⟩ h
  refine ⟨sound_move h.sound hm, (lifecycle_move hok hm).trans h.lifecycle, ?_⟩
  obtain heq | hdraft := package_move h.sound hm
  · rw [AllDraft, heq]
    exact h.draft
  · exact hdraft

/-- The calls that keep a draft one, and the answers that they depend on. -/
def Calls : Call → Prop
  | .closeDraft draft => draft.lifecycle = .draft
  | .createNewDraft | .updateLifecycle _ => False
  | _ => True

def Answers : (e : Call) → Answer e → Prop
  | .createDraftFromExisting, r => ∀ draft, r = .ok draft → draft.lifecycle = .draft
  | _, _ => True

theorem calls_of_isRead (e : Call) (he : e.isRead = true) : Calls e := by
  cases e with
  | createNewDraft | closeDraft | updateLifecycle => cases he
  | _ => trivial

theorem drafting_exec (h : Drafting source c) (he : Calls e)
    (hexec : c.exec o e = some (r, c')) : Answers e r ∧ Drafting source c' := by
  constructor
  · cases e with
    | createDraftFromExisting =>
      rintro draft rfl
      obtain ⟨err, hr, -⟩ | ⟨p, hp, -, heq⟩ := onPackage_cases hexec
      · cases hr
      · cases heq
        exact h.draft p hp
    | _ => trivial
  · have hsound := sound_exec h.sound hexec
    obtain heq | ⟨-, -, rfl⟩ := exec_cases hexec
    · rw [heq]
      exact ⟨⟨h.sound.versions, h.sound.pushes⟩, h.lifecycle, h.draft⟩
    · refine ⟨hsound, (effect_spec e).1.trans h.lifecycle, ?_⟩
      cases e with
      | closeDraft draft =>
        rintro p ⟨⟩
        exact he
      | createNewDraft | updateLifecycle => exact absurd he id
      | _ =>
        rw [AllDraft, effect_package rfl]
        exact h.draft

theorem keep_drafting (hp : Uses Calls Answers A p) :
    Runs cfg (Drafting source) p fun a c => A a ∧ Drafting source c := by
  refine hp.triple drafting_stable ?_ ?_
  · exact fun c e _ h _ _ => ⟨h.lifecycle, h.draft⟩
  · rintro c e r c' he h ⟨o, -, hexec⟩
    exact drafting_exec h he hexec

/-- The state while this object is in hand. -/
structure Hand (cfg : Config) (source : Option Source) (pr : PackageRevision) (c : Cluster) :
    Prop where
  sound : Sound source c
  source : pr.spec.source = source
  guard : Guard cfg c pr

theorem guard_congr {v w : PackageRevision} (hspec : v.spec = w.spec)
    (hreq : v.renderRequest = w.renderRequest) (hstat : v.status = w.status)
    (h : Guard cfg c w) : Guard cfg c v := by
  cases v
  cases w
  cases hspec
  cases hreq
  cases hstat
  exact h

/-- What there is to write depends on the package alone. -/
theorem nothingToWrite_package (hpkg : c'.package = c.package) (h : NothingToWrite cfg c pr) :
    NothingToWrite cfg c' pr := by
  unfold NothingToWrite at h ⊢
  rw [hpkg]
  exact h

theorem guard_of_same (hlc : c'.live.spec.lifecycle = c.live.spec.lifecycle)
    (hclosed : c'.sourceClosed = c.sourceClosed) (hpkg : c'.package = c.package ∨ AllDraft c')
    (h : Guard cfg c pr) : Guard cfg c' pr := by
  obtain ⟨hl, hsrc, hrest⟩ := h
  refine ⟨hl.trans hlc.symm, fun hc => hsrc (hclosed ▸ hc), ?_⟩
  split
  · next hdraft =>
    rw [if_pos hdraft] at hrest
    obtain heq | hall := hpkg
    · exact hrest.imp (fun h p hp => h p (heq ▸ hp)) (nothingToWrite_package heq)
    · exact .inl hall
  · next hdraft =>
    rw [if_neg hdraft] at hrest
    exact hrest

theorem hand_stable (pr : PackageRevision) : Stable (rules cfg) (Hand cfg source pr) := by
  rintro c c' ⟨m, hok, hm⟩ h
  exact ⟨sound_move h.sound hm, h.source, guard_of_same (lifecycle_move hok hm)
    (move_sourceClosed hm) (package_move h.sound hm) h.guard⟩

theorem safe_of_not_writesContent (he : writesContent e = false) : Safe c e := by
  intro hwrites
  rw [he] at hwrites
  cases hwrites

theorem get_runs : Runs cfg (Sound source) (call .get) (Answered (Hand cfg source) (Sound source)) := by
  refine get_triple sound_stable hand_stable (fun _ _ => safe_of_not_writesContent rfl) ?_
  intro c o pr h hok hread
  exact ⟨h, h.versions pr (read_mem hread), hok pr (by rw [hread]; rfl)⟩

theorem Hand.read (h : Hand cfg source pr c) (he : e.isRead = true)
    (hexec : c.exec o e = some (r, c')) : Hand cfg source pr c' := by
  rw [exec_isRead he hexec]
  exact ⟨⟨h.sound.versions, h.sound.pushes⟩, h.source, h.guard⟩

theorem ensureMetadata_runs :
    Runs cfg (Hand cfg source pr) (ensureMetadata pr) (Answered (Hand cfg source) (Sound source)) := by
  refine ensureMetadata_rules (G := fun c => Guard cfg c c.live) sound_stable hand_stable
    (fun _ _ h => h.sound) ?_ ?_ (fun _ _ _ _ _ h hexec => h.read rfl hexec) ?_
  · intro c e he
    refine safe_of_not_writesContent ?_
    cases e with
    | createNewDraft | closeDraft => cases he
    | _ => rfl
  · intro c e o he hwrite hok
    cases e with
    | patchFinalizer | patchRepositoryLabel | patchLatestRevisionLabel => exact hok
    | getRepository => cases hwrite
    | _ => cases he
  · intro pr new c h hguard hspec hreq hstat
    have hsrc : new.spec.source = source := by rw [hspec, h.sound.live]
    refine ⟨⟨h.sound.versions.write hsrc rfl rfl, h.sound.pushes⟩, hsrc, ?_⟩
    have hnew : Guard cfg c new := guard_congr hspec hreq hstat hguard
    exact guard_of_same (congrArg Spec.lifecycle hspec) rfl (.inl rfl) hnew

/-! The source -/

/-- The state while the source is applied. -/
structure Sourcing (source : Option Source) (c : Cluster) : Prop where
  sound : Sound source c
  isOpen : c.sourceClosed = false

theorem sourcing_stable : Stable (rules cfg) (Sourcing source) := by
  rintro c c' ⟨m, -, hm⟩ h
  exact ⟨sound_move h.sound hm, (move_sourceClosed hm).trans h.isOpen⟩

theorem Sourcing.safe (h : Sourcing (some s) c) (e : Call) : Safe c e := by
  rintro - (hclosed | hnone)
  · rw [h.isOpen] at hclosed
    cases hclosed
  · rw [h.sound.live] at hnone
    cases hnone

theorem keep_sourcing (hp : Uses (fun e => ∀ draft, e ≠ .closeDraft draft) (fun _ _ => True) A p) :
    Runs cfg (Sourcing (some s)) p fun a c => A a ∧ Sourcing (some s) c := by
  refine hp.triple sourcing_stable (fun c e _ h => h.safe e) ?_
  rintro c e r c' he h ⟨o, -, hexec⟩
  have hsound := sound_exec h.sound hexec
  refine ⟨trivial, hsound, ?_⟩
  obtain heq | ⟨-, -, rfl⟩ := exec_cases hexec
  · rw [heq]
    exact h.isOpen
  · rw [effect_sourceClosed fun draft hd => absurd hd (he draft)]
    exact h.isOpen

theorem reconcileSource_due (hsrc : pr.spec.source = some s)
    (hdue : pr.status.creationSource = []) :
    Runs cfg (Hand cfg (some s) pr) (reconcileSource cfg pr)
      fun r c => r ≠ .ok none ∧ Sound (some s) c := by
  have hfail : ∀ err, Runs cfg (Sourcing (some s)) (setFailedConditionsAndLog pr err)
      fun r c => r ≠ .ok none ∧ Sound (some s) c := fun err =>
    (keep_sourcing (setFailedConditionsAndLog_uses no_close_of_isRead
      (fun _ _ _ => by simp) err)).post fun r c h => ⟨h.1, h.2.sound⟩
  refine Triple.pre (P := Sourcing (some s)) ?_ fun c h => ⟨h.sound, by
    by_contra hclosed
    exact h.guard.2.1 (by simpa using hclosed) hdue⟩
  refine reconcileSource_triple (D := fun _ => Sourcing (some s)) hsrc hdue
    ((keep_sourcing (verifyRepoMigrated_uses no_close_of_isRead)).post fun _ _ h => h.2)
    (keep_sourcing (applySource_uses no_close_of_isRead s)) hfail ?_ fun draft resources _ => ?_
  · refine (keep_sourcing (uses_perform (by simp) fun _ _ => trivial)).post
      (Q := fun r c => True ∧ Sourcing (some s) c) fun r c h => ?_
    cases r with
    | error | ok => exact h.2
  · refine finalizeDraft_triple ?_ hfail ?_ (keep_sound (recordCompletion_uses no_content_of_isRead
      (fun _ _ => rfl) fun _ _ _ _ _ _ _ _ _ => rfl))
    · exact fun _ _ => (keep_sourcing (uses_read no_close_of_isRead rfl fun _ _ => trivial)).post
        fun _ _ h => h.2
    · refine triple_perform sourcing_stable ?_ (fun c h => h.safe _) ?_
      · exact answered_stable (fun _ => sound_stable) sourcing_stable
      · rintro c r c' h ⟨o, -, hexec⟩
        have hsound := sound_exec h.sound hexec
        obtain ⟨err, -, rfl, rfl⟩ | ⟨-, heq⟩ := attempt_cases hexec
        · exact h
        · cases heq
          exact hsound

/-! The metadata, the subpackage operation and the render -/

/-- The state when the object is to be a draft: the package is stored as one, or the metadata
    are those of its Kptfile. -/
structure Quiet (cfg : Config) (source : Option Source) (pr : PackageRevision) (c : Cluster) :
    Prop where
  sound : Sound source c
  lifecycle : c.live.spec.lifecycle = some .draft
  synced : AllDraft c ∨ ∀ p ∈ c.package, inSync cfg pr p.resources = true

theorem quiet_stable : Stable (rules cfg) (Quiet cfg source pr) := by
  rintro c c' ⟨m, hok, hm⟩ h
  refine ⟨sound_move h.sound hm, (lifecycle_move hok hm).trans h.lifecycle, ?_⟩
  obtain heq | hdraft := package_move h.sound hm
  · rw [AllDraft, heq]
    exact h.synced
  · exact .inl hdraft

theorem Quiet.read (h : Quiet cfg source pr c) (he : e.isRead = true)
    (hexec : c.exec o e = some (r, c')) : Quiet cfg source pr c' := by
  rw [exec_isRead he hexec]
  exact ⟨⟨h.sound.versions, h.sound.pushes⟩, h.lifecycle, h.synced⟩

theorem Quiet.drafting (h : Quiet cfg source pr c) (hdraft : AllDraft c) : Drafting source c :=
  ⟨h.sound, h.lifecycle, hdraft⟩

/-- What has been read needs no change, or the package is stored as a draft. -/
theorem quiet_or_stable (synced : Prop) :
    Stable (rules cfg) fun c => Quiet cfg source pr c ∧ (AllDraft c ∨ synced) := by
  rintro c c' hmove ⟨h, hor⟩
  refine ⟨quiet_stable c c' hmove h, hor.imp_left fun hdraft => ?_⟩
  exact (drafting_stable c c' hmove (h.drafting hdraft)).draft

theorem readAndParseKptfile_runs :
    Runs cfg (Quiet cfg source pr) (readAndParseKptfile cfg) fun r c => Quiet cfg source pr c ∧
      (AllDraft c ∨ ∀ files kf, r = .ok (files, kf) →
        (applyPackageMetadataToKptfile kf pr).2 = false) := by
  refine Triple.bind (M := fun _ => Quiet cfg source pr) ?_ fun content => ?_
  · refine triple_perform quiet_stable (fun _ => quiet_stable)
      (fun _ _ => safe_of_not_writesContent rfl) ?_
    rintro c r c' h ⟨o, -, hexec⟩
    exact h.read rfl hexec
  cases content with
  | error err => exact triple_pure quiet_stable fun c h => ⟨h, .inr (by simp)⟩
  | ok _ =>
    refine Triple.bind (M := fun r c => Quiet cfg source pr c ∧
      (AllDraft c ∨ ∀ files, r = .ok files → inSync cfg pr files = true)) ?_ fun files => ?_
    · refine triple_perform quiet_stable (fun r => quiet_or_stable _)
        (fun _ _ => safe_of_not_writesContent rfl) ?_
      rintro c r c' h ⟨o, -, hexec⟩
      refine ⟨h.read rfl hexec, ?_⟩
      obtain ⟨err, rfl, rfl⟩ | ⟨p, hp, -, heq⟩ := onPackage_cases hexec
      · exact .inr (by simp)
      · cases heq
        refine h.synced.imp id fun hsync files hfiles => ?_
        cases hfiles
        exact hsync p hp
    cases files with
    | error err =>
      exact triple_pure (quiet_or_stable _) fun c h => ⟨h.1, .inr (by simp)⟩
    | ok files =>
      refine triple_pure (quiet_or_stable _) fun c h => ⟨h.1, h.2.imp id fun hsync => ?_⟩
      intro files' kf hparsed
      have hkf : kptfileFromResources cfg files = .ok kf := by
        cases hkf : kptfileFromResources cfg files with
        | error err => simp [hkf, Except.map] at hparsed
        | ok kf' =>
          simp only [hkf, Except.map, Except.ok.injEq, Prod.mk.injEq] at hparsed
          rw [hparsed.2]
      have hin := hsync files rfl
      simpa only [inSync, hkf, Bool.not_eq_true'] using hin

/-- The metadata are written to a draft, or not at all. -/
theorem reconcilePackageMetadata_runs :
    Runs cfg (Quiet cfg source pr) (reconcilePackageMetadata cfg pr) fun r c =>
      Quiet cfg source pr c ∧ (AllDraft c ∨ r.2 = pr) := by
  have hsame : Runs cfg (Quiet cfg source pr)
      (pure ((none : Option Result), pr)) fun r c =>
      Quiet cfg source pr c ∧ (AllDraft c ∨ r.2 = pr) :=
    triple_pure quiet_stable fun c h => ⟨h, .inr rfl⟩
  unfold reconcilePackageMetadata
  split
  · exact hsame
  split
  · exact hsame
  split
  · exact hsame
  split
  · exact hsame
  refine readAndParseKptfile_runs.bind fun | .error _ => hsame.pre fun c h => h.1 | .ok parsed => ?_
  obtain ⟨files, kf⟩ := parsed
  by_cases hchanged : (applyPackageMetadataToKptfile kf pr).2 = false
  · have hskip : applyAndWriteMetadata cfg pr files kf = pure (.ok false) := by
      simp [applyAndWriteMetadata, hchanged]
    dsimp only
    rw [hskip]
    exact hsame.pre fun c h => h.1
  · have hdraft : ∀ {a : Option Result × PackageRevision} {c : Cluster}, Drafting source c →
        Quiet cfg source pr c ∧ (AllDraft c ∨ a.2 = pr) := fun h =>
      ⟨⟨h.sound, h.lifecycle, .inl h.draft⟩, .inl h.draft⟩
    refine Triple.pre (P := Drafting source) ?_ fun c h =>
      h.1.drafting (h.2.resolve_right fun hnone => hchanged (hnone files kf rfl))
    refine (keep_drafting (applyAndWriteMetadata_uses calls_of_isRead
      fun draft _ hopened => hopened draft rfl)).bind_of fun written _ => ?_
    match written with
    | .error _ | .ok false => exact triple_pure drafting_stable fun c h => hdraft h
    | .ok true =>
      exact (keep_drafting (triggerRenderIfNeeded_uses calls_of_isRead
        fun _ => trivial)).post fun r c h => hdraft h.2

theorem drafting_rest (pr : PackageRevision) :
    Runs cfg (Drafting source) (reconcileOperationAndRender cfg pr) fun _ => Sound source := by
  exact (keep_drafting (reconcileOperationAndRender_uses calls_of_isRead (fun _ _ => trivial)
    (fun _ => trivial) (fun _ _ _ => trivial) (fun draft _ hopened => hopened draft rfl)
    fun _ _ _ _ _ _ _ => trivial)).post fun _ _ h => h.2.sound

theorem idle_rest
    (hidle : RenderTrigger.annotation (renderTrigger pr) = false ∧ (renderTrigger pr).source = false)
    (hskip : shouldSkipSubpackageOperation cfg.subpackageOperationHash pr = true) :
    Runs cfg (Sound source) (reconcileOperationAndRender cfg pr) fun _ => Sound source := by
  unfold reconcileOperationAndRender
  rw [reconcileSubpackageOperation_skip hskip]
  refine (keep_sound (reconcileRender_idle_uses hidle fun _ _ => rfl)).bind_of fun rendered hr => ?_
  subst hr
  exact triple_pure sound_stable fun c h => h

theorem reconcileContent_runs :
    Runs cfg (Hand cfg source pr) (reconcileContent cfg pr) fun _ => Sound source := by
  intro c h
  by_cases hdue : pr.spec.source ≠ none ∧ pr.status.creationSource = []
  · obtain ⟨s, hs⟩ := Option.ne_none_iff_exists'.mp hdue.1
    obtain rfl : source = some s := h.source.symm.trans hs
    refine ((reconcileSource_due hs hdue.2).bind_of fun sourced hsourced => ?_) c h
    match sourced with
    | .error _ | .ok (some _) => exact triple_pure sound_stable fun c h => h
    | .ok none => exact absurd rfl hsourced
  · rw [not_and_or, not_not] at hdue
    obtain ⟨hlc, -, hguard⟩ := h.guard
    by_cases hdraft : pr.spec.lifecycle = some .draft
    · rw [if_pos hdraft] at hguard
      have hlive : c.live.spec.lifecycle = some .draft := hlc.symm.trans hdraft
      obtain hall | hnothing := hguard
      · exact ((keep_drafting (reconcileContent_uses calls_of_isRead (fun _ _ => trivial)
          (fun _ => trivial) (fun _ _ _ => trivial) (fun draft _ hopened => hopened draft rfl) hdue
          (fun _ => trivial) fun _ _ _ _ _ _ _ _ _ => trivial)).post fun _ _ h => h.2.sound)
          c ⟨h.sound, hlive, hall⟩
      · rw [reconcileContent_skip hdue]
        refine (reconcilePackageMetadata_runs.bind fun synced => ?_) c
          ⟨h.sound, hlive, .inr hnothing.2.2⟩
        match synced with
        | (some result, _) => exact Triple.pre (triple_pure sound_stable fun c h => h) fun c h => h.1.sound
        | (none, pr') =>
          rintro c ⟨hquiet, hall | rfl⟩
          · exact drafting_rest pr' c (hquiet.drafting hall)
          · exact idle_rest hnothing.1 hnothing.2.1 c hquiet.sound
    · rw [if_neg hdraft] at hguard
      have hskip : reconcilePackageMetadata cfg pr = pure (none, pr) := if_pos hdraft
      rw [reconcileContent_skip hdue, hskip]
      refine idle_rest ?_ hguard c h.sound
      simp [renderTrigger, hdraft]

/-! The reconcile -/

theorem reconcile_runs : Runs cfg (Sound source) (reconcile cfg) fun _ => Sound source := by
  refine reconcile_triple sound_stable (fun _ _ h => h.sound) (fun _ _ h => h) (fun _ h => h)
    (fun _ h => h) get_runs (fun _ => ensureMetadata_runs) (fun _ => reconcileContent_runs) get_runs
    fun pr => ?_
  exact ((keep_sound (reconcileLifecycle_uses no_content_of_isRead (fun _ _ _ _ => rfl) rfl)).post
    fun _ _ h => h.2).pre fun c h => h.sound

/-! Whole runs -/

/-- The controller is about to write the content of the package. -/
def aboutToWrite (w : World) : Bool := w.next.any writesContent

/-- The source has been applied, or there is none. -/
def SourceApplied (c : Cluster) : Prop := c.sourceClosed = true ∨ c.live.spec.source = none

instance (c : Cluster) : Decidable (SourceApplied c) := inferInstanceAs (Decidable (_ ∨ _))

/-- **Content is written to drafts only.** In every run from the creation of an object whose
    steps meet the condition: when the source has been applied and the controller is about to
    write the content of the package, the object is to be a draft and the package is stored
    as one. -/
theorem content_written_to_drafts {cfg : Config} {pr : PackageRevision} {package : Option Package}
    {es : List Event} {w : World}
    (hok : Along (step cfg) (ok cfg) (World.created pr package) es)
    (hrun : run (step cfg) (World.created pr package) es = some w)
    (happlied : SourceApplied w.state) (hwrites : aboutToWrite w = true) :
    w.state.live.spec.lifecycle = some .draft ∧ AllDraft w.state := by
  have hcreated : Sound pr.spec.source { live := pr, package := package } := by
    refine ⟨fun v hv => ?_, by simp [PushesDraft]⟩
    rw [List.mem_singleton.mp hv]
  have hmove : ∀ c m c', True → move c m = some c' → Sound pr.spec.source c →
      Sound pr.spec.source c' := fun c m c' _ hm h => sound_move h hm
  have hinv := System.run_inv hmove (fun _ => hmove) (fun _ _ h => h) reconcile_runs hcreated hok
    hrun
  obtain ⟨e, hnext, he⟩ := Option.any_eq_true .. |>.mp hwrites
  have hsafe : Safe w.state e := hinv.next_safe hnext
  exact hsafe he happlied

/-- The package is created, and about to be written by its first render. -/
theorem content_written_to_drafts_rendered :
    ∃ w, run (step plainConfig) (World.created newDraft none)
        (createRun ++ .start :: calls someFiles 8) = some w ∧
      SourceApplied w.state ∧ aboutToWrite w = true ∧
      w.state.live.spec.lifecycle = some .draft ∧ AllDraft w.state := by
  obtain ⟨w, hw, happlied, hwrites⟩ : ∃ w, run (step plainConfig) (World.created newDraft none)
      (createRun ++ .start :: calls someFiles 8) = some w ∧ SourceApplied w.state ∧ aboutToWrite w = true := by
    decide +kernel
  exact ⟨w, hw, happlied, hwrites, content_written_to_drafts (by decide +kernel) hw happlied hwrites⟩

/-- The draft with a subpackage operation. -/
def withOperation : PackageRevision :=
  { newDraft with
    spec := { newDraft.spec with
      subpackageOperation := some ⟨"sub", .cloneFrom "upstream"⟩ } }

/-- An operation is asked for and fails, the draft is proposed, and the next reconcile gets to
    the closing of its draft. -/
def pendingOperationRun : List Event :=
  createRun ++ renderRun ++ [.other (.update withOperation), .start] ++ calls someFiles 3 ++
    [.go { err := some "upstream not found" }, .go {},
      .other (.update (withOperation.withLifecycle .proposed)), .start] ++ calls someFiles 8

/-- **An operation can be applied to a proposed package.** The operation has failed while the
    object was a draft. After the object has been proposed, the controller is about to write
    the content of the package for it. -/
theorem operation_applied_to_proposed :
    ∃ w, run (step plainConfig) (World.created newDraft none) pendingOperationRun = some w ∧
      SourceApplied w.state ∧ aboutToWrite w = true ∧
      w.state.live.spec.lifecycle = some .proposed := by
  decide +kernel

end Porch.PrController.ContentWrites
