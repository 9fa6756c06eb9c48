import Porch.PrController.Frame
import Porch.PrController.RenderGuard

/- `status.revision`. Every status that the controller applies has the revision of the object
   in hand, or that of the content if the content is published.

   In every run in which the reads of the object are not older than its last status, a push
   is not closed on a published package, and the content after a draft has been closed is
   not published with a revision that the status does not have yet, no status is applied
   with a smaller revision (`revision_never_falls`). -/
namespace Porch.PrController.StatusRevision

open Go Lts.Prog Cluster Lts

/-- The revision, if the lifecycle is one of a published package. -/
def revisionIfPublished (lifecycle : Lifecycle) (revision : Int) : Option Int :=
  if lifecycleIsPublished lifecycle then some revision else none

/-- The revision of the package, if it is published. -/
def publishedRevision (c : Cluster) : Option Int :=
  c.package.bind fun p => revisionIfPublished p.lifecycle p.revision

def okMove (c : Cluster) : Move → Prop
  | .pushClose _ _ => publishedRevision c = none
  | _ => True

instance (c : Cluster) (m : Move) : Decidable (okMove c m) :=
  match m with
  | .pushClose _ _ => inferInstanceAs (Decidable (_ = _))
  | .update _ | .pushOpen _ | .pushAnnotate _ _ => isTrue trivial

def okCall (c : Cluster) (e : Call) (o : Outcome) : Prop :=
  match e with
  | .get => ∀ v ∈ (c.read o o.lag).toOption, v.status.toCoreStatus = c.live.status.toCoreStatus
  | .getContent .status =>
    publishedRevision c = none ∨ publishedRevision c = some c.live.status.revision
  | _ => True

instance (c : Cluster) (e : Call) (o : Outcome) : Decidable (okCall c e o) := by
  unfold okCall
  split <;> infer_instance

def ok : World → Event → Prop := System.ok okMove okMove okCall

instance (w : World) (ev : Event) : Decidable (ok w ev) :=
  inferInstanceAs (Decidable (System.ok _ _ _ _ _))

/-! The invariant -/

def Late (pr : PackageRevision) : Prop := pr.spec.lifecycle.any lifecycleIsPublished = true

/-- A version with a revision has its source applied, and is to be published. -/
def VersionOk (source : Option Source) (pr : PackageRevision) : Prop :=
  pr.spec.source = source ∧
    (1 ≤ pr.status.revision → (pr.status.creationSource ≠ [] ∨ source = none) ∧ Late pr)

/-- The revision of the status is that of the package, which is published. -/
structure Sound (source : Option Source) (c : Cluster) : Prop where
  versions : c.Versions (VersionOk source)
  recorded : 1 ≤ c.live.status.revision → publishedRevision c = some c.live.status.revision
  pushes : ∀ push ∈ c.pushes, push.draft.lifecycle = .draft
  follows : ∀ v ∈ c.past, Late v → Late c.live
  late : publishedRevision c ≠ none → Late c.live

variable {source : Option Source} {c c' : Cluster} {o : Outcome}

theorem Sound.live (h : Sound source c) : VersionOk source c.live := h.versions _ List.mem_cons_self

/-- The webhook does not take a publication back. -/
theorem late_of_admitted {old new : PackageRevision} (h : UpdateAdmitted old new) (hlate : Late old) :
    Late new := by
  unfold Late at hlate ⊢
  obtain heq | ⟨allowed, hallowed, l, hl, hnew⟩ := h.transition
  · rw [heq]
    exact hlate
  · rw [hnew]
    match hold : old.spec.lifecycle with
    | none | some .draft | some .proposed => simp [hold, lifecycleIsPublished] at hlate
    | some .published | some .deletionProposed =>
      rw [hold] at hallowed
      cases hallowed
      obtain rfl := List.mem_singleton.mp hl
      rfl

/-- Versions only become later ones. -/
theorem Sound.goes (h : Sound source c) (hlate : Late c.live → Late c'.live)
    (hpast : c'.past = c.past ∨ c'.past = c.live :: c.past) (hvers : c'.Versions (VersionOk source))
    (hrec : 1 ≤ c'.live.status.revision → publishedRevision c' = some c'.live.status.revision)
    (hpushes : c'.PushesDraft) (hpub : publishedRevision c' ≠ none → Late c.live) :
    Sound source c' where
  versions := hvers
  recorded := hrec
  pushes := hpushes
  follows v hv hlv := by
    obtain heq | heq := hpast <;> rw [heq] at hv
    · exact hlate (h.follows v hv hlv)
    · obtain rfl | hv := List.mem_cons.mp hv
      · exact hlate hlv
      · exact hlate (h.follows v hv hlv)
  late hp := hlate (hpub hp)

variable {m : Move} {cfg : Config}

theorem publishedRevision_move (h : Sound source c) (hok : okMove c m)
    (hm : c.move m = some c') : publishedRevision c' = publishedRevision c := by
  cases moved hm with
  | pushClose hpush =>
    have hdraft := h.pushes _ (List.mem_of_getElem? hpush)
    have hnone : publishedRevision c = none := hok
    rw [hnone]
    simp [publishedRevision, revisionIfPublished, hdraft, lifecycleIsPublished]
  | _ => rfl

theorem late_move (hm : c.move m = some c') (h : Late c.live) : Late c'.live := by
  cases moved hm with
  | update hvalid => exact late_of_admitted (validateUpdate_admitted hvalid) h
  | _ => exact h

theorem sound_move (h : Sound source c) (hok : okMove c m)
    (hm : c.move m = some c') : Sound source c' := by
  have hpub := publishedRevision_move h hok hm
  have hvers : c'.Versions (VersionOk source) := by
    cases moved hm with
    | update hvalid =>
      have hadmitted := validateUpdate_admitted hvalid
      refine h.versions.write ⟨hadmitted.source.trans h.live.1, fun hrev => ?_⟩ rfl rfl
      exact ⟨(h.live.2 hrev).1, late_of_admitted hadmitted (h.live.2 hrev).2⟩
    | @annotated _ _ version =>
      exact h.versions.write (v := { c.live with renderRequest := version }) h.live rfl rfl
    | pushOpen | pushClose | dropped => exact h.versions
  refine h.goes (late_move hm) ((move_live hm).imp (·.2) (·.2)) hvers ?_ (PushesDraft.move h.pushes hm) ?_
  · rw [hpub, move_status hm]
    exact h.recorded
  · rw [hpub]
    exact h.late

variable {e : Call} {r : Answer e}

theorem sound_exec (h : Sound source c)
    (hexec : c.exec o e = some (r, c')) (hver : VersionOk source (c.effect o e).live)
    (hrec : 1 ≤ (c.effect o e).live.status.revision →
      publishedRevision (c.effect o e) = some (c.effect o e).live.status.revision)
    (hlate : publishedRevision (c.effect o e) ≠ none → Late c.live) : Sound source c' := by
  obtain heq | ⟨-, -, rfl⟩ := exec_cases hexec
  · rw [heq]
    exact ⟨h.versions, h.recorded, h.pushes, h.follows, h.late⟩
  · have hspec : Late c.live → Late (c.effect o e).live := fun hl => by
      rw [Late, (effect_spec e).1]
      exact hl
    refine h.goes hspec ((effect_live e).imp_left (·.2)) (h.versions.exec (fun _ _ => hver) hexec)
      hrec ?_ hlate
    exact PushesDraft.exec h.pushes hexec

theorem sound_exec_frame (h : Sound source c)
    (hcore : writesCore e = false) (hpkg : writesPackage e = false)
    (hexec : c.exec o e = some (r, c')) : Sound source c' := by
  have hstat := effect_core (c := c) (o := o) hcore
  have hrevision := congrArg CoreStatus.revision hstat
  have hpub : publishedRevision (c.effect o e) = publishedRevision c := by
    rw [publishedRevision, effect_package hpkg, publishedRevision]
  refine sound_exec h hexec ?_ ?_ ?_
  · refine ⟨(effect_spec e).2.1.trans h.live.1, fun hrev => ?_⟩
    rw [hrevision] at hrev
    rw [congrArg CoreStatus.creationSource hstat, Late, (effect_spec e).1]
    exact h.live.2 hrev
  · rw [hrevision, hpub]
    exact h.recorded
  · rw [hpub]
    exact h.late

/-! The parts of a reconcile -/

abbrev rules : Rules Call Answer Cluster := Cluster.rules okMove okCall

/-- A status is not applied with a smaller revision. -/
def Safe (c : Cluster) : Call → Prop
  | .applyStatus status _ _ => 1 ≤ c.live.status.revision → c.live.status.revision ≤ status.revision
  | _ => True

/-- Started with `P` and among the others, the program is safe and ends with `Q`. -/
abbrev Runs {α : Type} (P : Cluster → Prop) (p : Reconciler α) (Q : α → Cluster → Prop) : Prop :=
  Triple rules Safe P p Q

theorem sound_stable : Stable rules (Sound source) := by
  rintro c c' ⟨m, hok, hm⟩ h
  exact sound_move h hok hm

theorem stable_of_status {P : Cluster → Prop} {R : Status → Option Int → Prop}
    (hP : ∀ c, P c ↔ Sound source c ∧ R c.live.status (publishedRevision c)) : Stable rules P := by
  rintro c c' ⟨m, hok, hm⟩ h
  have hc := (hP c).mp h
  refine (hP c').mpr ⟨sound_move hc.1 hok hm, ?_⟩
  rw [move_status hm, publishedRevision_move hc.1 hok hm]
  exact hc.2

section Working

variable (source) (pr : PackageRevision) (fresh : Prop) (published : Option Int)

/-- The state while the source is applied, when the object is `fresh` and has no revision, and
    between the source and the render. -/
structure Working (c : Cluster) : Prop where
  sound : Sound source c
  revision : c.live.status.revision = pr.status.revision
  applied : ¬ fresh → c.live.status.creationSource ≠ [] ∨ source = none
  published : ¬ fresh → publishedRevision c = published

/-- The calls up to the render, which keep the revision, and the answers that they depend
    on. -/
def Calls : Call → Prop
  | .applyStatus status _ _ => status.revision = pr.status.revision ∧
      (¬ fresh → status.creationSource ≠ [] ∨ source = none)
  | .closeDraft draft => revisionIfPublished draft.lifecycle draft.revision = published
  | .createNewDraft => fresh
  | .updateLifecycle _ => False
  | _ => True

def Answers : (e : Call) → Answer e → Prop
  | .createNewDraft, r =>
    ∀ draft, r = .ok draft → revisionIfPublished draft.lifecycle draft.revision = none
  | .createDraftFromExisting, r => ¬ fresh →
    ∀ draft, r = .ok draft → revisionIfPublished draft.lifecycle draft.revision = published
  | .getContent .status, r =>
    ∀ content, r = .ok content → lifecycleIsPublished content.lifecycle = true →
      content.revision = pr.status.revision
  | _, _ => True

variable {source pr fresh published}

theorem calls_of_isRead (e : Call) (he : e.isRead = true) : Calls source pr fresh published e := by
  cases e with
  | applyStatus | closeDraft | createNewDraft | updateLifecycle => cases he
  | _ => trivial

theorem working_stable : Stable rules (Working source pr fresh published) :=
  stable_of_status (R := fun status p => status.revision = pr.status.revision ∧
    (¬ fresh → status.creationSource ≠ [] ∨ source = none) ∧ (¬ fresh → p = published))
    fun _ => ⟨fun h => ⟨h.sound, h.revision, h.applied, h.published⟩,
      fun h => ⟨h.1, h.2.1, h.2.2.1, h.2.2.2⟩⟩

theorem getContent_published {use : Use} {content : Content}
    (h : c.exec o (.getContent use) = some (.ok content, c')) :
    publishedRevision c = revisionIfPublished content.lifecycle content.revision := by
  obtain ⟨err, hr, -⟩ | ⟨p, hp, -, heq⟩ := onPackage_cases h
  · cases hr
  · cases heq
    simp [publishedRevision, hp, content]

theorem content_revision {r : Answer (.getContent .status)}
    (hrevision : c.live.status.revision = pr.status.revision)
    (hok : okCall c (.getContent .status) o) (hexec : c.exec o (.getContent .status) = some (r, c')) :
    ∀ content, r = .ok content → lifecycleIsPublished content.lifecycle = true →
      content.revision = pr.status.revision := by
  rintro content rfl hpub
  have hcont := getContent_published hexec
  rw [revisionIfPublished, if_pos hpub] at hcont
  obtain hnone | hsome := hok
  · rw [hnone] at hcont
    cases hcont
  · rw [hsome] at hcont
    rw [← hrevision, Option.some.inj hcont]

variable {e : Call} {r : Answer e}

theorem working_answers (h : Working source pr fresh published c)
    (hok : okCall c e o) (hexec : c.exec o e = some (r, c')) : Answers pr fresh published e r := by
  cases e with
  | createNewDraft =>
    rintro draft rfl
    obtain ⟨err, -, hr, -⟩ | ⟨-, heq⟩ := attempt_cases hexec
    · cases hr
    · cases heq
      rfl
  | createDraftFromExisting =>
    rintro hlate draft rfl
    obtain ⟨err, hr, -⟩ | ⟨p, hp, -, heq⟩ := onPackage_cases hexec
    · cases hr
    · cases heq
      rw [← h.published hlate, publishedRevision, hp]
      rfl
  | getContent use =>
    cases use with
    | status => exact content_revision h.revision hok hexec
    | _ => trivial
  | _ => trivial

variable (hfresh : fresh → pr.status.revision < 1 ∧ published = none)
include hfresh

theorem working_exec (h : Working source pr fresh published c)
    (he : Calls source pr fresh published e) (hexec : c.exec o e = some (r, c')) :
    Working source pr fresh published c' := by
  have hlow : fresh → ¬ 1 ≤ c.live.status.revision := by
    intro hf
    rw [h.revision]
    exact (hfresh hf).1.not_ge
  have hafter : Sound source c' → (c.effect o e).live.status.revision = pr.status.revision →
      (¬ fresh → (c.effect o e).live.status.creationSource ≠ [] ∨ source = none) →
      (¬ fresh → publishedRevision (c.effect o e) = published) → Working source pr fresh published c' := by
    intro hsound hrevision happlied hpub
    obtain heq | ⟨-, -, rfl⟩ := exec_cases hexec
    · rw [heq] at hsound ⊢
      exact ⟨hsound, h.revision, h.applied, h.published⟩
    · exact ⟨hsound, hrevision, happlied, hpub⟩
  have hframe : writesCore e = false → writesPackage e = false →
      Working source pr fresh published c' := by
    intro hcore hpkg
    have hstat := effect_core (c := c) (o := o) hcore
    refine hafter (sound_exec_frame h.sound hcore hpkg hexec) ?_ ?_ ?_
    · rw [congrArg CoreStatus.revision hstat]
      exact h.revision
    · rw [congrArg CoreStatus.creationSource hstat]
      exact h.applied
    · rw [publishedRevision, effect_package hpkg]
      exact h.published
  have hpub : (1 ≤ c.live.status.revision → published = some c.live.status.revision) ∧
      (published ≠ none → Late c.live) := by
    by_cases hf : fresh
    · exact ⟨fun hrev => absurd hrev (hlow hf), fun hp => absurd (hfresh hf).2 hp⟩
    · rw [← h.published hf]
      exact ⟨h.sound.recorded, h.sound.late⟩
  have hpkg : (c.effect o e).live = c.live → publishedRevision (c.effect o e) = published →
      Working source pr fresh published c' := by
    intro hlive hp
    refine hafter (sound_exec h.sound hexec ?_ ?_ ?_) ?_ ?_ fun _ => hp
    all_goals simp only [hlive, hp]
    exacts [h.sound.live, hpub.1, hpub.2, h.revision, h.applied]
  cases e with
  | applyStatus status ready rendered =>
    have hrevision : status.revision = c.live.status.revision := he.1.trans h.revision.symm
    refine hafter (sound_exec h.sound hexec ⟨h.sound.live.1, fun hrev => ?_⟩ ?_ h.sound.late)
      he.1 he.2 h.published
    · replace hrev : 1 ≤ c.live.status.revision := hrevision ▸ hrev
      exact ⟨he.2 fun hf => hlow hf hrev, (h.sound.live.2 hrev).2⟩
    · intro hrev
      exact (h.sound.recorded (hrevision ▸ hrev)).trans (congrArg some hrevision.symm)
  | closeDraft draft => exact hpkg rfl he
  | createNewDraft => exact hpkg rfl (hfresh he).2.symm
  | updateLifecycle => exact he.elim
  | _ => exact hframe rfl rfl

theorem keep_working {α : Type} {A : α → Prop} {p : Reconciler α}
    (hp : Uses (Calls source pr fresh published) (Answers pr fresh published) A p) :
    Runs (Working source pr fresh published) p fun a c => A a ∧ Working source pr fresh published c := by
  refine hp.triple working_stable ?_ ?_
  · intro c e he h
    cases e with
    | applyStatus status ready rendered => exact fun _ => (h.revision.trans he.1.symm).le
    | _ => trivial
  · rintro c e r c' he h ⟨o, hok, hexec⟩
    exact ⟨working_answers h hok hexec, working_exec hfresh h he hexec⟩

end Working

section Parts

variable {cfg : Config} {pr : PackageRevision}

/-- The state while this object is in hand: it has the revision and the source of the last
    status. -/
structure Hand (source : Option Source) (pr : PackageRevision) (c : Cluster) : Prop where
  sound : Sound source c
  version : VersionOk source pr
  revision : c.live.status.revision = pr.status.revision
  creationSource : c.live.status.creationSource = pr.status.creationSource
  late : Late pr → Late c.live

theorem hand_stable (pr : PackageRevision) : Stable rules (Hand source pr) := by
  rintro c c' ⟨m, hok, hm⟩ h
  have hstat := move_status hm
  exact ⟨sound_move h.sound hok hm, h.version, by rw [hstat]; exact h.revision,
    by rw [hstat]; exact h.creationSource, fun hl => late_move hm (h.late hl)⟩

theorem hand_of_read (h : Sound source c) (hok : okCall c .get o) (hread : c.read o o.lag = .ok pr) :
    Hand source pr c := by
  have hmem := read_mem hread
  have hcore : pr.status.toCoreStatus = c.live.status.toCoreStatus :=
    hok pr (by rw [hread]; rfl)
  refine ⟨h, h.versions pr hmem, (congrArg CoreStatus.revision hcore).symm,
    (congrArg CoreStatus.creationSource hcore).symm, fun hlate => ?_⟩
  obtain rfl | hpast := List.mem_cons.mp hmem
  · exact hlate
  · exact h.follows pr hpast hlate

theorem get_runs : Runs (Sound source) (call .get) (Answered (Hand source) (Sound source)) :=
  get_triple sound_stable hand_stable (fun _ _ => trivial) fun _ _ _ => hand_of_read

variable {e : Call} {cs h : Str} {r : Answer e}

theorem Hand.read (h : Hand source pr c) (he : e.isRead = true)
    (hexec : c.exec o e = some (r, c')) : Hand source pr c' := by
  rw [exec_isRead he hexec]
  have hs := h.sound
  exact ⟨⟨hs.versions, hs.recorded, hs.pushes, hs.follows, hs.late⟩, h.version, h.revision,
    h.creationSource, h.late⟩

theorem ensureMetadata_runs :
    Runs (Hand source pr) (ensureMetadata pr) (Answered (Hand source) (Sound source)) := by
  refine ensureMetadata_rules (G := fun _ => True) sound_stable hand_stable
    (fun _ _ h => h.sound) ?_ (fun _ _ _ _ _ _ => trivial)
    (fun _ _ _ _ _ h hexec => h.read rfl hexec) ?_
  · intro c e he
    cases e with
    | applyStatus => cases he
    | _ => trivial
  · intro pr new c h _ hspec _ hstat
    have hsound := h.sound
    have hnew : VersionOk source new := by
      unfold VersionOk Late
      rw [hspec, hstat]
      exact hsound.live
    have hrec : 1 ≤ new.status.revision → publishedRevision c = some new.status.revision := by
      rw [hstat]
      exact hsound.recorded
    have hlate : Late c.live → Late new := by
      unfold Late
      rw [hspec]
      exact id
    exact ⟨hsound.goes hlate (.inr rfl) (hsound.versions.write hnew rfl rfl) hrec hsound.pushes
      hsound.late, hnew, rfl, rfl, id⟩

structure Applied (source : Option Source) (c : Cluster) : Prop where
  sound : Sound source c
  applied : c.live.status.creationSource ≠ [] ∨ source = none

theorem applied_stable : Stable rules (Applied source) :=
  stable_of_status (R := fun status _ => status.creationSource ≠ [] ∨ source = none)
    fun _ => ⟨fun h => ⟨h.sound, h.applied⟩, fun h => ⟨h.1, h.2⟩⟩

def ContentPost (source : Option Source) : Option Result → Cluster → Prop
  | some _ => Sound source
  | none => Applied source

variable {content : Option Content} {resources : Option Resources}

/-- Statuses that are applied without content, or with the content of a closed draft, have
    the revision in hand. -/
theorem appliedStatus_revision
    (hcont : ∀ ct ∈ content, lifecycleIsPublished ct.lifecycle = true →
      ct.revision = pr.status.revision) :
    (appliedStatus pr content resources cs h).revision = pr.status.revision := by
  cases content with
  | none => rfl
  | some ct =>
    rw [appliedStatus_some_revision]
    split
    · next hpub => exact hcont ct rfl hpub
    · rfl

theorem creationSource_applied (hpr : pr.status.creationSource ≠ [] ∨ source = none) :
    (appliedStatus pr content resources cs h).creationSource ≠ [] ∨ source = none := by
  rw [appliedStatus_creationSource]
  split
  · exact hpr
  · next hcs => exact .inl hcs

theorem reconcileSource_due (hver : VersionOk source pr)
    (hdue : pr.spec.source ≠ none ∧ pr.status.creationSource = []) :
    Runs (Hand source pr) (reconcileSource cfg pr) fun r c => r ≠ .ok none ∧ Sound source c := by
  have hpr : pr.status.revision < 1 := by
    by_contra hrev
    obtain hcs | hnone := (hver.2 (by omega)).1
    · exact hcs hdue.2
    · exact hdue.1 (hver.1.trans hnone)
  refine Triple.pre (P := Working source pr True none) ?_ fun c h =>
    ⟨h.sound, h.revision, (absurd trivial ·), (absurd trivial ·)⟩
  refine (keep_working (fun _ => ⟨hpr, rfl⟩) (reconcileSource_uses calls_of_isRead (fun _ _ => trivial)
    trivial ?_ ?_ hdue.1 hdue.2)).post fun _ _ h => ⟨h.1, h.2.sound⟩
  · exact fun draft _ hdraft => hdraft draft rfl
  · exact fun content _ _ _ _ hcont _ =>
      ⟨appliedStatus_revision fun ct hct => hcont ct hct ct rfl, (absurd trivial ·)⟩

/-- The metadata, the subpackage operation and the render. -/
theorem reconcileContent_runs :
    Runs (Hand source pr) (reconcileContent cfg pr) (ContentPost source) := by
  intro c h
  by_cases hdue : pr.spec.source ≠ none ∧ pr.status.creationSource = []
  · refine ((reconcileSource_due h.version hdue).bind_of fun sourced hsourced => ?_) c h
    match sourced with
    | .error _ | .ok (some _) => exact triple_pure sound_stable fun c h => h
    | .ok none => exact absurd rfl hsourced
  · rw [not_and_or, not_not] at hdue
    have happlied : pr.status.creationSource ≠ [] ∨ source = none :=
      hdue.symm.imp id fun hnone => h.version.1.symm.trans hnone
    have hstart : Working source pr False (publishedRevision c) c :=
      ⟨h.sound, h.revision, fun _ => by rw [h.creationSource]; exact happlied, fun _ => rfl⟩
    refine ((keep_working nofun (reconcileContent_uses calls_of_isRead (fun _ _ => trivial)
      (fun _ => trivial) (fun _ _ _ => trivial) (fun draft _ hdraft => hdraft id draft rfl) hdue
      (fun _ => trivial) ?_)).post ?_) c hstart
    · intro pr' hstat _ _ _ _ _ hcont _
      unfold Calls Answers at *
      rw [← hstat] at hcont happlied ⊢
      exact ⟨appliedStatus_revision fun ct hct => hcont ct hct ct rfl,
        fun _ => creationSource_applied happlied⟩
    · rintro (_ | _) c ⟨-, h⟩
      · exact ⟨h.sound, h.applied id⟩
      · exact h.sound

/-! The lifecycle -/

/-- The state of the lifecycle part, with an object in hand whose source has been applied. -/
structure Ready (source : Option Source) (pr : PackageRevision) (c : Cluster) : Prop extends
    Hand source pr c where
  applied : pr.status.creationSource ≠ [] ∨ source = none

/-- The content in hand is that of the package. -/
structure Known (source : Option Source) (pr : PackageRevision) (content : Content) (c : Cluster) :
    Prop extends Ready source pr c where
  known : publishedRevision c = revisionIfPublished content.lifecycle content.revision

theorem ready_stable : Stable rules (Ready source pr) := fun c c' hmove h =>
  ⟨hand_stable pr c c' hmove h.toHand, h.applied⟩

theorem known_stable (content : Content) : Stable rules (Known source pr content) := by
  rintro c c' hmove h
  refine ⟨ready_stable c c' hmove h.toReady, ?_⟩
  obtain ⟨m, hok, hm⟩ := hmove
  rw [publishedRevision_move h.sound hok hm]
  exact h.known

theorem Known.read {content : Content} (h : Known source pr content c)
    (he : e.isRead = true) (hexec : c.exec o e = some (r, c')) : Known source pr content c' := by
  refine ⟨⟨h.toHand.read he hexec, h.applied⟩, ?_⟩
  rw [exec_isRead he hexec]
  exact h.known

/-- The status with the content in hand has the revision of the package if that is published,
    and the one that is there if not. -/
theorem applyStatus_runs {P : Cluster → Prop}
    {ready : Condition} (hP : Stable rules P) (hready : ∀ c, P c → Ready source pr c)
    (hknown : ∀ c, P c → ∀ ct ∈ content,
      publishedRevision c = revisionIfPublished ct.lifecycle ct.revision) :
    Runs P (call (.applyStatus (appliedStatus pr content resources [] []) ready none))
      fun _ => Sound source := by
  have hwritten : ∀ c, P c →
      (appliedStatus pr content resources [] []).revision = c.live.status.revision ∨
        publishedRevision c = some (appliedStatus pr content resources [] []).revision := by
    intro c h
    match content with
    | none => exact .inl (hready c h).revision.symm
    | some ct =>
      have hct := hknown c h ct rfl
      rw [appliedStatus_some_revision]
      split
      · next hpub =>
        rw [revisionIfPublished, if_pos hpub] at hct
        exact .inr hct
      · exact .inl (hready c h).revision.symm
  refine triple_perform hP (fun _ => sound_stable) ?_ ?_
  · intro c h hrev
    obtain heq | hpub := hwritten c h
    · rw [heq]
    · rw [(hready c h).sound.recorded hrev] at hpub
      exact (Option.some.inj hpub).le
  · rintro c r c' h ⟨o, -, hexec⟩
    have hhand := hready c h
    refine sound_exec hhand.sound hexec ⟨hhand.sound.live.1, fun hrev => ?_⟩ ?_ hhand.sound.late
    · refine ⟨creationSource_applied hhand.applied, ?_⟩
      obtain heq | hpub := hwritten c h
      · exact (hhand.sound.live.2 (heq ▸ hrev)).2
      · exact hhand.sound.late (by simp [hpub])
    · intro hrev
      obtain heq | hpub := hwritten c h
      · exact (hhand.sound.recorded (heq ▸ hrev)).trans (congrArg some heq.symm)
      · exact hpub

/-- A published package stays published under its revision. -/
theorem updateLifecycle_sound {p : Package} {desired : Lifecycle} (h : Ready source pr c)
    (hp : c.package = some p) (hdesired : pr.spec.lifecycle = some desired) :
    Sound source { c with package := some (updatedLifecycle o p desired) } := by
  have hlc : (updatedLifecycle o p desired).lifecycle = desired := by
    unfold updatedLifecycle
    split <;> rfl
  refine h.sound.goes id (.inl rfl) h.sound.versions ?_ h.sound.pushes ?_
  · intro hrev
    have hpub := h.sound.recorded hrev
    have hlate : Late pr := (h.version.2 (h.revision ▸ hrev)).2
    rw [Late, hdesired] at hlate
    simp only [publishedRevision, hp, Option.bind_some, revisionIfPublished] at hpub
    split at hpub
    · next hp' =>
      have hstays : updatedLifecycle o p desired = { p with lifecycle := desired } := by
        refine if_neg fun hprop => ?_
        rw [hprop.1] at hp'
        cases hp'
      rw [← Option.some.inj hpub]
      simp only [publishedRevision, Option.bind_some, hstays, revisionIfPublished]
      exact if_pos hlate
    · cases hpub
  · intro hpub
    refine h.late ?_
    simp only [publishedRevision, Option.bind_some, revisionIfPublished, hlc] at hpub
    rw [Late, hdesired]
    by_contra hnot
    exact hpub (if_neg hnot)

theorem updateLifecycle_runs {content : Content} :
    Runs (Known source pr content) (call (.updateLifecycle pr.spec.lifecycle))
      (Answered (Known source pr) (Ready source pr)) := by
  refine triple_perform (known_stable content) (answered_stable known_stable ready_stable) (fun _ _ => trivial) ?_
  rintro c r c' h ⟨o, -, hexec⟩
  obtain ⟨err, rfl, rfl⟩ | ⟨p, hp, -, heq⟩ := onPackage_cases hexec
  · exact h.toReady
  · cases hdesired : pr.spec.lifecycle with
    | none =>
      rw [hdesired] at heq
      cases heq
      exact h.toReady
    | some desired =>
      rw [hdesired] at heq
      cases heq
      have hsound := updateLifecycle_sound (o := o) h.toReady hp hdesired
      exact ⟨⟨⟨hsound, h.version, h.revision, h.creationSource, h.late⟩, h.applied⟩, rfl⟩

theorem reconcileLifecycle_runs :
    Runs (Ready source pr) (reconcileLifecycle cfg pr) fun _ => Sound source := by
  have hread : ∀ {e : Call}, e.isRead = true →
      Runs (Sound source) (call e) fun _ => Sound source := by
    intro e he
    refine triple_perform sound_stable (fun _ => sound_stable) ?_ ?_
    · intro c h
      cases e with
      | applyStatus => cases he
      | _ => trivial
    · rintro c r c' h ⟨o, -, hexec⟩
      rw [exec_isRead he hexec]
      exact ⟨h.versions, h.recorded, h.pushes, h.follows, h.late⟩
  refine reconcileLifecycle_triple (K := Known source pr) ready_stable sound_stable ?_ ?_ ?_ ?_
    (fun _ _ _ => updateLifecycle_runs) (hread rfl) (hread rfl)
  · refine triple_perform ready_stable (answered_stable known_stable ready_stable) (fun _ _ => trivial) ?_
    rintro c r c' h ⟨o, -, hexec⟩
    have hhand := h.toHand.read rfl hexec
    cases r with
    | error err => exact ⟨hhand, h.applied⟩
    | ok content =>
      refine ⟨⟨hhand, h.applied⟩, ?_⟩
      rw [← getContent_published hexec, exec_isRead rfl hexec]
      rfl
  · refine triple_perform ready_stable (fun _ => ready_stable) (fun _ _ => trivial) ?_
    rintro c r c' h ⟨o, -, hexec⟩
    exact ⟨h.toHand.read rfl hexec, h.applied⟩
  · intro ready
    refine updateStatus_triple sound_stable (triple_pure ready_stable fun _ h => h) fun resources => ?_
    exact applyStatus_runs ready_stable (fun _ h => h) fun _ _ _ hct => by cases hct
  · intro content ready
    refine updateStatus_triple sound_stable (P := Known source pr content) ?_ fun resources => ?_
    · refine Triple.bind (M := fun _ => Known source pr content) ?_ fun _ =>
        triple_pure (known_stable content) fun _ h => h
      refine triple_perform (known_stable content) (fun _ => known_stable content)
        (fun _ _ => trivial) ?_
      rintro c r c' h ⟨o, -, hexec⟩
      exact h.read rfl hexec
    · refine applyStatus_runs (known_stable content) (fun _ h => h.toReady) ?_
      rintro c h _ ⟨⟩
      exact h.known

/-! The reconcile -/

theorem reconcile_runs : Runs (Sound source) (reconcile cfg) fun _ => Sound source := by
  refine reconcile_triple sound_stable (fun _ _ h => h.sound) (fun _ _ h => h) (fun _ h => h.sound)
    (fun _ h => h) get_runs (fun _ => ensureMetadata_runs) (fun _ => reconcileContent_runs) ?_
    fun _ => reconcileLifecycle_runs
  refine get_triple applied_stable (fun _ => ready_stable) (fun _ _ => trivial) ?_
  intro c o pr h hok hread
  have hhand := hand_of_read h.sound hok hread
  exact ⟨hhand, hhand.creationSource ▸ h.applied⟩

end Parts

/-! Whole runs -/

theorem sound_created {pr : PackageRevision} {package : Option Package}
    (h : Admitted pr package) :
    Sound pr.spec.source { live := pr, package := package } := by
  have hstat := h.2
  split at hstat
  · obtain ⟨rfl, hempty⟩ := hstat
    have hzero : ¬ 1 ≤ pr.status.revision := by simp [hempty]
    refine ⟨?_, fun hrev => absurd hrev hzero, by simp, by simp, fun hp => absurd rfl hp⟩
    intro v hv
    obtain rfl : v = pr := List.mem_singleton.mp hv
    exact ⟨rfl, fun hrev => absurd hrev hzero⟩
  · next hsrc =>
    obtain ⟨p, publishedBy, publishedAt, conditions, rfl, hlc, hseeded⟩ := hstat
    have hnone : pr.spec.source = none := by simpa using hsrc
    have hlate : lifecycleIsPublished p.lifecycle = true → Late pr := fun hp => by
      rw [Late, hlc]
      exact hp
    -- A seeded status has the revision of a package that is published, and no other.
    have hrevision : 1 ≤ pr.status.revision →
        lifecycleIsPublished p.lifecycle = true ∧ pr.status.revision = p.revision := by
      intro hrev
      obtain hempty | hseeded := hseeded
      · simp [hempty] at hrev
      · rw [hseeded, seeded] at hrev ⊢
        split at hrev
        · next hp => exact ⟨hp, by rw [if_pos hp]⟩
        · simp at hrev
    refine ⟨?_, fun hrev => ?_, by simp, by simp, fun hp => hlate ?_⟩
    · intro v hv
      obtain rfl : v = pr := List.mem_singleton.mp hv
      exact ⟨rfl, fun hrev => ⟨.inr hnone, hlate (hrevision hrev).1⟩⟩
    · obtain ⟨hp, heq⟩ := hrevision hrev
      simp only [publishedRevision, Option.bind_some, revisionIfPublished, if_pos hp, heq]
    · by_contra hnot
      exact hp (if_neg hnot)

abbrev Inv (source : Option Source) : World → Prop :=
  System.Inv rules Safe (Sound source) fun _ => Sound source

theorem inv_step {source : Option Source} (w : World) (ev : Event) (w' : World)
    (h : Inv source w) (hok : ok w ev) (hstep : step cfg w ev = some w') : Inv source w' :=
  System.inv_step (fun _ _ _ hm hmove h => sound_move h hm hmove)
    (fun _ _ _ _ hm hmove h => sound_move h hm hmove) (fun _ _ h => h) reconcile_runs w ev w' h hok
    hstep

theorem revision_step {source : Option Source} {w w' : World} {ev : Event}
    (h : Inv source w) (hstep : step cfg w ev = some w') (hrev : 1 ≤ w.state.live.status.revision) :
    w.state.live.status.revision ≤ w'.state.live.status.revision := by
  obtain ⟨m, -, hm⟩ | hsame | ⟨o, e, r, hnext, hexec⟩ := System.step_state hstep
  · rw [move_status hm]
  · rw [hsame]
  · have hsafe : Safe w.state e := h.next_safe hnext
    obtain heq | ⟨-, -, heq⟩ := exec_cases hexec
    · rw [heq]
    · rw [heq]
      by_cases hcore : writesCore e = false
      · rw [congrArg CoreStatus.revision (effect_core hcore)]
      · cases e with
        | applyStatus status ready rendered => exact hsafe hrev
        | _ => exact absurd rfl hcore

/-- The revision is at least `n`. -/
def AtLeast (source : Option Source) (n : Int) (w : World) : Prop :=
  Inv source w ∧ n ≤ w.state.live.status.revision

theorem atLeast_step {source : Option Source} {n : Int} (hn : 1 ≤ n) (w : World)
    (ev : Event) (w' : World) (h : AtLeast source n w) (hok : ok w ev)
    (hstep : step cfg w ev = some w') : AtLeast source n w' :=
  ⟨inv_step w ev w' h.1 hok hstep, h.2.trans (revision_step h.1 hstep (hn.trans h.2))⟩

/-- The revision of the status that the controller applies next. -/
def nextRevision (w : World) : Option Int :=
  match w.next with
  | some (.applyStatus status _ _) => some status.revision
  | _ => none

/-- **The revision never falls.** In every run from the creation of an object whose steps meet
    the condition: once `status.revision` is at least 1, no status is applied with a smaller
    one. -/
theorem revision_never_falls {cfg : Config} {pr : PackageRevision} {package : Option Package}
    {es₁ es₂ : List Event} {w₁ w₂ : World} {revision : Int} (hadmitted : Admitted pr package)
    (hok₁ : Along (step cfg) ok (World.created pr package) es₁)
    (hrun₁ : run (step cfg) (World.created pr package) es₁ = some w₁)
    (hwritten : 1 ≤ w₁.state.live.status.revision)
    (hok₂ : Along (step cfg) ok w₁ es₂) (hrun₂ : run (step cfg) w₁ es₂ = some w₂)
    (hnext : nextRevision w₂ = some revision) : w₁.state.live.status.revision ≤ revision := by
  have hcreated : Inv pr.spec.source (World.created pr package) := sound_created hadmitted
  have hinv₁ := run_invariant inv_step hcreated hok₁ hrun₁
  have hinv₂ := run_invariant (atLeast_step hwritten) ⟨hinv₁, le_rfl⟩ hok₂ hrun₂
  unfold nextRevision at hnext
  split at hnext
  · next status ready rendered hcall =>
    have hsafe : Safe w₂.state (.applyStatus status ready rendered) := hinv₂.1.next_safe hcall
    cases hnext
    exact hinv₂.2.trans (hsafe (hwritten.trans hinv₂.2))
  · cases hnext

/-- The package is published, and reconciled once more. -/
theorem revision_never_falls_published :
    ∃ w₁ w₂, run (step plainConfig) (World.created newDraft none) publishRun = some w₁ ∧
      w₁.state.live.status.revision = 1 ∧
      run (step plainConfig) w₁ (.start :: calls someFiles 4) = some w₂ ∧
      nextRevision w₂ = some 1 ∧ w₁.state.live.status.revision ≤ 1 := by
  have hok : Along (step plainConfig) ok (World.created newDraft none) publishRun := by
    decide +kernel
  obtain ⟨w₁, hw₁, hrev, hok₂, w₂, hw₂, hnext⟩ :
      ∃ w₁, run (step plainConfig) (World.created newDraft none) publishRun = some w₁ ∧
        w₁.state.live.status.revision = 1 ∧ Along (step plainConfig) ok w₁ (.start :: calls someFiles 4) ∧
        ∃ w₂, run (step plainConfig) w₁ (.start :: calls someFiles 4) = some w₂ ∧ nextRevision w₂ = some 1 := by
    decide +kernel
  have hadmitted : Admitted newDraft none := ⟨by decide +kernel, rfl, rfl⟩
  exact ⟨w₁, w₂, hw₁, hrev, hw₂, hnext, revision_never_falls hadmitted hok hw₁ hrev.ge hok₂ hw₂ hnext⟩

/-- **A revision in the status is that of the package, which is published**, between any two
    reconciles of such a run, and the object is to be published. -/
theorem status_revision_stored {cfg : Config} {pr : PackageRevision} {package : Option Package}
    {es : List Event} {w : World} (hadmitted : Admitted pr package)
    (hok : Along (step cfg) ok (World.created pr package) es)
    (hrun : run (step cfg) (World.created pr package) es = some w) (hidle : w.next = none)
    (hrev : 1 ≤ w.state.live.status.revision) :
    publishedRevision w.state = some w.state.live.status.revision ∧ Late w.state.live := by
  have hcreated : Inv pr.spec.source (World.created pr package) := sound_created hadmitted
  have hinv := run_invariant inv_step hcreated hok hrun
  clear hok hrun
  obtain ⟨c, _ | _ | _⟩ := w
  case some.call => cases hidle
  all_goals
    have hsound : Sound pr.spec.source c := hinv
    exact ⟨hsound.recorded hrev, (hsound.live.2 hrev).2⟩

theorem status_revision_stored_published :
    ∃ w, run (step plainConfig) (World.created newDraft none) publishRun = some w ∧
      (w.next = none ∧ w.state.live.status.revision = 1) ∧ publishedRevision w.state = some 1 := by
  refine exists_reached (by decide +kernel) fun w hw h => ?_
  have hadmitted : Admitted newDraft none := ⟨by decide +kernel, rfl, rfl⟩
  exact h.2 ▸ (status_revision_stored hadmitted (by decide +kernel) hw h.1 h.2.ge).1

/-- A reconcile whose second read is older than the last status, and which cannot read the
    content. -/
def staleRun : List Event :=
  [.start, .go {}, .go { lag := 1 }, .go { err := some "permission denied" }, .go {}]

/-- **The revision can be taken back.** The package is published and the status has the
    revision 1. The next reconcile reads the object as it was before that status, fails to
    read the content, and applies a status with the revision 0. -/
theorem revision_taken_back :
    ∃ w₁ w₂, run (step plainConfig) (World.created newDraft none) publishRun = some w₁ ∧
      w₁.state.live.status.revision = 1 ∧ run (step plainConfig) w₁ staleRun = some w₂ ∧
      w₂.state.live.status.revision = 0 := by
  obtain ⟨w₁, hw₁, hrev, w₂, hw₂, hrev₂⟩ :
      ∃ w₁, run (step plainConfig) (World.created newDraft none) publishRun = some w₁ ∧
        w₁.state.live.status.revision = 1 ∧ ∃ w₂, run (step plainConfig) w₁ staleRun = some w₂ ∧
        w₂.state.live.status.revision = 0 := by
    decide +kernel
  exact ⟨w₁, w₂, hw₁, hrev, hw₂, hrev₂⟩

end Porch.PrController.StatusRevision
