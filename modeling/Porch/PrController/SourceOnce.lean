import Porch.PrController.Frame

/- How often the source of an object is applied. The draft of the source is closed before
   `status.creationSource` says so, and that field alone keeps the next reconcile from
   applying the source again.

   In every run in which, once the draft of the source has been closed, a status that sets
   the field works and the cached reads work and are not older than it, no reconcile opens a
   new draft again (`source_applied_once`). -/
namespace Porch.PrController.SourceOnce

open Go Lts.Prog Cluster Lts

/-- The condition on the calls, once the draft of the source has been closed. -/
def okCall (c : Cluster) (e : Call) (o : Outcome) : Prop :=
  match e with
  | .applyStatus status _ _ => c.sourceClosed = true →
      status.creationSource ≠ c.live.status.creationSource → o.err = none
  | .get => c.sourceClosed = true → (c.read o o.lag).toOption.any
      (fun v => v.status.creationSource = c.live.status.creationSource) = true
  | _ => True

instance (c : Cluster) (e : Call) (o : Outcome) : Decidable (okCall c e o) := by
  induction e using Call.casesOn <;> dsimp only [okCall] <;> infer_instance

def ok : World → Event → Prop := System.ok (fun _ _ => True) (fun _ _ => True) okCall

instance (w : World) (ev : Event) : Decidable (ok w ev) :=
  inferInstanceAs (Decidable (System.ok _ _ _ _ _))

/-! What the calls keep -/

abbrev rules : Rules Call Answer Cluster := Cluster.rules (fun _ _ => True) okCall

/-- No new draft is opened once the draft of the source has been closed. -/
def Safe (c : Cluster) : Call → Prop
  | .createNewDraft => c.sourceClosed = false
  | _ => True

/-- Started with `P` and among the others, the program is safe and ends with `Q`. -/
abbrev Runs {α : Type} (P : Cluster → Prop) (p : Reconciler α) (Q : α → Cluster → Prop) : Prop :=
  Triple rules Safe P p Q

/-- The status says that the source has been applied if its draft has been closed. -/
def Recorded (c : Cluster) : Prop := c.sourceClosed = true → c.live.status.creationSource ≠ []

/-- The state while this object is in hand. -/
structure Hand (pr : PackageRevision) (c : Cluster) : Prop where
  recorded : Recorded c
  applied : c.sourceClosed = true → pr.status.creationSource ≠ []

variable {c c' : Cluster} {o : Outcome} {pr : PackageRevision} {cfg : Config}

variable {P : Cluster → Prop} {R : Status → Bool → Prop} {e : Call} {α : Type} {op : Str}
  {r : Answer e} {A : α → Prop} {p : Reconciler α}

/-- What depends on the status and on whether the draft has been closed is stable. -/
theorem stable_of_status (hP : ∀ c, P c ↔ R c.live.status c.sourceClosed) : Stable rules P := by
  rintro c c' ⟨m, -, hm⟩ h
  rw [hP, move_status hm, move_sourceClosed hm, ← hP]
  exact h

theorem recorded_stable : Stable rules Recorded :=
  stable_of_status (R := fun status closed => closed = true → status.creationSource ≠ [])
    fun _ => Iff.rfl

theorem hand_stable (pr : PackageRevision) : Stable rules (Hand pr) :=
  stable_of_status (R := fun status closed => (closed = true → status.creationSource ≠ []) ∧
    (closed = true → pr.status.creationSource ≠ []))
    fun _ => ⟨fun h => ⟨h.recorded, h.applied⟩, fun h => ⟨h.1, h.2⟩⟩

/-- The calls of the parts besides the source, and the answers that they depend on. -/
def Calls (pr : PackageRevision) : Call → Prop
  | .applyStatus status _ _ => status.creationSource = pr.status.creationSource
  | .closeDraft draft => draft.isNew = false
  | .createNewDraft => False
  | _ => True

def Answers : (e : Call) → Answer e → Prop
  | .createDraftFromExisting, r => ∀ draft, r = .ok draft → draft.isNew = false
  | _, _ => True

theorem calls_of_isRead (e : Call) (he : e.isRead = true) : Calls pr e := by
  cases e with
  | applyStatus | closeDraft | createNewDraft => cases he
  | _ => trivial

theorem answers (hexec : c.exec o e = some (r, c')) : Answers e r := by
  cases e with
  | createDraftFromExisting =>
    rintro draft rfl
    obtain ⟨err, hr, -⟩ | ⟨p, -, -, heq⟩ := onPackage_cases hexec
    · cases hr
    · cases heq
      rfl
  | _ => trivial

theorem hand_exec (h : Hand pr c) (he : Calls pr e)
    (hexec : c.exec o e = some (r, c')) : Hand pr c' := by
  obtain heq | ⟨-, -, rfl⟩ := exec_cases hexec
  · rw [heq]
    exact ⟨h.recorded, h.applied⟩
  · have hclosed : (c.effect o e).sourceClosed = c.sourceClosed :=
      effect_sourceClosed (by rintro draft rfl; exact he)
    refine ⟨fun hc => ?_, fun hc => h.applied (hclosed ▸ hc)⟩
    rw [hclosed] at hc
    by_cases hcore : writesCore e = false
    · rw [congrArg CoreStatus.creationSource (effect_core hcore)]
      exact h.recorded hc
    · cases e with
      | applyStatus status ready rendered =>
        show status.creationSource ≠ []
        rw [show status.creationSource = pr.status.creationSource from he]
        exact h.applied hc
      | _ => exact absurd rfl hcore

theorem keep_hand (hp : Uses (Calls pr) Answers A p) :
    Runs (Hand pr) p fun a c => A a ∧ Hand pr c := by
  refine hp.triple (hand_stable pr) ?_ ?_
  · intro c e he h
    cases e with
    | createNewDraft => exact absurd he id
    | _ => trivial
  · rintro c e r c' he h ⟨o, -, hexec⟩
    exact ⟨answers hexec, hand_exec h he hexec⟩

/-! The source -/

/-- The states before the draft of the source has been closed, after that, and when the status
    says so. -/
def Open (c : Cluster) : Prop := c.sourceClosed = false

def Closed (c : Cluster) : Prop := c.sourceClosed = true

structure Shown (op : Str) (c : Cluster) : Prop where
  closed : c.sourceClosed = true
  creationSource : c.live.status.creationSource = op

theorem open_stable : Stable rules Open :=
  stable_of_status (R := fun _ closed => closed = false) fun _ => Iff.rfl

theorem closed_stable : Stable rules Closed :=
  stable_of_status (R := fun _ closed => closed = true) fun _ => Iff.rfl

theorem shown_stable (op : Str) : Stable rules (Shown op) :=
  stable_of_status (R := fun status closed => closed = true ∧ status.creationSource = op)
    fun _ => ⟨fun h => ⟨h.closed, h.creationSource⟩, fun h => ⟨h.1, h.2⟩⟩

theorem Open.recorded (h : Open c) : Recorded c := fun hc => by
  rw [h] at hc
  cases hc

theorem Shown.recorded (h : Shown op c) (hop : op ≠ []) : Recorded c := fun _ => by
  rw [h.creationSource]
  exact hop

theorem keep_open (hp : Uses (fun e => ∀ draft, e ≠ .closeDraft draft) (fun _ _ => True) A p) :
    Runs Open p fun a c => A a ∧ Open c := by
  refine hp.triple open_stable ?_ ?_
  · intro c e _ h
    cases e with
    | createNewDraft => exact h
    | _ => trivial
  · rintro c e r c' he h ⟨o, -, hexec⟩
    refine ⟨trivial, ?_⟩
    obtain heq | ⟨-, -, rfl⟩ := exec_cases hexec
    · rw [heq]
      exact h
    · rw [Open, effect_sourceClosed fun draft hd => absurd hd (he draft)]
      exact h

theorem read_keeps (hP : ∀ c, P c ↔ R c.live.status c.sourceClosed) (he : e.isRead = true) :
    Runs P (call e) fun _ => P := by
  refine triple_perform (stable_of_status hP) (fun _ => stable_of_status hP) ?_ ?_
  · intro c _
    cases e with
    | createNewDraft => cases he
    | _ => trivial
  · rintro c r c' h ⟨o, -, hexec⟩
    rw [hP, exec_isRead he hexec]
    exact (hP c).mp h

/-- The status that says so works, and the first read after it shows it. -/
theorem updateStatusWithRetry_runs {content : Option Content} {ready : Condition}
    (hop : op ≠ []) : Runs Closed (updateStatusWithRetry cfg pr content op [] ready)
      fun r c => r = none ∧ Shown op c := by
  refine Triple.bind (M := fun _ => Shown op) ?_ fun _ => ?_
  · refine updateStatus_triple (shown_stable op) ?_ fun resources => ?_
    · cases content with
      | none => exact triple_pure closed_stable fun _ h => h
      | some content =>
        refine Triple.bind (M := fun _ => Closed) ?_ fun _ => triple_pure closed_stable fun _ h => h
        exact read_keeps (R := fun _ closed => closed = true) (fun _ => Iff.rfl) rfl
    · refine triple_perform closed_stable (fun _ => shown_stable op) (fun _ _ => trivial) ?_
      rintro c r c' h ⟨o, hok, hexec⟩
      have hcs : (appliedStatus pr content resources op []).creationSource = op := by simp [hop]
      obtain ⟨err, ho, -, rfl⟩ | ⟨-, heq⟩ := attempt_cases hexec
      · refine ⟨h, by_contra fun hne => ?_⟩
        rw [hok h (by rw [hcs]; exact Ne.symm hne)] at ho
        cases ho
      · cases heq
        exact ⟨h, hcs⟩
  · refine Triple.bind (M := fun r c => confirmMarkers op [] r = none ∧ Shown op c) ?_ fun got => ?_
    · refine triple_perform (shown_stable op) ?_ (fun _ _ => trivial) ?_
      · exact fun r c c' hmove h => ⟨h.1, shown_stable op c c' hmove h.2⟩
      · rintro c r c' h ⟨o, hok, hexec⟩
        have heq : (c.read o o.lag, c) = (r, c') := Option.some.inj hexec
        cases heq
        refine ⟨?_, h⟩
        obtain ⟨v, hv, hcs⟩ := Option.any_eq_true .. |>.mp (hok h.closed)
        cases hread : c.read o o.lag with
        | error err => simp [hread, Except.toOption] at hv
        | ok w =>
          obtain rfl : w = v := by simpa [hread, Except.toOption] using hv
          have hw : w.status.creationSource = op :=
            (of_decide_eq_true hcs).trans h.creationSource
          simp [confirmMarkers, hw]
    · intro c h
      rw [h.1]
      exact triple_pure (shown_stable op) (fun _ h => ⟨rfl, h⟩) c h.2

theorem recordCompletion_runs (hop : op ≠ []) :
    Runs Closed (recordCompletion cfg pr op []) fun r c => r ≠ .ok none ∧ Recorded c := by
  refine Triple.bind (M := fun _ => Closed)
    (read_keeps (R := fun _ closed => closed = true) (fun _ => Iff.rfl) rfl) fun content => ?_
  refine Triple.bind_of (updateStatusWithRetry_runs hop) fun confirmed hconfirmed => ?_
  subst hconfirmed
  refine Triple.bind (M := fun _ => Shown op) ?_ fun _ =>
    triple_pure (shown_stable op) fun c h => ⟨by simp, h.recorded hop⟩
  refine triple_perform (shown_stable op) (fun _ => shown_stable op) (fun _ _ => trivial) ?_
  rintro c r c' h ⟨o, -, hexec⟩
  obtain heq | ⟨-, -, rfl⟩ := exec_cases hexec
  · rw [heq]
    exact ⟨h.closed, h.creationSource⟩
  · exact ⟨h.closed, h.creationSource⟩

theorem operation_ne_nil {source : Source} (h : source ≠ .empty) : source.operation ≠ [] := by
  cases source with
  | empty => exact absurd rfl h
  | init | cloneFrom | copyFrom | upgrade => exact List.cons_ne_nil _ _

/-- The source is applied while its draft has not been closed. -/
theorem reconcileSource_due (hdue : pr.spec.source ≠ none ∧ pr.status.creationSource = []) :
    Runs (Hand pr) (reconcileSource cfg pr) fun r c => r ≠ .ok none ∧ Recorded c := by
  have hfail : ∀ err, Runs Open (setFailedConditionsAndLog pr err)
      fun r c => r ≠ .ok none ∧ Recorded c := fun err =>
    (keep_open (setFailedConditionsAndLog_uses no_close_of_isRead
      (fun _ _ _ => by simp) err)).post fun r c h => ⟨h.1, h.2.recorded⟩
  have hread : ∀ {e : Call}, e.isRead = true → Runs Open (call e) fun _ => Open := fun he =>
    read_keeps (R := fun _ closed => closed = false) (fun _ => Iff.rfl) he
  refine Triple.pre (P := Open) ?_ fun c h => by
    by_contra hclosed
    exact h.applied (by simpa [Open] using hclosed) hdue.2
  obtain ⟨source, hsrc⟩ := Option.ne_none_iff_exists'.mp hdue.1
  refine reconcileSource_triple (D := fun draft c => draft.isNew = true ∧ Open c) hsrc hdue.2
    ((keep_open (verifyRepoMigrated_uses no_close_of_isRead)).post fun _ _ h => h.2)
    (keep_open (applySource_uses no_close_of_isRead source)) hfail ?_ ?_
  · refine triple_perform open_stable ?_ (fun _ h => h) ?_
    · exact answered_stable (fun _ c c' hmove h => ⟨h.1, open_stable c c' hmove h.2⟩) open_stable
    · rintro c r c' h ⟨o, -, hexec⟩
      obtain ⟨err, -, rfl, rfl⟩ | ⟨-, heq⟩ := attempt_cases hexec
      · exact h
      · cases heq
        exact ⟨rfl, h⟩
  · intro draft resources hempty c h
    have hnew : draft.isNew = true := h.1
    refine finalizeDraft_triple (fun _ _ => hread rfl) hfail ?_
      (recordCompletion_runs (operation_ne_nil hempty)) c h.2
    refine triple_perform open_stable ?_ (fun _ _ => trivial) ?_
    · exact answered_stable (fun _ => closed_stable) open_stable
    · rintro c r c' h ⟨o, -, hexec⟩
      obtain ⟨err, -, rfl, rfl⟩ | ⟨-, heq⟩ := attempt_cases hexec
      · exact h
      · cases heq
        show (c.sourceClosed || draft.isNew) = true
        rw [hnew, Bool.or_true]

/-! The reconcile -/

theorem get_runs : Runs Recorded (call .get) (Answered Hand Recorded) := by
  refine get_triple recorded_stable hand_stable (fun _ _ => trivial) ?_
  refine fun c o pr h hok hread => ⟨h, fun hclosed => ?_⟩
  have hcs := hok hclosed
  simp only [hread, Except.toOption, Option.any_some, decide_eq_true_eq] at hcs
  rw [hcs]
  exact h hclosed

theorem ensureMetadata_runs : Runs (Hand pr) (ensureMetadata pr) (Answered Hand Recorded) := by
  refine ensureMetadata_rules (G := fun _ => True) recorded_stable hand_stable
    (fun _ _ h => h.recorded) ?_ (fun _ _ _ _ _ _ => trivial) ?_ ?_
  · intro c e he
    cases e with
    | createNewDraft => cases he
    | _ => trivial
  · intro pr c c' o r h hexec
    exact hand_exec (e := .getRepository) h trivial hexec
  · intro pr new c h _ _ _ hstat
    have hnew : c.sourceClosed = true → new.status.creationSource ≠ [] := by
      rw [hstat]
      exact h.recorded
    exact ⟨hnew, hnew⟩

theorem reconcileContent_runs : Runs (Hand pr) (reconcileContent cfg pr) fun _ => Recorded := by
  by_cases hdue : pr.spec.source ≠ none ∧ pr.status.creationSource = []
  · exact (reconcileSource_due hdue).bind_of fun
      | .error _, _ | .ok (some _), _ => triple_pure recorded_stable fun c h => h
      | .ok none, hsourced => absurd rfl hsourced
  · rw [not_and_or, not_not] at hdue
    refine (keep_hand (reconcileContent_uses calls_of_isRead (fun _ _ => trivial) (fun _ => trivial)
      (fun _ _ _ => trivial) (fun draft _ hdraft => hdraft draft rfl) hdue (fun _ => trivial)
      ?_)).post fun _ _ h => h.2.recorded
    intro pr' hstat _ _ _ _ _ _ _
    simp [Calls, hstat]

theorem reconcile_runs : Runs Recorded (reconcile cfg) fun _ => Recorded := by
  refine reconcile_triple recorded_stable (fun _ _ h => h.recorded) (fun _ _ h => h) (fun _ h => h)
    (fun _ h => h) get_runs (fun _ => ensureMetadata_runs) (fun _ => reconcileContent_runs) get_runs
    fun pr => ?_
  exact (keep_hand (reconcileLifecycle_uses calls_of_isRead (fun _ _ _ _ => by simp [Calls])
    trivial)).post fun _ _ h => h.2.recorded

/-! Whole runs -/

/-- The controller is about to open a new draft. -/
def opensNewDraft (w : World) : Bool :=
  match w.next with
  | some .createNewDraft => true
  | _ => false

/-- **The source is applied once.** In every run from the creation of an object whose steps
    meet the condition: once the draft of the source has been closed, no reconcile opens a
    new draft. -/
theorem source_applied_once {cfg : Config} {pr : PackageRevision} {package : Option Package}
    {es : List Event} {w : World} (hok : Along (step cfg) ok (World.created pr package) es)
    (hrun : run (step cfg) (World.created pr package) es = some w)
    (hclosed : w.state.sourceClosed = true) : opensNewDraft w = false := by
  have hcreated : Recorded { live := pr, package := package } := fun h => by cases h
  have hmove : ∀ c m c', True → move c m = some c' → Recorded c → Recorded c' :=
    fun c m c' _ hm h => recorded_stable c c' ⟨m, trivial, hm⟩ h
  have hinv := System.run_inv hmove (fun _ => hmove) (fun _ _ h => h) reconcile_runs hcreated hok
    hrun
  unfold opensNewDraft
  split
  · next hnext =>
    have hsafe : w.state.sourceClosed = false := hinv.next_safe hnext
    rw [hclosed] at hsafe
    cases hsafe
  · rfl

/-- The object is created, and reconciled once more. -/
theorem source_applied_once_created : ∃ w, run (step plainConfig) (World.created newDraft none)
        (createRun ++ .start :: calls someFiles 3) = some w ∧
      w.state.sourceClosed = true ∧ opensNewDraft w = false := by
  refine exists_reached (by decide +kernel) fun w hw hclosed => ?_
  exact source_applied_once (by decide +kernel) hw hclosed

/-- The reconcile that creates the package, with both statuses after the closing of the draft
    failing, and the next one up to its draft. -/
def unrecordedRun : List Event :=
  .start :: calls someFiles 12 ++
    [.go { err := some "conflict" }, .go {}, .go { yes := false }, .go {},
      .go { err := some "conflict" }, .start] ++ calls someFiles 3

/-- **The source can be applied again.** The draft of the source has been closed and the
    package stored. The two statuses that would say so fail, and the next reconcile is about
    to open a new draft over the package. -/
theorem source_applied_again :
    ∃ w, run (step plainConfig) (World.created newDraft none) unrecordedRun = some w ∧
      w.state.sourceClosed = true ∧ opensNewDraft w = true := by
  decide +kernel

end Porch.PrController.SourceOnce
