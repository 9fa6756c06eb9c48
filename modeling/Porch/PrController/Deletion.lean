import Porch.Api
import Porch.Lts.Program

/- Deleting a v1alpha2 package revision, and deleting the repository that it belongs to.

     packagerevision_controller.go  reconcile, reconcileFinalizer
     ownership.go                   handleDeletion, deleteFromGit, removeFinalizer, ownerRepoGone
     packagerevision_webhook.go     validateDelete, isOwnerRepoGone
     SetupWithManager               which writes queue a reconcile: `queued` in `move`

   One package revision and its repository. The reads of the repository come from a cache and
   may be behind. Every change of the spec and the mark of a deletion are changes of the
   generation and queue a reconcile at once; what happens to the repository does not. The part of a
   reconcile for an object that is not being deleted is one call here, which may fail or ask
   for another reconcile; it does not change the lifecycle and marks no deletion.

   The webhook admits the delete of a published package revision as soon as its repository is
   being deleted, while the controller waits until the repository is gone, and does so without
   asking for another reconcile. When the repository is gone later, nothing wakes it up
   (`finalizer_left_behind`). -/
namespace Porch.PrController.Deletion

open Go Lts.Prog Lts

/-- How far the deletion of the repository has got. -/
inductive RepoState where
  | present
  | terminating
  | gone
deriving DecidableEq, Repr

def RepoState.upTo : RepoState → List RepoState
  | .present => [.present]
  | .terminating => [.present, .terminating]
  | .gone => [.present, .terminating, .gone]

structure State where
  repo : RepoState := .present
  /-- The object is in the API server. -/
  stored : Bool := true
  lifecycle : Lifecycle
  finalizer : Bool := true
  deletionTimestamp : Bool := false
  /-- A reconcile of the object is queued. -/
  queued : Bool := false
  /-- Recorded: a delete of the object has been admitted. -/
  admitted : Bool := false
deriving DecidableEq, Repr

/-! The reconcile -/

structure Object where
  lifecycle : Lifecycle
  finalizer : Bool
  deletionTimestamp : Bool
deriving DecidableEq, Repr

structure Result where
  requeue : Bool := false
deriving DecidableEq, Repr

inductive Call where
  /-- The reconcile is taken from the queue, and put there again. -/
  | dequeue
  | enqueue
  | get
  | getRepository
  | deletePackage
  | updateLatestRevisionLabels
  | patchFinalizer
  /-- The reconcile of an object that is not being deleted. -/
  | reconcileRest
deriving DecidableEq, Repr

/-- What a call is answered by; the calls that can fail answer with their error. -/
abbrev Answer : Call → Type
  | .dequeue | .enqueue => Unit
  | .get => Except Str (Option Object)
  | .getRepository => Except Str RepoState
  | .deletePackage | .updateLatestRevisionLabels | .patchFinalizer => Option Str
  | .reconcileRest => Except Str Result

abbrev Reconciler := Prog Call Answer

def call (e : Call) : Reconciler (Answer e) := Prog.perform e

abbrev Outcome := Except Str Result

/-- True only when the repository is confirmed deleted. -/
def ownerRepoGone : Reconciler (Except Str Bool) := do
  match ← call .getRepository with
  | .error err => pure (.error err)
  | .ok repo => pure (.ok (repo = .gone))

/-- Nothing to clean up counts as success, which is left to the answer of the call. -/
def deleteFromGit : Reconciler (Option Str) := call .deletePackage

/-- The patch of `removeFinalizer`; there is none when the object has no finalizer. -/
def patchAway (pr : Object) : Reconciler Outcome := do
  if pr.finalizer then
    match ← call .patchFinalizer with
    | some err => pure (.error err)
    | none => pure (.ok {})
  else pure (.ok {})

def removeFinalizer (pr : Object) (updateLabels : Bool) : Reconciler Outcome := do
  if updateLabels then
    match ← call .updateLatestRevisionLabels with
    | some _ => pure (.ok { requeue := true })
    | none => patchAway pr
  else patchAway pr

def handlePublished (pr : Object) : Reconciler Outcome := do
  match ← ownerRepoGone with
  | .error err => pure (.error err)
  | .ok false => pure (.ok {})
  | .ok true =>
    let _ ← deleteFromGit
    removeFinalizer pr false

def handleUnpublished (pr : Object) : Reconciler Outcome := do
  match ← deleteFromGit with
  | some err => pure (.error err)
  | none => removeFinalizer pr true

def handleDeletion (pr : Object) : Reconciler Outcome :=
  if pr.lifecycle = .published then handlePublished pr else handleUnpublished pr

def reconcile : Reconciler Outcome := do
  match ← call .get with
  | .error err => pure (.error err)
  | .ok none => pure (.ok {})
  | .ok (some pr) => if pr.deletionTimestamp then handleDeletion pr else call .reconcileRest

/-- The reconcile failed, or asks for another one. -/
def asksRequeue : Outcome → Bool
  | .error _ => true
  | .ok result => result.requeue

/-- What a worker of the controller does with a queued reconcile. -/
def work : Reconciler Unit := do
  call .dequeue
  let outcome ← reconcile
  if asksRequeue outcome then call .enqueue else pure ()

/-! The API server, the webhook and the users -/

structure Open where
  err : Option Str := none
  repo : RepoState := .present
  requeue : Bool := false
  addsFinalizer : Bool := false
deriving DecidableEq, Repr

namespace State

variable (s : State)

def read (o : Open) : Except Str (Option Object) :=
  match o.err with
  | some err => .error err
  | none => .ok (if s.stored then some ⟨s.lifecycle, s.finalizer, s.deletionTimestamp⟩ else none)

def readRepository (o : Open) : Option (Except Str RepoState) :=
  match o.err with
  | some err => some (.error err)
  | none => if o.repo ∈ s.repo.upTo then some (.ok o.repo) else none

/-- The finalizer is removed, and with it an object that is being deleted. -/
def withoutFinalizer : State :=
  { s with finalizer := false, stored := s.stored && !s.deletionTimestamp }

def patchFinalizer (o : Open) : Option Str × State :=
  match o.err with
  | some err => (some err, s)
  | none => (none, s.withoutFinalizer)

/-- A reconcile adds the finalizer to an object that is not being deleted. -/
def withFinalizer : State := { s with finalizer := s.finalizer || (s.stored && !s.deletionTimestamp) }

def rest (o : Open) : Except Str Result × State :=
  let s' := if o.addsFinalizer then s.withFinalizer else s
  match o.err with
  | some err => (.error err, s')
  | none => (.ok { requeue := o.requeue }, s')

def exec (e : Call) (o : Open) : Option (Answer e × State) :=
  match e with
  | .dequeue => if s.queued then some ((), { s with queued := false }) else none
  | .enqueue => some ((), { s with queued := true })
  | .get => some (s.read o, s)
  | .getRepository => (s.readRepository o).map fun answer => (answer, s)
  | .deletePackage | .updateLatestRevisionLabels => some (o.err, s)
  | .patchFinalizer => some (s.patchFinalizer o)
  | .reconcileRest => some (s.rest o)

end State

/-- The owning repository, as the webhook reads it, is gone or being deleted. A read that fails
    counts as a repository that is there. -/
def isOwnerRepoGone (repo : Except Str RepoState) : Bool :=
  match repo with
  | .error _ => false
  | .ok repo => repo ≠ .present

/-- `ValidateDelete`; `referenced` says that other packages depend on this one. -/
def validateDelete (s : State) (referenced : Bool) (repo : Except Str RepoState) : Bool :=
  s.deletionTimestamp || (!referenced && (s.lifecycle ≠ .published || isOwnerRepoGone repo))

inductive Move where
  | deleteRepository
  /-- The finalizer of the repository is removed. -/
  | repositoryGone
  /-- A delete of the object, by a user or by the garbage collector. -/
  | delete (referenced : Bool) (repo : Except Str RepoState)
  | setLifecycle (lifecycle : Lifecycle)
  /-- Another change of the spec, or of the annotation that asks for a render. -/
  | edit
deriving Repr

namespace State

variable (s : State)

/-- A delete that is admitted: without a finalizer the object goes at once. -/
def marked : State :=
  if s.deletionTimestamp then { s with admitted := true }
  else if s.finalizer then { s with deletionTimestamp := true, queued := true, admitted := true }
  else { s with stored := false, queued := true, admitted := true }

def delete (referenced : Bool) (repo : Except Str RepoState) : State :=
  if validateDelete s referenced repo then s.marked else s

/-- The webhook reads the repository as it is or was. -/
def mayRead (repo : Except Str RepoState) : Bool :=
  match repo with
  | .error _ => true
  | .ok repo => repo ∈ s.repo.upTo

def move : Move → Option State
  | .deleteRepository => if s.repo = .present then some { s with repo := .terminating } else none
  | .repositoryGone => if s.repo = .terminating then some { s with repo := .gone } else none
  | .delete referenced repo =>
    if s.stored ∧ s.mayRead repo then some (s.delete referenced repo) else none
  | .setLifecycle lifecycle =>
    if s.stored ∧ lifecycle ≠ s.lifecycle then some { s with lifecycle := lifecycle, queued := true }
    else none
  | .edit => if s.stored then some { s with queued := true } else none

end State

abbrev Event := SystemEvent Move Open

abbrev World := System Call Answer Unit State

def step : World → Event → Option World := System.step State.move State.exec work

/-- A delete has been admitted, the repository is gone, no reconcile is running or queued, and the
    object is still there with the finalizer. -/
def LeftOver (w : World) : Prop :=
  w.state.admitted = true ∧ w.state.repo = .gone ∧ w.idle = true ∧ w.state.queued = false ∧
    w.state.stored = true ∧ w.state.finalizer = true

instance (w : World) : Decidable (LeftOver w) := inferInstanceAs (Decidable (_ ∧ _))

/-! The condition -/

/-- Published package revisions are deleted only after the repository is gone, and none that is
    being deleted becomes published before that. -/
def okMove (s : State) : Move → Prop
  | .delete referenced repo =>
    validateDelete s referenced repo = true → s.lifecycle = .published → s.repo = .gone
  | .setLifecycle lifecycle => s.deletionTimestamp = true → lifecycle = .published → s.repo = .gone
  | .deleteRepository | .repositoryGone | .edit => True

/-- The controller sees the repository as it is. -/
def okCall (s : State) (e : Call) (o : Open) : Prop := e = .getRepository → o.err = none → o.repo = s.repo

instance (s : State) (m : Move) : Decidable (okMove s m) :=
  match m with
  | .delete _ _ => inferInstanceAs (Decidable (_ → _ → _))
  | .setLifecycle _ => inferInstanceAs (Decidable (_ → _ → _))
  | .deleteRepository | .repositoryGone | .edit => isTrue trivial

instance (s : State) (e : Call) (o : Open) : Decidable (okCall s e o) :=
  inferInstanceAs (Decidable (_ → _ → _))

def ok : World → Event → Prop := System.ok okMove okMove okCall

instance (w : World) (ev : Event) : Decidable (ok w ev) :=
  inferInstanceAs (Decidable (System.ok _ _ _ _ _))

def created (lifecycle : Lifecycle) : World :=
  ⟨{ lifecycle := lifecycle, finalizer := false, queued := true }, none⟩

/-! A delete that blocks -/

/-- The repository is being deleted; the package revision is deleted and its reconcile blocks;
    then the repository is gone. -/
def blockedDelete : List Event :=
  [.start, .go {}, .go {}, .go { addsFinalizer := true }, .other .deleteRepository,
   .other (.delete false (.ok .terminating)), .start, .go {}, .go {}, .go { repo := .terminating },
   .other .repositoryGone]

/-- **A finalizer is left behind.** -/
theorem finalizer_left_behind :
    ∃ es w, run step (created .published) es = some w ∧ LeftOver w :=
  ⟨blockedDelete, by decide +kernel⟩

/-! What holds at all times -/

/-- An object that a delete has been admitted for is being deleted, and if it is published its
    repository is gone. -/
structure Sound (s : State) : Prop where
  marked : s.admitted = true → s.stored = true → s.deletionTimestamp = true
  gone : s.deletionTimestamp = true → s.lifecycle = .published → s.repo = .gone

/-- A reconcile is queued for an object that is being deleted. -/
def Awaited (s : State) : Prop :=
  s.deletionTimestamp = true → s.stored = true → s.finalizer = true → s.queued = true

structure Onward (s s' : State) : Prop where
  repo : s.repo = .gone → s'.repo = .gone
  deleting : s.deletionTimestamp = true → s'.deletionTimestamp = true
  finalizer : s.deletionTimestamp = true → s.finalizer = false → s'.finalizer = false
  stored : s.stored = false → s'.stored = false

variable {s s' : State} {m : Move} {e : Call} {o : Open} {r : Answer e}

theorem move_keeps (h : s.move m = some s') :
    Onward s s' ∧ (okMove s m → Sound s → Sound s') ∧ (Awaited s → Awaited s') := by
  unfold Awaited
  cases m with
  | deleteRepository | repositoryGone | setLifecycle | edit =>
    simp only [State.move, Option.ite_none_right_eq_some, Option.some.injEq] at h
    obtain ⟨hguard, rfl⟩ := h
    refine ⟨?_, fun hok ⟨hmarked, hgone⟩ => ?_, fun hs => ?_⟩
    · constructor <;> simp_all
    · constructor <;> simp_all [okMove]
    · simp_all
  | delete referenced repo =>
    simp only [State.move, Option.ite_none_right_eq_some, Option.some.injEq] at h
    obtain ⟨hguard, rfl⟩ := h
    unfold State.delete State.marked okMove
    refine ⟨?_, fun hok ⟨hmarked, hgone⟩ => ?_, fun hs => ?_⟩
    · constructor <;> split_ifs <;> simp_all
    · constructor <;> split_ifs <;> simp_all
    · split_ifs <;> simp_all

theorem move_sound (hok : okMove s m) (h : s.move m = some s') : Sound s → Sound s' :=
  (move_keeps h).2.1 hok

/-! The reconcile among the others -/

abbrev rules := System.rules State.move State.exec okMove okCall

abbrev Safely (P : State → Prop) {α : Type} (p : Reconciler α) (Q : α → State → Prop) : Prop :=
  Triple rules (fun _ _ => True) P p Q

theorem sound_stable : Stable rules Sound := fun _ _ ⟨_, hok, hmove⟩ => move_sound hok hmove

/-- The object has been read as `pr` when it was being deleted. -/
structure Seen (pr : Object) (s : State) : Prop where
  sound : Sound s
  deleting : s.deletionTimestamp = true
  gone : pr.lifecycle = .published → s.repo = .gone
  finalizer : pr.finalizer = false → s.finalizer = false

theorem seen_stable (pr : Object) : Stable rules (Seen pr) := by
  rintro s s' ⟨m, hok, hmove⟩ h
  have honward := (move_keeps hmove).1
  exact ⟨move_sound hok hmove h.sound, honward.deleting h.deleting, fun hp => honward.repo (h.gone hp),
    fun hf => honward.finalizer h.deleting (h.finalizer hf)⟩

/-- No reconcile is needed any more, or one is queued. -/
structure Rests (s : State) : Prop where
  sound : Sound s
  awaited : Awaited s

theorem rests_stable : Stable rules Rests :=
  fun _ _ ⟨_, hok, hmove⟩ h => ⟨move_sound hok hmove h.sound, (move_keeps hmove).2.2 h.awaited⟩

def Ended (outcome : Outcome) (s : State) : Prop := Sound s ∧ (asksRequeue outcome = true ∨ Awaited s)

theorem ended_of_rests {outcome : Outcome} (h : Rests s) : Ended outcome s := ⟨h.sound, .inr h.awaited⟩

theorem asks_triple {outcome : Outcome} (h : asksRequeue outcome = true) :
    Safely Sound (pure outcome) Ended :=
  triple_pure sound_stable fun _ hs => ⟨hs, .inl h⟩

/-- The calls that read, or do something elsewhere. -/
def Call.isOutside : Call → Bool
  | .getRepository | .deletePackage | .updateLatestRevisionLabels | .get => true
  | .dequeue | .enqueue | .patchFinalizer | .reconcileRest => false

theorem exec_outside (he : e.isOutside = true) (h : s.exec e o = some (r, s')) : s' = s := by
  cases e with
  | get | deletePackage | updateLatestRevisionLabels =>
    cases h
    rfl
  | getRepository =>
    obtain ⟨answer, -, hans⟩ := Option.map_eq_some_iff.mp h
    cases hans
    rfl
  | dequeue | enqueue | patchFinalizer | reconcileRest => cases he

theorem outside_triple {P : State → Prop} (hP : Stable rules P) (he : e.isOutside = true) :
    Safely P (call e) fun _ => P := by
  refine triple_perform hP (fun _ => hP) (fun _ _ => trivial) ?_
  rintro s r s' hs ⟨o, -, hexec⟩
  rwa [exec_outside he hexec]

theorem patchFinalizer_triple (pr : Object) :
    Safely (Seen pr) (call .patchFinalizer) fun err s => Sound s ∧ (err = none → Awaited s) := by
  refine triple_perform (seen_stable pr) ?_ (fun _ _ => trivial) ?_
  · rintro err s s' ⟨m, hok, hmove⟩ ⟨hs, hawaited⟩
    exact ⟨move_sound hok hmove hs, fun hnone => (move_keeps hmove).2.2 (hawaited hnone)⟩
  · rintro s err s' hs ⟨o, -, hexec⟩
    simp only [State.exec, State.patchFinalizer] at hexec
    split at hexec
    · cases hexec
      exact ⟨hs.sound, nofun⟩
    · cases hexec
      refine ⟨⟨fun hadm hst => hs.deleting, hs.sound.gone⟩, fun _ _ _ hfin => ?_⟩
      exact nomatch hfin

theorem patchAway_triple (pr : Object) : Safely (Seen pr) (patchAway pr) Ended := by
  unfold patchAway
  split
  · refine (patchFinalizer_triple pr).bind fun
      | .some _ => (asks_triple rfl).pre fun s hs => hs.1
      | none => ?_
    refine (triple_pure rests_stable fun s hs => ended_of_rests hs).pre fun s hs => ?_
    exact ⟨hs.1, hs.2 rfl⟩
  · rename_i hfin
    refine triple_pure (seen_stable pr) fun s hs => ⟨hs.sound, .inr fun _ _ hfin' => ?_⟩
    rw [hs.finalizer (by simpa using hfin)] at hfin'
    cases hfin'

theorem removeFinalizer_triple (pr : Object) (updateLabels : Bool) :
    Safely (Seen pr) (removeFinalizer pr updateLabels) Ended := by
  unfold removeFinalizer
  split
  · exact (outside_triple (seen_stable pr) rfl).bind fun
      | some _ => (asks_triple rfl).pre fun s hs => hs.sound
      | none => patchAway_triple pr
  · exact patchAway_triple pr

theorem readRepository_ok {found : RepoState} (h : s.readRepository o = some (.ok found)) :
    o.err = none ∧ o.repo = found := by
  unfold State.readRepository at h
  split at h
  · cases h
  · rename_i hnone
    split at h
    · cases h
      exact ⟨hnone, rfl⟩
    · cases h

theorem ownerRepoGone_triple {pr : Object} (hpub : pr.lifecycle = .published) :
    Safely (Seen pr) ownerRepoGone fun gone s => gone ≠ .ok false ∧ Seen pr s := by
  have hread : Safely (Seen pr) (call .getRepository) fun repo s =>
      (∀ found, repo = .ok found → found = .gone) ∧ Seen pr s := by
    refine triple_perform (seen_stable pr) ?_ (fun _ _ => trivial) ?_
    · exact fun repo s s' hmove h => ⟨h.1, seen_stable pr s s' hmove h.2⟩
    · rintro s repo s' hs ⟨o, hok, hexec⟩
      have hsame : s' = s := exec_outside (e := .getRepository) rfl hexec
      refine ⟨fun found hfound => ?_, hsame ▸ hs⟩
      obtain ⟨answer, hans, hpair⟩ := Option.map_eq_some_iff.mp hexec
      cases hpair
      subst hfound
      obtain ⟨hnone, rfl⟩ := readRepository_ok hans
      rw [hok rfl hnone, hs.gone hpub]
  refine hread.bind_of fun
    | .error _, _ => triple_pure (seen_stable pr) fun s hs => ⟨nofun, hs⟩
    | .ok found, hrepo => ?_
  refine triple_pure (seen_stable pr) fun s hs => ⟨?_, hs⟩
  rw [hrepo found rfl]
  decide

theorem handleDeletion_triple (pr : Object) : Safely (Seen pr) (handleDeletion pr) Ended := by
  unfold handleDeletion
  split
  · rename_i hpub
    refine (ownerRepoGone_triple hpub).bind_of fun gone hgone => ?_
    match gone, hgone with
    | .error err, _ => exact (asks_triple rfl).pre fun s hs => hs.sound
    | .ok false, hgone => exact absurd rfl hgone
    | .ok true, _ =>
      exact (outside_triple (seen_stable pr) rfl).bind fun _ => removeFinalizer_triple pr false
  · exact (outside_triple (seen_stable pr) rfl).bind fun
      | some _ => (asks_triple rfl).pre fun s hs => hs.sound
      | none => removeFinalizer_triple pr true

/-- What the first read of a reconcile leaves. -/
def AfterGet (answer : Except Str (Option Object)) (s : State) : Prop :=
  match answer with
  | .error _ => Sound s
  | .ok none => Rests s
  | .ok (some pr) => if pr.deletionTimestamp then Seen pr s else Rests s

theorem get_triple : Safely Sound (call .get) AfterGet := by
  refine triple_perform sound_stable ?_ (fun _ _ => trivial) ?_
  · intro answer
    match answer with
    | .error _ => exact sound_stable
    | .ok none => exact rests_stable
    | .ok (some pr) =>
      unfold AfterGet
      dsimp only
      split
      · exact seen_stable pr
      · exact rests_stable
  · rintro s answer s' hs ⟨o, -, hexec⟩
    cases hexec
    unfold State.read
    split
    · exact hs
    · split
      · unfold AfterGet
        dsimp only
        split
        · rename_i hdel
          exact ⟨hs, hdel, hs.gone hdel, fun hfin => hfin⟩
        · rename_i hdel
          exact ⟨hs, fun hdel' => absurd hdel' hdel⟩
      · rename_i hsto
        exact ⟨hs, fun _ hst => absurd hst hsto⟩

theorem rest_triple : Safely Rests (call .reconcileRest) fun _ => Rests := by
  refine triple_perform rests_stable (fun _ => rests_stable) (fun _ _ => trivial) ?_
  rintro s answer s' hs ⟨o, -, hexec⟩
  have hs' : s' = s ∨ s' = s.withFinalizer := by
    simp only [State.exec, State.rest] at hexec
    split at hexec <;> cases hexec <;> split <;> simp
  obtain rfl | rfl := hs'
  · exact hs
  · refine ⟨⟨hs.sound.marked, hs.sound.gone⟩, fun hdel hst hfin => ?_⟩
    refine hs.awaited hdel hst ?_
    have hdel' : s.deletionTimestamp = true := hdel
    simpa [State.withFinalizer, hdel'] using hfin

theorem reconcile_triple : Safely Sound reconcile Ended := by
  unfold reconcile
  refine get_triple.bind fun
    | .error _ => asks_triple rfl
    | .ok none => triple_pure rests_stable fun s hs => ended_of_rests hs
    | .ok (some pr) => ?_
  unfold AfterGet
  dsimp only
  split
  · exact handleDeletion_triple pr
  · exact rest_triple.post fun outcome s hs => ended_of_rests hs

theorem dequeue_triple : Safely Rests (call .dequeue) fun _ => Sound := by
  refine triple_perform rests_stable (fun _ => sound_stable) (fun _ _ => trivial) ?_
  rintro s answer s' hs ⟨o, -, hexec⟩
  simp only [State.exec] at hexec
  split at hexec
  · cases hexec
    exact ⟨hs.sound.marked, hs.sound.gone⟩
  · cases hexec

theorem enqueue_triple : Safely Sound (call .enqueue) fun _ => Rests := by
  refine triple_perform sound_stable (fun _ => rests_stable) (fun _ _ => trivial) ?_
  rintro s answer s' hs ⟨o, -, hexec⟩
  cases hexec
  exact ⟨⟨hs.marked, hs.gone⟩, fun _ _ _ => rfl⟩

theorem work_triple : Safely Rests work fun _ => Rests := by
  refine dequeue_triple.bind fun _ => reconcile_triple.bind fun outcome => ?_
  split
  · exact enqueue_triple.pre fun s hs => hs.1
  · rename_i hasks
    refine (triple_pure rests_stable fun s hs => hs).pre fun s hs => ?_
    exact ⟨hs.1, hs.2.resolve_left hasks⟩

/-! The runs -/

/-- **No delete is left over.** In every run in which published package revisions are deleted
    only after their repository is gone, none that is being deleted becomes published before
    that, and the controller sees the repository as it is. -/
theorem no_delete_left_over {lifecycle : Lifecycle} {es : List Event} {w : World}
    (hok : Along step ok (created lifecycle) es) (hrun : run step (created lifecycle) es = some w) :
    ¬ LeftOver w := by
  have hmoves : ∀ s m s', okMove s m → s.move m = some s' → Rests s → Rests s' :=
    fun s m s' hm hmove hs => rests_stable s s' ⟨m, hm, hmove⟩ hs
  have h₀ : Rests (created lifecycle).state := by
    refine ⟨⟨?_, ?_⟩, ?_⟩ <;> exact nofun
  have hinv := System.run_inv hmoves (fun _ => hmoves) (fun _ s hs => hs) work_triple h₀ hok hrun
  rintro ⟨hadmitted, -, hidle, hqueue, hsto, hfinalizer⟩
  have hrests : Rests w.state := by
    obtain ⟨s, running⟩ := w
    match running with
    | none | some (.ret _) => exact hinv
  have hdeleting := hrests.sound.marked hadmitted hsto
  have hqueued := hrests.awaited hdeleting hsto hfinalizer
  exact Bool.false_ne_true (hqueue.symm.trans hqueued)

/-- The object is proposed for deletion and deleted, and the repository with it. -/
def cleanDelete : List Event :=
  [.start, .go {}, .go {}, .go { addsFinalizer := true }, .other .deleteRepository,
   .other (.setLifecycle .deletionProposed), .other (.delete false (.ok .terminating)), .start, .go {},
   .go {}, .go {}, .go {}, .go {}, .other .repositoryGone]

/-- The run in which everything is deleted in its order meets the condition. -/
theorem no_delete_left_over_clean :
    ∃ w, run step (created .published) cleanDelete = some w ∧ ¬ LeftOver w :=
  exists_reached_of_isSome (by decide +kernel) fun _ hw => no_delete_left_over (by decide +kernel) hw

end Porch.PrController.Deletion
