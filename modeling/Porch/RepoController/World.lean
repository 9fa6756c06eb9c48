import Mathlib.Data.List.Perm.Basic
import Porch.RepoController.Reconcile

/- What the controller of repositories works on: the object in the API server, the clock, and
   the background syncs that are under way. `exec` answers the calls of a reconcile, and
   `move` is what the others do in between: time passes, users edit the spec or delete the
   object, and a background sync comes to its end, writes its status and clears `runOnceAt`.
   What a run leaves open is in the outcome of a call: whether it fails, and whether a write
   that is answered by an error has been made all the same.

     PerformAsyncSync           finish, write, clear
     clearOneTimeSyncFlag       cleared
     updateRepoStatusWithBackoff, on the side of the API server   applyStatus

   The status is applied by one field manager with force, so a status that is applied
   replaces the last one; its times are stored in whole seconds. A change of the spec gives the object a new generation.

   The fields of `History` and those of a sync marked so only record what has happened:

     failures    the failed checks, opens and full syncs, numbered as they happen
     reported    the last failure whose error status has been written
     recovered   how many failures had happened when an operation began that has succeeded
     lastSynced  the spec of the last full sync that has succeeded
     sound       the generations that have been acknowledged with reason
     served      when the full syncs began that have succeeded -/
namespace Porch.RepoController

open Go

inductive Stage where
  | running
  /-- The status is still to be written; the error is that of the sync, with its number. -/
  | finished (failure : Option (Str × Nat))
  /-- `runOnceAt` is still to be cleared. -/
  | clearing
deriving DecidableEq, Repr

structure Sync where
  /-- Its copy of the object. -/
  copy : Repository
  startedAt : Time
  stage : Stage := .running
  /-- Recorded: the time on the status that says that the sync is in progress. -/
  markedAt : Time
  /-- Recorded: a reconcile has read the object since the sync began. -/
  visited : Bool := false
  /-- Recorded: the failures when the sync began. -/
  begun : Nat := 0
deriving DecidableEq, Repr

/-- The sync is not over: its status is still to be written. -/
def Sync.active (s : Sync) : Bool := s.stage ≠ .clearing

structure History where
  failures : Nat := 0
  /-- The failure that the reconcile has met, or zero. -/
  met : Nat := 0
  reported : Nat := 0
  recovered : Nat := 0
  /-- Ready was written while a reported failure had not been recovered from. -/
  falseReady : Bool := false
  specs : List (Nat × RepositorySpec) := []
  lastSynced : Option RepositorySpec := none
  sound : List Nat := [0]
  /-- A generation was acknowledged without a reason. -/
  unsound : Bool := false
  served : List Time := []
  /-- A `runOnceAt` was recorded as observed, or cleared, before a sync had served it. -/
  unserved : Bool := false
deriving DecidableEq, Repr

structure World where
  now : Time := 0
  repo : Repository
  /-- The object has been deleted. -/
  gone : Bool := false
  /-- `coldStartRepos` has the repository. -/
  seen : Bool := false
  syncs : List Sync := []
  history : History := {}
deriving DecidableEq, Repr

/-- A `metav1.Time` as it is stored. -/
def wholeSeconds (t : Time) : Time := t / second * second

/-- The status as the API server keeps it. -/
def ApiStatus.stored (status : ApiStatus) : ApiStatus :=
  { status with
    condition := status.condition.map fun cond =>
      { cond with lastTransitionTime := wholeSeconds cond.lastTransitionTime }
    lastFullSyncTime := status.lastFullSyncTime.map wholeSeconds
    nextFullSyncTime := status.nextFullSyncTime.map wholeSeconds }

/-- The specs differ in `runOnceAt` at most. -/
def RepositorySpec.SameButRunOnceAt (a b : RepositorySpec) : Prop :=
  { a with runOnceAt := none } = { b with runOnceAt := none }

instance (a b : RepositorySpec) : Decidable (a.SameButRunOnceAt b) :=
  inferInstanceAs (Decidable (_ = _))

namespace History

variable (h : History)

/-- A full sync that began at or after this time has succeeded. -/
def Served (t : Time) : Prop := ∃ start ∈ h.served, t ≤ start

instance (t : Time) : Decidable (h.Served t) := inferInstanceAs (Decidable (∃ _ ∈ _, _))

/-- There is a reason to acknowledge the generation: it has been synced, or its spec differs
    from the one that was synced last in `runOnceAt` alone. -/
def Reason (g : Nat) : Prop :=
  g ∈ h.sound ∨ ∃ spec ∈ h.specs.lookup g, ∃ synced ∈ h.lastSynced, spec.SameButRunOnceAt synced

instance (g : Nat) : Decidable (h.Reason g) :=
  inferInstanceAs (Decidable (_ ∨ ∃ _ ∈ _, ∃ _ ∈ _, _))

def Blank : Prop := h = { specs := h.specs }

/-- What a status that is written says; `failure` is the number of the failure that it reports. -/
def write (failure : Nat) (status : ApiStatus) : History :=
  { h with
    reported := if status.condition.any (·.isFalse .error) then max h.reported failure else h.reported
    falseReady := h.falseReady || (status.condition.any (·.status) && decide (h.recovered < h.reported))
    sound := if h.Reason status.observedGeneration then status.observedGeneration :: h.sound else h.sound
    unsound := h.unsound || !decide (h.Reason status.observedGeneration)
    unserved := h.unserved || status.observedRunOnceAt.any fun t => !decide (h.Served t) }

/-- An operation has succeeded that began after so many failures. -/
def recover (begun : Nat) : History := { h with recovered := max h.recovered begun }

def fail : History := { h with failures := h.failures + 1, met := h.failures + 1 }

end History

namespace World

variable (cfg : Config) (w : World)

/-- A status is applied that reports this failure, or none. -/
def applyStatus (failure : Nat) (status : ApiStatus) : World :=
  { w with repo := { w.repo with status := status.stored }, history := w.history.write failure status }

/-- The spec is replaced by another one. -/
abbrev edited (spec : RepositorySpec) : World :=
  { w with
    repo := { w.repo with spec := spec, generation := w.repo.generation + 1 }
    history := { w.history with specs := (w.repo.generation + 1, spec) :: w.history.specs } }

def setSpec (spec : RepositorySpec) : World := if spec = w.repo.spec then w else w.edited spec

/-- Every sync that is not over has been visited by a reconcile, which has met no failure yet. -/
def visit : World :=
  { w with
    syncs := w.syncs.map fun s => { s with visited := true }
    history := { w.history with met := 0 } }

/-- The time on the status in the API server. -/
def lastTransition : Time := (w.repo.status.condition.map (·.lastTransitionTime)).getD w.now

def launch (repo : Repository) : World :=
  let sync : Sync :=
    { copy := repo, startedAt := w.now, markedAt := w.lastTransition, begun := w.history.failures }
  { w with syncs := sync :: w.syncs }

end World

structure Open where
  err : Option Str := none
  /-- A write that is answered by an error has been made all the same. -/
  lost : Bool := false
  yes : Bool := true
deriving DecidableEq, Repr

namespace World

variable (w : World) (o : Open)

/-- A write, which is made unless it fails. -/
def attempt (written : World) : World := if o.err = none ∨ o.lost = true then written else w

def notFound : Str := "not found"

def answerGet : Except Str (Option Repository) × World :=
  match o.err with
  | some err => (.error err, w)
  | none => if w.gone then (.ok none, w) else (.ok (some w.repo), w.visit)

def patchFinalizer : Except Str Repository × World :=
  if w.gone then (.error notFound, w)
  else
    let repo := { w.repo with finalizer := true }
    match o.err with
    | some err => (.error err, w.attempt o { w with repo := repo })
    | none => (.ok repo, { w with repo := repo })

def patchStatus (status : ApiStatus) : Option Str × World :=
  if w.gone then (some notFound, w) else (o.err, w.attempt o (w.applyStatus w.history.met status))

def check (succeeded : World) : Option Str × World :=
  match o.err with
  | some err => (some err, { w with history := w.history.fail })
  | none => (none, succeeded)

/-- The answer to a call, and the state after it. -/
def exec : (e : Call) → Answer e × World
  | .get => w.answerGet o
  | .patchFinalizer => w.patchFinalizer o
  | .listRepositories => (o.err.map fun err => (err, o.yes), w)
  | .closeRepository => (o.err, w)
  | .removeFinalizer => (o.err, w.attempt o { w with gone := true })
  | .now => (w.now, w)
  | .decisionInputs _ => ((w.now, w.seen), w)
  | .storeColdStart => ((), { w with seen := true })
  | .patchStatus status => w.patchStatus o status
  | .checkRepositoryConnectivity _ =>
    w.check o { w with history := w.history.recover w.history.failures }
  | .openRepository _ => w.check o w
  | .takeSlot => (o.yes, w)
  | .giveSlot => ((), w)
  | .goSync repo => ((), w.launch repo)

/-! The others -/

variable (cfg : Config)

def succeed (i : Nat) (s : Sync) (outcome : Nat × Str) : World :=
  { w with
    seen := true
    syncs := w.syncs.set i
      { s with copy := handleSync cfg w.now (.ok outcome) s.copy, stage := .finished none }
    history :=
      { w.history.recover s.begun with
        lastSynced := some s.copy.spec
        sound := s.copy.generation :: w.history.sound
        served := s.startedAt :: w.history.served } }

def failSync (i : Nat) (s : Sync) (err : Str) : World :=
  { w with
    syncs := w.syncs.set i { s with stage := .finished (some (err, w.history.failures + 1)) }
    history := { w.history with failures := w.history.failures + 1 } }

/-- The status that a sync writes at its end. -/
def endStatus (s : Sync) (failure : Option (Str × Nat)) : ApiStatus :=
  statusPatch w.now s.copy (if failure = none then .ready else .error) (failure.map (·.1))

/-- The status is written, with the number of the failure that it reports. -/
def writeEnd (s : Sync) (failure : Option (Str × Nat)) : World :=
  if w.gone then w else w.attempt o (w.applyStatus ((failure.map (·.2)).getD 0) (w.endStatus s failure))

/-- The sync goes on to clear `runOnceAt`. -/
def goesOn (s : Sync) (failure : Option (Str × Nat)) : Bool :=
  w.gone = false ∧ o.err = none ∧ failure = none ∧ s.copy.spec.runOnceAt ≠ none

/-- The syncs after one has written its status. -/
def syncsAfterWrite (i : Nat) (s : Sync) (failure : Option (Str × Nat)) : List Sync :=
  if w.goesOn o s failure then w.syncs.set i { s with stage := .clearing } else w.syncs.eraseIdx i

/-- `runOnceAt` is cleared, whatever it is. -/
def cleared : World :=
  let w' := w.setSpec { w.repo.spec with runOnceAt := none }
  let unserved := w.repo.spec.runOnceAt.any fun t => !decide (w.history.Served t)
  { w' with history := { w'.history with unserved := w.history.unserved || unserved } }

def clearFlag : World := if w.gone then w else w.attempt o w.cleared

end World

inductive Move where
  | tick (d : Nat)
  | edit (spec : RepositorySpec)
  | delete
  /-- The sync at this place in the list ends, writes its status, clears `runOnceAt`. -/
  | finish (i : Nat) (outcome : SyncOutcome)
  | write (i : Nat) (o : Open)
  | clear (i : Nat) (o : Open)
deriving Repr

namespace World

variable (cfg : Config) (w : World)

def move : Move → Option World
  | .tick d => some { w with now := w.now + d }
  | .edit spec => if w.gone then none else some (w.setSpec spec)
  | .delete =>
    -- Without a finalizer the object goes at once.
    if w.gone then none
    else if w.repo.finalizer then some { w with repo := { w.repo with deletionTimestamp := true } }
    else some { w with gone := true }
  | .finish i outcome =>
    (w.syncs[i]?).bind fun s =>
      match s.stage, outcome with
      | .running, .ok done => some (w.succeed cfg i s done)
      | .running, .error err => some (w.failSync i s err)
      | .finished _, _ | .clearing, _ => none
  | .write i o =>
    (w.syncs[i]?).bind fun s =>
      match s.stage with
      | .finished failure =>
        some { w.writeEnd o s failure with syncs := w.syncsAfterWrite o i s failure }
      | .running | .clearing => none
  | .clear i o =>
    (w.syncs[i]?).bind fun s =>
      match s.stage with
      | .clearing => some { w.clearFlag o with syncs := w.syncs.eraseIdx i }
      | .running | .finished _ => none

inductive Moved : Move → World → Prop
  | tick (d : Nat) : Moved (.tick d) { w with now := w.now + d }
  | edit {spec : RepositorySpec} {w' : World} (hw' : w' = w ∧ spec = w.repo.spec ∨ w' = w.edited spec) :
      Moved (.edit spec) w'
  | deleteBegins : Moved .delete { w with repo := { w.repo with deletionTimestamp := true } }
  | deleted : Moved .delete { w with gone := true }
  | succeeds {i : Nat} {s : Sync} (done : Nat × Str) (hs : w.syncs[i]? = some s)
      (hstage : s.stage = .running) : Moved (.finish i (.ok done)) (w.succeed cfg i s done)
  | fails {i : Nat} {s : Sync} (err : Str) (hs : w.syncs[i]? = some s)
      (hstage : s.stage = .running) : Moved (.finish i (.error err)) (w.failSync i s err)
  | writes {i : Nat} {s : Sync} {o : Open} {failure : Option (Str × Nat)} {w₁ : World} {syncs : List Sync}
      (hs : w.syncs[i]? = some s) (hstage : s.stage = .finished failure)
      (hw₁ : w₁ = w ∨ w₁ = w.applyStatus ((failure.map (·.2)).getD 0) (w.endStatus s failure))
      (hsyncs : syncs = w.syncs.set i { s with stage := .clearing } ∧ failure = none ∨
        syncs = w.syncs.eraseIdx i) : Moved (.write i o) { w₁ with syncs := syncs }
  | clears {i : Nat} {s : Sync} {o : Open} {w₁ : World} {unserved : Bool}
      (hs : w.syncs[i]? = some s) (hstage : s.stage = .clearing)
      (hw₁ : w₁ = w ∨ w₁ = w.edited { w.repo.spec with runOnceAt := none })
      (hunserved : unserved = (w.history.unserved || w.repo.spec.runOnceAt.any fun t =>
        !decide (w.history.Served t)) ∨ unserved = w.history.unserved) :
      Moved (.clear i o)
        { w₁ with syncs := w.syncs.eraseIdx i, history := { w₁.history with unserved := unserved } }

variable {cfg w} {m : Move} {w' : World}

theorem setSpec_cases (spec : RepositorySpec) :
    w.setSpec spec = w ∧ spec = w.repo.spec ∨ w.setSpec spec = w.edited spec := by
  unfold setSpec
  split
  · next heq => exact .inl ⟨rfl, heq⟩
  · exact .inr rfl

theorem move_cases (h : w.move cfg m = some w') : Moved cfg w m w' := by
  cases m with
  | tick d =>
    cases h
    exact .tick d
  | edit spec =>
    obtain ⟨-, heq⟩ := Option.ite_none_left_eq_some.mp h
    cases heq
    exact .edit (setSpec_cases _)
  | delete =>
    obtain ⟨-, heq⟩ := Option.ite_none_left_eq_some.mp h
    split at heq <;> cases heq
    · exact .deleteBegins
    · exact .deleted
  | finish i outcome =>
    obtain ⟨s, hs, heq⟩ := Option.bind_eq_some_iff.mp h
    split at heq
    · next done hstage =>
      cases heq
      exact .succeeds done hs hstage
    · next err hstage =>
      cases heq
      exact .fails err hs hstage
    · cases heq
    · cases heq
  | write i o =>
    obtain ⟨s, hs, heq⟩ := Option.bind_eq_some_iff.mp h
    split at heq
    · next failure hstage =>
      cases heq
      refine .writes hs hstage ?_ ?_
      · unfold writeEnd attempt
        split_ifs <;> simp
      · simp only [syncsAfterWrite, goesOn, decide_eq_true_eq]
        split
        · next hgoes => exact .inl ⟨rfl, hgoes.2.2.1⟩
        · exact .inr rfl
    · cases heq
    · cases heq
  | clear i o =>
    obtain ⟨s, hs, heq⟩ := Option.bind_eq_some_iff.mp h
    split at heq
    · next hstage =>
      cases heq
      unfold clearFlag attempt
      split_ifs
      · exact .clears hs hstage (.inl rfl) (.inr rfl)
      · exact (Moved.clears hs hstage ((setSpec_cases _).imp_left And.left) (.inl rfl) :)
      · exact .clears hs hstage (.inl rfl) (.inr rfl)
    · cases heq
    · cases heq

/-! What the calls do -/

theorem get_cases (o : Open) :
    w.exec o .get = (.ok (some w.repo), w.visit) ∨ (∃ err, w.exec o .get = (.error err, w)) ∨
      w.exec o .get = (.ok none, w) := by
  simp only [exec, answerGet]
  cases o.err with
  | some err => exact .inr (.inl ⟨err, rfl⟩)
  | none =>
    cases w.gone with
    | true => exact .inr (.inr rfl)
    | false => exact .inl rfl

theorem patchFinalizer_read {o : Open} {read : Repository}
    (h : (w.exec o .patchFinalizer).1 = .ok read) : read = { w.repo with finalizer := true } := by
  simp only [exec, patchFinalizer] at h
  split at h
  · cases h
  · split at h <;> cases h
    rfl

inductive Executed (w : World) (o : Open) : Call → World → Prop
  | same (e : Call) : Executed w o e w
  | visits : Executed w o .get w.visit
  | adds : Executed w o .patchFinalizer { w with repo := { w.repo with finalizer := true } }
  | removes : Executed w o .removeFinalizer { w with gone := true }
  | stores : Executed w o .storeColdStart { w with seen := true }
  | writes (status : ApiStatus) :
      Executed w o (.patchStatus status) (w.applyStatus w.history.met status)
  | recovers (repo : Repository) : Executed w o (.checkRepositoryConnectivity repo)
      { w with history := w.history.recover w.history.failures }
  | checkFails (repo : Repository) (herr : o.err ≠ none) :
      Executed w o (.checkRepositoryConnectivity repo) { w with history := w.history.fail }
  | openFails (repo : Repository) (herr : o.err ≠ none) :
      Executed w o (.openRepository repo) { w with history := w.history.fail }
  | launches (repo : Repository) : Executed w o (.goSync repo) (w.launch repo)

theorem exec_cases {o : Open} {e : Call} (h : (w.exec o e).2 = w') : Executed w o e w' := by
  subst h
  cases e with
  | get =>
    obtain hread | ⟨err, hread⟩ | hread := w.get_cases o <;> rw [hread]
    exacts [.visits, .same _, .same _]
  | patchFinalizer =>
    simp only [exec, patchFinalizer, attempt]
    split
    · exact .same _
    · split
      · split
        exacts [.adds, .same _]
      · exact .adds
  | removeFinalizer =>
    simp only [exec, attempt]
    split
    exacts [.removes, .same _]
  | patchStatus status =>
    simp only [exec, patchStatus, attempt]
    split_ifs
    exacts [.same _, .writes status, .same _]
  | checkRepositoryConnectivity repo =>
    simp only [exec, check]
    split
    · next err herr => exact .checkFails repo (by simp [herr])
    · exact .recovers repo
  | openRepository repo =>
    simp only [exec, check]
    split
    · next err herr => exact .openFails repo (by simp [herr])
    · exact .same _
  | storeColdStart => exact .stores
  | goSync repo => exact .launches repo
  | _ => exact .same _

end World

/-! The controller among the others -/

abbrev Event := Lts.SystemEvent Move Open

abbrev Controller := Lts.System Call Answer Outcome World

def answer (w : World) (e : Call) (o : Open) : Option (Answer e × World) := some (w.exec o e)

section Rules

open Lts Lts.Prog

variable {cfg : Config} {okBusy : World → Move → Prop} {okCall : World → Call → Open → Prop}
  {safe : World → Prop} {P I : World → Prop} {J H : Repository → World → Prop}

/-- The rules of a reconcile among the others, who keep to `okBusy`. -/
abbrev rulesOf (cfg : Config) (okBusy : World → Move → Prop) (okCall : World → Call → Open → Prop) :
    Rules Call Answer World :=
  System.rules (World.move cfg) answer okBusy okCall

theorem triple_call {e : Call} {M : Answer e → World → Prop} (hP : Stable (rulesOf cfg okBusy okCall) P)
    (hM : ∀ r, Stable (rulesOf cfg okBusy okCall) (M r)) (hsafe : ∀ w, P w → safe w)
    (h : ∀ w o, P w → okCall w e o → M (w.exec o e).1 (w.exec o e).2) :
    Triple (rulesOf cfg okBusy okCall) (fun w _ => safe w) P (call e) M := by
  refine triple_perform hP hM hsafe ?_
  rintro w r w' hw ⟨o, hcall, hexec⟩
  have heq : w.exec o e = (r, w') := Option.some.inj hexec
  have hnext := h w o hw hcall
  rwa [heq] at hnext

theorem triple_uses {α : Type} {p : Reconciler α} {C : Call → Prop}
    (hp : Uses C (fun _ _ => True) (fun _ => True) p) (hP : Stable (rulesOf cfg okBusy okCall) P)
    (hsafe : ∀ w, P w → safe w) (h : ∀ w e o, C e → P w → okCall w e o → P (w.exec o e).2) :
    Triple (rulesOf cfg okBusy okCall) (fun w _ => safe w) P p fun _ => P := by
  refine (hp.triple hP (fun w _ _ => hsafe w) ?_).post fun _ _ h => h.2
  rintro w e r w' he hw ⟨o, hcall, hexec⟩
  have heq : w.exec o e = (r, w') := Option.some.inj hexec
  have hnext := h w e o he hw hcall
  rw [heq] at hnext
  exact ⟨trivial, hnext⟩

theorem triple_get (hI : Stable (rulesOf cfg okBusy okCall) I)
    (hJ : ∀ repo, Stable (rulesOf cfg okBusy okCall) (J repo)) (hsafe : ∀ w, I w → safe w)
    (h : ∀ w o, I w → okCall w .get o → J w.repo w.visit) :
    Triple (rulesOf cfg okBusy okCall) (fun w _ => safe w) I (call .get) (AfterGet I J) := by
  refine triple_call hI (afterGet_stable hI hJ) hsafe fun w o hw hcall => ?_
  obtain hread | ⟨err, hread⟩ | hread := w.get_cases o <;> rw [hread]
  exacts [h w o hw hcall, hw, hw]

theorem triple_patchFinalizer {repo : Repository} (hJ : Stable (rulesOf cfg okBusy okCall) (J repo))
    (hI : Stable (rulesOf cfg okBusy okCall) I) (hH : ∀ repo, Stable (rulesOf cfg okBusy okCall) (H repo))
    (hsafe : ∀ w, J repo w → safe w) (h : ∀ w o, J repo w →
      I (w.exec o .patchFinalizer).2 ∧ H { w.repo with finalizer := true } (w.exec o .patchFinalizer).2) :
    Triple (rulesOf cfg okBusy okCall) (fun w _ => safe w) (J repo) (call .patchFinalizer)
      (AfterFinalizer I H) := by
  refine triple_call hJ (afterFinalizer_stable hI hH) hsafe fun w o hw _ => ?_
  cases hread : (w.exec o .patchFinalizer).1 with
  | error err => exact (h w o hw).1
  | ok read =>
    rw [World.patchFinalizer_read hread]
    exact (h w o hw).2

end Rules

/-- Reconciles of the repository one after another, its background syncs, and the others. -/
def step (cfg : Config) : Controller → Event → Option Controller :=
  Lts.System.step (World.move cfg) answer (reconcile cfg)

/-- The controller has started; no background sync is under way. -/
def started (w : World) : Controller := ⟨w, none⟩

/-! Runs from a repository that has just been created -/

def sampleConfig : Config :=
  { healthCheckFrequency := 5 * minute, fullSyncFrequency := 60 * minute,
    syncStaleTimeout := 20 * minute, cron := fun _ => none }

/-- A repository that has just been created. -/
def World.new (spec : RepositorySpec) : World :=
  { repo := { generation := 1, spec := spec }, history := { specs := [(1, spec)] } }

def created : World := .new { fields := "git" }

/-- A reconcile with so many calls, all of which work. -/
def reconcileOf (calls : Nat) : List Event := .start :: List.replicate calls (.go {})

def wait (seconds : Nat) : Event := .other (.tick (seconds * 1000000000))

/-- The repository is synced, and its status is written at the end of the sync. -/
def syncEnds : List Event := [.other (.finish 0 (.ok (3, "a1"))), .other (.write 0 {})]

/-! Lists with one element taken out -/

section List

variable {α : Type} {l : List α} {i : Nat} {a b : α}

theorem mem_set_iff (h : l[i]? = some a) {c : α} : b ∈ l.set i c ↔ b = c ∨ b ∈ l.eraseIdx i := by
  obtain ⟨hi, -⟩ := List.getElem?_eq_some_iff.mp h
  rw [(List.set_perm_cons_eraseIdx hi c).mem_iff, List.mem_cons]

theorem countP_of_getElem? (p : α → Bool) (h : l[i]? = some a) :
    l.countP p = (l.eraseIdx i).countP p + if p a then 1 else 0 := by
  obtain ⟨hi, rfl⟩ := List.getElem?_eq_some_iff.mp h
  rw [← (List.getElem_cons_eraseIdx_perm hi).countP_eq, List.countP_cons]

theorem countP_set (p : α → Bool) (h : l[i]? = some a) {c : α} :
    (l.set i c).countP p = (l.eraseIdx i).countP p + if p c then 1 else 0 := by
  obtain ⟨hi, -⟩ := List.getElem?_eq_some_iff.mp h
  rw [(List.set_perm_cons_eraseIdx hi c).countP_eq, List.countP_cons]

/-- The elements of a list after one has been replaced or taken out. -/
theorem mem_of_written {l' : List α} {p : Prop} (hl' : l' = l.set i b ∧ p ∨ l' = l.eraseIdx i)
    (h : l[i]? = some a) {c : α} (hc : c ∈ l') : c = b ∧ p ∨ c ∈ l := by
  obtain ⟨rfl, hp⟩ | rfl := hl'
  · exact ((mem_set_iff h).mp hc).imp (⟨·, hp⟩) List.mem_of_mem_eraseIdx
  · exact .inr (List.mem_of_mem_eraseIdx hc)

end List

end Porch.RepoController
