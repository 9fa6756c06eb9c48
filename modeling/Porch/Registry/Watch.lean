import Porch.Lts.Run
import Porch.Registry.FieldSelector

/- Watches on package revisions: `pkg/registry/porch/watch.go`, `packagecommon.go` and
   `pkg/engine/watchermanager.go`.

     createGenericWatch                     WatchRequest, WatchEvent.watch
     watcher                                Watcher, Phase
     listAndWatchInner                      World.advance, World.tick, World.finish, World.listFails
     sendWatchEvent, sendBookmark           Watcher.send
     OnPackageRevisionChange, the wrappers  World.callback, passes
     WatchPackageRevisions                  insertWatcher
     NotifyPackageRevisionChange            Notifier, World.notifierStep
     listPackageRevisions                   listed

   A watch is a goroutine with a channel of 64 events. It registers with the manager, lists,
   sends what has been notified meanwhile in rounds, and then lets the notifications through.
   The manager's mutex is held from the start of a notification to its end, and the mutex of a
   watch while an event is sent from the callback, while the rest of the backlog is sent and
   while a bookmark is sent; shorter critical sections are single steps. A client may stop
   reading and may cancel at any time.

   `seen` records what has reached the callback. Objects are extracted from package revisions
   without errors, as both caches do. -/
namespace Porch.Registry.Watch

open Go

/-! Objects and events -/

def objectId (r : Revision) : Str × Str := (r.key.pkgKey.repoKey.namesp, r.key.k8sName)

inductive Event where
  | added (obj : Revision)
  | modified (obj : Revision)
  | deleted (obj : Revision)
  | bookmark
deriving DecidableEq, Repr

def Event.obj : Event → Option Revision
  | added obj | modified obj | deleted obj => some obj
  | bookmark => none

def Event.id (e : Event) : Option (Str × Str) := e.obj.map objectId

def Event.apply (revisions : List Revision) : Event → List Revision
  | added obj | modified obj => obj :: revisions.filter fun r => objectId r ≠ objectId obj
  | deleted obj => revisions.filter fun r => objectId r ≠ objectId obj
  | bookmark => revisions

/-- What a client makes of the events that it has got. -/
def replay (events : List Event) : List Revision := events.foldl Event.apply []

/-! Requests -/

/-- The namespace of a namespaced request is also that of its filter. -/
def Scoped (ns : Str) (filter : ListPackageRevisionFilter) : Prop :=
  ns = [] ∨ filter.key.pkgKey.repoKey.namesp = ns

structure WatchRequest where
  ns : Str
  filter : ListPackageRevisionFilter
  allowWatchBookmarks : Bool := false
  inScope : Scoped ns filter

theorem scoped_of_parse {rules : ApiUtil.NameRules} {label : Option K8s.Selector}
    {fieldSelector : Option (List FieldRequirement)} {ns : Str} {f : ListPackageRevisionFilter}
    (h : parsePackageRevisionFieldSelector rules label fieldSelector ns = .ok f) : Scoped ns f := by
  unfold parsePackageRevisionFieldSelector at h
  split at h
  · cases h
    exact .inr rfl
  · obtain ⟨f', _, hf⟩ := bind_eq_ok.mp h
    obtain ⟨_, rfl⟩ := okUnless_eq_ok.mp hf
    by_cases hns : ns = []
    · exact .inl hns
    · simp only [hns, if_false]
      exact .inr rfl

/-! The state -/

inductive Phase where
  | registering
  | listing
  /-- What is left to be sent of the list. -/
  | sendingList (rest : List Event)
  | flushing
  /-- What is left to be sent of a round. -/
  | sendingChunk (rest : List Event)
  | beforeHandover
  /-- What is left to be sent of the backlog; the mutex is held. -/
  | handover (rest : List Event)
  | streaming
  /-- A periodic bookmark; the mutex is held. -/
  | sendingBookmark
  | ended
deriving DecidableEq, Repr

/-- `watcher`, its channel and its client. -/
structure Watcher where
  request : WatchRequest
  phase : Phase := .registering
  /-- The callback sends; otherwise it adds to the backlog. -/
  streams : Bool := false
  backlog : List Event := []
  cancelled : Bool := false
  done : Bool := false
  resultChan : List Event := []
  received : List Event := []
  reading : Bool := true
  seen : List Event := []

inductive Stage where
  | check
  /-- Before the mutex of the watch. -/
  | lock
  /-- In the callback, with the mutex. -/
  | send
deriving DecidableEq, Repr

/-- A notification, at a slot of the manager. -/
structure Notifier where
  event : Event
  slot : Nat
  stage : Stage
deriving DecidableEq, Repr

structure World where
  /-- The package revisions. -/
  store : List Revision := []
  /-- Changes that have not been notified. -/
  queue : List Event := []
  watchers : Nat → Option Watcher := fun _ => none
  /-- The slots of the manager. -/
  slots : List (Option Nat) := []
  notifier : Option Notifier := none

inductive WatchEvent where
  | change (e : Event)
  | notify
  | notifierStep
  | watch (i : Nat) (request : WatchRequest)
  | advance (i : Nat)
  | tick (i : Nat)
  | finish (i : Nat)
  | listFails (i : Nat)
  | read (i : Nat)
  | stopReading (i : Nat)
  | stop (i : Nat)

/-! The manager -/

/-- The loop of `WatchPackageRevisions`: the new watcher takes the first slot that is free or whose
    watcher is finished, and the other finished ones are removed. -/
def insertFrom (finished : Nat → Bool) (new : Nat) : Bool → List (Option Nat) → List (Option Nat)
  | inserted, [] => if inserted then [] else [some new]
  | inserted, none :: slots =>
    if inserted then none :: insertFrom finished new true slots
    else some new :: insertFrom finished new true slots
  | inserted, some i :: slots =>
    if finished i then
      if inserted then none :: insertFrom finished new true slots
      else some new :: insertFrom finished new true slots
    else some i :: insertFrom finished new inserted slots

def insertWatcher (finished : Nat → Bool) (new : Nat) (slots : List (Option Nat)) : List (Option Nat) :=
  insertFrom finished new false slots

/-! Steps -/

/-- The capacity of `resultChan`. -/
def capacity : Nat := 64

namespace Watcher

def send (w : Watcher) (e : Event) (phase : Phase) : Option Watcher :=
  if w.resultChan.length < capacity then some { w with resultChan := w.resultChan ++ [e], phase := phase }
  else none

def holdsMutex (w : Watcher) : Bool :=
  match w.phase with
  | .handover _ | .sendingBookmark => true
  | _ => false

end Watcher

namespace World

def put (s : World) (i : Nat) (w : Watcher) : World :=
  { s with watchers := Function.update s.watchers i (some w) }

/-- The watcher of the slot where the notifier is. -/
def notified (s : World) (n : Notifier) : Option Nat := s.slots[n.slot]?.join

/-- The notifier is in the callback of the watch. -/
def inCallback (s : World) (i : Nat) : Bool :=
  s.notifier.any fun n => n.stage = .send && s.notified n = some i

def mutexFree (s : World) (i : Nat) (w : Watcher) : Bool := !w.holdsMutex && !s.inCallback i

def finished (s : World) (i : Nat) : Bool := (s.watchers i).all (·.cancelled)

section Step

-- which repositories are v1alpha2-managed, by namespace and name
variable (managed : Str × Str → Bool)

def repoOf (r : Revision) : Str × Str := (r.key.pkgKey.repoKey.namesp, r.key.pkgKey.repoKey.name)

/-- The wrappers around the callback let the event through. -/
def passes (ns : Str) (e : Event) : Bool :=
  e.obj.all fun r => !managed (repoOf r) && (ns = [] || r.key.pkgKey.repoKey.namesp = ns)

/-- `listPackageRevisions`, whose look-up of repositories goes by name. -/
def listed (filter : ListPackageRevisionFilter) (store : List Revision) : List Revision :=
  let revisions := store.filter filter.matches
  revisions.filter fun r =>
    !((revisions.find? fun q => (repoOf q).2 = (repoOf r).2).any fun q => managed (repoOf q))

def advance (s : World) (i : Nat) (w : Watcher) : Option World :=
  match w.phase with
  | .registering =>
    if s.notifier.isNone then
      some ({ s with slots := insertWatcher s.finished i s.slots }.put i { w with phase := .listing })
    else none
  | .listing =>
    some (s.put i { w with phase := .sendingList ((listed managed w.request.filter s.store).map .added) })
  | .sendingList [] => some (s.put i { w with phase := .flushing })
  | .sendingList (e :: rest) => (w.send e (.sendingList rest)).map (s.put i)
  | .flushing =>
    if s.mutexFree i w then
      if w.backlog = [] then some (s.put i { w with phase := .beforeHandover })
      else some (s.put i { w with backlog := [], phase := .sendingChunk w.backlog })
    else none
  | .sendingChunk [] => some (s.put i { w with phase := .flushing })
  | .sendingChunk (e :: rest) => (w.send e (.sendingChunk rest)).map (s.put i)
  | .beforeHandover =>
    if s.mutexFree i w then
      let marks := if w.request.allowWatchBookmarks then [.bookmark] else []
      some (s.put i { w with backlog := [], phase := .handover (w.backlog ++ marks) })
    else none
  | .handover [] => some (s.put i { w with streams := true, phase := .streaming })
  | .handover (e :: rest) => (w.send e (.handover rest)).map (s.put i)
  | .sendingBookmark => (w.send .bookmark .streaming).map (s.put i)
  | .streaming | .ended => none

def tick (s : World) (i : Nat) (w : Watcher) : Option World :=
  if w.phase = .streaming ∧ w.request.allowWatchBookmarks ∧ s.mutexFree i w then
    some (s.put i { w with phase := .sendingBookmark })
  else none

/-- The loop notices that the context is done. -/
def finish (s : World) (i : Nat) (w : Watcher) : Option World :=
  if w.phase = .streaming ∧ w.cancelled ∧ s.mutexFree i w then
    some (s.put i { w with done := true, phase := .ended })
  else none

/-- The list fails, and with it the watch. -/
def listFails (s : World) (i : Nat) (w : Watcher) : Option World :=
  if w.phase = .listing ∧ s.mutexFree i w then some (s.put i { w with done := true, cancelled := true, phase := .ended })
  else none

/-- The notifier goes on to the next slot. -/
def next (s : World) (n : Notifier) : World := { s with notifier := some { n with slot := n.slot + 1, stage := .check } }

def clearSlot (s : World) (n : Notifier) : World := { s with slots := s.slots.set n.slot none }

/-- The callback of a watch whose mutex the notifier has got. -/
def callback (s : World) (n : Notifier) (i : Nat) (w : Watcher) : World :=
  if w.done then (s.clearSlot n).next n
  else if w.streams then { s with notifier := some { n with stage := .send } }
  else (s.put i { w with backlog := w.backlog ++ [n.event], seen := w.seen ++ [n.event] }).next n

def notifyWatcher (s : World) (n : Notifier) (i : Nat) (w : Watcher) : Option World :=
  match n.stage with
  | .check =>
    if w.cancelled then some ((s.clearSlot n).next n)
    else if passes managed w.request.ns n.event then some { s with notifier := some { n with stage := .lock } }
    else some (s.next n)
  | .lock => if s.mutexFree i w then some (s.callback n i w) else none
  | .send => (w.send n.event w.phase).map fun w' => (s.put i { w' with seen := w'.seen ++ [n.event] }).next n

/-- One step of `NotifyPackageRevisionChange`. -/
def notifierStep (s : World) : Option World :=
  s.notifier.bind fun n =>
    match s.slots[n.slot]? with
    | none => some { s with notifier := none }
    | some none => some (s.next n)
    | some (some i) => (s.watchers i).bind (s.notifyWatcher managed n i)

def step (s : World) : WatchEvent → Option World
  | .change .bookmark => none
  | .change e => some { s with store := e.apply s.store, queue := s.queue ++ [e] }
  | .notify =>
    match s.notifier, s.queue with
    | none, e :: queue => some { s with queue := queue, notifier := some ⟨e, 0, .check⟩ }
    | _, _ => none
  | .notifierStep => s.notifierStep managed
  | .watch i request => if (s.watchers i).isNone then some (s.put i { request := request }) else none
  | .advance i => (s.watchers i).bind (s.advance managed i)
  | .tick i => (s.watchers i).bind (s.tick i)
  | .finish i => (s.watchers i).bind (s.finish i)
  | .listFails i => (s.watchers i).bind (s.listFails i)
  | .read i =>
    (s.watchers i).bind fun w =>
      match w.reading, w.resultChan with
      | true, e :: rest => some (s.put i { w with resultChan := rest, received := w.received ++ [e] })
      | _, _ => none
  | .stopReading i => (s.watchers i).map fun w => s.put i { w with reading := false }
  | .stop i => (s.watchers i).map fun w => s.put i { w with cancelled := true }

end Step

end World

/-! What the steps do -/

section Steps

variable {managed : Str × Str → Bool} {s s' : World} {i j : Nat} {w w' : Watcher} {n : Notifier}

@[simp] theorem inCallback_next (s : World) (n : Notifier) (j : Nat) : (s.next n).inCallback j = false := by
  simp [World.inCallback, World.next]

theorem mutexFree_iff : s.mutexFree i w = true ↔ w.holdsMutex = false ∧ s.inCallback i = false := by
  simp [World.mutexFree]

theorem send_map_eq_some {e : Event} {phase : Phase} {f : Watcher → World}
    (h : (w.send e phase).map f = some s') : w.resultChan.length < capacity ∧
      s' = f { w with resultChan := w.resultChan ++ [e], phase := phase } := by
  unfold Watcher.send at h
  split at h
  · next hroom => exact ⟨hroom, (Option.some.inj h).symm⟩
  · cases h

theorem send_of_room {e : Event} {phase : Phase} (h : w.resultChan.length < capacity) :
    w.send e phase = some { w with resultChan := w.resultChan ++ [e], phase := phase } := if_pos h

theorem slots_of_notified (h : s.notified n = some i) : s.slots[n.slot]? = some (some i) := by
  unfold World.notified at h
  cases hget : s.slots[n.slot]? with
  | none => simp [hget] at h
  | some o => simp_all

/-- What a step does; the goroutine and the notifier have steps of their own. -/
inductive Stepped (managed : Str × Str → Bool) (s : World) : WatchEvent → World → Prop
  | change (e : Event) :
      Stepped managed s (.change e) { s with store := e.apply s.store, queue := s.queue ++ [e] }
  | notify {e : Event} {queue : List Event} (hn : s.notifier = none) (hqueue : s.queue = e :: queue) :
      Stepped managed s .notify { s with queue := queue, notifier := some ⟨e, 0, .check⟩ }
  | notifierStep {s' : World} (h : s.notifierStep managed = some s') : Stepped managed s .notifierStep s'
  | watch {i : Nat} (request : WatchRequest) (hnew : s.watchers i = none) :
      Stepped managed s (.watch i request) (s.put i { request := request })
  | advance {i : Nat} {w : Watcher} {s' : World} (hw : s.watchers i = some w)
      (h : s.advance managed i w = some s') : Stepped managed s (.advance i) s'
  | tick {i : Nat} {w : Watcher} (hw : s.watchers i = some w) (hphase : w.phase = .streaming)
      (hfree : s.mutexFree i w = true) : Stepped managed s (.tick i) (s.put i { w with phase := .sendingBookmark })
  | finish {i : Nat} {w : Watcher} (hw : s.watchers i = some w) (hcancelled : w.cancelled = true)
      (hfree : s.mutexFree i w = true) :
      Stepped managed s (.finish i) (s.put i { w with done := true, phase := .ended })
  | listFails {i : Nat} {w : Watcher} (hw : s.watchers i = some w) (hfree : s.mutexFree i w = true) :
      Stepped managed s (.listFails i) (s.put i { w with done := true, cancelled := true, phase := .ended })
  | read {i : Nat} {w : Watcher} {e : Event} {rest : List Event} (hw : s.watchers i = some w)
      (hreading : w.reading = true) (hchan : w.resultChan = e :: rest) :
      Stepped managed s (.read i) (s.put i { w with resultChan := rest, received := w.received ++ [e] })
  | stopReading {i : Nat} {w : Watcher} (hw : s.watchers i = some w) :
      Stepped managed s (.stopReading i) (s.put i { w with reading := false })
  | stop {i : Nat} {w : Watcher} (hw : s.watchers i = some w) :
      Stepped managed s (.stop i) (s.put i { w with cancelled := true })

theorem step_cases {e : WatchEvent} (h : s.step managed e = some s') : Stepped managed s e s' := by
  cases e with
  | change e => cases e <;> cases h <;> exact .change _
  | notify =>
    simp only [World.step] at h
    split at h
    · next hn hqueue =>
      cases h
      exact .notify hn hqueue
    · cases h
  | notifierStep => exact .notifierStep h
  | watch i request =>
    obtain ⟨hnew, heq⟩ := Option.ite_none_right_eq_some.mp h
    cases heq
    exact .watch request (Option.isNone_iff_eq_none.mp hnew)
  | stopReading i =>
    obtain ⟨w, hw, rfl⟩ := Option.map_eq_some_iff.mp h
    exact .stopReading hw
  | stop i =>
    obtain ⟨w, hw, rfl⟩ := Option.map_eq_some_iff.mp h
    exact .stop hw
  | advance i =>
    obtain ⟨w, hw, h⟩ := Option.bind_eq_some_iff.mp h
    exact .advance hw h
  | tick i =>
    obtain ⟨w, hw, h⟩ := Option.bind_eq_some_iff.mp h
    obtain ⟨⟨hphase, -, hfree⟩, heq⟩ := Option.ite_none_right_eq_some.mp h
    cases heq
    exact .tick hw hphase hfree
  | finish i =>
    obtain ⟨w, hw, h⟩ := Option.bind_eq_some_iff.mp h
    obtain ⟨⟨-, hcancelled, hfree⟩, heq⟩ := Option.ite_none_right_eq_some.mp h
    cases heq
    exact .finish hw hcancelled hfree
  | listFails i =>
    obtain ⟨w, hw, h⟩ := Option.bind_eq_some_iff.mp h
    obtain ⟨⟨-, hfree⟩, heq⟩ := Option.ite_none_right_eq_some.mp h
    cases heq
    exact .listFails hw hfree
  | read i =>
    obtain ⟨w, hw, h⟩ := Option.bind_eq_some_iff.mp h
    split at h
    · next hreading hchan =>
      cases h
      exact .read hw hreading hchan
    · cases h

/-- Only a registration changes more than the watch, and it needs the manager's mutex. -/
theorem advance_eq_put (hn : s.notifier = some n)
    (h : s.advance managed j w = some s') : ∃ w', s' = s.put j w' := by
  have hput : ∀ {w₁ : Watcher}, some (s.put j w₁) = some s' → ∃ w', s' = s.put j w' :=
    fun h => ⟨_, (Option.some.inj h).symm⟩
  have hsend : ∀ {o : Option Watcher}, o.map (s.put j) = some s' → ∃ w', s' = s.put j w' := by
    intro o h
    obtain ⟨w', _, h⟩ := Option.map_eq_some_iff.mp h
    exact ⟨w', h.symm⟩
  unfold World.advance at h
  split at h
  · simp [hn] at h
  · exact hput h
  · exact hput h
  · exact hsend h
  · split at h
    · split at h <;> exact hput h
    · cases h
  · exact hput h
  · exact hsend h
  · split at h
    · exact hput h
    · cases h
  · exact hput h
  · exact hsend h
  · exact hsend h
  · cases h
  · cases h

end Steps

end Porch.Registry.Watch
