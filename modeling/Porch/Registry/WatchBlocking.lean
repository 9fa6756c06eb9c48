import Porch.Registry.Watch

/- Whether a watch can hold up the notifications. `NotifyPackageRevisionChange` calls the
   watches one after another under the manager's mutex, and a watch sends to a channel of 64
   events under its own. The loop that would notice that the watch has been stopped needs that
   mutex too.

   A client that stops reading with a full channel, and stops the watch while an event is being
   sent to it, blocks the notifications for good (`stopped_watch_blocks_notifications`). -/
namespace Porch.Registry.Watch

open Go Function Lts Watcher World

variable {managed : Str × Str → Bool}

/-- What the goroutine is still to send with the mutex. -/
def Watcher.underMutex (w : Watcher) : Nat :=
  match w.phase with
  | .handover rest => rest.length
  | .sendingBookmark => 1
  | _ => 0

/-- What is still to be sent to the watch with its mutex held. -/
def World.sending (s : World) (i : Nat) (w : Watcher) : Nat :=
  w.underMutex + if s.inCallback i then 1 else 0

/-- **Room for clients that do not read.** A client stops reading only when what is being sent to
    it with the mutex fits into the channel, and what is sent with the mutex to a client that does
    not read fits too. -/
def Roomy (s : World) : WatchEvent → Prop
  | .stopReading i => ∀ w ∈ s.watchers i, w.resultChan.length + s.sending i w ≤ capacity
  | .advance i => ∀ w ∈ s.watchers i, w.reading = false → w.phase = .beforeHandover →
      w.resultChan.length + w.backlog.length + (if w.request.allowWatchBookmarks then 1 else 0) ≤ capacity
  | .tick i => ∀ w ∈ s.watchers i, w.reading = false → w.resultChan.length < capacity
  | .notifierStep => ∀ n ∈ s.notifier, n.stage = .lock → ∀ i ∈ s.notified n, ∀ w ∈ s.watchers i,
      w.reading = false → w.streams = true → w.resultChan.length < capacity
  | _ => True

instance (s : World) (e : WatchEvent) : Decidable (Roomy s e) :=
  match e with
  | .stopReading _ | .advance _ | .tick _ | .notifierStep => by dsimp only [Roomy]; infer_instance
  | .change _ | .notify | .watch _ _ | .finish _ | .listFails _ | .read _ | .stop _ => isTrue trivial

/-! The invariant -/

/-- A watch; `called` says whether the notifier is in its callback. -/
structure Watcher.Ok (called : Bool) (w : Watcher) : Prop where
  streams : w.streams = true → w.phase = .streaming ∨ w.phase = .sendingBookmark ∨ w.phase = .ended
  ended : w.phase = .ended → w.done = true
  callback : called = true → w.phase = .streaming
  room : w.reading = false → w.resultChan.length + (w.underMutex + if called then 1 else 0) ≤ capacity

/-- Only a watch that is there is called. -/
def Held (called : Bool) : Option Watcher → Prop
  | some w => w.Ok called
  | none => called = false

def World.Ok (s : World) : Prop := ∀ i, Held (s.inCallback i) (s.watchers i)

section Invariant

variable {s s' : World} {i : Nat} {w w' : Watcher} {n : Notifier} {called : Bool}

theorem World.Ok.watcher (h : s.Ok) (hw : s.watchers i = some w) : w.Ok (s.inCallback i) := by
  have hi := h i
  rwa [hw] at hi

theorem World.Ok.put (h : s.Ok) (hw : w.Ok (s.inCallback i)) : (s.put i w).Ok :=
  (forall_update_iff s.watchers fun j => Held (s.inCallback j)).mpr ⟨hw, fun j _ => h j⟩

theorem Watcher.Ok.length_le (h : w.Ok called) (hreading : w.reading = false) :
    w.resultChan.length ≤ capacity := by
  have hroom := h.room hreading
  omega

theorem Held.leave {o : Option Watcher} (h : Held called o) : Held false o := by
  cases o with
  | none => rfl
  | some w =>
    refine { h with callback := nofun, room := fun hreading => ?_ }
    have hroom := Watcher.Ok.room h hreading
    simp only [Bool.false_eq_true, if_false]
    omega

theorem World.Ok.leave (h : s.Ok) (hsame : s'.watchers = s.watchers) (hout : ∀ j, s'.inCallback j = false) :
    s'.Ok := by
  intro j
  rw [hout, hsame]
  exact (h j).leave

theorem ok_of_early (hstreams : w.streams = false) (hended : w.phase ≠ .ended) (hcall : called = false)
    (hroom : w.reading = false → w.resultChan.length + w.underMutex ≤ capacity) : w.Ok called where
  streams := by simp [hstreams]
  ended h := absurd h hended
  callback := by simp [hcall]
  room := by simpa [hcall] using hroom

theorem ok_of_streaming (hphase : w.phase = .streaming) (hcall : called = false)
    (hroom : w.reading = false → w.resultChan.length ≤ capacity) : w.Ok called where
  streams _ := .inl hphase
  ended := by simp [hphase]
  callback _ := hphase
  room := by simpa [underMutex, hphase, hcall] using hroom

theorem Watcher.Ok.not_called (hok : w.Ok called) (hphase : w.phase ≠ .streaming) : called = false :=
  Bool.eq_false_iff.mpr fun h => hphase (hok.callback h)

section Early

variable (hok : w.Ok called) (hphase : w.phase ≠ .streaming ∧ w.phase ≠ .sendingBookmark ∧ w.phase ≠ .ended)
include hok hphase

theorem Watcher.Ok.not_streams : w.streams = false := by
  by_contra h
  obtain h | h | h := hok.streams (by simpa using h)
  · exact hphase.1 h
  · exact hphase.2.1 h
  · exact hphase.2.2 h

/-- Without the mutex the goroutine goes on as it likes. -/
theorem Watcher.Ok.goesOn {backlog chan : List Event} {phase : Phase} (hended : phase ≠ .ended)
    (hunder : underMutex { w with backlog := backlog, resultChan := chan, phase := phase } = 0)
    (hlen : w.reading = false → chan.length ≤ capacity) :
    Ok called { w with backlog := backlog, resultChan := chan, phase := phase } := by
  refine ok_of_early (hok.not_streams hphase) hended (hok.not_called hphase.1) fun hreading => ?_
  rw [hunder]
  exact hlen hreading

end Early

/-- What the goroutine does keeps the invariant. -/
theorem advance_ok (hs : s.Ok) (hw : s.watchers i = some w) (hroomy : Roomy s (.advance i))
    (h : s.advance managed i w = some s') : s'.Ok := by
  have hok := hs.watcher hw
  unfold advance at h
  cases hphase : w.phase with
  | registering =>
    simp only [hphase] at h
    split at h
    · next hidle =>
      cases h
      let registered : World := { s with slots := insertWatcher s.finished i s.slots }
      have hleft : registered.Ok := hs.leave rfl fun j => by
        simp only [registered, inCallback, Option.isNone_iff_eq_none.mp hidle, Option.any_none]
      exact hleft.put ((hleft.watcher hw).goesOn (by simp [hphase]) (by simp) rfl hok.length_le)
    · cases h
  | listing =>
    simp only [hphase] at h
    cases h
    exact hs.put (hok.goesOn (by simp [hphase]) (by simp) rfl hok.length_le)
  | sendingList rest | sendingChunk rest =>
    cases rest with
    | nil =>
      simp only [hphase] at h
      cases h
      exact hs.put (hok.goesOn (by simp [hphase]) (by simp) rfl hok.length_le)
    | cons e rest =>
      simp only [hphase] at h
      obtain ⟨hlen, rfl⟩ := send_map_eq_some h
      exact hs.put (hok.goesOn (by simp [hphase]) (by simp) rfl fun _ => by simpa using hlen)
  | flushing =>
    simp only [hphase] at h
    split at h
    · split at h <;> cases h <;>
        exact hs.put (hok.goesOn (by simp [hphase]) (by simp) rfl hok.length_le)
    · cases h
  | beforeHandover =>
    simp only [hphase] at h
    split at h
    · cases h
      refine hs.put (ok_of_early (hok.not_streams (by simp [hphase])) (by simp)
        (hok.not_called (by simp [hphase])) fun hreading => ?_)
      have hfits := hroomy w hw hreading hphase
      simp only [underMutex, List.length_append]
      split at hfits
      · simp_all
        omega
      · simp_all
    · cases h
  | handover rest =>
    have hcall := hok.not_called (by simp [hphase])
    cases rest with
    | nil =>
      simp only [hphase] at h
      cases h
      exact hs.put (ok_of_streaming rfl hcall hok.length_le)
    | cons e rest =>
      simp only [hphase] at h
      obtain ⟨hlen, rfl⟩ := send_map_eq_some h
      refine hs.put (ok_of_early (hok.not_streams (by simp [hphase])) (by simp) hcall fun hreading => ?_)
      -- what is left gets less by what the channel gets
      have hroom := hok.room hreading
      simp only [underMutex, hphase, hcall] at hroom
      simp only [underMutex, List.length_append, List.length_cons, List.length_nil] at hroom ⊢
      simp only [Bool.false_eq_true, if_false] at hroom
      omega
  | sendingBookmark =>
    simp only [hphase] at h
    obtain ⟨hlen, rfl⟩ := send_map_eq_some h
    refine hs.put (ok_of_streaming rfl (hok.not_called (by simp [hphase])) fun _ => ?_)
    simpa using hlen
  | streaming | ended =>
    simp only [hphase] at h
    cases h

theorem tick_ok (hw : s.watchers i = some w) (hroomy : Roomy s (.tick i)) (hfree : s.mutexFree i w = true) :
    Ok (s.inCallback i) { w with phase := .sendingBookmark } := by
  rw [(mutexFree_iff.mp hfree).2]
  exact ⟨fun _ => .inr (.inl rfl), nofun, nofun, fun hreading => hroomy w hw hreading⟩

theorem ended_ok (hok : w.Ok called) (hfree : s.mutexFree i w = true) (cancelled : Bool) :
    Ok (s.inCallback i) { w with done := true, cancelled := cancelled, phase := .ended } := by
  rw [(mutexFree_iff.mp hfree).2]
  exact ⟨fun _ => .inr (.inr rfl), fun _ => rfl, nofun, hok.length_le⟩

section

variable (hs : s.Ok) (hw : s.watchers i = some w) (hroomy : Roomy s .notifierStep)
  (hn : s.notifier = some n) (hslot : s.notified n = some i)
include hs hw hroomy hn hslot

/-- What the callback does: only a watch in streaming mode keeps the notifier. -/
theorem callback_ok (hstage : n.stage = .lock) (hfree : s.mutexFree i w = true) :
    (s.callback n i w).Ok := by
  have hok := hs.watcher hw
  unfold callback
  split
  · exact hs.leave rfl (inCallback_next _ n)
  · next hdone =>
    split
    · next hstreams =>
      obtain ⟨hholds, hcall⟩ := mutexFree_iff.mp hfree
      have hphase : w.phase = .streaming := by
        obtain h | h | h := hok.streams hstreams
        · exact h
        · simp [holdsMutex, h] at hholds
        · exact absurd (hok.ended h) hdone
      -- the notifier is in the callback of this watch, and of no other
      have hin : ∀ j, ({ s with notifier := some { n with stage := .send } } : World).inCallback j = true ↔ j = i := by
        intro j
        have hnotified : notified { s with notifier := some { n with stage := .send } }
            { n with stage := .send } = some i := hslot
        simp [inCallback, hnotified, eq_comm]
      intro j
      by_cases hj : j = i
      · subst hj
        show Held _ (s.watchers j)
        rw [(hin j).mpr rfl, hw]
        refine { hok with callback := fun _ => hphase, room := fun hreading => ?_ }
        have hlen := hroomy n hn hstage j hslot w hw hreading hstreams
        simp only [underMutex, hphase, if_true]
        omega
      · rw [Bool.eq_false_iff.mpr fun h => hj ((hin j).mp h)]
        exact (hs j).leave
    · have hput : (s.put i { w with backlog := w.backlog ++ [n.event], seen := w.seen ++ [n.event] }).Ok :=
        hs.put { hok with }
      exact hput.leave rfl (inCallback_next _ n)

theorem notifyWatcher_ok (h : s.notifyWatcher managed n i w = some s') : s'.Ok := by
  have hok := hs.watcher hw
  unfold notifyWatcher at h
  cases hstage : n.stage with
  | check =>
    simp only [hstage] at h
    split at h
    · cases h
      exact hs.leave rfl (inCallback_next _ n)
    · split at h
      · cases h
        refine hs.leave rfl fun j => ?_
        simp [inCallback]
      · cases h
        exact hs.leave rfl (inCallback_next _ n)
  | lock =>
    simp only [hstage] at h
    split at h
    · next hfree =>
      cases h
      exact callback_ok hs hw hroomy hn hslot hstage hfree
    · cases h
  | send =>
    simp only [hstage] at h
    obtain ⟨hlen, rfl⟩ := send_map_eq_some h
    have hcall : s.inCallback i = true := by simp [inCallback, hn, hstage, hslot]
    have hnext : (s.next n).Ok := hs.leave rfl (inCallback_next s n)
    refine hnext.put { hok with callback := fun _ => hok.callback hcall, room := fun hreading => ?_ }
    -- the event was counted as one that is being sent
    have hroom := hok.room hreading
    simp only [hcall, inCallback_next, underMutex, List.length_append, List.length_singleton] at hroom ⊢
    simp only [if_true, Bool.false_eq_true, if_false] at hroom ⊢
    omega

end

theorem notifierStep_ok (hs : s.Ok) (hroomy : Roomy s .notifierStep) (h : s.notifierStep managed = some s') :
    s'.Ok := by
  obtain ⟨n, hn, h⟩ := Option.bind_eq_some_iff.mp h
  split at h
  · cases h
    exact hs.leave rfl fun j => rfl
  · cases h
    exact hs.leave rfl (inCallback_next s n)
  · next i hslot =>
    obtain ⟨w, hw, h⟩ := Option.bind_eq_some_iff.mp h
    exact notifyWatcher_ok hs hw hroomy hn (by simp [notified, hslot]) h

/-- **Every step with room keeps the invariant.** -/
theorem step_ok {e : WatchEvent} (hs : s.Ok) (hroomy : Roomy s e) (h : s.step managed e = some s') : s'.Ok := by
  cases step_cases h with
  | change e => exact hs
  | notify => exact hs.leave rfl fun j => by simp [inCallback]
  | notifierStep h => exact notifierStep_ok hs hroomy h
  | @watch i request hnew =>
    have hcall := hs i
    rw [hnew] at hcall
    exact hs.put (ok_of_early rfl (by simp) hcall (by simp))
  | advance hw h => exact advance_ok hs hw hroomy h
  | tick hw hphase hfree => exact hs.put (tick_ok hw hroomy hfree)
  | finish hw hcancelled hfree => exact hs.put (ended_ok (hs.watcher hw) hfree _)
  | listFails hw hfree => exact hs.put (ended_ok (hs.watcher hw) hfree true)
  | @read i w e rest hw hreading hchan =>
    have hok := hs.watcher hw
    refine hs.put { hok with room := fun hnot => ?_ }
    simp [hreading] at hnot
  | @stopReading i w hw =>
    have hok := hs.watcher hw
    exact hs.put { hok with room := fun _ => hroomy w hw }
  | stop hw => exact hs.put { hs.watcher hw with }

end Invariant

/-! What gets the notifier past a watch that has been stopped -/

section Release

variable {s s' : World} {i : Nat} {w : Watcher} {n : Notifier}

/-- The notifier and the goroutine of the watch can get the notifier to the next slot; no client
    needs to read. -/
def Releases (managed : Str × Str → Bool) (s : World) (n : Notifier) (i : Nat) : Prop :=
  ∃ es s', (∀ e ∈ es, e = WatchEvent.notifierStep ∨ e = .advance i ∨ e = .finish i) ∧
    run (World.step managed) s es = some s' ∧
    s'.notifier = some { n with slot := n.slot + 1, stage := .check }

theorem Releases.cons {e : WatchEvent} (he : e = .notifierStep ∨ e = .advance i ∨ e = .finish i)
    (h : s.step managed e = some s') (hrest : Releases managed s' n i) : Releases managed s n i := by
  obtain ⟨es, s₂, hes, hrun, hpast⟩ := hrest
  refine ⟨e :: es, s₂, ?_, ?_, hpast⟩
  · simpa using ⟨he, hes⟩
  · simpa [run, h] using hrun

theorem Releases.last (h : s.step managed .notifierStep = some s')
    (hpast : s'.notifier = some { n with slot := n.slot + 1, stage := .check }) : Releases managed s n i := by
  refine ⟨[.notifierStep], s', ?_, ?_, hpast⟩
  · simp
  · simp [run, h]

/-- The notifier is at the watch `i`, which has been stopped. -/
structure AtStopped (s : World) (n : Notifier) (i : Nat) (w : Watcher) : Prop where
  notifier : s.notifier = some n
  slot : s.notified n = some i
  watcher : s.watchers i = some w
  cancelled : w.cancelled = true

section

variable (h : AtStopped s n i w)
include h

theorem AtStopped.put {w' : Watcher} (hcancelled : w'.cancelled = true) :
    AtStopped (s.put i w') n i w' :=
  ⟨h.notifier, h.slot, by simp [World.put], hcancelled⟩

theorem AtStopped.step_eq : s.step managed .notifierStep = s.notifyWatcher managed n i w := by
  have hslot := slots_of_notified h.slot
  simp [step, notifierStep, h.notifier, hslot, h.watcher]

variable (hstage : n.stage = .lock)
include hstage

theorem AtStopped.not_inCallback (j : Nat) : s.inCallback j = false := by
  simp [inCallback, h.notifier, hstage]

/-- With the mutex, the callback of a watch that is done or not in streaming mode returns. -/
theorem releases_of_free (hholds : w.holdsMutex = false)
    (hreturns : w.done = true ∨ w.streams = false) : Releases managed s n i := by
  have hfree : s.mutexFree i w = true := mutexFree_iff.mpr ⟨hholds, h.not_inCallback hstage i⟩
  have hstep : s.step managed .notifierStep = some (s.callback n i w) := by
    rw [h.step_eq]
    simp [notifyWatcher, hstage, hfree]
  refine .last hstep ?_
  unfold callback
  split
  · rfl
  · next hdone =>
    obtain hyes | hno := hreturns
    · exact absurd hyes hdone
    · simp [hno, next]

theorem releases_of_streaming (hphase : w.phase = .streaming) : Releases managed s n i := by
  have hfree : s.mutexFree i w = true :=
    mutexFree_iff.mpr ⟨by simp [holdsMutex, hphase], h.not_inCallback hstage i⟩
  have hstep : s.step managed (.finish i) = some (s.put i { w with done := true, phase := .ended }) := by
    simp [step, finish, h.watcher, hphase, h.cancelled, hfree]
  exact .cons (.inr (.inr rfl)) hstep (releases_of_free (h.put h.cancelled) hstage rfl (.inl rfl))

theorem releases_of_handover {rest : List Event} (hphase : w.phase = .handover rest)
    (hroom : w.resultChan.length + rest.length ≤ capacity) :
    Releases managed s n i := by
  induction rest generalizing s w with
  | nil =>
    have hstep : s.step managed (.advance i) = some (s.put i { w with streams := true, phase := .streaming }) := by
      simp [step, advance, h.watcher, hphase]
    exact .cons (.inr (.inl rfl)) hstep (releases_of_streaming (h.put h.cancelled) hstage rfl)
  | cons e rest ih =>
    rw [List.length_cons] at hroom
    have hstep : s.step managed (.advance i) =
        some (s.put i { w with resultChan := w.resultChan ++ [e], phase := .handover rest }) := by
      simp [step, advance, h.watcher, hphase, send_of_room (show w.resultChan.length < capacity by omega)]
    refine .cons (.inr (.inl rfl)) hstep (ih (h.put h.cancelled) rfl ?_)
    simp only [List.length_append, List.length_singleton]
    omega

/-- The mutex of a stopped watch gets free, and its callback returns. -/
theorem releases_of_lock (hs : s.Ok) (hreading : w.reading = false) : Releases managed s n i := by
  have hok := hs.watcher h.watcher
  have hroom := hok.room hreading
  simp only [underMutex, h.not_inCallback hstage i] at hroom
  cases hholds : w.holdsMutex with
  | true =>
    unfold holdsMutex at hholds
    split at hholds
    · next rest hphase =>
      simp only [hphase, Bool.false_eq_true, if_false, Nat.add_zero] at hroom
      exact releases_of_handover h hstage hphase hroom
    · next hphase =>
      simp only [hphase, Bool.false_eq_true, if_false, Nat.add_zero] at hroom
      have hstep : s.step managed (.advance i) =
          some (s.put i { w with resultChan := w.resultChan ++ [.bookmark], phase := .streaming }) := by
        simp [step, advance, h.watcher, hphase, send_of_room (show w.resultChan.length < capacity by omega)]
      exact .cons (.inr (.inl rfl)) hstep (releases_of_streaming (h.put h.cancelled) hstage rfl)
    · cases hholds
  | false =>
    by_cases hreturns : w.done = true ∨ w.streams = false
    · exact releases_of_free h hstage hholds hreturns
    · -- a watch in streaming mode that is not done is in its loop
      obtain ⟨hdone, hstreams⟩ := not_or.mp hreturns
      obtain hphase | hphase | hphase := hok.streams (by simpa using hstreams)
      · exact releases_of_streaming h hstage hphase
      · simp [holdsMutex, hphase] at hholds
      · exact absurd (hok.ended hphase) hdone

end

theorem releases_of_ok (hs : s.Ok) (h : AtStopped s n i w) (hreading : w.reading = false) :
    Releases managed s n i := by
  cases hstage : n.stage with
  | check =>
    have hstep : s.step managed .notifierStep = some ((s.clearSlot n).next n) := by
      rw [h.step_eq]
      simp [notifyWatcher, hstage, h.cancelled]
    exact .last hstep rfl
  | lock => exact releases_of_lock h hstage hs hreading
  | send =>
    have hcall : s.inCallback i = true := by simp [inCallback, h.notifier, hstage, h.slot]
    have hroom := (hs.watcher h.watcher).room hreading
    simp only [hcall, if_true] at hroom
    have hstep : s.step managed .notifierStep = s.notifyWatcher managed n i w := h.step_eq
    simp only [notifyWatcher, hstage, send_of_room (show w.resultChan.length < capacity by omega),
      Option.map_some] at hstep
    exact .last hstep rfl

end Release

theorem ok_empty : World.Ok {} := fun _ => rfl

/-- **No stopped watch holds up the notifications for good.** In every run in which what is sent
    with the mutex to clients that do not read finds room, the notifier gets past every watch
    whose client has stopped reading and has stopped the watch. -/
theorem stopped_watch_releases {managed : Str × Str → Bool} {es : List WatchEvent} {s : World}
    (hroomy : Along (World.step managed) Roomy {} es) (hrun : run (World.step managed) {} es = some s)
    {n : Notifier} {i : Nat} {w : Watcher} (hn : s.notifier = some n) (hslot : s.notified n = some i)
    (hw : s.watchers i = some w) (hreading : w.reading = false) (hstopped : w.cancelled = true) :
    Releases managed s n i := by
  have hok : s.Ok := run_invariant (fun _ _ _ hs hok h => step_ok hs hok h) ok_empty hroomy hrun
  exact releases_of_ok hok ⟨hn, hslot, hw, hstopped⟩ hreading

/-- A draft, and a notification about it up to the callbacks. -/
def someDraft : Revision where
  key := { pkgKey := { repoKey := { namesp := "default", name := "blueprints" }, package := "app" },
           workspaceName := "v1" }
  lifecycle := .draft

def waiting : Notifier where
  event := .modified someDraft
  slot := 0
  stage := .lock

/-- A watch goes into streaming mode; there is nothing to list. -/
def openWatch : List WatchEvent := .watch 0 ⟨[], {}, false, .inl rfl⟩ :: List.replicate 6 (.advance 0)

/-- The client stops reading and stops the watch while a notification waits for its mutex. -/
def stoppedInTime : List WatchEvent :=
  openWatch ++ [.change waiting.event, .notify, .notifierStep, .stopReading 0, .stop 0]

theorem stopped_watch_releases_in_time :
    ∃ s, run (World.step fun _ => false) {} stoppedInTime = some s ∧ Releases (fun _ => false) s waiting 0 := by
  obtain ⟨s, hrun, hn, hslot, w, hw, hreading, hcancelled⟩ :
      ∃ s, run (step fun _ => false) {} stoppedInTime = some s ∧ s.notifier = some waiting ∧
        s.notified waiting = some 0 ∧ ∃ w, s.watchers 0 = some w ∧ w.reading = false ∧ w.cancelled = true := by
    decide +kernel
  exact ⟨s, hrun, stopped_watch_releases (by decide +kernel) hrun hn hslot hw hreading hcancelled⟩

/-! A full channel -/

section Stuck

variable {s s' : World} {i : Nat} {n : Notifier}

/-- The notifier sends to a full channel that nobody reads. -/
structure Stuck (s : World) (n : Notifier) (i : Nat) : Prop where
  notifier : s.notifier = some n
  stage : n.stage = .send
  slot : s.notified n = some i
  watcher : ∃ w, s.watchers i = some w ∧ w.phase = .streaming ∧ w.reading = false ∧ capacity ≤ w.resultChan.length

theorem Stuck.inCallback (h : Stuck s n i) : s.inCallback i = true := by
  simp [World.inCallback, h.notifier, h.stage, h.slot]

theorem Stuck.put_other (h : Stuck s n i) {j : Nat} (hj : j ≠ i) (w : Watcher) : Stuck (s.put j w) n i := by
  refine ⟨h.notifier, h.stage, h.slot, ?_⟩
  simpa only [put, update_of_ne hj.symm] using h.watcher

theorem Stuck.put_self (h : Stuck s n i) {w : Watcher} (hphase : w.phase = .streaming) (hreading : w.reading = false)
    (hfull : capacity ≤ w.resultChan.length) : Stuck (s.put i w) n i :=
  ⟨h.notifier, h.stage, h.slot, w, by simp [put], hphase, hreading, hfull⟩

/-- **Nothing gets the notifier out of there.** -/
theorem Stuck.step {e : WatchEvent} (h : Stuck s n i) (hstep : s.step managed e = some s') : Stuck s' n i := by
  obtain ⟨w, hw, hphase, hreading, hfull⟩ := h.watcher
  have hmutex : ∀ {j v}, s.mutexFree j v = true → j ≠ i := by
    rintro j v hfree rfl
    simp [mutexFree, h.inCallback] at hfree
  cases step_cases hstep with
  | change e => exact ⟨h.notifier, h.stage, h.slot, h.watcher⟩
  | notify hn => cases hn.symm.trans h.notifier
  | notifierStep hstep =>
    -- the channel has no room
    have hslot := slots_of_notified h.slot
    have hsend : w.send n.event w.phase = none := if_neg (Nat.not_lt.mpr hfull)
    simp [notifierStep, h.notifier, hslot, hw, notifyWatcher, h.stage, hsend] at hstep
  | watch request hnew =>
    refine h.put_other ?_ _
    rintro rfl
    cases hnew.symm.trans hw
  | @advance j v _ hv hstep =>
    by_cases hj : j = i
    · subst hj
      obtain rfl : w = v := Option.some.inj (hw.symm.trans hv)
      simp [advance, hphase] at hstep
    · obtain ⟨v', rfl⟩ := advance_eq_put h.notifier hstep
      exact h.put_other hj v'
  | tick _ _ hfree | finish _ _ hfree | listFails _ hfree => exact h.put_other (hmutex hfree) _
  | @read j v _ _ hv hreads =>
    refine h.put_other ?_ _
    rintro rfl
    obtain rfl : w = v := Option.some.inj (hw.symm.trans hv)
    simp [hreading] at hreads
  | @stopReading j v hv | @stop j v hv =>
    by_cases hj : j = i
    · subst hj
      obtain rfl : w = v := Option.some.inj (hw.symm.trans hv)
      exact h.put_self hphase (by simp [hreading]) hfull
    · exact h.put_other hj _

theorem Stuck.run {es : List WatchEvent} (h : Stuck s n i) (hrun : run (World.step managed) s es = some s') :
    Stuck s' n i := by
  have hkeeps : ∀ s e s', Stuck s n i → s.step managed e = some s' → Stuck s' n i :=
    fun _ _ _ h hstep => h.step hstep
  exact (run_keeps hkeeps h hrun :)

end Stuck

/-- A change and its notification, up to the end of the callback. -/
def oneNotification : List WatchEvent :=
  [.change waiting.event, .notify, .notifierStep, .notifierStep, .notifierStep, .notifierStep]

/-- The client stops reading; the channel fills up, another notification is sent, and the client
    stops the watch. -/
def stoppedTooLate : List WatchEvent :=
  openWatch ++ .stopReading 0 :: (List.replicate capacity oneNotification).flatten ++
    [.change waiting.event, .notify, .notifierStep, .notifierStep, .stop 0]

/-- **A stopped watch blocks the notifications.** The client has stopped reading and has stopped the
    watch, and whatever happens, the notifier stays in the callback. -/
theorem stopped_watch_blocks_notifications :
    ∃ s w n, run (World.step fun _ => false) {} stoppedTooLate = some s ∧ s.notifier = some n ∧
      s.notified n = some 0 ∧ s.watchers 0 = some w ∧ w.reading = false ∧ w.cancelled = true ∧
      ∀ es s', run (World.step fun _ => false) s es = some s' → s'.notifier = some n := by
  obtain ⟨s, hrun, hn, hslot, w, hw, hphase, hreading, hfull, hcancelled⟩ :
      ∃ s, run (step fun _ => false) {} stoppedTooLate = some s ∧
        s.notifier = some { waiting with stage := .send } ∧
        s.notified { waiting with stage := .send } = some 0 ∧ ∃ w, s.watchers 0 = some w ∧
          w.phase = .streaming ∧ w.reading = false ∧ capacity ≤ w.resultChan.length ∧ w.cancelled = true := by
    decide +kernel
  have hstuck : Stuck s { waiting with stage := .send } 0 := ⟨hn, rfl, hslot, w, hw, hphase, hreading, hfull⟩
  refine ⟨s, w, { waiting with stage := .send }, hrun, hn, hslot, hw, hreading, hcancelled, ?_⟩
  intro es s' hes
  exact (hstuck.run hes).notifier

end Porch.Registry.Watch
