import Porch.Lts.Feed
import Porch.Registry.WatchSlots

/- What a client makes of the events of a watch. A watch registers before it lists, keeps what
   is notified meanwhile and sends it after the list, so that a change is in the list, in the
   backlog or in what is sent afterwards.

   The invariant of a run is `Coherent`: what the events that are still to be delivered make of
   an object is the object in the store, and for each watch the same holds of what has reached
   it and what is still to reach it (`no_update_lost`). `NotifyPackageRevisionChange` does not look
   at the filter (`replay_eq_current_iff`).

   This is without v1alpha2-managed repositories, whose revisions are neither listed nor
   notified. -/
namespace Porch.Registry.Watch

open Go Feed Function World Watcher Event

/-! Events as changes under a name -/

/-- What an event says about the object that it is about. -/
def Event.effect : Event → Option ((Str × Str) × Option Revision)
  | added obj | modified obj => some (objectId obj, some obj)
  | deleted obj => some (objectId obj, none)
  | bookmark => none

section Objects

variable {id : Str × Str} {e : Event} {es changed feed : List Event} {revisions store : List Revision}

theorem lookup_apply : lookup objectId id (e.apply revisions) =
    after Event.effect id (lookup objectId id revisions) e := by
  cases e with
  | added | modified => exact lookup_put
  | deleted obj => exact lookup_drop
  | bookmark => rfl

theorem nodup_apply (h : (revisions.map objectId).Nodup) : ((e.apply revisions).map objectId).Nodup := by
  cases e with
  | added | modified => exact nodup_put h
  | deleted obj => exact nodup_drop h
  | bookmark => exact h

theorem lookup_foldl : lookup objectId id (es.foldl Event.apply revisions) =
    value Event.effect id (lookup objectId id revisions) es := by
  induction es generalizing revisions with
  | nil => rfl
  | cons e es ih =>
    rw [List.foldl_cons, ih, lookup_apply]
    rfl

theorem nodup_foldl (h : (revisions.map objectId).Nodup) : ((es.foldl Event.apply revisions).map objectId).Nodup := by
  induction es generalizing revisions with
  | nil => exact h
  | cons e es ih => exact ih (nodup_apply h)

theorem lookup_replay : lookup objectId id (replay es) = value Event.effect id none es := lookup_foldl

theorem nodup_replay : ((replay es).map objectId).Nodup := nodup_foldl List.nodup_nil

theorem value_added (h : (revisions.map objectId).Nodup) :
    value Event.effect id none (revisions.map .added) = lookup objectId id revisions := by
  suffices hgen : ∀ o, value effect id o (revisions.map .added) =
      (lookup objectId id revisions).or o by
    simpa using hgen none
  intro o
  induction revisions generalizing o with
  | nil => rfl
  | cons r revisions ih =>
    rw [List.map_cons, List.nodup_cons] at h
    rw [List.map_cons, value_cons, ih h.2, lookup_cons]
    by_cases hr : objectId r = id
    · have habs : lookup objectId id revisions = none := by
        refine List.find?_eq_none.mpr fun q hq => ?_
        have hne : objectId q ≠ id := by
          intro heq
          exact h.1 (hr.trans heq.symm ▸ List.mem_map_of_mem hq)
        simpa using hne
      simp [habs, hr, after, effect]
    · simp [hr, after, effect]

/-! Events that are still to be delivered -/

/-- After `feed` there is the object in the store if `changed` is about it, and what `f` makes of
    that otherwise. -/
def Shows (store : List Revision) (changed feed : List Event) (id : Str × Str) (o : Option Revision)
    (f : Option Revision → Option Revision) : Prop :=
  (Touches Event.effect id changed → value Event.effect id o feed = lookup objectId id store) ∧
  (¬ Touches Event.effect id changed → value Event.effect id o feed = f (lookup objectId id store))

variable {o : Option Revision} {f : Option Revision → Option Revision}

theorem Shows.concat (h : Shows store changed feed id o f) :
    Shows (e.apply store) (changed ++ [e]) (feed ++ [e]) id o f := by
  by_cases he : ∃ v, e.effect = some (id, v)
  · obtain ⟨v, hv⟩ := he
    simp [Shows, lookup_apply, after_of_effect hv, hv]
  · simpa [Shows, lookup_apply, after_of_other (not_exists.mp he), he] using h

theorem Shows.skip (h : Shows store (changed ++ e :: es) (feed ++ e :: es) id o f)
    (he : ∀ v, e.effect ≠ some (id, v)) : Shows store (changed ++ es) (feed ++ es) id o f := by
  simpa [Shows, after_of_other he, he] using h

theorem Shows.tail (h : ∀ o, Shows store (e :: es) (e :: es) id o fun _ => o) (o : Option Revision) :
    Shows store es es id o fun _ => o := by
  refine ⟨fun htouched => ?_, fun htouched => value_of_not_touches htouched⟩
  rw [← (h o).1 (touches_cons.mpr (.inr htouched))]
  exact value_of_touches htouched

/-- The events say the same. -/
def SameFeed (es es' : List Event) : Prop :=
  ∀ id, (Touches Event.effect id es' ↔ Touches Event.effect id es) ∧
    ∀ o, value Event.effect id o es' = value Event.effect id o es

@[simp] theorem SameFeed.refl (es : List Event) : SameFeed es es := fun _ => ⟨Iff.rfl, fun _ => rfl⟩

@[simp] theorem sameFeed_bookmark : SameFeed es (es ++ [.bookmark]) := by
  simp [SameFeed, after, effect]

end Objects

/-! Namespaces -/

/-- The objects that a request in the namespace is about. -/
def inScope (ns : Str) (id : Str × Str) : Bool := ns = [] || id.1 = ns

def Event.Within (ns : Str) (e : Event) : Prop := ∀ id v, e.effect = some (id, v) → inScope ns id = true

section Scope

variable {managed : Str × Str → Bool} {ns : Str} {e : Event}

theorem passes_iff (hmanaged : ∀ repo, managed repo = false) : World.passes managed ns e = true ↔ e.Within ns := by
  cases e <;> simp [passes, obj, hmanaged, Within, effect, inScope, objectId]

theorem effect_ne_of_not_within (h : ¬ e.Within ns) {id : Str × Str} (hid : inScope ns id = true)
    (v : Option Revision) : e.effect ≠ some (id, v) := by
  intro he
  apply h
  intro id' v' he'
  rw [he] at he'
  cases he'
  exact hid

theorem inScope_of_matches (request : WatchRequest) {r : Revision} (h : request.filter.matches r = true) :
    inScope request.ns (objectId r) = true := by
  obtain hall | hns := request.inScope
  · simp [inScope, hall]
  · by_cases hall : request.ns = []
    · simp [inScope, hall]
    · have hkey : r.key.pkgKey.repoKey.namesp = request.ns := by
        simp only [ListPackageRevisionFilter.matches, PackageRevisionKey.matches, PackageKey.matches,
          RepositoryKey.matches, Bool.and_eq_true, fieldMatches_iff, hns] at h
        tauto
      simp [inScope, objectId, hkey]

theorem listed_eq (hmanaged : ∀ repo, managed repo = false) (filter : ListPackageRevisionFilter)
    (store : List Revision) : World.listed managed filter store = store.filter filter.matches := by
  simp [listed, hmanaged]

end Scope

/-! The invariant -/

/-- What is left to be sent of what the goroutine is at. -/
def Watcher.rest (w : Watcher) : List Event :=
  match w.phase with
  | .sendingList rest | .sendingChunk rest | .handover rest => rest
  | .sendingBookmark => [.bookmark]
  | _ => []

/-- What has been sent and what is on its way, in order. -/
def Watcher.stream (w : Watcher) : List Event := w.received ++ w.resultChan ++ w.rest ++ w.backlog

def Watcher.Early (w : Watcher) : Prop := w.phase = .registering ∨ w.phase = .listing

/-- The goroutine has taken the whole backlog. -/
def Watcher.HandedOver (w : Watcher) : Prop :=
  match w.phase with
  | .handover _ | .streaming | .sendingBookmark => True
  | _ => False

namespace World

/-- The changes whose notification is not over. -/
def pending (s : World) : List Event := s.notifier.toList.map (·.event) ++ s.queue

/-- The events that are still to reach the watch `i`. -/
def outFor (s : World) (i : Nat) : List Event :=
  (s.notifier.toList.filter fun n => some i ∈ s.slots.drop n.slot).map (·.event) ++ s.queue

end World

/-- What the stream starts from: anything before the list is made, and nothing afterwards, when the
    objects that have not been changed are those of the list. -/
def Watcher.Starts (w : Watcher) (o : Option Revision) (f : Option Revision → Option Revision) : Prop :=
  w.phase = .listing ∧ f = (fun _ => o) ∨ ¬ w.Early ∧ o = none ∧ f = (·.filter w.request.filter.matches)

/-- What holds of a watch that has not been stopped. -/
structure Watcher.Sane (w : Watcher) : Prop where
  running : w.done = false ∧ w.phase ≠ .ended
  early : w.Early → w.received = [] ∧ w.resultChan = [] ∧ w.backlog = w.seen
  fresh : w.phase = .registering → w.seen = []
  streams : w.streams = true ↔ w.phase = .streaming ∨ w.phase = .sendingBookmark
  handed : w.HandedOver → w.backlog = []
  within : ∀ id, Touches Event.effect id (w.stream ++ w.seen) → inScope w.request.ns id = true

structure Tracks (s : World) (i : Nat) (w : Watcher) : Prop extends Watcher.Sane w where
  slot : s.slots.count (some i) = if w.phase = .registering then 0 else 1
  visited : ∀ n, s.notifier = some n → s.notified n = some i → n.stage ≠ .check →
    n.event.Within w.request.ns ∧ (n.stage = .send → w.phase = .streaming)
  follows : ∀ id, inScope w.request.ns id = true → ∀ o f, w.Starts o f →
    Shows s.store (w.seen ++ s.outFor i) (w.stream ++ s.outFor i) id o f

/-- A watch that is not there has no slot. -/
def Watched (s : World) (i : Nat) : Option Watcher → Prop
  | none => some i ∉ s.slots
  | some w => w.cancelled = false → Tracks s i w

structure Coherent (s : World) : Prop where
  nodup : (s.store.map objectId).Nodup
  settled : ∀ id o, Shows s.store s.pending s.pending id o fun _ => o
  watched : ∀ i, Watched s i (s.watchers i)

section Invariant

variable {managed : Str × Str → Bool} {s s' : World} {i j : Nat} {w w' : Watcher} {n : Notifier}

theorem Watcher.Starts.registered {o : Option Revision} {f : Option Revision → Option Revision}
    (h : w.Starts o f) : w.phase ≠ .registering := by
  obtain ⟨hphase, -⟩ | ⟨hpast, -⟩ := h
  · simp [hphase]
  · exact fun hphase => hpast (.inl hphase)

/-- **The frame rule.** A watch does not see what happens elsewhere. -/
theorem Tracks.frame (h : Tracks s i w) (hcount : s'.slots.count (some i) = s.slots.count (some i))
    (hstore : s'.store = s.store) (hout : w.phase ≠ .registering → s'.outFor i = s.outFor i)
    (hvisited : ∀ n, s'.notifier = some n → s'.notified n = some i → n.stage ≠ .check →
      n.event.Within w.request.ns ∧ (n.stage = .send → w.phase = .streaming)) : Tracks s' i w := by
  refine { h with slot := hcount ▸ h.slot, visited := hvisited, follows := ?_ }
  intro id hid o f hstarts
  rw [hstore, hout hstarts.registered]
  exact h.follows id hid o f hstarts

theorem Watched.frame {o : Option Watcher} (h : Watched s i o) (hmem : some i ∈ s'.slots → some i ∈ s.slots)
    (hw : ∀ w, o = some w → w.cancelled = false → Tracks s i w → Tracks s' i w) : Watched s' i o := by
  cases o with
  | none => exact fun hin => h (hmem hin)
  | some w => exact fun hlive => hw w rfl hlive (h hlive)

theorem Coherent.tracks (h : Coherent s) (hw : s.watchers i = some w) (hlive : w.cancelled = false) :
    Tracks s i w := by
  have hi := h.watched i
  rw [hw] at hi
  exact hi hlive

theorem Coherent.put (h : Coherent s) (hw : w.cancelled = false → Tracks s i w) : Coherent (s.put i w) := by
  have hframe : ∀ j o, Watched s j o → Watched (s.put i w) j o :=
    fun j o ho => ho.frame id fun _ _ _ h => h.frame rfl rfl (fun _ => rfl) h.visited
  exact ⟨h.nodup, h.settled, (forall_update_iff s.watchers (Watched (s.put i w))).mpr
    ⟨hframe i (some w) hw, fun j _ => hframe j _ (h.watched j)⟩⟩

theorem Watcher.Sane.not_streams (h : w.Sane) (hearly : w.Early) : w.streams = false := by
  by_contra hyes
  obtain hphase | hphase := h.streams.mp (by simpa using hyes) <;> simp [Early, hphase] at hearly

theorem Tracks.slot_eq_one (h : Tracks s i w) (hphase : w.phase ≠ .registering) : s.slots.count (some i) = 1 := by
  rw [h.slot, if_neg hphase]

theorem Tracks.streaming_of_inCallback (h : Tracks s i w) (hin : s.inCallback i = true) : w.phase = .streaming := by
  obtain ⟨n, hn, hat⟩ := (Option.any_eq_true ..).mp hin
  simp only [Bool.and_eq_true, decide_eq_true_eq] at hat
  exact (h.visited n hn hat.2 (by simp [hat.1])).2 hat.1

/-- What the goroutine does past the list: the stream stays the same. -/
structure Moves (w w' : Watcher) : Prop where
  past : ¬ w'.Early
  same : w'.request = w.request ∧ w'.seen = w.seen ∧ w'.done = w.done ∧ w'.cancelled = w.cancelled
  notEnded : w'.phase ≠ .ended
  streams : (w.streams = true ↔ w.phase = .streaming ∨ w.phase = .sendingBookmark) →
    (w'.streams = true ↔ w'.phase = .streaming ∨ w'.phase = .sendingBookmark)
  handed : (w.HandedOver → w.backlog = []) → w'.HandedOver → w'.backlog = []
  stream : SameFeed w.stream w'.stream

theorem Moves.sane (m : Moves w w') (h : w.Sane) : w'.Sane := by
  obtain ⟨hreq, hseen, hdone, -⟩ := m.same
  refine ⟨⟨hdone ▸ h.running.1, m.notEnded⟩, fun he => absurd he m.past, fun hreg => absurd (.inl hreg) m.past,
    m.streams h.streams, m.handed h.handed, fun id htouched => ?_⟩
  rw [hseen, touches_append, (m.stream id).1, ← touches_append] at htouched
  exact hreq ▸ h.within id htouched

/-- The goroutine goes on, after the list. -/
theorem Tracks.move (h : Tracks s i w) (hpast : ¬ w.Early) (m : Moves w w')
    (hcall : s.inCallback i = true → w'.phase = .streaming) : Tracks s i w' := by
  obtain ⟨hreq, hseen, -⟩ := m.same
  refine { m.sane h.toSane with slot := ?_, visited := ?_, follows := ?_ }
  · rw [h.slot_eq_one fun hreg => hpast (.inl hreg), if_neg fun hreg => m.past (.inl hreg)]
  · intro n hn hat hstage
    rw [hreq]
    refine ⟨(h.visited n hn hat hstage).1, fun hsend => hcall ?_⟩
    simp [inCallback, hn, hsend, hat]
  · rintro id hid o f (⟨hlist, -⟩ | ⟨-, rfl, rfl⟩)
    · exact absurd (.inr hlist) m.past
    · have hshows := h.follows id (hreq ▸ hid) none _ (.inr ⟨hpast, rfl, rfl⟩)
      rw [Shows, value_append] at hshows
      rw [hreq, hseen, Shows, value_append, (m.stream id).2]
      exact hshows

theorem Tracks.list (hmanaged : ∀ repo, managed repo = false) (hs : Coherent s) (h : Tracks s i w)
    (hphase : w.phase = .listing) :
    Tracks s i { w with phase := .sendingList ((World.listed managed w.request.filter s.store).map .added) } := by
  obtain ⟨hrecv, hchan, hbacklog⟩ := h.early (.inr hphase)
  refine ⟨⟨⟨h.running.1, by simp⟩, ?_, nofun, ?_, nofun, ?_⟩, ?_, ?_, ?_⟩
  · rintro (he | he) <;> cases he
  · simp [h.not_streams (.inr hphase)]
  · intro id htouched
    simp only [stream, rest, hrecv, hchan, hbacklog, listed_eq hmanaged, List.nil_append,
      touches_append, or_assoc, or_self] at htouched
    obtain ⟨e, he, v, heffect⟩ | hseen := htouched
    · obtain ⟨r, hr, rfl⟩ := List.mem_map.mp he
      cases heffect
      exact inScope_of_matches w.request (List.mem_filter.mp hr).2
    · exact h.within id (touches_append.mpr (.inr hseen))
  · simpa [hphase] using h.slot
  · intro n hn hat hstage
    have hvisited := h.visited n hn hat hstage
    exact ⟨hvisited.1, fun hsend => by simp [hphase] at hvisited; exact absurd hsend hvisited.2⟩
  · rintro id hid o f (⟨hlist, -⟩ | ⟨-, rfl, rfl⟩)
    · cases hlist
    · -- the list is what the stream starts from
      let o := (lookup objectId id s.store).filter w.request.filter.matches
      have hvalue : value effect id none ((s.store.filter w.request.filter.matches).map .added) = o :=
        (value_added ((List.filter_sublist.map objectId).nodup hs.nodup)).trans (lookup_filter hs.nodup)
      have hshows := h.follows id hid o _ (.inl ⟨hphase, rfl⟩)
      simpa [Shows, stream, rest, hrecv, hchan, hphase, listed_eq hmanaged, hvalue] using hshows

/-! Registration -/

/-- Nothing is being notified while a watch is registered. -/
theorem Coherent.register (h : Coherent s) (hw : s.watchers i = some w) (hphase : w.phase = .registering)
    (hidle : s.notifier = none) :
    Coherent ({ s with slots := insertWatcher s.finished i s.slots }.put i { w with phase := .listing }) := by
  refine ⟨h.nodup, h.settled, (forall_update_iff s.watchers (Watched _)).mpr ⟨fun hlive => ?_, fun j hji => ?_⟩⟩
  · have hold := h.tracks hw hlive
    have hseen := hold.fresh hphase
    obtain ⟨hrecv, hchan, hbacklog⟩ := hold.early (.inl hphase)
    refine ⟨⟨⟨hold.running.1, by simp⟩, fun _ => ⟨hrecv, hchan, hbacklog⟩, nofun, ?_, nofun, ?_⟩, ?_, ?_, ?_⟩
    · simp [hold.not_streams (.inl hphase)]
    · simpa [Watcher.stream, Watcher.rest, hphase] using hold.within
    · exact count_insertFrom_new (by simpa [hphase] using hold.slot)
    · exact fun n hn => nomatch hidle.symm.trans hn
    · -- what is still to be notified is all that the watch will see
      rintro id - o f (⟨-, rfl⟩ | ⟨hpast, -⟩)
      · simpa [World.pending, World.outFor, World.put, Watcher.stream, Watcher.rest, hidle, hrecv, hchan, hbacklog,
          hseen] using h.settled id o
      · exact absurd (.inr rfl) hpast
  · refine (h.watched j).frame (fun hin => (mem_insertFrom hin).resolve_left hji) fun v hv hlive hold => ?_
    have hfinished : s.finished j = false := by simp [World.finished, hv, hlive]
    refine hold.frame ((count_insertFrom hji).trans (by rw [hfinished]; rfl)) rfl (fun _ => ?_)
      fun n hn => nomatch hidle.symm.trans hn
    simp [World.outFor, World.put, hidle]

/-! The goroutine and the client -/

theorem moves_of_send {e : Event} {phase : Phase}
    (hw' : w' = { w with resultChan := w.resultChan ++ [e], phase := phase })
    (hrest : w.rest = e :: w'.rest) (hpast : ¬ w'.Early) (hended : phase ≠ .ended)
    (hstreams : phase = .streaming ∨ phase = .sendingBookmark ↔ w.phase = .streaming ∨ w.phase = .sendingBookmark)
    (hhanded : w'.HandedOver → w.HandedOver) : Moves w w' := by
  subst hw'
  refine ⟨hpast, ⟨rfl, rfl, rfl, rfl⟩, hended, fun h => h.trans hstreams.symm, fun h hh => h (hhanded hh), ?_⟩
  simp [stream, hrest]

theorem advance_moves (hpast : ¬ w.Early) (h : s.advance managed i w = some s') :
    w.phase ≠ .streaming ∧ ∃ w', s' = s.put i w' ∧ Moves w w' := by
  refine ⟨fun hphase => by simp [advance, hphase] at h, ?_⟩
  have hput : ∀ {w₁ : Watcher}, some (s.put i w₁) = some s' → Moves w w₁ → ∃ w', s' = s.put i w' ∧ Moves w w' :=
    fun h hmoves => ⟨_, (Option.some.inj h).symm, hmoves⟩
  unfold World.advance at h
  cases hphase : w.phase with
  | registering | listing => simp [Watcher.Early, hphase] at hpast
  | streaming | ended => simp [hphase] at h
  | sendingList rest | sendingChunk rest | handover rest =>
    cases rest with
    | nil =>
      simp only [hphase] at h
      refine hput h ?_
      constructor <;> simp_all [Watcher.Early, Watcher.HandedOver, Watcher.stream, Watcher.rest]
    | cons e rest =>
      simp only [hphase] at h
      obtain ⟨_, rfl⟩ := send_map_eq_some h
      refine ⟨_, rfl, moves_of_send rfl ?_ ?_ ?_ ?_ ?_⟩ <;>
        simp [Watcher.Early, Watcher.HandedOver, Watcher.rest, hphase]
  | flushing =>
    simp only [hphase] at h
    split at h
    · split at h
      all_goals
        refine hput h ?_
        constructor <;> simp_all [Watcher.Early, Watcher.HandedOver, Watcher.stream, Watcher.rest]
    · cases h
  | beforeHandover =>
    simp only [hphase] at h
    split at h
    · -- a bookmark says nothing about objects
      refine hput h ?_
      constructor <;> simp_all [Watcher.Early, Watcher.stream, Watcher.rest]
      split <;> simp [← List.append_assoc]
    · cases h
  | sendingBookmark =>
    simp only [hphase] at h
    obtain ⟨_, rfl⟩ := send_map_eq_some h
    refine ⟨_, rfl, moves_of_send rfl ?_ ?_ ?_ ?_ ?_⟩ <;>
      simp [Watcher.Early, Watcher.HandedOver, Watcher.rest, hphase]

theorem Coherent.advance (hmanaged : ∀ repo, managed repo = false) (hs : Coherent s) (hw : s.watchers i = some w)
    (h : s.advance managed i w = some s') : Coherent s' := by
  by_cases hearly : w.Early
  · unfold World.advance at h
    obtain hphase | hphase := hearly
    · simp only [hphase] at h
      split at h
      · next hidle =>
        cases h
        exact hs.register hw hphase (Option.isNone_iff_eq_none.mp hidle)
      · cases h
    · simp only [hphase] at h
      cases h
      exact hs.put fun hlive => (hs.tracks hw hlive).list hmanaged hs hphase
  · obtain ⟨hidle, w', rfl, hmoves⟩ := advance_moves hearly h
    refine hs.put fun hlive => ?_
    have hold := hs.tracks hw (hmoves.same.2.2.2 ▸ hlive)
    exact hold.move hearly hmoves fun hin => absurd (hold.streaming_of_inCallback hin) hidle

theorem Tracks.tick (h : Tracks s i w) (hphase : w.phase = .streaming) (hfree : s.mutexFree i w = true) :
    Tracks s i { w with phase := .sendingBookmark } := by
  have hempty := h.handed (by simp [HandedOver, hphase])
  refine h.move (by simp [Early, hphase]) ⟨by simp [Early], ⟨rfl, rfl, rfl, rfl⟩, by simp, ?_, fun _ _ => hempty, ?_⟩
    fun hin => nomatch (mutexFree_iff.mp hfree).2.symm.trans hin
  · simp [hphase]
  · simp [stream, rest, hphase, hempty, -List.append_assoc]

theorem Tracks.read {e : Event} {rest : List Event} (h : Tracks s i w) (hchan : w.resultChan = e :: rest) :
    Tracks s i { w with resultChan := rest, received := w.received ++ [e] } := by
  have hpast : ¬ w.Early := fun hearly => nomatch hchan.symm.trans (h.early hearly).2.1
  refine h.move hpast ⟨hpast, ⟨rfl, rfl, rfl, rfl⟩, h.running.2, id, id, ?_⟩ h.streaming_of_inCallback
  have hrest : Watcher.rest { w with resultChan := rest, received := w.received ++ [e] } = w.rest := rfl
  simp [Watcher.stream, hrest, hchan]

theorem Coherent.watch (hs : Coherent s) (hnew : s.watchers i = none) (request : WatchRequest) :
    Coherent (s.put i { request := request }) := by
  have habs := hs.watched i
  rw [hnew] at habs
  refine hs.put fun _ => ⟨⟨⟨rfl, by simp⟩, fun _ => ⟨rfl, rfl, rfl⟩, fun _ => rfl, by simp, fun _ => rfl, ?_⟩, ?_, ?_,
    fun _ _ _ _ hstarts => absurd rfl hstarts.registered⟩
  · simp [stream, rest]
  · simpa using List.count_eq_zero.mpr habs
  · intro n _ hat
    exact absurd (List.mem_of_getElem? (slots_of_notified hat)) habs

/-! The notifier -/

theorem outFor_of_idle (hn : s.notifier = none) : s.outFor i = s.queue := by
  simp [outFor, hn]

theorem outFor_of_mem (hn : s.notifier = some n) (hmem : some i ∈ s.slots.drop n.slot) :
    s.outFor i = n.event :: s.queue := by
  simp [outFor, hn, hmem]

theorem outFor_of_not_mem (hn : s.notifier = some n) (hmem : some i ∉ s.slots.drop n.slot) :
    s.outFor i = s.queue := by
  simp [outFor, hn, hmem]

theorem Coherent.change (hs : Coherent s) (e : Event) :
    Coherent { s with store := e.apply s.store, queue := s.queue ++ [e] } := by
  have hout : ∀ i, outFor { s with store := e.apply s.store, queue := s.queue ++ [e] } i = s.outFor i ++ [e] := by
    intro i
    simp [outFor]
  refine ⟨nodup_apply hs.nodup, fun id o => ?_, fun i => (hs.watched i).frame id fun w _ _ h => ?_⟩
  · have hpend : pending { s with store := e.apply s.store, queue := s.queue ++ [e] } = s.pending ++ [e] := by
      simp [pending]
    rw [hpend]
    exact (hs.settled id o).concat
  · refine { h with follows := fun id hid o f hstarts => ?_ }
    rw [hout, ← List.append_assoc, ← List.append_assoc]
    exact (h.follows id hid o f hstarts).concat

theorem Coherent.notify {e : Event} {queue : List Event} (hs : Coherent s) (hn : s.notifier = none)
    (hqueue : s.queue = e :: queue) : Coherent { s with queue := queue, notifier := some ⟨e, 0, .check⟩ } := by
  refine ⟨hs.nodup, fun id o => ?_, fun i => (hs.watched i).frame id fun w _ _ h => ?_⟩
  · simpa [pending, hn, hqueue] using hs.settled id o
  · refine h.frame rfl rfl (fun hphase => ?_) fun n hsome _ hstage => ?_
    · have hmem : some i ∈ s.slots := List.count_pos_iff.mp (by rw [h.slot_eq_one hphase]; omega)
      simp [outFor, hn, hqueue, hmem]
    · cases hsome
      exact absurd rfl hstage

section Visit

variable {o : Option Nat} (hn : s.notifier = some n) (hslot : s.slots[n.slot]? = some o)
include hslot

theorem drop_of_slot : s.slots.drop n.slot = o :: s.slots.drop (n.slot + 1) := by
  obtain ⟨hlt, hget⟩ := List.getElem?_eq_some_iff.mp hslot
  rw [List.drop_eq_getElem_cons hlt, hget]

theorem not_mem_drop_of_slot (ho : o = some i) (hcount : s.slots.count (some i) = 1) :
    some i ∉ s.slots.drop (n.slot + 1) := by
  have hsplit : s.slots.count (some i) = (s.slots.take n.slot).count (some i) + (s.slots.drop n.slot).count (some i) := by
    rw [← List.count_append, List.take_append_drop]
  rw [drop_of_slot hslot, ho, List.count_cons_self, hcount] at hsplit
  exact List.count_eq_zero.mp (by omega)

include hn

/-- What happens at one slot is seen by its watch only. -/
theorem Coherent.moveOn (hs : Coherent s) (hstore : s'.store = s.store) (hqueue : s'.queue = s.queue)
    (hnotifier : s'.notifier = some { n with slot := n.slot + 1, stage := .check })
    (hslots : s'.slots = s.slots ∨ s'.slots = s.slots.set n.slot none)
    (hothers : ∀ j, o ≠ some j → s'.watchers j = s.watchers j)
    (hself : ∀ j, o = some j → Watched s' j (s'.watchers j)) : Coherent s' := by
  have hdrop : s'.slots.drop (n.slot + 1) = s.slots.drop (n.slot + 1) := by
    obtain h | h := hslots
    · rw [h]
    · rw [h, List.drop_set_of_lt (Nat.lt_succ_self _)]
  refine ⟨hstore ▸ hs.nodup, fun id o => ?_, fun j => ?_⟩
  · have hpend : s'.pending = s.pending := by simp [pending, hn, hnotifier, hqueue]
    rw [hpend, hstore]
    exact hs.settled id o
  · by_cases ho : o = some j
    · exact hself j ho
    · rw [hothers j ho]
      refine (hs.watched j).frame (fun hmem => ?_) fun w _ _ h => h.frame ?_ hstore (fun _ => ?_) fun m hm _ hstage => ?_
      · obtain h | h := hslots <;> rw [h] at hmem
        · exact hmem
        · exact (List.mem_or_eq_of_mem_set hmem).resolve_right (by simp)
      · obtain heq | heq := hslots
        · rw [heq]
        · obtain ⟨hlt, hget⟩ := List.getElem?_eq_some_iff.mp hslot
          rw [heq, List.count_set hlt, hget]
          simp [ho]
      · simp only [outFor, hn, hnotifier, hqueue, Option.toList_some, List.filter_cons, List.filter_nil, hdrop,
          drop_of_slot hslot, List.mem_cons, Ne.symm ho, false_or]
        split <;> rfl
      · rw [hnotifier] at hm
        cases hm
        exact absurd rfl hstage

end Visit

section Deliver

theorem Tracks.phase_of_slot (h : Tracks s i w) (hslot : s.slots[n.slot]? = some (some i)) :
    w.phase ≠ .registering := by
  intro hphase
  have hzero : s.slots.count (some i) = 0 := by rw [h.slot, if_pos hphase]
  exact List.count_eq_zero.mp hzero (List.mem_of_getElem? hslot)

theorem outFor_of_slot (hn : s.notifier = some n) (hslot : s.slots[n.slot]? = some (some i)) :
    s.outFor i = n.event :: s.queue :=
  outFor_of_mem hn (by simp [drop_of_slot hslot])

variable (h : Tracks s i w) (hn : s.notifier = some n) (hslot : s.slots[n.slot]? = some (some i))
include h hn hslot

theorem Tracks.heldBack (hevent : ¬ n.event.Within w.request.ns) : Tracks (s.next n) i w := by
  have hphase := h.phase_of_slot hslot
  have hout : (s.next n).outFor i = s.queue :=
    outFor_of_not_mem rfl (not_mem_drop_of_slot hslot rfl (h.slot_eq_one hphase))
  refine { h with visited := ?_, follows := ?_ }
  · rintro _ ⟨⟩ _ hstage
    exact absurd rfl hstage
  · intro id hid o f hstarts
    have hshows := h.follows id hid o f hstarts
    rw [outFor_of_slot hn hslot] at hshows
    rw [hout]
    exact hshows.skip (effect_ne_of_not_within hevent hid)

theorem Tracks.deliver (hevent : n.event.Within w.request.ns)
    (hsame : w'.request = w.request ∧ w'.phase = w.phase ∧ w'.streams = w.streams ∧ w'.done = w.done)
    (hseen : w'.seen = w.seen ++ [n.event]) (hstream : w'.stream = w.stream ++ [n.event])
    (hearly : w.Early → w'.received = [] ∧ w'.resultChan = [] ∧ w'.backlog = w'.seen)
    (hhanded : w.HandedOver → w'.backlog = []) : Tracks ((s.put i w').next n) i w' := by
  have hphase := h.phase_of_slot hslot
  obtain ⟨hreq, hphase', hstreams, hdone⟩ := hsame
  have hout : ((s.put i w').next n).outFor i = s.queue :=
    outFor_of_not_mem rfl (not_mem_drop_of_slot hslot rfl (h.slot_eq_one hphase))
  -- what has reached the watch and what is still to reach it is the same as before
  have hall : w'.seen ++ ((s.put i w').next n).outFor i = w.seen ++ s.outFor i := by
    rw [hout, outFor_of_slot hn hslot, hseen, List.append_assoc]
    rfl
  have hfeed : w'.stream ++ ((s.put i w').next n).outFor i = w.stream ++ s.outFor i := by
    rw [hout, outFor_of_slot hn hslot, hstream, List.append_assoc]
    rfl
  have hpast : w'.Early ↔ w.Early := by simp only [Early, hphase']
  have hhands : w'.HandedOver ↔ w.HandedOver := by simp only [HandedOver, hphase']
  refine ⟨⟨hdone ▸ hphase' ▸ h.running, fun he => hearly (hpast.mp he), ?_, hstreams ▸ hphase' ▸ h.streams,
    fun hh => hhanded (hhands.mp hh), ?_⟩, hphase' ▸ h.slot, ?_, ?_⟩
  · exact fun hreg => absurd (hphase'.symm.trans hreg) hphase
  · intro id htouched
    rw [hreq]
    by_cases he : ∃ v, n.event.effect = some (id, v)
    · obtain ⟨v, he⟩ := he
      exact hevent id v he
    · refine h.within id ?_
      simpa [hstream, hseen, he] using htouched
  · rintro _ ⟨⟩ _ hstage
    exact absurd rfl hstage
  · intro id hid o f hstarts
    rw [hall, hfeed]
    rw [hreq] at hid
    refine h.follows id hid o f ?_
    simpa only [Starts, hpast, hphase', hreq] using hstarts

end Deliver

section Notify

variable (hs : Coherent s) (hw : s.watchers i = some w) (hn : s.notifier = some n)
  (hslot : s.slots[n.slot]? = some (some i))
include hs hw hn hslot

/-- The notifier goes on to a later stage at the same slot. -/
theorem Coherent.stay {stage : Stage} (hvisited : w.cancelled = false →
      n.event.Within w.request.ns ∧ (stage = .send → w.phase = .streaming)) :
    Coherent { s with notifier := some { n with stage := stage } } := by
  refine ⟨hs.nodup, fun id o => ?_, fun j => (hs.watched j).frame id fun v hv hlive hold => ?_⟩
  · simpa [World.pending, hn] using hs.settled id o
  · refine hold.frame rfl rfl (fun _ => ?_) fun m hm hatj _ => ?_
    · by_cases hmem : some j ∈ s.slots.drop n.slot <;> simp [outFor, hn, hmem]
    · cases hm
      obtain rfl : i = j := by simpa [World.notified, hslot] using hatj
      obtain rfl : w = v := Option.some.inj (hw.symm.trans hv)
      exact hvisited hlive

/-- A stopped watch is removed. -/
theorem Coherent.remove (hcancelled : w.cancelled = true) : Coherent ((s.clearSlot n).next n) := by
  refine hs.moveOn hn hslot rfl rfl rfl (.inr rfl) (fun _ _ => rfl) ?_
  rintro _ ⟨⟩
  show Watched _ i (s.watchers i)
  rw [hw]
  exact fun hlive => nomatch hcancelled.symm.trans hlive

/-- The event is held back from a watch. -/
theorem Coherent.pass (hevent : ¬ n.event.Within w.request.ns) : Coherent (s.next n) := by
  refine hs.moveOn hn hslot rfl rfl rfl (.inl rfl) (fun _ _ => rfl) ?_
  rintro _ ⟨⟩
  show Watched _ i (s.watchers i)
  rw [hw]
  exact fun hlive => (hs.tracks hw hlive).heldBack hn hslot hevent

omit hw in
/-- The callback of the watch returns. -/
theorem Coherent.deliver {w' : Watcher} (htracks : w'.cancelled = false → Tracks ((s.put i w').next n) i w') :
    Coherent ((s.put i w').next n) := by
  refine hs.moveOn hn hslot rfl rfl rfl (.inl rfl) (fun j hj => ?_) ?_
  · exact update_of_ne (fun hji => hj (congrArg some hji.symm)) ..
  · rintro _ ⟨⟩
    show Watched _ i (update s.watchers i (some w') i)
    rw [update_self]
    exact htracks

theorem Coherent.callback (hfree : s.mutexFree i w = true) (hstage : n.stage = .lock) :
    Coherent (s.callback n i w) := by
  have hat : s.notified n = some i := by simp [World.notified, hslot]
  obtain ⟨hholds, _⟩ := mutexFree_iff.mp hfree
  unfold World.callback
  split
  · next hdone =>
    refine hs.remove hw hn hslot ?_
    by_contra hlive
    exact nomatch hdone.symm.trans (hs.tracks hw (by simpa using hlive)).running.1
  split
  · next hstreams =>
    refine hs.stay hw hn hslot fun hlive => ?_
    have hold := hs.tracks hw hlive
    refine ⟨(hold.visited n hn hat (by simp [hstage])).1, fun _ => ?_⟩
    refine (hold.streams.mp hstreams).resolve_right fun hphase => ?_
    simp [Watcher.holdsMutex, hphase] at hholds
  · next hstreams =>
    refine hs.deliver hn hslot fun hlive => ?_
    have hold := hs.tracks hw hlive
    refine hold.deliver hn hslot (hold.visited n hn hat (by simp [hstage])).1 ⟨rfl, rfl, rfl, rfl⟩ rfl ?_ ?_ ?_
    · simp [Watcher.stream, Watcher.rest]
    · intro hearly
      obtain ⟨hrecv, hchan, hbacklog⟩ := hold.early hearly
      exact ⟨hrecv, hchan, by simp [hbacklog]⟩
    · -- the goroutine would hold the mutex, or the watch be in streaming mode
      intro hhanded
      unfold Watcher.HandedOver at hhanded
      split at hhanded
      · next hphase => simp [Watcher.holdsMutex, hphase] at hholds
      · next hphase => exact absurd (hold.streams.mpr (.inl hphase)) hstreams
      · next hphase => simp [Watcher.holdsMutex, hphase] at hholds
      · cases hhanded

theorem Coherent.send (hstage : n.stage = .send) (h : (w.send n.event w.phase).map (fun w' =>
      (s.put i { w' with seen := w'.seen ++ [n.event] }).next n) = some s') : Coherent s' := by
  obtain ⟨_, rfl⟩ := send_map_eq_some h
  refine hs.deliver hn hslot fun hlive => ?_
  have hold := hs.tracks hw hlive
  obtain ⟨hwithin, hphase⟩ := hold.visited n hn (by simp [World.notified, hslot]) (by simp [hstage])
  have hphase := hphase hstage
  have hempty := hold.handed (by simp [Watcher.HandedOver, hphase])
  refine hold.deliver hn hslot hwithin ⟨rfl, rfl, rfl, rfl⟩ rfl ?_ ?_ fun _ => hempty
  · simp [Watcher.stream, Watcher.rest, hphase, hempty]
  · rintro (hearly | hearly) <;> simp [hphase] at hearly

theorem Coherent.notifyWatcher (hmanaged : ∀ repo, managed repo = false)
    (h : s.notifyWatcher managed n i w = some s') : Coherent s' := by
  unfold World.notifyWatcher at h
  split at h
  · split at h
    · next hcancelled =>
      cases h
      exact hs.remove hw hn hslot hcancelled
    split at h
    · next hpasses =>
      cases h
      refine hs.stay hw hn hslot fun _ => ⟨(passes_iff hmanaged).mp hpasses, fun hsend => ?_⟩
      cases hsend
    · next hpasses =>
      cases h
      exact hs.pass hw hn hslot fun hwithin => hpasses ((passes_iff hmanaged).mpr hwithin)
  · next hstage =>
    obtain ⟨hfree, hs'⟩ := Option.ite_none_right_eq_some.mp h
    cases hs'
    exact hs.callback hw hn hslot hfree hstage
  · next hstage => exact hs.send hw hn hslot hstage h

end Notify

section

variable (hmanaged : ∀ repo, managed repo = false) (hs : Coherent s)
include hmanaged hs

theorem Coherent.notifierStep (h : s.notifierStep managed = some s') : Coherent s' := by
  obtain ⟨n, hn, h⟩ := Option.bind_eq_some_iff.mp h
  split at h
  · next hslot =>
    cases h
    refine ⟨hs.nodup, fun id => ?_, fun j => (hs.watched j).frame id fun w _ _ h => ?_⟩
    · have hpend := hs.settled id
      simp only [pending, hn] at hpend
      exact Shows.tail hpend
    · have hmem : some j ∉ s.slots.drop n.slot := by
        simp [List.drop_eq_nil_of_le (List.getElem?_eq_none_iff.mp hslot)]
      refine h.frame rfl rfl (fun _ => ?_) nofun
      rw [outFor_of_not_mem hn hmem]
      exact outFor_of_idle rfl
  · next hslot =>
    cases h
    exact hs.moveOn hn hslot rfl rfl rfl (.inl rfl) (fun _ _ => rfl) nofun
  · next i hslot =>
    obtain ⟨w, hw, h⟩ := Option.bind_eq_some_iff.mp h
    exact hs.notifyWatcher hw hn hslot hmanaged h

/-- **Every step keeps the invariant.** -/
theorem Coherent.step {e : WatchEvent} (h : s.step managed e = some s') : Coherent s' := by
  cases step_cases h with
  | change e => exact hs.change e
  | notify hn hqueue => exact hs.notify hn hqueue
  | notifierStep h => exact hs.notifierStep hmanaged h
  | watch request hnew => exact hs.watch hnew request
  | advance hw h => exact hs.advance hmanaged hw h
  | tick hw hphase hfree => exact hs.put fun hlive => (hs.tracks hw hlive).tick hphase hfree
  | finish hw hcancelled hfree => exact hs.put fun hlive => nomatch hcancelled.symm.trans hlive
  | listFails | stop => exact hs.put nofun
  | read hw hreading hchan => exact hs.put fun hlive => (hs.tracks hw hlive).read hchan
  | stopReading hw => exact hs.put fun hlive => { hs.tracks hw hlive with }

end

theorem coherent_empty : Coherent {} :=
  ⟨List.nodup_nil, fun id o => by simp [Shows, pending], fun i => List.not_mem_nil⟩

theorem Coherent.run {es : List WatchEvent} (hmanaged : ∀ repo, managed repo = false) (hs : Coherent s)
    (h : Lts.run (World.step managed) s es = some s') : Coherent s' :=
  Lts.run_keeps (fun _ _ _ hs h => hs.step hmanaged h) hs h

/-! After all notifications have been delivered -/

theorem touches_iff {id : Str × Str} {es : List Event} :
    Touches Event.effect id es ↔ ∃ e ∈ es, e.id = some id := by
  have hid : ∀ e : Event, (∃ v, e.effect = some (id, v)) ↔ e.id = some id := by
    intro e
    cases e <;> simp [Event.effect, Event.id, Event.obj]
  simp only [Touches, hid]

theorem Tracks.lookup_sent (h : Tracks s i w) (hstreams : w.streams = true) (id : Str × Str) :
    lookup objectId id (replay (w.received ++ w.resultChan)) = value Event.effect id none w.stream := by
  rw [lookup_replay]
  obtain hphase | hphase := h.streams.mp hstreams
  · have hempty := h.handed (by simp [HandedOver, hphase])
    simp [stream, rest, hphase, hempty]
  · have hempty := h.handed (by simp [HandedOver, hphase])
    simp [stream, rest, hphase, hempty, after, effect]

/-- Objects that have been changed since the watch was registered are there as they are in the
    store, whatever the filter says; the others as the filter says. -/
theorem Tracks.mem_sent (hs : Coherent s) (h : Tracks s i w) (hstreams : w.streams = true)
    (hqueue : s.queue = []) (hidle : s.notifier = none) (r : Revision) :
    r ∈ replay (w.received ++ w.resultChan) ↔ r ∈ s.store ∧ inScope w.request.ns (objectId r) = true ∧
      ((∃ e ∈ w.seen, e.id = some (objectId r)) ∨ w.request.filter.matches r = true) := by
  have hpast : ¬ w.Early := fun hearly => by simp [h.not_streams hearly] at hstreams
  rw [mem_iff_lookup nodup_replay, h.lookup_sent hstreams, mem_iff_lookup hs.nodup, ← touches_iff]
  by_cases hid : inScope w.request.ns (objectId r) = true
  · have hshows := h.follows (objectId r) hid none _ (.inr ⟨hpast, rfl, rfl⟩)
    rw [outFor_of_idle hidle, hqueue, List.append_nil, List.append_nil] at hshows
    by_cases htouched : Touches effect (objectId r) w.seen
    · simp [hshows.1 htouched, hid, htouched]
    · simp [hshows.2 htouched, hid, htouched, Option.filter_eq_some_iff]
  · have huntouched : ¬ Touches effect (objectId r) w.stream :=
      fun htouched => hid (h.within _ (touches_append.mpr (.inl htouched)))
    simp [value_of_not_touches huntouched, hid]

end Invariant

/-- **What a client has after all notifications.** For every watch that has not been stopped, in
    every run without v1alpha2-managed repositories: once nothing is left to be notified and the
    watch is in streaming mode, the events that it has sent replay to the revisions that match its
    filter exactly when all revisions that have been notified to it, and are still there, match. -/
theorem replay_eq_current_iff {managed : Str × Str → Bool} (hmanaged : ∀ repo, managed repo = false)
    {es : List WatchEvent} {s : World} (hrun : Lts.run (World.step managed) {} es = some s)
    {i : Nat} {w : Watcher} (hw : s.watchers i = some w) (hlive : w.cancelled = false)
    (hstreams : w.streams = true) (hqueue : s.queue = []) (hidle : s.notifier = none) :
    (∀ r, r ∈ replay (w.received ++ w.resultChan) ↔ r ∈ s.store ∧ w.request.filter.matches r = true) ↔
      ∀ r ∈ s.store, (∃ e ∈ w.seen, e.id = some (objectId r)) → w.request.filter.matches r = true := by
  have hs : Coherent s := coherent_empty.run hmanaged hrun
  have htracks := hs.tracks hw hlive
  have hsent := htracks.mem_sent hs hstreams hqueue hidle
  constructor
  · intro hall r hr hseen
    have hscope := htracks.within _ (touches_append.mpr (.inr (touches_iff.mpr hseen)))
    exact ((hall r).mp ((hsent r).mpr ⟨hr, hscope, .inl hseen⟩)).2
  · intro hmatch r
    rw [hsent r]
    constructor
    · rintro ⟨hr, _, hseen | hmatches⟩
      · exact ⟨hr, hmatch r hr hseen⟩
      · exact ⟨hr, hmatches⟩
    · rintro ⟨hr, hmatches⟩
      exact ⟨hr, inScope_of_matches w.request hmatches, .inr hmatches⟩

/-! A watch on one lifecycle -/

/-- A draft that is created while the watch is in streaming mode. -/
def newDraft : Revision where
  key := { pkgKey := { repoKey := { namesp := "default", name := "blueprints" }, package := "app" },
           workspaceName := "v1" }
  lifecycle := .draft

/-- A watch on the revisions of the lifecycle, and the creation of the draft. -/
def draftAppears (lifecycle : Lifecycle) : List WatchEvent :=
  .watch 0 ⟨[], { lifecycles := [lifecycle] }, false, .inl rfl⟩ :: List.replicate 6 (.advance 0) ++
    [.change (.added newDraft), .notify] ++ List.replicate 4 .notifierStep

theorem replay_eq_current_iff_drafts :
    ∃ s w, Lts.run (World.step fun _ => false) {} (draftAppears .draft) = some s ∧ s.watchers 0 = some w ∧
      ∀ r, r ∈ replay (w.received ++ w.resultChan) ↔ r ∈ s.store ∧ w.request.filter.matches r = true := by
  obtain ⟨s, hrun, ⟨hqueue, hidle⟩, w, hw, hlive, hstreams, hmatch⟩ :
      ∃ s, Lts.run (step fun _ => false) {} (draftAppears .draft) = some s ∧
        (s.queue = [] ∧ s.notifier = none) ∧ ∃ w, s.watchers 0 = some w ∧ w.cancelled = false ∧
          w.streams = true ∧
          ∀ r ∈ s.store, (∃ e ∈ w.seen, e.id = some (objectId r)) → w.request.filter.matches r = true := by
    decide +kernel
  exact ⟨s, w, hrun, hw, (replay_eq_current_iff (fun _ => rfl) hrun hw hlive hstreams hqueue hidle).mpr hmatch⟩

/-- **The filter is not applied to changes.** A watch on published revisions sends a draft that is
    created while it is in streaming mode. -/
theorem published_watch_sends_draft :
    ∃ s w, Lts.run (World.step fun _ => false) {} (draftAppears .published) = some s ∧ s.watchers 0 = some w ∧
      w.cancelled = false ∧ w.streams = true ∧ s.queue = [] ∧ s.notifier = none ∧
      newDraft ∈ replay (w.received ++ w.resultChan) ∧ w.request.filter.matches newDraft = false := by
  obtain ⟨s, hrun, w, hw, hsent⟩ :
      ∃ s, Lts.run (step fun _ => false) {} (draftAppears .published) = some s ∧
        ∃ w, s.watchers 0 = some w ∧ w.cancelled = false ∧ w.streams = true ∧ s.queue = [] ∧
          s.notifier = none ∧ newDraft ∈ replay (w.received ++ w.resultChan) ∧
          w.request.filter.matches newDraft = false := by
    decide +kernel
  exact ⟨s, w, hrun, hw, hsent⟩

/-- **No update is lost, and none of another namespace is sent.** In every state of every run without
    v1alpha2-managed repositories, what a watch that has listed and has not been stopped has sent,
    what it still has to send and what is still to be notified replay to the revisions of its
    namespace that match its filter or are among those notified to it. -/
theorem no_update_lost {managed : Str × Str → Bool} (hmanaged : ∀ repo, managed repo = false)
    {es : List WatchEvent} {s : World} (hrun : Lts.run (World.step managed) {} es = some s)
    {i : Nat} {w : Watcher} (hw : s.watchers i = some w) (hlive : w.cancelled = false) (hlisted : ¬ w.Early) :
    (∀ e ∈ w.received ++ w.resultChan, ∀ id, e.id = some id → inScope w.request.ns id = true) ∧
      ∀ r, inScope w.request.ns (objectId r) = true → (r ∈ replay (w.stream ++ s.outFor i) ↔ r ∈ s.store ∧
        ((∃ e ∈ w.seen ++ s.outFor i, e.id = some (objectId r)) ∨ w.request.filter.matches r = true)) := by
  have hs : Coherent s := coherent_empty.run hmanaged hrun
  have htracks := hs.tracks hw hlive
  refine ⟨fun e he id hid => htracks.within id (touches_iff.mpr ⟨e, ?_, hid⟩), fun r hr => ?_⟩
  · simp only [stream, List.append_assoc, List.mem_append] at he ⊢
    tauto
  · have hshows := htracks.follows (objectId r) hr none _ (.inr ⟨hlisted, rfl, rfl⟩)
    rw [mem_iff_lookup nodup_replay, lookup_replay, mem_iff_lookup hs.nodup, ← touches_iff]
    by_cases htouched : Touches effect (objectId r) (w.seen ++ s.outFor i)
    · simp [hshows.1 htouched, htouched]
    · simp [hshows.2 htouched, htouched, Option.filter_eq_some_iff]

/-- The draft has been created, and its creation not been notified. -/
theorem no_update_lost_queued : ∃ s w, Lts.run (World.step fun _ => false) {} ((draftAppears .draft).take 8) = some s ∧
    s.watchers 0 = some w ∧ s.queue ≠ [] ∧ newDraft ∈ replay (w.stream ++ s.outFor 0) := by
  obtain ⟨s, hrun, w, hw, hlive, hphase, hqueue, hstore, hdraft⟩ :
      ∃ s, Lts.run (step fun _ => false) {} ((draftAppears .draft).take 8) = some s ∧
        ∃ w, s.watchers 0 = some w ∧ w.cancelled = false ∧ w.phase = .streaming ∧ s.queue ≠ [] ∧
          newDraft ∈ s.store ∧ w.request.filter.matches newDraft = true := by
    decide +kernel
  have hlost := no_update_lost (fun _ => rfl) hrun hw hlive (by simp [Early, hphase])
  exact ⟨s, w, hrun, hw, hqueue, (hlost.2 newDraft (inScope_of_matches _ hdraft)).mpr ⟨hstore, .inr hdraft⟩⟩

end Porch.Registry.Watch
