import Mathlib.Data.Finset.Max
import Porch.PrController.MainRevision

/- When the placeholder of the main branch follows the latest revision.

   It does in every run of a repository that is cached in the database in which only the greatest
   revision has its deletion proposed or the proposal rejected, the greatest revision is not
   deleted while there are others, what the greatest revision no longer carries is kept by no
   other manager on the placeholder, and the status of a revision is written when it is published
   (`main_tracks_greatest`). The invariant
   allows for one gap: between the transition of the greatest revision and the end of its
   reconcile the placeholder may be behind. -/
namespace Porch.PrController.MainRevision

open Go K8s

/-! The condition -/

/-- No other manager keeps on the placeholder what the revision does not carry. -/
@[mk_iff]
structure Replaces (main : Main) (pr : Revision) : Prop where
  labels : main.labels.Yields .mainMeta pr.labels
  annotations : main.annotations.Yields .mainMeta pr.annotations
  readinessGates : main.readinessGates.Yields .mainMeta (omitEmpty pr.readinessGates)
  upstreamLock : main.upstreamLock.Yields .main (lockFields pr.upstreamLock)
  selfLock : main.selfLock.Yields .main (lockFields pr.selfLock)

instance (main : Main) (pr : Revision) : Decidable (Replaces main pr) :=
  decidable_of_iff _ (replaces_iff main pr).symm

def ok (st : State) : Event → Prop
  | .setLifecycle name lifecycle => lifecycleIsPublished lifecycle = true → ∀ pr ∈ st.revisions, pr.name = name →
      (pr.stored = .proposed ∧ lifecycle = .published) ∨ Greatest st pr
  | .delete name => ∀ pr ∈ st.revisions, pr.name = name → Greatest st pr →
      ∀ r ∈ st.revisions, r.numbered = true → r = pr
  | .reconcile o => st.backend = .database ∧ o.updateStatus = false ∧ o.getPackageContent ≠ some .terminal ∧
      ∀ main ∈ st.main.toList, ∀ pr ∈ st.revisions, st.queue = some pr.name → Replaces main pr
  | .setMainLifecycle lifecycle => lifecycle ≠ .published
  | .propose _ | .reconcileMain | .deleteMain => True

instance (st : State) (e : Event) : Decidable (ok st e) := by
  cases e <;> dsimp only [ok] <;> infer_instance

/-! The revisions -/

/-- What is published has a number, and only that. -/
structure Wf (r : Revision) : Prop where
  status : r.statusRevision = r.revision
  numbered : 0 < r.revision →
    lifecycleIsPublished r.lifecycle = true ∧ lifecycleIsPublished r.stored = true
  unnumbered : r.revision = 0 → lifecycleIsPublished r.stored = false ∧
    (lifecycleIsPublished r.lifecycle = true → r.lifecycle = .published ∧ r.stored = .proposed)

/-- The revisions have different names and different numbers. -/
structure Sane (st : State) : Prop where
  wf : ∀ r ∈ st.revisions, Wf r
  names : ∀ r ∈ st.revisions, ∀ r' ∈ st.revisions, r.name = r'.name → r = r'
  numbers : ∀ r ∈ st.revisions, ∀ r' ∈ st.revisions, 0 < r.revision → r.revision = r'.revision → r = r'

variable {st st' : State} {r r' pr pr' : Revision} {main : Main} {o : Outcome} {e : Event}

theorem Wf.numbered_iff (h : Wf r) : r.numbered = true ↔ 0 < r.revision := by
  simp only [Revision.numbered, Bool.and_eq_true, decide_eq_true_eq, h.status]
  exact ⟨fun h => h.2, fun hpos => ⟨(h.numbered hpos).1, hpos⟩⟩

theorem Sane.greatest_iff (h : Sane st) :
    Greatest st r ↔ r ∈ st.revisions ∧ 0 < r.revision ∧ ∀ r' ∈ st.revisions, r'.revision ≤ r.revision := by
  constructor
  · rintro ⟨hmem, hnum, hmax⟩
    refine ⟨hmem, (h.wf r hmem).numbered_iff.mp hnum, fun r' hr' => ?_⟩
    obtain hzero | hpos := Nat.eq_zero_or_pos r'.revision
    · rw [hzero]
      exact Nat.zero_le _
    · have hle := hmax r' hr' ((h.wf r' hr').numbered_iff.mpr hpos)
      rwa [(h.wf r hmem).status, (h.wf r' hr').status] at hle
  · rintro ⟨hmem, hpos, hmax⟩
    refine ⟨hmem, (h.wf r hmem).numbered_iff.mpr hpos, fun r' hr' _ => ?_⟩
    rw [(h.wf r hmem).status, (h.wf r' hr').status]
    exact hmax r' hr'

theorem Sane.mono (h : Sane st) (hsub : st'.revisions ⊆ st.revisions) : Sane st' :=
  ⟨fun r hr => h.wf r (hsub hr), fun r hr r' hr' => h.names r (hsub hr) r' (hsub hr'),
    fun r hr r' hr' => h.numbers r (hsub hr) r' (hsub hr')⟩

theorem Sane.greatest_unique (h : Sane st) (hr : Greatest st r) (hr' : Greatest st r') : r = r' := by
  obtain ⟨hmem, hpos, hmax⟩ := h.greatest_iff.mp hr
  obtain ⟨hmem', -, hmax'⟩ := h.greatest_iff.mp hr'
  exact h.numbers r hmem r' hmem' hpos (le_antisymm (hmax' r hmem) (hmax r' hmem'))

theorem Sane.exists_greatest (h : Sane st) (hr : r ∈ st.revisions) (hpos : 0 < r.revision) :
    ∃ g, Greatest st g := by
  obtain ⟨g, hg, hmax⟩ := st.revisions.toFinset.exists_max_image (·.revision) ⟨r, List.mem_toFinset.mpr hr⟩
  have hle : ∀ r' ∈ st.revisions, r'.revision ≤ g.revision := fun r' hr' => hmax r' (List.mem_toFinset.mpr hr')
  exact ⟨g, h.greatest_iff.mpr ⟨List.mem_toFinset.mp hg, hpos.trans_le (hle r hr), hle⟩⟩

/-! One revision is placed -/

variable {f : Revision → Revision}

/-- The revisions are those of before, with `pr` in the place of the one of its name. -/
def Placed (st st' : State) (pr : Revision) : Prop :=
  ∀ r, r ∈ st'.revisions ↔ (r ∈ st.revisions ∧ r.name ≠ pr.name) ∨ r = pr

theorem placed_update (h : Sane st) (hpr : pr ∈ st.revisions) (hname : (f pr).name = pr.name) :
    Placed st (st.update pr.name f) (f pr) := by
  intro r
  rw [hname]
  simp only [State.update, List.mem_map]
  constructor
  · rintro ⟨r₀, hr₀, rfl⟩
    split
    · rename_i heq
      exact .inr (by rw [h.names r₀ hr₀ pr hpr heq])
    · rename_i hne
      exact .inl ⟨hr₀, hne⟩
  · rintro (⟨hr, hne⟩ | rfl)
    · exact ⟨r, hr, if_neg hne⟩
    · exact ⟨pr, hpr, if_pos rfl⟩

theorem Placed.self (h : Placed st st' pr) : pr ∈ st'.revisions := (h pr).mpr (.inr rfl)

theorem Placed.sane (h : Placed st st' pr) (hs : Sane st) (hwf : Wf pr)
    (hnum : 0 < pr.revision → ∀ r ∈ st.revisions, r.name ≠ pr.name → r.revision ≠ pr.revision) : Sane st' := by
  refine ⟨fun r hr => ?_, fun r hr r' hr' heq => ?_, fun r hr r' hr' hpos heq => ?_⟩
  · obtain ⟨hr, -⟩ | rfl := (h r).mp hr
    · exact hs.wf r hr
    · exact hwf
  · obtain ⟨hr, hne⟩ | rfl := (h r).mp hr <;> obtain ⟨hr', hne'⟩ | rfl := (h r').mp hr'
    · exact hs.names r hr r' hr' heq
    · exact absurd heq hne
    · exact absurd heq.symm hne'
    · rfl
  · obtain ⟨hr, hne⟩ | rfl := (h r).mp hr <;> obtain ⟨hr', hne'⟩ | rfl := (h r').mp hr'
    · exact hs.numbers r hr r' hr' hpos heq
    · exact absurd heq (hnum (heq ▸ hpos) r hr hne)
    · exact absurd heq.symm (hnum hpos r' hr' hne')
    · rfl

/-- Its name, its number and what the placeholder takes from a revision stay the same. -/
structure SameData (r r' : Revision) : Prop where
  name : r'.name = r.name
  labels : r'.labels = r.labels
  annotations : r'.annotations = r.annotations
  readinessGates : r'.readinessGates = r.readinessGates
  locks : r'.locks = r.locks
  revision : r'.revision = r.revision

theorem SameData.matches (h : SameData r r') (hm : Matches main r) : Matches main r' := by
  have hup : r'.upstreamLock = r.upstreamLock := congrArg Locks.upstreamLock h.locks
  have hself : r'.selfLock = r.selfLock := congrArg Locks.selfLock h.locks
  refine ⟨fun k => ?_, fun k => ?_, ?_, fun k => ?_, fun k => ?_⟩
  · rw [h.labels]
    exact hm.labels k
  · rw [h.annotations]
    exact hm.annotations k
  · rw [h.readinessGates]
    exact hm.readinessGates
  · rw [hup]
    exact hm.upstreamLock k
  · rw [hself]
    exact hm.selfLock k

section

variable (h : Placed st st' pr') (hs : Sane st) (hd : SameData pr pr')
include h hs hd

theorem Placed.greatest_placed (hs' : Sane st') (hr : Greatest st pr) : Greatest st' pr' := by
  obtain ⟨-, hpos, hmax⟩ := hs.greatest_iff.mp hr
  refine hs'.greatest_iff.mpr ⟨h.self, hd.revision ▸ hpos, fun r hr => ?_⟩
  rw [hd.revision]
  obtain ⟨hr, -⟩ | rfl := (h r).mp hr
  · exact hmax r hr
  · exact hd.revision.le

variable (hpr : pr ∈ st.revisions)
include hpr

theorem Placed.sane_same (hwf : Wf pr') : Sane st' := by
  refine h.sane hs hwf fun hpos r hr hne heq => hne ?_
  rw [hd.revision] at heq hpos
  rw [hd.name, hs.numbers pr hpr r hr hpos heq.symm]

/-- The greatest revision is the one that it was. -/
theorem Placed.greatest_same (hs' : Sane st') (hr : Greatest st' r) :
    (r = pr' ∧ Greatest st pr) ∨ (r.name ≠ pr.name ∧ Greatest st r) := by
  obtain ⟨hmem, hpos, hmax⟩ := hs'.greatest_iff.mp hr
  have hle : ∀ r₀ ∈ st.revisions, r₀.revision ≤ r.revision := by
    intro r₀ hr₀
    by_cases hname : r₀.name = pr.name
    · rw [hs.names r₀ hr₀ pr hpr hname, ← hd.revision]
      exact hmax pr' h.self
    · exact hmax r₀ ((h r₀).mpr (.inl ⟨hr₀, hd.name ▸ hname⟩))
  obtain ⟨hmem, hne⟩ | rfl := (h r).mp hmem
  · exact .inr ⟨hd.name ▸ hne, hs.greatest_iff.mpr ⟨hmem, hpos, hle⟩⟩
  · rw [hd.revision] at hpos hle
    exact .inl ⟨rfl, hs.greatest_iff.mpr ⟨hpr, hpos, hle⟩⟩

end

/-! The refresh -/

theorem new_matches (pr : Revision) : Matches ((Main.new pr).patchMainStatus pr.locks) pr where
  labels k := by
    show ((FieldMap.create _ _).get k).value = _
    rw [FieldMap.get_create, Field.create_value]
  annotations k := by
    show ((FieldMap.create _ _).get k).value = _
    rw [FieldMap.get_create, Field.create_value]
  readinessGates := Field.create_value _ _
  upstreamLock := FieldMap.get_apply_value fun _ h => absurd h List.not_mem_nil
  selfLock := FieldMap.get_apply_value fun _ h => absurd h List.not_mem_nil

theorem refreshed_matches (h : Replaces main pr) :
    Matches ((main.patchMainSpecMetadata pr).patchMainStatus pr.locks) pr where
  labels := FieldMap.get_apply_value h.labels
  annotations := FieldMap.get_apply_value h.annotations
  readinessGates := (Field.apply_value_eq_iff _ _ _).mpr h.readinessGates
  upstreamLock := FieldMap.get_apply_value h.upstreamLock
  selfLock := FieldMap.get_apply_value h.selfLock

/-- What a refresh of the placeholder leaves alone. -/
structure OnlyMain (st st' : State) : Prop where
  revisions : st'.revisions = st.revisions
  queue : st'.queue = st.queue
  mainContent : st'.mainContent = st.mainContent

theorem createMain_onlyMain : OnlyMain st (createMainPackageRevision o pr st).2 := by
  unfold createMainPackageRevision
  split
  · exact ⟨rfl, rfl, rfl⟩
  · split
    · split_ifs <;> exact ⟨rfl, rfl, rfl⟩
    · split_ifs <;> exact ⟨rfl, rfl, rfl⟩

def Live (st : State) : Prop := ∀ main ∈ st.main, main.deletionTimestamp = false

theorem createMain_live (h : Live st) : Live (createMainPackageRevision o pr st).2 := by
  unfold createMainPackageRevision
  split
  · exact h
  · split
    · rename_i main hmain
      have hlive := h main hmain
      split_ifs
      · exact h
      · exact h
      · rintro _ ⟨⟩
        exact hlive
      · rintro _ ⟨⟩
        exact hlive
    · split_ifs
      · exact h
      · rintro _ ⟨⟩
        rfl
      · rintro _ ⟨⟩
        rfl

/-- **A refresh that succeeds** leaves what the revision carries. -/
theorem createMain_matches (h : Live st) (hdb : st.backend = .database)
    (hrep : ∀ main ∈ st.main, Replaces main pr) (hok : (createMainPackageRevision o pr st).1 = true) :
    ∀ main ∈ (createMainPackageRevision o pr st).2.main, main.lifecycle = .published → Matches main pr := by
  unfold createMainPackageRevision at hok ⊢
  rw [hdb]
  cases hmain : st.main with
  | some main =>
    simp only [hmain] at hok ⊢
    split_ifs at hok ⊢ with _ hleft
    · intro main' hmain' hpub
      obtain rfl : main = main' := Option.some.inj (hmain.symm.trans hmain')
      simp [h main hmain, hpub] at hleft
    · rintro _ ⟨⟩ -
      exact refreshed_matches (hrep main hmain)
  | none =>
    simp only [hmain] at hok ⊢
    split_ifs at hok ⊢
    rintro _ ⟨⟩ -
    exact new_matches pr

/-! The invariant -/

/-- The revision is the greatest and has made its transition, and its reconcile is not at its end. -/
structure BehindAt (st : State) (r : Revision) : Prop where
  greatest : Greatest st r
  queue : st.queue = some r.name
  stored : r.stored = r.lifecycle
  live : r.deletionTimestamp = false

def Behind (st : State) : Prop := ∃ r, BehindAt st r

structure Inv (st : State) : Prop extends Sane st where
  live : Live st
  deleting : ∀ r ∈ st.revisions, r.deletionTimestamp = true → st.queue = some r.name ∧
    (Greatest st r → ∀ r' ∈ st.revisions, r'.numbered = true → r' = r)
  due : ∀ r ∈ st.revisions, st.queue = some r.name → r.deletionTimestamp = false →
    lifecycleIsPublished r.lifecycle = true → r.stored ≠ r.lifecycle → r.revision = 0 ∨ Greatest st r
  content : ∀ r, Greatest st r → st.mainContent = some r.locks
  tracks : Tracks st ∨ Behind st

theorem Inv.tracks_of_quiet (h : Inv st) (hq : st.queue = none) : Tracks st := by
  obtain htracks | ⟨r, hr⟩ := h.tracks
  · exact htracks
  · exact nomatch hq.symm.trans hr.queue

theorem Inv.deleting_eq (h : Inv st) (hpr : pr ∈ st.revisions) (hq : st.queue = some pr.name)
    (hr : r ∈ st.revisions) (hdel : r.deletionTimestamp = true) : r = pr :=
  h.names r hr pr hpr (Option.some.inj ((h.deleting r hr hdel).1.symm.trans hq))

theorem greatest_congr (h : st'.revisions = st.revisions) : Greatest st' r ↔ Greatest st r :=
  ⟨fun ⟨hmem, hnum, hmax⟩ => ⟨h ▸ hmem, hnum, fun r' hr' => hmax r' (h ▸ hr')⟩,
    fun ⟨hmem, hnum, hmax⟩ => ⟨h ▸ hmem, hnum, fun r' hr' => hmax r' (h ▸ hr')⟩⟩

theorem Inv.onlyMain (h : Inv st) (hsame : OnlyMain st st') (hlive : Live st')
    (htracks : Tracks st' ∨ Behind st) : Inv st' := by
  have hgreatest : ∀ r, Greatest st' r ↔ Greatest st r := fun r => greatest_congr hsame.revisions
  refine ⟨h.toSane.mono (hsame.revisions ▸ List.Subset.refl _), hlive, ?_, ?_, ?_, ?_⟩
  · rw [hsame.revisions, hsame.queue]
    exact fun r hr hdel => ⟨(h.deleting r hr hdel).1, fun hg => (h.deleting r hr hdel).2 ((hgreatest r).mp hg)⟩
  · rw [hsame.revisions, hsame.queue]
    exact fun r hr hq hdel hpub hne => (h.due r hr hq hdel hpub hne).imp_right (hgreatest r).mpr
  · rw [hsame.mainContent]
    exact fun r hg => h.content r ((hgreatest r).mp hg)
  · refine htracks.imp_right ?_
    rintro ⟨r, hr⟩
    exact ⟨r, (hgreatest r).mpr hr.greatest, hsame.queue.trans hr.queue, hr.stored, hr.live⟩

theorem Inv.done (h : Inv st) (hpr : pr ∈ st.revisions) (hq : st.queue = some pr.name)
    (hdel : pr.deletionTimestamp = false) (htracks : Tracks st) : Inv st.done := by
  have hgreatest : ∀ r, Greatest st.done r → Greatest st r :=
    fun r => (greatest_congr (show st.done.revisions = st.revisions from rfl)).mp
  refine ⟨h.toSane.mono (List.Subset.refl _), h.live, fun r hr hdel' => ?_, fun r hr hq' => (nomatch hq'),
    fun r hg => h.content r (hgreatest r hg), .inl fun r hg => htracks r (hgreatest r hg)⟩
  rw [h.deleting_eq hpr hq hr hdel', hdel] at hdel'
  cases hdel'

/-- A revision changes, but neither its number nor what the placeholder takes from it. -/
theorem Inv.change (h : Inv st) (htracks : Tracks st) (hq : ∀ name ∈ st.queue, name = pr.name)
    (hpr : pr ∈ st.revisions) (hd : SameData pr (f pr)) (hwf : Wf (f pr))
    (hdel : (f pr).deletionTimestamp = true → Greatest st pr →
      ∀ r ∈ st.revisions, r.numbered = true → r = pr)
    (hdue : (f pr).deletionTimestamp = false → lifecycleIsPublished (f pr).lifecycle = true →
      (f pr).stored ≠ (f pr).lifecycle → pr.revision = 0 ∨ Greatest st pr) :
    Inv { st.update pr.name f with queue := some pr.name } := by
  have hplaced : Placed st { st.update pr.name f with queue := some pr.name } (f pr) :=
    placed_update h.toSane hpr hd.name
  have hsane := hplaced.sane_same h.toSane hd hpr hwf
  refine ⟨hsane, h.live, fun r hr hdel' => ?_, fun r hr hq' hdel' hpub hne => ?_, fun r hg => ?_, .inl ?_⟩
  · obtain ⟨hr, hne⟩ | rfl := (hplaced r).mp hr
    · exact absurd ((hq r.name (h.deleting r hr hdel').1).trans hd.name.symm) hne
    · refine ⟨congrArg some hd.name.symm, fun hg r hr hnum => ?_⟩
      obtain ⟨-, hgreatest⟩ | ⟨hne, -⟩ := hplaced.greatest_same h.toSane hd hpr hsane hg
      · obtain ⟨hr, hne⟩ | rfl := (hplaced r).mp hr
        · exact absurd ((congrArg Revision.name (hdel hdel' hgreatest r hr hnum)).trans hd.name.symm) hne
        · rfl
      · exact absurd hd.name hne
  · obtain rfl := hsane.names (f pr) hplaced.self r hr (hd.name.trans (Option.some.inj hq'))
    rw [hd.revision]
    exact (hdue hdel' hpub hne).imp_right (hplaced.greatest_placed h.toSane hd hsane)
  · obtain ⟨rfl, hgreatest⟩ | ⟨-, hgreatest⟩ := hplaced.greatest_same h.toSane hd hpr hsane hg
    · rw [hd.locks]
      exact h.content pr hgreatest
    · exact h.content r hgreatest
  · intro r hg main hmain hpub
    obtain ⟨rfl, hgreatest⟩ | ⟨-, hgreatest⟩ := hplaced.greatest_same h.toSane hd hpr hsane hg
    · exact hd.matches (htracks pr hgreatest main hmain hpub)
    · exact htracks r hgreatest main hmain hpub

/-! The reconcile -/

variable {name : Str}

theorem find_some (h : st.find name = some pr) : pr ∈ st.revisions ∧ pr.name = name :=
  ⟨List.mem_of_find?_eq_some h, by simpa using List.find?_some h⟩

theorem Sane.find (h : Sane st) (hpr : pr ∈ st.revisions) : st.find pr.name = some pr := by
  match hfind : st.find pr.name with
  | some r =>
    obtain ⟨hr, hname⟩ := find_some hfind
    rw [h.names r hr pr hpr hname]
  | none => exact absurd (decide_eq_true rfl) (List.find?_eq_none.mp hfind pr hpr)

theorem Wf.withStatus (h : Wf r) : r.withStatus = r := by
  have hstat : (if lifecycleIsPublished r.stored = true then r.revision else r.statusRevision) = r.statusRevision := by
    rw [h.status, ite_self]
  unfold Revision.withStatus
  rw [hstat]

theorem Sane.updateStatus_eq (h : Sane st) (name : Str) : updateStatus o name st = st := by
  unfold updateStatus
  split
  · rfl
  · have hmap : st.revisions.map (fun r => if r.name = name then r.withStatus else r) = st.revisions := by
      refine (List.map_congr_left fun r hr => ?_).trans (List.map_id _)
      rw [(h.wf r hr).withStatus, ite_self]
      rfl
    unfold State.update
    rw [hmap]

theorem Sane.of_stands (h : Sane st) (hpr : pr ∈ st.revisions) {n : Int}
    (hst : Sibling.Stands pr.sibling st.siblings n name) :
    ∃ r ∈ st.revisions, r.name = name ∧ (r.revision : Int) = n := by
  have hself : (pr.statusRevision : Int) = pr.revision := congrArg _ (h.wf pr hpr).status
  obtain ⟨hpos, ⟨-, hrev, hname⟩ | ⟨rev, hrev, -, hobs, hname⟩⟩ := hst
  · exact ⟨pr, hpr, hname, hself.symm.trans hrev⟩
  · unfold Sibling.observed at hobs
    split at hobs
    · rename_i heq
      exact ⟨pr, hpr, heq.1.symm.trans hname, hself.symm.trans hobs⟩
    · rw [State.siblings, List.mem_append, List.mem_map, List.mem_map] at hrev
      obtain ⟨r, hr, rfl⟩ | ⟨main, -, rfl⟩ := hrev
      · exact ⟨r, hr, hname, (congrArg _ (h.wf r hr).status.symm).trans hobs⟩
      · have hminus : (-1 : Int) = n := hobs
        omega

section

variable (h : Inv st) (hpr : pr ∈ st.revisions) (hq : st.queue = some pr.name)
include h hpr hq

/-- The latest revision is the greatest one. -/
theorem Inv.latestName_eq
    (hdel : pr.deletionTimestamp = false) {g : Revision} (hg : Greatest st g) :
    Sibling.latestName pr.sibling st.siblings = some g.name := by
  obtain ⟨hmem, hpos, hmax⟩ := h.toSane.greatest_iff.mp hg
  have hself : (g.statusRevision : Int) = g.revision := congrArg _ (h.wf g hmem).status
  have hlive : g.deletionTimestamp = false := by
    refine Bool.eq_false_iff.mpr fun hgdel => ?_
    rw [h.deleting_eq hpr hq hmem hgdel, hdel] at hgdel
    cases hgdel
  have heligible : g.sibling.eligible = true := by
    simp [Sibling.eligible, Revision.sibling, hlive, ((h.wf g hmem).numbered hpos).1]
  refine Sibling.latestName_eq (n := g.revision) ⟨by exact_mod_cast hpos, .inr ⟨g.sibling, ?_, heligible, ?_, rfl⟩⟩ ?_
  · exact List.mem_append_left _ (List.mem_map_of_mem hmem)
  · unfold Sibling.observed
    split
    · rename_i heq
      have hname : g.name = pr.name := heq.1
      obtain rfl := h.names g hmem pr hpr hname
      exact hself
    · exact hself
  · intro n name hst
    obtain ⟨r, hr, rfl, rfl⟩ := h.toSane.of_stands hpr hst
    obtain heq | hlt := (hmax r hr).eq_or_lt
    · exact .inl (congrArg _ (h.numbers g hmem r hr hpos heq.symm).symm)
    · exact .inr (by exact_mod_cast hlt)

theorem Inv.tracks_of_not_behind
    (hnot : ¬ (Greatest st pr ∧ pr.stored = pr.lifecycle ∧ pr.deletionTimestamp = false)) : Tracks st := by
  obtain htracks | ⟨r, hr⟩ := h.tracks
  · exact htracks
  · obtain rfl := h.names r hr.greatest.mem pr hpr (Option.some.inj (hr.queue.symm.trans hq))
    exact absurd ⟨hr.greatest, hr.stored, hr.live⟩ hnot

theorem Inv.refresh (hdel : pr.deletionTimestamp = false) (hsame : pr.stored = pr.lifecycle)
    (hdb : st.backend = .database) (hrep : ∀ main ∈ st.main, Replaces main pr) : Inv (refresh o pr st) := by
  unfold MainRevision.refresh
  rw [h.toSane.updateStatus_eq]
  dsimp only
  split
  · rename_i hpub
    have hpos : 0 < pr.revision := by
      refine Nat.pos_of_ne_zero fun hzero => ?_
      have hun := ((h.wf pr hpr).unnumbered hzero).1
      rw [hsame, hpub] at hun
      cases hun
    obtain ⟨g, hg⟩ := h.toSane.exists_greatest hpr hpos
    rw [h.latestName_eq hpr hq hdel hg]
    split_ifs with hlabels hlat hok
    · exact h
    · have hgpr : g = pr := h.names g hg.mem pr hpr (Option.some.inj hlat)
      subst hgpr
      have hmatches := createMain_matches h.live hdb hrep hok
      have honly : OnlyMain st (createMainPackageRevision o g st).2 := createMain_onlyMain
      have htracks : Tracks (createMainPackageRevision o g st).2 := by
        intro r hr
        rw [h.toSane.greatest_unique ((greatest_congr honly.revisions).mp hr) hg]
        exact hmatches
      have hinv := h.onlyMain honly (createMain_live h.live) (.inl htracks)
      exact hinv.done (honly.revisions ▸ hpr) (honly.queue.trans hq) hdel htracks
    · have hgpr : g = pr := h.names g hg.mem pr hpr (Option.some.inj hlat)
      subst hgpr
      exact h.onlyMain createMain_onlyMain (createMain_live h.live) (.inr ⟨g, hg, hq, hsame, hdel⟩)
    · refine h.done hpr hq hdel (h.tracks_of_not_behind hpr hq fun hbehind => hlat ?_)
      rw [h.toSane.greatest_unique hg hbehind.1]
  · rename_i hpub
    refine h.done hpr hq hdel (h.tracks_of_not_behind hpr hq fun hbehind => hpub ?_)
    obtain ⟨hmem, hpos, -⟩ := h.toSane.greatest_iff.mp hbehind.1
    exact ((h.wf pr hmem).numbered hpos).1

end

/-! A transition -/

theorem lt_nextRevision (h : r ∈ st.revisions) : r.revision < st.nextRevision := by
  have hle : ∀ (ns : List Nat), ∀ n ∈ ns, n ≤ ns.foldr max 0 := by
    intro ns
    induction ns with
    | nil => exact nofun
    | cons m ns ih =>
      intro n hn
      obtain rfl | hn := List.mem_cons.mp hn
      · exact le_max_left _ _
      · exact (ih n hn).trans (le_max_right _ _)
  exact Nat.lt_succ_of_le (hle _ _ (List.mem_map_of_mem h))

/-- What a transition of the greatest revision leaves. -/
structure Moved (st st' : State) (pr : Revision) : Prop where
  inv : Inv st'
  behind : ∃ pr', BehindAt st' pr' ∧ pr'.name = pr.name

/-- **A first publish** makes the revision the greatest. -/
theorem Inv.publish (h : Inv st) (hpr : pr ∈ st.revisions) (hq : st.queue = some pr.name)
    (hdel : pr.deletionTimestamp = false) (hlc : pr.lifecycle = .published) (lock : Locator)
    (hf : f pr = (pr.publishedAs st.nextRevision lock).withStatus) :
    Moved st { st.update pr.name f with mainContent := some (f pr).locks } pr := by
  have hname : (f pr).name = pr.name := by rw [hf]; rfl
  have hplaced : Placed st { st.update pr.name f with mainContent := some (f pr).locks } (f pr) :=
    placed_update h.toSane hpr hname
  have hrevision : (f pr).revision = st.nextRevision := by rw [hf]; rfl
  have hwf : Wf (f pr) := by
    rw [hf]
    refine ⟨rfl, fun _ => ⟨?_, rfl⟩, fun hzero => nomatch hzero⟩
    show lifecycleIsPublished pr.lifecycle = true
    rw [hlc]
    rfl
  have hsane := hplaced.sane h.toSane hwf fun _ r hr _ => hrevision ▸ (lt_nextRevision hr).ne
  have hgreatest : Greatest { st.update pr.name f with mainContent := some (f pr).locks } (f pr) := by
    refine hsane.greatest_iff.mpr ⟨hplaced.self, hrevision ▸ Nat.succ_pos _, fun r hr => ?_⟩
    obtain ⟨hr, -⟩ | rfl := (hplaced r).mp hr
    · exact hrevision ▸ (lt_nextRevision hr).le
    · exact le_rfl
  have hbehind : BehindAt { st.update pr.name f with mainContent := some (f pr).locks } (f pr) :=
    ⟨hgreatest, hq.trans (congrArg some hname.symm), by rw [hf]; exact hlc.symm, by rw [hf]; exact hdel⟩
  refine ⟨⟨hsane, h.live, fun r hr hdel' => ?_, fun r hr hq' _ _ hne => ?_, fun r hr => ?_, .inr ⟨_, hbehind⟩⟩,
    _, hbehind, hname⟩
  · obtain ⟨hr, hne⟩ | rfl := (hplaced r).mp hr
    · exact absurd ((congrArg Revision.name (h.deleting_eq hpr hq hr hdel')).trans hname.symm) hne
    · exact nomatch hbehind.live.symm.trans hdel'
  · obtain rfl := hsane.names (f pr) hgreatest.mem r hr (Option.some.inj (hbehind.queue.symm.trans hq'))
    exact absurd hbehind.stored hne
  · rw [hsane.greatest_unique hr hgreatest]

theorem update_update (name : Str) {g : Revision → Revision} (hf : ∀ r, (f r).name = r.name) :
    (st.update name f).update name g = st.update name fun r => g (f r) := by
  unfold State.update
  simp only [List.map_map, State.mk.injEq, and_true, true_and]
  refine List.map_congr_left fun r _ => ?_
  by_cases hname : r.name = name
  · simp [hname, hf]
  · simp [hname]

section

variable (h : Inv st) (hpr : pr ∈ st.revisions) (hq : st.queue = some pr.name)
include h hpr hq

section

variable (hdel : pr.deletionTimestamp = false) (hne : pr.stored ≠ pr.lifecycle)
  (hdb : st.backend = .database) (hstat : o.updateStatus = false)
include hdel hne

theorem Inv.storedAs (hwf : Wf { pr with stored := pr.lifecycle }) :
    Inv (st.update pr.name fun r => { r with stored := pr.lifecycle }) := by
  have htracks := h.tracks_of_not_behind hpr hq fun hbehind => hne hbehind.2.1
  have hqueue : ∀ name ∈ st.queue, name = pr.name := fun name hname => Option.some.inj (hname.symm.trans hq)
  have hinv := h.change (f := fun r => { r with stored := pr.lifecycle }) htracks hqueue hpr
    ⟨rfl, rfl, rfl, rfl, rfl, rfl⟩ hwf (fun hdel' => nomatch hdel.symm.trans hdel') fun _ _ hne' => absurd rfl hne'
  rw [← hq] at hinv
  exact hinv

include hdb hstat

/-- A transition to a published lifecycle. -/
theorem Inv.moved (hpub : lifecycleIsPublished pr.lifecycle = true) :
    Moved st (updateStatus o pr.name (updateLifecycle o pr st)) pr := by
  have hdue := h.due pr hpr hq hdel hpub hne
  unfold updateLifecycle
  split
  · rename_i hfirst
    unfold updateStatus
    rw [hstat, if_neg Bool.false_ne_true, hdb]
    have hcompose : (st.update pr.name (·.publishedAs st.nextRevision o.lock)).update pr.name
        Revision.withStatus = st.update pr.name fun r => (r.publishedAs st.nextRevision o.lock).withStatus :=
      update_update pr.name fun _ => rfl
    show Moved st { (st.update pr.name _).update pr.name Revision.withStatus with mainContent := _ } pr
    rw [hcompose]
    exact h.publish hpr hq hdel hfirst.2 o.lock rfl
  · rename_i hother
    have hg : Greatest st pr := hdue.resolve_left fun hzero =>
      hother (((h.wf pr hpr).unnumbered hzero).2 hpub).symm
    obtain ⟨-, hpos, -⟩ := h.toSane.greatest_iff.mp hg
    have hinv := h.storedAs hpr hq hdel hne ⟨(h.wf pr hpr).status,
      fun _ => ⟨hpub, hpub⟩, fun hzero => absurd hzero hpos.ne'⟩
    have hplaced := placed_update (f := fun r => { r with stored := pr.lifecycle }) h.toSane hpr rfl
    have hg' := hplaced.greatest_placed h.toSane (show SameData pr _ from ⟨rfl, rfl, rfl, rfl, rfl, rfl⟩)
      hinv.toSane hg
    rw [hinv.toSane.updateStatus_eq]
    exact ⟨hinv, _, ⟨hg', hq, rfl, hdel⟩, rfl⟩

theorem Inv.transition : Inv (transition o pr st) := by
  unfold MainRevision.transition
  split
  · rw [h.toSane.updateStatus_eq]
    exact h
  · match o.updateLifecycle with
    | some .transient => exact h
    | some .terminal => exact h.done hpr hq hdel (h.tracks_of_not_behind hpr hq fun hbehind => hne hbehind.2.1)
    | none =>
      dsimp only [afterTransition]
      split
      · rename_i hpub
        obtain ⟨hinv, pr', hbehind, hname⟩ := h.moved hpr hq hdel hne hdb hstat hpub
        have hfind := hinv.toSane.find hbehind.greatest.mem
        rw [hname] at hfind
        rw [hfind]
        exact hinv.onlyMain createMain_onlyMain (createMain_live hinv.live) (.inr ⟨pr', hbehind⟩)
      · rename_i hpub
        have hzero : pr.revision = 0 := by
          by_contra hpos
          exact hpub ((h.wf pr hpr).numbered (Nat.pos_of_ne_zero hpos)).1
        have hfirst : ¬ (pr.stored = .proposed ∧ pr.lifecycle = .published) := by
          rintro ⟨-, hlc⟩
          rw [hlc] at hpub
          exact hpub rfl
        have hlater : lifecycleIsPublished pr.lifecycle = false := Bool.not_eq_true _ ▸ hpub
        unfold updateLifecycle
        rw [if_neg hfirst]
        have hinv := h.storedAs hpr hq hdel hne ⟨(h.wf pr hpr).status, fun hpos => absurd hzero hpos.ne',
          fun _ => ⟨hlater, fun hpub' => absurd hpub' hpub⟩⟩
        have hself := (placed_update (f := fun r => { r with stored := pr.lifecycle }) h.toSane hpr rfl).self
        rw [hinv.toSane.updateStatus_eq]
        refine hinv.done hself hq hdel (hinv.tracks_of_not_behind hself hq fun hbehind => ?_)
        obtain ⟨-, hpos, -⟩ := hinv.toSane.greatest_iff.mp hbehind.1
        exact hpos.ne' hzero

end

theorem Inv.handleDeletion (hdel : pr.deletionTimestamp = true) : Inv (handleDeletion o pr st) := by
  unfold MainRevision.handleDeletion
  split
  · exact h
  · have hmem : ∀ r, r ∈ st.revisions.filter (·.name ≠ pr.name) ↔ r ∈ st.revisions ∧ r.name ≠ pr.name := by
      simp
    have hsane : Sane { st.done with revisions := st.revisions.filter (·.name ≠ pr.name) } :=
      h.toSane.mono fun r hr => ((hmem r).mp hr).1
    have hgreatest : ∀ r, Greatest { st.done with revisions := st.revisions.filter (·.name ≠ pr.name) } r →
        Greatest st r := by
      intro r hgr
      obtain ⟨hr', hpos, hmax⟩ := hsane.greatest_iff.mp hgr
      obtain ⟨hr, hne⟩ := (hmem r).mp hr'
      obtain ⟨g, hg⟩ := h.toSane.exists_greatest hr hpos
      obtain ⟨hgmem, -, hgmax⟩ := h.toSane.greatest_iff.mp hg
      by_cases hname : g.name = pr.name
      · obtain rfl := h.names g hgmem pr hpr hname
        have honly := (h.deleting g hpr hdel).2 hg r hr ((h.wf r hr).numbered_iff.mpr hpos)
        exact absurd (congrArg Revision.name honly) hne
      · have hle := hmax g ((hmem g).mpr ⟨hgmem, hname⟩)
        exact h.toSane.greatest_iff.mpr ⟨hr, hpos, fun r' hr' => (hgmax r' hr').trans hle⟩
    refine ⟨hsane, h.live, fun r hr hdel' => ?_, fun r hr hq' => (nomatch hq'),
      fun r hg => h.content r (hgreatest r hg), .inl fun r hg => ?_⟩
    · obtain ⟨hr, hne⟩ := (hmem r).mp hr
      exact absurd (congrArg Revision.name (h.deleting_eq hpr hq hr hdel')) hne
    · have htracks := h.tracks_of_not_behind hpr hq fun hbehind => nomatch hdel.symm.trans hbehind.2.2
      exact htracks r (hgreatest r hg)

theorem Inv.reconcile (hok : ok st (.reconcile o)) : Inv (reconcile o pr st) := by
  obtain ⟨hdb, hstat, hcont, hrep⟩ := hok
  unfold MainRevision.reconcile
  split
  · rename_i hdel
    exact h.handleDeletion hpr hq hdel
  · rename_i hdel
    have hlive : pr.deletionTimestamp = false := Bool.not_eq_true _ ▸ hdel
    unfold reconcileLifecycle
    match hread : o.getPackageContent with
    | some .transient => exact h
    | some .terminal => exact absurd hread hcont
    | none =>
      dsimp only
      split
      · rename_i hsame
        exact h.refresh hpr hq hlive hsame hdb fun main hmain => hrep main (Option.mem_toList.mpr hmain) pr hpr hq
      · rename_i hne
        exact h.transition hpr hq hlive hne hdb hstat

end

/-! The steps -/

theorem mayBecome_published {old new : Lifecycle} (h : mayBecome old new = true)
    (hold : lifecycleIsPublished old = true) : lifecycleIsPublished new = true := by
  cases old <;> cases new <;> first | rfl | exact absurd hold (by decide) | exact absurd h (by decide)

theorem act_some {may : Revision → Bool} (h : st.act name may f = some st') :
    ∃ pr ∈ st.revisions, st.queue = none ∧ may pr = true ∧ name = pr.name ∧
      st' = { st.update pr.name f with queue := some pr.name } := by
  unfold State.act at h
  split at h
  · rename_i pr hfind
    obtain ⟨hpr, rfl⟩ := find_some hfind
    split at h
    · rename_i hguard
      cases h
      exact ⟨pr, hpr, hguard.1, hguard.2, rfl, rfl⟩
    · cases h
  · cases h

theorem Inv.setLifecycle (h : Inv st) (hq : st.queue = none) (hpr : pr ∈ st.revisions) {lifecycle : Lifecycle}
    (hmay : mayBecome pr.lifecycle lifecycle = true) (hok : ok st (.setLifecycle pr.name lifecycle)) :
    Inv { st.update pr.name (fun pr => { pr with lifecycle := lifecycle }) with queue := some pr.name } := by
  have hwf := h.wf pr hpr
  have hzero : lifecycleIsPublished lifecycle = true → pr.revision = 0 →
      lifecycle = .published ∧ pr.stored = .proposed := by
    intro hpub hzero
    obtain ⟨hsto, hlc⟩ | hg := hok hpub pr hpr rfl
    · exact ⟨hlc, hsto⟩
    · exact absurd hzero (h.toSane.greatest_iff.mp hg).2.1.ne'
  refine h.change (h.tracks_of_quiet hq) (fun name hname => nomatch hq.symm.trans hname) hpr
    ⟨rfl, rfl, rfl, rfl, rfl, rfl⟩
    ⟨hwf.status, fun hpos => ?_, fun hz => ⟨(hwf.unnumbered hz).1, fun hpub => hzero hpub hz⟩⟩
    (fun hdel => ?_) fun _ hpub _ => ?_
  · obtain ⟨hpub, hstored⟩ := hwf.numbered hpos
    exact ⟨mayBecome_published hmay hpub, hstored⟩
  · exact nomatch hq.symm.trans (h.deleting pr hpr hdel).1
  · obtain ⟨hsto, -⟩ | hg := hok hpub pr hpr rfl
    · refine .inl (Nat.eq_zero_of_not_pos fun hpos => ?_)
      have hpublished := (hwf.numbered hpos).2
      rw [hsto] at hpublished
      cases hpublished
    · exact .inr hg

theorem Inv.delete (h : Inv st) (hq : st.queue = none) (hpr : pr ∈ st.revisions)
    (hok : ok st (.delete pr.name)) :
    Inv { st.update pr.name (fun pr => { pr with deletionTimestamp := true }) with queue := some pr.name } := by
  have hwf := h.wf pr hpr
  exact h.change (h.tracks_of_quiet hq) (fun name hname => nomatch hq.symm.trans hname) hpr
    ⟨rfl, rfl, rfl, rfl, rfl, rfl⟩ ⟨hwf.status, hwf.numbered, hwf.unnumbered⟩ (fun _ => hok pr hpr rfl)
    fun hdel => nomatch hdel

theorem Inv.propose (h : Inv st) (hq : st.queue = none) (hfresh : (st.find pr.name).isNone = true) :
    Inv { st with revisions := State.proposed pr :: st.revisions } := by
  have hne : ∀ r ∈ st.revisions, r.name ≠ pr.name := by
    intro r hr hname
    rw [← hname, h.toSane.find hr] at hfresh
    cases hfresh
  have hzero : (State.proposed pr).revision = 0 := rfl
  have hplaced : Placed st { st with revisions := State.proposed pr :: st.revisions } (State.proposed pr) := by
    intro r
    refine List.mem_cons.trans (or_comm.trans (or_congr_left (iff_self_and.mpr fun hr => hne r hr)))
  have hsane := hplaced.sane h.toSane ⟨rfl, fun hpos => absurd hzero hpos.ne', fun _ => ⟨rfl, nofun⟩⟩
    fun hpos => absurd hzero hpos.ne'
  have hgreatest : ∀ r, Greatest { st with revisions := State.proposed pr :: st.revisions } r → Greatest st r := by
    intro r hr
    obtain ⟨hmem, hpos, hmax⟩ := hsane.greatest_iff.mp hr
    obtain rfl | hmem := List.mem_cons.mp hmem
    · exact absurd hzero hpos.ne'
    · exact h.toSane.greatest_iff.mpr ⟨hmem, hpos, fun r' hr' => hmax r' (List.mem_cons_of_mem _ hr')⟩
  refine ⟨hsane, h.live, fun r hr hdel => ?_, fun r hr hq' => (nomatch hq.symm.trans hq'),
    fun r hg => h.content r (hgreatest r hg), .inl fun r hg => h.tracks_of_quiet hq r (hgreatest r hg)⟩
  obtain rfl | hr := List.mem_cons.mp hr
  · cases hdel
  · exact nomatch hq.symm.trans (h.deleting r hr hdel).1

theorem Inv.reconcileMain (h : Inv st) {main : Main} {locks : Locks} (hmain : st.main = some main)
    (hcont : st.mainContent = some locks) : Inv (st.withMain (main.applyLocks .controller locks)) := by
  refine h.onlyMain ⟨rfl, rfl, rfl⟩ ?_ (h.tracks.imp_left fun htracks r hr main' hmain' hpub => ?_)
  · rintro _ ⟨⟩
    exact h.live main hmain
  · cases hmain'
    have hsame : (st.withMain (main.applyLocks .controller locks)).revisions = st.revisions := rfl
    have hg : Greatest st r := (greatest_congr hsame).mp hr
    have hm := htracks r hg main hmain hpub
    have hlocks : locks = r.locks := Option.some.inj (hcont.symm.trans (h.content r hg))
    -- what is applied is what is there
    have hkept : ∀ {f : FieldMap Str Manager Str} {v : Labels}, (∀ k, (f.get k).value = v.lookup k) →
        ∀ k, ((f.apply .controller v).get k).value = v.lookup k := by
      intro f v hv k
      rw [FieldMap.get_apply, ← hv k, Field.apply_value_self]
    subst hlocks
    exact ⟨hm.labels, hm.annotations, hm.readinessGates, hkept hm.upstreamLock, hkept hm.selfLock⟩

theorem inv_step (h : Inv st) (hok : ok st e) (hstep : st.step e = some st') : Inv st' := by
  cases e with
  | propose pr =>
    simp only [State.step, Option.ite_none_right_eq_some, Option.some.injEq] at hstep
    obtain ⟨⟨hq, hfresh⟩, rfl⟩ := hstep
    exact h.propose hq hfresh
  | setLifecycle name lifecycle =>
    obtain ⟨pr, hpr, hq, hmay, rfl, rfl⟩ := act_some hstep
    exact h.setLifecycle hq hpr hmay hok
  | delete name =>
    obtain ⟨pr, hpr, hq, -, rfl, rfl⟩ := act_some hstep
    exact h.delete hq hpr hok
  | reconcile o =>
    simp only [State.step] at hstep
    split at hstep
    · rename_i pr hfind
      obtain ⟨name, hq, hname⟩ := Option.bind_eq_some_iff.mp hfind
      obtain ⟨hpr, rfl⟩ := find_some hname
      cases hstep
      exact h.reconcile hpr hq hok
    · cases hstep
  | reconcileMain =>
    simp only [State.step] at hstep
    split at hstep
    · rename_i hmain hcont
      cases hstep
      exact h.reconcileMain hmain hcont
    · cases hstep
  | setMainLifecycle lifecycle =>
    obtain ⟨main, hmain, rfl⟩ := Option.map_eq_some_iff.mp hstep
    refine h.onlyMain ⟨rfl, rfl, rfl⟩ ?_ (.inl fun r _ main' hmain' hpub => ?_)
    · rintro _ ⟨⟩
      exact h.live main hmain
    · cases hmain'
      exact absurd hpub hok
  | deleteMain =>
    obtain ⟨main, -, rfl⟩ := Option.map_eq_some_iff.mp hstep
    exact h.onlyMain ⟨rfl, rfl, rfl⟩ nofun (.inl fun r _ main' hmain' => nomatch hmain')

theorem inv_init (backend : Backend) : Inv { backend := backend } :=
  ⟨⟨nofun, nofun, nofun⟩, nofun, nofun, nofun, fun _ hg => (nomatch hg.mem), .inl fun _ _ _ hmain => (nomatch hmain)⟩

/-- **The placeholder follows the greatest revision.** In every run whose steps meet the
    condition it carries, whenever no reconcile is queued, what the greatest published revision
    carries. -/
theorem main_tracks_greatest {backend : Backend} {es : List Event}
    (hok : Lts.Along State.step ok { backend := backend } es)
    (hrun : Lts.run State.step { backend := backend } es = some st) (hq : st.queue = none) : Tracks st := by
  have hinv : Inv st :=
    Lts.run_invariant (fun _ _ _ h hok hstep => inv_step h hok hstep) (inv_init backend) hok hrun
  exact hinv.tracks_of_quiet hq

/-- Two revisions are published, and the deletion of the second one is proposed and rejected. -/
def newerProposed : List Event :=
  publish "v1" "gold" ++ publish "v2" "silver" ++
    [.setLifecycle "v2" .deletionProposed, .reconcile smooth, .reconcile smooth, .reconcileMain,
     .setLifecycle "v2" .published, .reconcile smooth, .reconcile smooth]

theorem main_tracks_greatest_newer :
    ∃ st, Lts.run State.step {} newerProposed = some st ∧ st.queue = none ∧ Tracks st := by
  refine Lts.exists_reached (by decide +kernel) fun st hst hq => ?_
  exact main_tracks_greatest (by decide +kernel) hst hq

end Porch.PrController.MainRevision
