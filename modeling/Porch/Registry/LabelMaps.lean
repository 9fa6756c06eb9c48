import Porch.Lts.Run
import Porch.Registry.FieldSelector

/- What listing does to the labels of the cached package revisions.

     cachedPackageRevision, GetMeta  Cached, Cached.view
     Matches                         ListPackageRevisionFilter.matches, tested
     toPackageRevisionSlice          list
     identifyLatestRevisions         Event.flags

   `GetMeta` copies the metadata but not the map of its labels, and `getPkgRevLabels` sets the
   label of the latest revision in that map. When the flag has moved on, the revision that had
   it is still selected by the label (`former_latest_listed`). `GetPackageRevision` of the cache
   copies the map before it sets the label.

   The maps are behind references, and several revisions may share one. The result of `list` is
   in the order of the iteration and not sorted. -/
namespace Porch.Registry.LabelMaps

open Go K8s Function Lts

abbrev Maps := Nat → Labels

/-- A cached revision; `labels` is the reference to its map, none for nil. -/
structure Cached where
  key : PackageRevisionKey
  lifecycle : Lifecycle
  labels : Option Nat := none
  isLatestRevision : Bool := false
  packageMetadata : Option Labels := none
deriving DecidableEq

def Cached.view (m : Maps) (p : Cached) : Revision where
  key := p.key
  lifecycle := p.lifecycle
  labels := (p.labels.map m).getD []
  latest := p.isLatestRevision
  packageMetadata := p.packageMetadata

/-- `getPkgRevLabels` makes its result in the map of the revision, and in a new one for nil. -/
def getPkgRevLabels (m : Maps) (p : Cached) : Maps :=
  match p.labels with
  | some a => update m a (p.view m).labelSet
  | none => m

/-- `Matches` comes to the labels. -/
def tested (f : ListPackageRevisionFilter) (p : Revision) : Bool :=
  f.key.matches p.key && (f.lifecycles = [] || f.lifecycles.contains p.lifecycle) &&
    f.matchesKptfileLabels p && f.label.isSome

/-- The maps after `Matches`. -/
def visit (f : ListPackageRevisionFilter) (m : Maps) (p : Cached) : Maps :=
  if tested f (p.view m) then getPkgRevLabels m p else m

def list (f : ListPackageRevisionFilter) : List Cached → Maps → List Cached × Maps
  | [], m => ([], m)
  | p :: ps, m =>
    let (rest, m') := list f ps (visit f m p)
    (if f.matches (p.view m) then p :: rest else rest, m')

structure Cache where
  maps : Maps
  revisions : List Cached

/-- The cache is listed, in some order, or the flags change. -/
inductive Event where
  | list (f : ListPackageRevisionFilter) (order : List Cached)
  | flags (latest : PackageRevisionKey → Bool)

def Cache.step (s : Cache) : Event → Option Cache
  | .list f order =>
    if order.Perm s.revisions then some { s with maps := (LabelMaps.list f order s.maps).2 } else none
  | .flags latest => some { s with revisions := s.revisions.map fun p =>
      { p with isLatestRevision := latest p.key } }

/-- The labels are the same. -/
def Same (m m' : Maps) : Prop := ∀ a k, (m' a).lookup k = (m a).lookup k

/-- Listing leaves the labels alone and returns what they were at first, with the flags of now. -/
def Unaffected (m₀ : Maps) (s : Cache) : Event → Prop
  | .list f order => Same s.maps (list f order s.maps).2 ∧
      (list f order s.maps).1 = order.filter fun p => f.matches (p.view m₀)
  | .flags _ => True

/-- A latest revision whose labels are looked at has no map, or the label is in it. -/
def Harmless (f : ListPackageRevisionFilter) (m : Maps) (p : Cached) : Prop :=
  tested f (p.view m) = true → p.isLatestRevision = true → ∀ a ∈ p.labels,
    (m a).lookup latestPackageRevisionKey = some latestPackageRevisionValue

def ok (s : Cache) : Event → Prop
  | .list f order => ∀ p ∈ order, Harmless f s.maps p
  | .flags _ => True

/-! One list -/

variable {f : ListPackageRevisionFilter} {m m' m₀ : Maps} {p : Cached} {ps : List Cached}

theorem lookup_labelSet (p : Revision) (k : Str) : p.labelSet.lookup k =
    if p.latest = true ∧ k = latestPackageRevisionKey then some latestPackageRevisionValue
    else p.labels.lookup k := by
  unfold Revision.labelSet
  cases p.latest
  · rfl
  · simp [lookup_setEntry]

theorem matches_congr (h : Same m m') : f.matches (p.view m') = f.matches (p.view m) := by
  have hlabels : ∀ k, (p.view m').labelSet.lookup k = (p.view m).labelSet.lookup k := by
    intro k
    rw [lookup_labelSet, lookup_labelSet]
    cases hp : p.labels with
    | none => simp [Cached.view, hp]
    | some a => simp [Cached.view, hp, h a k]
  have hmatches : f.matchesLabels (p.view m') = f.matchesLabels (p.view m) := by
    simp only [ListPackageRevisionFilter.matchesLabels, Selector.matches, Requirement.matches, hlabels]
  unfold ListPackageRevisionFilter.matches
  rw [hmatches]
  rfl

theorem harmless_congr (h : Same m m') : Harmless f m' p ↔ Harmless f m p := by
  simp only [Harmless, h _ _]
  rfl

theorem lookup_visit (a : Nat) (k : Str) : (visit f m p a).lookup k =
    if tested f (p.view m) = true ∧ p.labels = some a ∧ p.isLatestRevision = true ∧
      k = latestPackageRevisionKey then some latestPackageRevisionValue else (m a).lookup k := by
  unfold visit getPkgRevLabels
  cases tested f (p.view m)
  · simp
  · cases hp : p.labels with
    | none => simp
    | some b =>
      by_cases hab : a = b
      · subst hab
        simp [lookup_labelSet, Cached.view, hp]
      · simp [update_of_ne hab, Ne.symm hab]

theorem visit_same (h : Harmless f m p) : Same m (visit f m p) := by
  intro a k
  rw [lookup_visit]
  split
  · rename_i hset
    obtain ⟨htested, ha, hlat, rfl⟩ := hset
    exact (h htested hlat a ha).symm
  · rfl

/-- A label that is set stays. -/
theorem list_marks (ps : List Cached) {a : Nat}
    (h : (m a).lookup latestPackageRevisionKey = some latestPackageRevisionValue) :
    ((list f ps m).2 a).lookup latestPackageRevisionKey = some latestPackageRevisionValue := by
  induction ps generalizing m with
  | nil => exact h
  | cons p ps ih =>
    refine ih ?_
    rw [lookup_visit]
    split
    · rfl
    · exact h

theorem list_same_iff : Same m (list f ps m).2 ↔ ∀ p ∈ ps, Harmless f m p := by
  induction ps generalizing m with
  | nil => simp [list, Same]
  | cons p ps ih =>
    have hrest : ∀ hp : Harmless f m p, Same m (list f (p :: ps) m).2 ↔ ∀ p ∈ ps, Harmless f m p := by
      intro hp
      have hsame := visit_same hp
      simp only [← harmless_congr hsame, ← ih, Same, hsame _ _]
      rfl
    rw [List.forall_mem_cons]
    constructor
    · intro h
      have hp : Harmless f m p := by
        intro htested hlat a ha
        rw [← h a]
        refine list_marks ps ?_
        rw [lookup_visit, if_pos ⟨htested, ha, hlat, rfl⟩]
      exact ⟨hp, (hrest hp).mp h⟩
    · exact fun h => (hrest h.1).mpr h.2

theorem list_eq_filter (h : ∀ p ∈ ps, Harmless f m p) :
    (list f ps m).1 = ps.filter fun p => f.matches (p.view m) := by
  induction ps generalizing m with
  | nil => rfl
  | cons p ps ih =>
    obtain ⟨hp, hps⟩ := List.forall_mem_cons.mp h
    have hsame := visit_same hp
    have hrest := ih fun q hq => (harmless_congr hsame).mpr (hps q hq)
    simp only [matches_congr hsame] at hrest
    rw [List.filter_cons, ← hrest]
    rfl

/-! Runs -/

/-- **No list of a run changes labels or depends on earlier ones** exactly when each finds the
    latest revisions that it tests without a map of labels or with the label in it. -/
theorem lists_unaffected_iff (s : Cache) (es : List Event) :
    Along Cache.step (Unaffected s.maps) s es ↔ Along Cache.step ok s es := by
  suffices hgen : ∀ m₀, Same m₀ s.maps →
      (Along Cache.step (Unaffected m₀) s es ↔ Along Cache.step ok s es) from
    hgen s.maps fun _ _ => rfl
  intro m₀ hm₀
  induction es generalizing s with
  | nil => exact Iff.rfl
  | cons e es ih =>
    have hok : Unaffected m₀ s e ↔ ok s e := by
      cases e with
      | flags latest => exact Iff.rfl
      | list f order =>
        refine ⟨fun h => list_same_iff.mp h.1, fun h => ⟨list_same_iff.mpr h, ?_⟩⟩
        simp only [list_eq_filter h, matches_congr hm₀]
    have hnext : ∀ s', ok s e → s.step e = some s' → Same m₀ s'.maps := by
      intro s' h hstep
      cases e with
      | flags latest =>
        cases hstep
        exact hm₀
      | list f order =>
        obtain ⟨-, ⟨⟩⟩ := Option.ite_none_right_eq_some.mp hstep
        exact fun a k => (list_same_iff.mpr h a k).trans (hm₀ a k)
    unfold Along
    rw [hok]
    exact and_congr_right fun h => forall₂_congr fun s' hstep => ih s' (hnext s' h hstep)

/-- **A former latest revision is listed**: the cache is listed while `v1` is the latest, and then
    by the label when `v2` is. -/
theorem former_latest_listed :
    let revision (n : Int) (latest : Bool) : Cached :=
      { key := { pkgKey := { package := "app" }, revision := n }, lifecycle := .published
        labels := some n.toNat, isLatestRevision := latest }
    let byLabel : ListPackageRevisionFilter :=
      { label := some [⟨latestPackageRevisionKey, .equals, [latestPackageRevisionValue], rfl⟩] }
    let start : Cache := ⟨fun _ => [], [revision 1 true, revision 2 false]⟩
    ∃ s, Lts.run Cache.step start [.list byLabel start.revisions, .flags (·.revision = 2)] = some s ∧
      s.revisions = [revision 1 false, revision 2 true] ∧
      (list byLabel s.revisions s.maps).1 = s.revisions ∧
      (list byLabel s.revisions start.maps).1 = [revision 2 true] := by
  decide +kernel

end Porch.Registry.LabelMaps
