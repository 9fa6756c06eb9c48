import Porch.PrController.Object

/- The choice of the latest revision among the package revisions of a package, and its label.

     labels.go  updateLatestRevisionLabels: seed, consider, latestName, relabel

   The winner is one of those that stand for election, and none of them has a greater number
   (`election`); so where one of them has the greatest number, it wins (`latestName_eq`). -/
namespace Porch.PrController

open Go

/-- A package revision, as far as the choice reads it. -/
structure Sibling where
  name : Str
  deletionTimestamp : Bool
  lifecycle : Lifecycle
  /-- `status.revision`: 0 when it is not known, -1 for the placeholder of the main branch. -/
  revision : Int
deriving DecidableEq, Repr

namespace Sibling

def eligible (rev : Sibling) : Bool := !rev.deletionTimestamp && lifecycleIsPublished rev.lifecycle

/-- The number of a listed package revision; the one in hand may know its own better. -/
def observed (pr rev : Sibling) : Int :=
  if rev.name = pr.name ∧ pr.revision > rev.revision then pr.revision else rev.revision

/-- The greatest number so far, and whose it is. -/
abbrev Best := Int × Option Str

def seed (pr : Sibling) : Best := if pr.eligible ∧ pr.revision > 0 then (pr.revision, some pr.name) else (0, none)

def consider (pr : Sibling) (best : Best) (rev : Sibling) : Best :=
  if rev.eligible then
    let n := observed pr rev
    if n = 0 then best else if n > best.1 then (n, some rev.name) else best
  else best

def elect (pr : Sibling) (revs : List Sibling) : Best := revs.foldl (consider pr) (seed pr)

def latestName (pr : Sibling) (revs : List Sibling) : Option Str := (elect pr revs).2

/-- `name` stands for election with the number `n`. -/
def Stands (pr : Sibling) (revs : List Sibling) (n : Int) (name : Str) : Prop :=
  0 < n ∧ ((pr.eligible = true ∧ pr.revision = n ∧ pr.name = name) ∨
    ∃ rev ∈ revs, rev.eligible = true ∧ observed pr rev = n ∧ rev.name = name)

/-- The best among those that stand, or nobody. -/
structure Wins (pr : Sibling) (revs : List Sibling) (best : Best) : Prop where
  stands : ∀ name ∈ best.2, Stands pr revs best.1 name
  nobody : best.2 = none → best.1 = 0
  greatest : ∀ n name, Stands pr revs n name → n ≤ best.1

variable {pr rev : Sibling} {revs : List Sibling} {best : Best} {n : Int} {name : Str}

theorem wins_seed : Wins pr [] (seed pr) := by
  unfold seed
  split
  · rename_i h
    refine ⟨?_, nofun, ?_⟩
    · rintro name ⟨⟩
      exact ⟨h.2, .inl ⟨h.1, rfl, rfl⟩⟩
    · rintro n name ⟨-, ⟨-, rfl, -⟩ | ⟨rev, hrev, -⟩⟩
      · exact le_rfl
      · cases hrev
  · rename_i h
    refine ⟨nofun, fun _ => rfl, ?_⟩
    rintro n name ⟨hpos, ⟨helig, rfl, -⟩ | ⟨rev, hrev, -⟩⟩
    · exact absurd ⟨helig, hpos⟩ h
    · cases hrev

theorem stands_concat : Stands pr (revs ++ [rev]) n name ↔ Stands pr revs n name ∨
      (0 < n ∧ rev.eligible = true ∧ observed pr rev = n ∧ rev.name = name) := by
  unfold Stands
  simp only [List.mem_append, List.mem_singleton]
  constructor
  · rintro ⟨hpos, hself | ⟨r, hr | rfl, hrest⟩⟩
    · exact .inl ⟨hpos, .inl hself⟩
    · exact .inl ⟨hpos, .inr ⟨r, hr, hrest⟩⟩
    · exact .inr ⟨hpos, hrest⟩
  · rintro (⟨hpos, hself | ⟨r, hr, hrest⟩⟩ | ⟨hpos, hrest⟩)
    · exact ⟨hpos, .inl hself⟩
    · exact ⟨hpos, .inr ⟨r, .inl hr, hrest⟩⟩
    · exact ⟨hpos, .inr ⟨rev, .inr rfl, hrest⟩⟩

theorem Wins.nonneg (h : Wins pr revs best) : 0 ≤ best.1 := by
  match hbest : best.2 with
  | none => exact (h.nobody hbest).ge
  | some name => exact (h.stands name hbest).1.le

theorem Wins.consider (h : Wins pr revs best) : Wins pr (revs ++ [rev]) (consider pr best rev) := by
  have hkeep : (∀ name, rev.eligible = true → 0 < observed pr rev → rev.name = name →
      observed pr rev ≤ best.1) → Wins pr (revs ++ [rev]) best := by
    intro hle
    refine ⟨fun name hname => stands_concat.mpr (.inl (h.stands name hname)), h.nobody, ?_⟩
    intro n name hst
    obtain hst | ⟨hpos, helig, rfl, hname⟩ := stands_concat.mp hst
    · exact h.greatest n name hst
    · exact hle name helig hpos hname
  unfold Sibling.consider
  dsimp only
  split
  · rename_i helig
    split
    · rename_i hzero
      exact hkeep fun _ _ hpos _ => absurd hzero hpos.ne'
    · split
      · rename_i hgt
        have hpos : 0 < observed pr rev := h.nonneg.trans_lt hgt
        refine ⟨?_, nofun, ?_⟩
        · rintro name ⟨⟩
          exact stands_concat.mpr (.inr ⟨hpos, helig, rfl, rfl⟩)
        · intro n name hst
          obtain hst | ⟨-, -, rfl, -⟩ := stands_concat.mp hst
          · exact (h.greatest n name hst).trans hgt.le
          · exact le_rfl
      · rename_i hle
        exact hkeep fun _ _ _ _ => not_lt.mp hle
  · rename_i helig
    exact hkeep fun _ helig' _ _ => absurd helig' helig

/-- **The election.** -/
theorem election (pr : Sibling) (revs : List Sibling) : Wins pr revs (elect pr revs) := by
  induction revs using List.reverseRecOn with
  | nil => exact wins_seed
  | append_singleton revs rev ih =>
    unfold elect
    rw [List.foldl_concat]
    exact ih.consider

theorem latestName_eq (hst : Stands pr revs n name)
    (hall : ∀ n' name', Stands pr revs n' name' → name' = name ∨ n' < n) : latestName pr revs = some name := by
  have hwin := election pr revs
  unfold latestName
  match hbest : (elect pr revs).2 with
  | none =>
    have hle := hwin.greatest n name hst
    rw [hwin.nobody hbest] at hle
    exact absurd hst.1 (not_lt.mpr hle)
  | some name' =>
    obtain rfl | hlt := hall _ name' (hwin.stands name' hbest)
    · rfl
    · exact absurd (hwin.greatest n name hst) (not_le.mpr hlt)

/-! The labels -/

/-- A listed package revision with its `latest-revision` label. -/
structure Labelled extends Sibling where
  label : Option Str
deriving DecidableEq, Repr

def desiredLabel (latest : Option Str) (rev : Sibling) : Str :=
  if latest = some rev.name then "true" else "false"

/-- The second loop; `patch` is the error of the patch for a name, if it fails. -/
def relabel (patch : Str → Option Str) (latest : Option Str) :
    List Labelled → List Labelled × Option Str
  | [] => ([], none)
  | rev :: revs =>
    let desired := desiredLabel latest rev.toSibling
    if rev.deletionTimestamp ∨ rev.label.getD [] = desired then
      let (after, err) := relabel patch latest revs
      (rev :: after, err)
    else
      match patch rev.name with
      | some err =>
        (rev :: revs, some ("failed to update latest-revision label on " ++ quoted rev.name ++ ": " ++ err))
      | none =>
        let (after, err) := relabel patch latest revs
        ({ rev with label := some desired } :: after, err)

/-- The list with its labels afterwards, and the name that is returned. -/
def updateLatestRevisionLabels (list : Option Str) (patch : Str → Option Str) (pr : Sibling)
    (revs : List Labelled) : List Labelled × Except Str Str :=
  match list with
  | some err => (revs, .error (wrap "failed to list package revisions for latest-revision update" err))
  | none =>
    let latest := latestName pr (revs.map (·.toSibling))
    match relabel patch latest revs with
    | (after, some err) => (after, .error err)
    | (after, none) => (after, .ok (latest.getD []))

/-- Published, numbered, and no other that is published has a greater number. -/
def IsLatest (pr : Sibling) (revs : List Sibling) (rev : Sibling) : Prop :=
  rev.eligible = true ∧ 0 < observed pr rev ∧
    ∀ other ∈ revs, other.eligible = true → observed pr other ≤ observed pr rev

section Labels

variable (hnames : ∀ rev ∈ revs, ∀ other ∈ revs, rev.name = other.name → rev = other)
  (hnums : ∀ rev ∈ revs, ∀ other ∈ revs, 0 < observed pr rev → observed pr rev = observed pr other → rev = other)
  (hhand : ∃ copy ∈ revs, copy.name = pr.name ∧ copy.lifecycle = pr.lifecycle ∧
    copy.deletionTimestamp = pr.deletionTimestamp)

include hhand in
/-- Whoever stands does so as an entry of the list, with at least that number. -/
theorem Stands.entry (h : Stands pr revs n name) :
    ∃ rev ∈ revs, rev.eligible = true ∧ n ≤ observed pr rev ∧ rev.name = name := by
  obtain ⟨hpos, ⟨helig, rfl, rfl⟩ | ⟨rev, hrev, helig, rfl, rfl⟩⟩ := h
  · obtain ⟨copy, hcopy, hname, hlc, hdel⟩ := hhand
    refine ⟨copy, hcopy, ?_, ?_, hname⟩
    · unfold eligible at helig ⊢
      rw [hlc, hdel]
      exact helig
    · unfold observed
      split <;> simp_all
  · exact ⟨rev, hrev, helig, le_rfl, rfl⟩

include hnames hnums hhand in
theorem latestName_iff (hrev : rev ∈ revs) : latestName pr revs = some rev.name ↔ IsLatest pr revs rev := by
  have hwin := election pr revs
  constructor
  · intro hlat
    obtain ⟨winner, hwinner, helig, hle, hname⟩ := (hwin.stands rev.name hlat).entry hhand
    obtain rfl := hnames winner hwinner rev hrev hname
    have hpos := (hwin.stands _ hlat).1.trans_le hle
    refine ⟨helig, hpos, fun other hother hother' => ?_⟩
    by_cases hzero : 0 < observed pr other
    · exact (hwin.greatest _ _ ⟨hzero, .inr ⟨other, hother, hother', rfl, rfl⟩⟩).trans hle
    · omega
  · rintro ⟨helig, hpos, hmax⟩
    refine latestName_eq ⟨hpos, .inr ⟨rev, hrev, helig, rfl, rfl⟩⟩ fun n name hst => ?_
    obtain ⟨other, hother, hother', hle, rfl⟩ := hst.entry hhand
    have hmost := hmax other hother hother'
    by_cases heq : observed pr rev = observed pr other
    · exact .inl (congrArg name (hnums rev hrev other hother hpos heq)).symm
    · exact .inr (by omega)

end Labels

/-- What the second loop makes of an entry without a failure. -/
def relabelled (latest : Option Str) (rev : Labelled) : Labelled :=
  if rev.deletionTimestamp ∨ rev.label.getD [] = desiredLabel latest rev.toSibling then rev
  else { rev with label := some (desiredLabel latest rev.toSibling) }

theorem relabel_ok (latest : Option Str) (revs : List Labelled) :
    relabel (fun _ => none) latest revs = (revs.map (relabelled latest), none) := by
  induction revs with
  | nil => rfl
  | cons rev revs ih =>
    simp only [relabel, ih, List.map_cons, relabelled]
    split <;> rfl

theorem relabelled_toSibling (latest : Option Str) (rev : Labelled) :
    (relabelled latest rev).toSibling = rev.toSibling := by
  unfold relabelled
  split <;> rfl

theorem relabelled_label {latest : Option Str} {rev : Labelled} (h : rev.deletionTimestamp = false) :
    (relabelled latest rev).label = some (desiredLabel latest rev.toSibling) := by
  unfold relabelled
  split
  · next hkept =>
    have hlabel := hkept.resolve_left (by simp [h])
    have hne : desiredLabel latest rev.toSibling ≠ [] := by
      unfold desiredLabel
      split <;> decide
    cases hold : rev.label with
    | none => simp [hold, hne.symm] at hlabel
    | some d => simpa [hold] using hlabel
  · rfl

/-- **The label follows the election.** The list has no name and no positive number twice, and
    has the package revision in hand, perhaps with an older number. -/
theorem labels_follow_election (pr : Sibling) (revs : List Labelled)
    (hnames : ∀ rev ∈ revs.map (·.toSibling), ∀ other ∈ revs.map (·.toSibling), rev.name = other.name → rev = other)
    (hnums : ∀ rev ∈ revs.map (·.toSibling), ∀ other ∈ revs.map (·.toSibling),
      0 < observed pr rev → observed pr rev = observed pr other → rev = other)
    (hhand : ∃ copy ∈ revs.map (·.toSibling), copy.name = pr.name ∧ copy.lifecycle = pr.lifecycle ∧
      copy.deletionTimestamp = pr.deletionTimestamp) :
    let all := revs.map (·.toSibling)
    let result := updateLatestRevisionLabels none (fun _ => none) pr revs
    result.1.map (·.toSibling) = all ∧
      (∀ rev ∈ result.1, rev.deletionTimestamp = false →
        (IsLatest pr all rev.toSibling → rev.label = some "true".toList) ∧
          (¬ IsLatest pr all rev.toSibling → rev.label = some "false".toList)) ∧
      (∀ rev ∈ all, IsLatest pr all rev → result.2 = .ok rev.name) ∧
      ((∀ rev ∈ all, ¬ IsLatest pr all rev) → result.2 = .ok []) := by
  intro all result
  have hiff : ∀ rev ∈ all, latestName pr all = some rev.name ↔ IsLatest pr all rev := fun rev hrev =>
    latestName_iff hnames hnums hhand hrev
  have hres : result = ((relabel (fun _ => none) (latestName pr all) revs).1,
      .ok ((latestName pr all).getD [])) := by
    simp only [result, updateLatestRevisionLabels, relabel_ok, all]
  rw [hres, relabel_ok]
  refine ⟨?_, fun rev hrev hliving => ?_, fun rev hrev hlat => ?_, fun hnobody => ?_⟩
  · rw [List.map_map]
    exact List.map_congr_left fun rev _ => relabelled_toSibling _ rev
  · obtain ⟨old, hold, rfl⟩ := List.mem_map.mp hrev
    have hsame := relabelled_toSibling (latestName pr all) old
    rw [hsame] at hliving ⊢
    rw [relabelled_label hliving, ← hiff _ (List.mem_map_of_mem hold), desiredLabel]
    exact ⟨fun h => by rw [if_pos h], fun h => by rw [if_neg h]⟩
  · rw [(hiff rev hrev).mpr hlat]
    rfl
  · cases hname : latestName pr all with
    | none => rfl
    | some name =>
      obtain ⟨rev, hrev, -, -, rfl⟩ := ((election pr all).stands name hname).entry hhand
      exact absurd ((hiff rev hrev).mp hname) (hnobody rev hrev)

/-- A first revision, and a second one whose listed copy does not have its number yet. -/
theorem labels_follow_election_sample :
    updateLatestRevisionLabels none (fun _ => none) ⟨"b", false, .published, 2⟩
        [⟨⟨"a", false, .published, 1⟩, some "true"⟩, ⟨⟨"b", false, .published, 0⟩, none⟩] =
      ([⟨⟨"a", false, .published, 1⟩, some "false"⟩,
        ⟨⟨"b", false, .published, 0⟩, some "true"⟩], .ok "b") ∧
    (∀ rev ∈ [Sibling.mk "a" false .published 1, ⟨"b", false, .published, 0⟩],
      IsLatest ⟨"b", false, .published, 2⟩
        [⟨"a", false, .published, 1⟩, ⟨"b", false, .published, 0⟩] rev →
      Except.ok (ε := Str) "b".toList = .ok rev.name) :=
  ⟨by decide, (labels_follow_election ⟨"b", false, .published, 2⟩
    [⟨⟨"a", false, .published, 1⟩, some "true"⟩, ⟨⟨"b", false, .published, 0⟩, none⟩]
    (by decide) (by decide) (by decide)).2.2.1⟩

end Sibling

end Porch.PrController
