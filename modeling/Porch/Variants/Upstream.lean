import Porch.Api

/- Which package revision an upstream names. A PackageVariantSet resolves its
   upstream to render its PackageVariants, copies the upstream into them, and the
   PackageVariant controller resolves it once more to clone from it.

     validatePackageVariantSet (upstream)       validateUpstream
     PackageVariantSetReconciler.getUpstreamPR  setUpstreamPR
     PackageVariantReconciler.getUpstreamPR     variantUpstreamPR

   Both walk the same list and take the first match. The set matches by revision or
   by workspace, also when one of the two is not given; the variant matches by
   workspace only, `main` when none is given. `upstream_agrees_iff` says when every
   order of a list leads both to the same package revision. -/
namespace Porch.Variants

open Go

structure Upstream where
  repo : Str
  package : Str
  revision : Int := 0
  workspaceName : Str := []
deriving DecidableEq, Repr

/-- A package revision as the controllers list it. A lifecycle that is not set is a draft. -/
structure PackageRevision where
  name : Str
  repositoryName : Str := []
  packageName : Str := []
  workspaceName : Str := []
  revision : Int := 0
  lifecycle : Lifecycle := .draft
  ownerReferences : List Str := []
deriving DecidableEq, Repr

def validateUpstream : Option Upstream → List Str
  | none => ["spec.upstream is a required field".toList]
  | some u =>
    (if u.package = [] then ["spec.upstream.package is a required field".toList] else []) ++
    (if u.repo = [] then ["spec.upstream.repo is a required field".toList] else []) ++
    (if u.revision = 0 ∧ u.workspaceName = [] then
      ["either spec.upstream.revision or spec.upstream.workspaceName must be specified".toList]
    else [])

def isOf (u : Upstream) (pr : PackageRevision) : Prop :=
  pr.repositoryName = u.repo ∧ pr.packageName = u.package

instance (u : Upstream) (pr : PackageRevision) : Decidable (isOf u pr) :=
  inferInstanceAs (Decidable (_ ∧ _))

/-- The condition in the loop of the set. -/
def SetMatches (u : Upstream) (pr : PackageRevision) : Prop :=
  isOf u pr ∧ (pr.revision = u.revision ∨ pr.workspaceName = u.workspaceName)

instance (u : Upstream) : DecidablePred (SetMatches u) :=
  fun _ => inferInstanceAs (Decidable (_ ∧ _))

def setUpstreamPR (u : Upstream) (prList : List PackageRevision) : Option PackageRevision :=
  prList.find? fun pr => SetMatches u pr

/-- `isValidUpstream`, with the upstream as it leaves it. -/
def isValidUpstream : Option Upstream → List Str × Option Upstream
  | none => (["missing required field spec.upstream".toList], none)
  | some u =>
    ((if u.repo = [] then ["missing required field spec.upstream.repo".toList] else []) ++
      (if u.package = [] then ["missing required field spec.upstream.package".toList] else []),
      some { u with revision := -1 })

def variantUpstreamPR (u : Upstream) : List PackageRevision → Option PackageRevision
  | [] => none
  | pr :: prList =>
    if ¬ isOf u pr then variantUpstreamPR u prList
    else if u.workspaceName ≠ [] then
      if pr.workspaceName = u.workspaceName then some pr else variantUpstreamPR u prList
    else if pr.workspaceName = "main".toList then some pr
    else variantUpstreamPR u prList

/-- What the PackageVariant controller clones from for the upstream of a rendered spec. -/
def resolveUpstream (upstream : Option Upstream) (prList : List PackageRevision) :
    Option PackageRevision :=
  match isValidUpstream upstream with
  | ([], some u) => variantUpstreamPR u prList
  | _ => none

/-- The workspace a variant looks for. -/
def sought (u : Upstream) : Str :=
  if u.workspaceName = [] then "main".toList else u.workspaceName

theorem variantUpstreamPR_eq (u : Upstream) (prList : List PackageRevision) :
    variantUpstreamPR u prList =
      prList.find? fun pr => isOf u pr ∧ pr.workspaceName = sought u := by
  induction prList with
  | nil => rfl
  | cons pr prList ih =>
    rw [variantUpstreamPR, ih, sought]
    by_cases hof : isOf u pr
    · by_cases hws : u.workspaceName = []
      · by_cases hmain : pr.workspaceName = "main".toList
        · rw [List.find?_cons_of_pos (by simp [hof, hws, hmain])]
          simp [hof, hws, hmain]
        · rw [List.find?_cons_of_neg (by simpa [hof, hws] using hmain)]
          simp only [hof, hws, hmain, not_true, if_false, ne_eq, if_true]
      · by_cases hpr : pr.workspaceName = u.workspaceName
        · rw [List.find?_cons_of_pos (by simp [hof, hws, hpr])]
          simp [hof, hws, hpr]
        · rw [List.find?_cons_of_neg (by simp [hof, hws, hpr])]
          simp [hof, hws, hpr]
    · rw [List.find?_cons_of_neg (by simp [hof])]
      simp [hof]

/-- The revision of the upstream does not matter to the variant. -/
theorem resolveUpstream_eq {u : Upstream} (hvalid : validateUpstream (some u) = [])
    (prList : List PackageRevision) : resolveUpstream (some u) prList =
      prList.find? fun pr => isOf u pr ∧ pr.workspaceName = sought u := by
  simp only [validateUpstream, List.append_eq_nil_iff] at hvalid
  obtain ⟨⟨hpkg, hrepo⟩, -⟩ := hvalid
  have hpkg : u.package ≠ [] := by
    intro h
    simp [h] at hpkg
  have hrepo : u.repo ≠ [] := by
    intro h
    simp [h] at hrepo
  simp only [resolveUpstream, isValidUpstream, if_neg hpkg, if_neg hrepo, List.append_nil]
  exact variantUpstreamPR_eq _ prList

/-- Either nothing of the list is the set's upstream, or the revisions that the set
    matches are those of the workspace that the variant looks for. -/
def Unambiguous (u : Upstream) (prList : List PackageRevision) : Prop :=
  (∃ pr ∈ prList, SetMatches u pr) →
    ∀ pr ∈ prList, isOf u pr →
      (pr.revision = u.revision ∨ pr.workspaceName = u.workspaceName ↔
        pr.workspaceName = sought u)

/-- **The set and its variants resolve an upstream alike, in every order of the list,
    exactly when it is unambiguous.** -/
theorem upstream_agrees_iff (u : Upstream) (hvalid : validateUpstream (some u) = [])
    (prList : List PackageRevision) : (∀ l, l.Perm prList → ∀ pr, setUpstreamPR u l = some pr →
      resolveUpstream (some u) l = some pr) ↔ Unambiguous u prList := by
  constructor
  · intro h ⟨a, ha, hset⟩ b hb hof
    -- the list with `b` first
    have hlb : (b :: prList.erase b).Perm prList := (List.perm_cons_erase hb).symm
    constructor
    · intro hmatch
      have hfirst := h _ hlb b (by simp [setUpstreamPR, SetMatches, hof, hmatch])
      rw [resolveUpstream_eq hvalid] at hfirst
      have := List.find?_some hfirst
      simp only [decide_eq_true_eq] at this
      exact this.2
    · intro hws
      -- the variant takes `b`; the set finds something, so it takes `b` too
      have hsome : (setUpstreamPR u (b :: prList.erase b)).isSome := by
        rw [setUpstreamPR, List.find?_isSome]
        exact ⟨a, hlb.mem_iff.mpr ha, by simpa using hset⟩
      obtain ⟨pr, hpr⟩ := Option.isSome_iff_exists.mp hsome
      have hfirst := h _ hlb pr hpr
      rw [resolveUpstream_eq hvalid, List.find?_cons_of_pos (by simp [hof, hws])] at hfirst
      cases hfirst
      have := List.find?_some hpr
      simp only [decide_eq_true_eq] at this
      exact this.2
  · intro h l hl pr hpr
    have hmem := hl.mem_iff.mp (List.mem_of_find?_eq_some hpr)
    have hmatch : SetMatches u pr := by simpa using List.find?_some hpr
    have hagree := h ⟨pr, hmem, hmatch⟩
    rw [resolveUpstream_eq hvalid, ← hpr, setUpstreamPR]
    apply List.find?_congr
    intro x hx
    have := hagree x (hl.mem_iff.mp hx)
    rw [decide_eq_decide, SetMatches]
    exact and_congr_right fun hof => (this hof).symm

/-! Two drafts of one package, and an upstream that names the second by its workspace -/

def draftOf (workspaceName : Str) : PackageRevision where
  name := "repo.pkg.".toList ++ workspaceName
  repositoryName := "repo".toList
  packageName := "pkg".toList
  workspaceName := workspaceName

def secondDraft : Upstream where
  repo := "repo".toList
  package := "pkg".toList
  workspaceName := "v2".toList

/-- With `v1` published, only `v2` has the revision 0 and only `v2` has the workspace. -/
def firstPublished : List PackageRevision :=
  [{ draftOf "v1".toList with revision := 1, lifecycle := .published }, draftOf "v2".toList,
    { draftOf "v2".toList with packageName := "other".toList }]

theorem upstream_agrees_iff_second :
    Unambiguous secondDraft firstPublished ∧
      ∀ l, l.Perm firstPublished → ∀ pr, setUpstreamPR secondDraft l = some pr →
        resolveUpstream (some secondDraft) l = some pr := by
  have h : Unambiguous secondDraft firstPublished := by unfold Unambiguous; decide
  exact ⟨h, (upstream_agrees_iff secondDraft (by decide) firstPublished).mpr h⟩

/-- The set renders with `v1`, which has the revision 0 that the upstream leaves out. -/
theorem set_renders_other_draft :
    validateUpstream (some secondDraft) = [] ∧
      setUpstreamPR secondDraft [draftOf "v1".toList, draftOf "v2".toList] =
        some (draftOf "v1".toList) ∧
      resolveUpstream (some secondDraft) [draftOf "v1".toList, draftOf "v2".toList] =
        some (draftOf "v2".toList) := by decide

end Porch.Variants
