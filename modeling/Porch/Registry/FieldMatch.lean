import Porch.Git.RefSpec
import Porch.Key.RoundTrip
import Porch.Registry.FieldSelector

/- When the filter of a list request is the conjunction of its field requirements.

   The filter is looser than the requirements in several ways. An empty part of the key,
   and revision 0, match anything, so that a requirement for a package at the root of its
   repository, by name or by `spec.packageName`, also lets packages below a directory
   pass. A requirement replaces what an earlier one has written, and a name replaces the
   namespace and the revision too. A name can be read as the parts of another revision
   (`repo.a.dir.v1.2` as workspace `v1.2` of `a/dir`, not as `2` of `a/dir/v1`), and one that
   does not parse is dropped. Lifecycles are alternatives.

   `filter_exact_iff` says for which requests none of this matters. -/
namespace Porch.Registry

open Go K8s Git ApiUtil List

/-- Whether the value of the requirement is that of its field. -/
def FieldRequirement.Meets (r : FieldRequirement) (o : ApiPackageRevision) : Prop :=
  match r.target with
  | some (.selectable .name) => r.value = o.name
  | some (.selectable .namesp) => r.value = o.namesp
  | some (.selectable .revision) => r.value = revision2Str o.revision
  | some (.selectable .packageName) => r.value = o.packageName
  | some (.selectable .repository) => r.value = o.repositoryName
  | some (.selectable .workspaceName) => r.value = o.workspaceName
  | some (.selectable .lifecycle) => r.value = lifecycleText o.lifecycle
  | some (.kptfileLabel key) => o.packageMetadata.bind (·.lookup key) = some r.value
  | none => False

instance (r : FieldRequirement) (o : ApiPackageRevision) : Decidable (r.Meets o) := by
  unfold FieldRequirement.Meets
  split <;> infer_instance

/-- A revision whose names `ValidPkgRevObjName` accepts; a workspace with dots, which then
    stand as dashes, is a version such as `v1.2`. Its path has no slash at either end, and its
    revision is a 64-bit number. -/
structure Listed (rules : NameRules) (p : Revision) : Prop where
  valid : validPkgRevObjName rules p.key.pkgKey.repoKey.name p.key.pkgKey.path p.key.pkgKey.package
    (replaceChar '.' '-' p.key.workspaceName) = none
  version : '.' ∈ p.key.workspaceName → semverSuffix ('.' :: p.key.workspaceName)
  lead : p.key.pkgKey.path.head? ≠ some '/'
  trail : p.key.pkgKey.path.getLast? ≠ some '/'
  revision : -2 ^ 63 ≤ p.key.revision ∧ p.key.revision < 2 ^ 63

/-- What the request asks for: every requirement, its namespace and its label
    selector. -/
def Requested (label : Option Selector) (rs : List FieldRequirement) (namesp : Str)
    (p : Revision) : Prop :=
  (∀ r ∈ rs, r.Meets p.getPackageRevision) ∧
    (namesp = [] ∨ p.key.pkgKey.repoKey.namesp = namesp) ∧
    (label.all fun sel => sel.matches p.labelSet) = true

/-- What the filter asks for: what was written last. -/
def PassesLast (rules : NameRules) (label : Option Selector) (rs : List FieldRequirement)
    (namesp : Str) (p : Revision) : Prop :=
  (lastKey rules rs namesp).matches p.key = true ∧
    (rs.filterMap writesLifecycle = [] ∨ p.lifecycle ∈ rs.filterMap writesLifecycle) ∧
    (∀ k v, lastWrite (writesLabel k) rs = some v →
      p.packageMetadata.bind (·.lookup k) = some v) ∧
    (label.all fun sel => sel.matches p.labelSet) = true

/-- The parts of a key that are in the name of a package revision. -/
inductive NamePart where
  | repository
  | path
  | package
  | workspace

namespace NamePart

@[simp] def of (k : PackageRevisionKey) : NamePart → Str
  | repository => k.pkgKey.repoKey.name
  | path => k.pkgKey.path
  | package => k.pkgKey.package
  | workspace => k.workspaceName

@[simp] def writes (rules : NameRules) : NamePart → FieldRequirement → Option Str
  | repository => writesRepository rules
  | path => writesPath rules
  | package => writesPackage rules
  | workspace => writesWorkspace rules

end NamePart

/-- The last requirements for the parts of a name give those of the revision. -/
def ReadAs (rules : NameRules) (rs : List FieldRequirement) (p : Revision) : Prop :=
  ∀ (part : NamePart) x, lastWrite (part.writes rules) rs = some x → x = part.of p.key

/-- Some revision meets the request. The parts of a name that no later requirement gives again
    are those of every revision that meets it, and none of these is at the root if a name or a
    package is asked for. A name that is dropped is that of every revision that meets the other
    requirements. No requirement for a namespace or a revision is undone by a later name or asks
    for revision 0. -/
structure Exact (rules : NameRules) (label : Option Selector) (rs : List FieldRequirement)
    (namesp : Str) : Prop where
  met : ∃ p, Listed rules p ∧ Requested label rs namesp p
  read : ∀ p, Listed rules p → Requested label rs namesp p → ReadAs rules rs p
  root : ∀ r ∈ rs, r.target = some (.selectable .name) ∨ r.target = some (.selectable .packageName) →
    ∀ p, Listed rules p → Requested label rs namesp p → p.key.pkgKey.path ≠ []
  dropped : ∀ r ∈ rs, r.target = some (.selectable .name) → nameKey rules r.value = none →
    ∀ p, Listed rules p →
      Requested label (rs.filter (·.target ≠ some (.selectable .name))) namesp p →
      r.Meets p.getPackageRevision
  namesp : namesp = [] → ∀ r ∈ rs, r.target = some (.selectable .namesp) →
    lastWrite (writesNamespace rules) rs ≠ some []
  revision : ∀ r ∈ rs, r.target = some (.selectable .revision) →
    lastWrite (writesRevision rules) rs ≠ some 0

/-! What the filter asks for -/

section Last

variable {α : Type} {write : FieldRequirement → Option α} {rs : List FieldRequirement}

theorem lastWrite_mem {a : α} (h : lastWrite write rs = some a) : ∃ r ∈ rs, write r = some a :=
  mem_filterMap.mp (mem_of_getLast? h)

theorem lastWrite_isSome {r : FieldRequirement} {a : α} (hr : r ∈ rs) (h : write r = some a) :
    ∃ b, lastWrite write rs = some b := by
  have hmem : a ∈ rs.filterMap write := mem_filterMap.mpr ⟨r, hr, h⟩
  exact ⟨_, getLast?_eq_some_getLast (ne_nil_of_mem hmem)⟩

/-- What was written last, if every write is of the same kind. -/
theorem lastWrite_getD {P : α → Prop} {d : α} (h : ∀ r ∈ rs, ∀ a, write r = some a → P a)
    (hd : P d) : P ((lastWrite write rs).getD d) := by
  cases hl : lastWrite write rs with
  | none => exact hd
  | some a =>
    obtain ⟨r, hr, hw⟩ := lastWrite_mem hl
    exact h r hr a hw

end Last

section Filter

variable {rules : NameRules} {label : Option Selector} {rs : List FieldRequirement} {namesp : Str}
  {f : ListPackageRevisionFilter}

theorem mem_labels_iff {m : Labels} (h : (m.map Prod.fst).Nodup) (k v : Str) :
    (k, v) ∈ m ↔ m.lookup k = some v := by
  induction m with
  | nil => simp
  | cons e m ih =>
    obtain ⟨ke, ve⟩ := e
    rw [map_cons, nodup_cons] at h
    rw [mem_cons, lookup_cons, ih h.2]
    by_cases hk : k = ke
    · subst hk
      have hno : m.lookup k ≠ some v := fun hl =>
        h.1 (mem_map.mpr ⟨(k, v), (ih h.2).mpr hl, rfl⟩)
      simp [hno, eq_comm]
    · have hne : (k == ke) = false := beq_eq_false_iff_ne.mpr hk
      simp [hk, hne]

theorem matches_iff_passesLast (h : ParsedFrom rules label rs namesp f) (p : Revision) :
    f.matches p = true ↔ PassesLast rules label rs namesp p := by
  have hlabels : f.matchesKptfileLabels p = true ↔ ∀ k v, lastWrite (writesLabel k) rs = some v →
      p.packageMetadata.bind (·.lookup k) = some v := by
    have hentry : ∀ k v, lastWrite (writesLabel k) rs = some v ↔ (k, v) ∈ f.kptfileLabels := by
      intro k v
      rw [mem_labels_iff h.nodup, h.labels]
    simp only [hentry, ListPackageRevisionFilter.matchesKptfileLabels, Revision.getPackageRevision]
    cases hm : p.packageMetadata with
    | none => simp [eq_nil_iff_forall_not_mem]
    | some labels =>
      simp only [Option.any_some, Option.bind_some, Bool.or_eq_true, decide_eq_true_eq,
        all_eq_true, Prod.forall]
      exact or_iff_right_of_imp fun hnil => by simp [hnil]
  unfold ListPackageRevisionFilter.matches PassesLast
  rw [Bool.and_eq_true, Bool.and_eq_true, Bool.and_eq_true, hlabels, h.key, h.lifecycles,
    ListPackageRevisionFilter.matchesLabels, h.label]
  simp only [Bool.or_eq_true, decide_eq_true_eq, contains_iff_mem, and_assoc]

end Filter

/-! What a requirement writes that a revision meets -/

theorem nameKey_eq_some {rules : NameRules} {name : Str} {k : PackageRevisionKey} :
    nameKey rules name = some k ↔ pkgRevK8sName2Key rules [] name = .ok k := by
  unfold nameKey
  cases pkgRevK8sName2Key rules [] name <;> simp [Except.toOption]

/-- No part that is in a name is empty, except the path. -/
theorem nameKey_parts {rules : NameRules} {name : Str} {k : PackageRevisionKey}
    (h : nameKey rules name = some k) :
    k.pkgKey.repoKey.name ≠ [] ∧ k.pkgKey.package ≠ [] ∧ k.workspaceName ≠ [] := by
  obtain ⟨a, mid, -, -, -, -, hvalid⟩ := pkgRevK8sName2Key_ok (nameKey_eq_some.mp h)
  obtain ⟨⟨⟨hrepo, -, hpkg⟩, hws⟩, -⟩ := validPkgRevObjName_eq_none.mp hvalid
  refine ⟨hrepo.ne_nil, hpkg.ne_nil, fun hnil => hws.ne_nil ?_⟩
  simp [hnil]

namespace Listed

variable {rules : NameRules} {p : Revision}

theorem parts (h : Listed rules p) :
    (IsLabel p.key.pkgKey.repoKey.name ∧ DirOk p.key.pkgKey.path ∧ IsLabel p.key.pkgKey.package) ∧
      IsLabel (replaceChar '.' '-' p.key.workspaceName) :=
  (validPkgRevObjName_eq_none.mp h.valid).1

theorem workspace_ne (h : Listed rules p) : p.key.workspaceName ≠ [] := by
  intro hnil
  exact h.parts.2.ne_nil (by simp [hnil])

theorem part_ne (h : Listed rules p) (hroot : p.key.pkgKey.path ≠ []) (part : NamePart) :
    part.of p.key ≠ [] := by
  obtain ⟨⟨hrepo, -, hpkg⟩, -⟩ := h.parts
  cases part with
  | repository => exact hrepo.ne_nil
  | path => exact hroot
  | package => exact hpkg.ne_nil
  | workspace => exact h.workspace_ne

theorem packageName (h : Listed rules p) : p.getPackageRevision.packageName =
      if p.key.pkgKey.path = [] then p.key.pkgKey.package
      else p.key.pkgKey.path ++ '/' :: p.key.pkgKey.package := by
  obtain ⟨⟨-, hdir, hpkg⟩, -⟩ := h.parts
  have hplain : ∀ e ∈ p.key.pkgKey.path.splitOn '/', PlainElem e := fun e he =>
    plainElem_of_no_dot (no_dot_of_mem_splitOn hdir.no_dot he)
  show joinPath [p.key.pkgKey.path, p.key.pkgKey.package] = _
  rw [joinPath_dir_leaf hplain (plainElem_of_no_dot hpkg.no_dot) hpkg.ne_nil hpkg.no_slash,
    if_neg h.lead, nil_append]
  by_cases hnil : p.key.pkgKey.path = []
  · rw [if_pos hnil, hnil]
    simp [pathElems]
  · have helems : pathElems p.key.pkgKey.path ≠ [] := by
      rw [pathElems_eq_splitOn hdir h.lead h.trail hnil]
      exact splitOn_ne_nil _ _
    rw [if_neg hnil, join_concat helems, join_pathElems hdir h.lead h.trail]

theorem splitPackageName (h : Listed rules p) :
    Registry.splitPackageName p.getPackageRevision.packageName =
      (if p.key.pkgKey.path = [] then none else some p.key.pkgKey.path, p.key.pkgKey.package) := by
  have hpkg := h.parts.1.2.2.no_slash
  rw [h.packageName]
  unfold Registry.splitPackageName
  by_cases hnil : p.key.pkgKey.path = []
  · simp [hnil, splitOn_eq_singleton hpkg]
  · have hlen : 0 < (p.key.pkgKey.path.splitOn '/').length :=
      length_pos_iff.mpr (splitOn_ne_nil _ _)
    simp only [if_neg hnil, splitOn_append_cons_self, splitOn_eq_singleton hpkg,
      length_append, length_singleton, dropLast_concat, join_splitOn]
    rw [if_pos (by omega)]
    simp

end Listed

theorem revision2Int_revision2Str {n : Int} (h : -2 ^ 63 ≤ n ∧ n < 2 ^ 63) :
    revision2Int (revision2Str n) = n := by
  unfold revision2Int
  rcases Int.lt_or_le n 0 with hneg | hpos
  · obtain ⟨m, rfl⟩ := Int.eq_negSucc_of_lt_zero hneg
    have htrim : trimPrefix ('-' :: Nat.toDigits 10 (m + 1)) ['v'] = '-' :: Nat.toDigits 10 (m + 1) := by
      simp [trimPrefix]
    rw [revision2Str_negSucc, htrim, atoi_neg_toDigits (by omega)]
    simp [Int.negSucc_eq]
  · obtain ⟨m, rfl⟩ := Int.eq_ofNat_of_zero_le hpos
    have htrim : trimPrefix (Nat.toDigits 10 m) ['v'] = Nat.toDigits 10 m := by
      unfold trimPrefix
      rw [if_neg]
      intro hv
      obtain ⟨t, ht⟩ := isPrefixOf_iff_prefix.mp hv
      have hdigit := isDigit_of_mem_toDigits (n := m) (c := 'v') (by rw [← ht]; simp)
      cases hdigit
    rw [revision2Str_natCast, htrim, atoi_toDigits (by omega), Option.getD_some]

/-- What a requirement writes is what the revision has, except for a name, which clears the
    namespace and the revision and may be read as other parts. -/
structure WritesOwn (rules : NameRules) (r : FieldRequirement) (p : Revision) : Prop where
  parts : r.target ≠ some (.selectable .name) →
    ∀ (part : NamePart) x, part.writes rules r = some x → x = part.of p.key
  namesp : ∀ x, writesNamespace rules r = some x → x = [] ∨ x = p.key.pkgKey.repoKey.namesp
  revision : ∀ x, writesRevision rules r = some x → x = 0 ∨ x = p.key.revision
  lifecycle : ∀ l, writesLifecycle r = some l → l = p.lifecycle
  label : ∀ k v, writesLabel k r = some v → p.packageMetadata.bind (·.lookup k) = some v

@[simp] theorem NamePart.forall {P : NamePart → Prop} :
    (∀ part, P part) ↔ P .repository ∧ P .path ∧ P .package ∧ P .workspace :=
  ⟨fun h => ⟨h _, h _, h _, h _⟩, fun h part => by cases part <;> simp [h]⟩

theorem lifecycleOf_text (l : Lifecycle) : lifecycleOf (lifecycleText l) = some l := by
  cases l <;> decide +kernel

/-- A name that is dropped writes nothing. -/
theorem writesOwn_dropped {rules : NameRules} {p : Revision} {r : FieldRequirement}
    (ht : r.target = some (.selectable .name)) (hname : nameKey rules r.value = none) :
    WritesOwn rules r p := by
  have hlabel : ∀ k, writesLabel k r = none := fun k => if_neg (by simp [ht])
  constructor <;> simp [hlabel, ht, hname]

/-- **A requirement that a revision meets writes what the revision has.** -/
theorem Listed.writesOwn {rules : NameRules} {p : Revision} {r : FieldRequirement}
    (h : Listed rules p) (hr : r.Meets p.getPackageRevision) : WritesOwn rules r p := by
  unfold FieldRequirement.Meets at hr
  rcases ht : r.target with _ | (sel | key)
  · simp [ht] at hr
  · simp only [ht] at hr
    have hlabel : ∀ k, writesLabel k r = none := fun k => if_neg (by simp [ht])
    cases sel with
    | name =>
      cases hname : nameKey rules r.value with
      | none => exact writesOwn_dropped ht hname
      | some k =>
        obtain ⟨-, -, hns, hrev⟩ := nameKey_blank hname
        constructor <;> simp [hlabel, ht, hname, hns, hrev]
    | packageName =>
      have hsplit := hr ▸ h.splitPackageName
      constructor <;> simp [hlabel, ht, hsplit]
    | revision =>
      have hrev : revision2Int r.value = p.key.revision :=
        hr ▸ revision2Int_revision2Str h.revision
      constructor <;> simp [hlabel, ht, hrev]
    | lifecycle =>
      have hl : lifecycleOf r.value = some p.lifecycle := hr ▸ lifecycleOf_text p.lifecycle
      constructor <;> simp [hlabel, ht, hl]
    | namesp | repository | workspaceName =>
      constructor <;> simp [hlabel, ht, hr, Revision.getPackageRevision]
  · simp only [ht] at hr
    constructor <;> simp [writesLabel, ht]
    exact hr

/-! The filter and the requirements -/

section Exact

variable {rules : NameRules} {label : Option Selector} {rs : List FieldRequirement} {namesp : Str}
  {p q : Revision}

theorem NamePart.of_lastKey (part : NamePart) :
    part.of (lastKey rules rs namesp) = (lastWrite (part.writes rules) rs).getD [] := by
  cases part <;> rfl

theorem lastKey_matches_iff : (lastKey rules rs namesp).matches p.key = true ↔
      ((lastKey rules rs namesp).revision = 0 ∨ (lastKey rules rs namesp).revision = p.key.revision) ∧
      ((lastKey rules rs namesp).pkgKey.repoKey.namesp = [] ∨
        (lastKey rules rs namesp).pkgKey.repoKey.namesp = p.key.pkgKey.repoKey.namesp) ∧
      ∀ part : NamePart, part.of (lastKey rules rs namesp) = [] ∨
        part.of (lastKey rules rs namesp) = part.of p.key := by
  have hpath : (lastKey rules rs namesp).pkgKey.repoKey.path = [] := rfl
  have hplaceholder : (lastKey rules rs namesp).pkgKey.repoKey.placeholderWSname = [] := rfl
  simp only [PackageRevisionKey.matches, PackageKey.matches, RepositoryKey.matches, hpath, hplaceholder,
    Bool.and_eq_true, Bool.or_eq_true, decide_eq_true_eq, fieldMatches_iff, NamePart.forall, NamePart.of,
    true_or, and_true]
  constructor
  · rintro ⟨⟨hrev, hws⟩, ⟨hdir, hpkg⟩, hns, hrepo⟩
    exact ⟨hrev, hns, hrepo, hdir, hpkg, hws⟩
  · rintro ⟨hrev, hns, hrepo, hdir, hpkg, hws⟩
    exact ⟨⟨hrev, hws⟩, ⟨hdir, hpkg⟩, hns, hrepo⟩

theorem getD_or {α : Type} {o : Option α} {d x : α} (h : ∀ y, o = some y → y = x) :
    o.getD d = d ∨ o.getD d = x := by
  cases o with
  | none => exact .inl rfl
  | some y => exact .inr (h y rfl)

/-- **A revision whose own parts are written passes the filter.** -/
theorem passes_of_own (hown : ∀ r ∈ rs, WritesOwn rules r p) (hread : ReadAs rules rs p)
    (hns : namesp = [] ∨ p.key.pkgKey.repoKey.namesp = namesp)
    (hsel : (label.all fun sel => sel.matches p.labelSet) = true) :
    PassesLast rules label rs namesp p := by
  refine ⟨lastKey_matches_iff.mpr ⟨?_, ?_, fun part => part.of_lastKey ▸ getD_or (hread part)⟩, ?_,
    fun k v hlast => ?_, hsel⟩
  · exact lastWrite_getD (fun r hr => (hown r hr).revision) (.inl rfl)
  · simp only [lastKey]
    split
    · exact lastWrite_getD (fun r hr => (hown r hr).namesp) (.inl rfl)
    · next hne => exact .inr (hns.resolve_left hne).symm
  · by_cases hnil : rs.filterMap writesLifecycle = []
    · exact .inl hnil
    · obtain ⟨l, hl⟩ := exists_mem_of_ne_nil _ hnil
      obtain ⟨r, hr, hw⟩ := mem_filterMap.mp hl
      exact .inr ((hown r hr).lifecycle l hw ▸ hl)
  · obtain ⟨r, hr, hw⟩ := lastWrite_mem hlast
    exact (hown r hr).label k v hw

variable {α : Type} {r : FieldRequirement} {write : FieldRequirement → Option α} {a b : α}

/-- A part that some requirement writes is that of the revision, where the last one writes it and
    not the wildcard. -/
theorem pinned {d x : α} (hmatch : (lastWrite write rs).getD d = d ∨ (lastWrite write rs).getD d = x)
    (hr : r ∈ rs) (hw : write r = some a) (hlast : ∀ y, lastWrite write rs = some y → y = b ∧ y ≠ d) :
    x = b := by
  obtain ⟨y, hy⟩ := lastWrite_isSome hr hw
  obtain ⟨rfl, hne⟩ := hlast y hy
  rw [hy, Option.getD_some] at hmatch
  exact (hmatch.resolve_left hne).symm

/-- The parts of two revisions that some requirement writes are the same. -/
def SameWritten (rules : NameRules) (rs : List FieldRequirement) (p q : Revision) : Prop :=
  ∀ part : NamePart, part.of p.key ≠ [] →
    ∀ r ∈ rs, ∀ x, part.writes rules r = some x → part.of q.key = part.of p.key

theorem ReadAs.sameWritten (hread : ReadAs rules rs p)
    (hkey : (lastKey rules rs namesp).matches q.key = true) : SameWritten rules rs p q := by
  intro part hne r hr x hw
  have hmatch := (lastKey_matches_iff.mp hkey).2.2 part
  rw [part.of_lastKey] at hmatch
  exact pinned hmatch hr hw fun y hy => ⟨hread part y hy, hread part y hy ▸ hne⟩

section Meets

variable (hp : Listed rules p) (hr : r ∈ rs) (hmeet : r.Meets p.getPackageRevision)
include hp hr hmeet

/-- With the same parts a name that is read and a package name are the same. -/
theorem SameWritten.meets_name (h : SameWritten rules rs p q) (hroot : p.key.pkgKey.path ≠ [])
    (ht : r.target = some (.selectable .name) ∧ nameKey rules r.value ≠ none ∨
      r.target = some (.selectable .packageName)) : r.Meets q.getPackageRevision := by
  obtain ⟨ht, hname⟩ | ht := ht
  · simp only [FieldRequirement.Meets, ht] at hmeet ⊢
    obtain ⟨k, hk⟩ := Option.ne_none_iff_exists'.mp hname
    have hsame : ∀ part : NamePart, part.of q.key = part.of p.key := fun part =>
      h part (hp.part_ne hroot part) r hr (part.of k) (by cases part <;> simp [ht, hk])
    simp only [NamePart.forall, NamePart.of] at hsame
    rw [hmeet]
    simp only [Revision.getPackageRevision, PackageRevisionKey.k8sName, hsame]
  · simp only [FieldRequirement.Meets, ht] at hmeet ⊢
    have hsplit := hmeet ▸ hp.splitPackageName
    rw [if_neg hroot] at hsplit
    have hpath : writesPath rules r = some p.key.pkgKey.path := by simp [ht, hsplit]
    have hpkg : writesPackage rules r = some p.key.pkgKey.package := by simp [ht, hsplit]
    have hpath' : q.key.pkgKey.path = p.key.pkgKey.path := h .path hroot r hr _ hpath
    have hpkg' : q.key.pkgKey.package = p.key.pkgKey.package :=
      h .package (hp.part_ne hroot .package) r hr _ hpkg
    rw [hmeet]
    simp only [Revision.getPackageRevision, PackageKey.toPkgPathname, hpkg', hpath']

theorem SameWritten.meets_part (h : SameWritten rules rs p q)
    (ht : r.target = some (.selectable .repository) ∨ r.target = some (.selectable .workspaceName)) :
    r.Meets q.getPackageRevision := by
  obtain ht | ht := ht <;> simp only [FieldRequirement.Meets, ht] at hmeet ⊢ <;> rw [hmeet]
  · exact (h .repository hp.parts.1.1.ne_nil r hr r.value (by simp [ht])).symm
  · exact (h .workspace hp.workspace_ne r hr r.value (by simp [ht])).symm

end Meets

/-- What passes has the lifecycle and the labels of a revision that meets the request. -/
theorem PassesLast.meets_rest (hpass : PassesLast rules label rs namesp q)
    (hown : ∀ r ∈ rs, WritesOwn rules r p) (hr : r ∈ rs) (hmeet : r.Meets p.getPackageRevision)
    (ht : r.target = some (.selectable .lifecycle) ∨ ∃ key, r.target = some (.kptfileLabel key)) :
    r.Meets q.getPackageRevision := by
  obtain ⟨-, hlife, hlabels, -⟩ := hpass
  obtain ht | ⟨key, ht⟩ := ht <;> simp only [FieldRequirement.Meets, ht] at hmeet ⊢
  · have hwrite : writesLifecycle r = some p.lifecycle := by
      rw [writesLifecycle, if_pos ht, hmeet]
      exact lifecycleOf_text p.lifecycle
    have hmem : p.lifecycle ∈ rs.filterMap writesLifecycle := mem_filterMap.mpr ⟨r, hr, hwrite⟩
    obtain ⟨r', hr', hw'⟩ := mem_filterMap.mp (hlife.resolve_left (ne_nil_of_mem hmem))
    rw [hmeet]
    simp only [Revision.getPackageRevision, (hown r' hr').lifecycle _ hw']
  · have hwrite : writesLabel key r = some r.value := by simp [writesLabel, ht]
    obtain ⟨v, hv⟩ := lastWrite_isSome hr hwrite
    obtain ⟨r', hr', hw'⟩ := lastWrite_mem hv
    have hp' : p.packageMetadata.bind (·.lookup key) = some v := (hown r' hr').label key v hw'
    exact (hlabels key v hv).trans (hp'.symm.trans hmeet)

theorem PassesLast.inRequest (hpass : PassesLast rules label rs namesp q) :
    namesp = [] ∨ q.key.pkgKey.repoKey.namesp = namesp := by
  obtain ⟨-, hnamesp, -⟩ := lastKey_matches_iff.mp hpass.1
  by_cases hne : namesp = []
  · exact .inl hne
  · simp only [lastKey, if_neg hne] at hnamesp
    exact .inr (hnamesp.resolve_left hne).symm

/-- What passes has the namespace and the revision of a revision that meets the request. -/
theorem Exact.meets_number (h : Exact rules label rs namesp) (hpass : PassesLast rules label rs namesp q)
    (hreq : Requested label rs namesp p) (hown : ∀ r ∈ rs, WritesOwn rules r p) (hr : r ∈ rs)
    (ht : r.target = some (.selectable .namesp) ∨ r.target = some (.selectable .revision)) :
    r.Meets q.getPackageRevision := by
  obtain ⟨hrev, hnamesp, -⟩ := lastKey_matches_iff.mp hpass.1
  have hmeet := hreq.1 r hr
  obtain ht | ht := ht <;> simp only [FieldRequirement.Meets, ht] at hmeet ⊢ <;> rw [hmeet]
  · show p.key.pkgKey.repoKey.namesp = q.key.pkgKey.repoKey.namesp
    by_cases hne : namesp = []
    · have hwrite : writesNamespace rules r = some r.value := by simp [ht]
      simp only [lastKey, if_pos hne] at hnamesp
      refine (pinned hnamesp hr hwrite fun y hy => ?_).symm
      obtain ⟨r', hr', hw'⟩ := lastWrite_mem hy
      have hyne : y ≠ [] := fun e => h.namesp hne r hr ht (e ▸ hy)
      exact ⟨((hown r' hr').namesp y hw').resolve_left hyne, hyne⟩
    · rw [hreq.2.1.resolve_left hne, hpass.inRequest.resolve_left hne]
  · have hwrite : writesRevision rules r = some (revision2Int r.value) := by simp [ht]
    have hsame : q.key.revision = p.key.revision := by
      refine pinned hrev hr hwrite fun y hy => ?_
      obtain ⟨r', hr', hw'⟩ := lastWrite_mem hy
      have hyne : y ≠ 0 := fun e => h.revision r hr ht (e ▸ hy)
      exact ⟨((hown r' hr').revision y hw').resolve_left hyne, hyne⟩
    simp only [Revision.getPackageRevision, hsame]

/-- **Where no reading is looser, what passes the filter meets the request.** -/
theorem Exact.requested_of_passes (h : Exact rules label rs namesp) (hq : Listed rules q)
    (hpass : PassesLast rules label rs namesp q) : Requested label rs namesp q := by
  obtain ⟨p, hp, hreq⟩ := h.met
  have hown := fun r hr => hp.writesOwn (hreq.1 r hr)
  have hsame := (h.read p hp hreq).sameWritten hpass.1
  have hsel := hpass.2.2.2
  -- a name that is dropped is left for the end
  have hread : ∀ r ∈ rs, (r.target = some (.selectable .name) → nameKey rules r.value ≠ none) →
      r.Meets q.getPackageRevision := by
    intro r hr hname
    have hmeet := hreq.1 r hr
    rcases ht : r.target with _ | (sel | key)
    · simp [FieldRequirement.Meets, ht] at hmeet
    · cases sel with
      | name =>
        exact hsame.meets_name hp hr hmeet (h.root r hr (.inl ht) p hp hreq) (.inl ⟨ht, hname ht⟩)
      | packageName =>
        exact hsame.meets_name hp hr hmeet (h.root r hr (.inr ht) p hp hreq) (.inr ht)
      | namesp => exact h.meets_number hpass hreq hown hr (.inl ht)
      | revision => exact h.meets_number hpass hreq hown hr (.inr ht)
      | repository => exact hsame.meets_part hp hr hmeet (.inl ht)
      | workspaceName => exact hsame.meets_part hp hr hmeet (.inr ht)
      | lifecycle => exact hpass.meets_rest hown hr hmeet (.inl ht)
    · exact hpass.meets_rest hown hr hmeet (.inr ⟨key, ht⟩)
  refine ⟨fun r hr => ?_, hpass.inRequest, hsel⟩
  by_cases hdrop : r.target = some (.selectable .name) ∧ nameKey rules r.value = none
  · refine h.dropped r hr hdrop.1 hdrop.2 q hq ⟨fun r' hr' => ?_, hpass.inRequest, hsel⟩
    obtain ⟨hr', ht'⟩ := mem_filter.mp hr'
    exact hread r' hr' fun ht => absurd ht (of_decide_eq_true ht')
  · exact hread r hr fun ht hnone => hdrop ⟨ht, hnone⟩

end Exact

/-! Revisions that differ in one part -/

section Variants

variable {rules : NameRules} {p : Revision}

def Revision.atPath (p : Revision) (path : Str) : Revision :=
  { p with key.pkgKey.path := path }

def Revision.inNamespace (p : Revision) (namesp : Str) : Revision :=
  { p with key.pkgKey.repoKey.namesp := namesp }

def Revision.numbered (p : Revision) (n : Int) : Revision := { p with key.revision := n }

theorem Listed.inNamespace (h : Listed rules p) (namesp : Str) :
    Listed rules (p.inNamespace namesp) :=
  ⟨h.valid, h.version, h.lead, h.trail, h.revision⟩

theorem Listed.numbered (h : Listed rules p) {n : Int} (hn : -2 ^ 63 ≤ n ∧ n < 2 ^ 63) :
    Listed rules (p.numbered n) :=
  ⟨h.valid, h.version, h.lead, h.trail, hn⟩

/-- The names of directories of one letter. -/
def letters : List Str := ["x", "y"]

theorem composePkgRevObjName_letter {repo path pkg ws : Str} (hpath : path ∈ letters)
    (hrepo : repo ≠ []) (hpkg : IsLabel pkg) (hws : ws ≠ []) :
    composePkgRevObjName repo path pkg ws = join '.' [repo, path, pkg] ++ '.' :: ws := by
  have helems : pathElems path = [path] ∧ '.' ∉ path := by
    simp only [letters, mem_cons, not_mem_nil, or_false] at hpath
    obtain rfl | rfl := hpath <;> decide
  rw [composePkgRevObjName_eq hrepo helems.2 hpkg hws, helems.1]
  rfl

/-- A package could as well be in a directory of one letter. -/
theorem Listed.atPath (h : Listed rules p) {path : Str} (hpath : path ∈ letters) :
    Listed rules (p.atPath path) := by
  obtain ⟨⟨hrepo, -, hpkg⟩, hws⟩ := h.parts
  have hletter : (dns1123LabelFmt path = true ∧ path.length = 1 ∧ '.' ∉ path) ∧ DirOk path ∧
      path.head? ≠ some '/' ∧ path.getLast? ≠ some '/' := by
    simp only [letters, mem_cons, not_mem_nil, or_false] at hpath
    obtain rfl | rfl := hpath
    · exact ⟨by decide, .inr ⟨by decide, by decide, by decide⟩, by decide, by decide⟩
    · exact ⟨by decide, .inr ⟨by decide, by decide, by decide⟩, by decide, by decide⟩
  obtain ⟨⟨hfmt, hlen, hdot⟩, hdir, hlead, htrail⟩ := hletter
  suffices hname : rules.isDNS1123Subdomain (composePkgRevObjName p.key.pkgKey.repoKey.name path
      p.key.pkgKey.package (replaceChar '.' '-' p.key.workspaceName)) = [] from
    ⟨validPkgRevObjName_eq_none.mpr ⟨⟨⟨hrepo, hdir, hpkg⟩, hws⟩, hname⟩, h.version, hlead, htrail,
      h.revision⟩
  rw [composePkgRevObjName_letter hpath hrepo.ne_nil hpkg hws.ne_nil, rules.subdomain_ok]
  refine ⟨fun l hl => ?_, ?_⟩
  · have hsplit : (join '.' [p.key.pkgKey.repoKey.name, path, p.key.pkgKey.package]).splitOn '.' =
        [p.key.pkgKey.repoKey.name, path, p.key.pkgKey.package] := by
      refine splitOn_join (fun e he => ?_) (by simp)
      simp only [mem_cons, not_mem_nil, or_false] at he
      rcases he with rfl | rfl | rfl
      · exact hrepo.no_dot
      · exact hdot
      · exact hpkg.no_dot
    rw [splitOn_append_cons_self, hsplit, splitOn_eq_singleton hws.no_dot] at hl
    simp only [cons_append, nil_append, mem_cons, not_mem_nil, or_false] at hl
    rcases hl with rfl | rfl | rfl | rfl
    · exact hrepo.1
    · exact hfmt
    · exact hpkg.1
    · exact hws.1
  · have h₁ := hrepo.2
    have h₂ := hpkg.2
    have h₃ := hws.2
    simp [join_cons]
    omega

end Variants

/-! The condition -/

section Condition

variable {rules : NameRules} {label : Option Selector} {rs : List FieldRequirement} {namesp : Str}
  {p : Revision} {r : FieldRequirement}

section

variable (h : PassesLast rules label rs namesp p)
include h

theorem PassesLast.atPath (hpath : (lastKey rules rs namesp).pkgKey.path = []) (path : Str) :
    PassesLast rules label rs namesp (p.atPath path) := by
  obtain ⟨hkey, hrest⟩ := h
  obtain ⟨hrev, hns, hparts⟩ := lastKey_matches_iff.mp hkey
  refine ⟨lastKey_matches_iff.mpr ⟨hrev, hns, fun part => ?_⟩, hrest⟩
  cases part with
  | path => exact .inl hpath
  | repository | package | workspace => exact hparts _

theorem PassesLast.inNamespace
    (hempty : (lastKey rules rs namesp).pkgKey.repoKey.namesp = []) (ns : Str) :
    PassesLast rules label rs namesp (p.inNamespace ns) := by
  obtain ⟨hkey, hrest⟩ := h
  obtain ⟨hrev, -, hparts⟩ := lastKey_matches_iff.mp hkey
  exact ⟨lastKey_matches_iff.mpr ⟨hrev, .inl hempty, hparts⟩, hrest⟩

theorem PassesLast.numbered (hzero : (lastKey rules rs namesp).revision = 0) (n : Int) :
    PassesLast rules label rs namesp (p.numbered n) := by
  obtain ⟨hkey, hrest⟩ := h
  obtain ⟨-, hns, hparts⟩ := lastKey_matches_iff.mp hkey
  exact ⟨lastKey_matches_iff.mpr ⟨.inl hzero, hns, hparts⟩, hrest⟩

end

/-- What is written last is what the revision has; by a name only if the key matches. -/
theorem readAs_of_own (namesp : Str) (hown : ∀ r ∈ rs, WritesOwn rules r p)
    (hname : ∀ r ∈ rs, r.target = some (.selectable .name) → nameKey rules r.value ≠ none →
      (lastKey rules rs namesp).matches p.key = true ∧ (lastKey rules rs namesp).pkgKey.path ≠ []) :
    ReadAs rules rs p := by
  intro part y hy
  obtain ⟨r, hr, hw⟩ := lastWrite_mem hy
  by_cases ht : r.target = some (.selectable .name)
  · obtain ⟨k, hk, rfl⟩ : ∃ k, nameKey rules r.value = some k ∧ part.of k = y := by
      cases part <;> simpa [ht] using hw
    obtain ⟨hmatch, hpath⟩ := hname r hr ht (by simp [hk])
    have hlast : part.of (lastKey rules rs namesp) = part.of k := by
      rw [part.of_lastKey, hy, Option.getD_some]
    rw [← hlast]
    refine ((lastKey_matches_iff.mp hmatch).2.2 part).resolve_left ?_
    obtain ⟨hrepo, hpkg, hws⟩ := nameKey_parts hk
    cases part with
    | path => exact hpath
    | repository => exact hlast ▸ hrepo
    | package => exact hlast ▸ hpkg
    | workspace => exact hlast ▸ hws
  · exact (hown r hr).parts ht part y hw

/-- The filter matches what meets the request. -/
def FilterExact (rules : NameRules) (label : Option Selector) (rs : List FieldRequirement)
    (namesp : Str) : Prop :=
  ∀ p, Listed rules p → (PassesLast rules label rs namesp p ↔ Requested label rs namesp p)

section

variable (hexact : FilterExact rules label rs namesp) (hp : Listed rules p)
  (hreq : Requested label rs namesp p)
include hexact hp hreq

/-- A request for a name or a package leaves no path open: otherwise the package in two
    directories would pass. -/
theorem FilterExact.path_ne (hr : r ∈ rs)
    (ht : r.target = some (.selectable .name) ∨ r.target = some (.selectable .packageName)) :
    (lastKey rules rs namesp).pkgKey.path ≠ [] := by
  intro hopen
  have hpass := (hexact p hp).mpr hreq
  obtain ⟨⟨hrepo, -, hpkg⟩, -⟩ := hp.parts
  have hmeet : ∀ {path}, path ∈ letters → r.Meets (p.atPath path).getPackageRevision := fun hpath =>
    ((hexact _ (hp.atPath hpath)).mp (hpass.atPath hopen _)).1 r hr
  have hx : "x".toList ∈ letters := by decide
  have hy : "y".toList ∈ letters := by decide
  have hmeetx := hmeet hx
  have hmeety := hmeet hy
  obtain ht | ht := ht <;> simp only [FieldRequirement.Meets, ht] at hmeetx hmeety
  · have hname : ∀ {path}, path ∈ letters → (p.atPath path).getPackageRevision.name =
        join '.' [p.key.pkgKey.repoKey.name, path, p.key.pkgKey.package] ++ '.' :: p.key.workspaceName :=
      fun hpath => composePkgRevObjName_letter hpath hrepo.ne_nil hpkg hp.workspace_ne
    rw [hname hx] at hmeetx
    rw [hname hy, hmeetx] at hmeety
    simp [join_cons] at hmeety
  · rw [(hp.atPath hx).packageName, if_neg (by simp [Revision.atPath])] at hmeetx
    rw [(hp.atPath hy).packageName, if_neg (by simp [Revision.atPath]), hmeetx] at hmeety
    simp [Revision.atPath] at hmeety

omit hp in
/-- A name that is dropped follows from the other requirements. -/
theorem FilterExact.meets_dropped {q : Revision} (hr : r ∈ rs) (ht : r.target = some (.selectable .name))
    (hnone : nameKey rules r.value = none) (hq : Listed rules q)
    (hothers : Requested label (rs.filter (·.target ≠ some (.selectable .name))) namesp q) :
    r.Meets q.getPackageRevision := by
  obtain ⟨hmeets, hns, hsel⟩ := hothers
  -- there is one name in the request
  have hdrop : ∀ r' ∈ rs, r'.target = some (.selectable .name) → nameKey rules r'.value = none := by
    intro r' hr' ht'
    have hmeet := hreq.1 r hr
    have hmeet' := hreq.1 r' hr'
    simp only [FieldRequirement.Meets, ht, ht'] at hmeet hmeet'
    rw [hmeet', ← hmeet, hnone]
  have hown : ∀ r' ∈ rs, WritesOwn rules r' q := by
    intro r' hr'
    by_cases ht' : r'.target = some (.selectable .name)
    · exact writesOwn_dropped ht' (hdrop r' hr' ht')
    · exact hq.writesOwn (hmeets r' (mem_filter.mpr ⟨hr', decide_eq_true ht'⟩))
  have hread : ReadAs rules rs q := readAs_of_own namesp hown
    fun r' hr' ht' hne => absurd (hdrop r' hr' ht') hne
  have hpass := passes_of_own hown hread hns hsel
  exact ((hexact q hq).mp hpass).1 r hr

/-- A filter that is exact for a request that some revision meets has no looser reading. -/
theorem FilterExact.exact : Exact rules label rs namesp := by
  have hpass := (hexact p hp).mpr hreq
  refine ⟨⟨p, hp, hreq⟩, fun q hq hreq => readAs_of_own namesp (fun r hr => hq.writesOwn (hreq.1 r hr))
      fun r hr ht _ => ⟨((hexact q hq).mpr hreq).1, hexact.path_ne hq hreq hr (.inl ht)⟩,
    fun r hr ht q hq hreq hnil => ?_,
    fun r hr ht hnone q hq hothers => hexact.meets_dropped hreq hr ht hnone hq hothers,
    fun hempty r hr ht hlast => ?_, fun r hr ht hlast => ?_⟩
  · have hpath := (lastKey_matches_iff.mp ((hexact q hq).mpr hreq).1).2.2 .path
    exact hexact.path_ne hq hreq hr ht (hpath.elim id fun h => h.trans hnil)
  · have hns : (lastKey rules rs namesp).pkgKey.repoKey.namesp = [] := by
      simp [lastKey, hempty, hlast, -writesNamespace]
    have hother := (hexact _ (hp.inNamespace _)).mp
      (hpass.inNamespace hns (p.key.pkgKey.repoKey.namesp ++ ['x']))
    have hmeet := hreq.1 r hr
    have hmeet' := hother.1 r hr
    simp only [FieldRequirement.Meets, ht] at hmeet hmeet'
    have hsame : p.key.pkgKey.repoKey.namesp = p.key.pkgKey.repoKey.namesp ++ ['x'] :=
      hmeet.symm.trans hmeet'
    simp at hsame
  · have hzero : (lastKey rules rs namesp).revision = 0 := by simp [lastKey, hlast, -writesRevision]
    have hmeet : ∀ {n : Int}, -2 ^ 63 ≤ n ∧ n < 2 ^ 63 → revision2Int r.value = n := by
      intro n hn
      have hmeet := ((hexact _ (hp.numbered hn)).mp (hpass.numbered hzero n)).1 r hr
      simp only [FieldRequirement.Meets, ht] at hmeet
      rw [hmeet]
      exact revision2Int_revision2Str hn
    have hone := hmeet (n := 1) (by decide)
    rw [hmeet (n := 2) (by decide)] at hone
    cases hone

end

end Condition

/-- A draft of a package below a directory. -/
def draftInDirectory : Revision where
  key :=
    { pkgKey := { repoKey := { namesp := "ns", name := "repo" }
                  path := "dir"
                  package := "pkg" }
      workspaceName := "v1" }
  lifecycle := .draft

theorem listed_draftInDirectory : Listed .documented draftInDirectory :=
  ⟨rfl, by decide, by decide, by decide, by decide⟩

/-- A request for a package below a directory. -/
def packageRequest : List FieldRequirement := [⟨"spec.packageName", .equals, "dir/pkg"⟩]

theorem exact_packageRequest : Exact .documented none packageRequest [] := by
  have hno : ∀ r ∈ packageRequest, r.target = some (.selectable .packageName) := by decide
  have hother : ∀ {sel}, sel ≠ .packageName → ∀ r ∈ packageRequest, r.target ≠ some (.selectable sel) := by
    intro sel hsel r hr ht
    rw [hno r hr, Option.some.injEq, Target.selectable.injEq] at ht
    exact hsel ht.symm
  refine ⟨⟨draftInDirectory, listed_draftInDirectory, by decide, .inl rfl, rfl⟩, fun p hp hreq => ?_,
    fun r hr _ p hp hreq hnil => ?_, fun r hr ht => ?_, fun _ r hr ht => ?_, fun r hr ht => ?_⟩
  · exact readAs_of_own [] (fun r hr => hp.writesOwn (hreq.1 r hr))
      fun r hr ht => absurd ht (hother (by decide) r hr)
  · have hmeet := hreq.1 _ mem_cons_self
    have hname : "dir/pkg".toList = p.getPackageRevision.packageName := hmeet
    rw [hp.packageName, if_pos hnil] at hname
    exact hp.parts.1.2.2.no_slash (hname ▸ by decide)
  · exact absurd ht (hother (by decide) r hr)
  · exact absurd ht (hother (by decide) r hr)
  · exact absurd ht (hother (by decide) r hr)

end Porch.Registry
