import Mathlib.Data.List.Dedup
import Porch.Key.Types
import Porch.PrController.Object

/- Packages must not be nested: `ValidatePackagePathOverlap` and `PathsOverlap` of
   `pkg/repository/util.go`.

   The name of the new package is a path, but of an existing one only the leaf is compared. -/
namespace Porch.Registry

open Go PrController List

def pathsOverlap (path1 path2 : Str) : Bool :=
  path1 ≠ path2 && ((path1 ++ ['/']).isPrefixOf (path2 ++ ['/']) ||
    (path2 ++ ['/']).isPrefixOf (path1 ++ ['/']))

/-- The paths are gone through in the order of a map, here that of the list. -/
def validatePackagePathOverlap (packageName repositoryName : Str) (existing : List PackageKey) :
    Option Str :=
  let existingPaths := ((existing.filter (·.repoKey.name = repositoryName)).map (·.package)).dedup
  if packageName ∈ existingPaths then
    some ("package " ++ quoted packageName ++ " already exists in repository " ++ quoted repositoryName)
  else (existingPaths.find? (pathsOverlap packageName)).map fun existingPath =>
    "package path " ++ quoted packageName ++ " conflicts with existing package " ++
      quoted existingPath ++ ": packages cannot be nested"

/-- The directories and the name; none for a package at the root of the repository itself. -/
def fullPath (k : PackageKey) : List Str := pathElems k.path ++ pathElems k.package

/-- The package is of the repository, and its path or that of the name, as the key of the new
package will have it, is the other one or above it. -/
def Nested (repo name : Str) (k : PackageKey) : Prop :=
  let path := fullPath (fromFullPathname k.repoKey name)
  k.repoKey.name = repo ∧ (fullPath k <+: path ∨ path <+: fullPath k)

variable {existing : List PackageKey} {repo name a b : Str}

/-- One path is the other or above it. -/
theorem slash_prefix_iff : a ++ ['/'] <+: b ++ ['/'] ↔ a.splitOn '/' <+: b.splitOn '/' := by
  constructor
  · rintro ⟨x, hx⟩
    have hsplit : a.splitOn '/' ++ x.splitOn '/' = b.splitOn '/' ++ [[]] := by
      rw [← splitOn_append_cons_self, ← singleton_append, ← append_assoc, hx,
        splitOn_append_cons_self]
      rfl
    obtain ⟨l, e, hl⟩ := (eq_nil_or_concat (x.splitOn '/')).resolve_left (splitOn_ne_nil _ _)
    rw [hl, concat_eq_append, ← append_assoc] at hsplit
    exact ⟨l, (append_inj' hsplit rfl).1⟩
  · rintro ⟨l, hl⟩
    have hb : join '/' (a.splitOn '/' ++ l) = b := by rw [hl, join_splitOn]
    by_cases hnil : l = []
    · rw [hnil, append_nil, join_splitOn] at hb
      rw [hb]
    · rw [join_append (splitOn_ne_nil _ _) hnil, join_splitOn] at hb
      exact ⟨join '/' l ++ ['/'], by simp [← hb]⟩

/-- **What is rejected.** A name whose first element is the leaf of some package. -/
theorem rejected_iff (hleaf : ∀ k ∈ existing, '/' ∉ k.package) :
    (validatePackagePathOverlap name repo existing).isSome = true ↔
      ∃ k ∈ existing, k.repoKey.name = repo ∧ [k.package] <+: name.splitOn '/' := by
  have hoverlap : ∀ k ∈ existing, name = k.package ∨ pathsOverlap name k.package = true ↔
      [k.package] <+: name.splitOn '/' := by
    intro k hk
    have hsplit := splitOn_eq_singleton (hleaf k hk)
    have hne := splitOn_ne_nil '/' name
    simp only [pathsOverlap, Bool.and_eq_true, Bool.or_eq_true, isPrefixOf_iff_prefix,
      decide_eq_true_eq, slash_prefix_iff, hsplit]
    cases hname : name.splitOn '/' <;> grind
  have hpaths (p : Str) : p ∈ ((existing.filter (·.repoKey.name = repo)).map (·.package)).dedup ↔
      ∃ k ∈ existing, k.repoKey.name = repo ∧ k.package = p := by
    simp [and_assoc]
  unfold validatePackagePathOverlap
  dsimp only
  split <;> rename_i hname <;> rw [hpaths] at hname
  · grind
  · simp only [Option.isSome_map, find?_isSome, hpaths]
    grind

/-! Keys that `FromFullPathname` has made -/

variable {k : PackageKey} {rk : RepositoryKey}

/-- The key is what `FromFullPathname` makes of some path. -/
def Read (k : PackageKey) : Prop := ∃ path, k = fromFullPathname k.repoKey path

theorem Read.leaf (h : Read k) : '/' ∉ k.package := by
  obtain ⟨path, hk⟩ := h
  rw [hk]
  exact (fromFullPathname_spec _ path).2.1

theorem Read.leaf_nil (h : Read k) : k.package = [] ↔ fullPath k = [] := by
  have hslash := h.leaf
  obtain ⟨path, hk⟩ := h
  have hnil := (fromFullPathname_spec k.repoKey path).2.2
  rw [← hk] at hnil
  refine ⟨fun h => ?_, fun h => ?_⟩
  · rw [fullPath, h, hnil h]
    rfl
  · by_contra hne
    rw [fullPath, pathElems_leaf hne hslash] at h
    simp at h

theorem Read.leaf_of_singleton {e : Str} (h : Read k) (hfull : fullPath k = [e]) : k.package = e := by
  have hne : k.package ≠ [] := fun hnil => by rw [h.leaf_nil.mp hnil] at hfull; cases hfull
  rw [fullPath, pathElems_leaf hne h.leaf] at hfull
  simpa using congrArg getLast? hfull

theorem mem_fullPath {e : Str} (h : e ∈ fullPath k) : e ≠ [] ∧ '/' ∉ e := by
  obtain h | h := mem_append.mp h <;>
    exact ⟨(mem_pathElems h).2, not_mem_of_splitOn (mem_pathElems h).1⟩

/-- An element that is in no path. -/
theorem exists_fresh (existing : List PackageKey) :
    ∃ x : Str, x ≠ [] ∧ '/' ∉ x ∧ ∀ k ∈ existing, x ∉ fullPath k := by
  refine ⟨'a' :: existing.flatMap fun k => (fullPath k).flatten, cons_ne_nil _ _, ?_, fun k hk hx => ?_⟩
  · simp only [mem_cons, mem_flatMap, mem_flatten, not_or, not_exists, not_and]
    exact ⟨by decide, fun k _ e he => (mem_fullPath he).2⟩
  · have hlen := (sublist_flatten_of_mem hx).length_le
    have hlen' := (sublist_flatten_of_mem (mem_map_of_mem (f := fun k => (fullPath k).flatten) hk)).length_le
    rw [← flatMap_def] at hlen'
    simp only [length_cons] at hlen
    omega

/-- The elements of a name that is given by them. -/
theorem elems_join (es : List Str) (hne : es ≠ []) (h : ∀ e ∈ es, e ≠ [] ∧ '/' ∉ e) :
    (join '/' es).splitOn '/' = es ∧ pathElems (join '/' es) = es := by
  have hsplit := splitOn_join (fun e he => (h e he).2) hne
  exact ⟨hsplit, by rw [pathElems, hsplit]; simpa using fun e he => (h e he).1⟩

/-! When names are rejected as they should be -/

/-- The package stands in the root directory. -/
def AtRoot (existing : List PackageKey) (repo name : Str) : Prop :=
  ∃ k ∈ existing, k.repoKey.name = repo ∧ fullPath k = [name]

/-- A name is rejected exactly when it is nested with an existing package. -/
def Right (existing : List PackageKey) (repo name : Str) : Prop :=
  (validatePackagePathOverlap name repo existing).isSome = true ↔ ∃ k ∈ existing, Nested repo name k

theorem right_iff (hread : ∀ k ∈ existing, Read k) :
    Right existing repo name ↔ ((∃ k ∈ existing, k.repoKey.name = repo ∧ [k.package] <+: name.splitOn '/') ↔
      ∃ k ∈ existing, k.repoKey.name = repo ∧
        (fullPath k <+: pathElems name ∨ pathElems name <+: fullPath k)) := by
  rw [Right, rejected_iff fun k hk => (hread k hk).leaf]
  simp only [Nested, fullPath, (fromFullPathname_spec _ name).1]

/-- The name is empty or begins with a slash. -/
def SlashFirst (name : Str) : Prop := [[]] <+: name.splitOn '/'

theorem pathElems_cons {e : Str} {es : List Str} (h : name.splitOn '/' = e :: es) (he : e ≠ []) :
    pathElems name = e :: es.filter (· ≠ []) := by
  rw [pathElems, h, filter_cons_of_pos (by simpa using he)]

section

variable (hread : ∀ k ∈ existing, Read k)
include hread

/-- If all names are answered rightly, no package is at the root of the repository itself. -/
theorem no_root_package (h : ∀ name, SlashFirst name ∨ Right existing repo name)
    (hk : k ∈ existing) (hrepo : k.repoKey.name = repo) : fullPath k ≠ [] := by
  intro hroot
  obtain ⟨x, hx, hslash, hfresh⟩ := exists_fresh existing
  have hsplit := splitOn_eq_singleton hslash
  have hright := (h x).resolve_left (by rw [SlashFirst, hsplit]; simpa using Ne.symm hx)
  rw [right_iff hread, hsplit] at hright
  obtain ⟨k', hk', -, hleaf⟩ := hright.mpr ⟨k, hk, hrepo, .inl (hroot ▸ nil_prefix)⟩
  obtain rfl : k'.package = x := by simpa using hleaf
  refine hfresh k' hk' (mem_append_right _ ?_)
  rw [pathElems_leaf hx hslash]
  exact mem_singleton_self _

/-- The leaf is a package in the root directory, since a name below the leaf is rejected. -/
theorem leaf_atRoot (h : ∀ name, SlashFirst name ∨ Right existing repo name)
    (hk : k ∈ existing) (hrepo : k.repoKey.name = repo) : AtRoot existing repo k.package := by
  obtain ⟨x, hx, hslash, hfresh⟩ := exists_fresh existing
  have hleaf : k.package ≠ [] := fun hnil =>
    no_root_package hread h hk hrepo ((hread k hk).leaf_nil.mp hnil)
  obtain ⟨hsplit, helems⟩ := elems_join [k.package, x] (by simp)
    (by simpa using ⟨⟨hleaf, (hread k hk).leaf⟩, hx, hslash⟩)
  have hright := (h (join '/' [k.package, x])).resolve_left
    (by rw [SlashFirst, hsplit]; simpa using Ne.symm hleaf)
  rw [right_iff hread, hsplit, helems] at hright
  obtain ⟨k', hk', hrepo', hpath⟩ := hright.mp ⟨k, hk, hrepo, [x], rfl⟩
  have hne := no_root_package hread h hk' hrepo'
  have hfresh' := hfresh k' hk'
  refine ⟨k', hk', hrepo', ?_⟩
  rcases hfull : fullPath k' with _ | ⟨e, _ | ⟨e', es⟩⟩
  · exact absurd hfull hne
  · grind
  · grind

end

/-- **Which names are rejected as they should be.** All that do not begin with a slash, exactly
when the leaf and the first directory of every package of the repository are packages in the
root directory. One that does, exactly when the root of the repository itself is a package, or
no package is nested with it. -/
theorem overlap_rejected_iff (hread : ∀ k ∈ existing, Read k) :
    ((∀ name, SlashFirst name ∨ Right existing repo name) ↔
      ∀ k ∈ existing, k.repoKey.name = repo →
        AtRoot existing repo k.package ∧ ∀ e, [e] <+: fullPath k → AtRoot existing repo e) ∧
    ∀ name, SlashFirst name → (Right existing repo name ↔
      (∃ k ∈ existing, k.repoKey.name = repo ∧ fullPath k = []) ∨ ¬ ∃ k ∈ existing, Nested repo name k) := by
  refine ⟨⟨fun h k hk hrepo => ⟨leaf_atRoot hread h hk hrepo, fun e he => ?_⟩, fun h name => ?_⟩,
    fun name hname => ?_⟩
  · -- the path of the package itself is rejected
    obtain ⟨hsplit, helems⟩ := elems_join _ (no_root_package hread h hk hrepo) fun _ => mem_fullPath
    have hright := (h (join '/' (fullPath k))).resolve_left fun hnil => by
      rw [SlashFirst, hsplit] at hnil
      exact (mem_fullPath (hnil.subset (mem_singleton_self _))).1 rfl
    rw [right_iff hread, hsplit, helems] at hright
    obtain ⟨k', hk', hrepo', hhead⟩ := hright.mpr ⟨k, hk, hrepo, .inl (prefix_refl _)⟩
    obtain rfl : k'.package = e := by simpa using prefix_of_prefix_length_le hhead he (Nat.le_refl 1)
    exact leaf_atRoot hread h hk' hrepo'
  · obtain ⟨x, xs, hsplit⟩ := exists_cons_of_ne_nil (splitOn_ne_nil '/' name)
    by_cases hx : x = []
    · exact .inl ⟨xs, by rw [hsplit, hx]; rfl⟩
    refine .inr ((right_iff hread).mpr ?_)
    rw [hsplit, pathElems_cons hsplit hx]
    constructor
    · rintro ⟨k, hk, hrepo, hhead⟩
      obtain ⟨k', hk', hrepo', hpath⟩ := (h k hk hrepo).1
      obtain rfl : k.package = x := by simpa using hhead
      exact ⟨k', hk', hrepo', .inl (hpath ▸ ⟨_, rfl⟩)⟩
    · rintro ⟨k, hk, hrepo, hpath⟩
      cases hfull : fullPath k with
      | nil =>
        obtain ⟨k', hk', -, hpath'⟩ := (h k hk hrepo).1
        rw [(hread k hk).leaf_nil.mpr hfull] at hpath'
        exact absurd rfl (mem_fullPath (hpath' ▸ mem_singleton_self [])).1
      | cons e es =>
        obtain ⟨k', hk', hrepo', hpath'⟩ := (h k hk hrepo).2 e (hfull ▸ ⟨es, rfl⟩)
        obtain rfl : e = x := by grind
        exact ⟨k', hk', hrepo', (hread k' hk').leaf_of_singleton hpath' ▸ ⟨xs, rfl⟩⟩
  · have hleaf : (validatePackagePathOverlap name repo existing).isSome = true ↔
        ∃ k ∈ existing, k.repoKey.name = repo ∧ fullPath k = [] := by
      rw [rejected_iff fun k hk => (hread k hk).leaf]
      refine exists_congr fun k => and_congr_right fun hk => and_congr_right fun _ => ?_
      rw [← (hread k hk).leaf_nil]
      obtain ⟨xs, hsplit⟩ := hname
      rw [← hsplit]
      simp
    have hnested : (∃ k ∈ existing, k.repoKey.name = repo ∧ fullPath k = []) →
        ∃ k ∈ existing, Nested repo name k := fun ⟨k, hk, hrepo, hroot⟩ =>
      ⟨k, hk, hrepo, .inl (hroot ▸ nil_prefix)⟩
    rw [Right, hleaf]
    refine ⟨fun h => ?_, fun h => ⟨hnested, fun hn => h.resolve_right (not_not.mpr hn)⟩⟩
    exact or_iff_not_imp_right.mpr fun hn => h.mpr (not_not.mp hn)

def inDirectory (path package : Str) : PackageKey := ⟨⟨"ns", "repo", [], "main"⟩, path, package⟩

theorem overlap_rejected_at_root :
    Right [inDirectory [] "a"] "repo" "a/b" ∧ ¬ Right [inDirectory [] "a"] "repo" "/a" := by
  have hread : ∀ k ∈ [inDirectory [] "a"], Read k := by simpa using ⟨"a", by decide +kernel⟩
  have hfull : fullPath (inDirectory [] "a") = ["a".toList] := by decide +kernel
  obtain ⟨hplain, hslash⟩ := @overlap_rejected_iff _ "repo".toList hread
  constructor
  · have hroot : AtRoot [inDirectory [] "a"] "repo" "a" := ⟨_, mem_singleton.mpr rfl, rfl, hfull⟩
    refine (hplain.mpr ?_ "a/b").resolve_left (by unfold SlashFirst; decide)
    simp only [mem_singleton, forall_eq, hfull]
    refine fun _ => ⟨hroot, fun e he => ?_⟩
    obtain rfl : e = "a".toList := by simpa using he
    exact hroot
  · rw [hslash "/a" (by unfold SlashFirst; decide)]
    simp only [mem_singleton, exists_eq_left, hfull]
    exact fun h => h.elim (by simp) fun h => h ⟨rfl, by decide +kernel⟩

/-- A package in the directory of another, and one with the name of another in a directory. -/
theorem overlap_by_leaf_only :
    validatePackagePathOverlap "dir/pkg/sub" "repo" [inDirectory "dir" "pkg"] = none ∧
      (validatePackagePathOverlap "pkg" "repo" [inDirectory "dir" "pkg"]).isSome = true := by decide +kernel

end Porch.Registry
