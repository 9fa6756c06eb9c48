import Mathlib.Data.List.AList
import Porch.Go.Error
import Porch.Go.Path

/- The directory that `OpenRepository` of `pkg/externalrepo/git/git.go` caches a remote in,
   and the remote `origin` that `initializeOrigin` of `gogit.go` gives it.

     strings.NewReplacer("/", "-", ":", "-")  replaceUrl
     OpenRepository, up to the directory      cacheDir
     initializeOrigin                         openRepository

   Two addresses have one directory exactly when they differ in slashes, colons and
   hyphens only, or are both empty or a dot (`cacheDir_ne_iff`); the one that is opened
   last is then the origin of both. -/
namespace Porch.Git

open Go List

def replaceUrl (repo : Str) : Str := repo.map fun c => if c = '/' ∨ c = ':' then '-' else c

/-- The directory of a remote under the root of the cache. -/
def cacheDir (root repo : Str) : Except Str Str :=
  let repoPath := clean (replaceUrl repo)
  if ['.', '.'] <:+: repoPath then
    .error "invalid repository path: contains path traversal"
  else
    let dir := joinPath [root, repoPath]
    if ¬ clean root <+: clean dir then
      .error "invalid repository path: outside root directory"
    else .ok dir

/-- The addresses of the remote `origin` of each cached directory. -/
abbrev Origins := AList fun _ : Str => Str

/-- `OpenRepository` up to the remote: the directory and the remotes by then. -/
def openRepository (root repo : Str) (origins : Origins) : Except Str (Str × Origins) := do
  let dir ← cacheDir root repo
  return (dir, origins.insert dir repo)

/-- Characters that are written the same way in the name of a directory. -/
def SameChar (a b : Char) : Prop := a = b ∨ a ∈ ['/', ':', '-'] ∧ b ∈ ['/', ':', '-']

instance (a b : Char) : Decidable (SameChar a b) := inferInstanceAs (Decidable (_ ∨ _))

/-- Addresses that differ only in slashes, colons and hyphens, or that name the root. -/
def SameName (u v : Str) : Prop :=
  List.Forall₂ SameChar u v ∨ u ∈ [[], ['.']] ∧ v ∈ [[], ['.']]

instance (u v : Str) : Decidable (SameName u v) := inferInstanceAs (Decidable (_ ∨ _))

/-! Leaf names under a root -/

section Leaf

variable {root p q s : Str} {rooted : Bool} {kept : List Str}

/-- The path with the elements that `clean` has kept. -/
def written (rooted : Bool) (kept : List Str) : Str :=
  let out := (if rooted then ['/'] else []) ++ join '/' kept
  if out = [] then ['.'] else out

/-- The elements that `clean` keeps. -/
def keptElems (s : Str) : List Str :=
  (s.splitOn '/').foldl (cleanStep (decide (s.head? = some '/'))) []

theorem clean_eq_written (s : Str) :
    clean s = written (decide (s.head? = some '/')) (keptElems s) := by
  simp only [clean, written, keptElems, decide_eq_true_eq]

theorem join_concat_leaf :
    join '/' (kept ++ [p]) = (if kept = [] then [] else join '/' kept ++ ['/']) ++ p := by
  by_cases hk : kept = []
  · simp [hk]
  · rw [join_concat hk, if_neg hk, append_assoc, singleton_append]

theorem written_concat (hp : p ≠ []) : written rooted (kept ++ [p]) =
    (if rooted then ['/'] else []) ++ ((if kept = [] then [] else join '/' kept ++ ['/']) ++ p) := by
  unfold written
  rw [join_concat_leaf, if_neg]
  intro hnil
  exact hp (append_eq_nil_iff.mp (append_eq_nil_iff.mp hnil).2).2

theorem written_concat_inj (hp : p ≠ []) (hq : q ≠ [])
    (h : written rooted (kept ++ [p]) = written rooted (kept ++ [q])) : p = q := by
  rw [written_concat hp, written_concat hq] at h
  exact append_cancel_left (append_cancel_left h)

theorem written_concat_ne (hp : p ≠ []) (hdot : p ≠ ['.']) :
    written rooted (kept ++ [p]) ≠ written rooted kept := by
  intro h
  rw [written_concat hp] at h
  by_cases hk : kept = []
  · subst hk
    cases rooted with
    | true =>
      rw [if_pos rfl] at h
      exact hp (cons.inj h).2
    | false => exact hdot h
  · -- a slash and the name have been added
    have hlen := congrArg length h
    have hpos := length_pos_of_ne_nil hp
    have hle : (written rooted kept).length ≤
        (if rooted then ['/'] else [] : Str).length + (join '/' kept).length + 1 := by
      unfold written
      by_cases hout : (if rooted then ['/'] else [] : Str) ++ join '/' kept = []
      · rw [if_pos hout]
        exact Nat.le_add_left 1 _
      · rw [if_neg hout, length_append]
        exact Nat.le_succ _
    rw [if_neg hk] at hlen
    simp only [length_append, length_singleton] at hlen
    omega

theorem cleanStep_leaf (hne : p ≠ []) (htwo : p ≠ ['.', '.']) :
    cleanStep rooted kept p = if p = ['.'] then kept else kept ++ [p] := by
  simp [cleanStep, hne, htwo]

theorem clean_leaf (h : '/' ∉ s) (htwo : s ≠ ['.', '.']) : clean s = if s = [] then ['.'] else s := by
  have hhead : s.head? ≠ some '/' := fun hh => h (mem_of_mem_head? hh)
  have hkept : keptElems s = cleanStep (decide (s.head? = some '/')) [] s := by
    rw [keptElems, splitOn_eq_singleton h, foldl_cons, foldl_nil]
  by_cases hs : s = []
  · rw [if_pos hs, hs]
    rfl
  · rw [clean_eq_written, hkept, cleanStep_leaf hs htwo, if_neg hs, decide_eq_false hhead]
    by_cases hdot : s = ['.']
    · rw [if_pos hdot, hdot]
      rfl
    · rw [if_neg hdot, written_concat hs]
      rfl

theorem joinPath_leaf (hroot : root ≠ []) (hp : p ≠ []) (hslash : '/' ∉ p) (htwo : p ≠ ['.', '.']) :
    joinPath [root, p] = written (decide (root.head? = some '/'))
      (if p = ['.'] then keptElems root else keptElems root ++ [p]) := by
  have hempty : root.isEmpty = false := by simpa using hroot
  have hjoin : joinPath [root, p] = clean (root ++ '/' :: p) := by
    simp only [joinPath, dropWhile_cons, hempty, Bool.false_eq_true, if_false]
    rw [join_cons (by simp), join_singleton]
  have hhead : (root ++ '/' :: p).head? = root.head? := by
    cases root with
    | nil => exact absurd rfl hroot
    | cons x xs => rfl
  rw [hjoin, clean_eq_written, hhead, keptElems, hhead, splitOn_append_cons_self,
    splitOn_eq_singleton hslash, foldl_append, foldl_cons, foldl_nil,
    cleanStep_leaf hp htwo]
  rfl

/-- **Different leaf names give different paths under one root.** -/
theorem joinPath_leaf_inj (hp : p ≠ []) (hq : q ≠ []) (hps : '/' ∉ p) (hqs : '/' ∉ q)
    (hptwo : p ≠ ['.', '.']) (hqtwo : q ≠ ['.', '.'])
    (h : joinPath [root, p] = joinPath [root, q]) : p = q := by
  by_cases hroot : root = []
  · -- an empty root is skipped
    have hclean : ∀ x : Str, x ≠ [] → '/' ∉ x → x ≠ ['.', '.'] → joinPath [root, x] = x := by
      intro x hx hxs hxtwo
      have hempty : x.isEmpty = false := by simpa using hx
      simp only [joinPath, hroot, dropWhile_cons, isEmpty_nil, if_true, hempty,
        Bool.false_eq_true, if_false, join_singleton]
      rw [clean_leaf hxs hxtwo, if_neg hx]
    rw [hclean p hp hps hptwo, hclean q hq hqs hqtwo] at h
    exact h
  · rw [joinPath_leaf hroot hp hps hptwo, joinPath_leaf hroot hq hqs hqtwo] at h
    by_cases hpdot : p = ['.'] <;> by_cases hqdot : q = ['.']
    · exact hpdot.trans hqdot.symm
    · rw [if_pos hpdot, if_neg hqdot] at h
      exact absurd h.symm (written_concat_ne hq hqdot)
    · rw [if_neg hpdot, if_pos hqdot] at h
      exact absurd h (written_concat_ne hp hpdot)
    · rw [if_neg hpdot, if_neg hqdot] at h
      exact written_concat_inj hp hq h

end Leaf

/-! Directories -/

section Names

variable {root u v du dv : Str}

theorem slash_not_mem_replaceUrl : '/' ∉ replaceUrl u := by
  intro h
  obtain ⟨c, _, hc⟩ := mem_map.mp h
  split at hc
  · cases hc
  · rename_i hne
    exact hne (.inl hc)

theorem replaced_eq_iff (a b : Char) :
    ((if a = '/' ∨ a = ':' then '-' else a) = if b = '/' ∨ b = ':' then '-' else b) ↔ SameChar a b := by
  unfold SameChar
  simp only [mem_cons, not_mem_nil, or_false]
  split <;> split <;> grind

theorem replaceUrl_eq_iff : replaceUrl u = replaceUrl v ↔ List.Forall₂ SameChar u v := by
  unfold replaceUrl
  rw [← forall₂_eq_eq_eq, forall₂_map_left_iff, forall₂_map_right_iff]
  have hsame : (fun a b : Char => (if a = '/' ∨ a = ':' then '-' else a) =
      if b = '/' ∨ b = ':' then '-' else b) = SameChar := by
    funext a b
    exact propext (replaced_eq_iff a b)
  rw [← hsame]

theorem replaceUrl_eq_dot : replaceUrl u = ['.'] ↔ u = ['.'] := by
  constructor
  · intro h
    obtain ⟨c, t, rfl, hc, ht⟩ := map_eq_cons_iff.mp h
    have hc' : c = '.' := by
      split at hc
      · cases hc
      · exact hc
    rw [hc', map_eq_nil_iff.mp ht]
  · intro h
    rw [h]
    rfl

theorem clean_replaceUrl_dot
    (h : clean (replaceUrl u) = if replaceUrl u = [] then ['.'] else replaceUrl u) :
    clean (replaceUrl u) = ['.'] ↔ u ∈ [[], ['.']] := by
  rw [h, mem_cons, mem_singleton]
  by_cases hnil : replaceUrl u = []
  · rw [if_pos hnil]
    exact iff_of_true rfl (.inl (map_eq_nil_iff.mp hnil))
  · rw [if_neg hnil, replaceUrl_eq_dot]
    have hu : u ≠ [] := fun hu => hnil (by rw [hu]; rfl)
    exact ⟨.inr, fun h => h.resolve_left hu⟩

theorem cacheDir_ok (h : cacheDir root u = .ok du) :
    clean (replaceUrl u) = (if replaceUrl u = [] then ['.'] else replaceUrl u) ∧
      clean (replaceUrl u) ≠ ['.', '.'] ∧ du = joinPath [root, clean (replaceUrl u)] := by
  unfold cacheDir at h
  simp only at h
  split at h
  · cases h
  · rename_i hdots
    split at h
    · cases h
    · cases h
      have htwo : clean (replaceUrl u) ≠ ['.', '.'] := by
        intro heq
        rw [heq] at hdots
        exact hdots (infix_refl _)
      refine ⟨?_, htwo, rfl⟩
      apply clean_leaf slash_not_mem_replaceUrl
      intro heq
      rw [heq] at htwo
      exact htwo rfl

theorem clean_replaceUrl_eq_iff
    (hu : clean (replaceUrl u) = if replaceUrl u = [] then ['.'] else replaceUrl u)
    (hv : clean (replaceUrl v) = if replaceUrl v = [] then ['.'] else replaceUrl v) :
    clean (replaceUrl u) = clean (replaceUrl v) ↔ SameName u v := by
  unfold SameName
  rw [← clean_replaceUrl_dot hu, ← clean_replaceUrl_dot hv, ← replaceUrl_eq_iff]
  constructor
  · intro heq
    by_cases hdot : clean (replaceUrl u) = ['.']
    · exact .inr ⟨hdot, heq ▸ hdot⟩
    · -- neither is empty, so they are written as they are
      have hdot' : clean (replaceUrl v) ≠ ['.'] := heq ▸ hdot
      rw [hu, hv] at heq
      have hune : replaceUrl u ≠ [] := fun h => hdot (by rw [hu, if_pos h])
      have hvne : replaceUrl v ≠ [] := fun h => hdot' (by rw [hv, if_pos h])
      rw [if_neg hune, if_neg hvne] at heq
      exact .inl heq
  · intro h
    obtain heq | ⟨hdot, hdot'⟩ := h
    · rw [heq]
    · rw [hdot, hdot']

theorem cacheDir_eq_iff (hu : cacheDir root u = .ok du) (hv : cacheDir root v = .ok dv) :
    du = dv ↔ SameName u v := by
  obtain ⟨hcu, htwou, rfl⟩ := cacheDir_ok hu
  obtain ⟨hcv, htwov, rfl⟩ := cacheDir_ok hv
  rw [← clean_replaceUrl_eq_iff hcu hcv]
  refine ⟨?_, fun h => by rw [h]⟩
  have hleaf : ∀ x : Str, clean (replaceUrl x) =
      (if replaceUrl x = [] then ['.'] else replaceUrl x) →
      clean (replaceUrl x) ≠ [] ∧ '/' ∉ clean (replaceUrl x) := by
    intro x hx
    rw [hx]
    split
    · exact ⟨nofun, by decide⟩
    · rename_i hne
      exact ⟨hne, slash_not_mem_replaceUrl⟩
  exact joinPath_leaf_inj (hleaf u hcu).1 (hleaf v hcv).1 (hleaf u hcu).2 (hleaf v hcv).2 htwou htwov

end Names

/-- **Two addresses that are opened one after the other have different directories exactly
    when they do not have the same name; the first one keeps its origin then, and has the
    origin of the second one otherwise.** -/
theorem cacheDir_ne_iff {root u v du dv : Str} {origins origins₁ origins₂ : Origins}
    (hu : openRepository root u origins = .ok (du, origins₁))
    (hv : openRepository root v origins₁ = .ok (dv, origins₂)) : (du ≠ dv ↔ ¬ SameName u v) ∧
      origins₂.lookup du = if SameName u v then some v else some u := by
  obtain ⟨du', hdu, hok⟩ := bind_eq_ok.mp hu
  cases hok
  obtain ⟨dv', hdv, hok⟩ := bind_eq_ok.mp hv
  cases hok
  have heq := cacheDir_eq_iff hdu hdv
  refine ⟨not_congr heq, ?_⟩
  by_cases hsame : SameName u v
  · rw [if_pos hsame, heq.mpr hsame, AList.lookup_insert]
  · have hne : du ≠ dv := fun h => hsame (heq.mp h)
    rw [if_neg hsame, AList.lookup_insert_ne hne, AList.lookup_insert]

theorem openRepository_ok {root repo dir : Str} (origins : Origins)
    (h : cacheDir root repo = .ok dir) :
    openRepository root repo origins = .ok (dir, origins.insert dir repo) := by
  unfold openRepository
  rw [h]
  rfl

theorem cacheDir_ne_iff_other_host :
    ∃ du dv o₁ o₂, openRepository "/cache".toList "https://one/a.git".toList ∅ = .ok (du, o₁) ∧
      openRepository "/cache".toList "https://two/a.git".toList o₁ = .ok (dv, o₂) ∧ du ≠ dv ∧
      o₂.lookup du = some "https://one/a.git".toList := by
  have hu : cacheDir "/cache".toList "https://one/a.git".toList =
      .ok "/cache/https---one-a.git".toList := by decide +kernel
  have hv : cacheDir "/cache".toList "https://two/a.git".toList =
      .ok "/cache/https---two-a.git".toList := by decide +kernel
  have hother : ¬ SameName "https://one/a.git".toList "https://two/a.git".toList := by decide +kernel
  have hopenu := openRepository_ok ∅ hu
  obtain ⟨hne, horigin⟩ := cacheDir_ne_iff hopenu (openRepository_ok _ hv)
  rw [if_neg hother] at horigin
  exact ⟨_, _, _, _, hopenu, openRepository_ok _ hv, hne.mpr hother, horigin⟩

/-- Both directories, and the origin of the first one after the second has been opened. -/
def openBoth (root u v : Str) : Except Str (Str × Str × Option Str) := do
  let (du, origins₁) ← openRepository root u ∅
  let (dv, origins₂) ← openRepository root v origins₁
  return (du, dv, origins₂.lookup du)

/-- **The repositories `a/b` and `a-b` of one host share a directory, and the one opened
    first gets the origin of the other.** -/
theorem hyphen_shares_directory :
    openBoth "/cache" "https://host/a/b.git" "https://host/a-b.git" =
      .ok ("/cache/https---host-a-b.git", "/cache/https---host-a-b.git",
        some "https://host/a-b.git") := by
  decide +kernel

end Porch.Git
