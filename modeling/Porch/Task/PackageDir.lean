import Mathlib.Data.List.Induction
import Porch.Go.Path

/- The package directory of a map of resources: the topmost directory with a Kptfile.

     path.Dir, path.Base                          dir, baseName
     the loops of the two functions               writeFiles, keepTopmost
     WriteResourcesToFS (pkg/repository/util.go)  writeResourcesToFS
     writeResources (pkg/task/render.go)          writeResources

   Go walks a map in any order, and the directory is kept on the way: a directory above the
   one that is kept takes its place. -/
namespace Porch.Task

open Go

def dir (k : Str) : Str := clean (k.reverse.dropWhile (· ≠ '/')).reverse

def baseName (k : Str) : Str :=
  if k = [] then ['.'] else
  match (k.reverse.dropWhile (· = '/')).takeWhile (· ≠ '/') with
  | [] => ['/']
  | e => e.reverse

/-- The directory of a resource, `/` for a file at the top. -/
def resourceDir (k : Str) : Str := if dir k = ['.'] then ['/'] else dir k

def kptfileName : Str := "Kptfile"

def keepTopmost (packageDir k : Str) : Str :=
  let dir := resourceDir k
  if baseName k = kptfileName ∧ (packageDir = [] ∨ dir = ['/'] ∨ dir ++ ['/'] <+: packageDir) then dir
  else packageDir

/-- A file system with any state. A call may fail, and its error is passed on. -/
structure FileSystem (σ : Type) where
  mkdirAll : Str → σ → Option σ
  writeFile : Str → Str → σ → Option σ

variable {σ : Type} (fs : FileSystem σ)

/-- The loop over the resources; `place` is where a directory is written. -/
def writeFiles (place : Str → Str) : List (Str × Str) → σ → Str → Option (σ × Str)
  | [], s, packageDir => some (s, packageDir)
  | (k, v) :: files, s, packageDir => do
    let fullDir := place (resourceDir k)
    let s ← fs.mkdirAll fullDir s
    let s ← fs.writeFile (joinPath [fullDir, baseName k]) v s
    writeFiles place files s (keepTopmost packageDir k)

def writeResourcesToFS (rootDir : Str) (resources : List (Str × Str)) (s : σ) : Option (σ × Str) :=
  (if rootDir = [] then some s else fs.mkdirAll rootDir s).bind fun s =>
    writeFiles fs (fun dir => joinPath [rootDir, dir]) resources s []

def writeResources (resources : List (Str × Str)) (s : σ) : Option (σ × Str) :=
  writeFiles fs id resources s []

/-- No call fails. -/
def FileSystem.Total : Prop :=
  (∀ path s, ∃ s', fs.mkdirAll path s = some s') ∧ ∀ path v s, ∃ s', fs.writeFile path v s = some s'

/-- `a` is `d` or an ancestor of it, `/` being the top. -/
def AtOrAbove (a d : Str) : Prop := a = ['/'] ∨ d = a ∨ a ++ ['/'] <+: d

/-- The directory `d` contains a Kptfile. -/
def HasKptfile (resources : List (Str × Str)) (d : Str) : Prop :=
  ∃ file ∈ resources, baseName file.1 = kptfileName ∧ resourceDir file.1 = d

section Topmost

variable {fs} {k a b d p : Str} {resources files : List (Str × Str)}

theorem resourceDir_ne_nil : resourceDir k ≠ [] := by
  unfold resourceDir dir clean
  grind

theorem AtOrAbove.antisymm (ha : a ≠ []) (hb : b ≠ []) (hab : AtOrAbove a b) (hba : AtOrAbove b a) : a = b := by
  have hroot {x : Str} (hx : x ≠ []) (h : x ++ ['/'] <+: ['/']) : False := by
    have hle := h.length_le
    cases x with
    | nil => exact hx rfl
    | cons => simp at hle
  rcases hab with rfl | rfl | hab
  · rcases hba with rfl | rfl | hba
    · rfl
    · rfl
    · exact (hroot hb hba).elim
  · rfl
  · rcases hba with rfl | rfl | hba
    · exact (hroot ha hab).elim
    · rfl
    · have hle := hab.length_le
      have hle' := hba.length_le
      simp only [List.length_append, List.length_singleton] at hle hle'
      omega

theorem keepTopmost_eq (hk : baseName k = kptfileName) (hp : p ≠ []) :
    keepTopmost p k = p ∧ ¬AtOrAbove (resourceDir k) p ∨
      keepTopmost p k = resourceDir k ∧ AtOrAbove (resourceDir k) p := by
  unfold keepTopmost AtOrAbove
  grind

theorem hasKptfile_concat {file : Str × Str} : HasKptfile (files ++ [file]) d ↔
    HasKptfile files d ∨ baseName file.1 = kptfileName ∧ resourceDir file.1 = d := by
  simp [HasKptfile, or_and_right, exists_or]

theorem HasKptfile.ne_nil (h : HasKptfile files d) : d ≠ [] := by
  obtain ⟨file, -, -, rfl⟩ := h
  exact resourceDir_ne_nil

/-- What the loop has kept is a directory with a Kptfile, and the topmost one once it has
    been visited. -/
theorem foldl_keepTopmost (hall : ∀ d, HasKptfile files d → AtOrAbove a d) :
    let p := files.foldl (fun p file => keepTopmost p file.1) []
    (p = [] ∧ ∀ d, ¬HasKptfile files d) ∨ (HasKptfile files p ∧ (HasKptfile files a → p = a)) := by
  induction files using List.reverseRecOn with
  | nil => exact .inl ⟨rfl, by simp [HasKptfile]⟩
  | append_singleton files file ih =>
    simp only [hasKptfile_concat] at hall ⊢
    rw [List.foldl_concat]
    generalize files.foldl (fun p file => keepTopmost p file.1) [] = p at ih ⊢
    by_cases hk : baseName file.1 = kptfileName
    · obtain ⟨rfl, hnone⟩ | ⟨hp, htop⟩ := ih fun d hd => hall d (.inl hd)
      · have hfirst : keepTopmost [] file.1 = resourceDir file.1 := by simp [keepTopmost, hk]
        rw [hfirst]
        exact .inr ⟨.inr ⟨hk, rfl⟩, fun h => (h.resolve_left (hnone a)).2⟩
      · obtain ⟨heq, habove⟩ | ⟨heq, habove⟩ := keepTopmost_eq hk hp.ne_nil
        · rw [heq]
          refine .inr ⟨.inl hp, fun h => h.elim htop fun h => absurd ?_ habove⟩
          exact h.2 ▸ hall p (.inl hp)
        · rw [heq]
          refine .inr ⟨.inr ⟨hk, rfl⟩, fun h => h.elim (fun h => ?_) And.right⟩
          exact (htop h ▸ habove).antisymm resourceDir_ne_nil h.ne_nil (hall _ (.inr ⟨hk, rfl⟩))
    · have hother : keepTopmost p file.1 = p := by simp [keepTopmost, hk]
      simpa [hother, hk] using ih fun d hd => hall d (.inl hd)

variable {place : Str → Str} {s s' : σ}

theorem packageDir_of_writeFiles (h : writeFiles fs place files s p = some (s', d)) :
    d = files.foldl (fun p file => keepTopmost p file.1) p := by
  induction files generalizing s p with
  | nil =>
    cases h
    rfl
  | cons file files ih =>
    obtain ⟨s₁, -, s₂, -, h⟩ := by simpa [writeFiles, Option.bind_eq_some_iff] using h
    exact ih h

theorem FileSystem.Total.writeFiles (h : fs.Total) : ∃ r, writeFiles fs place files s p = some r := by
  induction files generalizing s p with
  | nil => exact ⟨_, rfl⟩
  | cons file files ih =>
    obtain ⟨s₁, h₁⟩ := h.1 (place (resourceDir file.1)) s
    obtain ⟨s₂, h₂⟩ := h.2 (joinPath [place (resourceDir file.1), baseName file.1]) file.2 s₁
    simpa [Task.writeFiles, h₁, h₂] using ih

end Topmost

/-- **The package directory is the topmost directory with a Kptfile in every order** in which
    the resources are visited, in both functions, whenever the writes succeed. -/
theorem package_dir_topmost {resources : List (Str × Str)} {d : Str} (hd : HasKptfile resources d)
    (hall : ∀ d', HasKptfile resources d' → AtOrAbove d d') (rootDir : Str) {order : List (Str × Str)}
    (horder : order.Perm resources) (s : σ) :
    ∀ result ∈ [writeResourcesToFS fs rootDir order s, writeResources fs order s],
      (∀ r, result = some r → r.2 = d) ∧ (fs.Total → ∃ r, result = some r) := by
  have hsame (d' : Str) : HasKptfile order d' ↔ HasKptfile resources d' := by
    simp only [HasKptfile, horder.mem_iff]
  have hfold : order.foldl (fun p file => keepTopmost p file.1) [] = d := by
    obtain ⟨-, hnone⟩ | ⟨-, htop⟩ := foldl_keepTopmost fun d' h => hall d' ((hsame d').mp h)
    · exact absurd ((hsame d).mpr hd) (hnone d)
    · exact htop ((hsame d).mpr hd)
  have hloop {place s r} (h : writeFiles fs place order s [] = some r) : r.2 = d :=
    (packageDir_of_writeFiles h).trans hfold
  refine List.forall_mem_cons.mpr ⟨⟨fun r h => ?_, fun htotal => ?_⟩, List.forall_mem_singleton.mpr
    ⟨fun r => hloop, fun htotal => htotal.writeFiles⟩⟩
  · obtain ⟨s₁, -, h⟩ := Option.bind_eq_some_iff.mp h
    exact hloop h
  · obtain ⟨s₁, h₁⟩ : ∃ s₁, (if rootDir = [] then some s else fs.mkdirAll rootDir s) = some s₁ := by
      split
      · exact ⟨s, rfl⟩
      · exact htotal.1 rootDir s
    obtain ⟨r, hr⟩ := htotal.writeFiles
    exact ⟨r, Option.bind_eq_some_iff.mpr ⟨s₁, h₁, hr⟩⟩

def subpackageFirst : List (Str × Str) := [("a/b/Kptfile".toList, []), ("a/Kptfile".toList, [])]

theorem package_dir_of_subpackage :
    writeResources ⟨fun _ => some, fun _ _ => some⟩ subpackageFirst () = some ((), "a".toList) := by
  have hdirs : resourceDir "a/b/Kptfile".toList = "a/b".toList ∧ resourceDir "a/Kptfile".toList = "a".toList := by
    decide +kernel
  have htop : HasKptfile subpackageFirst "a".toList := ⟨_, .tail _ (.head _), by decide +kernel, hdirs.2⟩
  have hall (d : Str) (h : HasKptfile subpackageFirst d) : AtOrAbove "a".toList d := by
    obtain ⟨file, hfile, -, rfl⟩ := h
    obtain rfl | rfl : file = _ ∨ file = _ := by simpa [subpackageFirst] using hfile
    · exact .inr (.inr (hdirs.1 ▸ ⟨['b'], rfl⟩))
    · exact .inr (.inl hdirs.2)
  obtain ⟨hdir, htotal⟩ := package_dir_topmost ⟨fun _ => some, fun _ _ => some⟩ htop hall []
    (.refl _) () _ (.tail _ (.head _))
  obtain ⟨⟨_, p⟩, hr⟩ := htotal ⟨fun _ s => ⟨s, rfl⟩, fun _ _ s => ⟨s, rfl⟩⟩
  rw [hr, show p = _ from hdir _ hr]

end Porch.Task
