import Porch.Git.RefSpec
import Porch.Variants.Upstream

/- The workspace name of the next draft of a downstream package: one more than the
   greatest number behind the common part of the names.

     strconv.Atoi      atoiValue
     newWorkspaceName  workspaceNumber, newWorkspaceName

   The error of `Atoi` is ignored, so the value it returns with an error counts: 0 for what
   is no number, the nearest limit for what is out of range. `wsNum++` behind the upper limit
   wraps to the lower one, and `new_workspace_unused_iff` says when that name is in use. -/
namespace Porch.Variants

open Go Git

def maxInt : Int := 2 ^ 63 - 1

/-- The number `strconv.Atoi` returns, with an error or without. -/
def atoiValue (s : Str) : Int :=
  (atoi s).getD <|
    let (limit, digits) := match s with
      | '-' :: ds => (-2 ^ 63, ds)
      | '+' :: ds => (maxInt, ds)
      | ds => (maxInt, ds)
    let isDigit := fun c => '0' ≤ c && c ≤ '9'
    let n := (digits.takeWhile isDigit).foldl (fun acc c => acc * 10 + (c.toNat - '0'.toNat)) 0
    -- digits beyond 64 bits end the scan before a character that is none
    if 2 ^ 64 ≤ n || (2 ^ 63 ≤ n && digits.all isDigit) then limit else 0

def workspaceNamePrefix : Str := "packagevariant-".toList

variable (packageName repo : Str)

/-- The number in the workspace name, in a revision that the loop does not skip. -/
def workspaceNumber (pr : PackageRevision) : Option Int :=
  if pr.packageName ≠ packageName ∨ pr.repositoryName ≠ repo then none
  else (cutPrefix pr.workspaceName workspaceNamePrefix).map atoiValue

def newWorkspaceName (prList : List PackageRevision) : Str :=
  let wsNum := (prList.filterMap (workspaceNumber packageName repo)).foldl max 0
  workspaceNamePrefix ++ revision2Str (Int.bmod (wsNum + 1) (2 ^ 64))

theorem atoiValue_le (s : Str) : atoiValue s ≤ maxInt := by
  unfold atoiValue
  cases h : atoi s with
  | some i =>
    unfold atoi at h
    grind [maxInt]
  | none =>
    rw [Option.getD_none]
    grind [maxInt]

theorem atoiValue_natCast {n : Nat} (h : n ≤ maxInt) : atoiValue (revision2Str n) = n := by
  unfold maxInt at h
  unfold atoiValue
  rw [revision2Str_natCast, atoi_toDigits (by omega), Option.getD_some]

variable {packageName repo} {pr : PackageRevision} {prList : List PackageRevision}

theorem workspaceNumber_le {n : Int} (h : workspaceNumber packageName repo pr = some n) : n ≤ maxInt := by
  unfold workspaceNumber at h
  split at h
  · cases h
  · obtain ⟨s, -, rfl⟩ := Option.map_eq_some_iff.mp h
    exact atoiValue_le s

theorem workspaceNumber_of_name (hpackage : pr.packageName = packageName)
    (hrepo : pr.repositoryName = repo) {s : Str} (hname : pr.workspaceName = workspaceNamePrefix ++ s) :
    workspaceNumber packageName repo pr = some (atoiValue s) := by
  rw [workspaceNumber, if_neg (by simp [hpackage, hrepo]), cutPrefix_eq_some.mpr hname]
  rfl

/-- **The new name is not in use, unless both limits are**: a number that reads as the
    greatest one, and the name its successor wraps to. -/
theorem new_workspace_unused_iff (packageName repo : Str) (prList : List PackageRevision) :
    (∀ pr ∈ prList, pr.packageName = packageName → pr.repositoryName = repo →
      pr.workspaceName ≠ newWorkspaceName packageName repo prList) ↔
    ¬((∃ pr ∈ prList, workspaceNumber packageName repo pr = some maxInt) ∧
      ∃ pr ∈ prList, pr.packageName = packageName ∧ pr.repositoryName = repo ∧
        pr.workspaceName = workspaceNamePrefix ++ "-9223372036854775808".toList) := by
  have hmax : (0 :: prList.filterMap (workspaceNumber packageName repo)).max? =
      some ((prList.filterMap (workspaceNumber packageName repo)).foldl max 0) := List.max?_cons'
  simp only [newWorkspaceName]
  generalize (prList.filterMap (workspaceNumber packageName repo)).foldl max 0 = wsNum at hmax ⊢
  obtain ⟨hmem, hle⟩ := List.max?_eq_some_iff.mp hmax
  have hpos : 0 ≤ wsNum := hle 0 List.mem_cons_self
  have hnumber : ∀ pr ∈ prList, ∀ n, workspaceNumber packageName repo pr = some n → n ≤ wsNum :=
    fun pr hpr n hn => hle n (List.mem_cons_of_mem _ (List.mem_filterMap.mpr ⟨pr, hpr, hn⟩))
  by_cases hlast : wsNum = maxInt
  · subst hlast
    -- the loop has met the greatest number, so the name depends on the other limit alone
    obtain ⟨pr, hpr, hn⟩ : ∃ pr ∈ prList, workspaceNumber packageName repo pr = some maxInt :=
      (List.mem_cons.mp hmem).elim nofun List.mem_filterMap.mp
    have hwrap : revision2Str (Int.bmod (maxInt + 1) (2 ^ 64)) = "-9223372036854775808".toList := by
      decide +kernel
    rw [hwrap]
    constructor
    · rintro hunused ⟨-, pr, hpr, hpackage, hrepo, hname⟩
      exact hunused pr hpr hpackage hrepo hname
    · intro hnot pr' hpr' hpackage hrepo hname
      exact hnot ⟨⟨pr, hpr, hn⟩, pr', hpr', hpackage, hrepo, hname⟩
  · have hlt : wsNum + 1 ≤ maxInt := by
      obtain rfl | hn := List.mem_cons.mp hmem
      · decide
      · obtain ⟨pr, -, hn⟩ := List.mem_filterMap.mp hn
        have := workspaceNumber_le hn
        omega
    refine ⟨fun _ ⟨⟨pr, hpr, hn⟩, _⟩ => ?_, fun _ pr hpr hpackage hrepo hname => ?_⟩
    · have := hnumber pr hpr maxInt hn
      omega
    · obtain ⟨k, hk⟩ := Int.eq_ofNat_of_zero_le (Int.le_add_one hpos)
      have hsmall : Int.bmod (wsNum + 1) (2 ^ 64) = k := by
        unfold maxInt at hlt
        rw [← hk]
        exact Int.bmod_eq_of_le (by omega) (by omega)
      have hn := workspaceNumber_of_name hpackage hrepo hname
      rw [hsmall, atoiValue_natCast (hk ▸ hlt)] at hn
      have := hnumber pr hpr k hn
      omega

theorem new_workspace_in_use :
    let used := [9223372036854775807, -9223372036854775808].map fun n =>
      { name := [], workspaceName := workspaceNamePrefix ++ revision2Str n : PackageRevision }
    ∃ pr ∈ used, pr.workspaceName = newWorkspaceName [] [] used := by
  decide +kernel

end Porch.Variants
