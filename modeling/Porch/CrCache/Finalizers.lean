import Porch.Go.Strings

/- Deleting a package revision of a CR-cached repository, whose metadata and finalizers are
   kept by an object of its own, the `PackageRev`.

     repository.go  DeletePackageRevision: deletePackageRevision, deleteForReal
     meta/store.go  crdMetadataStore.Delete: storeDelete, attempt; toPackageRevisionMeta

   The store asks the API server for the object, marks it deleted and returns its finalizers,
   without the one that Porch sets itself. When one of these calls fails, it returns the empty
   metadata with the error. The error is only logged, so the empty metadata reads as "no
   finalizers left" and the revision goes from git (`deleted_despite_finalizers`).
   `deletes_released_iff` says when a revision goes only if it has been released. `retry` is
   `RetryOnConflict` of client-go with `steps` turns, of which `RetriesOnConflict` says what it
   promises. -/
namespace Porch.CrCache.Finalizers

open Go

/-- The errors of the API server, as far as they are told apart. -/
inductive ApiError where
  | notFound
  | conflict
  | other (message : Str)
deriving DecidableEq, Repr

def pkgRevisionFinalizer : Str := "internal.porch.kpt.dev/packagerevision"

/-- The `PackageRev` object of a package revision. -/
structure PackageRev where
  finalizers : List Str
  deletionTimestamp : Bool := false
deriving DecidableEq, Repr

inductive Notification where
  | modified
  | deleted
deriving DecidableEq, Repr

structure State where
  packageRev : Option PackageRev
  inGit : Bool
  inCache : Bool
  sent : List Notification := []
deriving DecidableEq, Repr

/-- How the API server answers to the calls of one turn of the loop in `Delete`. -/
structure Attempt where
  get : Option ApiError := none
  update : Option ApiError := none
deriving DecidableEq, Repr

/-- How it answers to the calls of one `Delete`: to the turn with each number, and to the call that
    deletes the object. -/
structure Answers where
  attempts : Nat → Attempt
  delete : Option ApiError := none

/-! The store -/

/-- The finalizers in the metadata that the store returns. -/
def toPackageRevisionMeta (obj : PackageRev) : List Str :=
  obj.finalizers.filter (· ≠ pkgRevisionFinalizer)

namespace State

variable (s : State)

def get (err : Option ApiError) : Except ApiError PackageRev :=
  match err, s.packageRev with
  | some err, _ => .error err
  | none, none => .error .notFound
  | none, some obj => .ok obj

/-- The API server deletes an object without finalizers, and marks one that has some. -/
def deleteObject (obj : PackageRev) : State :=
  if obj.finalizers = [] then { s with packageRev := none }
  else { s with packageRev := some { obj with deletionTimestamp := true } }

end State

/-- One turn of the loop: the object is read, and its finalizers are cleared if that is asked for. -/
def attempt (clearFinalizers : Bool) (a : Attempt) (s : State) : Except ApiError PackageRev × State :=
  match s.get a.get with
  | .error err => (.error err, s)
  | .ok obj =>
    if clearFinalizers then
      match a.update with
      | some err => (.error err, s)
      | none => (.ok { obj with finalizers := [] }, { s with packageRev := some { obj with finalizers := [] } })
    else (.ok obj, s)

abbrev Turn := Nat → State → Except ApiError PackageRev × State

/-- The state before the turn with a number, after the turns before it. -/
def stateBefore (turn : Turn) (s : State) : Nat → State
  | 0 => s
  | n + 1 => (turn n (stateBefore turn s n)).2

/-- Turn follows turn as long as they end in a conflict, `steps` of them at most. The last one is
    the result. -/
def RetriesOnConflict (steps : Nat) (retry : Turn → State → Except ApiError PackageRev × State) : Prop :=
  ∀ turn s, ∃ n < steps, retry turn s = turn n (stateBefore turn s n) ∧
    (∀ i < n, (turn i (stateBefore turn s i)).1 = .error .conflict) ∧
    ((turn n (stateBefore turn s n)).1 = .error .conflict → n + 1 = steps)

section Model

variable (retry : Turn → State → Except ApiError PackageRev × State)

/-- `Delete` of the store: the finalizers in the metadata that it returns, with the error. -/
def storeDelete (clearFinalizers : Bool) (answers : Answers) (s : State) : (List Str × Option ApiError) × State :=
  match retry (fun i => attempt clearFinalizers (answers.attempts i)) s with
  | (.error err, s') => (([], some err), s')
  | (.ok obj, s') =>
    match answers.delete with
    | some err => (([], some err), s')
    | none => ((toPackageRevisionMeta obj, none), s'.deleteObject obj)

/-! The repository -/

/-- What follows when the metadata has no finalizers. An error of the second `Delete` is logged. -/
def deleteForReal (git : Option Str) (second : Answers) (s : State) : Option Str × State :=
  match git with
  | some err => (some err, s)
  | none =>
    let s := (storeDelete retry true second { s with inGit := false, inCache := false }).2
    (none, { s with sent := s.sent ++ [.deleted] })

/-- `git` is the error of the repository behind the cache, if it fails. An error of the first
    `Delete` is logged. -/
def deletePackageRevision (first : Answers) (git : Option Str) (second : Answers) (s : State) :
    Option Str × State :=
  let ((finalizers, _), s) := storeDelete retry false first s
  if finalizers ≠ [] then (none, { s with sent := s.sent ++ [.modified] })
  else deleteForReal retry git second s

/-! When a revision goes from git -/

/-- The `PackageRev` object has no finalizers left, or is gone itself. -/
def State.released (s : State) : Prop := ∀ obj ∈ s.packageRev, toPackageRevisionMeta obj = []

/-- Whatever git and the second `Delete` say, a revision that is in git goes only if it has been
    released. -/
def DeletesReleased (first : Answers) (s : State) : Prop :=
  ∀ git second, (deletePackageRevision retry first git second { s with inGit := true }).2.inGit = false →
    s.released

end Model

/-- The first `Delete` meets no error: the object can be read in the first turn without a conflict,
    and deleted. -/
def Answers.smooth (steps : Nat) (answers : Answers) : Prop :=
  (∃ n < steps, (answers.attempts n).get = none ∧ ∀ i < n, (answers.attempts i).get = some .conflict) ∧
    answers.delete = none

variable {retry : Turn → State → Except ApiError PackageRev × State} {steps : Nat}
  {first second : Answers} {s s' : State} {git : Option Str}

theorem get_conflict {err : Option ApiError} : s.get err = .error .conflict ↔ err = some .conflict := by
  cases err with
  | none => cases hobj : s.packageRev <;> simp [State.get, hobj]
  | some err => simp [State.get]

theorem attempt_read (a : Attempt) (s : State) : attempt false a s = (s.get a.get, s) := by
  unfold attempt
  cases s.get a.get <;> rfl

theorem deleteObject_inGit (s : State) (obj : PackageRev) : (s.deleteObject obj).inGit = s.inGit := by
  unfold State.deleteObject
  split <;> rfl

theorem attempt_inGit (clear : Bool) (a : Attempt) (s : State) : (attempt clear a s).2.inGit = s.inGit := by
  unfold attempt
  split
  · rfl
  · split
    · split <;> rfl
    · rfl

/-- What every turn keeps holds before each one. -/
theorem stateBefore_keeps {P : State → Prop} {turn : Turn} (hturn : ∀ i s, P s → P (turn i s).2) (hs : P s)
    (n : Nat) : P (stateBefore turn s n) := by
  induction n with
  | zero => exact hs
  | succ n ih => exact hturn n _ ih

section Loop

variable (h : RetriesOnConflict steps retry)
include h

/-- The loop without clearing leaves the state alone, and ends with what its last turn reads. -/
theorem retry_read (attempts : Nat → Attempt) (s : State) :
    ∃ n < steps, retry (fun i => attempt false (attempts i)) s = (s.get (attempts n).get, s) ∧
      (∀ i < n, (attempts i).get = some .conflict) ∧
      ((attempts n).get = some .conflict → n + 1 = steps) := by
  obtain ⟨n, hn, hret, hbefore, hlast⟩ := h (fun i => attempt false (attempts i)) s
  have hstate : ∀ n, stateBefore (fun i => attempt false (attempts i)) s n = s :=
    stateBefore_keeps (P := (· = s)) (fun i s' hs => by rw [attempt_read]; exact hs) rfl
  simp only [hstate, attempt_read, get_conflict] at hret hbefore hlast
  exact ⟨n, hn, hret, hbefore, hlast⟩

theorem storeDelete_inGit (clear : Bool) (answers : Answers) (s : State) :
    (storeDelete retry clear answers s).2.inGit = s.inGit := by
  have hloop : (retry (fun i => attempt clear (answers.attempts i)) s).2.inGit = s.inGit := by
    obtain ⟨n, -, hret, -⟩ := h (fun i => attempt clear (answers.attempts i)) s
    rw [hret, attempt_inGit]
    exact stateBefore_keeps (P := (·.inGit = s.inGit)) (fun i _ hs => (attempt_inGit clear _ _).trans hs) rfl n
  unfold storeDelete
  split
  · rename_i heq
    rw [heq] at hloop
    exact hloop
  · rename_i heq
    rw [heq] at hloop
    split
    · exact hloop
    · exact (deleteObject_inGit _ _).trans hloop

theorem deleteForReal_inGit (second : Answers) (s : State) :
    (deleteForReal retry none second s).2.inGit = false :=
  storeDelete_inGit h true second _

theorem no_finalizers_of_error (hrough : ¬ first.smooth steps) :
    (storeDelete retry false first s).1.1 = [] := by
  obtain ⟨n, hn, hret, hbefore, -⟩ := retry_read h first.attempts s
  unfold storeDelete
  rw [hret]
  cases hget : s.get (first.attempts n).get with
  | error err => rfl
  | ok obj =>
    cases hdel : first.delete with
    | some err => rfl
    | none =>
      refine absurd ⟨⟨n, hn, ?_, hbefore⟩, hdel⟩ hrough
      cases herr : (first.attempts n).get with
      | none => rfl
      | some err =>
        rw [herr] at hget
        cases hget

theorem finalizers_of_smooth (hsmooth : first.smooth steps) {obj : PackageRev}
    (hobj : s.packageRev = some obj) :
    (storeDelete retry false first s).1.1 = toPackageRevisionMeta obj := by
  obtain ⟨⟨m, hm, hread, hconflict⟩, hdel⟩ := hsmooth
  obtain ⟨n, hn, hret, hbefore, hlast⟩ := retry_read h first.attempts s
  -- the loop ends with the turn that reads the object
  obtain rfl : n = m := by
    obtain hlt | heq | hgt := Nat.lt_trichotomy n m
    · have := hlast (hconflict n hlt)
      omega
    · exact heq
    · cases hread.symm.trans (hbefore m hgt)
  have hget : s.get none = .ok obj := by simp [State.get, hobj]
  unfold storeDelete
  rw [hret, hread, hget, hdel]

end Loop

/-- **When a revision goes from git only if it has been released.** Either it has been, or the first
    `Delete` of the store meets no error. -/
theorem deletes_released_iff (h : RetriesOnConflict steps retry) (first : Answers) (s : State) :
    DeletesReleased retry first s ↔ s.released ∨ first.smooth steps := by
  constructor
  · intro hdel
    refine or_iff_not_imp_right.mpr fun hrough => hdel none first ?_
    have hnone := no_finalizers_of_error (s := { s with inGit := true }) h hrough
    unfold deletePackageRevision
    dsimp only
    rw [hnone, if_neg (not_not_intro rfl)]
    exact deleteForReal_inGit h first _
  · rintro (hrel | hsmooth) git second hgone
    · exact hrel
    · intro obj hobj
      have hfins := finalizers_of_smooth (s := { s with inGit := true }) h hsmooth hobj
      by_contra hleft
      unfold deletePackageRevision at hgone
      dsimp only at hgone
      rw [hfins, if_pos hleft] at hgone
      have hkept := storeDelete_inGit h false first { s with inGit := true }
      exact Bool.false_ne_true (hgone.symm.trans hkept)

/-- The result of the first turn without a conflict, or of the last one. -/
def retryTurns (steps : Nat) (turn : Turn) (s : State) : Except ApiError PackageRev × State :=
  let result := fun i => turn i (stateBefore turn s i)
  result (((List.range (steps - 1)).find? fun i => (result i).1 ≠ .error .conflict).getD (steps - 1))

theorem retriesOnConflict_turns (h : 0 < steps) : RetriesOnConflict steps (retryTurns steps) := by
  intro turn s
  cases hfind : (List.range (steps - 1)).find?
      fun i => decide ((turn i (stateBefore turn s i)).1 ≠ .error .conflict) with
  | none =>
    refine ⟨steps - 1, by omega, by simp only [retryTurns, hfind, Option.getD_none], fun i hi => ?_, fun _ => by omega⟩
    simpa using List.find?_eq_none.mp hfind i (List.mem_range.mpr hi)
  | some n =>
    obtain ⟨hn, hmem, hbefore⟩ := List.find?_range_eq_some.mp hfind
    refine ⟨n, ?_, by simp only [retryTurns, hfind, Option.getD_some], fun i hi => ?_, fun hconflict => ?_⟩
    · have := List.mem_range.mp hmem
      omega
    · simpa using hbefore i hi
    · exact absurd hconflict (of_decide_eq_true hn)

/-- The turns that `retry.DefaultRetry` allows. -/
def defaultRetry : Nat := 5

/-- A revision with a finalizer of somebody else. -/
def held : State where
  packageRev := some { finalizers := [pkgRevisionFinalizer, "example.com/hold"] }
  inGit := true
  inCache := true

/-- The object can be read and deleted at once. -/
theorem deletes_released_iff_smooth :
    DeletesReleased (retryTurns defaultRetry) { attempts := fun _ => {} } held :=
  (deletes_released_iff (retriesOnConflict_turns (by decide)) _ _).mpr
    (.inr ⟨⟨0, by decide, rfl, fun i hi => absurd hi (Nat.not_lt_zero i)⟩, rfl⟩)

/-! An error in the first `Delete` -/

/-- The object cannot be read: the request times out. -/
def timesOut : Answers where
  attempts _ := { get := some (.other "timeout") }

/-- **A revision goes from git although it has finalizers left.** -/
theorem deleted_despite_finalizers : ∃ retry, RetriesOnConflict defaultRetry retry ∧
    ¬ DeletesReleased retry timesOut held := by
  refine ⟨retryTurns defaultRetry, retriesOnConflict_turns (by decide), fun h => ?_⟩
  have hgone : (deletePackageRevision (retryTurns defaultRetry) timesOut none timesOut
      { held with inGit := true }).2.inGit = false := by
    decide
  have hrel := h none timesOut hgone _ rfl
  exact absurd hrel (by decide)

end Porch.CrCache.Finalizers
