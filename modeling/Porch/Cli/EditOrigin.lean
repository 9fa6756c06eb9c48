import Porch.Go.Strings
import Porch.Lts.Run

/- The upstream of a package revision, as `rpkg upgrade` looks for it.

     CreatePackageRevision      Event.create
     editPackageMutation.apply  the sources that `step` admits
     ToMainPackageRevision      toMain

   The walk goes from an edit to its source by name and ends at a revision that is no edit.
   The fuel bounds the calls, and `none` is a walk that is not over yet. A new revision has a
   name that is not in use, and the source of an edit is a published revision of the same
   package, not its main revision; the other checks only refuse more. Publishing writes the main
   revision of the package with the tasks of what is published, as the database cache does. A
   name may be in use again after a deletion: then the new revision may be an edit of one that
   is an edit of the old (`edit_walk_endless`). -/
namespace Porch.Cli

open Go

inductive Task where
  | clone (upstreamRef : Option Str)
  | edit (source : Option Str)
  | upgrade (newUpstream : Option Str)
  | other
deriving DecidableEq

structure PackageRevision where
  name : Str
  package : Str := []
  tasks : List Task
  published : Bool := false
  placeholder : Bool := false
deriving DecidableEq

def PackageRevision.editSource (pr : PackageRevision) : Option Str :=
  match pr.tasks.head? with
  | some (.edit source) => source
  | _ => none

inductive WalkError where
  | noTasks (name : Str)
  | cloneWithoutUpstream (name : Str)
  | upgradeWithoutUpstream (name : Str)
  | editWithoutSource (name : Str)
  | call (text : Str)

section Walk

variable (prs : List PackageRevision) (fails : Str → Option Str) (byLock : PackageRevision → Except WalkError Str)

/-- Both the list and a `Get` find the revision of the name, and a `Get` may fail. -/
def findPackageRevision (prName : Str) : Except WalkError (Option PackageRevision) :=
  match fails prName with
  | some text => .error (.call text)
  | none => .ok (prs.find? fun pr => pr.name = prName)

mutual

/-- `byLock` is what the lock of the revision leads to. -/
def findUpstreamName : Nat → PackageRevision → Option (Except WalkError Str)
  | 0, _ => none
  | fuel + 1, pr =>
    match pr.tasks.head? with
    | none => some (.error (.noTasks pr.name))
    | some (.clone none) => some (.error (.cloneWithoutUpstream pr.name))
    | some (.clone (some name)) => some (.ok name)
    | some (.edit _) => (findEditOrigin fuel (some pr)).map fun
      | .ok [] => byLock pr
      | result => result
    | some (.upgrade none) => some (.error (.upgradeWithoutUpstream pr.name))
    | some (.upgrade (some name)) => some (.ok name)
    | some .other => some (.ok [])

def findEditOrigin : Nat → Option PackageRevision → Option (Except WalkError Str)
  | 0, _ => none
  | _ + 1, none => some (.ok [])
  | fuel + 1, some pr =>
    match pr.tasks.head? with
    | some (.edit none) => some (.error (.editWithoutSource pr.name))
    | some (.edit (some source)) =>
      match findPackageRevision prs fails source with
      | .error err => some (.error err)
      | .ok found => findEditOrigin fuel found
    | _ => findUpstreamName fuel pr

end

def Ends (pr : PackageRevision) : Prop := ∃ fuel, (findUpstreamName prs fails byLock fuel pr).isSome = true

end Walk

/-! The API -/

inductive Event where
  | create (pr : PackageRevision)
  | publish (name : Str)
  | delete (name : Str)

def publish (name : Str) (pr : PackageRevision) : PackageRevision :=
  if pr.name = name then { pr with published := true } else pr

section Step

variable (mainName : Str → Str)

def toMain (pr : PackageRevision) : PackageRevision :=
  { name := mainName pr.package, package := pr.package, tasks := pr.tasks, published := true, placeholder := true }

def step (prs : List PackageRevision) : Event → Option (List PackageRevision)
  | .create pr =>
    if (∀ p ∈ prs, p.name ≠ pr.name) ∧ ∀ source ∈ pr.editSource, ∃ p ∈ prs, p.name = source ∧
        p.package = pr.package ∧ p.placeholder = false ∧ p.published = true then
      some (pr :: prs)
    else none
  | .publish name =>
    match prs.find? fun pr => pr.name = name ∧ pr.published = false with
    | none => some prs
    | some pr =>
      some (toMain mainName pr :: (prs.map (publish name)).filter fun p => p.name ≠ mainName pr.package)
  | .delete name => some (prs.filter fun pr => pr.name ≠ name)

/-- The name of a new revision, or of a main revision, is not that of the source of a stored one. -/
def NewName (prs : List PackageRevision) : Event → Prop
  | .create pr => ∀ p ∈ prs, p.editSource ≠ some pr.name
  | .publish name => ∀ pr ∈ prs, pr.name = name → ∀ p ∈ prs, p.editSource ≠ some (mainName pr.package)
  | .delete _ => True

instance (prs : List PackageRevision) : (e : Event) → Decidable (NewName mainName prs e)
  | .create _ | .publish _ => inferInstanceAs (Decidable (∀ p ∈ prs, _))
  | .delete _ => isTrue trivial

end Step

/-- Newer revisions come first, and the source of an edit is older than it is. -/
def SourcesOlder (prs : List PackageRevision) : Prop :=
  prs.Pairwise (fun newer older => older.editSource ≠ some newer.name) ∧ ∀ pr ∈ prs, pr.editSource ≠ some pr.name

variable {prs prs' front rest : List PackageRevision} {pr : PackageRevision} {e : Event} {fuel : Nat}
  {mainName : Str → Str} {fails : Str → Option Str} {byLock : PackageRevision → Except WalkError Str}

theorem publish_name (name : Str) : (publish name pr).name = pr.name ∧ (publish name pr).editSource = pr.editSource := by
  unfold publish
  split <;> exact ⟨rfl, rfl⟩

theorem SourcesOlder.step (h : SourcesOlder prs) (hnew : NewName mainName prs e)
    (hstep : step mainName prs e = some prs') : SourcesOlder prs' := by
  cases e with
  | create pr =>
    obtain ⟨⟨hunique, hsource⟩, hprs⟩ := Option.ite_none_right_eq_some.mp hstep
    obtain rfl := Option.some.inj hprs
    refine ⟨List.pairwise_cons.mpr ⟨hnew, h.1⟩, List.forall_mem_cons.mpr ⟨fun hself => ?_, h.2⟩⟩
    obtain ⟨p, hp, hname, -⟩ := hsource _ hself
    exact hunique p hp hname
  | publish name =>
    have hmap : SourcesOlder (prs.map (publish name)) := by
      simpa [SourcesOlder, List.pairwise_map, publish_name] using h
    simp only [Cli.step] at hstep
    split at hstep
    · exact Option.some.inj hstep ▸ h
    · next pr hfind =>
      obtain rfl := Option.some.inj hstep
      have hpr := List.mem_of_find?_eq_some hfind
      have hname : pr.name = name ∧ pr.published = false := by simpa using List.find?_some hfind
      -- nothing is an edit of the main revision, not even what it takes its tasks from
      have hmain := hnew pr hpr hname.1
      refine ⟨List.pairwise_cons.mpr ⟨fun p hp => ?_, hmap.1.sublist List.filter_sublist⟩,
        List.forall_mem_cons.mpr ⟨hmain pr hpr, fun p hp => hmap.2 p (List.mem_of_mem_filter hp)⟩⟩
      obtain ⟨q, hq, rfl⟩ := List.mem_map.mp (List.mem_of_mem_filter hp)
      rw [(publish_name name).2]
      exact hmain q hq
  | delete name =>
    obtain rfl := Option.some.inj hstep
    exact ⟨h.1.sublist List.filter_sublist, fun pr hpr => h.2 pr (List.mem_of_mem_filter hpr)⟩

/-- The source of an edit is found among the older revisions. -/
theorem SourcesOlder.find_source (h : SourcesOlder (front ++ pr :: rest)) {source : Str}
    (hsource : pr.editSource = some source) :
    (front ++ pr :: rest).find? (fun p => p.name = source) = rest.find? fun p => p.name = source := by
  have hfront : front.find? (fun p => decide (p.name = source)) = none := by
    simp only [List.find?_eq_none, decide_eq_true_eq]
    rintro p hp rfl
    exact (List.pairwise_append.mp h.1).2.2 p hp pr List.mem_cons_self hsource
  have hself : pr.name ≠ source := by
    rintro rfl
    exact h.2 pr (by simp) hsource
  simp [List.find?_append, hfront, hself]

theorem findUpstreamName_isSome
    (h : ∀ source, pr.tasks.head? = some (.edit source) →
      (findEditOrigin prs fails byLock fuel (some pr)).isSome = true) :
    (findUpstreamName prs fails byLock (fuel + 1) pr).isSome = true := by
  unfold findUpstreamName
  split <;> try rfl
  next source hhead => simpa using h source hhead

theorem SourcesOlder.findEditOrigin (h : SourcesOlder (front ++ rest)) (hpr : pr ∈ rest)
    (hfuel : rest.length < fuel) : (findEditOrigin (front ++ rest) fails byLock (fuel + 1) (some pr)).isSome = true := by
  induction rest generalizing front fuel pr with
  | nil => cases hpr
  | cons r rest ih =>
    obtain ⟨fuel, rfl⟩ : ∃ n, fuel = n + 1 := ⟨fuel - 1, by omega⟩
    have hrest : rest.length < fuel := by simpa using hfuel
    obtain rfl | hpr := List.mem_cons.mp hpr
    · unfold Cli.findEditOrigin
      split
      · rfl
      · next source hhead =>
        unfold findPackageRevision
        rw [h.find_source (by simp [PackageRevision.editSource, hhead])]
        cases fails source with
        | some text => rfl
        | none =>
          cases hfound : rest.find? fun p => decide (p.name = source) with
          | none => 
            unfold Cli.findEditOrigin
            rfl
          | some found =>
            have hmem := List.mem_of_find?_eq_some hfound
            rw [List.append_cons] at h ⊢
            exact ih h hmem hrest
      · next hnot => exact findUpstreamName_isSome fun source hhead => by cases source <;> simp_all
    · rw [List.append_cons] at h ⊢
      exact ih h hpr (by omega)

/-- **The walk ends** from every revision if no name is used again while it is the name of the
    source of an edit. -/
theorem edit_walk_ends {events : List Event} (hnew : Lts.Along (step mainName) (NewName mainName) [] events)
    (hrun : Lts.run (step mainName) [] events = some prs) (hpr : pr ∈ prs) : Ends prs fails byLock pr := by
  have h : SourcesOlder prs :=
    Lts.run_invariant (fun _ _ _ h hnew hstep => h.step hnew hstep) ⟨.nil, nofun⟩ hnew hrun
  refine ⟨prs.length + 3, findUpstreamName_isSome fun _ _ => ?_⟩
  exact (show SourcesOlder ([] ++ prs) from h).findEditOrigin hpr (Nat.lt_succ_self _)

def mainOf (package : Str) : Str := package ++ ".main"

def first : PackageRevision := { name := "p.a", package := "p", tasks := [.other] }
def second : PackageRevision := { name := "p.b", package := "p", tasks := [.edit (some "p.a".toList)] }
def firstAgain : PackageRevision := { name := "p.a", package := "p", tasks := [.edit (some "p.b".toList)] }

theorem edit_walk_ends_second : Ends [toMain mainOf second, publish "p.b" second, publish "p.a" first]
    (fun _ => none) (fun _ => .ok []) (toMain mainOf second) :=
  edit_walk_ends (show Lts.Along (step mainOf) (NewName mainOf) []
    [.create first, .publish "p.a", .create second, .publish "p.b"] by decide +kernel)
    (by decide +kernel) List.mem_cons_self

/-- The first revision is deleted, and its name used again for an edit of the second. -/
theorem edit_walk_endless : ∃ prs, Lts.run (step mainOf) [] [.create first, .publish "p.a", .create second,
      .publish "p.b", .delete "p.a", .create firstAgain] = some prs ∧
    ∃ pr ∈ prs, ¬Ends prs (fun _ => none) (fun _ => .ok []) pr := by
  let prs := [firstAgain, toMain mainOf second, publish "p.b" second]
  refine ⟨prs, by decide +kernel, firstAgain, List.mem_cons_self, ?_⟩
  have hcycle (fuel : Nat) : ∀ pr ∈ prs,
      findEditOrigin prs (fun _ => none) (fun _ => .ok []) fuel (some pr) = none := by
    induction fuel with
    | zero => exact fun _ _ => rfl
    | succ fuel ih =>
      have hfirst := ih firstAgain (by simp [prs])
      refine List.forall_mem_cons.mpr ⟨?_, List.forall_mem_cons.mpr ⟨hfirst, List.forall_mem_singleton.mpr hfirst⟩⟩
      exact ih (publish "p.b" second) (by simp [prs])
  rintro ⟨_ | fuel, h⟩
  · cases h
  · have hnone : findUpstreamName _ _ _ (fuel + 1) firstAgain = Option.map _ none :=
      congrArg (Option.map _) (hcycle fuel firstAgain List.mem_cons_self)
    rw [hnone] at h
    cases h

end Porch.Cli
