import Porch.Go.Maps
import Porch.Go.Strings

/- The PackageVariants of a PackageVariantSet.

     ensurePackageVariants  ensureOne, ensureBy, ensurePackageVariants

   The PackageVariants that exist are matched with the rendered specs of the targets by one
   identifier, three names joined by a character that the names may contain. The maps hold
   one entry for each identifier, and the loops over them stop at the first call that fails.
   Objects have different names, so a call on an entry leaves the others as they are. One
   that is deleted counts as gone: its finalizer only keeps it until its own controller has
   let go of its package revisions. -/
namespace Porch.Variants

open Go

variable {α : Type}

structure PackageVariantSpec (α : Type) where
  repo : Str
  package : Str
  /-- The other fields of the spec. -/
  rest : α
deriving DecidableEq

/-- The downstream repository and package. -/
def PackageVariantSpec.pair (spec : PackageVariantSpec α) : Str × Str := (spec.repo, spec.package)

/-- A PackageVariant with the owner label of the set. -/
structure OwnedVariant (α : Type) where
  name : Str
  spec : PackageVariantSpec α
deriving DecidableEq

inductive VariantCall where
  | delete (name : Str)
  | update (name : Str)
  | create (name : Str)

def packageVariantIdentifier (pvsName : Str) (spec : PackageVariantSpec α) : Str :=
  pvsName ++ "-" ++ spec.repo ++ "-" ++ spec.package

/-- `sha1Hex` is the hexadecimal text of the hash. -/
def packageVariantName (sha1Hex : Str → Str) (pvId : Str) : Str :=
  if pvId.length ≤ 63 then pvId
  else pvId.take (63 - 8 - 1) ++ "-" ++ (sha1Hex pvId).take 8

section Ensure

variable (key : PackageVariantSpec α → Str) (sha1Hex : Str → Str) (fails : VariantCall → Bool)

/-- The call for a desired PackageVariant, and the object as it is then. -/
def ensureOne (existing : AList fun _ : Str => OwnedVariant α) (pvId : Str)
    (spec : PackageVariantSpec α) : VariantCall × OwnedVariant α :=
  match existing.lookup pvId with
  | some pv => (.update pv.name, { pv with spec := spec })
  | none => (.create (packageVariantName sha1Hex pvId), ⟨packageVariantName sha1Hex pvId, spec⟩)

/-- The owned PackageVariants afterwards, none if a call fails. -/
def ensureBy (pvList : List (OwnedVariant α)) (downstreams : List (PackageVariantSpec α)) :
    Option (List (OwnedVariant α)) :=
  let existing := mapBy (fun pv : OwnedVariant α => key pv.spec) pvList
  let desired := mapBy key downstreams
  let deleted := (existing.entries.filter fun e => e.1 ∉ desired).map fun e =>
    VariantCall.delete e.2.name
  let ensured := desired.entries.map fun e => ensureOne sha1Hex existing e.1 e.2
  if (deleted ++ ensured.map (·.1)).any fails then none
  else
    -- an object that is not the entry of its identifier is left alone
    let hidden := pvList.filter fun pv => (existing.lookup (key pv.spec)).map (·.name) ≠ some pv.name
    some (hidden ++ ensured.map (·.2))

def ensurePackageVariants (pvsName : Str) : List (OwnedVariant α) → List (PackageVariantSpec α) →
    Option (List (OwnedVariant α)) :=
  ensureBy (packageVariantIdentifier pvsName) sha1Hex fails

end Ensure

/-- What the set is to have: one PackageVariant for each pair of the targets, with the spec of
    a target, and no other. -/
def Settled (downstreams : List (PackageVariantSpec α)) (pvs : List (OwnedVariant α)) : Prop :=
  (∀ t ∈ downstreams, ∃! pv, pv ∈ pvs ∧ pv.spec.pair = t.pair) ∧ ∀ pv ∈ pvs, pv.spec ∈ downstreams

/-- No two targets with different pairs have one identifier. -/
def TargetsApart (key : PackageVariantSpec α → Str) (downstreams : List (PackageVariantSpec α)) :
    Prop :=
  ∀ s ∈ downstreams, ∀ t ∈ downstreams, key s = key t → s.pair = t.pair

/-- No two owned PackageVariants have one identifier. -/
def OwnedApart (key : PackageVariantSpec α → Str) (pvList : List (OwnedVariant α)) : Prop :=
  ∀ p ∈ pvList, ∀ q ∈ pvList, key p.spec = key q.spec → p.name = q.name

theorem ensureOne_spec {sha1Hex : Str → Str} (existing : AList fun _ : Str => OwnedVariant α)
    (pvId : Str) (spec : PackageVariantSpec α) :
    (ensureOne sha1Hex existing pvId spec).2.spec = spec := by
  unfold ensureOne
  split <;> rfl

section Settled

variable {key : PackageVariantSpec α → Str} {sha1Hex : Str → Str} {fails : VariantCall → Bool}
  {pvList pvs : List (OwnedVariant α)} {downstreams : List (PackageVariantSpec α)}
  (h : ensureBy key sha1Hex fails pvList downstreams = some pvs)

include h

theorem mem_ensured (pv : OwnedVariant α) :
    pv ∈ pvs ↔
      (pv ∈ pvList ∧ ((mapBy (fun pv : OwnedVariant α => key pv.spec) pvList).lookup
        (key pv.spec)).map (·.name) ≠ some pv.name) ∨
      ∃ pvId spec, (mapBy key downstreams).lookup pvId = some spec ∧
        (ensureOne sha1Hex (mapBy (fun pv => key pv.spec) pvList) pvId spec).2 = pv := by
  simp only [ensureBy] at h
  split at h
  · cases h
  · cases h
    simp only [List.mem_append, List.mem_filter, decide_eq_true_eq, List.map_map, List.mem_map,
      Function.comp_apply, Sigma.exists, ← AList.mem_lookup_iff, Option.mem_def]

/-- Without two owned PackageVariants of one identifier, each entry stands for its object. -/
theorem mem_ensured_apart (howned : OwnedApart key pvList) {pv : OwnedVariant α} (hpv : pv ∈ pvs) :
    pv.spec ∈ downstreams ∧ (mapBy key downstreams).lookup (key pv.spec) = some pv.spec ∧
      pv = (ensureOne sha1Hex (mapBy (fun pv => key pv.spec) pvList) (key pv.spec) pv.spec).2 := by
  obtain ⟨hmem, hhidden⟩ | ⟨pvId, spec, hspec, rfl⟩ := (mem_ensured h pv).mp hpv
  · obtain ⟨e, he, hlookup, hid⟩ := mapBy_of_mem (fun pv : OwnedVariant α => key pv.spec) hmem
    rw [hlookup, Option.map_some, howned e he pv hmem hid] at hhidden
    exact absurd rfl hhidden
  · obtain ⟨hmem, rfl⟩ := mapBy_lookup hspec
    rw [ensureOne_spec]
    exact ⟨hmem, hspec, rfl⟩

/-- An object that another one hides stays beside it. -/
theorem ownedApart_of_settled (htgts : TargetsApart key downstreams)
    (hsettled : Settled downstreams pvs) : OwnedApart key pvList := by
  have hentry : ∀ x ∈ pvList, ∀ e, (mapBy (fun pv : OwnedVariant α => key pv.spec) pvList).lookup
      (key x.spec) = some e → e.name = x.name := by
    intro x hx e he
    by_contra hne
    have hxin : x ∈ pvs := (mem_ensured h x).mpr (.inl ⟨hx, by rw [he]; simpa using hne⟩)
    obtain ⟨d, hmem, hd, hid⟩ := mapBy_of_mem key (hsettled.2 x hxin)
    have hein : { e with spec := d } ∈ pvs :=
      (mem_ensured h _).mpr (.inr ⟨_, d, hd, by rw [ensureOne, he]⟩)
    have hpair := htgts d hmem x.spec (hsettled.2 x hxin) hid
    have heq := (hsettled.1 d hmem).unique ⟨hxin, hpair.symm⟩ ⟨hein, rfl⟩
    exact hne (congrArg (·.name) heq).symm
  intro p hp q hq hid
  obtain ⟨e, -, he, -⟩ := mapBy_of_mem (fun pv : OwnedVariant α => key pv.spec) hp
  rw [← hentry p hp e he, hentry q hq e (hid ▸ he)]

theorem settled_iff_apart (hkey : ∀ s t : PackageVariantSpec α, s.pair = t.pair → key s = key t)
    (hone : TargetsApart key downstreams ∨ OwnedApart key pvList) :
    Settled downstreams pvs ↔ TargetsApart key downstreams ∧ OwnedApart key pvList := by
  constructor
  · intro hsettled
    have howned := hone.elim (ownedApart_of_settled h · hsettled) id
    refine ⟨fun s hs t ht hid => ?_, howned⟩
    -- two pairs with one identifier would share an object
    obtain ⟨p, ⟨hp, hps⟩, -⟩ := hsettled.1 s hs
    obtain ⟨q, ⟨hq, hqt⟩, -⟩ := hsettled.1 t ht
    have hlookup := (mem_ensured_apart h howned hp).2.1
    rw [hkey _ _ hps, hid, ← hkey _ _ hqt, (mem_ensured_apart h howned hq).2.1,
      Option.some.injEq] at hlookup
    rw [← hps, ← hqt, hlookup]
  · rintro ⟨htgts, howned⟩
    refine ⟨fun t ht => ?_, fun pv hpv => (mem_ensured_apart h howned hpv).1⟩
    obtain ⟨spec, hmem, hspec, hid⟩ := mapBy_of_mem key ht
    refine ⟨_, ⟨(mem_ensured h _).mpr (.inr ⟨_, spec, hspec, rfl⟩), ?_⟩, ?_⟩
    · rw [ensureOne_spec]
      exact htgts spec hmem t ht hid
    · rintro pv ⟨hpv, hpair⟩
      obtain ⟨-, hlookup, heq⟩ := mem_ensured_apart h howned hpv
      rw [hkey _ _ hpair, hspec, Option.some.injEq] at hlookup
      rw [heq, hkey _ _ hpair, hlookup]

end Settled

/-- **The set is settled exactly when the identifiers of different targets and of different
    owned PackageVariants differ**, if they differ among the ones or among the others. -/
theorem ensured_settled_iff (sha1Hex : Str → Str) (fails : VariantCall → Bool) {pvsName : Str}
    {pvList pvs : List (OwnedVariant α)} {downstreams : List (PackageVariantSpec α)}
    (h : ensurePackageVariants sha1Hex fails pvsName pvList downstreams = some pvs)
    (hone : TargetsApart (packageVariantIdentifier pvsName) downstreams ∨
      OwnedApart (packageVariantIdentifier pvsName) pvList) :
    Settled downstreams pvs ↔ TargetsApart (packageVariantIdentifier pvsName) downstreams ∧
      OwnedApart (packageVariantIdentifier pvsName) pvList := by
  refine settled_iff_apart h (fun s t hpair => ?_) hone
  obtain ⟨hrepo, hpkg⟩ := Prod.mk.inj hpair
  rw [packageVariantIdentifier, packageVariantIdentifier, hrepo, hpkg]

/-! A target whose repository ends where the package of another one begins -/

def target (repo package : Str) : PackageVariantSpec Unit := ⟨repo, package, ()⟩

/-- One PackageVariant with a name of its own that is right, one to delete and one to create. -/
theorem ensured_settled_iff_renamed :
    let owned := [⟨"old", target "a" "c"⟩, ⟨"set-a-d", target "a" "d"⟩]
    let targets := [target "a" "c", target "b" "e"]
    let pvs := [⟨"set-b-e", target "b" "e"⟩, ⟨"old", target "a" "c"⟩]
    ensurePackageVariants id (fun _ => false) "set" owned targets = some pvs ∧
      Settled targets pvs := by
  intro owned targets pvs
  have hrun : ensurePackageVariants id (fun _ => false) "set" owned targets = some pvs := by
    decide +kernel
  have htargets : TargetsApart (packageVariantIdentifier "set") targets := by
    unfold TargetsApart
    decide +kernel
  have howned : OwnedApart (packageVariantIdentifier "set") owned := by
    unfold OwnedApart
    decide +kernel
  exact ⟨hrun, (ensured_settled_iff id _ hrun (.inl htargets)).mpr ⟨htargets, howned⟩⟩

/-- Two targets, and one PackageVariant for both. -/
theorem one_variant_for_two_targets :
    ensurePackageVariants id (fun _ => false) "set" []
      [target "a-b" "c", target "a" "b-c"] =
      some [⟨"set-a-b-c", target "a" "b-c"⟩] := by decide +kernel

end Porch.Variants
