import Mathlib.Data.Fintype.Defs
import Porch.CrCache.OnGit

/- The numbers that published revisions get.

   A Close takes the number after the greatest one of the revisions it lists. The filter
   of the listing has an empty path for a package at the root, which matches every path,
   so such a package is numbered after all packages of its name (`next_revision_iff`,
   `root_package_skips_revisions`).

   Between the listing and the record of the new revision nothing keeps another Close of
   the package from listing too: both get one number, and the second push moves the tag
   of the first (`one_number_twice`). In every run in which a Close of the package lists
   only while no other is in between, and a refresh stores only what the repository still
   lists, the numbers are different (`numbers_differ`). -/
namespace Porch.CrCache

open Go Lts

variable {ext : External} {ι : Type}

def External.listed (ext : External) (e : ext.State) : Option (List PackageRevisionKey) :=
  (ext.listPackageRevisions e).map fun ps => ps.map ext.key

/-! One number -/

/-- The greatest revision among the published ones of exactly this path and package, 0 if
    there is none. -/
def greatestRevision (m : RevMap ext) (k : PackageKey) : Int :=
  ((m.filter fun p => ext.published p && (ext.key p).pkgKey.path = k.path &&
    (ext.key p).pkgKey.package = k.package).map fun p => (ext.key p).revision).foldr max 0

/-- No published revision of another package that the filter takes for this one is above
    those of the package: of a package of its name in any directory if it is at the
    root. -/
def Sheltered (m : RevMap ext) (k : PackageKey) : Prop :=
  ∀ p ∈ m, ext.published p = true →
    (k.path = [] ∨ k.path = (ext.key p).pkgKey.path) →
    (k.package = [] ∨ k.package = (ext.key p).pkgKey.package) →
    ¬ ((ext.key p).pkgKey.path = k.path ∧ (ext.key p).pkgKey.package = k.package) →
    (ext.key p).revision ≤ greatestRevision m k

section OneNumber

variable {m : RevMap ext} {k : PackageRevisionKey} {p : ext.Revision}

theorem mem_revisionsFor : p ∈ revisionsFor m k ↔ p ∈ m ∧
      (k.pkgKey.path = [] ∨ k.pkgKey.path = (ext.key p).pkgKey.path) ∧
      (k.pkgKey.package = [] ∨ k.pkgKey.package = (ext.key p).pkgKey.package) := by
  simp [revisionsFor, PackageRevisionKey.matches, PackageKey.matches, RepositoryKey.matches,
    fieldMatches]

variable {ns : List Int} {b : Int}

theorem le_foldr_max {n : Int} (h : n ∈ ns) : n ≤ ns.foldr max 0 := by
  induction ns with
  | nil => cases h
  | cons a ns ih =>
    rw [List.foldr_cons]
    obtain rfl | h := List.mem_cons.mp h
    · omega
    · have hle := ih h
      omega

theorem foldr_max_le (hb : 0 ≤ b) (h : ∀ n ∈ ns, n ≤ b) : ns.foldr max 0 ≤ b := by
  induction ns with
  | nil => exact hb
  | cons a ns ih =>
    rw [List.foldr_cons]
    have ha := h a List.mem_cons_self
    have hrest := ih fun n hn => h n (List.mem_cons_of_mem a hn)
    omega

theorem greatestRevision_nonneg (m : RevMap ext) (k : PackageKey) : 0 ≤ greatestRevision m k := by
  unfold greatestRevision
  generalize (m.filter _).map _ = ns
  induction ns with
  | nil => exact Int.le_refl 0
  | cons a ns ih =>
    rw [List.foldr_cons]
    omega

theorem foldl_higherRevision_le {ps : List ext.Revision} {h : Int} (hb : h ≤ b)
    (hps : ∀ p ∈ ps, ext.published p = true → (ext.key p).revision ≤ b) :
    ps.foldl higherRevision h ≤ b := by
  induction ps generalizing h with
  | nil => exact hb
  | cons p ps ih =>
    apply ih
    · unfold higherRevision
      split
      · rename_i hp
        rw [Bool.and_eq_true] at hp
        exact hps p List.mem_cons_self hp.1
      · exact hb
    · intro q hq
      exact hps q (List.mem_cons_of_mem p hq)

theorem revision_lt_nextRevision (hp : p ∈ revisionsFor m k) (hpub : ext.published p = true) :
    (ext.key p).revision < nextRevision m k := by
  have h := revision_le_foldl hp hpub 0
  unfold nextRevision
  omega

theorem greatestRevision_lt_nextRevision : greatestRevision m k.pkgKey < nextRevision m k := by
  have hpos := nextRevision_pos m k
  have hle : greatestRevision m k.pkgKey ≤ nextRevision m k - 1 := by
    apply foldr_max_le (by omega)
    intro n hn
    obtain ⟨p, hp, rfl⟩ := List.mem_map.mp hn
    simp only [List.mem_filter, Bool.and_eq_true, decide_eq_true_eq] at hp
    obtain ⟨hmem, ⟨hpub, hpath⟩, hpkg⟩ := hp
    have hlt := revision_lt_nextRevision
      (mem_revisionsFor.mpr ⟨hmem, .inr hpath.symm, .inr hpkg.symm⟩) hpub
    omega
  omega

theorem revision_le_greatestRevision (hp : p ∈ m) (hpub : ext.published p = true)
    (hpath : (ext.key p).pkgKey.path = k.pkgKey.path)
    (hpkg : (ext.key p).pkgKey.package = k.pkgKey.package) :
    (ext.key p).revision ≤ greatestRevision m k.pkgKey := by
  apply le_foldr_max
  apply List.mem_map.mpr
  exact ⟨p, by simp [hp, hpub, hpath, hpkg], rfl⟩

theorem nextRevision_eq_iff :
    nextRevision m k = 1 + greatestRevision m k.pkgKey ↔ Sheltered m k.pkgKey := by
  constructor
  · intro h p hp hpub hpath hpkg _
    have hlt := revision_lt_nextRevision (mem_revisionsFor.mpr ⟨hp, hpath, hpkg⟩) hpub
    omega
  · intro h
    have hlt : greatestRevision m k.pkgKey < nextRevision m k := greatestRevision_lt_nextRevision
    have hle : (revisionsFor m k).foldl higherRevision 0 ≤ greatestRevision m k.pkgKey := by
      apply foldl_higherRevision_le (greatestRevision_nonneg m k.pkgKey)
      intro p hp hpub
      obtain ⟨hmem, hpath, hpkg⟩ := mem_revisionsFor.mp hp
      by_cases hexact : (ext.key p).pkgKey.path = k.pkgKey.path ∧
          (ext.key p).pkgKey.package = k.pkgKey.package
      · exact revision_le_greatestRevision hmem hpub hexact.1 hexact.2
      · exact h p hmem hpub hpath hpkg hexact
    unfold nextRevision at hlt ⊢
    omega

end OneNumber

/-- The package `app` in a directory has the tag `v3`. -/
def taggedElsewhere : onTrunk.State :=
  ({ refs := ((∅ : Git.Refs).insert (Git.refInLocal Git.trunkRepo.branch) emptyCommit).insert
       "refs/tags/dir/app/v3"
       (.mk [("dir", .dir [("app", .dir [("Kptfile", .blob .regular [])])])]
         [] []) } : Git.Remote)

def closedBy (w : World ext ι) (i : ι) : Option ext.Revision :=
  match w.phase i with
  | .closed p => some p
  | _ => none

variable {p : ext.Revision} {ph : Phase ext}

theorem phase_of_closedBy {w : World ext ι} {i : ι}
    (h : closedBy w i = some p) : w.phase i = .closed p := by
  unfold closedBy at h
  split at h
  · rename_i hph
    cases h
    exact hph
  · cases h

/-- The revision that a refresh is called for. -/
def Caller.revision : Caller ext → Option ext.Revision
  | update p => some p
  | _ => none

def Phase.revision : Phase ext → Option ext.Revision
  | readCached p | record p | findMain p | dropMain p _ | putMain p | readVersion p
  | storeVersion p _ | createMeta p | closed p => some p
  | refreshVersion c | refreshCompare c _ | refreshList c _ | refreshStore c _ _ => c.revision
  | _ => none

/-- A Close whose revision is in the cache. -/
def Phase.recorded : Phase ext → Bool
  | findMain _ | dropMain .. | putMain _ | readVersion _ | storeVersion .. | createMeta _
  | closed _ => true
  | _ => false

/-- The package and the number of a published revision. -/
def numberOf (p : ext.Revision) : Option (PackageKey × Int) :=
  if ext.published p then some ((ext.key p).pkgKey, (ext.key p).revision) else none

/-- The package and the number of a Close that publishes, once it has taken one. -/
def Phase.number : Phase ext → Option (PackageKey × Int)
  | push d n => if ext.publishes d then some ((ext.draftKey d).pkgKey, n) else none
  | ph => ph.revision.bind numberOf

theorem Phase.number_eq (h : ph.revision = some p) : ph.number = numberOf p := by
  cases ph <;> first
    | exact congrArg (Option.bind · numberOf) h
    | cases h

theorem Phase.revision_of_recorded (h : ph.recorded = true) : ∃ p, ph.revision = some p := by
  cases ph <;> first
    | exact ⟨_, rfl⟩
    | cases h

theorem numberOf_published (h : ext.published p = true) :
    numberOf p = some ((ext.key p).pkgKey, (ext.key p).revision) := if_pos h

/-- A published revision has a number, and a draft has none. -/
def Counted (p : ext.Revision) : Prop :=
  if ext.published p then 1 ≤ (ext.key p).revision else (ext.key p).revision = 0

/-- What holds of a phase of a Close. -/
def Phase.Sane : Phase ext → Prop
  | push d n => ext.publishes d = true → 1 ≤ n
  | refreshStore c _ ps => (∀ p ∈ c.revision, Counted p) ∧
      ∀ p ∈ ps, 1 ≤ (ext.key p).revision → ext.published p = true
  | dropMain p k => Counted p ∧ k.revision = -1
  | deletePush _ | deleteCached _ => False
  | ph => ∀ p ∈ ph.revision, Counted p

theorem Phase.Sane.counted (h : ph.Sane) : ∀ p ∈ ph.revision, Counted p := by
  intro p hp
  cases ph <;> first
    | exact h p hp
    | exact h.1 p hp
    | cases hp
      exact h.1
    | cases hp

theorem Caller.resume_spec (c : Caller ext) (m : Option Nat) :
    (c.resume m).revision = c.revision ∧ (c.resume m).number = c.revision.bind numberOf ∧
      (c.resume m).recorded = false ∧ ((∀ p ∈ c.revision, Counted p) → (c.resume m).Sane) := by
  cases c <;> exact ⟨rfl, rfl, rfl, id⟩

/-- A Close of the package that has taken a number and not recorded it. -/
def Phase.between (k : PackageKey) (ph : Phase ext) : Bool :=
  !ph.recorded && ph.number.any fun n => n.1 = k

namespace World

variable (w : World ext ι)

/-- The condition on the step of the call `i`. -/
def InTurnGo (i : ι) : Phase ext → Prop
  | .listMap d m => ext.publishes d = true → m = w.cache.cached ∧
      ∀ j, j ≠ i → (w.phase j).between (ext.draftKey d).pkgKey = false
  | .refreshStore _ _ ps => ext.listed w.remote = some (ps.map ext.key)
  | .push d n => ext.Sound d ∧ (ext.publishes d = false → (ext.draftKey d).revision = 0) ∧ n < 2 ^ 63
  | _ => True

/-- The condition on an event: only calls of Close, with their steps in turn. -/
def InTurn : Event ext ι → Prop
  | .start _ (.close _) => True
  | .start .. => False
  | .go i _ => w.InTurnGo i (w.phase i)
  | .fail _ => True
  | .foreign _ => False

section Decide

variable [Fintype ι] [DecidableEq ι]

instance (i : ι) (ph : Phase ext) : Decidable (w.InTurnGo i ph) := by
  induction ph using Phase.casesOn <;> dsimp only [InTurnGo] <;> infer_instance

instance (ev : Event ext ι) : Decidable (w.InTurn ev) := by
  induction ev using Event.casesOn with
  | start i c => induction c using Call.casesOn <;> dsimp only [InTurn] <;> infer_instance
  | _ => dsimp only [InTurn]; infer_instance

end Decide

/-- What a phase relies on: its revision is in the repository, and in the cache once it is
    recorded. -/
structure Kept (remote : ext.State) (current : RevMap ext) (ph : Phase ext) : Prop where
  has : ∀ p ∈ ph.revision, ext.published p = true → ext.Has remote (ext.key p)
  cached : ph.recorded = true → ∀ p ∈ ph.revision, ext.published p = true →
    ∃ q ∈ current, ext.key q = ext.key p ∧ ext.published q = true
  sane : ph.Sane

/-- What every state of a run in turn keeps. -/
structure Numbered : Prop where
  kept : ∀ i, Kept w.remote w.cache.current (w.phase i)
  distinct : ∀ i j n, (w.phase i).number = some n → (w.phase j).number = some n → i = j

variable {w} {w₁ : World ext ι} {ph : Phase ext} {i : ι} {remote : ext.State} {current : RevMap ext}

/-- A phase before the push relies on nothing but the number. -/
theorem Kept.of_unpushed (hrev : ph.revision = none) (hsane : ph.Sane) : Kept remote current ph where
  has := by simp [hrev]
  cached := by simp [hrev]
  sane := hsane

theorem Kept.next {ph' : Phase ext} (h : Kept remote current ph) (hrev : ph'.revision = ph.revision)
    (hrec : ph'.recorded = true → ph.recorded = true ∨ ∀ p ∈ ph.revision, p ∈ current)
    (hsane : (∀ p ∈ ph.revision, Counted p) → ph'.Sane) : Kept remote current ph' where
  has := hrev ▸ h.has
  cached hr := hrev ▸ fun p hp hpub => (hrec hr).elim (fun hr => h.cached hr p hp hpub)
    fun hmem => ⟨p, hmem p hp, rfl, hpub⟩
  sane := hsane h.sane.counted

variable {p : ext.Revision} {v : ext.Version} {ps : List ext.Revision}

theorem Kept.revision_pos (h : Kept remote current ph) (hp : p ∈ ph.revision)
    (hpub : ext.published p = true) : 1 ≤ (ext.key p).revision := by
  have hcounted := h.sane.counted p hp
  rwa [Counted, if_pos hpub] at hcounted

/-- A change of the map that keeps the numbered revisions. -/
def KeepsNumbers (f : RevMap ext → RevMap ext) : Prop :=
  ∀ m q, q ∈ m → ext.published q = true → 1 ≤ (ext.key q).revision →
    ∃ q' ∈ f m, ext.key q' = ext.key q ∧ ext.published q' = true

variable {f : RevMap ext → RevMap ext} {k : PackageRevisionKey} {d : ext.Draft} {c : Caller ext}

theorem Kept.mapped (h : Kept remote current ph) (hf : KeepsNumbers f) : Kept remote (f current) ph := by
  refine { h with cached := fun hr p hp hpub => ?_ }
  obtain ⟨q, hq, hkey, hqpub⟩ := h.cached hr p hp hpub
  obtain ⟨q', hq', hkey', hpub'⟩ := hf current q hq hqpub (hkey ▸ h.revision_pos hp hpub)
  exact ⟨q', hq', hkey'.trans hkey, hpub'⟩

theorem keepsNumbers_delete (hk : k.revision < 1) :
    KeepsNumbers (fun m : RevMap ext => m.delete k) := by
  intro m q hq hpub hpos
  refine ⟨q, List.mem_filter.mpr ⟨hq, ?_⟩, rfl, hpub⟩
  simp only [decide_eq_true_eq]
  intro heq
  rw [heq] at hpos
  omega

theorem keepsNumbers_put (hp : ext.published p = true ∨ (ext.key p).revision < 1) :
    KeepsNumbers (fun m : RevMap ext => m.put p) := by
  intro m q hq hpub hpos
  by_cases heq : ext.key q = ext.key p
  · refine ⟨p, List.mem_cons_self, heq.symm, ?_⟩
    obtain hp | hp := hp
    · exact hp
    · rw [heq] at hpos
      omega
  · exact ⟨q, List.mem_cons_of_mem p (List.mem_filter.mpr ⟨hq, by simpa using heq⟩), rfl, hpub⟩

theorem keepsNumbers_record (hp : ext.published p = true ∨ (ext.key p).revision < 1) :
    KeepsNumbers (recordRevision p) := by
  intro m q hq hpub hpos
  have hput := keepsNumbers_put hp
  unfold recordRevision
  split
  · obtain ⟨q₁, hq₁, hkey₁, hpub₁⟩ :=
      keepsNumbers_delete (k := draftOf p) (by simp [draftOf]) m q hq hpub hpos
    obtain ⟨q₂, hq₂, hkey₂, hpub₂⟩ := hput _ q₁ hq₁ hpub₁ (hkey₁ ▸ hpos)
    exact ⟨q₂, hq₂, hkey₂.trans hkey₁, hpub₂⟩
  · exact hput m q hq hpub hpos

theorem Kept.stored (h : Kept remote current ph) (hlisted : ext.listed remote = some (ps.map ext.key))
    (hps : ∀ p ∈ ps, 1 ≤ (ext.key p).revision → ext.published p = true) :
    Kept remote (RevMap.ofList ps) ph := by
  refine { h with cached := fun _ p hp hpub => ?_ }
  obtain ⟨ps', hlist, hkeys⟩ := Option.map_eq_some_iff.mp hlisted
  obtain ⟨p', hp', hkey'⟩ := ext.has_listed (h.has p hp hpub) hlist
  have hmem : ext.key p ∈ (RevMap.ofList ps).keys := by
    rw [RevMap.mem_keys_ofList, ← hkeys, ← hkey']
    exact List.mem_map_of_mem hp'
  obtain ⟨q, hq, hkey⟩ := (RevMap.mem_keys _).mp hmem
  exact ⟨q, hq, hkey, hps q (RevMap.mem_of_mem_ofList hq) (hkey ▸ h.revision_pos hp hpub)⟩

variable [DecidableEq ι]

theorem Numbered.goto (others : ∀ j, j ≠ i → Kept w.remote w.cache.current (w.phase j))
    (self : Kept w.remote w.cache.current ph)
    (distinct : ∀ j k n, (w.phase j).number = some n → (w.phase k).number = some n → j = k)
    (new : ∀ j n, j ≠ i → ph.number = some n → (w.phase j).number ≠ some n) : (w.goto i ph).Numbered := by
  refine ⟨(Function.forall_update_iff w.phase fun _ => Kept w.remote w.cache.current).mpr
    ⟨self, others⟩, ?_⟩
  intro j k n hj hk
  simp only [World.goto, Function.update_apply] at hj hk
  grind

section

variable (h : w.Numbered)
include h

omit [DecidableEq ι] in
theorem Numbered.at_phase (hph : w.phase i = ph) : Kept w.remote w.cache.current ph := hph ▸ h.kept i

theorem Numbered.turn (self : Kept w.remote w.cache.current ph)
    (hnum : ∀ n, ph.number = some n → (w.phase i).number = some n) : (w.goto i ph).Numbered :=
  Numbered.goto (fun j _ => h.kept j) self h.distinct
    fun j n hj hn hm => hj (h.distinct j i n hm (hnum n hn))

theorem Numbered.open (hrev : ph.revision = none) (hnum : ph.number = none) (hsane : ph.Sane) :
    (w.goto i ph).Numbered :=
  h.turn (Kept.of_unpushed hrev hsane) fun n hn => by simp [hnum] at hn

theorem Numbered.next {ph₀ : Phase ext} (hph : w.phase i = ph₀)
    (hrev : ph.revision = ph₀.revision) (hrec : ph.recorded = true → ph₀.recorded = true)
    (hnum : ph.number = ph₀.number) (hsane : (∀ p ∈ ph₀.revision, Counted p) → ph.Sane) :
    (w.goto i ph).Numbered := by
  refine h.turn ((h.at_phase hph).next hrev (fun hr => .inl (hrec hr)) hsane) fun n hn => ?_
  rw [hph, ← hnum]
  exact hn

omit [DecidableEq ι] h in
theorem mapped_spec (hmap : w.mapped f = some w₁) :
    w₁.cache.current = f w.cache.current ∧ w₁.remote = w.remote ∧ w₁.phase = w.phase := by
  obtain ⟨m, hm, rfl⟩ := Option.map_eq_some_iff.mp hmap
  simp [CachedRepository.current, CachedRepository.read, hm]

theorem Numbered.change (hmap : w.mapped f = some w₁) (hf : KeepsNumbers f)
    (self : Kept w.remote (f w.cache.current) ph) (hnum : ph.number = (w.phase i).number) :
    (w₁.goto i ph).Numbered := by
  obtain ⟨hcur, hremote, hphase⟩ := mapped_spec hmap
  have hw₁ : w₁.Numbered := by
    refine ⟨?_, ?_⟩ <;> rw [hphase]
    · rw [hcur, hremote]
      exact fun j => (h.kept j).mapped hf
    · exact h.distinct
  refine hw₁.turn ?_ fun n hn => ?_
  · rwa [hcur, hremote]
  · rw [hphase, ← hnum]
    exact hn

/-- The number of a Close that lists while no other is in between is a new one. -/
theorem Numbered.take (hturn : ext.publishes d = true →
      ∀ j, j ≠ i → (w.phase j).between (ext.draftKey d).pkgKey = false) :
    (w.goto i (.push d (nextRevision w.cache.current (ext.draftKey d)))).Numbered := by
  refine Numbered.goto (fun j _ => h.kept j) (Kept.of_unpushed rfl fun _ => nextRevision_pos _ _)
    h.distinct fun j n hj hn hm => ?_
  obtain ⟨hpub, hn⟩ := Option.ite_none_right_eq_some.mp hn
  cases hn
  -- the other one is in the cache, so that it is listed
  have hrecorded : (w.phase j).recorded = true := by
    have hbetween := hturn hpub j hj
    simpa [Phase.between, hm] using hbetween
  obtain ⟨p, hp⟩ := Phase.revision_of_recorded hrecorded
  have hnum := Phase.number_eq hp
  rw [hm] at hnum
  obtain ⟨hppub, hnum⟩ := Option.ite_none_right_eq_some.mp hnum.symm
  obtain ⟨hpkg, hrev⟩ := Prod.mk.inj (Option.some.inj hnum)
  obtain ⟨q, hq, hkey, hqpub⟩ := (h.kept j).cached hrecorded p hp hppub
  have hlisted : q ∈ revisionsFor w.cache.current (ext.draftKey d) := by
    apply mem_revisionsFor.mpr
    rw [hkey, hpkg]
    exact ⟨hq, .inr rfl, .inr rfl⟩
  have hlt := revision_lt_nextRevision hlisted hqpub
  rw [hkey] at hlt
  omega

/-- The push of a number that no other Close has. -/
theorem Numbered.pushed {n : Int} {e : ext.State} (hph : w.phase i = .push d n)
    (hgo : ext.closePackageRevisionDraft d n w.remote = some (e, p))
    (hturn : w.InTurnGo i (.push d n)) : ((w.pushed e).goto i (.readCached p)).Numbered := by
  obtain ⟨hsound, hdraft, hbound⟩ := hturn
  obtain ⟨hpkg, hpub, hrev⟩ := ext.close_key hgo
  have hpush : (w.phase i).number =
      if ext.publishes d then some ((ext.draftKey d).pkgKey, n) else none := by rw [hph]; rfl
  have hnum : (Phase.readCached p).number = (w.phase i).number := by
    rw [hpush]
    simp only [Phase.number, Phase.revision, Option.bind_some, numberOf, hpub, hrev, hpkg]
    split <;> rfl
  have hpos : ext.publishes d = true → 1 ≤ n := (h.at_phase hph).sane
  refine Numbered.goto (fun j hj => ?_) ⟨?_, nofun, ?_⟩ h.distinct fun j n hj hn hm => ?_
  · have hk := h.kept j
    refine { hk with has := fun q hq hqpub => ext.close_keeps hgo hsound (hk.has q hq hqpub) fun hp => ?_ }
    refine ⟨hpos hp, fun heq hn => hj (h.distinct j i _ ?_ (hpush.trans (if_pos hp)))⟩
    exact (Phase.number_eq hq).trans (by rw [numberOf_published hqpub, heq, hn])
  · rintro q ⟨⟩ hqpub
    rw [hpub] at hqpub
    exact ext.close_has hgo hsound hqpub (hpos hqpub) hbound
  · rintro q ⟨⟩
    unfold Counted
    rw [hpub, hrev]
    split
    next hp => exact hpos hp
    next hp => exact hdraft (by simpa using hp)
  · exact hj (h.distinct j i n hm (hnum ▸ hn))

theorem Numbered.refreshStore (hph : w.phase i = .refreshStore c v ps)
    (hlisted : ext.listed w.remote = some (ps.map ext.key)) :
    ((w.stored v ps).goto i (c.resume (some w.cache.made))).Numbered := by
  have hcur : (w.stored v ps).cache.current = RevMap.ofList ps := by
    simp [CachedRepository.current, CachedRepository.read, World.stored]
  have hw : (w.stored v ps).Numbered := by
    refine ⟨?_, h.distinct⟩
    rw [hcur]
    exact fun j => (h.kept j).stored hlisted (h.at_phase hph).sane.2
  obtain ⟨hrev, hnum, hrec, hsane⟩ := Caller.resume_spec c (some w.cache.made)
  exact hw.next hph hrev (by simp [hrec]) hnum hsane

theorem Numbered.record (hph : w.phase i = .record p)
    (hmap : w.mapped (recordRevision p) = some w₁) :
    (w₁.goto i (if ext.published p then .findMain p else .readVersion p)).Numbered := by
  have hkept := h.at_phase hph
  have hcounted := hkept.sane p rfl
  have hkeeps : KeepsNumbers (recordRevision p) := by
    refine keepsNumbers_record ?_
    unfold Counted at hcounted
    split at hcounted
    · exact .inl ‹_›
    · exact .inr (by omega)
  have hnext : ∀ ph : Phase ext, ph.revision = some p → ph.Sane →
      Kept w.remote (recordRevision p w.cache.current) ph := by
    -- the revision is now in the cache itself
    refine fun ph hrev hsane => (hkept.mapped hkeeps).next hrev (fun _ => .inr ?_) fun _ => hsane
    rintro _ ⟨⟩
    exact List.mem_cons_self
  split <;> exact h.change hmap hkeeps (hnext _ rfl hkept.sane) (by rw [hph]; rfl)

theorem Numbered.findMain {k : Option PackageRevisionKey}
    (hph : w.phase i = .findMain p) (hgo : w.go i k (.findMain p) = some w₁) : w₁.Numbered := by
  cases k with
  | none =>
    obtain ⟨_, hw⟩ := Option.ite_none_right_eq_some.mp hgo
    cases hw
    exact h.next hph rfl id rfl id
  | some k =>
    obtain ⟨⟨_, hmain⟩, hw⟩ := Option.ite_none_right_eq_some.mp hgo
    cases hw
    exact h.next hph rfl id rfl fun hcounted => ⟨hcounted p rfl, hmain.1⟩

theorem Numbered.dropMain
    (hph : w.phase i = .dropMain p k) (hmap : w.mapped (·.delete k) = some w₁) :
    (w₁.goto i (.putMain p)).Numbered := by
  have hkept := h.at_phase hph
  have hk : k.revision = -1 := hkept.sane.2
  have hkeeps : KeepsNumbers (fun m : RevMap ext => m.delete k) := keepsNumbers_delete (by omega)
  exact h.change hmap hkeeps ((hkept.mapped hkeeps).next rfl (fun _ => .inl rfl) id) (by rw [hph]; rfl)

theorem Numbered.putMain (hph : w.phase i = .putMain p)
    (hmap : w.mapped (·.put (ext.toMainPackageRevision p)) = some w₁) :
    (w₁.goto i (.readVersion p)).Numbered := by
  have hmain := ext.main_revision p
  have hkeeps := keepsNumbers_put (p := ext.toMainPackageRevision p) (.inr (by omega))
  refine h.change hmap hkeeps ?_ (by rw [hph]; rfl)
  exact ((h.at_phase hph).mapped hkeeps).next rfl (fun _ => .inl rfl) id

theorem Numbered.go {k : Option PackageRevisionKey} (hok : w.InTurn (.go i k))
    (hgo : w.go i k (w.phase i) = some w₁) : w₁.Numbered := by
  have hturn : w.InTurnGo i (w.phase i) := hok
  have hsane := (h.kept i).sane
  cases hph : w.phase i <;> rw [hph] at hturn hgo hsane
  case listMap d m =>
    cases hgo
    by_cases hpub : ext.publishes d = true
    · rw [(hturn hpub).1]
      exact h.take (fun _ => (hturn hpub).2)
    · exact h.open rfl (if_neg hpub) fun hp => absurd hp hpub
  case push d n =>
    obtain ⟨⟨e, p⟩, hclose, rfl⟩ := Option.map_eq_some_iff.mp hgo
    exact h.pushed hph hclose hturn
  case refreshStore c v ps =>
    cases hgo
    exact h.refreshStore hph hturn
  case record p =>
    obtain ⟨w', hmap, rfl⟩ := Option.map_eq_some_iff.mp hgo
    exact h.record hph hmap
  case findMain p => exact h.findMain hph hgo
  case dropMain p k =>
    obtain ⟨w', hmap, rfl⟩ := Option.map_eq_some_iff.mp hgo
    exact h.dropMain hph hmap
  case putMain p =>
    obtain ⟨w', hmap, rfl⟩ := Option.map_eq_some_iff.mp hgo
    exact h.putMain hph hmap
  case refreshList c v =>
    obtain ⟨ps, hps, rfl⟩ := Option.map_eq_some_iff.mp hgo
    exact h.next hph rfl id rfl fun hcounted => ⟨hcounted, fun p hp => ext.numbered_published hps hp⟩
  case checkVersion d =>
    cases hgo
    exact h.open rfl rfl nofun
  case compare d v =>
    cases hgo
    split <;> exact h.open rfl rfl nofun
  case readMap d =>
    cases hgo
    split <;> exact h.open rfl rfl nofun
  case refreshCompare c v =>
    cases hgo
    split
    · obtain ⟨hrev, hnum, hrec, hsane⟩ := Caller.resume_spec c w.cache.cached
      exact h.next hph hrev (by simp [hrec]) hnum hsane
    · exact h.next hph rfl id rfl id
  case readCached p =>
    cases hgo
    split <;> exact h.next hph rfl id rfl id
  case storeVersion p v =>
    cases hgo
    exact Numbered.next ⟨h.kept, h.distinct⟩ hph rfl id rfl id
  case refreshVersion | readVersion | createMeta =>
    cases hgo
    exact h.next hph rfl id rfl id
  case deletePush | deleteCached => cases hsane
  all_goals cases hgo

theorem Numbered.step {ev : Event ext ι} (hok : w.InTurn ev)
    (hstep : w.step ev = some w₁) : w₁.Numbered := by
  cases ev with
  | start i c =>
    cases c with
    | close d =>
      simp only [World.step] at hstep
      split at hstep
      · cases hstep
        exact h.open rfl rfl fun _ hp => by cases hp
      · cases hstep
    | refresh | delete => cases hok
  | go i k => exact h.go hok hstep
  | fail i =>
    obtain ⟨_, hw⟩ := Option.ite_none_right_eq_some.mp hstep
    cases hw
    exact h.open rfl rfl fun _ hp => by cases hp
  | foreign e => cases hok

end

omit [DecidableEq ι] in
theorem numbered_init (e : ext.State) : (World.init e : World ext ι).Numbered where
  kept := fun _ => Kept.of_unpushed rfl nofun
  distinct := nofun

end World

/-- **In every run of Closes that list and record in turn, the revisions published of one
    package have different numbers.** -/
theorem numbers_differ [DecidableEq ι] (e : ext.State) {es : List (Event ext ι)} {w : World ext ι}
    (hok : Along World.step World.InTurn (World.init e) es)
    (hrun : run World.step (World.init e) es = some w) {i j : ι} (hij : i ≠ j)
    {p q : ext.Revision} (hi : w.phase i = .closed p) (hj : w.phase j = .closed q)
    (hp : ext.published p = true) (hq : ext.published q = true)
    (hpkg : (ext.key p).pkgKey = (ext.key q).pkgKey) :
    (ext.key p).revision ≠ (ext.key q).revision := by
  have h : w.Numbered :=
    run_invariant (fun _ _ _ h hok hstep => h.step hok hstep) (World.numbered_init e) hok hrun
  have hnum : (w.phase i).number = some ((ext.key p).pkgKey, (ext.key p).revision) := by
    rw [hi]
    exact numberOf_published hp
  have hnum' : (w.phase j).number = some ((ext.key q).pkgKey, (ext.key q).revision) := by
    rw [hj]
    exact numberOf_published hq
  intro hrev
  rw [hpkg, hrev] at hnum
  exact hij (h.distinct i j _ hnum hnum')

/-- What two calls have closed, and the workspaces in the commit of the tag. -/
structure Outcome where
  first : Option RevisionRef
  second : Option RevisionRef
  tagged : Option (List Str)
deriving DecidableEq

def outcome (w : World onTrunk Bool) : Outcome where
  first := closedBy w true
  second := closedBy w false
  tagged := (Git.Remote.refs w.remote |>.lookup "refs/tags/app/v1".toList).map
    fun c => c.annotations.map (·.workspaceName)

def publishedAs (workspaceName : String) (revision : Int) : RevisionRef :=
  closedRevision (draftIn "app" workspaceName .published) revision

/-- A Close goes from its push to its end, and finds a revision on the branch or not. -/
def finish (i : Bool) (main : Option PackageRevisionKey) : List (Event onTrunk Bool) :=
  List.replicate 3 (.go i none) ++ .go i main :: List.replicate (if main.isSome then 5 else 4) (.go i none)

/-- The key of the revision on the branch. -/
def mainKey : PackageRevisionKey := { keyOf "app" "main" with revision := -1 }

/-- Both calls start, and the first one lists. -/
def publishBoth : List (Event onTrunk Bool) :=
  .start true (.close (draftIn "app" "v1" .published)) ::
    .start false (.close (draftIn "app" "v2" .published)) :: List.replicate 8 (.go true none)

/-- The second call lists once the first is closed. -/
def inTurnRun : List (Event onTrunk Bool) :=
  publishBoth ++ finish true none ++ List.replicate 4 (.go false none) ++ finish false mainKey

theorem numbers_differ_inTurnRun : ∃ w, run World.step (World.init trunk) inTurnRun = some w ∧
      outcome w = ⟨publishedAs "v1" 1, publishedAs "v2" 2, some ["v1".toList]⟩ ∧
      (onTrunk.key (publishedAs "v1" 1)).revision ≠ (onTrunk.key (publishedAs "v2" 2)).revision := by
  refine exists_reached (by decide +kernel) fun w hw ho => ?_
  have htrue : w.phase true = .closed (publishedAs "v1" 1) :=
    phase_of_closedBy (congrArg Outcome.first ho)
  have hfalse : w.phase false = .closed (publishedAs "v2" 2) :=
    phase_of_closedBy (congrArg Outcome.second ho)
  exact numbers_differ trunk (by decide +kernel) hw (by decide) htrue hfalse (by decide) (by decide) rfl

/-- **Two Closes that list before either has pushed both publish revision 1, and the second
    moves the tag of the first to its own commit.** -/
theorem one_number_twice :
    let bothList := publishBoth ++ List.replicate 4 (.go false none) ++ finish true none
    (run World.step (World.init trunk) bothList).map outcome =
      some ⟨publishedAs "v1" 1, none, some ["v1".toList]⟩ ∧
    (run World.step (World.init trunk) (bothList ++ finish false mainKey)).map outcome =
      some ⟨publishedAs "v1" 1, publishedAs "v2" 1, some ["v2".toList]⟩ := by
  decide +kernel

end Porch.CrCache
