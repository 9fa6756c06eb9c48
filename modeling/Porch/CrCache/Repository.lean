import Porch.Key.Types
import Porch.Lts.Run

/- `cachedRepository` of `pkg/cache/crcache/repository.go` under any number of calls at
   once, with others pushing to the repository behind it.

     r.repo                           External
     refreshAllCachedPackages         the phases refresh...
     getCachedPackages                readMap, readCached
     ListPackageRevisions of a Close  listMap, nextRevision
     ClosePackageRevisionDraft        checkVersion to closed
     update                           readCached, record, readVersion, storeVersion
     createMainPackageRevision        findMain, dropMain, putMain
     DeletePackageRevision            deletePush, deleteCached

   A call is cut where it lets go of the mutex or asks the external repository, which
   answers and takes a push at one moment. Maps are objects: a call may still read one
   that a refresh has replaced. Left out are the metadata store, of which only the errors
   matter (`fail`), the notifications and the flag of the latest revision, which nothing
   here reads. `cachedPackages` is nil exactly when `cachedPackageRevisions` is. -/
namespace Porch.CrCache

open Go

/-- The repository behind the cache, `repository.Repository`. -/
structure External where
  State : Type
  Version : Type
  [decEqVersion : DecidableEq Version]
  Revision : Type
  Draft : Type
  key : Revision → PackageRevisionKey
  /-- `LifecycleIsPublished` of the lifecycle. -/
  published : Revision → Bool
  toMainPackageRevision : Revision → Revision
  draftKey : Draft → PackageRevisionKey
  /-- Whether closing the draft publishes it. -/
  publishes : Draft → Bool
  version : State → Version
  listPackageRevisions : State → Option (List Revision)
  closePackageRevisionDraft : Draft → Int → State → Option (State × Revision)
  deletePackageRevision : Revision → State → Option State
  /-- A draft that is published gets the version that it is closed with. -/
  close_key : ∀ {d n e e' p}, closePackageRevisionDraft d n e = some (e', p) →
    (key p).pkgKey = (draftKey d).pkgKey ∧ published p = publishes d ∧
      (key p).revision = if publishes d then n else (draftKey d).revision
  main_revision : ∀ p, (key (toMainPackageRevision p)).revision = -1
  /-- A draft as the repository opens it. -/
  Sound : Draft → Prop
  [decSound : DecidablePred Sound]
  /-- The repository has the published revision. -/
  Has : State → PackageRevisionKey → Prop
  has_listed : ∀ {e k ps}, Has e k → listPackageRevisions e = some ps → ∃ p ∈ ps, key p = k
  /-- The numbers are those of a 64-bit integer. -/
  close_has : ∀ {d n e e' p}, closePackageRevisionDraft d n e = some (e', p) → Sound d →
    publishes d = true → 1 ≤ n → n < 2 ^ 63 → Has e' (key p)
  close_keeps : ∀ {d n e e' p k}, closePackageRevisionDraft d n e = some (e', p) → Sound d →
    Has e k → (publishes d = true → 1 ≤ n ∧ ((draftKey d).pkgKey = k.pkgKey → n ≠ k.revision)) →
    Has e' k
  /-- Drafts are listed with revision 0, the package on the branch with -1. -/
  numbered_published : ∀ {e ps p}, listPackageRevisions e = some ps → p ∈ ps →
    1 ≤ (key p).revision → published p = true

attribute [instance] External.decEqVersion External.decSound

variable (ext : External)

/-! The map of cached revisions -/

/-- `map[key.PackageRevisionKey]*cachedPackageRevision`: every revision is under its own
    key. -/
abbrev RevMap := List ext.Revision

namespace RevMap

variable {ext} (m : RevMap ext)

def keys : List PackageRevisionKey := m.map ext.key

def delete (k : PackageRevisionKey) : RevMap ext := m.filter fun p => ext.key p ≠ k

def put (p : ext.Revision) : RevMap ext := p :: m.delete (ext.key p)

def ofList (ps : List ext.Revision) : RevMap ext := ps.foldl put []

variable {k j : PackageRevisionKey} {p : ext.Revision} {ps : List ext.Revision}

theorem mem_keys : k ∈ m.keys ↔ ∃ p ∈ m, ext.key p = k := List.mem_map

@[simp] theorem mem_keys_delete : j ∈ (m.delete k).keys ↔ j ∈ m.keys ∧ j ≠ k := by
  simp only [delete, mem_keys, List.mem_filter, decide_eq_true_eq]
  grind

@[simp] theorem mem_keys_put : j ∈ (m.put p).keys ↔ j = ext.key p ∨ j ∈ m.keys := by
  have h : (m.put p).keys = ext.key p :: (m.delete (ext.key p)).keys := rfl
  rw [h, List.mem_cons, mem_keys_delete]
  grind

theorem mem_keys_foldl_put (ps : List ext.Revision) :
    j ∈ keys (ps.foldl put m) ↔ j ∈ m.keys ∨ j ∈ ps.map ext.key := by
  induction ps generalizing m with
  | nil => simp
  | cons p ps ih =>
    rw [List.foldl_cons, ih, mem_keys_put, List.map_cons, List.mem_cons]
    grind

@[simp] theorem mem_keys_ofList (ps : List ext.Revision) :
    j ∈ (ofList ps).keys ↔ j ∈ ps.map ext.key := by
  rw [ofList, mem_keys_foldl_put]
  simp [keys]

theorem mem_foldl_put (h : p ∈ ps.foldl put m) : p ∈ m ∨ p ∈ ps := by
  induction ps generalizing m with
  | nil => exact .inl h
  | cons q ps ih =>
    obtain h | h := ih (m.put q) h
    · obtain rfl | h := List.mem_cons.mp h
      · exact .inr List.mem_cons_self
      · exact .inl (List.mem_filter.mp h).1
    · exact .inr (List.mem_cons_of_mem q h)

theorem mem_of_mem_ofList (h : p ∈ ofList ps) : p ∈ ps := by
  obtain h | h := mem_foldl_put [] h
  · cases h
  · exact h

end RevMap

section NextRevision

variable {ext}

/-- One turn of the loop for the greatest published revision. -/
def higherRevision (highestRevision : Int) (p : ext.Revision) : Int :=
  if ext.published p && highestRevision < (ext.key p).revision then (ext.key p).revision
  else highestRevision

/-- The revisions that a Close lists: those that a filter with the path and the name of
    the package matches. -/
def revisionsFor (m : RevMap ext) (k : PackageRevisionKey) : List ext.Revision :=
  m.filter fun p => PackageRevisionKey.matches
    { pkgKey := { path := k.pkgKey.path, package := k.pkgKey.package } } (ext.key p)

/-- The number that `ClosePackageRevisionDraft` closes a draft with. -/
def nextRevision (m : RevMap ext) (k : PackageRevisionKey) : Int :=
  (revisionsFor m k).foldl higherRevision 0 + 1

theorem le_higherRevision (h : Int) (p : ext.Revision) : h ≤ higherRevision h p := by
  unfold higherRevision
  split
  · rename_i hp
    simp only [Bool.and_eq_true, decide_eq_true_eq] at hp
    omega
  · omega

variable {p : ext.Revision}

theorem revision_le_higherRevision (h : Int) (hp : ext.published p = true) :
    (ext.key p).revision ≤ higherRevision h p := by
  unfold higherRevision
  rw [hp, Bool.true_and]
  split
  · omega
  · rename_i hle
    simp only [decide_eq_true_eq] at hle
    omega

theorem le_foldl_higherRevision (ps : List ext.Revision) (h : Int) :
    h ≤ ps.foldl higherRevision h := by
  induction ps generalizing h with
  | nil => exact Int.le_refl h
  | cons p ps ih =>
    calc h ≤ higherRevision h p := le_higherRevision h p
      _ ≤ ps.foldl higherRevision (higherRevision h p) := ih (higherRevision h p)

theorem revision_le_foldl {ps : List ext.Revision} (hmem : p ∈ ps)
    (hp : ext.published p = true) (h : Int) : (ext.key p).revision ≤ ps.foldl higherRevision h := by
  induction ps generalizing h with
  | nil => cases hmem
  | cons q ps ih =>
    rw [List.foldl_cons]
    obtain rfl | hmem := List.mem_cons.mp hmem
    · calc (ext.key p).revision ≤ higherRevision h p := revision_le_higherRevision h hp
        _ ≤ ps.foldl higherRevision (higherRevision h p) := le_foldl_higherRevision ps _
    · exact ih hmem (higherRevision h q)

theorem nextRevision_pos (m : RevMap ext) (k : PackageRevisionKey) : 1 ≤ nextRevision m k := by
  have h := le_foldl_higherRevision (revisionsFor m k) 0
  unfold nextRevision
  omega

end NextRevision

/-! Calls -/

structure CachedRepository where
  /-- None is the empty string, which no repository has as its version. -/
  lastVersion : Option ext.Version := none
  /-- The maps that have been made. -/
  maps : Nat → RevMap ext := fun _ => []
  made : Nat := 0
  /-- `cachedPackageRevisions`; none is nil. -/
  cached : Option Nat := none

namespace CachedRepository

variable {ext} (c : CachedRepository ext)

/-- What is read through a reference to a map; a nil map is empty. -/
def read (m : Option Nat) : RevMap ext := m.elim [] c.maps

def current : RevMap ext := c.read c.cached

end CachedRepository

/-- Where `refreshAllCachedPackages` was called. -/
inductive Caller where
  /-- `Refresh`, or a listing. -/
  | poll
  /-- The check of the version in a Close. -/
  | check (d : ext.Draft)
  /-- The listing in a Close. -/
  | list (d : ext.Draft)
  | update (p : ext.Revision)

inductive Phase where
  | idle
  | checkVersion (d : ext.Draft)
  | compare (d : ext.Draft) (v : ext.Version)
  | refreshVersion (c : Caller ext)
  | refreshCompare (c : Caller ext) (curVer : ext.Version)
  | refreshList (c : Caller ext) (curVer : ext.Version)
  | refreshStore (c : Caller ext) (curVer : ext.Version) (ps : List ext.Revision)
  | readMap (d : ext.Draft)
  | listMap (d : ext.Draft) (m : Option Nat)
  | push (d : ext.Draft) (version : Int)
  | readCached (p : ext.Revision)
  | record (p : ext.Revision)
  | findMain (p : ext.Revision)
  | dropMain (p : ext.Revision) (k : PackageRevisionKey)
  | putMain (p : ext.Revision)
  | readVersion (p : ext.Revision)
  | storeVersion (p : ext.Revision) (v : ext.Version)
  | createMeta (p : ext.Revision)
  | closed (p : ext.Revision)
  | deletePush (p : ext.Revision)
  | deleteCached (p : ext.Revision)
  | done
  | failed

inductive Call where
  | refresh
  | close (d : ext.Draft)
  | delete (p : ext.Revision)

variable {ext}

def Call.first : Call ext → Phase ext
  | refresh => .refreshVersion .poll
  | close d => .checkVersion d
  | delete p => .deletePush p

/-- Whether the call can return an error there. -/
def Phase.canFail : Phase ext → Bool
  | checkVersion _ | refreshVersion _ | refreshList .. | listMap .. | push .. | readVersion _
  | createMeta _ | deletePush _ => true
  | _ => false

/-- Where a call goes on after a refresh that has returned the map `m`. -/
def Caller.resume (m : Option Nat) : Caller ext → Phase ext
  | poll => .done
  | check d => .readMap d
  | list d => .listMap d m
  | update p => .record p

/-- Whether the key is that of the revision on the branch of the package of `p`. -/
def IsMainOf (p : ext.Revision) (k : PackageRevisionKey) : Prop :=
  k.revision = -1 ∧ k.pkgKey = (ext.key (ext.toMainPackageRevision p)).pkgKey

instance (p : ext.Revision) (k : PackageRevisionKey) : Decidable (IsMainOf p k) :=
  inferInstanceAs (Decidable (_ ∧ _))

/-- The key of the draft that `p` was. -/
def draftOf (p : ext.Revision) : PackageRevisionKey := { ext.key p with revision := 0 }

/-- What `update` records of a closed revision under the mutex. -/
def recordRevision (p : ext.Revision) (m : RevMap ext) : RevMap ext :=
  (if ext.published p then m.delete (draftOf p) else m).put p

/-- The external repository, the cache and the calls. -/
structure World (ext : External) (ι : Type) where
  remote : ext.State
  cache : CachedRepository ext := {}
  phase : ι → Phase ext := fun _ => .idle

inductive Event (ext : External) (ι : Type) where
  | start (i : ι) (c : Call ext)
  /-- A call goes on. The key is the one that the search for the revision on the branch
      comes upon first. -/
  | go (i : ι) (k : Option PackageRevisionKey)
  /-- A call returns an error. -/
  | fail (i : ι)
  /-- Others push to the repository. -/
  | foreign (e : ext.State)

namespace World

variable {ι : Type} [DecidableEq ι] (w : World ext ι)

def goto (i : ι) (p : Phase ext) : World ext ι := { w with phase := Function.update w.phase i p }

def pushed (e : ext.State) : World ext ι := { w with remote := e }

/-- A change of the current map; a write to a nil map is a panic. -/
def mapped (f : RevMap ext → RevMap ext) : Option (World ext ι) :=
  w.cache.cached.map fun m =>
    { w with cache := { w.cache with maps := Function.update w.cache.maps m (f (w.cache.maps m)) } }

/-- The end of a refresh, under the mutex. -/
def stored (curVer : ext.Version) (ps : List ext.Revision) : World ext ι :=
  { w with
    cache :=
      { lastVersion := some curVer
        maps := Function.update w.cache.maps w.cache.made (RevMap.ofList ps)
        made := w.cache.made + 1
        cached := some w.cache.made } }

def go (i : ι) (k : Option PackageRevisionKey) : Phase ext → Option (World ext ι)
  | .checkVersion d => w.goto i (.compare d (ext.version w.remote))
  | .compare d v =>
    w.goto i (if w.cache.lastVersion = some v then .readMap d else .refreshVersion (.check d))
  | .refreshVersion c => w.goto i (.refreshCompare c (ext.version w.remote))
  | .refreshCompare c curVer =>
    w.goto i (if w.cache.lastVersion = some curVer then c.resume w.cache.cached
      else .refreshList c curVer)
  | .refreshList c curVer =>
    (ext.listPackageRevisions w.remote).map fun ps => w.goto i (.refreshStore c curVer ps)
  | .refreshStore c curVer ps => (w.stored curVer ps).goto i (c.resume (some w.cache.made))
  | .readMap d =>
    w.goto i (if w.cache.cached.isNone then .refreshVersion (.list d) else .listMap d w.cache.cached)
  | .listMap d m => w.goto i (.push d (nextRevision (w.cache.read m) (ext.draftKey d)))
  | .push d n =>
    (ext.closePackageRevisionDraft d n w.remote).map fun (e, p) =>
      (w.pushed e).goto i (.readCached p)
  | .readCached p =>
    w.goto i (if w.cache.cached.isNone then .refreshVersion (.update p) else .record p)
  | .record p =>
    (w.mapped (recordRevision p)).map fun w =>
      w.goto i (if ext.published p then .findMain p else .readVersion p)
  | .findMain p =>
    match k with
    | none =>
      if w.cache.current.keys.all (¬ IsMainOf p ·) then w.goto i (.putMain p) else none
    | some k =>
      if k ∈ w.cache.current.keys ∧ IsMainOf p k then w.goto i (.dropMain p k) else none
  | .dropMain p k => (w.mapped (·.delete k)).map (·.goto i (.putMain p))
  | .putMain p =>
    (w.mapped (·.put (ext.toMainPackageRevision p))).map (·.goto i (.readVersion p))
  | .readVersion p => w.goto i (.storeVersion p (ext.version w.remote))
  | .storeVersion p v =>
    ({ w with cache := { w.cache with lastVersion := some v } } : World ext ι).goto i (.createMeta p)
  | .createMeta p => w.goto i (.closed p)
  | .deletePush p =>
    (ext.deletePackageRevision p w.remote).map fun e => (w.pushed e).goto i (.deleteCached p)
  | .deleteCached p =>
    match w.mapped (·.delete (ext.key p)) with
    | none => w.goto i .done
    | some w => w.goto i .done
  | .idle | .closed _ | .done | .failed => none

def step : Event ext ι → Option (World ext ι)
  | .start i c =>
    match w.phase i with
    | .idle => w.goto i c.first
    | _ => none
  | .go i k => w.go i k (w.phase i)
  | .fail i => if (w.phase i).canFail then w.goto i .failed else none
  | .foreign e => w.pushed e

/-- A repository that nothing has read yet. -/
def init (e : ext.State) : World ext ι where
  remote := e

end World

end Porch.CrCache
