import Mathlib.Data.List.AList
import Porch.Go.Path
import Porch.Lts.Count
import Porch.Lts.Run

/- `directoryPool` of `pkg/externalrepo/git/cachedir_pool.go` under any number of calls at
   once. An acquisition of a directory is one party: it gets the directory and releases it
   at most once.

     sharedDirectory              its number, with refCount
     getOrCreateSharedRepository  load, reuse, lock
     releaseSharedRepository      release

   What is done under the mutex of the pool is one step; the first look into the map is
   made without it. A release between that look and the increment takes the directory
   away (`reused_after_removal`). In every run without such a release, and without one
   directory inside another, the pool has what its callers hold (`held_directory_kept`). -/
namespace Porch.DirectoryPool

open Go Function Lts

/-- What `os.Stat` finds. -/
inductive FileInfo where
  | absent
  | file
  | dir
deriving DecidableEq, Repr

inductive Phase where
  | idle
  | load (dir : Str)
  /-- The directory has been found on the fast path, and is to be counted. -/
  | reuse (dir : Str) (d : Nat)
  | lock (dir : Str)
  | acquired (dir : Str) (d : Nat)
  | failed
  | released
deriving DecidableEq, Repr

/-- What the system calls answer: whether `Stat` works, whether the repository can be
    initialised or opened, and whether `RemoveAll` works. -/
structure Os where
  stat : Bool := true
  opened : Bool := true
  removed : Bool := true

inductive Event (ι : Type) where
  | start (i : ι) (dir : Str)
  | go (i : ι) (os : Os)
  | release (i : ι) (os : Os)

structure World (ι : Type) where
  directories : AList fun _ : Str => Nat := ∅
  refCount : Nat → Int := fun _ => 0
  made : Nat := 0
  disk : Str → FileInfo := fun _ => .absent
  phase : ι → Phase := fun _ => .idle

/-- The path is `dir` or in it. -/
def inside (dir path : Str) : Bool := path = dir || (dir ++ ['/']).isPrefixOf path

def Phase.holds (d : Nat) : Phase → Bool
  | acquired _ d' => d' = d
  | _ => false

/-- The call has found the directory and not counted itself yet. -/
def Phase.reuses (d : Nat) : Phase → Bool
  | reuse _ d' => d' = d
  | _ => false

namespace World

variable {ι : Type}

section Step

variable [DecidableEq ι] (w : World ι)

def goto (i : ι) (ph : Phase) : World ι := { w with phase := update w.phase i ph }

def addRef (d : Nat) (n : Int) : World ι :=
  { w with refCount := update w.refCount d (w.refCount d + n) }

/-- `os.RemoveAll`; one that fails has removed nothing. -/
def removeAll (dir : Str) (os : Os) : World ι :=
  if os.removed then
    { w with disk := fun path => if inside dir path then .absent else w.disk path }
  else w

def store (dir : Str) : World ι :=
  { w with
    directories := w.directories.insert dir w.made
    refCount := update w.refCount w.made 1
    made := w.made + 1
    disk := update w.disk dir .dir }

/-- The slow path of `getOrCreateSharedRepository`. -/
def getOrCreate (i : ι) (dir : Str) (os : Os) : World ι :=
  match w.directories.lookup dir with
  | some d => (w.addRef d 1).goto i (.acquired dir d)
  | none =>
    if !os.stat then w.goto i .failed
    else
      match w.disk dir with
      | .file => w.goto i .failed
      | .absent | .dir =>
        if os.opened then (w.store dir).goto i (.acquired dir w.made)
        else (w.removeAll dir os).goto i .failed

/-- `releaseSharedRepository`. -/
def releaseShared (i : ι) (dir : Str) (os : Os) : World ι :=
  match w.directories.lookup dir with
  | some d =>
    if w.refCount d - 1 ≤ 0 then
      ({ (w.addRef d (-1)).removeAll dir os with
        directories := w.directories.erase dir } : World ι).goto i .released
    else (w.addRef d (-1)).goto i .released
  | none => (if w.disk dir = .absent then w else w.removeAll dir os).goto i .released

def step : Event ι → Option (World ι)
  | .start i dir => match w.phase i with
    | .idle => w.goto i (.load dir)
    | _ => none
  | .go i os => match w.phase i with
    | .load dir => w.goto i (match w.directories.lookup dir with
      | some d => .reuse dir d
      | none => .lock dir)
    | .reuse dir d => (w.addRef d 1).goto i (.acquired dir d)
    | .lock dir => w.getOrCreate i dir os
    | _ => none
  | .release i os => match w.phase i with
    | .acquired dir _ => w.releaseShared i dir os
    | _ => none

end Step

variable (w : World ι)

/-- Every directory that a caller has is the one in the pool, is counted as often as it is
    held, and is on the disk. -/
def Shared [Fintype ι] : Prop :=
  ∀ i dir d, w.phase i = .acquired dir d →
    w.directories.lookup dir = some d ∧ w.refCount d = count (Phase.holds d) w.phase ∧
      w.disk dir = .dir

/-- No other directory of the pool is in this one. -/
def Outside (dir : Str) : Prop := ∀ path ∈ w.directories.keys, inside dir path → path = dir

def InOrder : Event ι → Prop
  | .start .. => True
  | .go i os => match w.phase i with
    | .lock dir => os.opened = false → w.Outside dir
    | _ => True
  | .release i _ => match w.phase i with
    | .acquired dir d =>
      w.refCount d ≤ 1 → w.Outside dir ∧ ∀ j, (w.phase j).reuses d = false
    | _ => True

section Decide

variable [Fintype ι]

instance (dir : Str) : Decidable (w.Outside dir) :=
  inferInstanceAs (Decidable (∀ path ∈ w.directories.keys, inside dir path → path = dir))

instance (ev : Event ι) : Decidable (w.InOrder ev) := by
  cases ev with
  | start i dir => exact inferInstanceAs (Decidable True)
  | go i os =>
    dsimp only [InOrder]
    split <;> infer_instance
  | release i os =>
    dsimp only [InOrder]
    split <;> infer_instance

end Decide

def Fits : Phase → Prop
  | .reuse dir d | .acquired dir d => w.directories.lookup dir = some d
  | _ => True

structure Inv [Fintype ι] : Prop where
  entries : ∀ dir d, w.directories.lookup dir = some d →
    d < w.made ∧ w.refCount d = count (Phase.holds d) w.phase ∧ w.disk dir = .dir
  once : ∀ dir dir' d, w.directories.lookup dir = some d → w.directories.lookup dir' = some d →
    dir = dir'
  fits : ∀ i, w.Fits (w.phase i)

variable {w} {w₁ : World ι} {ph : Phase} {i : ι} {dir : Str} {d : Nat} {os : Os}

theorem addRef_phase (n : Int) : (w.addRef d n).phase = w.phase := rfl

theorem addRef_refCount (n : Int) (d' : Nat) :
    (w.addRef d n).refCount d' = if d' = d then w.refCount d + n else w.refCount d' := by
  simp only [World.addRef, update_apply]

theorem store_phase : (w.store dir).phase = w.phase := rfl

theorem store_refCount (d' : Nat) :
    (w.store dir).refCount d' = if d' = w.made then 1 else w.refCount d' := by
  simp only [World.store, update_apply]

theorem store_disk (path : Str) :
    (w.store dir).disk path = if path = dir then .dir else w.disk path := by
  simp only [World.store, update_apply]

theorem removeAll_spec (w : World ι) (dir : Str) (os : Os) :
    (w.removeAll dir os).directories = w.directories ∧
      (w.removeAll dir os).refCount = w.refCount ∧ (w.removeAll dir os).made = w.made ∧
      (w.removeAll dir os).phase = w.phase := by
  unfold World.removeAll
  split <;> exact ⟨rfl, rfl, rfl, rfl⟩

theorem removeAll_disk {path : Str} (h : inside dir path = false) :
    (w.removeAll dir os).disk path = w.disk path := by
  unfold World.removeAll
  split
  · exact if_neg (by rw [h]; exact Bool.false_ne_true)
  · rfl

theorem Fits.frame {ph : Phase} {w₁ : World ι} (h : w.Fits ph)
    (hkeep : ∀ dir d, ph.reuses d = true ∨ ph.holds d = true →
      w.directories.lookup dir = some d → w₁.directories.lookup dir = some d) : w₁.Fits ph := by
  cases ph with
  | reuse dir d => exact hkeep dir d (.inl (decide_eq_true rfl)) h
  | acquired dir d => exact hkeep dir d (.inr (decide_eq_true rfl)) h
  | _ => trivial

section Steps

variable [Fintype ι] [DecidableEq ι]

theorem Inv.goto (hentries : ∀ dir d, w.directories.lookup dir = some d → d < w.made ∧
      w.refCount d = count (Phase.holds d) (update w.phase i ph) ∧ w.disk dir = .dir)
    (honce : ∀ dir dir' d, w.directories.lookup dir = some d → w.directories.lookup dir' = some d →
      dir = dir')
    (hothers : ∀ j, j ≠ i → w.Fits (w.phase j)) (hself : w.Fits ph) : (w.goto i ph).Inv := by
  refine ⟨hentries, honce, ?_⟩
  intro j
  have hphase : (w.goto i ph).phase j = if j = i then ph else w.phase j := by
    simp only [World.goto, update_apply]
  rw [hphase]
  split
  · exact hself
  · rename_i hj
    exact hothers j hj

section

variable (h : w.Inv) (hbefore : ∀ d, (w.phase i).holds d = false)
include h hbefore

theorem Inv.turn (hafter : ∀ d, ph.holds d = false) (hself : w.Fits ph) : (w.goto i ph).Inv := by
  refine Inv.goto ?_ h.once (fun j _ => h.fits j) hself
  intro dir d hd
  rw [count_update_same (by rw [hbefore, hafter])]
  exact h.entries dir d hd

theorem Inv.acquire
    (hd : w.directories.lookup dir = some d) : ((w.addRef d 1).goto i (.acquired dir d)).Inv := by
  refine Inv.goto ?_ h.once (fun j _ => h.fits j) hd
  intro dir' d' hd'
  obtain ⟨hlt, hcount, hdisk⟩ := h.entries dir' d' hd'
  refine ⟨hlt, ?_, hdisk⟩
  have hupd := count_update (Phase.holds d') w.phase i (.acquired dir d)
  rw [hbefore d', Bool.toNat_false, Nat.add_zero] at hupd
  rw [addRef_phase, hupd, addRef_refCount]
  by_cases heq : d' = d
  · have hholds : Phase.holds d' (.acquired dir d) = true := decide_eq_true heq.symm
    rw [if_pos heq, hholds, ← heq, hcount, Bool.toNat_true]
    push_cast
    rfl
  · have hholds : Phase.holds d' (.acquired dir d) = false := decide_eq_false fun h => heq h.symm
    rw [if_neg heq, hholds, Bool.toNat_false, Nat.add_zero]
    exact hcount

theorem Inv.store (hnone : w.directories.lookup dir = none) :
    ((w.store dir).goto i (.acquired dir w.made)).Inv := by
  have hlookup : ∀ dir', (w.store dir).directories.lookup dir' =
      if dir' = dir then some w.made else w.directories.lookup dir' := by
    intro dir'
    show (w.directories.insert dir w.made).lookup dir' = _
    split
    · rename_i heq
      rw [heq, AList.lookup_insert]
    · rename_i heq
      rw [AList.lookup_insert_ne heq]
  -- nobody has the new directory yet
  have hnew : count (Phase.holds w.made) w.phase = 0 := by
    apply count_eq_zero.mpr
    intro j
    cases hph : w.phase j with
    | acquired dir' d' =>
      have hfits := h.fits j
      rw [hph] at hfits
      have hlt := (h.entries dir' d' hfits).1
      exact decide_eq_false (by omega)
    | _ => rfl
  refine Inv.goto ?_ ?_ ?_ ?_
  · intro dir' d' hd'
    have hupd := count_update (Phase.holds d') w.phase i (.acquired dir w.made)
    rw [hbefore d', Bool.toNat_false, Nat.add_zero] at hupd
    rw [store_phase, hupd, store_refCount, store_disk]
    rw [hlookup] at hd'
    split at hd'
    · rename_i heq
      cases hd'
      have hholds : Phase.holds w.made (.acquired dir w.made) = true := decide_eq_true rfl
      rw [if_pos rfl, if_pos heq, hnew, hholds]
      exact ⟨Nat.lt_succ_self _, rfl, rfl⟩
    · rename_i heq
      obtain ⟨hlt, hold, hdisk⟩ := h.entries dir' d' hd'
      have hne : d' ≠ w.made := Nat.ne_of_lt hlt
      have hholds : Phase.holds d' (.acquired dir w.made) = false :=
        decide_eq_false fun h => hne h.symm
      rw [if_neg hne, if_neg heq, hholds]
      exact ⟨Nat.lt_succ_of_lt hlt, hold, hdisk⟩
  · intro dir₁ dir₂ d' h₁ h₂
    rw [hlookup] at h₁ h₂
    split at h₁ <;> split at h₂
    · rename_i heq₁ heq₂
      exact heq₁.trans heq₂.symm
    · cases h₁
      exact absurd (h.entries dir₂ _ h₂).1 (Nat.lt_irrefl _)
    · cases h₂
      exact absurd (h.entries dir₁ _ h₁).1 (Nat.lt_irrefl _)
    · exact h.once dir₁ dir₂ d' h₁ h₂
  · intro j _
    apply (h.fits j).frame
    intro dir' d' _ hd'
    rw [hlookup, if_neg ?_]
    · exact hd'
    · intro heq
      rw [heq, hnone] at hd'
      cases hd'
  · show (w.store dir).directories.lookup dir = some w.made
    rw [hlookup, if_pos rfl]

theorem Inv.fail (hnone : w.directories.lookup dir = none) (hout : w.Outside dir) :
    ((w.removeAll dir os).goto i .failed).Inv := by
  obtain ⟨hdirs, hrefs, hmade, hphase⟩ := removeAll_spec w dir os
  have hsame : (w.removeAll dir os).Inv := by
    refine ⟨?_, ?_, ?_⟩
    · intro dir' d' hd'
      rw [hdirs] at hd'
      have hinside : inside dir dir' = false := by
        apply Bool.eq_false_iff.mpr
        intro hin
        have heq := hout dir' (AList.mem_keys.mpr (AList.lookup_isSome.mp (by rw [hd']; rfl))) hin
        rw [heq, hnone] at hd'
        cases hd'
      rw [hmade, hrefs, hphase, removeAll_disk hinside]
      exact h.entries dir' d' hd'
    · rw [hdirs]
      exact h.once
    · intro j
      rw [hphase]
      exact (h.fits j).frame fun dir' d' _ hd' => by rw [hdirs, hd']
  exact hsame.turn (by rw [hphase]; exact hbefore) (fun _ => rfl) trivial

end

section

variable (h : w.Inv) (hph : w.phase i = .acquired dir d)
include h hph

theorem Inv.released_count {dir' : Str} {d' : Nat} (hd' : w.directories.lookup dir' = some d') :
    (w.addRef d (-1)).refCount d' =
      count (Phase.holds d') (update w.phase i .released) := by
  have hcount := (h.entries dir' d' hd').2.1
  have hupd := count_update (Phase.holds d') w.phase i .released
  rw [hph] at hupd
  have hrel : Phase.holds d' .released = false := rfl
  rw [hrel, Bool.toNat_false, Nat.add_zero] at hupd
  rw [addRef_refCount]
  by_cases heq : d' = d
  · have hholds : Phase.holds d' (.acquired dir d) = true := decide_eq_true heq.symm
    rw [hholds, Bool.toNat_true] at hupd
    rw [if_pos heq, ← heq]
    omega
  · have hholds : Phase.holds d' (.acquired dir d) = false := decide_eq_false fun h => heq h.symm
    rw [hholds, Bool.toNat_false, Nat.add_zero] at hupd
    rw [if_neg heq, hupd]
    exact hcount

/-- The last holder releases the directory, and nobody is about to reuse it. -/
theorem Inv.remove
    (hd : w.directories.lookup dir = some d) (hlast : w.refCount d - 1 ≤ 0) (hout : w.Outside dir)
    (hreuse : ∀ j, (w.phase j).reuses d = false) :
    (({ (w.addRef d (-1)).removeAll dir os with
      directories := w.directories.erase dir } : World ι).goto i .released).Inv := by
  obtain ⟨_, hrefs, hmade, hphase⟩ := removeAll_spec (w.addRef d (-1)) dir os
  have hlookup : ∀ dir' d', (w.directories.erase dir).lookup dir' = some d' →
      dir' ≠ dir ∧ w.directories.lookup dir' = some d' := by
    intro dir' d' hd'
    by_cases heq : dir' = dir
    · rw [heq, AList.lookup_erase] at hd'
      cases hd'
    · rw [AList.lookup_erase_ne heq] at hd'
      exact ⟨heq, hd'⟩
  -- no other call has it
  have hgone : count (Phase.holds d) (update w.phase i .released) = 0 := by
    have hcount := h.released_count hph hd
    rw [addRef_refCount, if_pos rfl] at hcount
    omega
  refine Inv.goto ?_ ?_ ?_ trivial
  · intro dir' d' hd'
    obtain ⟨hne, hd'⟩ := hlookup dir' d' hd'
    obtain ⟨hlt, _, hdisk⟩ := h.entries dir' d' hd'
    have hinside : inside dir dir' = false := by
      apply Bool.eq_false_iff.mpr
      intro hin
      exact hne (hout dir' (AList.mem_keys.mpr (AList.lookup_isSome.mp (by rw [hd']; rfl))) hin)
    refine ⟨by rw [hmade]; exact hlt, ?_, ?_⟩
    · rw [hrefs, hphase, addRef_phase]
      exact h.released_count hph hd'
    · rw [removeAll_disk hinside]
      exact hdisk
  · intro dir₁ dir₂ d' h₁ h₂
    exact h.once dir₁ dir₂ d' (hlookup dir₁ d' h₁).2 (hlookup dir₂ d' h₂).2
  · intro j hj
    rw [hphase, addRef_phase]
    apply (h.fits j).frame
    intro dir' d' hhas hd'
    show (w.directories.erase dir).lookup dir' = some d'
    rw [AList.lookup_erase_ne ?_]
    · exact hd'
    · intro heq
      rw [heq, hd] at hd'
      cases hd'
      obtain hhas | hhas := hhas
      · rw [hreuse j] at hhas
        cases hhas
      · have hnot := count_eq_zero.mp hgone j
        rw [update_of_ne hj, hhas] at hnot
        cases hnot

theorem Inv.drop : ((w.addRef d (-1)).goto i .released).Inv := by
  refine Inv.goto ?_ h.once (fun j _ => h.fits j) trivial
  intro dir' d' hd'
  obtain ⟨hlt, _, hdisk⟩ := h.entries dir' d' hd'
  exact ⟨hlt, h.released_count hph hd', hdisk⟩

end

/-- Every step in order keeps the invariant. -/
theorem Inv.step {ev : Event ι} (h : w.Inv) (hok : w.InOrder ev) (hstep : w.step ev = some w₁) :
    w₁.Inv := by
  cases ev with
  | start i dir =>
    simp only [World.step] at hstep
    split at hstep
    · rename_i hph
      cases hstep
      exact h.turn (by rw [hph]; exact fun _ => rfl) (fun _ => rfl) trivial
    · cases hstep
  | go i os =>
    simp only [World.step] at hstep
    simp only [World.InOrder] at hok
    have hfits := h.fits i
    split at hstep
    · rename_i dir hph
      cases hstep
      have hbefore : ∀ d, (w.phase i).holds d = false := by rw [hph]; exact fun _ => rfl
      split
      · exact h.turn hbefore (fun _ => rfl) ‹_›
      · exact h.turn hbefore (fun _ => rfl) trivial
    · rename_i dir d hph
      rw [hph] at hfits
      cases hstep
      exact h.acquire (by rw [hph]; exact fun _ => rfl) hfits
    · rename_i dir hph
      cases hstep
      rw [hph] at hok
      have hbefore : ∀ d, (w.phase i).holds d = false := by rw [hph]; exact fun _ => rfl
      unfold World.getOrCreate
      split
      · exact h.acquire hbefore ‹_›
      · rename_i hnone
        split
        · exact h.turn hbefore (fun _ => rfl) trivial
        · split
          · exact h.turn hbefore (fun _ => rfl) trivial
          all_goals
            split
            · exact h.store hbefore hnone
            · rename_i hopened
              exact h.fail hbefore hnone (hok (Bool.eq_false_iff.mpr hopened))
    · cases hstep
  | release i os =>
    simp only [World.step] at hstep
    simp only [World.InOrder] at hok
    have hfits := h.fits i
    split at hstep
    · rename_i dir d hph
      rw [hph] at hok hfits
      have hd : w.directories.lookup dir = some d := hfits
      cases hstep
      simp only [World.releaseShared, hd]
      split
      · rename_i hlast
        obtain ⟨hout, hreuse⟩ := hok (by omega)
        exact h.remove hph hd hlast hout hreuse
      · exact h.drop hph
    · cases hstep

end Steps

theorem inv_init [Fintype ι] (disk : Str → FileInfo) : ({ disk := disk } : World ι).Inv where
  entries := fun dir d hd => by cases hd
  once := fun dir dir' d hd => by cases hd
  fits := fun i => trivial

end World

/-- **In every state of a run in order, what a caller holds is in the pool, counted as
    often as it is held, and on the disk.** -/
theorem held_directory_kept {ι : Type} [Fintype ι] [DecidableEq ι] (disk : Str → FileInfo)
    {es : List (Event ι)} {w : World ι} (hok : Along World.step World.InOrder { disk := disk } es)
    (hrun : run World.step { disk := disk } es = some w) : w.Shared := by
  have hstep : ∀ (w : World ι) ev w₁, w.Inv → w.InOrder ev → w.step ev = some w₁ → w₁.Inv :=
    fun _ _ _ h hok hstep => h.step hok hstep
  have h := run_invariant hstep (World.inv_init disk) hok hrun
  intro i dir d hph
  have hfits := h.fits i
  rw [hph] at hfits
  exact ⟨hfits, (h.entries dir d hfits).2⟩

/-- The calls, the entry of a directory with its count, and what is on the disk. -/
structure Seen where
  phases : List Phase
  entry : Option (Nat × Int)
  disk : FileInfo
deriving DecidableEq

def seen (w : World Bool) : Seen where
  phases := [w.phase true, w.phase false]
  entry := (w.directories.lookup "a".toList).map fun d => (d, w.refCount d)
  disk := w.disk "a"

/-- Two callers have a directory, and one of them releases it. -/
def sharedRun : List (Event Bool) :=
  [.start true "a", .start false "a", .go true {}, .go false {}, .go true {}, .go false {},
    .release true {}]

theorem held_directory_kept_sharedRun : ∃ w, run World.step {} sharedRun = some w ∧
      seen w = ⟨[.released, .acquired "a".toList 0], some (0, 1), .dir⟩ ∧ w.Shared := by
  refine exists_reached (by decide +kernel) fun w hw _ => ?_
  exact held_directory_kept _ (by decide +kernel) hw

/-- **A caller that has looked the directory up before its last holder releases it gets a
    directory that is neither in the pool nor on the disk.** -/
theorem reused_after_removal :
    (run World.step {} [.start true "a".toList, .go true {}, .go true {}, .start false "a".toList,
      .go false {}, .release true {}, .go false {}]).map seen =
      some ⟨[.released, .acquired "a".toList 0], none, .absent⟩ := by
  decide +kernel

end Porch.DirectoryPool
