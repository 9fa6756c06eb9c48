import Porch.Registry.Watch

/- The slots of the watcher manager over its whole life.

     WatchPackageRevisions        Call.watch, insertWatcher
     NotifyPackageRevisionChange  Call.notify, notifySlot, called

   A watcher is known by how many have been registered before it. In a call the watcher in a
   slot is asked once whether it is finished, `isDone`, and a notification calls it once if
   it is not, `keepGoing`; what they answer may change from call to call. -/
namespace Porch.Registry.Watch

section Insert

variable {finished : Nat → Bool} {new j : Nat} {inserted : Bool} {slots : List (Option Nat)}

theorem count_insertFrom (hj : j ≠ new) : (insertFrom finished new inserted slots).count (some j) =
    if finished j then 0 else slots.count (some j) := by
  have hnew : some new ≠ some j := fun h => hj (Option.some.inj h).symm
  induction slots generalizing inserted with
  | nil => cases inserted <;> simp [insertFrom, hnew]
  | cons o slots ih =>
    cases o with
    | none => cases inserted <;> simp [insertFrom, hnew, ih]
    | some k =>
      by_cases hkj : k = j
      · subst hkj
        by_cases hk : finished k = true <;> cases inserted <;> simp [insertFrom, hk, hnew, ih]
      · by_cases hk : finished k = true <;> cases inserted <;> simp [insertFrom, hk, hnew, hkj, ih]

theorem mem_insertFrom (h : some j ∈ insertFrom finished new inserted slots) : j = new ∨ some j ∈ slots := by
  by_cases hj : j = new
  · exact .inl hj
  · have hcount := List.count_pos_iff.mpr h
    rw [count_insertFrom hj] at hcount
    split at hcount
    · cases hcount
    · exact .inr (List.count_pos_iff.mp hcount)

theorem count_insertFrom_new (h : slots.count (some new) = 0) :
    (insertFrom finished new inserted slots).count (some new) = if inserted then 0 else 1 := by
  induction slots generalizing inserted with
  | nil => cases inserted <;> simp [insertFrom]
  | cons o slots ih =>
    rw [List.count_cons] at h
    have htail : slots.count (some new) = 0 := by omega
    cases o with
    | none => cases inserted <;> simp [insertFrom, ih htail]
    | some k =>
      have hk : k ≠ new := by
        rintro rfl
        simp at h
      by_cases hfin : finished k = true
      · cases inserted <;> simp [insertFrom, hfin, ih htail]
      · simp [insertFrom, hfin, ih htail, hk]

end Insert

structure Manager where
  slots : List (Option Nat) := []
  /-- How many watchers have been registered. -/
  registered : Nat := 0

inductive Call where
  | watch (isDone : Nat → Bool)
  | notify (isDone keepGoing : Nat → Bool)

/-- A slot after a notification. -/
def notifySlot (isDone keepGoing : Nat → Bool) (slot : Option Nat) : Option Nat :=
  slot.filter fun i => !isDone i && keepGoing i

/-- The watchers that a notification calls, in turn. -/
def called (isDone : Nat → Bool) (slots : List (Option Nat)) : List (Option Nat) :=
  slots.filter fun slot => slot.any fun i => !isDone i

def Manager.call (m : Manager) : Call → Manager
  | .watch isDone => ⟨insertWatcher isDone m.registered m.slots, m.registered + 1⟩
  | .notify isDone keepGoing => { m with slots := m.slots.map (notifySlot isDone keepGoing) }

def Manager.run (m : Manager) (calls : List Call) : Manager := calls.foldl Manager.call m

/-- The watcher is not finished when it is asked, and its callback returns true. -/
def Call.Keeps (i : Nat) : Call → Prop
  | watch isDone => isDone i = false
  | notify isDone keepGoing => isDone i = false ∧ keepGoing i = true

variable {m : Manager} {c : Call} {i : Nat} {isDone keepGoing : Nat → Bool}

theorem notifySlot_eq_some {slot : Option Nat} :
    notifySlot isDone keepGoing slot = some i ↔ slot = some i ∧ isDone i = false ∧ keepGoing i = true := by
  cases slot <;> grind [notifySlot]

theorem count_notifySlot (i : Nat) (slots : List (Option Nat)) :
    (slots.map (notifySlot isDone keepGoing)).count (some i) =
      if isDone i = false ∧ keepGoing i = true then slots.count (some i) else 0 := by
  induction slots with
  | nil => simp
  | cons slot slots ih => grind [notifySlot_eq_some]

/-- Only registered watchers have a slot, and none has two. -/
structure Manager.Sound (m : Manager) : Prop where
  registered : ∀ i, some i ∈ m.slots → i < m.registered
  count : ∀ i, m.slots.count (some i) ≤ 1

theorem Manager.Sound.count_new (h : m.Sound) : m.slots.count (some m.registered) = 0 :=
  List.count_eq_zero_of_not_mem fun hin => Nat.lt_irrefl _ (h.registered _ hin)

theorem Manager.Sound.call (h : m.Sound) : (m.call c).Sound := by
  cases c with
  | watch isDone =>
    refine ⟨fun i hi => ?_, fun i => ?_⟩
    · obtain rfl | hi := mem_insertFrom hi
      · exact Nat.lt_succ_self _
      · exact Nat.lt_succ_of_lt (h.registered i hi)
    · by_cases hi : i = m.registered
      · subst hi
        exact (count_insertFrom_new h.count_new).le
      · refine (count_insertFrom hi).trans_le ?_
        split
        · exact Nat.zero_le _
        · exact h.count i
  | notify isDone keepGoing =>
    refine ⟨fun i hi => ?_, fun i => (count_notifySlot i _).trans_le ?_⟩
    · obtain ⟨slot, hslot, hi⟩ := List.mem_map.mp hi
      exact h.registered i ((notifySlot_eq_some.mp hi).1 ▸ hslot)
    · split
      · exact h.count i
      · exact Nat.zero_le _

theorem Manager.Sound.run (h : m.Sound) (calls : List Call) : (m.run calls).Sound := by
  induction calls generalizing m with
  | nil => exact h
  | cons c calls ih => exact ih h.call

theorem Manager.count_call (hi : i < m.registered) (hkeeps : c.Keeps i) :
    (m.call c).slots.count (some i) = m.slots.count (some i) := by
  cases c with
  | watch isDone => exact (count_insertFrom hi.ne).trans (if_neg (by simpa [Call.Keeps] using hkeeps))
  | notify isDone keepGoing => exact (count_notifySlot i _).trans (if_pos hkeeps)

theorem Manager.registered_le_call : m.registered ≤ (m.call c).registered := by
  cases c
  · exact Nat.le_succ _
  · exact le_rfl

theorem Manager.count_run {calls : List Call} (hi : i < m.registered) (hkeeps : ∀ c ∈ calls, c.Keeps i) :
    (m.run calls).slots.count (some i) = m.slots.count (some i) := by
  induction calls generalizing m with
  | nil => rfl
  | cons c calls ih =>
    obtain ⟨hc, hcalls⟩ := List.forall_mem_cons.mp hkeeps
    exact (ih (hi.trans_le m.registered_le_call) hcalls).trans (m.count_call hi hc)

/-- **A watcher has one slot from its registration on, until it is found finished or its callback
    returns false**, and a notification calls it once. No watcher ever has two. -/
theorem watcher_keeps_one_slot (before after : List Call) (isDone : Nat → Bool) :
    let i := (Manager.run {} before).registered
    let m := Manager.run {} (before ++ .watch isDone :: after)
    (∀ j, m.slots.count (some j) ≤ 1) ∧ ((∀ c ∈ after, c.Keeps i) → m.slots.count (some i) = 1 ∧
      ∀ isDone, isDone i = false → (called isDone m.slots).count (some i) = 1) := by
  intro i m
  have hsound (calls : List Call) : (Manager.run {} calls).Sound :=
    .run ⟨fun _ hin => absurd hin List.not_mem_nil, fun _ => Nat.zero_le _⟩ calls
  refine ⟨(hsound _).count, fun hkeeps => ?_⟩
  have hone : m.slots.count (some i) = 1 := by
    have hrun : m = ((Manager.run {} before).call (.watch isDone)).run after := by
      simp [m, Manager.run]
    rw [hrun, Manager.count_run (Nat.lt_succ_self _) hkeeps]
    exact count_insertFrom_new (hsound before).count_new
  refine ⟨hone, fun isDone hlive => ?_⟩
  rw [called, List.count_filter (by simp [hlive]), hone]

/-- The second of two watchers, after a notification that ends the first. -/
theorem second_watcher_keeps_slot :
    let calls : List Call := [.watch fun _ => false, .watch fun _ => false, .notify (fun _ => false) fun i => i == 1]
    (called (fun _ => false) (Manager.run {} calls).slots).count (some 1) = 1 := by
  refine ((watcher_keeps_one_slot [.watch fun _ => false] [_] fun _ => false).2 fun c hc => ?_).2 _ rfl
  obtain rfl := List.mem_singleton.mp hc
  exact ⟨rfl, rfl⟩

end Porch.Registry.Watch
