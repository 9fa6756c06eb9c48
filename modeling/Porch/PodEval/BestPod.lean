import Porch.PodEval.Moves

/- Which pods `findBestPod` returns: those with the least load, in turn
   (`least_loaded_in_turn`). The loads do not change while it looks. -/
namespace Porch.PodEval.World

open Go List

variable {ι : Type} {least : Int} {start idx n : Nat} {p : Nat → Bool}

theorem nodup_inTurn : (inTurn n p start).Nodup :=
  (nodup_rotate.mpr nodup_range).filter p

/-- The one that has had its turn comes last. -/
theorem inTurn_next (h : (inTurn n p start).head? = some idx) :
    inTurn n p ((idx + 1) % n) = (inTurn n p start).rotate 1 := by
  rw [inTurn, head?_filter] at h
  obtain ⟨hidx, l, r, heq, hl⟩ := find?_eq_some_iff_append.mp h
  have hlength : l.length < (range n).length := by
    have hsum := congrArg length heq
    rw [length_rotate, length_append, length_cons] at hsum
    omega
  have hget : (l.length + start) % n = idx := by
    have hsome := getElem?_rotate (n := start) hlength
    rw [heq, getElem?_append_right le_rfl, Nat.sub_self] at hsome
    simpa [Nat.mod_lt _ (length_range ▸ Nat.zero_lt_of_lt hlength)] using hsome.symm
  have hnext : (idx + 1) % n = (start + (l ++ [idx]).length) % n := by
    rw [← hget, Nat.mod_add_mod, length_append, length_singleton]
    congr 1
    omega
  have hrotate : (range n).rotate ((idx + 1) % n) = r ++ (l ++ [idx]) := by
    calc (range n).rotate ((idx + 1) % n)
        = (range n).rotate (start + (l ++ [idx]).length) := by
          rw [hnext, ← rotate_mod _ (start + _), length_range]
      _ = ((l ++ [idx]) ++ r).rotate (l ++ [idx]).length := by
          rw [← rotate_rotate, heq, append_assoc]
          rfl
      _ = r ++ (l ++ [idx]) := rotate_append_length_eq _ _
  have hskip : l.filter p = [] := filter_eq_nil_iff.mpr fun x hx => by simpa using hl x hx
  simp [inTurn, hrotate, heq, hskip, hidx]

variable [DecidableEq ι] {w : World ι} {image : Str}

/-- `k` calls one after the other, with nothing else changing. -/
def findBestPods (image : Str) : Nat → World ι → Option (World ι × List (Option (Nat × Int)))
  | 0, w => some (w, [])
  | k + 1, w => do
    let (w, best) ← w.findBestPod image []
    let (w, rest) ← findBestPods image k w
    return (w, best :: rest)

/-- The pods with the load, in the order in which they come up. -/
def best (w : World ι) (image : Str) (least : Int) : List Nat :=
  inTurn (w.functions image).pods.length (hasLoad (w.counters image) (w.functions image).pods least)
    (w.functions image).roundRobinIdx

theorem findBestPod_eq (hleast : leastLoad (w.counters image) (w.functions image).pods = some least)
    {rest : List Nat} (hbest : w.best image least = idx :: rest) :
    ∃ w₁, w.findBestPod image [] = some (w₁, some (idx, least)) ∧ w₁.best image least = rest ++ [idx] ∧
      leastLoad (w₁.counters image) (w₁.functions image).pods = some least := by
  have hhead : (w.best image least).head? = some idx := by rw [hbest]; rfl
  have hidx := (roundRobin_eq_head? _).trans hhead
  refine ⟨w.setFunction image { w.functions image with
    roundRobinIdx := (idx + 1) % (w.functions image).pods.length }, ?_, ?_, ?_⟩
  · simp [findBestPod, hleast, finishAll, hidx]
  · have hnext := inTurn_next hhead
    change _ = (w.best image least).rotate 1 at hnext
    rw [hbest, rotate_cons_succ, rotate_zero] at hnext
    simpa [best, setFunction] using hnext
  · simpa [setFunction] using hleast

/-- The pods that the calls return come up in turn. -/
theorem findBestPods_eq (hleast : leastLoad (w.counters image) (w.functions image).pods = some least)
    {idxs rest : List Nat} (hbest : w.best image least = idxs ++ rest) :
    ∃ w₁, findBestPods image idxs.length w = some (w₁, idxs.map fun idx => some (idx, least)) := by
  induction idxs generalizing w rest with
  | nil => exact ⟨w, rfl⟩
  | cons idx idxs ih =>
    obtain ⟨w₁, hcall, hbest₁, hleast₁⟩ := findBestPod_eq hleast hbest
    obtain ⟨w₂, hrest⟩ := ih hleast₁ (hbest₁.trans (append_assoc idxs rest [idx]))
    exact ⟨w₂, by simp [findBestPods, hcall, hrest]⟩

/-- **The least loaded pods are used in turn.** With pods, a call returns one of those with the least
    load, and calls that nothing comes between return each of these once. -/
theorem least_loaded_in_turn (w : World ι) (image : Str) (hne : (w.functions image).pods ≠ []) :
    ∃ least : Int, (∀ pod ∈ (w.functions image).pods, least ≤ w.counters image pod.counter) ∧
      (∃ w₁ idx pod, w.findBestPod image [] = some (w₁, some (idx, least)) ∧
        (w.functions image).pods[idx]? = some pod ∧ w.counters image pod.counter = least) ∧
      ∃ w₁, ∃ idxs : List Nat, idxs.Nodup ∧ (∀ idx, idx ∈ idxs ↔
          ∃ pod, (w.functions image).pods[idx]? = some pod ∧ w.counters image pod.counter = least) ∧
        findBestPods image idxs.length w = some (w₁, idxs.map fun idx => some (idx, least)) := by
  obtain ⟨least, hleast⟩ : ∃ least, leastLoad (w.counters image) (w.functions image).pods = some least := by
    rw [leastLoad_eq_min?]
    exact Option.isSome_iff_exists.mp (by simpa using hne)
  obtain ⟨⟨pod, hpod, hload⟩, hle⟩ := leastLoad_eq_some.mp hleast
  refine ⟨least, hle, ?_, ?_⟩
  · obtain ⟨idx, hget⟩ := mem_iff_getElem?.mp hpod
    have hin : idx ∈ w.best image least := mem_inTurn.mpr ⟨pod, hget, hload⟩
    obtain ⟨first, rest, hbest⟩ := exists_cons_of_ne_nil (ne_nil_of_mem hin)
    obtain ⟨w₁, hcall, -⟩ := findBestPod_eq hleast hbest
    have hfirst : first ∈ w.best image least := hbest ▸ mem_cons_self
    obtain ⟨pod, hpod⟩ := mem_inTurn.mp hfirst
    exact ⟨w₁, first, pod, hcall, hpod⟩
  · obtain ⟨w₁, hcalls⟩ := findBestPods_eq hleast (append_nil _).symm
    exact ⟨w₁, _, nodup_inTurn, fun _ => mem_inTurn, hcalls⟩

theorem least_loaded_in_turn_two :
    let w : World Nat := ({} : World Nat).setPods "f"
      [{ lastActivity := 0, counter := 0 }, { lastActivity := 0, counter := 1 }]
    ∃ w₁ idx least, w.findBestPod "f" [] = some (w₁, some (idx, least)) := by
  intro w
  obtain ⟨least, -, ⟨w₁, idx, -, hcall, -⟩, -⟩ := least_loaded_in_turn w "f" (by decide)
  exact ⟨w₁, idx, least, hcall⟩

end Porch.PodEval.World
