import Mathlib.Data.List.Rotate
import Mathlib.Logic.Relation
import Porch.PodEval.Manager

/- What a step can do. While the manager handles a message it has some requests of one image
   in hand. Every handler is a sequence of a few moves on the pool and the requests in hand
   (`step_cases`), and the steps of a call are listed by `Call`: an invariant is proved for
   each of them once. -/
namespace Porch.PodEval

open Go Function List World

variable {ι : Type}

namespace World

/-! Pods -/

/-- The pods that are still being started. -/
def pending (pods : List (FunctionPodInfo ι)) : List (FunctionPodInfo ι) :=
  pods.filter (·.podData.isNone)

/-- Only pods that are ready have been removed. -/
def Removed (pods pods' : List (FunctionPodInfo ι)) : Prop :=
  pods'.Sublist pods ∧ pending pods' = pending pods

theorem removed_filter {keep : FunctionPodInfo ι → Bool} (pods : List (FunctionPodInfo ι))
    (hkeep : ∀ pod, pod.podData = none → keep pod = true) : Removed pods (pods.filter keep) := by
  refine ⟨filter_sublist, ?_⟩
  unfold pending
  rw [filter_filter]
  apply filter_congr
  intro pod _
  cases hpod : pod.podData with
  | none => rw [hkeep pod hpod, Bool.and_true]
  | some d => rfl

theorem removed_eraseP {p : FunctionPodInfo ι → Bool} (pods : List (FunctionPodInfo ι))
    (hp : ∀ pod, pod.podData = none → p pod = false) : Removed pods (pods.eraseP p) := by
  refine ⟨eraseP_sublist, ?_⟩
  induction pods with
  | nil => rfl
  | cons pod pods ih =>
    unfold pending at ih ⊢
    cases hpod : p pod with
    | true =>
      have hsome : pod.podData ≠ none := fun hnone => by simp [hp pod hnone] at hpod
      simp [hpod, hsome]
    | false => simp [hpod, filter_cons, ih]

variable {pods : List (FunctionPodInfo ι)} {pod : FunctionPodInfo ι} {idx : Nat} {now least : Int}
  {os : List (ι × Outcome)} {load : Nat → Int} {fn : FunctionInfo ι} {chs : List (Channel ι)}
  {redistributed : Bool} {rs : List (Race ι)} {pe : PodEvaluatorOptions}

variable {before after : List (FunctionPodInfo ι)} {between : List (ι × Outcome)} {postFix : Nat}
  {health : Str → Health} {ev : Event ι}

theorem firstPending_spec (h : firstPending pods = some (before, pod, after)) :
    pods = before ++ pod :: after ∧ pod.podData = none := by
  induction pods generalizing before with
  | nil => cases h
  | cons p pods ih =>
    unfold firstPending at h
    split at h
    · rename_i hnone
      cases h
      exact ⟨rfl, Option.isNone_iff_eq_none.mp hnone⟩
    · obtain ⟨⟨before', p', after'⟩, hrest, heq⟩ := Option.map_eq_some_iff.mp h
      cases heq
      obtain ⟨hpods, hnone⟩ := ih hrest
      exact ⟨by rw [hpods]; rfl, hnone⟩

theorem firstPending_none (h : firstPending pods = none) : ∀ pod ∈ pods, pod.podData ≠ none := by
  induction pods with
  | nil => nofun
  | cons p pods ih =>
    unfold firstPending at h
    split at h
    · cases h
    · rename_i hsome
      intro pod hpod hnone
      obtain rfl | hpod := mem_cons.mp hpod
      · exact hsome (Option.isNone_iff_eq_none.mpr hnone)
      · exact ih (Option.map_eq_none_iff.mp h) pod hpod hnone

theorem map_touch {β : Type} {f : FunctionPodInfo ι → β} (pods : List (FunctionPodInfo ι)) (idx : Nat)
    (now : Int) (hf : ∀ pod, f { pod with lastActivity := now } = f pod) :
    (pods.modify idx fun pod => { pod with lastActivity := now }).map f = pods.map f := by
  induction pods generalizing idx with
  | nil => rw [modify_nil]
  | cons pod pods ih =>
    cases idx with
    | zero => exact congrArg (· :: pods.map f) (hf pod)
    | succ idx => rw [modify_succ_cons, map_cons, map_cons, ih]

theorem mem_touch (h : pod ∈ pods.modify idx fun pod => { pod with lastActivity := now }) :
    ∃ p ∈ pods, p.podData = pod.podData ∧ p.waitlist = pod.waitlist ∧ p.counter = pod.counter := by
  have hmem := mem_map_of_mem (f := fun p => (p.podData, p.waitlist, p.counter)) h
  rw [map_touch pods idx now fun _ => rfl] at hmem
  simpa using hmem

theorem set_eq (hget : pods[idx]? = some pod) (pod' : FunctionPodInfo ι) :
    ∃ l r, pods = l ++ pod :: r ∧ pods.set idx pod' = l ++ pod' :: r := by
  obtain ⟨hidx, hget⟩ := List.getElem?_eq_some_iff.mp hget
  obtain ⟨l, r, hpods, _, hset⟩ : ∃ l r, pods = l ++ pods[idx] :: r ∧ l.length = idx ∧
      pods.set idx pod' = l ++ pod' :: r := List.exists_of_set hidx
  rw [hget] at hpods
  exact ⟨l, r, hpods, hset⟩

variable {w w₁ : World ι} {image : Str}

/-- The world without the message for the pod with the number. -/
def arrived (w : World ι) (image : Str) (postFix : Nat) : World ι :=
  { w with creating := update w.creating image ((w.creating image).erase postFix) }

theorem leastLoad_eq_min? : leastLoad load pods = (pods.map fun pod => load pod.counter).min? := by
  cases pods with
  | nil => rfl
  | cons pod pods =>
    have hmin : (fun (least : Int) (p : FunctionPodInfo ι) =>
        if load p.counter < least then load p.counter else least) =
        fun least p => min least (load p.counter) := by
      funext least p
      rw [min_def]
      split <;> split <;> omega
    rw [leastLoad, hmin, map_cons, min?_cons', foldl_map]

theorem leastLoad_eq_some : leastLoad load pods = some least ↔
    (∃ pod ∈ pods, load pod.counter = least) ∧ ∀ pod ∈ pods, least ≤ load pod.counter := by
  simp [leastLoad_eq_min?, min?_eq_some_iff]

/-- The numbers below `n` with a property, in the order in which they come up from `start` on. -/
def inTurn (n : Nat) (p : Nat → Bool) (start : Nat) : List Nat :=
  ((List.range n).rotate start).filter p

/-- The pod has this load. -/
def hasLoad (load : Nat → Int) (pods : List (FunctionPodInfo ι)) (least : Int) (idx : Nat) : Bool :=
  pods[idx]?.any fun pod => load pod.counter = least

theorem roundRobin_eq_head? (fn : FunctionInfo ι) : roundRobin load fn least =
    (inTurn fn.pods.length (hasLoad load fn.pods least) fn.roundRobinIdx).head? := by
  have hturns : (range fn.pods.length).map (fun k => (fn.roundRobinIdx + k) % fn.pods.length) =
      (range fn.pods.length).rotate fn.roundRobinIdx := by
    refine ext_getElem (by simp) fun k h₁ h₂ => ?_
    simp [getElem_rotate, Nat.add_comm]
  rw [roundRobin, hturns, inTurn, head?_filter]
  rfl

theorem mem_inTurn {start : Nat} : idx ∈ inTurn pods.length (hasLoad load pods least) start ↔
    ∃ pod, pods[idx]? = some pod ∧ load pod.counter = least := by
  simp only [inTurn, List.mem_filter, List.mem_rotate, List.mem_range, hasLoad, Option.any_eq_true,
    decide_eq_true_eq, and_iff_right_iff_imp]
  rintro ⟨pod, hget, -⟩
  exact (List.getElem?_eq_some_iff.mp hget).1

theorem roundRobin_lt (h : roundRobin load fn least = some idx) : idx < fn.pods.length := by
  rw [roundRobin_eq_head?] at h
  obtain ⟨pod, hget, -⟩ := mem_inTurn.mp (List.mem_of_mem_head? h)
  exact (List.getElem?_eq_some_iff.mp hget).1

theorem roundRobin_isSome
    (h : ∃ pod ∈ fn.pods, load pod.counter = least) : (roundRobin load fn least).isSome := by
  obtain ⟨pod, hpod, hload⟩ := h
  obtain ⟨idx, hget⟩ := mem_iff_getElem?.mp hpod
  rw [roundRobin_eq_head?, isSome_head?]
  exact ne_nil_of_mem (mem_inTurn.mpr ⟨pod, hget, hload⟩)

theorem functions_setFunction (hfn : fn.pods = (w.functions image).pods)
    (img : Str) : ((w.setFunction image fn).functions img).pods = (w.functions img).pods := by
  unfold setFunction
  simp only [update_apply]
  split
  · rename_i heq
    rw [hfn, heq]
  · rfl

theorem pods_setFunction (fn : FunctionInfo ι) :
    ((w.setFunction image fn).functions image).pods = fn.pods := by
  simp only [setFunction, update_self]

/-- Calls finish between the loops of `findBestPod`. -/
def Raced (races : List (Race ι)) : Prop := ∃ race ∈ races, race.between ≠ []

theorem raced_head {races : List (Race ι)} (h : (races.headD {}).between ≠ []) : Raced races := by
  cases races with
  | nil => exact absurd rfl h
  | cons race races => exact ⟨race, mem_cons_self, h⟩

theorem raced_tail {races : List (Race ι)} (h : Raced races.tail) : Raced races := by
  obtain ⟨race, hrace, hne⟩ := h
  exact ⟨race, mem_of_mem_tail hrace, hne⟩

/-- The pods of an image, none for one that is being started, and the numbers for which a
    message is to come. -/
def pool (w : World ι) (image : Str) : List (Option PodData) × List Nat :=
  ((w.functions image).pods.map (·.podData), w.creating image)

theorem pool_setPods (pods : List (FunctionPodInfo ι)) :
    (w.setPods image pods).pool = update w.pool image (pods.map (·.podData), w.creating image) := by
  funext img
  by_cases heq : img = image <;> simp [pool, setPods, setFunction, heq]

theorem pool_creating (creating : List Nat) :
    ({ w with creating := update w.creating image creating } : World ι).pool =
      update w.pool image ((w.pool image).1, creating) := by
  funext img
  by_cases heq : img = image <;> simp [pool, heq]

theorem pool_touch (idx : Nat) (now : Int) :
    (w.setPods image ((w.functions image).pods.modify idx fun pod =>
      { pod with lastActivity := now })).pool = w.pool := by
  rw [pool_setPods, map_touch _ _ _ fun _ => rfl]
  exact update_eq_self _ _

theorem pool_congr (hpods : ∀ img, (w₁.functions img).pods = (w.functions img).pods)
    (hcreating : w₁.creating = w.creating) : w₁.pool = w.pool := by
  funext img
  unfold pool
  rw [hpods, hcreating]

/-- A message comes, and the pods of its image are replaced. -/
theorem pool_arrived (postFix : Nat) (pods : List (FunctionPodInfo ι)) :
    ((w.arrived image postFix).setPods image pods).pool =
      update w.pool image (pods.map (·.podData), (w.creating image).erase postFix) := by
  unfold arrived
  simp only [pool_setPods, pool_creating, update_idem, update_self]

theorem pool_of_pods (hpods : (w.functions image).pods = before ++ pod :: after) : w.pool image =
      (before.map (·.podData) ++ pod.podData :: after.map (·.podData), w.creating image) := by
  rw [pool, hpods, map_append, map_cons]

theorem count_pending (pods : List (FunctionPodInfo ι)) :
    (pods.map (·.podData)).count none = (pending pods).length := by
  unfold pending
  rw [count_eq_countP, countP_map, countP_eq_length_filter]
  refine congrArg length (filter_congr ?_)
  intro pod _
  cases hpod : pod.podData <;> simp [hpod]

/-! Moves -/

variable [DecidableEq ι]

/-- What the manager does to the pool of an image and the requests in hand; it may lose a
    request only if `races`. -/
inductive Move (races : Prop) (image : Str) :
    World ι × List (Channel ι) → World ι × List (Channel ι) → Prop
  | take {w : World ι} {ch requests} (hreq : w.requests = ch :: requests) (himage : ch.image = image) :
    Move races image (w, []) ({ w with requests := requests, received := ch :: w.received }, [ch])
  | finish {w w₁ : World ι} {hand} (i : ι) (o : Outcome) (hgo : w.finish i o = some w₁) :
    Move races image (w, hand) (w₁, hand)
  | turn {w : World ι} {hand} (n : Nat) :
    Move races image (w, hand)
      (w.setFunction image { w.functions image with roundRobinIdx := n }, hand)
  | touch {w : World ι} {hand} (idx : Nat) (now : Int) :
    Move races image (w, hand)
      (w.setPods image ((w.functions image).pods.modify idx fun pod =>
        { pod with lastActivity := now }), hand)
  | assign {w : World ι} {ch hand} (idx : Nat) (hidx : idx < (w.functions image).pods.length) :
    Move races image (w, ch :: hand) (w.assign image idx ch, hand)
  | start {w : World ι} {hand} (first : Option (Channel ι)) (now : Int) (postFix : Nat) :
    Move races image (w, first.toList ++ hand) (w.startPod image first now postFix, hand)
  | startLost {w : World ι} {hand} (postFix : Nat) :
    Move races image (w, hand) ({ w with
      creating := update w.creating image (w.creating image ++ [postFix]) }, hand)
  | remove {w : World ι} {hand pods} (hpods : Removed (w.functions image).pods pods) :
    Move races image (w, hand) (w.setPods image pods, hand)
  | forget {w : World ι} {hand} (hpods : (w.functions image).pods = []) :
    Move races image (w, hand) (w.setFunction image {}, hand)
  | ignore {w : World ι} {hand} (postFix : Nat) (hpostFix : postFix ∈ w.creating image)
      (hpods : image ≠ [] → ∀ pod ∈ (w.functions image).pods, pod.podData ≠ none) :
    Move races image (w, hand) (w.arrived image postFix, hand)
  | fail {w : World ι} {before pod after} (postFix : Nat) (hpostFix : postFix ∈ w.creating image)
      (hpods : (w.functions image).pods = before ++ pod :: after) (hpod : pod.podData = none) :
    Move races image (w, []) (release pod.waitlist
      ((w.arrived image postFix).setPods image (before ++ after)), pod.waitlist)
  | ready {w : World ι} {before pod after} (postFix : Nat) (hpostFix : postFix ∈ w.creating image)
      (podKey : Str) (now : Int) (hpods : (w.functions image).pods = before ++ pod :: after)
      (hpod : pod.podData = none) :
    Move races image (w, [])
      ((w.arrived image postFix).podReady image ⟨podKey, postFix⟩ now before pod after, [])
  | refuse {w : World ι} {ch hand} : Move races image (w, ch :: hand) (w.respond ch .error, hand)
  | lose {w : World ι} {ch hand} (hraces : races) : Move races image (w, ch :: hand) (w, hand)
  | evicted {w : World ι} {hand evict evictions} (hev : w.evictions = evict :: evictions) :
    Move races image (w, hand)
      ({ w with evictions := evictions, closed := evict.channel :: w.closed }, hand)

abbrev Moves (races : Prop) (image : Str) :
    World ι × List (Channel ι) → World ι × List (Channel ι) → Prop :=
  Relation.ReflTransGen (Move races image)

theorem Moves.invariant {races : Prop} {image : Str} {P : World ι → List (Channel ι) → Prop}
    {w w₁ : World ι} {hand hand₁ : List (Channel ι)}
    (hmove : ∀ s s₁, Move races image s s₁ → P s.1 s.2 → P s₁.1 s₁.2)
    (h : Moves races image (w, hand) (w₁, hand₁)) (hP : P w hand) : P w₁ hand₁ := by
  suffices hall : ∀ s, Moves races image (w, hand) s → P s.1 s.2 from hall _ h
  intro s hs
  induction hs with
  | refl => exact hP
  | tail _ hlast ih => exact hmove _ _ hlast ih

theorem respondAll_eq (chs : List (Channel ι)) (r : Response) (w : World ι) :
    respondAll chs r w = { w with responses := (respondAll chs r w).responses } := by
  induction chs generalizing w with
  | nil => rfl
  | cons ch chs ih => exact ih (w.respond ch r)

theorem release_eq (chs : List (Channel ι)) (w : World ι) :
    release chs w = { w with assigned := (release chs w).assigned } := by
  induction chs generalizing w with
  | nil => rfl
  | cons ch chs ih => exact ih (w.assignTo ch none)

/-! The best pod -/

variable {hand : List (Channel ι)} {races : Prop}

theorem finish_spec {i : ι} {o : Outcome} (h : w.finish i o = some w₁) :
    ∃ ch podKey counter, w.phase i = .evaluating ch podKey counter ∧
      w₁ = (w.add ch.image counter (-1)).goto i (o.next ch podKey) := by
  unfold finish at h
  split at h
  · rename_i ch podKey counter hph
    cases h
    exact ⟨ch, podKey, counter, hph, rfl⟩
  · cases h

theorem finishAll_cons {o : ι × Outcome} (h : finishAll (o :: os) w = some w₁) :
    ∃ w', w.finish o.1 o.2 = some w' ∧ finishAll os w' = some w₁ := by
  rw [finishAll, foldlM_cons] at h
  exact Option.bind_eq_some_iff.mp h

theorem finishAll_pools (h : finishAll os w = some w₁) :
    w₁.functions = w.functions ∧ w₁.creating = w.creating := by
  induction os generalizing w with
  | nil =>
    cases h
    exact ⟨rfl, rfl⟩
  | cons o os ih =>
    obtain ⟨w', hw', hrest⟩ := finishAll_cons h
    have hsame := ih hrest
    obtain ⟨ch, podKey, counter, _, rfl⟩ := finish_spec hw'
    exact hsame

theorem finishAll_moves (h : finishAll os w = some w₁) :
    Moves races image (w, hand) (w₁, hand) := by
  induction os generalizing w with
  | nil =>
    cases h
    exact .refl
  | cons o os ih =>
    obtain ⟨w', hw', hrest⟩ := finishAll_cons h
    exact .head (.finish o.1 o.2 hw') (ih hrest)

theorem findBestPod_moves {best : Option (Nat × Int)}
    (h : w.findBestPod image between = some (w₁, best)) :
    (∀ (races : Prop) (hand : List (Channel ι)), Moves races image (w, hand) (w₁, hand)) ∧
      (∀ img, (w₁.functions img).pods = (w.functions img).pods) ∧ w₁.creating = w.creating ∧
      (∀ idx load, best = some (idx, load) → idx < (w₁.functions image).pods.length) ∧
      (between = [] → (w.functions image).pods ≠ [] → best ≠ none) := by
  unfold findBestPod at h
  split at h
  · rename_i hnone
    cases h
    refine ⟨fun _ _ => .refl, fun _ => rfl, rfl, nofun, ?_⟩
    intro _ hne
    cases hpods : (w.functions image).pods with
    | nil => exact absurd hpods hne
    | cons pod pods =>
      rw [hpods] at hnone
      cases hnone
  · rename_i least hleast
    obtain ⟨w', hw', h⟩ := Option.bind_eq_some_iff.mp h
    have hmoves : ∀ (races : Prop) (hand : List (Channel ι)), Moves races image (w, hand) (w', hand) :=
      fun _ _ => finishAll_moves hw'
    obtain ⟨hfun, hcreating⟩ := finishAll_pools hw'
    dsimp only at h
    split at h
    · rename_i hrr
      cases h
      refine ⟨hmoves, fun _ => by rw [hfun], hcreating, nofun, ?_⟩
      intro hbetween _ _
      subst hbetween
      cases hw'
      have hsome := roundRobin_isSome (leastLoad_eq_some.mp hleast).1
      rw [hrr] at hsome
      cases hsome
    · rename_i idx hrr
      cases h
      refine ⟨fun races hand => (hmoves races hand).tail (.turn _), ?_, hcreating, ?_, nofun⟩
      · intro img
        rw [← hfun]
        exact functions_setFunction (by rfl) img
      · intro idx' load' hbest
        cases hbest
        rw [pods_setFunction]
        have hlt : idx < (w'.functions image).pods.length := roundRobin_lt hrr
        exact hlt

/-! Messages -/

theorem pods_assign (idx : Nat) (ch : Channel ι) :
    ((w.assign image idx ch).functions image).pods.length = (w.functions image).pods.length := by
  unfold assign
  split
  · rfl
  · dsimp only
    split
    · rfl
    · unfold setPods
      rw [pods_setFunction]
      exact length_set

theorem lose_moves (hraces : races) (chs : List (Channel ι)) :
    Moves races image (w, chs) (w, []) := by
  induction chs with
  | nil => exact .refl
  | cons ch chs ih => exact .head (.lose hraces) ih

theorem respondAll_moves (chs : List (Channel ι)) :
    Moves races image (w, chs) (respondAll chs .error w, []) := by
  induction chs generalizing w with
  | nil => exact .refl
  | cons ch chs ih => exact .head .refuse ih

/-- One turn of the loop of `redistributeLoad`. -/
theorem redistribute_cons {races : List (Race ι)} {ch : Channel ι}
    (h : redistribute image (ch :: chs) races w = some (w₁, redistributed)) :
    ∃ (w' : World ι) (best : Option (Nat × Int)) (more : Bool),
      (∀ (r : Prop) (hand : List (Channel ι)), Moves r image (w, hand) (w', hand)) ∧
      (∀ img, (w'.functions img).pods = (w.functions img).pods) ∧ w'.creating = w.creating ∧
      (∀ idx load, best = some (idx, load) → idx < (w'.functions image).pods.length) ∧
      (best = none → (w.functions image).pods = [] ∨ Raced races) ∧
      redistribute image chs races.tail
        (match best with
        | some (idx, _) => w'.assign image idx ch
        | none => w') = some (w₁, more) ∧
      redistributed = (best.isSome || more) := by
  unfold redistribute at h
  obtain ⟨w₀, hbefore, h⟩ := Option.bind_eq_some_iff.mp h
  obtain ⟨⟨w', best⟩, hbest, h⟩ := Option.bind_eq_some_iff.mp h
  obtain ⟨⟨w₂, more⟩, hrest, h⟩ := Option.bind_eq_some_iff.mp h
  cases h
  obtain ⟨hfun, hsame⟩ := finishAll_pools hbefore
  obtain ⟨hmoves, hpods, hcreating, hidx, hnone⟩ := findBestPod_moves hbest
  refine ⟨w', best, more, fun r hand => (finishAll_moves hbefore).trans (hmoves r hand), ?_,
    hcreating.trans hsame, hidx, ?_, hrest, rfl⟩
  · intro img
    rw [hpods, hfun]
  · intro hn
    by_contra hcon
    rw [not_or] at hcon
    refine hnone ?_ (by rw [hfun]; exact hcon.1) hn
    by_contra hbetween
    exact hcon.2 (raced_head hbetween)

/-- Without races the requests are all given to pods, or there is no pod. -/
theorem redistribute_moves
    (h : redistribute image chs rs w = some (w₁, redistributed)) (hraces : Raced rs → races) :
    match redistributed with
    | true => Moves races image (w, chs) (w₁, []) ∧ (w.functions image).pods ≠ []
    | false => (∀ hand, Moves races image (w, hand) (w₁, hand)) ∧
        (chs = [] ∨ (w.functions image).pods = [] ∨ races) := by
  induction chs generalizing w rs redistributed with
  | nil =>
    cases h
    exact ⟨fun _ => .refl, .inl rfl⟩
  | cons ch chs ih =>
    obtain ⟨w', best, more, hmoves, hpods, _, hidx, hnone, hrest, hred⟩ := redistribute_cons h
    have ih := ih hrest fun hr => hraces (raced_tail hr)
    cases best with
    | some best =>
      obtain ⟨idx, load⟩ := best
      have hlt := hidx idx load rfl
      have hassign : Moves races image (w, ch :: chs) (w'.assign image idx ch, chs) :=
        (hmoves _ _).tail (.assign idx hlt)
      have hne : (w.functions image).pods ≠ [] := by
        rw [← hpods]
        exact ne_nil_of_length_pos (Nat.zero_lt_of_lt hlt)
      subst hred
      refine ⟨hassign.trans ?_, hne⟩
      cases more with
      | true => exact ih.1
      | false =>
        obtain ⟨hkeep, hwhy⟩ := ih
        refine (hkeep chs).trans ?_
        obtain rfl | hempty | hraced := hwhy
        · exact .refl
        · -- the pod that was found is still there
          rw [← length_eq_zero_iff, pods_assign] at hempty
          omega
        · exact lose_moves hraced chs
    | none =>
      have hred : redistributed = more := hred
      subst hred
      cases redistributed with
      | true =>
        obtain ⟨hrec, hne⟩ := ih
        rw [hpods] at hne
        have hraced := hraces ((hnone rfl).resolve_left hne)
        exact ⟨((hmoves _ _).tail (.lose hraced)).trans hrec, hne⟩
      | false => exact ⟨fun hand => (hmoves _ _).trans (ih.1 hand), .inr ((hnone rfl).imp_right hraces)⟩

theorem removeUnhealthyPods_move (health : Str → Health) (idle : Option (FunctionPodInfo ι → Bool)) :
    Move races image (w, hand) (w.removeUnhealthyPods image health idle, hand) := by
  refine .remove (removed_filter _ ?_)
  intro pod hpod
  unfold keeps
  rw [hpod]

theorem podFailed_moves (hpostFix : postFix ∈ w.creating image)
    (hpods : (w.functions image).pods = before ++ pod :: after) (hpod : pod.podData = none)
    (h : (w.arrived image postFix).podFailed image health rs before pod after = some w₁)
    (hraces : Raced rs → races) : Moves races image (w, []) (w₁, []) := by
  have hfail : Move races image (w, []) (release pod.waitlist
      ((w.arrived image postFix).setPods image (before ++ after)), pod.waitlist) :=
    .fail postFix hpostFix hpods hpod
  refine .head hfail ?_
  unfold podFailed at h
  dsimp only at h
  split at h
  · cases h
    exact respondAll_moves _
  · obtain ⟨⟨w', redistributed⟩, hred, h⟩ := Option.bind_eq_some_iff.mp h
    cases h
    refine .head (removeUnhealthyPods_move health none) ?_
    have hmoves := redistribute_moves hred hraces
    cases redistributed with
    | true => exact hmoves.1
    | false => exact (hmoves.1 _).trans (respondAll_moves _)

theorem handleReady_moves {podKey : Option Str} (h : w.handleReady image postFix podKey now health rs = some w₁)
    (hraces : Raced rs → races) : Moves races image (w, []) (w₁, []) := by
  unfold handleReady at h
  split at h
  · cases h
  · rename_i hmem
    have hmem := Decidable.not_not.mp hmem
    dsimp only at h
    split at h
    · rename_i himage
      cases h
      exact .single (.ignore postFix hmem fun hne => absurd himage hne)
    · split at h
      · rename_i hnone
        cases h
        exact .single (.ignore postFix hmem fun _ => firstPending_none hnone)
      · rename_i before pod after hpend
        obtain ⟨hpods, hpod⟩ := firstPending_spec hpend
        split at h
        · exact podFailed_moves hmem hpods hpod h hraces
        · rename_i podKey
          cases h
          exact .single (.ready postFix hmem podKey now hpods hpod)

theorem handleRequest_moves {executor : Option PodExecutor} (h : w.handleRequest pe now executor between = some w₁) :
    ∃ image, Moves races image (w, []) (w₁, []) := by
  unfold handleRequest at h
  split at h
  · cases h
  · rename_i ch requests hreq
    obtain ⟨⟨w', best⟩, hbest, h⟩ := Option.bind_eq_some_iff.mp h
    obtain ⟨hmoves, _, _, hidx, _⟩ := findBestPod_moves hbest
    refine ⟨ch.image, .head (.take hreq rfl) ((hmoves _ _).trans ?_)⟩
    have hstart : ∀ n, Moves races ch.image (w', [ch]) (w'.startPod ch.image (some ch) now n, []) :=
      fun n => .single (.start (some ch) now n)
    cases best with
    | none =>
      cases h
      exact hstart _
    | some best =>
      obtain ⟨idx, load⟩ := best
      dsimp only at h
      split at h
      · cases h
        exact hstart _
      · cases h
        refine .head (.touch idx now) (.single (.assign idx ?_))
        unfold setPods
        rw [pods_setFunction, length_modify]
        exact hidx idx load rfl

theorem handleEviction_moves {verdict : Verdict} (h : w.handleEviction verdict = some w₁) :
    ∃ image, Moves races image (w, []) (w₁, []) := by
  unfold handleEviction at h
  split at h
  · cases h
  · rename_i evict evictions hev
    refine ⟨evict.channel.image, .head (.evicted hev) ?_⟩
    have hrem : ∀ w' : World ι, Moves races evict.channel.image (w', [])
        (w'.setPods evict.channel.image ((w'.functions evict.channel.image).pods.eraseP fun pod =>
          pod.podData.any fun d => d.podKey = evict.podKey), []) := by
      intro w'
      refine .single (.remove (removed_eraseP _ ?_))
      intro pod hpod
      rw [hpod]
      rfl
    cases verdict with
    | apiError | running =>
      cases h
      exact .refl
    | notFound | dead =>
      cases h
      exact hrem _

theorem collect_moves (pe : PodEvaluatorOptions) (now : Int) (executor : Option PodExecutor)
    (health : Str → Health) : Moves races image (w, []) (w.collect pe image now executor health, []) := by
  unfold collect
  dsimp only
  refine .head (removeUnhealthyPods_move health
    (some fun pod => (getParamsForImage pe executor).ttl < now - pod.lastActivity)) ?_
  split
  · rename_i hempty
    exact .single (.forget hempty)
  · exact .refl

/-! Steps -/

inductive Call (pe : PodEvaluatorOptions) : Event ι → World ι → World ι → Prop
  | start {w : World ι} (i : ι) (image : Str) (hph : w.phase i = .idle) :
    Call pe (.start i image) w (w.goto i (.request ⟨image, i, 0⟩))
  | send {w : World ι} (i : ι) {ch} (hph : w.phase i = .request ch) :
    Call pe (.send i) w (({ w with requests := w.requests ++ [ch] } : World ι).goto i (.waiting ch))
  | receive {w : World ι} (i : ι) {ch podKey counter rest} (hph : w.phase i = .waiting ch)
      (hresp : w.responses ch = .pod podKey counter :: rest) :
    Call pe (.receive i) w (w.goto i (.evaluating ch podKey counter))
  | refused {w : World ι} (i : ι) {ch rest} (hph : w.phase i = .waiting ch)
      (hresp : w.responses ch = .error :: rest) :
    Call pe (.receive i) w (w.goto i (.returned false))
  | cancel {w : World ι} (i : ι) {ch} (hph : w.phase i = .waiting ch) :
    Call pe (.cancel i) w (w.goto i (.returned false))
  /-- The context ends, or there are no more retries. -/
  | giveUp {w : World ι} {ev : Event ι} (i : ι) {ch}
      (hph : w.phase i = .evicting ch ∨ ∃ podKey, w.phase i = .evict ch podKey) :
    Call pe ev w (w.goto i (.returned false))
  | sendEviction {w : World ι} (i : ι) {ch podKey} (hph : w.phase i = .evict ch podKey) :
    Call pe (.sendEviction i) w
      (({ w with evictions := w.evictions ++ [⟨ch, podKey⟩] } : World ι).goto i (.evicting ch))
  | retry {w : World ι} (i : ι) {ch} (hph : w.phase i = .evicting ch) :
    Call pe (.evicted i) w (w.goto i (.request { ch with attempt := ch.attempt + 1 }))

/-- The event has calls that finish between the loops of `findBestPod` while requests are
    redistributed. -/
def Races : Event ι → Prop
  | .handleReady _ _ _ _ _ races => Raced races
  | _ => False

/-- **What a step can do.** A call goes on, or the manager makes its moves at one image. -/
theorem step_cases (h : w.step pe ev = some w₁) :
    Call pe ev w w₁ ∨ ∃ image, Moves (Races ev) image (w, []) (w₁, []) := by
  cases ev with
  | start i _ | send i | sendEviction i =>
    have h : w.call pe _ (w.phase i) = some w₁ := h
    cases hph : w.phase i <;> rw [hph] at h <;> cases h
    exact .inl (by constructor; exact hph)
  | receive i =>
    have h : w.call pe (.receive i) (w.phase i) = some w₁ := h
    cases hph : w.phase i with
    | waiting ch =>
      rw [hph] at h
      dsimp only [call] at h
      split at h
      · cases h
      · rename_i hresp
        cases h
        exact .inl (.refused i hph hresp)
      · rename_i hresp
        cases h
        exact .inl (.receive i hph hresp)
    | _ =>
      rw [hph] at h
      cases h
  | cancel i =>
    have h : w.call pe (.cancel i) (w.phase i) = some w₁ := h
    cases hph : w.phase i <;> rw [hph] at h <;> cases h
    · exact .inl (.cancel i hph)
    · exact .inl (.giveUp i (.inr ⟨_, hph⟩))
    · exact .inl (.giveUp i (.inl hph))
  | finish i o => exact .inr ⟨[], .single (.finish i o h)⟩
  | evicted i =>
    have h : w.call pe (.evicted i) (w.phase i) = some w₁ := h
    cases hph : w.phase i with
    | evicting ch =>
      rw [hph] at h
      dsimp only [call] at h
      split at h
      · cases h
      · split at h
        · cases h
          exact .inl (.giveUp i (.inl hph))
        · cases h
          exact .inl (.retry i hph)
    | _ =>
      rw [hph] at h
      cases h
  | handleRequest now executor between => exact .inr (handleRequest_moves h)
  | handleReady image postFix podKey now health races => exact .inr ⟨image, handleReady_moves h id⟩
  | handleEviction verdict => exact .inr (handleEviction_moves h)
  | collect image now executor health =>
    cases h
    exact .inr ⟨image, collect_moves pe now executor health⟩
  | retrieve image _ now | warm image now =>
    obtain ⟨-, heq⟩ := Option.ite_none_right_eq_some.mp h
    cases heq
    exact .inr ⟨image, .single (.start none now _)⟩
  | retrieveDeleted image postFix =>
    cases h
    exact .inr ⟨image, .single (.startLost postFix)⟩

/-! The pool of an image -/

/-- What a move does to the pool of its image. A message is ignored only if no pod is being
    started, or if the image is not `named`. -/
inductive PoolMove (named : Prop) : List (Option PodData) × List Nat →
    List (Option PodData) × List Nat → Prop
  | same (pool) : PoolMove named pool pool
  | start {pods creating} (postFix : Nat) :
    PoolMove named (pods, creating) (pods ++ [none], creating ++ [postFix])
  | startLost {pods creating} (postFix : Nat) :
    PoolMove named (pods, creating) (pods, creating ++ [postFix])
  | remove {pods pods' creating} (hsub : pods'.Sublist pods)
      (hnone : pods'.count none = pods.count none) : PoolMove named (pods, creating) (pods', creating)
  | ignore {pods creating} (postFix : Nat) (hpostFix : postFix ∈ creating)
      (hnone : named → none ∉ pods) : PoolMove named (pods, creating) (pods, creating.erase postFix)
  | fail {before after creating} (postFix : Nat) (hpostFix : postFix ∈ creating) :
    PoolMove named (before ++ none :: after, creating) (before ++ after, creating.erase postFix)
  | ready {before after creating} (postFix : Nat) (hpostFix : postFix ∈ creating) (podKey : Str) :
    PoolMove named (before ++ none :: after, creating)
      (before ++ some ⟨podKey, postFix⟩ :: after, creating.erase postFix)

theorem pool_assign (idx : Nat) (ch : Channel ι) : (w.assign image idx ch).pool = w.pool := by
  unfold assign
  split
  · rfl
  · rename_i pod hget
    dsimp only
    split
    · rfl
    · obtain ⟨l, r, hpods, hset⟩ := set_eq hget { pod with waitlist := pod.waitlist ++ [ch] }
      refine (pool_setPods _).trans (update_eq_self_iff.mpr ?_)
      refine congrArg (·, w.creating image) ?_
      show ((w.functions image).pods.set idx _).map _ = (w.functions image).pods.map _
      rw [hset, hpods, map_append, map_append, map_cons, map_cons]

/-- To give requests to other pods changes no pool. -/
theorem redistribute_pool
    (h : redistribute image chs rs w = some (w₁, redistributed)) : w₁.pool = w.pool := by
  induction chs generalizing w rs redistributed with
  | nil =>
    cases h
    rfl
  | cons ch chs ih =>
    obtain ⟨w', best, more, _, hpods, hcreating, _, _, hrest, _⟩ := redistribute_cons h
    rw [ih hrest, ← pool_congr hpods hcreating]
    cases best with
    | none => rfl
    | some best => exact pool_assign best.1 ch

theorem pool_startPod (first : Option (Channel ι)) (now : Int) (postFix : Nat) :
    (w.startPod image first now postFix).pool =
      update w.pool image ((w.pool image).1 ++ [none], (w.pool image).2 ++ [postFix]) := by
  funext img
  by_cases heq : img = image <;>
    cases first <;> simp [pool, startPod, setPods, setFunction, add, assignTo, heq]

theorem pool_respondAll (chs : List (Channel ι)) (r : Response) :
    (respondAll chs r w).pool = w.pool := by
  rw [respondAll_eq]
  rfl

theorem pool_release (chs : List (Channel ι)) : (release chs w).pool = w.pool := by
  rw [release_eq]
  rfl

theorem Move.pool {s s₁ : World ι × List (Channel ι)} (h : Move races image s s₁) :
    ∃ pool, PoolMove (image ≠ []) (s.1.pool image) pool ∧ s₁.1.pool = update s.1.pool image pool := by
  -- a move that changes no pool
  have same : ∀ {w w₁ : World ι}, w₁.pool = w.pool →
      ∃ pool, PoolMove (image ≠ []) (w.pool image) pool ∧ w₁.pool = update w.pool image pool :=
    fun hpool => ⟨_, .same _, by rw [hpool, update_eq_self]⟩
  cases h with
  | take | refuse | lose | evicted => exact same rfl
  | finish i o hgo =>
    obtain ⟨ch, podKey, counter, _, rfl⟩ := finish_spec hgo
    exact same rfl
  | turn n => exact same (pool_congr (functions_setFunction rfl) rfl)
  | touch idx now => exact same (pool_touch idx now)
  | assign idx hidx => exact same (pool_assign idx _)
  | start first now postFix => exact ⟨_, .start postFix, pool_startPod first now postFix⟩
  | startLost postFix => exact ⟨_, .startLost postFix, pool_creating _⟩
  | remove hpods =>
    refine ⟨_, .remove (hpods.1.map _) ?_, pool_setPods _⟩
    rw [count_pending, count_pending, hpods.2]
  | forget hpods => exact same (pool_congr (functions_setFunction hpods.symm) rfl)
  | ignore postFix hpostFix hpods =>
    refine ⟨_, .ignore postFix hpostFix fun hnamed hmem => ?_, pool_creating _⟩
    obtain ⟨pod, hpod, hnone⟩ := List.mem_map.mp hmem
    exact hpods hnamed pod hpod hnone
  | fail postFix hpostFix hpods hpod =>
    refine ⟨_, ?_, (pool_release _).trans (pool_arrived postFix _)⟩
    rw [pool_of_pods hpods, hpod, map_append]
    exact .fail postFix hpostFix
  | ready postFix hpostFix podKey now hpods hpod =>
    refine ⟨_, ?_, (pool_respondAll _ _).trans (pool_arrived postFix _)⟩
    rw [pool_of_pods hpods, hpod, map_append]
    exact .ready postFix hpostFix podKey

theorem Call.pool (h : Call pe ev w w₁) : w₁.pool = w.pool := by
  cases h <;> rfl

end World

end Porch.PodEval
