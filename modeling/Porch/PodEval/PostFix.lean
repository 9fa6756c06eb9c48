import Mathlib.Data.List.Range
import Porch.PodEval.Delivery

/- The numbers of the pods. A pod is started with the number of the pods that the image then
   has, and `CreatePod` deletes every pod with the label made of the image and the number
   (`podID`). The numbers of an image are different, and no pod of the pool is deleted, in
   every run that removes pods from the end (`postFix_unique`): when a pod goes, every pod
   that stays has a smaller number. After a pod with a smaller number is gone, the next pod
   gets the number of the last one, which is ready, and deletes it (`postFix_reused`).

     CreatePod, the clean-up      CleansUp
     len(fn.pods), Itoa(postFix)  numbers -/
namespace Porch.PodEval

open Go Function Lts List

variable {ι : Type}

/-! Labels -/

/-- What is known of images: `name.ParseReference` and the digest of the image metadata. -/
structure Registry where
  /-- The name of the repository and the identifier of a reference. -/
  parseReference : Str → Option (Str × Str)
  digest : Str → Str

/-- `podID` of the image with its digest. -/
def podID (reg : Registry) (image : Str) (postFix : Nat) : Option Str :=
  (reg.parseReference image).map fun ref =>
    let tag := removeChar '.' ref.2
    let name := replaceChar '_' '-' ((ref.1.splitOn '/').getLastD [])
    name ++ '-' :: (tag ++ '-' :: (Nat.toDigits 10 postFix ++ '-' :: (reg.digest image).take 8))

/-- `CreatePod` of a number of an image deletes the pod of another image, or number. -/
def CleansUp (reg : Registry) (image : Str) (postFix : Nat) (image' : Str) (d : PodData) : Prop :=
  ∃ label, podID reg image postFix = some label ∧ podID reg image' d.postFix = some label

variable {n : Nat} {creating : List Nat}

theorem podID_inj {reg : Registry} {image label : Str} {m : Nat} (hn : podID reg image n = some label)
    (hm : podID reg image m = some label) : n = m := by
  unfold podID at hn hm
  obtain ⟨ref, href, hn⟩ := Option.map_eq_some_iff.mp hn
  obtain ⟨ref', href', hm⟩ := Option.map_eq_some_iff.mp hm
  cases href.symm.trans href'
  have heq := hn.trans hm.symm
  simp only [append_cancel_left_eq, cons.injEq, true_and, append_cancel_right_eq] at heq
  have hdigits := congrArg (fun ds => Nat.ofDigitChars 10 ds 0) heq
  simpa only [Nat.ofDigitChars_ten_toDigits] using hdigits

/-! Pools without gaps -/

/-- The numbers that the pods of a pool were started with. -/
def numbers (pool : List (Option PodData) × List Nat) : List Nat :=
  pool.1.filterMap (·.map (·.postFix)) ++ pool.2

/-- The numbers are those up to the number of the pods. -/
def Gapless (pool : List (Option PodData) × List Nat) : Prop :=
  (numbers pool).Perm (range' 1 pool.1.length)

variable {pool pool' : List (Option PodData) × List Nat}

theorem Gapless.nodup (h : Gapless pool) : (numbers pool).Nodup := h.nodup_iff.mpr nodup_range'

variable {pods before after : List (Option PodData)}

/-- A pod is started with the next number. -/
theorem Gapless.start
    (h : Gapless (pods, creating)) : Gapless (pods ++ [none], creating ++ [pods.length + 1]) := by
  have hnums : numbers (pods ++ [none], creating ++ [pods.length + 1]) =
      numbers (pods, creating) ++ [pods.length + 1] := by
    simp [numbers]
  rw [Gapless, hnums, length_append, length_singleton, range'_1_concat, Nat.add_comm 1]
  exact h.append_right _

/-- The pods with the highest numbers are removed. -/
theorem Gapless.shrink {removed : List Nat} (h : Gapless pool)
    (hperm : (numbers pool).Perm (numbers pool' ++ removed))
    (hlen : pool.1.length = pool'.1.length + removed.length)
    (htop : ∀ n ∈ numbers pool', ∀ r ∈ removed, n < r) : Gapless pool' := by
  have hall := hperm.symm.trans h
  have hlength := hall.length_eq
  rw [length_append, length_range'] at hlength
  obtain ⟨hkept, hrem, -⟩ := nodup_append.mp (hall.nodup_iff.mpr nodup_range')
  have hbound : ∀ n ∈ numbers pool' ++ removed, 1 ≤ n ∧ n < 1 + pool.1.length :=
    fun n hn => mem_range'_1.mp (hall.mem_iff.mp hn)
  refine (hkept.subperm fun n hn => ?_).perm_of_length_le (by rw [length_range']; omega)
  -- the removed numbers are between `n` and the length
  have hsub : removed ⊆ range' (n + 1) (pool.1.length - n) := by
    intro r hr
    have hlt := htop n hn r hr
    have hle := (hbound r (mem_append_right _ hr)).2
    rw [mem_range'_1]
    omega
  have hcount := (hrem.subperm hsub).length_le
  rw [length_range'] at hcount
  have hn := hbound n (mem_append_left _ hn)
  rw [mem_range'_1]
  omega

theorem count_none (pods : List (Option PodData)) :
    (pods.filterMap (·.map (·.postFix))).length + pods.count none = pods.length := by
  induction pods with
  | nil => rfl
  | cons pod pods ih =>
    cases pod with
    | none | some => simp; omega

theorem Gapless.pending (h : Gapless (pods, creating)) (hn : n ∈ creating) : none ∈ pods := by
  have hlen := h.length_eq
  have hcount := count_none pods
  have hpos := length_pos_of_mem hn
  simp only [numbers, length_append, length_range'] at hlen
  apply count_pos_iff.mp
  omega

theorem Gapless.removeOne {pod : Option PodData}
    {creating' : List Nat} (h : Gapless (before ++ pod :: after, creating))
    (hperm : (numbers (before ++ pod :: after, creating)).Perm
      (numbers (before ++ after, creating') ++ [n]))
    (hnewest : ∀ m ∈ numbers (before ++ pod :: after, creating), m ≤ n) :
    Gapless (before ++ after, creating') := by
  refine h.shrink hperm ?_ ?_
  · simp only [length_append, length_cons, length_nil]
    omega
  · intro m hm r hr
    rw [mem_singleton.mp hr]
    have hle := hnewest m (hperm.mem_iff.mpr (mem_append_left _ hm))
    have hne : m ≠ n := by
      have hnodup := hperm.nodup_iff.mp h.nodup
      exact fun heq => (nodup_append.mp hnodup).2.2 m hm n (mem_singleton_self n) heq
    omega

theorem perm_numbers_ready (before after : List (Option PodData)) (d : PodData) (creating : List Nat) :
    (numbers (before ++ some d :: after, creating)).Perm
      (numbers (before ++ after, creating) ++ [d.postFix]) := by
  simp only [numbers, filterMap_append, filterMap_cons, Option.map_some]
  refine Perm.trans ?_ (perm_append_singleton d.postFix _).symm
  simp only [append_assoc, cons_append]
  exact perm_middle

theorem perm_numbers_creating (before after : List (Option PodData)) (hn : n ∈ creating) :
    (numbers (before ++ none :: after, creating)).Perm
      (numbers (before ++ after, creating.erase n) ++ [n]) := by
  simp only [numbers, filterMap_append, filterMap_cons, Option.map_none, append_assoc]
  refine Perm.append_left _ (Perm.append_left _ ?_)
  exact (perm_cons_erase hn).trans (perm_append_singleton n _).symm

theorem Gapless.ready
    (h : Gapless (before ++ none :: after, creating)) (hn : n ∈ creating) (podKey : Str) :
    Gapless (before ++ some ⟨podKey, n⟩ :: after, creating.erase n) := by
  have hsame : (before ++ some ⟨podKey, n⟩ :: after).length = (before ++ none :: after).length := by simp
  rw [Gapless, hsame]
  calc numbers (before ++ some ⟨podKey, n⟩ :: after, creating.erase n)
      |>.Perm (numbers (before ++ after, creating.erase n) ++ [n]) := perm_numbers_ready _ _ _ _
    _ |>.Perm (numbers (before ++ none :: after, creating)) := (perm_numbers_creating _ _ hn).symm
    _ |>.Perm _ := h

/-- The pods that are not kept have larger numbers than the others. -/
theorem Gapless.filter {pods : List (FunctionPodInfo ι)}
    {keep : FunctionPodInfo ι → Bool} (h : Gapless (pods.map (·.podData), creating))
    (hkeep : ∀ pod, pod.podData = none → keep pod = true)
    (htop : ∀ pod ∈ pods, keep pod = false → ∀ d ∈ pod.podData, (∀ n ∈ creating, n < d.postFix) ∧
        ∀ p ∈ pods, keep p = true → ∀ e ∈ p.podData, e.postFix < d.postFix) :
    Gapless ((pods.filter keep).map (·.podData), creating) := by
  let removed := (pods.filter fun pod => !keep pod).map (·.podData)
  have hsplit : (pods.map (·.podData)).Perm ((pods.filter keep).map (·.podData) ++ removed) := by
    rw [← map_append]
    exact ((filter_append_perm keep pods).map _).symm
  have hperm : (numbers (pods.map (·.podData), creating)).Perm
      (numbers ((pods.filter keep).map (·.podData), creating) ++
        removed.filterMap (·.map (·.postFix))) := by
    simp only [numbers, append_assoc]
    refine ((hsplit.filterMap _).append_right creating).trans ?_
    rw [filterMap_append, append_assoc]
    exact Perm.append_left _ perm_append_comm
  refine h.shrink hperm ?_ ?_
  · -- every pod that is removed has a number
    have hnone : removed.count none = 0 := by
      refine count_eq_zero.mpr fun hmem => ?_
      obtain ⟨pod, hpod, hdata⟩ := mem_map.mp hmem
      simp [hkeep pod hdata] at hpod
    have hcount := count_none removed
    have hlength := hsplit.length_eq
    rw [length_append] at hlength
    simp only
    omega
  · intro n hn r hr
    obtain ⟨data, hdata, hnum⟩ := mem_filterMap.mp hr
    obtain ⟨d, rfl, rfl⟩ := Option.map_eq_some_iff.mp hnum
    obtain ⟨pod, hpod, hd⟩ := mem_map.mp hdata
    obtain ⟨hpod, hnot⟩ := mem_filter.mp hpod
    obtain ⟨hcreating, hothers⟩ := htop pod hpod (by simpa using hnot) d hd
    obtain hn | hn := mem_append.mp hn
    · obtain ⟨data', hdata', hnum⟩ := mem_filterMap.mp hn
      obtain ⟨e, rfl, rfl⟩ := Option.map_eq_some_iff.mp hnum
      obtain ⟨p, hp, he⟩ := mem_map.mp hdata'
      obtain ⟨hp, hk⟩ := mem_filter.mp hp
      exact hothers p hp hk e he
    · exact hcreating n hn

/-! Events -/

namespace World

variable {w w₁ : World ι} {image : Str}

/-- No pod of the image has a larger number. -/
def Newest (w : World ι) (image : Str) (n : Nat) : Prop := ∀ m ∈ numbers (w.pool image), m ≤ n

/-- The pods that are not kept have larger numbers than those that stay. -/
def FromTheEnd (w : World ι) (image : Str) (keep : FunctionPodInfo ι → Bool)
    (creating : List Nat) : Prop :=
  ∀ pod ∈ (w.functions image).pods, keep pod = false → ∀ d ∈ pod.podData,
    (∀ n ∈ creating, n < d.postFix) ∧
      ∀ p ∈ (w.functions image).pods, keep p = true → ∀ e ∈ p.podData, e.postFix < d.postFix

/-- The calls are for some images, pods are removed from the end, and the pods of an earlier
    process are found in the order of their numbers. -/
def LastFirst (images : List Str) (pe : PodEvaluatorOptions) (w : World ι) : Event ι → Prop
  | .start _ image | .warm image _ => image ∈ images
  | .handleReady image postFix none _ health _ =>
    image ≠ [] ∧ w.Newest image postFix ∧
      w.FromTheEnd image (keeps (w.counters image) health none) ((w.creating image).erase postFix)
  | .handleReady image _ (some _) _ _ _ => image ≠ []
  | .handleEviction .notFound | .handleEviction .dead =>
    ∀ evict ∈ w.evictions.head?, ∀ pod ∈ (w.functions evict.channel.image).pods,
      ∀ d ∈ pod.podData, d.podKey = evict.podKey → w.Newest evict.channel.image d.postFix
  | .collect image now executor health =>
    w.FromTheEnd image (keeps (w.counters image) health
      (some fun pod => (getParamsForImage pe executor).ttl < now - pod.lastActivity)) (w.creating image)
  | .retrieve image postFix _ => image ∈ images ∧ postFix = (w.functions image).pods.length + 1
  | .retrieveDeleted _ _ => False
  | _ => True

instance (w : World ι) (image : Str) (n : Nat) : Decidable (w.Newest image n) :=
  inferInstanceAs (Decidable (∀ m ∈ numbers (w.pool image), m ≤ n))

instance (w : World ι) (image : Str) (keep : FunctionPodInfo ι → Bool) (creating : List Nat) :
    Decidable (w.FromTheEnd image keep creating) := by
  unfold FromTheEnd
  infer_instance

instance (images : List Str) (pe : PodEvaluatorOptions) (w : World ι) (ev : Event ι) :
    Decidable (w.LastFirst images pe ev) := by
  induction ev using Event.casesOn with
  | handleReady image postFix podKey => cases podKey <;> dsimp only [LastFirst] <;> infer_instance
  | handleEviction state => cases state <;> dsimp only [LastFirst] <;> infer_instance
  | _ => dsimp only [LastFirst]; infer_instance

theorem collect_pool (pe : PodEvaluatorOptions) (now : Int) (executor : Option PodExecutor)
    (health : Str → Health) : (w.collect pe image now executor health).pool = update w.pool image
      (((w.functions image).pods.filter (keeps (w.counters image) health
        (some fun pod => (getParamsForImage pe executor).ttl < now - pod.lastActivity))).map (·.podData),
        w.creating image) := by
  unfold World.collect
  dsimp only
  split
  · rename_i hempty
    rw [pool_congr (functions_setFunction hempty.symm) rfl]
    exact pool_setPods _
  · exact pool_setPods _

/-- A pod of the image has been started with the next number. -/
def StartedNext (w : World ι) (image : Str) (w₁ : World ι) : Prop :=
  w₁.pool = update w.pool image
    ((w.pool image).1 ++ [none], (w.pool image).2 ++ [(w.pool image).1.length + 1])

/-- The pools have no gaps, and the images are those of the calls. -/
structure Numbered (images : List Str) (w : World ι) : Prop where
  gapless : ∀ img, Gapless (w.pool img)
  used : ∀ img, w.pool img ≠ ([], []) → img ∈ images
  named : w.Named (· ∈ images)

variable {images : List Str}

theorem numbered_init : ({} : World ι).Numbered images where
  gapless := fun _ => .refl _
  used := fun _ h => absurd rfl h
  named := named_init

section

variable (h : w.Numbered images)
include h

theorem Numbered.congr (hnamed : w₁.Named (· ∈ images))
    (hpool : w₁.pool = w.pool) : w₁.Numbered images := by
  refine ⟨?_, ?_, hnamed⟩
  · rw [hpool]
    exact h.gapless
  · rw [hpool]
    exact h.used

theorem Numbered.change {pool : List (Option PodData) × List Nat} (hnamed : w₁.Named (· ∈ images))
    (hpool : w₁.pool = update w.pool image pool) (hgapless : Gapless pool)
    (hused : pool ≠ ([], []) → image ∈ images) : w₁.Numbered images := by
  refine ⟨?_, ?_, hnamed⟩
  · rw [hpool, forall_update_iff w.pool fun _ pool => Gapless pool]
    exact ⟨hgapless, fun img _ => h.gapless img⟩
  · rw [hpool, forall_update_iff w.pool fun img pool => pool ≠ ([], []) → img ∈ images]
    exact ⟨hused, fun img _ => h.used img⟩

theorem Numbered.used_of_sublist {pods : List (FunctionPodInfo ι)}
    (hsub : pods.Sublist (w.functions image).pods) :
    (pods.map (·.podData), w.creating image) ≠ ([], []) → image ∈ images := by
  intro hne
  apply h.used image
  intro hempty
  obtain ⟨hpods, hcreating⟩ := Prod.mk.inj hempty
  have hnil : (w.functions image).pods = [] := map_eq_nil_iff.mp hpods
  rw [hnil] at hsub
  apply hne
  rw [sublist_nil.mp hsub, hcreating]
  rfl

/-- The pod of an eviction has the largest number. -/
theorem Numbered.evict {podKey : Str}
    (hnewest : ∀ pod ∈ (w.functions image).pods, ∀ d ∈ pod.podData, d.podKey = podKey →
      w.Newest image d.postFix)
    (hpool : w₁.pool = update w.pool image (((w.functions image).pods.eraseP fun pod =>
      pod.podData.any fun d => d.podKey = podKey).map (·.podData), w.creating image))
    (hnamed : w₁.Named (· ∈ images)) : w₁.Numbered images := by
  refine h.change hnamed hpool ?_ (h.used_of_sublist eraseP_sublist)
  have hgapless := h.gapless image
  obtain hnone | ⟨pod, before, after, _, hmatch, hsplit, herase⟩ :=
    exists_or_eq_self_of_eraseP (fun pod : FunctionPodInfo ι =>
      pod.podData.any fun d => d.podKey = podKey) (w.functions image).pods
  · rw [hnone]
    exact hgapless
  · cases hdata : pod.podData with
    | none =>
      rw [hdata] at hmatch
      cases hmatch
    | some d =>
      have hkey : d.podKey = podKey := by simpa [hdata] using hmatch
      have hmax := hnewest pod (by rw [hsplit]; simp) d hdata hkey
      unfold Newest at hmax
      rw [pool_of_pods hsplit, hdata] at hmax hgapless
      rw [herase, map_append]
      exact hgapless.removeOne (perm_numbers_ready _ _ d _) hmax

end

variable [DecidableEq ι] {pe : PodEvaluatorOptions}

variable {ev : Event ι} {now : Int} {health : Str → Health} {races : List (Race ι)}

theorem call_pool {ph : Phase ι} (h : w.call pe ev ph = some w₁) : w₁.pool = w.pool := by
  unfold World.call at h
  repeat' split at h
  all_goals cases h
  all_goals rfl

/-- A request leaves the pools as they are, or starts a pod with the next number. -/
theorem handleRequest_pool {executor : Option PodExecutor}
    {between : List (ι × Outcome)} (h : w.handleRequest pe now executor between = some w₁) :
    w₁.pool = w.pool ∨ ∃ ch ∈ w.requests, w.StartedNext ch.image w₁ := by
  unfold World.handleRequest at h
  split at h
  · cases h
  · rename_i ch requests hreq
    obtain ⟨⟨w', best⟩, hbest, h⟩ := Option.bind_eq_some_iff.mp h
    obtain ⟨_, hpods, hcreating, _, _⟩ := findBestPod_moves hbest
    have hpool : w'.pool = w.pool := pool_congr hpods hcreating
    have hstart : ∃ c ∈ w.requests, w.StartedNext c.image
        (w'.startPod ch.image (some ch) now ((w'.functions ch.image).pods.length + 1)) := by
      refine ⟨ch, by rw [hreq]; exact mem_cons_self, ?_⟩
      have hlen : (w'.functions ch.image).pods.length = (w'.pool ch.image).1.length :=
        (length_map _).symm
      rw [StartedNext, pool_startPod, hlen, hpool]
    cases best with
    | none =>
      cases h
      exact .inr hstart
    | some best =>
      obtain ⟨idx, load⟩ := best
      dsimp only at h
      split at h
      · cases h
        exact .inr hstart
      · cases h
        exact .inl ((pool_assign idx ch).trans ((pool_touch idx now).trans hpool))

theorem podFailed_pool {before after : List (FunctionPodInfo ι)} {pod : FunctionPodInfo ι}
    (h : w.podFailed image health races before pod after = some w₁) : w₁.pool = update w.pool image
      (((before ++ after).filter (keeps (w.counters image) health none)).map (·.podData),
        w.creating image) := by
  unfold podFailed at h
  dsimp only at h
  split at h
  · rename_i hempty
    cases h
    rw [hempty]
    exact (pool_respondAll _ _).trans ((pool_release _).trans (pool_setPods []))
  · obtain ⟨⟨w', redistributed⟩, hred, h⟩ := Option.bind_eq_some_iff.mp h
    cases h
    have hpods : ((w.setPods image (before ++ after)).functions image).pods = before ++ after :=
      pods_setFunction _
    have hpool := (redistribute_pool hred).trans (pool_setPods _)
    rw [pool_release, pool_setPods, update_idem, release_eq] at hpool
    simp only [hpods] at hpool
    cases redistributed with
    | true => exact hpool
    | false => exact (pool_respondAll _ _).trans hpool

section

variable (h : w.Numbered images)
include h

theorem Numbered.handleReady {postFix : Nat} {podKey : Option Str}
    (hok : w.LastFirst images pe (.handleReady image postFix podKey now health races))
    (hnamed : w₁.Named (· ∈ images))
    (hgo : w.handleReady image postFix podKey now health races = some w₁) : w₁.Numbered images := by
  have himage : image ≠ [] := by
    cases podKey with
    | none => exact hok.1
    | some podKey => exact hok
  unfold World.handleReady at hgo
  split at hgo
  · cases hgo
  · rename_i hmem
    have hmem := Decidable.not_not.mp hmem
    have hgapless := h.gapless image
    have hused : image ∈ images := by
      apply h.used image
      intro hempty
      have hnil : w.creating image = [] := (Prod.mk.inj hempty).2
      rw [hnil] at hmem
      cases hmem
    dsimp only at hgo
    split at hgo
    · -- a pod is pending while a message is to come
      rename_i hnone
      obtain ⟨pod, hpod, hdata⟩ := mem_map.mp (hgapless.pending hmem)
      exact absurd hdata (firstPending_none hnone pod hpod)
    · rename_i before pod after hpend
      obtain ⟨hpods, hpod⟩ := firstPending_spec hpend
      change (w.functions image).pods = before ++ pod :: after at hpods
      have hpool := pool_of_pods hpods
      rw [hpod] at hpool
      rw [hpool] at hgapless
      cases podKey with
      | none =>
        obtain ⟨_, hnewest, htop⟩ := hok
        unfold Newest at hnewest
        rw [hpool] at hnewest
        have hpool' := podFailed_pool hgo
        simp only [pool_creating, update_idem, update_self] at hpool'
        refine h.change hnamed hpool' ?_ (fun _ => hused)
        · have hfail := hgapless.removeOne (perm_numbers_creating _ _ hmem) hnewest
          rw [← map_append] at hfail
          refine hfail.filter (fun p hp => by unfold keeps; rw [hp]) ?_
          have hsub := (without_sublist hpods).subset
          intro p hp hk d hd
          obtain ⟨hcreating, hothers⟩ := htop p (hsub hp) hk d hd
          exact ⟨hcreating, fun q hq => hothers q (hsub hq)⟩
      | some podKey =>
        cases hgo
        refine h.change hnamed ((pool_respondAll _ _).trans (pool_arrived postFix _)) ?_ (fun _ => hused)
        rw [map_append]
        exact hgapless.ready hmem podKey

/-- **A step that removes pods from the end keeps the numbers without gaps.** -/
theorem Numbered.step
    (hok : w.LastFirst images pe ev) (hstep : w.step pe ev = some w₁) : w₁.Numbered images := by
  have hnamed : w₁.Named (· ∈ images) := by
    refine h.named.step ?_ hstep
    intro i image hev
    rw [hev] at hok
    exact hok
  -- a pod is started with the next number
  have hstart : ∀ {image : Str}, image ∈ images → w.StartedNext image w₁ → w₁.Numbered images :=
    fun himage hpool => h.change hnamed hpool (h.gapless _).start fun _ => himage
  cases ev with
  | start | send | receive | cancel => exact h.congr hnamed (call_pool hstep)
  | finish i o =>
    obtain ⟨ch, podKey, counter, _, rfl⟩ := finish_spec hstep
    exact h.congr hnamed rfl
  | sendEviction | evicted => exact h.congr hnamed (call_pool hstep)
  | handleRequest now executor between =>
    obtain hpool | ⟨ch, hch, hpool⟩ := handleRequest_pool hstep
    · exact h.congr hnamed hpool
    · exact hstart (h.named.sent ch (mem_append_left _ hch)).2 hpool
  | handleReady image postFix podKey now health races => exact h.handleReady hok hnamed hstep
  | handleEviction verdict =>
    have hstep : w.handleEviction verdict = some w₁ := hstep
    unfold World.handleEviction at hstep
    split at hstep
    · cases hstep
    · rename_i evict evictions hev
      have hhead : evict ∈ w.evictions.head? := by
        rw [hev]
        rfl
      cases verdict with
      | apiError | running =>
        cases hstep
        exact h.congr hnamed rfl
      | notFound | dead =>
        cases hstep
        exact h.evict (hok evict hhead) (pool_setPods _) hnamed
  | collect image now executor health =>
    cases hstep
    refine h.change hnamed (collect_pool pe now executor health) ?_
      (h.used_of_sublist filter_sublist)
    exact (h.gapless image).filter (fun p hp => by unfold keeps; rw [hp]) hok
  | retrieve image postFix now =>
    obtain ⟨himage, hnext⟩ := hok
    dsimp only [World.step] at hstep
    split at hstep
    · cases hstep
      apply hstart himage
      rw [StartedNext, pool_startPod, hnext]
      simp only [World.pool, length_map]
    · cases hstep
  | retrieveDeleted image postFix => exact hok.elim
  | warm image now =>
    dsimp only [World.step] at hstep
    split at hstep
    · rename_i hempty
      cases hstep
      apply hstart hok
      rw [StartedNext, pool_startPod]
      simp only [World.pool, hempty, map_nil, length_nil]
    · cases hstep

end

/-- The pods of an image were started with different numbers, and no pod that is ready is
    deleted when another one is started. -/
structure Unique (reg : Registry) (w : World ι) : Prop where
  numbers : ∀ image, (numbers (w.pool image)).Nodup
  spared : ∀ image, ∀ n ∈ w.creating image, ∀ image', ∀ pod ∈ (w.functions image').pods,
    ∀ d ∈ pod.podData, ¬CleansUp reg image n image' d

end World

/-- The labels of different images are different. -/
def Labelled (reg : Registry) (images : List Str) : Prop :=
  ∀ image ∈ images, ∀ image' ∈ images, image ≠ image' → ∀ n d, ¬CleansUp reg image n image' d

/-- **In every run that removes pods from the end, the pods of every image have different
    numbers, and no pod of the pool is deleted when another one is started.** -/
theorem postFix_unique [DecidableEq ι] (reg : Registry) {images : List Str}
    (hlabels : Labelled reg images) (pe : PodEvaluatorOptions) {es : List (Event ι)} {w : World ι}
    (hok : Along (World.step pe) (World.LastFirst images pe) {} es)
    (hrun : run (World.step pe) {} es = some w) : w.Unique reg := by
  have hstep : ∀ (w : World ι) ev w₁, w.Numbered images → w.LastFirst images pe ev →
      w.step pe ev = some w₁ → w₁.Numbered images :=
    fun _ _ _ h hok hstep => h.step hok hstep
  have h := run_invariant hstep World.numbered_init hok hrun
  refine ⟨fun image => (h.gapless image).nodup, ?_⟩
  intro image n hn image' pod hpod d hd
  have himage : image ∈ images := by
    apply h.used image
    intro hempty
    rw [show w.creating image = [] from (Prod.mk.inj hempty).2] at hn
    cases hn
  have himage' : image' ∈ images := by
    apply h.used image'
    intro hempty
    rw [map_eq_nil_iff.mp (Prod.mk.inj hempty).1] at hpod
    cases hpod
  by_cases heq : image = image'
  · subst heq
    rintro ⟨label, hlabel, hlabel'⟩
    have hnum := podID_inj hlabel hlabel'
    -- the number of a pod that is ready is not one that is being started
    have hready : d.postFix ∈ (w.pool image).1.filterMap (·.map (·.postFix)) := by
      refine mem_filterMap.mpr ⟨pod.podData, mem_map_of_mem hpod, ?_⟩
      rw [Option.mem_def.mp hd]
      rfl
    exact (nodup_append.mp (h.gapless image).nodup).2.2 d.postFix hready n hn hnum.symm
  · exact hlabels image himage image' himage' heq n d

/-- Every image has the tag v1 and one digest. -/
def oneDigest : Registry where
  parseReference image := some (image, "v1")
  digest _ := "0123456789"

/-- Two pods are ready, with a call each; one of the calls finds its pod dead, and the pod is
    evicted. Then a third call is made. -/
def evictedRun (dead : Nat) : List (Event Nat) :=
  ask 0 ++ [.handleReady "a" 1 (some "p") 0 (fun _ => {}) [], .receive 0] ++
    ask 1 ++ [.handleReady "a" 2 (some "q") 0 (fun _ => {}) [], .receive 1,
      .finish dead .unavailable, .sendEviction dead, .handleEviction .dead] ++ ask 2

theorem postFix_unique_evictedRun : ∃ w, run (World.step twoPods) {} (evictedRun 1) = some w ∧
      w.pool "a" = ([some ⟨"p", 1⟩, none], [2]) ∧ w.Unique oneDigest := by
  have hlabels : Labelled oneDigest ["a"] := by
    intro image himage image' himage' hne
    exact absurd ((mem_singleton.mp himage).trans (mem_singleton.mp himage').symm) hne
  refine exists_reached (by decide +kernel) fun w hw _ => ?_
  exact postFix_unique oneDigest hlabels twoPods (by decide +kernel) hw

/-- **A number is used again while a pod has it**: the first pod is evicted, and the next one
    gets the number of the second, which is ready. Starting it deletes the second pod. -/
theorem postFix_reused :
    (run (World.step twoPods) {} (evictedRun 0)).map (fun w => w.pool "a") =
        some ([some ⟨"q", 2⟩, none], [2]) ∧
      CleansUp oneDigest "a" 2 "a" ⟨"q", 2⟩ := by
  refine ⟨by decide +kernel, "a-v1-2-01234567", ?_, ?_⟩
  · decide +kernel
  · decide +kernel

end Porch.PodEval
