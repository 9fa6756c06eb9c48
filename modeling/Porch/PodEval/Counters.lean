import Porch.Lts.Count
import Porch.PodEval.Delivery

/- The counters of the pods. `concurrentEvaluations` of a pod is raised by the manager when it
   assigns a request to the pod, and lowered by the call when the pod has answered. A
   call that gives up while it waits never lowers the counter that was or will be raised for
   it (`counter_leaked`).

   A call is served by a pod from its assignment until the pod has answered: a call that finds
   the pod unavailable gives it up before it asks for another one. -/
namespace Porch.PodEval

open Go Function Lts List

variable {ι : Type}

/-- The pod that a call is assigned to: its image and its counter. -/
def Phase.serving (assigned : Channel ι → Option Nat) : Phase ι → Option (Str × Nat)
  | waiting ch | evaluating ch .. => (assigned ch).map fun c => (ch.image, c)
  | idle | request _ | evict .. | evicting _ | returned _ => none

namespace World

variable (w : World ι)

/-- The request is on its way to the manager, in its hand or in a waitlist. -/
def Open (hand : List (Channel ι)) (ch : Channel ι) : Prop :=
  ch ∈ w.requests ++ hand ∨ ∃ img, ∃ pod ∈ (w.functions img).pods, ch ∈ pod.waitlist

/-- The pods have counters of their own, and the requests that wait are assigned to them. -/
structure Links (made : Nat) (assigned : Channel ι → Option Nat) (phase : ι → Phase ι)
    (pods : List (FunctionPodInfo ι)) : Prop where
  distinct : (pods.map (·.counter)).Nodup
  made : ∀ pod ∈ pods, pod.counter < made
  waits : ∀ pod ∈ pods, ∀ ch ∈ pod.waitlist,
    assigned ch = some pod.counter ∧ phase ch.caller = .waiting ch

/-- How requests are linked to the counters that they were assigned to. -/
structure Linked (image : Str) (hand : List (Channel ι)) : Prop where
  kept : w.Kept False image hand
  named : w.Named fun _ => True
  pods : ∀ img, Links (w.made img) w.assigned w.phase (w.functions img).pods
  assigned : ∀ ch c, w.assigned ch = some c → c < w.made ch.image
  unassigned : ∀ ch, ch ∉ w.received ∨ ch ∈ hand ∨ .error ∈ w.responses ch → w.assigned ch = none
  answered : ∀ ch podKey c, .pod podKey c ∈ w.responses ch → w.assigned ch = some c
  evaluating : ∀ i ch podKey c, w.phase i = .evaluating ch podKey c → w.assigned ch = some c
  live : ∀ ch ∈ w.requests ++ hand, w.phase ch.caller = .waiting ch

variable {w} {w₁ : World ι} {image : Str} {hand hand' : List (Channel ι)} {ch : Channel ι}

/-! Requests in hand and in waitlists -/

theorem Kept.hand_spec (h : w.Kept False image hand) (hch : ch ∈ hand) :
    ch.image = image ∧ w.responses ch = [] ∧ ch ∈ w.received :=
  h.1.quiet image ch (by simp [unanswered, hch])

variable {pod : FunctionPodInfo ι} {now : Int} {c : Nat} {chs : List (Channel ι)} {i : ι}

theorem Kept.waitlist_spec {img : Str} (h : w.Kept False image hand)
    (hpod : pod ∈ (w.functions img).pods) (hch : ch ∈ pod.waitlist) :
    ch.image = img ∧ w.responses ch = [] ∧ ch ∈ w.received :=
  h.1.quiet img ch (mem_append_right _ (mem_flatMap.mpr ⟨pod, hpod, hch⟩))

/-- What is in hand is there once, and in no waitlist. -/
theorem Kept.hand_nodup (h : w.Kept False image hand) : (hand ++ w.waiting image).Nodup := by
  have hnodup := h.1.nodup image
  rwa [unanswered, if_pos rfl] at hnodup

theorem Kept.hand_only (h : w.Kept False image hand) (hch : ch ∈ hand) :
    ∀ img, ∀ pod ∈ (w.functions img).pods, ch ∉ pod.waitlist := by
  intro img pod hpod hmem
  refine (nodup_append.mp h.hand_nodup).2.2 ch hch ch ?_ rfl
  rw [← (h.hand_spec hch).1, (h.waitlist_spec hpod hmem).1]
  exact mem_flatMap.mpr ⟨pod, hpod, hmem⟩

theorem Linked.open_quiet (h : w.Linked image hand) (hopen : w.Open hand ch) : w.responses ch = [] := by
  obtain hmem | ⟨img, pod, hpod, hmem⟩ := hopen
  · obtain hreq | hhand := mem_append.mp hmem
    · by_contra hne
      exact (nodup_append.mp h.named.fresh).2.2 ch hreq ch (h.kept.1.known ch hne) rfl
    · exact (h.kept.hand_spec hhand).2.1
  · exact (h.kept.waitlist_spec hpod hmem).2.1

theorem Linked.any_image (h : w.Linked image []) (image' : Str) : w.Linked image' [] :=
  { h with kept := h.kept.any_image image' }

/-! Moves -/

variable {pods before after : List (FunctionPodInfo ι)} {idx postFix : Nat} {podKey : Str}
  {fn : FunctionInfo ι} {made : Nat} {assigned : Channel ι → Option Nat} {phase : ι → Phase ι}

/-- The pods of the image change, and with them where the requests wait. -/
theorem Linked.setFunction (h : w.Linked image hand)
    (hkept : (w.setFunction image fn).Kept False image hand)
    (hpods : Links (w.made image) w.assigned w.phase fn.pods) :
    (w.setFunction image fn).Linked image hand :=
  { h with
    kept := hkept
    pods := (forall_update_iff w.functions fun img fn =>
      Links (w.made img) w.assigned w.phase fn.pods).mpr ⟨hpods, fun img _ => h.pods img⟩ }

theorem Linked.lose (h : w.Linked image (ch :: hand)) : w.Linked image hand where
  __ := h
  kept := h.kept.lose
  unassigned c hc := h.unassigned c (hc.imp_right (Or.imp_left (mem_cons_of_mem ch)))
  live c hc := h.live c ((Sublist.refl _).append (sublist_cons_self ch hand) |>.subset hc)

theorem Links.touch (h : Links made assigned phase pods) (idx : Nat) (now : Int) :
    Links made assigned phase (pods.modify idx fun pod => { pod with lastActivity := now }) := by
  refine ⟨by rw [map_touch _ _ _ fun _ => rfl]; exact h.distinct, ?_, ?_⟩
  · intro pod hpod
    obtain ⟨p, hp, _, _, hctr⟩ := mem_touch hpod
    rw [← hctr]
    exact h.made p hp
  · intro pod hpod
    obtain ⟨p, hp, _, hwait, hctr⟩ := mem_touch hpod
    rw [← hwait, ← hctr]
    exact h.waits p hp

theorem Links.sublist (h : Links made assigned phase pods) {pods' : List (FunctionPodInfo ι)}
    (hsub : pods'.Sublist pods) : Links made assigned phase pods' :=
  ⟨h.distinct.sublist (hsub.map _), fun pod hpod => h.made pod (hsub.subset hpod),
    fun pod hpod => h.waits pod (hsub.subset hpod)⟩

/-- Another pod takes the place of a pod with the same counter. -/
theorem Links.replace (h : Links made assigned phase (before ++ pod :: after)) {pod' : FunctionPodInfo ι}
    (hctr : pod'.counter = pod.counter) (hwait : ∀ c ∈ pod'.waitlist, c ∉ pod.waitlist →
      assigned c = some pod.counter ∧ phase c.caller = .waiting c) :
    Links made assigned phase (before ++ pod' :: after) := by
  have hold : pod ∈ before ++ pod :: after := by simp
  have hmem : ∀ p ∈ before ++ pod' :: after, p = pod' ∨ p ∈ before ++ pod :: after := by
    intro p hp
    simp only [mem_append, mem_cons] at hp ⊢
    tauto
  refine ⟨?_, fun p hp => ?_, fun p hp c hc => ?_⟩
  · have hdistinct := h.distinct
    rw [map_append, map_cons] at hdistinct ⊢
    rwa [hctr]
  · obtain rfl | hp := hmem p hp
    · rw [hctr]
      exact h.made pod hold
    · exact h.made p hp
  · obtain rfl | hp := hmem p hp
    · rw [hctr]
      by_cases hin : c ∈ pod.waitlist
      · exact h.waits pod hold c hin
      · exact hwait c hc hin
    · exact h.waits p hp c hc

theorem made_le_succ (w : World ι) (image img : Str) :
    w.made img ≤ update w.made image (w.made image + 1) img := by
  rw [update_apply]
  split
  · rename_i heq
    rw [heq]
    omega
  · exact Nat.le_refl _

theorem Linked.newCounter (h : w.Linked image hand) (creating : Str → List Nat) :
    ({ w with made := update w.made image (w.made image + 1), creating := creating } :
      World ι).Linked image hand := by
  have hle := made_le_succ w image
  refine { h with pods := fun img => ?_, assigned := fun c n hn => ?_ }
  · exact { h.pods img with made := fun pod hpod => ((h.pods img).made pod hpod).trans_le (hle img) }
  · exact (h.assigned c n hn).trans_le (hle c.image)

theorem Linked.addPod (h : w.Linked image hand)
    (hkept : (w.setPods image ((w.functions image).pods ++ [pod])).Kept False image hand)
    (hmade : pod.counter < w.made image)
    (hnew : ∀ p ∈ (w.functions image).pods, p.counter ≠ pod.counter)
    (hwait : ∀ c ∈ pod.waitlist, w.assigned c = some pod.counter ∧ w.phase c.caller = .waiting c) :
    (w.setPods image ((w.functions image).pods ++ [pod])).Linked image hand := by
  have hpods := h.pods image
  refine h.setFunction hkept ⟨?_, ?_, ?_⟩
  · rw [map_append]
    refine nodup_append.mpr ⟨hpods.distinct, nodup_singleton _, ?_⟩
    intro a ha b hb heq
    obtain ⟨p, hp, rfl⟩ := mem_map.mp ha
    rw [mem_singleton.mp hb] at heq
    exact hnew p hp heq
  · intro p hp
    obtain hp | hp := mem_append.mp hp
    · exact hpods.made p hp
    · rw [mem_singleton.mp hp]
      exact hmade
  · intro p hp
    obtain hp | hp := mem_append.mp hp
    · exact hpods.waits p hp
    · rw [mem_singleton.mp hp]
      exact hwait

theorem Kept.loseAll (h : w.Kept False image chs) : w.Kept False image [] := by
  induction chs with
  | nil => exact h
  | cons ch chs ih => exact ih h.lose

theorem counters_add (c : Nat) (n : Int) (img : Str) (c' : Nat) :
    (w.add image c n).counters img c' =
      w.counters img c' + if (image, c) = (img, c') then n else 0 := by
  unfold World.add
  simp only [update_apply, Prod.mk.injEq, eq_comm (a := image), eq_comm (a := c)]
  by_cases himg : img = image
  · subst himg
    by_cases hc : c' = c <;> simp [hc]
  · simp [himg]

section

variable [DecidableEq ι]

theorem mem_respond {r r' : Response} {c : Channel ι} (h : r ∈ (w.respond ch r').responses c) :
    r ∈ w.responses c ∨ c = ch ∧ r = r' := by
  simp only [World.respond, update_apply] at h
  split at h
  · rename_i heq
    subst heq
    simpa using h
  · exact .inl h

/-- What requests in hand are assigned to changes: nothing else is known of them. -/
theorem Linked.reassign {assigned : Channel ι → Option Nat} (h : w.Linked image hand')
    (hkept : w.Kept False image chs) (hkept' : w.Kept False image hand)
    (hlive : ∀ c ∈ chs, w.phase c.caller = .waiting c) (hlive' : ∀ c ∈ w.requests ++ hand, w.phase c.caller = .waiting c)
    (hold : ∀ c, c ∉ chs → assigned c = w.assigned c)
    (hmade : ∀ c ∈ chs, ∀ n, assigned c = some n → n < w.made c.image)
    (hunassigned : ∀ c, c ∉ w.received ∨ c ∈ hand ∨ .error ∈ w.responses c → assigned c = none) :
    ({ w with assigned := assigned } : World ι).Linked image hand := by
  refine ⟨hkept', h.named, fun img => ?_, ?_, hunassigned, ?_, ?_, hlive'⟩
  · refine { h.pods img with waits := fun pod hpod c hc => ?_ }
    obtain ⟨hasg, hwait⟩ := (h.pods img).waits pod hpod c hc
    exact ⟨(hold c fun hmem => hkept.hand_only hmem img pod hpod hc).trans hasg, hwait⟩
  · intro c n hn
    by_cases hmem : c ∈ chs
    · exact hmade c hmem n hn
    · exact h.assigned c n ((hold c hmem).symm.trans hn)
  · intro c podKey n hn
    refine (hold c fun hmem => ?_).trans (h.answered c podKey n hn)
    change _ ∈ w.responses c at hn
    rw [(hkept.hand_spec hmem).2.1] at hn
    cases hn
  · intro i c podKey n hn
    change w.phase i = _ at hn
    refine (hold c fun hmem => ?_).trans (h.evaluating i c podKey n hn)
    have hwaiting := hlive c hmem
    rw [(h.named.own i c (by rw [hn]; rfl)).1, hn] at hwaiting
    cases hwaiting

/-- A request in hand is assigned to a counter. -/
theorem Linked.count (h : w.Linked image (ch :: hand)) (hc : c < w.made image) :
    ((w.add image c 1).assignTo ch (some c)).Linked image hand := by
  obtain ⟨himage, hquiet, hrec⟩ := h.kept.hand_spec mem_cons_self
  have hasg : ∀ c', c' ≠ ch → update w.assigned ch (some c) c' = w.assigned c' :=
    fun c' hne => update_of_ne hne _ _
  have hadd : (w.add image c 1).Linked image (ch :: hand) := { h with }
  refine hadd.reassign hadd.kept hadd.lose.kept (fun c' hc' => hadd.live c' (mem_append_right _ hc'))
    hadd.lose.live (fun c' hc' => hasg c' fun heq => hc' (heq ▸ mem_cons_self)) ?_ ?_
  · intro c' hc' n hn
    by_cases heq : c' = ch
    · subst heq
      rw [update_self] at hn
      cases hn
      rw [himage]
      exact hc
    · exact h.assigned c' n ((hasg c' heq).symm.trans hn)
  · intro c' hc'
    refine (hasg c' ?_).trans (h.lose.unassigned c' hc')
    rintro rfl
    obtain hc' | hc' | hc' := hc'
    · exact hc' hrec
    · exact (nodup_cons.mp h.kept.hand_nodup).1 (mem_append_left _ hc')
    · change Response.error ∈ w.responses c' at hc'
      rw [hquiet] at hc'
      cases hc'

theorem Linked.respond {r : Response} (h : w.Linked image hand)
    (hkept : (w.respond ch r).Kept False image hand) (herror : r = .error → w.assigned ch = none)
    (hpod : ∀ podKey c, r = .pod podKey c → w.assigned ch = some c) :
    (w.respond ch r).Linked image hand := by
  refine { h with kept := hkept, unassigned := ?_, answered := ?_ }
  · rintro c' (hc' | hc' | hc')
    · exact h.unassigned c' (.inl hc')
    · exact h.unassigned c' (.inr (.inl hc'))
    · obtain hc' | ⟨rfl, hr⟩ := mem_respond hc'
      · exact h.unassigned c' (.inr (.inr hc'))
      · exact herror hr.symm
  · intro c' key n hn
    obtain hn | ⟨rfl, hr⟩ := mem_respond hn
    · exact h.answered c' key n hn
    · exact hpod key n hr.symm

theorem Linked.answer (h : w.Linked image hand)
    (hkept : (w.respond ch (.pod podKey c)).Kept False image hand) (hasg : w.assigned ch = some c) :
    (w.respond ch (.pod podKey c)).Linked image hand :=
  h.respond hkept nofun fun _ _ heq => by cases heq; exact hasg

theorem Linked.refuse (h : w.Linked image (ch :: hand)) :
    (w.respond ch .error).Linked image hand :=
  h.lose.respond (h.kept.respond .error)
    (fun _ => h.unassigned ch (.inr (.inl mem_cons_self))) nofun

omit [DecidableEq ι] in
theorem Linked.live_hand (h : w.Linked image (ch :: hand)) : w.phase ch.caller = .waiting ch :=
  h.live ch (mem_append_right _ mem_cons_self)

theorem Linked.assign (h : w.Linked image (ch :: hand))
    (hidx : idx < (w.functions image).pods.length) : (w.assign image idx ch).Linked image hand := by
  have hkept := h.kept.assign hidx
  obtain ⟨pod, hget⟩ : ∃ pod, (w.functions image).pods[idx]? = some pod :=
    ⟨_, getElem?_eq_getElem hidx⟩
  have hcount := h.count ((h.pods image).made pod (mem_of_getElem? hget))
  have hasg : update w.assigned ch (some pod.counter) ch = some pod.counter :=
    update_self _ _ _
  rw [assign_eq hget] at hkept ⊢
  split at hkept
  · exact hcount.answer hkept hasg
  · obtain ⟨l, r, hpods, hset⟩ := set_eq hget { pod with waitlist := pod.waitlist ++ [ch] }
    refine hcount.setFunction hkept ?_
    have hlinks := hcount.pods image
    change Links _ _ _ (w.functions image).pods at hlinks
    rw [hpods] at hlinks
    show Links _ _ _ ((w.functions image).pods.set idx _)
    rw [hset]
    refine hlinks.replace rfl fun c hc hnot => ?_
    rw [mem_singleton.mp ((mem_append.mp hc).resolve_left hnot)]
    exact ⟨hasg, h.live_hand⟩

theorem Linked.startPod {first : Option (Channel ι)} (h : w.Linked image (first.toList ++ hand)) :
    (w.startPod image first now postFix).Linked image hand := by
  have hkept : (w.startPod image first now postFix).Kept False image hand := h.kept.startPod
  let creating := update w.creating image (w.creating image ++ [postFix])
  have hlt : w.made image < update w.made image (w.made image + 1) image := by
    rw [update_self]
    omega
  have hnew : ∀ p ∈ (w.functions image).pods, p.counter ≠ w.made image :=
    fun p hp => Nat.ne_of_lt ((h.pods image).made p hp)
  cases first with
  | none => exact (h.newCounter creating).addPod hkept hlt hnew nofun
  | some ch =>
    refine ((h.newCounter creating).count hlt).addPod hkept hlt hnew ?_
    intro c hc
    rw [mem_singleton.mp hc]
    exact ⟨update_self _ _ _, h.live_hand⟩

theorem release_assigned (chs : List (Channel ι)) (w : World ι) (c : Channel ι) :
    (release chs w).assigned c = if c ∈ chs then none else w.assigned c := by
  induction chs generalizing w with
  | nil => rfl
  | cons ch chs ih =>
    have hrec : (release (ch :: chs) w).assigned c =
        if c ∈ chs then none else update w.assigned ch none c := ih (w.assignTo ch none)
    rw [hrec, update_apply]
    by_cases heq : c = ch <;> by_cases hmem : c ∈ chs <;> simp [heq, hmem]

/-- Requests that have left their waitlist are assigned to no pod. -/
theorem Linked.release (h : w.Linked image []) (hkept : w.Kept False image chs)
    (hlive : ∀ c ∈ chs, w.phase c.caller = .waiting c) : (release chs w).Linked image chs := by
  have hnone : ∀ c ∈ chs, (World.release chs w).assigned c = none := by
    intro c hc
    rw [release_assigned, if_pos hc]
  have hold : ∀ c, c ∉ chs → (World.release chs w).assigned c = w.assigned c := by
    intro c hc
    rw [release_assigned, if_neg hc]
  rw [release_eq]
  refine h.reassign hkept hkept hlive (fun c hc => ?_) hold ?_ ?_
  · exact (mem_append.mp hc).elim (fun hc => h.live c (mem_append_left _ hc)) (hlive c)
  · intro c hc n hn
    rw [hnone c hc] at hn
    cases hn
  · intro c hc
    by_cases hmem : c ∈ chs
    · exact hnone c hmem
    · refine (hold c hmem).trans (h.unassigned c ?_)
      exact hc.imp_right fun hc => .inr (hc.resolve_left hmem)

theorem Linked.answerAll (h : w.Linked image [])
    (hkept : w.Kept False image chs) (hasg : ∀ ch ∈ chs, w.assigned ch = some c) :
    (respondAll chs (.pod podKey c) w).Linked image [] := by
  induction chs generalizing w with
  | nil => exact h
  | cons ch chs ih =>
    have hkept' := hkept.respond (.pod podKey c)
    have hanswer := h.answer hkept'.loseAll (hasg ch mem_cons_self)
    exact ih hanswer hkept' fun c' hc' => hasg c' (mem_cons_of_mem ch hc')

section

variable (h : w.Linked image []) (hpods : (w.functions image).pods = before ++ pod :: after)
include h hpods

omit [DecidableEq ι] in
theorem Linked.links : Links (w.made image) w.assigned w.phase (before ++ pod :: after) := by
  rw [← hpods]
  exact h.pods image

theorem Linked.fail :
    (World.release pod.waitlist ((w.arrived image postFix).setPods image (before ++ after))).Linked
      image pod.waitlist := by
  have harr : (w.arrived image postFix).Linked image [] := { h with }
  have hkept := harr.kept.leave hpods
  refine Linked.release (harr.setFunction hkept.loseAll ?_) hkept ?_
  · exact (h.pods image).sublist (without_sublist hpods)
  · exact fun c hc => ((h.links hpods).waits pod (by simp) c hc).2

theorem Linked.podReady {d : PodData} :
    (w.podReady image d now before pod after).Linked image [] := by
  let ready : FunctionPodInfo ι := { pod with podData := some d, lastActivity := now, waitlist := [] }
  have hkept : (w.setPods image (before ++ ready :: after)).Kept False image pod.waitlist := by
    rw [← append_nil pod.waitlist]
    exact h.kept.serve hpods rfl
  have hlinks := h.links hpods
  refine Linked.answerAll (h.setFunction hkept.loseAll (hlinks.replace rfl nofun)) hkept ?_
  exact fun c hc => (hlinks.waits pod (by simp) c hc).1

end

/-- A call goes on, and may send its request. -/
theorem Linked.goto {ph : Phase ι} (h : w.Linked image hand) (requests : List (Channel ι))
    (hnamed : (({ w with requests := requests } : World ι).goto i ph).Named fun _ => True)
    (hreq : ∀ c ∈ requests, c ∈ w.requests ∨ c.caller = i ∧ ph = .waiting c)
    (hev : ∀ c podKey n, ph = .evaluating c podKey n → w.assigned c = some n)
    (hopen : ∀ c, w.Open hand c → w.phase i ≠ .waiting c) :
    (({ w with requests := requests } : World ι).goto i ph).Linked image hand := by
  have hlive : ∀ c, w.Open hand c → w.phase c.caller = .waiting c → (w.goto i ph).phase c.caller = .waiting c := by
    intro c hc hwait
    rw [phase_goto, if_neg ?_]
    · exact hwait
    · intro heq
      rw [heq] at hwait
      exact hopen c hc hwait
  have hold : ∀ c ∈ w.requests ++ hand, (w.goto i ph).phase c.caller = .waiting c :=
    fun c hc => hlive c (.inl hc) (h.live c hc)
  refine { h with named := hnamed, pods := fun img => ?_, evaluating := ?_, live := fun c hc => ?_ }
  · refine { h.pods img with waits := fun pod hpod c hc => ?_ }
    obtain ⟨hasg, hwait⟩ := (h.pods img).waits pod hpod c hc
    exact ⟨hasg, hlive c (.inr ⟨img, pod, hpod, hc⟩) hwait⟩
  · exact (forall_update_iff w.phase fun _ ph => ∀ c podKey n, ph = .evaluating c podKey n →
      w.assigned c = some n).mpr ⟨hev, fun j _ => h.evaluating j⟩
  · obtain hc | hc := mem_append.mp hc
    · obtain hc | ⟨hcaller, rfl⟩ := hreq c hc
      · exact hold c (mem_append_left _ hc)
      · exact (phase_goto w i _ _).trans (if_pos hcaller)
    · exact hold c (mem_append_right _ hc)

theorem Linked.finish {o : Outcome} (h : w.Linked image hand) (hnamed : w₁.Named fun _ => True)
    (hgo : w.finish i o = some w₁) : w₁.Linked image hand := by
  obtain ⟨ch, podKey, counter, hph, rfl⟩ := finish_spec hgo
  have hadd : (w.add ch.image counter (-1)).Linked image hand := { h with }
  refine hadd.goto w.requests hnamed (fun _ => .inl) ?_ ?_
  · cases o <;> nofun
  · intro c _ hwait
    change w.phase i = .waiting c at hwait
    rw [hph] at hwait
    cases hwait

theorem Linked.move {races : Prop} {s s₁ : World ι × List (Channel ι)} (h : s.1.Linked image s.2)
    (hmove : Move races image s s₁) : s₁.1.Linked image s₁.2 := by
  have hkept := h.kept.move (fun _ => id) hmove h.named
  have hnamed := h.named.move hmove
  cases hmove with
  | @take w ch requests hreq himage =>
    have hfresh := h.named.fresh
    have hlive := h.live
    rw [hreq] at hfresh hlive
    refine { h with kept := hkept, named := hnamed, unassigned := ?_, live := ?_ }
    · rintro c (hc | hc | hc)
      · exact h.unassigned c (.inl fun hmem => hc (mem_cons_of_mem ch hmem))
      · rw [mem_singleton.mp hc]
        exact h.unassigned ch (.inl fun hmem => (nodup_cons.mp hfresh).1 (mem_append_right _ hmem))
      · exact h.unassigned c (.inr (.inr hc))
    · intro c hc
      exact hlive c (by simpa [or_comm] using hc)
  | finish i o hgo => exact h.finish hnamed hgo
  | turn n => exact h.setFunction hkept (h.pods image)
  | touch idx now => exact h.setFunction hkept ((h.pods image).touch idx now)
  | assign idx hidx => exact h.assign hidx
  | start first now postFix => exact h.startPod
  | startLost | ignore | evicted => exact { h with }
  | remove hpods => exact h.setFunction hkept ((h.pods image).sublist hpods.1)
  | forget hpods => exact h.setFunction hkept ⟨nodup_nil, nofun, nofun⟩
  | fail postFix hpostFix hpods hpod => exact h.fail hpods
  | ready postFix hpostFix podKey now hpods hpod =>
    exact Linked.podReady (w := arrived _ image postFix) { h with } hpods
  | refuse => exact h.refuse
  | lose hraces => exact h.lose

/-! Calls -/

/-- No context ends while a call waits for a pod. -/
def Patient : World ι → Event ι → Prop
  | w, .cancel i => ∀ ch, w.phase i ≠ .waiting ch
  | _, _ => True

instance (w : World ι) (ev : Event ι) : Decidable (w.Patient ev) :=
  match ev with
  | .cancel i =>
    match hph : w.phase i with
    | .waiting ch => isFalse fun h => h ch hph
    | .idle | .request _ | .evaluating _ _ _ | .evict _ _ | .evicting _ | .returned _ =>
      isTrue fun ch hwait => by rw [hph] at hwait; cases hwait
  | .start _ _ | .handleReady _ _ _ _ _ _ | .send _ | .receive _ | .finish _ _ | .sendEviction _
  | .evicted _ | .handleRequest _ _ _ | .handleEviction _ | .collect _ _ _ _ | .retrieve _ _ _
  | .retrieveDeleted _ _ | .warm _ _ => isTrue trivial

theorem Linked.call {pe : PodEvaluatorOptions} {ev : Event ι} (h : w.Linked image hand)
    (hok : w.Patient ev) (hcall : Call pe ev w w₁) : w₁.Linked image hand := by
  have hnamed := h.named.call (fun _ _ _ => trivial) hcall
  -- a call that has its response waits for no open request
  have hans : ∀ {i : ι} {ch : Channel ι} {r : Response} {rest : List Response},
      w.phase i = .waiting ch → w.responses ch = r :: rest →
      ∀ c, w.Open hand c → w.phase i ≠ .waiting c := by
    intro i ch r rest hph hresp c hc hwait
    rw [hph] at hwait
    cases hwait
    rw [h.open_quiet hc] at hresp
    cases hresp
  have hother : ∀ {i : ι} {ph : Phase ι}, w.phase i = ph → (∀ c, ph ≠ .waiting c) →
      ∀ c, w.Open hand c → w.phase i ≠ .waiting c := by
    intro i ph hph hne c _
    rw [hph]
    exact hne c
  cases hcall with
  | start i img hph => exact h.goto w.requests hnamed (fun _ => .inl) nofun (hother hph nofun)
  | send i hph =>
    refine h.goto _ hnamed (fun c hc => (mem_append.mp hc).imp_right fun hc => ?_) nofun (hother hph nofun)
    rw [mem_singleton.mp hc]
    exact ⟨(h.named.own i _ (by rw [hph]; rfl)).1, rfl⟩
  | receive i hph hresp =>
    rename_i ch podKey counter rest
    have hasg : w.assigned ch = some counter := by
      apply h.answered ch podKey counter
      rw [hresp]
      exact mem_cons_self
    refine h.goto w.requests hnamed (fun _ => .inl) ?_ (hans hph hresp)
    rintro _ _ _ ⟨⟩
    exact hasg
  | refused i hph hresp => exact h.goto w.requests hnamed (fun _ => .inl) nofun (hans hph hresp)
  | cancel i hph => exact absurd hph (hok _)
  | giveUp i hph =>
    refine h.goto w.requests hnamed (fun _ => .inl) nofun ?_
    obtain hph | ⟨podKey, hph⟩ := hph <;> exact hother hph nofun
  | sendEviction i hph =>
    rename_i ch podKey
    have h' : ({ w with evictions := w.evictions ++ [⟨ch, podKey⟩] } : World ι).Linked image hand :=
      { h with }
    exact h'.goto w.requests hnamed (fun _ => .inl) nofun (hother hph nofun)
  | retry i hph => exact h.goto w.requests hnamed (fun _ => .inl) nofun (hother hph nofun)

/-! Balance -/

def serving (w : World ι) (i : ι) : Option (Str × Nat) := (w.phase i).serving w.assigned

theorem serving_goto (i : ι) (ph : Phase ι) :
    (w.goto i ph).serving = update w.serving i (ph.serving w.assigned) := by
  funext j
  unfold serving World.goto
  simp only [update_apply]
  split <;> rfl

end

section Balance

variable [Fintype ι]

/-- The number of calls that a pod serves. -/
def load (w : World ι) (image : Str) (counter : Nat) : Nat :=
  count (fun s => decide (s = some (image, counter))) w.serving

/-- How far a counter is from the number of calls that the pod serves. -/
def gap (w : World ι) (image : Str) (counter : Nat) : Int :=
  w.counters image counter - w.load image counter

/-- Every pod has the counter of the calls that it serves, and so has every counter that is
    still to be made. -/
structure Balanced (w : World ι) : Prop where
  pods : ∀ img, ∀ pod ∈ (w.functions img).pods, w.gap img pod.counter = 0
  unmade : ∀ img c, w.made img ≤ c → w.gap img c = 0

theorem balanced_init : ({} : World ι).Linked [] [] ∧ ({} : World ι).Balanced := by
  refine ⟨⟨kept_init, named_init, fun _ => ⟨nodup_nil, nofun, nofun⟩, nofun, fun _ _ => rfl, nofun, nofun,
    nofun⟩, nofun, ?_⟩
  · intro img c _
    have hload : ({} : World ι).load img c = 0 := count_eq_zero.mpr fun _ => rfl
    unfold gap
    rw [hload]
    rfl

section

variable (h : w.Balanced)
include h

theorem Balanced.congr (hgap : w₁.gap = w.gap) (hfun : w₁.functions = w.functions)
    (hmade : w₁.made = w.made) : w₁.Balanced := by
  refine ⟨?_, ?_⟩
  · rw [hgap, hfun]
    exact h.pods
  · rw [hgap, hmade]
    exact h.unmade

theorem Balanced.replace {fn : FunctionInfo ι} (hfn : ∀ pod ∈ fn.pods, w.gap image pod.counter = 0) :
    ∀ img, ∀ pod ∈ (update w.functions image fn img).pods, w.gap img pod.counter = 0 :=
  (forall_update_iff w.functions fun img fn => ∀ pod ∈ fn.pods, w.gap img pod.counter = 0).mpr
    ⟨hfn, fun img _ => h.pods img⟩

theorem Balanced.setFunction {fn : FunctionInfo ι}
    (hpods : ∀ pod ∈ fn.pods, ∃ p ∈ (w.functions image).pods, p.counter = pod.counter) :
    (w.setFunction image fn).Balanced := by
  refine ⟨h.replace fun pod hpod => ?_, h.unmade⟩
  obtain ⟨p, hp, heq⟩ := hpods pod hpod
  rw [← heq]
  exact h.pods image p hp

end

variable [DecidableEq ι] {i : ι}

theorem gap_update {s : Option (Str × Nat)} (hserving : w₁.serving = update w.serving i s)
    (hctrs : ∀ img c, w₁.counters img c + (if w.serving i = some (img, c) then 1 else 0) =
      w.counters img c + if s = some (img, c) then 1 else 0) : w₁.gap = w.gap := by
  funext img c
  have hcount := count_update (fun s => decide (s = some (img, c))) w.serving i s
  rw [← hserving] at hcount
  have hc := hctrs img c
  unfold gap load
  by_cases h₁ : w.serving i = some (img, c) <;> by_cases h₂ : s = some (img, c) <;>
    simp [h₁, h₂] at hcount hc <;> omega

theorem gap_goto {ph : Phase ι} (h : ph.serving w.assigned = w.serving i) :
    (w.goto i ph).gap = w.gap := by
  apply gap_update (serving_goto i ph)
  intro img c
  rw [h]
  rfl

theorem gap_finish {o : Outcome} (h : w.Linked image hand) (hgo : w.finish i o = some w₁) :
    w₁.gap = w.gap := by
  obtain ⟨ch, podKey, counter, hph, rfl⟩ := finish_spec hgo
  have hnone : (o.next ch podKey).serving w.assigned = none := by cases o <;> rfl
  have hserving : w.serving i = some (ch.image, counter) := by
    unfold serving
    rw [hph]
    simp only [Phase.serving, h.evaluating i ch podKey counter hph, Option.map_some]
  apply gap_update (i := i) (s := none)
  · rw [← hnone]
    exact serving_goto i _
  · intro img c
    show (w.add ch.image counter (-1)).counters img c + _ = _
    rw [counters_add, hserving]
    by_cases heq : (ch.image, counter) = (img, c) <;> simp [heq]

/-- A request in hand is counted for the pod that it is assigned to. -/
theorem gap_count {c : Nat} (h : w.Linked image (ch :: hand)) :
    ((w.add image c 1).assignTo ch (some c)).gap = w.gap := by
  have himage := (h.kept.hand_spec mem_cons_self).1
  have hphase := h.live_hand
  have hnone := h.unassigned ch (.inr (.inl mem_cons_self))
  have hserving : w.serving ch.caller = none := by
    unfold serving
    rw [hphase]
    simp only [Phase.serving, hnone, Option.map_none]
  apply gap_update (i := ch.caller) (s := some (image, c))
  · funext j
    unfold serving
    show (w.phase j).serving (update w.assigned ch (some c)) = _
    rw [update_apply]
    split
    · rename_i heq
      rw [heq, hphase]
      simp only [Phase.serving, update_self, Option.map_some, himage]
    · -- the other calls are at other channels
      rename_i hne
      have hother : ∀ c' ∈ (w.phase j).channel,
          update w.assigned ch (some c) c' = w.assigned c' := by
        intro c' hc'
        apply update_of_ne
        rintro rfl
        exact hne (h.named.own j c' hc').1.symm
      cases hj : w.phase j with
      | waiting c' | evaluating c' => simp only [Phase.serving, hother c' (by rw [hj]; rfl)]
      | _ => rfl
  · intro img c'
    show (w.add image c 1).counters img c' + _ = _
    rw [counters_add, hserving]
    by_cases heq : (image, c) = (img, c') <;> simp [heq]

/-- The requests of a pod that has failed are given up: nothing changes for the other pods. -/
theorem gap_release {chs : List (Channel ι)} {counter : Nat}
    (hchs : ∀ ch ∈ chs, ch.image = image ∧ w.assigned ch = some counter) {img : Str} {c : Nat}
    (hne : (img, c) ≠ (image, counter)) : (release chs w).gap img c = w.gap img c := by
  have hph : (release chs w).phase = w.phase := by rw [release_eq]
  have hasg : ∀ ch : Channel ι,
      ((release chs w).assigned ch).map (fun n => (ch.image, n)) = some (img, c) ↔
        (w.assigned ch).map (fun n => (ch.image, n)) = some (img, c) := by
    intro ch
    rw [release_assigned]
    split
    · rename_i hmem
      obtain ⟨himage, hsome⟩ := hchs ch hmem
      rw [hsome, himage]
      simpa using fun h₁ h₂ => hne (by rw [h₁, h₂])
    · rfl
  have hctrs : (release chs w).counters = w.counters := by rw [release_eq]
  unfold gap load
  rw [hctrs]
  congr 2
  apply count_congr
  intro i
  apply decide_eq_decide.mpr
  unfold serving
  rw [hph]
  cases w.phase i with
  | waiting ch | evaluating ch => exact hasg ch
  | _ => rfl

section

variable (h : w.Balanced)
include h

theorem Balanced.assign {idx : Nat} (hlinked : w.Linked image (ch :: hand))
    (hidx : idx < (w.functions image).pods.length) : (w.assign image idx ch).Balanced := by
  have hget := getElem?_eq_getElem hidx
  have hcount : ((w.add image (w.functions image).pods[idx].counter 1).assignTo ch
      (some (w.functions image).pods[idx].counter)).Balanced :=
    h.congr (gap_count hlinked) rfl rfl
  rw [assign_eq hget]
  split
  · exact { hcount with }
  · refine hcount.setFunction fun pod hpod => ?_
    obtain hpod | rfl := mem_or_eq_of_mem_set hpod
    · exact ⟨pod, hpod, rfl⟩
    · exact ⟨_, getElem_mem hidx, rfl⟩

variable {postFix : Nat} {before after : List (FunctionPodInfo ι)} {pe : PodEvaluatorOptions}
  {ev : Event ι}

theorem Balanced.startPod {now : Int} {first : Option (Channel ι)}
    (hlinked : w.Linked image (first.toList ++ hand)) :
    (w.startPod image first now postFix).Balanced := by
  have hgap : (w.startPod image first now postFix).gap = w.gap := by
    cases first with
    | none => rfl
    | some ch => exact gap_count (w := w) hlinked
  have hpods : ∀ img, ∀ pod ∈ ((w.startPod image first now postFix).functions img).pods,
      w.gap img pod.counter = 0 := by
    have hnew : ∀ pod ∈ (w.functions image).pods ++
        [{ waitlist := first.toList, lastActivity := now, counter := w.made image }],
        w.gap image pod.counter = 0 := by
      intro pod hpod
      obtain hpod | hpod := mem_append.mp hpod
      · exact h.pods image pod hpod
      · rw [mem_singleton.mp hpod]
        exact h.unmade image _ (Nat.le_refl _)
    cases first <;> exact h.replace hnew
  have hmade : (w.startPod image first now postFix).made =
      update w.made image (w.made image + 1) := by
    cases first <;> rfl
  refine ⟨by rwa [hgap], ?_⟩
  rw [hgap, hmade]
  exact fun img c hc => h.unmade img c ((made_le_succ w image img).trans hc)

theorem Balanced.fail {pod : FunctionPodInfo ι} (hlinked : w.Linked image [])
    (hpods : (w.functions image).pods = before ++ pod :: after) :
    (World.release pod.waitlist ((w.arrived image postFix).setPods image (before ++ after))).Balanced := by
  have hpod : pod ∈ (w.functions image).pods := by simp [hpods]
  -- the counter of the pod is no longer in the pool
  have hother : ∀ p ∈ before ++ after, p ∈ (w.functions image).pods ∧ p.counter ≠ pod.counter := by
    intro p hp
    have hdistinct := (hlinked.links hpods).distinct
    rw [map_append, map_cons, nodup_middle, ← map_append] at hdistinct
    have hnot := (nodup_cons.mp hdistinct).1
    exact ⟨(without_sublist hpods).subset hp, fun heq => hnot (heq ▸ mem_map_of_mem hp)⟩
  have hset : ((w.arrived image postFix).setPods image (before ++ after)).Balanced :=
    Balanced.setFunction (w := w.arrived image postFix) { h with } fun p hp => ⟨p, (hother p hp).1, rfl⟩
  have hgap : ∀ img c, (img, c) ≠ (image, pod.counter) →
      (World.release pod.waitlist ((w.arrived image postFix).setPods image (before ++ after))).gap img c =
        ((w.arrived image postFix).setPods image (before ++ after)).gap img c := by
    intro img c hne
    refine gap_release ?_ hne
    intro c hc
    exact ⟨(hlinked.kept.waitlist_spec hpod hc).1, ((hlinked.pods image).waits pod hpod c hc).1⟩
  refine ⟨?_, ?_⟩
  · intro img p hp
    rw [release_eq] at hp
    change p ∈ (((w.arrived image postFix).setPods image (before ++ after)).functions img).pods at hp
    rw [hgap]
    · exact hset.pods img p hp
    · intro heq
      obtain ⟨rfl, hctr⟩ := Prod.mk.inj heq
      rw [setPods, pods_setFunction] at hp
      exact (hother p hp).2 hctr
  · intro img c hc
    rw [release_eq] at hc
    change w.made img ≤ c at hc
    rw [hgap]
    · exact hset.unmade img c hc
    · intro heq
      obtain ⟨rfl, rfl⟩ := Prod.mk.inj heq
      exact Nat.not_lt.mpr hc ((hlinked.pods img).made pod hpod)

theorem Balanced.podReady {pod : FunctionPodInfo ι} {d : PodData} {now : Int}
    (hpods : (w.functions image).pods = before ++ pod :: after) :
    (w.podReady image d now before pod after).Balanced := by
  let ready : FunctionPodInfo ι := { pod with podData := some d, lastActivity := now, waitlist := [] }
  have hset : (w.setPods image (before ++ ready :: after)).Balanced := by
    refine h.setFunction fun p hp => ?_
    obtain rfl | hp := mem_replaced hpods hp
    · exact ⟨pod, by simp [hpods], rfl⟩
    · exact ⟨p, hp, rfl⟩
  unfold World.podReady
  dsimp only
  rw [respondAll_eq]
  exact { hset with }

end

theorem Balanced.move {races : Prop} (s s₁ : World ι × List (Channel ι))
    (hmove : Move races image s s₁) (h : s.1.Linked image s.2 ∧ s.1.Balanced) :
    s₁.1.Linked image s₁.2 ∧ s₁.1.Balanced := by
  obtain ⟨hlinked, h⟩ := h
  refine ⟨hlinked.move hmove, ?_⟩
  cases hmove with
  | take | startLost | ignore | refuse | evicted => exact { h with }
  | finish i o hgo =>
    have hgap := gap_finish hlinked hgo
    obtain ⟨ch, podKey, counter, _, rfl⟩ := finish_spec hgo
    exact h.congr hgap rfl rfl
  | turn n => exact h.setFunction fun p hp => ⟨p, hp, rfl⟩
  | touch idx now =>
    refine h.setFunction fun pod hpod => ?_
    obtain ⟨p, hp, _, _, hctr⟩ := mem_touch hpod
    exact ⟨p, hp, hctr⟩
  | assign idx hidx => exact h.assign hlinked hidx
  | start first now postFix => exact h.startPod hlinked
  | remove hpods => exact h.setFunction fun p hp => ⟨p, hpods.1.subset hp, rfl⟩
  | forget hpods => exact h.setFunction nofun
  | fail postFix hpostFix hpods hpod => exact h.fail hlinked hpods
  | ready postFix hpostFix podKey now hpods hpod =>
    exact Balanced.podReady (w := arrived _ image postFix) { h with } hpods
  | lose hraces => exact h

theorem Balanced.call (h : w.Balanced)
    (hlinked : w.Linked image hand) (hok : w.Patient ev) (hcall : Call pe ev w w₁) : w₁.Balanced := by
  have hgoto : ∀ {w' : World ι} {i : ι} {ph : Phase ι}, w'.gap = w.gap → w'.functions = w.functions →
      w'.made = w.made → ph.serving w'.assigned = w'.serving i → (w'.goto i ph).Balanced := by
    intro w' i ph hgap hfun hmade hserving
    exact h.congr ((gap_goto hserving).trans hgap) hfun hmade
  -- a call in another phase is served by no pod
  have hserving : ∀ {i : ι} {ph : Phase ι}, w.phase i = ph → w.serving i = ph.serving w.assigned := by
    intro i ph hph
    rw [serving, hph]
  cases hcall with
  | start i img hph => exact hgoto rfl rfl rfl (hserving hph).symm
  | send i hph =>
    rename_i ch
    have hnone : w.assigned ch = none := by
      apply hlinked.unassigned ch
      exact .inl fun hrec => hlinked.named.unsent hph (mem_append_right _ hrec)
    refine hgoto rfl rfl rfl ?_
    show (w.assigned ch).map _ = w.serving i
    rw [hserving hph, hnone]
    rfl
  | receive i hph hresp => exact hgoto rfl rfl rfl (hserving hph).symm
  | refused i hph hresp =>
    rename_i ch rest
    have hnone : w.assigned ch = none := by
      apply hlinked.unassigned ch
      rw [hresp]
      exact .inr (.inr mem_cons_self)
    refine hgoto rfl rfl rfl ?_
    rw [hserving hph]
    show none = (w.assigned ch).map _
    rw [hnone]
    rfl
  | cancel i hph => exact absurd hph (hok _)
  | giveUp i hph =>
    refine hgoto rfl rfl rfl ?_
    obtain hph | ⟨podKey, hph⟩ := hph <;> exact (hserving hph).symm
  | sendEviction i hph => exact hgoto rfl rfl rfl (hserving hph).symm
  | retry i hph => exact hgoto rfl rfl rfl (hserving hph).symm

/-! Runs -/

theorem Balanced.step (h : w.Linked [] [] ∧ w.Balanced)
    (hok : w.Patient ev) (hstep : w.step pe ev = some w₁) : w₁.Linked [] [] ∧ w₁.Balanced := by
  obtain hcall | ⟨image, hmoves⟩ := step_cases hstep
  · exact ⟨h.1.call hok hcall, h.2.call h.1 hok hcall⟩
  · obtain ⟨hlinked, hbalanced⟩ := hmoves.invariant
      (P := fun w hand => w.Linked image hand ∧ w.Balanced) Balanced.move ⟨h.1.any_image image, h.2⟩
    exact ⟨hlinked.any_image [], hbalanced⟩

end Balance

end World

/-- **In every run in which no context ends while a call waits for a pod, the counter of every
    pod is the number of calls that it serves**; so it is 0 when every call has returned. -/
theorem counter_balanced [Fintype ι] [DecidableEq ι] (pe : PodEvaluatorOptions)
    {es : List (Event ι)} {w : World ι} (hok : Along (World.step pe) World.Patient {} es)
    (hrun : run (World.step pe) {} es = some w) (image : Str) :
    ∀ pod ∈ (w.functions image).pods, w.counters image pod.counter = w.load image pod.counter ∧
      ((∀ i, w.phase i = .idle ∨ ∃ ok, w.phase i = .returned ok) →
        w.counters image pod.counter = 0) := by
  have hstep : ∀ (w : World ι) ev w₁, w.Linked [] [] ∧ w.Balanced → w.Patient ev →
      w.step pe ev = some w₁ → w₁.Linked [] [] ∧ w₁.Balanced :=
    fun _ _ _ h hok hstep => World.Balanced.step h hok hstep
  obtain ⟨_, hbalanced⟩ := run_invariant hstep World.balanced_init hok hrun
  intro pod hpod
  have heq : w.counters image pod.counter = w.load image pod.counter := by
    have hgap := hbalanced.pods image pod hpod
    unfold World.gap at hgap
    omega
  refine ⟨heq, ?_⟩
  intro hreturned
  have hload : w.load image pod.counter = 0 := by
    apply Lts.count_eq_zero.mpr
    intro i
    obtain hph | ⟨ok, hph⟩ := hreturned i <;> simp [World.serving, hph, Phase.serving]
  rw [heq, hload]
  rfl

/-- The pods of an image with their counters, and the calls. -/
def countersOf (w : World (Fin 2)) : List (Option Str × Int) × List (Phase (Fin 2)) :=
  ((w.functions "a").pods.map fun pod =>
    (pod.podData.map (·.podKey), w.counters "a" pod.counter), [w.phase 0, w.phase 1])

/-- Two calls share a pod; the first one finds it unavailable, and gets it again. -/
def retryRun : List (Event (Fin 2)) :=
  [.start 0 "a", .send 0, .handleRequest 0 none [],
    .handleReady "a" 1 (some "p") 0 (fun _ => {}) [], .receive 0,
    .start 1 "a", .send 1, .handleRequest 0 (some ⟨0, 5, 0⟩) [], .receive 1,
    .finish 0 .unavailable, .sendEviction 0, .handleEviction .running, .evicted 0, .send 0,
    .handleRequest 0 (some ⟨0, 5, 0⟩) []]

theorem counter_balanced_retryRun : ∃ w, run (World.step twoPods) {} retryRun = some w ∧
      countersOf w = ([(some "p".toList, 2)],
        [.waiting ⟨"a".toList, 0, 1⟩, .evaluating ⟨"a".toList, 1, 0⟩ "p".toList 0]) ∧
      ∀ pod ∈ (w.functions "a").pods,
        w.counters "a" pod.counter = w.load "a" pod.counter := by
  refine exists_reached (by decide +kernel) fun w hw _ pod hpod => ?_
  exact (counter_balanced twoPods (by decide +kernel) hw "a" pod hpod).1

/-- **A counter leaks**: the context of the only call ends while it waits for the pod. All
    calls have returned, the counter stays 1, and the garbage collector keeps the pod long
    after its time to live. -/
theorem counter_leaked : (run (World.step twoPods) {}
      [.start 0 "a", .send 0, .handleRequest 0 none [], .cancel 0,
        .handleReady "a" 1 (some "p") 0 (fun _ => {}) [],
        .collect "a" 1000 none (fun _ => {})]).map countersOf =
      some ([(some "p".toList, 1)], [.returned false, .idle]) := by
  decide +kernel

end Porch.PodEval
