import Mathlib.Data.List.Perm.Basic
import Mathlib.Data.List.Nodup
import Porch.PodEval.Moves

/- Every request gets its response. It needs that no call finishes between the two loops of
   `findBestPod` while the requests of a pod that has failed are given to other pods: a
   request for which no pod is found then is lost when another one has found one
   (`request_lost`). -/
namespace Porch.PodEval

open Go Function Lts List

variable {ι : Type}

def Phase.channel : Phase ι → Option (Channel ι)
  | request ch | waiting ch | evaluating ch .. | evict ch _ | evicting ch => some ch
  | idle | returned _ => none

/-- The call has sent this request, if it is one of its own. -/
def Phase.Sent (ch : Channel ι) : Phase ι → Prop
  | idle => False
  | request ch' => ch.attempt < ch'.attempt
  | waiting ch' | evaluating ch' .. | evict ch' _ | evicting ch' => ch.attempt ≤ ch'.attempt
  | returned _ => True

namespace World

variable (w : World ι)

/-- The requests in the waitlists of an image. -/
def waiting (image : Str) : List (Channel ι) := (w.functions image).pods.flatMap (·.waitlist)

/-- The requests of an image that wait for a response: those that the manager has in hand, and
    those in the waitlists. -/
def unanswered (image : Str) (hand : List (Channel ι)) (img : Str) : List (Channel ι) :=
  (if img = image then hand else []) ++ w.waiting img

theorem unanswered_nil (image img : Str) : w.unanswered image [] img = w.waiting img := by
  simp [unanswered]

/-- The requests that wait have no response, and whether they are `all` without one. -/
structure Waits (all : Prop) (waits : Str → List (Channel ι)) (responses : Channel ι → List Response)
    (received : List (Channel ι)) : Prop where
  quiet : ∀ img, ∀ ch ∈ waits img, ch.image = img ∧ responses ch = [] ∧ ch ∈ received
  nodup : ∀ img, (waits img).Nodup
  once : ∀ ch, (responses ch).length ≤ 1
  known : ∀ ch, responses ch ≠ [] → ch ∈ received
  complete : all → ∀ ch ∈ received, ch ∈ waits ch.image ∨ responses ch ≠ []

/-- What the manager keeps while it has some requests of an image in hand. -/
def Kept (all : Prop) (image : Str) (hand : List (Channel ι)) : Prop :=
  Waits all (w.unanswered image hand) w.responses w.received ∧
    ∀ img, ∀ pod ∈ (w.functions img).pods, pod.podData.isSome → pod.waitlist = []

/-- What is known of the requests that have been sent and of the phases of the calls: they name
    images of some kind. -/
structure Calls (Q : Str → Prop) (chs : List (Channel ι)) (phase : ι → Phase ι) : Prop where
  fresh : chs.Nodup
  sent : ∀ ch ∈ chs, (phase ch.caller).Sent ch ∧ Q ch.image
  own : ∀ i, ∀ ch ∈ (phase i).channel, ch.caller = i ∧ Q ch.image
  asked : ∀ i ch, phase i = .waiting ch → ch ∈ chs

def Named (Q : Str → Prop) : Prop := Calls Q (w.requests ++ w.received) w.phase

variable {w} {w₁ : World ι} {all : Prop} {image : Str} {hand hand' : List (Channel ι)} {ch : Channel ι}
  {waits waits' : Str → List (Channel ι)} {responses : Channel ι → List Response}
  {received : List (Channel ι)}

theorem mem_unanswered_cons {c : Channel ι} {img : Str} :
    c ∈ w.unanswered image (ch :: hand) img ↔ c = ch ∧ img = image ∨ c ∈ w.unanswered image hand img := by
  by_cases himg : img = image <;> simp [unanswered, himg]

theorem unanswered_sublist (w : World ι) (image img : Str) (ch : Channel ι) (hand : List (Channel ι)) :
    (w.unanswered image hand img).Sublist (w.unanswered image (ch :: hand) img) := by
  refine Sublist.append ?_ (Sublist.refl _)
  split
  · exact sublist_cons_self ch hand
  · exact Sublist.refl _

/-! Requests that wait -/

theorem Waits.perm (h : Waits all waits responses received) (hperm : ∀ img, (waits' img).Perm (waits img)) :
    Waits all waits' responses received where
  quiet img c hc := h.quiet img c ((hperm img).mem_iff.mp hc)
  nodup img := (hperm img).nodup_iff.mpr (h.nodup img)
  once := h.once
  known := h.known
  complete hall c hc := (h.complete hall c hc).imp_left (hperm _).mem_iff.mpr

theorem Kept.any_image (h : w.Kept all image []) (image' : Str) : w.Kept all image' [] :=
  ⟨h.1.perm fun img => by rw [unanswered_nil, unanswered_nil], h.2⟩

theorem Kept.lose (h : w.Kept all image (ch :: hand)) : w.Kept False image hand := by
  have hsub := fun img => unanswered_sublist w image img ch hand
  exact ⟨⟨fun img c hc => h.1.quiet img c ((hsub img).subset hc), fun img => (h.1.nodup img).sublist (hsub img),
    h.1.once, h.1.known, nofun⟩, h.2⟩

variable {pods before after : List (FunctionPodInfo ι)} {i : ι} {pod : FunctionPodInfo ι}
  {idx postFix : Nat} {now : Int} {races : Prop} {pe : PodEvaluatorOptions} {ev : Event ι}
  {fn : FunctionInfo ι}

/-- Requests move between the waitlists of an image and the hand of the manager. -/
theorem Kept.setFunction (h : w.Kept all image hand)
    (hperm : (hand' ++ fn.pods.flatMap (·.waitlist)).Perm (hand ++ w.waiting image))
    (hready : ∀ pod ∈ fn.pods, pod.podData.isSome → pod.waitlist = []) :
    (w.setFunction image fn).Kept all image hand' := by
  refine ⟨h.1.perm fun img => ?_, ?_⟩
  · by_cases heq : img = image
    · subst heq
      simpa [unanswered, waiting, World.setFunction] using hperm
    · simp [unanswered, waiting, World.setFunction, heq]
  · exact (forall_update_iff w.functions fun _ fn =>
      ∀ pod ∈ fn.pods, pod.podData.isSome → pod.waitlist = []).mpr ⟨hready, fun img _ => h.2 img⟩

variable {chs requests : List (Channel ι)} {ph : Phase ι} {o : Outcome} {first : Option (Channel ι)}
  {ready : FunctionPodInfo ι} {d : PodData}

theorem perm_joinWaitlist
    (hget : pods[idx]? = some pod) (ch : Channel ι) (hand : List (Channel ι)) :
    (hand ++ (pods.set idx { pod with waitlist := pod.waitlist ++ [ch] }).flatMap (·.waitlist)).Perm
      (ch :: hand ++ pods.flatMap (·.waitlist)) := by
  obtain ⟨l, r, hpods, hset⟩ := set_eq hget { pod with waitlist := pod.waitlist ++ [ch] }
  rw [hset, hpods]
  simp only [flatMap_append, flatMap_cons, append_assoc, singleton_append]
  simp only [← append_assoc]
  exact perm_middle

theorem waiting_eq_pending (hready : ∀ pod ∈ pods, pod.podData.isSome → pod.waitlist = []) :
    pods.flatMap (·.waitlist) = (pending pods).flatMap (·.waitlist) := by
  unfold pending
  induction pods with
  | nil => rfl
  | cons pod pods ih =>
    have ih := ih fun p hp => hready p (mem_cons_of_mem pod hp)
    cases hpod : pod.podData with
    | none => rw [filter_cons_of_pos (by rw [hpod]; rfl), flatMap_cons, flatMap_cons, ih]
    | some d =>
      rw [filter_cons_of_neg (by simp [hpod]), flatMap_cons, ih,
        hready pod mem_cons_self (by rw [hpod]; rfl), nil_append]

theorem Kept.remove (h : w.Kept all image hand) (hpods : Removed (w.functions image).pods pods) :
    (w.setPods image pods).Kept all image hand := by
  have hready : ∀ pod ∈ pods, pod.podData.isSome → pod.waitlist = [] :=
    fun pod hpod => h.2 image pod (hpods.1.subset hpod)
  refine h.setFunction ?_ hready
  rw [waiting, waiting_eq_pending hready, waiting_eq_pending (h.2 image), hpods.2]

theorem perm_leaveWaitlist (hpods : (w.functions image).pods = before ++ pod :: after) :
    (pod.waitlist ++ (before ++ after).flatMap (·.waitlist)).Perm ([] ++ w.waiting image) := by
  unfold waiting
  rw [hpods]
  simp only [flatMap_append, flatMap_cons, ← append_assoc, nil_append]
  exact Perm.append_right _ perm_append_comm

theorem Kept.take (h : w.Kept all image []) (hnew : ch ∉ w.received) (himage : ch.image = image) :
    ({ w with requests := requests, received := ch :: w.received } : World ι).Kept all image [ch] := by
  refine ⟨⟨?_, ?_, h.1.once, ?_, ?_⟩, h.2⟩
  · intro img c hc
    obtain ⟨rfl, rfl⟩ | hc := mem_unanswered_cons.mp hc
    · exact ⟨himage, by_contra fun hne => hnew (h.1.known c hne), mem_cons_self⟩
    · obtain ⟨himg, hq, hr⟩ := h.1.quiet img c hc
      exact ⟨himg, hq, mem_cons_of_mem ch hr⟩
  · intro img
    have hnodup := h.1.nodup img
    rw [unanswered_nil] at hnodup
    show ((if img = image then [ch] else []) ++ w.waiting img).Nodup
    split
    · refine nodup_cons.mpr ⟨fun hc => ?_, hnodup⟩
      rw [← unanswered_nil w image] at hc
      exact hnew (h.1.quiet img ch hc).2.2
    · exact hnodup
  · intro c hc
    exact mem_cons_of_mem ch (h.1.known c hc)
  · intro hall c hc
    obtain rfl | hc := mem_cons.mp hc
    · exact .inl (mem_unanswered_cons.mpr (.inl ⟨rfl, himage⟩))
    · exact (h.1.complete hall c hc).imp_left fun hun => mem_unanswered_cons.mpr (.inr hun)

theorem without_sublist (hpods : (w.functions image).pods = before ++ pod :: after) :
    (before ++ after).Sublist (w.functions image).pods := by
  rw [hpods]
  exact Sublist.append (Sublist.refl before) (sublist_cons_self pod after)

theorem mem_replaced (hpods : (w.functions image).pods = before ++ pod :: after)
    {p : FunctionPodInfo ι} (hp : p ∈ before ++ ready :: after) :
    p = ready ∨ p ∈ (w.functions image).pods := by
  obtain rfl | hp := mem_cons.mp (perm_middle.mem_iff.mp hp)
  · exact .inl rfl
  · exact .inr ((without_sublist hpods).subset hp)

theorem flatMap_touch (pods : List (FunctionPodInfo ι)) (idx : Nat) (now : Int) :
    (pods.modify idx fun pod => { pod with lastActivity := now }).flatMap (·.waitlist) =
      pods.flatMap (·.waitlist) := by
  rw [flatMap_def, map_touch pods idx now fun _ => rfl, ← flatMap_def]

theorem kept_init : ({} : World ι).Kept all [] [] := by
  have hun : ({} : World ι).unanswered [] [] = fun _ => [] := funext (unanswered_nil _ _)
  unfold Kept
  rw [hun]
  exact ⟨⟨nofun, fun _ => nodup_nil, fun _ => Nat.zero_le 1, fun _ h => absurd rfl h, nofun⟩, nofun⟩

variable [DecidableEq ι]

theorem Kept.respond (h : w.Kept all image (ch :: hand)) (r : Response) :
    (w.respond ch r).Kept all image hand := by
  have h' := h.lose.1
  obtain ⟨himage, hquiet, hrec⟩ := h.1.quiet image ch (mem_unanswered_cons.mpr (.inl ⟨rfl, rfl⟩))
  -- the request is nowhere else
  have hnot : ∀ img, ch ∉ w.unanswered image hand img := by
    intro img hch
    obtain rfl : image = img := himage.symm.trans (h'.quiet img ch hch).1
    have hnodup := h.1.nodup image
    rw [unanswered, if_pos rfl] at hnodup hch
    exact (nodup_cons.mp hnodup).1 hch
  have hother : ∀ c, c ≠ ch → (w.respond ch r).responses c = w.responses c := fun c hne => update_of_ne hne _ _
  have hown : (w.respond ch r).responses ch = [r] := by simp [World.respond, hquiet]
  refine ⟨⟨?_, h'.nodup, ?_, ?_, ?_⟩, h.2⟩
  · intro img c hc
    rw [hother c fun heq => hnot img (heq ▸ hc)]
    exact h'.quiet img c hc
  · intro c
    by_cases heq : c = ch
    · simp [heq, hown]
    · rw [hother c heq]
      exact h.1.once c
  · intro c hc
    by_cases heq : c = ch
    · exact heq ▸ hrec
    · exact h.1.known c (hother c heq ▸ hc)
  · intro hall c hc
    by_cases heq : c = ch
    · simp [heq, hown]
    · rw [hother c heq]
      exact (h.1.complete hall c hc).imp_left fun hun =>
        (mem_unanswered_cons.mp hun).resolve_left fun hch => heq hch.1

theorem Kept.respondAll (h : w.Kept all image (chs ++ hand)) (r : Response) :
    (respondAll chs r w).Kept all image hand := by
  induction chs generalizing w with
  | nil => exact h
  | cons c chs ih => exact ih (h.respond r)

/-! Handing out pods -/

theorem assign_eq
    (hget : (w.functions image).pods[idx]? = some pod) :
    w.assign image idx ch =
      match pod.podData with
      | some d => ((w.add image pod.counter 1).assignTo ch (some pod.counter)).respond ch
          (.pod d.podKey pod.counter)
      | none => ((w.add image pod.counter 1).assignTo ch (some pod.counter)).setPods image
          ((w.functions image).pods.set idx { pod with waitlist := pod.waitlist ++ [ch] }) := by
  unfold World.assign
  rw [hget]
  rfl

theorem Kept.assign (h : w.Kept all image (ch :: hand))
    (hidx : idx < (w.functions image).pods.length) : (w.assign image idx ch).Kept all image hand := by
  have hget := getElem?_eq_getElem hidx
  have hcount : ∀ counter, ((w.add image counter 1).assignTo ch (some counter)).Kept all image
      (ch :: hand) := fun _ => h
  rw [assign_eq hget]
  split
  · exact (hcount _).respond _
  · rename_i hnone
    refine (hcount _).setFunction (perm_joinWaitlist hget ch hand) ?_
    intro pod hpod hsome
    obtain hpod | rfl := mem_or_eq_of_mem_set hpod
    · exact h.2 image pod hpod hsome
    · rw [hnone] at hsome
      cases hsome

theorem Kept.startPod
    (h : w.Kept all image (first.toList ++ hand)) : (w.startPod image first now postFix).Kept all image hand := by
  have hpods : (w.setPods image ((w.functions image).pods ++
      [{ waitlist := first.toList, lastActivity := now, counter := w.made image }])).Kept all image hand := by
    apply h.setFunction
    · simp only [flatMap_append, flatMap_singleton, append_assoc, waiting]
      rw [← append_assoc]
      exact perm_append_comm
    · intro pod hpod hsome
      obtain hpod | hpod := mem_append.mp hpod
      · exact h.2 image pod hpod hsome
      · rw [mem_singleton.mp hpod] at hsome
        cases hsome
  cases first with
  | none | some => exact hpods

/-! Moves -/

section

variable (h : w.Kept all image []) (hpods : (w.functions image).pods = before ++ pod :: after)
include h hpods

omit [DecidableEq ι] in
theorem Kept.leave : (w.setPods image (before ++ after)).Kept all image pod.waitlist := by
  apply h.setFunction (perm_leaveWaitlist hpods)
  exact fun p hp => h.2 image p ((without_sublist hpods).subset hp)

theorem Kept.fail :
    (release pod.waitlist ((w.arrived image postFix).setPods image (before ++ after))).Kept all image
      pod.waitlist := by
  rw [release_eq]
  exact h.leave hpods

omit [DecidableEq ι] in
theorem Kept.serve (hready : ready.waitlist = []) :
    (w.setPods image (before ++ ready :: after)).Kept all image (pod.waitlist ++ []) := by
  rw [append_nil]
  refine h.setFunction (Perm.trans ?_ (perm_leaveWaitlist hpods)) ?_
  · simp [hready]
  · intro p hp hsome
    obtain rfl | hp := mem_replaced hpods hp
    · exact hready
    · exact h.2 image p hp hsome

theorem Kept.podReady : (w.podReady image d now before pod after).Kept all image [] :=
  Kept.respondAll (h.serve hpods rfl) _

end

variable {Q : Str → Prop}

/-- What the manager keeps, kept by every move; without races no move loses a request. -/
theorem Kept.move {s s₁ : World ι × List (Channel ι)} (h : s.1.Kept all image s.2)
    (hraces : races → ¬ all) (hmove : Move races image s s₁) (hnamed : s.1.Named Q) :
    s₁.1.Kept all image s₁.2 := by
  cases hmove with
  | take hreq himage =>
    have hfresh := hnamed.fresh
    rw [hreq] at hfresh
    exact h.take (fun hmem => (nodup_cons.mp hfresh).1 (mem_append_right _ hmem)) himage
  | finish i o hgo =>
    obtain ⟨ch, podKey, counter, _, rfl⟩ := finish_spec hgo
    exact h
  | turn n => exact h.setFunction (.refl _) (h.2 image)
  | touch idx now =>
    apply h.setFunction
    · rw [flatMap_touch]
      exact Perm.refl _
    · intro pod hpod hsome
      obtain ⟨p, hp, hdata, hwait, _⟩ := mem_touch hpod
      rw [← hwait]
      exact h.2 image p hp (by rw [hdata]; exact hsome)
  | assign idx hidx => exact h.assign hidx
  | start first now postFix => exact h.startPod
  | startLost | ignore | evicted => exact h
  | remove hpods => exact h.remove hpods
  | forget hpods => exact h.setFunction (by rw [waiting, hpods]) nofun
  | fail postFix hpostFix hpods hpod => exact h.fail hpods
  | ready postFix hpostFix podKey now hpods hpod =>
    exact Kept.podReady (w := arrived _ image postFix) h hpods
  | refuse => exact h.respond .error
  | lose hlost =>
    rw [eq_false (hraces hlost)]
    exact h.lose

theorem Kept.call (h : w.Kept all image hand) (hcall : Call pe ev w w₁) :
    w₁.Kept all image hand := by
  cases hcall <;> exact h

/-! Calls -/

theorem phase_goto (w : World ι) (i : ι) (ph : Phase ι) (j : ι) :
    (w.goto i ph).phase j = if j = i then ph else w.phase j := update_apply _ _ _ _

section

variable {phase : ι → Phase ι} {chs' : List (Channel ι)} (h : Calls Q chs phase)
include h

omit [DecidableEq ι] in
theorem Calls.perm (hperm : chs'.Perm chs) : Calls Q chs' phase :=
  ⟨hperm.nodup_iff.mpr h.fresh, fun c hc => h.sent c (hperm.mem_iff.mp hc), h.own,
    fun i c hc => hperm.mem_iff.mpr (h.asked i c hc)⟩

/-- A call goes on, and what it has sent stays sent. -/
theorem Calls.goto {ph₀ : Phase ι} (hph : phase i = ph₀) (hsent : ∀ ch, ph₀.Sent ch → ph.Sent ch)
    (hown : ∀ ch ∈ ph.channel, ch.caller = i ∧ Q ch.image) (hnot : ∀ ch, ph ≠ .waiting ch) :
    Calls Q chs (update phase i ph) := by
  refine ⟨h.fresh, fun c hc => ?_, ?_, ?_⟩
  · obtain ⟨hold, hq⟩ := h.sent c hc
    refine ⟨?_, hq⟩
    rw [update_apply]
    split
    · rename_i heq
      rw [heq, hph] at hold
      exact hsent c hold
    · exact hold
  · exact (forall_update_iff phase fun i ph => ∀ ch ∈ ph.channel, ch.caller = i ∧ Q ch.image).mpr
      ⟨hown, fun j _ => h.own j⟩
  · exact (forall_update_iff phase fun _ ph => ∀ ch, ph = .waiting ch → ch ∈ chs).mpr
      ⟨fun c hc => absurd hc (hnot c), fun j _ => h.asked j⟩

omit [DecidableEq ι] in
/-- A request that is to be sent has not been sent before. -/
theorem Calls.unsent (hph : phase i = .request ch) : ch ∉ chs := by
  intro hmem
  have hsent := (h.sent ch hmem).1
  rw [(h.own i ch (by rw [hph]; rfl)).1, hph] at hsent
  exact Nat.lt_irrefl _ hsent

theorem Calls.send (hph : phase i = .request ch) : Calls Q (ch :: chs) (update phase i (.waiting ch)) := by
  obtain ⟨hcaller, hq⟩ := h.own i ch (by rw [hph]; rfl)
  refine ⟨nodup_cons.mpr ⟨h.unsent hph, h.fresh⟩, fun c hc => ?_, ?_, ?_⟩
  · rw [update_apply]
    obtain rfl | hc := mem_cons.mp hc
    · rw [if_pos hcaller]
      exact ⟨Nat.le_refl _, hq⟩
    · obtain ⟨hsent, hq⟩ := h.sent c hc
      refine ⟨?_, hq⟩
      split
      · rename_i heq
        rw [heq, hph] at hsent
        exact Nat.le_of_lt hsent
      · exact hsent
  · refine (forall_update_iff phase fun i ph => ∀ ch ∈ ph.channel, ch.caller = i ∧ Q ch.image).mpr
      ⟨?_, fun j _ => h.own j⟩
    rintro _ ⟨⟩
    exact ⟨hcaller, hq⟩
  · refine (forall_update_iff phase fun _ ph => ∀ c, ph = .waiting c → c ∈ ch :: chs).mpr
      ⟨?_, fun j _ c hc => mem_cons_of_mem ch (h.asked j c hc)⟩
    rintro _ ⟨⟩
    exact mem_cons_self

end

theorem Named.move {s s₁ : World ι × List (Channel ι)} (h : s.1.Named Q)
    (hmove : Move races image s s₁) : s₁.1.Named Q := by
  cases hmove with
  | take hreq himage => exact h.perm (by rw [hreq]; exact perm_middle)
  | finish i o hgo =>
    obtain ⟨ch, podKey, counter, hph, rfl⟩ := finish_spec hgo
    refine Calls.goto h hph ?_ ?_ ?_
    · cases o with
      | ok | error => exact fun _ _ => trivial
      | unavailable => exact fun _ => id
    · cases o with
      | ok | error => exact nofun
      | unavailable =>
        rintro _ ⟨⟩
        exact h.own i ch (by rw [hph]; rfl)
    · cases o <;> nofun
  | assign idx hidx =>
    rw [assign_eq (getElem?_eq_getElem hidx)]
    split <;> exact h
  | start first now postFix => cases first <;> exact h
  | turn | touch | startLost | remove | forget | ignore | refuse | lose | evicted => exact h
  | fail postFix hpostFix hpods hpod =>
    rw [release_eq]
    exact h
  | ready postFix hpostFix podKey now hpods hpod =>
    unfold World.podReady
    dsimp only
    rw [respondAll_eq]
    exact h

theorem Named.call (h : w.Named Q)
    (hok : ∀ i image, ev = .start i image → Q image) (hcall : Call pe ev w w₁) : w₁.Named Q := by
  -- the channel that a call is at is its own
  have hown : ∀ {i : ι} {ph : Phase ι} {c : Channel ι}, w.phase i = ph → c ∈ ph.channel →
      c.caller = i ∧ Q c.image := by
    rintro i ph c rfl hc
    exact h.own i c hc
  cases hcall with
  | start i img hph =>
    refine Calls.goto h hph nofun ?_ nofun
    rintro _ ⟨⟩
    exact ⟨rfl, hok i img rfl⟩
  | send i hph => exact (Calls.send h hph).perm (by simp [World.goto])
  | receive i hph hresp =>
    refine Calls.goto h hph (fun _ => id) ?_ nofun
    rintro _ ⟨⟩
    exact hown hph rfl
  | refused | cancel | giveUp => exact Calls.goto h rfl (fun _ _ => trivial) nofun nofun
  | sendEviction i hph =>
    refine Calls.goto h hph (fun _ => id) ?_ nofun
    rintro _ ⟨⟩
    exact hown hph rfl
  | retry i hph =>
    have hch := hown hph rfl
    refine Calls.goto h hph (fun _ => Nat.lt_succ_of_le) ?_ nofun
    rintro _ ⟨⟩
    exact hch

theorem Named.step (h : w.Named Q)
    (hok : ∀ i image, ev = .start i image → Q image) (hstep : w.step pe ev = some w₁) : w₁.Named Q := by
  obtain hcall | ⟨image, hmoves⟩ := step_cases hstep
  · exact h.call hok hcall
  · exact hmoves.invariant (P := fun w _ => w.Named Q) (fun _ _ hmove h => h.move hmove) h

omit [DecidableEq ι] in
theorem named_init : ({} : World ι).Named Q := ⟨nodup_nil, nofun, nofun, nofun⟩

/-! Pods that are being started -/

/-- For every pod that is being started there is a message to come. -/
def Starting (w : World ι) : Prop :=
  ∀ img, img ≠ [] → (w.pool img).1.count none ≤ (w.pool img).2.length

theorem PoolMove.starting {named : Prop} (hnamed : named) {s s₁ : List (Option PodData) × List Nat}
    (hmove : PoolMove named s s₁) (h : s.1.count none ≤ s.2.length) :
    s₁.1.count none ≤ s₁.2.length := by
  cases hmove with
  | same => exact h
  | start postFix =>
    rw [count_append, length_append]
    exact Nat.add_le_add h (Nat.le_refl 1)
  | startLost postFix =>
    rw [length_append]
    exact Nat.le_add_right_of_le h
  | remove hsub hnone =>
    rw [hnone]
    exact h
  | ignore postFix hpostFix hnone =>
    rw [count_eq_zero_of_not_mem (hnone hnamed)]
    exact Nat.zero_le _
  | fail postFix hpostFix =>
    rw [length_erase_of_mem hpostFix]
    simp only [count_append, count_cons_self] at h ⊢
    omega
  | ready postFix hpostFix podKey =>
    rw [length_erase_of_mem hpostFix]
    simp only [count_append, count_cons_self, count_cons] at h ⊢
    simp
    omega

omit [DecidableEq ι] in
theorem Starting.congr (h : w.Starting) (hpool : w₁.pool = w.pool) : w₁.Starting := by
  rwa [Starting, hpool]

theorem Starting.move {s s₁ : World ι × List (Channel ι)} (h : s.1.Starting)
    (hmove : Move races image s s₁) : s₁.1.Starting := by
  obtain ⟨pool, hpool, heq⟩ := hmove.pool
  unfold Starting
  rw [heq, forall_update_iff s.1.pool fun img pool => img ≠ [] → pool.1.count none ≤ pool.2.length]
  exact ⟨fun hne => hpool.starting hne (h image hne), fun img _ => h img⟩

/-- Every call names an image, and no call finishes between the loops of `findBestPod` while
    requests are redistributed. -/
def InOrder : World ι → Event ι → Prop
  | _, .start _ image => image ≠ []
  | _, .handleReady _ _ _ _ _ races => ∀ race ∈ races, race.between = []
  | _, _ => True

instance (w : World ι) (ev : Event ι) : Decidable (w.InOrder ev) := by
  cases ev <;> dsimp only [InOrder] <;> infer_instance

omit [DecidableEq ι] in
theorem InOrder.not_races (h : w.InOrder ev) : ¬Races ev := by
  cases ev with
  | handleReady image postFix podKey now health races =>
    rintro ⟨race, hrace, hne⟩
    exact hne (h race hrace)
  | _ => exact id

/-! Runs -/

structure Inv (w : World ι) : Prop where
  kept : w.Kept True [] []
  starting : w.Starting
  named : w.Named (· ≠ [])

theorem Inv.step (h : w.Inv) (hok : w.InOrder ev) (hstep : w.step pe ev = some w₁) : w₁.Inv := by
  have hnamed := h.named.step (fun _ _ hev => by rw [hev] at hok; exact hok) hstep
  obtain hcall | ⟨image, hmoves⟩ := step_cases hstep
  · exact ⟨h.kept.call hcall, h.starting.congr hcall.pool, hnamed⟩
  · obtain ⟨hkept, hstarting, -⟩ := hmoves.invariant
      (P := fun w hand => w.Kept True image hand ∧ w.Starting ∧ w.Named (· ≠ []))
      (fun _ _ hmove h => ⟨h.1.move (fun hraces => absurd hraces hok.not_races) hmove h.2.2,
        h.2.1.move hmove, h.2.2.move hmove⟩) ⟨h.kept.any_image image, h.starting, h.named⟩
    exact ⟨hkept.any_image [], hstarting, hnamed⟩

omit [DecidableEq ι] in
theorem inv_init : ({} : World ι).Inv where
  kept := kept_init
  starting := fun _ _ => Nat.le_refl 0
  named := named_init

/-- Every request that a call waits for is on its way to the manager or has been received.
    One that has been received is answered once, or it is in one waitlist, once, of a pod
    that is being started and for which a message is to come. No channel gets more than the
    one response that it has room for. -/
structure Delivered (w : World ι) : Prop where
  asked : ∀ i ch, w.phase i = .waiting ch → ch ∈ w.requests ∨ ch ∈ w.received
  room : ∀ ch, (w.responses ch).length ≤ 1
  received : ∀ ch ∈ w.received,
    (w.responses ch).length = 1 ∧ (∀ img, ch ∉ w.waiting img) ∨
    w.responses ch = [] ∧ (∀ img, (w.waiting img).count ch = if img = ch.image then 1 else 0) ∧
      ∃ pod ∈ pending (w.functions ch.image).pods, ch ∈ pod.waitlist ∧
        (pending (w.functions ch.image).pods).length ≤ (w.creating ch.image).length

theorem Inv.delivered (h : w.Inv) : w.Delivered := by
  have hwaits : Waits True w.waiting w.responses w.received :=
    h.kept.1.perm fun img => by rw [unanswered_nil]
  refine ⟨fun i ch hph => mem_append.mp (h.named.asked i ch hph), hwaits.once, ?_⟩
  intro ch hch
  obtain hwait | hresp := hwaits.complete trivial ch hch
  · refine .inr ⟨(hwaits.quiet _ ch hwait).2.1, ?_, ?_⟩
    · intro img
      split
      · rename_i heq
        rw [heq]
        exact count_eq_one_of_mem (hwaits.nodup _) hwait
      · rename_i hne
        refine count_eq_zero_of_not_mem ?_
        intro hmem
        exact hne (hwaits.quiet img ch hmem).1.symm
    · have hpend := hwait
      rw [waiting, waiting_eq_pending (h.kept.2 ch.image)] at hpend
      obtain ⟨pod, hpod, hin⟩ := mem_flatMap.mp hpend
      refine ⟨pod, hpod, hin, ?_⟩
      rw [← count_pending]
      exact h.starting ch.image (h.named.sent ch (mem_append_right _ hch)).2
  · refine .inl ⟨?_, ?_⟩
    · have hpos := length_pos_of_ne_nil hresp
      have honce := hwaits.once ch
      omega
    · intro img hmem
      exact hresp (hwaits.quiet img ch hmem).2.1

end World

/-- **In every state of a run in order, every request that the manager has received has its
    one response, or is in one waitlist of a pod that is still being started.** -/
theorem request_answered_once [DecidableEq ι] (pe : PodEvaluatorOptions) {es : List (Event ι)}
    {w : World ι} (hok : Along (World.step pe) World.InOrder {} es)
    (hrun : run (World.step pe) {} es = some w) : w.Delivered := by
  have hstep : ∀ (w : World ι) ev w₁, w.Inv → w.InOrder ev → w.step pe ev = some w₁ → w₁.Inv :=
    fun _ _ _ h hok hstep => h.step hok hstep
  exact (run_invariant hstep World.inv_init hok hrun).delivered

/-- One pod can wait before a second one is started, and there are at most two. -/
def twoPods : PodEvaluatorOptions where
  podTTL := 10
  maxWaitlistLength := 1
  maxParallelPodsPerFunction := 2
  maxGrpcRetries := 1

/-- A call is made, and the manager handles its request. -/
def ask (i : Nat) : List (Event Nat) := [.start i "a", .send i, .handleRequest 0 none []]

/-- Four calls: the first and the third have the pod that is ready, the second and the
    fourth wait for one that fails. Then their requests are redistributed. -/
def failedRun (races : List (World.Race Nat)) : List (Event Nat) :=
  ask 0 ++ [.handleReady "a" 1 (some "p") 0 (fun _ => {}) [], .receive 0] ++
    ask 1 ++ ask 2 ++ ask 3 ++ [.handleReady "a" 2 none 0 (fun _ => {}) races]

/-- What the calls that waited for the pod get, and who still waits. -/
def answers (w : World Nat) : List (List Response) × List (Channel Nat) :=
  ([1, 3].map fun i => w.responses ⟨"a", i, 0⟩, w.waiting "a")

theorem request_answered_once_failedRun :
    ∃ w, run (World.step twoPods) {} (failedRun []) = some w ∧
      answers w = ([[.pod "p" 0], [.pod "p" 0]], []) ∧ w.Delivered := by
  refine exists_reached (by decide +kernel) fun w hw _ => ?_
  exact request_answered_once twoPods (by decide +kernel) hw

/-- **A request is lost**: the first call finishes between the two loops of the second
    `findBestPod`, which then finds no pod with the load that it has read. The fourth call
    has no response and waits for no pod. -/
theorem request_lost :
    (run (World.step twoPods) {} (failedRun [{}, { between := [(0, .ok)] }])).map answers =
      some ([[.pod "p" 0], []], []) := by
  decide +kernel

end Porch.PodEval
