import Porch.PrController.Footprint
import Porch.PrController.Webhook

/- What a call and a move leave alone. -/
namespace Porch.PrController.Cluster

open Go

variable {c c' : Cluster} {o : Outcome}

theorem attempt_cases {α : Type} {ok : Except Str α × Cluster} {r : Except Str α}
    (h : c.attempt o ok = some (r, c')) :
    (∃ err, o.err = some err ∧ r = .error err ∧ c' = c) ∨ (o.err = none ∧ (r, c') = ok) := by
  unfold attempt at h
  split at h
  · next err herr =>
    cases h
    exact .inl ⟨err, herr, rfl, rfl⟩
  · next herr =>
    cases h
    exact .inr ⟨herr, rfl⟩

variable {pr : PackageRevision} {e : Call} {m : Move} {r : Answer e}

theorem no_close_of_isRead (e : Call) (he : e.isRead = true) : ∀ draft, e ≠ .closeDraft draft := by
  rintro draft rfl
  cases he

theorem patch_cases {r : Except Str PackageRevision} (h : c.patch o pr = some (r, c')) :
    (∃ err, o.err = some err ∧ r = .error err ∧ c' = c) ∨
      (o.err = none ∧ r = .ok pr ∧ c' = c.write pr) := by
  obtain herr | ⟨herr, heq⟩ := attempt_cases h
  · exact .inl herr
  · cases heq
    exact .inr ⟨herr, rfl, rfl⟩

theorem onPackage_cases {α : Type} {ok : Package → Except Str α × Cluster} {r : Except Str α}
    (h : c.onPackage o ok = some (r, c')) : (∃ err, r = .error err ∧ c' = c) ∨
      (∃ p, c.package = some p ∧ o.err = none ∧ (r, c') = ok p) := by
  unfold onPackage at h
  split at h
  · obtain ⟨err, -, rfl, rfl⟩ | ⟨-, heq⟩ := attempt_cases h
    · exact .inl ⟨err, rfl, rfl⟩
    · cases heq
      exact .inl ⟨_, rfl, rfl⟩
  · next p hp =>
    obtain ⟨err, -, rfl, rfl⟩ | ⟨herr, heq⟩ := attempt_cases h
    · exact .inl ⟨err, rfl, rfl⟩
    · exact .inr ⟨p, hp, herr, heq⟩

/-- The state up to what is only recorded of reads and renders. -/
theorem exec_isRead (he : e.isRead = true) (h : c.exec o e = some (r, c')) :
    c' = { c with outputs := c'.outputs, readBasis := c'.readBasis } := by
  have hattempt : ∀ {α : Type} {a : α} {r : Except Str α},
      c.attempt o (.ok a, c) = some (r, c') → c' = c := by
    intro α a r h
    obtain ⟨err, -, -, rfl⟩ | ⟨-, heq⟩ := attempt_cases h
    · rfl
    · cases heq
      rfl
  cases e with
  | get | getLive | now | pollAgain => cases h; rfl
  | getRepository | fetchSource _ | fetchSubpackage _ | updateResources _ _
  | updateLatestRevisionLabels | createMainPackageRevision => rw [hattempt h]
  | getContent _ | createDraftFromExisting =>
    obtain ⟨err, -, rfl⟩ | ⟨p, -, -, heq⟩ := onPackage_cases h
    · rfl
    · cases heq
      rfl
  | getResources use =>
    obtain ⟨err, -, rfl⟩ | ⟨p, -, -, heq⟩ := onPackage_cases h
    · rfl
    · cases heq
      cases use <;> rfl
  | render _ =>
    have heq : c.renderAnswer o = (r, c') := Option.some.inj h
    unfold renderAnswer at heq
    split at heq
    · cases heq; rfl
    · split at heq <;> cases heq <;> rfl
  | _ => cases he

variable (c o) in
def effect : Call → Cluster
  | .patchFinalizer owner =>
    c.write { c.live with
      hasFinalizer := true, hasOwnerReference := owner || c.live.hasOwnerReference }
  | .patchRepositoryLabel value => c.write { c.live with repositoryLabel := some value }
  | .patchLatestRevisionLabel value => c.write { c.live with latestRevisionLabel := some value }
  | .patchRenderRequest value => c.write { c.live with renderRequest := value }
  | .applyStatus status ready rendered => c.applyStatus o status ready rendered
  | .applyRenderStatus rendering observed rendered => c.applyRenderStatus o rendering observed rendered
  | .applySpec gates metadata => c.applySpec gates metadata
  | .applyPackageConditions conditions =>
    c.write { c.live with status := { c.live.status with packageConditions := conditions } }
  | .createNewDraft => c.createNewDraft.2
  | .closeDraft draft => c.closeDraft draft
  | .updateLifecycle desired =>
    match c.package with
    | none => c
    | some p => (c.updateLifecycle o desired p).2
  | _ => c

/-- **What a call can do.** It changes nothing but what is recorded of reads, or it is a
    write that works. -/
theorem exec_cases (h : c.exec o e = some (r, c')) :
    c' = { c with outputs := c'.outputs, readBasis := c'.readBasis } ∨
      (e.isRead = false ∧ o.err = none ∧ c' = c.effect o e) := by
  have hattempt : ∀ {α : Type} {ok : Except Str α × Cluster} {r : Except Str α},
      c.attempt o ok = some (r, c') → c' = c ∨ (o.err = none ∧ c' = ok.2) := by
    intro α ok r h
    obtain ⟨err, -, -, rfl⟩ | ⟨herr, heq⟩ := attempt_cases h
    · exact .inl rfl
    · exact .inr ⟨herr, congrArg Prod.snd heq⟩
  have hwrite : ∀ {α : Type} {ok : Except Str α × Cluster} {r : Except Str α},
      c.attempt o ok = some (r, c') → e.isRead = false → ok.2 = c.effect o e →
      c' = { c with outputs := c'.outputs, readBasis := c'.readBasis } ∨
        (e.isRead = false ∧ o.err = none ∧ c' = c.effect o e) := by
    intro α ok r h hread hok
    obtain rfl | ⟨herr, heq⟩ := hattempt h
    · exact .inl rfl
    · exact .inr ⟨hread, herr, heq.trans hok⟩
  cases e with
  | get | getLive | getRepository | now | pollAgain | fetchSource | fetchSubpackage | getContent
  | getResources | createDraftFromExisting | updateResources | render | updateLatestRevisionLabels
  | createMainPackageRevision => exact .inl (exec_isRead rfl h)
  | patchFinalizer | patchRepositoryLabel | patchLatestRevisionLabel | patchRenderRequest
  | applyStatus | applyRenderStatus | applySpec | applyPackageConditions | createNewDraft
  | closeDraft => exact hwrite h rfl rfl
  | updateLifecycle desired =>
    obtain ⟨err, -, rfl⟩ | ⟨p, hp, herr, heq⟩ := onPackage_cases h
    · exact .inl rfl
    · refine .inr ⟨rfl, herr, ?_⟩
      rw [effect, hp]
      exact congrArg Prod.snd heq

/-! The object -/

theorem effect_updateLifecycle (desired : Option Lifecycle) :
    c.effect o (.updateLifecycle desired) =
      { c with package := (c.effect o (.updateLifecycle desired)).package } := by
  simp only [effect]
  split
  · rfl
  · cases desired <;> rfl

theorem exec_isRead_live (he : e.isRead = true)
    (h : c.exec o e = some (r, c')) : c'.live = c.live ∧ c'.past = c.past := by
  rw [exec_isRead he h]
  exact ⟨rfl, rfl⟩

/-- The call writes the status of the object. -/
def writesStatus : Call → Bool
  | .applyStatus _ _ _ | .applyRenderStatus _ _ _ | .applyPackageConditions _ => true
  | _ => false

theorem effect_live (e : Call) : ((c.effect o e).live = c.live ∧ (c.effect o e).past = c.past) ∨
      (c.effect o e).past = c.live :: c.past := by
  cases e with
  | updateLifecycle desired =>
    rw [effect_updateLifecycle]
    exact .inl ⟨rfl, rfl⟩
  | _ => first | exact .inr rfl | exact .inl ⟨rfl, rfl⟩

theorem effect_status (he : writesStatus e = false) :
    (c.effect o e).live.status = c.live.status := by
  cases e with
  | updateLifecycle desired =>
    rw [effect_updateLifecycle]
  | applyStatus | applyRenderStatus | applyPackageConditions => cases he
  | _ => rfl

/-- The call writes the part of the status that `packagerev-controller` owns. -/
def writesCore : Call → Bool
  | .applyStatus _ _ _ => true
  | _ => false

theorem effect_core (he : writesCore e = false) :
    (c.effect o e).live.status.toCoreStatus = c.live.status.toCoreStatus := by
  cases e with
  | applyStatus => cases he
  | updateLifecycle desired => rw [effect_status rfl]
  | _ => rfl

def writesPackage : Call → Bool
  | .createNewDraft | .closeDraft _ | .updateLifecycle _ => true
  | _ => false

theorem effect_package (he : writesPackage e = false) : (c.effect o e).package = c.package := by
  cases e with
  | createNewDraft | closeDraft | updateLifecycle => cases he
  | _ => rfl

theorem effect_pushes (e : Call) : (c.effect o e).pushes = c.pushes := by
  cases e with
  | updateLifecycle desired =>
    rw [effect_updateLifecycle]
  | _ => rfl

theorem effect_spec (e : Call) : (c.effect o e).live.spec.lifecycle = c.live.spec.lifecycle ∧
    (c.effect o e).live.spec.source = c.live.spec.source ∧
    (c.effect o e).live.spec.subpackageOperation = c.live.spec.subpackageOperation := by
  cases e with
  | updateLifecycle desired =>
    rw [effect_updateLifecycle]
    exact ⟨rfl, rfl, rfl⟩
  | _ => exact ⟨rfl, rfl, rfl⟩

theorem effect_sourceClosed (he : ∀ draft, e = .closeDraft draft → draft.isNew = false) :
    (c.effect o e).sourceClosed = c.sourceClosed := by
  cases e with
  | updateLifecycle desired =>
    rw [effect_updateLifecycle]
  | closeDraft draft => simp [effect, closeDraft, he draft rfl]
  | _ => rfl

/-- What a move can do. -/
inductive Moved (c : Cluster) : Move → Cluster → Prop
  | update {new labels annotations} (hvalid : validateUpdate c.live (c.edited new) = none) :
    Moved c (.update new) { c.write (c.edited new) with
      kptfileLabels := labels, kptfileAnnotations := annotations }
  | pushOpen {files p} (hp : c.package = some p) (hdraft : p.lifecycle = .draft) :
    Moved c (.pushOpen files) { c with
      pushes := c.pushes ++ [{ draft := ⟨false, .draft, p.revision, files⟩ }] }
  | pushClose {i version push} (hpush : c.pushes[i]? = some push) (hopen : push.version = none) :
    Moved c (.pushClose i version) { c with
      package := some ⟨push.draft.lifecycle, push.draft.revision, push.draft.resources⟩
      pushes := c.pushes.set i { push with version := some version }
      lastPush := c.lastPush + 1, basis := c.lastPush + 1 }
  | annotated {i push version} (hpush : c.pushes[i]? = some push)
    (hver : push.version = some version) : Moved c (.pushAnnotate i true) { c with
      live := { c.live with renderRequest := version }, past := c.live :: c.past
      pushes := c.pushes.eraseIdx i }
  | dropped {i} : Moved c (.pushAnnotate i false) { c with pushes := c.pushes.eraseIdx i }

theorem moved (h : c.move m = some c') : Moved c m c' := by
  cases m with
  | update new =>
    simp only [move, update] at h
    split at h
    · cases h
    · next hvalid =>
      cases h
      exact .update hvalid
  | pushOpen files =>
    obtain ⟨p, hp, h⟩ := Option.bind_eq_some_iff.mp h
    split at h
    · next hdraft =>
      cases h
      rw [hdraft]
      exact .pushOpen hp hdraft
    · cases h
  | pushClose i version =>
    obtain ⟨push, hpush, h⟩ := Option.bind_eq_some_iff.mp h
    dsimp only at h
    split at h
    · next hopen =>
      cases h
      exact .pushClose hpush hopen
    · cases h
  | pushAnnotate i works =>
    obtain ⟨push, hpush, h⟩ := Option.bind_eq_some_iff.mp h
    obtain ⟨version, hver, h⟩ := Option.bind_eq_some_iff.mp h
    cases works with
    | true => cases h; exact .annotated hpush hver
    | false => cases h; exact .dropped

theorem move_live (h : c.move m = some c') : (c'.live = c.live ∧ c'.past = c.past) ∨
      (c'.live.status = c.live.status ∧ c'.past = c.live :: c.past) := by
  cases moved h with
  | update | annotated => exact .inr ⟨rfl, rfl⟩
  | pushOpen | pushClose | dropped => exact .inl ⟨rfl, rfl⟩

theorem move_status (h : c.move m = some c') : c'.live.status = c.live.status := by
  obtain ⟨hlive, -⟩ | ⟨hstat, -⟩ := move_live h
  · rw [hlive]
  · exact hstat

theorem move_sourceClosed (h : c.move m = some c') : c'.sourceClosed = c.sourceClosed := by
  cases moved h <;> rfl

/-- The pushes under way have been opened on drafts. -/
def PushesDraft (c : Cluster) : Prop := ∀ push ∈ c.pushes, push.draft.lifecycle = .draft

theorem PushesDraft.move (h : c.PushesDraft) (hm : c.move m = some c') : c'.PushesDraft := by
  cases moved hm with
  | update => exact h
  | pushOpen =>
    intro push hpush
    obtain hpush | hpush := List.mem_append.mp hpush
    · exact h push hpush
    · rw [List.mem_singleton.mp hpush]
  | pushClose hpush =>
    intro push' hpush'
    obtain hmem | rfl := List.mem_or_eq_of_mem_set hpush'
    · exact h push' hmem
    · exact (h _ (List.mem_of_getElem? hpush) :)
  | annotated | dropped => exact fun push hp => h push (List.mem_of_mem_eraseIdx hp)

theorem PushesDraft.exec (h : c.PushesDraft)
    (hexec : c.exec o e = some (r, c')) : c'.PushesDraft := by
  obtain heq | ⟨-, -, rfl⟩ := exec_cases hexec
  · rw [heq]
    exact h
  · rw [PushesDraft, effect_pushes]
    exact h

/-- Every version of the object, as it is and as it was, meets `P`. -/
def Versions (P : PackageRevision → Prop) (c : Cluster) : Prop := ∀ v ∈ c.live :: c.past, P v

variable {P : PackageRevision → Prop}

theorem Versions.write {v : PackageRevision} (h : c.Versions P) (hv : P v)
    (hlive : c'.live = v) (hpast : c'.past = c.live :: c.past) : c'.Versions P := by
  intro u hu
  rw [hlive, hpast] at hu
  obtain rfl | hu := List.mem_cons.mp hu
  · exact hv
  · exact h u hu

theorem Versions.same (h : c.Versions P) (hlive : c'.live = c.live) (hpast : c'.past = c.past) :
    c'.Versions P := by
  intro v hv
  rw [hlive, hpast] at hv
  exact h v hv

theorem Versions.move (h : c.Versions P)
    (hP : ∀ v w : PackageRevision, v.status = w.status → P v → P w) (hm : c.move m = some c') :
    c'.Versions P := by
  obtain ⟨hlive, hpast⟩ | ⟨hstat, hpast⟩ := move_live hm
  · exact h.same hlive hpast
  · exact h.write (hP _ _ hstat.symm (h _ List.mem_cons_self)) rfl hpast

theorem Versions.exec (h : c.Versions P)
    (he : e.isRead = false → o.err = none → P (c.effect o e).live)
    (hexec : c.exec o e = some (r, c')) : c'.Versions P := by
  obtain heq | ⟨hread, herr, rfl⟩ := exec_cases hexec
  · rw [heq]
    exact h
  · obtain ⟨hlive, hpast⟩ | hpast := effect_live (c := c) (o := o) e
    · exact h.same hlive hpast
    · exact h.write (he hread herr) rfl hpast

theorem Versions.move_source {source : Option Source}
    (h : c.Versions fun v => v.spec.source = source) (hm : c.move m = some c') :
    c'.Versions fun v => v.spec.source = source := by
  have hlive := h _ List.mem_cons_self
  cases moved hm with
  | update hvalid => exact h.write ((validateUpdate_admitted hvalid).source.trans hlive) rfl rfl
  | @annotated _ _ version =>
    exact h.write (v := { c.live with renderRequest := version }) hlive rfl rfl
  | pushOpen | pushClose | dropped => exact h

theorem Versions.exec_source {source : Option Source}
    (h : c.Versions fun v => v.spec.source = source) (hexec : c.exec o e = some (r, c')) :
    c'.Versions fun v => v.spec.source = source := by
  have hlive := h _ List.mem_cons_self
  refine h.exec (fun _ _ => ?_) hexec
  rw [(effect_spec e).2.1]
  exact hlive

theorem read_mem {lag : Nat} (h : c.read o lag = .ok pr) : pr ∈ c.live :: c.past := by
  unfold read at h
  split at h
  · cases h
  · cases h
  · next hget =>
    cases h
    exact List.mem_of_getElem? hget

theorem read_zero (h : c.read o 0 = .ok pr) : pr = c.live := by
  unfold read at h
  split at h
  · cases h
  · cases h
  · next hget =>
    cases h
    exact (Option.some.inj hget).symm

/-! The reads and the first steps of a reconcile, in a run that meets a condition -/

section Rules

open Lts.Prog

variable (okBusy : Cluster → Move → Prop) (okCall : Cluster → Call → Outcome → Prop)

/-- What can happen during a reconcile, as the condition allows it. -/
def rules : Rules Call Answer Cluster :=
  Lts.System.rules move (fun c call o => c.exec o call) okBusy okCall

variable {okBusy okCall} {safe : Cluster → Call → Prop} {H : PackageRevision → Cluster → Prop}
  {I : Cluster → Prop} {pr : PackageRevision}

section

variable (hI : Stable (rules okBusy okCall) I) (hH : ∀ pr, Stable (rules okBusy okCall) (H pr))
include hI hH

theorem get_triple (hsafe : ∀ c, I c → safe c .get)
    (hread : ∀ c o pr, I c → okCall c .get o → c.read o o.lag = .ok pr → H pr c) :
    Triple (rules okBusy okCall) safe I (call .get) (Answered H I) := by
  refine triple_perform hI (answered_stable hH hI) hsafe ?_
  rintro c r c' h ⟨o, hok, hexec⟩
  have heq : (c.read o o.lag, c) = (r, c') := Option.some.inj hexec
  cases heq
  cases hr : c.read o o.lag with
  | error err => exact h
  | ok pr => exact hread c o pr h hok hr

def completes : Call → Bool
  | .getRepository | .patchFinalizer _ | .patchRepositoryLabel _ | .patchLatestRevisionLabel _ => true
  | _ => false

/-- The first steps: their patches touch neither the spec, nor the status, nor the request for
    a render. `G` is what the condition says of the state in which they are made. -/
theorem ensureMetadata_rules {G : Cluster → Prop} (hHI : ∀ pr c, H pr c → I c)
    (hsafe : ∀ c e, completes e = true → safe c e)
    (hG : ∀ c e o, completes e = true → e.isRead = false → okCall c e o → G c)
    (howner : ∀ pr c c' o r, H pr c → c.exec o .getRepository = some (r, c') → H pr c')
    (hpatch : ∀ pr new c, H pr c → G c → new.spec = c.live.spec →
      new.renderRequest = c.live.renderRequest → new.status = c.live.status → H new (c.write new)) :
    Triple (rules okBusy okCall) safe (H pr) (ensureMetadata pr) (Answered H I) := by
  have hsto : ∀ {pr new : PackageRevision} {c c' : Cluster} {o : Outcome}
      {r : Except Str PackageRevision}, H pr c → c.patch o new = some (r, c') → G c →
      new.spec = c.live.spec → new.renderRequest = c.live.renderRequest →
      new.status = c.live.status → Answered H I r c' := by
    intro pr new c c' o r h hexec hg hspec hreq hstat
    obtain ⟨err, -, rfl, rfl⟩ | ⟨-, rfl, rfl⟩ := patch_cases hexec
    · exact hHI pr c' h
    · exact hpatch pr new c h hg hspec hreq hstat
  refine ensureMetadata_triple hH hI ?_ ?_ ?_ ?_
  · intro pr
    refine triple_perform (hH pr) (fun _ => hH pr) (fun c _ => hsafe c _ rfl) ?_
    rintro c r c' h ⟨o, -, hexec⟩
    exact howner pr c c' o r h hexec
  -- the three patches
  all_goals
    intro pr value
    refine triple_perform (hH pr) (answered_stable hH hI) (fun c _ => hsafe c _ rfl) ?_
    rintro c r c' h ⟨o, hok, hexec⟩
    exact hsto h hexec (hG c _ o rfl rfl hok) rfl rfl rfl

end

end Rules

end Porch.PrController.Cluster
