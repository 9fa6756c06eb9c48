import Porch.Db.SyncConverge

/- When sync leaves the drafts of the database alone (`sync_keeps_unpublished`): the
   second half of sync writes the external package revisions that are not in the cached map
   over the rows of their names. The cached map leaves drafts out unless drafts are pushed
   to git, and a key has more in it than its name, so the row that such a write finds can
   be a draft of the database (`external_draft_overwrites_cached`). -/
namespace Porch.Db

open Go Sql Proc

/-! Caching external package revisions -/

/-- What sync stores for an external package revision: nothing when it cannot be read,
    or is published without a revision. -/
def savedContent (e : ExtPackageRevision) : Option (Lifecycle × Str × Resources) :=
  match e.getPackageRevision, e.getResources with
  | .ok spec, .ok resources =>
    if e.key.revision = 0 && lifecycleIsPublished spec.lifecycle then none
    else some (spec.lifecycle, spec.tasks, sanitizeResources resources)
  | _, _ => none

section Cache

variable {repo : DbRepository} {opened : RepositoryKey → Bool} {k : Str × Str}
  {o : Option (Lifecycle × Str × Resources)} {e : ExtPackageRevision}

theorem savedContent_eq {spec : ExtSpec} {resources : Resources}
    (hspec : e.getPackageRevision = .ok spec) (hres : e.getResources = .ok resources) (now : Nat) :
    savedContent e = if e.key.revision = 0 && lifecycleIsPublished spec.lifecycle then none
      else some (cachedOf repo now e spec resources).content := by
  simp only [savedContent, hspec, hres]
  rfl

theorem cacheExternalPR_stillHolds (now : Nat)
    (he : dbKey e.key = k → ∀ c, savedContent e = some c → o = some c) :
    Proc.Keeps (StillHolds k o) (cacheExternalPR repo opened now e) := by
  intro db
  unfold cacheExternalPR
  cases hspec : e.getPackageRevision with
  | error err => exact StillHolds.frame.refl db
  | ok spec =>
    cases hres : e.getResources with
    | error err => exact StillHolds.frame.refl db
    | ok resources =>
      show StillHolds k o db ((if _ then _ else _ : Proc Database CacheError Unit) db).2
      split
      · exact StillHolds.frame.refl db
      · next hskip =>
        refine StillHolds.frame.bind ?_ (fun _ => StillHolds.frame.pure) db
        apply repo.savePackageRevision_stillHolds
        intro hk
        apply he hk
        rw [savedContent_eq hspec hres now, if_neg hskip]

theorem cacheExternalPR_ok {now : Nat} {db db' : Database} {u : Unit}
    {c : Lifecycle × Str × Resources} (h : cacheExternalPR repo opened now e db = (.ok u, db'))
    (hc : savedContent e = some c) : contentAt db' (dbKey e.key) = some c := by
  obtain ⟨spec, db₁, hq₁, h₁⟩ := bind_eq_ok.mp h
  obtain ⟨hspec, rfl⟩ := query_eq_ok.mp hq₁
  obtain ⟨resources, db₂, hq₂, h₂⟩ := bind_eq_ok.mp h₁
  obtain ⟨hres, rfl⟩ := query_eq_ok.mp hq₂
  rw [savedContent_eq hspec hres now] at hc
  split at h₂
  · next hskip =>
    rw [if_pos hskip] at hc
    cases hc
  · next hskip =>
    rw [if_neg hskip] at hc
    obtain ⟨d, db₃, hsave, h₃⟩ := bind_eq_ok.mp h₂
    obtain ⟨-, rfl⟩ := pure_eq_ok.mp h₃
    rw [← hc]
    exact DbRepository.savePackageRevision_contentAt hsave

variable {now : PackageRevisionKey → Nat} {external : PRMap ExtPackageRevision}

theorem cacheExternalPRs_stillHolds (ks : List PackageRevisionKey)
    (he : ∀ key ∈ ks, ∀ e, external.lookup key = some e → dbKey e.key = k →
      ∀ c, savedContent e = some c → o = some c) :
    Proc.Keeps (StillHolds k o) (cacheExternalPRs repo opened now external ks) := by
  induction ks with
  | nil => exact StillHolds.frame.pure
  | cons key ks ih =>
    have hrest := ih fun key' hkey' => he key' (List.mem_cons_of_mem _ hkey')
    unfold cacheExternalPRs
    cases hlook : external.lookup key with
    | none => exact hrest
    | some e =>
      refine StillHolds.frame.bind ?_ fun _ => hrest
      exact cacheExternalPR_stillHolds _ (he key List.mem_cons_self e hlook)

/-- The last package revision of a loop that succeeds has been saved. -/
theorem cacheExternalPRs_last (ks : List PackageRevisionKey) {key : PackageRevisionKey}
    {db db' : Database} {u : Unit} {c : Lifecycle × Str × Resources}
    (h : cacheExternalPRs repo opened now external (ks ++ [key]) db = (.ok u, db'))
    (hlook : external.lookup key = some e) (hc : savedContent e = some c) :
    contentAt db' (dbKey e.key) = some c := by
  induction ks generalizing db with
  | nil =>
    rw [List.nil_append, cacheExternalPRs, hlook] at h
    obtain ⟨_, db₁, he, h⟩ := bind_eq_ok.mp h
    obtain ⟨-, rfl⟩ := pure_eq_ok.mp h
    exact cacheExternalPR_ok he hc
  | cons key' ks ih =>
    rw [List.cons_append, cacheExternalPRs] at h
    cases hlook' : external.lookup key' with
    | none =>
      rw [hlook'] at h
      exact ih h
    | some e' =>
      rw [hlook'] at h
      obtain ⟨_, db₁, -, h⟩ := bind_eq_ok.mp h
      exact ih h

end Cache

/-! Sync as a whole -/

section Whole

variable (repo : DbRepository) (opened : RepositoryKey → Bool) (left right : MapOrder)
  (now : PackageRevisionKey → Nat) (ext : External) (s : Database × RepositorySync)

/-- The row of `k` is a draft or proposed, with content `c`, and the run does not
    delete it. -/
def StaysUnpublished (k : Str × Str) (c : Lifecycle × Str × Resources) : Prop :=
  contentAt s.1 k = some c ∧ isDraftOrProposed c.1 ∧
    contentAt (syncCachedOnly repo opened left right ext s).2.1 k ≠ none

/-- The run leaves the content of every draft and proposed package revision that it
    does not delete. -/
def KeepsUnpublished : Prop :=
  ∀ k c, StaysUnpublished repo opened left right ext s k c →
    contentAt (sync repo opened left right now ext s).2.1 k = some c

/-- The listing: the one that sync remembers, unless the version is another. -/
def externalMap (m : RepositorySync) : Except CacheError (PRMap ExtPackageRevision) := do
  let version ← ext.version
  if m.lastExternalRepoVersion = version then return m.lastExternalPRMap
  else return prSlice2Map (·.key) (← ext.listing)

/-- A stored row of the repository has this key, and is published unless drafts are pushed. -/
def Compared (db : Database) (k : PackageRevisionKey) : Prop :=
  ∃ x ∈ db.pkgRevs, rowKey db x = some k ∧ repo.repoKey.matches k.pkgKey.repoKey ∧
    opened k.pkgKey.repoKey ∧ InScope repo x

/-- The listing has another content under the name, and not under the key of a row that is
    compared with it. -/
def Overwritten (db : Database) (external : PRMap ExtPackageRevision) (n : Str × Str)
    (c : Lifecycle × Str × Resources) : Prop :=
  ∃ k e c', external.lookup k = some e ∧ dbKey e.key = n ∧ savedContent e = some c' ∧ c' ≠ c ∧
    ¬ Compared repo opened db k

variable {repo opened ext s}

theorem getExternalPRMap_fst : (getExternalPRMap ext s).1 = externalMap ext s.2 := by
  simp only [getExternalPRMap, externalMap, bind, Proc.bind, Proc.query, Proc.this]
  cases ext.version with
  | error e => rfl
  | ok v =>
    dsimp only [Except.bind]
    split
    · rfl
    · cases ext.listing <;> rfl

theorem mem_getCachedPRMap (repo : DbRepository) (opened : RepositoryKey → Bool) (db : Database) :
    ∃ cached, getCachedPRMap opened repo db = (.ok cached, db) ∧
      ∀ k, k ∈ cached ↔ Compared repo opened db k := by
  obtain ⟨prs, hlist, hmem⟩ := mem_listPackageRevisions opened db repo.repoKey
    (if repo.pushDraftsToGit then [] else [.published, .deletionProposed])
  refine ⟨_, bind_eq_ok.mpr ⟨prs, db, hlist, rfl⟩, fun k => mem_prSlice2Map.trans ⟨?_, ?_⟩⟩
  · rintro ⟨pr, hpr, rfl⟩
    obtain ⟨x, hx, hjoin, hmatch, hopen, hlife⟩ := (hmem pr).mp hpr
    exact ⟨x, hx, by rw [rowKey, hjoin]; rfl, hmatch, hopen, inScope_iff.mp hlife⟩
  · rintro ⟨x, hx, hk, hmatch, hopen, hscope⟩
    obtain ⟨pr, hjoin, rfl⟩ := Option.map_eq_some_iff.mp hk
    exact ⟨pr, (hmem pr).mpr ⟨x, hx, hjoin, hmatch, hopen, inScope_iff.mpr hscope⟩, rfl⟩

variable {left right}

theorem StaysUnpublished.contentAt {k : Str × Str} {c : Lifecycle × Str × Resources}
    (h : StaysUnpublished repo opened left right ext s k c) :
    contentAt (syncCachedOnly repo opened left right ext s).2.1 k = some c := by
  obtain ⟨hc, -, hstay⟩ := h
  obtain hnone | ⟨hrow, hres⟩ := syncCachedOnly_erases s k
  · exact absurd (by rw [Porch.Db.contentAt, hnone, Option.map_none]) hstay
  · rw [← hc, Porch.Db.contentAt, Porch.Db.contentAt, hrow, hres]

variable (repo opened left right ext s)

/-- Sync fails with its first half, or goes on to the loop over the external package
    revisions that are not cached. -/
theorem sync_cases : (∃ e s₁, syncCachedOnly repo opened left right ext s = (.error e, s₁) ∧
      sync repo opened left right now ext s = (.error e, s₁)) ∨
    ∃ cached external pushed s₁, getCachedPRMap opened repo s.1 = (.ok cached, s.1) ∧
      externalMap ext s.2 = .ok external ∧ (syncCachedOnly repo opened left right ext s).2 = s₁ ∧
      handleInCachedOnly repo opened cached (comparePRMaps left right cached external).leftOnly s.1 =
        (.ok pushed, s₁.1) ∧
      (sync repo opened left right now ext s).2.1 = (cacheExternalPRs repo opened now external
        (comparePRMaps left right cached external).rightOnly s₁.1).2 ∧
      ∀ prs, (sync repo opened left right now ext s).1 = .ok prs →
        (cacheExternalPRs repo opened now external
          (comparePRMaps left right cached external).rightOnly s₁.1).1 = .ok () := by
  rcases hhalf : syncCachedOnly repo opened left right ext s with
    ⟨e | ⟨cached, external, comparison, prsToPush⟩, s₁⟩
  · refine .inl ⟨e, s₁, rfl, ?_⟩
    simp only [sync, bind, Proc.bind, hhalf]
  · obtain ⟨db, m⟩ := s
    obtain ⟨_, hcached, -⟩ := mem_getCachedPRMap repo opened db
    obtain ⟨_, ⟨db₁, m₁⟩, hread, h⟩ := bind_eq_ok.mp hhalf
    obtain ⟨hread, rfl⟩ := onFst_eq_ok.mp hread
    dsimp only at hread
    cases hcached.symm.trans hread
    obtain ⟨_, ⟨db₂, m₂⟩, hread, h⟩ := bind_eq_ok.mp h
    have hext : (getExternalPRMap ext (db, m)).1 = externalMap ext m := getExternalPRMap_fst
    have hdb : db₂ = db := by
      have hkeeps : (getExternalPRMap ext (db, m)).2.1 = db := getExternalPRMap_keeps _
      rwa [hread] at hkeeps
    rw [hread] at hext
    obtain ⟨_, s₂, hleft, h⟩ := bind_eq_ok.mp h
    obtain ⟨heq, rfl⟩ := pure_eq_ok.mp h
    cases heq
    obtain ⟨hleft, -⟩ := onFst_eq_ok.mp hleft
    subst hdb
    refine .inr ⟨cached, external, prsToPush, s₂, hcached, hext.symm, rfl, hleft, ?_⟩
    simp only [sync, bind, Proc.bind, hhalf, Proc.onFst]
    rcases cacheExternalPRs repo opened now external
      (comparePRMaps left right cached external).rightOnly s₂.1 with ⟨_ | _, db₃⟩
    · exact ⟨rfl, fun prs h => by cases h⟩
    · exact ⟨rfl, fun _ _ => rfl⟩

/-- The order of iteration in which a key comes last. -/
def keyLast (k : PackageRevisionKey) : MapOrder where
  iter ks := ks.filter (!· == k) ++ ks.filter (· == k)
  perm ks := List.perm_append_comm.trans (List.filter_append_perm (· == k) ks)

theorem rightOnly_keyLast {cached : PRMap DbPackageRevision} {external : PRMap ExtPackageRevision}
    {k : PackageRevisionKey} (hk : k ∈ external) (hnot : k ∉ cached) :
    ∃ ks, (comparePRMaps left (keyLast k) cached external).rightOnly = ks ++ [k] := by
  have hlast : external.keys.filter (· == k) = [k] := by
    rw [List.filter_beq, List.count_eq_one_of_mem external.keys_nodup hk]
    rfl
  refine ⟨(external.keys.filter (!· == k)).filter (· ∉ cached), ?_⟩
  simp only [comparePRMaps, keyLast, List.filter_append, hlast, List.filter_singleton, hnot]
  rfl

/-- **Sync leaves a draft alone unless git lists another content under its name.** However
    the run ends, the content of every draft and proposed package revision that is not deleted
    stays when every external package revision that has its name and another content is listed
    under the key of a stored row that sync compares. If the runs succeed, in every order, this
    is also necessary, of the rows that sync does not remove. -/
theorem sync_keeps_unpublished :
    ((∀ external, externalMap ext s.2 = .ok external → ∀ n c, contentAt s.1 n = some c →
        isDraftOrProposed c.1 → ¬ Overwritten repo opened s.1 external n c) →
      KeepsUnpublished repo opened left right now ext s) ∧
    ∀ external, externalMap ext s.2 = .ok external → Healthy repo opened s.1 →
      (∀ x ∈ s.1.pkgRevs, SyncRemoves repo s.1 external x → ∀ k, rowKey s.1 x = some k →
        FindsOne repo s.1 k.pkgKey) →
      (∀ right, (∃ prs, (sync repo opened left right now ext s).1 = .ok prs) ∧
        KeepsUnpublished repo opened left right now ext s) →
      ∀ x ∈ s.1.pkgRevs, ¬ SyncRemoves repo s.1 external x → ∀ c, contentAt s.1 x.key = some c →
        isDraftOrProposed c.1 → ¬ Overwritten repo opened s.1 external x.key c := by
  constructor
  · intro hnot k c hk
    have hc := hk.contentAt
    obtain ⟨e, s₁, hhalf, hsync⟩ | ⟨cached, external, _, s₁, hcached, hext, hs₁, -, hstate, -⟩ :=
      sync_cases repo opened left right now ext s
    · rw [hhalf] at hc
      rw [hsync]
      exact hc
    · rw [hs₁] at hc
      rw [hstate]
      refine cacheExternalPRs_stillHolds _ (fun key hkey e hlook hn c' hc' => ?_) s₁.1 hc
      -- a key that is not in the cached map is not compared
      obtain ⟨_, hcached', hmem⟩ := mem_getCachedPRMap repo opened s.1
      cases hcached.symm.trans hcached'
      by_contra hne
      refine hnot external hext k c hk.1 hk.2.1 ⟨key, e, c', hlook, hn, hc', ?_, ?_⟩
      · exact fun heq => hne (by rw [heq])
      · exact mt (hmem key).mpr ((mem_rightOnly left right cached external key).mp hkey).2
  · rintro external hext h hfound hruns x hx hkeep c hc hdraft ⟨k, e, c', hlook, hn, hc', hne, hnot⟩
    obtain ⟨⟨prs, hok⟩, hkeeps⟩ := hruns (keyLast k)
    obtain ⟨_, _, -, hsync⟩ | ⟨cached, external', _, s₁, hcached, hext', hs₁, hleft, hstate, hloop⟩ :=
      sync_cases repo opened left (keyLast k) now ext s
    · rw [hsync] at hok
      cases hok
    · cases hext.symm.trans hext'
      obtain ⟨_, hcached', hmem⟩ := mem_getCachedPRMap repo opened s.1
      cases hcached.symm.trans hcached'
      obtain ⟨_, hcached', hmap⟩ := getCachedPRMap_ok h
      cases hcached.symm.trans hcached'
      -- the row is left by the first half
      obtain ⟨_, db₁, hleft', hfirst⟩ :=
        handleInCachedOnly_firstHalf left (keyLast k) h hfound hmap
      cases hleft.symm.trans hleft'
      have hstays : contentAt s₁.1 x.key ≠ none := by
        rw [contentAt, hfirst.kept x hx hkeep]
        simp
      have hfinal := hkeeps x.key c ⟨hc, hdraft, by rwa [hs₁]⟩
      obtain ⟨ks, hks⟩ := rightOnly_keyLast left
        (AList.lookup_isSome.mp (by rw [hlook]; rfl)) (mt (hmem k).mp hnot)
      rw [hks] at hstate hloop
      rw [hstate, ← hn, cacheExternalPRs_last ks (Prod.ext (hloop prs hok) rfl) hlook hc'] at hfinal
      exact hne (Option.some.inj hfinal)

end Whole

/-- A draft in the database and a published revision of the same package in git. -/
theorem sync_keeps_unpublished_beside_published :
    (sync blueprints (fun _ => true) inOrder inOrder (fun _ => 1)
        (gitOf [inGit (keyIn [] "pkg" 1 "v2") .published])
        (storeOf [dbDraft], {})).1 = .ok [] ∧
      KeepsUnpublished blueprints (fun _ => true) inOrder inOrder (fun _ => 1)
        (gitOf [inGit (keyIn [] "pkg" 1 "v2") .published])
        (storeOf [dbDraft], {}) := by
  have hok : (sync blueprints (fun _ => true) inOrder inOrder (fun _ => 1)
      (gitOf [inGit (keyIn [] "pkg" 1 "v2") .published])
      (storeOf [dbDraft], {})).1 = .ok [] := by decide
  refine ⟨hok, (sync_keeps_unpublished blueprints (fun _ => true) inOrder inOrder (fun _ => 1)
    (gitOf [inGit (keyIn [] "pkg" 1 "v2") .published]) (storeOf [dbDraft], {})).1 ?_⟩
  rintro external hext n c hc - ⟨k, e, c', hlook, rfl, -⟩
  -- the only row is the draft, and the external revision has another name
  cases hext
  have he : e = inGit (keyIn [] "pkg" 1 "v2") .published :=
    List.mem_singleton.mp (prSlice2Map_lookup hlook).1
  have hnone : contentAt (storeOf [dbDraft]) (dbKey (keyIn [] "pkg" 1 "v2")) = none := by decide
  rw [he] at hc
  cases hnone.symm.trans hc

/-- A draft in the database and a draft of the same key in git, while drafts are not
    pushed: the run succeeds and the files are those of git. -/
theorem external_draft_overwrites_cached :
    (sync blueprints (fun _ => true) inOrder inOrder (fun _ => 1)
        (gitOf [inGit (keyIn [] "pkg" 0 "v1") .draft])
        (storeOf [dbDraft], {})).1 = .ok [] ∧
      ¬ KeepsUnpublished blueprints (fun _ => true) inOrder inOrder (fun _ => 1)
        (gitOf [inGit (keyIn [] "pkg" 0 "v1") .draft]) (storeOf [dbDraft], {}) := by
  refine ⟨by decide, fun h => ?_⟩
  have hkeep := h (dbKey dbDraft.pkgRevKey) dbDraft.content ⟨by decide, by decide, by decide⟩
  revert hkeep
  decide

end Porch.Db
