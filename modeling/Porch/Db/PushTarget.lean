import Porch.Db.PushToGit
import Porch.Git.CloseSpec

/- Which references a push updates (`push_only_own_iff`). It looks its branch up with a key
   in which an empty path stands for any path, and takes the first hit: a draft at the root
   of the repository is written to the draft of a package of the same name in a directory
   that is listed before (`root_package_pushed_to_other_draft`). -/
namespace Porch.Db

open Go Git ApiUtil Proc

variable {host : Host} {repo : GitRepository} {rules : NameRules} {git git' : Remote}
  {k : PackageRevisionKey} {d d' : GitPackageRevisionDraft} {pr : DbPackageRevision}

/-! What a push does -/

variable {g : GitPackageRevision} {u : RefUpdate} {refs : Refs} {us : List RefUpdate} {n : Str}

/-- What is listed when the branch of a key is looked up. -/
def hits (host : Host) (repo : GitRepository) (git : Remote) (k : PackageRevisionKey) :
    Except GitError (List GitPackageRevision) :=
  Git.listPackageRevisions host repo git.refs (branchFilter k)

theorem getOrCreateGitDraft_existing {gs : List GitPackageRevision} (h : hits host repo git k = .ok (g :: gs)) :
    getOrCreateGitDraft host repo rules k git = updatePackageRevision repo g git := by
  have hread : (query fun git => hits host repo git k).attempt git = (.ok (.ok (g :: gs)), git) :=
    attempt_eq_ok.mpr (by rw [query, h])
  exact bind_run_ok hread

theorem getOrCreateGitDraft_new (h : ∀ g gs, hits host repo git k ≠ .ok (g :: gs)) :
    getOrCreateGitDraft host repo rules k git = createGitDraft repo rules k git := by
  have hread : (query fun git => hits host repo git k).attempt git = (.ok (hits host repo git k), git) :=
    attempt_eq_ok.mpr rfl
  refine (bind_run_ok hread).trans ?_
  cases hlist : hits host repo git k with
  | error e => rfl
  | ok gs =>
    cases gs with
    | nil => rfl
    | cons g gs => exact absurd hlist (h g gs)

theorem getOrCreateGitDraft_state : (getOrCreateGitDraft host repo rules k git).2 = git := by
  by_cases h : ∃ g gs, hits host repo git k = .ok (g :: gs)
  · obtain ⟨g, gs, hlist⟩ := h
    rw [getOrCreateGitDraft_existing hlist]
    rfl
  · rw [getOrCreateGitDraft_new fun g gs hlist => h ⟨g, gs, hlist⟩]
    rfl

/-- The draft is closed after its resources have been set, or nothing changes. -/
theorem writeGitDraft_cases (d : GitPackageRevisionDraft) :
    (∃ e, writeGitDraft host repo d pr git = (.error e, git)) ∨
      ∃ d' pushRefs, updateDraftResources d pr.resources = .ok d' ∧
        closeRefs repo { d' with lifecycle := pr.lifecycle } pr.pkgRevKey.revision git.refs =
          .ok pushRefs ∧
        writeGitDraft host repo d pr git = (.ok (), git.take (buildRefSpecs pushRefs)) := by
  cases hupd : updateDraftResources d pr.resources with
  | error e => exact .inl ⟨e, bind_run_error (by rw [query, hupd])⟩
  | ok d' =>
    have hclose : writeGitDraft host repo d pr git = closePackageRevisionDraft host repo
        { d' with lifecycle := pr.lifecycle } pr.pkgRevKey.revision git :=
      bind_run_ok (query_eq_ok.mpr ⟨hupd, rfl⟩)
    rw [hclose]
    cases hrefs : closeRefs repo { d' with lifecycle := pr.lifecycle } pr.pkgRevKey.revision
        git.refs with
    | error e => exact .inl ⟨e, bind_run_error (by rw [query, hrefs])⟩
    | ok pushRefs =>
      have hpush : closePackageRevisionDraft host repo { d' with lifecycle := pr.lifecycle }
          pr.pkgRevKey.revision git = pushAndCleanup host pushRefs git :=
        bind_run_ok (query_eq_ok.mpr ⟨hrefs, rfl⟩)
      rw [hpush]
      by_cases haccept : host.accepts git.refs (buildRefSpecs pushRefs) = true
      · refine .inr ⟨d', pushRefs, rfl, hrefs, ?_⟩
        simp only [pushAndCleanup, stmt, haccept, if_true]
      · refine .inl ⟨.rejected, ?_⟩
        simp only [pushAndCleanup, stmt, haccept]
        rfl

/-- The two pushes that look for a branch of the package revision. -/
inductive Push where
  | draft
  /-- With drafts pushed and a branch that is known to exist. -/
  | published

namespace Push

def run (host : Host) (repo : GitRepository) (rules : NameRules) (pr : DbPackageRevision) :
    Push → Proc Remote GitError Unit
  | draft => pushDraftPackageRevision host repo rules pr
  | published => pushPublishedPackageRevision host repo rules pr true true

def due (pr : DbPackageRevision) : Push → Bool
  | draft => isDraftOrProposed pr.lifecycle && prNeedsPushToGit pr
  | published => pr.lifecycle = .published

variable {via : Push}

theorem run_due (h : via.due pr) :
    via.run host repo rules pr = (do
      let d ← getOrCreateGitDraft host repo rules pr.pkgRevKey
      writeGitDraft host repo d pr) := by
  cases via with
  | draft => exact if_pos h
  | published => exact if_neg (not_not.mpr (of_decide_eq_true h))

theorem run_not_due (h : ¬ via.due pr) : (via.run host repo rules pr git).2 = git := by
  cases via with
  | draft =>
    have hrun : Push.draft.run host repo rules pr = pure () := if_neg h
    rw [hrun]
    rfl
  | published =>
    have hrun : Push.published.run host repo rules pr = .throw .lifecycleNotPublished :=
      if_pos fun hp => h (decide_eq_true hp)
    rw [hrun]
    rfl

/-- **What a push does.** It fails and changes nothing, or it opens a draft and pushes
    what closing the draft asks for. -/
theorem run_cases (h : via.due pr) : (∃ e, via.run host repo rules pr git = (.error e, git)) ∨
      ∃ d d' pushRefs, getOrCreateGitDraft host repo rules pr.pkgRevKey git = (.ok d, git) ∧
        updateDraftResources d pr.resources = .ok d' ∧
        closeRefs repo { d' with lifecycle := pr.lifecycle } pr.pkgRevKey.revision git.refs =
          .ok pushRefs ∧
        via.run host repo rules pr git = (.ok (), git.take (buildRefSpecs pushRefs)) := by
  rw [run_due h]
  have hstate : (getOrCreateGitDraft host repo rules pr.pkgRevKey git).2 = git :=
    getOrCreateGitDraft_state
  rcases hopen : getOrCreateGitDraft host repo rules pr.pkgRevKey git with ⟨e | d, git₁⟩
  · have hgit : git₁ = git := by rwa [hopen] at hstate
    rw [bind_run_error hopen, hgit]
    exact .inl ⟨e, rfl⟩
  · have hgit : git₁ = git := by rwa [hopen] at hstate
    rw [bind_run_ok hopen, hgit]
    obtain herr | ⟨d', pushRefs, hupd, hclose, hrun⟩ := writeGitDraft_cases d
    · exact .inl herr
    · exact .inr ⟨d, d', pushRefs, rfl, hupd, hclose, hrun⟩

end Push

/-! Whose references -/

/-- The key of a cached package revision: it is read back from its own path name, also when
    git finds it in its directory, and its directory and workspace are plain. -/
structure KeyOf (repo : GitRepository) (k : PackageRevisionKey) : Prop where
  canonical : fromFullPathname repo.key k.pkgKey.toPkgPathname = k.pkgKey
  found : fromFullPathname repo.key (trimPrefix k.pkgKey.toFullPathname repo.key.path) = k.pkgKey
  path : PlainPath k.pkgKey.toFullPathname
  workspace : PlainPath k.workspaceName
  oneElem : '/' ∉ k.workspaceName

/-- What git promises of its references and trees; and the registered branch is not one
    of drafts. -/
structure RemoteOk (repo : GitRepository) (git : Remote) : Prop where
  names : ∀ n c, git.refs.lookup n = some c → PlainPath n
  unique : ∀ n c, git.refs.lookup n = some c → ∀ path, UniqueAlong c.tree path
  branch : (isDraftBranchNameInLocal (refInLocal repo.branch) ||
    isProposedBranchNameInLocal (refInLocal repo.branch)) = false

/-- The update is of a branch or of the tag of the package revision, or it changes the
    registered branch in the directory of its package only. -/
def OwnUpdate (repo : GitRepository) (k : PackageRevisionKey) (refs : Refs) (u : RefUpdate) : Prop :=
  u.name = refInLocal (createDraftName k) ∨ u.name = refInLocal (createProposedName k) ∨
    u.name = createFinalTagNameInLocal k ∨
    u.name = refInLocal repo.branch ∧ ∃ head c, refs.lookup (refInLocal repo.branch) = some head ∧
      u.commit = some c ∧ ∀ q, ¬ k.pkgKey.toFullPathname.splitOn '/' <+: q →
        fileAt c.tree q = fileAt head.tree q

/-- Every update that the remote has taken is the package revision's own. -/
def UpdatesOwn (repo : GitRepository) (k : PackageRevisionKey) (git git' : Remote) : Prop :=
  ∃ us, git' = git.take us ∧ ∀ u ∈ us, OwnUpdate repo k git.refs u

/-- The name of the draft or proposed branch for a package revision in a directory. -/
def NamesDraft (name x : Str) : Prop :=
  name = refInLocal draftsPrefix ++ x ∨ name = refInLocal proposedPrefix ++ x

/-- The reference is a branch of a draft in the directory, and has a package there. -/
structure DraftIn (repo : GitRepository) (path workspaceName : Str) (ref : Str × Commit) : Prop where
  name : NamesDraft ref.1 (path ++ '/' :: workspaceName)
  directory : packageInDirectory path repo.key.path
  package : ∃ t, treeAt ref.2.tree (pathParts path) = some t ∧ hasKptfile t

/-- The key has a path; or git has a branch of drafts that is not of a package and a workspace,
    so that nothing is listed; or every branch of the workspace with a package of the same leaf
    name in another directory (of any name, if the leaf name is empty) comes after one in the
    directory of the key. -/
def OwnBranchFirst (repo : GitRepository) (k : PackageRevisionKey) (refs : Refs) : Prop :=
  k.pkgKey.path ≠ [] ∨ (∃ ref ∈ refList refs, ∃ x, '/' ∉ x ∧ NamesDraft ref.1 x) ∨
    ∀ before ref after path, refList refs = before ++ ref :: after →
      DraftIn repo path k.workspaceName ref → path ≠ k.pkgKey.toFullPathname →
      (k.pkgKey.package = [] ∨
        (fromFullPathname repo.key (trimPrefix path repo.key.path)).package = k.pkgKey.package) →
      ∃ ref' ∈ before, DraftIn repo k.pkgKey.toFullPathname k.workspaceName ref'

theorem take_nil : git.take [] = git := by
  rw [Remote.take, List.append_nil]
  rfl

/-- The draft has the names of the key, and so has the branch it was loaded from. -/
structure OpenedFor (k : PackageRevisionKey) (d : GitPackageRevisionDraft) : Prop where
  path : d.prKey.pkgKey.toFullPathname = k.pkgKey.toFullPathname
  workspace : d.prKey.workspaceName = k.workspaceName
  base : ∀ base, d.base = some base →
    base.1 = refInLocal (createDraftName k) ∨ base.1 = refInLocal (createProposedName k)

/-- A draft that is opened from a hit is that of a branch, and has the key that was listed. -/
theorem opened_ok {gs : List GitPackageRevision} (hlist : hits host repo git k = .ok (g :: gs))
    (h : getOrCreateGitDraft host repo rules k git = (.ok d, git')) :
    d.prKey = g.prKey ∧ g.onBranch ∧ ∃ ref head rev, g.ref = some ref ∧ git.refs.lookup ref.1 = some head ∧
      loadDraft repo (ref.1, head) = .ok (some rev) ∧ d.base = rev.ref := by
  rw [getOrCreateGitDraft_existing hlist] at h
  obtain ⟨h, -⟩ := query_eq_ok.mp h
  cases href : g.ref with
  | none =>
    rw [href] at h
    cases h
  | some ref =>
    rw [href] at h
    cases hhead : git.refs.lookup ref.1 with
    | none =>
      simp only [hhead] at h
      cases h
    | some head =>
      simp only [hhead] at h
      cases hload : loadDraft repo (ref.1, head) with
      | error e =>
        simp only [hload] at h
        cases h
      | ok o =>
        simp only [hload] at h
        cases o with
        | none => cases h
        | some rev =>
          cases h
          refine ⟨rfl, ?_, ref, head, rev, rfl, hhead, hload, rfl⟩
          -- what `loadDraft` takes is a branch
          obtain ⟨_, hparse, -⟩ := bind_eq_ok.mp hload
          have hname : (isDraftBranchNameInLocal ref.1 || isProposedBranchNameInLocal ref.1) = true := by
            obtain ⟨-, hname | hname⟩ := parseDraftName_ok hparse <;> rw [hname] <;> rfl
          rwa [GitPackageRevision.onBranch, href]

theorem createDraftName_congr {k k' : PackageRevisionKey}
    (hpath : k.pkgKey.toFullPathname = k'.pkgKey.toFullPathname)
    (hws : k.workspaceName = k'.workspaceName) :
    createDraftName k = createDraftName k' ∧ createProposedName k = createProposedName k' := by
  unfold createDraftName createProposedName
  rw [hpath, hws]
  exact ⟨rfl, rfl⟩

/-! The first hit -/

theorem exists_first {α β : Type} {f : α → List β} {p : β → Bool} {x : β} {xs : List β} {l : List α}
    (h : (l.flatMap f).filter p = x :: xs) : ∃ before a after, l = before ++ a :: after ∧ x ∈ f a ∧
      ∀ b ∈ before, ∀ y ∈ f b, ¬ p y := by
  induction l with
  | nil => cases h
  | cons a l ih =>
    rw [List.flatMap_cons, List.filter_append] at h
    cases hhead : (f a).filter p with
    | nil =>
      rw [hhead, List.nil_append] at h
      obtain ⟨before, b, after, rfl, hx, hnone⟩ := ih h
      refine ⟨a :: before, b, after, rfl, hx, List.forall_mem_cons.mpr ⟨?_, hnone⟩⟩
      exact List.filter_eq_nil_iff.mp hhead
    | cons y ys =>
      rw [hhead] at h
      cases h
      exact ⟨[], a, l, rfl, (List.mem_filter.mp (hhead ▸ List.mem_cons_self)).1, by simp⟩

section First

variable {ref : Str × Commit} {gs : List GitPackageRevision} (hgit : RemoteOk repo git)
include hgit

theorem NamesDraft.isDraft {x : Str} (h : NamesDraft ref.1 x) : ref.1 ≠ refInLocal repo.branch ∧
    (isProposedBranchNameInLocal ref.1 || isDraftBranchNameInLocal ref.1) := by
  have hname : (isProposedBranchNameInLocal ref.1 || isDraftBranchNameInLocal ref.1) = true := by
    obtain h | h := h <;> rw [h] <;> rfl
  refine ⟨fun heq => ?_, hname⟩
  rw [heq, Bool.or_comm, hgit.branch] at hname
  cases hname

omit hgit in
theorem NamesDraft.suffix {x : Str} (h : NamesDraft n x) :
    (getDraftBranchNameInLocal n).or (getProposedBranchNameInLocal n) = some x := by
  obtain h | h := h <;> rw [h]
  · exact Option.or_eq_some_iff.mpr (.inl (cutPrefix_eq_some.mpr rfl))
  · exact Option.or_eq_some_iff.mpr (.inr ⟨rfl, cutPrefix_eq_some.mpr rfl⟩)

/-- What is listed from a branch of drafts. -/
theorem mem_draftsOf_iff (href : ref ∈ refList git.refs) : g ∈ draftsOf repo ref ↔
    ∃ path ws t, PlainPath path ∧ PlainPath ws ∧ '/' ∉ ws ∧ DraftIn repo path ws ref ∧
      treeAt ref.2.tree (pathParts path) = some t ∧ hasKptfile t ∧
      g = buildGitPackageRevision (packageEntry repo.key path t) "0" ws ref := by
  rw [mem_draftsOf, loadDraft_ok]
  constructor
  · rintro ⟨-, -, path, ws, p, hparse, hdir, hfind, rfl⟩
    obtain ⟨hslash, hname⟩ := parseDraftName_ok hparse
    obtain ⟨t, ht, hkpt, rfl⟩ := findPackage_eq_some.mp hfind
    obtain ⟨hpath, hws⟩ := plainPath_of_draft (hgit.names _ _ (mem_refList.mp href)) hname
    exact ⟨path, ws, t, hpath, hws, hslash, ⟨hname, hdir, t, ht, hkpt⟩, ht, hkpt, rfl⟩
  · rintro ⟨path, ws, t, hpath, -, hslash, hin, ht, hkpt, rfl⟩
    obtain ⟨hmain, hdraft⟩ := hin.name.isDraft hgit
    exact ⟨hmain, hdraft, path, ws, _, parseDraftName_leaf hpath hslash hin.name.suffix,
      hin.directory, findPackage_eq_some.mpr ⟨t, ht, hkpt, rfl⟩, rfl⟩

/-- A branch of drafts is of a package and a workspace unless its name is too short. -/
theorem not_parses_iff (href : ref ∈ refList git.refs) :
    ¬ Parses repo ref ↔ ∃ x, '/' ∉ x ∧ NamesDraft ref.1 x := by
  constructor
  · intro hnot
    unfold Parses at hnot
    push Not at hnot
    obtain ⟨-, hname, hparse⟩ := hnot
    obtain ⟨x, hx⟩ : ∃ x, NamesDraft ref.1 x := by
      obtain h | h := Bool.or_eq_true_iff.mp hname
      · obtain ⟨x, hx⟩ := Option.isSome_iff_exists.mp h
        exact ⟨x, .inr (cutPrefix_eq_some.mp hx)⟩
      · obtain ⟨x, hx⟩ := Option.isSome_iff_exists.mp h
        exact ⟨x, .inl (cutPrefix_eq_some.mp hx)⟩
    refine ⟨x, fun hslash => ?_, hx⟩
    obtain ⟨path, ws, rfl, hws⟩ := exists_last_of_mem hslash
    obtain ⟨hpath, -⟩ := plainPath_of_draft (hgit.names _ _ (mem_refList.mp href)) hx
    exact hparse _ (parseDraftName_leaf hpath hws hx.suffix)
  · rintro ⟨x, hslash, hx⟩ hparses
    obtain ⟨hmain, hdraft⟩ := hx.isDraft hgit
    obtain ⟨⟨path, ws⟩, hparse⟩ := hparses hmain hdraft
    have hboth := (parseDraftName_ok hparse).2
    have heq : x = path ++ '/' :: ws := by
      obtain h | h := hx <;> obtain h' | h' := hboth <;> rw [h] at h'
      · exact List.append_cancel_left h'
      · exact absurd h' (draft_ne_proposed _ _)
      · exact absurd h'.symm (draft_ne_proposed _ _)
      · exact List.append_cancel_left h'
    exact hslash (heq ▸ by simp)

/-- A first hit that is a branch is the first draft that matches. -/
theorem firstDraft (h : hits host repo git k = .ok (g :: gs)) (hon : g.onBranch) :
    ∃ before ref after, refList git.refs = before ++ ref :: after ∧ g ∈ draftsOf repo ref ∧
      ∀ ref' ∈ before, ∀ g' ∈ draftsOf repo ref', ¬ (branchFilter k).matches g'.prKey := by
  obtain ⟨main, hmain, heq⟩ := listPackageRevisions_ok h
  rw [List.filter_append] at heq
  -- tags and packages on the registered branch are no drafts
  cases hrest : ((refList git.refs).flatMap (taggedOf host repo) ++
      main.toList.flatMap (discoverFinalizedPackages host repo)).filter
        fun p => (branchFilter k).matches p.prKey with
  | nil =>
    rw [hrest, List.nil_append] at heq
    exact exists_first heq.symm
  | cons x xs =>
    rw [hrest] at heq
    cases heq
    have hx := (List.mem_filter.mp (hrest ▸ List.mem_cons_self)).1
    obtain hx | hx := List.mem_append.mp hx
    · obtain ⟨ref, -, hx⟩ := List.mem_flatMap.mp hx
      unfold taggedOf at hx
      split at hx
      · next htag =>
        rw [GitPackageRevision.onBranch, loadTaggedPackage_ref (Option.mem_toList.mp hx)] at hon
        exact absurd hon (Bool.eq_false_iff.mp (not_branch_of_tag htag))
      · cases hx
    · obtain ⟨ref, href, hx⟩ := List.mem_flatMap.mp hx
      obtain ⟨p, -, rfl⟩ := List.mem_map.mp hx
      have hon : (isDraftBranchNameInLocal ref.1 || isProposedBranchNameInLocal ref.1) = true := hon
      rw [((hmain ref).mp (Option.mem_toList.mp href)).2, hgit.branch] at hon
      cases hon

variable (hk : KeyOf repo k)
include hk

omit hgit in
theorem KeyOf.repoKey : k.pkgKey.repoKey = repo.key := by
  rw [← hk.canonical]
  rfl

omit hgit in
theorem branchFilter_matches {q ws : Str} :
    (branchFilter k).matches { pkgKey := fromFullPathname repo.key q, workspaceName := ws } ↔
      k.workspaceName = ws ∧
        (k.pkgKey.path = [] ∨ k.pkgKey.path = (fromFullPathname repo.key q).path) ∧
        (k.pkgKey.package = [] ∨ k.pkgKey.package = (fromFullPathname repo.key q).package) := by
  have hrepo : k.pkgKey.repoKey.matches (fromFullPathname repo.key q).repoKey := by
    rw [hk.repoKey]
    exact RepositoryKey.matches_self _
  simp [PackageRevisionKey.matches, PackageKey.matches, branchFilter, hrepo, hk.workspace.ne_nil]

/-- A branch of the workspace is a hit if the names of its package match. -/
theorem DraftIn.hit {path : Str} (href : ref ∈ refList git.refs)
    (h : DraftIn repo path k.workspaceName ref)
    (hmatch : (branchFilter k).matches
      { pkgKey := fromFullPathname repo.key (trimPrefix path repo.key.path)
        workspaceName := k.workspaceName }) :
    ∃ g ∈ draftsOf repo ref, (branchFilter k).matches g.prKey ∧
      g.prKey.pkgKey.toFullPathname = path := by
  obtain ⟨t, ht, hkpt⟩ := h.package
  have hpath := (plainPath_of_draft (hgit.names _ _ (mem_refList.mp href)) h.name).1
  refine ⟨_, (mem_draftsOf_iff hgit href).mpr ⟨path, _, t, hpath, hk.workspace, hk.oneElem, h, ht,
    hkpt, rfl⟩, ?_⟩
  rw [buildGitPackageRevision_draft hk.workspace.ne_nil]
  exact ⟨hmatch, toFullPathname_found hpath h.directory⟩

/-- The draft that is the first hit is in the directory that its branch names. -/
theorem firstDraft_in (h : hits host repo git k = .ok (g :: gs))
    (href : ref ∈ refList git.refs) (hg : g ∈ draftsOf repo ref) :
    DraftIn repo g.prKey.pkgKey.toFullPathname k.workspaceName ref ∧
      PlainPath g.prKey.pkgKey.toFullPathname ∧
      g.prKey = { pkgKey := fromFullPathname repo.key
                    (trimPrefix g.prKey.pkgKey.toFullPathname repo.key.path)
                  workspaceName := k.workspaceName } := by
  have hmatch := ((mem_listed h).mp List.mem_cons_self).1
  obtain ⟨path, ws, t, hpath, hws, -, hin, -, -, rfl⟩ := (mem_draftsOf_iff hgit href).mp hg
  rw [buildGitPackageRevision_draft hws.ne_nil] at hmatch ⊢
  obtain ⟨rfl, -⟩ := (branchFilter_matches hk).mp hmatch
  have hfull : (packageEntry repo.key path t).pkgKey.toFullPathname = path :=
    toFullPathname_found hpath hin.directory
  simp only [hfull]
  exact ⟨hin, hpath, rfl⟩

/-- A first hit that is a branch is the key's own. -/
theorem OwnBranchFirst.first (hown : OwnBranchFirst repo k git.refs)
    (h : hits host repo git k = .ok (g :: gs)) (hon : g.onBranch) :
    g.prKey.pkgKey.toFullPathname = k.pkgKey.toFullPathname ∧ g.prKey.workspaceName = k.workspaceName := by
  obtain ⟨before, ref, after, heq, hg, hnone⟩ := firstDraft hgit h hon
  have hmem : ∀ ref' ∈ before ++ ref :: after, ref' ∈ refList git.refs := fun ref' h => heq ▸ h
  obtain ⟨hin, -, hkey⟩ := firstDraft_in hgit hk h (hmem ref (by simp)) hg
  refine ⟨?_, by rw [hkey]⟩
  have hmatch := ((mem_listed h).mp List.mem_cons_self).1
  rw [hkey] at hmatch
  obtain ⟨-, hdir, hleaf⟩ := (branchFilter_matches hk).mp hmatch
  by_contra hne
  obtain hpath | ⟨ref', href', x, hslash, hx⟩ | hfirst := hown
  · -- neither the path nor the leaf name of the key is empty, so both are compared
    have hpkg : k.pkgKey.package ≠ [] := by
      have hspec := (fromFullPathname_spec repo.key k.pkgKey.toPkgPathname).2.2
      rw [hk.canonical] at hspec
      exact fun h => hpath (hspec h)
    refine hne ?_
    rw [hkey]
    unfold PackageKey.toFullPathname
    rw [hk.repoKey, hdir.resolve_left hpath, hleaf.resolve_left hpkg]
    rfl
  · exact (not_parses_iff hgit href').mpr ⟨x, hslash, hx⟩
      (listPackageRevisions_isOk.mp ⟨_, h⟩ ref' href')
  · obtain ⟨ref', href', hin'⟩ := hfirst before ref after _ heq hin hne (hleaf.imp_right Eq.symm)
    obtain ⟨g', hg', hmatch', -⟩ := hin'.hit hgit hk (hmem ref' (by simp [href']))
      ((branchFilter_matches hk).mpr (by rw [hk.found]; exact ⟨rfl, .inr rfl, .inr rfl⟩))
    exact hnone ref' href' g' hg' hmatch'

/-- The key's own branch comes first if it is the first hit of the listing, whenever there is one. -/
theorem ownBranchFirst_of_first
    (h : ∀ g gs, hits host repo git k = .ok (g :: gs) → g.onBranch ∧
      g.prKey.pkgKey.toFullPathname = k.pkgKey.toFullPathname) : OwnBranchFirst repo k git.refs := by
  refine or_iff_not_imp_left.mpr fun hroot => or_iff_not_imp_left.mpr fun hshort => ?_
  intro before ref after path heq hin hne hleaf
  have hparses : ∀ ref ∈ refList git.refs, Parses repo ref := fun ref href =>
    not_not.mp fun hnot => hshort ⟨ref, href, (not_parses_iff hgit href).mp hnot⟩
  obtain ⟨gs, hlist⟩ : ∃ gs, hits host repo git k = .ok gs :=
    listPackageRevisions_isOk.mpr hparses
  have href : ref ∈ refList git.refs := heq ▸ by simp
  -- the other branch is a hit, so that there is a first one
  obtain ⟨g₀, hg₀, hmatch₀, hpath₀⟩ := hin.hit hgit hk href ((branchFilter_matches hk).mpr
    ⟨rfl, .inl (not_not.mp hroot), hleaf.imp_right Eq.symm⟩)
  obtain ⟨hmain, hname, hload⟩ := mem_draftsOf.mp hg₀
  have hlisted : g₀ ∈ gs := (mem_listed hlist).mpr
    ⟨hmatch₀, ref, mem_refList.mp href, .draft hmain hname hload⟩
  obtain ⟨g, gs', rfl⟩ := List.exists_cons_of_ne_nil (List.ne_nil_of_mem hlisted)
  obtain ⟨hon, hfull⟩ := h g gs' hlist
  obtain ⟨before', ref', after', heq', hg, hnone⟩ := firstDraft hgit hlist hon
  obtain ⟨hin', -⟩ := firstDraft_in hgit hk hlist (heq' ▸ by simp) hg
  -- the first is not the other branch, which is not before it
  have hother : ref ≠ ref' := by
    rintro rfl
    rw [(mem_draftsOf.mp hg).2.2] at hload
    cases hload
    exact hne (hpath₀.symm.trans hfull)
  have hafter : ref ∉ before' := fun hb => hnone ref hb g₀ hg₀ hmatch₀
  refine ⟨ref', ?_, hfull ▸ hin'⟩
  obtain ⟨between, rfl, hrest⟩ | ⟨between, rfl, hrest⟩ :=
    List.append_eq_append_iff.mp (heq.symm.trans heq')
  · cases between with
    | nil => exact absurd (List.cons.inj hrest).1 hother
    | cons x xs => exact absurd ((List.cons.inj hrest).1 ▸ by simp) hafter
  · cases between with
    | nil => exact absurd (List.cons.inj hrest).1.symm hother
    | cons x xs => exact (List.cons.inj hrest).1 ▸ by simp

end First

/-- A draft that is opened for a key is the key's own. -/
theorem getOrCreateGitDraft_own (hk : KeyOf repo k) (hgit : RemoteOk repo git)
    (hown : OwnBranchFirst repo k git.refs)
    (h : getOrCreateGitDraft host repo rules k git = (.ok d, git)) : OpenedFor k d := by
  by_cases hex : ∃ g gs, hits host repo git k = .ok (g :: gs)
  · obtain ⟨g, gs, hlist⟩ := hex
    obtain ⟨hkey, hon, ref, head, rev, href, hhead, hload, hbase⟩ := opened_ok hlist h
    obtain ⟨hpath, hws⟩ := hown.first hgit hk hlist hon
    obtain ⟨hdraft, hprop⟩ := createDraftName_congr hpath hws
    refine ⟨by rw [hkey, hpath], by rw [hkey, hws], fun base hb => ?_⟩
    -- the branch has the names of the package revision that was listed
    obtain ⟨before, ref', after, heq, hg, -⟩ := firstDraft hgit hlist hon
    obtain ⟨-, href', -, hnames⟩ := loadDraft_names
      (hgit.names _ _ (mem_refList.mp (heq ▸ by simp))) (mem_draftsOf.mp hg).2.2
    obtain ⟨-, hrev, -, -⟩ := loadDraft_names (hgit.names _ _ hhead) hload
    have hbase' : base.1 = ref.1 := by
      rw [hbase, hrev] at hb
      rw [← Option.some.inj hb]
    have hrefs : ref.1 = ref'.1 := by rw [Option.some.inj (href.symm.trans href')]
    rw [hdraft, hprop] at hnames
    rw [hbase', hrefs]
    exact hnames
  · rw [getOrCreateGitDraft_new fun g gs hlist => hex ⟨g, gs, hlist⟩] at h
    unfold createGitDraft createPackageRevisionDraft at h
    obtain ⟨hcreate, -⟩ := query_eq_ok.mp h
    simp only at hcreate
    split at hcreate
    · cases hcreate
    · cases hcreate
      refine ⟨?_, rfl, fun base hb => by cases hb⟩
      show (fromFullPathname repo.key k.pkgKey.toPkgPathname).toFullPathname = _
      rw [hk.canonical]

theorem updateDraftResources_names {resources : Resources}
    (h : updateDraftResources d resources = .ok d') : d'.prKey = d.prKey ∧ d'.base = d.base := by
  unfold updateDraftResources at h
  obtain ⟨trees, -, h⟩ := bind_eq_ok.mp h
  obtain ⟨trees', -, h⟩ := bind_eq_ok.mp h
  simp only at h
  split at h
  · cases h
  · obtain ⟨cp, -, h⟩ := bind_eq_ok.mp h
    cases h
    exact ⟨rfl, rfl⟩

/-- Closing a draft of its own updates a package revision's own references. -/
theorem closeRefs_own {pushRefs : PushRefs} (hgit : RemoteOk repo git)
    (hopen : OpenedFor k d) (h : closeRefs repo d k.revision git.refs = .ok pushRefs)
    (hu : u ∈ buildRefSpecs pushRefs) : OwnUpdate repo k git.refs u := by
  obtain ⟨hdraft, hprop⟩ := createDraftName_congr hopen.path hopen.workspace
  obtain ⟨base, hbase, hn⟩ | hn | ⟨hn, commit, packageTree, hc, hcmt⟩ :=
    (closeRefs_ok h).2 u.name u.commit (mem_buildRefSpecs.mp hu)
  · obtain hb | hb := hopen.base base hbase
    · exact .inl (hn.trans hb)
    · exact .inr (.inl (hn.trans hb))
  · have htag : createFinalTagNameInLocal (d.versioned k.revision).prKey =
        createFinalTagNameInLocal k := by
      unfold createFinalTagNameInLocal GitPackageRevisionDraft.versioned
      simp only [hopen.path, hopen.workspace]
    unfold targetRef at hn
    rw [hdraft, hprop, htag] at hn
    cases hl : d.lifecycle with
    | draft =>
      rw [hl] at hn
      exact .inl hn
    | proposed =>
      rw [hl] at hn
      exact .inr (.inl hn)
    | published | deletionProposed =>
      rw [hl] at hn
      exact .inr (.inr (.inl hn))
  · obtain ⟨head, hhead, hframe⟩ := commitPackageToMain_frame hcmt
    refine .inr (.inr (.inr ⟨hn, head, commit, hhead, hc, fun q hq => ?_⟩))
    have hparts : (d.versioned k.revision).parts = k.pkgKey.toFullPathname.splitOn '/' := by
      rw [← hopen.path]
      rfl
    rw [← hparts] at hq
    exact hframe (hgit.unique _ _ hhead _) q hq

/-- If the reference that a draft is pushed to is the key's own, the draft is of the
    key's directory. -/
theorem path_of_target_own (hk : KeyOf repo k)
    (hbr : (isDraftBranchNameInLocal (refInLocal repo.branch) ||
      isProposedBranchNameInLocal (refInLocal repo.branch)) = false)
    (hd : PlainPath d.prKey.pkgKey.toFullPathname) (hws : d.prKey.workspaceName = k.workspaceName)
    (h : OwnUpdate repo k refs u) (hu : u.name = targetRef d k.revision) :
    d.prKey.pkgKey.toFullPathname = k.pkgKey.toFullPathname := by
  rw [Bool.or_eq_false_iff] at hbr
  have hmain : ∀ x : Str, refInLocal (draftsPrefix ++ x) ≠ refInLocal repo.branch ∧
      refInLocal (proposedPrefix ++ x) ≠ refInLocal repo.branch := by
    intro x
    refine ⟨fun heq => ?_, fun heq => ?_⟩
    · rw [← heq] at hbr
      cases hbr.1
    · rw [← heq] at hbr
      cases hbr.2
  have hw : PlainPath d.prKey.workspaceName := hws ▸ hk.workspace
  -- the kinds of references are told apart by their prefixes
  unfold targetRef at hu
  cases hl : d.lifecycle with
  | draft =>
    rw [hl] at hu
    obtain hn | hn | hn | ⟨hn, -⟩ := h
    · exact createDraftName_inj hd hk.path hw hws (.inl (List.append_cancel_left (hu.symm.trans hn)))
    · exact absurd (hu.symm.trans hn) (draft_ne_proposed _ _)
    · exact absurd (hu.symm.trans hn) (branch_ne_tag _ _)
    · exact absurd (hu.symm.trans hn) (hmain _).1
  | proposed =>
    rw [hl] at hu
    obtain hn | hn | hn | ⟨hn, -⟩ := h
    · exact absurd (hn.symm.trans hu) (draft_ne_proposed _ _)
    · exact createDraftName_inj hd hk.path hw hws (.inr (List.append_cancel_left (hu.symm.trans hn)))
    · exact absurd (hu.symm.trans hn) (branch_ne_tag _ _)
    · exact absurd (hu.symm.trans hn) (hmain _).2
  | published | deletionProposed =>
    rw [hl] at hu
    obtain hn | hn | hn | ⟨hn, -⟩ := h
    · exact absurd (hn.symm.trans hu) (branch_ne_tag _ _)
    · exact absurd (hn.symm.trans hu) (branch_ne_tag _ _)
    · exact createFinalTagNameInLocal_inj (k := (d.versioned k.revision).prKey) hd hk.path hw hws rfl
        (hu.symm.trans hn)
    · exact absurd (hn.symm.trans hu) (branch_ne_tag _ _)

/-! The claim of a push -/

/-- A first hit whose references are the only ones that a push updates is the key's own. -/
theorem first_own_of_updates (via : Push) (hk : KeyOf repo pr.pkgRevKey) (hgit : RemoteOk repo git)
    (hdue : via.due pr) (hok : (via.run host repo rules pr git).1 = .ok ())
    (hupds : UpdatesOwn repo pr.pkgRevKey git (via.run host repo rules pr git).2)
    {gs : List GitPackageRevision} (hlist : hits host repo git pr.pkgRevKey = .ok (g :: gs)) :
    g.onBranch ∧ g.prKey.pkgKey.toFullPathname = pr.pkgRevKey.pkgKey.toFullPathname := by
  obtain ⟨e, hrun⟩ | ⟨d, d', pushRefs, hopen, hupd, hclose, hrun⟩ := Push.run_cases hdue
  · rw [hrun] at hok
    cases hok
  · obtain ⟨hkey, hon, -⟩ := opened_ok hlist hopen
    obtain ⟨hkey', -⟩ := updateDraftResources_names hupd
    obtain ⟨before, ref', after, heq, hg, -⟩ := firstDraft hgit hlist hon
    obtain ⟨-, hplain, hnames⟩ := firstDraft_in hgit hk hlist (heq ▸ by simp) hg
    have hws : g.prKey.workspaceName = pr.pkgRevKey.workspaceName := by rw [hnames]
    -- the target of the push is one of its updates
    obtain ⟨htgt, -⟩ := closeRefs_ok hclose
    obtain ⟨c, hc⟩ := Option.isSome_iff_exists.mp (AList.lookup_isSome.mpr htgt)
    obtain ⟨us, htake, hall⟩ := hupds
    have hus : us = buildRefSpecs pushRefs := by
      rw [hrun] at htake
      exact (List.append_cancel_left (congrArg Remote.updates htake)).symm
    have hown := hall ⟨_, c⟩ (hus ▸ mem_buildRefSpecs.mpr hc)
    have hsame : { d' with lifecycle := pr.lifecycle }.prKey = g.prKey := hkey'.trans hkey
    refine ⟨hon, ?_⟩
    rw [← hsame]
    exact path_of_target_own hk hgit.branch (hsame ▸ hplain) (hsame ▸ hws) hown rfl

/-- **A push updates its own references only when its own branch comes first.** The
    condition is enough however the push ends; for a push that goes to git and succeeds it
    is also necessary. -/
theorem push_only_own_iff (via : Push) (host : Host) (rules : NameRules)
    (hk : KeyOf repo pr.pkgRevKey) (hgit : RemoteOk repo git) :
    (OwnBranchFirst repo pr.pkgRevKey git.refs →
      UpdatesOwn repo pr.pkgRevKey git (via.run host repo rules pr git).2) ∧
    (via.due pr → (via.run host repo rules pr git).1 = .ok () →
      UpdatesOwn repo pr.pkgRevKey git (via.run host repo rules pr git).2 →
      OwnBranchFirst repo pr.pkgRevKey git.refs) := by
  have hnone : UpdatesOwn repo pr.pkgRevKey git git :=
    ⟨[], take_nil.symm, fun u hu => absurd hu List.not_mem_nil⟩
  refine ⟨fun hown => ?_, fun hdue hok hupds =>
    ownBranchFirst_of_first hgit hk fun g gs => first_own_of_updates via hk hgit hdue hok hupds⟩
  by_cases hdue : via.due pr
  · obtain ⟨e, hrun⟩ | ⟨d, d', pushRefs, hopen, hupd, hclose, hrun⟩ := Push.run_cases hdue
    · rw [hrun]
      exact hnone
    · rw [hrun]
      refine ⟨_, rfl, fun u hu => closeRefs_own hgit ?_ hclose hu⟩
      have hfor := getOrCreateGitDraft_own hk hgit hown hopen
      obtain ⟨hkey, hbase⟩ := updateDraftResources_names hupd
      exact ⟨by rw [hkey]; exact hfor.path, by rw [hkey]; exact hfor.workspace,
        fun base hb => hfor.base base (hbase ▸ hb)⟩
  · rw [Push.run_not_due hdue]
    exact hnone

/-! A draft at the root, and a package of the same name in a directory -/

theorem remoteOk_empty (h : (isDraftBranchNameInLocal (refInLocal repo.branch) ||
      isProposedBranchNameInLocal (refInLocal repo.branch)) = false) : RemoteOk repo ⟨∅, us⟩ := by
  refine ⟨fun n c hn => ?_, fun n c hn => ?_, h⟩
  · cases hn
  · cases hn

theorem remoteOk_insert {c : Commit}
    (h : RemoteOk repo ⟨refs, us⟩) (hn : PlainPath n) (hc : ∀ path, UniqueAlong c.tree path) :
    RemoteOk repo ⟨refs.insert n c, us⟩ := by
  refine ⟨fun m c' hm => ?_, fun m c' hm => ?_, h.branch⟩
  · obtain ⟨rfl, -⟩ | hm := lookup_insert_cases hm
    · exact hn
    · exact h.names m c' hm
  · obtain ⟨-, rfl⟩ | hm := lookup_insert_cases hm
    · exact hc
    · exact h.unique m c' hm

def plainHost : Host where
  log c := [c]
  order := id
  order_perm _ := .refl _
  accepts _ _ := true

def mainRepo : GitRepository where
  key := { namesp := "default", name := "blueprints",
           placeholderWSname := "main" }
  branch := "main"

def rootDraft : DbPackageRevision where
  pkgRevKey := { pkgKey := { repoKey := mainRepo.key, package := "pkg" },
                 workspaceName := "v1" }
  lifecycle := .draft
  resources := [("Kptfile", "of the root")]

/-- A commit with the package of a name in a directory. -/
def packageIn (dir : Str) : Commit :=
  .mk [(dir, .dir [("pkg", .dir [("Kptfile", .blob .regular "of dir")])])] [] []

def dirDraftRef : Str := "refs/remotes/origin/drafts/a/pkg/v1"

/-- The directory has a draft, the root has none. -/
def dirDraftOnly : Remote where
  refs := ((∅ : Refs).insert dirDraftRef (packageIn "a")).insert
    (refInLocal mainRepo.branch) (.mk [] [] [])

def rootDraftRef : Str × Commit :=
  (refInLocal (createDraftName rootDraft.pkgRevKey),
    .mk [("pkg", .dir [("Kptfile", .blob .regular "old")])] [] [])

/-- The root has a draft too, which is listed first. -/
def bothDrafts : Remote where
  refs := dirDraftOnly.refs.insert rootDraftRef.1 rootDraftRef.2

theorem keyOf_rootDraft : KeyOf mainRepo rootDraft.pkgRevKey :=
  ⟨by decide, by decide, by decide, by decide, by decide⟩

theorem uniqueAlong_nil (path : List Str) : UniqueAlong [] path := by
  cases path with
  | nil => trivial
  | cons n ns => exact ⟨List.nodup_nil, trivial⟩

theorem uniqueAlong_cons {node : Node} {m : Str} {ns : List Str}
    (h : ∀ entries, node = .dir entries → UniqueAlong entries ns) : UniqueAlong [(n, node)] (m :: ns) := by
  refine ⟨List.nodup_singleton n, ?_⟩
  by_cases hm : m = n
  · rw [lookup_cons_of_eq hm.symm]
    cases node with
    | blob mode contents => trivial
    | dir entries => exact h entries rfl
  · rw [lookup_cons_of_ne hm]
    trivial

theorem uniqueAlong_file {mode : FileMode} {contents : Str} (path : List Str) :
    UniqueAlong [(n, .blob mode contents)] path := by
  cases path with
  | nil => trivial
  | cons m ns => exact uniqueAlong_cons fun _ h => by cases h

theorem uniqueAlong_dir {entries : Tree} (h : ∀ rest, UniqueAlong entries rest) (path : List Str) :
    UniqueAlong [(n, .dir entries)] path := by
  cases path with
  | nil => trivial
  | cons m ns =>
    refine uniqueAlong_cons fun _ heq => ?_
    cases heq
    exact h ns

theorem remoteOk_dirDraftOnly : RemoteOk mainRepo dirDraftOnly :=
  remoteOk_insert (remoteOk_insert (remoteOk_empty (by decide)) (by decide)
    (uniqueAlong_dir (uniqueAlong_dir uniqueAlong_file))) (by decide) uniqueAlong_nil

theorem remoteOk_bothDrafts : RemoteOk mainRepo bothDrafts :=
  remoteOk_insert remoteOk_dirDraftOnly (by decide) (uniqueAlong_dir uniqueAlong_file)

/-- With its own draft listed first the draft of the root is pushed to its own branch. -/
theorem push_only_own_iff_bothDrafts :
    OwnBranchFirst mainRepo rootDraft.pkgRevKey bothDrafts.refs ∧
      UpdatesOwn mainRepo rootDraft.pkgRevKey bothDrafts
        (Push.draft.run plainHost mainRepo .documented rootDraft bothDrafts).2 := by
  have hown : OwnBranchFirst mainRepo rootDraft.pkgRevKey bothDrafts.refs := by
    obtain ⟨rest, hrefs⟩ : ∃ rest, refList bothDrafts.refs = rootDraftRef :: rest := ⟨_, rfl⟩
    refine .inr (.inr fun before ref after path heq hin hne _ => ?_)
    rw [hrefs] at heq
    cases before with
    | nil =>
      -- the first branch is not in another directory
      obtain ⟨rfl, -⟩ := List.cons.inj heq
      obtain hname | hname := hin.name
      · exact absurd (leaf_inj (b := "pkg") (by decide) (by decide)
          (List.append_cancel_left hname.symm)).1 hne
      · exact absurd hname (draft_ne_proposed _ _)
    | cons ref' before =>
      obtain ⟨rfl, -⟩ := List.cons.inj heq
      exact ⟨_, List.mem_cons_self, .inl rfl, by decide, _, rfl, rfl⟩
  exact ⟨hown, (push_only_own_iff .draft plainHost .documented keyOf_rootDraft
    remoteOk_bothDrafts).1 hown⟩

/-- The draft of the root, which git does not have yet, is pushed to the branch of the
    draft in the directory and replaces its content. -/
theorem root_package_pushed_to_other_draft :
    KeyOf mainRepo rootDraft.pkgRevKey ∧ RemoteOk mainRepo dirDraftOnly ∧
      (Push.draft.run plainHost mainRepo .documented rootDraft dirDraftOnly).1 = .ok () ∧
      ((Push.draft.run plainHost mainRepo .documented rootDraft dirDraftOnly).2.updates.map
        (·.name)) = [dirDraftRef] ∧
      (((Push.draft.run plainHost mainRepo .documented rootDraft dirDraftOnly).2.refs.lookup
        dirDraftRef).map fun c => fileAt c.tree ["a", "pkg", "Kptfile"]) =
          some (some (.regular, "of the root".toList)) ∧
      ¬ UpdatesOwn mainRepo rootDraft.pkgRevKey dirDraftOnly
        (Push.draft.run plainHost mainRepo .documented rootDraft dirDraftOnly).2 := by
  have hpushed : (Push.draft.run plainHost mainRepo .documented rootDraft dirDraftOnly).2.updates.map
      (·.name) = [dirDraftRef] := by decide +kernel
  refine ⟨keyOf_rootDraft, remoteOk_dirDraftOnly, by decide +kernel, hpushed, by decide +kernel, ?_⟩
  intro ⟨us, htake, hown⟩
  have hnames : us.map (·.name) = [dirDraftRef] := by
    rw [htake] at hpushed
    exact hpushed
  obtain ⟨u, hu, hname⟩ := List.mem_map.mp (hnames ▸ List.mem_singleton_self dirDraftRef)
  obtain h | h | h | ⟨h, -⟩ := hown u hu <;> exact absurd (hname.symm.trans h) (by decide)

end Porch.Db
