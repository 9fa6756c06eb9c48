import Porch.Git.CloseSpec
import Porch.Git.Delete

/- The attempts of `pushAndCleanup` of `pkg/externalrepo/git/git.go`, with `push.go` and
   `commitopsbuilder.go`.

   Every attempt fetches, makes the commits of the operations on what it sees then, and
   pushes. It changes the draft of an approval and the builder in place, so that the next
   attempt starts from what a failed one has left. A fetch does not prune, and one that fails
   is ignored. What the remote is and decides at each try is a parameter.

   So an approval can get the approval commit of a failed attempt for a parent
   (`failed_approval_is_parent`), and a branch can be pushed when the package is no longer
   on it. -/
namespace Porch.Git

open Go Function

/-- `updateRequiredRefs`; `short` is `ReferenceName.Short` of go-git. -/
def PushRefSpecBuilder.updateRequiredRefs (short : Str → Str) (refs : Refs)
    (b : PushRefSpecBuilder) : PushRefSpecBuilder :=
  { b with require := b.require.keys.foldl (fun require name =>
      match (refs.lookup name).or (refs.lookup (branchPrefixInLocalRepo ++ short name)) with
      | some c => require.insert name (some c)
      | none => require) b.require }

/-- The head of the branch, if the package is a directory there. -/
def headWith (branch : Str) (key : PackageRevisionKey) (refs : Refs) : Option Commit :=
  (refs.lookup branch).filter fun head =>
    (treeAt head.tree (key.pkgKey.toFullPathname.splitOn '/')).isSome

/-! The attempts -/

/-- The patterns of `retryableErrors`. -/
def retryableErrors : List Str :=
  ["remote ref", "failed to update ref", "pre-receive hook declined",
    "non-fast-forward update", "stale file handle",
    "unable to migrate objects to permanent storage", "failed to lock", "broken pipe",
    "status code: 500"]

inductive PushOutcome where
  | taken
  /-- `NoErrAlreadyUpToDate`. -/
  | upToDate
  /-- `ErrAuthenticationRequired`. -/
  | authenticationRequired
  | failed (text : Str)

/-- What the operation of an attempt meets. -/
structure Try where
  /-- The error of `getAuthMethod`. -/
  credentials : Option Str := none
  /-- The references of the remote when it is fetched. -/
  remote : Refs
  fetchFails : Bool := false
  push : PushOutcome

inductive PushError where
  | credentials (text : Str)
  | git (err : GitError)
  | upToDate
  | authenticationRequired
  | failed (text : Str)
  | noAttempts

/-- The error has one of the patterns. The errors of the operations and of an authentication that
    is required have none. -/
def PushError.isRetryable (patterns : List Str) : PushError → Bool
  | credentials text => patterns.any fun p => p <:+: "failed to obtain git credentials: " ++ text
  | failed text => patterns.any fun p => p <:+: text
  | _ => false

/-- The local references, the builder and the operations of a push that is tried. -/
structure Push where
  localRefs : Refs
  builder : PushRefSpecBuilder
  ops : List CommitOperation

/-- The local references after a fetch, or after one that has failed. -/
def Try.view (t : Try) (localRefs : Refs) : Refs :=
  if t.fetchFails then localRefs else t.remote ∪ localRefs

namespace Push

variable (repo : GitRepository) (short : Str → Str) (patterns : List Str)

/-- The operation that an attempt runs with the credentials. -/
def operation (p : Push) (t : Try) : Push × Except PushError (List RefUpdate) :=
  let refs := t.view p.localRefs
  match executeCommitOperations repo refs p.ops p.builder with
  | ((ops, b), some e) => (⟨refs, b, ops⟩, .error (.git e))
  | ((ops, b), none) =>
    let b := b.updateRequiredRefs short refs
    (⟨refs, b, ops⟩,
      match t.push with
      | .taken => .ok (buildRefSpecs b.pushRefs)
      | .upToDate => .error .upToDate
      | .authenticationRequired => .error .authenticationRequired
      | .failed text => .error (.failed text))

/-- `doGitWithAuth` from the try `k` on, with the number of its last try. -/
def doGitWithAuth (tries : Nat → Try) : Nat → Nat → Push → Nat × Push × Except PushError (List RefUpdate)
  | 0, k, p =>
    match (tries k).credentials with
    | some text => (k, p, .error (.credentials text))
    | none => (k, p.operation repo short (tries k))
  | retries + 1, k, p =>
    match (tries k).credentials with
    | some text => (k, p, .error (.credentials text))
    | none =>
      match p.operation repo short (tries k) with
      | (p, .error .authenticationRequired) => doGitWithAuth tries retries (k + 1) p
      | r => (k, r)

/-- `pushAndCleanup` from the try `k` on, with as many attempts left: what the remote has taken,
    and at which try; none when it was up to date. -/
def pushAndCleanup (tries : Nat → Try) (retries : Nat) :
    Nat → Nat → Push → Except PushError (Option (Nat × List RefUpdate))
  | 0, _, _ => .error .noAttempts
  | attempts + 1, k, p =>
    match doGitWithAuth repo short tries retries k p with
    | (k, _, .ok updates) => .ok (some (k, updates))
    | (_, _, .error .upToDate) => .ok none
    | (k, p, .error e) =>
      if attempts = 0 then .error e
      else if e.isRetryable patterns then pushAndCleanup tries retries attempts (k + 1) p
      else .error e

end Push

/-- The start of `pushAndCleanup`. -/
def Prepared.start (c : Prepared) (localRefs : Refs) : Push := ⟨localRefs, c.builder, c.op.toList⟩

/-! One attempt after another -/

/-- The local references before the try `n`. -/
def localAt (tries : Nat → Try) (localRefs : Refs) : Nat → Refs
  | 0 => localRefs
  | n + 1 =>
    if (tries n).credentials.isSome then localAt tries localRefs n
    else (tries n).view (localAt tries localRefs n)

theorem localAt_of_refused {tries : Nat → Try} {localRefs : Refs} {n : Nat}
    (h : ∀ j < n, (tries j).credentials ≠ none) : localAt tries localRefs n = localRefs := by
  induction n with
  | zero => rfl
  | succ n ih =>
    rw [localAt, if_pos (Option.isSome_iff_ne_none.mpr (h n (by omega)))]
    exact ih fun j hj => h j (by omega)

/-- The references that the try `n` sees. -/
def seenAt (tries : Nat → Try) (localRefs : Refs) (n : Nat) : Refs := (tries n).view (localAt tries localRefs n)

section Attempts

variable {repo : GitRepository} {short : Str → Str} {patterns : List Str} {tries : Nat → Try} {localRefs : Refs}
  {retries : Nat} {P : Nat → Push → Prop} {p q : Push} {us : List RefUpdate} {k k' n : Nat}

/-- What the tries keep: one without credentials changes nothing, and another one leaves what its
    operations have made. -/
structure Kept (repo : GitRepository) (tries : Nat → Try) (localRefs : Refs) (P : Nat → Push → Prop) : Prop where
  refused : ∀ n q, (tries n).credentials ≠ none → P n q → P (n + 1) q
  ran : ∀ n q ops b, (tries n).credentials = none → P n q →
    executeCommitOperations repo (seenAt tries localRefs n) q.ops q.builder = ((ops, b), none) →
    ∀ q', q'.ops = ops → q'.builder.pushRefs = b.pushRefs → P (n + 1) q'

/-- The push before the try `n`, which sees what the tries before it have fetched. -/
def Before (tries : Nat → Try) (localRefs : Refs) (P : Nat → Push → Prop) (n : Nat) (p : Push) : Prop :=
  p.localRefs = localAt tries localRefs n ∧ P n p

/-- The try `n` has carried out its operations and pushed this. -/
def Pushed (repo : GitRepository) (tries : Nat → Try) (localRefs : Refs) (n : Nat) (p : Push)
    (us : List RefUpdate) : Prop :=
  (tries n).credentials = none ∧
  ∃ ops b, executeCommitOperations repo (seenAt tries localRefs n) p.ops p.builder = ((ops, b), none) ∧
    us = buildRefSpecs b.pushRefs

variable (hP : Kept repo tries localRefs P) {r : Except PushError (List RefUpdate)}
include hP

theorem Kept.operation (hp : Before tries localRefs P n p) (hcred : (tries n).credentials = none)
    (hne : ∀ e, r ≠ .error (.git e)) (hop : p.operation repo short (tries n) = (q, r)) :
    Before tries localRefs P (n + 1) q ∧ ∀ us, r = .ok us → Pushed repo tries localRefs n p us := by
  obtain ⟨hlocal, hp⟩ := hp
  rcases hexec : executeCommitOperations repo ((tries n).view (localAt tries localRefs n)) p.ops p.builder with
    ⟨⟨ops, b⟩, _ | e⟩ <;> simp only [Push.operation, hlocal, hexec, Prod.mk.injEq] at hop <;> obtain ⟨rfl, rfl⟩ := hop
  · refine ⟨⟨by simp [localAt, hcred], hP.ran n p ops b hcred hp hexec _ rfl rfl⟩, fun us hus => ⟨hcred, ops, b, hexec, ?_⟩⟩
    cases hpush : (tries n).push <;> simp only [hpush] at hus <;> cases hus
    rfl
  · exact absurd rfl (hne e)

/-- The tries of one call of `doGitWithAuth`. -/
theorem Kept.doGitWithAuth (hp : Before tries localRefs P k p) (hne : ∀ e, r ≠ .error (.git e))
    (h : Push.doGitWithAuth repo short tries retries k p = (k', q, r)) :
    Before tries localRefs P (k' + 1) q ∧
      ∀ us, r = .ok us → ∃ p', P k' p' ∧ Pushed repo tries localRefs k' p' us := by
  fun_induction Push.doGitWithAuth repo short tries retries k p
  case case1 | case3 =>
    rename_i hcred
    cases h
    exact ⟨⟨by simp [localAt, hcred, hp.1], hP.refused _ _ (by simp [hcred]) hp.2⟩, nofun⟩
  case case2 | case5 =>
    rename_i hcred _
    obtain ⟨rfl, hop⟩ := Prod.mk.inj h
    obtain ⟨hnext, hpushed⟩ := hP.operation hp (by assumption) hne hop
    exact ⟨hnext, fun us hus => ⟨_, hp.2, hpushed us hus⟩⟩
  case case4 =>
    -- the credentials were refused, and the operation is run again
    rename_i hcred p' hop ih
    exact ih (hP.operation hp hcred (by simp) hop).1 h

/-- **The tries of a push that succeeds** keep what each one of them does. -/
theorem Kept.pushAndCleanup {attempts : Nat} (hp : Before tries localRefs P k p)
    (h : Push.pushAndCleanup repo short patterns tries retries attempts k p = .ok (some (n, us))) :
    ∃ q, P n q ∧ Pushed repo tries localRefs n q us := by
  induction attempts generalizing k p with
  | zero => cases h
  | succ attempts ih =>
    unfold Push.pushAndCleanup at h
    split at h
    · next hlast =>
      cases h
      exact (hP.doGitWithAuth hp (by simp) hlast).2 us rfl
    · cases h
    · next hlast =>
      split at h
      · cases h
      · split at h
        · next hretry =>
          -- an error of the operations is not tried again
          refine ih (hP.doGitWithAuth hp ?_ hlast).1 h
          rintro g ⟨⟩
          cases hretry
        · cases h

end Attempts

/-! The commits -/

namespace Commit

def parents : Commit → List Commit
  | mk _ _ ps => ps

/-- The size of a commit with its history; no commit is nothing. -/
noncomputable def weight (c : Option Commit) : Nat := c.elim 0 sizeOf

theorem weight_lt_of_mem {c : Commit} {o : Option Commit} (h : ∀ c' ∈ o, c' ∈ c.parents) :
    weight o < weight (some c) := by
  obtain ⟨tree, annotations, ps⟩ := c
  have hsize : sizeOf (Commit.mk tree annotations ps) = 1 + sizeOf tree + sizeOf annotations + sizeOf ps := by simp
  cases o with
  | none =>
    simp only [weight, Option.elim]
    omega
  | some c' =>
    have hmem := List.sizeOf_lt_of_mem (h c' rfl)
    simp only [weight, Option.elim, parents] at hmem ⊢
    omega

end Commit

section Commits

variable {repo : GitRepository} {d : GitPackageRevisionDraft} {refs : Refs} {b b' : PushRefSpecBuilder}

variable {commit : Commit} {tag : Str} {op : CommitOperation}

/-- **The commit of an approval.** Its parents are the head of the branch and the commit of the
    draft, it has the tree of the draft in the directory of the package, and the tree that is
    returned is the draft's. -/
theorem commitPackageToMain_ok {packageTree : Option Tree}
    (h : commitPackageToMain repo d refs = .ok (commit, packageTree)) :
    ∃ head, refs.lookup (refInLocal repo.branch) = some head ∧ commit.parents = head :: d.commit.toList ∧
      packageTree = d.tree ∧
      ∀ t, d.tree = some t → t ≠ [] → treeAt commit.tree d.parts = some t := by
  obtain ⟨head, loaded, root, hhead, hload, -, hpt, rfl⟩ := commitPackageToMain_made h
  refine ⟨head, hhead, rfl, ?_, fun t ht hne => (commitPackageToMain_package ht hne h).1⟩
  have hparts := d.parts_eq
  have hbelow : ∀ p, p <+: d.parts.dropLast → d.parts ≠ p := by
    intro p hp heq
    have hlen := congrArg List.length hparts
    have hle := hp.length_le
    rw [List.length_append, List.length_singleton, heq] at hlen
    rw [heq] at hle
    omega
  have hne := hbelow _ List.prefix_rfl
  unfold packageTreeOf at hpt
  cases htree : d.tree with
  | none =>
    have hnil : d.parts ≠ [] := List.splitOn_ne_nil _ _
    have habs : placePackage loaded d.parts.dropLast (d.parts.getLastD []) none d.parts = none := by
      dsimp only [placePackage]
      rw [update_of_ne hne, loadAncestors_frame hload hbelow, update_of_ne hnil]
    rw [htree, habs] at hpt
    exact (Except.ok.inj hpt).symm
  | some t =>
    have hat : placePackage loaded d.parts.dropLast (d.parts.getLastD []) (some t) d.parts =
        some (Git.loaded t) := by
      dsimp only [placePackage]
      rw [update_of_ne hne, hparts, update_self]
    rw [htree, hat] at hpt
    simp only [storeTrees_loaded hat] at hpt
    exact (Except.ok.inj hpt).symm

theorem executeCommitOperation_of_commit {tree : Option Tree}
    (h : commitPackageToMain repo d refs = .ok (commit, tree)) :
    executeCommitOperation repo refs b (.approval d tag) = .ok
      (.approval { d with commit := some commit, tree := tree } tag,
        (b.addRefToPush (some commit) (refInLocal repo.branch)).addRefToPush (some commit) tag) := by
  simp only [executeCommitOperation, h]
  rfl

variable {branch : Str} {key : PackageRevisionKey}

theorem executeCommitOperation_of_deletion {commit : Option Commit}
    (h : createPackageDeleteCommit branch key refs = .ok commit) :
    executeCommitOperation repo refs b (.deletion branch key) =
      .ok (.deletion branch key, if commit.isNone then b else b.addRefToPush commit branch) := by
  simp only [executeCommitOperation, h]
  rfl

theorem executeCommitOperation_approval
    (h : executeCommitOperation repo refs b (.approval d tag) = .ok (op, b')) :
    ∃ head commit, commitPackageToMain repo d refs = .ok (commit, d.tree) ∧
      refs.lookup (refInLocal repo.branch) = some head ∧ commit.parents = head :: d.commit.toList ∧
      (∀ t, d.tree = some t → t ≠ [] → treeAt commit.tree d.parts = some t) ∧
      op = .approval { d with commit := some commit } tag ∧
      b'.pushRefs = (b.pushRefs.insert (refInLocal repo.branch) (some commit)).insert tag (some commit) := by
  obtain ⟨⟨commit, tree⟩, hcmt, h⟩ := bind_eq_ok.mp h
  cases h
  obtain ⟨head, hhead, hpars, htree, hat⟩ := commitPackageToMain_ok hcmt
  subst htree
  exact ⟨head, commit, hcmt, hhead, hpars, hat, rfl, rfl⟩

theorem headWith_eq_some {head : Commit} (h : headWith branch key refs = some head) :
    refs.lookup branch = some head := (Option.filter_eq_some_iff.mp h).1

/-- The commit of a deletion is on top of the head of the branch, and the same for the same head. -/
def DeletionOf (branch : Str) (key : PackageRevisionKey) (head commit : Commit) : Prop :=
  commit.parents = [head] ∧ ∀ refs, headWith branch key refs = some head →
    createPackageDeleteCommit branch key refs = .ok (some commit)

theorem createPackageDeleteCommit_none (h : headWith branch key refs = none) :
    createPackageDeleteCommit branch key refs = .ok none := by
  unfold createPackageDeleteCommit
  unfold headWith at h
  cases hhead : refs.lookup branch with
  | none => rfl
  | some head =>
    rw [hhead, Option.filter_some] at h
    cases hat : treeAt head.tree (key.pkgKey.toFullPathname.splitOn '/') with
    | none => simp only [hat]
    | some t =>
      rw [hat] at h
      cases h

theorem createPackageDeleteCommit_some {head : Commit} {c : Option Commit}
    (hhead : headWith branch key refs = some head)
    (h : createPackageDeleteCommit branch key refs = .ok c) :
    ∃ commit, c = some commit ∧ DeletionOf branch key head commit := by
  have hsame : ∀ refs', headWith branch key refs' = some head →
      createPackageDeleteCommit branch key refs' = .ok c := by
    intro refs' hhead'
    rw [← h]
    unfold createPackageDeleteCommit
    rw [headWith_eq_some hhead, headWith_eq_some hhead']
  unfold createPackageDeleteCommit at h
  simp only [headWith_eq_some hhead] at h
  split at h
  · next hat =>
    have hon := (Option.filter_eq_some_iff.mp hhead).2
    rw [hat] at hon
    cases hon
  · obtain ⟨trees, _, h⟩ := bind_eq_ok.mp h
    obtain ⟨root, _, h⟩ := bind_eq_ok.mp h
    cases h
    exact ⟨_, rfl, rfl, hsame⟩

theorem executeCommitOperation_deletion
    (h : executeCommitOperation repo refs b (.deletion branch key) = .ok (op, b')) :
    op = .deletion branch key ∧ (headWith branch key refs = none ∧ b' = b ∨
      ∃ head commit, headWith branch key refs = some head ∧ DeletionOf branch key head commit ∧
        b'.pushRefs = b.pushRefs.insert branch (some commit)) := by
  obtain ⟨commit, hcmt, h⟩ := bind_eq_ok.mp h
  cases h
  refine ⟨rfl, ?_⟩
  cases hhead : headWith branch key refs with
  | none =>
    rw [createPackageDeleteCommit_none hhead] at hcmt
    cases hcmt
    exact .inl ⟨rfl, rfl⟩
  | some head =>
    obtain ⟨commit, rfl, hof⟩ := createPackageDeleteCommit_some hhead hcmt
    exact .inr ⟨head, commit, rfl, hof, rfl⟩

end Commits

/-! What failed attempts leave -/

/-- The head of the branch at the last try before `n` that has found the package on it. -/
def lastFound (tries : Nat → Try) (localRefs : Refs) (branch : Str) (key : PackageRevisionKey) :
    Nat → Option Commit
  | 0 => none
  | n + 1 =>
    if (tries n).credentials.isSome then lastFound tries localRefs branch key n
    else (headWith branch key (seenAt tries localRefs n)).or (lastFound tries localRefs branch key n)

/-- The references that a first attempt sees at the try `n`: those of the remote then, over those of
    the clone before the call. -/
def firstSeen (tries : Nat → Try) (localRefs : Refs) (n : Nat) : Refs := (tries n).remote ∪ localRefs

/-- The failed tries leave nothing that a first attempt would not have. Those of an approval had no
    credentials, and the last one has fetched the branch or it is as it was in the clone; the last
    try of a deletion that found the package saw the head that the first attempt sees, and there is
    none if that does not find the package. -/
def NoLeftovers (repo : GitRepository) (tries : Nat → Try) (localRefs : Refs) (n : Nat) :
    Option CommitOperation → Prop
  | none => True
  | some (.approval _ _) => (∀ j < n, (tries j).credentials ≠ none) ∧
      ((tries n).fetchFails = false ∨ localRefs.lookup (refInLocal repo.branch) =
        (firstSeen tries localRefs n).lookup (refInLocal repo.branch))
  | some (.deletion branch key) => lastFound tries localRefs branch key (n + 1) =
      headWith branch key (firstSeen tries localRefs n)

/-- The updates are those of a first attempt that sees these references: an approval is the commit
    of the draft merged into the head of the branch, with the tree of the draft, on the branch and on
    the tag; a branch from which a package is deleted is pushed if the package is on it. -/
structure AsFirst (repo : GitRepository) (c : Prepared) (refs : Refs) (us : List RefUpdate) : Prop where
  same : ∃ pushRefs, firstPush repo c refs = .ok pushRefs ∧ ∀ u, u ∈ us ↔ u ∈ buildRefSpecs pushRefs
  approval : ∀ d tag, c.op = some (.approval d tag) → ∃ head commit,
    refs.lookup (refInLocal repo.branch) = some head ∧ commit.parents = head :: d.commit.toList ∧
    (∀ t, d.tree = some t → t ≠ [] → treeAt commit.tree d.parts = some t) ∧
    ⟨refInLocal repo.branch, some commit⟩ ∈ us ∧ ⟨tag, some commit⟩ ∈ us
  deletion : ∀ branch key, c.op = some (.deletion branch key) →
    ((∃ commit, ⟨branch, some commit⟩ ∈ us) ↔ (headWith branch key refs).isSome)

section Leftovers

variable {repo : GitRepository} {short : Str → Str} {tries : Nat → Try} {p : Push} {c : Prepared}
  {localRefs refs : Refs} {n : Nat} {us : List RefUpdate}

variable {b : PushRefSpecBuilder} {ops : List CommitOperation}

variable {op : CommitOperation} {d : GitPackageRevisionDraft} {tag branch : Str}
  {key : PackageRevisionKey} {q : Push}

theorem executeCommitOperations_single {b' : PushRefSpecBuilder}
    (h : executeCommitOperations repo refs [op] b = ((ops, b'), none)) :
    ∃ op', ops = [op'] ∧ executeCommitOperation repo refs b op = .ok (op', b') := by
  unfold executeCommitOperations at h
  split at h
  · cases h
  · next op' b₁ hop =>
    cases h
    exact ⟨op', rfl, hop⟩

theorem exists_lt_succ_iff {Q : Nat → Prop} (h : ¬ Q n) : (∃ j < n + 1, Q j) ↔ ∃ j < n, Q j := by
  rw [Nat.exists_lt_succ_right]
  simp [h]

theorem kept_none (localRefs : Refs) (pushRefs : PushRefs) :
    Kept repo tries localRefs fun _ q => q.ops = [] ∧ q.builder.pushRefs = pushRefs where
  refused _ _ _ hq := hq
  ran n q ops b _ hq hexec q' hops hrefs := by
    rw [hq.1] at hexec
    cases hexec
    exact ⟨hops, hrefs.trans hq.2⟩

/-- An approval that has been carried out has a new commit in its draft. -/
structure ApprovalLeft (repo : GitRepository) (p : Push) (d : GitPackageRevisionDraft) (tag : Str) (ran : Prop)
    (q : Push) (d' : GitPackageRevisionDraft) : Prop where
  ops : q.ops = [.approval d' tag]
  draft : d' = { d with commit := d'.commit }
  others : ∀ name, name ≠ refInLocal repo.branch → name ≠ tag →
    q.builder.pushRefs.lookup name = p.builder.pushRefs.lookup name
  left : ¬ ran ∧ d' = d ∧ q.builder.pushRefs = p.builder.pushRefs ∨
    ran ∧ Commit.weight d.commit < Commit.weight d'.commit

theorem kept_approval (localRefs : Refs) (p : Push) (d : GitPackageRevisionDraft) (tag : Str) :
    Kept repo tries localRefs fun n q => ∃ d',
      ApprovalLeft repo p d tag (∃ j < n, (tries j).credentials = none) q d' := by
  refine ⟨fun n q hcred hleft => ?_, fun n q ops b hcred ⟨d', hleft⟩ hexec q' hops hrefs => ?_⟩
  · rw [exists_lt_succ_iff hcred]
    exact hleft
  · rw [hleft.ops] at hexec
    obtain ⟨op', rfl, hone⟩ := executeCommitOperations_single hexec
    obtain ⟨head, commit, _, _, hpars, _, rfl, hpush⟩ := executeCommitOperation_approval hone
    refine ⟨{ d' with commit := some commit }, hops, ?_, fun name hbr htag => ?_, .inr ⟨⟨n, by omega, hcred⟩, ?_⟩⟩
    · rw [hleft.draft]
    · rw [hrefs, hpush, AList.lookup_insert_ne htag, AList.lookup_insert_ne hbr]
      exact hleft.others name hbr htag
    · -- the new commit has the one of the draft for a parent
      have hlt : Commit.weight d'.commit < Commit.weight (some commit) := by
        refine Commit.weight_lt_of_mem fun c hc => ?_
        rw [hpars]
        simp [Option.mem_def.mp hc]
      obtain ⟨_, heq, _⟩ | ⟨_, hold⟩ := hleft.left
      · exact heq ▸ hlt
      · exact hold.trans hlt

/-- A deletion that has found the package has the commit for the last head with it in the builder. -/
structure DeletionLeft (p : Push) (branch : Str) (key : PackageRevisionKey) (last : Option Commit)
    (q : Push) : Prop where
  ops : q.ops = [.deletion branch key]
  others : ∀ name, name ≠ branch → q.builder.pushRefs.lookup name = p.builder.pushRefs.lookup name
  left : last = none ∧ q.builder.pushRefs.lookup branch = p.builder.pushRefs.lookup branch ∨
    ∃ head commit, last = some head ∧ DeletionOf branch key head commit ∧
      q.builder.pushRefs.lookup branch = some (some commit)

theorem kept_deletion (localRefs : Refs) (p : Push) (branch : Str) (key : PackageRevisionKey) :
    Kept repo tries localRefs fun n => DeletionLeft p branch key (lastFound tries localRefs branch key n) := by
  refine ⟨fun n q hcred hleft => ?_, fun n q ops b hcred hleft hexec q' hops hrefs => ?_⟩
  · rw [lastFound, if_pos (Option.isSome_iff_ne_none.mpr hcred)]
    exact hleft
  · rw [hleft.ops] at hexec
    obtain ⟨op', rfl, hone⟩ := executeCommitOperations_single hexec
    rw [lastFound, if_neg (by simp [hcred])]
    obtain ⟨rfl, ⟨hhead, rfl⟩ | ⟨head, commit, hhead, hof, hpush⟩⟩ := executeCommitOperation_deletion hone
    · -- the builder stays as the tries before have left it
      rw [hhead, Option.none_or]
      refine ⟨hops, fun name hname => ?_, ?_⟩
      · rw [hrefs]
        exact hleft.others name hname
      · rw [hrefs]
        exact hleft.left
    · rw [hhead, Option.some_or]
      refine ⟨hops, fun name hname => ?_, .inr ⟨head, commit, rfl, hof, ?_⟩⟩
      · rw [hrefs, hpush, AList.lookup_insert_ne hname]
        exact hleft.others name hname
      · rw [hrefs, hpush, AList.lookup_insert]

theorem asFirst_none (hop : c.op = none) (hus : us = buildRefSpecs c.builder.pushRefs) : AsFirst repo c refs us := by
  refine ⟨⟨c.builder.pushRefs, ?_, fun u => by rw [hus]⟩, fun _ _ hd => (nomatch hop.symm.trans hd),
    fun _ _ hd => nomatch hop.symm.trans hd⟩
  simp [firstPush, hop, executeCommitOperations]

theorem asFirst_approval_iff {ran : Prop} {d' : GitPackageRevisionDraft} {seen : Refs}
    (hop : c.op = some (.approval d tag))
    (hleft : ApprovalLeft repo (c.start localRefs) d tag ran q d')
    (hexec : executeCommitOperations repo seen q.ops q.builder = ((ops, b), none)) :
    AsFirst repo c refs (buildRefSpecs b.pushRefs) ↔
      ¬ ran ∧ seen.lookup (refInLocal repo.branch) = refs.lookup (refInLocal repo.branch) := by
  rw [hleft.ops] at hexec
  obtain ⟨op', _, hone⟩ := executeCommitOperations_single hexec
  obtain ⟨head, commit, hcmt, hhead, hpars, htree, _, hpush⟩ := executeCommitOperation_approval hone
  constructor
  · -- on the tag is the commit with the head and the draft's own commit for parents
    intro hfirst
    obtain ⟨head₀, commit₀, hhead₀, hpars₀, _, _, htag₀⟩ := hfirst.approval d tag hop
    have hsame : commit₀ = commit := by
      rw [mem_buildRefSpecs, hpush, AList.lookup_insert] at htag₀
      simpa using htag₀.symm
    rw [hsame, hpars] at hpars₀
    obtain ⟨rfl, hlist⟩ := List.cons.inj hpars₀
    refine ⟨fun hran => ?_, hhead.trans hhead₀.symm⟩
    have hdraft : d.commit = d'.commit := by
      cases hd : d.commit <;> cases hd' : d'.commit <;> simp_all
    obtain ⟨hnot, _⟩ | ⟨_, hlt⟩ := hleft.left
    · exact hnot hran
    · rw [hdraft] at hlt
      exact lt_irrefl _ hlt
  · rintro ⟨hnot, hseen⟩
    obtain ⟨_, rfl, hrefs⟩ | ⟨hran, _⟩ := hleft.left
    · have hcmt' : commitPackageToMain repo d' refs = .ok (commit, d'.tree) := by
        rw [← hcmt]
        unfold commitPackageToMain
        rw [hseen]
      have hfirst : firstPush repo c refs = .ok b.pushRefs := by
        rw [hpush, hrefs]
        exact firstPush_of_op hop (executeCommitOperation_of_commit hcmt')
      refine ⟨⟨b.pushRefs, hfirst, fun _ => Iff.rfl⟩, fun d₁ tag₁ hd => ?_, fun _ _ hd => nomatch hop.symm.trans hd⟩
      cases hop.symm.trans hd
      refine ⟨head, commit, hseen ▸ hhead, hpars, htree, ?_, ?_⟩
      · rw [mem_buildRefSpecs, hpush]
        by_cases heq : refInLocal repo.branch = tag
        · rw [heq, AList.lookup_insert]
        · rw [AList.lookup_insert_ne heq, AList.lookup_insert]
      · rw [mem_buildRefSpecs, hpush, AList.lookup_insert]
    · exact absurd hran hnot

/-- The updates of a deletion are those of a first attempt if they are so for each reference. -/
theorem asFirst_deletion {pushRefs : PushRefs} (hop : c.op = some (.deletion branch key))
    (hfirst : firstPush repo c refs = .ok pushRefs)
    (hsame : ∀ name, b.pushRefs.lookup name = pushRefs.lookup name)
    (hbr : (∃ commit, pushRefs.lookup branch = some (some commit)) ↔ (headWith branch key refs).isSome) :
    AsFirst repo c refs (buildRefSpecs b.pushRefs) := by
  refine ⟨⟨pushRefs, hfirst, fun u => ?_⟩, fun _ _ hd => (nomatch hop.symm.trans hd), fun branch' key' hd => ?_⟩
  · rw [mem_buildRefSpecs, mem_buildRefSpecs, hsame]
  · cases hop.symm.trans hd
    simpa only [mem_buildRefSpecs, hsame] using hbr

theorem asFirst_deletion_iff {last : Option Commit} (hop : c.op = some (.deletion branch key))
    (hleft : DeletionLeft (c.start localRefs) branch key last q) :
    AsFirst repo c refs (buildRefSpecs q.builder.pushRefs) ↔ last = headWith branch key refs := by
  have hnot : ∀ commit, c.builder.pushRefs.lookup branch ≠ some (some commit) :=
    fun commit => c.notPushed branch key commit hop
  have hothers : ∀ name, name ≠ branch → q.builder.pushRefs.lookup name = c.builder.pushRefs.lookup name :=
    hleft.others
  cases hhead : headWith branch key refs with
  | none =>
    constructor
    · intro hfirst
      obtain ⟨hnone, _⟩ | ⟨head, commit, _, _, hpushed⟩ := hleft.left
      · exact hnone
      · -- the commit of a failed attempt is still to be pushed
        have hon := (hfirst.deletion branch key hop).mp ⟨commit, mem_buildRefSpecs.mpr hpushed⟩
        rw [hhead] at hon
        cases hon
    · rintro rfl
      obtain ⟨_, hsame⟩ | ⟨head, commit, hlast, _⟩ := hleft.left
      · refine asFirst_deletion hop (firstPush_of_op hop
          (executeCommitOperation_of_deletion (createPackageDeleteCommit_none hhead))) (fun name => ?_) ?_
        · by_cases hname : name = branch
          · rw [hname]
            exact hsame
          · exact hothers name hname
        · rw [hhead]
          exact iff_of_false (fun h => h.elim hnot) (by simp)
      · cases hlast
  | some head =>
    constructor
    · intro hfirst
      obtain ⟨pushRefs, hpush, hmem⟩ := hfirst.same
      obtain ⟨_, b, hone, rfl⟩ := firstPush_op hop hpush
      obtain ⟨-, ⟨hnone, -⟩ | ⟨head₁, commit, hhead₁, hof, hins⟩⟩ := executeCommitOperation_deletion hone
      · cases hhead.symm.trans hnone
      cases hhead.symm.trans hhead₁
      have hpushed := (hmem ⟨branch, some commit⟩).mpr
        (mem_buildRefSpecs.mpr (by rw [hins, AList.lookup_insert]))
      rw [mem_buildRefSpecs] at hpushed
      obtain ⟨_, hsame⟩ | ⟨head', commit', rfl, hof', hpushed'⟩ := hleft.left
      · exact absurd (hsame.symm.trans hpushed) (hnot commit)
      · -- it is the commit of the first attempt, and has the same head for a parent
        obtain rfl : commit' = commit := by simpa using hpushed'.symm.trans hpushed
        rw [(List.cons.inj (hof'.1.symm.trans hof.1)).1]
    · rintro rfl
      obtain ⟨hlast, _⟩ | ⟨head', commit, hlast, hof, hpushed⟩ := hleft.left
      · cases hlast
      · cases hlast
        refine asFirst_deletion hop (firstPush_of_op hop
          (executeCommitOperation_of_deletion (hof.2 refs hhead))) (fun name => ?_) ?_
        · show _ = (c.builder.pushRefs.insert branch (some commit)).lookup name
          by_cases hname : name = branch
          · rw [hname, AList.lookup_insert, hpushed]
          · rw [AList.lookup_insert_ne hname, hothers name hname]
        · rw [hhead]
          exact iff_of_true ⟨commit, AList.lookup_insert _⟩ rfl

end Leftovers

/-- **What a push that succeeds after failed attempts has pushed.** It is what a first attempt
    would have pushed on the remote of the last one, from the clone before the call, if and only if
    the failed attempts leave nothing. -/
theorem retried_push_iff {repo : GitRepository} {short : Str → Str} {patterns : List Str} {tries : Nat → Try}
    {retries attempts n : Nat} {c : Prepared} {localRefs : Refs} {us : List RefUpdate}
    (h : (c.start localRefs).pushAndCleanup repo short patterns tries retries attempts 0 = .ok (some (n, us))) :
    AsFirst repo c (firstSeen tries localRefs n) us ↔ NoLeftovers repo tries localRefs n c.op := by
  cases hop : c.op with
  | none =>
    obtain ⟨q, ⟨hops, hrefs⟩, _, ops, b, hexec, rfl⟩ :=
      (kept_none localRefs c.builder.pushRefs).pushAndCleanup ⟨rfl, by simp [Prepared.start, hop], rfl⟩ h
    rw [hops] at hexec
    cases hexec
    exact iff_of_true (asFirst_none hop (by rw [hrefs])) trivial
  | some op =>
    cases op with
    | approval d tag =>
      obtain ⟨q, ⟨d', hleft⟩, _, ops, b, hexec, rfl⟩ := (kept_approval localRefs (c.start localRefs) d tag).pushAndCleanup
        ⟨rfl, d, by simp [Prepared.start, hop], rfl, fun _ _ _ => rfl, .inl ⟨by simp, rfl, rfl⟩⟩ h
      rw [asFirst_approval_iff hop hleft hexec]
      have hran : (¬ ∃ j < n, (tries j).credentials = none) ↔ ∀ j < n, (tries j).credentials ≠ none := by
        simp
      rw [hran]
      refine and_congr_right fun hrefused => ?_
      rw [seenAt, localAt_of_refused hrefused]
      cases hfetch : (tries n).fetchFails <;> simp [Try.view, firstSeen, hfetch]
    | deletion branch key =>
      have hkept : Kept repo tries localRefs _ := kept_deletion localRefs (c.start localRefs) branch key
      obtain ⟨q, hleft, hcred, ops, b, hexec, rfl⟩ := hkept.pushAndCleanup
        ⟨rfl, by simp [Prepared.start, hop], fun _ _ => rfl, .inl ⟨by simp [lastFound], rfl⟩⟩ h
      exact asFirst_deletion_iff hop (hkept.ran n q ops b hcred hleft hexec ⟨localRefs, b, ops⟩ rfl rfl)

/-! A draft that is published at the second attempt -/

def trunkRefs : Refs := (taggedAs "v1").refs

/-- A draft of the package `app`, proposed and now published. -/
def secondDraft : GitPackageRevisionDraft :=
  let tree : Tree := [("Kptfile", .blob .regular "second")]
  { prKey := appKey 0 "second"
    lifecycle := .published
    commit := some (.mk [("app", .dir tree)] [⟨"app", "second", "0"⟩] [])
    tree := some tree }

def secondApproval : Prepared where
  builder := {}
  op := some (.approval (secondDraft.versioned 2) (createFinalTagNameInLocal (appKey 2 "second")))
  notPushed := nofun

/-- The first push is refused, the second one is taken; nothing has changed in between. -/
def secondTime (credentials : Option Str) : Nat → Try
  | 0 => { credentials := credentials, remote := trunkRefs, push := .failed "failed to update ref" }
  | _ => { remote := trunkRefs, push := .taken }

def pushSecond (credentials : Option Str) : Except PushError (Option (Nat × List RefUpdate)) :=
  (secondApproval.start trunkRefs).pushAndCleanup trunkRepo id retryableErrors (secondTime credentials) 3 3 0

/-- What is on the tag: the annotations of the parents of its commit. -/
def parentsOnTag (us : List RefUpdate) : List (List (List GitAnnotation)) :=
  us.filterMap fun u =>
    if u.name = "refs/tags/app/v2".toList then u.commit.map fun c => c.parents.map (·.annotations) else none

/-- What the second attempt has pushed. -/
def onSecond : Except PushError (Option (Nat × List RefUpdate)) → Option (List RefUpdate)
  | .ok (some (1, us)) => some us
  | _ => none

theorem onSecond_eq_some {r : Except PushError (Option (Nat × List RefUpdate))} {us : List RefUpdate}
    (h : onSecond r = some us) : r = .ok (some (1, us)) := by
  unfold onSecond at h
  split at h <;> cases h
  rfl

theorem retried_push_iff_refused :
    ∃ us, pushSecond (some "status code: 500") = .ok (some (1, us)) ∧
      AsFirst trunkRepo secondApproval (firstSeen (secondTime (some "status code: 500")) trunkRefs 1) us := by
  have hok : (onSecond (pushSecond (some "status code: 500"))).isSome = true := by decide +kernel
  obtain ⟨us, hus⟩ := Option.isSome_iff_exists.mp hok
  have hpush := onSecond_eq_some hus
  refine ⟨us, hpush, (retried_push_iff hpush).mpr ⟨?_, .inl rfl⟩⟩
  intro j hj
  obtain rfl : j = 0 := by omega
  simp [secondTime]

/-- **The commit of a failed attempt is pushed.** The second attempt is taken; the approval commit
    on the tag has the approval commit of the first attempt for a parent, and not the commit of the
    draft. -/
theorem failed_approval_is_parent :
    ∃ us commit, pushSecond none = .ok (some (1, us)) ∧ ⟨"refs/tags/app/v2".toList, some commit⟩ ∈ us ∧
      commit.parents.map (·.annotations) = [[], [⟨"app".toList, "second".toList, "2".toList⟩]] ∧
      ∀ head own, secondDraft.commit = some own → commit.parents ≠ [head, own] := by
  have hok : (onSecond (pushSecond none)).any (fun us =>
      parentsOnTag us = [[[], [⟨"app".toList, "second".toList, "2".toList⟩]]]) = true := by
    decide +kernel
  obtain ⟨us, hus, htags⟩ := Option.any_eq_true _ _ |>.mp hok
  have hmem : [[], [⟨"app".toList, "second".toList, "2".toList⟩]] ∈ parentsOnTag us := by
    rw [of_decide_eq_true htags]
    exact List.mem_singleton_self _
  obtain ⟨⟨name, commit⟩, hu, htag⟩ := List.mem_filterMap.mp hmem
  split at htag
  · next hname =>
    obtain ⟨c, rfl, hpars⟩ := Option.map_eq_some_iff.mp htag
    subst hname
    refine ⟨us, c, onSecond_eq_some hus, hu, hpars, fun head own hown heq => ?_⟩
    rw [heq] at hpars
    cases hown
    simp [Commit.annotations] at hpars
  · cases htag

end Porch.Git
