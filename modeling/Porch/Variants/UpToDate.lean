import Porch.Git.RefSpec
import Porch.Variants.Upstream

/- Whether a downstream is up to date with the upstream of its PackageVariant.

     gitPackageRevision.GetLock  getLock (the ref of the lock)

   The lock holds the short name of the tag, which begins with the path of the package. A path that
   begins with `drafts` is taken for a draft (`up_to_date_iff`). `short` is `ReferenceName.Short` of
   go-git, of which only what it makes of a tag is used. -/
namespace Porch.Variants

open Go Git

def branchPrefixInRemoteRepo : Str := "refs/heads/"

def refInRemoteFromRefInLocal (n : Str) : Option Str :=
  match cutPrefix n branchPrefixInLocalRepo with
  | some branch => some (branchPrefixInRemoteRepo ++ branch)
  | none => if isTagInLocalRepo n then some n else none

def getLock (short : Str → Str) (ref : Option Str) : Option Str :=
  (ref.bind refInRemoteFromRefInLocal).map short

def revisionFromLocator (ref : Str) : Int := revision2Int (ref.drop (lastIndex ['/'] ref + 1).toNat)

/-- `isUpToDate`, for the ref of the lock if there is one. -/
def isUpToDate (lock : Option Str) (upstream : Upstream) : Bool :=
  match lock with
  | none => true
  | some ref =>
    if ref = [] then true
    else if "drafts".toList.isPrefixOf ref then false
    else revisionFromLocator ref = upstream.revision

/-- The name of a tag is what follows the prefix of the tags. -/
def ShortensTags (short : Str → Str) : Prop := ∀ path, short (tagsPrefixInLocalRepo ++ path) = path

theorem getLock_tag {short : Str → Str} (h : ShortensTags short) (path : Str) :
    getLock short (some (tagsPrefixInLocalRepo ++ path)) = some path := by
  have hcut : cutPrefix (tagsPrefixInLocalRepo ++ path) tagsPrefixInLocalRepo = some path :=
    cutPrefix_eq_some.mpr rfl
  have hbr : cutPrefix (tagsPrefixInLocalRepo ++ path) branchPrefixInLocalRepo = none := rfl
  simp [getLock, refInRemoteFromRefInLocal, hbr, isTagInLocalRepo, getTagNameInLocalRepo, hcut, h path]

theorem drop_lastIndex {s e : Str} (h : base s = some e) :
    s.drop (lastIndex ['/'] s + 1).toNat = e := by
  by_cases hmem : '/' ∈ s
  · obtain ⟨a, b, rfl, hb⟩ := exists_last_of_mem hmem
    rw [(take_drop_lastIndex hb).2]
    exact Option.some.inj ((base_append hb).symm.trans h)
  · rw [lastIndex_char_of_not_mem hmem]
    exact Option.some.inj ((base_leaf hmem).symm.trans h)

/-- **A lock tells the revision of its upstream, unless the path begins with `drafts`.** The
    revision of a tag is read from the last element of its path. -/
theorem up_to_date_iff {short : Str → Str} (hshort : ShortensTags short) {path e : Str}
    (hlast : base path = some e) (h : 1 ≤ revision2Int e) (upstream : Upstream) :
    (isUpToDate (getLock short (some (tagsPrefixInLocalRepo ++ path))) upstream = true ↔
      revision2Int e = upstream.revision) ↔
    ¬ "drafts".toList <+: path ∨ revision2Int e ≠ upstream.revision := by
  have hne : path ≠ [] := by
    rintro rfl
    cases hlast
    exact absurd h (by decide)
  have hrev : revisionFromLocator path = revision2Int e := by
    rw [revisionFromLocator, drop_lastIndex hlast]
  rw [getLock_tag hshort, isUpToDate]
  simp only [hne, if_false, hrev, List.isPrefixOf_iff_prefix]
  generalize "drafts".toList = drafts
  by_cases hdrafts : drafts <+: path <;> simp [hdrafts]

/-- The tag that Porch makes for a revision. -/
theorem createFinalTagNameInLocal_path {u : PackageRevisionKey} (h : 1 ≤ u.revision)
    (hmax : u.revision < 2 ^ 63) :
    ∃ path e, createFinalTagNameInLocal u = tagsPrefixInLocalRepo ++ path ∧ base path = some e ∧
      revision2Int e = u.revision :=
  ⟨_, _, congrArg (tagsPrefixInLocalRepo ++ ·) (if_pos (by omega)),
    base_joinPath (by simp) (version_no_slash (by omega)) ⟨by simp, by simp⟩, revision2Int_tag h hmax⟩

def published (path : Str) : PackageRevisionKey :=
  ⟨⟨⟨"ns", "repo", path, "main"⟩, [], "pkg"⟩, 3, "ws"⟩

def shortOfTag (n : Str) : Str := (cutPrefix n tagsPrefixInLocalRepo).getD n

/-- The tag `dir/pkg/v03` is of revision 3. -/
theorem up_to_date_published :
    isUpToDate (getLock shortOfTag (some (tagsPrefixInLocalRepo ++ "dir/pkg/v03".toList)))
      { repo := "repo", package := "pkg", revision := 3 } = true := by
  have hshort : ShortensTags shortOfTag := fun path => by
    rw [shortOfTag, cutPrefix_eq_some.mpr rfl, Option.getD_some]
  have hlast : base "dir/pkg/v03".toList = some "v03".toList := by decide
  exact ((up_to_date_iff hshort hlast (by decide) _).mpr (.inl (by decide))).mpr (by decide)

/-- A revision in the directory `drafts-archive` is never up to date. -/
theorem drafts_never_up_to_date :
    isUpToDate (getLock shortOfTag (some (createFinalTagNameInLocal (published "drafts-archive"))))
      { repo := "repo", package := "pkg", revision := 3 } = false := by decide +kernel

end Porch.Variants
