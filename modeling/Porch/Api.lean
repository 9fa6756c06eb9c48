import Porch.Go.Strings

/- The API types that the caches and the repositories share: the lifecycle of a
   package revision, labels, and the virtual label of the latest revision.

     PackageRevisionLifecycle            Lifecycle
     LatestPackageRevisionKey, ...Value  latestPackageRevisionKey, ...Value -/
namespace Porch

open Go

inductive Lifecycle where
  | draft
  | proposed
  | published
  | deletionProposed
deriving DecidableEq, Repr

/-- `LifecycleIsPublished`: published, or published and proposed for deletion. -/
def lifecycleIsPublished : Lifecycle → Bool
  | .published | .deletionProposed => true
  | .draft | .proposed => false

abbrev Labels := List (Str × Str)

def latestPackageRevisionKey : Str := "kpt.dev/latest-revision"

def latestPackageRevisionValue : Str := "true"

end Porch
