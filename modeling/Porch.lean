import Porch.Db.Latest
import Porch.Db.Publish
import Porch.Db.SyncDrafts
import Porch.Db.PushTarget
import Porch.CrCache.Publish
import Porch.Cache.RepoMap
import Porch.Git.DirectoryPool
import Porch.Git.CacheDir
import Porch.PodEval.Counters
import Porch.PodEval.PostFix
import Porch.PrController.RenderMarker
import Porch.PrController.StatusRevision
import Porch.PrController.SourceOnce
import Porch.PrController.ContentWrites
import Porch.Registry.FieldMatch
import Porch.RepoController.OneSync
import Porch.RepoController.ReadyAfter
import Porch.RepoController.Acknowledged
import Porch.RepoController.RunOnce
import Porch.PrController.Deletion
import Porch.PrController.MainTracks
import Porch.CrCache.LatestFlag
import Porch.Cache.UpstreamRefs
import Porch.CrCache.Finalizers
import Porch.Db.MetaWrites
import Porch.Db.WhereMatches
import Porch.Registry.WatchBlocking
import Porch.Registry.WatchReplay
import Porch.Git.PushRetry
import Porch.Util.DataSize
import Porch.Util.Selector
import Porch.Variants.Deletion
import Porch.Variants.Ensure
import Porch.FunctionConfigs.Executors
import Porch.RepoController.Requeue
import Porch.Git.UpdateLifecycle
import Porch.Registry.PathOverlap
import Porch.Variants.UpToDate
import Porch.Variants.WorkspaceName
import Porch.Git.OtherFiles
import Porch.Registry.LabelMaps
import Porch.PodEval.BestPod
import Porch.Task.PackageDir
import Porch.Cli.EditOrigin
