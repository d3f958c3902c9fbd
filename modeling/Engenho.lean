import Engenho.Api.EvictBudget
import Engenho.Api.ListWatch
import Engenho.Store.TxnOrder
import Engenho.Store.Snapshot
import Engenho.Store.SsaDrop
import Engenho.Store.JsonPatch
import Engenho.Store.KeyedMerge
import Engenho.Store.LiveSeries
import Engenho.Api.FieldPruning
import Engenho.Api.RulesReview
import Engenho.Api.ServerOwned
import Engenho.Api.WriteRace
import Engenho.Api.SelectorMeaning
import Engenho.Controllers.Cilium
import Engenho.Scheduler.BindRace
import Engenho.Scheduler.PlacementRules
import Engenho.Controllers.JobFinished
import Engenho.Controllers.Workloads
import Engenho.Controllers.DisruptionBudget
import Engenho.Store.RaftLog
import Engenho.Kubelet.CrashLoop
import Engenho.Api.SchemaDefaults
import Engenho.Store.ReadIndex
import Engenho.Api.Projection
import Engenho.Api.Authz
import Engenho.Scheduler.Marks
import Engenho.Store.PastMeta
