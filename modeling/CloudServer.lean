import CloudServer.SceneDelivery
import CloudServer.StoreFence
import CloudServer.AckMark
import CloudServer.GraphHistory
import CloudServer.IngestOnce
import CloudServer.EventOnce
import CloudServer.IdempotencyRuns
import CloudServer.ImportUndoRuns
import CloudServer.WatcherRuns
import CloudServer.ImportMapFill
import CloudServer.PassRuns
import CloudServer.DispatchOrders
import CloudServer.AutoSync
import CloudServer.ImportFrameRuns
import CloudServer.TurnRouteExact
import CloudServer.LegRuns
import CloudServer.RequeueRuns
import CloudServer.SlamSwitchRuns
import CloudServer.MapDeleteRuns
import CloudServer.RerouteRuns
import CloudServer.Resample
import CloudServer.StoreResume
import CloudServer.ChartRenumber
import CloudServer.RunErosionRule
import CloudServer.ArcsSaddles
import CloudServer.HoldWindowExact
import CloudServer.BlockedNodes
import CloudServer.Leafcover
import CloudServer.Segments
import CloudServer.KeepoutPolygons
import CloudServer.KeepoutCharts
import CloudServer.PlaceRule
import CloudServer.WaypointsBudget
import CloudServer.SnappingAgrees
import CloudServer.AckFinal
import CloudServer.DrivenRuns
import CloudServer.ImportPlan
import CloudServer.Quarantine
import CloudServer.RebuildCommits
import CloudServer.StateQueuesRuns
import CloudServer.StatusWritesRuns
import CloudServer.UploadAccounting
import CloudServer.VerifyImport
import CloudServer.BehaviorTreeResume
import CloudServer.CloudLodValid
import CloudServer.LatestWritesRuns
import CloudServer.MissionTimeoutRuns
import CloudServer.PolicyRefreshRuns
import CloudServer.RunChange
import CloudServer.BlockedGeometry
import CloudServer.SolverDistanceExact
import CloudServer.DriveConserved
