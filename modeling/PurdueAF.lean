import PurdueAF.Dict
import PurdueAF.DefaultDict
import PurdueAF.Coroutine
import PurdueAF.Sha256
import PurdueAF.Binary64
import PurdueAF.PyJson
import PurdueAF.RayNaming
import PurdueAF.RayConfig
import PurdueAF.RayPaths
import PurdueAF.RayAdmission
import PurdueAF.RayGrants
import PurdueAF.RayClusters
import PurdueAF.RayClusterSteps
import PurdueAF.RayClusterCache
import PurdueAF.RayClusterIdle
import PurdueAF.RayClusterNames
import PurdueAF.RayClusterBudget
import PurdueAF.RayClusterGone
import PurdueAF.RayNrp
import PurdueAF.RayNrpSteps
import PurdueAF.RayNrpCopies
import PurdueAF.RayNrpStages
import PurdueAF.RayNrpOutputs
import PurdueAF.RaySubmissions
import PurdueAF.RaySubmissionSteps
import PurdueAF.RaySubmissionNames
import PurdueAF.RaySubmissionIds
import PurdueAF.RaySubmissionReaping
import PurdueAF.LlmGate
import PurdueAF.LlmProxy
import PurdueAF.LlmProxySteps
import PurdueAF.LlmFairUse
import PurdueAF.LlmReencoding
import PurdueAF.LlmReplies
import PurdueAF.LlmBalance
import PurdueAF.LlmForwarding
import PurdueAF.EventStreams
import PurdueAF.LlmStreams
import PurdueAF.PromqlScope
import PurdueAF.Re2
import PurdueAF.PromqlMatchers
import PurdueAF.MattermostLinking
import PurdueAF.Machine
import PurdueAF.PixiLock
import PurdueAF.PixiLockExclusion
import PurdueAF.PixiLockHeartbeats
import PurdueAF.PixiSync
import PurdueAF.HubGpuGate
import PurdueAF.HubGpuGateSafety
import PurdueAF.HubGpuGateCalls
import PurdueAF.RayPackages
import PurdueAF.RayPackageDelivery
import PurdueAF.RaySettings
import PurdueAF.LlmGateCalls
import PurdueAF.LlmGateTurns
import PurdueAF.MattermostPolling
import PurdueAF.MattermostTokens
import PurdueAF.MattermostTokenSafety
import PurdueAF.Asking
import PurdueAF.MattermostAnswers
import PurdueAF.MattermostAnswerRuns
import PurdueAF.Waiting
import PurdueAF.AgentTools
import PurdueAF.DaskTools
import PurdueAF.DaskToolRuns
import PurdueAF.TokenCache
import PurdueAF.TextSearch
import PurdueAF.ManagedBlock
import PurdueAF.MattermostOnce
import PurdueAF.ModelRepository
import PurdueAF.DaskGateway
import PurdueAF.OpenCodeSeats
import PurdueAF.AgenticTurns
import PurdueAF.NodeMonitor
import PurdueAF.NodeMonitorTruth
import PurdueAF.NodeProbe
import PurdueAF.NodeProbeRuns
import PurdueAF.NodeMonitorCells
import PurdueAF.NodeMonitorFrame
import PurdueAF.HubNames
import PurdueAF.Greedy
import PurdueAF.RayAdmissionGreedy
import PurdueAF.RayClusterSpecs
import PurdueAF.Utf8
import PurdueAF.RayLogs
import PurdueAF.RayCapacity
import PurdueAF.RayMounts
import PurdueAF.RayNrpGpus
import PurdueAF.WorkloadAccounts
import PurdueAF.SessionImages
import PurdueAF.SessionRestarts
import PurdueAF.FileTree
import PurdueAF.ModelUploads
import PurdueAF.ModelArchives
import PurdueAF.ModelArchiveForms
import PurdueAF.ModelValidation
import PurdueAF.PatternScan
import PurdueAF.PatternEdits
import PurdueAF.AfVersion
import PurdueAF.AfVersionSpots
import PurdueAF.AfVersionRelease
import PurdueAF.SlidingLimit
import PurdueAF.MattermostLimit
import PurdueAF.WholeLines
import PurdueAF.RecordWatch
