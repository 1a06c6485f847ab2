import N8n.WorkflowConnections
import N8n.StartingTrigger
import N8n.ActiveExecutionsShutdown
import N8n.WaitingEntries
import N8n.RequestedSources
import N8n.RetryCalls
import N8n.WaitingOrder
import N8n.EngineRequestOrder
import N8n.SubgraphUtilities
import N8n.EnsureInputData
import N8n.WaitingCompleteness
import N8n.CycleStarts
import N8n.SdkIsolation
import N8n.FormatValueRoundTrip
import N8n.TaskBrokerTerminal
import N8n.TaskBrokerOrphans
import N8n.TaskBrokerMatching
import N8n.TaskBrokerSettleTasks
import N8n.WebhookDeletion
import N8n.WebhookMethods
import N8n.TestWebhooks
import N8n.NonPositionalChanges
import N8n.GraphUtils
import N8n.SplitterAgreement
import N8n.WaitTracker
import N8n.TaskRunnerRequests
import N8n.AugmentFaithful
import N8n.NodeErrorOutput
import N8n.ReferenceRenaming
import N8n.RepairBudget
import N8n.BaseSyncProvider
import N8n.SyncSubscriptions
import N8n.WebSocketTransport
import N8n.CronRegistry
import N8n.FormFields
import N8n.DocIdProtocol
import N8n.ObservedChanges
import N8n.TypeConversion
import N8n.FromAIRoundTrip
import N8n.DeduplicationSet
import N8n.DeduplicationWatermark
import N8n.LeaderElectionRuns
import N8n.HashCacheUpdates
import N8n.PythonRunnerCancel
import N8n.SecurityCoverage
import N8n.WrapCode
import N8n.SemanticGraphLossless
import N8n.GraphAnnotator
import N8n.VariableNames
import N8n.ParameterResolveOrder
import N8n.CircularReferences
import N8n.DeepCopy
import N8n.RemoveCircularRefs
