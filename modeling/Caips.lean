import Caips.Providers.Pool
import Caips.Coreai.PolicyStoreTheorems
import Caips.Coreai.CacheTheorems
import Caips.Coreai.PlannerChain
import Caips.Coreai.RouterHedging
import Caips.Coreai.ExplainTheorems
import Caips.Coreai.BreakerObservers
import Caips.Utils.EventsTheorems
import Caips.Coreai.RouterRegistry
import Caips.Coreai.LimiterRate
import Caips.Tools.Executor
import Caips.Coreai.TaskRunnerTheorems
import Caips.Api.KeysTheorems
import Caips.Harness.RuntimeTheorems
import Caips.Harness.TriggersTheorems
import Caips.Providers.WireTheorems
import Caips.Protocols.ReplayGuardTheorems
import Caips.Protocols.Handshake
import Caips.Protocols.ExchangeTheorems
import Caips.Protocols.AcksTheorems
import Caips.Api.MiddlewareTheorems
import Caips.Coreai.UsageTheorems
import Caips.Tools.ToolLoopTheorems
import Caips.Harness.WorkflowTheorems
import Caips.Coreai.PolicySound
import Caips.Harness.RunStreamTheorems
import Caips.Coreai.Audit
import Caips.Guardrails.InjectionTheorems
import Caips.Guardrails.Pii
import Caips.Database.StatementsTheorems
import Caips.Database.MigrationsTheorems
import Caips.Rag.StoreTheorems
import Caips.Api.CompatTheorems
import Caips.Coreai.MetricsTheorems
import Caips.Protocols.Unseal
import Caips.Coreai.KeyFile
import Caips.Coreai.BackupTheorems
import Caips.Neural.TrainingTheorems
import Caips.Localrt.ModelRegistry
import Caips.Localrt.HardwareTheorems
import Caips.Localrt.CrashLimitTheorems
import Caips.Tools.McpClientTheorems
import Caips.Tools.ExtraTheorems
import Caips.Coreai.LocalQueueTheorems
import Caips.Harness.CronGrammar
import Caips.Agents.AgentManagerTheorems
import Caips.Agents.TaskOrchestratorTheorems
import Caips.Tools.BuiltinTheorems
import Caips.Harness.RunnerApprovals
import Caips.Harness.RunnerCancel
import Caips.Harness.RunnerConversation
import Caips.Agents.ShutdownTheorems
import Caips.Memory.Store
