import Cognitora.Infer.Context
import Cognitora.Infer.Pipeline
import Cognitora.Infer.Delivery
import Cognitora.Infer.StopStrings
import Cognitora.Infer.Budget
import Cognitora.Infer.Admissions
import Cognitora.KvCached.SpillRace
import Cognitora.Auth.KeyLock
import Cognitora.Auth.Identity
import Cognitora.Agent.Drain
import Cognitora.Router.AdmissionSlots
import Cognitora.Router.Convergence
import Cognitora.Router.OpenClaims
import Cognitora.Router.KvEpoch
import Cognitora.Operator.EnergyLoop
import Cognitora.Operator.Planner
import Cognitora.Router.AdmissionOrder
import Cognitora.Router.TenantRotation
import Cognitora.Core.ClaimMap
import Cognitora.Router.Images
import Cognitora.Router.Retries
import Cognitora.Infer.Backpressure
import Cognitora.Infer.Attention
import Cognitora.Infer.LayerRanges
import Cognitora.Infer.Sampling
import Cognitora.Router.ConfirmedKeys
import Cognitora.Ratelimit.Key
import Cognitora.Ratelimit.Redis
import Cognitora.Router.Deadline
import Cognitora.Router.ToolCalls
import Cognitora.Agent.SseStream
import Cognitora.Connector.MatchedTokens
import Cognitora.KvCached.Watermark
import Cognitora.KvCached.TtlSweep
import Cognitora.Agent.Telemetry
import Cognitora.Metrics.Federate
import Cognitora.Router.Gossip
import Cognitora.KvCached.Wire
