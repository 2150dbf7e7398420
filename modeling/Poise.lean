import Poise.Health.Accrual
import Poise.Health.ActiveHistory
import Poise.Health.OutcomeWindow
import Poise.Discovery.Revisions
import Poise.Discovery.Wakeup
import Poise.Policy.Affinity
import Poise.Policy.Quota
import Poise.Policy.Contract
import Poise.Policy.RingChange
import Poise.Policy.Live
import Poise.Policy.LocalityStage
import Poise.Policy.PriorityRecovery
import Poise.Policy.SmoothFairness
import Poise.Policy.MaglevBalance
import Poise.Probe.Freshest
import Poise.Tower.Feed
import Poise.Tower.Protocol
import Poise.Core.Finalizer
import Poise.Policy.Primality
import Poise.Policy.Cycle
import Poise.Policy.Tickets
import Poise.Policy.Uniform
import Poise.Tower.Admission
import Poise.Health.Outlier
import Poise.Tokio.Reports
import Poise.Discovery.Wait
import Poise.Observe.Telemetry
import Poise.Tower.Drains
import Poise.Tower.Uninterrupted
import Poise.Tower.Spread
import Poise.Tower.PeakEwma
import Poise.Tower.PeakSamples
import Poise.Policy.Exponential
