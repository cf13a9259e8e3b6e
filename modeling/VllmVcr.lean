import VllmVcr.Paths
import VllmVcr.SortedMap
import VllmVcr.BlockPool
import VllmVcr.RouterView
import VllmVcr.BlockPoolPins
import VllmVcr.HashChain
import VllmVcr.Tenants
import VllmVcr.BlockPoolHits
import VllmVcr.BlockPoolSlots
import VllmVcr.BlockPoolHoles
import VllmVcr.Protocol
import VllmVcr.Sched
import VllmVcr.Latency
import VllmVcr.Replay
import VllmVcr.TraceFile
import VllmVcr.Tap
import VllmVcr.Watch
import VllmVcr.Calibration
import VllmVcr.Sessions
import VllmVcr.Capture
import VllmVcr.Intervals
import VllmVcr.Perfetto
import VllmVcr.Timeline
import VllmVcr.StepPrefill
import VllmVcr.Elimination
import VllmVcr.ServiceCurve
import VllmVcr.Grid
import VllmVcr.TraceLatency
import VllmVcr.Tokens
import VllmVcr.Engine.State
import VllmVcr.Engine.Admission
import VllmVcr.Engine.Clock
import VllmVcr.Engine.Emission
import VllmVcr.Engine.Input
import VllmVcr.Engine.Run
import VllmVcr.DonorRegimes
import VllmVcr.DonorPinning
import VllmVcr.LatencyRange
import VllmVcr.Engine.Moves
import VllmVcr.Engine.Decompose
import VllmVcr.Engine.Requests
import VllmVcr.Engine.Flush
import VllmVcr.Engine.Sound
import VllmVcr.Engine.Accounting
import VllmVcr.Engine.Pins
import VllmVcr.Engine.Refusals
import VllmVcr.Engine.Caps
import VllmVcr.Engine.Pulls
import VllmVcr.Engine.PrefixStats
import VllmVcr.Engine.StepClock
import VllmVcr.Engine.Batch
import VllmVcr.Engine.Issued
import VllmVcr.Engine.Prefills
import VllmVcr.Engine.Schedules
import VllmVcr.Engine.Emissions
import VllmVcr.Engine.Streams
import VllmVcr.Engine.Delivery
import VllmVcr.Engine.Steady
import VllmVcr.Engine.Reception
import VllmVcr.Engine.IdStreams
import VllmVcr.Engine.Lives
import VllmVcr.Engine.Load
import VllmVcr.Engine.SpecStats
import VllmVcr.Engine.ClientOrder
import VllmVcr.Engine.Seeded
import VllmVcr.Engine.Framing
import VllmVcr.Engine.Loop
import VllmVcr.Engine.Utilities
import VllmVcr.Engine.Compression
import VllmVcr.Engine.CompressedRuns
import VllmVcr.ConsumeOnce
import VllmVcr.Matching
import VllmVcr.ContentReplay
import VllmVcr.KvEvents
import VllmVcr.Engine.KvFeed
import VllmVcr.DataPlane
import VllmVcr.Engine.Prefilled
import VllmVcr.Engine.FirstCome
import VllmVcr.Engine.Ceiling
import VllmVcr.Engine.FinishReasons
import VllmVcr.Engine.ControlPlane
import VllmVcr.Engine.CatchUp
import VllmVcr.Dataset
import VllmVcr.JsonText
import VllmVcr.DatasetFile
import VllmVcr.Engine.LonePrefill
import VllmVcr.ConfigHash
import VllmVcr.PrefixHashes
import VllmVcr.RebuiltPrompts
import VllmVcr.TraceUri
import VllmVcr.WeightedSolver
import VllmVcr.CalibrationReport
import VllmVcr.ReplayGate
import VllmVcr.Goldens
import VllmVcr.SupportWindow
import VllmVcr.Wire
import VllmVcr.Engine.Routing
import VllmVcr.Engine.IoLoop
import VllmVcr.Links
import VllmVcr.TapProxy
import VllmVcr.Exhaustion
import VllmVcr.Engine.Attended
import VllmVcr.Engine.Drain
import VllmVcr.JsonCodec
import VllmVcr.TraceJson
import VllmVcr.TraceStream
import VllmVcr.CaptureFile
