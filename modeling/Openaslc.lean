import Openaslc.TelemetryServer
import Openaslc.DeployInterleaving
import Openaslc.ConfigArchive
import Openaslc.Sha256
import Openaslc.MemoryBounds
import Openaslc.TimerReference
import Openaslc.RuntimeInterleaving
import Openaslc.WebSocketFrame
import Openaslc.PayloadLength
import Openaslc.TelemetryOutput
import Openaslc.FrameSegments
import Openaslc.MemoryStore
import Openaslc.InputHandler
import Openaslc.HashInput
import Openaslc.CommitHistory
import Openaslc.CommitAtomicity
import Openaslc.CommitIds
import Openaslc.HistoryHandler
import Openaslc.CommitChain
import Openaslc.LoggerLifecycle
import Openaslc.RuleOrder
import Openaslc.InputOrder
import Openaslc.TimerLatch
import Openaslc.HotSwap
import Openaslc.Deployments
import Openaslc.FileSystem
import Openaslc.DiskUse
import Openaslc.ParserErrors
import Openaslc.LogicFile
import Openaslc.TelemetryFrames
import Openaslc.ForwardChain
import Openaslc.UpgradeRequest
import Openaslc.FrameRoundTrip
import Openaslc.Handshake
import Openaslc.Sha256Digest
import Openaslc.Lines
import Openaslc.LogLines
import Openaslc.ProgramMeaning
import Openaslc.SwappedProgram
import Openaslc.AslcEngine
import Openaslc.ControlLoop
import Openaslc.Custody
import Openaslc.Delay
import Openaslc.JsonNormal
import Openaslc.OperatorPanel
import Openaslc.OutputConsole
import Openaslc.ParserFaults
import Openaslc.Rearrangement
import Openaslc.RuleRearrangement
import Openaslc.SnapshotRestore
import Openaslc.TelemetryConversation
import Openaslc.TelemetryShutdown
import Openaslc.PanelInputs
