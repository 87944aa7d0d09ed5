import Vespa.EventRoundTrip
import Vespa.EventProvenance
import Vespa.EventOrder
import Vespa.EventUnknown
import Vespa.Framing
import Vespa.Isolation
import Vespa.Lifecycle
import Vespa.ServerLedger
import Vespa.Echo
import Vespa.SandboxTrace
import Vespa.SandboxLedger
import Vespa.SharedArray
import Vespa.ProcessPool
import Vespa.ProcessOwnership
import Vespa.ProcessSpawn
import Vespa.CliStream
import Vespa.SharedArrayFrame
import Vespa.WasmFileWhole
import Vespa.Manifest
import Vespa.HubService
import Vespa.CliReplies
import Vespa.EventRewrite
import Vespa.ProcessLedger
import Vespa.WorkerProgram
import Vespa.SandboxBindings
import Vespa.SharedArrayProtect
import Vespa.CliProgram
import Vespa.Host
import Vespa.AnyBytes
