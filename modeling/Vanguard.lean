import Vanguard.RingHandles
import Vanguard.RingInterleaving
import Vanguard.ChronosDurability
import Vanguard.ChronosKeyValue
import Vanguard.ChronosFraming
import Vanguard.ChronosTornSets
import Vanguard.AegisPairing
import Vanguard.ChronosFailedCompaction
import Vanguard.ChronosFailedSets
import Vanguard.ChronosTombstones
import Vanguard.ChronosConcurrency
import Vanguard.RingAttach
import Vanguard.AegisBuffers
import Vanguard.AegisIdlePipes
import Vanguard.CelerFsm
import Vanguard.CelerSessions
import Vanguard.CelerStrokes
import Vanguard.AegisAccounts
import Vanguard.CelerMeaning
import Vanguard.AegisPayload
import Vanguard.ChronosRendering
import Vanguard.ChronosRecordDomain
import Vanguard.ChronosReplies
import Vanguard.ChronosHandlers
import Vanguard.ChronosRehydration
import Vanguard.ChronosTimeTravel
import Vanguard.ChronosPaths
import Vanguard.RingLinearizability
import Vanguard.AegisDojo
import Vanguard.CelerViewers
import Vanguard.DojoPage
import Vanguard.DojoSystem
import Vanguard.AegisKeyValue
import Vanguard.RingThroughput
import Vanguard.ChronosConsole
import Vanguard.DojoColors
import Vanguard.AegisTelemetry
import Vanguard.ChronosProgress
