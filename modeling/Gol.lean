import Gol.HarnessBudget
import Gol.HarnessCalls
import Gol.HarnessCatalog
import Gol.HarnessDecisions
import Gol.HarnessDriver
import Gol.HarnessEnds
import Gol.HarnessFamily
import Gol.HarnessLines
import Gol.HarnessMemory
import Gol.HarnessOffers
import Gol.HarnessOutcomes
import Gol.HarnessPace
import Gol.HarnessPayments
import Gol.HarnessReadings
import Gol.HarnessResume
import Gol.HarnessSteps
import Gol.HarnessVerdicts
import Gol.LibraryBisect
import Gol.LibraryCodes
import Gol.LibraryCrc
import Gol.LibraryExchanges
import Gol.LibraryFacts
import Gol.LibraryFallible
import Gol.LibraryFrames
import Gol.LibraryLedger
import Gol.LibraryLines
import Gol.LibraryLoops
import Gol.LibraryOrder
import Gol.LibraryPanics
import Gol.LibraryPostfix
import Gol.LibraryProgram
import Gol.LibraryRounds
import Gol.LibraryTenants
import Gol.LibraryTransactions
import Gol.LibraryText
import Gol.ProtocolAnswers
import Gol.ProtocolAuthorize
import Gol.ProtocolOwners
import Gol.ProtocolRank
import Gol.ProtocolReadings
import Gol.ProtocolReduce
import Gol.ProtocolTypes
import Gol.RuntimeFormat
import Gol.RuntimeHost
import Gol.RuntimeJournal
import Gol.ServerAnswers
import Gol.ServerAskLogs
import Gol.ServerAsks
import Gol.ServerBoxes
import Gol.ServerBudgets
import Gol.ServerCalls
import Gol.ServerCarried
import Gol.ServerClaims
import Gol.ServerDrives
import Gol.ServerEnders
import Gol.ServerFence
import Gol.ServerFires
import Gol.ServerFree
import Gol.ServerGuards
import Gol.ServerHolds
import Gol.ServerHouse
import Gol.ServerKeys
import Gol.ServerLabor
import Gol.ServerLanes
import Gol.ServerLineage
import Gol.ServerLive
import Gol.ServerLogs
import Gol.ServerMailbox
import Gol.ServerMessages
import Gol.ServerParked
import Gol.ServerPayments
import Gol.ServerPool
import Gol.ServerPledges
import Gol.ServerPurses
import Gol.ServerQueue
import Gol.ServerReach
import Gol.ServerReadings
import Gol.ServerRequests
import Gol.ServerSafe
import Gol.ServerSpawner
import Gol.ServerStops
import Gol.ServerStreams
import Gol.ServerSurface
import Gol.ServerSweep
import Gol.ServerTail
import Gol.ServerThreads
import Gol.ServerTicks
import Gol.ServerTriggers
import Gol.ServerTurns
import Gol.ServerAuthority
import Gol.ServerWarrants
import Gol.ServerWatch
import Gol.ServerWebhooks
import Gol.ServerWorker
import Gol.ServerZones
import Gol.StoreControls
import Gol.StoreHistory
import Gol.StoreLog
import Gol.StoreMemory
import Gol.StorePostgres
import Gol.StorePostgresAgents
import Gol.StorePostgresSessions
import Gol.StorePostgresStops
import Gol.StoreStops
import Gol.StoreTenants
import Gol.ServerTenants
import Gol.ServerIsolation
import Gol.StoreThreads
import Gol.StoreWorkLists
import Gol.WorkflowAssembly
import Gol.WorkflowBend
import Gol.WorkflowFrontends
import Gol.WorkflowGuard
import Gol.WorkflowMain
import Gol.WorkflowProgram
import Gol.WorkflowScan
import Gol.WorkflowScripts
import Gol.WorkflowTokens
