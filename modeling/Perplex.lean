import Perplex.Checked
import Perplex.SortedMap
import Perplex.IndexedList
import Perplex.Accounting
import Perplex.GreedyDraw
import Perplex.RankedDraw
import Perplex.Journal
import Perplex.Tables
import Perplex.Interleaving
import Perplex.TokenBucket
import Perplex.Noninterference
import Perplex.Loop
import Perplex.Sockets
import Perplex.DecimalFormat
import Perplex.Types
import Perplex.BookModel
import Perplex.BookSweep
import Perplex.BookFacts
import Perplex.BookCross
import Perplex.BookRun
import Perplex.BookDecimal
import Perplex.BookAtomicity
import Perplex.BookInvariant
import Perplex.BookRepInv
import Perplex.BookUncrossed
import Perplex.BookFills
import Perplex.BookLedger
import Perplex.BookReduceOnly
import Perplex.BookLadder
import Perplex.BookPriority
import Perplex.BookAdmission
import Perplex.BookTermination
import Perplex.Dispatcher
import Perplex.DispatcherSync
import Perplex.DispatcherDecimal
import Perplex.ChainModel
import Perplex.ChainRegistry
import Perplex.ChainSystem
import Perplex.ChainFacts
import Perplex.ChainTracking
import Perplex.ChainRegistryRun
import Perplex.ChainInvariant
import Perplex.ChainConservation
import Perplex.ChainFunding
import Perplex.ChainOpenInterest
import Perplex.ChainFundingCadence
import Perplex.ChainSolvency
import Perplex.ChainLiquidation
import Perplex.ChainWithdrawGate
import Perplex.ChainMargin
import Perplex.MarginMath
import Perplex.MarginPath
import Perplex.ChainVwap
import Perplex.ChainForced
import Perplex.ChainMirror
import Perplex.ChainFundingUnits
import Perplex.ChainLiquidationPrice
import Perplex.OracleAdapter
import Perplex.EdgeModel
import Perplex.EdgeMatch
import Perplex.EdgeStep
import Perplex.EdgeDecimal
import Perplex.EdgeGates
import Perplex.EdgeExact
import Perplex.EdgePages
import Perplex.EdgePositivity
import Perplex.EdgeReduceOnly
import Perplex.EdgeTimeInForce
import Perplex.EdgeEquity
import Perplex.EdgeFees
import Perplex.EdgePositions
import Perplex.EdgeRebates
import Perplex.HermesPrice
import Perplex.Relayer
import Perplex.EdgePanics
import Perplex.EdgeLeverage
import Perplex.EdgeOpenInterest
import Perplex.EdgeLiquidation
import Perplex.EdgeScan
import Perplex.LiquidationThreshold
import Perplex.AccountHealth
import Perplex.KeeperHealth
import Perplex.PersistModel
import Perplex.PersistRoundTrip
import Perplex.EdgeSections
import Perplex.EdgeGrid
import Perplex.PersistDecimal
import Perplex.EdgeNames
import Perplex.EdgeOverfill
import Perplex.EdgeRacing
import Perplex.EdgePriority
import Perplex.EdgeProbe
import Perplex.EdgeStaleBook
import Perplex.EdgeLevels
import Perplex.EdgeSerial
import Perplex.PersistInterleaving
import Perplex.QuoteAgent
import Perplex.RateLimit
import Perplex.SessionModel
import Perplex.SessionRegistry
import Perplex.SessionDebit
import Perplex.SiweNonces
import Perplex.SiweLogin
import Perplex.FundingLease
import Perplex.WsModel
import Perplex.WsLines
import Perplex.WsSubscriptions
import Perplex.WsPrivacy
import Perplex.WsDelivery
import Perplex.WsFrames
import Perplex.WsSdkClient
import Perplex.WsWebClient
import Perplex.WsReplay
import Perplex.ChainAuthority
import Perplex.ChainCustody
import Perplex.DispatcherSerial
import Perplex.EdgeAudit
import Perplex.EdgeEngine
import Perplex.EdgeKeeper
import Perplex.EdgeLimits
import Perplex.EdgeOrderLedger
import Perplex.EdgeSessions
import Perplex.WebOrderbook
import Perplex.WsSdkSubscriptions
import Perplex.QuoteTakeover
import Perplex.ReplayStrategy
