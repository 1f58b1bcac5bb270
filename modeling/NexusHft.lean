import NexusHft.Foundations.Binary64
import NexusHft.Foundations.BoundedLoop
import NexusHft.Foundations.ByteMemory
import NexusHft.Foundations.DecimalText
import NexusHft.Foundations.Doubling
import NexusHft.Foundations.FairSchedule
import NexusHft.Foundations.FreeList
import NexusHft.Foundations.GreedyFill
import NexusHft.Foundations.Hundredths
import NexusHft.Foundations.LabelledRun
import NexusHft.Foundations.LinkedChain
import NexusHft.Foundations.LittleEndian
import NexusHft.Foundations.Machine
import NexusHft.Foundations.Moments
import NexusHft.Foundations.NearestDouble
import NexusHft.Foundations.ObjectStorage
import NexusHft.Foundations.OrderedMap
import NexusHft.Foundations.RingIndex
import NexusHft.Foundations.ShortestDecimal
import NexusHft.Foundations.SignedWord
import NexusHft.Foundations.StableOrder
import NexusHft.Foundations.StorageOwners
import NexusHft.Foundations.TornWrites
import NexusHft.Foundations.Transducer
import NexusHft.Foundations.Truncation
import NexusHft.Core.ArenaState
import NexusHft.Core.FailedConstruction
import NexusHft.Core.IntrusiveList
import NexusHft.Core.LevelNodes
import NexusHft.Core.ListRuns
import NexusHft.Core.MemoryPool
import NexusHft.Core.OrderBook
import NexusHft.Core.PoolAllocator
import NexusHft.Core.PriceMirror
import NexusHft.Core.RawPool
import NexusHft.Core.SmallVector
import NexusHft.Core.Types
import NexusHft.Core.VectorGrowth
import NexusHft.Core.VectorLists
import NexusHft.Core.VectorPrograms
import NexusHft.Engine.BestExecution
import NexusHft.Engine.BookOperations
import NexusHft.Engine.BoundedMatching
import NexusHft.Engine.Commutation
import NexusHft.Engine.Conservation
import NexusHft.Engine.Depth
import NexusHft.Engine.EagerOrders
import NexusHft.Engine.Layout
import NexusHft.Engine.Ledger
import NexusHft.Engine.LevelReadings
import NexusHft.Engine.LevelWalk
import NexusHft.Engine.Matching
import NexusHft.Engine.MatchingEngine
import NexusHft.Engine.Mirror
import NexusHft.Engine.PositiveQuantities
import NexusHft.Engine.PriceLevels
import NexusHft.Engine.PriorityBook
import NexusHft.Engine.Quotes
import NexusHft.Engine.ReachableBook
import NexusHft.Engine.RegularBook
import NexusHft.Engine.Requests
import NexusHft.Engine.SingleOrder
import NexusHft.Engine.Slicing
import NexusHft.Engine.StaleRequests
import NexusHft.Engine.StoredLevels
import NexusHft.Oms.Counterparties
import NexusHft.Oms.EntryPrices
import NexusHft.Oms.ExactPortfolio
import NexusHft.Oms.MachinePortfolio
import NexusHft.Oms.Portfolio
import NexusHft.Oms.ProfitAndLoss
import NexusHft.Persistence.KilledProcesses
import NexusHft.Persistence.LogCalls
import NexusHft.Persistence.MmapWal
import NexusHft.Persistence.Sessions
import NexusHft.Concurrency.SpscQueue
import NexusHft.Concurrency.SpscResults
import NexusHft.Concurrency.SpscSafety
import NexusHft.Concurrency.Transfer
import NexusHft.Concurrency.TransferProgress
import NexusHft.Web.BookText
import NexusHft.Web.ChunkedDecoding
import NexusHft.Web.Dashboard
import NexusHft.Web.Deployment
import NexusHft.Web.DeploymentRuns
import NexusHft.Web.JsText
import NexusHft.Web.JsValue
import NexusHft.Web.Json
import NexusHft.Web.LineReadings
import NexusHft.Web.Lines
import NexusHft.Web.Middleware
import NexusHft.Web.NumberReading
import NexusHft.Web.NumberText
import NexusHft.Web.OrderEncoding
import NexusHft.Web.OrderForm
import NexusHft.Web.Screen
import NexusHft.Web.ScreenRuns
import NexusHft.Web.SubmitOrder
import NexusHft.Main.CommandGrammar
import NexusHft.Main.CommandLoop
import NexusHft.Main.DisplayedDepth
import NexusHft.Main.DisplayedTrades
import NexusHft.Main.Exchange
import NexusHft.Main.ExchangeRuns
import NexusHft.Main.InputStream
import NexusHft.Main.Output
import NexusHft.Main.PoolUsage
import NexusHft.Main.PriceConversion
import NexusHft.Main.PrintedPrices
import NexusHft.Main.QuotedLines
import NexusHft.Main.Responses
import NexusHft.Main.StrictCommands
import NexusHft.Quant.MarketMaker
import NexusHft.Quant.RollingStats
import NexusHft.Quant.SignalEngine
import NexusHft.Risk.PriceCollar
import NexusHft.Risk.RiskEngine
