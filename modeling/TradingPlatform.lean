import TradingPlatform.OrderBook.Invariants
import TradingPlatform.IdPool.Concurrent
import TradingPlatform.Server.Answers
import TradingPlatform.Spsc.Sizes
import TradingPlatform.Session.Limit
import TradingPlatform.Serialization.Fbs
import TradingPlatform.Transport.FixedSize
import TradingPlatform.Transport.Dummy
import TradingPlatform.OrderBook.Termination
import TradingPlatform.Transport.RoundTrip
import TradingPlatform.Transport.Shm
import TradingPlatform.Runner.Lfq
import TradingPlatform.Transport.BufferPool
import TradingPlatform.Transport.Writes
import TradingPlatform.Server.StatusQueue
import TradingPlatform.Mpmc.Queue
import TradingPlatform.OrderBook.Agreement
import TradingPlatform.Client.Orders
import TradingPlatform.OrderBook.Search
import TradingPlatform.OrderBook.Recycling
import TradingPlatform.Turbo.Fifo
import TradingPlatform.Client.Handshake
import TradingPlatform.Server.Sharding
import TradingPlatform.OrderBook.Ledger
import TradingPlatform.Transport.Link
import TradingPlatform.Bus.System
import TradingPlatform.Server.Startup
import TradingPlatform.Server.Dialogue
import TradingPlatform.Transport.Reactor
import TradingPlatform.System.ClosedLoop
import TradingPlatform.Runner.Delivery
import TradingPlatform.Transport.Buffers
import TradingPlatform.Transport.QueuedPool
import TradingPlatform.Session.Trusted
