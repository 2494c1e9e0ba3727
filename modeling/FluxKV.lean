import FluxKV.Cache.EntryLayout
import FluxKV.Cache.FlatTables
import FluxKV.Cache.IndexMap
import FluxKV.Cache.ScanResistance
import FluxKV.Cache.SeqMemory
import FluxKV.Cache.ValuePointers
import FluxKV.Cache.WellFormed
import FluxKV.Client.Exchange
import FluxKV.Client.KeySpace
import FluxKV.Client.LatencyHist
import FluxKV.Client.Window
import FluxKV.Connection.CachedGet
import FluxKV.Connection.GetPaths
import FluxKV.Connection.Send.InFlight
import FluxKV.Durable.SyncThread
import FluxKV.Durable.Wakeups
import FluxKV.Engine.Coalescing
import FluxKV.Engine.Counters
import FluxKV.Engine.Hints
import FluxKV.Engine.Outcomes
import FluxKV.Engine.OverflowOrder
import FluxKV.Engine.Phantoms
import FluxKV.Engine.RequestPool
import FluxKV.Engine.Tables
import FluxKV.Memory.Governor
import FluxKV.Memory.IndexBudget
import FluxKV.Memory.WritePacing
import FluxKV.Server.Dangling
import FluxKV.Server.Pump
import FluxKV.Server.Rebalance
import FluxKV.Tuner.Undo
