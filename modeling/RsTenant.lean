import RsTenant.Lib.Prog
import RsTenant.Lib.Pool
import RsTenant.Lib.Words
import RsTenant.Lib.Ordered
import RsTenant.Lib.HashMap
import RsTenant.Ids
import RsTenant.Permission
import RsTenant.Scope
import RsTenant.Source
import RsTenant.RoleHierarchy
import RsTenant.Lib.Walk
import RsTenant.Expansion
import RsTenant.Lib.Loop
import RsTenant.ExpansionLoop
import RsTenant.Grants
import RsTenant.Engine
import RsTenant.Queries
import RsTenant.Reference
import RsTenant.PlatformScope
import RsTenant.NormalForm
import RsTenant.PlatformEngine
import RsTenant.PlatformReference
import RsTenant.Order
import RsTenant.Inheritance
import RsTenant.Monotone
import RsTenant.MemorySource
import RsTenant.Isolation
import RsTenant.CacheState
import RsTenant.MemoryCache
import RsTenant.CacheHistory
import RsTenant.FailClosed
import RsTenant.Coherence
import RsTenant.Staleness
import RsTenant.Lib.Serde
import RsTenant.Grammar
import RsTenant.Coverage
import RsTenant.Wire
import RsTenant.Explanation
import RsTenant.CacheListing
import RsTenant.CacheInvariant
import RsTenant.LruRefinement
import RsTenant.Axum
import RsTenant.Mediation
import RsTenant.RoleData
import RsTenant.Moments
import RsTenant.PlatformQueries
import RsTenant.PlatformMoments
import RsTenant.Footprint
import RsTenant.OneWayRuns
import RsTenant.BoundedStaleness
import RsTenant.Lib.Atomicity
import RsTenant.AtomicCache
import RsTenant.Retention
import RsTenant.RecursiveSearch
import RsTenant.Lib.History
import RsTenant.MemoryHistory
import RsTenant.MemoryPlatformSource
import RsTenant.Lib.Projection
import RsTenant.Server
import RsTenant.PlatformServer
import RsTenant.LayerStack
import RsTenant.Lib.Discovery
import RsTenant.Lib.Script
import RsTenant.QueryScript
import RsTenant.Lib.Split
import RsTenant.StackServer
