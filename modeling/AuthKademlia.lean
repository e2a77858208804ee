import AuthKademlia.Lib.Async
import AuthKademlia.Lib.Shortlist
import AuthKademlia.Lib.Xor
import AuthKademlia.Utils
import AuthKademlia.Node
import AuthKademlia.Crawling.Base
import AuthKademlia.Crawling.NodeLookup
import AuthKademlia.Routing.Table
import AuthKademlia.Routing.Knowledge
import AuthKademlia.Crawling.StableNetwork
import AuthKademlia.Crawling.ValueSearch
import AuthKademlia.Protocol.NetworkCopy
import AuthKademlia.Storage
import AuthKademlia.AuthHandler
import AuthKademlia.Protocol.Effects
import AuthKademlia.Network.Server
import AuthKademlia.Protocol.Handlers
import AuthKademlia.Runtime.World
import AuthKademlia.Lib.Trace
import AuthKademlia.Runtime.History
import AuthKademlia.Runtime.Operations
import AuthKademlia.Runtime.Programs
import AuthKademlia.Runtime.Api
import AuthKademlia.Properties.Validity
import AuthKademlia.Properties.Rotation
import AuthKademlia.Properties.Publication
import AuthKademlia.Lib.Quorum
import AuthKademlia.Properties.UpdateQuorum
import AuthKademlia.Crawling.ListedNetwork
import AuthKademlia.Crawling.QuorumRead
import AuthKademlia.Properties.StatusList
import AuthKademlia.Fragmentation
import AuthKademlia.Lib.Pieces
import AuthKademlia.Properties.Fragments
import AuthKademlia.Protocol.Transport
import AuthKademlia.Routing.BucketInvariant
import AuthKademlia.Routing.Invariant
import AuthKademlia.Properties.RoutingTable
import AuthKademlia.Protocol.Contacts
import AuthKademlia.Storage.Interleaved
import AuthKademlia.Properties.Store
import AuthKademlia.Protocol.Messages
import AuthKademlia.Properties.Calls
import AuthKademlia.Protocol.Pending
import AuthKademlia.Runtime.Alone
import AuthKademlia.Properties.LateCopies
import AuthKademlia.Network.Maintenance
import AuthKademlia.Runtime.Background
import AuthKademlia.Properties.Expiry
import AuthKademlia.Lib.Progress
import AuthKademlia.Runtime.Retry
import AuthKademlia.Crawling.Retrace
import AuthKademlia.Properties.RotationRetry
import AuthKademlia.Routing.Insertion
import AuthKademlia.Routing.Runs
import AuthKademlia.Properties.Neighbours
import AuthKademlia.Crawling.Rounds
import AuthKademlia.Crawling.ValueFind
import AuthKademlia.Crawling.SearchRuns
import AuthKademlia.Properties.Lookups
import AuthKademlia.Protocol.CallLoop
import AuthKademlia.Protocol.Retransmit
import AuthKademlia.Properties.Resends
import AuthKademlia.Lib.Memo
import AuthKademlia.Runtime.CachedChecks
import AuthKademlia.Properties.CachedVerdicts
import AuthKademlia.Properties.LookupResults
import AuthKademlia.Properties.QuorumReads
import AuthKademlia.Properties.Welcome
import AuthKademlia.Lib.Footprint
import AuthKademlia.Runtime.Accesses
import AuthKademlia.Properties.Refusals
import AuthKademlia.Runtime.Answers
import AuthKademlia.Runtime.Reports
import AuthKademlia.Properties.PublicationReport
import AuthKademlia.Properties.OwnCopy
import AuthKademlia.Runtime.Deeds
import AuthKademlia.Properties.ClosestNodes
import AuthKademlia.Properties.Reassembly
import AuthKademlia.Properties.RecordFormat
import AuthKademlia.Properties.Staleness
import AuthKademlia.Routing.Failures
import AuthKademlia.Properties.RefreshTimers
import AuthKademlia.Properties.CachedCopy
import AuthKademlia.Lib.Holdings
import AuthKademlia.Protocol.InProgress
import AuthKademlia.Properties.Admission
import AuthKademlia.Protocol.Wire
import AuthKademlia.Properties.Delivery
import AuthKademlia.Crawling.StableSearch
import AuthKademlia.Properties.StableReads
import AuthKademlia.Crawling.Bootstrap
import AuthKademlia.Lib.Linearization
import AuthKademlia.Storage.Linearization
import AuthKademlia.Protocol.AgreedCheck
import AuthKademlia.Runtime.Taking
import AuthKademlia.Properties.Upkeep
import AuthKademlia.Properties.Exchange
import AuthKademlia.Protocol.Exchange
import AuthKademlia.Protocol.Meeting
import AuthKademlia.Properties.Meetings
import AuthKademlia.Network.Refresh
import AuthKademlia.Properties.Refreshing
import AuthKademlia.Network.Dispatch
import AuthKademlia.Properties.Dispatch
import AuthKademlia.Network.Recovery
import AuthKademlia.Properties.Recovery
import AuthKademlia.Crawling.LookupHistory
import AuthKademlia.Lib.Splits
import AuthKademlia.Properties.Rejections
