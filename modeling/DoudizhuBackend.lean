import DoudizhuBackend.CommandProgram
import DoudizhuBackend.CommandTriple
import DoudizhuBackend.GuardedRun
import DoudizhuBackend.CommandPool
import DoudizhuBackend.ChunkedStream
import DoudizhuBackend.OrderedMap
import DoudizhuBackend.PrefixScan
import DoudizhuBackend.Segments
import DoudizhuBackend.Md5
import DoudizhuBackend.Mysql.Lexer
import DoudizhuBackend.Mysql.Statement
import DoudizhuBackend.PhpValue
import DoudizhuBackend.VersionList
import DoudizhuBackend.PhpArray
import DoudizhuBackend.SqlBuilders
import DoudizhuBackend.Store
import DoudizhuBackend.GameData
import DoudizhuBackend.RewardPool
import DoudizhuBackend.AddCoin
import DoudizhuBackend.LogShipping
import DoudizhuBackend.Login
import DoudizhuBackend.GameServer
import DoudizhuBackend.Players
import DoudizhuBackend.Activity
import DoudizhuBackend.UserRecords
import DoudizhuBackend.PlainNumbers
import DoudizhuBackend.RoomCards
import DoudizhuBackend.RequestEffects
import DoudizhuBackend.Tokens
import DoudizhuBackend.ShortNames
import DoudizhuBackend.RefusedRequests
import DoudizhuBackend.FieldUpdates
import DoudizhuBackend.Exchange
import DoudizhuBackend.PaymentOnce
import DoudizhuBackend.PaymentAmount
import DoudizhuBackend.RequestGate
import DoudizhuBackend.RedPackLimiter
import DoudizhuBackend.DailyRollover
import DoudizhuBackend.UserStores
import DoudizhuBackend.UserRequests
import DoudizhuBackend.LoginAccount
import DoudizhuBackend.InviteRewards
import DoudizhuBackend.UserNumbers
import DoudizhuBackend.StoreMirror
import DoudizhuBackend.Paging
import DoudizhuBackend.ScoreLedger
import DoudizhuBackend.Ssdb.Bytes
import DoudizhuBackend.Ssdb.Numbers
import DoudizhuBackend.Ssdb.Wire
import DoudizhuBackend.Ssdb.Keys
import DoudizhuBackend.Ssdb.Binlog
import DoudizhuBackend.Ssdb.Iterator
import DoudizhuBackend.Ssdb.Queue
import DoudizhuBackend.Ssdb.QueueCommands
import DoudizhuBackend.Histories
import DoudizhuBackend.Ssdb.Zset
import DoudizhuBackend.Ssdb.ZsetScan
import DoudizhuBackend.Ssdb.Kv
import DoudizhuBackend.Ssdb.Hash
import DoudizhuBackend.Ssdb.Counters
import DoudizhuBackend.Ssdb.Operations
import DoudizhuBackend.Ssdb.QueueIndex
import DoudizhuBackend.Ssdb.SortedSet
import DoudizhuBackend.Ssdb.SortedSetIndex
import DoudizhuBackend.Ssdb.ZsetMembers
import DoudizhuBackend.Ssdb.ZsetRanges
import DoudizhuBackend.Ssdb.BackwardScans
import DoudizhuBackend.Ssdb.RedisLink
import DoudizhuBackend.Ssdb.RedisRanges
import DoudizhuBackend.Ssdb.RedisStream
import DoudizhuBackend.Ssdb.RedisErrno
import DoudizhuBackend.Ssdb.Replication
import DoudizhuBackend.Ssdb.ReplicaRecords
import DoudizhuBackend.Ssdb.ReplicaSlave
import DoudizhuBackend.Ssdb.ReplicaMaster
import DoudizhuBackend.Ssdb.ReplicaTurns
import DoudizhuBackend.Ssdb.ReplicaClient
import DoudizhuBackend.Ssdb.ReplicaCopy
import DoudizhuBackend.Ssdb.ReplicaConvergence
import DoudizhuBackend.Ssdb.Response
import DoudizhuBackend.Ssdb.IpFilter
import DoudizhuBackend.Ssdb.RedisReplies
import DoudizhuBackend.Ssdb.QueueFix
import DoudizhuBackend.Ssdb.ZsetFix
import DoudizhuBackend.Ssdb.Repairs
import DoudizhuBackend.Ssdb.ZsetRemoval
import DoudizhuBackend.Ssdb.Clearing
import DoudizhuBackend.Ssdb.RedisScores
import DoudizhuBackend.Ssdb.PagedScans
import DoudizhuBackend.Ssdb.Isolation
import DoudizhuBackend.Ssdb.StorageKeys
import DoudizhuBackend.Ssdb.Ttl
import DoudizhuBackend.Ssdb.Cluster
import DoudizhuBackend.Ssdb.Migration
import DoudizhuBackend.Ssdb.Lines
import DoudizhuBackend.Blocks
import DoudizhuBackend.Ssdb.Buffer
import DoudizhuBackend.OperationShipping
import DoudizhuBackend.Ssdb.QueueNumbers
import DoudizhuBackend.Ssdb.QueueReplica
import DoudizhuBackend.Ssdb.QueueMaster
import DoudizhuBackend.Ssdb.QueueShipping
import DoudizhuBackend.Ssdb.QueueConvergence
import DoudizhuBackend.Ssdb.NetworkServer
import DoudizhuBackend.Ssdb.ServerSteps
import DoudizhuBackend.Ssdb.LinkPlaces
import DoudizhuBackend.Ssdb.LoopSafety
import DoudizhuBackend.Ssdb.LinkHistory
import DoudizhuBackend.Ssdb.RequestOrder
import DoudizhuBackend.Ssdb.WorkerThreads
