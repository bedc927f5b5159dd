import RaftLsmt.Client.BatchFailover
import RaftLsmt.Client.Read
import RaftLsmt.Client.RoutingStrategies
import RaftLsmt.Client.SendBatch
import RaftLsmt.Lsmt.CompactionVisibility
import RaftLsmt.Lsmt.ConcurrentScan
import RaftLsmt.Lsmt.CrashSafety
import RaftLsmt.Lsmt.FlushTransparency
import RaftLsmt.Lsmt.ImmutableBound
import RaftLsmt.Lsmt.MetadataNodes
import RaftLsmt.Lsmt.PlainMerge
import RaftLsmt.Lsmt.Quiescence
import RaftLsmt.Lsmt.ReadYourWrites
import RaftLsmt.Lsmt.SkipFree
import RaftLsmt.Lsmt.SstQueries
import RaftLsmt.Server.AckedRecords
import RaftLsmt.Server.FsmAtomicity
import RaftLsmt.Server.PoisonedLog
import RaftLsmt.Server.QueryDispatch
import RaftLsmt.Server.QueryPages
import RaftLsmt.Server.RecordSafety
import RaftLsmt.Client.PageHeaders
import RaftLsmt.Client.PageProgress
import RaftLsmt.Client.RequestMetrics
import RaftLsmt.Client.WriteRetries
import RaftLsmt.Client.SocketPools
import RaftLsmt.Client.ReadPools
import RaftLsmt.Client.WriteThenRead
import RaftLsmt.Client.FollowerRotation
import RaftLsmt.Client.PipelinedQueries
import RaftLsmt.Client.WriteBuffers
import RaftLsmt.Lib.HeapBlock
import RaftLsmt.Lib.TerminatedString
import RaftLsmt.Lib.TextInput
import RaftLsmt.Lsmt.ReSeek
import RaftLsmt.Lsmt.ScanBuffers
import RaftLsmt.Lsmt.ScanPointers
import RaftLsmt.Lsmt.SkipSearch
import RaftLsmt.Lsmt.SstFileNames
import RaftLsmt.Server.ClientLists
import RaftLsmt.Server.ClusterConfig
import RaftLsmt.Server.ListCalls
import RaftLsmt.Server.Segmentation
import RaftLsmt.Server.StorageEvents
import RaftLsmt.Lib.FileOwners
import RaftLsmt.Lsmt.SstFilesOnDisk
