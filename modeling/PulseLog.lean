import PulseLog.Storage.FailedRoll
import PulseLog.Storage.RecoveredReads
import PulseLog.Storage.RecoverEnds
import PulseLog.Storage.Retention
import PulseLog.Storage.FlushRace
import PulseLog.Storage.FlushAccounting
import PulseLog.Broker.CatchUp
import PulseLog.Broker.ReplicaHandles
import PulseLog.Broker.Responses
import PulseLog.Broker.OpenPartition
import PulseLog.Protocol.RecordViews
import PulseLog.Clients.PythonRecord
import PulseLog.Consumer.Restart
import PulseLog.Broker.Replies
import PulseLog.Broker.Expiry
import PulseLog.Consumer.OffsetReplay
import PulseLog.Consumer.Balance
import PulseLog.Consumer.Subscriptions
import PulseLog.Metadata.LoadedTopics
import PulseLog.Metadata.ConcurrentSave
import PulseLog.Broker.MetadataReply
import PulseLog.Protocol.ChangedByte
import PulseLog.Net.SyncClient
import PulseLog.Broker.FetchWait
import PulseLog.Storage.ShortWrites
import PulseLog.Base.BufferCalls
import PulseLog.Storage.BaseOffset
import PulseLog.Net.EventLoop
import PulseLog.Broker.Durability
import PulseLog.Broker.CutRecord
import PulseLog.Broker.LogRefinement
import PulseLog.Clients.Reader
