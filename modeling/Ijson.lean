import Ijson.Slice
import Ijson.Outcome
import Ijson.Checked
import Ijson.Program
import Ijson.Recording
import Ijson.Text
import Ijson.ScratchArray
import Ijson.Numerals
import Ijson.NetFilter
import Ijson.Buffer
import Ijson.Json
import Ijson.JsonStrings
import Ijson.Unescape
import Ijson.JsonGrammar
import Ijson.JsonScan
import Ijson.JsonMembers
import Ijson.ScannedIds
import Ijson.JsonScanner
import Ijson.JsonReader
import Ijson.PrefixTable
import Ijson.Mapper
import Ijson.MapperTrie
import Ijson.MapperRouting
import Ijson.MapperHistory
import Ijson.PriorityQueue
import Ijson.Outlet
import Ijson.IntrusiveList
import Ijson.OrderedLocks
import Ijson.Framing
import Ijson.QueueLine
import Ijson.Connect
import Ijson.Registry
import Ijson.RegistryInvariant
import Ijson.RegistryHistory
import Ijson.QueueOrder
import Ijson.RegistryFailure
import Ijson.MapperReaders
import Ijson.NodeNumbers
import Ijson.Server
import Ijson.Action
import Ijson.Dispatch
import Ijson.Requests
import Ijson.Receive
import Ijson.Machine
import Ijson.Effects
import Ijson.Disconnects
import Ijson.RegistryWrites
import Ijson.Subscriptions
import Ijson.Sustained
import Ijson.SubscriptionSteps
import Ijson.SubscriberLists
import Ijson.WorkerItems
import Ijson.StoredBytes
import Ijson.MalformedHeaders
import Ijson.CallIds
import Ijson.ResultIds
import Ijson.DirectMessages
import Ijson.DirectCounts
import Ijson.Publications
import Ijson.SendStream
import Ijson.Wakings
import Ijson.Deliveries
import Ijson.Ids
import Ijson.GeneratedIds
import Ijson.IdsInUse
import Ijson.QueueEntries
import Ijson.TaskOrder
import Ijson.TaskSelection
import Ijson.WorkerSearch
import Ijson.Homes
import Ijson.Registrations
import Ijson.PublishedTexts
import Ijson.Speech
import Ijson.Wire
import Ijson.WorkerHomes
import Ijson.QueueNames
import Ijson.Refusals
import Ijson.Rollback
import Ijson.Cleaning
import Ijson.Expiry
import Ijson.WaitingTask
import Ijson.QueueDeletion
import Ijson.RequestStream
import Ijson.TaskMessage
import Ijson.Replies
import Ijson.TaskDispatch
import Ijson.NameLists
import Ijson.PathRouting
import Ijson.Timeouts
import Ijson.Details
import Ijson.BufferRuns
import Ijson.Loops
import Ijson.LoopEntries
import Ijson.WorkerView
import Ijson.WorkerClaims
import Ijson.Locks
import Ijson.Polling
import Ijson.PollingSteps
import Ijson.PollingRuns
import Ijson.Lines
import Ijson.Chunks
import Ijson.ChunkStream
import Ijson.ContentLength
import Ijson.OptionView
import Ijson.References
import Ijson.TaskScan
import Ijson.Deques
import Ijson.TaskGiving
import Ijson.WorkerScan
import Ijson.CallReturns
import Ijson.WorkerReturns
import Ijson.NamedQueues
