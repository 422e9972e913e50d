import SecureTransfer.Library.Program
import SecureTransfer.Library.ChunkedFile
import SecureTransfer.Library.DolevYao
import SecureTransfer.Library.Relational
import SecureTransfer.Library.FileTable
import SecureTransfer.Library.WriteBuffer
import SecureTransfer.Library.PyValues
import SecureTransfer.Util
import SecureTransfer.Framing
import SecureTransfer.ApproachA.Rounds
import SecureTransfer.ApproachA.Processes
import SecureTransfer.ApproachA.Sessions
import SecureTransfer.ApproachA.Crashes
import SecureTransfer.ApproachA.Schedules
import SecureTransfer.ApproachA.Progress
import SecureTransfer.ApproachB.Ledger
import SecureTransfer.ApproachB.Delivery
import SecureTransfer.ApproachB.Sender
import SecureTransfer.Library.CanonicalJson
import SecureTransfer.ApproachB.Transfer
import SecureTransfer.ApproachB.SendRuns
import SecureTransfer.ApproachB.Nonces
import SecureTransfer.ApproachB.BrokerStore
import SecureTransfer.ApproachB.KeyNames
import SecureTransfer.Library.JsonPrefix
import SecureTransfer.ApproachB.SafePath
import SecureTransfer.ApproachB.Session
import SecureTransfer.ApproachB.Restart
import SecureTransfer.ApproachB.Published
import SecureTransfer.ApproachB.Recovery
import SecureTransfer.ApproachB.Shelf
import SecureTransfer.ApproachB.Completeness
import SecureTransfer.ApproachB.FailClosed
import SecureTransfer.ApproachB.Sizes
import SecureTransfer.ApproachB.CleanExits
import SecureTransfer.ApproachB.Freshness
import SecureTransfer.ApproachB.Resume
import SecureTransfer.ApproachB.Replay
import SecureTransfer.ApproachB.SharedLedger
import SecureTransfer.ApproachB.BrokerThreads
import SecureTransfer.ApproachB.BrokerView
import SecureTransfer.ApproachB.ForwardSecrecy
import SecureTransfer.ApproachB.Interrupted
import SecureTransfer.ApproachB.Durability
import SecureTransfer.ApproachB.Listing
import SecureTransfer.ApproachB.ReadYourWrites
import SecureTransfer.Library.Linearization
import SecureTransfer.ApproachB.BrokerLinear
import SecureTransfer.Library.Client
import SecureTransfer.ApproachB.Jobs
import SecureTransfer.ApproachB.Stock
import SecureTransfer.ApproachB.Isolation
import SecureTransfer.ApproachB.Racing
import SecureTransfer.ApproachB.Network
import SecureTransfer.ApproachB.ThreadedNetwork
import SecureTransfer.ApproachB.Twins
import SecureTransfer.ApproachB.Simulation
import SecureTransfer.ApproachB.ThreadProgress
import SecureTransfer.ApproachB.ReadyJobs
import SecureTransfer.ApproachB.Online
import SecureTransfer.Library.JsonContent
import SecureTransfer.ApproachB.ManifestContent
