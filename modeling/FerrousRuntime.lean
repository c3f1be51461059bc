import FerrousRuntime.Foundation.Transition
import FerrousRuntime.Foundation.Lease
import FerrousRuntime.Foundation.Tally
import FerrousRuntime.Foundation.LinkTree
import FerrousRuntime.Foundation.Residual
import FerrousRuntime.Foundation.Monitor
import FerrousRuntime.Foundation.Tokens
import FerrousRuntime.Contract.Capability
import FerrousRuntime.Contract.Command
import FerrousRuntime.Contract.Protocol
import FerrousRuntime.Contract.Policy
import FerrousRuntime.Host.FileSystem
import FerrousRuntime.Host.Containment
import FerrousRuntime.Runtime.Pipe
import FerrousRuntime.Runtime.BuildStore
import FerrousRuntime.Runtime.AutoApproval
import FerrousRuntime.Runtime.WorkingDirectory
import FerrousRuntime.Runtime.WasiRun
import FerrousRuntime.Runtime.Watchdog
import FerrousRuntime.Runtime.WritePermits
import FerrousRuntime.Runtime.SharedPipe
import FerrousRuntime.Runtime.PipeWait
import FerrousRuntime.Runtime.OutputBudget
import FerrousRuntime.Broker.State
import FerrousRuntime.Broker.Step
import FerrousRuntime.Broker.Inversion
import FerrousRuntime.Broker.Ledger
import FerrousRuntime.Broker.Provenance
import FerrousRuntime.Broker.ApprovalGate
import FerrousRuntime.Broker.ApprovalIdentity
import FerrousRuntime.Broker.Conservation
import FerrousRuntime.Broker.AuditTrail
import FerrousRuntime.Broker.TerminalOrder
import FerrousRuntime.Broker.Cancellation
import FerrousRuntime.Broker.EventStream
import FerrousRuntime.Runtime.Engine
import FerrousRuntime.Runtime.DeadlineArithmetic
import FerrousRuntime.Broker.Trace
import FerrousRuntime.Broker.Registry
import FerrousRuntime.Broker.QueueService
import FerrousRuntime.Broker.ParkingClock
import FerrousRuntime.Broker.Endings
import FerrousRuntime.Broker.HandleRelease
import FerrousRuntime.Broker.Capacity
import FerrousRuntime.Broker.Parking
import FerrousRuntime.Broker.Expiry
import FerrousRuntime.Broker.LeftoverReader
import FerrousRuntime.Broker.OpenHandles
import FerrousRuntime.Broker.IdReuse
import FerrousRuntime.Broker.Deciders
import FerrousRuntime.Broker.AuditFaith
import FerrousRuntime.Broker.WaitingHandles
import FerrousRuntime.Broker.Announcement
import FerrousRuntime.Broker.SubmissionOrder
import FerrousRuntime.Broker.DefensiveBranches
import FerrousRuntime.Broker.Shutdown
import FerrousRuntime.Runtime.Streaming
import FerrousRuntime.Runtime.Guest
import FerrousRuntime.Runtime.PathAgreement
import FerrousRuntime.Runtime.PathOutcome
import FerrousRuntime.Runtime.OutputChunks
import FerrousRuntime.Runtime.Completeness
import FerrousRuntime.Runtime.EpochBudget
import FerrousRuntime.Runtime.Return
import FerrousRuntime.Runtime.Promptness
import FerrousRuntime.Broker.OutputOrder
import FerrousRuntime.Broker.Progress
import FerrousRuntime.Broker.Lifecycle
import FerrousRuntime.Broker.CancelScope
import FerrousRuntime.Broker.Sweep
import FerrousRuntime.Broker.Answers
import FerrousRuntime.Broker.Channels
import FerrousRuntime.Broker.Handover
import FerrousRuntime.Contract.Authority
import FerrousRuntime.Runtime.StoreAuthority
import FerrousRuntime.Broker.Entitlement
import FerrousRuntime.Broker.Backlog
