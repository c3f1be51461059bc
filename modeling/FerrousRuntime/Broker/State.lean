import FerrousRuntime.Runtime.WasiRun
import FerrousRuntime.Foundation.Tally

/-! # The broker's state

What the threads share is one record, `BrokerState`; each thread's own position is a
value of its program-counter type. A session is named by the channel its job reports
to, which is created fresh by every submission; the cancel handle a submission
registers is the cell of the same name. `history` is a ghost: it records, latest
first, what the threads did, and no step reads it.
-/
namespace FerrousRuntime.Broker
open Capability Command Policy FerrousRuntime.Runtime

inductive BrokerError
  | unknownSession (id : ℕ)
  | workerStopped
  | notWasi
  | invalidRequest (error : CommandError)
  | queueFull
  | invalidCapacity
  | notPendingApproval (id : ℕ)
deriving DecidableEq, Repr

inductive BrokerOutcome
  | completed (output : WasiOutput)
  | pendingApproval (reason : ApprovalReason)
  | cancelled
  | denied (error : CommandError)
  | failed (error : RuntimeError)
deriving DecidableEq, Repr

def BrokerOutcome.isTerminal : BrokerOutcome → Bool
  | .pendingApproval _ => false
  | _ => true

inductive ApprovalDecision
  | autoApproved
  | approved
  | denied
  | timedOut
  | cancelled
deriving DecidableEq, Repr

inductive AuditOutcome
  | completed (exitCode : ℤ)
  | cancelled
  | denied
  | failed
deriving DecidableEq, Repr

structure AuditEntry where
  id : ℕ
  actor : Actor
  program : String
  decision : ApprovalDecision
  outcome : AuditOutcome
deriving DecidableEq, Repr

/-- The channel a job reports to, and in which mode. -/
inductive JobSink
  | outcome (channel : ℕ)
  | events (channel : ℕ)
deriving DecidableEq, Repr

def JobSink.channel : JobSink → ℕ
  | .outcome channel => channel
  | .events channel => channel

structure Job where
  request : CommandRequest
  component : Component
  sink : JobSink
  session : SessionState
  admission : ApprovalDecision
deriving DecidableEq

def Job.id (job : Job) : ℕ := job.request.id

/-- The session a job belongs to. -/
def Job.key (job : Job) : ℕ := job.sink.channel

def Job.admit (job : Job) : Job := { job with admission := .approved }

def Job.withSession (job : Job) (session : SessionState) : Job := { job with session := session }

@[simp] theorem Job.admit_key (job : Job) : job.admit.key = job.key := rfl
@[simp] theorem Job.admit_id (job : Job) : job.admit.id = job.id := rfl
@[simp] theorem Job.withSession_key (job : Job) (session : SessionState) :
    (job.withSession session).key = job.key := rfl
@[simp] theorem Job.withSession_id (job : Job) (session : SessionState) :
    (job.withSession session).id = job.id := rfl

structure PendingJob where
  job : Job
  deadline : ℕ
deriving DecidableEq

inductive Message
  | outcome (outcome : BrokerOutcome)
  | event (event : SessionEvent)
deriving DecidableEq, Repr

def Message.isTerminal : Message → Bool
  | .outcome result => result.isTerminal
  | .event sent => sent.isTerminal

inductive Terminal
  | cancelled
  | denied
  | deniedWith (error : CommandError)
deriving DecidableEq, Repr

def terminalMessage : JobSink → Terminal → Message
  | .outcome _, .cancelled => .outcome .cancelled
  | .outcome _, .denied => .outcome (.denied (.invalidTransition "request denied by policy"))
  | .outcome _, .deniedWith error => .outcome (.denied error)
  | .events _, .cancelled => .event .cancelled
  | .events _, .denied => .event .denied
  | .events _, .deniedWith _ => .event .denied

@[simp] theorem terminalMessage_isTerminal (sink : JobSink) (terminal : Terminal) :
    (terminalMessage sink terminal).isTerminal = true := by
  cases sink <;> cases terminal <;> rfl

def approvalMessage (sink : JobSink) (reason : ApprovalReason) : Message :=
  match sink with
  | .outcome _ => .outcome (.pendingApproval reason)
  | .events _ => .event (.pendingApproval reason)

@[simp] theorem approvalMessage_isTerminal (sink : JobSink) (reason : ApprovalReason) :
    (approvalMessage sink reason).isTerminal = false := by
  cases sink <;> rfl

/-- How an execution ends: its terminal message and its audit outcome. -/
structure Conclusion where
  message : Message
  terminal : message.isTerminal = true
  outcome : AuditOutcome

/-- The match on the runtime's answer in `execute_capturing`, with the audit outcome
`execute` derives from it. -/
def concludeCapturing : Except RuntimeError WasiOutput → Conclusion
  | .ok output => ⟨.outcome (.completed output), rfl, .completed output.exitCode⟩
  | .error .cancelled => ⟨.outcome .cancelled, rfl, .cancelled⟩
  | .error .wrongMode =>
    ⟨.outcome (.denied (.invalidTransition "non-WASI request reached the WASI backend")), rfl, .denied⟩
  | .error error => ⟨.outcome (.failed error), rfl, .failed⟩

def concludeStreaming : Except RuntimeError WasiOutput → Conclusion
  | .ok output => ⟨.event (.exited (some output.exitCode)), rfl, .completed output.exitCode⟩
  | .error .cancelled => ⟨.event .cancelled, rfl, .cancelled⟩
  | .error .wrongMode => ⟨.event .denied, rfl, .denied⟩
  | .error _ => ⟨.event .unsupported, rfl, .failed⟩

def conclude (sink : JobSink) (result : Except RuntimeError WasiOutput) : Conclusion :=
  match sink with
  | .outcome _ => concludeCapturing result
  | .events _ => concludeStreaming result

def concludeCancelled (sink : JobSink) : Conclusion :=
  ⟨terminalMessage sink .cancelled, by simp, .cancelled⟩

def concludeUnstartable (sink : JobSink) : Conclusion :=
  ⟨terminalMessage sink (.deniedWith (.invalidTransition "session cannot start")), by simp, .denied⟩

inductive Stage
  | send
  | record
  | release
deriving DecidableEq, Repr

/-- The three closing steps of a session: send its terminal message, record its audit
entry, release its handle. -/
structure Closing where
  key : ℕ
  message : Message
  terminal : message.isTerminal = true
  entry : AuditEntry
  stage : Stage

def Job.entry (job : Job) (id : ℕ) (decision : ApprovalDecision) (outcome : AuditOutcome) :
    AuditEntry :=
  ⟨id, job.request.actor, job.request.program, decision, outcome⟩

def Job.close (job : Job) (id : ℕ) (terminal : Terminal) (decision : ApprovalDecision)
    (outcome : AuditOutcome) : Closing :=
  ⟨job.key, terminalMessage job.sink terminal, by simp, job.entry id decision outcome, .send⟩

def Job.conclude (job : Job) (conclusion : Conclusion) : Closing :=
  ⟨job.key, conclusion.message, conclusion.terminal,
    job.entry job.id job.admission conclusion.outcome, .send⟩

/-- A job the panic barrier reports in place of the unwound worker. -/
def Job.panic (job : Job) : Closing :=
  job.close job.id (.deniedWith (.invalidTransition "worker panic while executing session"))
    job.admission .failed

/-- Who takes a job out of `pending`. The calls are numbered. -/
inductive Decider
  | approve (call : ℕ)
  | deny (call : ℕ)
  | cancel (call : ℕ)
  | sweeper
deriving DecidableEq, Repr

inductive Event
  /-- `enqueue` inserted the session's handle -/
  | registered (job : Job)
  /-- `enqueue` put the job on the queue -/
  | enqueued (job : Job)
  | took (decider : Decider) (job : Job)
  /-- `approve` saw the cancelled flag of the job it took -/
  | sawCancelled (job : Job)
  | parked (job : Job)
  /-- parking replaced another parked job -/
  | displaced (job : Job)
  /-- `approve` could not put the job back on the queue -/
  | stranded (job : Job)
  /-- the worker called `execute` -/
  | executed (job : Job)
  /-- `execute` called the runtime -/
  | invoked (key : ℕ)
  | sent (key : ℕ) (message : Message)
  | received (key : ℕ) (message : Message)
  | recorded (key : ℕ) (entry : AuditEntry)
  /-- the worker removed the job it could not notify anyone of -/
  | discarded (job : Job)
  /-- the worker found no handle for the job -/
  | missing (job : Job)
  /-- a panic unwound into `process_job_guarded` -/
  | panicked (job : Job)
  /-- `cancel` set the cell's flag -/
  | flagged (cell : ℕ)
deriving DecidableEq

/-- Inserting into `pending` drops the job it replaces. -/
def displacement : Option PendingJob → List Event
  | none => []
  | some old => [.displaced old.job]

structure Channel where
  /-- the receiver is with the caller -/
  handed : Bool
  messages : List Message
deriving DecidableEq

structure BrokerState where
  handles : AList (fun _ : ℕ => ℕ)
  pending : AList (fun _ : ℕ => PendingJob)
  audit : List AuditEntry
  flags : ℕ → Bool
  queue : List Job
  /-- the sending half of the queue exists -/
  queueOpen : Bool
  /-- the receiving half of the queue exists -/
  served : Bool
  stopped : Bool
  channels : ℕ → Channel
  /-- the channels whose receiver is gone -/
  dropped : List ℕ
  fresh : ℕ
  now : ℕ
  epoch : ℕ
  history : List Event

structure Config where
  capacity : ℕ
  approvalTimeout : ℕ
  /-- the latest representable instant -/
  instantMax : ℕ
  capacity_pos : 0 < capacity

/-- `with_config`: a capacity of zero is refused. -/
def Config.new (capacity approvalTimeout instantMax : ℕ) : Except BrokerError Config :=
  if h : capacity = 0 then .error .invalidCapacity
  else .ok ⟨capacity, approvalTimeout, instantMax, Nat.pos_of_ne_zero h⟩

def defaultMaxOutstandingSessions : ℕ := 64

def defaultMaxAuditEntries : ℕ := 4096

namespace BrokerState

def initial : BrokerState where
  handles := ∅
  pending := ∅
  audit := []
  flags := fun _ => false
  queue := []
  queueOpen := true
  served := true
  stopped := false
  channels := fun _ => ⟨false, []⟩
  dropped := []
  fresh := 0
  now := 0
  epoch := 0
  history := []

def log (s : BrokerState) (event : Event) : BrokerState := { s with history := event :: s.history }

/-- A send on a channel; it fails, silently, once the receiver is gone. -/
def send (s : BrokerState) (key : ℕ) (message : Message) : BrokerState :=
  let channel := s.channels key
  { s with
    channels := Function.update s.channels key
      (if s.dropped.contains key then channel
        else { channel with messages := channel.messages ++ [message] })
    history := .sent key message :: s.history }

/-- `BrokerState::record`: append, dropping the oldest beyond the cap. -/
def record (s : BrokerState) (key : ℕ) (entry : AuditEntry) : BrokerState :=
  let audit := s.audit ++ [entry]
  { s with
    audit := if audit.length > defaultMaxAuditEntries then
      audit.drop (audit.length - defaultMaxAuditEntries) else audit
    history := .recorded key entry :: s.history }

def release (s : BrokerState) (id : ℕ) : BrokerState := { s with handles := s.handles.erase id }

def take (s : BrokerState) (decider : Decider) (id : ℕ) (job : Job) : BrokerState :=
  { s with pending := s.pending.erase id, history := .took decider job :: s.history }

def isCancelled (s : BrokerState) (id : ℕ) : Bool :=
  match s.handles.lookup id with
  | some cell => s.flags cell
  | none => false

end BrokerState

inductive CallPc
  | enqueue (job : Job)
  | push (job : Job)
  | unregister (id : ℕ)
  | approve (id : ℕ)
  | deny (id : ℕ)
  | cancel (id : ℕ)
  | checkCancelled (id : ℕ) (job : Job)
  | requeue (id : ℕ) (job : Job)
  | closing (closing : Closing)
  | lookup (id : ℕ)
  | setFlag (cell : ℕ)
  | done (result : Except BrokerError Unit)

inductive WorkerPc
  | idle
  | lookup (job : Job)
  | missing (job : Job)
  | missingRelease (id : ℕ)
  | begin (job : Job) (cell : ℕ)
  | announce (job : Job) (cell : ℕ)
  | running (job : Job) (cell : ℕ) (run : WasiRun)
  | closing (closing : Closing)
  | deadline (job : Job) (reason : ApprovalReason)
  | park (job : Job) (deadline : ℕ) (reason : ApprovalReason)
  | notify (sink : JobSink) (id : ℕ) (reason : ApprovalReason)
  | cleanupPending (id : ℕ)
  | cleanupHandles (id : ℕ)
  | exited

inductive SweeperPc
  | head
  | asleep
  | sweeping (expired : List ℕ)
  | closing (closing : Closing) (rest : List ℕ)
  | exited

inductive DropPc
  | undropped
  | stop
  | cancelAll
  | closeQueue
  | joinWorker
  | joinSweeper
  | dropped
deriving DecidableEq, Repr

/-- The watcher of a run whose calling thread unwound. -/
structure Stray where
  key : ℕ
  cell : ℕ
  run : WasiRun

structure ActionBroker where
  state : BrokerState
  calls : List CallPc
  worker : WorkerPc
  sweeper : SweeperPc
  drop : DropPc
  strays : List Stray

def ActionBroker.initial : ActionBroker := ⟨.initial, [], .idle, .head, .undropped, []⟩

end FerrousRuntime.Broker
