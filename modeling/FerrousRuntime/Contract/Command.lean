import FerrousRuntime.Contract.Capability

/-! # Command requests and the session state machine

`SessionState.accept` is the transition table of the source, arm by arm and in its
order, with the checked addition of the output counter.
-/
namespace FerrousRuntime.Command
open Capability

inductive Actor
  | human
  | agent
  | subagent
  | skill
deriving DecidableEq, Repr

inductive ExecutionMode
  | wasi
  | native
deriving DecidableEq, Repr

structure CommandRequest where
  id : ℕ
  actor : Actor
  mode : ExecutionMode
  program : String
  args : List String
  cwd : Path
  grant : CapabilityGrant
deriving DecidableEq

inductive CommandError
  | invalidProgram
  | invalidArgument
  | nativeNotGranted
  | workingDirectoryDenied (path : Path)
  | invalidTransition (reason : String)
  | outputLimit
deriving DecidableEq, Repr

def containsNul (value : String) : Bool := value.toList.any (fun c => c == '\x00')

def CommandRequest.validate (request : CommandRequest) : Except CommandError Unit :=
  if request.program.toList.isEmpty || containsNul request.program then .error .invalidProgram
  else if request.args.any containsNul then .error .invalidArgument
  else if request.mode == .native && !request.grant.allowsNativeExecution then
    .error .nativeNotGranted
  else if !request.grant.allowsPath request.cwd then .error (.workingDirectoryDenied request.cwd)
  else .ok ()

/-- `CommandRequest::new`: a request is only handed out validated. -/
def CommandRequest.new (request : CommandRequest) : Except CommandError CommandRequest :=
  request.validate.map (fun _ => request)

/-- What is wrong with a request that is refused with the error. -/
def CommandRequest.Fails (request : CommandRequest) : CommandError → Prop
  | .invalidProgram => request.program.toList = [] ∨ containsNul request.program = true
  | .invalidArgument => ∃ arg ∈ request.args, containsNul arg = true
  | .nativeNotGranted => request.mode = .native ∧ request.grant.nativeExecution = false
  | .workingDirectoryDenied path => path = request.cwd ∧ request.grant.allowsPath path = false
  | _ => False

/-- A request is handed out as it is if there is nothing wrong with it, and otherwise refused
for something that is. -/
theorem CommandRequest.new_spec (request : CommandRequest) :
    request.new = .ok request ∧ (∀ error, ¬ request.Fails error) ∨
      ∃ error, request.new = .error error ∧ request.Fails error := by
  unfold CommandRequest.new CommandRequest.validate
  split_ifs with hprogram hargument hnative hcwd
  · exact Or.inr ⟨_, rfl, by simpa [Fails] using hprogram⟩
  · exact Or.inr ⟨_, rfl, by simpa [Fails] using hargument⟩
  · exact Or.inr ⟨_, rfl, by simpa [Fails, CapabilityGrant.allowsNativeExecution] using hnative⟩
  · exact Or.inr ⟨_, rfl, rfl, by simpa using hcwd⟩
  · refine Or.inl ⟨rfl, fun error hfails => ?_⟩
    cases error with
    | invalidProgram => exact hprogram (by simpa [Fails] using hfails)
    | invalidArgument => exact hargument (by simpa [Fails] using hfails)
    | nativeNotGranted =>
      exact hnative (by simpa [Fails, CapabilityGrant.allowsNativeExecution] using hfails)
    | workingDirectoryDenied path =>
      obtain ⟨rfl, hdenied⟩ := hfails
      exact hcwd (by simp [hdenied])
    | _ => exact hfails

inductive ApprovalReason
  | filesystemWrite
  | networkAccess
  | environmentAccess
  | nativeExecution
deriving DecidableEq, Repr

inductive Stream
  | stdout
  | stderr
deriving DecidableEq, Repr

inductive SessionEvent
  | started
  | pendingApproval (reason : ApprovalReason)
  | output (stream : Stream) (bytes : List UInt8)
  | exited (code : Option ℤ)
  | cancelled
  | denied
  | unsupported
deriving DecidableEq, Repr

def SessionEvent.bytes : SessionEvent → List UInt8
  | .output _ bytes => bytes
  | _ => []

def SessionEvent.isTerminal : SessionEvent → Bool
  | .exited _ | .cancelled | .denied | .unsupported => true
  | _ => false

inductive Lifecycle
  | created
  | waitingApproval
  | running
  | finished
deriving DecidableEq, Repr

structure SessionState where
  id : ℕ
  limits : ResourceLimits
  outputBytes : ℕ
  lifecycle : Lifecycle
deriving DecidableEq

def SessionState.new (id : ℕ) (limits : ResourceLimits) : SessionState :=
  ⟨id, limits, 0, .created⟩

def checkedAdd (a b : ℕ) : Option ℕ := if a + b ≤ u64Max then some (a + b) else none

def SessionState.accept (state : SessionState) (event : SessionEvent) :
    Except CommandError SessionState :=
  match state.lifecycle, event with
  | .created, .started => .ok { state with lifecycle := .running }
  | .created, .pendingApproval _ => .ok { state with lifecycle := .waitingApproval }
  | .waitingApproval, .started => .ok { state with lifecycle := .running }
  | .waitingApproval, .denied => .ok { state with lifecycle := .finished }
  | .waitingApproval, .unsupported => .ok { state with lifecycle := .finished }
  | .running, .output _ bytes =>
    match checkedAdd state.outputBytes bytes.length with
    | none => .error .outputLimit
    | some next =>
      if next > state.limits.maxOutputBytes then .error .outputLimit
      else .ok { state with outputBytes := next }
  | .running, .exited _ => .ok { state with lifecycle := .finished }
  | .running, .cancelled => .ok { state with lifecycle := .finished }
  | .created, .denied => .ok { state with lifecycle := .finished }
  | .created, .unsupported => .ok { state with lifecycle := .finished }
  | .created, _ => .error (.invalidTransition "session has not started")
  | .waitingApproval, _ => .error (.invalidTransition "session is awaiting approval")
  | .running, .started => .error (.invalidTransition "session already started")
  | .running, .pendingApproval _ =>
    .error (.invalidTransition "running session cannot await approval")
  | .running, .denied => .error (.invalidTransition "running session cannot be denied")
  | .running, .unsupported => .error (.invalidTransition "running session cannot be denied")
  | .finished, _ => .error (.invalidTransition "session is finished")

/-- `let _ = session.accept(event)`: a rejected event leaves the state alone. -/
def SessionState.acceptIgnored (state : SessionState) (event : SessionEvent) : SessionState :=
  match state.accept event with
  | .ok next => next
  | .error _ => state

def SessionState.acceptAll (state : SessionState) : List SessionEvent → Except CommandError SessionState
  | [] => .ok state
  | event :: rest => (state.accept event).bind (fun next => next.acceptAll rest)

theorem SessionState.acceptAll_append (state : SessionState) (first second : List SessionEvent) :
    state.acceptAll (first ++ second) =
      (state.acceptAll first).bind (fun next => next.acceptAll second) := by
  induction first generalizing state with
  | nil => rfl
  | cons event rest ih =>
    simp only [List.cons_append, SessionState.acceptAll]
    cases state.accept event with
    | error => rfl
    | ok next => simpa [Except.bind] using ih next

theorem SessionState.acceptAll_snoc {state mid : SessionState} {events : List SessionEvent}
    (h : state.acceptAll events = .ok mid) (event : SessionEvent) :
    state.acceptAll (events ++ [event]) = mid.accept event := by
  rw [acceptAll_append, h]
  simp only [Except.bind, acceptAll]
  cases mid.accept event <;> rfl

theorem SessionState.accept_limits {state next : SessionState} {event : SessionEvent}
    (h : state.accept event = .ok next) : next.id = state.id ∧ next.limits = state.limits := by
  unfold SessionState.accept at h
  split at h <;> try cases h
  all_goals try exact ⟨rfl, rfl⟩
  split at h
  · cases h
  · split at h <;> cases h
    exact ⟨rfl, rfl⟩

theorem SessionState.acceptAll_limits {state final : SessionState} {events : List SessionEvent}
    (h : state.acceptAll events = .ok final) : final.limits = state.limits := by
  induction events generalizing state with
  | nil => cases h; rfl
  | cons event rest ih =>
    simp only [SessionState.acceptAll] at h
    cases ha : state.accept event with
    | error => rw [ha] at h; cases h
    | ok next =>
      rw [ha] at h
      exact (ih h).trans (accept_limits ha).2

structure SessionState.Unstarted (state : SessionState) : Prop where
  lifecycle : state.lifecycle = .created ∨ state.lifecycle = .waitingApproval
  outputBytes : state.outputBytes = 0

theorem SessionState.unstarted_new (id : ℕ) (limits : ResourceLimits) :
    (SessionState.new id limits).Unstarted := ⟨Or.inl rfl, rfl⟩

theorem SessionState.accept_started {state : SessionState}
    (h : state.lifecycle = .created ∨ state.lifecycle = .waitingApproval) :
    state.accept .started = .ok { state with lifecycle := .running } := by
  rcases h with h | h <;> simp [SessionState.accept, h]

theorem SessionState.accept_pendingApproval {state : SessionState} (h : state.lifecycle = .created)
    (reason : ApprovalReason) :
    state.accept (.pendingApproval reason) = .ok { state with lifecycle := .waitingApproval } := by
  simp [SessionState.accept, h]

theorem SessionState.accept_output {state : SessionState} (h : state.lifecycle = .running)
    {bytes : List UInt8} (hle : state.outputBytes + bytes.length ≤ state.limits.maxOutputBytes)
    (stream : Stream) : state.accept (.output stream bytes) =
      .ok { state with outputBytes := state.outputBytes + bytes.length } := by
  have hmax := state.limits.output_le
  simp only [SessionState.accept, h, checkedAdd, if_pos (hle.trans hmax), if_neg hle.not_gt]

/-- An ending the state machine takes where it stands: a denial before the start, an
exit or a cancellation after it. -/
def SessionState.Ends (state : SessionState) : SessionEvent → Prop
  | .denied => state.Unstarted
  | .exited _ | .cancelled => state.lifecycle = .running
  | _ => False

theorem SessionState.Ends.accept {state : SessionState} {event : SessionEvent}
    (h : state.Ends event) : state.accept event = .ok { state with lifecycle := .finished } := by
  cases event with
  | denied => rcases h.lifecycle with hl | hl <;> simp [SessionState.accept, hl]
  | exited code => simp only [SessionState.Ends] at h; simp [SessionState.accept, h]
  | cancelled => simp only [SessionState.Ends] at h; simp [SessionState.accept, h]
  | _ => exact h.elim

end FerrousRuntime.Command
