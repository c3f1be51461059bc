import FerrousRuntime.Broker.SubmissionOrder
import FerrousRuntime.Runtime.Engine

/-! # The defensive branches

`execute` and the functions it calls have branches for a session that cannot start, a request
of the wrong mode, an outcome channel on the streaming path and an outcome that is none. Each
is excluded by a fact that is established elsewhere: at submission, when the job is parked,
when it is approved. The job carries these facts from hand to hand.
-/
namespace FerrousRuntime.Broker
open Tally Transition FerrousRuntime.Runtime Policy Command

inductive Fallback
  /-- `accept(Started)` was refused -/
  | unstartable
  /-- the runtime answered `WrongMode` -/
  | wrongMode
  /-- `execute_streaming` was given an outcome channel -/
  | outcomeSink
  /-- `execute_capturing` returned `PendingApproval`: `unreachable!` -/
  | pendingApproval
deriving DecidableEq, Repr

/-- What an execution comes to: the last message it sends, the outcome it returns, unless it
panics, and the defensive branches it took on the way. -/
structure Execution where
  message : Option Message
  outcome : Option AuditOutcome
  fallbacks : List Fallback
deriving DecidableEq

def JobSink.streams : JobSink → Bool
  | .events _ => true
  | .outcome _ => false

def executeCapturing (job : Job) (cancelled : Bool) (answer : Except RuntimeError WasiOutput) :
    BrokerOutcome × List Fallback :=
  if cancelled then (.cancelled, [])
  else match job.session.accept .started with
    | .error _ => (.denied (.invalidTransition "session cannot start"), [.unstartable])
    | .ok _ =>
      match answer with
      | .ok output => (.completed output, [])
      | .error .cancelled => (.cancelled, [])
      | .error .wrongMode =>
        (.denied (.invalidTransition "non-WASI request reached the WASI backend"), [.wrongMode])
      | .error error => (.failed error, [])

def executeStreaming (job : Job) (cancelled : Bool) (answer : Except RuntimeError WasiOutput) : Execution :=
  match job.sink with
  | .outcome _ => ⟨none, some .failed, [.outcomeSink]⟩
  | .events _ =>
    if cancelled then ⟨some (.event .cancelled), some .cancelled, []⟩
    else match job.session.accept .started with
      | .error _ => ⟨some (.event .denied), some .denied, [.unstartable]⟩
      | .ok _ =>
        match answer with
        | .ok output =>
          ⟨some (.event (.exited (some output.exitCode))), some (.completed output.exitCode), []⟩
        | .error .cancelled => ⟨some (.event .cancelled), some .cancelled, []⟩
        | .error .wrongMode => ⟨some (.event .denied), some .denied, [.wrongMode]⟩
        | .error _ => ⟨some (.event .unsupported), some .failed, []⟩

def execute (job : Job) (cancelled : Bool) (answer : Except RuntimeError WasiOutput) : Execution :=
  if job.sink.streams then executeStreaming job cancelled answer
  else
    let (outcome, fallbacks) := executeCapturing job cancelled answer
    match outcome with
    | .completed output => ⟨some (.outcome outcome), some (.completed output.exitCode), fallbacks⟩
    | .pendingApproval _ => ⟨none, none, .pendingApproval :: fallbacks⟩
    | .cancelled => ⟨some (.outcome outcome), some .cancelled, fallbacks⟩
    | .denied _ => ⟨some (.outcome outcome), some .denied, fallbacks⟩
    | .failed _ => ⟨some (.outcome outcome), some .failed, fallbacks⟩

def Conclusion.plain (conclusion : Conclusion) : Execution :=
  ⟨some conclusion.message, some conclusion.outcome, []⟩

section Execution
variable {job : Job} {session : SessionState} {answer : Except RuntimeError WasiOutput}

theorem execute_cancelled (job : Job) (answer : Except RuntimeError WasiOutput) :
    execute job true answer = (concludeCancelled job.sink).plain := by
  cases hsink : job.sink with
  | outcome channel =>
    simp only [execute, hsink, JobSink.streams, executeCapturing, if_true]
    rfl
  | events channel =>
    simp only [execute, hsink, JobSink.streams, executeStreaming, if_true]
    rfl

theorem execute_started (hstart : job.session.accept .started = .ok session)
    (hmode : answer ≠ .error .wrongMode) :
    execute job false answer = (conclude job.sink answer).plain := by
  cases hsink : job.sink with
  | outcome channel =>
    simp only [execute, hsink, JobSink.streams, executeCapturing, hstart]
    rcases answer with error | output
    · cases error <;> first | rfl | exact absurd rfl hmode
    · rfl
  | events channel =>
    simp only [execute, hsink, JobSink.streams, executeStreaming, hstart]
    rcases answer with error | output
    · cases error <;> first | rfl | exact absurd rfl hmode
    · rfl

theorem execute_fallbacks (hstart : job.session.accept .started = .ok session) (cancelled : Bool)
    (hmode : answer ≠ .error .wrongMode) : (execute job cancelled answer).fallbacks = [] := by
  cases cancelled with
  | true => rw [execute_cancelled]; rfl
  | false => rw [execute_started hstart hmode]; rfl

end Execution

/-- The two states in which a session is meant to reach `execute`. -/
inductive Job.Ready (job : Job) : Prop
  | autoApproved : job.admission = .autoApproved → job.session.lifecycle = .created → job.Ready
  | approved : job.admission = .approved → job.session.lifecycle = .waitingApproval → job.Ready

structure Job.Runnable (job : Job) : Prop where
  mode : job.request.mode = .wasi
  ready : job.Ready

structure Job.Asked (job : Job) : Prop where
  mode : job.request.mode = .wasi
  lifecycle : job.session.lifecycle = .waitingApproval

/-- The run of a job: on the path of its sink, and not about to answer `WrongMode`. -/
structure Job.RunsIn (job : Job) (run : WasiRun) : Prop where
  mode : run.request.mode = .wasi
  path : run.path = .events ↔ job.sink.streams = true
  answer : run.phase ≠ .returned (.error .wrongMode)

def CallPc.Prepared : CallPc → Prop
  | .enqueue job | .push job | .requeue _ job => job.Runnable
  | .checkCancelled _ job => job.Asked
  | .unregister _ => False
  | .done result => result ≠ .error .workerStopped
  | _ => True

def WorkerPc.Prepared : WorkerPc → Prop
  | .lookup job | .begin job _ => job.Runnable
  | .announce job _ => job.request.mode = .wasi ∧ job.sink.streams = true
  | .running job _ run => job.RunsIn run
  | .deadline job _ | .park job _ _ => job.Asked
  | _ => True

structure Prepared (b : ActionBroker) : Prop where
  queue : ∀ job ∈ b.state.queue, job.Runnable
  pending : ∀ id parked, b.state.pending.lookup id = some parked → parked.job.Asked
  calls : ∀ pc ∈ b.calls, pc.Prepared
  worker : b.worker.Prepared

section Jobs
variable {job : Job} {run : WasiRun}

theorem Job.Ready.starts (h : job.Ready) :
    job.session.accept .started = .ok { job.session with lifecycle := .running } := by
  cases h with
  | autoApproved _ hcreated => exact SessionState.accept_started (Or.inl hcreated)
  | approved _ hwaiting => exact SessionState.accept_started (Or.inr hwaiting)

theorem newJob_runnable {request : CommandRequest} (hmode : request.mode = .wasi) (streaming : Bool)
    (component : Component) (key : ℕ) : (newJob streaming component request key).Runnable :=
  ⟨hmode, .autoApproved rfl rfl⟩

theorem Job.Asked.admit (h : job.Asked) : job.admit.Runnable := ⟨h.mode, .approved rfl h.lifecycle⟩

/-- The worker asks for an approval only once, at the start of the session. -/
theorem Job.Runnable.ask (h : job.Runnable) (ha : job.admission ≠ .approved) (reason : ApprovalReason) :
    (job.withSession (job.session.acceptIgnored (.pendingApproval reason))).Asked := by
  obtain ⟨hmode, hready⟩ := h
  cases hready with
  | autoApproved _ hcreated =>
    refine ⟨hmode, ?_⟩
    simp only [Job.withSession, SessionState.acceptIgnored, SessionState.accept_pendingApproval hcreated]
  | approved happroved => exact absurd happroved ha

theorem Job.RunsIn.step {flag : Bool} {epoch : ℕ} {act : RunAct} {effect : Effect} (h : job.RunsIn run)
    (he : run.step flag epoch act = some effect) : job.RunsIn effect.run := by
  obtain ⟨hpath, -, hrequest, -⟩ := WasiRun.step_params he
  refine ⟨by rw [hrequest]; exact h.mode, by rw [hpath]; exact h.path, ?_⟩
  exact fun hanswer => h.answer (WasiRun.step_returned_wrongMode h.mode he hanswer)

end Jobs

section Steps
variable {config : Config} {b t : ActionBroker} {act : Act} {s : BrokerState}

theorem enter_prepared (s : BrokerState) (request : Request) : (enter s request).2.Prepared := by
  have hn := enter_cases s request
  generalize enter s request = next at hn ⊢
  cases hn with
  | invalid | notWasi => exact fun h => by cases h
  | submitted streaming component request _ hmode =>
    exact newJob_runnable hmode streaming component s.fresh
  | _ => trivial

theorem callStep_prepared {n : ℕ} {pc : CallPc} {next : BrokerState × CallPc} (hserved : s.served = true)
    (hpending : ∀ id parked, s.pending.lookup id = some parked → parked.job.Asked)
    (h : pc.Prepared) (he : callStep config n s pc = some next) : next.2.Prepared := by
  cases callStep_cases he with
  | registered job => exact h
  | unserved job hstopped | stranded id job hstopped => cases hserved.symm.trans hstopped
  | unregistered id => exact h.elim
  | approved id parked hl => exact hpending id parked hl
  | admitted id job => exact Job.Asked.admit h
  | refused | enqueued | approveMissed | requeued | denyMissed | unknown | flagged | closed =>
    exact fun h => by cases h
  | _ => trivial

theorem workerStep_prepared {pc : WorkerPc} {next : BrokerState × WorkerPc}
    (hqueue : ∀ job ∈ s.queue, job.Runnable) (h : pc.Prepared) (he : workerStep config s pc = some next) :
    next.2.Prepared := by
  cases workerStep_cases he with
  | popped job rest hq => exact hqueue job (by simp [hq])
  | executed job => exact h
  | deferred job cell reason _ _ ha => exact Job.Runnable.ask h ha reason
  | announced job cell channel session _ _ hsink =>
    have hmode : job.request.mode = .wasi := Job.Runnable.mode h
    exact ⟨hmode, by simp only [Job.withSession, hsink, JobSink.streams]⟩
  | invoked job cell channel session _ _ hsink =>
    have hmode : job.request.mode = .wasi := Job.Runnable.mode h
    refine ⟨hmode, ?_, by simp [WasiRun.start]⟩
    simp [WasiRun.start, Job.withSession, hsink, JobSink.streams]
  | started job cell => exact ⟨h.1, ⟨fun _ => h.2, fun _ => rfl⟩, by simp [WasiRun.start]⟩
  | timed job reason => exact h
  | _ => trivial

theorem step_prepared (hb : Reachable (system config) b) (he : step config b act = some t)
    (h : Prepared b) : Prepared t where
  queue := by
    intro job hjob
    cases step_queue he with
    | kept hq => exact h.queue job (hq ▸ hjob)
    | popped first _ hq => exact h.queue job (hq ▸ List.mem_cons_of_mem _ hjob)
    | pushed n pc last hpc hlast hq =>
      rcases List.mem_append.mp (hq ▸ hjob) with hjob | hjob
      · exact h.queue job hjob
      · cases List.mem_singleton.mp hjob
        have hjob := h.calls pc (List.mem_of_getElem? hpc)
        rcases hlast with rfl | ⟨id, rfl⟩ <;> exact hjob
  pending := by
    intro id parked hl
    rcases pending_or_parked he hl with hl | ⟨-, -, reason, hw, -⟩
    · exact h.pending id parked hl
    · have hasked := h.worker
      rw [hw] at hasked
      exact hasked
  calls := by
    intro pc hpc
    rcases step_calls he with hsame | ⟨request, hadd⟩ | ⟨n, old, next, -, hold, hn, -, hset⟩
    · exact h.calls pc (hsame ▸ hpc)
    · rcases List.mem_append.mp (hadd ▸ hpc) with hpc | hpc
      · exact h.calls pc hpc
      · rw [List.mem_singleton.mp hpc]
        exact enter_prepared b.state request
    · rcases List.mem_or_eq_of_mem_set (hset ▸ hpc) with hpc | rfl
      · exact h.calls pc hpc
      · have hmem := List.mem_of_getElem? hold
        have hstaff := reachable_servesQueue hb
        have hserved := hstaff.serves (hstaff.undropped hmem (callStep_not_done hn))
        exact callStep_prepared hserved h.pending (h.calls old hmem) hn
  worker := by
    refine step_position (fun _ hn => workerStep_prepared h.queue h.worker hn) ?_ (fun _ => trivial) he
      h.worker
    exact fun job cell run flag epoch a effect hrun heff => Job.RunsIn.step hrun heff

theorem reachable_prepared (h : Reachable (system config) b) : Prepared b := by
  refine Runs.invariant_of_reachable (fun b act t hb _ he hp => step_prepared hb he hp) h (.refl _) ?_
  refine ⟨?_, ?_, ?_, trivial⟩ <;> simp [system, ActionBroker.initial, BrokerState.initial]

theorem executed_runnable (h : Reachable (system config) b) :
    ∀ job, .executed job ∈ b.state.history → job.Runnable := by
  refine Runs.invariant_of_reachable
    (P := fun b => ∀ job, .executed job ∈ b.state.history → job.Runnable) ?_ h (.refl _)
    (by simp [system, ActionBroker.initial, BrokerState.initial])
  intro b act t hb _ he hp job hin
  rcases step_logs he hin with hin | hlogs
  · exact hp job hin
  · obtain ⟨-, hlogs⟩ := hlogs.by_worker rfl
    have hworker := (reachable_prepared hb).worker
    generalize b.worker = pc at hlogs hworker
    cases hlogs with
    | closing c event hc => cases hc
    | executed job cell => exact hworker

end Steps

structure StaysClear (config : Config) (b : ActionBroker) : Prop where
  /-- A job that reached `execute` can start, and takes none of the branches, whatever it reads
  of its flag and whatever the runtime answers. -/
  executed : ∀ job, .executed job ∈ b.state.history → job.Ready ∧
    (∃ session, job.session.accept .started = .ok session) ∧
    ∀ cancelled answer, answer ≠ .error .wrongMode → (execute job cancelled answer).fallbacks = []
  /-- An execution that ends before its run was cancelled, and ends as `execute` has it. -/
  begun : ∀ job cell s c, b.worker = .begin job cell →
    workerStep config b.state b.worker = some (s, .closing c) → b.state.flags cell = true ∧
      ∀ answer, execute job true answer = ⟨some c.message, some c.entry.outcome, []⟩
  /-- The runtime is called with a WASI request, on the path of the sink. -/
  running : ∀ job cell run, b.worker = .running job cell run → run.request.mode = .wasi ∧
    run.phase ≠ .returned (.error .wrongMode) ∧ (run.path = .events ↔ job.sink.streams = true)
  /-- An execution whose run came back ends as `execute` has it. -/
  returned : ∀ job cell run s c, b.worker = .running job cell run →
    workerStep config b.state b.worker = some (s, .closing c) →
      ∃ ran answer, .executed ran ∈ b.state.history ∧ ran.request = job.request ∧ ran.sink = job.sink ∧
        run.phase = .returned answer ∧
        execute ran false answer = ⟨some c.message, some c.entry.outcome, []⟩
  queued : ∀ job ∈ b.state.queue, job.request.mode = .wasi
  served : b.drop = .undropped → b.state.queueOpen = true ∧ b.state.served = true
  /-- No call finds the queue closed, and none returns `WorkerStopped`. -/
  calls : ∀ pc ∈ b.calls, (pc.isDone = false → b.state.served = true) ∧
    pc ≠ .done (.error .workerStopped)

section Reachable
variable {config : Config} {b : ActionBroker}

theorem executed_clear (h : Reachable (system config) b) {job : Job}
    (hin : .executed job ∈ b.state.history) : job.Ready ∧
      (∃ session, job.session.accept .started = .ok session) ∧
      ∀ cancelled answer, answer ≠ .error .wrongMode → (execute job cancelled answer).fallbacks = [] := by
  have hready := (executed_runnable h job hin).ready
  exact ⟨hready, ⟨_, hready.starts⟩, fun cancelled _ hmode => execute_fallbacks hready.starts cancelled hmode⟩

theorem begun_clear (h : Reachable (system config) b) {job : Job} {cell : ℕ} {s : BrokerState}
    {c : Closing} (hw : b.worker = .begin job cell)
    (he : workerStep config b.state b.worker = some (s, .closing c)) : b.state.flags cell = true ∧
      ∀ answer, execute job true answer = ⟨some c.message, some c.entry.outcome, []⟩ := by
  have hjob := (reachable_prepared h).worker
  rw [hw] at hjob he
  have hstart := (Job.Runnable.ready hjob).starts
  generalize hnext : (s, WorkerPc.closing c) = next at he
  cases workerStep_cases he with
  | cancelled _ _ hflag =>
    cases hnext
    exact ⟨hflag, execute_cancelled job⟩
  | unstartable _ _ error _ hrefused => cases hstart.symm.trans hrefused
  | announced => cases hnext
  | invoked => cases hnext

theorem returned_clear (h : Reachable (system config) b) {job : Job} {cell : ℕ} {run : WasiRun}
    {s : BrokerState} {c : Closing} (hw : b.worker = .running job cell run)
    (he : workerStep config b.state b.worker = some (s, .closing c)) :
    ∃ ran answer, .executed ran ∈ b.state.history ∧ ran.request = job.request ∧ ran.sink = job.sink ∧
      run.phase = .returned answer ∧
      execute ran false answer = ⟨some c.message, some c.entry.outcome, []⟩ := by
  have hrun := (reachable_prepared h).worker
  have htraced := reachable_traced h
  rw [hw] at hrun htraced he
  obtain ⟨ran, hin, hrequest, hsink, -⟩ := htraced
  generalize hnext : (s, WorkerPc.closing c) = next at he
  cases workerStep_cases he with
  | returned _ _ _ answer hphase =>
    cases hnext
    have hmode : answer ≠ .error .wrongMode := fun hwrong => Job.RunsIn.answer hrun (hwrong ▸ hphase)
    refine ⟨ran, answer, hin, hrequest, hsink, hphase, ?_⟩
    rw [execute_started (executed_runnable h ran hin).ready.starts hmode, hsink]
    rfl

/-- In no reachable state is one of the defensive branches taken, or about to be. -/
theorem defensive_branches_unreachable (h : Reachable (system config) b) : StaysClear config b where
  executed _ hin := executed_clear h hin
  begun _ _ _ _ hw he := begun_clear h hw he
  running job cell run hw := by
    have hrun := (reachable_prepared h).worker
    rw [hw] at hrun
    exact ⟨Job.RunsIn.mode hrun, Job.RunsIn.answer hrun, Job.RunsIn.path hrun⟩
  returned _ _ _ _ _ hw he := returned_clear h hw he
  queued job hjob := ((reachable_prepared h).queue job hjob).mode
  served hdrop := ⟨(reachable_servesQueue h).queueOpen hdrop, (reachable_servesQueue h).serves hdrop⟩
  calls pc hpc := by
    have hstaff := reachable_servesQueue h
    refine ⟨fun hdone => hstaff.serves (hstaff.undropped hpc hdone), ?_⟩
    rintro rfl
    exact (reachable_prepared h).calls _ hpc rfl

end Reachable

theorem approved_execution_stays_clear : ∃ b, Reachable (system sampleConfig) b ∧
    b.state.history.countP (Event.isTook 0) = 1 ∧ b.state.history.countP (Event.isExecuted 0) = 1 ∧
      StaysClear sampleConfig b := by
  obtain ⟨b, hb, htook, hexecuted⟩ := (system sampleConfig).reachable_of_replay
    (fun b => b.state.history.countP (Event.isTook 0) = 1 ∧
      b.state.history.countP (Event.isExecuted 0) = 1)
    (submission 0 1 false .readWrite ++ parking ++
      ([.worker, .call (.approve 1), .proceed 1, .proceed 1, .proceed 1, .worker, .worker] : List Act))
    (by decide)
  exact ⟨b, hb, htook, hexecuted, defensive_branches_unreachable hb⟩

end FerrousRuntime.Broker
