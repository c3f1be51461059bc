import FerrousRuntime.Broker.State

/-! # The broker's steps

One function for each thread, over the shared state and the thread's own position;
each step is one lock-protected access, one channel operation or one access to a
cancel flag. `step` interleaves them.
-/
namespace FerrousRuntime.Broker
open Capability Command Policy FerrousRuntime.Runtime Transition

/-- One of the three closing steps; `none` once the handle is released. -/
def Closing.step (s : BrokerState) (closing : Closing) : BrokerState × Option Closing :=
  match closing.stage with
  | .send => (s.send closing.key closing.message, some { closing with stage := .record })
  | .record => (s.record closing.key closing.entry, some { closing with stage := .release })
  | .release => (s.release closing.entry.id, none)

inductive Request
  | submit (streaming : Bool) (component : Component) (request : CommandRequest)
  | approve (id : ℕ)
  | deny (id : ℕ)
  | cancel (id : ℕ)

def newJob (streaming : Bool) (component : Component) (request : CommandRequest) (key : ℕ) : Job where
  request := request
  component := component
  sink := if streaming then .events key else .outcome key
  session := .new request.id request.grant.limits
  admission := .autoApproved

@[simp] theorem newJob_key (streaming : Bool) (component : Component) (request : CommandRequest)
    (key : ℕ) : (newJob streaming component request key).key = key := by
  cases streaming <;> rfl

/-- What a call of the interface does before its first shared access. -/
def enter (s : BrokerState) : Request → BrokerState × CallPc
  | .submit streaming component request =>
    match request.validate with
    | .error error => (s, .done (.error (.invalidRequest error)))
    | .ok () =>
      if request.mode != .wasi then (s, .done (.error .notWasi))
      else ({ s with fresh := s.fresh + 1 }, .enqueue (newJob streaming component request s.fresh))
  | .approve id => (s, .approve id)
  | .deny id => (s, .deny id)
  | .cancel id => (s, .cancel id)

def callStep (config : Config) (call : ℕ) (s : BrokerState) : CallPc → Option (BrokerState × CallPc)
  | .enqueue job =>
    if s.handles.entries.length ≥ config.capacity then some (s, .done (.error .queueFull))
    else some ({ s with
      handles := s.handles.insert job.id job.key
      history := .registered job :: s.history }, .push job)
  | .push job =>
    if s.served then
      some ({ s with
        queue := s.queue ++ [job]
        channels := Function.update s.channels job.key { s.channels job.key with handed := true }
        history := .enqueued job :: s.history }, .done (.ok ()))
    else some (s, .unregister job.id)
  | .unregister id => some (s.release id, .done (.error .workerStopped))
  | .approve id =>
    match s.pending.lookup id with
    | none => some (s, .done (.error (.notPendingApproval id)))
    | some parked => some (s.take (.approve call) id parked.job, .checkCancelled id parked.job)
  | .checkCancelled id job =>
    if s.isCancelled id then
      some (s.log (.sawCancelled job), .closing (job.close id .cancelled .cancelled .cancelled))
    else some (s, .requeue id job.admit)
  | .requeue id job =>
    if s.served then some ({ s with queue := s.queue ++ [job] }, .done (.ok ()))
    else some (s.log (.stranded job), .unregister id)
  | .deny id =>
    match s.pending.lookup id with
    | none => some (s, .done (.error (.notPendingApproval id)))
    | some parked =>
      some (s.take (.deny call) id parked.job, .closing (parked.job.close id .denied .denied .denied))
  | .cancel id =>
    match s.pending.lookup id with
    | none => some (s, .lookup id)
    | some parked =>
      some (s.take (.cancel call) id parked.job,
        .closing (parked.job.close id .cancelled .cancelled .cancelled))
  | .lookup id =>
    match s.handles.lookup id with
    | none => some (s, .done (.error (.unknownSession id)))
    | some cell => some (s, .setFlag cell)
  | .setFlag cell =>
    some ({ s with
      flags := Function.update s.flags cell true
      history := .flagged cell :: s.history }, .done (.ok ()))
  | .closing closing =>
    match closing.step s with
    | (s, some next) => some (s, .closing next)
    | (s, none) => some (s, .done (.ok ()))
  | .done _ => none

/-- The worker's next step; the steps inside the runtime are `runtimeStep`. -/
def workerStep (config : Config) (s : BrokerState) : WorkerPc → Option (BrokerState × WorkerPc)
  | .idle =>
    match s.queue with
    | job :: rest => some ({ s with queue := rest }, .lookup job)
    | [] => if s.queueOpen then none else some ({ s with served := false }, .exited)
  | .lookup job =>
    match s.handles.lookup job.id with
    | none => some (s.log (.missing job), .missing job)
    | some cell =>
      match classifyRisk job.request, job.admission with
      | .requiresApproval _, .approved => some (s.log (.executed job), .begin job cell)
      | .autoApprove, _ => some (s.log (.executed job), .begin job cell)
      | .requiresApproval reason, _ =>
        some (s, .deadline (job.withSession (job.session.acceptIgnored (.pendingApproval reason))) reason)
  | .missing job =>
    some (s.send job.key (terminalMessage job.sink
      (.deniedWith (.invalidTransition "session handle disappeared before start"))),
      .missingRelease job.id)
  | .missingRelease id => some (s.release id, .idle)
  | .begin job cell =>
    if s.flags cell then some (s, .closing (job.conclude (concludeCancelled job.sink)))
    else match job.session.accept .started with
      | .error _ => some (s, .closing (job.conclude (concludeUnstartable job.sink)))
      | .ok session =>
        match job.sink with
        | .events _ => some (s, .announce (job.withSession session) cell)
        | .outcome _ => some (s.log (.invoked job.key),
            .running (job.withSession session) cell (.start .inner job.component job.request true))
  | .announce job cell =>
    some ((s.send job.key (.event .started)).log (.invoked job.key),
      .running job cell (.start .events job.component job.request true))
  | .running job _ run =>
    match run.phase with
    | .returned result => some (s, .closing (job.conclude (conclude job.sink result)))
    | _ => none
  | .closing closing =>
    match closing.step s with
    | (s, some next) => some (s, .closing next)
    | (s, none) => some (s, .idle)
  | .deadline job reason =>
    -- `Instant::now() + approval_timeout` panics when the instant does not exist
    if s.now + config.approvalTimeout > config.instantMax then
      some (s.log (.panicked job), .closing job.panic)
    else some (s, .park job (s.now + config.approvalTimeout) reason)
  | .park job deadline reason =>
    some ({ s with
      pending := s.pending.insert job.id ⟨job, deadline⟩
      history := .parked job :: (displacement (s.pending.lookup job.id) ++ s.history) },
      .notify job.sink job.id reason)
  | .notify sink id reason =>
    some (s.send sink.channel (approvalMessage sink reason),
      if s.dropped.contains sink.channel then .cleanupPending id else .idle)
  | .cleanupPending id =>
    match s.pending.lookup id with
    | none => some (s, .cleanupHandles id)
    | some parked => some ({ s with
        pending := s.pending.erase id
        history := .discarded parked.job :: s.history }, .cleanupHandles id)
  | .cleanupHandles id => some (s.release id, .idle)
  | .exited => none

def BrokerState.emit (s : BrokerState) (key : ℕ) : Option SessionEvent → BrokerState
  | none => s
  | some event => s.send key (.event event)

/-- A step of the run the worker called, by the worker or by the run's watcher. -/
def runtimeStep (s : BrokerState) (act : RunAct) : WorkerPc → Option (BrokerState × WorkerPc)
  | .running job cell run =>
    (run.step (s.flags cell) s.epoch act).map (fun effect =>
      (BrokerState.emit { s with epoch := effect.epoch } job.key effect.event,
        .running job cell effect.run))
  | _ => none

/-- A panic inside the runtime reaches `process_job_guarded`; the watcher stays behind. -/
def unwindStep (s : BrokerState) : WorkerPc → Option (BrokerState × WorkerPc × Stray)
  | .running job cell run =>
    match run.phase with
    | .returned _ => none
    | _ => some (s.log (.panicked job), .closing job.panic, ⟨job.key, cell, run.unwind⟩)
  | _ => none

def strayStep (s : BrokerState) (elapsed : Bool) (stray : Stray) : Option (BrokerState × Stray) :=
  (stray.run.step (s.flags stray.cell) s.epoch (.watch elapsed)).map (fun effect =>
    (BrokerState.emit { s with epoch := effect.epoch } stray.key effect.event,
      { stray with run := effect.run }))

def BrokerState.expired (s : BrokerState) : List ℕ :=
  (s.pending.entries.filter (fun entry => decide (entry.2.deadline ≤ s.now))).map (fun entry => entry.1)

/-- The sweeper's next step; `order` is the order in which the map yields its entries. -/
def sweeperStep (s : BrokerState) (order : List ℕ) : SweeperPc → Option (BrokerState × SweeperPc)
  | .head => some (s, if s.stopped then .exited else .asleep)
  | .asleep => if order.isPerm s.expired then some (s, .sweeping order) else none
  | .sweeping [] => some (s, .head)
  | .sweeping (id :: rest) =>
    match s.pending.lookup id with
    | none => some (s, .sweeping rest)
    | some parked =>
      some (s.take .sweeper id parked.job,
        .closing (parked.job.close id .denied .timedOut .denied) rest)
  | .closing closing rest =>
    match closing.step s with
    | (s, some next) => some (s, .closing next rest)
    | (s, none) => some (s, .sweeping rest)
  | .exited => none

def WorkerPc.isIdle : WorkerPc → Bool
  | .idle => true
  | _ => false

def WorkerPc.isExited : WorkerPc → Bool
  | .exited => true
  | _ => false

def SweeperPc.isExited : SweeperPc → Bool
  | .exited => true
  | _ => false

def SweeperPc.isClosing : SweeperPc → Bool
  | .closing _ _ => true
  | _ => false

def CallPc.isDone : CallPc → Bool
  | .done _ => true
  | _ => false

def dropStep (b : ActionBroker) : Option (BrokerState × DropPc) :=
  match b.drop with
  | .stop => some ({ b.state with stopped := true }, .cancelAll)
  | .cancelAll => some ({ b.state with
      flags := fun cell =>
        b.state.flags cell || b.state.handles.entries.any (fun entry => entry.2 == cell) }, .closeQueue)
  | .closeQueue => some ({ b.state with queueOpen := false }, .joinWorker)
  | .joinWorker => if b.worker.isExited then some (b.state, .joinSweeper) else none
  | .joinSweeper => if b.sweeper.isExited then some (b.state, .dropped) else none
  | _ => none

inductive Act
  /-- some thread calls the interface -/
  | call (request : Request)
  /-- the call with this number takes its next step -/
  | proceed (call : ℕ)
  | worker
  | runtime (act : RunAct)
  | unwind
  | stray (index : ℕ) (elapsed : Bool)
  | sweeper (order : List ℕ)
  | receive (key : ℕ)
  | dropReceiver (key : ℕ)
  | tick (elapsed : ℕ)
  | drop
  | dropStep

def receiverStep (s : BrokerState) (key : ℕ) (drops : Bool) : Option BrokerState :=
  let channel := s.channels key
  if channel.handed && !s.dropped.contains key then
    if drops then some { s with dropped := key :: s.dropped }
    else match channel.messages with
      | [] => none
      | message :: rest => some { s with
          channels := Function.update s.channels key { channel with messages := rest }
          history := .received key message :: s.history }
  else none

def step (config : Config) (b : ActionBroker) : Act → Option ActionBroker
  | .call request =>
    if b.drop = .undropped then
      some { b with
        state := (enter b.state request).1
        calls := b.calls ++ [(enter b.state request).2] }
    else none
  | .proceed call =>
    (b.calls[call]?).bind (fun pc => (callStep config call b.state pc).map (fun next =>
      { b with state := next.1, calls := b.calls.set call next.2 }))
  | .worker => (workerStep config b.state b.worker).map (fun next =>
      { b with state := next.1, worker := next.2 })
  | .runtime act => (runtimeStep b.state act b.worker).map (fun next =>
      { b with state := next.1, worker := next.2 })
  | .unwind => (unwindStep b.state b.worker).map (fun next =>
      { b with state := next.1, worker := next.2.1, strays := b.strays ++ [next.2.2] })
  | .stray index elapsed =>
    (b.strays[index]?).bind (fun stray => (strayStep b.state elapsed stray).map (fun next =>
      { b with state := next.1, strays := b.strays.set index next.2 }))
  | .sweeper order => (sweeperStep b.state order b.sweeper).map (fun next =>
      { b with state := next.1, sweeper := next.2 })
  | .receive key => (receiverStep b.state key false).map (fun next => { b with state := next })
  | .dropReceiver key => (receiverStep b.state key true).map (fun next => { b with state := next })
  | .tick elapsed => some { b with state := { b.state with now := b.state.now + elapsed } }
  | .drop =>
    -- `drop` has the broker to itself: no call is in progress
    if b.drop = .undropped ∧ b.calls.all CallPc.isDone then some { b with drop := .stop } else none
  | .dropStep => (dropStep b).map (fun next => { b with state := next.1, drop := next.2 })

def system (config : Config) : System ActionBroker Act := ⟨.initial, step config⟩

/-- A broker for four sessions, which waits ten units of time for an approval. -/
def sampleConfig : Config := ⟨4, 10, 100, by decide⟩

def submission (call id : ℕ) (streaming : Bool) (access : FilesystemAccess) : List Act :=
  [.call (.submit streaming ⟨false⟩ (sampleRequest id access defaultLimits)), .proceed call, .proceed call]

def parking : List Act := List.replicate 4 .worker

/-- Case analysis of a step by the thread that takes it. -/
theorem step_elim {config : Config} {b t : ActionBroker} {act : Act} {P : ActionBroker → Prop}
    (he : step config b act = some t)
    (call : ∀ request, b.drop = .undropped →
      P { b with
        state := (enter b.state request).1
        calls := b.calls ++ [(enter b.state request).2] })
    (proceed : ∀ n pc next, act = .proceed n → b.calls[n]? = some pc →
      callStep config n b.state pc = some next →
      P { b with state := next.1, calls := b.calls.set n next.2 })
    (worker : ∀ next, act = .worker → workerStep config b.state b.worker = some next →
      P { b with state := next.1, worker := next.2 })
    (runtime : ∀ a next, act = .runtime a → runtimeStep b.state a b.worker = some next →
      P { b with state := next.1, worker := next.2 })
    (unwind : ∀ next, act = .unwind → unwindStep b.state b.worker = some next →
      P { b with state := next.1, worker := next.2.1, strays := b.strays ++ [next.2.2] })
    (stray : ∀ index elapsed stray next, act = .stray index elapsed →
      b.strays[index]? = some stray → strayStep b.state elapsed stray = some next →
      P { b with state := next.1, strays := b.strays.set index next.2 })
    (sweeper : ∀ order next, act = .sweeper order → sweeperStep b.state order b.sweeper = some next →
      P { b with state := next.1, sweeper := next.2 })
    (receiver : ∀ key drops next, receiverStep b.state key drops = some next →
      P { b with state := next })
    (tick : ∀ elapsed, P { b with state := { b.state with now := b.state.now + elapsed } })
    (drop : b.drop = .undropped → b.calls.all CallPc.isDone = true → P { b with drop := .stop })
    (dropping : ∀ next, dropStep b = some next → P { b with state := next.1, drop := next.2 }) :
    P t := by
  cases act with
  | call request =>
    simp only [step, Option.ite_none_right_eq_some, Option.some.injEq] at he
    obtain ⟨hd, rfl⟩ := he
    exact call request hd
  | proceed n =>
    obtain ⟨pc, hpc, he⟩ := Option.bind_eq_some_iff.mp he
    obtain ⟨next, hn, rfl⟩ := Option.map_eq_some_iff.mp he
    exact proceed n pc next rfl hpc hn
  | worker =>
    obtain ⟨next, hn, rfl⟩ := Option.map_eq_some_iff.mp he
    exact worker next rfl hn
  | runtime a =>
    obtain ⟨next, hn, rfl⟩ := Option.map_eq_some_iff.mp he
    exact runtime a next rfl hn
  | unwind =>
    obtain ⟨next, hn, rfl⟩ := Option.map_eq_some_iff.mp he
    exact unwind next rfl hn
  | stray index elapsed =>
    obtain ⟨s, hs, he⟩ := Option.bind_eq_some_iff.mp he
    obtain ⟨next, hn, rfl⟩ := Option.map_eq_some_iff.mp he
    exact stray index elapsed s next rfl hs hn
  | sweeper order =>
    obtain ⟨next, hn, rfl⟩ := Option.map_eq_some_iff.mp he
    exact sweeper order next rfl hn
  | receive key =>
    obtain ⟨next, hn, rfl⟩ := Option.map_eq_some_iff.mp he
    exact receiver key false next hn
  | dropReceiver key =>
    obtain ⟨next, hn, rfl⟩ := Option.map_eq_some_iff.mp he
    exact receiver key true next hn
  | tick elapsed =>
    cases he
    exact tick elapsed
  | drop =>
    simp only [step, Option.ite_none_right_eq_some, Option.some.injEq] at he
    obtain ⟨⟨hd, hc⟩, rfl⟩ := he
    exact drop hd hc
  | dropStep =>
    obtain ⟨next, hn, rfl⟩ := Option.map_eq_some_iff.mp he
    exact dropping next hn

end FerrousRuntime.Broker
