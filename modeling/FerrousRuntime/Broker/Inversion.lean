import FerrousRuntime.Broker.Step

/-! # What a step of each thread can do

The branches of the step functions as rules, one for each way a thread can go on. A fact
about every step of a thread is a case analysis over its rules.
-/
namespace FerrousRuntime.Broker
open Capability Command Policy FerrousRuntime.Runtime

inductive Request.Enters (s : BrokerState) : Request → BrokerState × CallPc → Prop
  | invalid (streaming : Bool) (component : Component) (request : CommandRequest) (error : CommandError) :
    request.validate = .error error →
    Enters s (.submit streaming component request) (s, .done (.error (.invalidRequest error)))
  | notWasi (streaming : Bool) (component : Component) (request : CommandRequest) : request.mode ≠ .wasi →
    Enters s (.submit streaming component request) (s, .done (.error .notWasi))
  | submitted (streaming : Bool) (component : Component) (request : CommandRequest) :
    request.validate = .ok () → request.mode = .wasi →
    Enters s (.submit streaming component request)
      ({ s with fresh := s.fresh + 1 }, .enqueue (newJob streaming component request s.fresh))
  | approving (id : ℕ) : Enters s (.approve id) (s, .approve id)
  | denying (id : ℕ) : Enters s (.deny id) (s, .deny id)
  | cancelling (id : ℕ) : Enters s (.cancel id) (s, .cancel id)

inductive CallPc.Steps (config : Config) (n : ℕ) (s : BrokerState) :
    CallPc → BrokerState × CallPc → Prop
  | refused (job : Job) : config.capacity ≤ s.handles.entries.length →
    Steps config n s (.enqueue job) (s, .done (.error .queueFull))
  | registered (job : Job) : s.handles.entries.length < config.capacity →
    Steps config n s (.enqueue job) ({ s with
      handles := s.handles.insert job.id job.key
      history := .registered job :: s.history }, .push job)
  | enqueued (job : Job) : s.served = true →
    Steps config n s (.push job) ({ s with
      queue := s.queue ++ [job]
      channels := Function.update s.channels job.key { s.channels job.key with handed := true }
      history := .enqueued job :: s.history }, .done (.ok ()))
  | unserved (job : Job) : s.served = false → Steps config n s (.push job) (s, .unregister job.id)
  | unregistered (id : ℕ) :
    Steps config n s (.unregister id) (s.release id, .done (.error .workerStopped))
  | approveMissed (id : ℕ) : s.pending.lookup id = none →
    Steps config n s (.approve id) (s, .done (.error (.notPendingApproval id)))
  | approved (id : ℕ) (parked : PendingJob) : s.pending.lookup id = some parked →
    Steps config n s (.approve id) (s.take (.approve n) id parked.job, .checkCancelled id parked.job)
  | sawCancelled (id : ℕ) (job : Job) : s.isCancelled id = true →
    Steps config n s (.checkCancelled id job)
      (s.log (.sawCancelled job), .closing (job.close id .cancelled .cancelled .cancelled))
  | admitted (id : ℕ) (job : Job) : s.isCancelled id = false →
    Steps config n s (.checkCancelled id job) (s, .requeue id job.admit)
  | requeued (id : ℕ) (job : Job) : s.served = true →
    Steps config n s (.requeue id job) ({ s with queue := s.queue ++ [job] }, .done (.ok ()))
  | stranded (id : ℕ) (job : Job) : s.served = false →
    Steps config n s (.requeue id job) (s.log (.stranded job), .unregister id)
  | denyMissed (id : ℕ) : s.pending.lookup id = none →
    Steps config n s (.deny id) (s, .done (.error (.notPendingApproval id)))
  | denied (id : ℕ) (parked : PendingJob) : s.pending.lookup id = some parked →
    Steps config n s (.deny id)
      (s.take (.deny n) id parked.job, .closing (parked.job.close id .denied .denied .denied))
  | cancelMissed (id : ℕ) : s.pending.lookup id = none →
    Steps config n s (.cancel id) (s, .lookup id)
  | cancelled (id : ℕ) (parked : PendingJob) : s.pending.lookup id = some parked →
    Steps config n s (.cancel id)
      (s.take (.cancel n) id parked.job, .closing (parked.job.close id .cancelled .cancelled .cancelled))
  | unknown (id : ℕ) : s.handles.lookup id = none →
    Steps config n s (.lookup id) (s, .done (.error (.unknownSession id)))
  | found (id cell : ℕ) : s.handles.lookup id = some cell →
    Steps config n s (.lookup id) (s, .setFlag cell)
  | flagged (cell : ℕ) : Steps config n s (.setFlag cell) ({ s with
      flags := Function.update s.flags cell true
      history := .flagged cell :: s.history }, .done (.ok ()))
  | closing (c d : Closing) (t : BrokerState) : c.step s = (t, some d) →
    Steps config n s (.closing c) (t, .closing d)
  | closed (c : Closing) (t : BrokerState) : c.step s = (t, none) →
    Steps config n s (.closing c) (t, .done (.ok ()))

/-- The steps of the worker outside the runtime. -/
inductive WorkerPc.Steps (config : Config) (s : BrokerState) : WorkerPc → BrokerState × WorkerPc → Prop
  | popped (job : Job) (rest : List Job) : s.queue = job :: rest →
    Steps config s .idle ({ s with queue := rest }, .lookup job)
  | exited : s.queue = [] → s.queueOpen = false →
    Steps config s .idle ({ s with served := false }, .exited)
  | missing (job : Job) : s.handles.lookup job.id = none →
    Steps config s (.lookup job) (s.log (.missing job), .missing job)
  | executed (job : Job) (cell : ℕ) : s.handles.lookup job.id = some cell →
    (job.admission = .approved ∨ ¬ Risky job.request) →
    Steps config s (.lookup job) (s.log (.executed job), .begin job cell)
  | deferred (job : Job) (cell : ℕ) (reason : ApprovalReason) : s.handles.lookup job.id = some cell →
    classifyRisk job.request = .requiresApproval reason → job.admission ≠ .approved →
    Steps config s (.lookup job)
      (s, .deadline (job.withSession (job.session.acceptIgnored (.pendingApproval reason))) reason)
  | denied (job : Job) : Steps config s (.missing job) (s.send job.key (terminalMessage job.sink
      (.deniedWith (.invalidTransition "session handle disappeared before start"))), .missingRelease job.id)
  | forgotten (id : ℕ) : Steps config s (.missingRelease id) (s.release id, .idle)
  | cancelled (job : Job) (cell : ℕ) : s.flags cell = true →
    Steps config s (.begin job cell) (s, .closing (job.conclude (concludeCancelled job.sink)))
  | unstartable (job : Job) (cell : ℕ) (error : CommandError) : s.flags cell = false →
    job.session.accept .started = .error error →
    Steps config s (.begin job cell) (s, .closing (job.conclude (concludeUnstartable job.sink)))
  | announced (job : Job) (cell channel : ℕ) (session : SessionState) : s.flags cell = false →
    job.session.accept .started = .ok session → job.sink = .events channel →
    Steps config s (.begin job cell) (s, .announce (job.withSession session) cell)
  | invoked (job : Job) (cell channel : ℕ) (session : SessionState) : s.flags cell = false →
    job.session.accept .started = .ok session → job.sink = .outcome channel →
    Steps config s (.begin job cell) (s.log (.invoked job.key),
      .running (job.withSession session) cell (.start .inner job.component job.request true))
  | started (job : Job) (cell : ℕ) : Steps config s (.announce job cell)
      ((s.send job.key (.event .started)).log (.invoked job.key),
        .running job cell (.start .events job.component job.request true))
  | returned (job : Job) (cell : ℕ) (run : WasiRun) (result : Except RuntimeError WasiOutput) :
    run.phase = .returned result →
    Steps config s (.running job cell run) (s, .closing (job.conclude (conclude job.sink result)))
  | closing (c d : Closing) (t : BrokerState) : c.step s = (t, some d) →
    Steps config s (.closing c) (t, .closing d)
  | closed (c : Closing) (t : BrokerState) : c.step s = (t, none) →
    Steps config s (.closing c) (t, .idle)
  | panicked (job : Job) (reason : ApprovalReason) : config.instantMax < s.now + config.approvalTimeout →
    Steps config s (.deadline job reason) (s.log (.panicked job), .closing job.panic)
  | timed (job : Job) (reason : ApprovalReason) : s.now + config.approvalTimeout ≤ config.instantMax →
    Steps config s (.deadline job reason) (s, .park job (s.now + config.approvalTimeout) reason)
  | parked (job : Job) (deadline : ℕ) (reason : ApprovalReason) :
    Steps config s (.park job deadline reason) ({ s with
      pending := s.pending.insert job.id ⟨job, deadline⟩
      history := .parked job :: (displacement (s.pending.lookup job.id) ++ s.history) },
      .notify job.sink job.id reason)
  | notified (sink : JobSink) (id : ℕ) (reason : ApprovalReason) : s.dropped.contains sink.channel = false →
    Steps config s (.notify sink id reason) (s.send sink.channel (approvalMessage sink reason), .idle)
  | unnotified (sink : JobSink) (id : ℕ) (reason : ApprovalReason) : s.dropped.contains sink.channel = true →
    Steps config s (.notify sink id reason)
      (s.send sink.channel (approvalMessage sink reason), .cleanupPending id)
  | gone (id : ℕ) : s.pending.lookup id = none →
    Steps config s (.cleanupPending id) (s, .cleanupHandles id)
  | discarded (id : ℕ) (parked : PendingJob) : s.pending.lookup id = some parked →
    Steps config s (.cleanupPending id) ({ s with
      pending := s.pending.erase id
      history := .discarded parked.job :: s.history }, .cleanupHandles id)
  | released (id : ℕ) : Steps config s (.cleanupHandles id) (s.release id, .idle)

inductive SweeperPc.Steps (s : BrokerState) (order : List ℕ) :
    SweeperPc → BrokerState × SweeperPc → Prop
  | stopped : s.stopped = true → Steps s order .head (s, .exited)
  | slept : s.stopped = false → Steps s order .head (s, .asleep)
  | woke : order.isPerm s.expired = true → Steps s order .asleep (s, .sweeping order)
  | swept : Steps s order (.sweeping []) (s, .head)
  | missed (id : ℕ) (rest : List ℕ) : s.pending.lookup id = none →
    Steps s order (.sweeping (id :: rest)) (s, .sweeping rest)
  | took (id : ℕ) (rest : List ℕ) (parked : PendingJob) : s.pending.lookup id = some parked →
    Steps s order (.sweeping (id :: rest)) (s.take .sweeper id parked.job,
      .closing (parked.job.close id .denied .timedOut .denied) rest)
  | closing (c d : Closing) (rest : List ℕ) (t : BrokerState) : c.step s = (t, some d) →
    Steps s order (.closing c rest) (t, .closing d rest)
  | closed (c : Closing) (rest : List ℕ) (t : BrokerState) : c.step s = (t, none) →
    Steps s order (.closing c rest) (t, .sweeping rest)

inductive Receives (s : BrokerState) (key : ℕ) : Bool → BrokerState → Prop
  | dropped : Receives s key true { s with dropped := key :: s.dropped }
  | received (message : Message) (rest : List Message) : (s.channels key).messages = message :: rest →
    Receives s key false { s with
      channels := Function.update s.channels key { s.channels key with messages := rest }
      history := .received key message :: s.history }

inductive Drops (b : ActionBroker) : BrokerState × DropPc → Prop
  | stopped : b.drop = .stop → Drops b ({ b.state with stopped := true }, .cancelAll)
  | cancelledAll : b.drop = .cancelAll → Drops b ({ b.state with
      flags := fun cell =>
        b.state.flags cell || b.state.handles.entries.any (fun entry => entry.2 == cell) }, .closeQueue)
  | closedQueue : b.drop = .closeQueue → Drops b ({ b.state with queueOpen := false }, .joinWorker)
  | joinedWorker : b.drop = .joinWorker → b.worker = .exited → Drops b (b.state, .joinSweeper)
  | joinedSweeper : b.drop = .joinSweeper → b.sweeper = .exited → Drops b (b.state, .dropped)

section Threads
variable {config : Config} {s : BrokerState}

theorem enter_cases (s : BrokerState) (request : Request) : request.Enters s (enter s request) := by
  cases request with
  | submit streaming component request =>
    simp only [enter]
    split
    · rename_i error hinvalid
      exact .invalid streaming component request error hinvalid
    · rename_i hvalid
      split <;> rename_i hmode
      · exact .notWasi streaming component request (by simpa using hmode)
      · exact .submitted streaming component request hvalid (by simpa using hmode)
  | approve id => exact .approving id
  | deny id => exact .denying id
  | cancel id => exact .cancelling id

theorem callStep_cases {n : ℕ} {pc : CallPc} {next : BrokerState × CallPc}
    (he : callStep config n s pc = some next) : pc.Steps config n s next := by
  cases pc with
  | enqueue job =>
    simp only [callStep] at he
    split at he <;> rename_i hfull <;> cases he
    · exact .refused job hfull
    · exact .registered job (Nat.not_le.mp hfull)
  | push job =>
    simp only [callStep] at he
    split at he <;> rename_i hserved <;> cases he
    · exact .enqueued job hserved
    · exact .unserved job (Bool.not_eq_true _ ▸ hserved)
  | unregister id =>
    cases he
    exact .unregistered id
  | approve id =>
    simp only [callStep] at he
    split at he <;> rename_i hl <;> cases he
    · exact .approveMissed id hl
    · exact .approved id _ hl
  | checkCancelled id job =>
    simp only [callStep] at he
    split at he <;> rename_i hc <;> cases he
    · exact .sawCancelled id job hc
    · exact .admitted id job (Bool.not_eq_true _ ▸ hc)
  | requeue id job =>
    simp only [callStep] at he
    split at he <;> rename_i hserved <;> cases he
    · exact .requeued id job hserved
    · exact .stranded id job (Bool.not_eq_true _ ▸ hserved)
  | deny id =>
    simp only [callStep] at he
    split at he <;> rename_i hl <;> cases he
    · exact .denyMissed id hl
    · exact .denied id _ hl
  | cancel id =>
    simp only [callStep] at he
    split at he <;> rename_i hl <;> cases he
    · exact .cancelMissed id hl
    · exact .cancelled id _ hl
  | lookup id =>
    simp only [callStep] at he
    split at he <;> rename_i hl <;> cases he
    · exact .unknown id hl
    · exact .found id _ hl
  | setFlag cell =>
    cases he
    exact .flagged cell
  | closing c =>
    simp only [callStep] at he
    split at he <;> rename_i hs <;> cases he
    · exact .closing c _ _ hs
    · exact .closed c _ hs
  | done result => cases he

theorem workerStep_cases {pc : WorkerPc} {next : BrokerState × WorkerPc}
    (he : workerStep config s pc = some next) : pc.Steps config s next := by
  cases pc with
  | idle =>
    simp only [workerStep] at he
    split at he
    · rename_i hq
      cases he
      exact .popped _ _ hq
    · rename_i hq
      split at he <;> rename_i hopen <;> cases he
      exact .exited hq (Bool.not_eq_true _ ▸ hopen)
  | lookup job =>
    simp only [workerStep] at he
    split at he
    · rename_i hl
      cases he
      exact .missing job hl
    · rename_i cell hl
      split at he
      · rename_i ha
        cases he
        exact .executed job cell hl (Or.inl ha)
      · rename_i hrisk
        cases he
        refine .executed job cell hl (Or.inr ?_)
        rintro ⟨reason, hreason⟩
        cases hrisk.symm.trans hreason
      · rename_i reason hrisk ha
        cases he
        exact .deferred job cell reason hl hrisk ha
  | missing job =>
    cases he
    exact .denied job
  | missingRelease id =>
    cases he
    exact .forgotten id
  | begin job cell =>
    simp only [workerStep] at he
    split at he
    · rename_i hflag
      cases he
      exact .cancelled job cell hflag
    · rename_i hflag
      have hflag := Bool.not_eq_true _ ▸ hflag
      split at he
      · rename_i error haccept
        cases he
        exact .unstartable job cell error hflag haccept
      · rename_i session haccept
        split at he <;> rename_i channel hsink <;> cases he
        · exact .announced job cell channel session hflag haccept hsink
        · exact .invoked job cell channel session hflag haccept hsink
  | announce job cell =>
    cases he
    exact .started job cell
  | running job cell run =>
    simp only [workerStep] at he
    split at he <;> rename_i hphase <;> cases he
    exact .returned job cell run _ hphase
  | closing c =>
    simp only [workerStep] at he
    split at he <;> rename_i hs <;> cases he
    · exact .closing c _ _ hs
    · exact .closed c _ hs
  | deadline job reason =>
    simp only [workerStep] at he
    split at he <;> rename_i hlate <;> cases he
    · exact .panicked job reason hlate
    · exact .timed job reason (Nat.not_lt.mp hlate)
  | park job deadline reason =>
    cases he
    exact .parked job deadline reason
  | notify sink id reason =>
    cases he
    split <;> rename_i hdropped
    · exact .unnotified sink id reason hdropped
    · exact .notified sink id reason (Bool.not_eq_true _ ▸ hdropped)
  | cleanupPending id =>
    simp only [workerStep] at he
    split at he <;> rename_i hl <;> cases he
    · exact .gone id hl
    · exact .discarded id _ hl
  | cleanupHandles id =>
    cases he
    exact .released id
  | exited => cases he

theorem sweeperStep_cases {order : List ℕ} {pc : SweeperPc} {next : BrokerState × SweeperPc}
    (he : sweeperStep s order pc = some next) : pc.Steps s order next := by
  cases pc with
  | head =>
    cases he
    split <;> rename_i hstopped
    · exact .stopped hstopped
    · exact .slept (Bool.not_eq_true _ ▸ hstopped)
  | asleep =>
    simp only [sweeperStep, Option.ite_none_right_eq_some, Option.some.injEq] at he
    obtain ⟨horder, rfl⟩ := he
    exact .woke horder
  | sweeping expired =>
    cases expired with
    | nil =>
      cases he
      exact .swept
    | cons id rest =>
      simp only [sweeperStep] at he
      split at he <;> rename_i hl <;> cases he
      · exact .missed id rest hl
      · exact .took id rest _ hl
  | closing c rest =>
    simp only [sweeperStep] at he
    split at he <;> rename_i hs <;> cases he
    · exact .closing c _ rest _ hs
    · exact .closed c rest _ hs
  | exited => cases he

theorem runtimeStep_cases {act : RunAct} {pc : WorkerPc} {next : BrokerState × WorkerPc}
    (he : runtimeStep s act pc = some next) : ∃ job cell run effect, pc = .running job cell run ∧
      run.step (s.flags cell) s.epoch act = some effect ∧
        next = (BrokerState.emit { s with epoch := effect.epoch } job.key effect.event,
          .running job cell effect.run) := by
  cases pc with
  | running job cell run =>
    obtain ⟨effect, hstep, hnext⟩ := Option.map_eq_some_iff.mp he
    exact ⟨job, cell, run, effect, rfl, hstep, hnext.symm⟩
  | _ => cases he

theorem unwindStep_cases {pc : WorkerPc} {next : BrokerState × WorkerPc × Stray}
    (he : unwindStep s pc = some next) : ∃ job cell run, pc = .running job cell run ∧
      (∀ result, run.phase ≠ .returned result) ∧
        next = (s.log (.panicked job), .closing job.panic, ⟨job.key, cell, run.unwind⟩) := by
  cases pc with
  | running job cell run =>
    simp only [unwindStep] at he
    split at he <;> rename_i hphase <;> cases he
    exact ⟨job, cell, run, rfl, hphase, rfl⟩
  | _ => cases he

theorem receiverStep_cases {key : ℕ} {drops : Bool} {next : BrokerState}
    (he : receiverStep s key drops = some next) : Receives s key drops next := by
  unfold receiverStep at he
  dsimp only at he
  split at he
  · split at he
    · rename_i hdrops
      subst hdrops
      cases he
      exact .dropped
    · rename_i hdrops
      cases Bool.not_eq_true _ ▸ hdrops
      split at he <;> rename_i hm <;> cases he
      exact .received _ _ hm
  · cases he

theorem dropStep_cases {b : ActionBroker} {next : BrokerState × DropPc} (he : dropStep b = some next) :
    Drops b next := by
  unfold dropStep at he
  split at he <;> rename_i hdrop
  · cases he
    exact .stopped hdrop
  · cases he
    exact .cancelledAll hdrop
  · cases he
    exact .closedQueue hdrop
  · split at he <;> rename_i hexited <;> cases he
    refine .joinedWorker hdrop ?_
    cases hw : b.worker with
    | exited => rfl
    | _ => rw [hw] at hexited; cases hexited
  · split at he <;> rename_i hexited <;> cases he
    refine .joinedSweeper hdrop ?_
    cases hs : b.sweeper with
    | exited => rfl
    | _ => rw [hs] at hexited; cases hexited
  · cases he

/-- The clock and the numbering of channels only go forward. -/
structure Forward (s t : BrokerState) : Prop where
  now : s.now ≤ t.now
  fresh : s.fresh ≤ t.fresh

theorem Forward.refl (s : BrokerState) : Forward s s := ⟨le_rfl, le_rfl⟩

theorem Closing.step_forward (s : BrokerState) (closing : Closing) : Forward s (closing.step s).1 := by
  unfold Closing.step
  split <;> exact ⟨le_rfl, le_rfl⟩

theorem emit_forward (s : BrokerState) (epoch key : ℕ) (event : Option SessionEvent) :
    Forward s (BrokerState.emit { s with epoch := epoch } key event) := by
  cases event <;> exact ⟨le_rfl, le_rfl⟩

theorem enter_forward (s : BrokerState) (request : Request) : Forward s (enter s request).1 := by
  have hn := enter_cases s request
  generalize enter s request = next at hn ⊢
  cases hn with
  | submitted => exact ⟨le_rfl, Nat.le_succ _⟩
  | _ => exact .refl s

theorem callStep_forward {n : ℕ} {pc : CallPc} {next : BrokerState × CallPc}
    (he : callStep config n s pc = some next) : Forward s next.1 := by
  cases callStep_cases he with
  | closing c _ _ hs | closed c _ hs =>
    have hc := Closing.step_forward s c
    rw [hs] at hc
    exact hc
  | _ => exact ⟨le_rfl, le_rfl⟩

theorem workerStep_forward {pc : WorkerPc} {next : BrokerState × WorkerPc}
    (he : workerStep config s pc = some next) : Forward s next.1 := by
  cases workerStep_cases he with
  | closing c _ _ hs | closed c _ hs =>
    have hc := Closing.step_forward s c
    rw [hs] at hc
    exact hc
  | _ => exact ⟨le_rfl, le_rfl⟩

theorem sweeperStep_forward {order : List ℕ} {pc : SweeperPc} {next : BrokerState × SweeperPc}
    (he : sweeperStep s order pc = some next) : Forward s next.1 := by
  cases sweeperStep_cases he with
  | closing c _ _ _ hs | closed c _ _ hs =>
    have hc := Closing.step_forward s c
    rw [hs] at hc
    exact hc
  | _ => exact ⟨le_rfl, le_rfl⟩

theorem step_forward {b t : ActionBroker} {act : Act} (he : step config b act = some t) :
    Forward b.state t.state := by
  apply step_elim (P := fun t => Forward b.state t.state) he
  case call => exact fun request _ => enter_forward b.state request
  case proceed => exact fun n pc next _ _ hn => callStep_forward hn
  case worker => exact fun next _ hn => workerStep_forward hn
  case runtime =>
    intro a next _ hn
    obtain ⟨job, cell, run, effect, -, -, rfl⟩ := runtimeStep_cases hn
    exact emit_forward b.state effect.epoch job.key effect.event
  case unwind =>
    intro next _ hn
    obtain ⟨job, cell, run, -, -, rfl⟩ := unwindStep_cases hn
    exact ⟨le_rfl, le_rfl⟩
  case stray =>
    intro index elapsed stray next _ _ hn
    obtain ⟨effect, -, rfl⟩ := Option.map_eq_some_iff.mp hn
    exact emit_forward b.state effect.epoch stray.key effect.event
  case sweeper => exact fun order next _ hn => sweeperStep_forward hn
  case receiver =>
    intro key drops next hn
    cases receiverStep_cases hn <;> exact ⟨le_rfl, le_rfl⟩
  case tick => exact fun elapsed => ⟨Nat.le_add_right _ _, le_rfl⟩
  case drop => exact fun _ _ => .refl _
  case dropping =>
    intro next hn
    cases dropStep_cases hn <;> exact ⟨le_rfl, le_rfl⟩

/-- An invariant of the worker's position is kept if the worker's own steps keep it, and
those of the run it called. -/
theorem step_position {b t : ActionBroker} {act : Act} {P : WorkerPc → Prop}
    (worker : ∀ next, workerStep config b.state b.worker = some next → P next.2)
    (running : ∀ job cell run flag epoch a effect, P (.running job cell run) →
      WasiRun.step flag epoch run a = some effect → P (.running job cell effect.run))
    (panicked : ∀ job : Job, P (.closing job.panic))
    (he : step config b act = some t) (h : P b.worker) : P t.worker := by
  apply step_elim (P := fun t => P t.worker) he
  case worker => exact fun next _ hn => worker next hn
  case runtime =>
    intro a next _ hn
    obtain ⟨job, cell, run, effect, hw, heff, rfl⟩ := runtimeStep_cases hn
    rw [hw] at h
    exact running job cell run _ _ a effect h heff
  case unwind =>
    intro next _ hn
    obtain ⟨job, cell, run, -, -, rfl⟩ := unwindStep_cases hn
    exact panicked job
  all_goals
    intros
    exact h

end Threads

end FerrousRuntime.Broker
