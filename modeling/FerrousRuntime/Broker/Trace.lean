import FerrousRuntime.Broker.TerminalOrder

/-! # What each step logs

Every new entry of the history is logged by the thread that takes the step, where it
stands. The case analysis over the threads is made here once; a fact about one kind of
event then is a case analysis over the few places that log it.
-/
namespace FerrousRuntime.Broker
open Tally Transition FerrousRuntime.Runtime Command Policy

inductive Closing.Logs (closing : Closing) : Event → Prop
  | sent : closing.stage = .send → closing.Logs (.sent closing.key closing.message)
  | recorded : closing.stage = .record → closing.Logs (.recorded closing.key closing.entry)

inductive CallPc.Logs (config : Config) (n : ℕ) (s : BrokerState) : CallPc → Event → Prop
  | registered (job : Job) : s.handles.entries.length < config.capacity →
    Logs config n s (.enqueue job) (.registered job)
  | enqueued (job : Job) : s.served = true → Logs config n s (.push job) (.enqueued job)
  | approve (id : ℕ) (parked : PendingJob) : s.pending.lookup id = some parked →
    Logs config n s (.approve id) (.took (.approve n) parked.job)
  | deny (id : ℕ) (parked : PendingJob) : s.pending.lookup id = some parked →
    Logs config n s (.deny id) (.took (.deny n) parked.job)
  | cancel (id : ℕ) (parked : PendingJob) : s.pending.lookup id = some parked →
    Logs config n s (.cancel id) (.took (.cancel n) parked.job)
  | sawCancelled (id : ℕ) (job : Job) : s.isCancelled id = true →
    Logs config n s (.checkCancelled id job) (.sawCancelled job)
  | stranded (id : ℕ) (job : Job) : s.served = false → Logs config n s (.requeue id job) (.stranded job)
  | flagged (cell : ℕ) : Logs config n s (.setFlag cell) (.flagged cell)
  | closing (c : Closing) (event : Event) : c.Logs event → Logs config n s (.closing c) event

inductive WorkerPc.Logs (config : Config) (s : BrokerState) : WorkerPc → Event → Prop
  | missing (job : Job) : s.handles.lookup job.id = none → Logs config s (.lookup job) (.missing job)
  | executed (job : Job) (cell : ℕ) : s.handles.lookup job.id = some cell →
    (job.admission = .approved ∨ ¬ Risky job.request) → Logs config s (.lookup job) (.executed job)
  | denied (job : Job) : Logs config s (.missing job) (.sent job.key (terminalMessage job.sink
      (.deniedWith (.invalidTransition "session handle disappeared before start"))))
  | invoked (job : Job) (cell : ℕ) : s.flags cell = false →
    Logs config s (.begin job cell) (.invoked job.key)
  | started (job : Job) (cell : ℕ) : Logs config s (.announce job cell) (.sent job.key (.event .started))
  | announced (job : Job) (cell : ℕ) : Logs config s (.announce job cell) (.invoked job.key)
  | closing (c : Closing) (event : Event) : c.Logs event → Logs config s (.closing c) event
  | panicked (job : Job) (reason : ApprovalReason) : config.instantMax < s.now + config.approvalTimeout →
    Logs config s (.deadline job reason) (.panicked job)
  | parked (job : Job) (deadline : ℕ) (reason : ApprovalReason) :
    Logs config s (.park job deadline reason) (.parked job)
  | displaced (job : Job) (deadline : ℕ) (reason : ApprovalReason) (old : PendingJob) :
    s.pending.lookup job.id = some old → Logs config s (.park job deadline reason) (.displaced old.job)
  | notified (sink : JobSink) (id : ℕ) (reason : ApprovalReason) :
    Logs config s (.notify sink id reason) (.sent sink.channel (approvalMessage sink reason))
  | discarded (id : ℕ) (parked : PendingJob) : s.pending.lookup id = some parked →
    Logs config s (.cleanupPending id) (.discarded parked.job)

inductive SweeperPc.Logs (s : BrokerState) : SweeperPc → Event → Prop
  | took (id : ℕ) (rest : List ℕ) (parked : PendingJob) : s.pending.lookup id = some parked →
    Logs s (.sweeping (id :: rest)) (.took .sweeper parked.job)
  | closing (c : Closing) (rest : List ℕ) (event : Event) : c.Logs event → Logs s (.closing c rest) event

/-- The entries a step of the broker logs. -/
inductive Logs (config : Config) (b : ActionBroker) : Act → Event → Prop
  | call (n : ℕ) (pc : CallPc) (event : Event) : b.calls[n]? = some pc →
    pc.Logs config n b.state event → Logs config b (.proceed n) event
  | worker (event : Event) : b.worker.Logs config b.state event → Logs config b .worker event
  | output (act : RunAct) (job : Job) (cell : ℕ) (run : WasiRun) (stream : Stream) (bytes : List UInt8) :
    b.worker = .running job cell run → Logs config b (.runtime act) (.sent job.key (.event (.output stream bytes)))
  | unwound (job : Job) (cell : ℕ) (run : WasiRun) : b.worker = .running job cell run →
    Logs config b .unwind (.panicked job)
  | stray (index : ℕ) (elapsed : Bool) (stray : Stray) (stream : Stream) (bytes : List UInt8) :
    b.strays[index]? = some stray →
    Logs config b (.stray index elapsed) (.sent stray.key (.event (.output stream bytes)))
  | sweeper (order : List ℕ) (event : Event) : b.sweeper.Logs b.state event →
    Logs config b (.sweeper order) event
  | received (act : Act) (key : ℕ) (message : Message) : message ∈ (b.state.channels key).messages →
    Logs config b act (.received key message)

section Threads
variable {config : Config} {s : BrokerState}

theorem Closing.step_logged (s : BrokerState) (closing : Closing) :
    Extends closing.Logs s.history (closing.step s).1.history := by
  unfold Closing.step
  split
  · rename_i hstage
    exact .one (.sent hstage)
  · rename_i hstage
    exact .one (.recorded hstage)
  · exact .refl _

theorem callStep_logged {n : ℕ} {pc : CallPc} {next : BrokerState × CallPc}
    (he : callStep config n s pc = some next) :
    Extends (pc.Logs config n s) s.history next.1.history := by
  cases callStep_cases he with
  | registered job hroom => exact .one (.registered job hroom)
  | enqueued job hserved => exact .one (.enqueued job hserved)
  | approved id parked hl => exact .one (.approve id parked hl)
  | sawCancelled id job hc => exact .one (.sawCancelled id job hc)
  | stranded id job hserved => exact .one (.stranded id job hserved)
  | denied id parked hl => exact .one (.deny id parked hl)
  | cancelled id parked hl => exact .one (.cancel id parked hl)
  | flagged cell => exact .one (.flagged cell)
  | closing c _ _ hs | closed c _ hs =>
    have hc := Closing.step_logged s c
    rw [hs] at hc
    exact hc.imp (.closing c)
  | _ => exact .refl _

theorem workerStep_logged {pc : WorkerPc} {next : BrokerState × WorkerPc}
    (he : workerStep config s pc = some next) :
    Extends (pc.Logs config s) s.history next.1.history := by
  cases workerStep_cases he with
  | missing job hl => exact .one (.missing job hl)
  | executed job cell hl ha => exact .one (.executed job cell hl ha)
  | denied job => exact .one (.denied job)
  | invoked job cell _ _ hflag => exact .one (.invoked job cell hflag)
  | started job cell => exact .cons (.announced job cell) (.one (.started job cell))
  | closing c _ _ hs | closed c _ hs =>
    have hc := Closing.step_logged s c
    rw [hs] at hc
    exact hc.imp (.closing c)
  | panicked job reason hlate => exact .one (.panicked job reason hlate)
  | parked job deadline reason =>
    refine .cons (.parked job deadline reason) ?_
    cases hl : s.pending.lookup job.id with
    | none => exact .refl _
    | some old => exact .one (.displaced job deadline reason old hl)
  | notified sink id reason | unnotified sink id reason => exact .one (.notified sink id reason)
  | discarded id parked hl => exact .one (.discarded id parked hl)
  | _ => exact .refl _

theorem sweeperStep_logged {order : List ℕ} {pc : SweeperPc} {next : BrokerState × SweeperPc}
    (he : sweeperStep s order pc = some next) : Extends (pc.Logs s) s.history next.1.history := by
  cases sweeperStep_cases he with
  | took id rest parked hl => exact .one (.took id rest parked hl)
  | closing c _ rest _ hs | closed c rest _ hs =>
    have hc := Closing.step_logged s c
    rw [hs] at hc
    exact hc.imp (.closing c rest)
  | _ => exact .refl _

theorem emit_history {key : ℕ} {sent : Option SessionEvent}
    (hs : ∀ e, sent = some e → ∃ stream bytes, e = .output stream bytes) :
    (s.emit key sent).history = s.history ∨ ∃ stream bytes,
      (s.emit key sent).history = .sent key (.event (.output stream bytes)) :: s.history := by
  cases sent with
  | none => exact Or.inl rfl
  | some e =>
    obtain ⟨stream, bytes, rfl⟩ := hs e rfl
    exact Or.inr ⟨stream, bytes, rfl⟩

end Threads

section Steps
variable {config : Config} {b t : ActionBroker} {act : Act}

theorem runtime_history {a : RunAct} {next : BrokerState × WorkerPc}
    (hn : runtimeStep b.state a b.worker = some next) : ∃ job cell run, b.worker = .running job cell run ∧
      (next.1.history = b.state.history ∨ ∃ stream bytes,
        next.1.history = .sent job.key (.event (.output stream bytes)) :: b.state.history) := by
  obtain ⟨job, cell, run, effect, hw, heff, rfl⟩ := runtimeStep_cases hn
  exact ⟨job, cell, run, hw,
    emit_history (s := { b.state with epoch := effect.epoch }) (WasiRun.step_event heff)⟩

theorem stray_history {elapsed : Bool} {stray : Stray} {next : BrokerState × Stray}
    (hn : strayStep b.state elapsed stray = some next) : next.1.history = b.state.history ∨
      ∃ stream bytes,
        next.1.history = .sent stray.key (.event (.output stream bytes)) :: b.state.history := by
  obtain ⟨effect, heff, rfl⟩ := Option.map_eq_some_iff.mp hn
  exact emit_history (s := { b.state with epoch := effect.epoch }) (WasiRun.step_event heff)

theorem step_logged (he : step config b act = some t) :
    Extends (Logs config b act) b.state.history t.state.history := by
  apply step_elim (P := fun t => Extends (Logs config b act) b.state.history t.state.history) he
  case call =>
    intro request _
    rw [(enter_frame (k := 0) b.state request).2]
    exact .refl _
  case proceed =>
    rintro n pc next rfl hpc hn
    exact (callStep_logged hn).imp fun event => .call n pc event hpc
  case worker =>
    rintro next rfl hn
    exact (workerStep_logged hn).imp .worker
  case runtime =>
    rintro a next rfl hn
    obtain ⟨job, cell, run, hw, hsame | ⟨stream, bytes, hh⟩⟩ := runtime_history hn
    · exact hsame ▸ .refl _
    · rw [hh]
      exact .one (.output a job cell run stream bytes hw)
  case unwind =>
    rintro next rfl hn
    obtain ⟨job, cell, run, hw, -, rfl⟩ := unwindStep_cases hn
    exact .one (.unwound job cell run hw)
  case stray =>
    rintro index elapsed stray next rfl hs hn
    rcases stray_history hn with hsame | ⟨stream, bytes, hh⟩
    · exact hsame ▸ .refl _
    · rw [hh]
      exact .one (.stray index elapsed stray stream bytes hs)
  case sweeper =>
    rintro order next rfl hn
    exact (sweeperStep_logged hn).imp (.sweeper order)
  case receiver =>
    intro key drops next hn
    cases receiverStep_cases hn with
    | dropped => exact .refl _
    | received message rest hm => exact .one (.received act key message (by simp [hm]))
  case tick => exact fun _ => .refl _
  case drop => exact fun _ _ => .refl _
  case dropping =>
    intro next hn
    rw [dropStep_history hn]
    exact .refl _

theorem step_logs (he : step config b act = some t) {event : Event} (hin : event ∈ t.state.history) :
    event ∈ b.state.history ∨ Logs config b act event := (step_logged he).mem hin

/-- The entries that only the worker logs, outside the runtime. -/
def Event.isWorkers : Event → Bool
  | .missing _ | .executed _ | .parked _ | .displaced _ | .discarded _ => true
  | _ => false

def Event.isCalls : Event → Bool
  | .registered _ | .enqueued _ | .sawCancelled _ | .stranded _ | .flagged _ => true
  | _ => false

theorem Closing.Logs.reports {closing : Closing} {event : Event} (h : closing.Logs event) :
    event.isWorkers = false ∧ event.isCalls = false := by
  cases h <;> exact ⟨rfl, rfl⟩

theorem Logs.by_worker {event : Event} (h : Logs config b act event) (he : event.isWorkers = true) :
    act = .worker ∧ b.worker.Logs config b.state event := by
  cases h with
  | call n pc event _ h =>
    cases h with
    | closing c event hc => rw [hc.reports.1] at he; cases he
    | _ => cases he
  | worker event h => exact ⟨rfl, h⟩
  | sweeper order event h =>
    generalize b.sweeper = pc at h
    cases h with
    | closing c rest event hc => rw [hc.reports.1] at he; cases he
    | _ => cases he
  | _ => cases he

theorem Logs.by_call {event : Event} (h : Logs config b act event) (he : event.isCalls = true) :
    ∃ n pc, act = .proceed n ∧ b.calls[n]? = some pc ∧ pc.Logs config n b.state event := by
  cases h with
  | call n pc event hpc h => exact ⟨n, pc, rfl, hpc, h⟩
  | worker event h =>
    generalize b.worker = pc at h
    cases h with
    | closing c event hc => rw [hc.reports.2] at he; cases he
    | _ => cases he
  | sweeper order event h =>
    generalize b.sweeper = pc at h
    cases h with
    | closing c rest event hc => rw [hc.reports.2] at he; cases he
    | _ => cases he
  | _ => cases he

end Steps

end FerrousRuntime.Broker
