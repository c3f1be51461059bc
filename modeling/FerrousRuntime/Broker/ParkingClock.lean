import FerrousRuntime.Broker.QueueService

/-! # Parking against the clock

A risky job is parked under a deadline that the worker computes from its clock. The
timeout is the caller's and is not checked, and the addition panics when the host cannot
represent the sum; the worker's steps around it are interleaved with everyone else's.
-/
namespace FerrousRuntime.Broker
open Capability Command Policy FerrousRuntime.Runtime Transition

def Others (_ : ActionBroker) (act : Act) : Prop := act ≠ .worker

instance (b : ActionBroker) (act : Act) : Decidable (Others b act) := by
  unfold Others
  cases act <;> first | exact isFalse (fun h => h rfl) | exact isTrue (by simp)

/-- Whatever the other threads do first, the worker takes its next step, with this result. -/
def WorkerNext (config : Config) (b : ActionBroker) (P : ActionBroker → ActionBroker → Prop) : Prop :=
  ∀ c, Runs (system config) Others b c → ∃ d, step config c .worker = some d ∧ P c d

/-- The worker reads the clock, and goes on to park the job and to send its notice. -/
def Parks (config : Config) (b : ActionBroker) (job : Job) (reason : ApprovalReason) : Prop :=
  ∃ c, step config b .worker = some c ∧ WorkerNext config c (fun _ d =>
    d.state.pending.lookup job.id = some ⟨job, b.state.now + config.approvalTimeout⟩ ∧
    d.state.history.head? = some (.parked job) ∧
    WorkerNext config d (fun e f =>
      f.state.history = .sent job.key (approvalMessage job.sink reason) :: e.state.history))

def Job.asking (job : Job) (reason : ApprovalReason) : Job :=
  job.withSession (job.session.acceptIgnored (.pendingApproval reason))

namespace WorkerPc

def isRunning : WorkerPc → Bool
  | .running _ _ _ => true
  | _ => false

end WorkerPc

section Steps
variable {config : Config} {b c d t : ActionBroker} {act : Act} {job : Job} {reason : ApprovalReason}

theorem others_worker (hr : Runs (system config) Others b c) (hw : b.worker.isRunning = false) :
    c.worker = b.worker := by
  refine Runs.invariant (P := fun c => c.worker = b.worker) ?_ hr rfl
  intro s a t hother he hs
  rcases step_worker he with hsame | ⟨next, ha, -⟩ | ⟨job, cell, run, hrun, -⟩
  · exact hsame.trans hs
  · exact absurd ha hother
  · rw [← hs, hrun] at hw
    cases hw

theorem worker_step {next : BrokerState × WorkerPc} (hn : workerStep config b.state b.worker = some next) :
    step config b .worker = some { b with state := next.1, worker := next.2 } := by
  simp only [step, hn, Option.map_some]

theorem workerNext_of {pc : WorkerPc} {P : ActionBroker → ActionBroker → Prop} (hw : b.worker = pc)
    (hidle : pc.isRunning = false)
    (h : ∀ c, c.worker = pc → ∃ next, workerStep config c.state pc = some next ∧
      P c { c with state := next.1, worker := next.2 }) : WorkerNext config b P := by
  intro c hc
  have hsame := (others_worker hc (hw ▸ hidle)).trans hw
  obtain ⟨next, hn, hp⟩ := h c hsame
  exact ⟨_, worker_step (hsame ▸ hn), hp⟩

/-- With a deadline that exists, the worker parks the job and tells its owner. -/
theorem parks_of_representable (hw : b.worker = .deadline job reason)
    (hnow : b.state.now + config.approvalTimeout ≤ config.instantMax) : Parks config b job reason := by
  have hn : workerStep config b.state b.worker =
      some (b.state, .park job (b.state.now + config.approvalTimeout) reason) := by
    rw [hw]
    exact if_neg hnow.not_gt
  refine ⟨_, worker_step hn, workerNext_of rfl rfl ?_⟩
  intro c _
  refine ⟨_, rfl, AList.lookup_insert .., rfl, workerNext_of rfl rfl ?_⟩
  intro d _
  exact ⟨_, rfl, rfl⟩

theorem Parks.logged {next : BrokerState × WorkerPc} (h : Parks config b job reason)
    (hn : workerStep config b.state b.worker = some next) : ∃ last,
    workerStep config next.1 next.2 = some last ∧ last.1.history.head? = some (.parked job) := by
  obtain ⟨c, hc, hnext⟩ := h
  rw [worker_step hn] at hc
  cases hc
  obtain ⟨d, hd, -, hhead, -⟩ := hnext _ (.refl _)
  obtain ⟨last, hlast, rfl⟩ := Option.map_eq_some_iff.mp hd
  exact ⟨last, hlast, hhead⟩

/-- Past the last instant the addition panics, and the panic is reported instead. -/
theorem not_parks_of_late {asking : Job} (hw : b.worker = .deadline asking reason)
    (hlate : config.instantMax < b.state.now + config.approvalTimeout) :
    ¬ Parks config b job reason := by
  intro h
  have hn : workerStep config b.state b.worker =
      some (b.state.log (.panicked asking), .closing asking.panic) := by
    rw [hw]
    exact if_pos hlate
  obtain ⟨last, hlast, hhead⟩ := h.logged hn
  cases hlast
  cases hhead

theorem not_parks_of_begin {starting : Job} {cell : ℕ} (hw : b.worker = .begin starting cell) :
    ¬ Parks config b job reason := by
  intro h
  have h' := h
  obtain ⟨c, hc, -⟩ := h'
  obtain ⟨next, hn, -⟩ := Option.map_eq_some_iff.mp hc
  obtain ⟨last, hlast, hhead⟩ := h.logged hn
  rw [hw] at hn
  cases workerStep_cases hn with
  | cancelled => cases hlast; cases hhead
  | unstartable => cases hlast; cases hhead
  | announced => cases hlast; cases hhead
  | invoked => cases hlast

end Steps

/-- A job that needs an approval is parked unless it has one, or its deadline does not exist
on the host. -/
theorem risky_job_parks_iff {config : Config} {b c d : ActionBroker} {job : Job} {cell : ℕ}
    {reason : ApprovalReason} (hw : b.worker = .lookup job)
    (hl : b.state.handles.lookup job.id = some cell)
    (hrisk : classifyRisk job.request = .requiresApproval reason) (hc : step config b .worker = some c)
    (hd : Runs (system config) Others c d) : Parks config d (job.asking reason) reason ↔
      job.admission ≠ .approved ∧ d.state.now + config.approvalTimeout ≤ config.instantMax := by
  obtain ⟨next, hn, rfl⟩ := Option.map_eq_some_iff.mp hc
  rw [hw] at hn
  cases workerStep_cases hn with
  | missing _ hnone =>
    rw [hl] at hnone
    cases hnone
  | executed _ cell' _ hadmitted =>
    have happroved : job.admission = .approved := hadmitted.resolve_right (fun h => h ⟨reason, hrisk⟩)
    have hbegin : d.worker = .begin job cell' := others_worker hd rfl
    exact iff_of_false (not_parks_of_begin hbegin) (fun h => h.1 happroved)
  | deferred _ _ reason' _ hreason hadmission =>
    cases hrisk.symm.trans hreason
    have hdeadline : d.worker = .deadline (job.asking reason) reason := others_worker hd rfl
    constructor
    · intro h
      refine ⟨hadmission, Nat.not_lt.mp ?_⟩
      exact fun hlate => not_parks_of_late hdeadline hlate h
    · exact fun h => parks_of_representable hdeadline h.2

def writingJob : Job := newJob false ⟨false⟩ (sampleRequest 1 .readWrite defaultLimits) 0

def writingJobPopped : List Act := submission 0 1 false .readWrite ++ ([.worker] : List Act)

theorem risky_job_parks_in_time : ∃ b, Reachable (system sampleConfig) b ∧
    Parks sampleConfig b (writingJob.asking .filesystemWrite) .filesystemWrite := by
  have hpopped : ∃ b c, (system sampleConfig).replay Free .initial writingJobPopped = some b ∧
      b.worker = .lookup writingJob ∧ b.state.handles.lookup writingJob.id = some 0 ∧
      step sampleConfig b .worker = some c ∧ c.state.now = 0 := ⟨_, _, rfl, rfl, rfl, rfl, rfl⟩
  obtain ⟨b, c, hb, hw, hl, hc, hnow⟩ := hpopped
  have hreach : Reachable (system sampleConfig) b := System.replay_runs _ Free hb
  have hparks := (risky_job_parks_iff hw hl rfl hc (.refl c)).mpr ⟨by decide, by rw [hnow]; decide⟩
  exact ⟨c, Runs.step (a := .worker) hreach trivial hc, hparks⟩

/-- `Duration::MAX` as the timeout, on a host whose instants are seconds in an `i64`. -/
def endlessTimeout : Config := ⟨64, 2 ^ 64 - 1, 2 ^ 63 - 1, by decide⟩

theorem endless_timeout_panics : Config.new 64 (2 ^ 64 - 1) (2 ^ 63 - 1) = .ok endlessTimeout ∧
    ∃ b c, Reachable (system endlessTimeout) b ∧ b.worker = .lookup writingJob ∧
      b.state.handles.lookup writingJob.id = some 0 ∧
      classifyRisk writingJob.request = .requiresApproval .filesystemWrite ∧
      step endlessTimeout b .worker = some c ∧
      ¬ Parks endlessTimeout c (writingJob.asking .filesystemWrite) .filesystemWrite := by
  have hpopped : ∃ b c, (system endlessTimeout).replay Free .initial writingJobPopped = some b ∧
      b.worker = .lookup writingJob ∧ b.state.handles.lookup writingJob.id = some 0 ∧
      step endlessTimeout b .worker = some c ∧
      c.worker = .deadline (writingJob.asking .filesystemWrite) .filesystemWrite ∧ c.state.now = 0 :=
    ⟨_, _, rfl, rfl, rfl, rfl, rfl, rfl⟩
  obtain ⟨b, c, hb, hw, hl, hc, hdeadline, hnow⟩ := hpopped
  refine ⟨rfl, b, c, System.replay_runs _ Free hb, hw, hl, rfl, hc, ?_⟩
  exact not_parks_of_late hdeadline (by rw [hnow]; decide)

end FerrousRuntime.Broker
