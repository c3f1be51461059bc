import FerrousRuntime.Broker.DefensiveBranches
import FerrousRuntime.Broker.Expiry
import FerrousRuntime.Broker.LeftoverReader
import FerrousRuntime.Broker.Shutdown
import FerrousRuntime.Runtime.Return
import Mathlib.Algebra.Order.BigOperators.Group.List

/-! # The broker comes to rest

Whatever is going on in the broker, its own threads can finish it: nobody has to decide on
a parked session, to read from a channel or to end a guest. Every call of the interface
returns, the worker empties the queue, and the sweeper takes what is left in `pending` at
its deadline. Once `drop` has begun, it comes back in the same way.
-/
namespace FerrousRuntime.Broker
open Tally Transition FerrousRuntime.Runtime Command Policy

/-- The guest code of the job's session always has a watcher. -/
def Job.Timed (job : Job) : Prop := job.sink.streams = true ∨ job.component.hasStart = false

instance (job : Job) : Decidable job.Timed :=
  inferInstanceAs (Decidable (job.sink.streams = true ∨ job.component.hasStart = false))

def registeredJobs (history : List Event) : List Job :=
  history.filterMap (fun event => match event with
    | .registered job => some job
    | _ => none)

def enteringJobs (calls : List CallPc) : List Job :=
  calls.filterMap (fun pc => match pc with
    | .enqueue job => some job
    | _ => none)

structure Timed (b : ActionBroker) : Prop where
  registered : ∀ job ∈ registeredJobs b.state.history, job.Timed
  entering : ∀ job ∈ enteringJobs b.calls, job.Timed

instance (b : ActionBroker) : Decidable (Timed b) :=
  decidable_of_iff ((∀ job ∈ registeredJobs b.state.history, job.Timed) ∧ ∀ job ∈ enteringJobs b.calls, job.Timed)
    ⟨fun ⟨hr, he⟩ => ⟨hr, he⟩, fun h => ⟨h.registered, h.entering⟩⟩

theorem mem_registeredJobs {history : List Event} {job : Job} :
    job ∈ registeredJobs history ↔ .registered job ∈ history := by
  simp only [registeredJobs, List.mem_filterMap]
  constructor
  · rintro ⟨event, hin, hjob⟩
    cases event with
    | registered other =>
      cases hjob
      exact hin
    | _ => cases hjob
  · exact fun hin => ⟨_, hin, rfl⟩

theorem mem_enteringJobs {calls : List CallPc} {job : Job} :
    job ∈ enteringJobs calls ↔ .enqueue job ∈ calls := by
  simp only [enteringJobs, List.mem_filterMap]
  constructor
  · rintro ⟨pc, hin, hjob⟩
    cases pc with
    | enqueue other =>
      cases hjob
      exact hin
    | _ => cases hjob
  · exact fun hin => ⟨_, hin, rfl⟩

/-- The steps of the broker's own threads and of the calls in progress: nobody calls, decides
or listens, no guest makes a step of its own, and no thread panics. -/
def Unattended (host : HostView) (b : ActionBroker) : Act → Prop
  | .proceed _ | .worker | .sweeper _ | .tick _ | .dropStep => True
  | .runtime act => ∀ job cell run, b.worker = .running job cell run → act.unaided host run.component.hasStart
  | .call _ | .unwind | .stray _ _ | .receive _ | .dropReceiver _ | .drop => False

def WorkerPc.RunInv (epoch : ℕ) : WorkerPc → Prop
  | .running job _ run => run.RunInv epoch ∧ run.component = job.component
  | _ => True

theorem WorkerPc.RunInv.mono {epoch epoch' : ℕ} {pc : WorkerPc} (h : pc.RunInv epoch) (hle : epoch ≤ epoch') :
    pc.RunInv epoch' := by
  cases pc with
  | running job cell run => exact ⟨h.1.mono hle, h.2⟩
  | _ => trivial

section Threads
variable {config : Config} {s : BrokerState}

theorem Closing.step_epoch (s : BrokerState) (closing : Closing) : (closing.step s).1.epoch = s.epoch := by
  unfold Closing.step
  split <;> rfl

theorem callStep_epoch {n : ℕ} {pc : CallPc} {next : BrokerState × CallPc}
    (he : callStep config n s pc = some next) : next.1.epoch = s.epoch := by
  cases callStep_cases he with
  | closing c _ _ hs | closed c _ hs =>
    have hc := Closing.step_epoch s c
    rw [hs] at hc
    exact hc
  | _ => rfl

theorem workerStep_epoch {pc : WorkerPc} {next : BrokerState × WorkerPc}
    (he : workerStep config s pc = some next) : next.1.epoch = s.epoch := by
  cases workerStep_cases he with
  | closing c _ _ hs | closed c _ hs =>
    have hc := Closing.step_epoch s c
    rw [hs] at hc
    exact hc
  | _ => rfl

theorem sweeperStep_epoch {order : List ℕ} {pc : SweeperPc} {next : BrokerState × SweeperPc}
    (he : sweeperStep s order pc = some next) : next.1.epoch = s.epoch := by
  cases sweeperStep_cases he with
  | closing c _ _ _ hs | closed c _ _ hs =>
    have hc := Closing.step_epoch s c
    rw [hs] at hc
    exact hc
  | _ => rfl

theorem workerStep_runInv {pc : WorkerPc} {next : BrokerState × WorkerPc}
    (he : workerStep config s pc = some next) (epoch : ℕ) : next.2.RunInv epoch := by
  cases workerStep_cases he with
  | invoked job | started job => exact ⟨WasiRun.runInv_start _ _ _ _ _, rfl⟩
  | _ => trivial

end Threads

section Invariants
variable {config : Config} {b t : ActionBroker} {act : Act} {host : HostView}

theorem step_epoch_le (he : step config b act = some t) : b.state.epoch ≤ t.state.epoch := by
  have hrun : ∀ {run : WasiRun} {flag : Bool} {a : RunAct} {effect : Effect},
      run.step flag b.state.epoch a = some effect → b.state.epoch ≤ effect.epoch := by
    intro run flag a effect heff
    by_contra hlt
    obtain ⟨-, hone, -⟩ := WasiRun.step_epoch heff (by omega)
    omega
  apply step_elim (P := fun t => b.state.epoch ≤ t.state.epoch) he
  case call =>
    intro request _
    have hn := enter_cases b.state request
    generalize enter b.state request = next at hn ⊢
    cases hn <;> exact le_rfl
  case proceed => exact fun n pc next _ _ hn => (callStep_epoch hn).ge
  case worker => exact fun next _ hn => (workerStep_epoch hn).ge
  case runtime =>
    intro a next _ hn
    obtain ⟨job, cell, run, effect, -, heff, rfl⟩ := runtimeStep_cases hn
    dsimp only
    rw [emit_epoch]
    exact hrun heff
  case unwind =>
    intro next _ hn
    obtain ⟨job, cell, run, -, -, rfl⟩ := unwindStep_cases hn
    exact le_rfl
  case stray =>
    intro index elapsed stray next _ _ hn
    obtain ⟨effect, heff, rfl⟩ := Option.map_eq_some_iff.mp hn
    dsimp only
    rw [emit_epoch]
    exact hrun heff
  case sweeper => exact fun order next _ hn => (sweeperStep_epoch hn).ge
  case receiver =>
    intro key drops next hn
    cases receiverStep_cases hn <;> exact le_rfl
  case tick => exact fun _ => le_rfl
  case drop => exact fun _ _ => le_rfl
  case dropping =>
    intro next hn
    cases dropStep_cases hn <;> exact le_rfl

theorem step_worker_runInv (he : step config b act = some t) (h : b.worker.RunInv b.state.epoch) :
    t.worker.RunInv t.state.epoch := by
  have hle := step_epoch_le he
  revert hle
  apply step_elim (P := fun t => b.state.epoch ≤ t.state.epoch → t.worker.RunInv t.state.epoch) he
  case worker => exact fun next _ hn _ => workerStep_runInv hn _
  case runtime =>
    intro a next _ hn _
    obtain ⟨job, cell, run, effect, hw, heff, rfl⟩ := runtimeStep_cases hn
    rw [hw] at h
    dsimp only
    rw [emit_epoch]
    exact ⟨WasiRun.step_runInv h.1 heff, (WasiRun.step_params heff).2.1.trans h.2⟩
  case unwind =>
    intro next _ hn _
    obtain ⟨job, cell, run, -, -, rfl⟩ := unwindStep_cases hn
    trivial
  all_goals
    intros
    exact h.mono ‹_›

theorem reachable_worker_runInv (h : Reachable (system config) b) : b.worker.RunInv b.state.epoch :=
  Reachable.invariant (P := fun b => b.worker.RunInv b.state.epoch)
    (fun _ _ _ he hp => step_worker_runInv he hp) h trivial

theorem step_timed (ha : Unattended host b act) (he : step config b act = some t) (h : Timed b) : Timed t := by
  refine ⟨?_, ?_⟩
  · intro job hin
    rcases step_logs he (mem_registeredJobs.mp hin) with hin | hlogs
    · exact h.registered job (mem_registeredJobs.mpr hin)
    · obtain ⟨n, pc, -, hpc, hlogs⟩ := hlogs.by_call rfl
      cases hlogs with
      | registered job => exact h.entering job (mem_enteringJobs.mpr (List.mem_of_getElem? hpc))
      | closing c event hc => cases hc
  · cases act with
    | proceed n =>
      obtain ⟨pc, hpc, he⟩ := Option.bind_eq_some_iff.mp he
      obtain ⟨next, hn, rfl⟩ := Option.map_eq_some_iff.mp he
      intro job hin
      rcases List.mem_or_eq_of_mem_set (mem_enteringJobs.mp hin) with hin | hnext
      · exact h.entering job (mem_enteringJobs.mpr hin)
      · obtain ⟨state, pc'⟩ := next
        cases hnext
        cases callStep_cases hn
    | worker | sweeper _ | runtime _ | dropStep =>
      obtain ⟨next, -, rfl⟩ := Option.map_eq_some_iff.mp he
      exact h.entering
    | tick elapsed =>
      cases he
      exact h.entering
    | _ => exact absurd ha id

end Invariants

def Stage.left : Stage → ℕ
  | .send => 3
  | .record => 2
  | .release => 1

def CallPc.left : CallPc → ℕ
  | .approve _ => 6
  | .checkCancelled _ _ => 5
  | .deny _ | .cancel _ => 4
  | .enqueue _ | .requeue _ _ => 3
  | .push _ | .lookup _ => 2
  | .unregister _ | .setFlag _ => 1
  | .closing c => c.stage.left
  | .done _ => 0

/-- A bound on the worker's own steps until it looks at the queue again; its run takes some
more of its own. -/
def WorkerPc.left : WorkerPc → ℕ
  | .lookup _ => 9
  | .begin _ _ | .deadline _ _ => 7
  | .announce _ _ | .park _ _ _ => 6
  | .running _ _ _ | .notify _ _ _ => 5
  | .cleanupPending _ | .missing _ => 3
  | .cleanupHandles _ | .missingRelease _ => 2
  | .closing c => c.stage.left + 1
  | .idle => 1
  | .exited => 0

section Ranks
variable {config : Config} {s : BrokerState}

/-- The closing steps come one after the other, and concern neither queue nor parked jobs. -/
theorem Closing.step_left (s : BrokerState) (closing : Closing) :
    (closing.step s).1.queue = s.queue ∧ (closing.step s).1.pending = s.pending ∧
      (closing.step s).1.stopped = s.stopped ∧
      ∀ next, (closing.step s).2 = some next → next.stage.left < closing.stage.left := by
  unfold Closing.step
  split <;> rename_i hstage <;> refine ⟨rfl, rfl, rfl, ?_⟩ <;> rintro next ⟨⟩ <;> simp [hstage, Stage.left]

theorem Stage.left_pos (stage : Stage) : 0 < stage.left := by
  cases stage <;> simp [Stage.left]

theorem callStep_enabled (config : Config) (n : ℕ) (s : BrokerState) {pc : CallPc} (h : pc.isDone = false) :
    ∃ next, callStep config n s pc = some next := by
  cases pc with
  | done result => cases h
  | _ =>
    simp only [callStep]
    repeat' split
    all_goals exact ⟨_, rfl⟩

theorem callStep_left {n : ℕ} {pc : CallPc} {next : BrokerState × CallPc}
    (he : callStep config n s pc = some next) : next.2.left < pc.left := by
  cases callStep_cases he with
  | closing c d t hs => exact (Closing.step_left s c).2.2.2 d (by rw [hs])
  | closed c => exact c.stage.left_pos
  | _ => simp [CallPc.left, Job.close, Stage.left]

/-- The worker waits for a job, or for its run. -/
theorem workerStep_enabled (config : Config) (s : BrokerState) {pc : WorkerPc}
    (hidle : pc = .idle → s.queue ≠ [] ∨ s.queueOpen = false) (hexited : pc.isExited = false)
    (hrun : ∀ job cell run, pc = .running job cell run → run.isReturned = true) :
    ∃ next, workerStep config s pc = some next := by
  cases pc with
  | exited => cases hexited
  | idle =>
    simp only [workerStep]
    split
    · exact ⟨_, rfl⟩
    · rename_i hempty
      have hclosed := (hidle rfl).resolve_left (fun hne => hne hempty)
      rw [hclosed]
      exact ⟨_, rfl⟩
  | running job cell run =>
    have hreturned := hrun job cell run rfl
    unfold WasiRun.isReturned at hreturned
    split at hreturned
    · rename_i hp
      simp only [workerStep, hp]
      exact ⟨_, rfl⟩
    · cases hreturned
  | _ =>
    simp only [workerStep]
    repeat' split
    all_goals exact ⟨_, rfl⟩

theorem workerStep_left {pc : WorkerPc} {next : BrokerState × WorkerPc}
    (he : workerStep config s pc = some next) :
    9 * next.1.queue.length + next.2.left < 9 * s.queue.length + pc.left := by
  cases workerStep_cases he with
  | popped job rest hq => simp [hq, WorkerPc.left]; omega
  | closing c d t hs =>
    obtain ⟨hq, -, -, hlt⟩ := Closing.step_left s c
    rw [hs] at hq hlt
    have hd := hlt d rfl
    dsimp only at hq
    simp only [hq, WorkerPc.left]
    omega
  | closed c t hs =>
    obtain ⟨hq, -⟩ := Closing.step_left s c
    have hpos := c.stage.left_pos
    rw [hs] at hq
    dsimp only at hq
    simp only [hq, WorkerPc.left]
    omega
  | _ =>
    simp [WorkerPc.left, Job.conclude, Job.panic, Job.close, Stage.left, BrokerState.log, BrokerState.send,
      BrokerState.release]

end Ranks

section Threads
variable {config : Config} {b t : ActionBroker} {act : Act} {host : HostView}

theorem runs_timed (hr : Runs (system config) (Unattended host) b t) (h : Timed b) : Timed t :=
  Runs.invariant (P := Timed) (fun _ _ _ ha he hp => step_timed ha he hp) hr h

theorem runs_undropped (hr : Runs (system config) (Unattended host) b t) (h : b.drop = .undropped) :
    t.drop = .undropped := by
  refine Runs.invariant (P := fun b => b.drop = .undropped) ?_ hr h
  intro s act t ha he hs
  cases act with
  | dropStep =>
    obtain ⟨next, hn, -⟩ := Option.map_eq_some_iff.mp he
    cases dropStep_cases hn <;> simp_all
  | proceed n =>
    obtain ⟨pc, -, he⟩ := Option.bind_eq_some_iff.mp he
    obtain ⟨next, -, rfl⟩ := Option.map_eq_some_iff.mp he
    exact hs
  | worker | sweeper _ | runtime _ =>
    obtain ⟨next, -, rfl⟩ := Option.map_eq_some_iff.mp he
    exact hs
  | tick elapsed =>
    cases he
    exact hs
  | _ => exact absurd ha id

theorem calls_finish (config : Config) (host : HostView) (b : ActionBroker) :
    ∃ t, Runs (system config) (Unattended host) b t ∧ t.calls.all CallPc.isDone = true := by
  refine Runs.progress (P := fun rank (s : ActionBroker) => rank = (s.calls.map CallPc.left).sum) ?_ rfl
  rintro _ s rfl
  by_cases hall : s.calls.all CallPc.isDone = true
  · exact Or.inl hall
  · right
    obtain ⟨pc, hpc, hdone⟩ : ∃ pc ∈ s.calls, pc.isDone = false := by
      simpa [List.all_eq_true] using hall
    obtain ⟨n, hn⟩ := List.mem_iff_getElem?.mp hpc
    obtain ⟨next, he⟩ := callStep_enabled config n s.state hdone
    obtain ⟨rest, hsum, hset⟩ := exists_frame CallPc.left hn
    refine ⟨_, ?_, .proceed n, { s with state := next.1, calls := s.calls.set n next.2 }, trivial, ?_, rfl⟩
    · have hlt := callStep_left he
      rw [hsum]
      dsimp only
      rw [hset]
      omega
    · simp [system, step, hn, he]

theorem running_returnable (hb : Reachable (system config) b) (ht : Timed b) {job : Job} {cell : ℕ} {run : WasiRun}
    (hw : b.worker = .running job cell run) : run.RunInv b.state.epoch ∧ run.Timed := by
  have hinv := reachable_worker_runInv hb
  have hprepared := (reachable_prepared hb).worker
  have hgenuine := (reachable_genuine hb).worker
  rw [hw] at hinv hprepared hgenuine
  obtain ⟨hinv, hcomponent⟩ := hinv
  obtain ⟨⟨origin, horigin, -, hsame, hsink⟩, -⟩ := hgenuine
  refine ⟨hinv, ?_⟩
  rcases ht.registered origin (mem_registeredJobs.mpr horigin) with hstreams | hstart
  · exact Or.inl ((Job.RunsIn.path hprepared).mpr (hsink ▸ hstreams))
  · exact Or.inr (by rw [hcomponent, ← hsame, hstart])

structure BesideWorker (b t : ActionBroker) : Prop where
  calls : t.calls = b.calls
  sweeper : t.sweeper = b.sweeper
  drop : t.drop = b.drop
  queueOpen : t.state.queueOpen = b.state.queueOpen

theorem BesideWorker.trans {u : ActionBroker} (h : BesideWorker b t) (h' : BesideWorker t u) :
    BesideWorker b u :=
  ⟨h'.calls.trans h.calls, h'.sweeper.trans h.sweeper, h'.drop.trans h.drop, h'.queueOpen.trans h.queueOpen⟩

structure Hosted (b : ActionBroker) (job : Job) (cell : ℕ) (solo : Solo) (t : ActionBroker) : Prop where
  worker : t.worker = .running job cell solo.run
  epoch : t.state.epoch = solo.epoch
  flag : t.state.flags cell = solo.flag
  queue : t.state.queue = b.state.queue
  beside : BesideWorker b t

theorem Hosted.advance {job : Job} {cell : ℕ} {solo solo' : Solo} {a : SoloAct} (h : Hosted b job cell solo t)
    (ha : Unaided host solo a) (he : solo.step a = some solo') :
    ∃ u, Runs (system config) (Unattended host) t u ∧ Hosted b job cell solo' u := by
  cases a with
  | cancel | foreignTick => exact absurd ha id
  | run act =>
    obtain ⟨effect, heff, rfl⟩ := Option.map_eq_some_iff.mp he
    have hunattended : Unattended host t (.runtime act) := by
      intro job' cell' run' hw
      cases h.worker.symm.trans hw
      exact ha
    have hstep : (system config).step t (.runtime act) = some { t with
        state := BrokerState.emit { t.state with epoch := effect.epoch } job.key effect.event
        worker := .running job cell effect.run } := by
      simp [system, step, h.worker, runtimeStep, h.epoch, h.flag, heff]
    obtain ⟨hopen, -, hqueue⟩ := emit_queue { t.state with epoch := effect.epoch } job.key effect.event
    refine ⟨_, (Runs.refl t).step hunattended hstep, rfl, emit_epoch _ _ _, ?_, hqueue.trans h.queue,
      h.beside.calls, h.beside.sweeper, h.beside.drop, hopen.trans h.beside.queueOpen⟩
    dsimp only
    rw [emit_flags]
    exact h.flag

theorem run_comes_back (hb : Reachable (system config) b) (ht : Timed b) (host : HostView) {job : Job} {cell : ℕ}
    {run : WasiRun} (hw : b.worker = .running job cell run) :
    ∃ t run', Runs (system config) (Unattended host) b t ∧ t.worker = .running job cell run' ∧
      run'.isReturned = true ∧ t.state.queue = b.state.queue ∧ BesideWorker b t := by
  obtain ⟨hinv, htimed⟩ := running_returnable hb ht hw
  have hreturnable : Solo.Returnable ⟨run, b.state.epoch, b.state.flags cell, []⟩ := ⟨hinv, htimed⟩
  have hhosted : Hosted b job cell ⟨run, b.state.epoch, b.state.flags cell, []⟩ b :=
    ⟨hw, rfl, rfl, rfl, rfl, rfl, rfl, rfl⟩
  -- the solo system is only there to carry the run
  have hback : ∃ u, Runs (soloSystem run.path run.component run.request run.cancellable b.state.epoch
      (b.state.flags cell)) (Unaided host) ⟨run, b.state.epoch, b.state.flags cell, []⟩ u ∧
      ∃ result, u.run.phase = .returned result := returns_unaided host hreturnable
  obtain ⟨solo, hruns, result, hreturned⟩ := hback
  have hlifted : ∃ t, Runs (system config) (Unattended host) b t ∧ Hosted b job cell solo t := by
    refine Runs.lift (R := fun solo t => Hosted b job cell solo t) ?_ hruns hhosted
    exact fun solo a solo' t ha he hh => hh.advance ha he
  obtain ⟨t, htr, hh⟩ := hlifted
  exact ⟨t, solo.run, htr, hh.worker, by simp [WasiRun.isReturned, hreturned], hh.queue, hh.beside⟩

theorem workerStep_queueOpen {pc : WorkerPc} {s : BrokerState} {next : BrokerState × WorkerPc}
    (he : workerStep config s pc = some next) : next.1.queueOpen = s.queueOpen := by
  cases workerStep_cases he with
  | closing c _ _ hs | closed c _ hs =>
    obtain ⟨hopen, -⟩ := Closing.step_queue s c
    rw [hs] at hopen
    exact hopen
  | _ => rfl

/-- The worker rests once it has left, or has nothing to do. -/
def ActionBroker.rested (b : ActionBroker) : Prop :=
  b.worker.isExited = true ∨ b.worker.isIdle = true ∧ b.state.queue = [] ∧ b.state.queueOpen = true

theorem worker_ready (hb : Reachable (system config) b) (ht : Timed b) (host : HostView) (h : ¬ b.rested) :
    ∃ t, Runs (system config) (Unattended host) b t ∧ t.state.queue = b.state.queue ∧
      t.worker.left = b.worker.left ∧ BesideWorker b t ∧
      ∃ next, workerStep config t.state t.worker = some next := by
  by_cases hrunning : ∃ job cell run, b.worker = .running job cell run
  · obtain ⟨job, cell, run, hw⟩ := hrunning
    obtain ⟨t, run', htr, hwt, hreturned, hqueue, hside⟩ := run_comes_back hb ht host hw
    refine ⟨t, htr, hqueue, by rw [hw, hwt]; rfl, hside, ?_⟩
    refine workerStep_enabled config t.state (by simp [hwt]) (by rw [hwt]; rfl) ?_
    intro job' cell' other ho
    cases hwt.symm.trans ho
    exact hreturned
  · obtain ⟨hexited, hidle⟩ := not_or.mp h
    refine ⟨b, .refl b, rfl, rfl, ⟨rfl, rfl, rfl, rfl⟩, workerStep_enabled config b.state ?_ (by simpa using hexited)
      fun job cell run hw => absurd ⟨job, cell, run, hw⟩ hrunning⟩
    intro hpc
    by_contra hno
    obtain ⟨hqueue, hopen⟩ := not_or.mp hno
    exact hidle ⟨by rw [hpc]; rfl, not_not.mp hqueue, by simpa using hopen⟩

/-- The worker empties the queue, and then waits for the next job or leaves. -/
theorem worker_finishes (hb : Reachable (system config) b) (ht : Timed b) (host : HostView) :
    ∃ t, Runs (system config) (Unattended host) b t ∧ BesideWorker b t ∧ t.rested := by
  refine Runs.reach (P := fun rank (s : ActionBroker) => Reachable (system config) s ∧ Timed s ∧
    BesideWorker b s ∧ rank = 9 * s.state.queue.length + s.worker.left) ?_ ⟨hb, ht, ⟨rfl, rfl, rfl, rfl⟩, rfl⟩
  rintro _ s ⟨hs, htimed, hbeside, rfl⟩
  by_cases hrest : s.rested
  · exact Or.inl ⟨hbeside, hrest⟩
  · right
    obtain ⟨t, htr, hqueue, hleft, hside, next, hn⟩ := worker_ready hs htimed host hrest
    have hunattended : Unattended host t .worker := trivial
    have hstep : (system config).step t .worker = some { t with state := next.1, worker := next.2 } := by
      simp [system, step, hn]
    have hruns := htr.step hunattended hstep
    have hlt := workerStep_left hn
    rw [hqueue, hleft] at hlt
    exact ⟨_, hlt, _, hruns, hs.runs hruns, runs_timed hruns htimed,
      (hbeside.trans hside).trans ⟨rfl, rfl, rfl, workerStep_queueOpen hn⟩, rfl⟩

end Threads

def SweeperPc.left : SweeperPc → ℕ
  | .sweeping ids => 5 * ids.length
  | .closing c ids => 5 * ids.length + c.stage.left
  | _ => 0

def SweeperPc.inRound : SweeperPc → Bool
  | .sweeping _ | .closing _ _ => true
  | _ => false

structure BesideSweeper (b t : ActionBroker) : Prop where
  calls : t.calls = b.calls
  worker : t.worker = b.worker
  drop : t.drop = b.drop
  queue : t.state.queue = b.state.queue
  stopped : t.state.stopped = b.state.stopped

theorem BesideSweeper.trans {b t u : ActionBroker} (h : BesideSweeper b t) (h' : BesideSweeper t u) :
    BesideSweeper b u :=
  ⟨h'.calls.trans h.calls, h'.worker.trans h.worker, h'.drop.trans h.drop, h'.queue.trans h.queue,
    h'.stopped.trans h.stopped⟩

section Sweeper
variable {config : Config} {b t : ActionBroker} {host : HostView}

theorem sweeperStep_enabled (s : BrokerState) {pc : SweeperPc} (h : pc.inRound = true)
    (hne : pc ≠ .sweeping []) : ∃ next, sweeperStep s [] pc = some next := by
  cases pc with
  | sweeping ids =>
    cases ids with
    | nil => exact absurd rfl hne
    | cons id rest =>
      simp only [sweeperStep]
      split <;> exact ⟨_, rfl⟩
  | closing c rest =>
    simp only [sweeperStep]
    split <;> exact ⟨_, rfl⟩
  | _ => cases h

theorem sweeperStep_round {s : BrokerState} {pc : SweeperPc} {next : BrokerState × SweeperPc}
    (h : pc.inRound = true) (hne : pc ≠ .sweeping []) (he : sweeperStep s [] pc = some next) :
    next.2.inRound = true ∧ next.2.left < pc.left ∧ next.1.queue = s.queue ∧ next.1.stopped = s.stopped ∧
      ∀ id parked, next.1.pending.lookup id = some parked → s.pending.lookup id = some parked ∧
        (id ∈ pc.collected → id ∈ next.2.collected) := by
  cases sweeperStep_cases he with
  | stopped | slept | woke => cases h
  | swept => exact absurd rfl hne
  | missed id rest hl =>
    refine ⟨rfl, by simp [SweeperPc.left], rfl, rfl, ?_⟩
    intro other parked hp
    refine ⟨hp, fun hmem => (List.mem_cons.mp hmem).resolve_left ?_⟩
    rintro rfl
    cases hl.symm.trans hp
  | took id rest parked hl =>
    refine ⟨rfl, by simp [SweeperPc.left, Job.close, Stage.left]; omega, rfl, rfl, ?_⟩
    intro other old hp
    have hother : other ≠ id := by
      rintro rfl
      simp [BrokerState.take] at hp
    exact ⟨lookup_of_erase hp, fun hmem => (List.mem_cons.mp hmem).resolve_left hother⟩
  | closing c d rest u hs =>
    obtain ⟨hqueue, hpending, hstopped, hlt⟩ := Closing.step_left s c
    rw [hs] at hqueue hpending hstopped hlt
    have hd := hlt d rfl
    refine ⟨rfl, by simp only [SweeperPc.left]; omega, hqueue, hstopped, ?_⟩
    exact fun other parked hp => ⟨hpending ▸ hp, fun hmem => hmem⟩
  | closed c rest u hs =>
    obtain ⟨hqueue, hpending, hstopped, -⟩ := Closing.step_left s c
    rw [hs] at hqueue hpending hstopped
    have hpos := c.stage.left_pos
    refine ⟨rfl, by simp only [SweeperPc.left]; omega, hqueue, hstopped, ?_⟩
    exact fun other parked hp => ⟨hpending ▸ hp, fun hmem => hmem⟩

/-- The sweeper comes to the end of its round, and no job it was to look at is parked any
more. -/
theorem sweep_finishes (config : Config) (host : HostView) (hround : b.sweeper.inRound = true) :
    ∃ t, Runs (system config) (Unattended host) b t ∧ t.sweeper = .sweeping [] ∧ BesideSweeper b t ∧
      ∀ id parked, t.state.pending.lookup id = some parked → b.state.pending.lookup id = some parked ∧
        id ∉ b.sweeper.collected := by
  have hrun : ∃ t, Runs (system config) (Unattended host) b t ∧ t.sweeper = .sweeping [] ∧ BesideSweeper b t ∧
      ∀ id parked, t.state.pending.lookup id = some parked → b.state.pending.lookup id = some parked ∧
        (id ∈ b.sweeper.collected → id ∈ t.sweeper.collected) := by
    refine Runs.progress (P := fun rank (s : ActionBroker) => rank = s.sweeper.left ∧ s.sweeper.inRound = true ∧
      BesideSweeper b s ∧ ∀ id parked, s.state.pending.lookup id = some parked →
        b.state.pending.lookup id = some parked ∧ (id ∈ b.sweeper.collected → id ∈ s.sweeper.collected)) ?_
      ⟨rfl, hround, ⟨rfl, rfl, rfl, rfl, rfl⟩, fun _ _ hp => ⟨hp, id⟩⟩
    rintro _ s ⟨rfl, hr, hside, hkept⟩
    by_cases hend : s.sweeper = .sweeping []
    · exact Or.inl ⟨hend, hside, hkept⟩
    · right
      obtain ⟨next, hn⟩ := sweeperStep_enabled s.state hr hend
      obtain ⟨hnext, hlt, hqueue, hstopped, hpending⟩ := sweeperStep_round hr hend hn
      refine ⟨_, hlt, .sweeper [], { s with state := next.1, sweeper := next.2 }, trivial, ?_, rfl, hnext,
        hside.trans ⟨rfl, rfl, rfl, hqueue, hstopped⟩, ?_⟩
      · simp [system, step, hn]
      · intro id parked hp
        obtain ⟨hold, hmem⟩ := hpending id parked hp
        obtain ⟨hfirst, hkeep⟩ := hkept id parked hold
        exact ⟨hfirst, fun hin => hmem (hkeep hin)⟩
  obtain ⟨t, ht, hend, hside, hkept⟩ := hrun
  refine ⟨t, ht, hend, hside, fun id parked hp => ⟨(hkept id parked hp).1, fun hmem => ?_⟩⟩
  have hin := (hkept id parked hp).2 hmem
  rw [hend] at hin
  cases hin

theorem sweeper_step {order : List ℕ} {next : BrokerState × SweeperPc}
    (hn : sweeperStep b.state order b.sweeper = some next) :
    Runs (system config) (Unattended host) b { b with state := next.1, sweeper := next.2 } := by
  have hstep : (system config).step b (.sweeper order) = some { b with state := next.1, sweeper := next.2 } := by
    simp [system, step, hn]
  exact (Runs.refl b).step (a := .sweeper order) trivial hstep

theorem sweeper_wakes (hasleep : b.sweeper = .asleep) :
    Runs (system config) (Unattended host) b { b with sweeper := .sweeping b.state.expired } := by
  have hperm : b.state.expired.isPerm b.state.expired = true := List.isPerm_iff.mpr (.refl _)
  have hwakes : sweeperStep b.state b.state.expired b.sweeper = some (b.state, .sweeping b.state.expired) := by
    simp [sweeperStep, hasleep, hperm]
  exact sweeper_step hwakes

theorem sweeper_heads (config : Config) (host : HostView) (hexited : b.sweeper.isExited = false) :
    ∃ t, Runs (system config) (Unattended host) b t ∧ t.sweeper = .head ∧ BesideSweeper b t := by
  have hfrom : ∀ s : ActionBroker, s.sweeper.inRound = true →
      ∃ t, Runs (system config) (Unattended host) s t ∧ t.sweeper = .head ∧ BesideSweeper s t := by
    intro s hround
    obtain ⟨t, ht, hend, hside, -⟩ := sweep_finishes config host hround
    have hswept : sweeperStep t.state [] t.sweeper = some (t.state, .head) := by rw [hend]; rfl
    exact ⟨_, ht.trans (sweeper_step hswept), rfl, hside.trans ⟨rfl, rfl, rfl, rfl, rfl⟩⟩
  cases hs : b.sweeper with
  | head => exact ⟨b, .refl b, hs, ⟨rfl, rfl, rfl, rfl, rfl⟩⟩
  | asleep =>
    obtain ⟨t, ht, hhead, hside⟩ := hfrom { b with sweeper := .sweeping b.state.expired } rfl
    exact ⟨t, (sweeper_wakes hs).trans ht, hhead, ⟨hside.calls, hside.worker, hside.drop, hside.queue, hside.stopped⟩⟩
  | sweeping | closing => exact hfrom b (by rw [hs]; rfl)
  | exited => rw [hs] at hexited; cases hexited

theorem expired_late (s : BrokerState) : ∃ elapsed, ∀ id parked, s.pending.lookup id = some parked →
    id ∈ BrokerState.expired { s with now := s.now + elapsed } := by
  refine ⟨(s.pending.entries.map (fun entry => entry.2.deadline)).sum, fun id parked hl => ?_⟩
  have hmem := AList.mem_lookup_iff.mp hl
  have hle : parked.deadline ≤ (s.pending.entries.map (fun entry => entry.2.deadline)).sum :=
    List.le_sum_of_mem (List.mem_map.mpr ⟨⟨id, parked⟩, hmem, rfl⟩)
  refine List.mem_map.mpr ⟨⟨id, parked⟩, List.mem_filter.mpr ⟨hmem, ?_⟩, rfl⟩
  exact decide_eq_true (by dsimp only; omega)

theorem sweeper_empties (config : Config) (host : HostView) (hexited : b.sweeper.isExited = false)
    (hstopped : b.state.stopped = false) : ∃ t, Runs (system config) (Unattended host) b t ∧
      t.sweeper.isClosing = false ∧ BesideSweeper b t ∧ t.state.pending.entries = [] := by
  obtain ⟨c, hc, hhead, hside⟩ := sweeper_heads config host hexited
  have hsleeps : sweeperStep c.state [] c.sweeper = some (c.state, .asleep) := by
    simp [sweeperStep, hhead, hside.stopped, hstopped]
  obtain ⟨elapsed, hlate⟩ := expired_late c.state
  -- asleep, until the last deadline has passed
  have hasleep : Runs (system config) (Unattended host) c
      { c with sweeper := .asleep, state := { c.state with now := c.state.now + elapsed } } :=
    (sweeper_step hsleeps).step (a := .tick elapsed) trivial rfl
  obtain ⟨t, ht, hend, hside', hkept⟩ := sweep_finishes (b := { c with
    sweeper := .sweeping (BrokerState.expired { c.state with now := c.state.now + elapsed })
    state := { c.state with now := c.state.now + elapsed } }) config host rfl
  refine ⟨t, ((hc.trans hasleep).trans (sweeper_wakes rfl)).trans ht, by rw [hend]; rfl,
    hside.trans ⟨hside'.calls, hside'.worker, hside'.drop, hside'.queue, hside'.stopped⟩, ?_⟩
  rw [List.eq_nil_iff_forall_not_mem]
  rintro ⟨id, parked⟩ hmem
  obtain ⟨hold, hnot⟩ := hkept id parked (AList.mem_lookup_iff.mpr hmem)
  exact hnot (hlate id parked hold)

end Sweeper

def Untold (s t : BrokerState) : Prop := t.stopped = s.stopped ∧ t.queueOpen = s.queueOpen

/-- What `drop` has done by the time it gets there. -/
structure Told (b : ActionBroker) : Prop where
  unstopped : b.drop = .undropped → b.state.stopped = false
  stopped : b.drop ≠ .undropped → b.drop ≠ .stop → b.state.stopped = true
  exited : b.sweeper.isExited = true → b.state.stopped = true
  closed : b.drop = .joinWorker ∨ b.drop = .joinSweeper ∨ b.drop = .dropped → b.state.queueOpen = false

section Drop
variable {config : Config} {b t : ActionBroker} {act : Act} {s : BrokerState} {host : HostView}

theorem Told.frame (h : Told b) (hs : Untold b.state t.state) (hdrop : t.drop = b.drop)
    (hexited : t.sweeper.isExited = true → b.sweeper.isExited = true ∨ b.state.stopped = true) : Told t := by
  obtain ⟨hstopped, hopen⟩ := hs
  refine ⟨?_, ?_, ?_, ?_⟩
  · rw [hdrop, hstopped]
    exact h.unstopped
  · rw [hdrop, hstopped]
    exact h.stopped
  · intro hx
    rw [hstopped]
    exact (hexited hx).elim h.exited id
  · rw [hdrop, hopen]
    exact h.closed

theorem Closing.step_untold (s : BrokerState) (closing : Closing) : Untold s (closing.step s).1 :=
  ⟨(Closing.step_left s closing).2.2.1, (Closing.step_queue s closing).1⟩

theorem callStep_untold {n : ℕ} {pc : CallPc} {next : BrokerState × CallPc}
    (he : callStep config n s pc = some next) : Untold s next.1 := by
  cases callStep_cases he with
  | closing c _ _ hs | closed c _ hs =>
    have hc := Closing.step_untold s c
    rw [hs] at hc
    exact hc
  | _ => exact ⟨rfl, rfl⟩

theorem workerStep_untold {pc : WorkerPc} {next : BrokerState × WorkerPc}
    (he : workerStep config s pc = some next) : Untold s next.1 := by
  cases workerStep_cases he with
  | closing c _ _ hs | closed c _ hs =>
    have hc := Closing.step_untold s c
    rw [hs] at hc
    exact hc
  | _ => exact ⟨rfl, rfl⟩

theorem sweeperStep_untold {order : List ℕ} {pc : SweeperPc} {next : BrokerState × SweeperPc}
    (he : sweeperStep s order pc = some next) :
    Untold s next.1 ∧ (next.2.isExited = true → s.stopped = true) := by
  cases sweeperStep_cases he with
  | stopped hstopped => exact ⟨⟨rfl, rfl⟩, fun _ => hstopped⟩
  | closing c _ _ _ hs | closed c _ _ hs =>
    have hc := Closing.step_untold s c
    rw [hs] at hc
    exact ⟨hc, by simp [SweeperPc.isExited]⟩
  | _ => exact ⟨⟨rfl, rfl⟩, by simp [SweeperPc.isExited]⟩

theorem emit_untold (s : BrokerState) (epoch key : ℕ) (event : Option SessionEvent) :
    Untold s (BrokerState.emit { s with epoch := epoch } key event) := by
  cases event <;> exact ⟨rfl, rfl⟩

theorem step_told (he : step config b act = some t) (h : Told b) : Told t := by
  apply step_elim (P := Told) he
  case call =>
    intro request _
    obtain ⟨hopen, -⟩ := enter_named b.state request
    refine h.frame ⟨?_, hopen⟩ rfl Or.inl
    have hn := enter_cases b.state request
    generalize enter b.state request = next at hn ⊢
    cases hn <;> rfl
  case proceed => exact fun n pc next _ _ hn => h.frame (callStep_untold hn) rfl Or.inl
  case worker => exact fun next _ hn => h.frame (workerStep_untold hn) rfl Or.inl
  case runtime =>
    intro a next _ hn
    obtain ⟨job, cell, run, effect, -, -, rfl⟩ := runtimeStep_cases hn
    exact h.frame (emit_untold _ _ _ _) rfl Or.inl
  case unwind =>
    intro next _ hn
    obtain ⟨job, cell, run, -, -, rfl⟩ := unwindStep_cases hn
    exact h.frame ⟨rfl, rfl⟩ rfl Or.inl
  case stray =>
    intro index elapsed stray next _ _ hn
    obtain ⟨effect, -, rfl⟩ := Option.map_eq_some_iff.mp hn
    exact h.frame (emit_untold _ _ _ _) rfl Or.inl
  case sweeper =>
    intro order next _ hn
    obtain ⟨huntold, hexited⟩ := sweeperStep_untold hn
    exact h.frame huntold rfl (fun hx => Or.inr (hexited hx))
  case receiver =>
    intro key drops next hn
    cases receiverStep_cases hn <;> exact h.frame ⟨rfl, rfl⟩ rfl Or.inl
  case tick => exact fun _ => h.frame ⟨rfl, rfl⟩ rfl Or.inl
  case drop =>
    intro hdrop _
    exact ⟨by simp, by simp, h.exited, by simp⟩
  case dropping =>
    intro next hn
    cases dropStep_cases hn with
    | stopped hdrop => exact ⟨by simp, fun _ _ => rfl, fun _ => rfl, by simp⟩
    | cancelledAll hdrop =>
      exact ⟨by simp, fun _ _ => h.stopped (by simp [hdrop]) (by simp [hdrop]), h.exited, by simp⟩
    | closedQueue hdrop =>
      exact ⟨by simp, fun _ _ => h.stopped (by simp [hdrop]) (by simp [hdrop]), h.exited, fun _ => rfl⟩
    | joinedWorker hdrop =>
      exact ⟨by simp, fun _ _ => h.stopped (by simp [hdrop]) (by simp [hdrop]), h.exited,
        fun _ => h.closed (Or.inl hdrop)⟩
    | joinedSweeper hdrop =>
      exact ⟨by simp, fun _ _ => h.stopped (by simp [hdrop]) (by simp [hdrop]), h.exited,
        fun _ => h.closed (Or.inr (Or.inl hdrop))⟩

theorem reachable_told (h : Reachable (system config) b) : Told b := by
  refine Reachable.invariant (P := Told) (fun _ _ _ he hp => step_told he hp) h ⟨?_, ?_, ?_, ?_⟩ <;>
    simp [system, ActionBroker.initial, BrokerState.initial, SweeperPc.isExited]

/-- Until it is dropped, a broker whose capturing sessions have no start function can finish
everything in progress, and be at rest. -/
theorem comes_to_rest (h : Reachable (system config) b) (hdrop : b.drop = .undropped) (htimed : Timed b)
    (host : HostView) : ∃ t, Runs (system config) (Unattended host) b t ∧ Quiescent t ∧ t.drop = .undropped := by
  obtain ⟨c, hc, hcalls⟩ := calls_finish config host b
  obtain ⟨d, hd, hside, hrested⟩ := worker_finishes (h.runs hc) (runs_timed hc htimed) host
  have hcd := hc.trans hd
  have hundropped := runs_undropped hcd hdrop
  have hserves := reachable_servesQueue (h.runs hcd)
  have htold := reachable_told (h.runs hcd)
  obtain ⟨hidle, hqueue, -⟩ : d.worker.isIdle = true ∧ d.state.queue = [] ∧ d.state.queueOpen = true := by
    refine hrested.resolve_left fun hexited => ?_
    have hclosed := (hserves.exited hexited).1
    rw [hserves.queueOpen hundropped] at hclosed
    cases hclosed
  have hsweeps : d.sweeper.isExited = false := by
    by_contra hexited
    have hstopped := htold.exited (by simpa using hexited)
    rw [htold.unstopped hundropped] at hstopped
    cases hstopped
  obtain ⟨t, ht, hopen, hside', hpending⟩ :=
    sweeper_empties config host hsweeps (htold.unstopped hundropped)
  refine ⟨t, hcd.trans ht, ⟨?_, ?_, hpending, ?_, hopen⟩, runs_undropped (hcd.trans ht) hdrop⟩
  · rw [hside'.queue, hqueue]
  · rw [hside'.worker, hidle]
  · rw [hside'.calls, hside.calls, hcalls]

theorem dropStep_run {next : BrokerState × DropPc} (hn : dropStep b = some next) :
    Runs (system config) (Unattended host) b { b with state := next.1, drop := next.2 } := by
  have hstep : (system config).step b .dropStep = some { b with state := next.1, drop := next.2 } := by
    simp [system, step, hn]
  exact (Runs.refl b).step (a := .dropStep) trivial hstep

/-- `drop` comes to where it waits for the worker. -/
theorem drop_begins (config : Config) (host : HostView)
    (hdrop : b.drop = .stop ∨ b.drop = .cancelAll ∨ b.drop = .closeQueue) :
    ∃ t, Runs (system config) (Unattended host) b t ∧ t.drop = .joinWorker := by
  have hclose : ∀ s : ActionBroker, s.drop = .closeQueue →
      ∃ t, Runs (system config) (Unattended host) s t ∧ t.drop = .joinWorker := by
    intro s hs
    have hnext : dropStep s = some ({ s.state with queueOpen := false }, .joinWorker) := by simp [dropStep, hs]
    exact ⟨_, dropStep_run hnext, rfl⟩
  have hcancel : ∀ s : ActionBroker, s.drop = .cancelAll →
      ∃ t, Runs (system config) (Unattended host) s t ∧ t.drop = .joinWorker := by
    intro s hs
    obtain ⟨t, ht, hend⟩ := hclose { s with
      state := { s.state with
        flags := fun cell => s.state.flags cell || s.state.handles.entries.any (fun entry => entry.2 == cell) }
      drop := .closeQueue } rfl
    exact ⟨t, (dropStep_run (by simp only [dropStep, hs]; rfl)).trans ht, hend⟩
  rcases hdrop with hs | hs | hs
  · obtain ⟨t, ht, hend⟩ := hcancel { b with state := { b.state with stopped := true }, drop := .cancelAll } rfl
    exact ⟨t, (dropStep_run (by simp only [dropStep, hs]; rfl)).trans ht, hend⟩
  · exact hcancel b hs
  · exact hclose b hs

theorem drop_joins_worker (h : Reachable (system config) b) (htimed : Timed b) (host : HostView)
    (hdrop : b.drop = .joinWorker) :
    ∃ t, Runs (system config) (Unattended host) b t ∧ t.drop = .joinSweeper := by
  obtain ⟨t, ht, hside, hrested⟩ := worker_finishes h htimed host
  have hexited : t.worker.isExited = true := by
    refine hrested.resolve_right fun hopen => ?_
    have hclosed := (reachable_told h).closed (Or.inl hdrop)
    rw [hside.queueOpen, hclosed] at hopen
    cases hopen.2.2
  have hnext : dropStep t = some (t.state, .joinSweeper) := by
    simp [dropStep, hside.drop, hdrop, hexited]
  exact ⟨_, ht.trans (dropStep_run hnext), rfl⟩

theorem drop_joins_sweeper (h : Reachable (system config) b) (host : HostView) (hdrop : b.drop = .joinSweeper) :
    ∃ t, Runs (system config) (Unattended host) b t ∧ t.drop = .dropped := by
  have hleaves : ∃ t, Runs (system config) (Unattended host) b t ∧ t.sweeper.isExited = true ∧
      t.drop = .joinSweeper := by
    cases hexited : b.sweeper.isExited with
    | true => exact ⟨b, .refl b, hexited, hdrop⟩
    | false =>
      obtain ⟨t, ht, hhead, hside⟩ := sweeper_heads config host hexited
      have hstopped : t.state.stopped = true := by
        rw [hside.stopped]
        exact (reachable_told h).stopped (by simp [hdrop]) (by simp [hdrop])
      have hn : sweeperStep t.state [] t.sweeper = some (t.state, .exited) := by
        simp [sweeperStep, hhead, hstopped]
      exact ⟨_, ht.trans (sweeper_step hn), rfl, hside.drop.trans hdrop⟩
  obtain ⟨t, ht, hexited, hjoin⟩ := hleaves
  have hnext : dropStep t = some (t.state, .dropped) := by
    simp [dropStep, hjoin, hexited]
  exact ⟨_, ht.trans (dropStep_run hnext), rfl⟩

/-- A `drop` that has begun returns from wherever it and the threads it joins stand, given that
no capturing session has a start function. -/
theorem drop_returns (h : Reachable (system config) b) (hdrop : b.drop ≠ .undropped) (htimed : Timed b)
    (host : HostView) : ∃ t, Runs (system config) (Unattended host) b t ∧ t.drop = .dropped := by
  have hworker : ∀ s, Reachable (system config) s → Timed s → s.drop = .joinWorker →
      ∃ t, Runs (system config) (Unattended host) s t ∧ t.drop = .dropped := by
    intro s hs ht hjoin
    obtain ⟨t, htr, hnext⟩ := drop_joins_worker hs ht host hjoin
    obtain ⟨u, hu, hend⟩ := drop_joins_sweeper (hs.runs htr) host hnext
    exact ⟨u, htr.trans hu, hend⟩
  have hearly : b.drop = .stop ∨ b.drop = .cancelAll ∨ b.drop = .closeQueue →
      ∃ t, Runs (system config) (Unattended host) b t ∧ t.drop = .dropped := by
    intro hbegun
    obtain ⟨t, ht, hjoin⟩ := drop_begins config host hbegun
    obtain ⟨u, hu, hend⟩ := hworker t (h.runs ht) (runs_timed ht htimed) hjoin
    exact ⟨u, ht.trans hu, hend⟩
  cases hd : b.drop with
  | undropped => exact absurd hd hdrop
  | stop => exact hearly (Or.inl hd)
  | cancelAll => exact hearly (Or.inr (Or.inl hd))
  | closeQueue => exact hearly (Or.inr (Or.inr hd))
  | joinWorker => exact hworker b h htimed hd
  | joinSweeper => exact drop_joins_sweeper h host hd
  | dropped => exact ⟨b, .refl b, hd⟩

end Drop

def busy : List Act := submission 0 1 false .readWrite ++ parking ++ ([.worker] : List Act) ++
  submission 1 2 true .read ++ submission 2 3 false .read ++
  ([.worker, .worker, .worker, .worker, .runtime .main, .runtime (.build sampleHost), .runtime .main,
    .runtime .instantiated] : List Act)

theorem busy_broker_comes_to_rest : ∃ b t : ActionBroker, b.worker.isIdle = false ∧ b.state.queue.length = 1 ∧
    b.state.pending.entries.length = 1 ∧
      Runs (system sampleConfig) (Unattended sampleHost) b t ∧ Quiescent t ∧ t.drop = .undropped := by
  obtain ⟨b, hb, hdrop, htimed, hworker, hqueue, hpending⟩ := (system sampleConfig).reachable_of_replay
    (fun b => b.drop = .undropped ∧ Timed b ∧ b.worker.isIdle = false ∧ b.state.queue.length = 1 ∧
      b.state.pending.entries.length = 1) busy (by decide)
  obtain ⟨t, ht, hq, hundropped⟩ := comes_to_rest hb hdrop htimed sampleHost
  exact ⟨b, t, hworker, hqueue, hpending, ht, hq, hundropped⟩

theorem busy_broker_drops : ∃ b t : ActionBroker, b.drop = .stop ∧ b.worker.isIdle = false ∧
    Runs (system sampleConfig) (Unattended sampleHost) b t ∧ t.drop = .dropped := by
  obtain ⟨b, hb, hdrop, htimed, hworker⟩ := (system sampleConfig).reachable_of_replay
    (fun b => b.drop = .stop ∧ Timed b ∧ b.worker.isIdle = false) (busy ++ ([.drop] : List Act)) (by decide)
  obtain ⟨t, ht, hend⟩ := drop_returns hb (by rw [hdrop]; simp) htimed sampleHost
  exact ⟨b, t, hdrop, hworker, ht, hend⟩

end FerrousRuntime.Broker
