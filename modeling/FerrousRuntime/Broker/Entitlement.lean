import FerrousRuntime.Broker.AuditFaith
import FerrousRuntime.Runtime.PathAgreement
import FerrousRuntime.Runtime.StoreAuthority

/-! # From the human to the guest

Whatever guest is executing in a broker runs on a store of its own session's request, which
gives it that request's rights and no others; and more than reading its roots only after an
approval took the session.
-/
namespace FerrousRuntime.Runtime
open Policy Command

def Phase.storeless : Phase → Bool
  | .lock | .build | .returned _ | .unwound => true
  | _ => false

namespace WasiRun

/-- Past `build_store` the run has the store that was built for its request. -/
def Provided (run : WasiRun) : Prop :=
  run.phase.storeless = true ∨
    ∃ built, run.built = some built ∧ buildStore built.host run.request = .ok built.store

variable {run : WasiRun} {flag : Bool} {epoch : ℕ} {act : RunAct} {effect : Effect}

theorem buildStep_provided (run : WasiRun) (epoch : ℕ) (host : HostView) : (run.buildStep epoch host).Provided := by
  unfold buildStep
  split
  · exact Or.inl rfl
  · rename_i store hstore
    exact Or.inr ⟨⟨host, store⟩, rfl, hstore⟩

theorem guestWrite_built (run : WasiRun) (stream : Stream) (bytes : List UInt8) :
    (run.guestWrite stream bytes).built = run.built := by
  rcases guestWrite_cases run stream bytes with he | he | ⟨pipe, -, -, he⟩ | ⟨pipe, -, -, he⟩ <;> rw [he]
  · rfl
  · cases stream <;> rfl
  · cases stream <;> rfl

theorem step_built (he : run.step flag epoch act = some effect) (hphase : run.phase ≠ .build) :
    effect.run.built = run.built := by
  apply step_elim (P := fun next _ _ => next.built = run.built) he
  case main =>
    intro next hn
    cases hn <;> rfl
  case build => exact fun host hp => absurd hp hphase
  case write => exact fun stream bytes _ _ => guestWrite_built run stream bytes
  case compute => exact fun _ => rfl
  case instantiated => exact fun _ => rfl
  case guestEnd => exact fun _ _ => rfl
  case watchdog => exact fun _ _ _ _ _ _ => rfl
  case reader =>
    intro elapsed reader next _ hn
    cases hn <;> rfl

theorem step_storeless (he : run.step flag epoch act = some effect) (hphase : run.phase ≠ .build)
    (h : run.phase.storeless = true) : effect.run.phase.storeless = true := by
  apply step_elim (P := fun run _ _ => run.phase.storeless = true) he
  case main =>
    intro next hn
    cases hn with
    | locked hp | classified guestEnd hp => rfl
    | spawned hp | endedStdout guestEnd hp | endedStderr guestEnd hp | stopped guestEnd hp
    | joined guestEnd stdout stderr hp => simp [hp, Phase.storeless] at h
  case build => exact fun host hp => absurd hp hphase
  case write =>
    intro stream bytes _ hg
    rcases guestExecuting_phase hg with hp | hp <;> simp [hp, Phase.storeless] at h
  case compute => exact fun _ => h
  case instantiated =>
    intro hp
    simp [hp, Phase.storeless] at h
  case guestEnd =>
    intro guestEnd hc
    unfold canEnd at hc
    cases guestEnd <;> cases hp : run.phase <;> simp_all [Phase.storeless]
  case watchdog => exact fun _ _ _ _ _ _ => h
  case reader =>
    intro elapsed reader next _ hn
    cases hn <;> exact h

theorem step_provided (he : run.step flag epoch act = some effect) (h : run.Provided) : effect.run.Provided := by
  by_cases hphase : run.phase = .build
  · apply step_elim (P := fun run _ _ => run.Provided) he
    case main =>
      intro next hn
      cases hn <;> simp_all only [reduceCtorEq]
    case build => exact fun host _ => buildStep_provided run epoch host
    case write =>
      intro stream bytes _ hg
      rcases guestExecuting_phase hg with hp | hp <;> simp [hphase] at hp
    case compute => exact fun _ => h
    case instantiated => exact fun hp => absurd (hphase.symm.trans hp) (by simp)
    case guestEnd =>
      intro guestEnd hc
      cases guestEnd <;> simp [canEnd, hphase] at hc
    case watchdog => exact fun _ _ _ _ _ _ => h
    case reader =>
      intro elapsed reader next _ hn
      cases hn <;> exact h
  · rcases h with hearly | ⟨built, hbuilt, hstore⟩
    · exact Or.inl (step_storeless he hphase hearly)
    · exact Or.inr ⟨built, (step_built he hphase).trans hbuilt, (step_params he).2.2.1 ▸ hstore⟩

theorem Provided.store (h : run.Provided) (hg : run.guestExecuting) :
    ∃ built, run.built = some built ∧ buildStore built.host run.request = .ok built.store := by
  rcases h with hearly | hstore
  · rcases guestExecuting_phase hg with hp | hp <;> simp [hp, Phase.storeless] at hearly
  · exact hstore

end WasiRun

/-- Who is not asked about a request gets no more from it than reading. -/
theorem confers_reading {host : HostView} {request : CommandRequest} {store : Store}
    (hrisk : classifyRisk request = .autoApprove) (h : buildStore host request = .ok store)
    {builder : SocketConfig} {right : Right} (hright : store.Confers builder right) :
    ∃ root, right = .read root := by
  obtain ⟨granted, hgranted, hon⟩ := (buildStore_confers h builder right).mp hright
  have hworst := (classifyRisk_classified request).isLUB.1 ⟨granted, Or.inr hgranted, rfl⟩
  rw [hrisk, Risk.le_iff] at hworst
  cases granted with
  | read root =>
    obtain ⟨place, -, rfl⟩ := Option.map_eq_some_iff.mp hon
    exact ⟨place, rfl⟩
  | _ => simp [Right.risk, Risk.weight] at hworst

end FerrousRuntime.Runtime

namespace FerrousRuntime.Broker
open Tally Transition Policy FerrousRuntime.Runtime

section Reachable
variable {config : Config} {b t : ActionBroker} {act : Act}

def WorkerPc.Equipped : WorkerPc → Prop
  | .running job _ run => run.request = job.request ∧ run.Provided
  | _ => True

theorem workerStep_equipped {s : BrokerState} {pc : WorkerPc} {next : BrokerState × WorkerPc}
    (he : workerStep config s pc = some next) : next.2.Equipped := by
  cases workerStep_cases he with
  | invoked job cell channel session => exact ⟨rfl, Or.inl rfl⟩
  | started job cell => exact ⟨rfl, Or.inl rfl⟩
  | _ => trivial

theorem reachable_equipped (h : Reachable (system config) b) : b.worker.Equipped := by
  refine Reachable.invariant (P := fun b => b.worker.Equipped) (fun b act t he hp => ?_) h trivial
  refine step_position (fun _ hn => workerStep_equipped hn) ?_ (fun _ => trivial) he hp
  rintro job cell run flag epoch a effect ⟨hrequest, hprovided⟩ heff
  exact ⟨(WasiRun.step_params heff).2.2.1.trans hrequest, WasiRun.step_provided heff hprovided⟩

theorem reachable_strays_unwound (h : Reachable (system config) b) :
    ∀ stray ∈ b.strays, stray.run.phase = .unwound := by
  refine Reachable.invariant (P := fun b => ∀ stray ∈ b.strays, stray.run.phase = .unwound) ?_ h
    (by simp [system, ActionBroker.initial])
  intro b act t he hp
  apply step_elim (P := fun t => ∀ stray ∈ t.strays, stray.run.phase = .unwound) he
  case unwind =>
    intro next _ hn stray hs
    rcases List.mem_append.mp hs with hs | hs
    · exact hp stray hs
    · obtain ⟨job, cell, run, -, -, rfl⟩ := unwindStep_cases hn
      cases List.mem_singleton.mp hs
      rfl
  case stray =>
    intro index elapsed old next _ hold hn stray hs
    rcases List.mem_or_eq_of_mem_set hs with hs | rfl
    · exact hp stray hs
    · obtain ⟨effect, heff, rfl⟩ := Option.map_eq_some_iff.mp hn
      exact (WasiRun.watch_phase heff).2.trans (hp old (List.mem_of_getElem? hold))
  all_goals
    intros
    exact hp _ ‹_›

/-- The guest that executes now, wherever its run is kept. -/
inductive Executing (b : ActionBroker) (job : Job) (run : WasiRun) : Prop
  | worker (cell : ℕ) : b.worker = .running job cell run → run.guestExecuting → Executing b job run
  | stray (stray : Stray) : stray ∈ b.strays → stray.run = run → stray.key = job.key → run.guestExecuting →
    Executing b job run

/-- A guest executes on a store that gives it what its session was granted, and beyond reading
only what an approval of this session has released. -/
theorem nothing_beyond_reading_unapproved (h : Reachable (system config) b) {job : Job} {run : WasiRun}
    (hg : Executing b job run) : ∃ built, run.built = some built ∧
      buildStore built.host job.request = .ok built.store ∧
      (∀ builder right, built.store.Confers builder right →
        ∃ granted ∈ rightsOf job.request.grant, onHost built.host granted = some right) ∧
      ((∀ builder right, built.store.Confers builder right → ∃ root, right = .read root) ∨
        ∃ call taken, .took (.approve call) taken ∈ b.state.history ∧ taken.key = job.key) := by
  cases hg with
  | stray stray hs hrun _ hg =>
    have hunwound := reachable_strays_unwound h stray hs
    subst hrun
    simp [WasiRun.guestExecuting, hunwound] at hg
  | worker cell hw hg =>
    have hequipped := reachable_equipped h
    have htraced := reachable_traced h
    rw [hw] at hequipped htraced
    obtain ⟨hrequest, hprovided⟩ := hequipped
    obtain ⟨built, hbuilt, hstore⟩ := hprovided.store hg
    rw [hrequest] at hstore
    refine ⟨built, hbuilt, hstore, fun builder right => (buildStore_confers hstore builder right).mp, ?_⟩
    obtain ⟨ran, hran, hranrequest, hsink, -⟩ := htraced
    cases executed_admitted h ran hran with
    | autoApproved _ hrisk =>
      rw [hranrequest] at hrisk
      exact Or.inl (fun builder right hright => confers_reading hrisk hstore hright)
    | approved call taken heq htook _ =>
      refine Or.inr ⟨call, taken, htook, ?_⟩
      rw [heq] at hsink
      exact congrArg JobSink.channel hsink

end Reachable

def approvedGuest : List Act := approvedSession ++ ([.worker, .runtime .main, .runtime (.build sampleHost),
  .runtime .instantiated, .runtime .main] : List Act)

theorem approved_guest_entitled : ∃ (b : ActionBroker) (job : Job) (run : WasiRun), Executing b job run ∧
    ∃ built, run.built = some built ∧ buildStore built.host job.request = .ok built.store ∧
      ((∀ builder right, built.store.Confers builder right → ∃ root, right = .read root) ∨
        ∃ call taken, .took (.approve call) taken ∈ b.state.history ∧ taken.key = job.key) := by
  obtain ⟨b, hb, hexecuting⟩ := (system sampleConfig).reachable_of_replay
    (fun b => (match b.worker with | .running _ _ run => decide run.guestExecuting | _ => false) = true)
    approvedGuest (by decide)
  cases hw : b.worker with
  | running job cell run =>
    rw [hw] at hexecuting
    have hg : Executing b job run := .worker cell hw (of_decide_eq_true hexecuting)
    obtain ⟨built, hbuilt, hstore, -, hentitled⟩ := nothing_beyond_reading_unapproved hb hg
    exact ⟨b, job, run, hg, built, hbuilt, hstore, hentitled⟩
  | _ => simp [hw] at hexecuting

end FerrousRuntime.Broker
