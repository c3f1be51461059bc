import FerrousRuntime.Broker.Inversion
import FerrousRuntime.Runtime.Watchdog

/-! # The reader a panic leaves behind

The reader of a streaming run leaves its loop at the end of both pipes, and only the thread
that called the runtime marks the ends, once its guest has stopped. A panic in the guest call
unwinds past both marks and past the join, and `process_job_guarded` knows of neither.
-/
namespace FerrousRuntime.Runtime
open Capability Command Pipe Transition

def ReaderPc.turnsToTick : ReaderPc → ℕ
  | .tick | .burst (_ + 1) => 0
  | .cancelled => 1
  | .closeStderr => 2
  | .closeStdout => 3
  | .budget => 4
  | .sendStderr _ => 5
  | .drainStderr => 6
  | .sendStdout _ => 7
  | .drainStdout => 8
  | .eof => 9
  | .burst 0 => 10

namespace WasiRun
variable {run : WasiRun} {reader : Reader} {cancelled elapsed : Bool}

/-- The reader is in its loop, and neither pipe has been marked as ended. -/
structure Leftover (run : WasiRun) (reader : Reader) : Prop where
  watcher : run.watcher = .reader reader
  stdout : run.stdout.state.eof = false
  stderr : run.stderr.state.eof = false
  outEof : reader.outEof = false
  errEof : reader.errEof = false

/-- Wherever the guest call unwinds, the reader has seen no end of either pipe. -/
theorem StreamingInv.leftover (h : run.StreamingInv)
    (hp : run.phase = .instantiate ∨ run.phase = .call) : ∃ reader, run.unwind.Leftover reader := by
  obtain ⟨reader, hr⟩ := h.spawned hp
  have hbefore : BeforeEof run.phase := by
    rcases hp with hp | hp <;> simp [hp, BeforeEof]
  obtain ⟨hout, herr⟩ := h.open_ hbefore
  obtain ⟨hsawOut, hsawErr⟩ := h.marks reader hr
  refine ⟨reader, hr, hout, herr, ?_, ?_⟩
  · rw [Bool.eq_false_iff]
    intro hsaw
    rw [hout] at hsawOut
    cases hsawOut hsaw
  · rw [Bool.eq_false_iff]
    intro hsaw
    rw [herr] at hsawErr
    cases hsawErr hsaw

theorem Leftover.step {next : WasiRun × ℕ × Option SessionEvent} (h : run.Leftover reader)
    (hn : ReaderSteps cancelled elapsed run reader next) : ∃ reader', next.1.Leftover reader' ∧
      (elapsed = true → next.2.1 = 1 ∨ reader'.pc.turnsToTick < reader.pc.turnsToTick) := by
  cases hn with
  | drainedStdout hpc =>
    refine ⟨_, ⟨rfl, h.stdout, h.stderr, h.stdout, h.errEof⟩, fun _ => Or.inr ?_⟩
    rw [hpc]
    dsimp only
    split <;> simp [ReaderPc.turnsToTick]
  | drainedStderr hpc =>
    refine ⟨_, ⟨rfl, h.stdout, h.stderr, h.outEof, h.stderr⟩, fun _ => Or.inr ?_⟩
    rw [hpc]
    dsimp only
    split <;> simp [ReaderPc.turnsToTick]
  | sawCancelled hpc =>
    -- the burst has at least one increment in it
    obtain ⟨left, hleft⟩ := Nat.exists_eq_add_one.mpr run.request.grant.limits.epochTicks_pos
    refine ⟨_, ⟨rfl, h.stdout, h.stderr, h.outEof, h.errEof⟩, fun _ => Or.inr ?_⟩
    simp [hpc, WasiRun.epochTicks, hleft, ReaderPc.turnsToTick]
  | bumped left => exact ⟨_, ⟨rfl, h.stdout, h.stderr, h.outEof, h.errEof⟩, fun _ => Or.inl rfl⟩
  | ticked =>
    refine ⟨_, ⟨rfl, h.stdout, h.stderr, h.outEof, h.errEof⟩, fun helapsed => Or.inl ?_⟩
    exact if_pos helapsed
  | left _ hout =>
    rw [h.outEof] at hout
    cases hout
  | sentStdout _ hpc | sentStderr _ hpc | overBudget hpc | withinBudget hpc | closedStdout hpc
  | closedStderr hpc | sawUncancelled hpc | spent hpc | looped hpc =>
    refine ⟨_, ⟨rfl, h.stdout, h.stderr, h.outEof, h.errEof⟩, fun _ => Or.inr ?_⟩
    simp [hpc, ReaderPc.turnsToTick]

end WasiRun

end FerrousRuntime.Runtime

namespace FerrousRuntime.Broker
open Capability Command Policy FerrousRuntime.Runtime Transition

/-- Once `process_job_guarded` has returned to the worker's loop, the reader with this index
increments no epoch and sends nothing. -/
def LeavesNothing (config : Config) (c : ActionBroker) (index : ℕ) : Prop :=
  ∀ d e f elapsed, Runs (system config) Free c d → d.worker = .idle → Runs (system config) Free d e →
    step config e (.stray index elapsed) = some f →
      f.state.epoch = e.state.epoch ∧ f.state.history = e.state.history

def Lingers (index turns : ℕ) (b : ActionBroker) : Prop :=
  ∃ stray reader, b.strays[index]? = some stray ∧ stray.run.Leftover reader ∧
    reader.pc.turnsToTick = turns

def WorkerPc.Streaming : WorkerPc → Prop
  | .running _ _ run => run.path = .events → run.StreamingInv
  | _ => True

section Steps
variable {config : Config} {b c t : ActionBroker} {act : Act} {index : ℕ}

theorem workerStep_streaming {s : BrokerState} {pc : WorkerPc} {next : BrokerState × WorkerPc}
    (he : workerStep config s pc = some next) : next.2.Streaming := by
  cases workerStep_cases he with
  | invoked job cell => exact fun hpath => by cases hpath
  | started job cell => exact fun _ => WasiRun.streamingInv_start job.component job.request true
  | _ => trivial

theorem step_streaming (he : step config b act = some t) (h : b.worker.Streaming) :
    t.worker.Streaming := by
  refine step_position (fun _ hn => workerStep_streaming hn) ?_ (fun _ => trivial) he h
  intro job cell run flag epoch a effect hrun heff hpath
  exact WasiRun.step_streamingInv (hrun ((WasiRun.step_params heff).1.symm.trans hpath)) heff

theorem reachable_streaming (h : Reachable (system config) b) : b.worker.Streaming :=
  Reachable.invariant (P := fun b => b.worker.Streaming) (fun _ _ _ he hs => step_streaming he hs) h trivial

theorem emit_epoch (s : BrokerState) (key : ℕ) (event : Option SessionEvent) :
    (s.emit key event).epoch = s.epoch := by cases event <;> rfl

/-- The reader can always take its next turn, and no turn of its is the last. -/
theorem strayStep_leftover {stray : Stray} {reader : Reader} (s : BrokerState) (elapsed : Bool)
    (h : stray.run.Leftover reader) : ∃ next reader', strayStep s elapsed stray = some next ∧
      next.2.run.Leftover reader' ∧ (elapsed = true →
        next.1.epoch = s.epoch + 1 ∨ reader'.pc.turnsToTick < reader.pc.turnsToTick) := by
  let turn := stray.run.readerStep (stray.run.cancellable && s.flags stray.cell) elapsed reader
  have hturn : stray.run.step (s.flags stray.cell) s.epoch (.watch elapsed) =
      some ⟨turn.1, s.epoch + turn.2.1, turn.2.2⟩ := by
    simp only [WasiRun.step, h.watcher, turn]
  obtain ⟨reader', hnext, hcloser⟩ := h.step (stray.run.readerStep_cases _ elapsed reader)
  refine ⟨(BrokerState.emit { s with epoch := s.epoch + turn.2.1 } stray.key turn.2.2,
    { stray with run := turn.1 }), reader', by simp only [strayStep, hturn, Option.map_some], hnext, ?_⟩
  intro helapsed
  refine (hcloser helapsed).imp_left ?_
  intro hbump
  rw [emit_epoch]
  exact congrArg (s.epoch + ·) hbump

theorem step_lingers {turns : ℕ} (h : Lingers index turns b) (he : step config b act = some t) :
    ∃ turns', Lingers index turns' t := by
  obtain ⟨stray, reader, hs, hleft, -⟩ := h
  have hindex := (List.getElem?_eq_some_iff.mp hs).1
  apply step_elim (P := fun t => ∃ turns', Lingers index turns' t) he
  case unwind =>
    intro next _ _
    exact ⟨_, stray, reader, (List.getElem?_append_left hindex).trans hs, hleft, rfl⟩
  case stray =>
    intro i elapsed other next _ hother hn
    by_cases hi : i = index
    · subst hi
      cases hs.symm.trans hother
      obtain ⟨next', reader', hn', hleft', -⟩ := strayStep_leftover b.state elapsed hleft
      cases hn.symm.trans hn'
      exact ⟨_, next.2, reader', List.getElem?_set_self hindex, hleft', rfl⟩
    · exact ⟨_, stray, reader, (List.getElem?_set_ne hi).trans hs, hleft, rfl⟩
  all_goals
    intros
    exact ⟨_, stray, reader, hs, hleft, rfl⟩

theorem runs_lingers {turns : ℕ} (h : Lingers index turns b) (hr : Runs (system config) Free b c) :
    ∃ turns', Lingers index turns' c := by
  refine Runs.invariant (P := fun b => ∃ turns, Lingers index turns b) ?_ hr ⟨turns, h⟩
  rintro s a t - he ⟨n, hs⟩
  exact step_lingers hs he

def Ticks (config : Config) (index : ℕ) (b : ActionBroker) : Prop :=
  ∃ t, step config b (.stray index true) = some t ∧ t.state.epoch = b.state.epoch + 1

theorem lingers_ticks {turns : ℕ} (h : Lingers index turns b) :
    ∃ c, Runs (system config) Free b c ∧ Ticks config index c := by
  refine Runs.progress (P := Lingers index) ?_ h
  rintro n s ⟨stray, reader, hs, hleft, rfl⟩
  obtain ⟨next, reader', hn, hleft', hturn⟩ := strayStep_leftover s.state true hleft
  have he : step config s (.stray index true) =
      some { s with state := next.1, strays := s.strays.set index next.2 } := by
    simp only [step, hs, hn, Option.bind_some, Option.map_some]
  rcases hturn rfl with htick | hcloser
  · exact Or.inl ⟨_, he, htick⟩
  · refine Or.inr ⟨_, hcloser, .stray index true, _, trivial, he, next.2, reader', ?_, hleft', rfl⟩
    exact List.getElem?_set_self (List.getElem?_eq_some_iff.mp hs).1

theorem guarded_returns {job : Job} (hw : b.worker = .closing job.panic) :
    ∃ d, Runs (system config) Free b d ∧ d.worker = .idle := by
  obtain ⟨state, calls, worker, sweeper, drop, strays⟩ := b
  cases hw
  refine ⟨_, .step (a := .worker) (.step (a := .worker) (.step (a := .worker) (.refl _) trivial rfl)
    trivial rfl) trivial rfl, rfl⟩

theorem unwind_lingers {job : Job} {cell : ℕ} {run : WasiRun} (hb : Reachable (system config) b)
    (hw : b.worker = .running job cell run) (hpath : run.path = .events)
    (hphase : run.phase = .instantiate ∨ run.phase = .call) (hc : step config b .unwind = some c) :
    c.worker = .closing job.panic ∧ ∃ turns, Lingers b.strays.length turns c := by
  have hstreaming := reachable_streaming hb
  rw [hw] at hstreaming
  obtain ⟨reader, hleft⟩ := (hstreaming hpath).leftover hphase
  obtain ⟨next, hn, rfl⟩ := Option.map_eq_some_iff.mp hc
  obtain ⟨job', cell', run', hrun, -, rfl⟩ := unwindStep_cases hn
  cases hw.symm.trans hrun
  refine ⟨rfl, _, ⟨job.key, cell, run.unwind⟩, reader, ?_, hleft, rfl⟩
  rw [List.getElem?_append_right le_rfl, Nat.sub_self]
  rfl

end Steps

/-- Wherever instantiation or the guest call of a streaming session unwinds, its reader stays
behind: it is still in its loop in every later state, and from there comes to tick again. -/
theorem unwound_reader_stays {config : Config} {b c : ActionBroker} {job : Job} {cell : ℕ} {run : WasiRun}
    (hb : Reachable (system config) b) (hw : b.worker = .running job cell run)
    (hpath : run.path = .events) (hphase : run.phase = .instantiate ∨ run.phase = .call)
    (hc : step config b .unwind = some c) :
    ¬ LeavesNothing config c b.strays.length ∧ ∀ d, Runs (system config) Free c d →
      (∃ turns, Lingers b.strays.length turns d) ∧
      ∃ e, Runs (system config) Free d e ∧ Ticks config b.strays.length e := by
  obtain ⟨hclosing, turns, hlingers⟩ := unwind_lingers hb hw hpath hphase hc
  have hstays : ∀ d, Runs (system config) Free c d → (∃ turns, Lingers b.strays.length turns d) ∧
      ∃ e, Runs (system config) Free d e ∧ Ticks config b.strays.length e := by
    intro d hd
    obtain ⟨n, hn⟩ := runs_lingers hlingers hd
    exact ⟨⟨n, hn⟩, lingers_ticks hn⟩
  refine ⟨?_, hstays⟩
  intro hnothing
  obtain ⟨d, hd, hidle⟩ := guarded_returns hclosing
  obtain ⟨-, e, he, f, hf, htick⟩ := hstays d hd
  have hsame := (hnothing d e f true hd hidle he hf).1
  omega

def callingSession : List Act := submission 0 1 true .read ++
  ([.worker, .worker, .worker, .worker, .runtime .main, .runtime (.build sampleHost), .runtime .main,
    .runtime .instantiated] : List Act)

theorem calling_session : ∃ b c job cell run, Reachable (system sampleConfig) b ∧
    b.worker = .running job cell run ∧ run.path = .events ∧ run.phase = .call ∧
      step sampleConfig b .unwind = some c := by
  have hreplay : ∃ b c job cell run, (system sampleConfig).replay Free .initial callingSession = some b ∧
      b.worker = .running job cell run ∧ run.path = .events ∧ run.phase = .call ∧
      step sampleConfig b .unwind = some c := ⟨_, _, _, _, _, rfl, rfl, rfl, rfl, rfl⟩
  obtain ⟨b, c, job, cell, run, hb, hrest⟩ := hreplay
  exact ⟨b, c, job, cell, run, System.replay_runs _ Free hb, hrest⟩

theorem calling_session_leaves_reader : ∃ b c : ActionBroker, Reachable (system sampleConfig) b ∧
    step sampleConfig b .unwind = some c ∧ ¬ LeavesNothing sampleConfig c b.strays.length := by
  obtain ⟨b, c, job, cell, run, hb, hw, hpath, hphase, hc⟩ := calling_session
  exact ⟨b, c, hb, hc, (unwound_reader_stays hb hw hpath (Or.inr hphase) hc).1⟩

theorem unwound_session_ticks : ∃ b c d e f : ActionBroker, ∃ job cell run,
    Reachable (system sampleConfig) b ∧ b.worker = .running job cell run ∧ run.path = .events ∧
      run.phase = .call ∧ step sampleConfig b .unwind = some c ∧
      Runs (system sampleConfig) Free c d ∧ d.worker = .idle ∧ Runs (system sampleConfig) Free d e ∧
      step sampleConfig e (.stray 0 true) = some f ∧ f.state.epoch ≠ e.state.epoch ∧
      ¬ LeavesNothing sampleConfig c 0 := by
  have hreplay : ∃ b c d e f job cell run,
      (system sampleConfig).replay Free .initial callingSession = some b ∧
      b.worker = .running job cell run ∧ run.path = .events ∧ run.phase = .call ∧
      step sampleConfig b .unwind = some c ∧
      (system sampleConfig).replay Free c (List.replicate 3 .worker) = some d ∧ d.worker = .idle ∧
      (system sampleConfig).replay Free d (List.replicate 4 (.stray 0 true)) = some e ∧
      step sampleConfig e (.stray 0 true) = some f ∧ e.state.epoch = 0 ∧ f.state.epoch = 1 :=
    ⟨_, _, _, _, _, _, _, _, rfl, rfl, rfl, rfl, rfl, rfl, rfl, rfl, rfl, rfl, rfl⟩
  obtain ⟨b, c, d, e, f, job, cell, run, hb, hw, hpath, hphase, hc, hd, hidle, he, hf, hzero, hone⟩ := hreplay
  have hd := System.replay_runs _ Free hd
  have he := System.replay_runs _ Free he
  have hmoved : f.state.epoch ≠ e.state.epoch := by rw [hzero, hone]; decide
  refine ⟨b, c, d, e, f, job, cell, run, System.replay_runs _ Free hb, hw, hpath, hphase, hc, hd, hidle, he,
    hf, hmoved, ?_⟩
  exact fun hnothing => hmoved (hnothing d e f true hd hidle he hf).1

end FerrousRuntime.Broker
