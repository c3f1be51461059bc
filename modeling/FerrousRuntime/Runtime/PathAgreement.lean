import FerrousRuntime.Runtime.Guest

/-! # The two paths agree

Either path runs its guest as the reference does: it gives the guest the same answers until
the guest ends, and then turns that end into the same result. The streaming path's hard
close is the one thing that could tell them apart, and it takes a guest whose accepted
output exceeds the budget.
-/
namespace FerrousRuntime.Runtime
open Capability Command Pipe Transition

namespace WasiRun
variable {run : WasiRun} {flag : Bool} {epoch : ℕ} {act : RunAct} {effect : Effect}

/-- The pipes that the guest's streams are connected to. -/
def memory (run : WasiRun) : Stream → MemoryOutputPipe :=
  match run.path with
  | .events => fun stream => (run.pipe stream).toMemory
  | .inner => run.captured

theorem acceptedBytes_eq (run : WasiRun) : run.acceptedBytes =
    (run.memory .stdout).buffer.length + (run.memory .stderr).buffer.length := by
  unfold acceptedBytes memory
  cases run.path <;> rfl

/-- The streaming path's pipes are open, and the reader is not about to close them. -/
structure Unclosed (run : WasiRun) : Prop where
  pipes : ∀ stream, (run.pipe stream).state.closed = false
  reader : ∀ reader, run.watcher = .reader reader → reader.pc ≠ .closeStdout ∧ reader.pc ≠ .closeStderr

def ReadsWithin (run : WasiRun) : Prop :=
  ∀ reader, run.watcher = .reader reader →
    reader.totalStdout.length + reader.totalStderr.length ≤ run.budget

theorem readerStep_unclosed {reader : Reader} {cancelled elapsed : Bool}
    {turn : WasiRun × ℕ × Option SessionEvent} (h : run.Unclosed) (hr : run.watcher = .reader reader)
    (hwithin : run.ReadsWithin) (hn : ReaderSteps cancelled elapsed run reader turn) :
    turn.1.Unclosed := by
  have hpc := h.reader reader hr
  cases hn with
  | drainedStdout | drainedStderr =>
    refine ⟨fun stream => ?_, ?_⟩
    · cases stream
      · exact h.pipes .stdout
      · exact h.pipes .stderr
    · rintro _ ⟨⟩
      dsimp only
      split <;> simp
  | overBudget _ _ hover => exact absurd (hwithin reader hr) hover.not_ge
  | closedStdout hclose => exact absurd hclose hpc.1
  | closedStderr hclose => exact absurd hclose hpc.2
  | left =>
    refine ⟨h.pipes, ?_⟩
    rintro _ ⟨⟩
  | _ =>
    refine ⟨h.pipes, ?_⟩
    rintro _ ⟨⟩
    simp

/-- Only the reader closes a pipe, and only beyond the budget. -/
theorem step_unclosed (h : run.Unclosed) (hwithin : run.ReadsWithin)
    (he : run.step flag epoch act = some effect) : effect.run.Unclosed := by
  apply step_elim (P := fun run _ _ => Unclosed run) he
  case main =>
    intro next hn
    cases hn with
    | spawned =>
      refine ⟨h.pipes, ?_⟩
      intro reader hr
      cases hp : run.path <;> simp only [hp, spawned, reduceCtorEq, Watcher.reader.injEq] at hr
      subst hr
      simp
    | endedStdout | endedStderr =>
      refine ⟨fun stream => ?_, h.reader⟩
      cases stream
      · exact h.pipes .stdout
      · exact h.pipes .stderr
    | _ => exact ⟨h.pipes, h.reader⟩
  case build =>
    intro host _
    unfold buildStep
    split <;> exact ⟨h.pipes, h.reader⟩
  case write =>
    intro stream bytes _ _
    rcases guestWrite_cases run stream bytes with he | he | ⟨pipe, -, hw, he⟩ | ⟨pipe, -, -, he⟩ <;>
      rw [he]
    · exact h
    · exact ⟨h.pipes, h.reader⟩
    · obtain ⟨-, -, rfl⟩ := StreamOutputPipe.write_eq_ok hw
      have hout := h.pipes .stdout
      have herr := h.pipes .stderr
      refine ⟨fun other => ?_, ?_⟩
      · cases stream <;> cases other
        · exact hout
        · exact herr
        · exact hout
        · exact herr
      · cases stream <;> exact h.reader
    · refine ⟨fun other => ?_, ?_⟩
      · cases stream <;> exact h.pipes other
      · cases stream <;> exact h.reader
  case compute => exact fun _ => h
  case instantiated => exact fun _ => ⟨h.pipes, h.reader⟩
  case guestEnd => exact fun _ _ => ⟨h.pipes, h.reader⟩
  case watchdog =>
    intro elapsed pc ticks next _ hn
    refine ⟨h.pipes, fun reader hr => ?_⟩
    rcases watchdogStep_kind hn with ⟨_, _, hnext⟩ | hnext <;> cases hnext.symm.trans hr
  case reader => exact fun elapsed reader turn hr hn => readerStep_unclosed h hr hwithin hn

theorem Collects.readsWithin (h : run.Collects) (hpath : run.path = .events)
    (hwithin : run.acceptedBytes ≤ run.budget) : run.ReadsWithin := by
  intro reader hr
  have hout := congrArg List.length (h.totals reader hr .stdout)
  have herr := congrArg List.length (h.totals reader hr .stderr)
  simp only [Reader.total, List.length_take, WasiRun.pipe] at hout herr
  simp only [acceptedBytes, hpath] at hwithin
  omega

theorem setPipe_memory (hpath : run.path = .events) (stream : Stream) (pipe : StreamOutputPipe) :
    (run.setPipe stream pipe).memory = Function.update run.memory stream pipe.toMemory := by
  funext other
  cases stream <;> cases other <;> simp [memory, setPipe, WasiRun.pipe, hpath]

theorem setCaptured_memory (hpath : run.path = .inner) (stream : Stream) (pipe : MemoryOutputPipe) :
    (run.setCaptured stream pipe).memory = Function.update run.memory stream pipe := by
  funext other
  cases stream <;> cases other <;> simp [memory, setCaptured, captured, hpath]

theorem guestWrite_memory (h : run.Unclosed) (stream : Stream) (bytes : List UInt8) :
    (∃ pipe, (run.memory stream).write bytes = .ok pipe ∧ run.writeResult stream bytes = .ok () ∧
      (run.guestWrite stream bytes).memory = Function.update run.memory stream pipe ∧
      (run.guestWrite stream bytes).phase = run.phase ∧ (run.guestWrite stream bytes).path = run.path) ∨
    ∃ message message', (run.memory stream).write bytes = .error (.trap message) ∧
      run.writeResult stream bytes = .error (.trap message') ∧
      run.guestWrite stream bytes = run.stopGuest (trapEnd run.phase) := by
  cases hpath : run.path with
  | events =>
    have hmemory : run.memory stream = (run.pipe stream).toMemory := by simp [memory, hpath]
    rw [hmemory]
    simp only [writeResult, guestWrite, hpath]
    rcases StreamOutputPipe.write_toMemory (h.pipes stream) bytes with
      ⟨pipe, hw, hm⟩ | ⟨message, message', hw, hm⟩
    · refine Or.inl ⟨_, hm, by simp [hw, Except.map], ?_⟩
      simp only [hw]
      exact ⟨setPipe_memory hpath stream pipe, by cases stream <;> rfl, by cases stream <;> exact hpath⟩
    · exact Or.inr ⟨_, _, hm, by simp only [hw, Except.map]; rfl, by simp only [hw]⟩
  | inner =>
    have hmemory : run.memory stream = run.captured stream := by simp [memory, hpath]
    rw [hmemory]
    simp only [writeResult, guestWrite, hpath]
    rcases MemoryOutputPipe.write_cases (run.captured stream) bytes with ⟨pipe, hw⟩ | ⟨message, hw⟩
    · refine Or.inl ⟨_, hw, by simp [hw, Except.map], ?_⟩
      simp only [hw]
      exact ⟨setCaptured_memory hpath stream pipe, by cases stream <;> rfl, by cases stream <;> exact hpath⟩
    · exact Or.inr ⟨_, _, hw, by simp only [hw, Except.map]; rfl, by simp only [hw]⟩

theorem checkWrite_memory (h : run.Unclosed) (stream : Stream) :
    run.checkWrite stream = (run.memory stream).checkWrite := by
  unfold checkWrite memory
  cases run.path with
  | events => exact StreamOutputPipe.checkWrite_toMemory (h.pipes stream)
  | inner => rfl

theorem memory_congr {next : WasiRun} (hpath : next.path = run.path)
    (hpipes : ∀ stream, (next.pipe stream).toMemory = (run.pipe stream).toMemory)
    (hcaptured : next.captured = run.captured) : next.memory = run.memory := by
  unfold memory
  rw [hpath]
  cases run.path with
  | events =>
    funext stream
    exact hpipes stream
  | inner => exact hcaptured

theorem step_memory (he : run.step flag epoch act = some effect)
    (hact : ∀ stream bytes, act ≠ .write stream bytes) : effect.run.memory = run.memory := by
  apply step_elim (P := fun next _ _ => next.memory = run.memory) he
  case main =>
    intro next hn
    cases hn with
    | endedStdout | endedStderr =>
      refine memory_congr rfl ?_ rfl
      rintro (_ | _) <;> rfl
    | _ => rfl
  case build =>
    intro host _
    unfold buildStep
    split <;> rfl
  case write => exact fun stream bytes ha => absurd ha (hact stream bytes)
  case compute => exact fun _ => rfl
  case instantiated => exact fun _ => rfl
  case guestEnd => exact fun _ _ => rfl
  case watchdog => exact fun _ _ _ _ _ _ => rfl
  case reader =>
    intro elapsed reader turn _ hn
    cases hn with
    | drainedStdout | drainedStderr | closedStdout | closedStderr =>
      refine memory_congr rfl ?_ rfl
      rintro (_ | _) <;> rfl
    | _ => rfl

theorem watch_phase {elapsed : Bool} (he : run.step flag epoch (.watch elapsed) = some effect) :
    effect.run.path = run.path ∧ effect.run.phase = run.phase := by
  apply watch_elim (P := fun next _ _ => next.path = run.path ∧ next.phase = run.phase) he
  case watchdog => exact fun _ _ _ _ _ => ⟨rfl, rfl⟩
  case reader =>
    intro reader next _ hn
    cases hn <;> exact ⟨rfl, rfl⟩

theorem step_acceptedBytes (he : run.step flag epoch act = some effect) :
    run.acceptedBytes ≤ effect.run.acceptedBytes := by
  by_cases hact : ∃ stream bytes, act = .write stream bytes
  · obtain ⟨stream, bytes, rfl⟩ := hact
    simp only [step, Option.ite_none_right_eq_some, Option.some.injEq] at he
    obtain ⟨-, rfl⟩ := he
    rcases guestWrite_cases run stream bytes with he | he | ⟨pipe, hpath, hw, he⟩ | ⟨pipe, hpath, hw, he⟩ <;>
      rw [he]
    · exact le_rfl
    · obtain ⟨-, -, rfl⟩ := StreamOutputPipe.write_eq_ok hw
      cases stream <;>
        simp only [acceptedBytes, setPipe, WasiRun.pipe, hpath, List.length_append] <;> omega
    · cases MemoryOutputPipe.write_eq_ok hw
      cases stream <;>
        simp only [acceptedBytes, setCaptured, captured, hpath, List.length_append] <;> omega
  · rw [acceptedBytes_eq, acceptedBytes_eq, step_memory he (fun stream bytes ha => hact ⟨stream, bytes, ha⟩)]

/-- From the guest's call until its watcher is joined, the watcher was spawned, and what lets
it leave was done before the join. -/
def Closing (run : WasiRun) : Prop :=
  match run.phase with
  | .instantiate => run.path = .events → run.watcher ≠ .unspawned
  | .call => run.watcher ≠ .unspawned
  | .eofStdout _ => run.path = .events ∧ run.watcher ≠ .unspawned
  | .eofStderr _ => run.path = .events ∧ run.watcher ≠ .unspawned ∧ run.stdout.state.eof = true
  | .stop _ => run.path = .inner ∧ run.watcher ≠ .unspawned
  | .join _ => run.watcher ≠ .unspawned ∧
    (run.path = .events → run.stdout.state.eof = true ∧ run.stderr.state.eof = true) ∧
    (run.path = .inner → run.stopSent = true)
  | _ => True

theorem Closing.frame {next : WasiRun} (h : run.Closing) (hphase : next.phase = run.phase)
    (hpath : next.path = run.path) (hw : run.watcher ≠ .unspawned → next.watcher ≠ .unspawned)
    (hout : run.stdout.state.eof = true → next.stdout.state.eof = true)
    (herr : run.stderr.state.eof = true → next.stderr.state.eof = true)
    (hstop : next.stopSent = run.stopSent) : next.Closing := by
  unfold Closing at h ⊢
  rw [hphase, hpath]
  cases hp : run.phase with
  | instantiate =>
    simp only [hp] at h ⊢
    exact fun hevents => hw (h hevents)
  | call =>
    simp only [hp] at h ⊢
    exact hw h
  | eofStdout | stop =>
    simp only [hp] at h ⊢
    exact ⟨h.1, hw h.2⟩
  | eofStderr =>
    simp only [hp] at h ⊢
    exact ⟨h.1, hw h.2.1, hout h.2.2⟩
  | join =>
    simp only [hp] at h ⊢
    obtain ⟨hspawned, hevents, hinner⟩ := h
    exact ⟨hw hspawned, fun hp => ⟨hout (hevents hp).1, herr (hevents hp).2⟩,
      fun hp => hstop.trans (hinner hp)⟩
  | _ => trivial

theorem stopGuest_closing (h : run.Closing) {guestEnd : GuestEnd}
    (hphase : run.phase = .call ∨ run.phase = .instantiate ∧ ∃ error, guestEnd = .notInstantiated error) :
    (run.stopGuest guestEnd).Closing := by
  unfold Closing at h
  rcases hphase with hp | ⟨hp, error, rfl⟩
  · simp only [hp] at h
    cases hpath : run.path <;> cases guestEnd <;> simp [Closing, stopGuest, afterGuest, hpath, h]
  · simp only [hp] at h
    cases hpath : run.path <;> simp_all [Closing, stopGuest, afterGuest]

theorem canEnd_phase {guestEnd : GuestEnd} (h : run.canEnd epoch guestEnd = true) :
    run.phase = .call ∨ run.phase = .instantiate ∧ ∃ error, guestEnd = .notInstantiated error := by
  unfold canEnd at h
  cases guestEnd with
  | notInstantiated error => cases hp : run.phase <;> simp [hp] at h ⊢
  | _ => cases hp : run.phase <;> simp [hp] at h ⊢

theorem trapEnd_phase (hg : run.guestExecuting) : run.phase = .call ∨
    run.phase = .instantiate ∧ ∃ error, trapEnd run.phase = .notInstantiated error := by
  rcases guestExecuting_phase hg with hp | hp
  · exact Or.inr ⟨hp, .writeBeyondCapacity, by rw [hp]; rfl⟩
  · exact Or.inl hp

theorem mainStep_closing {next : WasiRun} {cancelled : Bool} (h : run.Closing)
    (hn : MainSteps cancelled run next) : next.Closing := by
  unfold Closing at h
  cases hn with
  | spawned => cases hp : run.path <;> simp [Closing, spawned]
  | endedStdout guestEnd hp =>
    simp only [hp] at h
    exact ⟨h.1, h.2, rfl⟩
  | endedStderr guestEnd hp =>
    simp only [hp] at h
    obtain ⟨hpath, hw, hout⟩ := h
    exact ⟨hw, fun _ => ⟨hout, rfl⟩, fun hinner => absurd (hpath.symm.trans hinner) (by simp)⟩
  | stopped guestEnd hp =>
    simp only [hp] at h
    exact ⟨h.2, fun hevents => absurd (h.1.symm.trans hevents) (by simp), fun _ => rfl⟩
  | _ => trivial

theorem step_closing (h : run.Closing) (he : run.step flag epoch act = some effect) :
    effect.run.Closing := by
  apply step_elim (P := fun run _ _ => run.Closing) he
  case main => exact fun next hn => mainStep_closing h hn
  case build =>
    intro host hp
    have hw : run.path = .inner ∨ run.path = .events := by cases run.path <;> simp
    unfold buildStep
    split
    · trivial
    · rcases hw with hpath | hpath <;> simp [Closing, hpath]
  case write =>
    intro stream bytes _ hg
    rcases guestWrite_cases run stream bytes with he | he | ⟨pipe, -, hw, he⟩ | ⟨pipe, -, -, he⟩ <;>
      rw [he]
    · exact h
    · exact stopGuest_closing h (trapEnd_phase hg)
    · obtain ⟨-, -, rfl⟩ := StreamOutputPipe.write_eq_ok hw
      cases stream <;> exact h.frame rfl rfl id id id rfl
    · cases stream <;> exact h.frame rfl rfl id id id rfl
  case compute => exact fun _ => h
  case instantiated =>
    intro hp
    unfold Closing at h
    simp only [hp] at h
    cases hpath : run.path <;> simp_all [Closing, enterCall]
  case guestEnd => exact fun guestEnd hc => stopGuest_closing h (canEnd_phase hc)
  case watchdog =>
    intro elapsed pc ticks next _ hn
    refine h.frame rfl rfl (fun _ => ?_) id id rfl
    rcases watchdogStep_kind hn with ⟨_, _, hnext⟩ | hnext <;> simp [hnext]
  case reader =>
    intro elapsed reader turn hr hn
    cases hn <;> exact h.frame rfl rfl (fun _ => by simp) id id rfl

end WasiRun

section Solo
variable {path : RunPath} {component : Component} {request : CommandRequest} {cancellable : Bool}
  {epoch : ℕ} {flag : Bool} {s : Solo}

theorem reachable_streamed (h : Reachable (soloSystem .events component request cancellable epoch flag) s) :
    ∃ writes, Reachable (streamSystem component request cancellable epoch flag) ⟨s, writes⟩ := by
  refine Reachable.invariant (P := fun s => ∃ writes,
    Reachable (streamSystem component request cancellable epoch flag) ⟨s, writes⟩) ?_ h ⟨[], .refl _⟩
  rintro s a t he ⟨writes, hr⟩
  have hstep : (streamSystem component request cancellable epoch flag).step ⟨s, writes⟩ (.solo a) =
      some ⟨t, accepted s.run a ++ writes⟩ := Option.map_eq_some_iff.mpr ⟨t, he, rfl⟩
  exact ⟨_, hr.step hstep⟩

structure Underway (component : Component) (request : CommandRequest) (run : WasiRun) : Prop where
  component : run.component = component
  request : run.request = request
  collects : run.path = .events → run.Collects
  capturing : run.path = .inner → ∀ reader, run.watcher ≠ .reader reader
  closing : run.Closing

theorem reachable_underway (h : Reachable (soloSystem path component request cancellable epoch flag) s) :
    Underway component request s.run := by
  have hparams := solo_invariant
    (P := fun run _ => run.path = path ∧ run.component = component ∧ run.request = request)
    (fun _ _ _ _ _ hp he => by
      obtain ⟨hpath, hcomponent, hrequest, -⟩ := WasiRun.step_params he
      exact ⟨hpath.trans hp.1, hcomponent.trans hp.2.1, hrequest.trans hp.2.2⟩)
    (fun _ _ hp => hp) h ⟨rfl, rfl, rfl⟩
  refine ⟨hparams.2.1, hparams.2.2, fun hp => ?_, fun hp => ?_, ?_⟩
  · cases hparams.1.symm.trans hp
    obtain ⟨writes, hr⟩ := reachable_streamed h
    exact (reachable_complete hr).collects
  · cases hparams.1.symm.trans hp
    have hinv := solo_invariant (P := fun run epoch => run.CapturingInv epoch)
      (fun _ _ _ _ _ hp he => WasiRun.step_capturingInv hp he) (fun _ _ hp => hp.mono (by omega)) h
      (WasiRun.capturingInv_start component request cancellable epoch)
    exact hinv.watcher
  · exact solo_invariant (P := fun run _ => run.Closing)
      (fun _ _ _ _ _ hp he => WasiRun.step_closing hp he) (fun _ _ hp => hp) h trivial

end Solo

variable {G : Type*}

/-- Where the calling thread stands in a run whose guest is where the reference is. -/
def Reference.Tracks (r : Reference G) (path : RunPath) : Phase → Prop
  | .lock | .build | .instantiate => r.stage = .instantiating
  | .spawn => r.stage = if path = .events then .instantiating else .calling
  | .call => r.stage = .calling
  | .eofStdout guestEnd | .eofStderr guestEnd | .stop guestEnd | .join guestEnd | .classify guestEnd =>
    r.stage = .ended guestEnd
  | .returned result => ∃ guestEnd, r.stage = .ended guestEnd ∧ result = r.result guestEnd
  | .unwound => False

namespace Reference.Tracks
variable {r : Reference G} {run : WasiRun} {epoch : ℕ}

theorem executes (h : r.Tracks run.path run.phase) (hg : run.guestExecuting) :
    r.stage.executes run.component.hasStart = true := by
  unfold WasiRun.guestExecuting at hg
  cases hp : run.phase <;> simp only [hp] at hg h
  · rw [show r.stage = .instantiating from h]
    exact hg
  · rw [show r.stage = .calling from h]
    rfl

theorem trapEnd (h : r.Tracks run.path run.phase) (hg : run.guestExecuting) :
    WasiRun.trapEnd run.phase = r.stage.trapEnd := by
  rcases WasiRun.guestExecuting_phase hg with hp | hp <;> rw [hp] at h ⊢
  · rw [show r.stage = .instantiating from h]
    rfl
  · rw [show r.stage = .calling from h]
    rfl

theorem canEnd {guestEnd : GuestEnd} (h : r.Tracks run.path run.phase)
    (hc : run.canEnd epoch guestEnd = true) : r.stage.canEnd guestEnd = true := by
  unfold WasiRun.canEnd at hc
  cases guestEnd with
  | notInstantiated error =>
    cases hp : run.phase <;> simp only [hp, reduceCtorEq] at hc h
    rw [show r.stage = .instantiating from h]
    rfl
  | _ =>
    cases hp : run.phase <;> simp only [hp, reduceCtorEq] at hc h
    rw [show r.stage = .calling from h]
    rfl

theorem stays {r' : Reference G} (h : r.Tracks run.path run.phase) (hg : run.guestExecuting)
    (hstage : r'.stage = r.stage) : r'.Tracks run.path run.phase := by
  rcases WasiRun.guestExecuting_phase hg with hp | hp <;> rw [hp] at h ⊢ <;> exact hstage.trans h

theorem stopGuest (r : Reference G) (path : RunPath) (guestEnd : GuestEnd) :
    Reference.Tracks { r with stage := .ended guestEnd } path (WasiRun.afterGuest path guestEnd) := by
  cases path with
  | events => rfl
  | inner =>
    cases guestEnd with
    | notInstantiated error => exact ⟨_, rfl, rfl⟩
    | _ => rfl

end Reference.Tracks

theorem WasiRun.outputs_memory {run : WasiRun} (hc : run.path = .events → run.Collects) {guestEnd : GuestEnd}
    (hp : run.phase = .classify guestEnd) :
    run.outputs = ((run.memory .stdout).contents, (run.memory .stderr).contents) := by
  cases hpath : run.path with
  | events =>
    obtain ⟨stdout, stderr, hx⟩ := (hc hpath).joined guestEnd hp
    obtain ⟨rfl, rfl, -⟩ := (hc hpath).exited stdout stderr hx
    simp only [outputs, hpath, hx, memory]
    rfl
  | inner =>
    simp only [outputs, hpath, memory]
    rfl

theorem mainStep_tracks {r : Reference G} {run next : WasiRun} (hc : run.path = .events → run.Collects)
    (hpipes : run.memory = r.pipes) (h : r.Tracks run.path run.phase)
    (hn : WasiRun.MainSteps false run next) : r.Tracks next.path next.phase := by
  cases hn with
  | spawned hp =>
    rw [hp] at h
    cases hpath : run.path <;> simpa [Reference.Tracks, hpath] using h
  | classified guestEnd hp =>
    rw [hp] at h
    refine ⟨guestEnd, h, ?_⟩
    have houtputs := WasiRun.outputs_memory hc hp
    rw [hpipes] at houtputs
    cases guestEnd <;> simp [WasiRun.result, Reference.result, houtputs]
  | locked hp | endedStdout _ hp | endedStderr _ hp | stopped _ hp | joined _ _ _ hp =>
    rw [hp] at h
    exact h

/-- A run on either path and the reference agree on the guest and on what it can see. -/
structure Mirrors (s : Guided G) (r : Reference G) : Prop where
  pipes : s.solo.run.memory = r.pipes
  guest : s.guest = r.guest
  phase : r.Tracks s.solo.run.path s.solo.run.phase

section Steps
variable {guest : Guest G} {host : HostView} {s t : Guided G} {r : Reference G}

/-- The guest's own steps are the reference's. -/
theorem guest_mirrors (hopen : s.solo.run.Unclosed) (h : Mirrors s r)
    (he : s.step guest host .guest = some t) :
    ∃ r', r.step guest s.solo.run.component.hasStart = some r' ∧ Mirrors t r' := by
  obtain ⟨solo, hn, rfl⟩ := Option.map_eq_some_iff.mp he
  obtain ⟨effect, heff, rfl⟩ := Option.map_eq_some_iff.mp hn
  obtain ⟨hpipes, hguest, hphase⟩ := h
  simp only [Reference.step, ← hguest]
  cases hcall : guest.next s.guest with
  | compute next =>
    simp only [Guided.act, Guided.guestAct, hcall, WasiRun.step, Option.ite_none_right_eq_some,
      Option.some.injEq] at heff ⊢
    obtain ⟨hg, rfl⟩ := heff
    exact ⟨_, ⟨hphase.executes hg, rfl⟩, hpipes, rfl, hphase⟩
  | checkWrite stream resume =>
    simp only [Guided.act, Guided.guestAct, hcall, WasiRun.step, Option.ite_none_right_eq_some,
      Option.some.injEq] at heff ⊢
    obtain ⟨hg, rfl⟩ := heff
    refine ⟨_, ⟨hphase.executes hg, rfl⟩, hpipes, ?_, hphase⟩
    rw [WasiRun.checkWrite_memory hopen, hpipes]
  | write stream bytes resume =>
    simp only [Option.ite_none_right_eq_some, Option.some.injEq]
    rcases WasiRun.guestWrite_memory hopen stream bytes with
      ⟨pipe, hm, hanswer, hmemory, hsame, hpath⟩ | ⟨message, message', hm, hanswer, hstop⟩
    · simp only [Guided.act, Guided.guestAct, hcall, hanswer, WasiRun.step, Option.ite_none_right_eq_some,
        Option.some.injEq] at heff ⊢
      obtain ⟨hg, rfl⟩ := heff
      refine ⟨_, ⟨hphase.executes hg, rfl⟩, ?_⟩
      rw [hpipes] at hm hmemory
      simp only [Reference.write, hm]
      refine ⟨hmemory, rfl, ?_⟩
      rw [hsame, hpath]
      exact hphase.stays hg rfl
    · simp only [Guided.act, Guided.guestAct, hcall, hanswer, WasiRun.step, Option.ite_none_right_eq_some,
        Option.some.injEq] at heff ⊢
      obtain ⟨hg, rfl⟩ := heff
      refine ⟨_, ⟨hphase.executes hg, rfl⟩, ?_⟩
      rw [hpipes] at hm
      simp only [Reference.write, hm, hstop, hphase.trapEnd hg]
      exact ⟨hpipes, hguest, .stopGuest r _ _⟩
  | instantiated next =>
    simp only [Guided.act, Guided.guestAct, hcall] at heff ⊢
    cases hp : s.solo.run.phase <;> simp only [WasiRun.step, hp, reduceCtorEq, Option.some.injEq] at heff
    subst heff
    rw [hp] at hphase
    have hstage : r.stage = .instantiating := hphase
    rw [hstage]
    refine ⟨_, rfl, hpipes, rfl, ?_⟩
    cases hpath : s.solo.run.path <;> simp [WasiRun.enterCall, hpath, Reference.Tracks]
  | finish guestEnd =>
    simp only [Guided.act, Guided.guestAct, hcall, WasiRun.step, Option.ite_none_right_eq_some,
      Option.some.injEq] at heff ⊢
    obtain ⟨hc, rfl⟩ := heff
    exact ⟨_, ⟨hphase.canEnd hc, rfl⟩, hpipes, rfl, .stopGuest r _ _⟩

/-- All that is done around the guest leaves the reference where it is. -/
theorem own_mirrors {component : Component} {request : CommandRequest} {store : Store} {a : GuidedAct}
    (hu : Underway component request s.solo.run) (hflag : s.solo.flag = false)
    (hb : buildStore host request = .ok store) (h : Mirrors s r) (ha : Guided.Calm s a) (hne : a ≠ .guest)
    (he : s.step guest host a = some t) : Mirrors t r := by
  obtain ⟨solo, hn, rfl⟩ := Option.map_eq_some_iff.mp he
  obtain ⟨hpipes, hguest, hphase⟩ := h
  cases a with
  | main =>
    obtain ⟨effect, heff, rfl⟩ := Option.map_eq_some_iff.mp hn
    refine ⟨(WasiRun.step_memory heff (by simp)).trans hpipes, hguest, ?_⟩
    obtain ⟨next, hnext, rfl⟩ := Option.map_eq_some_iff.mp heff
    have hmain := WasiRun.mainStep_cases hnext
    rw [hflag, Bool.and_false] at hmain
    exact mainStep_tracks hu.collects hpipes hphase hmain
  | build =>
    obtain ⟨effect, heff, rfl⟩ := Option.map_eq_some_iff.mp hn
    refine ⟨(WasiRun.step_memory heff (by simp)).trans hpipes, hguest, ?_⟩
    cases hp : s.solo.run.phase <;> simp only [WasiRun.step, hp, reduceCtorEq, Option.some.injEq] at heff
    subst heff
    rw [hp] at hphase
    simp only [WasiRun.buildStep, hu.request, hb]
    cases hpath : s.solo.run.path <;> simpa [Reference.Tracks, hpath] using hphase
  | guest => exact absurd rfl hne
  | interrupt => exact absurd rfl ha.2
  | watch elapsed =>
    obtain ⟨effect, heff, rfl⟩ := Option.map_eq_some_iff.mp hn
    refine ⟨(WasiRun.step_memory heff (by simp)).trans hpipes, hguest, ?_⟩
    obtain ⟨hpath, hsame⟩ := WasiRun.watch_phase heff
    simp only [hpath, hsame]
    exact hphase
  | cancel => exact absurd rfl ha.1
  | foreignTick =>
    cases hn
    exact ⟨hpipes, hguest, hphase⟩

end Steps

def Reference.acceptedBytes (r : Reference G) : ℕ :=
  (r.pipes .stdout).buffer.length + (r.pipes .stderr).buffer.length

theorem Mirrors.acceptedBytes {s : Guided G} {r : Reference G} (h : Mirrors s r) :
    s.solo.run.acceptedBytes = r.acceptedBytes := by
  rw [WasiRun.acceptedBytes_eq, h.pipes, Reference.acceptedBytes]

theorem Reference.step_acceptedBytes {guest : Guest G} {hasStart : Bool} {r r' : Reference G}
    (he : r.step guest hasStart = some r') : r.acceptedBytes ≤ r'.acceptedBytes := by
  unfold Reference.step at he
  split at he
  case h_3 stream bytes resume _ =>
    simp only [Option.ite_none_right_eq_some, Option.some.injEq] at he
    obtain ⟨-, rfl⟩ := he
    unfold Reference.write
    split
    · rename_i pipe hw
      cases MemoryOutputPipe.write_eq_ok hw
      cases stream <;> simp [Reference.acceptedBytes]
    · exact le_rfl
    · exact le_rfl
  case h_4 =>
    split at he <;> cases he
    exact le_rfl
  all_goals
    simp only [Option.ite_none_right_eq_some, Option.some.injEq] at he
    obtain ⟨-, rfl⟩ := he
    exact le_rfl

theorem Reference.settles_acceptedBytes {guest : Guest G} {hasStart : Bool} {n : ℕ} {r f : Reference G}
    (h : Settles (Reference.step guest hasStart) n r f) : r.acceptedBytes ≤ f.acceptedBytes := by
  induction h with
  | rest => exact le_rfl
  | step he _ ih => exact (Reference.step_acceptedBytes he).trans ih

section Runs
variable {guest : Guest G} {host : HostView} {path : RunPath} {component : Component}
  {request : CommandRequest} {cancellable : Bool} {epoch : ℕ} {store : Store} {s t : Guided G}
  {r : Reference G} {a : GuidedAct}

theorem reachable_solo (h : Reachable (guidedSystem guest host path component request cancellable epoch) s) :
    Reachable (soloSystem path component request cancellable epoch false) s.solo := by
  refine Reachable.invariant (P := fun (s : Guided G) =>
    Reachable (soloSystem path component request cancellable epoch false) s.solo) ?_ h (.refl _)
  intro s a t he hr
  obtain ⟨solo, hn, rfl⟩ := Option.map_eq_some_iff.mp he
  exact hr.step hn

theorem underway (h : Reachable (guidedSystem guest host path component request cancellable epoch) s) :
    Underway component request s.solo.run := reachable_underway (reachable_solo h)

theorem step_flag (hflag : s.solo.flag = false) (ha : Guided.Calm s a)
    (he : s.step guest host a = some t) : t.solo.flag = false := by
  obtain ⟨solo, hn, rfl⟩ := Option.map_eq_some_iff.mp he
  cases a with
  | cancel => exact absurd rfl ha.1
  | foreignTick =>
    cases hn
    exact hflag
  | _ =>
    obtain ⟨effect, -, rfl⟩ := Option.map_eq_some_iff.mp hn
    exact hflag

theorem guided_run {P : WasiRun → Prop} (he : s.step guest host a = some t)
    (hrun : ∀ act effect, s.solo.run.step s.solo.flag s.solo.epoch act = some effect → P effect.run)
    (hs : P s.solo.run) : P t.solo.run := by
  obtain ⟨solo, hn, rfl⟩ := Option.map_eq_some_iff.mp he
  unfold Solo.step at hn
  split at hn
  · obtain ⟨effect, heff, rfl⟩ := Option.map_eq_some_iff.mp hn
    exact hrun _ effect heff
  · cases hn
    exact hs
  · cases hn
    exact hs

theorem step_accepted (he : s.step guest host a = some t) :
    s.solo.run.acceptedBytes ≤ t.solo.run.acceptedBytes :=
  guided_run (P := fun run => s.solo.run.acceptedBytes ≤ run.acceptedBytes) he
    (fun _ _ heff => WasiRun.step_acceptedBytes heff) le_rfl

theorem step_open (hu : Underway component request s.solo.run) (hopen : s.solo.run.Unclosed)
    (hwithin : s.solo.run.acceptedBytes ≤ request.grant.limits.maxOutputBytes)
    (he : s.step guest host a = some t) : t.solo.run.Unclosed := by
  have hreads : s.solo.run.ReadsWithin := by
    intro reader hr
    have hevents : s.solo.run.path = .events := by
      cases hp : s.solo.run.path with
      | inner => exact absurd hr (hu.capturing hp reader)
      | events => rfl
    refine (hu.collects hevents).readsWithin hevents ?_ reader hr
    rwa [WasiRun.budget, hu.request]
  exact guided_run he (fun _ _ heff => WasiRun.step_unclosed hopen hreads heff) hopen

/-- A calm run within the budget: its handle is uncancelled, its pipes are open, and it mirrors
a reference that satisfies `R`. -/
structure Mirrored (R : Reference G → Prop) (s : Guided G) : Prop where
  flag : s.solo.flag = false
  unclosed : s.solo.run.Unclosed
  mirrors : ∃ r, R r ∧ Mirrors s r

theorem calm_step {R : Reference G → Prop} (hu : Underway component request s.solo.run)
    (hb : buildStore host request = .ok store)
    (hwithin : s.solo.run.acceptedBytes ≤ request.grant.limits.maxOutputBytes)
    (hR : ∀ r r', R r → r.step guest component.hasStart = some r' → R r') (h : Mirrored R s)
    (ha : Guided.Calm s a) (he : s.step guest host a = some t) : Mirrored R t := by
  obtain ⟨hflag, hopen, r, hr, hm⟩ := h
  refine ⟨step_flag hflag ha he, step_open hu hopen hwithin he, ?_⟩
  by_cases hact : a = .guest
  · subst hact
    obtain ⟨r', hr', hm'⟩ := guest_mirrors hopen hm he
    rw [hu.component] at hr'
    exact ⟨r', hR r r' hr hr', hm'⟩
  · exact ⟨r, hr, own_mirrors hu hflag hb hm ha hact he⟩

theorem mirrored_start {R : Reference G → Prop} (hR : R (.start guest request)) :
    Mirrored R (guidedSystem guest host path component request cancellable epoch).init := by
  refine ⟨rfl, ⟨?_, ?_⟩, _, hR, ?_, rfl, rfl⟩
  · intro stream
    cases stream <;> rfl
  · rintro _ ⟨⟩
  · funext stream
    cases path <;> cases stream <;> rfl

theorem run_mirrored (hb : buildStore host request = .ok store)
    (h : Runs (guidedSystem guest host path component request cancellable epoch) Guided.Calm
      (guidedSystem guest host path component request cancellable epoch).init s)
    (hwithin : s.solo.run.acceptedBytes ≤ request.grant.limits.maxOutputBytes) :
    Mirrored (Relation.ReflTransGen (fun r r' => r.step guest component.hasStart = some r')
      (.start guest request)) s := by
  refine Runs.invariant_under
    (H := fun s => s.solo.run.acceptedBytes ≤ request.grant.limits.maxOutputBytes) ?_ ?_ h (.refl _)
    (mirrored_start .refl) hwithin
  · exact fun s a t _ he ht => (step_accepted he).trans ht
  · intro s a t hs ha he ht hm
    exact calm_step (underway hs) hb ((step_accepted he).trans ht) (fun r r' hr hr' => hr.tail hr') hm ha he

/-- A calm run follows its reference to where that settles, if this is within the budget. -/
theorem run_settles {n : ℕ} {f : Reference G} (hb : buildStore host request = .ok store)
    (hf : Settles (Reference.step guest component.hasStart) n (.start guest request) f)
    (hwithin : f.acceptedBytes ≤ request.grant.limits.maxOutputBytes)
    (h : Runs (guidedSystem guest host path component request cancellable epoch) Guided.Calm
      (guidedSystem guest host path component request cancellable epoch).init s) :
    Mirrored (fun r => ∃ n, Settles (Reference.step guest component.hasStart) n r f) s := by
  refine Runs.invariant_of_reachable ?_ h (.refl _) (mirrored_start ⟨n, hf⟩)
  intro s a t hs ha he hm
  refine calm_step (underway hs) hb ?_ ?_ hm ha he
  · obtain ⟨r, hr, hm⟩ := hm.mirrors
    obtain ⟨n, hn⟩ := hr
    rw [hm.acceptedBytes]
    exact (Reference.settles_acceptedBytes hn).trans hwithin
  · rintro r r' ⟨n, hn⟩ hr'
    obtain ⟨m, -, hm⟩ := hn.follow hr'
    exact ⟨m, hm⟩

end Runs

end FerrousRuntime.Runtime
