import FerrousRuntime.Runtime.WasiRun

/-! # The watcher during guest execution

One run, closed off: its two threads, the cancel handle and whatever else ticks the
engine. On the streaming path the reader is spawned before the component is
instantiated and can only leave its loop after both end-of-stream marks, which are
set once the guest has stopped. On the capturing path the watchdog is spawned after
instantiation, so a start function runs with nobody to advance the epoch.
-/
namespace FerrousRuntime.Runtime
open Capability Command Pipe Transition

/-- A run in isolation, with its epoch, its cancel flag and the events it sent,
latest first. -/
structure Solo where
  run : WasiRun
  epoch : ℕ
  flag : Bool
  events : List SessionEvent

inductive SoloAct
  | run (act : RunAct)
  | cancel
  /-- an increment of the engine's epoch by anyone else -/
  | foreignTick

def Solo.step (s : Solo) : SoloAct → Option Solo
  | .run act => (s.run.step s.flag s.epoch act).map (fun effect =>
      { s with run := effect.run, epoch := effect.epoch, events := effect.event.toList ++ s.events })
  | .cancel => some { s with flag := true }
  | .foreignTick => some { s with epoch := s.epoch + 1 }

def soloSystem (path : RunPath) (component : Component) (request : CommandRequest)
    (cancellable : Bool) (epoch : ℕ) (flag : Bool) : System Solo SoloAct where
  init := ⟨.start path component request cancellable, epoch, flag, []⟩
  step := Solo.step

namespace WasiRun

/-- The watcher is in its loop, or has already taken the epoch to the deadline. -/
def Watched (run : WasiRun) (epoch : ℕ) : Prop :=
  match run.watcher with
  | .unspawned => False
  | .exited _ _ => run.deadline ≤ epoch
  | _ => True

def BeforeEof : Phase → Prop
  | .lock | .build | .spawn | .instantiate | .call => True
  | _ => False

/-- The streaming path: no end-of-stream mark before the guest has stopped, and the
reader knows only marks that were set. -/
structure StreamingInv (run : WasiRun) : Prop where
  path : run.path = .events
  unspawned : run.phase = .lock ∨ run.phase = .build ∨ run.phase = .spawn → run.watcher = .unspawned
  open_ : BeforeEof run.phase → run.stdout.state.eof = false ∧ run.stderr.state.eof = false
  marks : ∀ reader, run.watcher = .reader reader →
    (reader.outEof = true → run.stdout.state.eof = true) ∧
    (reader.errEof = true → run.stderr.state.eof = true)
  spawned : run.phase = .instantiate ∨ run.phase = .call → ∃ reader, run.watcher = .reader reader

theorem streamingInv_start (component : Component) (request : CommandRequest) (cancellable : Bool) :
    StreamingInv (start .events component request cancellable) := by
  constructor <;> simp [start, StreamOutputPipe.new]

theorem stopGuest_streamingInv {run : WasiRun} (h : StreamingInv run) (guestEnd : GuestEnd) :
    StreamingInv (run.stopGuest guestEnd) := by
  refine ⟨h.path, ?_, ?_, h.marks, ?_⟩ <;> simp [stopGuest, afterGuest, h.path, BeforeEof]

theorem guestWrite_streamingInv {run : WasiRun} (h : StreamingInv run) (stream : Stream)
    (bytes : List UInt8) : StreamingInv (run.guestWrite stream bytes) := by
  rcases guestWrite_cases run stream bytes with he | he | ⟨pipe, -, hw, he⟩ | ⟨pipe, hp, -, -⟩
  · rwa [he]
  · exact he ▸ stopGuest_streamingInv h _
  · rw [he]
    obtain ⟨-, -, rfl⟩ := StreamOutputPipe.write_eq_ok hw
    cases stream <;> exact ⟨h.path, h.unspawned, h.open_, h.marks, h.spawned⟩
  · exact absurd (h.path.symm.trans hp) (by simp)

theorem mainStep_streamingInv {run next : WasiRun} {cancelled : Bool} (h : StreamingInv run)
    (hn : MainSteps cancelled run next) : StreamingInv next := by
  cases hn with
  | locked hp =>
    exact ⟨h.path, fun _ => h.unspawned (Or.inl hp), fun _ => h.open_ (by simp [hp, BeforeEof]),
      h.marks, by simp⟩
  | spawned hp =>
    refine ⟨h.path, ?_, fun _ => h.open_ (by simp [hp, BeforeEof]), ?_, ?_⟩ <;>
      simp [WasiRun.spawned, h.path]
  | endedStdout =>
    refine ⟨h.path, by simp, by simp [BeforeEof], ?_, by simp⟩
    intro reader hr
    exact ⟨fun _ => rfl, (h.marks reader hr).2⟩
  | endedStderr =>
    refine ⟨h.path, by simp, by simp [BeforeEof], ?_, by simp⟩
    intro reader hr
    exact ⟨(h.marks reader hr).1, fun _ => rfl⟩
  | stopped => exact ⟨h.path, by simp, by simp [BeforeEof], h.marks, by simp⟩
  | joined => exact ⟨h.path, by simp, by simp [BeforeEof], h.marks, by simp⟩
  | classified => exact ⟨h.path, by simp, by simp [BeforeEof], h.marks, by simp⟩

theorem readerStep_streamingInv {run : WasiRun} {reader : Reader} {cancelled elapsed : Bool}
    {next : WasiRun × ℕ × Option SessionEvent} (h : StreamingInv run)
    (hr : run.watcher = .reader reader) (hn : ReaderSteps cancelled elapsed run reader next) :
    StreamingInv next.1 := by
  have hm := h.marks reader hr
  have hu : run.phase = .lock ∨ run.phase = .build ∨ run.phase = .spawn →
      ∀ watcher, watcher = Watcher.unspawned := by
    intro hp
    exact absurd (hr.symm.trans (h.unspawned hp)) (by simp)
  have hs : ∀ r, (run.phase = .instantiate ∨ run.phase = .call →
      ∃ reader, Watcher.reader r = .reader reader) := fun r _ => ⟨r, rfl⟩
  cases hn with
  | drainedStdout =>
    exact ⟨h.path, fun hp => hu hp _, h.open_, by simpa [StreamOutputPipe.waitAndDrain] using hm.2, hs _⟩
  | drainedStderr =>
    exact ⟨h.path, fun hp => hu hp _, h.open_, by simpa [StreamOutputPipe.waitAndDrain] using hm.1, hs _⟩
  | left _ ho _ =>
    refine ⟨h.path, fun hp => hu hp _, h.open_, by simp, ?_⟩
    intro hphase
    -- both marks are set, so the guest has stopped
    have hbefore : BeforeEof run.phase := by
      rcases hphase with hp | hp <;> dsimp only at hp <;> simp [hp, BeforeEof]
    rw [(h.open_ hbefore).1] at hm
    exact absurd (hm.1 ho) (by simp)
  | _ => exact ⟨h.path, fun hp => hu hp _, h.open_, by simpa using hm, hs _⟩

theorem step_streamingInv {run : WasiRun} {flag : Bool} {epoch : ℕ} {act : RunAct} {effect : Effect}
    (h : StreamingInv run) (he : run.step flag epoch act = some effect) : StreamingInv effect.run := by
  apply step_elim (P := fun run _ _ => StreamingInv run) he
  case main => exact fun next hn => mainStep_streamingInv h hn
  case build =>
    intro host hp
    unfold buildStep
    split
    · exact ⟨h.path, by simp, by simp [BeforeEof], h.marks, by simp⟩
    · exact ⟨h.path, fun _ => h.unspawned (Or.inr (Or.inl hp)),
        fun _ => h.open_ (by simp [hp, BeforeEof]), h.marks, by simp [h.path]⟩
  case write => exact fun stream bytes _ _ => guestWrite_streamingInv h stream bytes
  case compute => exact fun _ => h
  case instantiated =>
    intro hp
    exact ⟨h.path, by simp [enterCall, h.path], fun _ => h.open_ (by simp [hp, BeforeEof]), h.marks,
      fun _ => h.spawned (Or.inl hp)⟩
  case guestEnd => exact fun guestEnd _ => stopGuest_streamingInv h guestEnd
  case watchdog =>
    intro elapsed pc ticks next hw hn
    refine ⟨h.path, ?_, h.open_, ?_, ?_⟩
    · intro hp
      exact absurd (hw.symm.trans (h.unspawned hp)) (by simp)
    · intro reader hr
      rcases watchdogStep_kind hn with ⟨_, _, hnext⟩ | hnext <;> cases hnext.symm.trans hr
    · intro hphase
      obtain ⟨reader, hr⟩ := h.spawned hphase
      exact absurd (hw.symm.trans hr) (by simp)
  case reader => exact fun elapsed reader next hr hn => readerStep_streamingInv h hr hn

def owed (ticks : ℕ) : Watcher → ℕ
  | .watchdog .check done => ticks - done
  | .watchdog .wait done => ticks - done
  | .watchdog (.burst left) _ => left
  | .exited _ _ => 0
  | _ => ticks

/-- The capturing path: before the stop message the watchdog leaves its loop only
with the deadline reached. -/
structure CapturingInv (run : WasiRun) (epoch : ℕ) : Prop where
  path : run.path = .inner
  armed : run.phase = .instantiate ∨ run.phase = .spawn ∨ run.phase = .call →
    run.deadline ≤ epoch + run.epochTicks
  owing : run.phase = .call → run.watcher ≠ .unspawned ∧
    run.deadline ≤ epoch + owed run.epochTicks run.watcher
  unsent : run.guestExecuting ∨ BeforeEof run.phase → run.stopSent = false
  watcher : ∀ reader, run.watcher ≠ .reader reader

theorem capturingInv_start (component : Component) (request : CommandRequest) (cancellable : Bool)
    (epoch : ℕ) : CapturingInv (start .inner component request cancellable) epoch := by
  constructor <;> simp [start]

theorem CapturingInv.mono {run : WasiRun} {epoch epoch' : ℕ} (h : CapturingInv run epoch)
    (hle : epoch ≤ epoch') : CapturingInv run epoch' := by
  refine ⟨h.path, fun hp => (h.armed hp).trans (by omega), ?_, h.unsent, h.watcher⟩
  intro hp
  obtain ⟨hw, hd⟩ := h.owing hp
  exact ⟨hw, hd.trans (by omega)⟩

theorem stopGuest_capturingInv {run : WasiRun} {epoch : ℕ} (h : CapturingInv run epoch)
    (guestEnd : GuestEnd) : CapturingInv (run.stopGuest guestEnd) epoch := by
  refine ⟨h.path, ?_, ?_, ?_, h.watcher⟩ <;>
    cases guestEnd <;> simp [stopGuest, afterGuest, h.path, guestExecuting, BeforeEof]

theorem guestWrite_capturingInv {run : WasiRun} {epoch : ℕ} (h : CapturingInv run epoch)
    (stream : Stream) (bytes : List UInt8) : CapturingInv (run.guestWrite stream bytes) epoch := by
  rcases guestWrite_cases run stream bytes with he | he | ⟨pipe, hp, -, -⟩ | ⟨pipe, -, -, he⟩
  · rwa [he]
  · exact he ▸ stopGuest_capturingInv h _
  · exact absurd (h.path.symm.trans hp) (by simp)
  · rw [he]
    cases stream <;> exact ⟨h.path, h.armed, h.owing, h.unsent, h.watcher⟩

theorem mainStep_capturingInv {run next : WasiRun} {cancelled : Bool} {epoch : ℕ}
    (h : CapturingInv run epoch) (hn : MainSteps cancelled run next) : CapturingInv next epoch := by
  cases hn with
  | locked hp =>
    exact ⟨h.path, by simp, by simp, fun _ => h.unsent (by simp [hp, BeforeEof]), h.watcher⟩
  | spawned hp =>
    have hd := h.armed (Or.inr (Or.inl hp))
    refine ⟨h.path, fun _ => hd, ?_, fun _ => h.unsent (by simp [hp, BeforeEof]), ?_⟩
    · intro _
      simp only [h.path, WasiRun.spawned, owed, epochTicks, ne_eq, reduceCtorEq, not_false_eq_true,
        true_and, tsub_zero] at hd ⊢
      exact hd
    · simp [WasiRun.spawned, h.path]
  | _ =>
    refine ⟨h.path, by simp, by simp, ?_, h.watcher⟩
    simp [guestExecuting, BeforeEof]

/-- Each watchdog step before the stop message pays what it no longer owes. -/
theorem watchdogStep_owed (run : WasiRun) {cancelled elapsed : Bool} {pc : WatchdogPc} {ticks : ℕ}
    {next : Watcher × ℕ} {epoch : ℕ} (hw : run.watcher = .watchdog pc ticks)
    (hn : run.watchdogStep cancelled elapsed pc ticks = some next) (hphase : run.phase = .call)
    (hstop : run.stopSent = false) (hlimit : run.deadline ≤ epoch + run.epochTicks)
    (h : run.deadline ≤ epoch + owed run.epochTicks run.watcher) :
    run.deadline ≤ epoch + next.2 + owed run.epochTicks next.1 := by
  rw [hw] at h
  rcases watchdogStep_cases hn with ⟨-, -, rfl⟩ | ⟨rfl, -, rfl⟩ | ⟨left, rfl, rfl⟩ | ⟨rfl, -, rfl⟩ | ⟨rfl, hend⟩
  · simpa [owed] using hlimit
  · simpa [owed] using h
  · simp only [owed] at h ⊢
    omega
  · simp only [owed] at h ⊢
    omega
  · rcases hend with ⟨rfl, ht⟩ | rfl | ⟨-, hs | hu⟩
    · simp only [owed] at h ⊢
      omega
    · simpa [owed] using h
    · exact absurd (hstop.symm.trans hs) (by simp)
    · exact absurd (hphase.symm.trans hu) (by simp)

theorem step_capturingInv {run : WasiRun} {flag : Bool} {epoch : ℕ} {act : RunAct} {effect : Effect}
    (h : CapturingInv run epoch) (he : run.step flag epoch act = some effect) :
    CapturingInv effect.run effect.epoch := by
  apply step_elim (P := fun run epoch _ => CapturingInv run epoch) he
  case main => exact fun next hn => mainStep_capturingInv h hn
  case build =>
    intro host hp
    have hs := h.unsent (by simp [hp, BeforeEof])
    unfold buildStep
    split
    · exact ⟨h.path, by simp, by simp, by simp [guestExecuting, BeforeEof], h.watcher⟩
    · rename_i store hb
      have ht := buildStore_epochTicks hb
      refine ⟨h.path, ?_, by simp [h.path], fun _ => hs, h.watcher⟩
      intro _
      simp only [epochTicks, ht]
      exact le_rfl
  case write => exact fun stream bytes _ _ => guestWrite_capturingInv h stream bytes
  case compute => exact fun _ => h
  case instantiated =>
    intro hp
    have hs := h.unsent (by simp [hp, BeforeEof])
    exact ⟨h.path, fun _ => h.armed (Or.inl hp), by simp [enterCall, h.path], fun _ => hs, h.watcher⟩
  case guestEnd => exact fun guestEnd _ => stopGuest_capturingInv h guestEnd
  case watchdog =>
    intro elapsed pc ticks next hw hn
    have hnext : next.1 ≠ .unspawned ∧ ∀ reader, next.1 ≠ .reader reader := by
      rcases watchdogStep_kind hn with ⟨_, _, hnext⟩ | hnext <;> simp [hnext]
    refine ⟨h.path, fun hp => (h.armed hp).trans ?_, ?_, h.unsent, hnext.2⟩
    · simp only [epochTicks]
      omega
    · intro hp
      have hs := h.unsent (Or.inr (by dsimp only at hp; simp [hp, BeforeEof]))
      exact ⟨hnext.1, watchdogStep_owed run hw hn hp hs (h.armed (Or.inr (Or.inr hp))) (h.owing hp).2⟩
  case reader => exact fun elapsed reader _ hr => absurd hr (h.watcher reader)

theorem StreamingInv.watched {run : WasiRun} (h : StreamingInv run) (hg : run.guestExecuting)
    (epoch : ℕ) : run.Watched epoch := by
  have hp : run.phase = .instantiate ∨ run.phase = .call := by
    unfold guestExecuting at hg
    cases hp : run.phase <;> simp [hp] at hg ⊢
  obtain ⟨reader, hr⟩ := h.spawned hp
  simp [Watched, hr]

theorem CapturingInv.watched {run : WasiRun} {epoch : ℕ} (h : CapturingInv run epoch)
    (hg : run.guestExecuting) (hstart : run.component.hasStart = false) : run.Watched epoch := by
  have hp : run.phase = .call := by
    unfold guestExecuting at hg
    cases hp : run.phase <;> simp [hp, hstart] at hg ⊢
  obtain ⟨hw, hd⟩ := h.owing hp
  unfold Watched
  cases hwatch : run.watcher with
  | unspawned => exact hw hwatch
  | exited stdout stderr => simpa [hwatch, owed] using hd
  | watchdog => trivial
  | reader => trivial

theorem step_params {run : WasiRun} {flag : Bool} {epoch : ℕ} {act : RunAct} {effect : Effect}
    (he : run.step flag epoch act = some effect) :
    effect.run.path = run.path ∧ effect.run.component = run.component ∧
      effect.run.request = run.request ∧ effect.run.cancellable = run.cancellable := by
  apply step_elim (P := fun next _ _ => next.path = run.path ∧ next.component = run.component ∧
    next.request = run.request ∧ next.cancellable = run.cancellable) he
  case main =>
    intro next hn
    cases hn <;> exact ⟨rfl, rfl, rfl, rfl⟩
  case build =>
    intro host _
    unfold buildStep
    split <;> exact ⟨rfl, rfl, rfl, rfl⟩
  case write =>
    intro stream bytes _ _
    rcases guestWrite_cases run stream bytes with he | he | ⟨pipe, -, -, he⟩ | ⟨pipe, -, -, he⟩ <;>
      rw [he]
    · exact ⟨rfl, rfl, rfl, rfl⟩
    · exact ⟨rfl, rfl, rfl, rfl⟩
    · cases stream <;> exact ⟨rfl, rfl, rfl, rfl⟩
    · cases stream <;> exact ⟨rfl, rfl, rfl, rfl⟩
  case compute => exact fun _ => ⟨rfl, rfl, rfl, rfl⟩
  case instantiated => exact fun _ => ⟨rfl, rfl, rfl, rfl⟩
  case guestEnd => exact fun _ _ => ⟨rfl, rfl, rfl, rfl⟩
  case watchdog => exact fun _ _ _ _ _ _ => ⟨rfl, rfl, rfl, rfl⟩
  case reader =>
    intro elapsed reader next _ hn
    cases hn <;> exact ⟨rfl, rfl, rfl, rfl⟩

end WasiRun

section Runs
variable {path : RunPath} {component : Component} {request : CommandRequest} {cancellable : Bool}
  {epoch : ℕ} {flag : Bool} {s : Solo}

/-- An invariant of the run's own steps that a growing epoch keeps holds throughout. -/
theorem solo_invariant {P : WasiRun → ℕ → Prop}
    (hstep : ∀ run flag epoch act effect, P run epoch → run.step flag epoch act = some effect →
      P effect.run effect.epoch)
    (hmono : ∀ run epoch, P run epoch → P run (epoch + 1))
    (h : Reachable (soloSystem path component request cancellable epoch flag) s)
    (hs : P (.start path component request cancellable) epoch) : P s.run s.epoch := by
  refine Reachable.invariant (P := fun s => P s.run s.epoch) ?_ h hs
  intro s a t he hp
  cases a with
  | run act =>
    obtain ⟨effect, heff, rfl⟩ := Option.map_eq_some_iff.mp he
    exact hstep _ _ _ _ _ hp heff
  | cancel => cases he; exact hp
  | foreignTick => cases he; exact hmono _ _ hp

theorem solo_component (h : Reachable (soloSystem path component request cancellable epoch flag) s) :
    s.run.component = component :=
  solo_invariant (P := fun run _ => run.component = component)
    (fun _ _ _ _ _ hp he => (WasiRun.step_params he).2.1.trans hp) (fun _ _ hp => hp) h rfl

end Runs

def startingComponent : Component := ⟨true⟩

def startingSystem : System Solo SoloAct :=
  soloSystem .inner startingComponent (sampleRequest 1 .read defaultLimits) true 0 false

/-- On the capturing path the start function runs with no watchdog spawned. -/
theorem start_function_unwatched :
    ∃ s, Reachable startingSystem s ∧ s.run.guestExecuting ∧ s.run.watcher = .unspawned := by
  -- the run lock, then `build_store`; the next phase is the instantiation
  exact startingSystem.reachable_of_replay (fun s => s.run.guestExecuting ∧ s.run.watcher = .unspawned)
    [.run .main, .run (.build sampleHost)] (by decide)

/-- Guest code is under the watcher at every step of every run exactly when the run
streams or instantiation executes no guest code. -/
theorem guest_watched_iff (path : RunPath) (component : Component) :
    (∀ request cancellable epoch flag s,
      Reachable (soloSystem path component request cancellable epoch flag) s →
      s.run.guestExecuting → s.run.Watched s.epoch) ↔
    (path = .events ∨ component.hasStart = false) := by
  constructor
  · intro h
    by_contra hno
    obtain ⟨hpath, hstart⟩ := not_or.mp hno
    have hinner : path = .inner := by cases path <;> simp at hpath ⊢
    have hcomponent : component = startingComponent := by
      cases component
      simpa [startingComponent] using hstart
    subst hinner hcomponent
    obtain ⟨s, hr, hg, hw⟩ := start_function_unwatched
    have hwatched := h _ _ _ _ s hr hg
    simp [WasiRun.Watched, hw] at hwatched
  · rintro hcond request cancellable epoch flag s hr hg
    cases path with
    | events =>
      have hinv := solo_invariant (P := fun run _ => run.StreamingInv)
        (fun _ _ _ _ _ hp he => WasiRun.step_streamingInv hp he) (fun _ _ hp => hp) hr
        (WasiRun.streamingInv_start component request cancellable)
      exact hinv.watched hg s.epoch
    | inner =>
      have hstart : component.hasStart = false := by simpa using hcond
      have hinv := solo_invariant (P := fun run epoch => run.CapturingInv epoch)
        (fun _ _ _ _ _ hp he => WasiRun.step_capturingInv hp he)
        (fun _ _ hp => hp.mono (by omega)) hr
        (WasiRun.capturingInv_start component request cancellable epoch)
      exact hinv.watched hg (by rw [solo_component hr]; exact hstart)

end FerrousRuntime.Runtime
