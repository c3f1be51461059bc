import FerrousRuntime.Runtime.Watchdog

/-! # Runs that share one engine

The epoch belongs to the engine, so whoever advances it advances it for every store.
`run_lock` keeps the runs apart: each of them takes the lock before it arms its
deadline, and has joined its watcher before it gives the lock back.
-/
namespace FerrousRuntime.Runtime
open Capability Command Pipe Transition

namespace Phase

def holdsLock : Phase → Bool
  | .lock | .returned _ => false
  | _ => true

def armed : Phase → Bool
  | .spawn | .instantiate | .call => true
  | _ => false

theorem holdsLock_of_armed {phase : Phase} (h : phase.armed = true) : phase.holdsLock = true := by
  cases phase <;> first | rfl | cases h

end Phase

namespace Watcher

/-- No thread of the run is left that could advance the epoch. -/
def quiet : Watcher → Bool
  | .unspawned | .exited _ _ => true
  | _ => false

def bursting : Watcher → Bool
  | .watchdog (.burst _) _ => true
  | .reader r => match r.pc with
    | .burst _ => true
    | _ => false
  | _ => false

def ticking : Watcher → Bool
  | .watchdog .wait _ => true
  | .reader r => r.pc == .tick
  | _ => false

end Watcher

namespace WasiRun

def unwatched (run : WasiRun) : Bool :=
  match run.phase, run.path with
  | .lock, _ | .build, _ | .spawn, _ | .classify _, _ | .returned _, _ => true
  | .instantiate, .inner => true
  | _, _ => false

/-- Every exit path joins the watcher first. -/
def Joined (run : WasiRun) : Prop := run.unwatched = true → run.watcher.quiet = true

variable {run : WasiRun} {flag : Bool} {epoch : ℕ} {act : RunAct} {effect : Effect}

theorem readerStep_caller {reader : Reader} {cancelled elapsed : Bool}
    {next : WasiRun × ℕ × Option SessionEvent} (hn : ReaderSteps cancelled elapsed run reader next) :
    next.1.phase = run.phase ∧ next.1.path = run.path ∧ next.1.deadline = run.deadline := by
  cases hn <;> exact ⟨rfl, rfl, rfl⟩

theorem joined_start (path : RunPath) (component : Component) (request : CommandRequest)
    (cancellable : Bool) : Joined (start path component request cancellable) := fun _ => rfl

theorem stopGuest_joined (h : run.Joined) {guestEnd : GuestEnd}
    (hend : ∀ error, guestEnd = .notInstantiated error → run.phase = .instantiate) :
    (run.stopGuest guestEnd).Joined := by
  intro hu
  cases hp : run.path with
  | events => simp [stopGuest, afterGuest, unwatched, hp] at hu
  | inner =>
    cases guestEnd with
    | notInstantiated error => exact h (by simp [unwatched, hend error rfl, hp])
    | success => simp [stopGuest, afterGuest, unwatched, hp] at hu
    | failure => simp [stopGuest, afterGuest, unwatched, hp] at hu
    | trap error => simp [stopGuest, afterGuest, unwatched, hp] at hu

theorem mainStep_joined {next : WasiRun} {cancelled : Bool} (h : run.Joined)
    (hn : MainSteps cancelled run next) : next.Joined := by
  cases hn with
  | locked hp => exact fun _ => h (by simp [unwatched, hp])
  | spawned =>
    intro hu
    cases hpath : run.path <;> simp [unwatched, hpath] at hu
  | endedStdout => exact fun hu => by simp [unwatched] at hu
  | endedStderr => exact fun hu => by simp [unwatched] at hu
  | stopped => exact fun hu => by simp [unwatched] at hu
  | joined guestEnd stdout stderr _ hw =>
    intro _
    simp [hw, Watcher.quiet]
  | classified guestEnd hp => exact fun _ => h (by simp [unwatched, hp])

theorem step_joined (h : run.Joined) (he : run.step flag epoch act = some effect) :
    effect.run.Joined := by
  apply step_elim (P := fun run _ _ => run.Joined) he
  case main => exact fun next hn => mainStep_joined h hn
  case build =>
    intro host hp
    have hq := h (by simp [unwatched, hp])
    unfold buildStep
    split <;> exact fun _ => hq
  case write =>
    intro stream bytes _ hg
    rcases guestWrite_cases run stream bytes with he | he | ⟨pipe, -, -, he⟩ | ⟨pipe, -, -, he⟩ <;>
      rw [he]
    · exact h
    · refine stopGuest_joined h ?_
      intro error herror
      cases hp : run.phase <;> simp [trapEnd, hp] at herror ⊢
    · cases stream <;> exact h
    · cases stream <;> exact h
  case compute => exact fun _ => h
  case instantiated =>
    intro hp hu
    cases hpath : run.path with
    | events => simp [enterCall, unwatched, hpath] at hu
    | inner => exact h (by simp [unwatched, hp, hpath])
  case guestEnd =>
    intro guestEnd hc
    refine stopGuest_joined h ?_
    rintro error rfl
    unfold canEnd at hc
    cases hp : run.phase <;> simp [hp] at hc ⊢
  case watchdog =>
    intro elapsed pc ticks next hw _ hu
    -- a run with a watchdog is in none of the phases
    have hq := h hu
    rw [hw] at hq
    cases hq
  case reader =>
    intro elapsed reader next hr hn hu
    obtain ⟨hphase, hpath, -⟩ := readerStep_caller hn
    unfold unwatched at hu
    rw [hphase, hpath] at hu
    have hq := h hu
    rw [hr] at hq
    cases hq

/-- The epoch moves by one at a time, at a timed tick of the watcher or in its burst. -/
theorem step_epoch (he : run.step flag epoch act = some effect) (hne : effect.epoch ≠ epoch) :
    (∃ elapsed, act = .watch elapsed) ∧ effect.epoch = epoch + 1 ∧ run.watcher.quiet = false ∧
      (run.watcher.bursting = true ∨ run.watcher.ticking = true) := by
  cases act with
  | main =>
    obtain ⟨next, -, rfl⟩ := Option.map_eq_some_iff.mp he
    exact absurd rfl hne
  | build host =>
    cases hp : run.phase <;> simp only [step, hp, reduceCtorEq, Option.some.injEq] at he
    subst he
    exact absurd rfl hne
  | instantiated =>
    cases hp : run.phase <;> simp only [step, hp, reduceCtorEq, Option.some.injEq] at he
    subst he
    exact absurd rfl hne
  | watch elapsed =>
    refine ⟨⟨elapsed, rfl⟩, ?_⟩
    revert hne
    apply watch_elim (P := fun _ after _ => after ≠ epoch → after = epoch + 1 ∧
      run.watcher.quiet = false ∧ (run.watcher.bursting = true ∨ run.watcher.ticking = true)) he
    case watchdog =>
      intro pc ticks next hw hn hne
      rw [hw]
      rcases watchdogStep_cases hn with ⟨-, -, rfl⟩ | ⟨-, -, rfl⟩ | ⟨_, rfl, rfl⟩ | ⟨rfl, -, rfl⟩ | ⟨rfl, -⟩
      · exact absurd rfl hne
      · exact absurd rfl hne
      · exact ⟨rfl, rfl, Or.inl rfl⟩
      · exact ⟨rfl, rfl, Or.inr rfl⟩
      · exact absurd rfl hne
    case reader =>
      intro r next hw hn hne
      rw [hw]
      cases hn with
      | bumped left hpc => exact ⟨rfl, rfl, Or.inl (by simp [Watcher.bursting, hpc])⟩
      | ticked hpc =>
        cases elapsed with
        | false => exact absurd rfl hne
        | true => exact ⟨rfl, rfl, Or.inr (by simp [Watcher.ticking, hpc])⟩
      | _ => exact absurd rfl hne
  | _ =>
    simp only [step, Option.ite_none_right_eq_some, Option.some.injEq] at he
    obtain ⟨-, rfl⟩ := he
    exact absurd rfl hne

theorem step_bursting (he : run.step flag epoch act = some effect)
    (hb : effect.run.watcher.bursting = true) :
    run.watcher.bursting = true ∨ (run.cancellable && flag) = true := by
  revert hb
  apply step_elim (P := fun next _ _ => next.watcher.bursting = true →
    run.watcher.bursting = true ∨ (run.cancellable && flag) = true) he
  case main =>
    intro next hn hb
    cases hn with
    | spawned => cases hpath : run.path <;> simp [spawned, hpath, Watcher.bursting] at hb
    | _ => exact Or.inl hb
  case build =>
    intro host _ hb
    unfold buildStep at hb
    split at hb <;> exact Or.inl hb
  case write =>
    intro stream bytes _ _ hb
    rcases guestWrite_cases run stream bytes with he | he | ⟨pipe, -, -, he⟩ | ⟨pipe, -, -, he⟩ <;>
      rw [he] at hb
    · exact Or.inl hb
    · exact Or.inl hb
    · cases stream <;> exact Or.inl hb
    · cases stream <;> exact Or.inl hb
  case compute => exact fun _ hb => Or.inl hb
  case instantiated => exact fun _ hb => Or.inl hb
  case guestEnd => exact fun _ _ hb => Or.inl hb
  case watchdog =>
    intro elapsed pc ticks next hw hn hb
    rcases watchdogStep_cases hn with ⟨hc, -, rfl⟩ | ⟨-, -, rfl⟩ | ⟨_, rfl, rfl⟩ | ⟨-, -, rfl⟩ | ⟨rfl, -⟩
    · exact Or.inr hc
    · cases hb
    · exact Or.inl (by rw [hw]; rfl)
    · cases hb
    · cases hb
  case reader =>
    intro elapsed reader next hr hn hb
    cases hn with
    | drainedStdout =>
      by_cases hnil : run.stdout.waitAndDrain.1.1 = [] <;> simp [Watcher.bursting, hnil] at hb
    | drainedStderr =>
      by_cases hnil : run.stderr.waitAndDrain.1.1 = [] <;> simp [Watcher.bursting, hnil] at hb
    | sawCancelled _ hc => exact Or.inr hc
    | bumped left hpc => exact Or.inl (by simp [hr, Watcher.bursting, hpc])
    | _ => cases hb

theorem step_armed (he : run.step flag epoch act = some effect)
    (ha : effect.run.phase.armed = true) :
    (run.phase.armed = true ∧ effect.run.deadline = run.deadline) ∨
      (run.phase = .build ∧ effect.run.deadline = epoch + run.epochTicks ∧ effect.epoch = epoch) := by
  revert ha
  apply step_elim (P := fun next now _ => next.phase.armed = true →
    (run.phase.armed = true ∧ next.deadline = run.deadline) ∨
      (run.phase = .build ∧ next.deadline = epoch + run.epochTicks ∧ now = epoch)) he
  case main =>
    intro next hn ha
    cases hn with
    | spawned hp => exact Or.inl ⟨by rw [hp]; rfl, rfl⟩
    | _ => cases ha
  case build =>
    intro host hp ha
    unfold buildStep at ha ⊢
    split at ha
    · cases ha
    · rename_i store hb
      have ht := buildStore_epochTicks hb
      refine Or.inr ⟨hp, ?_, rfl⟩
      simp only [ht, epochTicks]
  case write =>
    intro stream bytes _ hg ha
    have harmed : run.phase.armed = true := by
      unfold guestExecuting at hg
      cases hp : run.phase <;> simp [hp, Phase.armed] at hg ⊢
    rcases guestWrite_cases run stream bytes with he | he | ⟨pipe, -, -, he⟩ | ⟨pipe, -, -, he⟩ <;>
      rw [he]
    · exact Or.inl ⟨harmed, rfl⟩
    · exact Or.inl ⟨harmed, rfl⟩
    · cases stream <;> exact Or.inl ⟨harmed, rfl⟩
    · cases stream <;> exact Or.inl ⟨harmed, rfl⟩
  case compute => exact fun _ ha => Or.inl ⟨ha, rfl⟩
  case instantiated => exact fun hp _ => Or.inl ⟨by rw [hp]; rfl, rfl⟩
  case guestEnd =>
    intro guestEnd hc ha
    have harmed : run.phase.armed = true := by
      unfold canEnd at hc
      cases guestEnd <;> cases hp : run.phase <;> simp [hp, Phase.armed] at hc ⊢
    exact Or.inl ⟨harmed, rfl⟩
  case watchdog => exact fun _ _ _ _ _ _ ha => Or.inl ⟨ha, rfl⟩
  case reader =>
    intro elapsed reader next _ hn ha
    obtain ⟨hphase, -, hdeadline⟩ := readerStep_caller hn
    rw [hphase] at ha
    exact Or.inl ⟨ha, hdeadline⟩

/-- From taking the lock to returning, in this order. -/
theorem step_holdsLock (hj : run.Joined) (he : run.step flag epoch act = some effect) :
    (run.phase = .lock ∧ effect.run.phase = .build) ∨
      (run.phase.holdsLock = true ∧ effect.run.phase ≠ .lock ∧ effect.run.phase ≠ .build) := by
  apply step_elim (P := fun next _ _ => (run.phase = .lock ∧ next.phase = .build) ∨
    (run.phase.holdsLock = true ∧ next.phase ≠ .lock ∧ next.phase ≠ .build)) he
  case main =>
    intro next hn
    cases hn with
    | locked hp => exact Or.inl ⟨hp, rfl⟩
    | spawned hp =>
      refine Or.inr ⟨by rw [hp]; rfl, ?_⟩
      dsimp only
      split <;> simp
    | endedStdout _ hp => exact Or.inr ⟨by rw [hp]; rfl, by simp⟩
    | endedStderr _ hp => exact Or.inr ⟨by rw [hp]; rfl, by simp⟩
    | stopped _ hp => exact Or.inr ⟨by rw [hp]; rfl, by simp⟩
    | joined _ _ _ hp _ => exact Or.inr ⟨by rw [hp]; rfl, by simp⟩
    | classified _ hp => exact Or.inr ⟨by rw [hp]; rfl, by simp⟩
  case build =>
    intro host hp
    refine Or.inr ⟨by rw [hp]; rfl, ?_⟩
    unfold buildStep
    split
    · simp
    · dsimp only
      split <;> simp
  case write =>
    intro stream bytes _ hg
    have hlock : run.phase.holdsLock = true ∧ run.phase ≠ .lock ∧ run.phase ≠ .build := by
      unfold guestExecuting at hg
      cases hp : run.phase <;> simp [hp, Phase.holdsLock] at hg ⊢
    refine Or.inr ⟨hlock.1, ?_⟩
    rcases guestWrite_cases run stream bytes with he | he | ⟨pipe, -, -, he⟩ | ⟨pipe, -, -, he⟩ <;>
      rw [he]
    · exact hlock.2
    · simp only [stopGuest, afterGuest]
      split <;> simp
    · cases stream <;> exact hlock.2
    · cases stream <;> exact hlock.2
  case compute =>
    intro hg
    refine Or.inr ?_
    unfold guestExecuting at hg
    cases hp : run.phase <;> simp [hp, Phase.holdsLock] at hg ⊢
  case instantiated =>
    intro hp
    refine Or.inr ⟨by rw [hp]; rfl, ?_⟩
    simp only [enterCall]
    split <;> simp
  case guestEnd =>
    intro guestEnd hc
    have hlock : run.phase.holdsLock = true := by
      unfold canEnd at hc
      cases guestEnd <;> cases hp : run.phase <;> simp [hp, Phase.holdsLock] at hc ⊢
    refine Or.inr ⟨hlock, ?_⟩
    simp only [stopGuest, afterGuest]
    split <;> simp
  case watchdog =>
    intro elapsed pc ticks next hw _
    have hq := hj
    rw [Joined, hw] at hq
    refine Or.inr ?_
    unfold unwatched at hq
    cases hp : run.phase <;> simp [hp, Phase.holdsLock, Watcher.quiet] at hq ⊢
  case reader =>
    intro elapsed reader next hr hn
    have hq := hj
    rw [Joined, hr] at hq
    obtain ⟨hphase, -, -⟩ := readerStep_caller hn
    rw [hphase]
    refine Or.inr ?_
    unfold unwatched at hq
    cases hp : run.phase <;> simp [hp, Phase.holdsLock, Watcher.quiet] at hq ⊢

theorem step_returned {answer : Except RuntimeError WasiOutput}
    (he : run.step flag epoch act = some effect) (hr : effect.run.phase = .returned answer) :
    run.phase = .returned answer ∨
      (∃ host error, buildStore host run.request = .error error ∧ answer = .error error) ∨
      (∃ source, answer = .error (.wasi source)) ∨
      ∃ guestEnd, answer = run.result (run.cancellable && flag) guestEnd := by
  have hstop : ∀ guestEnd, (run.stopGuest guestEnd).phase = .returned answer →
      ∃ source, answer = .error (.wasi source) := by
    intro guestEnd hr
    simp only [stopGuest, afterGuest] at hr
    split at hr <;> cases hr
    exact ⟨_, rfl⟩
  revert hr
  apply step_elim (P := fun next _ _ => next.phase = .returned answer →
    run.phase = .returned answer ∨
      (∃ host error, buildStore host run.request = .error error ∧ answer = .error error) ∨
      (∃ source, answer = .error (.wasi source)) ∨
      ∃ guestEnd, answer = run.result (run.cancellable && flag) guestEnd) he
  case main =>
    intro next hn hr
    cases hn with
    | classified guestEnd =>
      cases hr
      exact Or.inr (Or.inr (Or.inr ⟨guestEnd, rfl⟩))
    | spawned =>
      dsimp only at hr
      split at hr <;> cases hr
    | _ => cases hr
  case build =>
    intro host hp hr
    unfold buildStep at hr
    split at hr
    · rename_i error hb
      cases hr
      exact Or.inr (Or.inl ⟨host, error, hb, rfl⟩)
    · dsimp only at hr
      split at hr <;> cases hr
  case write =>
    intro stream bytes _ _ hr
    rcases guestWrite_cases run stream bytes with he | he | ⟨pipe, -, -, he⟩ | ⟨pipe, -, -, he⟩ <;>
      rw [he] at hr
    · exact Or.inl hr
    · exact Or.inr (Or.inr (Or.inl (hstop _ hr)))
    · cases stream <;> exact Or.inl hr
    · cases stream <;> exact Or.inl hr
  case compute => exact fun _ hr => Or.inl hr
  case instantiated =>
    intro _ hr
    simp only [enterCall] at hr
    split at hr <;> cases hr
  case guestEnd => exact fun guestEnd _ hr => Or.inr (Or.inr (Or.inl (hstop guestEnd hr)))
  case watchdog => exact fun _ _ _ _ _ _ hr => Or.inl hr
  case reader =>
    intro elapsed reader next _ hn hr
    obtain ⟨hphase, -, -⟩ := readerStep_caller hn
    exact Or.inl (hphase ▸ hr)

/-- A run comes back cancelled only if the flag of its own handle was seen. -/
theorem step_returned_cancelled (he : run.step flag epoch act = some effect)
    (hr : effect.run.phase = .returned (.error .cancelled)) :
    run.phase = .returned (.error .cancelled) ∨ (run.cancellable && flag) = true := by
  rcases step_returned he hr with hr | ⟨host, error, hb, ha⟩ | ⟨source, ha⟩ | ⟨guestEnd, ha⟩
  · exact Or.inl hr
  · cases ha
    rcases buildStore_error hb with ⟨ha, -⟩ | ⟨source, ha⟩ | ⟨source, ha⟩ <;> cases ha
  · cases ha
  · cases guestEnd with
    | trap error =>
      simp only [result] at ha
      split at ha
      · rename_i hc
        exact Or.inr hc
      · cases ha
    | _ => cases ha

theorem step_returned_wrongMode (hmode : run.request.mode = .wasi)
    (he : run.step flag epoch act = some effect)
    (hr : effect.run.phase = .returned (.error .wrongMode)) :
    run.phase = .returned (.error .wrongMode) := by
  rcases step_returned he hr with hr | ⟨host, error, hb, ha⟩ | ⟨source, ha⟩ | ⟨guestEnd, ha⟩
  · exact hr
  · cases ha
    rcases buildStore_error hb with ⟨-, hwrong⟩ | ⟨source, ha⟩ | ⟨source, ha⟩
    · exact absurd hmode hwrong
    · cases ha
    · cases ha
  · cases ha
  · cases guestEnd with
    | trap error =>
      simp only [result] at ha
      split at ha <;> cases ha
    | _ => cases ha

end WasiRun

/-- The entry points of `WasiRuntime`, with the cancel handle they are given. -/
inductive Entry
  | runWasi
  | runWasiCancellable (cancel : ℕ)
  | runWasiEvents (cancel : ℕ)
deriving DecidableEq, Repr

def Entry.path : Entry → RunPath
  | .runWasiEvents _ => .events
  | _ => .inner

def Entry.cancel : Entry → Option ℕ
  | .runWasi => none
  | .runWasiCancellable cancel => some cancel
  | .runWasiEvents cancel => some cancel

/-- One call of the runtime. `timedTicks` is a ghost: the timed ticks of its watcher. -/
structure EngineRun where
  run : WasiRun
  cancel : Option ℕ
  timedTicks : ℕ

def EngineRun.start (entry : Entry) (component : Component) (request : CommandRequest) : EngineRun :=
  ⟨.start entry.path component request entry.cancel.isSome, entry.cancel, 0⟩

def EngineRun.cancelled (flags : ℕ → Bool) (r : EngineRun) : Bool := r.cancel.any flags

def EngineRun.advance (r : EngineRun) (epoch : ℕ) (effect : Effect) : EngineRun :=
  { r with
    run := effect.run
    timedTicks := if r.run.watcher.ticking then r.timedTicks + (effect.epoch - epoch) else r.timedTicks }

/-- The runtime with every call that was made of it. -/
structure WasiRuntime where
  epoch : ℕ
  /-- the call that holds `run_lock` -/
  runLock : Option ℕ
  flags : ℕ → Bool
  runs : List EngineRun

inductive EngineAct
  | call (entry : Entry) (component : Component) (request : CommandRequest)
  | cancel (cell : ℕ)
  | run (index : ℕ) (act : RunAct)

/-- The holder of `run_lock` after a step of the call with that index. -/
def lockAfter (lock : Option ℕ) (index : ℕ) (before after : Phase) : Option ℕ :=
  match before, after with
  | .lock, _ => some index
  | _, .returned _ => none
  | _, _ => lock

namespace WasiRuntime

def new (epoch : ℕ) : WasiRuntime := ⟨epoch, none, fun _ => false, []⟩

def blocked (s : WasiRuntime) (r : EngineRun) : Bool := !r.run.phase.holdsLock && s.runLock.isSome

def step (s : WasiRuntime) : EngineAct → Option WasiRuntime
  | .call entry component request => some { s with runs := s.runs ++ [.start entry component request] }
  | .cancel cell => some { s with flags := Function.update s.flags cell true }
  | .run index act =>
    (s.runs[index]?).bind (fun r =>
      if s.blocked r then none
      else (r.run.step (r.cancelled s.flags) s.epoch act).map (fun effect => { s with
        epoch := effect.epoch
        runLock := lockAfter s.runLock index r.run.phase effect.run.phase
        runs := s.runs.set index (r.advance s.epoch effect) }))

end WasiRuntime

/-- Any number of calls on a runtime whose engine has reached the given epoch. -/
def engineSystem (epoch : ℕ) : System WasiRuntime EngineAct := ⟨.new epoch, WasiRuntime.step⟩

structure EngineRun.Sound (s : WasiRuntime) (index : ℕ) (r : EngineRun) : Prop where
  cancellable : r.run.cancellable = r.cancel.isSome
  joined : r.run.Joined
  lock : s.runLock = some index ↔ r.run.phase.holdsLock = true
  fresh : r.run.phase = .lock ∨ r.run.phase = .build → r.timedTicks = 0
  burst : r.run.watcher.bursting = true → r.cancelled s.flags = true
  armed : r.run.phase.armed = true → r.cancelled s.flags = true ∨
    s.epoch + r.run.epochTicks = r.run.deadline + r.timedTicks
  returned : r.run.phase = .returned (.error .cancelled) → r.cancelled s.flags = true

structure WasiRuntime.Sound (s : WasiRuntime) : Prop where
  holder : ∀ index, s.runLock = some index → index < s.runs.length
  runs : ∀ (index : ℕ) (r : EngineRun), s.runs[index]? = some r → r.Sound s index

section Runs
variable {s t : WasiRuntime} {index : ℕ} {r : EngineRun} {act : RunAct} {effect : Effect}

theorem EngineRun.cancelled_mono {flags flags' : ℕ → Bool} (h : r.cancelled flags = true)
    (hf : ∀ cell, flags cell = true → flags' cell = true) : r.cancelled flags' = true := by
  unfold EngineRun.cancelled at h ⊢
  obtain ⟨cell, hc, hset⟩ := (Option.any_eq_true _ _).mp h
  exact (Option.any_eq_true _ _).mpr ⟨cell, hc, hf cell hset⟩

theorem start_sound (entry : Entry) (component : Component) (request : CommandRequest)
    (hlock : s.runLock ≠ some index) : (EngineRun.start entry component request).Sound s index := by
  refine ⟨rfl, WasiRun.joined_start _ _ _ _, ?_, fun _ => rfl, ?_, ?_, ?_⟩
  · simpa [EngineRun.start, WasiRun.start, Phase.holdsLock] using hlock
  · simp [EngineRun.start, WasiRun.start, Watcher.bursting]
  · simp [EngineRun.start, WasiRun.start, Phase.armed]
  · simp [EngineRun.start, WasiRun.start]

theorem lockAfter_eq_some {lock : Option ℕ} {i : ℕ} {before after : Phase}
    (h : lockAfter lock index before after = some i) : i = index ∨ lock = some i := by
  unfold lockAfter at h
  split at h
  · exact Or.inl (Option.some.inj h).symm
  · cases h
  · exact Or.inr h

theorem lockAfter_of_holdsLock {lock : Option ℕ} {before after : Phase}
    (hb : before.holdsLock = true) (ha : after ≠ .lock) :
    lockAfter lock index before after = if after.holdsLock then lock else none := by
  unfold lockAfter
  split
  · cases hb
  · rfl
  · rename_i hreturned
    have hh : after.holdsLock = true := by
      cases after with
      | lock => exact absurd rfl ha
      | returned result => exact absurd rfl (hreturned result)
      | _ => rfl
    rw [if_pos hh]

theorem advance_sound (h : r.Sound s index)
    (he : r.run.step (r.cancelled s.flags) s.epoch act = some effect) :
    (r.advance s.epoch effect).Sound { s with
      epoch := effect.epoch
      runLock := lockAfter s.runLock index r.run.phase effect.run.phase
      runs := s.runs.set index (r.advance s.epoch effect) } index := by
  have hjoined := WasiRun.step_joined h.joined he
  have hown : ∀ {p : Prop}, (r.run.cancellable && r.cancelled s.flags) = true →
      r.cancelled s.flags = true ∨ p := fun hc => Or.inl (Bool.and_eq_true_iff.mp hc).2
  have hphase := WasiRun.step_holdsLock h.joined he
  have hburst : effect.run.watcher.bursting = true → r.cancelled s.flags = true := by
    intro hb
    rcases WasiRun.step_bursting he hb with hb | hc
    · exact h.burst hb
    · exact (Bool.and_eq_true_iff.mp hc).2
  refine ⟨?_, hjoined, ?_, ?_, hburst, ?_, ?_⟩
  · exact (WasiRun.step_params he).2.2.2.trans h.cancellable
  · change lockAfter s.runLock index r.run.phase effect.run.phase = some index ↔
      effect.run.phase.holdsLock = true
    rcases hphase with ⟨hb, ha⟩ | ⟨hb, ha, -⟩
    · simp [lockAfter, hb, ha, Phase.holdsLock]
    · rw [lockAfter_of_holdsLock hb ha, h.lock.mpr hb]
      cases effect.run.phase.holdsLock <;> simp
  · intro hnext
    change (if r.run.watcher.ticking then _ else _) = 0
    rcases hphase with ⟨hb, ha⟩ | ⟨-, hlock, hbuild⟩
    · have hquiet := h.joined (by simp [WasiRun.unwatched, hb])
      have htick : r.run.watcher.ticking = false := by
        cases hw : r.run.watcher <;> first | rfl | (rw [hw] at hquiet; cases hquiet)
      rw [htick]
      exact h.fresh (Or.inl hb)
    · rcases hnext with hnext | hnext
      · exact absurd hnext hlock
      · exact absurd hnext hbuild
  · intro ha
    change _ ∨ effect.epoch + effect.run.epochTicks = effect.run.deadline +
      (if r.run.watcher.ticking then r.timedTicks + (effect.epoch - s.epoch) else r.timedTicks)
    have hticks : effect.run.epochTicks = r.run.epochTicks :=
      congrArg (fun request => request.grant.limits.epochTicks) (WasiRun.step_params he).2.2.1
    rw [hticks]
    rcases WasiRun.step_armed he ha with ⟨hb, hd⟩ | ⟨hb, hd, hepoch⟩
    · rcases h.armed hb with hc | hacc
      · exact Or.inl hc
      · by_cases hne : effect.epoch = s.epoch
        · refine Or.inr ?_
          rw [hd, hne]
          split <;> omega
        · obtain ⟨-, hone, -, hburst' | htick⟩ := WasiRun.step_epoch he hne
          · exact Or.inl (h.burst hburst')
          · refine Or.inr ?_
            rw [hd, hone, if_pos htick]
            omega
    · refine Or.inr ?_
      have hzero := h.fresh (Or.inr hb)
      rw [hd, hepoch, hzero]
      split <;> omega
  · intro hr
    rcases WasiRun.step_returned_cancelled he hr with hr | hc
    · exact h.returned hr
    · exact (Bool.and_eq_true_iff.mp hc).2

theorem others_sound {i : ℕ} {other : EngineRun} (h : r.Sound s index) (ho : other.Sound s i)
    (hne : i ≠ index) (hlock : s.blocked r = false)
    (he : r.run.step (r.cancelled s.flags) s.epoch act = some effect) :
    other.Sound { s with
      epoch := effect.epoch
      runLock := lockAfter s.runLock index r.run.phase effect.run.phase
      runs := s.runs.set index (r.advance s.epoch effect) } i := by
  have hfree : other.run.phase.holdsLock = false := by
    rw [Bool.eq_false_iff]
    intro hi
    have hholder := ho.lock.mpr hi
    rcases WasiRun.step_holdsLock h.joined he with ⟨hb, -⟩ | ⟨hb, -⟩
    · simp [WasiRuntime.blocked, hb, Phase.holdsLock, hholder] at hlock
    · exact hne (Option.some.inj (hholder.symm.trans (h.lock.mpr hb)))
  have harmed : other.run.phase.armed = true → False := by
    intro ha
    rw [Phase.holdsLock_of_armed ha] at hfree
    cases hfree
  refine ⟨ho.cancellable, ho.joined, ?_, ho.fresh, ho.burst, fun ha => (harmed ha).elim, ho.returned⟩
  change lockAfter s.runLock index r.run.phase effect.run.phase = some i ↔ _
  rw [hfree]
  rcases WasiRun.step_holdsLock h.joined he with ⟨hb, ha⟩ | ⟨hb, ha, -⟩
  · simp [lockAfter, hb, hne.symm]
  · rw [lockAfter_of_holdsLock hb ha, h.lock.mpr hb]
    split <;> simp [hne.symm]

theorem step_sound {a : EngineAct} (h : s.Sound) (he : s.step a = some t) : t.Sound := by
  cases a with
  | call entry component request =>
    cases he
    have hlength : s.runs.length < (s.runs ++ [EngineRun.start entry component request]).length := by simp
    refine ⟨fun i hi => (h.holder i hi).trans hlength, ?_⟩
    intro i other hi
    by_cases hlt : i < s.runs.length
    · rw [List.getElem?_append_left hlt] at hi
      have ho := h.runs i other hi
      exact ⟨ho.cancellable, ho.joined, ho.lock, ho.fresh, ho.burst, ho.armed, ho.returned⟩
    · obtain ⟨rfl, rfl⟩ : i = s.runs.length ∧ other = .start entry component request := by
        rw [List.getElem?_append_right (by omega)] at hi
        have hzero : i - s.runs.length = 0 := by
          by_contra hne
          rw [List.getElem?_eq_none (by simp; omega)] at hi
          cases hi
        rw [hzero] at hi
        exact ⟨by omega, (Option.some.inj hi).symm⟩
      refine start_sound entry component request ?_
      exact fun hholder => hlt (h.holder _ hholder)
  | cancel cell =>
    cases he
    refine ⟨h.holder, ?_⟩
    intro i other hi
    have ho := h.runs i other hi
    have hmono : other.cancelled s.flags = true →
        other.cancelled (Function.update s.flags cell true) = true := by
      intro hc
      refine EngineRun.cancelled_mono hc ?_
      intro c hset
      by_cases hcell : c = cell <;> simp [hcell, hset]
    exact ⟨ho.cancellable, ho.joined, ho.lock, ho.fresh, fun hb => hmono (ho.burst hb),
      fun ha => (ho.armed ha).imp_left hmono, fun hr => hmono (ho.returned hr)⟩
  | run index act =>
    obtain ⟨r, hr, he⟩ := Option.bind_eq_some_iff.mp he
    split at he
    · cases he
    · rename_i hblocked
      have hfree : s.blocked r = false := by simpa using hblocked
      obtain ⟨effect, heff, rfl⟩ := Option.map_eq_some_iff.mp he
      have hindex := (List.getElem?_eq_some_iff.mp hr).1
      refine ⟨?_, ?_⟩
      · intro i hi
        change i < (s.runs.set index (r.advance s.epoch effect)).length
        rw [List.length_set]
        rcases lockAfter_eq_some hi with rfl | hi
        · exact hindex
        · exact h.holder i hi
      · intro i other hi
        by_cases hne : i = index
        · subst hne
          rw [List.getElem?_set_self hindex] at hi
          cases hi
          exact advance_sound (h.runs i r hr) heff
        · rw [List.getElem?_set_ne (Ne.symm hne)] at hi
          exact others_sound (h.runs index r hr) (h.runs i other hi) hne hfree heff

theorem reachable_sound {epoch : ℕ} (h : Reachable (engineSystem epoch) s) : s.Sound := by
  refine Reachable.invariant (fun _ _ _ he hs => step_sound hs he) h ?_
  constructor <;> simp [engineSystem, WasiRuntime.new]

/-- Only the lock's holder has a watcher, so nobody else advances the epoch of an armed run. -/
theorem armed_exclusive (h : s.Sound) (hr : s.runs[index]? = some r) (ha : r.run.phase.armed = true)
    {i : ℕ} {other : EngineRun} (ho : s.runs[i]? = some other) (hw : other.run.watcher.quiet = false) :
    i = index := by
  have hholder := (h.runs index r hr).lock.mpr (Phase.holdsLock_of_armed ha)
  have hother := h.runs i other ho
  have hlock : other.run.phase.holdsLock = true := by
    by_contra hno
    have hq : other.run.unwatched = true := by
      unfold WasiRun.unwatched
      cases hp : other.run.phase <;> simp [hp, Phase.holdsLock] at hno ⊢
    rw [hother.joined hq] at hw
    cases hw
  exact Option.some.inj ((hother.lock.mpr hlock).symm.trans hholder)

theorem epoch_ownTick (h : s.Sound) (hr : s.runs[index]? = some r) (ha : r.run.phase.armed = true)
    {a : EngineAct} (he : s.step a = some t) (hne : t.epoch ≠ s.epoch) :
    ∃ elapsed, a = .run index (.watch elapsed) := by
  cases a with
  | call entry component request => cases he; exact absurd rfl hne
  | cancel cell => cases he; exact absurd rfl hne
  | run i act =>
    obtain ⟨other, ho, he⟩ := Option.bind_eq_some_iff.mp he
    split at he
    · cases he
    · obtain ⟨effect, heff, rfl⟩ := Option.map_eq_some_iff.mp he
      obtain ⟨⟨elapsed, rfl⟩, -, hquiet, -⟩ := WasiRun.step_epoch heff hne
      exact ⟨elapsed, by rw [armed_exclusive h hr ha ho hquiet]⟩

/-- A guest that the epoch interrupts has been given all of its time, unless it was cancelled. -/
theorem interrupted_late (h : r.Sound s index) {error : WasmtimeError} {guestEnd : GuestEnd}
    (hend : guestEnd = .trap error ∨ guestEnd = .notInstantiated error) (herror : error = .interrupt)
    (hc : r.run.canEnd s.epoch guestEnd = true) : r.cancelled s.flags = true ∨
      min (r.run.request.grant.limits.timeoutSeconds * 10) u64Max ≤ r.timedTicks := by
  subst herror
  have hreached : r.run.phase.armed = true ∧ r.run.deadline ≤ s.epoch := by
    unfold WasiRun.canEnd at hc
    rcases hend with rfl | rfl <;> cases hp : r.run.phase <;> simp_all [Phase.armed]
  rcases h.armed hreached.1 with hcancelled | hacc
  · exact Or.inl hcancelled
  · refine Or.inr ?_
    have hle : min (r.run.request.grant.limits.timeoutSeconds * 10) u64Max ≤ r.run.epochTicks :=
      le_max_left _ _
    have hdeadline := hreached.2
    omega

end Runs

def GuestEnd.interrupted : GuestEnd → Bool
  | .trap .interrupt | .notInstantiated .interrupt => true
  | _ => false

/-- What a run on a shared engine can rely on. -/
structure WasiRuntime.Isolated (s : WasiRuntime) : Prop where
  /-- while a run is armed, its own watcher alone advances the epoch -/
  ownTicks : ∀ (index : ℕ) (r : EngineRun) a t, s.runs[index]? = some r → r.run.phase.armed = true →
    s.step a = some t → t.epoch ≠ s.epoch → ∃ elapsed, a = .run index (.watch elapsed)
  /-- the epoch interrupts a guest on its own cancellation, or at its full timeout -/
  interrupted : ∀ (index : ℕ) (r : EngineRun) guestEnd t, s.runs[index]? = some r →
    guestEnd.interrupted = true → s.step (.run index (.guestEnd guestEnd)) = some t →
    r.cancelled s.flags = true ∨
      min (r.run.request.grant.limits.timeoutSeconds * 10) u64Max ≤ r.timedTicks
  /-- a run comes back cancelled on its own handle only -/
  cancelled : ∀ (index : ℕ) (r : EngineRun), s.runs[index]? = some r →
    r.run.phase = .returned (.error .cancelled) → r.cancelled s.flags = true

/-- Runs on one engine are isolated from each other, and their deadlines are exact. -/
theorem engine_runs_isolated {epoch : ℕ} {s : WasiRuntime} (h : Reachable (engineSystem epoch) s) :
    s.Isolated := by
  have hsound := reachable_sound h
  refine ⟨?_, ?_, fun index r hr => (hsound.runs index r hr).returned⟩
  · intro index r a t hr ha he hne
    exact epoch_ownTick hsound hr ha he hne
  · intro index r guestEnd t hr hend he
    obtain ⟨r', hr', he⟩ := Option.bind_eq_some_iff.mp he
    cases hr.symm.trans hr'
    split at he
    · cases he
    · obtain ⟨effect, heff, -⟩ := Option.map_eq_some_iff.mp he
      have hcan : r.run.canEnd s.epoch guestEnd = true := by
        simp only [WasiRun.step, Option.ite_none_right_eq_some] at heff
        exact heff.1
      unfold GuestEnd.interrupted at hend
      split at hend
      · exact interrupted_late (hsound.runs index r hr) (Or.inl rfl) rfl hcan
      · exact interrupted_late (hsound.runs index r hr) (Or.inr rfl) rfl hcan
      · cases hend

def oneSecond : ResourceLimits := { defaultLimits with
  timeoutSeconds := 1
  timeout_pos := Nat.one_pos
  timeout_le := u64Max_pos }

def startCapturing (index : ℕ) : List EngineAct :=
  [.run index .main, .run index (.build sampleHost), .run index .instantiated, .run index .main]

/-- Two calls; the first is cancelled while its guest runs, the second then gets the lock. -/
def cancelledThenNext : List EngineAct :=
  ([.call (.runWasiCancellable 0) ⟨false⟩ (sampleRequest 1 .read oneSecond),
    .call (.runWasiCancellable 1) ⟨false⟩ (sampleRequest 2 .read oneSecond)] : List EngineAct) ++
  startCapturing 0 ++ ([.cancel 0] : List EngineAct) ++ List.replicate 12 (EngineAct.run 0 (.watch false)) ++
  ([.run 0 (.guestEnd (.trap .interrupt)), .run 0 .main, .run 0 .main, .run 0 .main] : List EngineAct) ++
  startCapturing 1

def EngineRun.returnedCancelled (r : EngineRun) : Bool :=
  match r.run.phase with
  | .returned (.error .cancelled) => true
  | _ => false

theorem cancelled_run_spares_the_next : ∃ s : WasiRuntime,
    (s.runs[0]?).any EngineRun.returnedCancelled = true ∧
    (s.runs[1]?).any (fun r => r.run.phase.armed && !r.cancelled s.flags) = true ∧ s.Isolated := by
  obtain ⟨s, hs, hfirst, hsecond⟩ := (engineSystem 0).reachable_of_replay
    (fun s => (s.runs[0]?).any EngineRun.returnedCancelled = true ∧
      (s.runs[1]?).any (fun r => r.run.phase.armed && !r.cancelled s.flags) = true)
    cancelledThenNext (by decide)
  exact ⟨s, hfirst, hsecond, engine_runs_isolated hs⟩

end FerrousRuntime.Runtime
