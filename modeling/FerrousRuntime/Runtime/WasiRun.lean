import FerrousRuntime.Runtime.Pipe
import FerrousRuntime.Runtime.BuildStore
import FerrousRuntime.Foundation.Transition

/-! # One run of a guest

Two threads take part: the one that called the runtime, which also executes the
guest, and a watcher that advances the engine's epoch. On the capturing path the
watcher is the watchdog, on the streaming path the output reader. Each step is one
access to something the threads share. The epoch counts every `increment_epoch`
of the engine; the engine's own counter is that number in 64 bits.
-/
namespace FerrousRuntime.Runtime
open Capability Command Pipe Transition

inductive RunPath
  | inner
  | events
deriving DecidableEq, Repr

/-- What `Command::instantiate` or `call_run` came back with. -/
inductive GuestEnd
  | notInstantiated (error : WasmtimeError)
  | success
  | failure
  | trap (error : WasmtimeError)
deriving DecidableEq, Repr

inductive Phase
  | lock
  | build
  | spawn
  | instantiate
  | call
  | eofStdout (guestEnd : GuestEnd)
  | eofStderr (guestEnd : GuestEnd)
  | stop (guestEnd : GuestEnd)
  | join (guestEnd : GuestEnd)
  | classify (guestEnd : GuestEnd)
  | returned (result : Except RuntimeError WasiOutput)
  | unwound

inductive WatchdogPc
  | check
  | burst (left : ℕ)
  | wait
deriving DecidableEq, Repr

inductive ReaderPc
  | drainStdout
  | sendStdout (bytes : List UInt8)
  | drainStderr
  | sendStderr (bytes : List UInt8)
  | budget
  | closeStdout
  | closeStderr
  | cancelled
  | burst (left : ℕ)
  | tick
  | eof
deriving DecidableEq, Repr

structure Reader where
  pc : ReaderPc
  totalStdout : List UInt8
  totalStderr : List UInt8
  outEof : Bool
  errEof : Bool
  budgetClosed : Bool
deriving DecidableEq, Repr

inductive Watcher
  | unspawned
  | watchdog (pc : WatchdogPc) (ticks : ℕ)
  | reader (reader : Reader)
  | exited (stdout stderr : List UInt8)
deriving DecidableEq, Repr

/-- What `build_store` returned to a run, with the host it found. -/
structure BuiltStore where
  host : HostView
  store : Store

structure WasiRun where
  path : RunPath
  component : Component
  request : CommandRequest
  cancellable : Bool
  phase : Phase
  watcher : Watcher
  stdout : StreamOutputPipe
  stderr : StreamOutputPipe
  capturedStdout : MemoryOutputPipe
  capturedStderr : MemoryOutputPipe
  /-- the store the guest executes on -/
  built : Option BuiltStore
  deadline : ℕ
  stopSent : Bool

inductive RunAct
  /-- the calling thread takes its next step -/
  | main
  | build (host : HostView)
  /-- guest code writes to one of its streams -/
  | write (stream : Stream) (bytes : List UInt8)
  /-- guest code executes without touching its streams -/
  | compute
  | instantiated
  | guestEnd (guestEnd : GuestEnd)
  /-- the watcher takes its next step; `elapsed` tells whether its timed wait ran out -/
  | watch (elapsed : Bool)

structure Effect where
  run : WasiRun
  epoch : ℕ
  event : Option SessionEvent

namespace WasiRun

def epochTicks (run : WasiRun) : ℕ := run.request.grant.limits.epochTicks

def budget (run : WasiRun) : ℕ := run.request.grant.limits.maxOutputBytes

def start (path : RunPath) (component : Component) (request : CommandRequest) (cancellable : Bool) :
    WasiRun where
  path := path
  component := component
  request := request
  cancellable := cancellable
  phase := .lock
  watcher := .unspawned
  stdout := .new request.grant.limits.maxOutputBytes
  stderr := .new request.grant.limits.maxOutputBytes
  capturedStdout := .new request.grant.limits.maxOutputBytes
  capturedStderr := .new request.grant.limits.maxOutputBytes
  built := none
  deadline := 0
  stopSent := false

/-- Guest code executes inside `call_run`, and inside `Command::instantiate` when a
core module has a start function. -/
def guestExecuting (run : WasiRun) : Prop :=
  match run.phase with
  | .call => True
  | .instantiate => run.component.hasStart = true
  | _ => False

instance (run : WasiRun) : Decidable run.guestExecuting := by
  unfold guestExecuting
  cases run.phase <;> infer_instance

def afterGuest (path : RunPath) (guestEnd : GuestEnd) : Phase :=
  match path, guestEnd with
  | .events, _ => .eofStdout guestEnd
  | .inner, .notInstantiated error => .returned (.error (.wasi error))
  | .inner, _ => .stop guestEnd

def trapEnd (phase : Phase) : GuestEnd :=
  match phase with
  | .instantiate => .notInstantiated .writeBeyondCapacity
  | _ => .trap .writeBeyondCapacity

def pipe (run : WasiRun) : Stream → StreamOutputPipe
  | .stdout => run.stdout
  | .stderr => run.stderr

def setPipe (run : WasiRun) (stream : Stream) (pipe : StreamOutputPipe) : WasiRun :=
  match stream with
  | .stdout => { run with stdout := pipe }
  | .stderr => { run with stderr := pipe }

def captured (run : WasiRun) : Stream → MemoryOutputPipe
  | .stdout => run.capturedStdout
  | .stderr => run.capturedStderr

def setCaptured (run : WasiRun) (stream : Stream) (pipe : MemoryOutputPipe) : WasiRun :=
  match stream with
  | .stdout => { run with capturedStdout := pipe }
  | .stderr => { run with capturedStderr := pipe }

def stopGuest (run : WasiRun) (guestEnd : GuestEnd) : WasiRun :=
  { run with phase := afterGuest run.path guestEnd }

/-- The host side of one guest write: append, refuse, or trap the guest. -/
def guestWrite (run : WasiRun) (stream : Stream) (bytes : List UInt8) : WasiRun :=
  match run.path with
  | .events =>
    match (run.pipe stream).write bytes with
    | .ok pipe => run.setPipe stream pipe
    | .error .closed => run
    | .error (.trap _) => run.stopGuest (trapEnd run.phase)
  | .inner =>
    match (run.captured stream).write bytes with
    | .ok pipe => run.setCaptured stream pipe
    | .error .closed => run
    | .error (.trap _) => run.stopGuest (trapEnd run.phase)

/-- Whether `instantiate` or `call_run` can come back this way now. The epoch
interrupts guest code only once the deadline is reached. -/
def canEnd (run : WasiRun) (epoch : ℕ) : GuestEnd → Bool
  | .notInstantiated error =>
    match run.phase with
    | .instantiate => error != .interrupt || (run.component.hasStart && decide (run.deadline ≤ epoch))
    | _ => false
  | .trap error =>
    match run.phase with
    | .call => error != .interrupt || decide (run.deadline ≤ epoch)
    | _ => false
  | _ =>
    match run.phase with
    | .call => true
    | _ => false

def spawned (path : RunPath) : Watcher :=
  match path with
  | .inner => .watchdog .check 0
  | .events => .reader ⟨.drainStdout, [], [], false, false, false⟩

/-- The streams handed back: the reader's totals, or the captured contents. -/
def outputs (run : WasiRun) : List UInt8 × List UInt8 :=
  match run.path, run.watcher with
  | .events, .exited stdout stderr => (stdout, stderr)
  | .events, _ => ([], [])
  | .inner, _ => (run.capturedStdout.contents, run.capturedStderr.contents)

/-- The final match of both paths; `cancelled` is the flag read there. -/
def result (run : WasiRun) (cancelled : Bool) : GuestEnd → Except RuntimeError WasiOutput
  | .notInstantiated error => .error (.wasi error)
  | .success => .ok ⟨run.outputs.1, run.outputs.2, 0⟩
  | .failure => .ok ⟨run.outputs.1, run.outputs.2, 1⟩
  | .trap error => if cancelled then .error .cancelled else .error (.wasi error)

def mainStep (cancelled : Bool) (run : WasiRun) : Option WasiRun :=
  match run.phase with
  | .lock => some { run with phase := .build }
  | .spawn => some { run with
      watcher := spawned run.path
      phase := if run.path = .events then .instantiate else .call }
  | .eofStdout guestEnd => some { run with stdout := run.stdout.setEof, phase := .eofStderr guestEnd }
  | .eofStderr guestEnd => some { run with stderr := run.stderr.setEof, phase := .join guestEnd }
  | .stop guestEnd => some { run with stopSent := true, phase := .join guestEnd }
  | .join guestEnd =>
    match run.watcher with
    | .exited _ _ => some { run with phase := .classify guestEnd }
    | _ => none
  | .classify guestEnd => some { run with phase := .returned (run.result cancelled guestEnd) }
  | _ => none

/-- One step of the watchdog: its locals, whether it bumped the epoch; `none` when
it is blocked in its timed wait. -/
def watchdogStep (run : WasiRun) (cancelled elapsed : Bool) (pc : WatchdogPc) (ticks : ℕ) :
    Option (Watcher × ℕ) :=
  match pc with
  | .check =>
    if cancelled then some (.watchdog (.burst run.epochTicks) ticks, 0)
    else if ticks ≥ run.epochTicks then some (.exited [] [], 0)
    else some (.watchdog .wait ticks, 0)
  | .burst 0 => some (.exited [] [], 0)
  | .burst (left + 1) => some (.watchdog (.burst left) ticks, 1)
  | .wait =>
    match run.phase with
    | .unwound => some (.exited [] [], 0)
    | _ =>
      if run.stopSent then some (.exited [] [], 0)
      else if elapsed then some (.watchdog .check (ticks + 1), 1)
      else none

/-- One step of the reader, together with the event it sends and its epoch bump. -/
def readerStep (run : WasiRun) (cancelled elapsed : Bool) (reader : Reader) :
    WasiRun × ℕ × Option SessionEvent :=
  let goto (pc : ReaderPc) : Watcher := .reader { reader with pc := pc }
  match reader.pc with
  | .drainStdout =>
    let ((bytes, eof), pipe) := run.stdout.waitAndDrain
    let next := if bytes = [] then ReaderPc.drainStderr else .sendStdout bytes
    ({ run with
        stdout := pipe
        watcher := .reader { reader with
          pc := next
          totalStdout := reader.totalStdout ++ bytes
          outEof := eof } }, 0, none)
  | .sendStdout bytes =>
    ({ run with watcher := goto .drainStderr }, 0, some (.output .stdout bytes))
  | .drainStderr =>
    let ((bytes, eof), pipe) := run.stderr.waitAndDrain
    let next := if bytes = [] then ReaderPc.budget else .sendStderr bytes
    ({ run with
        stderr := pipe
        watcher := .reader { reader with
          pc := next
          totalStderr := reader.totalStderr ++ bytes
          errEof := eof } }, 0, none)
  | .sendStderr bytes =>
    ({ run with watcher := goto .budget }, 0, some (.output .stderr bytes))
  | .budget =>
    if !reader.budgetClosed &&
        decide (reader.totalStdout.length + reader.totalStderr.length > run.budget) then
      ({ run with watcher := goto .closeStdout }, 0, none)
    else ({ run with watcher := goto .cancelled }, 0, none)
  | .closeStdout => ({ run with stdout := run.stdout.close, watcher := goto .closeStderr }, 0, none)
  | .closeStderr =>
    ({ run with
        stderr := run.stderr.close
        watcher := .reader { reader with pc := .cancelled, budgetClosed := true } }, 0, none)
  | .cancelled =>
    if cancelled then ({ run with watcher := goto (.burst run.epochTicks) }, 0, none)
    else ({ run with watcher := goto .tick }, 0, none)
  | .burst 0 => ({ run with watcher := goto .eof }, 0, none)
  | .burst (left + 1) => ({ run with watcher := goto (.burst left) }, 1, none)
  | .tick => ({ run with watcher := goto .eof }, if elapsed then 1 else 0, none)
  | .eof =>
    if reader.outEof && reader.errEof then
      ({ run with watcher := .exited reader.totalStdout reader.totalStderr }, 0, none)
    else ({ run with watcher := goto .drainStdout }, 0, none)

def enterCall (run : WasiRun) : WasiRun :=
  { run with phase := if run.path = .events then .call else .spawn }

def buildStep (run : WasiRun) (epoch : ℕ) (host : HostView) : WasiRun :=
  match buildStore host run.request with
  | .error error => { run with phase := .returned (.error error) }
  | .ok store => { run with
      built := some ⟨host, store⟩
      deadline := epoch + store.epochTicks
      phase := if run.path = .events then .spawn else .instantiate }

/-- One atomic step of a run. `flag` is the cancel handle's current value. -/
def step (flag : Bool) (epoch : ℕ) (run : WasiRun) (act : RunAct) : Option Effect :=
  let cancelled := run.cancellable && flag
  match act with
  | .main => (run.mainStep cancelled).map (fun next => ⟨next, epoch, none⟩)
  | .build host =>
    match run.phase with
    | .build => some ⟨run.buildStep epoch host, epoch, none⟩
    | _ => none
  | .write stream bytes =>
    if run.guestExecuting then some ⟨run.guestWrite stream bytes, epoch, none⟩ else none
  | .compute => if run.guestExecuting then some ⟨run, epoch, none⟩ else none
  | .instantiated =>
    match run.phase with
    | .instantiate => some ⟨run.enterCall, epoch, none⟩
    | _ => none
  | .guestEnd guestEnd =>
    if run.canEnd epoch guestEnd then
      some ⟨run.stopGuest guestEnd, epoch, none⟩
    else none
  | .watch elapsed =>
    match run.watcher with
    | .watchdog pc ticks =>
      (run.watchdogStep cancelled elapsed pc ticks).map (fun next =>
        ⟨{ run with watcher := next.1 }, epoch + next.2, none⟩)
    | .reader reader =>
      let next := run.readerStep cancelled elapsed reader
      some ⟨next.1, epoch + next.2.1, next.2.2⟩
    | _ => none

/-- A panic unwinds the calling thread; its watcher is left behind. -/
def unwind (run : WasiRun) : WasiRun := { run with phase := .unwound }

theorem guestWrite_cases (run : WasiRun) (stream : Stream) (bytes : List UInt8) :
    run.guestWrite stream bytes = run ∨
    run.guestWrite stream bytes = run.stopGuest (trapEnd run.phase) ∨
    (∃ pipe, run.path = .events ∧ (run.pipe stream).write bytes = .ok pipe ∧
      run.guestWrite stream bytes = run.setPipe stream pipe) ∨
    (∃ pipe, run.path = .inner ∧ (run.captured stream).write bytes = .ok pipe ∧
      run.guestWrite stream bytes = run.setCaptured stream pipe) := by
  unfold guestWrite
  split
  · rename_i hp
    split
    · rename_i pipe hw
      exact Or.inr (Or.inr (Or.inl ⟨pipe, hp, hw, rfl⟩))
    · exact Or.inl rfl
    · exact Or.inr (Or.inl rfl)
  · rename_i hp
    split
    · rename_i pipe hw
      exact Or.inr (Or.inr (Or.inr ⟨pipe, hp, hw, rfl⟩))
    · exact Or.inl rfl
    · exact Or.inr (Or.inl rfl)

/-- What the watchdog can do: enter its burst on a cancelled handle, count down one
increment, tick once, or leave, which without the stop message or an unwound caller
it does only when it owes no tick. -/
theorem watchdogStep_cases {run : WasiRun} {cancelled elapsed : Bool} {pc : WatchdogPc} {ticks : ℕ}
    {next : Watcher × ℕ} (h : run.watchdogStep cancelled elapsed pc ticks = some next) :
    (cancelled = true ∧ pc = .check ∧ next = (.watchdog (.burst run.epochTicks) ticks, 0)) ∨
    (pc = .check ∧ ticks < run.epochTicks ∧ next = (.watchdog .wait ticks, 0)) ∨
    (∃ left, pc = .burst (left + 1) ∧ next = (.watchdog (.burst left) ticks, 1)) ∨
    (pc = .wait ∧ elapsed = true ∧ next = (.watchdog .check (ticks + 1), 1)) ∨
    (next = (.exited [] [], 0) ∧
      (pc = .check ∧ run.epochTicks ≤ ticks ∨ pc = .burst 0 ∨
        pc = .wait ∧ (run.stopSent = true ∨ run.phase = .unwound))) := by
  unfold watchdogStep at h
  cases pc with
  | check =>
    dsimp only at h
    split at h
    · rename_i hc
      cases h
      exact Or.inl ⟨hc, rfl, rfl⟩
    · split at h
      · rename_i ht
        cases h
        exact Or.inr (Or.inr (Or.inr (Or.inr ⟨rfl, Or.inl ⟨rfl, ht⟩⟩)))
      · rename_i ht
        cases h
        exact Or.inr (Or.inl ⟨rfl, by omega, rfl⟩)
  | burst left =>
    cases left with
    | zero =>
      cases h
      exact Or.inr (Or.inr (Or.inr (Or.inr ⟨rfl, Or.inr (Or.inl rfl)⟩)))
    | succ left =>
      cases h
      exact Or.inr (Or.inr (Or.inl ⟨left, rfl, rfl⟩))
  | wait =>
    dsimp only at h
    split at h
    · rename_i hp
      cases h
      exact Or.inr (Or.inr (Or.inr (Or.inr ⟨rfl, Or.inr (Or.inr ⟨rfl, Or.inr hp⟩)⟩)))
    · split at h
      · rename_i hs
        cases h
        exact Or.inr (Or.inr (Or.inr (Or.inr ⟨rfl, Or.inr (Or.inr ⟨rfl, Or.inl hs⟩)⟩)))
      · split at h
        · rename_i ht
          cases h
          exact Or.inr (Or.inr (Or.inr (Or.inl ⟨rfl, ht, rfl⟩)))
        · cases h

theorem watchdogStep_kind {run : WasiRun} {cancelled elapsed : Bool} {pc : WatchdogPc} {ticks : ℕ}
    {next : Watcher × ℕ} (h : run.watchdogStep cancelled elapsed pc ticks = some next) :
    (∃ pc ticks, next.1 = .watchdog pc ticks) ∨ next.1 = .exited [] [] := by
  rcases watchdogStep_cases h with ⟨-, -, rfl⟩ | ⟨-, -, rfl⟩ | ⟨_, -, rfl⟩ | ⟨-, -, rfl⟩ | ⟨rfl, -⟩
  · exact Or.inl ⟨_, _, rfl⟩
  · exact Or.inl ⟨_, _, rfl⟩
  · exact Or.inl ⟨_, _, rfl⟩
  · exact Or.inl ⟨_, _, rfl⟩
  · exact Or.inr rfl

inductive MainSteps (cancelled : Bool) (run : WasiRun) : WasiRun → Prop
  | locked : run.phase = .lock → MainSteps cancelled run { run with phase := .build }
  | spawned : run.phase = .spawn → MainSteps cancelled run { run with
      watcher := spawned run.path
      phase := if run.path = .events then .instantiate else .call }
  | endedStdout (guestEnd : GuestEnd) : run.phase = .eofStdout guestEnd →
    MainSteps cancelled run { run with stdout := run.stdout.setEof, phase := .eofStderr guestEnd }
  | endedStderr (guestEnd : GuestEnd) : run.phase = .eofStderr guestEnd →
    MainSteps cancelled run { run with stderr := run.stderr.setEof, phase := .join guestEnd }
  | stopped (guestEnd : GuestEnd) : run.phase = .stop guestEnd →
    MainSteps cancelled run { run with stopSent := true, phase := .join guestEnd }
  | joined (guestEnd : GuestEnd) (stdout stderr : List UInt8) : run.phase = .join guestEnd →
    run.watcher = .exited stdout stderr → MainSteps cancelled run { run with phase := .classify guestEnd }
  | classified (guestEnd : GuestEnd) : run.phase = .classify guestEnd →
    MainSteps cancelled run { run with phase := .returned (run.result cancelled guestEnd) }

theorem mainStep_cases {run next : WasiRun} {cancelled : Bool} (he : run.mainStep cancelled = some next) :
    MainSteps cancelled run next := by
  unfold mainStep at he
  split at he <;> rename_i hp
  · cases he
    exact .locked hp
  · cases he
    exact .spawned hp
  · cases he
    exact .endedStdout _ hp
  · cases he
    exact .endedStderr _ hp
  · cases he
    exact .stopped _ hp
  · split at he <;> rename_i hw <;> cases he
    exact .joined _ _ _ hp hw
  · cases he
    exact .classified _ hp
  · cases he

/-- The turns of the reader's loop: the run after the step, the epoch bump and the event. -/
inductive ReaderSteps (cancelled elapsed : Bool) (run : WasiRun) (reader : Reader) :
    WasiRun × ℕ × Option SessionEvent → Prop
  | drainedStdout : reader.pc = .drainStdout → ReaderSteps cancelled elapsed run reader ({ run with
      stdout := run.stdout.waitAndDrain.2
      watcher := .reader { reader with
        pc := if run.stdout.waitAndDrain.1.1 = [] then .drainStderr else .sendStdout run.stdout.waitAndDrain.1.1
        totalStdout := reader.totalStdout ++ run.stdout.waitAndDrain.1.1
        outEof := run.stdout.waitAndDrain.1.2 } }, 0, none)
  | sentStdout (bytes : List UInt8) : reader.pc = .sendStdout bytes →
    ReaderSteps cancelled elapsed run reader
      ({ run with watcher := .reader { reader with pc := .drainStderr } }, 0, some (.output .stdout bytes))
  | drainedStderr : reader.pc = .drainStderr → ReaderSteps cancelled elapsed run reader ({ run with
      stderr := run.stderr.waitAndDrain.2
      watcher := .reader { reader with
        pc := if run.stderr.waitAndDrain.1.1 = [] then .budget else .sendStderr run.stderr.waitAndDrain.1.1
        totalStderr := reader.totalStderr ++ run.stderr.waitAndDrain.1.1
        errEof := run.stderr.waitAndDrain.1.2 } }, 0, none)
  | sentStderr (bytes : List UInt8) : reader.pc = .sendStderr bytes →
    ReaderSteps cancelled elapsed run reader
      ({ run with watcher := .reader { reader with pc := .budget } }, 0, some (.output .stderr bytes))
  | overBudget : reader.pc = .budget → reader.budgetClosed = false →
    run.budget < reader.totalStdout.length + reader.totalStderr.length →
    ReaderSteps cancelled elapsed run reader
      ({ run with watcher := .reader { reader with pc := .closeStdout } }, 0, none)
  | withinBudget : reader.pc = .budget → (reader.budgetClosed = false →
      reader.totalStdout.length + reader.totalStderr.length ≤ run.budget) →
    ReaderSteps cancelled elapsed run reader
      ({ run with watcher := .reader { reader with pc := .cancelled } }, 0, none)
  | closedStdout : reader.pc = .closeStdout → ReaderSteps cancelled elapsed run reader
      ({ run with stdout := run.stdout.close, watcher := .reader { reader with pc := .closeStderr } }, 0, none)
  | closedStderr : reader.pc = .closeStderr → ReaderSteps cancelled elapsed run reader ({ run with
      stderr := run.stderr.close
      watcher := .reader { reader with pc := .cancelled, budgetClosed := true } }, 0, none)
  | sawCancelled : reader.pc = .cancelled → cancelled = true → ReaderSteps cancelled elapsed run reader
      ({ run with watcher := .reader { reader with pc := .burst run.epochTicks } }, 0, none)
  | sawUncancelled : reader.pc = .cancelled → ReaderSteps cancelled elapsed run reader
      ({ run with watcher := .reader { reader with pc := .tick } }, 0, none)
  | spent : reader.pc = .burst 0 → ReaderSteps cancelled elapsed run reader
      ({ run with watcher := .reader { reader with pc := .eof } }, 0, none)
  | bumped (left : ℕ) : reader.pc = .burst (left + 1) → ReaderSteps cancelled elapsed run reader
      ({ run with watcher := .reader { reader with pc := .burst left } }, 1, none)
  | ticked : reader.pc = .tick → ReaderSteps cancelled elapsed run reader
      ({ run with watcher := .reader { reader with pc := .eof } }, if elapsed then 1 else 0, none)
  | left : reader.pc = .eof → reader.outEof = true → reader.errEof = true →
    ReaderSteps cancelled elapsed run reader
      ({ run with watcher := .exited reader.totalStdout reader.totalStderr }, 0, none)
  | looped : reader.pc = .eof → ReaderSteps cancelled elapsed run reader
      ({ run with watcher := .reader { reader with pc := .drainStdout } }, 0, none)

theorem readerStep_cases (run : WasiRun) (cancelled elapsed : Bool) (reader : Reader) :
    ReaderSteps cancelled elapsed run reader (run.readerStep cancelled elapsed reader) := by
  unfold readerStep
  cases hpc : reader.pc with
  | drainStdout => exact .drainedStdout hpc
  | sendStdout bytes => exact .sentStdout bytes hpc
  | drainStderr => exact .drainedStderr hpc
  | sendStderr bytes => exact .sentStderr bytes hpc
  | budget =>
    dsimp only
    split
    · rename_i hover
      obtain ⟨hclosed, hover⟩ := (Bool.and_eq_true _ _).mp hover
      exact .overBudget hpc (Bool.not_eq_true' _ ▸ hclosed) (of_decide_eq_true hover)
    · rename_i hwithin
      refine .withinBudget hpc (fun hopen => ?_)
      simpa [hopen] using hwithin
  | closeStdout => exact .closedStdout hpc
  | closeStderr => exact .closedStderr hpc
  | cancelled =>
    dsimp only
    split
    · rename_i hc
      exact .sawCancelled hpc hc
    · exact .sawUncancelled hpc
  | burst left =>
    cases left with
    | zero => exact .spent hpc
    | succ left => exact .bumped left hpc
  | tick => exact .ticked hpc
  | eof =>
    dsimp only
    split
    · rename_i hboth
      obtain ⟨hout, herr⟩ := (Bool.and_eq_true _ _).mp hboth
      exact .left hpc hout herr
    · exact .looped hpc

theorem watch_elim {run : WasiRun} {flag elapsed : Bool} {epoch : ℕ} {effect : Effect}
    {P : WasiRun → ℕ → Option SessionEvent → Prop}
    (he : run.step flag epoch (.watch elapsed) = some effect)
    (watchdog : ∀ pc ticks next, run.watcher = .watchdog pc ticks →
      run.watchdogStep (run.cancellable && flag) elapsed pc ticks = some next →
      P { run with watcher := next.1 } (epoch + next.2) none)
    (reader : ∀ reader next, run.watcher = .reader reader →
      ReaderSteps (run.cancellable && flag) elapsed run reader next →
      P next.1 (epoch + next.2.1) next.2.2) :
    P effect.run effect.epoch effect.event := by
  cases hw : run.watcher with
  | unspawned => simp [step, hw] at he
  | exited => simp [step, hw] at he
  | watchdog pc ticks =>
    simp only [step, hw] at he
    obtain ⟨next, hn, rfl⟩ := Option.map_eq_some_iff.mp he
    exact watchdog pc ticks next hw hn
  | reader r =>
    simp only [step, hw, Option.some.injEq] at he
    subst he
    exact reader r _ hw (run.readerStep_cases _ elapsed r)

/-- Case analysis of a step by the thread that takes it. -/
theorem step_elim {run : WasiRun} {flag : Bool} {epoch : ℕ} {act : RunAct} {effect : Effect}
    {P : WasiRun → ℕ → Option SessionEvent → Prop} (he : run.step flag epoch act = some effect)
    (main : ∀ next, MainSteps (run.cancellable && flag) run next → P next epoch none)
    (build : ∀ host, run.phase = .build → P (run.buildStep epoch host) epoch none)
    (write : ∀ stream bytes, act = .write stream bytes → run.guestExecuting →
      P (run.guestWrite stream bytes) epoch none)
    (compute : run.guestExecuting → P run epoch none)
    (instantiated : run.phase = .instantiate → P run.enterCall epoch none)
    (guestEnd : ∀ guestEnd, run.canEnd epoch guestEnd = true → P (run.stopGuest guestEnd) epoch none)
    (watchdog : ∀ elapsed pc ticks next, run.watcher = .watchdog pc ticks →
      run.watchdogStep (run.cancellable && flag) elapsed pc ticks = some next →
      P { run with watcher := next.1 } (epoch + next.2) none)
    (reader : ∀ elapsed reader next, run.watcher = .reader reader →
      ReaderSteps (run.cancellable && flag) elapsed run reader next →
      P next.1 (epoch + next.2.1) next.2.2) :
    P effect.run effect.epoch effect.event := by
  cases act with
  | main =>
    obtain ⟨next, hn, rfl⟩ := Option.map_eq_some_iff.mp he
    exact main next (mainStep_cases hn)
  | build host =>
    cases hp : run.phase <;> simp only [step, hp, reduceCtorEq, Option.some.injEq] at he
    subst he
    exact build host hp
  | write stream bytes =>
    simp only [step, Option.ite_none_right_eq_some, Option.some.injEq] at he
    obtain ⟨hg, rfl⟩ := he
    exact write stream bytes rfl hg
  | compute =>
    simp only [step, Option.ite_none_right_eq_some, Option.some.injEq] at he
    obtain ⟨hg, rfl⟩ := he
    exact compute hg
  | instantiated =>
    cases hp : run.phase <;> simp only [step, hp, reduceCtorEq, Option.some.injEq] at he
    subst he
    exact instantiated hp
  | guestEnd g =>
    simp only [step, Option.ite_none_right_eq_some, Option.some.injEq] at he
    obtain ⟨hc, rfl⟩ := he
    exact guestEnd g hc
  | watch elapsed => exact watch_elim he (watchdog elapsed) (reader elapsed)

theorem step_event {run : WasiRun} {flag : Bool} {epoch : ℕ} {act : RunAct} {effect : Effect}
    (he : run.step flag epoch act = some effect) :
    ∀ event, effect.event = some event → ∃ stream bytes, event = .output stream bytes := by
  apply step_elim (P := fun _ _ event => ∀ e, event = some e → ∃ stream bytes, e = .output stream bytes) he
  case reader =>
    intro elapsed reader next _ hn event hevent
    cases hn with
    | sentStdout bytes => exact ⟨_, _, (Option.some.inj hevent).symm⟩
    | sentStderr bytes => exact ⟨_, _, (Option.some.inj hevent).symm⟩
    | _ => cases hevent
  all_goals
    intros
    simp_all only [reduceCtorEq]

end WasiRun

end FerrousRuntime.Runtime
