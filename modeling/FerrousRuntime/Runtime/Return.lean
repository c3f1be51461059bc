import FerrousRuntime.Runtime.PathOutcome
import FerrousRuntime.Runtime.Engine

/-! # Every run comes back

A guest need not end by itself. Its watcher takes the epoch to the deadline, the engine
interrupts the guest there, and the calling thread joins the watcher. A run comes back in
this way from wherever it stands, unless its guest code was started before its watcher and
has unlimited fuel. Nothing else here rests on the fuel.
-/
namespace FerrousRuntime.Runtime
open Capability Command Pipe Transition

/-- A step that needs neither help from the guest nor an end of its fuel: one of the host's
own, or the interrupt of a guest at its deadline. Instantiation is the host's own work where
it executes no guest code. -/
def RunAct.unaided (host : HostView) (hasStart : Bool) : RunAct → Prop
  | .main | .watch _ => True
  | .build view => view = host
  | .instantiated => hasStart = false
  | .guestEnd ended => ended = .trap .interrupt ∨ ended = .notInstantiated .interrupt
  | .write _ _ | .compute => False

/-- The turns the reader takes before it bumps the epoch again, while its guest executes. -/
def ReaderPc.toTick : ReaderPc → ℕ
  | .burst 0 => 11
  | .eof => 10
  | .drainStdout => 9
  | .sendStdout _ => 8
  | .drainStderr => 7
  | .sendStderr _ => 6
  | .budget => 5
  | .closeStdout => 4
  | .closeStderr => 3
  | .cancelled => 2
  | .tick | .burst (_ + 1) => 1

def ReaderPc.left (burst : ℕ) : ReaderPc → ℕ
  | .drainStdout => burst + 10
  | .sendStdout _ => burst + 9
  | .drainStderr => burst + 8
  | .sendStderr _ => burst + 7
  | .budget => burst + 6
  | .closeStdout => burst + 5
  | .closeStderr => burst + 4
  | .cancelled => burst + 3
  | .burst left => left + 2
  | .tick => 2
  | .eof => 1

namespace Watcher

def toTick : Watcher → ℕ
  | .unspawned | .exited _ _ => 0
  | .watchdog .check _ => 2
  | .watchdog _ _ => 1
  | .reader r => r.pc.toTick

theorem toTick_le (watcher : Watcher) : watcher.toTick ≤ 11 := by
  unfold toTick
  split
  · exact Nat.zero_le _
  · exact Nat.zero_le _
  · omega
  · omega
  · unfold ReaderPc.toTick
    split <;> omega

def left (burst : ℕ) : Watcher → ℕ
  | .unspawned | .exited _ _ => 0
  | .watchdog .wait _ => 1
  | .watchdog .check _ => burst + 2
  | .watchdog (.burst left) _ => left + 1
  | .reader r => r.pc.left burst + if r.missesEof then burst + 10 else 0

end Watcher

namespace WasiRun
variable {run : WasiRun} {flag : Bool} {epoch : ℕ} {act : RunAct} {effect : Effect}

/-- What every run keeps until a panic unwinds it. -/
structure RunInv (run : WasiRun) (epoch : ℕ) : Prop where
  streaming : run.path = .events → run.StreamingInv
  capturing : run.path = .inner → run.CapturingInv epoch
  reading : run.path = .events → ∀ pc ticks, run.watcher ≠ .watchdog pc ticks
  closing : run.Closing
  calling : run.phase ≠ .unwound

theorem runInv_start (path : RunPath) (component : Component) (request : CommandRequest)
    (cancellable : Bool) (epoch : ℕ) : (start path component request cancellable).RunInv epoch := by
  refine ⟨?_, ?_, fun _ _ _ => by simp [start], trivial, by simp [start]⟩
  · rintro ⟨⟩
    exact streamingInv_start component request cancellable
  · rintro ⟨⟩
    exact capturingInv_start component request cancellable epoch

theorem RunInv.mono {epoch' : ℕ} (h : run.RunInv epoch) (hle : epoch ≤ epoch') : run.RunInv epoch' :=
  ⟨h.streaming, fun hpath => (h.capturing hpath).mono hle, h.reading, h.closing, h.calling⟩

theorem step_reading (h : run.path = .events → ∀ pc ticks, run.watcher ≠ .watchdog pc ticks)
    (he : run.step flag epoch act = some effect) :
    effect.run.path = .events → ∀ pc ticks, effect.run.watcher ≠ .watchdog pc ticks := by
  apply step_elim (P := fun run _ _ => run.path = .events → ∀ pc ticks, run.watcher ≠ .watchdog pc ticks) he
  case main =>
    intro next hn
    cases hn with
    | spawned => exact fun hpath => by simp [spawned, show run.path = .events from hpath]
    | _ => exact h
  case build =>
    intro host _
    unfold buildStep
    split <;> exact h
  case write =>
    intro stream bytes _ _
    rcases guestWrite_cases run stream bytes with he | he | ⟨pipe, -, -, he⟩ | ⟨pipe, -, -, he⟩ <;>
      rw [he]
    · exact h
    · exact h
    · cases stream <;> exact h
    · cases stream <;> exact h
  case compute => exact fun _ => h
  case instantiated => exact fun _ => h
  case guestEnd => exact fun _ _ => h
  case watchdog => exact fun elapsed pc ticks next hw _ hpath => absurd hw (h hpath pc ticks)
  case reader =>
    intro elapsed reader next _ hn _
    cases hn <;> simp

theorem step_calling (h : run.phase ≠ .unwound) (he : run.step flag epoch act = some effect) :
    effect.run.phase ≠ .unwound := by
  apply step_elim (P := fun run _ _ => run.phase ≠ .unwound) he
  case main =>
    intro next hn
    cases hn with
    | spawned =>
      dsimp only
      split <;> simp
    | _ => simp
  case build =>
    intro host _
    unfold buildStep
    split
    · simp
    · dsimp only
      split <;> simp
  case write =>
    intro stream bytes _ _
    rcases guestWrite_cases run stream bytes with he | he | ⟨pipe, -, -, he⟩ | ⟨pipe, -, -, he⟩ <;>
      rw [he]
    · exact h
    · simp only [stopGuest, afterGuest]
      split <;> simp
    · cases stream <;> exact h
    · cases stream <;> exact h
  case compute => exact fun _ => h
  case instantiated =>
    intro _
    simp only [enterCall]
    split <;> simp
  case guestEnd =>
    intro guestEnd _
    simp only [stopGuest, afterGuest]
    split <;> simp
  case watchdog => exact fun _ _ _ _ _ _ => h
  case reader =>
    intro elapsed reader next _ hn
    rw [(readerStep_caller hn).1]
    exact h

theorem step_runInv (h : run.RunInv epoch) (he : run.step flag epoch act = some effect) :
    effect.run.RunInv effect.epoch := by
  have hpath := (step_params he).1
  refine ⟨?_, ?_, step_reading h.reading he, step_closing h.closing he, step_calling h.calling he⟩
  · exact fun hevents => step_streamingInv (h.streaming (hpath.symm.trans hevents)) he
  · exact fun hinner => step_capturingInv (h.capturing (hpath.symm.trans hinner)) he

/-- The guest's code needs a watcher, which the capturing path has not spawned when a start
function runs. -/
def Timed (run : WasiRun) : Prop := run.path = .events ∨ run.component.hasStart = false

theorem step_timed (h : run.Timed) (he : run.step flag epoch act = some effect) : effect.run.Timed := by
  obtain ⟨hpath, hcomponent, -, -⟩ := step_params he
  unfold Timed
  rw [hpath, hcomponent]
  exact h

structure Approaches (run : WasiRun) (epoch : ℕ) (effect : Effect) : Prop where
  phase : effect.run.phase = run.phase
  deadline : effect.run.deadline = run.deadline
  turn : effect.epoch = epoch ∧ effect.run.watcher.toTick < run.watcher.toTick ∨ effect.epoch = epoch + 1

theorem reader_approaches (h : run.StreamingInv) (hg : run.guestExecuting) (flag : Bool) :
    ∃ effect, run.step flag epoch (.watch true) = some effect ∧ run.Approaches epoch effect := by
  have hphase := guestExecuting_phase hg
  have hticks := run.request.grant.limits.epochTicks_pos
  obtain ⟨reader, hr⟩ := h.spawned hphase
  have hopen := h.open_ (by rcases hphase with hp | hp <;> simp [hp, BeforeEof])
  have hmarks := h.marks reader hr
  have hn := run.readerStep_cases (run.cancellable && flag) true reader
  refine ⟨⟨_, _, _⟩, by simp only [step, hr]; rfl, ?_⟩
  generalize run.readerStep (run.cancellable && flag) true reader = next at hn ⊢
  cases hn with
  | drainedStdout hpc | drainedStderr hpc =>
    refine ⟨rfl, rfl, Or.inl ⟨rfl, ?_⟩⟩
    simp only [Watcher.toTick, hr, hpc]
    split <;> simp [ReaderPc.toTick]
  | sawCancelled hpc =>
    refine ⟨rfl, rfl, Or.inl ⟨rfl, ?_⟩⟩
    obtain ⟨left, hleft⟩ := Nat.exists_eq_succ_of_ne_zero hticks.ne'
    simp [Watcher.toTick, hr, hpc, epochTicks, hleft, ReaderPc.toTick]
  | left hpc hout => exact absurd (hopen.1.symm.trans (hmarks.1 hout)) (by simp)
  | bumped left hpc => exact ⟨rfl, rfl, Or.inr rfl⟩
  | ticked hpc => exact ⟨rfl, rfl, Or.inr rfl⟩
  | sentStdout bytes hpc | sentStderr bytes hpc | overBudget hpc | withinBudget hpc | closedStdout hpc
  | closedStderr hpc | sawUncancelled hpc | spent hpc | looped hpc =>
    refine ⟨rfl, rfl, Or.inl ⟨rfl, ?_⟩⟩
    simp [Watcher.toTick, hr, hpc, ReaderPc.toTick]

theorem watchdog_approaches (h : run.CapturingInv epoch) (hcall : run.phase = .call)
    (hlt : epoch < run.deadline) (flag : Bool) :
    ∃ effect, run.step flag epoch (.watch true) = some effect ∧ run.Approaches epoch effect := by
  obtain ⟨hspawned, howed⟩ := h.owing hcall
  have hstop := h.unsent (Or.inl (by simp [guestExecuting, hcall]))
  have hticks := run.request.grant.limits.epochTicks_pos
  cases hw : run.watcher with
  | unspawned => exact absurd hw hspawned
  | reader reader => exact absurd hw (h.watcher reader)
  | exited stdout stderr =>
    simp only [hw, owed] at howed
    omega
  | watchdog pc ticks =>
    rw [hw] at howed
    cases pc with
    | check =>
      have hleft : ticks < run.epochTicks := by
        by_contra hspent
        simp only [owed] at howed
        omega
      cases hc : run.cancellable && flag with
      | true =>
        refine ⟨⟨{ run with watcher := .watchdog (.burst run.epochTicks) ticks }, epoch, none⟩, ?_, rfl, rfl,
          Or.inl ⟨rfl, ?_⟩⟩
        · simp [step, hw, watchdogStep, hc]
        · simp [Watcher.toTick, hw]
      | false =>
        refine ⟨⟨{ run with watcher := .watchdog .wait ticks }, epoch, none⟩, ?_, rfl, rfl, Or.inl ⟨rfl, ?_⟩⟩
        · simp [step, hw, watchdogStep, hc, hleft.not_ge]
        · simp [Watcher.toTick, hw]
    | burst left =>
      cases left with
      | zero =>
        simp only [owed] at howed
        omega
      | succ left =>
        refine ⟨⟨{ run with watcher := .watchdog (.burst left) ticks }, epoch + 1, none⟩, ?_, rfl, rfl,
          Or.inr rfl⟩
        simp [step, hw, watchdogStep]
    | wait =>
      refine ⟨⟨{ run with watcher := .watchdog .check (ticks + 1) }, epoch + 1, none⟩, ?_, rfl, rfl, Or.inr rfl⟩
      simp [step, hw, watchdogStep, hcall, hstop]

/-- Short of the deadline the watcher of executing guest code approaches it. -/
theorem watch_approaches (h : run.RunInv epoch) (htimed : run.Timed) (hg : run.guestExecuting)
    (hlt : epoch < run.deadline) (flag : Bool) :
    ∃ effect, run.step flag epoch (.watch true) = some effect ∧ run.Approaches epoch effect := by
  cases hpath : run.path with
  | events => exact reader_approaches (h.streaming hpath) hg flag
  | inner =>
    refine watchdog_approaches (h.capturing hpath) ?_ hlt flag
    rcases htimed with hevents | hstart
    · exact absurd (hpath.symm.trans hevents) (by simp)
    · rcases guestExecuting_phase hg with hp | hp
      · simp [guestExecuting, hp, hstart] at hg
      · exact hp

theorem readerStep_left (reader : Reader) (cancelled elapsed : Bool) (hout : run.stdout.state.eof = true)
    (herr : run.stderr.state.eof = true) :
    (run.readerStep cancelled elapsed reader).1.watcher.left run.epochTicks <
      (Watcher.reader reader).left run.epochTicks := by
  obtain ⟨pc, totalStdout, totalStderr, outEof, errEof, budgetClosed⟩ := reader
  cases pc with
  | drainStdout =>
    simp only [readerStep, StreamOutputPipe.waitAndDrain, hout]
    split <;> simp [Watcher.left, Reader.missesEof, ReaderPc.left]
  | drainStderr =>
    simp only [readerStep, StreamOutputPipe.waitAndDrain, herr]
    split <;> simp [Watcher.left, Reader.missesEof, ReaderPc.left]
  | budget =>
    simp only [readerStep]
    split <;> simp [Watcher.left, Reader.missesEof, ReaderPc.left]
  | cancelled =>
    simp only [readerStep]
    split <;> simp [Watcher.left, Reader.missesEof, ReaderPc.left]
  | burst left => cases left <;> simp [readerStep, Watcher.left, Reader.missesEof, ReaderPc.left]
  | eof =>
    cases hboth : outEof && errEof <;>
      simp [readerStep, hboth, Watcher.left, Reader.missesEof, ReaderPc.left]
  | _ => simp [readerStep, Watcher.left, Reader.missesEof, ReaderPc.left]

theorem watchdogStep_left (pc : WatchdogPc) (ticks : ℕ) (cancelled elapsed : Bool)
    (hstop : run.stopSent = true) : ∃ next, run.watchdogStep cancelled elapsed pc ticks = some next ∧
      next.1.left run.epochTicks < (Watcher.watchdog pc ticks).left run.epochTicks := by
  cases pc with
  | check =>
    simp only [watchdogStep]
    split
    · exact ⟨_, rfl, by simp [Watcher.left]⟩
    · split <;> exact ⟨_, rfl, by simp [Watcher.left]⟩
  | burst left => cases left <;> exact ⟨_, rfl, by simp [Watcher.left]⟩
  | wait =>
    refine ⟨(.exited [] [], 0), ?_, by simp [Watcher.left]⟩
    simp only [watchdogStep, hstop, if_true]
    split <;> rfl

end WasiRun

def Phase.ended : Phase → Bool
  | .eofStdout _ | .eofStderr _ | .stop _ | .join _ | .classify _ => true
  | _ => false

namespace WasiRun
variable {run : WasiRun} {flag : Bool} {epoch : ℕ} {act : RunAct} {effect : Effect}

def toReturn (run : WasiRun) : ℕ := run.phase.toResult + run.watcher.left run.epochTicks

/-- Once the guest has stopped, its calling thread or its watcher has a next step toward the
result. -/
theorem ended_advances (h : run.RunInv epoch) (hended : run.phase.ended = true) (flag : Bool) :
    ∃ act effect, (act = .main ∨ act = .watch true) ∧ run.step flag epoch act = some effect ∧
      (effect.run.phase.ended = true ∨ ∃ result, effect.run.phase = .returned result) ∧
        effect.run.toReturn < run.toReturn := by
  have hclosing := h.closing
  unfold Closing at hclosing
  cases hphase : run.phase with
  | eofStdout guestEnd =>
    refine ⟨.main, ⟨{ run with stdout := run.stdout.setEof, phase := .eofStderr guestEnd }, epoch, none⟩,
      Or.inl rfl, by simp [step, mainStep, hphase], Or.inl rfl, ?_⟩
    simp [toReturn, hphase, Phase.toResult, epochTicks]
  | eofStderr guestEnd =>
    refine ⟨.main, ⟨{ run with stderr := run.stderr.setEof, phase := .join guestEnd }, epoch, none⟩,
      Or.inl rfl, by simp [step, mainStep, hphase], Or.inl rfl, ?_⟩
    simp [toReturn, hphase, Phase.toResult, epochTicks]
  | stop guestEnd =>
    refine ⟨.main, ⟨{ run with stopSent := true, phase := .join guestEnd }, epoch, none⟩,
      Or.inl rfl, by simp [step, mainStep, hphase], Or.inl rfl, ?_⟩
    simp [toReturn, hphase, Phase.toResult, epochTicks]
  | classify guestEnd =>
    refine ⟨.main, ⟨{ run with phase := .returned (run.result (run.cancellable && flag) guestEnd) }, epoch,
      none⟩, Or.inl rfl, by simp [step, mainStep, hphase], Or.inr ⟨_, rfl⟩, ?_⟩
    simp [toReturn, hphase, Phase.toResult, epochTicks]
  | join guestEnd =>
    simp only [hphase] at hclosing
    obtain ⟨hspawned, hevents, hinner⟩ := hclosing
    cases hw : run.watcher with
    | unspawned => exact absurd hw hspawned
    | exited stdout stderr =>
      refine ⟨.main, ⟨{ run with phase := .classify guestEnd }, epoch, none⟩, Or.inl rfl,
        by simp [step, mainStep, hphase, hw], Or.inl rfl, ?_⟩
      simp [toReturn, hphase, Phase.toResult, epochTicks]
    | watchdog pc ticks =>
      have hpath : run.path = .inner := by
        cases hpath : run.path with
        | events => exact absurd hw (h.reading hpath pc ticks)
        | inner => rfl
      obtain ⟨next, hn, hleft⟩ := watchdogStep_left pc ticks (run.cancellable && flag) true (hinner hpath)
      refine ⟨.watch true, ⟨{ run with watcher := next.1 }, epoch + next.2, none⟩, Or.inr rfl,
        by simp [step, hw, hn], Or.inl (by rw [hphase]; rfl), ?_⟩
      simpa [toReturn, hw, epochTicks] using hleft
    | reader reader =>
      have hpath : run.path = .events := by
        cases hpath : run.path with
        | events => rfl
        | inner => exact absurd hw ((h.capturing hpath).watcher reader)
      obtain ⟨hout, herr⟩ := hevents hpath
      have hleft := readerStep_left reader (run.cancellable && flag) true hout herr
      have hn := run.readerStep_cases (run.cancellable && flag) true reader
      refine ⟨.watch true, ⟨_, _, _⟩, Or.inr rfl, by simp only [step, hw]; rfl, ?_⟩
      generalize run.readerStep (run.cancellable && flag) true reader = next at hn hleft ⊢
      have hparams : next.1.phase = run.phase ∧ next.1.epochTicks = run.epochTicks := by
        cases hn <;> exact ⟨rfl, rfl⟩
      dsimp only
      rw [hparams.1, hphase]
      refine ⟨Or.inl rfl, ?_⟩
      simpa [toReturn, hw, hparams, hphase] using hleft
  | _ => simp [hphase, Phase.ended] at hended

end WasiRun

/-- The steps to the guest's code: the streaming path spawns its watcher before it
instantiates the component, the capturing path after. -/
def Phase.toCall (path : RunPath) : Phase → ℕ
  | .lock => 5
  | .build => 4
  | .spawn => if path = .events then 3 else 2
  | .instantiate => if path = .events then 2 else 3
  | _ => 0

def WasiRun.AtGuestOrPast (run : WasiRun) : Prop := run.guestExecuting ∨ run.phase.ended = true ∨
  (∃ result, run.phase = .returned result) ∨ run.phase = .unwound

/-- A run that needs no more than its own two threads to come back. -/
structure Solo.Returnable (s : Solo) : Prop where
  inv : s.run.RunInv s.epoch
  timed : s.run.Timed

/-- Nobody helps the run: its guest makes no step of its own, and neither the handle nor the
epoch is touched from outside. -/
def Unaided (host : HostView) (s : Solo) : SoloAct → Prop
  | .run act => act.unaided host s.run.component.hasStart
  | .cancel | .foreignTick => False

/-- The engine traps guest code that has spent its fuel. `with_unlimited_fuel` grants more
than any guest can spend. -/
def FuelTrap (s : Solo) (act : SoloAct) : Prop :=
  s.run.request.grant.limits.maxFuel < u64Max ∧ s.run.guestExecuting ∧
    (act = .run (.guestEnd (.trap .outOfFuel)) ∨ act = .run (.guestEnd (.notInstantiated .outOfFuel)))

def Enforced (host : HostView) (s : Solo) (act : SoloAct) : Prop := Unaided host s act ∨ FuelTrap s act

section Solo
variable {path : RunPath} {component : Component} {request : CommandRequest} {cancellable : Bool}
  {epoch : ℕ} {flag : Bool} {s t : Solo} {host : HostView} {act : RunAct} {effect : Effect}

theorem Solo.step_run (s : Solo) (he : s.run.step s.flag s.epoch act = some effect) :
    s.step (.run act) = some { s with
      run := effect.run, epoch := effect.epoch, events := effect.event.toList ++ s.events } :=
  Option.map_eq_some_iff.mpr ⟨effect, he, rfl⟩

theorem Solo.Returnable.next (h : s.Returnable) (he : s.run.step s.flag s.epoch act = some effect) :
    Solo.Returnable { s with
      run := effect.run, epoch := effect.epoch, events := effect.event.toList ++ s.events } :=
  ⟨WasiRun.step_runInv h.inv he, WasiRun.step_timed h.timed he⟩

theorem starts_advances (host : HostView) (flag : Bool) (epoch : ℕ) {run : WasiRun}
    (hbefore : 0 < run.phase.toCall run.path) (hidle : ¬ run.guestExecuting) :
    ∃ act effect, act.unaided host run.component.hasStart ∧ run.step flag epoch act = some effect ∧
      effect.run.phase.toCall effect.run.path < run.phase.toCall run.path := by
  cases hphase : run.phase with
  | lock =>
    refine ⟨.main, ⟨{ run with phase := .build }, epoch, none⟩, trivial, ?_, by simp [Phase.toCall]⟩
    simp [WasiRun.step, WasiRun.mainStep, hphase]
  | build =>
    refine ⟨.build host, ⟨run.buildStep epoch host, epoch, none⟩, rfl, by simp [WasiRun.step, hphase], ?_⟩
    unfold WasiRun.buildStep
    split
    · simp [Phase.toCall]
    · cases run.path <;> simp [Phase.toCall]
  | spawn =>
    refine ⟨.main, ⟨{ run with
      watcher := WasiRun.spawned run.path
      phase := if run.path = .events then .instantiate else .call }, epoch, none⟩, trivial, ?_, ?_⟩
    · simp [WasiRun.step, WasiRun.mainStep, hphase]
    · cases run.path <;> simp [Phase.toCall]
  | instantiate =>
    have hstart : run.component.hasStart = false := by
      simpa [WasiRun.guestExecuting, hphase] using hidle
    refine ⟨.instantiated, ⟨run.enterCall, epoch, none⟩, hstart, by simp [WasiRun.step, hphase], ?_⟩
    unfold WasiRun.enterCall
    cases hpath : run.path <;> simp [Phase.toCall]
  | _ => simp [hphase, Phase.toCall] at hbefore

theorem Phase.toCall_or (phase : Phase) (path : RunPath) : 0 < phase.toCall path ∨ phase = .call ∨
    phase.ended = true ∨ (∃ result, phase = .returned result) ∨ phase = .unwound := by
  cases phase <;> cases path <;> simp [Phase.toCall, Phase.ended]

theorem interrupts (hg : s.run.guestExecuting) (hdeadline : s.run.deadline ≤ s.epoch) :
    ∃ guestEnd, (guestEnd = .trap .interrupt ∨ guestEnd = .notInstantiated .interrupt) ∧
      s.run.step s.flag s.epoch (.guestEnd guestEnd) =
        some ⟨s.run.stopGuest guestEnd, s.epoch, none⟩ := by
  rcases WasiRun.guestExecuting_phase hg with hp | hp
  · have hstart : s.run.component.hasStart = true := by
      simpa [WasiRun.guestExecuting, hp] using hg
    exact ⟨.notInstantiated .interrupt, Or.inr rfl,
      by simp [WasiRun.step, WasiRun.canEnd, hp, hstart, hdeadline]⟩
  · exact ⟨.trap .interrupt, Or.inl rfl, by simp [WasiRun.step, WasiRun.canEnd, hp, hdeadline]⟩

theorem stopGuest_ended (run : WasiRun) (guestEnd : GuestEnd) :
    (run.stopGuest guestEnd).phase.ended = true ∨ ∃ result, (run.stopGuest guestEnd).phase = .returned result := by
  cases hpath : run.path <;> cases guestEnd <;>
    simp [WasiRun.stopGuest, WasiRun.afterGuest, hpath, Phase.ended]

theorem returns_ended (host : HostView) (h : s.run.RunInv s.epoch) (hended : s.run.phase.ended = true) :
    ∃ t, Runs (soloSystem path component request cancellable epoch flag) (Unaided host) s t ∧
      ∃ result, t.run.phase = .returned result := by
  refine Runs.progress (P := fun rank (s : Solo) => rank = s.run.toReturn ∧ s.run.RunInv s.epoch ∧
    (s.run.phase.ended = true ∨ ∃ result, s.run.phase = .returned result)) ?_ ⟨rfl, h, Or.inl hended⟩
  rintro rank s ⟨rfl, h, hended | hreturned⟩
  · obtain ⟨act, effect, hact, he, hnext, hlt⟩ := WasiRun.ended_advances h hended s.flag
    refine Or.inr ⟨_, hlt, .run act, _, ?_, s.step_run he, rfl, WasiRun.step_runInv h he, hnext⟩
    rcases hact with rfl | rfl <;> trivial
  · exact Or.inl hreturned

theorem returns_past (host : HostView) (h : s.run.RunInv s.epoch)
    (hpast : s.run.phase.ended = true ∨ (∃ result, s.run.phase = .returned result) ∨ s.run.phase = .unwound) :
    ∃ t, Runs (soloSystem path component request cancellable epoch flag) (Unaided host) s t ∧
      ∃ result, t.run.phase = .returned result := by
  rcases hpast with hended | hreturned | hunwound
  · exact returns_ended host h hended
  · exact ⟨s, .refl s, hreturned⟩
  · exact absurd hunwound h.calling

theorem returns_executing (host : HostView) (h : s.Returnable) (hg : s.run.guestExecuting) :
    ∃ t, Runs (soloSystem path component request cancellable epoch flag) (Unaided host) s t ∧
      ∃ result, t.run.phase = .returned result := by
  have hlate : ∃ t, Runs (soloSystem path component request cancellable epoch flag) (Unaided host) s t ∧
      t.Returnable ∧ t.run.guestExecuting ∧ t.run.deadline ≤ t.epoch := by
    refine Runs.progress (P := fun rank (s : Solo) =>
      rank = (s.run.deadline - s.epoch) * 12 + s.run.watcher.toTick ∧ s.Returnable ∧ s.run.guestExecuting) ?_
      ⟨rfl, h, hg⟩
    rintro rank s ⟨rfl, h, hg⟩
    by_cases hlt : s.epoch < s.run.deadline
    · obtain ⟨effect, he, hphase, hdeadline, hturn⟩ := WasiRun.watch_approaches h.inv h.timed hg hlt s.flag
      have hg' : effect.run.guestExecuting := by
        unfold WasiRun.guestExecuting at hg ⊢
        rwa [hphase, (WasiRun.step_params he).2.1]
      have hle := effect.run.watcher.toTick_le
      refine Or.inr ⟨_, ?_, .run (.watch true), _, trivial, s.step_run he, rfl, h.next he, hg'⟩
      dsimp only
      rw [hdeadline]
      rcases hturn with ⟨hepoch, hless⟩ | hepoch <;> rw [hepoch] <;> omega
    · exact Or.inl ⟨h, hg, not_lt.mp hlt⟩
  obtain ⟨t, ht, hr, hg, hdeadline⟩ := hlate
  obtain ⟨guestEnd, hinterrupt, he⟩ := interrupts hg hdeadline
  have hunaided : Unaided host t (.run (.guestEnd guestEnd)) := hinterrupt
  obtain ⟨u, hu, hreturned⟩ := returns_past host (hr.next he).inv
    ((stopGuest_ended t.run guestEnd).imp_right Or.inl)
  exact ⟨u, (ht.step hunaided (t.step_run he)).trans hu, hreturned⟩

theorem reaches_guest (host : HostView) {P : Solo → Prop}
    (hP : ∀ (s : Solo) act effect, P s → s.run.step s.flag s.epoch act = some effect → P { s with
      run := effect.run, epoch := effect.epoch, events := effect.event.toList ++ s.events }) (h : P s) :
    ∃ t, Runs (soloSystem path component request cancellable epoch flag) (Unaided host) s t ∧ P t ∧
      t.run.AtGuestOrPast := by
  refine Runs.progress (P := fun rank (s : Solo) => rank = s.run.phase.toCall s.run.path ∧ P s) ?_ ⟨rfl, h⟩
  rintro rank s ⟨rfl, h⟩
  by_cases hg : s.run.guestExecuting
  · exact Or.inl ⟨h, Or.inl hg⟩
  · rcases s.run.phase.toCall_or s.run.path with hbefore | hcall | hpast
    · obtain ⟨act, effect, hact, he, hlt⟩ := starts_advances host s.flag s.epoch hbefore hg
      exact Or.inr ⟨_, hlt, .run act, _, hact, s.step_run he, rfl, hP s act effect h he⟩
    · exact absurd (by simp [WasiRun.guestExecuting, hcall]) hg
    · exact Or.inl ⟨h, Or.inr hpast⟩

/-- From wherever it stands, a run comes back without its guest's help. -/
theorem returns_unaided (host : HostView) (h : s.Returnable) :
    ∃ t, Runs (soloSystem path component request cancellable epoch flag) (Unaided host) s t ∧
      ∃ result, t.run.phase = .returned result := by
  have hreached : ∃ t, Runs (soloSystem path component request cancellable epoch flag) (Unaided host) s t ∧
      t.Returnable ∧ t.run.AtGuestOrPast :=
    reaches_guest host (fun _ _ _ hr he => Solo.Returnable.next hr he) h
  obtain ⟨t, ht, hr, hstage⟩ := hreached
  have hends : ∃ u, Runs (soloSystem path component request cancellable epoch flag) (Unaided host) t u ∧
      ∃ result, u.run.phase = .returned result := by
    rcases hstage with hg | hpast
    · exact returns_executing host hr hg
    · exact returns_past host hr.inv hpast
  obtain ⟨u, hu, hreturned⟩ := hends
  exact ⟨u, ht.trans hu, hreturned⟩

theorem fuel_ends (hg : s.run.guestExecuting) (hfuel : s.run.request.grant.limits.maxFuel < u64Max) :
    ∃ guestEnd, FuelTrap s (.run (.guestEnd guestEnd)) ∧
      s.run.step s.flag s.epoch (.guestEnd guestEnd) = some ⟨s.run.stopGuest guestEnd, s.epoch, none⟩ := by
  rcases WasiRun.guestExecuting_phase hg with hp | hp
  · exact ⟨.notInstantiated .outOfFuel, ⟨hfuel, hg, Or.inr rfl⟩,
      by simp [WasiRun.step, WasiRun.canEnd, hp]⟩
  · exact ⟨.trap .outOfFuel, ⟨hfuel, hg, Or.inl rfl⟩, by simp [WasiRun.step, WasiRun.canEnd, hp]⟩

/-- Whether its guest code is watched or not, a run whose fuel is limited comes back. -/
theorem returns_fueled (host : HostView) (h : s.run.RunInv s.epoch)
    (hfuel : s.run.request.grant.limits.maxFuel < u64Max) :
    ∃ t, Runs (soloSystem path component request cancellable epoch flag) (Enforced host) s t ∧
      ∃ result, t.run.phase = .returned result := by
  have hreached : ∃ t, Runs (soloSystem path component request cancellable epoch flag) (Unaided host) s t ∧
      (t.run.RunInv t.epoch ∧ t.run.request.grant.limits.maxFuel < u64Max) ∧ t.run.AtGuestOrPast :=
    reaches_guest host
      (fun s act effect hs he => ⟨WasiRun.step_runInv hs.1 he, (WasiRun.step_params he).2.2.1 ▸ hs.2⟩) ⟨h, hfuel⟩
  obtain ⟨t, ht, ⟨hinv, hfuel⟩, hstage⟩ := hreached
  have hfree : Runs (soloSystem path component request cancellable epoch flag) (Enforced host) s t :=
    ht.mono (fun _ _ => Or.inl)
  rcases hstage with hg | hpast
  · obtain ⟨guestEnd, htrap, he⟩ := fuel_ends hg hfuel
    have hback : ∃ u, Runs (soloSystem path component request cancellable epoch flag) (Unaided host)
        { t with run := t.run.stopGuest guestEnd } u ∧ ∃ result, u.run.phase = .returned result :=
      returns_past host (WasiRun.step_runInv hinv he) ((stopGuest_ended t.run guestEnd).imp_right Or.inl)
    obtain ⟨u, hu, hreturned⟩ := hback
    exact ⟨u, (hfree.step (Or.inr htrap) (t.step_run he)).trans (hu.mono (fun _ _ => Or.inl)), hreturned⟩
  · obtain ⟨u, hu, hreturned⟩ := returns_past host hinv hpast
    exact ⟨u, hfree.trans (hu.mono (fun _ _ => Or.inl)), hreturned⟩

theorem reachable_runInv (h : Reachable (soloSystem path component request cancellable epoch flag) s) :
    s.run.RunInv s.epoch :=
  solo_invariant (P := fun run epoch => run.RunInv epoch) (fun _ _ _ _ _ hp he => WasiRun.step_runInv hp he)
    (fun _ _ hp => hp.mono (by omega)) h (WasiRun.runInv_start path component request cancellable epoch)

theorem stuck (hg : s.run.guestExecuting) (hw : s.run.watcher = .unspawned) (hlt : s.epoch < s.run.deadline)
    (hfuel : s.run.request.grant.limits.maxFuel = u64Max) {a : SoloAct} (ha : Enforced host s a) :
    s.step a = none := by
  replace ha : Unaided host s a := ha.resolve_right (fun htrap => htrap.1.ne hfuel)
  have hphase := WasiRun.guestExecuting_phase hg
  cases a with
  | cancel | foreignTick => exact absurd ha id
  | run act =>
    refine Option.map_eq_none_iff.mpr ?_
    cases act with
    | main => rcases hphase with hp | hp <;> simp [WasiRun.step, WasiRun.mainStep, hp]
    | build view => rcases hphase with hp | hp <;> simp [WasiRun.step, hp]
    | watch elapsed => simp [WasiRun.step, hw]
    | write stream bytes => exact absurd ha id
    | compute => exact absurd ha id
    | instantiated =>
      have hstart : s.run.component.hasStart = false := ha
      rcases hphase with hp | hp
      · simp [WasiRun.guestExecuting, hp, hstart] at hg
      · simp [WasiRun.step, hp]
    | guestEnd guestEnd =>
      have hearly := not_le.mpr hlt
      rcases ha with rfl | rfl <;> rcases hphase with hp | hp <;>
        simp [WasiRun.step, WasiRun.canEnd, hp, hearly]

end Solo

def unboundedStart : System Solo SoloAct :=
  soloSystem .inner startingComponent (sampleRequest 1 .read defaultLimits.withUnlimitedFuel) false 0 false

/-- A call comes back from wherever it stands, through its own two threads and the engine's
traps and at any value of the epoch and the flag, exactly when it streams, or instantiation
executes no guest code, or the fuel is limited. -/
theorem call_returns_iff (path : RunPath) (component : Component) (fuel : ℕ) :
    (∀ request cancellable epoch flag host s, request.grant.limits.maxFuel = fuel →
      Reachable (soloSystem path component request cancellable epoch flag) s →
      ∃ t, Runs (soloSystem path component request cancellable epoch flag) (Enforced host) s t ∧
        ∃ result, t.run.phase = .returned result) ↔
    (path = .events ∨ component.hasStart = false ∨ fuel ≠ u64Max) := by
  constructor
  · intro h
    by_contra hno
    obtain ⟨hpath, hno⟩ := not_or.mp hno
    obtain ⟨hstart, hfuel⟩ := not_or.mp hno
    have hinner : path = .inner := by cases path <;> simp at hpath ⊢
    have hcomponent : component = startingComponent := by
      cases component
      simpa [startingComponent] using hstart
    have hunlimited : fuel = u64Max := not_not.mp hfuel
    subst hinner hcomponent hunlimited
    -- the run lock, then `build_store`; the start function is next
    obtain ⟨s, hr, hg, hw, hlt, hmax⟩ := unboundedStart.reachable_of_replay
      (fun s => s.run.guestExecuting ∧ s.run.watcher = .unspawned ∧ s.epoch < s.run.deadline ∧
        s.run.request.grant.limits.maxFuel = u64Max)
      [.run .main, .run (.build sampleHost)] (by decide)
    obtain ⟨t, ht, result, hreturned⟩ := h _ _ _ _ sampleHost s rfl hr
    have hsame : t = s := by
      refine Runs.invariant (P := fun t => t = s) ?_ ht rfl
      rintro s' a t ha he rfl
      cases (stuck hg hw hlt hmax ha).symm.trans he
    rw [hsame] at hreturned
    simp [WasiRun.guestExecuting, hreturned] at hg
  · rintro hcond request cancellable epoch flag host s hfuel hr
    obtain ⟨hpath, hcomponent, hrequest⟩ := solo_invariant
      (P := fun run _ => run.path = path ∧ run.component = component ∧ run.request = request)
      (fun _ _ _ _ _ hp he => by
        obtain ⟨hpath, hcomponent, hrequest, -⟩ := WasiRun.step_params he
        exact ⟨hpath.trans hp.1, hcomponent.trans hp.2.1, hrequest.trans hp.2.2⟩) (fun _ _ hp => hp) hr
      ⟨rfl, rfl, rfl⟩
    by_cases htimed : s.run.Timed
    · obtain ⟨t, ht, hreturned⟩ := returns_unaided host ⟨reachable_runInv hr, htimed⟩
      exact ⟨t, ht.mono (fun _ _ => Or.inl), hreturned⟩
    · obtain ⟨hevents, hstart⟩ := not_or.mp htimed
      rw [hpath] at hevents
      rw [hcomponent] at hstart
      refine returns_fueled host (reachable_runInv hr) ?_
      have hlimited : fuel ≠ u64Max := (hcond.resolve_left hevents).resolve_left hstart
      rw [hrequest]
      exact lt_of_le_of_ne request.grant.limits.fuel_le (hfuel ▸ hlimited)

def WasiRuntime.Unaided (host : HostView) (s : WasiRuntime) : EngineAct → Prop
  | .run index act => ∀ r, s.runs[index]? = some r → act.unaided host r.run.component.hasStart
  | .call _ _ _ | .cancel _ => False

structure Embedded (epoch : ℕ) (before : List EngineRun) (index : ℕ) (solo : Solo) (s : WasiRuntime)
    (r : EngineRun) : Prop where
  reachable : Reachable (engineSystem epoch) s
  runs : s.runs = before.set index r
  run : r.run = solo.run
  epoch : s.epoch = solo.epoch
  flag : r.cancelled s.flags = solo.flag
  lock : s.runLock = none ∨ s.runLock = some index

section Engine
variable {epoch index : ℕ} {s t : WasiRuntime} {r : EngineRun} {host : HostView}

theorem step_runs_runInv {a : EngineAct} (he : s.step a = some t) (h : ∀ r ∈ s.runs, r.run.RunInv s.epoch) :
    ∀ r ∈ t.runs, r.run.RunInv t.epoch := by
  cases a with
  | call entry component request =>
    cases he
    intro r hr
    rcases List.mem_append.mp hr with hr | hr
    · exact h r hr
    · rw [List.mem_singleton.mp hr]
      exact WasiRun.runInv_start _ _ _ _ _
  | cancel cell =>
    cases he
    exact h
  | run index act =>
    obtain ⟨r, hr, he⟩ := Option.bind_eq_some_iff.mp he
    split at he
    · cases he
    · obtain ⟨effect, heff, rfl⟩ := Option.map_eq_some_iff.mp he
      have hle : s.epoch ≤ effect.epoch := by
        by_contra hlt
        obtain ⟨-, hone, -⟩ := WasiRun.step_epoch heff (by omega)
        omega
      intro other ho
      rcases List.mem_or_eq_of_mem_set ho with ho | rfl
      · exact (h other ho).mono hle
      · exact WasiRun.step_runInv (h r (List.mem_of_getElem? hr)) heff

theorem reachable_runs_runInv (h : Reachable (engineSystem epoch) s) : ∀ r ∈ s.runs, r.run.RunInv s.epoch :=
  Reachable.invariant (P := fun s => ∀ r ∈ s.runs, r.run.RunInv s.epoch)
    (fun _ _ _ he hp => step_runs_runInv he hp) h (by simp [engineSystem, WasiRuntime.new])

/-- A step the call takes alone it takes on the engine. -/
theorem Embedded.step {before : List EngineRun} {solo solo' : Solo} {a : SoloAct}
    (hindex : index < before.length) (h : Embedded epoch before index solo s r) (ha : Runtime.Unaided host solo a)
    (he : solo.step a = some solo') : ∃ t r', Runs (engineSystem epoch) (WasiRuntime.Unaided host) s t ∧
      Embedded epoch before index solo' t r' := by
  cases a with
  | cancel | foreignTick => exact absurd ha id
  | run act =>
    obtain ⟨effect, heff, rfl⟩ := Option.map_eq_some_iff.mp he
    have hr : s.runs[index]? = some r := by
      rw [h.runs]
      exact List.getElem?_set_self hindex
    have hsound := (reachable_sound h.reachable).runs index r hr
    rw [← h.run, ← h.flag, ← h.epoch] at heff
    have hblocked : s.blocked r = false := by
      rcases h.lock with hfree | hown
      · simp [WasiRuntime.blocked, hfree]
      · simp [WasiRuntime.blocked, hsound.lock.mp hown]
    have hunaided : WasiRuntime.Unaided host s (.run index act) := by
      intro other ho
      cases hr.symm.trans ho
      rw [h.run]
      exact ha
    have hstep : (engineSystem epoch).step s (.run index act) = some { s with
        epoch := effect.epoch
        runLock := lockAfter s.runLock index r.run.phase effect.run.phase
        runs := s.runs.set index (r.advance s.epoch effect) } := by
      simp [engineSystem, WasiRuntime.step, hr, hblocked, heff]
    refine ⟨_, r.advance s.epoch effect, (Runs.refl s).step hunaided hstep, h.reachable.step hstep, ?_, rfl, rfl,
      h.flag, ?_⟩
    · simp [h.runs]
    · rcases WasiRun.step_holdsLock hsound.joined heff with ⟨hb, -⟩ | ⟨hb, hlock, -⟩
      · exact Or.inr (by simp [lockAfter, hb])
      · dsimp only
        rw [lockAfter_of_holdsLock hb hlock, hsound.lock.mpr hb]
        cases effect.run.phase.holdsLock <;> simp

theorem call_returns (host : HostView) (h : Reachable (engineSystem epoch) s) (hr : s.runs[index]? = some r)
    (hlock : s.runLock = none ∨ s.runLock = some index) (htimed : r.run.Timed) :
    ∃ t r', Runs (engineSystem epoch) (WasiRuntime.Unaided host) s t ∧ t.runs = s.runs.set index r' ∧
      r'.run.isReturned = true := by
  obtain ⟨hindex, hget⟩ := List.getElem?_eq_some_iff.mp hr
  have hself : s.runs = s.runs.set index r := by
    rw [← hget, List.set_getElem_self]
  have hembedded : Embedded epoch s.runs index ⟨r.run, s.epoch, r.cancelled s.flags, []⟩ s r :=
    ⟨h, hself, rfl, rfl, rfl, hlock⟩
  have hreturnable : Solo.Returnable ⟨r.run, s.epoch, r.cancelled s.flags, []⟩ :=
    ⟨reachable_runs_runInv h r (List.mem_of_getElem? hr), htimed⟩
  -- the solo system is only there to carry the run
  have hback : ∃ u, Runs (soloSystem r.run.path r.run.component r.run.request r.run.cancellable s.epoch
      (r.cancelled s.flags)) (Unaided host) ⟨r.run, s.epoch, r.cancelled s.flags, []⟩ u ∧
      ∃ result, u.run.phase = .returned result := returns_unaided host hreturnable
  obtain ⟨solo, hruns, result, hreturned⟩ := hback
  have hlifted : ∃ t, Runs (engineSystem epoch) (WasiRuntime.Unaided host) s t ∧
      ∃ r', Embedded epoch s.runs index solo t r' := by
    refine Runs.lift (R := fun solo t => ∃ r', Embedded epoch s.runs index solo t r') ?_ hruns ⟨r, hembedded⟩
    rintro solo a solo' u ha he ⟨r', hr'⟩
    obtain ⟨v, r'', hv, hr''⟩ := hr'.step hindex ha he
    exact ⟨v, hv, r'', hr''⟩
  obtain ⟨t, ht, r', hr'⟩ := hlifted
  refine ⟨t, r', ht, hr'.runs, ?_⟩
  simp [WasiRun.isReturned, hr'.run, hreturned]

def WasiRuntime.unreturned (s : WasiRuntime) : ℕ := s.runs.countP (fun r => !r.run.isReturned)

theorem unblocked_call (h : s.Sound) (hpos : 0 < s.unreturned) : ∃ (index : ℕ) (r : EngineRun),
    s.runs[index]? = some r ∧ r.run.isReturned = false ∧ (s.runLock = none ∨ s.runLock = some index) := by
  cases hlock : s.runLock with
  | none =>
    obtain ⟨r, hr, hreturned⟩ := List.countP_pos_iff.mp hpos
    obtain ⟨index, hindex⟩ := List.mem_iff_getElem?.mp hr
    exact ⟨index, r, hindex, by simpa using hreturned, Or.inl rfl⟩
  | some index =>
    have hindex := h.holder index hlock
    have hr := List.getElem?_eq_getElem hindex
    refine ⟨index, s.runs[index], hr, ?_, Or.inr rfl⟩
    have hholds := (h.runs index _ hr).lock.mp hlock
    unfold WasiRun.isReturned
    split
    · rename_i hp
      rw [hp] at hholds
      cases hholds
    · rfl

/-- However many calls share the engine, and wherever each of them stands, all of them come
back one after the other, as long as no call that still captures has a start function. -/
theorem calls_return {epoch : ℕ} {s : WasiRuntime} (host : HostView) (h : Reachable (engineSystem epoch) s)
    (htimed : ∀ r ∈ s.runs, r.run.isReturned = false → r.run.path = .events ∨ r.run.component.hasStart = false) :
    ∃ t, Runs (engineSystem epoch) (WasiRuntime.Unaided host) s t ∧ t.runs.length = s.runs.length ∧
      t.runLock = none ∧ ∀ r ∈ t.runs, r.run.isReturned = true := by
  have hall : ∃ t, Runs (engineSystem epoch) (WasiRuntime.Unaided host) s t ∧
      Reachable (engineSystem epoch) t ∧ t.runs.length = s.runs.length ∧ t.unreturned = 0 := by
    refine Runs.reach (P := fun rank t => Reachable (engineSystem epoch) t ∧ t.runs.length = s.runs.length ∧
      rank = t.unreturned ∧ ∀ r ∈ t.runs, r.run.isReturned = false → r.run.Timed) ?_ ⟨h, rfl, rfl, htimed⟩
    rintro rank t ⟨ht, hlength, rfl, htimed⟩
    rcases Nat.eq_zero_or_pos t.unreturned with hzero | hpos
    · exact Or.inl ⟨ht, hlength, hzero⟩
    · obtain ⟨index, r, hr, hout, hlock⟩ := unblocked_call (reachable_sound ht) hpos
      obtain ⟨u, r', hu, hruns, hreturned⟩ :=
        call_returns host ht hr hlock (htimed r (List.mem_of_getElem? hr) hout)
      obtain ⟨hindex, hget⟩ := List.getElem?_eq_some_iff.mp hr
      refine Or.inr ⟨u.unreturned, ?_, u, hu, ht.runs hu, by simpa [hruns] using hlength, rfl, ?_⟩
      · have hcount : 0 < t.runs.countP (fun r => !r.run.isReturned) := hpos
        simp only [WasiRuntime.unreturned, hruns, List.countP_set hindex, hget, hout, hreturned, Bool.not_false,
          if_true, Bool.not_true, Bool.false_eq_true, if_false]
        omega
      · intro other ho
        rw [hruns] at ho
        rcases List.mem_or_eq_of_mem_set ho with ho | rfl
        · exact htimed other ho
        · exact fun hnot => absurd (hreturned.symm.trans hnot) (by simp)
  obtain ⟨t, ht, hr, hlength, hzero⟩ := hall
  have hreturned : ∀ r ∈ t.runs, r.run.isReturned = true := by
    intro r hmem
    by_contra hno
    exact absurd (List.countP_eq_zero.mp hzero r hmem) (by simp [hno])
  refine ⟨t, ht, hlength, ?_, hreturned⟩
  by_contra hheld
  obtain ⟨index, hlock⟩ := Option.ne_none_iff_exists'.mp hheld
  have hindex := (reachable_sound hr).holder index hlock
  have hholds := ((reachable_sound hr).runs index _ (List.getElem?_eq_getElem hindex)).lock.mp hlock
  have hend := hreturned _ (List.getElem_mem hindex)
  unfold WasiRun.isReturned at hend
  split at hend
  · rename_i hp
    rw [hp] at hholds
    cases hholds
  · cases hend

end Engine

def streamingThenCapturing : List EngineAct :=
  [.call (.runWasiEvents 0) ⟨true⟩ (sampleRequest 1 .read oneSecond),
    .call .runWasi ⟨false⟩ (sampleRequest 2 .read oneSecond),
    .run 0 .main, .run 0 (.build sampleHost), .run 0 .main]

theorem waiting_call_returns : ∃ t : WasiRuntime, t.runs.length = 2 ∧ t.runLock = none ∧
    ∀ r ∈ t.runs, r.run.isReturned = true := by
  obtain ⟨s, hs, hlength, htimed⟩ := (engineSystem 0).reachable_of_replay
    (fun s => s.runs.length = 2 ∧ ∀ r ∈ s.runs, r.run.isReturned = false →
      r.run.path = .events ∨ r.run.component.hasStart = false)
    streamingThenCapturing (by decide)
  obtain ⟨t, -, ht, hlock, hreturned⟩ := calls_return sampleHost hs htimed
  exact ⟨t, ht.trans hlength, hlock, hreturned⟩

end FerrousRuntime.Runtime
