import FerrousRuntime.Runtime.PathAgreement

/-! # The chunks a reader sends

A reader sends what it drained, and never an empty chunk. Behind it, no pipe of the guest
takes in more than the budget.
-/
namespace FerrousRuntime.Runtime
open Capability Command Pipe

def Watcher.chunk : Watcher → Option (List UInt8)
  | .reader current =>
    match current.pc with
    | .sendStdout bytes | .sendStderr bytes => some bytes
    | _ => none
  | _ => none

namespace WasiRun
variable {run : WasiRun} {flag : Bool} {epoch : ℕ} {act : RunAct} {effect : Effect}

theorem readerStep_chunk {reader : Reader} {cancelled elapsed : Bool}
    {turn : WasiRun × ℕ × Option SessionEvent} (hn : ReaderSteps cancelled elapsed run reader turn) :
    turn.1.watcher.chunk ≠ some [] := by
  cases hn with
  | drainedStdout =>
    by_cases hnil : run.stdout.waitAndDrain.1.1 = [] <;> simp [Watcher.chunk, hnil]
  | drainedStderr =>
    by_cases hnil : run.stderr.waitAndDrain.1.1 = [] <;> simp [Watcher.chunk, hnil]
  | _ => simp [Watcher.chunk]

theorem step_chunk (he : run.step flag epoch act = some effect) (h : run.watcher.chunk ≠ some []) :
    effect.run.watcher.chunk ≠ some [] := by
  apply step_elim (P := fun next _ _ => next.watcher.chunk ≠ some []) he
  case main =>
    intro next hn
    cases hn with
    | spawned => cases hpath : run.path <;> simp [spawned, Watcher.chunk]
    | _ => exact h
  case build =>
    intro host _
    unfold buildStep
    split <;> exact h
  case write =>
    intro stream bytes _ _
    rcases guestWrite_cases run stream bytes with he | he | ⟨pipe, -, -, he⟩ | ⟨pipe, -, -, he⟩ <;>
      rw [he]
    · exact h
    · exact h
    · cases stream <;> exact h
    · cases stream <;> exact h
  case compute => exact fun _ => h
  case instantiated => exact fun _ => h
  case guestEnd => exact fun _ _ => h
  case watchdog =>
    intro elapsed pc ticks next _ hn
    rcases watchdogStep_kind hn with ⟨_, _, hnext⟩ | hnext <;> simp [hnext, Watcher.chunk]
  case reader => exact fun elapsed reader turn _ hn => readerStep_chunk hn

theorem event_chunk (he : run.step flag epoch act = some effect) {event : SessionEvent}
    (hevent : effect.event = some event) : (∃ reader, effect.run.watcher = .reader reader) ∧
      ∃ stream bytes, event = .output stream bytes ∧ run.watcher.chunk = some bytes := by
  revert hevent
  apply step_elim (P := fun next _ sent => sent = some event → (∃ reader, next.watcher = .reader reader) ∧
    ∃ stream bytes, event = .output stream bytes ∧ run.watcher.chunk = some bytes) he
  case reader =>
    intro elapsed reader turn hr hn hevent
    cases hn with
    | sentStdout bytes hpc | sentStderr bytes hpc =>
      exact ⟨⟨_, rfl⟩, _, bytes, (Option.some.inj hevent).symm, by simp [hr, Watcher.chunk, hpc]⟩
    | _ => cases hevent
  all_goals
    intros
    simp_all only [reduceCtorEq]

theorem watch_reader {elapsed : Bool} (he : run.step flag epoch (.watch elapsed) = some effect)
    (hr : ∃ reader, effect.run.watcher = .reader reader) : ∃ reader, run.watcher = .reader reader := by
  revert hr
  apply watch_elim (P := fun next _ _ => (∃ reader, next.watcher = .reader reader) →
    ∃ reader, run.watcher = .reader reader) he
  case watchdog =>
    rintro pc ticks next _ hn ⟨reader, hr⟩
    rcases watchdogStep_kind hn with ⟨_, _, hnext⟩ | hnext <;> simp [hnext] at hr
  case reader => exact fun reader _ hr _ _ => ⟨reader, hr⟩

/-- No pipe of the guest holds more than the budget. -/
def Confined (run : WasiRun) : Prop :=
  ∀ stream, (run.memory stream).capacity = run.budget ∧ (run.memory stream).buffer.length ≤ run.budget

theorem confined_start (path : RunPath) (component : Component) (request : CommandRequest)
    (cancellable : Bool) : (start path component request cancellable).Confined := by
  intro stream
  cases path <;> cases stream <;> exact ⟨rfl, Nat.zero_le _⟩

theorem Confined.update {next : WasiRun} (h : run.Confined) (stream : Stream) (bytes : List UInt8)
    (hfits : bytes.length ≤ (run.memory stream).capacity - (run.memory stream).buffer.length)
    (hmemory : next.memory = Function.update run.memory stream
      { run.memory stream with buffer := (run.memory stream).buffer ++ bytes })
    (hbudget : next.budget = run.budget) : next.Confined := by
  intro other
  rw [hmemory, hbudget]
  by_cases hother : other = stream
  · subst hother
    obtain ⟨hcapacity, hbounded⟩ := h other
    simp only [Function.update_self, List.length_append]
    exact ⟨hcapacity, by omega⟩
  · rw [Function.update_of_ne hother]
    exact h other

theorem guestWrite_confined (h : run.Confined) (stream : Stream) (bytes : List UInt8) :
    (run.guestWrite stream bytes).Confined := by
  rcases guestWrite_cases run stream bytes with he | he | ⟨pipe, hpath, hw, he⟩ | ⟨pipe, hpath, hw, he⟩ <;>
    rw [he]
  · exact h
  · exact h
  · have hmemory : run.memory stream = (run.pipe stream).toMemory := by simp [memory, hpath]
    obtain ⟨-, hfits, rfl⟩ := StreamOutputPipe.write_eq_ok hw
    refine h.update stream bytes ?_ ?_ ?_
    · rw [hmemory]
      exact hfits
    · rw [setPipe_memory hpath, hmemory]
      rfl
    · cases stream <;> rfl
  · have hmemory : run.memory stream = run.captured stream := by simp [memory, hpath]
    have hfits := MemoryOutputPipe.write_fits hw
    cases MemoryOutputPipe.write_eq_ok hw
    refine h.update stream bytes ?_ ?_ ?_
    · rw [hmemory]
      exact hfits
    · rw [setCaptured_memory hpath, hmemory]
    · cases stream <;> rfl

theorem step_confined (he : run.step flag epoch act = some effect) (h : run.Confined) :
    effect.run.Confined := by
  by_cases hwrite : ∃ stream bytes, act = .write stream bytes
  · obtain ⟨stream, bytes, rfl⟩ := hwrite
    simp only [step, Option.ite_none_right_eq_some, Option.some.injEq] at he
    obtain ⟨-, rfl⟩ := he
    exact guestWrite_confined h stream bytes
  · intro stream
    rw [step_memory he (fun stream bytes ha => hwrite ⟨stream, bytes, ha⟩), budget, (step_params he).2.2.1]
    exact h stream

end WasiRun

end FerrousRuntime.Runtime
