import FerrousRuntime.Runtime.OutputChunks

/-! # Output that is returned is all of it

A guest may go on after a refusal, so a successful run could hand back less than its guest
had to write. A write beyond the capacity of its pipe traps, and the run fails. Permits are
refused by a full pipe on either path, and everything by a pipe that the streaming path's
reader has closed, which it does beyond the budget.
-/
namespace FerrousRuntime.Runtime
open Capability Command Pipe Transition

/-- A run, with every write its guest tried and the streams it was refused a permit for,
latest first. -/
structure Attempting where
  solo : Solo
  attempts : List (Stream × List UInt8)
  refusals : List Stream

inductive AttemptingAct
  | solo (act : SoloAct)
  | checkWrite (stream : Stream)

def attempted : SoloAct → List (Stream × List UInt8)
  | .run (.write stream bytes) => [(stream, bytes)]
  | _ => []

/-- A permit that executing guest code asks for leaves the run as it is. -/
def Attempting.step (s : Attempting) : AttemptingAct → Option Attempting
  | .solo act => (s.solo.step act).map (fun next => ⟨next, attempted act ++ s.attempts, s.refusals⟩)
  | .checkWrite stream =>
    if s.solo.run.guestExecuting then
      match s.solo.run.checkWrite stream with
      | .ok _ => some s
      | .error _ => some { s with refusals := stream :: s.refusals }
    else none

def attemptSystem (path : RunPath) (component : Component) (request : CommandRequest) (cancellable : Bool)
    (epoch : ℕ) (flag : Bool) : System Attempting AttemptingAct where
  init := ⟨⟨.start path component request cancellable, epoch, flag, []⟩, [], []⟩
  step := Attempting.step

def GuestEnd.fails : GuestEnd → Bool
  | .notInstantiated _ | .trap _ => true
  | _ => false

def Phase.failed : Phase → Bool
  | .eofStdout guestEnd | .eofStderr guestEnd | .stop guestEnd | .join guestEnd | .classify guestEnd =>
    guestEnd.fails
  | .returned result => !result.isOk
  | .unwound => true
  | _ => false

namespace WasiRun
variable {run next : WasiRun} {flag : Bool} {epoch : ℕ} {act : RunAct} {effect : Effect}

theorem afterGuest_failed (path : RunPath) {guestEnd : GuestEnd} (h : guestEnd.fails = true) :
    (afterGuest path guestEnd).failed = true := by
  cases path <;> cases guestEnd <;> first | rfl | cases h

theorem result_failed (run : WasiRun) (cancelled : Bool) {guestEnd : GuestEnd} (h : guestEnd.fails = true) :
    (Phase.returned (run.result cancelled guestEnd)).failed = true := by
  cases guestEnd with
  | notInstantiated error => rfl
  | trap error => cases cancelled <;> rfl
  | _ => cases h

theorem step_failed (he : run.step flag epoch act = some effect) (h : run.phase.failed = true) :
    effect.run.phase.failed = true := by
  have hidle : ¬ run.guestExecuting := by
    intro hg
    rcases guestExecuting_phase hg with hp | hp <;> simp [hp, Phase.failed] at h
  apply step_elim (P := fun run _ _ => run.phase.failed = true) he
  case main =>
    intro next hn
    cases hn with
    | locked hp | spawned hp => simp [hp, Phase.failed] at h
    | classified guestEnd hp =>
      rw [hp] at h
      exact result_failed run _ h
    | endedStdout guestEnd hp | endedStderr guestEnd hp | stopped guestEnd hp
    | joined guestEnd stdout stderr hp =>
      rw [hp] at h
      exact h
  case build =>
    intro host hp
    simp [hp, Phase.failed] at h
  case write => exact fun stream bytes _ hg => absurd hg hidle
  case compute => exact fun hg => absurd hg hidle
  case instantiated =>
    intro hp
    simp [hp, Phase.failed] at h
  case guestEnd =>
    intro guestEnd hc
    unfold canEnd at hc
    cases guestEnd <;> cases hp : run.phase <;> simp_all [Phase.failed]
  case watchdog => exact fun _ _ _ _ _ _ => h
  case reader =>
    intro elapsed reader turn _ hn
    cases hn <;> exact h

def Reports (run : WasiRun) : Prop :=
  ∀ output, run.phase = .returned (.ok output) →
    output.stdout = (run.memory .stdout).buffer ∧ output.stderr = (run.memory .stderr).buffer

theorem result_eq_ok {cancelled : Bool} {guestEnd : GuestEnd} {output : WasiOutput}
    (h : run.result cancelled guestEnd = .ok output) :
    output.stdout = run.outputs.1 ∧ output.stderr = run.outputs.2 := by
  cases guestEnd with
  | notInstantiated error => cases h
  | success => cases h; exact ⟨rfl, rfl⟩
  | failure => cases h; exact ⟨rfl, rfl⟩
  | trap error => cases cancelled <;> cases h

theorem trapEnd_fails (phase : Phase) : (trapEnd phase).fails = true := by
  unfold trapEnd
  split <;> rfl

theorem guestWrite_returned (hg : run.guestExecuting) (stream : Stream) (bytes : List UInt8)
    (output : WasiOutput) : (run.guestWrite stream bytes).phase ≠ .returned (.ok output) := by
  have hphase : run.phase ≠ .returned (.ok output) := by
    rcases guestExecuting_phase hg with hp | hp <;> simp [hp]
  rcases guestWrite_cases run stream bytes with he | he | ⟨pipe, -, -, he⟩ | ⟨pipe, -, -, he⟩ <;> rw [he]
  · exact hphase
  · intro hr
    have hfailed := afterGuest_failed run.path (trapEnd_fails run.phase)
    rw [show afterGuest run.path (trapEnd run.phase) = .returned (.ok output) from hr] at hfailed
    cases hfailed
  · cases stream <;> exact hphase
  · cases stream <;> exact hphase

theorem step_output (he : run.step flag epoch act = some effect) (output : WasiOutput)
    (hr : effect.run.phase = .returned (.ok output)) : run.phase = .returned (.ok output) ∨
      ∃ guestEnd, run.phase = .classify guestEnd ∧
        output.stdout = run.outputs.1 ∧ output.stderr = run.outputs.2 := by
  revert hr
  apply step_elim (P := fun next _ _ => next.phase = .returned (.ok output) →
    run.phase = .returned (.ok output) ∨ ∃ guestEnd, run.phase = .classify guestEnd ∧
      output.stdout = run.outputs.1 ∧ output.stderr = run.outputs.2) he
  case main =>
    intro next hn hr
    cases hn with
    | spawned => cases hpath : run.path <;> simp [hpath] at hr
    | classified guestEnd hp => exact Or.inr ⟨guestEnd, hp, result_eq_ok (Phase.returned.inj hr)⟩
    | _ => cases hr
  case build =>
    intro host _ hr
    unfold buildStep at hr
    split at hr
    · cases hr
    · cases hpath : run.path <;> simp [hpath] at hr
  case write => exact fun stream bytes _ hg hr => absurd hr (guestWrite_returned hg stream bytes output)
  case compute => exact fun _ hr => Or.inl hr
  case instantiated =>
    intro _ hr
    cases hpath : run.path <;> simp [enterCall, hpath] at hr
  case guestEnd =>
    intro guestEnd _ hr
    cases hpath : run.path <;> cases guestEnd <;> simp [stopGuest, afterGuest, hpath] at hr
  case watchdog => exact fun _ _ _ _ _ _ hr => Or.inl hr
  case reader =>
    intro elapsed reader turn _ hn hr
    cases hn <;> exact Or.inl hr

theorem step_reports (hc : run.path = .events → run.Collects) (he : run.step flag epoch act = some effect)
    (h : run.Reports) : effect.run.Reports := by
  intro output hr
  have hact : ∀ stream bytes, act ≠ .write stream bytes := by
    rintro stream bytes rfl
    simp only [step, Option.ite_none_right_eq_some, Option.some.injEq] at he
    obtain ⟨hg, rfl⟩ := he
    exact guestWrite_returned hg stream bytes output hr
  rw [step_memory he hact]
  rcases step_output he output hr with hp | ⟨guestEnd, hp, hout, herr⟩
  · exact h output hp
  · rw [hout, herr, outputs_memory hc hp]
    exact ⟨rfl, rfl⟩

theorem step_grows (hopen : run.Unclosed) (he : run.step flag epoch act = some effect) (stream : Stream) :
    (run.memory stream).buffer.length ≤ (effect.run.memory stream).buffer.length := by
  by_cases hwrite : ∃ stream bytes, act = .write stream bytes
  · obtain ⟨written, bytes, rfl⟩ := hwrite
    simp only [step, Option.ite_none_right_eq_some, Option.some.injEq] at he
    obtain ⟨-, rfl⟩ := he
    rcases guestWrite_memory hopen written bytes with ⟨pipe, hw, -, hm, -, -⟩ | ⟨_, _, -, -, hstop⟩
    · cases MemoryOutputPipe.write_eq_ok hw
      rw [hm]
      by_cases hother : stream = written
      · subst hother
        simp
      · rw [Function.update_of_ne hother]
    · rw [hstop]
      exact le_rfl
  · rw [step_memory he (fun stream bytes ha => hwrite ⟨stream, bytes, ha⟩)]

/-- While the pipes are open, a write lands in them whole or fails the run. -/
theorem step_whole (hopen : run.Unclosed) {attempts : List (Stream × List UInt8)}
    (he : run.step flag epoch act = some effect)
    (h : run.phase.failed = true ∨ ∀ stream, written stream attempts = (run.memory stream).buffer) :
    effect.run.phase.failed = true ∨ ∀ stream,
      written stream (attempted (.run act) ++ attempts) = (effect.run.memory stream).buffer := by
  rcases h with hfailed | hall
  · exact Or.inl (step_failed he hfailed)
  by_cases hwrite : ∃ stream bytes, act = .write stream bytes
  · obtain ⟨stream, bytes, rfl⟩ := hwrite
    simp only [step, Option.ite_none_right_eq_some, Option.some.injEq] at he
    obtain ⟨-, rfl⟩ := he
    rcases guestWrite_memory hopen stream bytes with ⟨pipe, hw, -, hm, -, -⟩ | ⟨_, _, -, -, hstop⟩
    · right
      intro other
      cases MemoryOutputPipe.write_eq_ok hw
      rw [hm]
      by_cases hother : other = stream
      · subst hother
        simp [attempted, written, hall]
      · simp [attempted, written, hall, Function.update_of_ne hother, Ne.symm hother]
    · left
      rw [hstop]
      exact afterGuest_failed _ (trapEnd_fails _)
  · right
    rw [step_memory he (fun stream bytes ha => hwrite ⟨stream, bytes, ha⟩)]
    cases act with
    | write stream bytes => exact absurd ⟨stream, bytes, rfl⟩ hwrite
    | _ => exact hall

end WasiRun

theorem Attempting.step_cases {s t : Attempting} {a : AttemptingAct} (he : s.step a = some t) :
    (∃ act next, s.solo.step act = some next ∧ t = ⟨next, attempted act ++ s.attempts, s.refusals⟩) ∨ t = s ∨
      ∃ stream error, s.solo.run.checkWrite stream = .error error ∧
        t = { s with refusals := stream :: s.refusals } := by
  cases a with
  | solo act =>
    obtain ⟨next, hn, rfl⟩ := Option.map_eq_some_iff.mp he
    exact Or.inl ⟨act, next, hn, rfl⟩
  | checkWrite stream =>
    simp only [step, Option.ite_none_right_eq_some] at he
    obtain ⟨-, he⟩ := he
    split at he
    · cases he
      exact Or.inr (Or.inl rfl)
    · rename_i error hrefused
      cases he
      exact Or.inr (Or.inr ⟨stream, error, hrefused, rfl⟩)

section Runs
variable {path : RunPath} {component : Component} {request : CommandRequest} {cancellable : Bool}
  {epoch : ℕ} {flag : Bool} {s t : Attempting}

theorem reachable_attempting (h : Reachable (attemptSystem path component request cancellable epoch flag) s) :
    Reachable (soloSystem path component request cancellable epoch flag) s.solo := by
  refine Reachable.invariant (P := fun s : Attempting =>
    Reachable (soloSystem path component request cancellable epoch flag) s.solo) ?_ h (Runs.refl _)
  intro s a t he hr
  rcases Attempting.step_cases he with ⟨act, next, hn, rfl⟩ | rfl | ⟨_, _, -, rfl⟩
  · exact hr.step hn
  · exact hr
  · exact hr

theorem reachable_reports {s : Solo}
    (h : Reachable (soloSystem path component request cancellable epoch flag) s) : s.run.Reports := by
  refine Runs.invariant_of_reachable (P := fun s : Solo => s.run.Reports) ?_ h (.refl _) ?_
  · intro s a t hr _ he hp
    cases a with
    | run act =>
      obtain ⟨effect, heff, rfl⟩ := Option.map_eq_some_iff.mp he
      exact WasiRun.step_reports (reachable_underway hr).collects heff hp
    | cancel => cases he; exact hp
    | foreignTick => cases he; exact hp
  · rintro output ⟨⟩

/-- The path never closes its pipes, or has not reached what makes it. -/
def WasiRun.Admits (run : WasiRun) : Prop := run.path = .inner ∨ run.acceptedBytes ≤ run.budget

theorem WasiRun.Admits.readsWithin {run : WasiRun} (h : run.Admits) (hu : Underway component request run) :
    run.ReadsWithin := by
  cases hpath : run.path with
  | inner => exact fun reader hr => absurd hr (hu.capturing hpath reader)
  | events =>
    rcases h with hinner | hwithin
    · cases hpath.symm.trans hinner
    · exact (hu.collects hpath).readsWithin hpath hwithin

/-- The pipes are open, hold all that the guest tried to write unless the run fails, and are
full where a permit was refused. -/
structure Attempting.Whole (s : Attempting) : Prop where
  unclosed : s.solo.run.Unclosed
  whole : s.solo.run.phase.failed = true ∨
    ∀ stream, written stream s.attempts = (s.solo.run.memory stream).buffer
  full : ∀ stream ∈ s.refusals, s.solo.run.budget ≤ (s.solo.run.memory stream).buffer.length

theorem whole_start (path : RunPath) (component : Component) (request : CommandRequest) (cancellable : Bool)
    (epoch : ℕ) (flag : Bool) :
    (attemptSystem path component request cancellable epoch flag).init.Whole := by
  refine ⟨⟨?_, ?_⟩, Or.inr ?_, ?_⟩
  · rintro (_ | _) <;> rfl
  · rintro reader ⟨⟩
  · intro stream
    cases path <;> cases stream <;> rfl
  · rintro stream ⟨⟩

theorem step_admits {a : AttemptingAct} (he : s.step a = some t) (h : t.solo.run.Admits) :
    s.solo.run.Admits := by
  rcases Attempting.step_cases he with ⟨act, next, hn, rfl⟩ | rfl | ⟨_, _, -, rfl⟩
  · cases act with
    | run act =>
      obtain ⟨effect, heff, rfl⟩ := Option.map_eq_some_iff.mp hn
      obtain ⟨hpath, -, hrequest, -⟩ := WasiRun.step_params heff
      rcases h with hinner | hwithin
      · exact Or.inl (hpath.symm.trans hinner)
      · have hbudget : effect.run.budget = s.solo.run.budget := by
          rw [WasiRun.budget, WasiRun.budget, hrequest]
        exact Or.inr ((WasiRun.step_acceptedBytes heff).trans (hbudget ▸ hwithin))
    | cancel => cases hn; exact h
    | foreignTick => cases hn; exact h
  · exact h
  · exact h

theorem Attempting.step_whole {a : AttemptingAct} (hu : Underway component request s.solo.run)
    (hconfined : s.solo.run.Confined) (hadmits : s.solo.run.Admits) (he : s.step a = some t) (h : s.Whole) :
    t.Whole := by
  rcases Attempting.step_cases he with ⟨act, next, hn, rfl⟩ | rfl | ⟨stream, error, hrefused, rfl⟩
  · cases act with
    | run act =>
      obtain ⟨effect, heff, rfl⟩ := Option.map_eq_some_iff.mp hn
      refine ⟨WasiRun.step_unclosed h.unclosed (hadmits.readsWithin hu) heff,
        WasiRun.step_whole h.unclosed heff h.whole, fun stream hin => ?_⟩
      dsimp only
      rw [WasiRun.step_budget heff]
      exact (h.full stream hin).trans (WasiRun.step_grows h.unclosed heff stream)
    | cancel => cases hn; exact ⟨h.unclosed, h.whole, h.full⟩
    | foreignTick => cases hn; exact ⟨h.unclosed, h.whole, h.full⟩
  · exact h
  · refine ⟨h.unclosed, h.whole, fun other hin => ?_⟩
    rcases List.mem_cons.mp hin with rfl | hin
    · -- an open pipe refuses a permit only when it is full
      rw [WasiRun.checkWrite_memory h.unclosed] at hrefused
      have hcapacity := (hconfined other).1
      unfold MemoryOutputPipe.checkWrite at hrefused
      split at hrefused
      · cases hrefused
      · dsimp only
        omega
    · exact h.full other hin

theorem reachable_run_confined {s : Solo}
    (h : Reachable (soloSystem path component request cancellable epoch flag) s) : s.run.Confined :=
  solo_invariant (P := fun run _ => run.Confined) (fun _ _ _ _ _ hp he => WasiRun.step_confined he hp)
    (fun _ _ hp => hp) h (WasiRun.confined_start path component request cancellable)

theorem reachable_whole (h : Reachable (attemptSystem path component request cancellable epoch flag) s)
    (hadmits : s.solo.run.Admits) : s.Whole := by
  refine Runs.invariant_under (H := fun s : Attempting => s.solo.run.Admits) (P := Attempting.Whole)
    ?_ ?_ h (.refl _) (whole_start ..) hadmits
  · exact fun s a t _ he ht => step_admits he ht
  · intro s a t hr _ he ht hp
    have hsolo := reachable_attempting hr
    exact Attempting.step_whole (reachable_underway hsolo) (reachable_run_confined hsolo) (step_admits he ht) he hp

/-- Returned output within the budget is every byte that the guest tried to write, whoever ran
in between; the capturing path returns no other. A stream below the limit was refused nothing. -/
theorem output_is_complete (path : RunPath) (component : Component) (request : CommandRequest)
    (cancellable : Bool) (epoch : ℕ) (flag : Bool) (s : Attempting) (output : WasiOutput)
    (h : Reachable (attemptSystem path component request cancellable epoch flag) s)
    (hr : s.solo.run.phase = .returned (.ok output))
    (hwithin : path = .inner ∨
      output.stdout.length + output.stderr.length ≤ request.grant.limits.maxOutputBytes) :
    output.stdout = written .stdout s.attempts ∧ output.stderr = written .stderr s.attempts ∧
      ∀ stream, (written stream s.attempts).length < request.grant.limits.maxOutputBytes →
        stream ∉ s.refusals := by
  have hsolo := reachable_attempting h
  obtain ⟨hout, herr⟩ := reachable_reports hsolo output hr
  have hrequest := (reachable_underway hsolo).request
  have hadmits : s.solo.run.Admits := by
    rcases hwithin with hinner | hwithin
    · have hpath := solo_invariant (P := fun run _ => run.path = path)
        (fun _ _ _ _ _ hp he => (WasiRun.step_params he).1.trans hp) (fun _ _ hp => hp) hsolo rfl
      exact Or.inl (hpath.trans hinner)
    · refine Or.inr ?_
      rw [WasiRun.acceptedBytes_eq, ← hout, ← herr, WasiRun.budget, hrequest]
      exact hwithin
  have hwhole := reachable_whole h hadmits
  rcases hwhole.whole with hfailed | hall
  · rw [hr] at hfailed
    cases hfailed
  · refine ⟨hout.trans (hall .stdout).symm, herr.trans (hall .stderr).symm, fun stream hbelow hin => ?_⟩
    have hfull := hwhole.full stream hin
    rw [← hall stream, WasiRun.budget, hrequest] at hfull
    omega

def Phase.output : Phase → Option WasiOutput
  | .returned (.ok output) => some output
  | _ => none

theorem Phase.output_eq_some {phase : Phase} {output : WasiOutput} :
    phase.output = some output ↔ phase = .returned (.ok output) := by
  constructor
  · intro h
    unfold Phase.output at h
    split at h <;> cases h
    rfl
  · rintro rfl
    rfl

/-- A guest with a budget of two bytes that asks for a permit, and writes one byte, which the
reader then finds with both marks. -/
def wholeSchedule : List AttemptingAct :=
  [.solo (.run .main), .solo (.run (.build sampleHost)), .solo (.run .main), .solo (.run .instantiated),
    .checkWrite .stdout, .solo (.run (.write .stdout [111])), .checkWrite .stdout,
    .solo (.run (.guestEnd .success)), .solo (.run .main), .solo (.run .main),
    .solo (.run (.watch false)), .solo (.run (.watch false)), .solo (.run (.watch false)),
    .solo (.run (.watch false)), .solo (.run (.watch false)), .solo (.run (.watch false)),
    .solo (.run (.watch false)), .solo (.run .main), .solo (.run .main)]

theorem one_byte_is_complete : ∃ (s : Attempting) (output : WasiOutput),
    s.solo.run.phase = .returned (.ok output) ∧ output.stdout = [111] ∧
      written .stdout s.attempts = [111] ∧ written .stderr s.attempts = [] ∧ s.refusals = [] := by
  obtain ⟨s, hr, houtput⟩ :=
    (attemptSystem .events ⟨false⟩ (sampleRequest 1 .read twoBytes) true 0 false).reachable_of_replay
      (fun s => s.solo.run.phase.output = some ⟨[111], [], 0⟩) wholeSchedule (by decide)
  have hp := Phase.output_eq_some.mp houtput
  obtain ⟨hout, herr, hnone⟩ := output_is_complete .events ⟨false⟩ (sampleRequest 1 .read twoBytes) true 0
    false s _ hr hp (Or.inr (by decide))
  refine ⟨s, _, hp, rfl, hout.symm, herr.symm, List.eq_nil_iff_forall_not_mem.mpr (fun stream => ?_)⟩
  refine hnone stream ?_
  cases stream
  · rw [← hout]
    decide
  · rw [← herr]
    decide

end Runs

end FerrousRuntime.Runtime
