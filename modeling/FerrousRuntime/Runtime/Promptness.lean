import FerrousRuntime.Runtime.Return

/-! # A cancelled guest is out of time soon

The watcher looks at the cancel handle once in each pass of its loop. Once the handle is set
it runs into a burst that takes the epoch past the deadline, after a number of turns that
does not depend on the schedule, and of these at most one is a timed wait.
-/
namespace FerrousRuntime.Runtime
open Capability Command Pipe Transition

def Phase.beforeWatcher (path : RunPath) : Phase → Bool
  | .lock | .build | .spawn => true
  | .instantiate => decide (path = .inner)
  | _ => false

namespace Watcher

def burst : Watcher → Option ℕ
  | .watchdog (.burst left) _ => some left
  | .reader r => match r.pc with
    | .burst left => some left
    | _ => none
  | _ => none

end Watcher

/-- The turns until the reader has spent its burst, once it finds the handle set. -/
def ReaderPc.toDeadline (ticks : ℕ) : ReaderPc → ℕ
  | .tick => ticks + 10
  | .eof => ticks + 9
  | .drainStdout => ticks + 8
  | .sendStdout _ => ticks + 7
  | .drainStderr => ticks + 6
  | .sendStderr _ => ticks + 5
  | .budget => ticks + 4
  | .closeStdout => ticks + 3
  | .closeStderr => ticks + 2
  | .cancelled => ticks + 1
  | .burst left => left

def Watcher.toDeadline (ticks : ℕ) : Watcher → ℕ
  | .unspawned => ticks + 10
  | .watchdog .wait _ => ticks + 2
  | .watchdog .check _ => ticks + 1
  | .watchdog (.burst left) _ => left
  | .reader r => r.pc.toDeadline ticks
  | .exited _ _ => 0

namespace Watcher

def waiting : Watcher → Bool
  | .watchdog .wait _ => true
  | .reader r => match r.pc with
    | .drainStdout | .drainStderr => true
    | _ => false
  | _ => false

end Watcher

/-- The timed waits the reader comes to before its burst, once it finds the handle set. -/
def ReaderPc.waitsLeft : ReaderPc → ℕ
  | .tick | .eof | .drainStdout => 2
  | .sendStdout _ | .drainStderr => 1
  | _ => 0

def Watcher.waitsLeft : Watcher → ℕ
  | .unspawned => 2
  | .watchdog .wait _ => 1
  | .reader r => r.pc.waitsLeft
  | _ => 0

theorem Watcher.waitsLeft_le (watcher : Watcher) : watcher.waitsLeft ≤ 2 := by
  unfold waitsLeft
  split
  · exact le_rfl
  · omega
  · unfold ReaderPc.waitsLeft
    split <;> omega
  · omega

theorem waitsLeft_pos {watcher : Watcher} (h : watcher.waiting = true) : 0 < watcher.waitsLeft := by
  cases watcher with
  | watchdog pc ticks => cases pc <;> first | exact Nat.one_pos | cases h
  | reader r => cases hpc : r.pc <;> simp [Watcher.waiting, Watcher.waitsLeft, hpc, ReaderPc.waitsLeft] at h ⊢
  | _ => cases h

namespace WasiRun
variable {run : WasiRun} {flag : Bool} {epoch : ℕ} {act : RunAct} {effect : Effect}

/-- The deadline is no further off than the ticks of the limits, nor than what is left of a
burst. -/
structure Winding (run : WasiRun) (epoch : ℕ) : Prop where
  unspawned : run.phase.beforeWatcher run.path = true → run.watcher = .unspawned
  armed : run.phase.armed = true → run.deadline ≤ epoch + run.epochTicks
  within : ∀ left, run.watcher.burst = some left → left ≤ run.epochTicks
  burst : run.phase.armed = true → ∀ left, run.watcher.burst = some left → run.deadline ≤ epoch + left

theorem winding_start (path : RunPath) (component : Component) (request : CommandRequest)
    (cancellable : Bool) (epoch : ℕ) : (start path component request cancellable).Winding epoch := by
  constructor <;> simp [start, Phase.armed, Watcher.burst]

theorem Winding.mono {epoch' : ℕ} (h : run.Winding epoch) (hle : epoch ≤ epoch') : run.Winding epoch' :=
  ⟨h.unspawned, fun ha => (h.armed ha).trans (by omega), h.within,
    fun ha left hl => (h.burst ha left hl).trans (by omega)⟩

theorem Winding.frame {next : WasiRun} (h : run.Winding epoch) (hwatcher : next.watcher = run.watcher)
    (hticks : next.epochTicks = run.epochTicks) (hdeadline : next.deadline = run.deadline)
    (hbefore : next.phase.beforeWatcher next.path = true → run.phase.beforeWatcher run.path = true)
    (harmed : next.phase.armed = true → run.phase.armed = true) : next.Winding epoch := by
  refine ⟨?_, ?_, ?_, ?_⟩
  · rw [hwatcher]
    exact fun hb => h.unspawned (hbefore hb)
  · rw [hdeadline, hticks]
    exact fun ha => h.armed (harmed ha)
  · rw [hwatcher, hticks]
    exact h.within
  · rw [hwatcher, hdeadline]
    exact fun ha => h.burst (harmed ha)

theorem stopGuest_winding (h : run.Winding epoch) (guestEnd : GuestEnd) : (run.stopGuest guestEnd).Winding epoch := by
  refine h.frame rfl rfl rfl ?_ ?_ <;> cases hpath : run.path <;> cases guestEnd <;>
    simp [stopGuest, afterGuest, hpath, Phase.beforeWatcher, Phase.armed]

theorem watch_winding {next : WasiRun} {bump : ℕ} (h : run.Winding epoch)
    (hspawned : run.watcher ≠ .unspawned) (hpath : next.path = run.path) (hphase : next.phase = run.phase)
    (hticks : next.epochTicks = run.epochTicks) (hdeadline : next.deadline = run.deadline)
    (hburst : ∀ left, next.watcher.burst = some left → left = run.epochTicks ∨
      ∃ before, run.watcher.burst = some before ∧ before = left + bump) : next.Winding (epoch + bump) := by
  refine ⟨?_, ?_, ?_, ?_⟩
  · rw [hphase, hpath]
    exact fun hb => absurd (h.unspawned hb) hspawned
  · rw [hphase, hdeadline, hticks]
    exact fun ha => (h.armed ha).trans (by omega)
  · intro left hl
    rw [hticks]
    rcases hburst left hl with rfl | ⟨before, hb, rfl⟩
    · exact le_rfl
    · have hwithin := h.within _ hb
      omega
  · rw [hphase, hdeadline]
    intro ha left hl
    rcases hburst left hl with rfl | ⟨before, hb, rfl⟩
    · exact (h.armed ha).trans (by omega)
    · exact (h.burst ha _ hb).trans (by omega)

theorem step_winding (h : run.Winding epoch) (he : run.step flag epoch act = some effect) :
    effect.run.Winding effect.epoch := by
  apply step_elim (P := fun run epoch _ => run.Winding epoch) he
  case main =>
    intro next hn
    cases hn with
    | locked hp => exact h.frame rfl rfl rfl (by simp [hp, Phase.beforeWatcher]) (by simp [Phase.armed])
    | spawned hp =>
      have harmed := h.armed (by rw [hp]; rfl)
      refine ⟨?_, fun _ => harmed, ?_, ?_⟩ <;> cases hpath : run.path <;>
        simp [Phase.beforeWatcher, spawned, Watcher.burst]
    | _ => exact h.frame rfl rfl rfl (by simp [Phase.beforeWatcher]) (by simp [Phase.armed])
  case build =>
    intro host hp
    have hunspawned := h.unspawned (by rw [hp]; rfl)
    unfold buildStep
    split
    · exact h.frame rfl rfl rfl (by simp [Phase.beforeWatcher]) (by simp [Phase.armed])
    · rename_i store hb
      have hticks := buildStore_epochTicks hb
      refine ⟨fun _ => hunspawned, fun _ => ?_, ?_, ?_⟩
      · simp only [hticks, epochTicks]
        exact le_rfl
      · simp [hunspawned, Watcher.burst]
      · simp [hunspawned, Watcher.burst]
  case write =>
    intro stream bytes _ _
    rcases guestWrite_cases run stream bytes with he | he | ⟨pipe, -, -, he⟩ | ⟨pipe, -, -, he⟩ <;>
      rw [he]
    · exact h
    · exact stopGuest_winding h _
    · cases stream <;> exact h.frame rfl rfl rfl id id
    · cases stream <;> exact h.frame rfl rfl rfl id id
  case compute => exact fun _ => h
  case instantiated =>
    intro hp
    refine h.frame rfl rfl rfl ?_ (fun _ => by rw [hp]; rfl)
    cases hpath : run.path <;> simp [enterCall, hpath, hp, Phase.beforeWatcher]
  case guestEnd => exact fun guestEnd _ => stopGuest_winding h guestEnd
  case watchdog =>
    intro elapsed pc ticks next hw hn
    refine watch_winding h (by simp [hw]) rfl rfl rfl rfl ?_
    intro left hl
    rcases watchdogStep_cases hn with ⟨-, -, rfl⟩ | ⟨rfl, -, rfl⟩ | ⟨before, rfl, rfl⟩ | ⟨rfl, -, rfl⟩ | ⟨rfl, -⟩
    · exact Or.inl (Option.some.inj hl).symm
    · cases hl
    · cases hl
      exact Or.inr ⟨_, by rw [hw]; rfl, rfl⟩
    · cases hl
    · cases hl
  case reader =>
    intro elapsed reader next hr hn
    have hspawned : run.watcher ≠ .unspawned := by simp [hr]
    cases hn with
    | drainedStdout | drainedStderr =>
      refine watch_winding h hspawned rfl rfl rfl rfl ?_
      intro left hl
      simp only [Watcher.burst] at hl
      split at hl
      · rename_i hpc
        split at hpc <;> cases hpc
      · cases hl
    | sawCancelled =>
      refine watch_winding h hspawned rfl rfl rfl rfl ?_
      exact fun left hl => Or.inl (Option.some.inj hl).symm
    | bumped before hpc =>
      refine watch_winding h hspawned rfl rfl rfl rfl ?_
      intro left hl
      cases hl
      exact Or.inr ⟨_, by simp [hr, Watcher.burst, hpc], rfl⟩
    | _ =>
      refine watch_winding h hspawned rfl rfl rfl rfl ?_
      intro left hl
      cases hl

theorem readerStep_toDeadline (run : WasiRun) (elapsed : Bool) (reader : Reader) :
    (run.readerStep true elapsed reader).1.watcher.toDeadline run.epochTicks <
      (Watcher.reader reader).toDeadline run.epochTicks ∨
    (Watcher.reader reader).toDeadline run.epochTicks = 0 ∨
      ∃ stdout stderr, (run.readerStep true elapsed reader).1.watcher = .exited stdout stderr := by
  obtain ⟨pc, totalStdout, totalStderr, outEof, errEof, budgetClosed⟩ := reader
  cases pc with
  | drainStdout =>
    left
    simp only [readerStep]
    split <;> simp [Watcher.toDeadline, ReaderPc.toDeadline]
  | drainStderr =>
    left
    simp only [readerStep]
    split <;> simp [Watcher.toDeadline, ReaderPc.toDeadline]
  | budget =>
    left
    simp only [readerStep]
    split <;> simp [Watcher.toDeadline, ReaderPc.toDeadline]
  | burst left => cases left <;> simp [readerStep, Watcher.toDeadline, ReaderPc.toDeadline]
  | eof => cases hboth : outEof && errEof <;> simp [readerStep, hboth, Watcher.toDeadline, ReaderPc.toDeadline]
  | _ => exact Or.inl (by simp [readerStep, Watcher.toDeadline, ReaderPc.toDeadline])

theorem watch_toDeadline {elapsed : Bool} (hcancelled : (run.cancellable && flag) = true)
    (he : run.step flag epoch (.watch elapsed) = some effect) :
    effect.run.watcher.toDeadline run.epochTicks < run.watcher.toDeadline run.epochTicks ∨
      run.watcher.toDeadline run.epochTicks = 0 ∨ ∃ stdout stderr, effect.run.watcher = .exited stdout stderr := by
  cases hw : run.watcher with
  | unspawned => simp [step, hw] at he
  | exited => simp [step, hw] at he
  | reader reader =>
    simp only [step, hw, hcancelled, Option.some.injEq] at he
    subst he
    exact readerStep_toDeadline run elapsed reader
  | watchdog pc ticks =>
    simp only [step, hw, hcancelled] at he
    obtain ⟨next, hn, rfl⟩ := Option.map_eq_some_iff.mp he
    rcases watchdogStep_cases hn with ⟨-, rfl, rfl⟩ | ⟨rfl, -, -⟩ | ⟨left, rfl, rfl⟩ | ⟨rfl, -, rfl⟩ | ⟨rfl, -⟩
    · exact Or.inl (by simp [Watcher.toDeadline])
    · cases hn
      exact Or.inl (by simp [Watcher.toDeadline])
    · exact Or.inl (by simp [Watcher.toDeadline])
    · exact Or.inl (by simp [Watcher.toDeadline])
    · exact Or.inr (Or.inr ⟨[], [], rfl⟩)

theorem exited_deadline (hw : run.Winding epoch) (hm : run.RunInv epoch) (harmed : run.phase.armed = true)
    {stdout stderr : List UInt8} (hexited : run.watcher = .exited stdout stderr) : run.deadline ≤ epoch := by
  have hbefore : run.phase.beforeWatcher run.path = false := by
    by_contra hno
    have hunspawned := hw.unspawned (by simpa using hno)
    cases hexited.symm.trans hunspawned
  cases hpath : run.path with
  | events =>
    have hphase : run.phase = .instantiate ∨ run.phase = .call := by
      cases hp : run.phase <;> simp [hp, Phase.armed, Phase.beforeWatcher] at harmed hbefore ⊢
    obtain ⟨reader, hreader⟩ := (hm.streaming hpath).spawned hphase
    cases hexited.symm.trans hreader
  | inner =>
    have hphase : run.phase = .call := by
      cases hp : run.phase <;> simp [hp, hpath, Phase.armed, Phase.beforeWatcher] at harmed hbefore ⊢
    have howed := ((hm.capturing hpath).owing hphase).2
    simpa [hexited, owed] using howed

/-- Past its burst, or gone, the watcher has taken an armed run to its deadline. -/
theorem spent_deadline (hw : run.Winding epoch) (hm : run.RunInv epoch) (harmed : run.phase.armed = true)
    (hspent : run.watcher.toDeadline run.epochTicks = 0) : run.deadline ≤ epoch := by
  cases hwatch : run.watcher with
  | unspawned => simp [hwatch, Watcher.toDeadline] at hspent
  | watchdog pc ticks =>
    cases pc with
    | burst left =>
      have hzero : left = 0 := by simpa [hwatch, Watcher.toDeadline] using hspent
      have hburst := hw.burst harmed left (by rw [hwatch]; rfl)
      omega
    | _ => simp [hwatch, Watcher.toDeadline] at hspent
  | reader r =>
    cases hpc : r.pc with
    | burst left =>
      have hzero : left = 0 := by simpa [hwatch, Watcher.toDeadline, hpc, ReaderPc.toDeadline] using hspent
      have hburst := hw.burst harmed left (by simp [hwatch, Watcher.burst, hpc])
      omega
    | _ => simp [hwatch, Watcher.toDeadline, hpc, ReaderPc.toDeadline] at hspent
  | exited stdout stderr => exact exited_deadline hw hm harmed hwatch

theorem Winding.toDeadline_le (h : run.Winding epoch) :
    run.watcher.toDeadline run.epochTicks ≤ run.epochTicks + 10 := by
  cases hwatch : run.watcher with
  | watchdog pc ticks =>
    cases pc with
    | burst left =>
      have hle := h.within left (by rw [hwatch]; rfl)
      simp only [Watcher.toDeadline]
      omega
    | _ => simp [Watcher.toDeadline]
  | reader r =>
    cases hpc : r.pc with
    | burst left =>
      have hle := h.within left (by simp [hwatch, Watcher.burst, hpc])
      simp only [Watcher.toDeadline, hpc, ReaderPc.toDeadline]
      omega
    | _ => simp [Watcher.toDeadline, hpc, ReaderPc.toDeadline]
  | _ => simp [Watcher.toDeadline]

theorem step_watcher (h : run.Winding epoch) (he : run.step flag epoch act = some effect)
    (hact : ∀ elapsed, act ≠ .watch elapsed) : effect.epoch = epoch ∧
      (effect.run.watcher = run.watcher ∨ run.watcher = .unspawned) := by
  cases act with
  | main =>
    obtain ⟨next, hn, rfl⟩ := Option.map_eq_some_iff.mp he
    refine ⟨rfl, ?_⟩
    cases mainStep_cases hn with
    | spawned hp => exact Or.inr (h.unspawned (by rw [hp]; rfl))
    | _ => exact Or.inl rfl
  | build host =>
    cases hp : run.phase <;> simp only [step, hp, reduceCtorEq, Option.some.injEq] at he
    subst he
    refine ⟨rfl, Or.inl ?_⟩
    unfold buildStep
    split <;> rfl
  | write stream bytes =>
    simp only [step, Option.ite_none_right_eq_some, Option.some.injEq] at he
    obtain ⟨-, rfl⟩ := he
    refine ⟨rfl, Or.inl ?_⟩
    rcases guestWrite_cases run stream bytes with he | he | ⟨pipe, -, -, he⟩ | ⟨pipe, -, -, he⟩ <;>
      rw [he]
    · rfl
    · cases stream <;> rfl
    · cases stream <;> rfl
  | compute =>
    simp only [step, Option.ite_none_right_eq_some, Option.some.injEq] at he
    obtain ⟨-, rfl⟩ := he
    exact ⟨rfl, Or.inl rfl⟩
  | instantiated =>
    cases hp : run.phase <;> simp only [step, hp, reduceCtorEq, Option.some.injEq] at he
    subst he
    exact ⟨rfl, Or.inl rfl⟩
  | guestEnd guestEnd =>
    simp only [step, Option.ite_none_right_eq_some, Option.some.injEq] at he
    obtain ⟨-, rfl⟩ := he
    exact ⟨rfl, Or.inl rfl⟩
  | watch elapsed => exact absurd rfl (hact elapsed)

theorem watch_spawned {elapsed : Bool} (he : run.step flag epoch (.watch elapsed) = some effect) :
    run.watcher ≠ .unspawned ∧ effect.run.watcher ≠ .unspawned ∧ effect.run.phase = run.phase ∧
      effect.run.deadline = run.deadline ∧ epoch ≤ effect.epoch := by
  apply watch_elim (P := fun next now _ => run.watcher ≠ .unspawned ∧ next.watcher ≠ .unspawned ∧
    next.phase = run.phase ∧ next.deadline = run.deadline ∧ epoch ≤ now) he
  case watchdog =>
    intro pc ticks next hw hn
    refine ⟨by simp [hw], ?_, rfl, rfl, Nat.le_add_right _ _⟩
    rcases watchdogStep_kind hn with ⟨_, _, hnext⟩ | hnext <;> simp [hnext]
  case reader =>
    intro reader next hr hn
    obtain ⟨hphase, -, hdeadline⟩ := readerStep_caller hn
    refine ⟨by simp [hr], ?_, hphase, hdeadline, Nat.le_add_right _ _⟩
    cases hn <;> simp

theorem watch_waitsLeft {elapsed : Bool} (hcancelled : (run.cancellable && flag) = true)
    (he : run.step flag epoch (.watch elapsed) = some effect) :
    effect.run.watcher.waitsLeft + (if run.watcher.waiting then 1 else 0) ≤ run.watcher.waitsLeft ∨
      run.watcher.toDeadline run.epochTicks = 0 ∨ ∃ stdout stderr, effect.run.watcher = .exited stdout stderr := by
  cases hw : run.watcher with
  | unspawned => simp [step, hw] at he
  | exited => simp [step, hw] at he
  | reader reader =>
    simp only [step, hw, hcancelled, Option.some.injEq] at he
    subst he
    obtain ⟨pc, totalStdout, totalStderr, outEof, errEof, budgetClosed⟩ := reader
    cases pc with
    | drainStdout | drainStderr | budget =>
      left
      simp only [readerStep]
      split <;> simp [Watcher.waitsLeft, ReaderPc.waitsLeft, Watcher.waiting]
    | burst left =>
      cases left with
      | zero => exact Or.inr (Or.inl rfl)
      | succ left => exact Or.inl (by simp [readerStep, Watcher.waitsLeft, ReaderPc.waitsLeft, Watcher.waiting])
    | eof =>
      cases hboth : outEof && errEof <;>
        simp [readerStep, hboth, Watcher.waitsLeft, ReaderPc.waitsLeft, Watcher.waiting]
    | _ => exact Or.inl (by simp [readerStep, Watcher.waitsLeft, ReaderPc.waitsLeft, Watcher.waiting])
  | watchdog pc ticks =>
    simp only [step, hw, hcancelled] at he
    obtain ⟨next, hn, rfl⟩ := Option.map_eq_some_iff.mp he
    rcases watchdogStep_cases hn with ⟨-, rfl, rfl⟩ | ⟨rfl, -, rfl⟩ | ⟨left, rfl, rfl⟩ | ⟨rfl, -, rfl⟩ | ⟨rfl, -⟩
    · exact Or.inl (by simp [Watcher.waitsLeft, Watcher.waiting])
    · cases hn
    · exact Or.inl (by simp [Watcher.waitsLeft, Watcher.waiting])
    · exact Or.inl (by simp [Watcher.waitsLeft, Watcher.waiting])
    · exact Or.inr (Or.inr ⟨[], [], rfl⟩)

end WasiRun

def SoloAct.watches (_ : Solo) : SoloAct → Bool
  | .run (.watch _) => true
  | _ => false

def SoloAct.waits (s : Solo) (act : SoloAct) : Bool :=
  act.watches s && s.run.watcher.waiting && s.run.phase.armed && decide (s.epoch < s.run.deadline)

/-- A run whose own handle is set, on its way to the deadline: what it has used up and what its
watcher may still use up stay within a bound. -/
structure Cancelled (rank : Watcher → ℕ) (bound : ℕ) (request : CommandRequest) (used : ℕ) (s : Solo) : Prop where
  flag : (s.run.cancellable && s.flag) = true
  request : s.run.request = request
  inv : s.run.RunInv s.epoch
  winding : s.run.Winding s.epoch
  unspawned : s.run.watcher = .unspawned → used = 0
  approaching : s.run.phase.armed = true → s.run.deadline ≤ s.epoch ∨ rank s.run.watcher + used ≤ bound

section Account
variable {rank : Watcher → ℕ} {bound used k : ℕ} {request : CommandRequest} {s : Solo} {effect : Effect}

/-- A turn of the watcher may use something up, as long as what is left of its rank pays for
it. -/
theorem Cancelled.watch {elapsed : Bool} (h : Cancelled rank bound request used s)
    (he : s.run.step s.flag s.epoch (.watch elapsed) = some effect)
    (hturn : rank effect.run.watcher + k ≤ rank s.run.watcher ∨
      s.run.watcher.toDeadline s.run.epochTicks = 0 ∨ ∃ stdout stderr, effect.run.watcher = .exited stdout stderr)
    (events : List SessionEvent) :
    Cancelled rank bound request (used + k) ⟨effect.run, effect.epoch, s.flag, events⟩ := by
  obtain ⟨-, -, hrequest, hcancellable⟩ := WasiRun.step_params he
  obtain ⟨-, hspawned, hphase, hdeadline, hle⟩ := WasiRun.watch_spawned he
  have hinv := WasiRun.step_runInv h.inv he
  have hwinding := WasiRun.step_winding h.winding he
  refine ⟨?_, hrequest.trans h.request, hinv, hwinding, fun hu => absurd hu hspawned, ?_⟩
  · rw [hcancellable]
    exact h.flag
  · intro harmed
    dsimp only at harmed ⊢
    have hbefore : s.run.phase.armed = true := hphase ▸ harmed
    rw [hdeadline]
    rcases h.approaching hbefore with hreached | hbound
    · exact Or.inl (hreached.trans hle)
    · rcases hturn with hpaid | hspent | ⟨stdout, stderr, hexited⟩
      · exact Or.inr (by omega)
      · exact Or.inl ((WasiRun.spent_deadline h.winding h.inv hbefore hspent).trans hle)
      · exact Or.inl (hdeadline ▸ WasiRun.exited_deadline hwinding hinv harmed hexited)

theorem Cancelled.other {act : RunAct} (hrank : ∀ (run : WasiRun) epoch, run.Winding epoch → run.request = request →
      rank run.watcher ≤ bound) (h : Cancelled rank bound request used s)
    (he : s.run.step s.flag s.epoch act = some effect) (hact : ∀ elapsed, act ≠ .watch elapsed)
    (events : List SessionEvent) : Cancelled rank bound request used ⟨effect.run, effect.epoch, s.flag, events⟩ := by
  obtain ⟨-, -, hrequest, hcancellable⟩ := WasiRun.step_params he
  obtain ⟨hepoch, hwatcher⟩ := WasiRun.step_watcher h.winding he hact
  have hwinding := WasiRun.step_winding h.winding he
  have hzero : s.run.watcher = .unspawned → rank effect.run.watcher + used ≤ bound := by
    intro hu
    rw [h.unspawned hu]
    exact hrank _ _ hwinding (hrequest.trans h.request)
  refine ⟨?_, hrequest.trans h.request, WasiRun.step_runInv h.inv he, hwinding, ?_, ?_⟩
  · rw [hcancellable]
    exact h.flag
  · intro hu
    rcases hwatcher with hsame | hbefore
    · exact h.unspawned (hsame ▸ hu)
    · exact h.unspawned hbefore
  · intro harmed
    dsimp only at harmed ⊢
    rcases WasiRun.step_armed he harmed with ⟨hbefore, hdeadline⟩ | ⟨hbuild, -, -⟩
    · rw [hdeadline, hepoch]
      rcases hwatcher with hsame | hu
      · rw [hsame]
        exact h.approaching hbefore
      · exact Or.inr (hzero hu)
    · exact Or.inr (hzero (h.winding.unspawned (by rw [hbuild]; rfl)))

/-- An account is kept under every schedule if each turn of the watcher pays for what is counted
of it. -/
theorem Cancelled.step {a : SoloAct} {t : Solo} (hrank : ∀ (run : WasiRun) epoch, run.Winding epoch →
      run.request = request → rank run.watcher ≤ bound) (h : Cancelled rank bound request used s)
    (he : s.step a = some t)
    (hturn : ∀ elapsed effect, a = .run (.watch elapsed) →
      s.run.step s.flag s.epoch (.watch elapsed) = some effect →
      rank effect.run.watcher + k ≤ rank s.run.watcher ∨
        s.run.watcher.toDeadline s.run.epochTicks = 0 ∨ ∃ stdout stderr, effect.run.watcher = .exited stdout stderr)
    (hk : a.watches s = false → k = 0) : Cancelled rank bound request (used + k) t := by
  cases a with
  | run act =>
    obtain ⟨effect, heff, rfl⟩ := Option.map_eq_some_iff.mp he
    by_cases hwatch : ∃ elapsed, act = .watch elapsed
    · obtain ⟨elapsed, rfl⟩ := hwatch
      exact h.watch heff (hturn elapsed effect rfl heff) _
    · have hact : ∀ elapsed, act ≠ .watch elapsed := fun elapsed heq => hwatch ⟨elapsed, heq⟩
      have hzero : k = 0 := by
        refine hk ?_
        cases act <;> first | rfl | exact absurd rfl (hact _)
      rw [hzero]
      exact h.other hrank heff hact _
  | cancel =>
    cases he
    have hflag : s.run.cancellable = true := (Bool.and_eq_true_iff.mp h.flag).1
    rw [hk rfl]
    exact ⟨by simp [hflag], h.request, h.inv, h.winding, h.unspawned, h.approaching⟩
  | foreignTick =>
    cases he
    rw [hk rfl]
    refine ⟨h.flag, h.request, h.inv.mono (Nat.le_succ _), h.winding.mono (Nat.le_succ _), h.unspawned, ?_⟩
    exact fun harmed => (h.approaching harmed).imp_left (fun hle => Nat.le_succ_of_le hle)

end Account

section Solo
variable {path : RunPath} {component : Component} {request : CommandRequest} {cancellable : Bool}
  {epoch : ℕ} {flag : Bool} {s t : Solo}

theorem reachable_winding (h : Reachable (soloSystem path component request cancellable epoch flag) s) :
    s.run.Winding s.epoch :=
  solo_invariant (P := fun run epoch => run.Winding epoch) (fun _ _ _ _ _ hp he => WasiRun.step_winding hp he)
    (fun _ _ hp => hp.mono (by omega)) h (WasiRun.winding_start path component request cancellable epoch)

theorem Cancelled.begin {rank : Watcher → ℕ} {bound : ℕ}
    (hrank : ∀ (run : WasiRun) epoch, run.Winding epoch → run.request = request → rank run.watcher ≤ bound)
    (h : Reachable (soloSystem path component request true epoch flag) s) (hset : s.flag = true) :
    Cancelled rank bound request 0 s := by
  have hparams := solo_invariant (P := fun run _ => run.request = request ∧ run.cancellable = true)
    (fun _ _ _ _ _ hp he => by
      obtain ⟨-, -, hrequest, hcancellable⟩ := WasiRun.step_params he
      exact ⟨hrequest.trans hp.1, hcancellable.trans hp.2⟩) (fun _ _ hp => hp) h ⟨rfl, rfl⟩
  have hwinding := reachable_winding h
  exact ⟨by rw [hparams.2, hset]; rfl, hparams.1, reachable_runInv h, hwinding, fun _ => rfl,
    fun _ => Or.inr (hrank _ _ hwinding hparams.1)⟩

/-- Once its handle is set, a run comes to at most two more timed waits short of its deadline,
and after ten turns of its watcher more than its limits have ticks, whatever code of its guest
still executes is past the deadline. -/
theorem cancelled_promptly (h : Reachable (soloSystem path component request true epoch flag) s)
    (hset : s.flag = true) :
    (∀ waits t, Counted (soloSystem path component request true epoch flag) SoloAct.waits waits s t →
      waits ≤ 2) ∧
    ∀ turns t, Counted (soloSystem path component request true epoch flag) SoloAct.watches turns s t →
      request.grant.limits.epochTicks + 10 ≤ turns → t.run.guestExecuting → t.run.deadline ≤ t.epoch := by
  constructor
  · intro waits t hcounted
    have hrank : ∀ (run : WasiRun) epoch, run.Winding epoch → run.request = request → run.watcher.waitsLeft ≤ 2 :=
      fun run _ _ _ => run.watcher.waitsLeft_le
    refine (Counted.invariant (P := fun used s => Cancelled Watcher.waitsLeft 2 request used s ∧ used ≤ 2) ?_ ?_
      hcounted ⟨.begin hrank h hset, by omega⟩).2
    · rintro used s a t hk he ⟨hc, -⟩
      simp only [SoloAct.waits, Bool.and_eq_true, decide_eq_true_eq] at hk
      obtain ⟨⟨⟨hwatches, hwaiting⟩, harmed⟩, hearly⟩ := hk
      refine ⟨hc.step hrank he ?_ (by simp [hwatches]), ?_⟩
      · intro elapsed effect _ heff
        simpa [hwaiting] using WasiRun.watch_waitsLeft hc.flag heff
      · have hleft : 1 ≤ s.run.watcher.waitsLeft := waitsLeft_pos hwaiting
        have hbound := (hc.approaching harmed).resolve_left (by omega)
        omega
    · rintro used s a t hk he ⟨hc, hle⟩
      refine ⟨hc.step (k := 0) hrank he ?_ (fun _ => rfl), hle⟩
      intro elapsed effect _ heff
      rcases WasiRun.watch_waitsLeft hc.flag heff with hpaid | hspent
      · exact Or.inl (by omega)
      · exact Or.inr hspent
  · intro turns t hcounted hturns hg
    have hrank : ∀ (run : WasiRun) epoch, run.Winding epoch → run.request = request →
        run.watcher.toDeadline request.grant.limits.epochTicks ≤ request.grant.limits.epochTicks + 10 := by
      rintro run epoch hw rfl
      exact hw.toDeadline_le
    have hc : Cancelled (Watcher.toDeadline request.grant.limits.epochTicks)
        (request.grant.limits.epochTicks + 10) request turns t := by
      refine Counted.invariant (P := fun used s => Cancelled (Watcher.toDeadline request.grant.limits.epochTicks)
        (request.grant.limits.epochTicks + 10) request used s) ?_ ?_ hcounted (.begin hrank h hset)
      · intro used s a t hk he hc
        refine hc.step hrank he ?_ (by simp [hk])
        rintro elapsed effect - heff
        have hticks : s.run.epochTicks = request.grant.limits.epochTicks := by rw [WasiRun.epochTicks, hc.request]
        rw [← hticks]
        exact WasiRun.watch_toDeadline hc.flag heff
      · intro used s a t hk he hc
        refine hc.step (k := 0) hrank he ?_ (fun _ => rfl)
        rintro elapsed effect rfl -
        cases hk
    have harmed : t.run.phase.armed = true := by
      rcases WasiRun.guestExecuting_phase hg with hp | hp <;> rw [hp] <;> rfl
    have hticks : t.run.epochTicks = request.grant.limits.epochTicks := by rw [WasiRun.epochTicks, hc.request]
    rcases hc.approaching harmed with hreached | hbound
    · exact hreached
    · exact WasiRun.spent_deadline hc.winding hc.inv harmed (by rw [hticks]; omega)

end Solo

def streamingSystem : System Solo SoloAct :=
  soloSystem .events ⟨false⟩ (sampleRequest 1 .read oneSecond) true 0 false

theorem cancelled_guest_out_of_time : ∃ s t : Solo, s.epoch < s.run.deadline ∧
    Runs streamingSystem Free s t ∧ t.run.guestExecuting ∧ t.run.deadline ≤ t.epoch := by
  obtain ⟨s, hs, hset, hearly, hturns⟩ := streamingSystem.reachable_of_replay
    (fun s => s.flag = true ∧ s.epoch < s.run.deadline ∧
      (streamingSystem.replayCounting SoloAct.watches 0 s (List.replicate 20 (.run (.watch true)))).any
        (fun last => decide (last.1 = 20 ∧ last.2.run.guestExecuting)) = true)
    [.run .main, .run (.build sampleHost), .run .main, .run .instantiated, .cancel] (by decide)
  obtain ⟨⟨turns, t⟩, hreplay, hlast⟩ := (Option.any_eq_true _ _).mp hturns
  obtain ⟨rfl, hg⟩ : turns = 20 ∧ t.run.guestExecuting := of_decide_eq_true hlast
  have hcounted := streamingSystem.counted_of_replay SoloAct.watches (.refl s) hreplay
  exact ⟨s, t, hearly, hcounted.runs, hg,
    (cancelled_promptly hs hset).2 20 t hcounted (by decide) hg⟩

end FerrousRuntime.Runtime
