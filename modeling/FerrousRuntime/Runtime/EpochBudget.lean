import FerrousRuntime.Foundation.Tally
import FerrousRuntime.Runtime.DeadlineArithmetic
import Mathlib.Algebra.GroupWithZero.Nat
import Mathlib.Algebra.Order.BigOperators.Group.List

/-! # What capturing calls take from the epoch

The watchdog advances the engine's epoch once for every tick its run has, and once more that
often when it finds the handle set. So each capturing call has a known share of the counter,
and as long as the shares of all calls fit the word, the counter and every deadline armed on
it are exact. The streaming path's reader has no such share: it bursts on each of its turns.
-/
namespace FerrousRuntime.Runtime
open Capability Command Pipe Tally Transition

def Phase.beforeWatchdog : Phase → Bool
  | .lock | .build | .instantiate | .spawn => true
  | _ => false

namespace WasiRun
variable {run next : WasiRun} {flag cancelled : Bool} {epoch : ℕ} {act : RunAct} {effect : Effect}

def allowance (cancelled : Bool) (run : WasiRun) : ℕ :=
  run.epochTicks + if cancelled then run.epochTicks else 0

theorem epochTicks_le_allowance (cancelled : Bool) (run : WasiRun) :
    run.epochTicks ≤ run.allowance cancelled := Nat.le_add_right _ _

def reserve (cancelled : Bool) (run : WasiRun) : ℕ :=
  match run.watcher with
  | .unspawned => run.allowance cancelled
  | .watchdog (.burst left) _ => left
  | .watchdog _ ticks => run.allowance cancelled - ticks
  | _ => 0

/-- The watchdog is spawned once, and counts no tick beyond the run's last. -/
structure Timely (run : WasiRun) : Prop where
  path : run.path = .inner
  unspawned : run.phase.beforeWatchdog = true → run.watcher = .unspawned
  ticks : ∀ pc ticks, run.watcher = .watchdog pc ticks →
    ticks ≤ run.epochTicks ∧ (pc = .wait → ticks < run.epochTicks)
  reader : ∀ reader, run.watcher ≠ .reader reader

theorem timely_start (component : Component) (request : CommandRequest) (cancellable : Bool) :
    (start .inner component request cancellable).Timely := by
  constructor <;> simp [start]

theorem Timely.move (h : run.Timely) (hpath : next.path = run.path) (hrequest : next.request = run.request)
    (hwatcher : next.watcher = run.watcher)
    (hphase : next.phase.beforeWatchdog = true → run.phase.beforeWatchdog = true) : next.Timely := by
  refine ⟨hpath.trans h.path, fun hp => hwatcher.trans (h.unspawned (hphase hp)), ?_, ?_⟩
  · rw [hwatcher, epochTicks, hrequest]
    exact h.ticks
  · rw [hwatcher]
    exact h.reader

theorem stopGuest_timely (h : run.Timely) (guestEnd : GuestEnd) : (run.stopGuest guestEnd).Timely := by
  refine h.move rfl rfl rfl ?_
  cases guestEnd <;> simp [stopGuest, afterGuest, h.path, Phase.beforeWatchdog]

theorem mainStep_timely (h : run.Timely) (hn : MainSteps cancelled run next) : next.Timely := by
  cases hn with
  | spawned =>
    refine ⟨h.path, by simp [h.path, Phase.beforeWatchdog], ?_, ?_⟩
    · intro pc ticks hw
      simp only [spawned, h.path, Watcher.watchdog.injEq] at hw
      obtain ⟨rfl, rfl⟩ := hw
      exact ⟨Nat.zero_le _, by simp⟩
    · simp [spawned, h.path]
  | locked hp => exact h.move rfl rfl rfl (fun _ => by rw [hp]; rfl)
  | _ => exact h.move rfl rfl rfl (by simp [Phase.beforeWatchdog])

theorem watchdogStep_timely {elapsed : Bool} {pc : WatchdogPc} {ticks : ℕ} {turn : Watcher × ℕ}
    (h : run.Timely) (hw : run.watcher = .watchdog pc ticks)
    (hn : run.watchdogStep cancelled elapsed pc ticks = some turn) :
    ({ run with watcher := turn.1 } : WasiRun).Timely := by
  have hticks := h.ticks pc ticks hw
  refine ⟨h.path, ?_, ?_, ?_⟩
  · intro hp
    cases hw.symm.trans (h.unspawned hp)
  · intro pc' ticks' hw'
    change turn.1 = _ at hw'
    rcases watchdogStep_cases hn with ⟨-, -, rfl⟩ | ⟨-, hlt, rfl⟩ | ⟨_, rfl, rfl⟩ | ⟨rfl, -, rfl⟩ | ⟨rfl, -⟩
    · cases hw'
      exact ⟨hticks.1, by simp⟩
    · cases hw'
      exact ⟨hticks.1, fun _ => hlt⟩
    · cases hw'
      exact ⟨hticks.1, by simp⟩
    · cases hw'
      exact ⟨hticks.2 rfl, by simp⟩
    · cases hw'
  · intro reader hr
    rcases watchdogStep_kind hn with ⟨_, _, hnext⟩ | hnext <;> cases hnext.symm.trans hr

theorem step_timely (h : run.Timely) (he : run.step flag epoch act = some effect) : effect.run.Timely := by
  apply step_elim (P := fun run _ _ => run.Timely) he
  case main => exact fun next hn => mainStep_timely h hn
  case build =>
    intro host hp
    unfold buildStep
    split
    · exact h.move rfl rfl rfl (by simp [Phase.beforeWatchdog])
    · exact h.move rfl rfl rfl (fun _ => by rw [hp]; rfl)
  case write =>
    intro stream bytes _ _
    rcases guestWrite_cases run stream bytes with he | he | ⟨pipe, hp, -, -⟩ | ⟨pipe, -, -, he⟩
    · rwa [he]
    · exact he ▸ stopGuest_timely h _
    · cases h.path.symm.trans hp
    · rw [he]
      cases stream <;> exact h.move rfl rfl rfl id
  case compute => exact fun _ => h
  case instantiated => exact fun hp => h.move rfl rfl rfl (fun _ => by rw [hp]; rfl)
  case guestEnd => exact fun guestEnd _ => stopGuest_timely h guestEnd
  case watchdog => exact fun _ _ _ _ hw hn => watchdogStep_timely h hw hn
  case reader => exact fun _ reader _ hr _ => absurd hr (h.reader reader)

/-- The watchdog pays for each of its increments out of what is left. -/
theorem watchdogStep_reserve {elapsed : Bool} {pc : WatchdogPc} {ticks : ℕ} {turn : Watcher × ℕ}
    (h : run.Timely) (hw : run.watcher = .watchdog pc ticks) (hflag : flag = true → cancelled = true)
    (hn : run.watchdogStep flag elapsed pc ticks = some turn) :
    turn.2 + ({ run with watcher := turn.1 } : WasiRun).reserve cancelled ≤ run.reserve cancelled := by
  have hticks := h.ticks pc ticks hw
  have hallowance := run.epochTicks_le_allowance cancelled
  rcases watchdogStep_cases hn with ⟨hc, rfl, rfl⟩ | ⟨rfl, -, rfl⟩ | ⟨left, rfl, rfl⟩ | ⟨rfl, -, rfl⟩ | ⟨rfl, -⟩
  · -- the burst is the second share of a cancelled run
    have hdouble : run.allowance cancelled = run.epochTicks + run.epochTicks := by
      rw [allowance, if_pos (hflag hc)]
    simp only [reserve, hw]
    omega
  · simp only [reserve, hw, allowance, epochTicks]
    omega
  · simp only [reserve, hw]
    omega
  · have hlt := hticks.2 rfl
    simp only [reserve, hw]
    change 1 + (run.allowance cancelled - (ticks + 1)) ≤ run.allowance cancelled - ticks
    omega
  · simp [reserve]

theorem step_reserve (h : run.Timely) (hflag : (run.cancellable && flag) = true → cancelled = true)
    (he : run.step flag epoch act = some effect) :
    effect.epoch + effect.run.reserve cancelled ≤ epoch + run.reserve cancelled := by
  apply step_elim (P := fun next now _ => now + next.reserve cancelled ≤ epoch + run.reserve cancelled) he
  case main =>
    intro next hn
    cases hn with
    | spawned hp =>
      have hw := h.unspawned (by rw [hp]; rfl)
      simp only [reserve, hw, spawned, h.path, allowance, epochTicks]
      omega
    | _ => exact le_rfl
  case build =>
    intro host _
    unfold buildStep
    split <;> exact le_rfl
  case write =>
    intro stream bytes _ _
    rcases guestWrite_cases run stream bytes with he | he | ⟨pipe, -, -, he⟩ | ⟨pipe, -, -, he⟩ <;> rw [he]
    · exact le_rfl
    · cases stream <;> exact le_rfl
    · cases stream <;> exact le_rfl
  case compute => exact fun _ => le_rfl
  case instantiated => exact fun _ => le_rfl
  case guestEnd => exact fun _ _ => le_rfl
  case watchdog =>
    intro elapsed pc ticks turn hw hn
    have hpaid := watchdogStep_reserve h hw hflag hn
    omega
  case reader => exact fun _ reader _ hr _ => absurd hr (h.reader reader)

end WasiRun

namespace EngineRun

def allowance (flags : ℕ → Bool) (r : EngineRun) : ℕ := r.run.allowance (r.cancelled flags)

def reserve (flags : ℕ → Bool) (r : EngineRun) : ℕ := r.run.reserve (r.cancelled flags)

/-- Setting handles extends what is left by no more than the allowance. -/
theorem reserve_mono {flags flags' : ℕ → Bool} {r : EngineRun} (h : r.run.Timely)
    (hf : ∀ cell, flags cell = true → flags' cell = true) :
    r.reserve flags' + r.allowance flags ≤ r.reserve flags + r.allowance flags' := by
  have hmono : r.allowance flags ≤ r.allowance flags' := by
    unfold allowance WasiRun.allowance
    cases hc : r.cancelled flags with
    | false => simp
    | true => simp [cancelled_mono hc hf]
  cases hw : r.run.watcher with
  | unspawned =>
    simp only [reserve, WasiRun.reserve, hw, allowance]
    omega
  | watchdog pc ticks =>
    have hticks := (h.ticks pc ticks hw).1
    have hallowance := r.run.epochTicks_le_allowance (r.cancelled flags)
    cases pc with
    | burst left =>
      simp only [reserve, WasiRun.reserve, hw]
      omega
    | _ =>
      unfold allowance at hmono ⊢
      simp only [reserve, WasiRun.reserve, hw]
      omega
  | reader reader => exact absurd hw (h.reader reader)
  | exited stdout stderr =>
    simp only [reserve, WasiRun.reserve, hw]
    omega

end EngineRun

def Capturing (_ : WasiRuntime) : EngineAct → Prop
  | .call entry _ _ => entry.path = .inner
  | _ => True

instance (s : WasiRuntime) (a : EngineAct) : Decidable (Capturing s a) := by
  cases a <;> unfold Capturing <;> infer_instance

/-- The epoch, and what the calls may still add to it, is within what they were given. -/
structure WasiRuntime.WithinAllowance (epoch : ℕ) (s : WasiRuntime) : Prop where
  timely : ∀ r ∈ s.runs, r.run.Timely
  spent : s.epoch + (s.runs.map (EngineRun.reserve s.flags)).sum ≤
    epoch + (s.runs.map (EngineRun.allowance s.flags)).sum

section Runs
variable {epoch : ℕ} {s t : WasiRuntime}

theorem call_withinAllowance (h : s.WithinAllowance epoch) {entry : Entry} (component : Component)
    (request : CommandRequest) (hpath : entry.path = .inner) :
    ({ s with runs := s.runs ++ [.start entry component request] } : WasiRuntime).WithinAllowance epoch := by
  have hspent := h.spent
  have hstart : (EngineRun.start entry component request).run =
      .start .inner component request entry.cancel.isSome := by rw [EngineRun.start, hpath]
  have hwhole : (EngineRun.start entry component request).reserve s.flags =
      (EngineRun.start entry component request).allowance s.flags := rfl
  refine ⟨?_, ?_⟩
  · intro r hr
    rcases List.mem_append.mp hr with hr | hr
    · exact h.timely r hr
    · rw [List.mem_singleton.mp hr, hstart]
      exact WasiRun.timely_start component request _
  · simp only [List.map_append, List.sum_append, List.map_cons, List.map_nil, List.sum_singleton, hwhole]
    omega

theorem cancel_withinAllowance (h : s.WithinAllowance epoch) (cell : ℕ) :
    ({ s with flags := Function.update s.flags cell true } : WasiRuntime).WithinAllowance epoch := by
  have hspent := h.spent
  have hset : ∀ c, s.flags c = true → Function.update s.flags cell true c = true := by
    intro c hc
    by_cases hcell : c = cell <;> simp [hcell, hc]
  have hextended := List.sum_le_sum (fun r hr => EngineRun.reserve_mono (h.timely r hr) hset)
  rw [List.sum_map_add, List.sum_map_add] at hextended
  refine ⟨h.timely, ?_⟩
  dsimp only
  omega

theorem step_withinAllowance {a : EngineAct} (ha : Capturing s a) (he : s.step a = some t)
    (h : s.WithinAllowance epoch) : t.WithinAllowance epoch := by
  cases a with
  | call entry component request =>
    cases he
    exact call_withinAllowance h component request ha
  | cancel cell =>
    cases he
    exact cancel_withinAllowance h cell
  | run index act =>
    obtain ⟨r, hr, he⟩ := Option.bind_eq_some_iff.mp he
    split at he
    · cases he
    obtain ⟨effect, heff, rfl⟩ := Option.map_eq_some_iff.mp he
    have htimely := h.timely r (List.mem_of_getElem? hr)
    have hspent := h.spent
    have hpaid := WasiRun.step_reserve htimely (fun hc => (Bool.and_eq_true_iff.mp hc).2) heff
    have hsame : (r.advance s.epoch effect).allowance s.flags = r.allowance s.flags := by
      have hrequest : effect.run.request = r.run.request := (WasiRun.step_params heff).2.2.1
      change effect.run.allowance (r.cancelled s.flags) = r.run.allowance (r.cancelled s.flags)
      rw [WasiRun.allowance, WasiRun.allowance, WasiRun.epochTicks, WasiRun.epochTicks, hrequest]
    obtain ⟨others, hsum, hset⟩ := exists_frame (EngineRun.reserve s.flags) hr
    obtain ⟨others', hsum', hset'⟩ := exists_frame (EngineRun.allowance s.flags) hr
    refine ⟨?_, ?_⟩
    · intro r' hr'
      rcases List.mem_or_eq_of_mem_set hr' with hr' | rfl
      · exact h.timely r' hr'
      · exact WasiRun.step_timely htimely heff
    · rw [hsum, hsum'] at hspent
      dsimp only
      rw [hset, hset', hsame]
      change effect.epoch + (effect.run.reserve (r.cancelled s.flags) + others) ≤ _
      change s.epoch + (r.run.reserve (r.cancelled s.flags) + others) ≤ _ at hspent
      omega

theorem runs_withinAllowance (h : Runs (engineSystem epoch) Capturing (engineSystem epoch).init s) :
    s.WithinAllowance epoch :=
  Runs.invariant (fun _ _ _ ha he hp => step_withinAllowance ha he hp) h
    ⟨by simp [engineSystem, WasiRuntime.new], by simp [engineSystem, WasiRuntime.new]⟩

theorem build_fits (h : s.WithinAllowance epoch) {index : ℕ} {r : EngineRun} {host : HostView}
    (hr : s.runs[index]? = some r) (he : s.step (.run index (.build host)) = some t) :
    s.epoch + r.run.epochTicks ≤ epoch + (s.runs.map (EngineRun.allowance s.flags)).sum := by
  have hspent := h.spent
  have hbuild : r.run.phase = .build := by
    obtain ⟨r', hr', he⟩ := Option.bind_eq_some_iff.mp he
    cases hr.symm.trans hr'
    split at he
    · cases he
    obtain ⟨effect, heff, -⟩ := Option.map_eq_some_iff.mp he
    cases hp : r.run.phase with
    | build => rfl
    | _ => simp [WasiRun.step, hp] at heff
  have hw := (h.timely r (List.mem_of_getElem? hr)).unspawned (by rw [hbuild]; rfl)
  have hwhole : r.run.epochTicks ≤ r.reserve s.flags := by
    unfold EngineRun.reserve WasiRun.reserve
    rw [hw]
    exact r.run.epochTicks_le_allowance _
  obtain ⟨others, hsum, -⟩ := exists_frame (EngineRun.reserve s.flags) hr
  omega

/-- Capturing calls advance the epoch by no more than their timeouts in ticks, counted twice
for a cancelled one. As long as that fits the engine's word, its counter is exact, and so is
the deadline of every call. -/
theorem capturing_calls_keep_the_epoch
    (h : Runs (engineSystem epoch) Capturing (engineSystem epoch).init s) :
    s.epoch ≤ epoch + (s.runs.map (EngineRun.allowance s.flags)).sum ∧
      (epoch + (s.runs.map (EngineRun.allowance s.flags)).sum ≤ u64Max →
        s.currentEpoch.toNat = s.epoch ∧
        ∀ index r host store t, s.runs[index]? = some r → s.step (.run index (.build host)) = some t →
          buildStore host r.run.request = .ok store →
            ArmsExactly epoch index s t r.run.request.grant.limits (armedDeadline s store)) := by
  have hwithin := runs_withinAllowance h
  have hspent := hwithin.spent
  refine ⟨by omega, fun hfits => ?_⟩
  have hcounter : s.currentEpoch.toNat = s.epoch := by
    rw [WasiRuntime.currentEpoch, UInt64.toNat_ofNat', Nat.mod_eq_of_lt]
    unfold u64Max at hfits
    omega
  refine ⟨hcounter, ?_⟩
  intro index r host store t hr he hb
  have hroom := build_fits hwithin hr he
  refine armsExactly_of_fits h.free hr he hb ?_
  rw [hcounter, max_comm, Nat.mul_comm]
  exact hroom.trans hfits

/-- The first of two calls is cancelled and spends its burst before the second one builds. -/
theorem cancelled_call_spends_its_share : ∃ s : WasiRuntime, s.epoch = 10 ∧
    (s.runs.map (EngineRun.allowance s.flags)).sum = 30 ∧
    s.epoch ≤ 0 + (s.runs.map (EngineRun.allowance s.flags)).sum ∧ s.currentEpoch.toNat = s.epoch := by
  obtain ⟨s, hs, hepoch, hsum⟩ := (engineSystem 0).exists_of_replay Capturing
    (fun s => s.epoch = 10 ∧ (s.runs.map (EngineRun.allowance s.flags)).sum = 30)
    (engineSystem 0).init cancelledThenNext (by decide)
  have hkept := capturing_calls_keep_the_epoch hs
  exact ⟨s, hepoch, hsum, hkept.1, (hkept.2 (by rw [hsum]; decide)).1⟩

end Runs

end FerrousRuntime.Runtime
