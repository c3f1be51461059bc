import FerrousRuntime.Runtime.PathAgreement

/-! # The result of a run

Once the guest has ended, the calling thread lets its watcher leave and joins it, so the run
comes to its result whatever the watcher was doing. With the simulation, a run on one path
tells the result of every run on the other.
-/
namespace FerrousRuntime.Runtime
open Capability Command Pipe Transition

/-- The turns the reader has left in its pass, once both ends of stream are marked. -/
def ReaderPc.remaining : ReaderPc → ℕ
  | .drainStdout => 10
  | .sendStdout _ => 9
  | .drainStderr => 8
  | .sendStderr _ => 7
  | .budget => 6
  | .closeStdout => 5
  | .closeStderr => 4
  | .cancelled => 3
  | .burst left => left + 2
  | .tick => 2
  | .eof => 1

namespace Reader

def missesEof (reader : Reader) : Bool :=
  match reader.pc with
  | .drainStdout => false
  | .sendStdout _ | .drainStderr => !reader.outEof
  | _ => !(reader.outEof && reader.errEof)

def remaining (reader : Reader) : ℕ := reader.pc.remaining + if reader.missesEof then 10 else 0

end Reader

def Watcher.remaining : Watcher → ℕ
  | .unspawned | .exited _ _ => 0
  | .watchdog .wait _ => 1
  | .watchdog .check _ => 2
  | .watchdog (.burst left) _ => left + 1
  | .reader r => r.remaining

namespace WasiRun
variable {run : WasiRun}

theorem readerStep_remaining (reader : Reader) (elapsed : Bool) (hout : run.stdout.state.eof = true)
    (herr : run.stderr.state.eof = true) :
    (run.readerStep false elapsed reader).1.watcher.remaining < reader.remaining := by
  obtain ⟨pc, totalStdout, totalStderr, outEof, errEof, budgetClosed⟩ := reader
  cases pc with
  | drainStdout =>
    simp only [readerStep, StreamOutputPipe.waitAndDrain, hout]
    split <;> simp [Watcher.remaining, Reader.remaining, Reader.missesEof, ReaderPc.remaining]
  | drainStderr =>
    simp only [readerStep, StreamOutputPipe.waitAndDrain, herr]
    split <;> simp [Watcher.remaining, Reader.remaining, Reader.missesEof, ReaderPc.remaining]
  | budget =>
    simp only [readerStep]
    split <;> simp [Watcher.remaining, Reader.remaining, Reader.missesEof, ReaderPc.remaining]
  | burst left =>
    cases left <;> simp [readerStep, Watcher.remaining, Reader.remaining, Reader.missesEof, ReaderPc.remaining]
  | eof =>
    cases hboth : outEof && errEof <;>
      simp [readerStep, hboth, Watcher.remaining, Reader.remaining, Reader.missesEof, ReaderPc.remaining]
  | _ => simp [readerStep, Watcher.remaining, Reader.remaining, Reader.missesEof, ReaderPc.remaining]

theorem watchdogStep_remaining (pc : WatchdogPc) (ticks : ℕ) (elapsed : Bool) (hstop : run.stopSent = true) :
    ∃ next, run.watchdogStep false elapsed pc ticks = some next ∧
      next.1.remaining < (Watcher.watchdog pc ticks).remaining := by
  cases pc with
  | check =>
    by_cases hticks : ticks ≥ run.epochTicks
    · exact ⟨(.exited [] [], 0), by simp [watchdogStep, hticks], by simp [Watcher.remaining]⟩
    · exact ⟨(.watchdog .wait ticks, 0), by simp [watchdogStep, hticks], by simp [Watcher.remaining]⟩
  | burst left => cases left <;> exact ⟨_, rfl, by simp [Watcher.remaining]⟩
  | wait =>
    refine ⟨(.exited [] [], 0), ?_, by simp [Watcher.remaining]⟩
    simp only [watchdogStep, hstop, if_true]
    split <;> rfl

end WasiRun

def Phase.toGuest : Phase → ℕ
  | .lock => 3
  | .build => 2
  | .spawn => 1
  | _ => 0

def Phase.toResult : Phase → ℕ
  | .eofStdout _ => 4
  | .eofStderr _ | .stop _ => 3
  | .join _ => 2
  | .classify _ => 1
  | _ => 0

variable {G : Type*} {guest : Guest G} {host : HostView} {path : RunPath} {component : Component}
  {request : CommandRequest} {cancellable : Bool} {epoch n : ℕ} {store : Store} {s t : Guided G}
  {r f : Reference G}

theorem main_step (guest : Guest G) (host : HostView) {next : WasiRun} (hflag : s.solo.flag = false)
    (hn : s.solo.run.mainStep false = some next) :
    s.step guest host .main = some ⟨{ s.solo with run := next }, s.guest⟩ := by
  simp [Guided.step, Guided.act, Solo.step, WasiRun.step, hflag, hn]

theorem guest_enabled (host : HostView) {r' : Reference G} (h : Mirrors s r)
    (hphase : s.solo.run.phase = .instantiate ∨ s.solo.run.phase = .call)
    (he : r.step guest s.solo.run.component.hasStart = some r') : ∃ t, s.step guest host .guest = some t := by
  have hstage : s.solo.run.phase = .instantiate ∧ r.stage = .instantiating ∨
      s.solo.run.phase = .call ∧ r.stage = .calling := by
    have htracks := h.phase
    rcases hphase with hp | hp <;> rw [hp] at htracks
    · exact Or.inl ⟨hp, htracks⟩
    · exact Or.inr ⟨hp, htracks⟩
  have hexecutes : r.stage.executes s.solo.run.component.hasStart = true → s.solo.run.guestExecuting := by
    intro hx
    unfold WasiRun.guestExecuting
    rcases hstage with ⟨hp, hstage⟩ | ⟨hp, hstage⟩ <;> rw [hp]
    · simpa [hstage, GuestStage.executes] using hx
    · trivial
  unfold Reference.step at he
  rw [← h.guest] at he
  cases hcall : guest.next s.guest with
  | compute next =>
    simp only [hcall, Option.ite_none_right_eq_some] at he
    simp [Guided.step, Guided.act, Guided.guestAct, hcall, Solo.step, WasiRun.step, hexecutes he.1]
  | checkWrite stream resume =>
    simp only [hcall, Option.ite_none_right_eq_some] at he
    simp [Guided.step, Guided.act, Guided.guestAct, hcall, Solo.step, WasiRun.step, hexecutes he.1]
  | write stream bytes resume =>
    simp only [hcall, Option.ite_none_right_eq_some] at he
    have hg := hexecutes he.1
    simp only [Guided.step, Guided.act, Guided.guestAct, hcall]
    split <;> simp [Solo.step, WasiRun.step, hg]
  | instantiated next =>
    simp only [hcall] at he
    rcases hstage with ⟨hp, hstage⟩ | ⟨hp, hstage⟩
    · simp [Guided.step, Guided.act, Guided.guestAct, hcall, Solo.step, WasiRun.step, hp]
    · simp [hstage] at he
  | finish guestEnd =>
    simp only [hcall, Option.ite_none_right_eq_some] at he
    have hun := guest.uninterrupted _ _ hcall
    have hc : s.solo.run.canEnd s.solo.epoch guestEnd = true := by
      rcases hstage with ⟨hp, hstage⟩ | ⟨hp, hstage⟩ <;> rw [hstage] at he <;> unfold WasiRun.canEnd
      · cases guestEnd with
        | notInstantiated error => cases error <;> simp_all [GuestEnd.interrupted]
        | _ => cases he.1
      · cases guestEnd with
        | notInstantiated error => cases he.1
        | trap error => cases error <;> simp_all [GuestEnd.interrupted]
        | _ => simp [hp]
    simp [Guided.step, Guided.act, Guided.guestAct, hcall, Solo.step, WasiRun.step, hc]

theorem main_advances (guest : Guest G) (hu : Underway component request s.solo.run)
    (hflag : s.solo.flag = false) (hb : buildStore host request = .ok store)
    (hphase : s.solo.run.phase = .lock ∨ s.solo.run.phase = .build ∨ s.solo.run.phase = .spawn) :
    ∃ a t, Guided.Calm s a ∧ a ≠ .guest ∧ s.step guest host a = some t ∧
      t.solo.run.phase.toGuest < s.solo.run.phase.toGuest := by
  rcases hphase with hp | hp | hp
  · have hn : s.solo.run.mainStep false = some { s.solo.run with phase := .build } := by
      simp only [WasiRun.mainStep, hp]
    exact ⟨.main, _, by simp [Guided.Calm], by simp, main_step guest host hflag hn, by simp [hp, Phase.toGuest]⟩
  · have he : s.step guest host .build =
        some ⟨{ s.solo with run := s.solo.run.buildStep s.solo.epoch host }, s.guest⟩ := by
      simp [Guided.step, Guided.act, Solo.step, WasiRun.step, hp]
    refine ⟨.build, _, by simp [Guided.Calm], by simp, he, ?_⟩
    simp only [WasiRun.buildStep, hu.request, hb, hp]
    cases s.solo.run.path <;> simp [Phase.toGuest]
  · have hn : s.solo.run.mainStep false = some { s.solo.run with
        watcher := WasiRun.spawned s.solo.run.path
        phase := if s.solo.run.path = .events then .instantiate else .call } := by
      simp only [WasiRun.mainStep, hp]
    refine ⟨.main, _, by simp [Guided.Calm], by simp, main_step guest host hflag hn, ?_⟩
    simp only [hp]
    cases s.solo.run.path <;> simp [Phase.toGuest]

theorem guest_advances (hu : Underway component request s.solo.run)
    (hflag : s.solo.flag = false) (hopen : s.solo.run.Unclosed) (hb : buildStore host request = .ok store)
    (hm : Mirrors s r) (hn : Settles (Reference.step guest component.hasStart) n r f) :
    r = f ∨ ∃ m r' a t, Settles (Reference.step guest component.hasStart) m r' f ∧ Guided.Calm s a ∧
      s.step guest host a = some t ∧ Mirrors t r' ∧
      4 * m + t.solo.run.phase.toGuest < 4 * n + s.solo.run.phase.toGuest := by
  cases hn with
  | rest => exact Or.inl rfl
  | @step m _ r' _ hr' hrest =>
    right
    have htracks := hm.phase
    have hphase : (s.solo.run.phase = .lock ∨ s.solo.run.phase = .build ∨ s.solo.run.phase = .spawn) ∨
        s.solo.run.phase = .instantiate ∨ s.solo.run.phase = .call := by
      -- an ended reference has no next step
      have hnot : ∀ guestEnd, r.stage ≠ .ended guestEnd := by
        intro guestEnd hstage
        cases (Reference.step_ended hstage).symm.trans hr'
      cases hp : s.solo.run.phase <;> rw [hp] at htracks <;> simp
      case returned =>
        obtain ⟨guestEnd, hstage, -⟩ := htracks
        exact hnot guestEnd hstage
      case unwound => exact htracks
      all_goals exact hnot _ htracks
    rcases hphase with hp | hp
    · obtain ⟨a, t, ha, hne, he, hlt⟩ := main_advances guest hu hflag hb hp
      exact ⟨m + 1, r, a, t, .step hr' hrest, ha, he, own_mirrors hu hflag hb hm ha hne he, by omega⟩
    · obtain ⟨t, ht⟩ := guest_enabled host hm hp (hu.component ▸ hr')
      obtain ⟨r'', hr'', hmt⟩ := guest_mirrors hopen hm ht
      rw [hu.component] at hr''
      cases hr'.symm.trans hr''
      have hle : t.solo.run.phase.toGuest ≤ 3 := by
        cases t.solo.run.phase <;> simp [Phase.toGuest]
      exact ⟨m, _, .guest, t, hrest, by simp [Guided.Calm], ht, hmt, by omega⟩

/-- What the calling thread needs of its watcher at the join, the watcher does. -/
theorem watcher_advances (guest : Guest G) (host : HostView) {guestEnd : GuestEnd}
    (hu : Underway component request s.solo.run) (hflag : s.solo.flag = false)
    (hp : s.solo.run.phase = .join guestEnd)
    (hw : ∀ stdout stderr, s.solo.run.watcher ≠ .exited stdout stderr) :
    ∃ t, s.step guest host (.watch false) = some t ∧ t.solo.run.phase = .join guestEnd ∧
      t.solo.run.watcher.remaining < s.solo.run.watcher.remaining := by
  have hclosing := hu.closing
  simp only [WasiRun.Closing, hp] at hclosing
  obtain ⟨hspawned, hevents, hinner⟩ := hclosing
  cases hwatch : s.solo.run.watcher with
  | unspawned => exact absurd hwatch hspawned
  | exited stdout stderr => exact absurd hwatch (hw stdout stderr)
  | watchdog pc ticks =>
    have hpath : s.solo.run.path = .inner := by
      cases hpath : s.solo.run.path with
      | inner => rfl
      | events => exact absurd hwatch ((hu.collects hpath).reads pc ticks)
    obtain ⟨next, hn, hlt⟩ := WasiRun.watchdogStep_remaining pc ticks false (hinner hpath)
    have he : s.step guest host (.watch false) = some ⟨{ s.solo with
        run := { s.solo.run with watcher := next.1 }, epoch := s.solo.epoch + next.2 }, s.guest⟩ := by
      simp [Guided.step, Guided.act, Solo.step, WasiRun.step, hwatch, hflag, hn]
    exact ⟨_, he, hp, hlt⟩
  | reader reader =>
    have hpath : s.solo.run.path = .events := by
      cases hpath : s.solo.run.path with
      | inner => exact absurd hwatch (hu.capturing hpath reader)
      | events => rfl
    have hlt := WasiRun.readerStep_remaining reader false (hevents hpath).1 (hevents hpath).2
    have he : s.solo.run.step s.solo.flag s.solo.epoch (.watch false) = some
        ⟨(s.solo.run.readerStep false false reader).1,
          s.solo.epoch + (s.solo.run.readerStep false false reader).2.1,
          (s.solo.run.readerStep false false reader).2.2⟩ := by
      simp [WasiRun.step, hwatch, hflag]
    refine ⟨⟨_, s.guest⟩, Option.map_eq_some_iff.mpr ⟨_, Option.map_eq_some_iff.mpr ⟨_, he, rfl⟩, rfl⟩, ?_, hlt⟩
    exact (WasiRun.watch_phase he).2.trans hp

theorem Reference.Tracks.closing {guestEnd : GuestEnd} {phase : Phase} (h : r.Tracks path phase)
    (hf : r.stage = .ended guestEnd) : phase = .returned (r.result guestEnd) ∨ 0 < phase.toResult := by
  cases phase with
  | returned result =>
    obtain ⟨other, hstage, rfl⟩ := h
    cases hstage.symm.trans hf
    exact Or.inl rfl
  | unwound => exact absurd h id
  | spawn => cases path <;> simp [Reference.Tracks, hf] at h
  | lock | build | instantiate | call => cases h.symm.trans hf
  | eofStdout | eofStderr | stop | join | classify => exact Or.inr (by simp [Phase.toResult])

theorem WasiRun.mainStep_toResult (run : WasiRun) (h : 0 < run.phase.toResult)
    (hjoin : ∀ guestEnd, run.phase = .join guestEnd → ∃ stdout stderr, run.watcher = .exited stdout stderr) :
    ∃ next, run.mainStep false = some next ∧ next.watcher = run.watcher ∧
      next.phase.toResult < run.phase.toResult := by
  unfold mainStep
  cases hp : run.phase with
  | eofStdout guestEnd =>
    exact ⟨{ run with stdout := run.stdout.setEof, phase := .eofStderr guestEnd }, rfl, rfl,
      by simp [Phase.toResult]⟩
  | eofStderr guestEnd =>
    exact ⟨{ run with stderr := run.stderr.setEof, phase := .join guestEnd }, rfl, rfl,
      by simp [Phase.toResult]⟩
  | stop guestEnd =>
    exact ⟨{ run with stopSent := true, phase := .join guestEnd }, rfl, rfl, by simp [Phase.toResult]⟩
  | join guestEnd =>
    obtain ⟨stdout, stderr, hx⟩ := hjoin guestEnd hp
    refine ⟨{ run with phase := .classify guestEnd }, ?_, rfl, by simp [Phase.toResult]⟩
    simp only [hx]
  | classify guestEnd =>
    exact ⟨{ run with phase := .returned (run.result false guestEnd) }, rfl, rfl, by simp [Phase.toResult]⟩
  | _ => simp [hp, Phase.toResult] at h

theorem result_advances (guest : Guest G) (host : HostView) {guestEnd : GuestEnd}
    (hu : Underway component request s.solo.run) (hflag : s.solo.flag = false) (hm : Mirrors s f)
    (hf : f.stage = .ended guestEnd) :
    s.solo.run.phase = .returned (f.result guestEnd) ∨ ∃ a t, Guided.Calm s a ∧ a ≠ .guest ∧
      s.step guest host a = some t ∧ t.solo.run.phase.toResult + t.solo.run.watcher.remaining <
        s.solo.run.phase.toResult + s.solo.run.watcher.remaining := by
  rcases hm.phase.closing hf with hreturned | hpos
  · exact Or.inl hreturned
  · right
    by_cases hwait : ∃ guestEnd, s.solo.run.phase = .join guestEnd ∧
        ∀ stdout stderr, s.solo.run.watcher ≠ .exited stdout stderr
    · obtain ⟨guestEnd, hp, hw⟩ := hwait
      obtain ⟨t, he, hpt, hlt⟩ := watcher_advances guest host hu hflag hp hw
      refine ⟨.watch false, t, by simp [Guided.Calm], by simp, he, ?_⟩
      rw [hp, hpt]
      omega
    · obtain ⟨next, hn, hw, hlt⟩ := s.solo.run.mainStep_toResult hpos (by
        intro guestEnd hp
        by_contra hno
        exact hwait ⟨guestEnd, hp, fun stdout stderr hx => hno ⟨stdout, stderr, hx⟩⟩)
      refine ⟨.main, _, by simp [Guided.Calm], by simp, main_step guest host hflag hn, ?_⟩
      dsimp only
      rw [hw]
      omega

section Runs
variable {guestEnd : GuestEnd}

/-- Every calm run of a guest that settles goes on to the guest's result. -/
theorem returns_settled (hb : buildStore host request = .ok store)
    (hstart : Settles (Reference.step guest component.hasStart) n (.start guest request) f)
    (hwithin : f.acceptedBytes ≤ request.grant.limits.maxOutputBytes) (hf : f.stage = .ended guestEnd)
    (h : Runs (guidedSystem guest host path component request cancellable epoch) Guided.Calm
      (guidedSystem guest host path component request cancellable epoch).init s) :
    ∃ u, Runs (guidedSystem guest host path component request cancellable epoch) Guided.Calm s u ∧
      u.solo.run.phase = .returned (f.result guestEnd) := by
  have hsettles : ∀ s, Runs (guidedSystem guest host path component request cancellable epoch) Guided.Calm
      (guidedSystem guest host path component request cancellable epoch).init s →
      Mirrored (fun r => ∃ n, Settles (Reference.step guest component.hasStart) n r f) s :=
    fun s h => run_settles hb hstart hwithin h
  -- first to where the reference settles
  have hends : ∃ u, Runs (guidedSystem guest host path component request cancellable epoch) Guided.Calm s u ∧
      Mirrors u f := by
    obtain ⟨r, ⟨k, hk⟩, hm⟩ := (hsettles s h).mirrors
    refine Runs.progress (P := fun rank s => ∃ k r,
      Runs (guidedSystem guest host path component request cancellable epoch) Guided.Calm
        (guidedSystem guest host path component request cancellable epoch).init s ∧
      Settles (Reference.step guest component.hasStart) k r f ∧ Mirrors s r ∧
      rank = 4 * k + s.solo.run.phase.toGuest) ?_ ⟨k, r, h, hk, hm, rfl⟩
    rintro rank s ⟨k, r, hs, hk, hm, rfl⟩
    have hc := hsettles s hs
    rcases guest_advances (underway hs.free) hc.flag hc.unclosed hb hm hk with
      rfl | ⟨m, r', a, t, hm', ha, he, hmt, hlt⟩
    · exact Or.inl hm
    · exact Or.inr ⟨_, hlt, a, t, ha, he, m, r', hs.step ha he, hm', hmt, rfl⟩
  obtain ⟨u, hu, hm⟩ := hends
  -- then to the result
  have hresult : ∃ v, Runs (guidedSystem guest host path component request cancellable epoch) Guided.Calm u v ∧
      v.solo.run.phase = .returned (f.result guestEnd) := by
    refine Runs.progress (P := fun rank s =>
      Runs (guidedSystem guest host path component request cancellable epoch) Guided.Calm
        (guidedSystem guest host path component request cancellable epoch).init s ∧ Mirrors s f ∧
      rank = s.solo.run.phase.toResult + s.solo.run.watcher.remaining) ?_ ⟨h.trans hu, hm, rfl⟩
    rintro rank s ⟨hs, hm, rfl⟩
    have hc := hsettles s hs
    rcases result_advances guest host (underway hs.free) hc.flag hm hf with
      hreturned | ⟨a, t, ha, hne, he, hlt⟩
    · exact Or.inl hreturned
    · exact Or.inr ⟨_, hlt, a, t, ha, he, hs.step ha he,
        own_mirrors (underway hs.free) hc.flag hb hm ha hne he, rfl⟩
  obtain ⟨v, hv, hreturned⟩ := hresult
  exact ⟨v, hu.trans hv, hreturned⟩

def Rejected (error : RuntimeError) (phase : Phase) : Prop :=
  phase = .lock ∨ phase = .build ∨ phase = .returned (.error error)

theorem guest_phase (he : s.step guest host .guest = some t) :
    s.solo.run.phase = .instantiate ∨ s.solo.run.phase = .call := by
  obtain ⟨solo, hn, -⟩ := Option.map_eq_some_iff.mp he
  obtain ⟨effect, heff, -⟩ := Option.map_eq_some_iff.mp hn
  cases hcall : guest.next s.guest with
  | compute | checkWrite =>
    simp only [Guided.guestAct, hcall, WasiRun.step, Option.ite_none_right_eq_some] at heff
    exact WasiRun.guestExecuting_phase heff.1
  | write stream bytes resume =>
    simp only [Guided.guestAct, hcall] at heff
    split at heff <;> simp only [WasiRun.step, Option.ite_none_right_eq_some] at heff <;>
      exact WasiRun.guestExecuting_phase heff.1
  | instantiated =>
    simp only [Guided.guestAct, hcall] at heff
    cases hp : s.solo.run.phase <;> simp only [WasiRun.step, hp, reduceCtorEq] at heff
    exact Or.inl rfl
  | finish guestEnd =>
    simp only [Guided.guestAct, hcall, WasiRun.step, Option.ite_none_right_eq_some] at heff
    exact (WasiRun.canEnd_phase heff.1).elim Or.inr (fun h => Or.inl h.1)

theorem step_rejected {error : RuntimeError} {a : GuidedAct} (hu : Underway component request s.solo.run)
    (hb : buildStore host request = .error error) (h : Rejected error s.solo.run.phase)
    (ha : Guided.Calm s a) (he : s.step guest host a = some t) : Rejected error t.solo.run.phase := by
  obtain ⟨solo, hn, rfl⟩ := Option.map_eq_some_iff.mp he
  cases a with
  | main =>
    obtain ⟨effect, heff, rfl⟩ := Option.map_eq_some_iff.mp hn
    obtain ⟨next, hnext, rfl⟩ := Option.map_eq_some_iff.mp heff
    rcases h with hp | hp | hp <;> simp only [WasiRun.mainStep, hp, reduceCtorEq, Option.some.injEq] at hnext
    subst hnext
    exact Or.inr (Or.inl rfl)
  | build =>
    obtain ⟨effect, heff, rfl⟩ := Option.map_eq_some_iff.mp hn
    cases hp : s.solo.run.phase <;> simp only [WasiRun.step, hp, reduceCtorEq, Option.some.injEq] at heff
    subst heff
    simp only [WasiRun.buildStep, hu.request, hb]
    exact Or.inr (Or.inr rfl)
  | guest =>
    have hp := guest_phase he
    rcases h with h | h | h <;> simp [h] at hp
  | interrupt => exact absurd rfl ha.2
  | watch elapsed =>
    obtain ⟨effect, heff, rfl⟩ := Option.map_eq_some_iff.mp hn
    rw [(WasiRun.watch_phase heff).2]
    exact h
  | cancel => exact absurd rfl ha.1
  | foreignTick =>
    cases hn
    exact h

theorem run_rejected {error : RuntimeError} (hb : buildStore host request = .error error)
    (h : Runs (guidedSystem guest host path component request cancellable epoch) Guided.Calm
      (guidedSystem guest host path component request cancellable epoch).init s) :
    Rejected error s.solo.run.phase :=
  Runs.invariant_of_reachable (P := fun (s : Guided G) => Rejected error s.solo.run.phase)
    (fun _ _ _ hs ha he hp => step_rejected (underway hs) hb hp ha he) h (.refl _) (Or.inl rfl)

theorem returns_rejected {error : RuntimeError} (hb : buildStore host request = .error error)
    (h : Runs (guidedSystem guest host path component request cancellable epoch) Guided.Calm
      (guidedSystem guest host path component request cancellable epoch).init s) :
    ∃ u, Runs (guidedSystem guest host path component request cancellable epoch) Guided.Calm s u ∧
      u.solo.run.phase = .returned (.error error) := by
  have hbuild : ∀ s, Runs (guidedSystem guest host path component request cancellable epoch) Guided.Calm
      (guidedSystem guest host path component request cancellable epoch).init s → s.solo.run.phase = .build →
      ∃ u, Runs (guidedSystem guest host path component request cancellable epoch) Guided.Calm s u ∧
        u.solo.run.phase = .returned (.error error) := by
    intro s hs hp
    have he : s.step guest host .build =
        some ⟨{ s.solo with run := s.solo.run.buildStep s.solo.epoch host }, s.guest⟩ := by
      simp [Guided.step, Guided.act, Solo.step, WasiRun.step, hp]
    refine ⟨_, (Runs.refl s).step (by simp [Guided.Calm]) he, ?_⟩
    simp only [WasiRun.buildStep, (underway hs.free).request, hb]
  rcases run_rejected hb h with hp | hp | hp
  · have hflag : s.solo.flag = false :=
      Runs.invariant (P := fun (s : Guided G) => s.solo.flag = false)
        (fun _ _ _ ha he hp => step_flag hp ha he) h rfl
    have hn : s.solo.run.mainStep false = some { s.solo.run with phase := .build } := by
      simp only [WasiRun.mainStep, hp]
    have he := main_step guest host hflag hn
    have hmain : Runs (guidedSystem guest host path component request cancellable epoch) Guided.Calm s
        ⟨{ s.solo with run := { s.solo.run with phase := .build } }, s.guest⟩ :=
      (Runs.refl s).step (by simp [Guided.Calm]) he
    obtain ⟨u, hu, hreturned⟩ := hbuild _ (h.trans hmain) rfl
    exact ⟨u, hmain.trans hu, hreturned⟩
  · exact hbuild s h hp
  · exact ⟨s, .refl s, hp⟩

theorem Mirrors.rests {result : Except RuntimeError WasiOutput} (h : Mirrors s r)
    (hp : s.solo.run.phase = .returned result) :
    ∃ guestEnd, r.stage = .ended guestEnd ∧ result = r.result guestEnd := by
  have htracks := h.phase
  rwa [hp] at htracks

end Runs

/-- Two runs of a guest, each on either path, come to one result: a run that returned, after its
guest got no more than the budget accepted, tells what every other run can return, whatever its
reader or watchdog does, and that it can always go on to return it. -/
theorem paths_agree (guest : Guest G) (host : HostView) (component : Component) (request : CommandRequest)
    (path other : RunPath) (cancellable cancellable' : Bool) (epoch epoch' : ℕ) {s t : Guided G}
    {result : Except RuntimeError WasiOutput}
    (hs : Runs (guidedSystem guest host path component request cancellable epoch) Guided.Calm
      (guidedSystem guest host path component request cancellable epoch).init s)
    (hreturned : s.solo.run.phase = .returned result)
    (hwithin : s.solo.run.acceptedBytes ≤ request.grant.limits.maxOutputBytes)
    (ht : Runs (guidedSystem guest host other component request cancellable' epoch') Guided.Calm
      (guidedSystem guest host other component request cancellable' epoch').init t) :
    (∀ result', t.solo.run.phase = .returned result' → result' = result) ∧
      ∃ u, Runs (guidedSystem guest host other component request cancellable' epoch') Guided.Calm t u ∧
        u.solo.run.phase = .returned result := by
  cases hb : buildStore host request with
  | error error =>
    have hresult : result = .error error := by
      rcases run_rejected hb hs with hp | hp | hp <;> cases hreturned.symm.trans hp
      rfl
    subst hresult
    refine ⟨?_, returns_rejected hb ht⟩
    intro result' hp'
    rcases run_rejected hb ht with hp | hp | hp <;> cases hp'.symm.trans hp
    rfl
  | ok store =>
    obtain ⟨f, hreaches, hm⟩ := (run_mirrored hb hs hwithin).mirrors
    obtain ⟨guestEnd, hf, rfl⟩ := hm.rests hreturned
    obtain ⟨n, hn⟩ := Settles.of_reaches hreaches (Reference.step_ended hf)
    have hbytes : f.acceptedBytes ≤ request.grant.limits.maxOutputBytes := hm.acceptedBytes ▸ hwithin
    refine ⟨?_, returns_settled hb hn hbytes hf ht⟩
    intro result' hp
    obtain ⟨r, ⟨m, hm'⟩, hmr⟩ := (run_settles hb hn hbytes ht).mirrors
    obtain ⟨other, hstage, rfl⟩ := hmr.rests hp
    cases hm'.eq_of_rest (Reference.step_ended hstage)
    cases hstage.symm.trans hf
    rfl

def fillingGuest : Guest ℕ where
  start := 0
  next g :=
    match g with
    | 0 => .instantiated 1
    | 1 => .checkWrite .stdout (fun answer => if answer.toBool then 2 else 3)
    | 2 => .write .stdout [111] (fun _ => 1)
    | _ => .finish .success
  uninterrupted := by
    intro g guestEnd h
    split at h <;> cases h
    rfl

def fillingSystem (path : RunPath) : System (Guided ℕ) GuidedAct :=
  guidedSystem fillingGuest sampleHost path ⟨false⟩ (sampleRequest 1 .read oneByte) true 0

theorem filled_pipe_agrees : ∃ u, Runs (fillingSystem .events) Guided.Calm (fillingSystem .events).init u ∧
    u.solo.run.phase = .returned (.ok ⟨[111], [], 0⟩) := by
  -- the capturing run: two checks around the one write that fits
  obtain ⟨s, hs, hreturned, hwithin⟩ : ∃ s, (fillingSystem .inner).replay Guided.Calm
      (fillingSystem .inner).init [.main, .build, .guest, .main, .guest, .guest, .guest, .guest, .main,
        .watch false, .watch false, .main, .main] = some s ∧
      s.solo.run.phase = .returned (.ok ⟨[111], [], 0⟩) ∧
      s.solo.run.acceptedBytes ≤ oneByte.maxOutputBytes := ⟨_, rfl, rfl, le_rfl⟩
  exact (paths_agree fillingGuest sampleHost ⟨false⟩ (sampleRequest 1 .read oneByte) .inner .events true true
    0 0 ((fillingSystem .inner).replay_runs Guided.Calm hs) hreturned hwithin (.refl _)).2

end FerrousRuntime.Runtime
