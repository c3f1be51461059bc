import FerrousRuntime.Runtime.Engine

/-! # The deadline in 64 bits

A run counts the engine's increments in `ℕ`; the engine keeps a `u64`, and so does the
store. `build_store` saturates the product of its timeout, and `set_epoch_deadline` then
adds the engine's counter to it, which is exact only as long as the sum fits the word.
-/
namespace FerrousRuntime.Runtime
open Capability Command Transition

def WasiRuntime.currentEpoch (s : WasiRuntime) : UInt64 := UInt64.ofNat s.epoch

def setEpochDeadline (currentEpoch ticksBeyondCurrent : UInt64) : UInt64 :=
  currentEpoch + ticksBeyondCurrent

/-- The deadline in the store that `build_store` hands back. -/
def armedDeadline (s : WasiRuntime) (store : Store) : UInt64 :=
  setEpochDeadline s.currentEpoch (UInt64.ofNat store.epochTicks)

def NoOwnTick (index : ℕ) (s : WasiRuntime) (act : EngineAct) : Prop :=
  (∃ elapsed, act = .run index (.watch elapsed)) → ∀ t, s.step act = some t → t.epoch = s.epoch

/-- The deadline armed by a step is the exact sum, and so lies ahead until the run ticks. -/
structure ArmsExactly (epoch index : ℕ) (s t : WasiRuntime) (limits : ResourceLimits)
    (deadline : UInt64) : Prop where
  sum : deadline.toNat = s.currentEpoch.toNat + max 1 (min (10 * limits.timeoutSeconds) u64Max)
  later : s.currentEpoch < deadline
  uninterrupted : ∀ u r, Runs (engineSystem epoch) (NoOwnTick index) t u → u.runs[index]? = some r →
    r.run.phase.armed = true → u.currentEpoch < deadline

theorem setEpochDeadline_toNat {current delta : UInt64} (h : current.toNat + delta.toNat ≤ u64Max) :
    (setEpochDeadline current delta).toNat = current.toNat + delta.toNat := by
  have hlt : current.toNat + delta.toNat < 2 ^ 64 := by
    unfold u64Max at h
    omega
  rw [setEpochDeadline, UInt64.toNat_add, Nat.mod_eq_of_lt hlt]

theorem epochTicks_toNat (limits : ResourceLimits) :
    (UInt64.ofNat limits.epochTicks).toNat = max 1 (min (10 * limits.timeoutSeconds) u64Max) := by
  have hle : limits.epochTicks ≤ u64Max := by
    have hpos := u64Max_pos
    unfold ResourceLimits.epochTicks
    omega
  have hlt : limits.epochTicks < 2 ^ 64 := by
    unfold u64Max at hle
    omega
  rw [UInt64.toNat_ofNat', Nat.mod_eq_of_lt hlt, ResourceLimits.epochTicks, max_comm, Nat.mul_comm]

theorem sum_fits_iff (current : UInt64) (limits : ResourceLimits) :
    current.toNat + max 1 (min (10 * limits.timeoutSeconds) u64Max) ≤ u64Max ↔
      current = 0 ∨ 10 * limits.timeoutSeconds + current.toNat ≤ u64Max := by
  have hpos := limits.timeout_pos
  have hzero : current = 0 ↔ current.toNat = 0 := UInt64.toNat_inj.symm
  have hmax := u64Max_pos
  rw [hzero]
  omega

section Runs
variable {epoch index : ℕ} {s t u : WasiRuntime} {r : EngineRun}

def KeepsEpoch (index epoch : ℕ) (u : WasiRuntime) : Prop :=
  ∃ r, u.runs[index]? = some r ∧ r.run.phase ≠ .lock ∧ r.run.phase ≠ .build ∧
    (r.run.phase.armed = true → u.epoch = epoch)

theorem step_runs_getElem {a : EngineAct} (he : s.step a = some t) (hr : s.runs[index]? = some r) :
    (∀ act, a ≠ .run index act) ∧ t.runs[index]? = some r ∨ ∃ act effect, a = .run index act ∧
      r.run.step (r.cancelled s.flags) s.epoch act = some effect ∧ t.epoch = effect.epoch ∧
      t.runs[index]? = some (r.advance s.epoch effect) := by
  cases a with
  | call entry component request =>
    cases he
    refine Or.inl ⟨by simp, ?_⟩
    exact (List.getElem?_append_left (List.getElem?_eq_some_iff.mp hr).1).trans hr
  | cancel cell =>
    cases he
    exact Or.inl ⟨by simp, hr⟩
  | run i act =>
    obtain ⟨other, ho, he⟩ := Option.bind_eq_some_iff.mp he
    split at he
    · cases he
    · obtain ⟨effect, heff, rfl⟩ := Option.map_eq_some_iff.mp he
      by_cases hi : i = index
      · subst hi
        cases ho.symm.trans hr
        refine Or.inr ⟨act, effect, rfl, heff, rfl, ?_⟩
        exact List.getElem?_set_self (List.getElem?_eq_some_iff.mp hr).1
      · exact Or.inl ⟨by simp [hi], (List.getElem?_set_ne hi).trans hr⟩

theorem keepsEpoch_step {now : ℕ} {a : EngineAct} (hs : Reachable (engineSystem epoch) s)
    (ha : NoOwnTick index s a) (he : s.step a = some t) (h : KeepsEpoch index now s) :
    KeepsEpoch index now t := by
  obtain ⟨r, hr, hlock, hbuild, hkept⟩ := h
  have hsound := reachable_sound hs
  have hepoch : r.run.phase.armed = true → t.epoch = s.epoch := by
    intro harmed
    by_contra hne
    obtain ⟨elapsed, rfl⟩ := epoch_ownTick hsound hr harmed he hne
    exact hne (ha ⟨elapsed, rfl⟩ t he)
  rcases step_runs_getElem he hr with ⟨-, hsame⟩ | ⟨act, effect, -, heff, hte, hnext⟩
  · exact ⟨r, hsame, hlock, hbuild, fun harmed => (hepoch harmed).trans (hkept harmed)⟩
  · refine ⟨r.advance s.epoch effect, hnext, ?_⟩
    rcases WasiRun.step_holdsLock (hsound.runs index r hr).joined heff with ⟨hl, -⟩ | ⟨-, hl, hb⟩
    · exact absurd hl hlock
    · refine ⟨hl, hb, ?_⟩
      intro harmed
      rcases WasiRun.step_armed heff harmed with ⟨hbefore, -⟩ | ⟨hp, -⟩
      · exact (hepoch hbefore).trans (hkept hbefore)
      · exact absurd hp hbuild

/-- Up to its own first tick an armed run sees the epoch it was armed at. -/
theorem epoch_kept (ht : Reachable (engineSystem epoch) t)
    (h : Runs (engineSystem epoch) (NoOwnTick index) t u) (hk : KeepsEpoch index t.epoch t)
    (hr : u.runs[index]? = some r) (ha : r.run.phase.armed = true) : u.epoch = t.epoch := by
  have hkept : KeepsEpoch index t.epoch u := by
    refine Runs.invariant_of_reachable ?_ h ht hk
    intro s a v hs hguard he hp
    exact keepsEpoch_step hs hguard he hp
  obtain ⟨r', hr', -, -, hsame⟩ := hkept
  cases hr.symm.trans hr'
  exact hsame ha

variable {host : HostView} {store : Store}

theorem built_keepsEpoch (hr : s.runs[index]? = some r)
    (he : s.step (.run index (.build host)) = some t)
    (hb : buildStore host r.run.request = .ok store) : t.epoch = s.epoch ∧ KeepsEpoch index t.epoch t := by
  rcases step_runs_getElem he hr with ⟨hother, -⟩ | ⟨act, effect, hact, heff, hte, hnext⟩
  · exact absurd rfl (hother _)
  · cases hact
    have hbuilt : effect.run = r.run.buildStep s.epoch host ∧ effect.epoch = s.epoch := by
      cases hp : r.run.phase <;> simp only [WasiRun.step, hp, reduceCtorEq, Option.some.injEq] at heff
      subst heff
      exact ⟨rfl, rfl⟩
    refine ⟨hte.trans hbuilt.2, r.advance s.epoch effect, hnext, ?_, ?_, fun _ => rfl⟩
    all_goals
      change effect.run.phase ≠ _
      rw [hbuilt.1]
      simp only [WasiRun.buildStep, hb]
      split <;> simp

theorem armsExactly_of_fits (hs : Reachable (engineSystem epoch) s) (hr : s.runs[index]? = some r)
    (he : s.step (.run index (.build host)) = some t) (hb : buildStore host r.run.request = .ok store)
    (hfits : s.currentEpoch.toNat + max 1 (min (10 * r.run.request.grant.limits.timeoutSeconds) u64Max) ≤
      u64Max) : ArmsExactly epoch index s t r.run.request.grant.limits (armedDeadline s store) := by
  have hticks : (UInt64.ofNat store.epochTicks).toNat =
      max 1 (min (10 * r.run.request.grant.limits.timeoutSeconds) u64Max) := by
    rw [buildStore_epochTicks hb, epochTicks_toNat]
  have hsum := setEpochDeadline_toNat (hticks ▸ hfits)
  have hlater : s.currentEpoch < armedDeadline s store := by
    rw [UInt64.lt_iff_toNat_lt, armedDeadline, hsum, hticks]
    omega
  refine ⟨hsum.trans (by rw [hticks]), hlater, ?_⟩
  intro u r' hu hr' ha
  obtain ⟨hepoch, hkeeps⟩ := built_keepsEpoch hr he hb
  have ht : Reachable (engineSystem epoch) t := Runs.step (a := .run index (.build host)) hs trivial he
  have hsame := epoch_kept ht hu hkeeps hr' ha
  unfold WasiRuntime.currentEpoch
  rw [hsame, hepoch]
  exact hlater

theorem fits_of_armsExactly {limits : ResourceLimits} {deadline : UInt64}
    (h : ArmsExactly epoch index s t limits deadline) :
    s.currentEpoch.toNat + max 1 (min (10 * limits.timeoutSeconds) u64Max) ≤ u64Max := by
  have hlt := deadline.toNat_lt
  rw [h.sum] at hlt
  unfold u64Max at hlt ⊢
  omega

end Runs

/-- The deadline is exact when the engine has not ticked yet, or the timeout leaves room
for the ticks it has made. -/
theorem deadline_exact_iff {epoch index : ℕ} {s t : WasiRuntime} {r : EngineRun} {host : HostView}
    {store : Store} (hs : Reachable (engineSystem epoch) s) (hr : s.runs[index]? = some r)
    (he : s.step (.run index (.build host)) = some t) (hb : buildStore host r.run.request = .ok store) :
    ArmsExactly epoch index s t r.run.request.grant.limits (armedDeadline s store) ↔
      s.currentEpoch = 0 ∨
        10 * r.run.request.grant.limits.timeoutSeconds + s.currentEpoch.toNat ≤ u64Max := by
  rw [← sum_fits_iff]
  exact ⟨fits_of_armsExactly, armsExactly_of_fits hs hr he hb⟩

theorem exists_at_build {s : WasiRuntime} {index : ℕ} {request : CommandRequest}
    (hr : (s.runs[index]?).any (fun r => decide (r.run.request = request)) = true)
    (he : (s.step (.run index (.build sampleHost))).isSome = true) :
    ∃ r t, s.runs[index]? = some r ∧ r.run.request = request ∧
      s.step (.run index (.build sampleHost)) = some t := by
  obtain ⟨r, hr, hrequest⟩ := (Option.any_eq_true _ _).mp hr
  obtain ⟨t, he⟩ := Option.isSome_iff_exists.mp he
  exact ⟨r, t, hr, of_decide_eq_true hrequest, he⟩

theorem deadline_exact_of_first_run : ∃ s t store, s.currentEpoch = 0 ∧
    ArmsExactly 0 0 s t oneSecond (armedDeadline s store) := by
  obtain ⟨s, hs, hepoch, hrun, hstep⟩ := (engineSystem 0).reachable_of_replay
    (fun s => s.currentEpoch = 0 ∧
      (s.runs[0]?).any (fun r => decide (r.run.request = sampleRequest 1 .read oneSecond)) = true ∧
      (s.step (.run 0 (.build sampleHost))).isSome = true)
    [.call .runWasi ⟨false⟩ (sampleRequest 1 .read oneSecond), .run 0 .main] (by decide)
  obtain ⟨r, t, hr, hrequest, he⟩ := exists_at_build hrun hstep
  obtain ⟨store, hb⟩ : ∃ store, buildStore sampleHost (sampleRequest 1 .read oneSecond) = .ok store :=
    ⟨_, rfl⟩
  have hexact := (deadline_exact_iff hs hr he (hrequest ▸ hb)).mpr (Or.inl hepoch)
  exact ⟨s, t, store, hepoch, by rwa [hrequest] at hexact⟩

def longestTimeout : ResourceLimits := { defaultLimits with
  timeoutSeconds := u64Max
  timeout_pos := u64Max_pos
  timeout_le := le_rfl }

/-- A first run that ticks once before it returns, and a second one with the longest
timeout that is about to build its store. -/
def tickedOnceThenNext : List EngineAct :=
  ([.call .runWasi ⟨false⟩ (sampleRequest 1 .read oneSecond),
    .call .runWasi ⟨false⟩ (sampleRequest 2 .read longestTimeout)] : List EngineAct) ++
  startCapturing 0 ++ ([.run 0 (.watch false), .run 0 (.watch true), .run 0 (.guestEnd .success),
    .run 0 .main, .run 0 (.watch false), .run 0 (.watch false), .run 0 .main, .run 0 .main,
    .run 1 .main] : List EngineAct)

theorem longest_timeout_wraps : ∃ s t r store, Reachable (engineSystem 0) s ∧
    s.runs[1]? = some r ∧ r.run.request = sampleRequest 2 .read longestTimeout ∧
    s.step (.run 1 (.build sampleHost)) = some t ∧ buildStore sampleHost r.run.request = .ok store ∧
    ¬ ArmsExactly 0 1 s t r.run.request.grant.limits (armedDeadline s store) := by
  obtain ⟨s, hs, hepoch, hrun, hstep⟩ := (engineSystem 0).reachable_of_replay
    (fun s => s.currentEpoch = 1 ∧
      (s.runs[1]?).any (fun r => decide (r.run.request = sampleRequest 2 .read longestTimeout)) = true ∧
      (s.step (.run 1 (.build sampleHost))).isSome = true)
    tickedOnceThenNext (by decide)
  obtain ⟨r, t, hr, hrequest, he⟩ := exists_at_build hrun hstep
  obtain ⟨store, hb⟩ :
      ∃ store, buildStore sampleHost (sampleRequest 2 .read longestTimeout) = .ok store := ⟨_, rfl⟩
  refine ⟨s, t, r, store, hs, hr, hrequest, he, hrequest ▸ hb, ?_⟩
  intro hexact
  have hfits := fits_of_armsExactly hexact
  rw [hepoch, hrequest] at hfits
  exact absurd hfits (by decide)

end FerrousRuntime.Runtime
