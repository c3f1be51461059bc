import FerrousRuntime.Broker.Expiry

/-! # What a round of the sweeper leaves behind

The sweeper goes through the ids it found expired while the map changes under it. A job
that it found is gone at the end all the same: taken by the sweeper itself, or by whoever
was faster.
-/
namespace FerrousRuntime.Broker
open Tally Transition FerrousRuntime.Runtime

section Round
variable {config : Config} {b t : ActionBroker} {act : Act} {id : ℕ} {parked : PendingJob}

theorem pending_unique (h : Reachable (system config) b) {other : ℕ} {later : PendingJob}
    (hp : b.state.pending.lookup id = some parked) (hl : b.state.pending.lookup other = some later)
    (hkey : later.job.key = parked.job.key) : other = id ∧ later = parked := by
  have hone : values (fun entry => ofKey parked.job.key entry.job) b.state.pending ≤ 1 := by
    have hgone := (reachable_parking h parked.job.key).gone
    have honce := parked_once h parked.job.key
    omega
  have heq : (⟨other, later⟩ : Sigma fun _ : ℕ => PendingJob) = ⟨id, parked⟩ :=
    eq_of_countP_le_one hone (AList.mem_lookup_iff.mp hl) (AList.mem_lookup_iff.mp hp)
      (by simp [ofKey, hkey]) (by simp [ofKey])
  cases heq
  exact ⟨rfl, rfl⟩

/-- The only entry of the session is the one from before, and the sweeper still has to come to it. -/
def Listed (id : ℕ) (parked : PendingJob) (b : ActionBroker) : Prop :=
  ∀ other later, b.state.pending.lookup other = some later → later.job.key = parked.job.key →
    other = id ∧ later = parked ∧ id ∈ b.sweeper.collected

theorem parked_before (hb : Reachable (system config) b) (he : step config b act = some t)
    (hp : .parked parked.job ∈ b.state.history) {other : ℕ} {later : PendingJob}
    (hl : t.state.pending.lookup other = some later) (hkey : later.job.key = parked.job.key) :
    b.state.pending.lookup other = some later := by
  cases step_pending he with
  | none _ _ _ hpending => exact hpending ▸ hl
  | took decider own old _ _ hpending => exact lookup_of_erase (hpending ▸ hl)
  | discarded own old _ _ hpending => exact lookup_of_erase (hpending ▸ hl)
  | parked job deadline reason _ hh hpending =>
    rcases lookup_of_insert (hpending ▸ hl) with ⟨-, rfl⟩ | ⟨-, hold⟩
    · have honce := parked_once (hb.step he) parked.job.key
      have hbefore : 0 < b.state.history.countP (Event.isParked parked.job.key) :=
        List.countP_pos_iff.mpr ⟨_, hp, by simp [ofKey]⟩
      have hsame : ofKey parked.job.key job = true := by simpa [ofKey] using hkey
      rw [hh, countP_cons_one, List.countP_append, Event.isParked, hsame, one_true] at honce
      omega
    · exact hold

/-- The sweeper strikes an id off once nothing is parked under it. -/
theorem step_collected_kept (he : step config b act = some t) (hid : id ∈ b.sweeper.collected)
    (hl : b.state.pending.lookup id = some parked) :
    id ∈ t.sweeper.collected ∨ t.state.pending.lookup id = none := by
  apply step_elim (P := fun t => id ∈ t.sweeper.collected ∨ t.state.pending.lookup id = none) he
  case sweeper =>
    intro order next _ hn
    have hn := sweeperStep_cases hn
    generalize b.sweeper = pc at hn hid
    cases hn with
    | missed own rest hmissed =>
      rcases List.mem_cons.mp hid with rfl | hid
      · cases hmissed.symm.trans hl
      · exact Or.inl hid
    | took own rest old hold =>
      rcases List.mem_cons.mp hid with rfl | hid
      · exact Or.inr (AList.lookup_erase _ _)
      · exact Or.inl hid
    | closing => exact Or.inl hid
    | closed => exact Or.inl hid
    | _ => cases hid
  all_goals
    intros
    exact Or.inl hid

theorem step_listed (hb : Reachable (system config) b) (he : step config b act = some t)
    (hp : .parked parked.job ∈ b.state.history) (h : Listed id parked b) : Listed id parked t := by
  intro other later hl hkey
  have hold := parked_before hb he hp hl hkey
  obtain ⟨rfl, rfl, hid⟩ := h other later hold hkey
  rcases step_collected_kept he hid hold with hkept | hgone
  · exact ⟨rfl, rfl, hkept⟩
  · cases hgone.symm.trans hl

theorem mem_expired {s : BrokerState} (hl : s.pending.lookup id = some parked) (hdue : parked.deadline ≤ s.now) :
    id ∈ s.expired := by
  refine List.mem_map.mpr ⟨⟨id, parked⟩, List.mem_filter.mpr ⟨AList.mem_lookup_iff.mp hl, ?_⟩, rfl⟩
  exact decide_eq_true hdue

/-- However its round is interleaved with the other threads, once the sweeper is through with
what it collected, no job that was overdue when it looked is parked. -/
theorem sweep_clears_overdue {s : ActionBroker} {order : List ℕ} (hb : Reachable (system config) b)
    (hasleep : b.sweeper = .asleep) (he : step config b (.sweeper order) = some s)
    (hr : Runs (system config) Free s t) (hdone : t.sweeper.collected = []) :
    ∀ id parked, b.state.pending.lookup id = some parked → parked.deadline ≤ b.state.now →
      (∀ other later, t.state.pending.lookup other = some later → later.job.key ≠ parked.job.key) ∧
        0 < t.state.history.countP (Event.isTook parked.job.key) +
          t.state.history.countP (Event.isDiscarded parked.job.key) +
          t.state.history.countP (Event.isLost parked.job.key) := by
  intro id parked hp hdue
  obtain ⟨next, hn, rfl⟩ := Option.map_eq_some_iff.mp he
  rw [hasleep] at hn
  cases sweeperStep_cases hn with
  | woke horder =>
    have hstep : (system config).step b (.sweeper order) = some { b with sweeper := .sweeping order } := he
    have hs := hb.step hstep
    obtain ⟨-, -, hlast⟩ := (reachable_genuine hb).state.pending id parked hp
    obtain ⟨-, recent, earlier, hh, -⟩ := lastParked_eq_some hlast
    have hparked : .parked parked.job ∈ b.state.history := by simp [hh]
    have hlisted : Listed id parked { b with sweeper := .sweeping order } := by
      intro other later hl hkey
      obtain ⟨rfl, rfl⟩ := pending_unique hb hp hl hkey
      exact ⟨rfl, rfl, (List.isPerm_iff.mp horder).symm.subset (mem_expired hl hdue)⟩
    have hend : Listed id parked t ∧ .parked parked.job ∈ t.state.history := by
      refine Runs.invariant_of_reachable (P := fun t => Listed id parked t ∧ .parked parked.job ∈ t.state.history)
        ?_ hr hs ⟨hlisted, hparked⟩
      rintro c act d hc - he ⟨hlisted, hparked⟩
      exact ⟨step_listed hc he hparked hlisted, (history_suffix hc he).subset hparked⟩
    have hnone : ∀ other later, t.state.pending.lookup other = some later →
        later.job.key ≠ parked.job.key := by
      intro other later hl hkey
      obtain ⟨-, -, hid⟩ := hend.1 other later hl hkey
      rw [hdone] at hid
      cases hid
    refine ⟨hnone, ?_⟩
    have hempty : values (fun entry => ofKey parked.job.key entry.job) t.state.pending = 0 := by
      refine List.countP_eq_zero.mpr fun entry hentry hsame => ?_
      exact hnone entry.1 entry.2 (AList.mem_lookup_iff.mpr hentry) (by simpa [ofKey] using hsame)
    have hkept := (reachable_parking (hs.runs hr) parked.job.key).kept
    have hone : 0 < t.state.history.countP (Event.isParked parked.job.key) :=
      List.countP_pos_iff.mpr ⟨_, hend.2, by simp [ofKey]⟩
    omega

end Round

def overtakenSweep : List Act := submission 0 1 false .readWrite ++ submission 1 2 false .readWrite ++
  parking ++ ([.worker] : List Act) ++ parking ++ ([.worker, .tick 10, .sweeper []] : List Act)

def overtaking : List Act := ([.call (.cancel 1), .proceed 2] : List Act) ++ List.replicate 5 (.sweeper [])

theorem overtaken_sweep_clears : ∃ b t : ActionBroker, b.state.pending.entries.length = 2 ∧
    ∀ id parked, b.state.pending.lookup id = some parked → parked.deadline ≤ b.state.now →
      (∀ other later, t.state.pending.lookup other = some later → later.job.key ≠ parked.job.key) ∧
        0 < t.state.history.countP (Event.isTook parked.job.key) +
          t.state.history.countP (Event.isDiscarded parked.job.key) +
          t.state.history.countP (Event.isLost parked.job.key) := by
  have hruns : ∃ b s t : ActionBroker, (system sampleConfig).replay Free .initial overtakenSweep = some b ∧
      step sampleConfig b (.sweeper [2, 1]) = some s ∧
      (system sampleConfig).replay Free s overtaking = some t ∧ b.sweeper = .asleep ∧
      b.state.pending.entries.length = 2 ∧ t.sweeper.collected = [] :=
    ⟨_, _, _, rfl, rfl, rfl, rfl, rfl, rfl⟩
  obtain ⟨b, s, t, hb, he, hr, hasleep, htwo, hdone⟩ := hruns
  exact ⟨b, t, htwo, sweep_clears_overdue (System.replay_runs _ _ hb) hasleep he (System.replay_runs _ _ hr) hdone⟩

end FerrousRuntime.Broker
