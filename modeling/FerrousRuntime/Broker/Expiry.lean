import FerrousRuntime.Broker.Parking

/-! # Expired approvals

The sweeper reads which parked jobs are past their deadlines, lets go of the map, and
then removes those ids one by one. Between the two a session can be decided, its id
submitted again and the new job parked under it: the removal finds that job, which
nobody has judged.
-/
namespace FerrousRuntime.Broker
open Capability Command Policy FerrousRuntime.Runtime Transition

/-- The ids the sweeper has found expired and not yet looked up. -/
def SweeperPc.collected : SweeperPc → List ℕ
  | .sweeping expired => expired
  | .closing _ rest => rest
  | _ => []

/-- The worker is about to park a job that is not due under an id the sweeper has collected. -/
def ActionBroker.preempts (b : ActionBroker) : Act → Bool
  | .worker =>
    match b.worker with
    | .park job deadline _ => b.sweeper.collected.contains job.id && decide (b.state.now < deadline)
    | _ => false
  | _ => false

/-- The worker set the job's deadline at an earlier reading of the clock, and then parked it. -/
def Dated (config : Config) (b : ActionBroker) (parked : PendingJob) : Prop :=
  ∃ c d reason, Reachable (system config) c ∧ c.worker = .deadline parked.job reason ∧
    c.state.now + config.approvalTimeout = parked.deadline ∧ Runs (system config) Free c d ∧
    d.worker = .park parked.job parked.deadline reason ∧ Runs (system config) Free d b

structure Due (config : Config) (b : ActionBroker) (parked : PendingJob) : Prop where
  passed : parked.deadline ≤ b.state.now
  dated : Dated config b parked

section Clock
variable {config : Config} {b t : ActionBroker} {act : Act} {s : BrokerState}

/-- The sweeper works through what it collected; new ids come from a look at the map. -/
theorem step_collected (he : step config b act = some t) :
    t.sweeper.collected ⊆ b.sweeper.collected ∨
      t.state = b.state ∧ t.sweeper.collected ⊆ b.state.expired := by
  apply step_elim (P := fun t => t.sweeper.collected ⊆ b.sweeper.collected ∨
    t.state = b.state ∧ t.sweeper.collected ⊆ b.state.expired) he
  case sweeper =>
    intro order next _ hn
    have hn := sweeperStep_cases hn
    generalize b.sweeper = pc at hn ⊢
    cases hn with
    | woke horder =>
      refine Or.inr ⟨rfl, ?_⟩
      exact (List.isPerm_iff.mp horder).subset
    | missed id rest => exact Or.inl (List.subset_cons_self _ _)
    | took id rest => exact Or.inl (List.subset_cons_self _ _)
    | closing => exact Or.inl (List.Subset.refl _)
    | closed => exact Or.inl (List.Subset.refl _)
    | _ => exact Or.inl (List.nil_subset _)
  all_goals
    intros
    exact Or.inl (List.Subset.refl _)

theorem deadline_le_of_expired {id : ℕ} {parked : PendingJob} (hid : id ∈ s.expired)
    (hl : s.pending.lookup id = some parked) : parked.deadline ≤ s.now := by
  obtain ⟨entry, hentry, rfl⟩ := List.mem_map.mp hid
  obtain ⟨hin, hle⟩ := List.mem_filter.mp hentry
  have hsame : s.pending.lookup entry.1 = some entry.2 := AList.mem_lookup_iff.mpr hin
  rw [hl] at hsame
  cases hsame
  exact of_decide_eq_true hle

structure AllDated (config : Config) (b : ActionBroker) : Prop where
  parked : ∀ id parked, b.state.pending.lookup id = some parked → Dated config b parked
  parking : ∀ job deadline reason, b.worker = .park job deadline reason →
    ∃ c, Reachable (system config) c ∧ c.worker = .deadline job reason ∧
      c.state.now + config.approvalTimeout = deadline ∧ Runs (system config) Free c b

theorem Dated.step {parked : PendingJob} (h : Dated config b parked) (he : step config b act = some t) :
    Dated config t parked := by
  obtain ⟨c, d, reason, hc, hw, hdeadline, hcd, hpark, hdb⟩ := h
  exact ⟨c, d, reason, hc, hw, hdeadline, hcd, hpark, Runs.step (a := act) hdb trivial he⟩

theorem step_allDated (hb : Reachable (system config) b) (he : step config b act = some t)
    (h : AllDated config b) : AllDated config t := by
  refine ⟨?_, ?_⟩
  · intro id parked hl
    rcases pending_or_parked he hl with hold | ⟨-, -, reason, hw, -⟩
    · exact (h.parked id parked hold).step he
    · obtain ⟨c, hc, hdeadline, hnow, hcb⟩ := h.parking _ _ _ hw
      exact ⟨c, b, reason, hc, hdeadline, hnow, hcb, hw, Runs.step (a := act) (.refl b) trivial he⟩
  · intro job deadline reason hw
    rcases step_worker he with hsame | ⟨next, -, hn, -, hnext⟩ | ⟨_, _, _, -, ⟨run', hrun⟩ | hpanic⟩
    · obtain ⟨c, hc, hdeadline, hnow, hcb⟩ := h.parking _ _ _ (hsame ▸ hw)
      exact ⟨c, hc, hdeadline, hnow, Runs.step (a := act) hcb trivial he⟩
    · have hn := workerStep_cases hn
      rw [hnext] at hw
      generalize hpc : b.worker = pc at hn
      cases hn with
      | timed timed reason' =>
        cases hw
        exact ⟨b, hb, hpc, rfl, Runs.step (a := act) (.refl b) trivial he⟩
      | _ => cases hw
    · rw [hrun] at hw
      cases hw
    · rw [hpanic] at hw
      cases hw

theorem reachable_allDated (h : Reachable (system config) b) : AllDated config b := by
  refine Runs.invariant_of_reachable (fun b act t hb _ he hp => step_allDated hb he hp) h (.refl _) ?_
  refine ⟨?_, ?_⟩ <;> simp [system, ActionBroker.initial, BrokerState.initial]

/-- Every id the sweeper goes through is still that of a job it found expired. -/
def Judged (b : ActionBroker) : Prop :=
  ∀ id ∈ b.sweeper.collected, ∀ parked, b.state.pending.lookup id = some parked →
    parked.deadline ≤ b.state.now

theorem step_judged (hg : b.preempts act = false) (he : step config b act = some t) (h : Judged b) :
    Judged t := by
  intro id hid parked hl
  have hnow := (step_forward he).now
  rcases step_collected he with hsub | ⟨hstate, hexpired⟩
  · rcases pending_or_parked he hl with hold | ⟨rfl, rfl, reason, hw, -⟩
    · exact (h id (hsub hid) parked hold).trans hnow
    · -- parked just now: the guard says that it is due already
      have hin : b.sweeper.collected.contains parked.job.id = true :=
        List.contains_iff_mem.mpr (hsub hid)
      simp only [ActionBroker.preempts, hw, hin, Bool.true_and, decide_eq_false_iff_not,
        not_lt] at hg
      exact hg.trans hnow
  · rw [hstate] at hl ⊢
    exact deadline_le_of_expired (hexpired hid) hl

theorem runs_judged (h : Runs (system config) (fun b act => b.preempts act = false) .initial b) :
    Judged b := by
  refine Runs.invariant (P := Judged) (fun b act t hg he hp => step_judged hg he hp) h ?_
  intro id hid
  cases hid

theorem Closing.Logs.not_took {c : Closing} {decider : Decider} {job : Job} :
    ¬ c.Logs (.took decider job) := by
  intro h
  cases h

theorem took_by_sweeper {job : Job} (he : step config b act = some t)
    (ht : t.state.history = .took .sweeper job :: b.state.history) : ∃ id rest parked,
    b.sweeper = .sweeping (id :: rest) ∧ b.state.pending.lookup id = some parked ∧ parked.job = job := by
  obtain ⟨logged, hh, hlogs⟩ := step_logged he
  have hone : [.took .sweeper job] = logged := List.append_cancel_right (ht.symm.trans hh)
  subst hone
  cases hlogs _ (List.mem_singleton_self _) with
  | call n pc event _ h =>
    cases h with
    | closing c event hc => exact absurd hc Closing.Logs.not_took
  | worker event h =>
    generalize b.worker = pc at h
    cases h with
    | closing c event hc => exact absurd hc Closing.Logs.not_took
  | sweeper order event h =>
    generalize hpc : b.sweeper = pc at h
    cases h with
    | took id rest parked hl => exact ⟨id, rest, parked, rfl, hl, rfl⟩
    | closing c rest event hc => exact absurd hc Closing.Logs.not_took

end Clock

def TakesDue (config : Config) (b t : ActionBroker) : Prop :=
  ∀ job, t.state.history = .took .sweeper job :: b.state.history →
    ∃ id parked, b.state.pending.lookup id = some parked ∧ parked.job = job ∧ Due config b parked

/-- As long as no job that is not due is parked under a collected id, nothing expires early. -/
theorem expiry_never_premature {config : Config} {b t : ActionBroker} {act : Act}
    (hb : Runs (system config) (fun b act => b.preempts act = false) .initial b)
    (he : step config b act = some t) : TakesDue config b t := by
  intro job ht
  obtain ⟨id, rest, parked, hsweeping, hl, rfl⟩ := took_by_sweeper he ht
  have hpassed := runs_judged hb id (by simp [hsweeping, SweeperPc.collected]) parked hl
  exact ⟨id, parked, hl, rfl, hpassed, (reachable_allDated hb.free).parked id parked hl⟩

def overdueSession : List Act := submission 0 1 false .readWrite ++ parking ++
  ([.worker, .tick 10, .sweeper [], .sweeper [1]] : List Act)

theorem overdue_session_expires : ∃ (b t : ActionBroker) (job : Job),
    t.state.history = .took .sweeper job :: b.state.history ∧
    ∃ id parked, b.state.pending.lookup id = some parked ∧ parked.job = job ∧
      Due sampleConfig b parked := by
  have hruns : ∃ (b t : ActionBroker) (job : Job),
      (system sampleConfig).replay (fun b act => b.preempts act = false) .initial overdueSession = some b ∧
      step sampleConfig b (.sweeper []) = some t ∧
      t.state.history = .took .sweeper job :: b.state.history := ⟨_, _, _, rfl, rfl, rfl⟩
  obtain ⟨b, t, job, hb, he, ht⟩ := hruns
  exact ⟨b, t, job, ht, expiry_never_premature (System.replay_runs _ _ hb) he job ht⟩

/-- After the sweeper has collected its id, the session is cancelled, and another one is
submitted under the id and parked. -/
def supplantedSession : List Act := overdueSession ++ ([.call (.cancel 1)] : List Act) ++
  List.replicate 4 (Act.proceed 1) ++ submission 2 1 false .readWrite ++ parking ++ ([.worker] : List Act)

theorem supplanted_session_expires_early : ∃ b t, Reachable (system sampleConfig) b ∧
    step sampleConfig b (.sweeper []) = some t ∧ ¬ TakesDue sampleConfig b t := by
  have hruns : ∃ (b t : ActionBroker) (job : Job),
      (system sampleConfig).replay Free .initial supplantedSession = some b ∧
      step sampleConfig b (.sweeper []) = some t ∧
      t.state.history = .took .sweeper job :: b.state.history ∧
      b.state.pending.entries.all (fun entry => decide (b.state.now < entry.2.deadline)) = true :=
    ⟨_, _, _, rfl, rfl, rfl, by decide⟩
  obtain ⟨b, t, job, hb, he, ht, hearly⟩ := hruns
  refine ⟨b, t, System.replay_runs _ _ hb, he, ?_⟩
  intro htakes
  obtain ⟨id, parked, hl, -, hpassed, -⟩ := htakes job ht
  have hlate := List.all_eq_true.mp hearly ⟨id, parked⟩ (AList.mem_lookup_iff.mp hl)
  exact absurd hpassed (Nat.not_le.mpr (of_decide_eq_true hlate))

end FerrousRuntime.Broker
