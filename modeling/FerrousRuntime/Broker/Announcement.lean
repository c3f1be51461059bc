import FerrousRuntime.Broker.Deciders

/-! # Nothing risky runs unannounced

An approval may come before its session's caller was notified. If the notification then
fails, the clean-up releases the handle before the worker returns to the queue, and the
approved job, which waits there, finds none.
-/
namespace FerrousRuntime.Broker
open Tally Lease Transition FerrousRuntime.Runtime Policy

def announces (k : ℕ) (b : ActionBroker) (act : Act) : Bool :=
  act.isWorker && match b.worker with
    | .notify sink _ _ => sink.channel == k && !b.state.dropped.contains k
    | _ => false

/-- A session that was parked has no handle, unless the worker is still to notify its
caller or to clean up after a notification that failed. -/
structure Unannounced (k : ℕ) (b : ActionBroker) : Prop where
  parked : ∀ job, .parked job ∈ b.state.history → job.key = k →
    b.state.handles.lookup job.id = none ∨
      (∃ reason, b.worker = .notify job.sink job.id reason) ∨ b.worker.cleans = some job.id
  executed : ∀ job, .executed job ∈ b.state.history → job.key = k →
    Registered b.state.history job ∧ ¬ Risky job.request

section Steps
variable {config : Config} {b t : ActionBroker} {act : Act} {k : ℕ}

theorem Registered.of_parked (h : Reachable (system config) b) {job : Job}
    (hp : .parked job ∈ b.state.history) : Registered b.state.history job := by
  obtain ⟨past, hpast, hr⟩ := (reachable_genuine h).state.warranted.of_mem hp
  exact Registered.mono hr ((List.suffix_cons _ _).trans hpast).subset

/-- Only a registration under its id would give the session a handle again. -/
theorem step_unhandled (hb : Reachable (system config) b) (he : step config b act = some t)
    (hd : DistinctIds t.state.history) {id key : ℕ} (hk : HandleOf b.state.history id key)
    (hl : b.state.handles.lookup id = none) : t.state.handles.lookup id = none := by
  rw [step_handles he]
  cases hr : b.registers config act with
  | some job => exact (AList.lookup_insert_ne (registers_unclosed hb he hd hr hk)).trans hl
  | none =>
    cases hrel : b.releases act with
    | none => exact hl
    | some other =>
      by_cases hid : id = other
      · rw [hid]
        exact AList.lookup_erase _ _
      · exact (AList.lookup_erase_ne hid).trans hl

theorem workerStep_cleanup {s : BrokerState} {pc : WorkerPc} {next : BrokerState × WorkerPc} {id : ℕ}
    (he : workerStep config s pc = some next) (hc : pc.cleans = some id) :
    next.2.cleans = some id ∨ next.1.handles.lookup id = none := by
  cases workerStep_cases he with
  | gone | discarded => exact Or.inl hc
  | released own =>
    cases hc
    exact Or.inr (AList.lookup_erase _ _)
  | _ => cases hc

theorem step_unannounced (hb : Reachable (system config) b) (he : step config b act = some t)
    (hd : DistinctIds t.state.history) (hguard : announces k b act = false) (h : Unannounced k b) :
    Unannounced k t := by
  have hsub := (history_suffix hb he).subset
  refine ⟨?_, ?_⟩
  · intro job hin hkey
    rcases step_logs he hin with hin | hlogs
    · rcases h.parked job hin hkey with hl | ⟨reason, hw⟩ | hc
      · exact Or.inl (step_unhandled hb he hd (Registered.of_parked hb hin).handleOf hl)
      · right
        rcases step_worker he with hsame | ⟨next, rfl, hn, -, hnext⟩ | ⟨other, cell, run, hrun, -⟩
        · exact Or.inl ⟨reason, hsame.trans hw⟩
        · -- the guard leaves the notification that fails
          have hdropped : b.state.dropped.contains job.sink.channel = true := by
            simpa [announces, Act.isWorker, hw, ← hkey, Job.key] using hguard
          rw [hw] at hn
          simp only [workerStep, Option.some.injEq] at hn
          rw [hnext, ← hn, hdropped]
          exact Or.inr rfl
        · cases hw.symm.trans hrun
      · rcases step_worker he with hsame | ⟨next, -, hn, hstate, hnext⟩ | ⟨other, cell, run, hrun, -⟩
        · exact Or.inr (Or.inr (hsame ▸ hc))
        · rcases workerStep_cleanup hn hc with hcleans | hl
          · exact Or.inr (Or.inr (hnext ▸ hcleans))
          · exact Or.inl (hstate ▸ hl)
        · rw [hrun] at hc
          cases hc
    · obtain ⟨rfl, hworker⟩ := hlogs.by_worker rfl
      obtain ⟨next, hn, rfl⟩ := Option.map_eq_some_iff.mp he
      generalize b.worker = pc at hworker hn
      cases hworker with
      | closing c event hc => cases hc
      | parked job deadline reason =>
        cases hn
        exact Or.inr (Or.inl ⟨reason, rfl⟩)
  · intro job hin hkey
    rcases step_logs he hin with hin | hlogs
    · obtain ⟨hr, hsafe⟩ := h.executed job hin hkey
      exact ⟨hr.mono hsub, hsafe⟩
    · obtain ⟨-, hlogs⟩ := hlogs.by_worker rfl
      have hg := (reachable_genuine hb).worker
      generalize hw : b.worker = pc at hlogs hg
      cases hlogs with
      | closing c event hc => cases hc
      | executed job cell hl hadmitted =>
        have hwait : Waiting b.state.history job := hg
        refine ⟨hwait.registered.mono hsub, fun hrisky => ?_⟩
        -- an approval took the job, so it was parked, and has no handle any more
        obtain ⟨call, taken, htook, rfl⟩ : ∃ call taken,
            .took (.approve call) taken ∈ b.state.history ∧ job = taken.admit := by
          rcases hwait.admission with hauto | htook
          · rcases hadmitted with happroved | hsafe
            · cases hauto.symm.trans happroved
            · exact absurd hrisky hsafe
          · exact htook
        have hparked := parked_of_took hb htook
        rcases h.parked taken hparked hkey with hnone | ⟨reason, hnotify⟩ | hc
        · cases hnone.symm.trans hl
        · cases hnotify.symm.trans hw
        · rw [hw] at hc
          cases hc

theorem runs_unannounced
    (h : Runs (system config) (fun b act => announces k b act = false) .initial b)
    (hd : DistinctIds b.state.history) : Unannounced k b := by
  refine Runs.invariant_under (H := fun b => DistinctIds b.state.history) (P := Unannounced k) ?_ ?_ h
    (.refl _) ?_ hd
  · exact fun b act t hb he ht => ht.suffix (history_suffix hb he)
  · exact fun b act t hb hguard he ht hp => step_unannounced hb he ht hguard hp
  · constructor <;> simp [ActionBroker.initial, BrokerState.initial]

theorem safe_of_invoked (h : Runs (system config) (fun b act => announces k b act = false) .initial b)
    (hd : DistinctIds b.state.history) (hinvoked : .invoked k ∈ b.state.history) :
    ∃ origin, .registered origin ∈ b.state.history ∧ origin.key = k ∧ ¬ Risky origin.request := by
  have hcount : 0 < b.state.history.countP (Event.isInvoked k) :=
    List.countP_pos_iff.mpr ⟨_, hinvoked, by simp⟩
  have hledger := (reachable_ledger h.free k).invoked
  obtain ⟨event, hin, hexecuted⟩ :=
    List.countP_pos_iff.mp (show 0 < b.state.history.countP (Event.isExecuted k) by omega)
  cases event with
  | executed job =>
    have hkey : job.key = k := by simpa [ofKey] using hexecuted
    obtain ⟨⟨origin, ho, hrequest, -, hsink⟩, hsafe⟩ := (runs_unannounced h hd).executed job hin hkey
    exact ⟨origin, ho, (congrArg JobSink.channel hsink).trans hkey, hrequest ▸ hsafe⟩
  | _ => simp at hexecuted

/-- In every run with distinct ids, the guest of a risky session is started only after the
session's approval request was sent to a receiver that was alive. -/
theorem risky_runs_announced {schedule : List Act}
    (h : (system config).replay Free .initial schedule = some b) (hd : DistinctIds b.state.history)
    {origin : Job} (ho : .registered origin ∈ b.state.history) (hrisky : Risky origin.request)
    (hinvoked : .invoked origin.key ∈ b.state.history) :
    ∃ before act after c, schedule = before ++ act :: after ∧
      (system config).replay Free .initial before = some c ∧ announces origin.key c act = true ∧
        .invoked origin.key ∉ c.state.history := by
  have hnever : ∀ {c : ActionBroker},
      Runs (system config) (fun b act => announces origin.key b act = false) .initial c →
      Runs (system config) Free c b → .invoked origin.key ∉ c.state.history := by
    intro c hc hrest hin
    have hsuffix := runs_history_suffix hc.free hrest
    obtain ⟨other, hother, hkey, hsafe⟩ := safe_of_invoked hc (hd.suffix hsuffix) hin
    have hsame := registered_unique (Reachable.runs hc.free hrest) (hsuffix.subset hother) ho hkey
    exact hsafe (hsame ▸ hrisky)
  rcases (system config).replay_guarded (fun b act => announces origin.key b act = false) h with
    hruns | ⟨before, act, after, c, hschedule, hc, hruns, hannounced, hrest⟩
  · exact absurd hinvoked (hnever hruns (.refl b))
  · exact ⟨before, act, after, c, hschedule, hc, by simpa using hannounced, hnever hruns hrest⟩

end Steps

theorem approved_session_announced : ∃ before act after c, approvedSession ++ [.worker] = before ++ act :: after ∧
    (system sampleConfig).replay Free .initial before = some c ∧
      announces (riskySession 0).key c act = true ∧ .invoked 0 ∉ c.state.history := by
  obtain ⟨b, hb, hfacts⟩ := (Option.any_eq_true _ _).mp
    (show ((system sampleConfig).replay Free .initial (approvedSession ++ [.worker])).any
      (fun b => decide (DistinctIds b.state.history ∧ .registered (riskySession 0) ∈ b.state.history ∧
        .invoked 0 ∈ b.state.history)) = true by decide)
  obtain ⟨hdistinct, hregistered, hinvoked⟩ := of_decide_eq_true hfacts
  exact risky_runs_announced hb hdistinct hregistered ⟨.filesystemWrite, by decide⟩ hinvoked

end FerrousRuntime.Broker
