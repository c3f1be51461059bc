import FerrousRuntime.Broker.WaitingHandles

/-! # Shutdown

`drop` waits for the worker to empty the queue and for the sweeper to leave its loop, and
concludes no session itself. So a session is left without a terminal message exactly where
its job stays in `pending` for good: nobody looks there after the sweeper's last round.
-/
namespace FerrousRuntime.Broker
open Tally Transition FerrousRuntime.Runtime

/-- The sweeper leaves its loop while a job is parked, or the worker parks one that replaces
another or that the sweeper will not find any more. -/
def abandons (b : ActionBroker) : Act → Bool
  | .worker => match b.worker with
    | .park job _ _ => (b.state.pending.lookup job.id).isSome || b.sweeper.isExited
    | _ => false
  | .sweeper _ => match b.sweeper with
    | .head => b.state.stopped && !b.state.pending.entries.isEmpty
    | _ => false
  | _ => false

structure Attended (b : ActionBroker) : Prop where
  emptied : b.sweeper.isExited = true → ∀ id, b.state.pending.lookup id = none
  undisplaced : ∀ job, .displaced job ∉ b.state.history

/-- The job that a failed notification removes is the one whose receiver is gone. -/
structure DiscardsDropped (b : ActionBroker) : Prop where
  notified : ∀ sink id reason, b.worker = .notify sink id reason →
    ∀ parked, b.state.pending.lookup id = some parked → parked.job.key = sink.channel
  cleaning : ∀ id, b.worker = .cleanupPending id →
    ∀ parked, b.state.pending.lookup id = some parked → parked.job.key ∈ b.state.dropped
  discarded : ∀ job, .discarded job ∈ b.state.history → job.key ∈ b.state.dropped

section Threads
variable {config : Config} {s : BrokerState}

theorem Closing.step_dropped (s : BrokerState) (closing : Closing) :
    (closing.step s).1.dropped = s.dropped := by
  unfold Closing.step
  split <;> rfl

/-- The worker drops no receiver, notifies after parking, and cleans up after a
notification that failed. -/
theorem workerStep_notifies {pc : WorkerPc} {next : BrokerState × WorkerPc}
    (he : workerStep config s pc = some next) : next.1.dropped = s.dropped ∧
      (∀ sink id reason, next.2 = .notify sink id reason → ∃ job deadline,
        next.1.pending.lookup id = some ⟨job, deadline⟩ ∧ job.sink = sink) ∧
      ∀ id, next.2 = .cleanupPending id → ∃ sink reason, pc = .notify sink id reason ∧
        sink.channel ∈ s.dropped := by
  cases workerStep_cases he with
  | parked job deadline reason =>
    refine ⟨rfl, ?_, by simp⟩
    rintro _ _ _ ⟨⟩
    exact ⟨job, deadline, AList.lookup_insert _, rfl⟩
  | unnotified sink own reason hdropped =>
    refine ⟨rfl, by simp, ?_⟩
    rintro _ ⟨⟩
    exact ⟨sink, reason, rfl, by simpa using hdropped⟩
  | closing c _ _ hs | closed c _ hs =>
    have hc := Closing.step_dropped s c
    rw [hs] at hc
    exact ⟨hc, by simp, by simp⟩
  | _ => exact ⟨rfl, by simp, by simp⟩

theorem sweeperStep_exited {order : List ℕ} {pc : SweeperPc} {next : BrokerState × SweeperPc}
    (he : sweeperStep s order pc = some next) (hx : next.2.isExited = true) :
    pc = .head ∧ s.stopped = true ∧ next.1 = s := by
  cases sweeperStep_cases he with
  | stopped hs => exact ⟨rfl, hs, rfl⟩
  | _ => cases hx

end Threads

section Steps
variable {config : Config} {b t : ActionBroker} {act : Act}

theorem step_dropped (hb : Reachable (system config) b) (he : step config b act = some t) :
    b.state.dropped ⊆ t.state.dropped := by
  have hstaff := reachable_servesQueue hb
  apply step_elim (P := fun t => b.state.dropped ⊆ t.state.dropped) he
  case call => exact fun request _ => (enter_frame (k := 0) b.state request).1.dropped.subset
  case proceed =>
    intro n pc next _ hpc hn
    have hserves := hstaff.serves (hstaff.undropped (List.mem_of_getElem? hpc) (callStep_not_done hn))
    exact (callStep_frame (k := 0) hserves hn).1.dropped.subset
  case worker =>
    intro next _ hn key hkey
    rw [(workerStep_notifies hn).1]
    exact hkey
  case runtime => exact fun a next _ hn => (runtimeStep_frame (k := 0) hn).1.dropped.subset
  case unwind => exact fun next _ hn => (unwindStep_frame (k := 0) hn).1.dropped.subset
  case stray => exact fun index elapsed stray next _ _ hn => (strayStep_frame (k := 0) hn).1.dropped.subset
  case sweeper => exact fun order next _ hn => (sweeperStep_frame (k := 0) hn).1.dropped.subset
  case receiver => exact fun key drops next hn => (receiverStep_frame (k := 0) hn).1.dropped.subset
  case tick => exact fun _ => List.Subset.refl _
  case drop => exact fun _ _ => List.Subset.refl _
  case dropping =>
    intro next hn
    cases dropStep_cases hn <;> exact List.Subset.refl _

theorem step_discardsDropped (hb : Reachable (system config) b) (he : step config b act = some t)
    (h : DiscardsDropped b) : DiscardsDropped t := by
  have hdropped := step_dropped hb he
  refine ⟨?_, ?_, ?_⟩
  · intro sink id reason hw parked hl
    rcases step_worker he with hsame | ⟨next, -, hn, hstate, hnext⟩ | ⟨job, cell, run, -, ⟨run', hrun⟩ | hpanic⟩
    · rcases pending_or_parked he hl with hold | ⟨-, -, reason', hpark, -⟩
      · exact h.notified sink id reason (hsame ▸ hw) parked hold
      · cases hpark.symm.trans (hsame.symm.trans hw)
    · obtain ⟨job, deadline, hown, rfl⟩ := (workerStep_notifies hn).2.1 sink id reason (hnext ▸ hw)
      rw [hstate, hown] at hl
      cases hl
      rfl
    · cases hrun.symm.trans hw
    · cases hpanic.symm.trans hw
  · intro id hw parked hl
    rcases pending_or_parked he hl with hold | ⟨-, -, reason, -, hnotify⟩
    · rcases step_worker he with hsame | ⟨next, -, hn, -, hnext⟩ | ⟨job, cell, run, -, ⟨run', hrun⟩ | hpanic⟩
      · exact hdropped (h.cleaning id (hsame ▸ hw) parked hold)
      · obtain ⟨sink, reason, hnotify, hgone⟩ := (workerStep_notifies hn).2.2 id (hnext ▸ hw)
        rw [h.notified sink id reason hnotify parked hold]
        exact hdropped hgone
      · cases hrun.symm.trans hw
      · cases hpanic.symm.trans hw
    · cases hnotify.symm.trans hw
  · intro job hin
    rcases step_logs he hin with hin | hlogs
    · exact hdropped (h.discarded job hin)
    · obtain ⟨-, hlogs⟩ := hlogs.by_worker rfl
      generalize hw : b.worker = pc at hlogs
      cases hlogs with
      | closing c event hc => cases hc
      | discarded id parked hl => exact hdropped (h.cleaning id hw parked hl)

theorem reachable_discardsDropped (h : Reachable (system config) b) : DiscardsDropped b := by
  refine Runs.invariant_of_reachable (P := DiscardsDropped)
    (fun b act t hb _ he hp => step_discardsDropped hb he hp) h
    (.refl _) ⟨?_, ?_, ?_⟩ <;>
    simp [system, ActionBroker.initial, BrokerState.initial]

theorem step_sweeper (he : step config b act = some t) (ht : t.sweeper.isExited = true) :
    b.sweeper.isExited = true ∨ ∃ order, act = .sweeper order ∧ b.sweeper = .head ∧
      b.state.stopped = true ∧ t.state = b.state := by
  revert ht
  apply step_elim (P := fun t => t.sweeper.isExited = true → b.sweeper.isExited = true ∨
    ∃ order, act = .sweeper order ∧ b.sweeper = .head ∧ b.state.stopped = true ∧ t.state = b.state) he
  case sweeper =>
    intro order next ha hn ht
    obtain ⟨hhead, hstopped, hstate⟩ := sweeperStep_exited hn ht
    exact Or.inr ⟨order, ha, hhead, hstopped, hstate⟩
  all_goals
    intros
    exact Or.inl ‹_›

theorem step_attended (he : step config b act = some t) (hguard : abandons b act = false)
    (h : Attended b) : Attended t := by
  refine ⟨?_, ?_⟩
  · intro hexited id
    by_contra hne
    obtain ⟨parked, hl⟩ := Option.ne_none_iff_exists'.mp hne
    rcases step_sweeper he hexited with hold | ⟨order, rfl, hhead, hstopped, hstate⟩
    · rcases pending_or_parked he hl with hpending | ⟨rfl, -, reason, hw, -⟩
      · simp [h.emptied hold id] at hpending
      · simp [abandons, hw, hold] at hguard
    · rw [hstate] at hl
      have hempty : b.state.pending.entries = [] := by
        simpa [abandons, hhead, hstopped] using hguard
      have hmem := AList.mem_lookup_iff.mp hl
      rw [hempty] at hmem
      cases hmem
  · intro job hin
    rcases step_logs he hin with hin | hlogs
    · exact h.undisplaced job hin
    · obtain ⟨rfl, hworker⟩ := hlogs.by_worker rfl
      generalize hw : b.worker = pc at hworker
      cases hworker with
      | closing c event hc => cases hc
      | displaced other deadline reason old hl => simp [abandons, hw, hl] at hguard

theorem runs_attended (h : Runs (system config) (fun b act => abandons b act = false) .initial b) :
    Attended b := by
  refine Runs.invariant (P := Attended) (fun b act t hguard he hp => step_attended he hguard hp) h ⟨?_, ?_⟩
  · exact fun hexited => absurd hexited (by simp [ActionBroker.initial, SweeperPc.isExited])
  · simp [ActionBroker.initial, BrokerState.initial]

theorem ServesQueue.footprint {k : ℕ} (h : ServesQueue b) (hdrop : b.drop = .dropped) :
    b.state.queue = [] ∧ b.footprint k = 0 := by
  have hworker := h.joined (Or.inr hdrop)
  have hsweeper := h.swept hdrop
  have hcalls : (b.calls.map (CallPc.footprint k)).sum = 0 := by
    refine List.sum_eq_zero fun f hf => ?_
    obtain ⟨pc, hpc, rfl⟩ := List.mem_map.mp hf
    have hdone := List.all_eq_true.mp (h.calls (by simp [hdrop])) pc hpc
    cases pc with
    | done result => rfl
    | _ => cases hdone
  refine ⟨(h.exited hworker).2, ?_⟩
  cases hw : b.worker with
  | exited =>
    cases hs : b.sweeper with
    | exited => simp [ActionBroker.footprint, hcalls, hw, hs, WorkerPc.footprint, SweeperPc.footprint]
    | _ => rw [hs] at hsweeper; cases hsweeper
  | _ => rw [hw] at hworker; cases hworker

/-- In every run in which no session is abandoned, once `drop` has returned every accepted
session whose receiver is held was sent exactly one terminal message. -/
theorem shutdown_concludes (h : Runs (system config) (fun b act => abandons b act = false) .initial b)
    (hdrop : b.drop = .dropped) {k : ℕ} (hk : 0 < b.state.history.countP (Event.isEnqueued k))
    (halive : k ∉ b.state.dropped) : b.state.history.countP (Event.isConcluded k) = 1 := by
  have hledger := reachable_ledger h.free k
  have howned := hledger.owned
  have hborn := hledger.born_le
  obtain ⟨hqueue, hfootprint⟩ := (reachable_servesQueue h.free).footprint (k := k) hdrop
  have hattended := runs_attended h
  have hpending : values (fun parked => ofKey k parked.job) b.state.pending = 0 := by
    rw [values, List.countP_eq_zero]
    rintro ⟨id, parked⟩ hmem -
    have hlookup := AList.mem_lookup_iff.mpr hmem
    rw [hattended.emptied ((reachable_servesQueue h.free).swept hdrop) id] at hlookup
    cases hlookup
  have hlost : b.state.history.countP (Event.isLost k) = 0 := by
    rw [List.countP_eq_zero]
    intro event hin hlost
    cases event with
    | displaced job => exact hattended.undisplaced job hin
    | stranded job => exact reachable_unstranded h.free job hin
    | _ => simp at hlost
  have hdiscarded : b.state.history.countP (Event.isDiscarded k) = 0 := by
    rw [List.countP_eq_zero]
    intro event hin hevent
    cases event with
    | discarded job =>
      have hkey : job.key = k := by simpa [ofKey] using hevent
      exact halive (hkey ▸ (reachable_discardsDropped h.free).discarded job hin)
    | _ => simp at hevent
  rw [hqueue, hfootprint] at howned
  simp only [List.countP_nil, Footprint.zero_holds] at howned
  omega

end Steps

def shutdown (steps : ℕ) : List Act := ([.drop, .dropStep, .dropStep, .dropStep] : List Act) ++
  List.replicate steps Act.worker ++ ([.sweeper [], .dropStep, .dropStep] : List Act)

/-- A session that awaits its approval when the broker is dropped is sent nothing more. -/
theorem parked_session_vanishes : ∃ b, Reachable (system sampleConfig) b ∧ b.drop = .dropped ∧
    b.state.dropped = [] ∧ 0 < b.state.history.countP (Event.isEnqueued 0) ∧
      b.state.history.countP (Event.isConcluded 0) = 0 :=
  (system sampleConfig).reachable_of_replay
    (fun b => b.drop = .dropped ∧ b.state.dropped = [] ∧
      0 < b.state.history.countP (Event.isEnqueued 0) ∧
        b.state.history.countP (Event.isConcluded 0) = 0)
    (submission 0 1 false .readWrite ++ parking ++ ([.worker] : List Act) ++ shutdown 1) (by decide)

theorem queued_session_concluded : ∃ b : ActionBroker, b.drop = .dropped ∧
    b.state.history.countP (Event.isConcluded 0) = 1 := by
  obtain ⟨b, hruns, hdrop, hk, halive⟩ := (system sampleConfig).exists_of_replay
    (fun b act => abandons b act = false)
    (fun b => b.drop = .dropped ∧ 0 < b.state.history.countP (Event.isEnqueued 0) ∧ 0 ∉ b.state.dropped)
    .initial (submission 0 1 false .read ++ shutdown 7) (by decide)
  exact ⟨b, hdrop, shutdown_concludes hruns hdrop hk halive⟩

end FerrousRuntime.Broker
