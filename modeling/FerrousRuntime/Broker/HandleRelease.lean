import FerrousRuntime.Broker.Registry
import FerrousRuntime.Broker.QueueService

/-! # No handle is left behind

Every id in the table of handles is owed its release: a job waits under it, or a thread
stands where it has yet to give the id back. The debt moves with the job from place to
place, so it is never forgotten, whatever ids the callers choose: an entry that two
sessions share is owed by both, and the first release settles it.
-/
namespace FerrousRuntime.Broker
open Tally Lease Transition FerrousRuntime.Runtime

def ActionBroker.outstandingSessions (b : ActionBroker) : ℕ := b.state.handles.entries.length

/-- The call has yet to pass the id on, or to give it back. -/
def CallPc.WillRelease (id : ℕ) : CallPc → Prop
  | .push job => job.id = id
  | .unregister own | .checkCancelled own _ | .requeue own _ => own = id
  | .closing c => c.entry.id = id
  | _ => False

def WorkerPc.WillRelease (id : ℕ) : WorkerPc → Prop
  | .lookup job | .missing job | .begin job _ | .announce job _ | .running job _ _
  | .deadline job _ | .park job _ _ => job.id = id
  | .missingRelease own | .cleanupPending own | .cleanupHandles own => own = id
  | .closing c => c.entry.id = id
  | _ => False

def SweeperPc.WillRelease (id : ℕ) : SweeperPc → Prop
  | .closing c _ => c.entry.id = id
  | _ => False

def BrokerState.WillRelease (id : ℕ) (s : BrokerState) : Prop :=
  (∃ job ∈ s.queue, job.id = id) ∨ ∃ parked, s.pending.lookup id = some parked

def ActionBroker.WillRelease (id : ℕ) (b : ActionBroker) : Prop :=
  b.state.WillRelease id ∨ (∃ pc ∈ b.calls, pc.WillRelease id) ∨ b.worker.WillRelease id ∨ b.sweeper.WillRelease id

section Threads
variable {config : Config} {s : BrokerState} {id : ℕ}

theorem BrokerState.WillRelease.queue {queue : List Job} (h : s.WillRelease id) (hq : s.queue ⊆ queue) :
    { s with queue := queue }.WillRelease id := by
  rcases h with ⟨job, hj, hid⟩ | hp
  · exact Or.inl ⟨job, hq hj, hid⟩
  · exact Or.inr hp

theorem BrokerState.WillRelease.take (h : s.WillRelease id) (own : ℕ) :
    { s with pending := s.pending.erase own }.WillRelease id ∨ own = id := by
  rcases h with hq | ⟨parked, hl⟩
  · exact Or.inl (Or.inl hq)
  · by_cases hid : own = id
    · exact Or.inr hid
    · exact Or.inl (Or.inr ⟨parked, by rw [AList.lookup_erase_ne (Ne.symm hid)]; exact hl⟩)

theorem BrokerState.WillRelease.park (h : s.WillRelease id) (job : Job) (deadline : ℕ) :
    { s with pending := s.pending.insert job.id ⟨job, deadline⟩ }.WillRelease id := by
  rcases h with hq | ⟨parked, hl⟩
  · exact Or.inl hq
  · by_cases hid : id = job.id
    · subst hid
      exact Or.inr ⟨_, AList.lookup_insert _⟩
    · exact Or.inr ⟨parked, by rw [AList.lookup_insert_ne hid]; exact hl⟩

theorem Closing.step_willRelease (closing : Closing) (h : s.WillRelease id) :
    (closing.step s).1.WillRelease id := by
  unfold Closing.step
  split <;> exact h

theorem Closing.step_keeps {closing : Closing} (hid : closing.entry.id = id)
    (hr : closing.releases ≠ some id) : ∃ next, (closing.step s).2 = some next ∧ next.entry.id = id := by
  unfold Closing.step
  split
  · exact ⟨_, rfl, hid⟩
  · exact ⟨_, rfl, hid⟩
  · rename_i hs
    rw [Closing.releases, if_pos hs, hid] at hr
    exact absurd rfl hr

theorem Closing.willRelease_next {closing next : Closing} {t : BrokerState}
    (h : s.WillRelease id ∨ closing.entry.id = id) (hr : closing.releases ≠ some id)
    (hstep : closing.step s = (t, some next)) : t.WillRelease id ∨ next.entry.id = id := by
  rcases h with hs | hid
  · have ht := closing.step_willRelease hs
    rw [hstep] at ht
    exact Or.inl ht
  · obtain ⟨d, hd, hdid⟩ := closing.step_keeps (s := s) hid hr
    rw [hstep] at hd
    cases hd
    exact Or.inr hdid

theorem Closing.willRelease_end {closing : Closing} {t : BrokerState}
    (h : s.WillRelease id ∨ closing.entry.id = id) (hr : closing.releases ≠ some id)
    (hstep : closing.step s = (t, none)) : t.WillRelease id := by
  rcases h with hs | hid
  · have ht := closing.step_willRelease hs
    rw [hstep] at ht
    exact ht
  · obtain ⟨d, hd, -⟩ := closing.step_keeps (s := s) hid hr
    rw [hstep] at hd
    cases hd

theorem callStep_willRelease {n : ℕ} {pc : CallPc} {next : BrokerState × CallPc} (hnamed : pc.Named)
    (hr : pc.releases ≠ some id) (h : s.WillRelease id ∨ pc.WillRelease id)
    (he : callStep config n s pc = some next) : next.1.WillRelease id ∨ next.2.WillRelease id := by
  cases callStep_cases he with
  | enqueued job =>
    left
    rcases h with hs | hid
    · exact hs.queue (List.subset_append_left _ _)
    · exact Or.inl ⟨job, List.mem_append_right _ (List.mem_singleton_self job), hid⟩
  | unregistered own =>
    rcases h with hs | hid
    · exact Or.inl hs
    · exact absurd (congrArg some hid) hr
  | approved own | denied own | cancelled own => exact (h.resolve_right (fun howed => howed)).take own
  | requeued own job =>
    left
    rcases h with hs | hid
    · exact hs.queue (List.subset_append_left _ _)
    · exact Or.inl ⟨job, List.mem_append_right _ (List.mem_singleton_self job), hnamed.trans hid⟩
  | closing c d _ hstep => exact Closing.willRelease_next h hr hstep
  | closed c _ hstep => exact Or.inl (Closing.willRelease_end h hr hstep)
  | unserved | sawCancelled | admitted | stranded => exact h
  | _ => exact Or.inl (h.resolve_right (fun howed => howed))

theorem workerStep_willRelease {pc : WorkerPc} {next : BrokerState × WorkerPc}
    (hr : pc.releases ≠ some id) (h : s.WillRelease id ∨ pc.WillRelease id)
    (he : workerStep config s pc = some next) : next.1.WillRelease id ∨ next.2.WillRelease id := by
  cases workerStep_cases he with
  | popped job rest hq =>
    have hs := h.resolve_right (fun howed => howed)
    rcases hs with ⟨other, hmem, hid⟩ | hp
    · rw [hq] at hmem
      rcases List.mem_cons.mp hmem with rfl | hmem
      · exact Or.inr hid
      · exact Or.inl (Or.inl ⟨other, hmem, hid⟩)
    · exact Or.inl (Or.inr hp)
  | exited | notified | unnotified => exact Or.inl (h.resolve_right (fun howed => howed))
  | forgotten own | released own =>
    rcases h with hs | hid
    · exact Or.inl hs
    · exact absurd (congrArg some hid) hr
  | closing c d _ hstep => exact Closing.willRelease_next h hr hstep
  | closed c _ hstep => exact Or.inl (Closing.willRelease_end h hr hstep)
  | parked job deadline reason =>
    left
    rcases h with hs | hid
    · exact hs.park job deadline
    · exact Or.inr ⟨⟨job, deadline⟩, hid ▸ AList.lookup_insert _⟩
  | discarded own parked =>
    rcases h with hs | hid
    · exact hs.take own
    · exact Or.inr hid
  | _ => exact h

theorem sweeperStep_willRelease {order : List ℕ} {pc : SweeperPc} {next : BrokerState × SweeperPc}
    (hr : pc.releases ≠ some id) (h : s.WillRelease id ∨ pc.WillRelease id)
    (he : sweeperStep s order pc = some next) : next.1.WillRelease id ∨ next.2.WillRelease id := by
  cases sweeperStep_cases he with
  | took own rest parked => exact (h.resolve_right (fun howed => howed)).take own
  | closing c d _ _ hstep => exact Closing.willRelease_next h hr hstep
  | closed c _ _ hstep => exact Or.inl (Closing.willRelease_end h hr hstep)
  | _ => exact h

theorem emit_willRelease {key : ℕ} {event : Option Command.SessionEvent} (h : s.WillRelease id) :
    (s.emit key event).WillRelease id := by
  cases event <;> exact h

theorem enter_willRelease (request : Request) (h : s.WillRelease id) : (enter s request).1.WillRelease id := by
  have hn := enter_cases s request
  generalize enter s request = next at hn ⊢
  cases hn with
  | _ => exact h

end Threads

section Steps
variable {config : Config} {b t : ActionBroker} {act : Act} {id : ℕ}

theorem step_willRelease (hstaff : ServesQueue b) (he : step config b act = some t) (hr : b.releases act ≠ some id)
    (h : b.WillRelease id) : t.WillRelease id := by
  revert hr
  apply step_elim (P := fun t => b.releases act ≠ some id → t.WillRelease id) he
  case call =>
    intro request _ _
    refine h.imp (enter_willRelease request) (Or.imp_left ?_)
    rintro ⟨pc, hpc, hid⟩
    exact ⟨pc, List.mem_append_left _ hpc, hid⟩
  case proceed =>
    rintro n pc next rfl hpc hn hr
    have hlt := (List.getElem?_eq_some_iff.mp hpc).1
    have hown : pc.releases ≠ some id := by simpa [ActionBroker.releases, hpc] using hr
    have hnext : b.state.WillRelease id ∨ pc.WillRelease id →
        ActionBroker.WillRelease id { b with state := next.1, calls := b.calls.set n next.2 } := by
      intro howed
      have hnamed := hstaff.named pc (List.mem_of_getElem? hpc)
      exact (callStep_willRelease hnamed hown howed hn).imp_right
        (fun hid => Or.inl ⟨next.2, List.mem_set hlt next.2, hid⟩)
    rcases h with hs | ⟨other, hmem, hid⟩ | hrest
    · exact hnext (Or.inl hs)
    · obtain ⟨m, hm⟩ := List.mem_iff_getElem?.mp hmem
      by_cases hmn : n = m
      · subst hmn
        cases hpc.symm.trans hm
        exact hnext (Or.inr hid)
      · refine Or.inr (Or.inl ⟨other, List.mem_iff_getElem?.mpr ⟨m, ?_⟩, hid⟩)
        rw [List.getElem?_set_ne hmn]
        exact hm
    · exact Or.inr (Or.inr hrest)
  case worker =>
    rintro next rfl hn hr
    have hnext : b.state.WillRelease id ∨ b.worker.WillRelease id →
        ActionBroker.WillRelease id { b with state := next.1, worker := next.2 } :=
      fun howed => (workerStep_willRelease hr howed hn).imp_right (fun hid => Or.inr (Or.inl hid))
    rcases h with hs | hcall | hw | hsweeper
    · exact hnext (Or.inl hs)
    · exact Or.inr (Or.inl hcall)
    · exact hnext (Or.inr hw)
    · exact Or.inr (Or.inr (Or.inr hsweeper))
  case runtime =>
    rintro a next rfl hn -
    obtain ⟨job, cell, run, effect, hw, -, rfl⟩ := runtimeStep_cases hn
    rw [ActionBroker.WillRelease, hw] at h
    exact h.imp_left emit_willRelease
  case unwind =>
    rintro next rfl hn -
    obtain ⟨job, cell, run, hw, -, rfl⟩ := unwindStep_cases hn
    rw [ActionBroker.WillRelease, hw] at h
    exact h
  case stray =>
    rintro index elapsed stray next rfl - hn -
    obtain ⟨effect, -, rfl⟩ := Option.map_eq_some_iff.mp hn
    exact h.imp_left emit_willRelease
  case sweeper =>
    rintro order next rfl hn hr
    have hnext : b.state.WillRelease id ∨ b.sweeper.WillRelease id →
        ActionBroker.WillRelease id { b with state := next.1, sweeper := next.2 } :=
      fun howed => (sweeperStep_willRelease hr howed hn).imp_right (fun hid => Or.inr (Or.inr hid))
    rcases h with hs | hcall | hw | hsweeper
    · exact hnext (Or.inl hs)
    · exact Or.inr (Or.inl hcall)
    · exact Or.inr (Or.inr (Or.inl hw))
    · exact hnext (Or.inr hsweeper)
  case receiver =>
    intro key drops next hn _
    cases receiverStep_cases hn <;> exact h
  case tick => exact fun _ _ => h
  case drop => exact fun _ _ _ => h
  case dropping =>
    intro next hn _
    cases dropStep_cases hn <;> exact h

theorem registers_willRelease {job : Job} (he : step config b act = some t)
    (hr : b.registers config act = some job) : t.WillRelease job.id := by
  obtain ⟨n, rfl, hpc, hroom⟩ := registers_eq_some hr
  have hlt := (List.getElem?_eq_some_iff.mp hpc).1
  simp only [step, hpc, Option.bind_some, callStep, if_neg (Nat.not_le.mpr hroom), Option.map_some,
    Option.some.injEq] at he
  subst he
  exact Or.inr (Or.inl ⟨.push job, List.mem_set hlt _, rfl⟩)

theorem step_covered (hstaff : ServesQueue b) (he : step config b act = some t)
    (h : Covered b.state.handles (fun id => b.WillRelease id)) :
    Covered t.state.handles (fun id => t.WillRelease id) := by
  rw [step_handles he]
  cases hr : b.registers config act with
  | some job =>
    have hrel := releases_of_registers hr
    exact h.insert (fun id => step_willRelease hstaff he (by simp [hrel])) (registers_willRelease he hr)
  | none =>
    cases hrel : b.releases act with
    | none => exact h.mono (fun id _ => step_willRelease hstaff he (by simp [hrel]))
    | some own =>
      refine h.erase (fun id hne => step_willRelease hstaff he ?_)
      rw [hrel]
      exact fun heq => hne (Option.some.inj heq).symm

end Steps

section Reachable
variable {config : Config} {b : ActionBroker}

theorem Quiescent.releases_nothing (h : Quiescent b) (id : ℕ) : ¬ b.WillRelease id := by
  rintro ((⟨job, hmem, -⟩ | ⟨parked, hl⟩) | ⟨pc, hpc, hid⟩ | hid | hid)
  · rw [h.queue] at hmem
    cases hmem
  · have hmem := AList.mem_lookup_iff.mp hl
    rw [h.pending] at hmem
    cases hmem
  · have hdone := List.all_eq_true.mp h.calls pc hpc
    cases pc with
    | done result => exact hid
    | _ => cases hdone
  · have hidle := h.worker
    cases hw : b.worker with
    | idle => rw [hw] at hid; exact hid
    | _ => rw [hw] at hidle; cases hidle
  · have hopen := h.sweeper
    cases hs : b.sweeper with
    | closing c rest => rw [hs] at hopen; cases hopen
    | _ => rw [hs] at hid; exact hid

/-- In every reachable state each handle is owed its release, and once nothing is in
progress there is no handle left and the next submission finds room. -/
theorem no_capacity_leak (h : Reachable (system config) b) :
    Covered b.state.handles (fun id => b.WillRelease id) ∧
      (Quiescent b → b.outstandingSessions = 0 ∧
        ∀ n job, (callStep config n b.state (.enqueue job)).map (fun next => next.2) =
          some (.push job)) := by
  have hcovered : Covered b.state.handles (fun id => b.WillRelease id) := by
    refine Runs.invariant_of_reachable (P := fun b => Covered b.state.handles (fun id => b.WillRelease id))
      (fun b act t hb _ he hp => step_covered (reachable_servesQueue hb) he hp) h (.refl _) ?_
    intro id hid
    exact absurd hid (AList.notMem_empty id)
  refine ⟨hcovered, fun hq => ?_⟩
  have hempty : b.outstandingSessions = 0 := by
    rw [ActionBroker.outstandingSessions, hcovered.entries_eq_nil hq.releases_nothing, List.length_nil]
  refine ⟨hempty, fun n job => ?_⟩
  have hroom : ¬ b.state.handles.entries.length ≥ config.capacity := by
    have hpos := config.capacity_pos
    rw [ActionBroker.outstandingSessions] at hempty
    omega
  simp only [callStep, if_neg hroom, Option.map_some]

end Reachable

/-- Two sessions under one id: the first runs and panics, the second is denied for want of
the handle that the first released. -/
def sharedHandle : List Act := submission 0 1 false .read ++ submission 1 1 false .read ++
  ([.worker, .worker, .worker, .runtime .main, .unwind, .worker, .worker, .worker] : List Act) ++
  ([.worker, .worker, .worker, .worker] : List Act)

theorem shared_handle_released : ∃ b, Quiescent b ∧ ¬ DistinctIds b.state.history ∧
    b.outstandingSessions = 0 := by
  obtain ⟨b, hb, hq, hshared⟩ := (system sampleConfig).reachable_of_replay
    (fun b => Quiescent b ∧ ¬ DistinctIds b.state.history) sharedHandle (by decide)
  exact ⟨b, hq, hshared, ((no_capacity_leak hb).2 hq).1⟩

end FerrousRuntime.Broker
