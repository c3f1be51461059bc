import FerrousRuntime.Broker.Endings
import FerrousRuntime.Broker.Trace

/-! # Who is parked

`pending` changes in three ways: the worker parks a job, a decider takes one, the clean-up
after a failed notification discards one. Each is logged, so the history accounts for what
is parked: a session was parked once, and is parked still unless one of the three moved it.
-/
namespace FerrousRuntime.Broker
open Tally Transition FerrousRuntime.Runtime Policy

@[simp] def Event.isTook (k : ℕ) : Event → Bool
  | .took _ job => ofKey k job
  | _ => false

def Event.isMove : Event → Bool
  | .took _ _ | .parked _ | .displaced _ | .discarded _ => true
  | _ => false

/-- What a step does to `pending`, and what it logs of it. -/
inductive Moves (b t : ActionBroker) : Prop
  | none (logged : List Event) : t.state.history = logged ++ b.state.history →
    (∀ event ∈ logged, event.isMove = false) → t.state.pending = b.state.pending → Moves b t
  | took (decider : Decider) (id : ℕ) (parked : PendingJob) : b.state.pending.lookup id = some parked →
    t.state.history = .took decider parked.job :: b.state.history →
    t.state.pending = b.state.pending.erase id → Moves b t
  | parked (job : Job) (deadline : ℕ) (reason : Command.ApprovalReason) :
    b.worker = .park job deadline reason →
    t.state.history = .parked job :: (displacement (b.state.pending.lookup job.id) ++ b.state.history) →
    t.state.pending = b.state.pending.insert job.id ⟨job, deadline⟩ →
    t.worker = .notify job.sink job.id reason → Moves b t
  | discarded (id : ℕ) (parked : PendingJob) : b.state.pending.lookup id = some parked →
    t.state.history = .discarded parked.job :: b.state.history →
    t.state.pending = b.state.pending.erase id → Moves b t

section Threads
variable {config : Config} {b t : ActionBroker} {s : BrokerState}

theorem Moves.same (hh : t.state.history = b.state.history) (hp : t.state.pending = b.state.pending) :
    Moves b t := .none [] hh (by simp) hp

theorem Moves.log {event : Event} (hh : t.state.history = event :: b.state.history)
    (he : event.isMove = false) (hp : t.state.pending = b.state.pending) : Moves b t :=
  .none [event] hh (by simpa using he) hp

theorem Closing.step_unmoved (s : BrokerState) (closing : Closing) :
    (closing.step s).1.pending = s.pending ∧ ((closing.step s).1.history = s.history ∨
      ∃ event, (closing.step s).1.history = event :: s.history ∧ event.isMove = false) := by
  unfold Closing.step
  split
  · exact ⟨rfl, Or.inr ⟨_, rfl, rfl⟩⟩
  · exact ⟨rfl, Or.inr ⟨_, rfl, rfl⟩⟩
  · exact ⟨rfl, Or.inl rfl⟩

theorem Moves.closing {c : Closing} (h : t.state = (c.step b.state).1) : Moves b t := by
  obtain ⟨hp, hh | ⟨event, hh, he⟩⟩ := Closing.step_unmoved b.state c
  · exact .same (h ▸ hh) (h ▸ hp)
  · exact .log (h ▸ hh) he (h ▸ hp)

theorem proceed_moves {n : ℕ} {pc : CallPc} {next : BrokerState × CallPc}
    (hn : callStep config n b.state pc = some next) (ht : t.state = next.1) : Moves b t := by
  cases callStep_cases hn with
  | registered | enqueued | flagged => exact .log (by rw [ht]) rfl (by rw [ht])
  | sawCancelled | stranded => exact .log (by rw [ht]; rfl) rfl (by rw [ht]; rfl)
  | unregistered => exact .same (by rw [ht]; rfl) (by rw [ht]; rfl)
  | approved id parked hl | denied id parked hl | cancelled id parked hl =>
    exact .took _ id parked hl (by rw [ht]; rfl) (by rw [ht]; rfl)
  | closing c _ _ hs | closed c _ hs => exact .closing (c := c) (by rw [ht, hs])
  | _ => exact .same (by rw [ht]) (by rw [ht])

theorem worker_moves {next : BrokerState × WorkerPc}
    (hn : workerStep config b.state b.worker = some next) (ht : t.state = next.1)
    (hpc : t.worker = next.2) : Moves b t := by
  generalize hw : b.worker = pc at hn
  cases workerStep_cases hn with
  | missing | executed | denied | invoked | panicked | notified | unnotified =>
    exact .log (by rw [ht]; rfl) rfl (by rw [ht]; rfl)
  | forgotten | released => exact .same (by rw [ht]; rfl) (by rw [ht]; rfl)
  | started job cell =>
    exact .none [.invoked job.key, .sent job.key (.event .started)] (by rw [ht]; rfl)
      (by simp [Event.isMove]) (by rw [ht]; rfl)
  | closing c _ _ hs | closed c _ hs => exact .closing (c := c) (by rw [ht, hs])
  | parked job deadline reason => exact .parked job deadline reason hw (by rw [ht]) (by rw [ht]) hpc
  | discarded id parked hl => exact .discarded id parked hl (by rw [ht]) (by rw [ht])
  | _ => exact .same (by rw [ht]) (by rw [ht])

theorem sweeper_moves {order : List ℕ} {pc : SweeperPc} {next : BrokerState × SweeperPc}
    (hn : sweeperStep b.state order pc = some next) (ht : t.state = next.1) : Moves b t := by
  cases sweeperStep_cases hn with
  | took id rest parked hl => exact .took _ id parked hl (by rw [ht]; rfl) (by rw [ht]; rfl)
  | closing c _ _ _ hs | closed c _ _ hs => exact .closing (c := c) (by rw [ht, hs])
  | _ => exact .same (by rw [ht]) (by rw [ht])

theorem emit_moves {key : ℕ} {event : Option Command.SessionEvent} (hh : s.history = b.state.history)
    (hp : s.pending = b.state.pending) (ht : t.state = s.emit key event) : Moves b t := by
  cases event with
  | none => exact .same (by rw [ht]; exact hh) (by rw [ht]; exact hp)
  | some e => exact .log (by rw [ht, ← hh]; rfl) rfl (by rw [ht, ← hp]; rfl)

end Threads

section Steps
variable {config : Config} {b t : ActionBroker} {act : Act}

theorem step_pending (he : step config b act = some t) : Moves b t := by
  apply step_elim (P := fun t => Moves b t) he
  case call =>
    intro request _
    have hn := enter_cases b.state request
    generalize enter b.state request = next at hn ⊢
    cases hn <;> exact .same rfl rfl
  case proceed => exact fun n pc next _ _ hn => proceed_moves hn rfl
  case worker => exact fun next _ hn => worker_moves hn rfl rfl
  case runtime =>
    intro a next _ hn
    obtain ⟨job, cell, run, effect, -, -, rfl⟩ := runtimeStep_cases hn
    exact emit_moves (s := { b.state with epoch := effect.epoch }) rfl rfl rfl
  case unwind =>
    intro next _ hn
    obtain ⟨job, cell, run, -, -, rfl⟩ := unwindStep_cases hn
    exact .log rfl rfl rfl
  case stray =>
    intro index elapsed stray next _ _ hn
    obtain ⟨effect, -, rfl⟩ := Option.map_eq_some_iff.mp hn
    exact emit_moves (s := { b.state with epoch := effect.epoch }) rfl rfl rfl
  case sweeper => exact fun order next _ hn => sweeper_moves hn rfl
  case receiver =>
    intro key drops next hn
    cases receiverStep_cases hn with
    | dropped => exact .same rfl rfl
    | received message rest => exact .log rfl rfl rfl
  case tick => exact fun _ => .same rfl rfl
  case drop => exact fun _ _ => .same rfl rfl
  case dropping =>
    intro next hn
    cases dropStep_cases hn <;> exact .same rfl rfl

/-- A job is in `pending` from before, or the worker just parked it. -/
theorem pending_or_parked (he : step config b act = some t) {id : ℕ} {parked : PendingJob}
    (hl : t.state.pending.lookup id = some parked) :
    b.state.pending.lookup id = some parked ∨ act = .worker ∧ parked.job.id = id ∧
      ∃ reason, b.worker = .park parked.job parked.deadline reason ∧
        t.worker = .notify parked.job.sink id reason := by
  cases step_pending he with
  | none logged _ _ hp => exact Or.inl (hp ▸ hl)
  | took decider own old _ _ hp => exact Or.inl (lookup_of_erase (hp ▸ hl))
  | parked job deadline reason hw _ hp hnotify =>
    rcases lookup_of_insert (hp ▸ hl) with ⟨rfl, rfl⟩ | ⟨-, hold⟩
    · right
      rcases step_worker he with hsame | ⟨next, ha, -⟩ | ⟨other, cell, run, hrun, -⟩
      · cases hnotify.symm.trans (hsame.trans hw)
      · exact ⟨ha, rfl, reason, hw, hnotify⟩
      · cases hw.symm.trans hrun
    · exact Or.inl hold
  | discarded own old _ _ hp => exact Or.inl (lookup_of_erase (hp ▸ hl))

/-- The history accounts for a session's place in `pending`. -/
structure Parking (k : ℕ) (b : ActionBroker) : Prop where
  gone : values (fun parked => ofKey k parked.job) b.state.pending +
    b.state.history.countP (Event.isTook k) + b.state.history.countP (Event.isDiscarded k) ≤
      b.state.history.countP (Event.isParked k)
  kept : b.state.history.countP (Event.isParked k) ≤
    values (fun parked => ofKey k parked.job) b.state.pending +
      b.state.history.countP (Event.isTook k) + b.state.history.countP (Event.isDiscarded k) +
        b.state.history.countP (Event.isLost k)

theorem countP_unmoved {p : Event → Bool} (hp : ∀ event, event.isMove = false → p event = false)
    {logged : List Event} (h : ∀ event ∈ logged, event.isMove = false) (history : List Event) :
    (logged ++ history).countP p = history.countP p := by
  have hzero : logged.countP p = 0 := by
    rw [List.countP_eq_zero]
    intro event he
    simp [hp event (h event he)]
  rw [List.countP_append, hzero, zero_add]

theorem step_parking {k : ℕ} (he : step config b act = some t) (h : Parking k b) : Parking k t := by
  obtain ⟨hgone, hkept⟩ := h
  cases step_pending he with
  | none logged hh hidle hp =>
    have htook := countP_unmoved (p := Event.isTook k)
      (fun event hm => by cases event <;> first | rfl | cases hm) hidle b.state.history
    have hdiscarded := countP_unmoved (p := Event.isDiscarded k)
      (fun event hm => by cases event <;> first | rfl | cases hm) hidle b.state.history
    have hparked := countP_unmoved (p := Event.isParked k)
      (fun event hm => by cases event <;> first | rfl | cases hm) hidle b.state.history
    have hlost : (logged ++ b.state.history).countP (Event.isLost k) =
        logged.countP (Event.isLost k) + b.state.history.countP (Event.isLost k) := List.countP_append
    rw [← hh] at htook hdiscarded hparked hlost
    constructor
    · rw [hp]; omega
    · rw [hp]; omega
  | took decider id parked hl hh hp =>
    have hv := values_erase_some (fun other => ofKey k other.job) hl
    constructor <;> rw [hh, hp] <;> simp [countP_cons_one] at * <;> omega
  | parked job deadline reason _ hh hp =>
    have hv := values_insert (fun other => ofKey k other.job) b.state.pending job.id ⟨job, deadline⟩
    cases hl : b.state.pending.lookup job.id with
    | none =>
      have hold := values_erase_none (fun other => ofKey k other.job) hl
      rw [hl] at hh
      constructor <;> rw [hh, hp] <;> simp [displacement, countP_cons_one] at * <;> omega
    | some old =>
      have hold := values_erase_some (fun other => ofKey k other.job) hl
      rw [hl] at hh
      constructor <;> rw [hh, hp] <;> simp [displacement, countP_cons_one] at * <;> omega
  | discarded id parked hl hh hp =>
    have hv := values_erase_some (fun other => ofKey k other.job) hl
    constructor <;> rw [hh, hp] <;> simp [countP_cons_one] at * <;> omega

theorem reachable_parking (h : Reachable (system config) b) (k : ℕ) : Parking k b :=
  Reachable.invariant (fun _ _ _ he hp => step_parking he hp) h ⟨Nat.le_refl _, Nat.le_refl _⟩

theorem took_once (h : Reachable (system config) b) (k : ℕ) :
    b.state.history.countP (Event.isTook k) ≤ 1 := by
  have hgone := (reachable_parking h k).gone
  have hone := parked_once h k
  omega

theorem parked_of_took (h : Reachable (system config) b) {decider : Decider} {job : Job}
    (ht : .took decider job ∈ b.state.history) : .parked job ∈ b.state.history := by
  obtain ⟨past, hpast, hlast⟩ := (reachable_genuine h).state.warranted.of_mem ht
  obtain ⟨-, recent, earlier, rfl, -⟩ := lastParked_eq_some hlast
  exact hpast.subset (by simp)

def WorkerPc.Asks : WorkerPc → Prop
  | .deadline job _ | .park job _ _ => Risky job.request
  | _ => True

theorem workerStep_asks {s : BrokerState} {pc : WorkerPc} {next : BrokerState × WorkerPc} (h : pc.Asks)
    (he : workerStep config s pc = some next) : next.2.Asks := by
  cases workerStep_cases he with
  | deferred job cell reason _ hrisk => exact ⟨reason, hrisk⟩
  | timed job reason => exact h
  | _ => trivial

theorem reachable_asks (h : Reachable (system config) b) :
    b.worker.Asks ∧ ∀ job, .parked job ∈ b.state.history → Risky job.request := by
  refine Reachable.invariant
    (P := fun b => b.worker.Asks ∧ ∀ job, .parked job ∈ b.state.history → Risky job.request) ?_ h
    ⟨trivial, by simp [system, ActionBroker.initial, BrokerState.initial]⟩
  rintro b act t he ⟨hw, hp⟩
  refine ⟨?_, fun job hin => ?_⟩
  · exact step_position (fun _ hn => workerStep_asks hw hn) (fun _ _ _ _ _ _ _ _ _ => trivial)
      (fun _ => trivial) he hw
  · rcases step_logs he hin with hin | hlogs
    · exact hp job hin
    · obtain ⟨-, hlogs⟩ := hlogs.by_worker rfl
      generalize b.worker = pc at hlogs hw
      cases hlogs with
      | closing c event hc => cases hc
      | parked job deadline reason => exact hw

end Steps
end FerrousRuntime.Broker
