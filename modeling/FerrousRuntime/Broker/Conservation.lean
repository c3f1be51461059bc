import FerrousRuntime.Broker.ApprovalIdentity

/-! # No session is lost, none is concluded twice

In the ledger a job can go away with nobody told: replaced in `pending`, refused by a
closed queue, or removed because its caller is gone. In an undropped broker with
distinct ids and living receivers none of the three happens, so what the ledger adds
up is exactly one place for each accepted session.
-/
namespace FerrousRuntime.Broker
open Tally Transition Policy FerrousRuntime.Runtime

def Event.clashes : Event → Event → Bool
  | .registered job, .registered other => job.id == other.id && job.key != other.key
  | _, _ => false

/-- No id was registered by two sessions. -/
def DistinctIds (history : List Event) : Prop :=
  ∀ event ∈ history, ∀ other ∈ history, event.clashes other = false

instance (history : List Event) : Decidable (DistinctIds history) :=
  inferInstanceAs (Decidable (∀ event ∈ history, ∀ other ∈ history, event.clashes other = false))

theorem DistinctIds.key_eq {history : List Event} {job other : Job} (h : DistinctIds history)
    (hj : .registered job ∈ history) (ho : .registered other ∈ history) (hid : job.id = other.id) :
    job.key = other.key := by
  simpa [Event.clashes, hid] using h _ hj _ ho

theorem DistinctIds.suffix {past history : List Event} (h : DistinctIds history)
    (hp : past <:+ history) : DistinctIds past :=
  fun event he other ho => h event (hp.subset he) other (hp.subset ho)

/-- What a step of a thread leaves alone, as long as the queue is open. -/
structure Frame (k : ℕ) (s t : BrokerState) : Prop where
  queueOpen : t.queueOpen = s.queueOpen
  served : s.queueOpen = true → t.served = s.served
  dropped : s.dropped <:+ t.dropped
  lost : t.history.countP (Event.isLost k) = s.history.countP (Event.isLost k)

namespace Frame
variable {k : ℕ} {s t : BrokerState}

theorem refl (k : ℕ) (s : BrokerState) : Frame k s s := ⟨rfl, fun _ => rfl, List.suffix_refl _, rfl⟩

theorem log {event : Event} (h : event.isLost k = false) : Frame k s (s.log event) :=
  ⟨rfl, fun _ => rfl, List.suffix_refl _, by rw [BrokerState.log, countP_cons_one, h, one_false, zero_add]⟩

theorem send (key : ℕ) (message : Message) : Frame k s (s.send key message) :=
  ⟨rfl, fun _ => rfl, List.suffix_refl _, by simp [BrokerState.send]⟩

theorem trans {u : BrokerState} (h : Frame k s t) (h' : Frame k t u) : Frame k s u :=
  ⟨h'.queueOpen.trans h.queueOpen, fun ho => (h'.served (h.queueOpen.trans ho)).trans (h.served ho),
    h.dropped.trans h'.dropped, h'.lost.trans h.lost⟩

end Frame

section Threads
variable {k : ℕ} {s : BrokerState} {config : Config}

theorem Closing.step_frame (s : BrokerState) (closing : Closing) :
    Frame k s (closing.step s).1 ∧
      (closing.step s).1.history.countP (Event.isDiscarded k) =
        s.history.countP (Event.isDiscarded k) := by
  unfold Closing.step
  split
  · exact ⟨.send _ _, by simp [BrokerState.send]⟩
  · exact ⟨⟨rfl, fun _ => rfl, List.suffix_refl _, by simp [BrokerState.record]⟩,
      by simp [BrokerState.record]⟩
  · exact ⟨⟨rfl, fun _ => rfl, List.suffix_refl _, rfl⟩, rfl⟩

theorem callStep_frame {n : ℕ} {pc : CallPc} {next : BrokerState × CallPc} (hs : s.served = true)
    (he : callStep config n s pc = some next) :
    Frame k s next.1 ∧
      next.1.history.countP (Event.isDiscarded k) = s.history.countP (Event.isDiscarded k) := by
  cases callStep_cases he with
  | registered job | enqueued job | flagged cell =>
    exact ⟨⟨rfl, fun _ => rfl, List.suffix_refl _, by simp⟩, by simp⟩
  | unserved job hunserved | stranded id job hunserved => cases hs.symm.trans hunserved
  | unregistered id | requeued id job => exact ⟨⟨rfl, fun _ => rfl, List.suffix_refl _, rfl⟩, rfl⟩
  | sawCancelled id job => exact ⟨.log rfl, by simp [BrokerState.log]⟩
  | approved id parked | denied id parked | cancelled id parked =>
    exact ⟨⟨rfl, fun _ => rfl, List.suffix_refl _, by simp [BrokerState.take]⟩, by simp [BrokerState.take]⟩
  | closing c _ _ hstep | closed c _ hstep =>
    have hc := Closing.step_frame (k := k) s c
    rw [hstep] at hc
    exact hc
  | _ => exact ⟨.refl k s, rfl⟩

theorem workerStep_frame {pc : WorkerPc} {next : BrokerState × WorkerPc}
    (hpark : ∀ job deadline reason, pc = .park job deadline reason → s.pending.lookup job.id = none)
    (he : workerStep config s pc = some next) : Frame k s next.1 := by
  cases workerStep_cases he with
  | popped | forgotten | released => exact ⟨rfl, fun _ => rfl, List.suffix_refl _, rfl⟩
  | exited _ hopen => exact ⟨rfl, fun h => absurd (h.symm.trans hopen) (by simp), List.suffix_refl _, rfl⟩
  | missing | executed | invoked | panicked => exact .log rfl
  | denied | notified | unnotified => exact .send _ _
  | started job cell => exact (Frame.send _ _).trans (.log rfl)
  | closing c _ _ hs | closed c _ hs =>
    have hc := (Closing.step_frame (k := k) s c).1
    rw [hs] at hc
    exact hc
  | parked job deadline reason =>
    rw [hpark job deadline reason rfl]
    exact ⟨rfl, fun _ => rfl, List.suffix_refl _, by simp [displacement]⟩
  | discarded id parked => exact ⟨rfl, fun _ => rfl, List.suffix_refl _, by simp⟩
  | _ => exact .refl k s

def WorkerPc.isCleaning : WorkerPc → Bool
  | .cleanupPending _ | .cleanupHandles _ => true
  | _ => false

theorem workerStep_discarded {pc : WorkerPc} {next : BrokerState × WorkerPc}
    (hclean : pc.isCleaning = false) (halive : s.dropped = [])
    (he : workerStep config s pc = some next) : next.2.isCleaning = false ∧
      next.1.history.countP (Event.isDiscarded k) = s.history.countP (Event.isDiscarded k) := by
  cases workerStep_cases he with
  | closing c _ _ hs | closed c _ hs =>
    have hc := (Closing.step_frame (k := k) s c).2
    rw [hs] at hc
    exact ⟨rfl, hc⟩
  | parked job deadline reason =>
    refine ⟨rfl, ?_⟩
    cases s.pending.lookup job.id <;> simp [displacement]
  | unnotified sink id reason hdropped =>
    rw [halive] at hdropped
    cases hdropped
  | gone | discarded | released => cases hclean
  | _ => exact ⟨rfl, by simp [BrokerState.send, BrokerState.log, BrokerState.release]⟩

theorem emit_frame (s : BrokerState) (key : ℕ) (event : Option Command.SessionEvent) :
    Frame k s (s.emit key event) ∧
    (s.emit key event).history.countP (Event.isDiscarded k) =
      s.history.countP (Event.isDiscarded k) := by
  cases event with
  | none => exact ⟨.refl k s, rfl⟩
  | some event => exact ⟨.send _ _, by simp [BrokerState.emit, BrokerState.send]⟩

theorem runtimeStep_frame {act : RunAct} {pc : WorkerPc} {next : BrokerState × WorkerPc}
    (he : runtimeStep s act pc = some next) : Frame k s next.1 ∧ next.2.isCleaning = false ∧
      next.1.history.countP (Event.isDiscarded k) = s.history.countP (Event.isDiscarded k) := by
  obtain ⟨job, cell, run, effect, rfl, -, rfl⟩ := runtimeStep_cases he
  obtain ⟨hf, hd⟩ := emit_frame (k := k) { s with epoch := effect.epoch } job.key effect.event
  exact ⟨⟨hf.queueOpen, hf.served, hf.dropped, hf.lost⟩, rfl, hd⟩

theorem unwindStep_frame {pc : WorkerPc} {next : BrokerState × WorkerPc × Stray}
    (he : unwindStep s pc = some next) : Frame k s next.1 ∧ next.2.1.isCleaning = false ∧
      next.1.history.countP (Event.isDiscarded k) = s.history.countP (Event.isDiscarded k) := by
  obtain ⟨job, cell, run, rfl, -, rfl⟩ := unwindStep_cases he
  exact ⟨.log rfl, rfl, by simp [BrokerState.log]⟩

theorem strayStep_frame {elapsed : Bool} {stray : Stray} {next : BrokerState × Stray}
    (he : strayStep s elapsed stray = some next) : Frame k s next.1 ∧
      next.1.history.countP (Event.isDiscarded k) = s.history.countP (Event.isDiscarded k) := by
  obtain ⟨effect, -, rfl⟩ := Option.map_eq_some_iff.mp he
  obtain ⟨hf, hd⟩ := emit_frame (k := k) { s with epoch := effect.epoch } stray.key effect.event
  exact ⟨⟨hf.queueOpen, hf.served, hf.dropped, hf.lost⟩, hd⟩

theorem sweeperStep_frame {order : List ℕ} {pc : SweeperPc} {next : BrokerState × SweeperPc}
    (he : sweeperStep s order pc = some next) : Frame k s next.1 ∧
      next.1.history.countP (Event.isDiscarded k) = s.history.countP (Event.isDiscarded k) := by
  cases sweeperStep_cases he with
  | took id rest parked =>
    exact ⟨⟨rfl, fun _ => rfl, List.suffix_refl _, by simp [BrokerState.take]⟩, by simp [BrokerState.take]⟩
  | closing c _ _ _ hs | closed c _ _ hs =>
    have hc := Closing.step_frame (k := k) s c
    rw [hs] at hc
    exact hc
  | _ => exact ⟨.refl k s, rfl⟩

theorem receiverStep_frame {key : ℕ} {drops : Bool} {next : BrokerState}
    (he : receiverStep s key drops = some next) : Frame k s next ∧
      next.history.countP (Event.isDiscarded k) = s.history.countP (Event.isDiscarded k) := by
  cases receiverStep_cases he with
  | dropped => exact ⟨⟨rfl, fun _ => rfl, List.suffix_cons _ _, rfl⟩, rfl⟩
  | received message rest => exact ⟨⟨rfl, fun _ => rfl, List.suffix_refl _, by simp⟩, by simp⟩

theorem enter_frame (s : BrokerState) (request : Request) :
    Frame k s (enter s request).1 ∧ (enter s request).1.history = s.history := by
  have hn := enter_cases s request
  generalize enter s request = next at hn ⊢
  cases hn with
  | submitted => exact ⟨⟨rfl, fun _ => rfl, List.suffix_refl _, rfl⟩, rfl⟩
  | _ => exact ⟨.refl k s, rfl⟩

end Threads

section Reachable
variable {config : Config} {b t : ActionBroker}

theorem park_displaces_none (h : Reachable (system config) b) (hdistinct : DistinctIds b.state.history)
    {job : Job} {deadline : ℕ} {reason : Command.ApprovalReason}
    (hpc : b.worker = .park job deadline reason) : b.state.pending.lookup job.id = none := by
  cases hl : b.state.pending.lookup job.id with
  | none => rfl
  | some old =>
    have hg := reachable_genuine h
    obtain ⟨hid, hold, -⟩ := hg.state.pending job.id old hl
    have hjob := hg.worker
    rw [hpc] at hjob
    obtain ⟨origin, ho, hrequest, -, hsink⟩ := hold.registered
    obtain ⟨origin', ho', hrequest', -, hsink'⟩ := Waiting.registered hjob
    have hsame : origin.id = origin'.id := by
      rw [Job.id, Job.id, hrequest, hrequest']
      exact hid
    have hkey : ofKey job.key old.job = true := by
      have hd := hdistinct.key_eq ho ho' hsame
      rw [Job.key, Job.key, hsink, hsink'] at hd
      simpa [ofKey, Job.key] using hd
    -- the session would be in two places
    have hparked := values_pos_of_lookup (p := fun parked => ofKey job.key parked.job) hl hkey
    have hself : ofKey job.key job = true := by simp [ofKey]
    have hplaces := (reachable_ledger h job.key).places_le
    simp only [ActionBroker.footprint, hpc, WorkerPc.footprint, Footprint.add_holds, Footprint.starting,
      hself, one_true] at hplaces
    omega

theorem dropStep_ne {next : BrokerState × DropPc} (he : dropStep b = some next) :
    next.2 ≠ .undropped := by
  cases dropStep_cases he <;> simp

theorem step_drop {act : Act} (he : step config b act = some t) (ht : t.drop = .undropped) :
    b.drop = .undropped := by
  revert ht
  apply step_elim (P := fun t => t.drop = .undropped → b.drop = .undropped) he
  case drop => exact fun hu _ _ => hu
  case dropping => exact fun next hn ht => absurd ht (dropStep_ne hn)
  case call => exact fun _ hu _ => hu
  all_goals
    intros
    assumption

theorem step_frame {act : Act} (hb : Reachable (system config) b) (hserved : b.state.served = true)
    (hdistinct : DistinctIds b.state.history) (he : step config b act = some t)
    (ht : t.drop = .undropped) (k : ℕ) : Frame k b.state t.state := by
  revert ht
  apply step_elim (P := fun t => t.drop = .undropped → Frame k b.state t.state) he
  case call => exact fun request _ _ => (enter_frame b.state request).1
  case proceed => exact fun n pc next _ _ hn _ => (callStep_frame hserved hn).1
  case worker =>
    exact fun next _ hn _ => workerStep_frame
      (fun job deadline reason hpc => park_displaces_none hb hdistinct hpc) hn
  case runtime => exact fun a next _ hn _ => (runtimeStep_frame hn).1
  case unwind => exact fun next _ hn _ => (unwindStep_frame hn).1
  case stray => exact fun index elapsed stray next _ _ hn _ => (strayStep_frame hn).1
  case sweeper => exact fun order next _ hn _ => (sweeperStep_frame hn).1
  case receiver => exact fun key drops next hn _ => (receiverStep_frame hn).1
  case tick => exact fun elapsed _ => ⟨rfl, fun _ => rfl, List.suffix_refl _, rfl⟩
  case drop => exact fun _ _ _ => .refl k b.state
  case dropping => exact fun next hn ht => absurd ht (dropStep_ne hn)

/-- In an undropped broker with distinct ids the queue is served, and no job is replaced
or refused. -/
theorem reachable_lossless (h : Reachable (system config) b) (hdrop : b.drop = .undropped)
    (hdistinct : DistinctIds b.state.history) : b.state.queueOpen = true ∧ b.state.served = true ∧
      ∀ k, b.state.history.countP (Event.isLost k) = 0 := by
  refine Runs.invariant_under
    (H := fun b => b.drop = .undropped ∧ DistinctIds b.state.history)
    (P := fun b => b.state.queueOpen = true ∧ b.state.served = true ∧
      ∀ k, b.state.history.countP (Event.isLost k) = 0) ?_ ?_ h (.refl _) ?_ ⟨hdrop, hdistinct⟩
  · exact fun b act t hb he ht => ⟨step_drop he ht.1, ht.2.suffix (history_suffix hb he)⟩
  · rintro b act t hb - he ⟨ht, hd⟩ ⟨ho, hs, hl⟩
    have hframe := step_frame hb hs (hd.suffix (history_suffix hb he)) he ht
    exact ⟨(hframe 0).queueOpen.trans ho, ((hframe 0).served ho).trans hs,
      fun k => (hframe k).lost.trans (hl k)⟩
  · exact ⟨rfl, rfl, fun _ => rfl⟩

theorem step_discarded {act : Act} (hserved : b.state.served = true)
    (hclean : b.worker.isCleaning = false) (halive : b.state.dropped = [])
    (he : step config b act = some t) (ht : t.drop = .undropped) (k : ℕ) :
    t.worker.isCleaning = false ∧ t.state.history.countP (Event.isDiscarded k) =
      b.state.history.countP (Event.isDiscarded k) := by
  revert ht
  apply step_elim (P := fun t => t.drop = .undropped → t.worker.isCleaning = false ∧
    t.state.history.countP (Event.isDiscarded k) = b.state.history.countP (Event.isDiscarded k)) he
  case call =>
    intro request _ _
    exact ⟨hclean, congrArg (List.countP _) (enter_frame (k := k) b.state request).2⟩
  case proceed => exact fun n pc next _ _ hn _ => ⟨hclean, (callStep_frame hserved hn).2⟩
  case worker => exact fun next _ hn _ => workerStep_discarded hclean halive hn
  case runtime => exact fun a next _ hn _ => (runtimeStep_frame (k := k) hn).2
  case unwind => exact fun next _ hn _ => (unwindStep_frame (k := k) hn).2
  case stray => exact fun index elapsed stray next _ _ hn _ => ⟨hclean, (strayStep_frame hn).2⟩
  case sweeper => exact fun order next _ hn _ => ⟨hclean, (sweeperStep_frame hn).2⟩
  case receiver => exact fun key drops next hn _ => ⟨hclean, (receiverStep_frame hn).2⟩
  case tick => exact fun elapsed _ => ⟨hclean, rfl⟩
  case drop => exact fun _ _ _ => ⟨hclean, rfl⟩
  case dropping => exact fun next hn ht => absurd ht (dropStep_ne hn)

/-- An undropped broker with distinct ids whose receivers are all kept alive. -/
structure Undisturbed (b : ActionBroker) : Prop where
  undropped : b.drop = .undropped
  distinct : DistinctIds b.state.history
  alive : b.state.dropped = []

theorem step_undisturbed {act : Act} (hb : Reachable (system config) b)
    (he : step config b act = some t) (ht : Undisturbed t) :
    b.state.served = true ∧ Undisturbed b := by
  have hdrop := step_drop he ht.undropped
  have hback := ht.distinct.suffix (history_suffix hb he)
  have hserved := (reachable_lossless hb hdrop hback).2.1
  have hframe := step_frame hb hserved hback he ht.undropped 0
  exact ⟨hserved, hdrop, hback, List.suffix_nil.mp (ht.alive ▸ hframe.dropped)⟩

theorem reachable_undiscarded (h : Reachable (system config) b) (hu : Undisturbed b) :
    b.worker.isCleaning = false ∧ ∀ k, b.state.history.countP (Event.isDiscarded k) = 0 := by
  refine Runs.invariant_under (H := Undisturbed)
    (P := fun b => b.worker.isCleaning = false ∧ ∀ k, b.state.history.countP (Event.isDiscarded k) = 0)
    ?_ ?_ h (.refl _) ⟨rfl, fun _ => rfl⟩ hu
  · exact fun b act t hb he ht => (step_undisturbed hb he ht).2
  · rintro b act t hb - he ht ⟨hclean, hcount⟩
    obtain ⟨hserved, hback⟩ := step_undisturbed hb he ht
    have hnext := step_discarded hserved hclean hback.alive he ht.undropped
    exact ⟨(hnext 0).1, fun k => (hnext k).2.trans (hcount k)⟩

/-- The places a session's job can be in, and its terminal messages. -/
def ActionBroker.places (b : ActionBroker) (k : ℕ) : ℕ :=
  b.state.queue.countP (ofKey k) +
    (b.worker.footprint k).holds +
    values (fun parked => ofKey k parked.job) b.state.pending +
    (b.calls.map (CallPc.footprint k)).sum.holds +
    (b.sweeper.footprint k).holds +
    b.state.history.countP (Event.isConcluded k)

/-- Nothing is queued, running, parked or being decided. -/
structure Quiescent (b : ActionBroker) : Prop where
  queue : b.state.queue = []
  worker : b.worker.isIdle = true
  pending : b.state.pending.entries = []
  calls : b.calls.all CallPc.isDone = true
  sweeper : b.sweeper.isClosing = false

instance (b : ActionBroker) : Decidable (Quiescent b) :=
  decidable_of_iff (b.state.queue = [] ∧ b.worker.isIdle = true ∧ b.state.pending.entries = [] ∧
    b.calls.all CallPc.isDone = true ∧ b.sweeper.isClosing = false)
    ⟨fun ⟨hq, hw, hp, hc, hs⟩ => ⟨hq, hw, hp, hc, hs⟩,
      fun h => ⟨h.queue, h.worker, h.pending, h.calls, h.sweeper⟩⟩

theorem Quiescent.footprint {k : ℕ} (h : Quiescent b) : b.footprint k = 0 := by
  have hcalls : (b.calls.map (CallPc.footprint k)).sum = 0 := by
    refine List.sum_eq_zero ?_
    intro f hf
    obtain ⟨pc, hpc, rfl⟩ := List.mem_map.mp hf
    have hdone := List.all_eq_true.mp h.calls pc hpc
    cases pc <;> first | rfl | cases hdone
  have hworker : b.worker.footprint k = 0 := by
    have hidle := h.worker
    cases hw : b.worker <;> rw [hw] at hidle <;> first | rfl | cases hidle
  have hsweeper : b.sweeper.footprint k = 0 := by
    have hopen := h.sweeper
    cases hs : b.sweeper <;> rw [hs] at hopen <;> first | rfl | cases hopen
  rw [ActionBroker.footprint, hcalls, hworker, hsweeper, add_zero, add_zero]

theorem Quiescent.unparked {p : PendingJob → Bool} (h : Quiescent b) :
    values p b.state.pending = 0 := by
  rw [values, h.pending, List.countP_nil]

theorem Quiescent.reported (hq : Quiescent b) (h : Reachable (system config) b) (k : ℕ) :
    b.state.history.countP (Event.isConcluded k) =
      b.state.history.countP (Event.isRecorded k) + b.state.history.countP (Event.isMissing k) := by
  have hreported := (reachable_ledger h k).reported
  rw [hq.footprint] at hreported
  simp only [Footprint.zero_unreported, Footprint.zero_recording] at hreported
  omega

/-- At rest every accepted session was concluded or discarded, and every concluded one
was audited or missed its handle. -/
theorem Quiescent.accounted (hq : Quiescent b) (h : Reachable (system config) b)
    (hdrop : b.drop = .undropped) (hdistinct : DistinctIds b.state.history) (k : ℕ) :
    b.state.history.countP (Event.isEnqueued k) =
        b.state.history.countP (Event.isConcluded k) + b.state.history.countP (Event.isDiscarded k) ∧
      b.state.history.countP (Event.isConcluded k) =
        b.state.history.countP (Event.isRecorded k) + b.state.history.countP (Event.isMissing k) := by
  have howned := (reachable_ledger h k).owned
  have hlost := (reachable_lossless h hdrop hdistinct).2.2 k
  rw [hq.footprint, hq.queue, hq.unparked] at howned
  simp only [List.countP_nil, Footprint.zero_holds] at howned
  exact ⟨by omega, hq.reported h k⟩

/-- Every accepted session is in exactly one place or concluded by exactly one terminal
message, and concluded once nothing is in progress. -/
theorem accepted_session_in_one_place (h : Reachable (system config) b) (hu : Undisturbed b) {k : ℕ}
    (hk : 0 < b.state.history.countP (Event.isEnqueued k)) :
    b.places k = 1 ∧ (Quiescent b → b.state.history.countP (Event.isConcluded k) = 1) := by
  have hborn := (reachable_ledger h k).born_le
  have hdiscarded := (reachable_undiscarded h hu).2 k
  constructor
  · have howned := (reachable_ledger h k).owned
    have hlost := (reachable_lossless h hu.undropped hu.distinct).2.2 k
    simp only [ActionBroker.places]
    simp only [ActionBroker.footprint, Footprint.add_holds] at howned
    omega
  · intro hq
    have hconcluded := (hq.accounted h hu.undropped hu.distinct k).1
    omega

end Reachable

def panickedSession : List Act := submission 0 1 false .read ++
  ([.worker, .worker, .worker, .runtime .main, .unwind, .worker, .worker, .worker] : List Act)

theorem panicked_session_in_one_place : ∃ b, Quiescent b ∧ b.places 0 = 1 ∧
    (Quiescent b → b.state.history.countP (Event.isConcluded 0) = 1) := by
  obtain ⟨b, hb, hq, hdrop, hdistinct, halive, hk⟩ := (system sampleConfig).reachable_of_replay
    (fun b => Quiescent b ∧ b.drop = .undropped ∧ DistinctIds b.state.history ∧
      b.state.dropped = [] ∧ 0 < b.state.history.countP (Event.isEnqueued 0))
    panickedSession (by decide)
  exact ⟨b, hq, accepted_session_in_one_place hb ⟨hdrop, hdistinct, halive⟩ hk⟩

end FerrousRuntime.Broker
