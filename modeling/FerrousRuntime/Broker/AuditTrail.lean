import FerrousRuntime.Broker.Conservation

/-! # Which sessions are audited

Every ending sends its terminal message and then records its audit entry, except two:
a parked session whose caller is gone before the notification is removed without
either, and a job whose handle is gone is denied without an entry.
-/
namespace FerrousRuntime.Broker
open Tally Transition FerrousRuntime.Runtime

section Reachable
variable {config : Config} {b : ActionBroker}

/-- Once nothing is in progress, an accepted session has exactly one audit entry if and
only if it went through neither of the two branches that record none. -/
theorem audited_once_iff (h : Reachable (system config) b) (hdrop : b.drop = .undropped)
    (hdistinct : DistinctIds b.state.history) (hq : Quiescent b) {k : ℕ}
    (hk : 0 < b.state.history.countP (Event.isEnqueued k)) :
    b.state.history.countP (Event.isRecorded k) = 1 ↔
      b.state.history.countP (Event.isDiscarded k) = 0 ∧
        b.state.history.countP (Event.isMissing k) = 0 := by
  obtain ⟨hconcluded, hrecorded⟩ := hq.accounted h hdrop hdistinct k
  have hborn := (reachable_ledger h k).born_le
  omega

end Reachable

/-- The caller goes away before the worker notifies it. -/
def vanishedCaller : List Act := submission 0 1 false .readWrite ++ ([.dropReceiver 0] : List Act) ++ parking ++
  ([.worker, .worker, .worker] : List Act)

/-- The same, and an approval takes the session back to the queue before the clean-up
releases its handle. -/
def vanishedHandle : List Act := submission 0 1 false .readWrite ++ ([.dropReceiver 0] : List Act) ++ parking ++
  ([.call (.approve 1), .proceed 1, .proceed 1, .proceed 1, .worker, .worker, .worker, .worker, .worker,
    .worker, .worker] : List Act)

/-- An accepted session of an undropped broker with distinct ids, at rest, unaudited. -/
def Unaudited (b : ActionBroker) : Prop :=
  Quiescent b ∧ b.drop = .undropped ∧ DistinctIds b.state.history ∧
    0 < b.state.history.countP (Event.isEnqueued 0) ∧
      b.state.history.countP (Event.isRecorded 0) = 0

instance (b : ActionBroker) : Decidable (Unaudited b) := by
  unfold Unaudited
  infer_instance

/-- Both branches are reached. -/
theorem sessions_without_audit_entry :
    (∃ b, Reachable (system sampleConfig) b ∧ Unaudited b ∧
      0 < b.state.history.countP (Event.isDiscarded 0)) ∧
    ∃ b, Reachable (system sampleConfig) b ∧ Unaudited b ∧
      0 < b.state.history.countP (Event.isMissing 0) :=
  ⟨(system sampleConfig).reachable_of_replay
      (fun b => Unaudited b ∧ 0 < b.state.history.countP (Event.isDiscarded 0))
      vanishedCaller (by decide),
    (system sampleConfig).reachable_of_replay
      (fun b => Unaudited b ∧ 0 < b.state.history.countP (Event.isMissing 0))
      vanishedHandle (by decide)⟩

theorem panicked_session_audited : ∃ b : ActionBroker, b.state.history.countP Event.isPanicked = 1 ∧
    b.state.history.countP (Event.isRecorded 0) = 1 ∧ b.state.history.countP (Event.isDiscarded 0) = 0 ∧
      b.state.history.countP (Event.isMissing 0) = 0 := by
  obtain ⟨b, hb, hpanic, hone, hq, hdrop, hdistinct, hk⟩ := (system sampleConfig).reachable_of_replay
    (fun b => b.state.history.countP Event.isPanicked = 1 ∧ b.state.history.countP (Event.isRecorded 0) = 1 ∧
      Quiescent b ∧ b.drop = .undropped ∧ DistinctIds b.state.history ∧
      0 < b.state.history.countP (Event.isEnqueued 0))
    panickedSession (by decide)
  exact ⟨b, hpanic, hone, (audited_once_iff hb hdrop hdistinct hq hk).mp hone⟩

end FerrousRuntime.Broker
