import FerrousRuntime.Broker.Provenance

/-! # The approval gate

A risky job is executed only after an approval took it out of `pending`; no job is
executed twice; a job taken in order to be closed is not executed at all. The three
hold for any ids: the first by what jobs carry, the others by the ledger.
-/
namespace FerrousRuntime.Broker
open Tally Transition Policy

structure ApprovalGate (history : List Event) : Prop where
  approved : ∀ later job past, history = later ++ .executed job :: past → Risky job.request →
    ∃ call taken, .took (.approve call) taken ∈ past ∧ job = taken.admit
  once : ∀ k, history.countP (Event.isExecuted k) ≤ 1
  closed : ∀ k later event past, history = later ++ event :: past →
    Event.isDecided k event = true → ∀ job, .executed job ∈ later → job.key ≠ k

theorem Ledger.executed_or_decided {k fresh : ℕ} {queue : List Job}
    {pending : AList (fun _ : ℕ => PendingJob)} {history : List Event} {f : Footprint}
    (h : Ledger k fresh queue pending history f) :
    history.countP (Event.isExecuted k) + history.countP (Event.isDecided k) ≤ 1 := by
  have hborn := h.born_le
  have hstarted := h.started
  omega

theorem approval_gate {config : Config} {b : ActionBroker} (h : Reachable (system config) b) :
    ApprovalGate b.state.history := by
  refine ⟨?_, ?_, ?_⟩
  · intro later job past hh
    have hw := (reachable_genuine h).state.warranted
    rw [hh] at hw
    exact hw.split
  · intro k
    have hle := (reachable_ledger h k).executed_or_decided
    omega
  · rintro k later event past hh hd job hj rfl
    have hle := (reachable_ledger h job.key).executed_or_decided
    have hexec : 0 < b.state.history.countP (Event.isExecuted job.key) :=
      List.countP_pos_iff.mpr ⟨.executed job, by rw [hh]; exact List.mem_append_left _ hj, by simp [ofKey]⟩
    have hdec : 0 < b.state.history.countP (Event.isDecided job.key) :=
      List.countP_pos_iff.mpr ⟨event, by rw [hh]; simp, hd⟩
    omega

def approvedSession : List Act := submission 0 1 false .readWrite ++ parking ++
  ([.worker, .receive 0, .call (.approve 1), .proceed 1, .proceed 1, .proceed 1, .worker, .worker] : List Act)

theorem approval_gate_of_approved_session : ∃ b : ActionBroker,
    0 < b.state.history.countP (Event.isExecuted 0) ∧ ApprovalGate b.state.history := by
  obtain ⟨b, hb, hexec⟩ := (system sampleConfig).reachable_of_replay
    (fun b => 0 < b.state.history.countP (Event.isExecuted 0)) approvedSession (by decide)
  exact ⟨b, hexec, approval_gate hb⟩

end FerrousRuntime.Broker
