import FerrousRuntime.Broker.Parking
import FerrousRuntime.Broker.Cancellation
import Mathlib.Data.List.DropRight

/-! # The audit trail tells the truth

An entry is put together where a session is closed, from what the closing thread knows:
who took the job, how it was admitted, what the runtime answered. Each entry therefore
has its cause in the history, and the message sent beside it has the same one.
-/
namespace FerrousRuntime.Broker
open Tally Transition FerrousRuntime.Runtime Policy

def ActionBroker.auditTrail (b : ActionBroker) : List AuditEntry := b.state.audit

def recordedEntries : List Event → List AuditEntry
  | [] => []
  | .recorded _ entry :: past => recordedEntries past ++ [entry]
  | _ :: past => recordedEntries past

/-- The terminal message reports the audited outcome, in its mode. -/
def Message.agrees : Message → AuditOutcome → Bool
  | .outcome (.completed output), .completed code => output.exitCode == code
  | .event (.exited (some exitCode)), .completed code => exitCode == code
  | .outcome .cancelled, .cancelled | .event .cancelled, .cancelled => true
  | .outcome (.denied _), .denied | .event .denied, .denied => true
  | .outcome (.failed _), .failed | .event .unsupported, .failed => true
  | _, _ => false

/-- The entry describes the session of the registered job, and agrees with the message. -/
def Faithful (history : List Event) (origin : Job) (message : Message) (entry : AuditEntry) : Prop :=
  match entry.decision with
  | .autoApproved => classifyRisk origin.request = .autoApprove ∧
    0 < history.countP (Event.isExecuted origin.key) ∧ message.agrees entry.outcome = true
  | .approved => Risky origin.request ∧
    (∃ call job, .took (.approve call) job ∈ history ∧ job.key = origin.key) ∧
    0 < history.countP (Event.isExecuted origin.key) ∧ message.agrees entry.outcome = true
  | .denied => (∃ call job, .took (.deny call) job ∈ history ∧ job.key = origin.key) ∧
    history.countP (Event.isExecuted origin.key) = 0 ∧
    message = terminalMessage origin.sink .denied ∧ entry.outcome = .denied
  | .timedOut => (∃ job, .took .sweeper job ∈ history ∧ job.key = origin.key) ∧
    history.countP (Event.isExecuted origin.key) = 0 ∧
    message = terminalMessage origin.sink .denied ∧ entry.outcome = .denied
  | .cancelled => history.countP (Event.isExecuted origin.key) = 0 ∧
    message = terminalMessage origin.sink .cancelled ∧ entry.outcome = .cancelled

section Conclusions

theorem conclude_agrees (sink : JobSink) (result : Except RuntimeError WasiOutput) :
    (conclude sink result).message.agrees (conclude sink result).outcome = true := by
  cases sink <;> rcases result with error | output <;>
    first | cases error <;> rfl | simp [conclude, concludeCapturing, concludeStreaming, Message.agrees]

theorem Conclusion.Of.agrees {sink : JobSink} {conclusion : Conclusion} (h : conclusion.Of sink) :
    conclusion.message.agrees conclusion.outcome = true := by
  cases h with
  | cancelled => cases sink <;> rfl
  | unstartable => cases sink <;> rfl
  | returned result => exact conclude_agrees sink result

end Conclusions

section Reachable
variable {config : Config} {b t : ActionBroker} {act : Act}

inductive Admitted (history : List Event) (job : Job) : Prop
  | autoApproved : job.admission = .autoApproved → classifyRisk job.request = .autoApprove →
    Admitted history job
  | approved (call : ℕ) (taken : Job) : job = taken.admit → .took (.approve call) taken ∈ history →
    Risky job.request → Admitted history job

theorem Admitted.mono {history history' : List Event} {job : Job} (h : Admitted history job)
    (hsub : history ⊆ history') : Admitted history' job := by
  cases h with
  | autoApproved ha hr => exact .autoApproved ha hr
  | approved call taken heq ht hr => exact .approved call taken heq (hsub ht) hr

theorem Waiting.admitted (h : Reachable (system config) b) {job : Job} (hw : Waiting b.state.history job)
    (ha : job.admission = .approved ∨ ¬ Risky job.request) : Admitted b.state.history job := by
  rcases hw.admission with hauto | ⟨call, taken, ht, rfl⟩
  · refine .autoApproved hauto ?_
    have hsafe : ¬ Risky job.request := by
      rcases ha with ha | ha
      · rw [hauto] at ha; cases ha
      · exact ha
    cases hr : classifyRisk job.request with
    | autoApprove => rfl
    | requiresApproval reason => exact absurd ⟨reason, hr⟩ hsafe
  · exact .approved call taken rfl ht ((reachable_asks h).2 taken (parked_of_took h ht))

theorem executed_admitted (h : Reachable (system config) b) :
    ∀ job, .executed job ∈ b.state.history → Admitted b.state.history job := by
  refine Runs.invariant_of_reachable
    (P := fun b => ∀ job, .executed job ∈ b.state.history → Admitted b.state.history job) ?_ h (.refl _)
    (by simp [system, ActionBroker.initial, BrokerState.initial])
  intro b act t hb _ he hp job hin
  have hsub := (history_suffix hb he).subset
  rcases step_logs he hin with hin | hlogs
  · exact (hp job hin).mono hsub
  · obtain ⟨-, hlogs⟩ := hlogs.by_worker rfl
    have hg := (reachable_genuine hb).worker
    generalize b.worker = pc at hlogs hg
    cases hlogs with
    | closing c event hc => cases hc
    | executed job cell _ ha => exact (Waiting.admitted hb hg ha).mono hsub

theorem unexecuted_of_decided (h : Reachable (system config) b) {k : ℕ} {event : Event}
    (hin : event ∈ b.state.history) (hd : event.isDecided k = true) :
    b.state.history.countP (Event.isExecuted k) = 0 := by
  have hle := (reachable_ledger h k).executed_or_decided
  have hpos : 0 < b.state.history.countP (Event.isDecided k) := List.countP_pos_iff.mpr ⟨event, hin, hd⟩
  omega

/-- What is recorded for a cause is faithful, unless the cause is a panic. -/
theorem Cause.faithful (h : Reachable (system config) b) (hp : Unpanicked b.state.history)
    {job origin : Job} {message : Message} {entry : AuditEntry}
    (hrequest : origin.request = job.request) (hsink : origin.sink = job.sink)
    (hc : Cause b.state.history job message entry) : Faithful b.state.history origin message entry := by
  have hkey : origin.key = job.key := congrArg JobSink.channel hsink
  have hself : ofKey origin.key job = true := by simp [ofKey, hkey]
  cases hc with
  | denied call ht =>
    exact ⟨⟨call, job, ht, hkey.symm⟩, unexecuted_of_decided h ht hself, by rw [hsink], rfl⟩
  | timedOut ht =>
    exact ⟨⟨job, ht, hkey.symm⟩, unexecuted_of_decided h ht hself, by rw [hsink], rfl⟩
  | cancelled call ht => exact ⟨unexecuted_of_decided h ht hself, by rw [hsink], rfl⟩
  | sawCancelled hs => exact ⟨unexecuted_of_decided h hs hself, by rw [hsink], rfl⟩
  | executed conclusion hr hof =>
    obtain ⟨ran, hran, hranrequest, hransink, hadmission⟩ := hr
    have hrankey : ran.key = origin.key := congrArg JobSink.channel (hransink.trans hsink.symm)
    have hexecuted : 0 < b.state.history.countP (Event.isExecuted origin.key) :=
      List.countP_pos_iff.mpr ⟨_, hran, by simp [ofKey, hrankey]⟩
    cases executed_admitted h ran hran with
    | autoApproved ha hr =>
      rw [hranrequest, ← hrequest] at hr
      simp only [Faithful, Job.entry, ← hadmission, ha]
      exact ⟨hr, hexecuted, hof.agrees⟩
    | approved call taken heq ht hr =>
      rw [hranrequest, ← hrequest] at hr
      have ha : ran.admission = .approved := by rw [heq]; rfl
      have htaken : taken.key = origin.key := by rw [← hrankey, heq]; rfl
      simp only [Faithful, Job.entry, ← hadmission, ha]
      exact ⟨hr, ⟨call, taken, ht, htaken⟩, hexecuted, hof.agrees⟩
  | panicked hin => cases hp _ hin

end Reachable

section Trail
variable {config : Config} {s : BrokerState}

/-- The trail is the end of the record. -/
def BrokerState.Trails (s : BrokerState) : Prop :=
  s.audit = (recordedEntries s.history).rtake defaultMaxAuditEntries

theorem rtake_append_drop {α : Type*} (l : List α) (a : α) (n : ℕ) :
    (l.rtake n ++ [a]).drop ((l.rtake n ++ [a]).length - n) = (l ++ [a]).rtake n := by
  have hle : l.length - n ≤ l.length := Nat.sub_le _ _
  have hpush : l.rtake n ++ [a] = (l ++ [a]).drop (l.length - n) := by
    rw [List.rtake, List.drop_append_of_le_length hle]
  rw [hpush, List.drop_drop, List.rtake]
  congr 1
  simp only [List.length_drop, List.length_append, List.length_singleton]
  omega

theorem BrokerState.Trails.record (h : s.Trails) (key : ℕ) (entry : AuditEntry) :
    (s.record key entry).Trails := by
  have hpush := rtake_append_drop (recordedEntries s.history) entry defaultMaxAuditEntries
  rw [← show s.audit = _ from h] at hpush
  simp only [BrokerState.Trails, BrokerState.record, recordedEntries, ← hpush]
  split
  · rfl
  · rename_i hle
    rw [Nat.sub_eq_zero_of_le (not_lt.mp hle), List.drop_zero]

theorem Closing.step_trails (closing : Closing) (h : s.Trails) : (closing.step s).1.Trails := by
  unfold Closing.step
  split
  · exact h
  · exact h.record _ _
  · exact h

theorem callStep_trails {n : ℕ} {pc : CallPc} {next : BrokerState × CallPc} (h : s.Trails)
    (he : callStep config n s pc = some next) : next.1.Trails := by
  cases callStep_cases he with
  | closing c _ _ hs | closed c _ hs =>
    have hc := c.step_trails h
    rw [hs] at hc
    exact hc
  | _ => exact h

theorem workerStep_trails {pc : WorkerPc} {next : BrokerState × WorkerPc} (h : s.Trails)
    (he : workerStep config s pc = some next) : next.1.Trails := by
  cases workerStep_cases he with
  | closing c _ _ hs | closed c _ hs =>
    have hc := c.step_trails h
    rw [hs] at hc
    exact hc
  | parked job deadline reason => cases hl : s.pending.lookup job.id <;> exact h
  | _ => exact h

theorem sweeperStep_trails {order : List ℕ} {pc : SweeperPc} {next : BrokerState × SweeperPc}
    (h : s.Trails) (he : sweeperStep s order pc = some next) : next.1.Trails := by
  cases sweeperStep_cases he with
  | closing c _ _ _ hs | closed c _ _ hs =>
    have hc := c.step_trails h
    rw [hs] at hc
    exact hc
  | _ => exact h

theorem emit_trails {key : ℕ} {event : Option Command.SessionEvent} (h : s.Trails) :
    (s.emit key event).Trails := by
  cases event <;> exact h

theorem enter_trails (request : Request) (h : s.Trails) : (enter s request).1.Trails := by
  have hn := enter_cases s request
  generalize enter s request = next at hn ⊢
  cases hn with
  | _ => exact h

end Trail

section Runs
variable {config : Config} {b t : ActionBroker} {act : Act}

theorem step_trails (he : step config b act = some t) (h : b.state.Trails) : t.state.Trails := by
  apply step_elim (P := fun t => t.state.Trails) he
  case call => exact fun request _ => enter_trails request h
  case proceed => exact fun n pc next _ _ hn => callStep_trails h hn
  case worker => exact fun next _ hn => workerStep_trails h hn
  case runtime =>
    intro a next _ hn
    obtain ⟨job, cell, run, effect, -, -, rfl⟩ := runtimeStep_cases hn
    exact emit_trails h
  case unwind =>
    intro next _ hn
    obtain ⟨job, cell, run, -, -, rfl⟩ := unwindStep_cases hn
    exact h
  case stray =>
    intro index elapsed stray next _ _ hn
    obtain ⟨effect, -, rfl⟩ := Option.map_eq_some_iff.mp hn
    exact emit_trails h
  case sweeper => exact fun order next _ hn => sweeperStep_trails h hn
  case receiver =>
    intro key drops next hn
    cases receiverStep_cases hn <;> exact h
  case tick => exact fun _ => h
  case drop => exact fun _ _ => h
  case dropping =>
    intro next hn
    cases dropStep_cases hn <;> exact h

/-- Without a panic every recorded entry is faithful to its session and to the one terminal
message sent to it, and the trail is the last entries recorded, in order. -/
theorem audit_faithful (h : Reachable (system config) b) :
    (Unpanicked b.state.history → ∀ key entry, .recorded key entry ∈ b.state.history →
      ∃ origin message, .registered origin ∈ b.state.history ∧ origin.key = key ∧
        entry.id = origin.id ∧ entry.actor = origin.request.actor ∧
        entry.program = origin.request.program ∧
        .sent key message ∈ b.state.history ∧ message.isTerminal = true ∧
        b.state.history.countP (Event.isConcluded key) = 1 ∧
        Faithful b.state.history origin message entry) ∧
    b.auditTrail = (recordedEntries b.state.history).rtake defaultMaxAuditEntries := by
  refine ⟨?_, Reachable.invariant (P := fun b : ActionBroker => b.state.Trails)
    (fun _ _ _ he hp => step_trails he hp) h (List.rtake_nil _).symm⟩
  intro hp key entry hin
  obtain ⟨message, job, hsent, hm, hregistered, hkey, hcause⟩ := recorded_cause h key entry hin
  obtain ⟨origin, ho, hrequest, -, hsink⟩ := hregistered
  obtain ⟨hid, hactor, hprogram⟩ := hcause.entry
  have hplaces := (reachable_ledger h key).places_le
  have hpos : 0 < b.state.history.countP (Event.isConcluded key) :=
    List.countP_pos_iff.mpr ⟨_, hsent, by simp [hm]⟩
  refine ⟨origin, message, ho, ?_, ?_, by rw [hactor, hrequest], by rw [hprogram, hrequest], hsent, hm,
    by omega, hcause.faithful h hp hrequest hsink⟩
  · exact (congrArg JobSink.channel hsink).trans hkey
  · rw [hid, Job.id, Job.id, hrequest]

end Runs

def approvedThenCancelled : List Act := submission 0 1 false .readWrite ++ parking ++
  ([.worker, .call (.approve 1), .proceed 1, .proceed 1, .proceed 1, .call (.cancel 1), .proceed 2,
    .proceed 2, .proceed 2, .worker, .worker, .worker, .worker, .worker] : List Act)

theorem approved_then_cancelled_audited : ∃ (b : ActionBroker) (message : Message),
    .sent 0 message ∈ b.state.history ∧ message.agrees .cancelled = true ∧
      b.auditTrail = (recordedEntries b.state.history).rtake defaultMaxAuditEntries := by
  obtain ⟨b, hb, hp, hin⟩ := (system sampleConfig).reachable_of_replay
    (fun b => Unpanicked b.state.history ∧
      .recorded 0 ⟨1, .agent, "tool", .approved, .cancelled⟩ ∈ b.state.history)
    approvedThenCancelled (by decide)
  have hfaithful := audit_faithful hb
  obtain ⟨origin, message, -, -, -, -, -, hsent, -, -, -, -, -, hagrees⟩ := hfaithful.1 hp _ _ hin
  exact ⟨b, message, hsent, hagrees, hfaithful.2⟩

end FerrousRuntime.Broker
