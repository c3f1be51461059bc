import FerrousRuntime.Broker.AuditTrail

/-! # What follows a terminal message

Whoever holds a session's job may send on its channel, and nobody holds it once its
terminal message is out. Two senders hold no job: the worker between parking a job
and notifying its caller, and the reader a panicked run leaves behind. Unless one of
the two is overtaken by a terminal message, nothing follows one.
-/
namespace FerrousRuntime.Broker
open Tally Transition FerrousRuntime.Runtime

def InOrder : Event → List Event → Prop
  | .sent key _, past => past.countP (Event.isConcluded key) = 0
  | _, _ => True

def Closing.reporting (closing : Closing) : Option ℕ :=
  if closing.stage = .send then some closing.key else none

def CallPc.reporting : CallPc → Option ℕ
  | .closing c => c.reporting
  | _ => none

def SweeperPc.reporting : SweeperPc → Option ℕ
  | .closing c _ => c.reporting
  | _ => none

def WorkerPc.reporting : WorkerPc → Option ℕ
  | .closing c => c.reporting
  | _ => none

def WorkerPc.notifying : WorkerPc → Option ℕ
  | .notify sink _ _ => some sink.channel
  | _ => none

def Stray.holdsOutput (stray : Stray) : Bool :=
  match stray.run.watcher with
  | .reader reader =>
    match reader.pc with
    | .sendStdout _ | .sendStderr _ => true
    | _ => false
  | _ => false

/-- A decider ends the session the worker is about to notify of, or the reader of a
panicked run sends output after the worker's report. -/
def overtakes (b : ActionBroker) : Act → Bool
  | .proceed call => (b.calls[call]?).any
      (fun pc => pc.reporting.isSome && pc.reporting == b.worker.notifying)
  | .sweeper _ => b.sweeper.reporting.isSome && b.sweeper.reporting == b.worker.notifying
  | .stray index _ => (b.strays[index]?).any
      (fun stray => stray.holdsOutput && b.worker.reporting != some stray.key)
  | _ => false

section Threads
variable {k : ℕ} {s : BrokerState} {config : Config}

theorem inOrder_log {event : Event} (h : Justified InOrder s.history)
    (he : ∀ key message, event ≠ .sent key message) : Justified InOrder (event :: s.history) := by
  refine ⟨?_, h⟩
  cases event with
  | sent key message => exact absurd rfl (he key message)
  | _ => trivial

theorem Closing.step_inOrder {closing : Closing} (h : Justified InOrder s.history)
    (hc : ∀ k ∈ closing.reporting, s.history.countP (Event.isConcluded k) = 0) :
    Justified InOrder (closing.step s).1.history := by
  unfold Closing.step
  split
  · rename_i hs
    exact ⟨hc closing.key (by simp [Closing.reporting, hs]), h⟩
  · exact inOrder_log h (by simp)
  · exact h

theorem Closing.step_concluded (s : BrokerState) (closing : Closing)
    (hk : closing.reporting ≠ some k) : (closing.step s).1.history.countP (Event.isConcluded k) =
      s.history.countP (Event.isConcluded k) := by
  unfold Closing.step
  split
  · rename_i hs
    have hne : (closing.key == k) = false := by simpa [Closing.reporting, hs] using hk
    simp [BrokerState.send, hne]
  · simp [BrokerState.record]
  · rfl

theorem callStep_inOrder {n : ℕ} {pc : CallPc} {next : BrokerState × CallPc}
    (h : Justified InOrder s.history)
    (hc : ∀ k ∈ pc.reporting, s.history.countP (Event.isConcluded k) = 0)
    (he : callStep config n s pc = some next) : Justified InOrder next.1.history ∧
      (pc.reporting ≠ some k → next.1.history.countP (Event.isConcluded k) =
        s.history.countP (Event.isConcluded k)) := by
  cases callStep_cases he with
  | registered | enqueued | approved | sawCancelled | stranded | denied | cancelled | flagged =>
    exact ⟨inOrder_log h (by simp), fun _ => by simp [BrokerState.take, BrokerState.log]⟩
  | closing c _ _ hs | closed c _ hs =>
    have ho := Closing.step_inOrder h hc
    have hk := Closing.step_concluded (k := k) s c
    rw [hs] at ho hk
    exact ⟨ho, hk⟩
  | _ => exact ⟨h, fun _ => rfl⟩

theorem sweeperStep_inOrder {order : List ℕ} {pc : SweeperPc} {next : BrokerState × SweeperPc}
    (h : Justified InOrder s.history)
    (hc : ∀ k ∈ pc.reporting, s.history.countP (Event.isConcluded k) = 0)
    (he : sweeperStep s order pc = some next) : Justified InOrder next.1.history ∧
      (pc.reporting ≠ some k → next.1.history.countP (Event.isConcluded k) =
        s.history.countP (Event.isConcluded k)) := by
  cases sweeperStep_cases he with
  | took id rest parked => exact ⟨inOrder_log h (by simp), fun _ => by simp [BrokerState.take]⟩
  | closing c _ _ _ hs | closed c _ _ hs =>
    have ho := Closing.step_inOrder h hc
    have hk := Closing.step_concluded (k := k) s c
    rw [hs] at ho hk
    exact ⟨ho, hk⟩
  | _ => exact ⟨h, fun _ => rfl⟩

theorem parked_concluded (job : Job) (old : Option PendingJob) (history : List Event) (k : ℕ) :
    (Event.parked job :: (displacement old ++ history)).countP (Event.isConcluded k) =
      history.countP (Event.isConcluded k) := by
  cases old <;> simp [displacement]

theorem workerStep_inOrder {pc : WorkerPc} {next : BrokerState × WorkerPc}
    (h : Justified InOrder s.history)
    (hc : ∀ k, 0 < (pc.footprint k).holds → s.history.countP (Event.isConcluded k) = 0)
    (hn : ∀ k ∈ pc.notifying, s.history.countP (Event.isConcluded k) = 0)
    (he : workerStep config s pc = some next) : Justified InOrder next.1.history ∧
      ∀ k ∈ next.2.notifying, next.1.history.countP (Event.isConcluded k) = 0 := by
  cases workerStep_cases he with
  | missing | executed | invoked | panicked | discarded =>
    exact ⟨inOrder_log h (by simp), by rintro k ⟨⟩⟩
  | denied job =>
    exact ⟨⟨hc job.key (by simp [WorkerPc.footprint, ofKey]), h⟩, by rintro k ⟨⟩⟩
  | started job cell =>
    have hsent : Justified InOrder (s.send job.key (.event .started)).history :=
      ⟨hc job.key (by simp [WorkerPc.footprint, ofKey]), h⟩
    exact ⟨inOrder_log hsent (by simp), by rintro k ⟨⟩⟩
  | closing c _ _ hs | closed c _ hs =>
    have ho : Justified InOrder (c.step s).1.history := by
      refine Closing.step_inOrder h ?_
      intro k hk
      refine hc k ?_
      simp only [Closing.reporting, Option.mem_def, Option.ite_none_right_eq_some,
        Option.some.injEq] at hk
      simp [WorkerPc.footprint, Closing.footprint, hk.1, hk.2]
    rw [hs] at ho
    exact ⟨ho, by rintro k ⟨⟩⟩
  | parked job deadline reason =>
    have hjob := hc job.key (by simp [WorkerPc.footprint, ofKey])
    constructor
    · cases s.pending.lookup job.id with
      | none => exact inOrder_log h (by simp)
      | some old => exact ⟨trivial, trivial, h⟩
    · rintro k ⟨⟩
      exact (parked_concluded job (s.pending.lookup job.id) s.history job.key).trans hjob
  | notified sink id reason | unnotified sink id reason =>
    exact ⟨⟨hn sink.channel rfl, h⟩, by rintro k ⟨⟩⟩
  | _ => exact ⟨h, by rintro k ⟨⟩⟩

theorem emit_inOrder {key : ℕ} {event : Option Command.SessionEvent} (h : Justified InOrder s.history)
    (hc : event.isSome = true → s.history.countP (Event.isConcluded key) = 0)
    (hout : ∀ e, event = some e → e.isTerminal = false) :
    Justified InOrder (s.emit key event).history ∧
      (s.emit key event).history.countP (Event.isConcluded k) =
        s.history.countP (Event.isConcluded k) := by
  cases event with
  | none => exact ⟨h, rfl⟩
  | some e =>
    refine ⟨⟨hc rfl, h⟩, ?_⟩
    simp [BrokerState.emit, BrokerState.send, Message.isTerminal, hout e rfl]

theorem holdsOutput_of_event {stray : Stray} {flag elapsed : Bool} {epoch : ℕ} {effect : Effect}
    (he : stray.run.step flag epoch (.watch elapsed) = some effect)
    (hevent : effect.event.isSome = true) : stray.holdsOutput = true := by
  revert hevent
  apply WasiRun.step_elim (P := fun _ _ event => event.isSome = true → stray.holdsOutput = true) he
  case reader =>
    intro elapsed reader turn hr hn hevent
    unfold Stray.holdsOutput
    cases hn with
    | sentStdout bytes hpc => simp [hr, hpc]
    | sentStderr bytes hpc => simp [hr, hpc]
    | _ => cases hevent
  all_goals
    intros
    contradiction

theorem strayStep_inOrder {elapsed : Bool} {stray : Stray} {next : BrokerState × Stray}
    (h : Justified InOrder s.history)
    (hc : stray.holdsOutput = true → s.history.countP (Event.isConcluded stray.key) = 0)
    (he : strayStep s elapsed stray = some next) : Justified InOrder next.1.history ∧
      next.1.history.countP (Event.isConcluded k) = s.history.countP (Event.isConcluded k) := by
  obtain ⟨effect, heff, rfl⟩ := Option.map_eq_some_iff.mp he
  exact emit_inOrder (s := { s with epoch := effect.epoch }) h
    (fun hevent => hc (holdsOutput_of_event heff hevent)) (output_not_terminal heff)

theorem runtimeStep_inOrder {act : RunAct} {pc : WorkerPc} {next : BrokerState × WorkerPc}
    (h : Justified InOrder s.history)
    (hc : ∀ k, 0 < (pc.footprint k).holds → s.history.countP (Event.isConcluded k) = 0)
    (he : runtimeStep s act pc = some next) :
    Justified InOrder next.1.history ∧ next.2.notifying = none := by
  obtain ⟨job, cell, run, effect, rfl, heff, rfl⟩ := runtimeStep_cases he
  have hjob := hc job.key (by simp [WorkerPc.footprint, ofKey])
  exact ⟨(emit_inOrder (k := 0) (s := { s with epoch := effect.epoch }) h (fun _ => hjob)
    (output_not_terminal heff)).1, rfl⟩

theorem unwindStep_inOrder {pc : WorkerPc} {next : BrokerState × WorkerPc × Stray}
    (h : Justified InOrder s.history) (he : unwindStep s pc = some next) :
    Justified InOrder next.1.history ∧ next.2.1.notifying = none := by
  obtain ⟨job, cell, run, rfl, -, rfl⟩ := unwindStep_cases he
  exact ⟨inOrder_log h (by simp), rfl⟩

theorem receiverStep_inOrder {key : ℕ} {drops : Bool} {next : BrokerState}
    (h : Justified InOrder s.history) (he : receiverStep s key drops = some next) :
    Justified InOrder next.history ∧
      next.history.countP (Event.isConcluded k) = s.history.countP (Event.isConcluded k) := by
  cases receiverStep_cases he with
  | dropped => exact ⟨h, rfl⟩
  | received message rest => exact ⟨inOrder_log h (by simp), by simp⟩

theorem dropStep_history {b : ActionBroker} {next : BrokerState × DropPc}
    (he : dropStep b = some next) : next.1.history = b.state.history := by
  cases dropStep_cases he <;> rfl

end Threads

section Reachable
variable {config : Config} {b t : ActionBroker}

/-- Whoever holds a session's job knows that its terminal message was not sent. -/
theorem unconcluded_of_holds (h : Reachable (system config) b) {k : ℕ}
    (hk : 0 < (b.footprint k).holds) : b.state.history.countP (Event.isConcluded k) = 0 := by
  have hplaces := (reachable_ledger h k).places_le
  omega

theorem worker_unconcluded (h : Reachable (system config) b) (k : ℕ)
    (hk : 0 < (b.worker.footprint k).holds) : b.state.history.countP (Event.isConcluded k) = 0 :=
  unconcluded_of_holds h (hk.trans_le (worker_holds_le b k))

theorem reporting_holds {closing : Closing} {k : ℕ} (hk : closing.reporting = some k) :
    0 < (closing.footprint k).holds := by
  simp only [Closing.reporting, Option.ite_none_right_eq_some, Option.some.injEq] at hk
  simp [Closing.footprint, hk.1, hk.2]

theorem CallPc.reporting_holds {pc : CallPc} {k : ℕ} (h : pc.reporting = some k) :
    0 < (pc.footprint k).holds := by
  cases pc <;> first | exact Broker.reporting_holds h | cases h

theorem SweeperPc.reporting_holds {pc : SweeperPc} {k : ℕ} (h : pc.reporting = some k) :
    0 < (pc.footprint k).holds := by
  cases pc <;> first | exact Broker.reporting_holds h | cases h

theorem WorkerPc.reporting_holds {pc : WorkerPc} {k : ℕ} (h : pc.reporting = some k) :
    0 < (pc.footprint k).holds := by
  cases pc <;> first | exact Broker.reporting_holds h | cases h

theorem sweeper_unconcluded (h : Reachable (system config) b) (k : ℕ)
    (hk : b.sweeper.reporting = some k) : b.state.history.countP (Event.isConcluded k) = 0 :=
  unconcluded_of_holds h ((SweeperPc.reporting_holds hk).trans_le (sweeper_holds_le b k))

theorem call_unconcluded (h : Reachable (system config) b) {n : ℕ} {pc : CallPc}
    (hpc : b.calls[n]? = some pc) (k : ℕ) (hk : pc.reporting = some k) :
    b.state.history.countP (Event.isConcluded k) = 0 :=
  unconcluded_of_holds h
    ((CallPc.reporting_holds hk).trans_le (call_holds_le (List.mem_of_getElem? hpc) k))

/-- The history is in order, and the caller the worker notifies next was sent no
terminal message. -/
structure Ordered (b : ActionBroker) : Prop where
  history : Justified InOrder b.state.history
  notifying : ∀ k ∈ b.worker.notifying, b.state.history.countP (Event.isConcluded k) = 0

theorem step_ordered {act : Act} (hb : Reachable (system config) b) (h : Ordered b)
    (ha : overtakes b act = false) (he : step config b act = some t) : Ordered t := by
  have hworker := worker_unconcluded hb
  apply step_elim he
  case call =>
    intro request _
    have hh : (enter b.state request).1.history = b.state.history :=
      (enter_genuine b.state request (reachable_genuine hb).state).1
    exact ⟨by rw [hh]; exact h.history, by rw [hh]; exact h.notifying⟩
  case proceed =>
    rintro n pc next rfl hpc hn
    have hc := call_unconcluded hb hpc
    refine ⟨(callStep_inOrder (k := 0) h.history hc hn).1, ?_⟩
    intro k hk
    refine ((callStep_inOrder h.history hc hn).2 ?_).trans (h.notifying k hk)
    intro hr
    simp [overtakes, hpc, hr, Option.mem_def.mp hk] at ha
  case worker =>
    intro next _ hn
    obtain ⟨ho, hnext⟩ := workerStep_inOrder h.history hworker h.notifying hn
    exact ⟨ho, hnext⟩
  case runtime =>
    intro a next _ hn
    obtain ⟨ho, hnext⟩ := runtimeStep_inOrder h.history hworker hn
    exact ⟨ho, by simp [hnext]⟩
  case unwind =>
    intro next _ hn
    obtain ⟨ho, hnext⟩ := unwindStep_inOrder h.history hn
    exact ⟨ho, by simp [hnext]⟩
  case stray =>
    rintro index elapsed stray next rfl hs hn
    have hc : stray.holdsOutput = true → b.state.history.countP (Event.isConcluded stray.key) = 0 := by
      intro hout
      have hreport : b.worker.reporting = some stray.key := by simpa [overtakes, hs, hout] using ha
      exact hworker stray.key (WorkerPc.reporting_holds hreport)
    refine ⟨(strayStep_inOrder (k := 0) h.history hc hn).1, ?_⟩
    intro k hk
    exact (strayStep_inOrder h.history hc hn).2.trans (h.notifying k hk)
  case sweeper =>
    rintro order next rfl hn
    have hc := sweeper_unconcluded hb
    refine ⟨(sweeperStep_inOrder (k := 0) h.history hc hn).1, ?_⟩
    intro k hk
    refine ((sweeperStep_inOrder h.history hc hn).2 ?_).trans (h.notifying k hk)
    intro hr
    simp [overtakes, hr, Option.mem_def.mp hk] at ha
  case receiver =>
    intro key drops next hn
    refine ⟨(receiverStep_inOrder (k := 0) h.history hn).1, ?_⟩
    intro k hk
    exact (receiverStep_inOrder h.history hn).2.trans (h.notifying k hk)
  case tick => exact fun elapsed => ⟨h.history, h.notifying⟩
  case drop => exact fun _ _ => ⟨h.history, h.notifying⟩
  case dropping =>
    intro next hn
    have hh := dropStep_history hn
    exact ⟨by rw [hh]; exact h.history, by rw [hh]; exact h.notifying⟩

/-- In every run in which neither sender without a job is overtaken, nothing follows a
terminal message. -/
theorem nothing_after_terminal (h : Runs (system config) (fun b a => overtakes b a = false) .initial b)
    {later past : List Event} {k : ℕ} {message : Message}
    (hh : b.state.history = later ++ .sent k message :: past) (hm : message.isTerminal = true) :
    ∀ other, .sent k other ∉ later := by
  have hordered : Ordered b := by
    refine Runs.invariant_of_reachable (fun b act t hb ha he hp => step_ordered hb hp ha he) h (.refl _) ?_
    exact ⟨trivial, by simp [ActionBroker.initial, WorkerPc.notifying]⟩
  intro other ho
  obtain ⟨recent, earlier, rfl⟩ := List.append_of_mem ho
  have hin := hordered.history
  rw [hh, List.append_assoc, List.cons_append] at hin
  have hzero : (earlier ++ .sent k message :: past).countP (Event.isConcluded k) = 0 := hin.split
  simp [hm] at hzero

end Reachable

def overtakenNotice : List Act := submission 0 1 false .readWrite ++ parking ++
  ([.call (.deny 1), .proceed 1, .proceed 1, .worker] : List Act)

/-- The approval request follows the denial. -/
theorem approval_request_after_denial : ∃ b, Reachable (system sampleConfig) b ∧
    DistinctIds b.state.history ∧ ∃ past,
      b.state.history = [.sent 0 (.outcome (.pendingApproval .filesystemWrite))] ++
        .sent 0 (terminalMessage (.outcome 0) .denied) :: past ∧
      (terminalMessage (.outcome 0) .denied).isTerminal = true := by
  obtain ⟨b, hb, hdistinct, htake⟩ := (system sampleConfig).reachable_of_replay
    (fun b => DistinctIds b.state.history ∧ b.state.history.take 2 =
      [.sent 0 (.outcome (.pendingApproval .filesystemWrite)),
        .sent 0 (terminalMessage (.outcome 0) .denied)])
    overtakenNotice (by decide)
  have hsplit := List.take_append_drop 2 b.state.history
  rw [htake] at hsplit
  exact ⟨b, hb, hdistinct, b.state.history.drop 2, hsplit.symm, rfl⟩

theorem denial_ends_channel : ∃ b past, Reachable (system sampleConfig) b ∧
    b.state.history = [.recorded 0 ⟨1, .agent, "tool", .denied, .denied⟩] ++
      .sent 0 (terminalMessage (.outcome 0) .denied) :: past ∧
    ∀ other, Event.sent 0 other ∉ [Event.recorded 0 ⟨1, .agent, "tool", .denied, .denied⟩] := by
  obtain ⟨b, hruns, htake⟩ := (system sampleConfig).exists_of_replay
    (fun b a => overtakes b a = false)
    (fun b => b.state.history.take 2 = [.recorded 0 ⟨1, .agent, "tool", .denied, .denied⟩,
      .sent 0 (terminalMessage (.outcome 0) .denied)])
    .initial
    (submission 0 1 false .readWrite ++ parking ++
      ([.worker, .receive 0, .call (.deny 1), .proceed 1, .proceed 1, .proceed 1, .proceed 1] : List Act))
    (by decide)
  have hsplit := List.take_append_drop 2 b.state.history
  rw [htake] at hsplit
  exact ⟨b, b.state.history.drop 2, hruns.free, hsplit.symm,
    nothing_after_terminal hruns hsplit.symm rfl⟩

end FerrousRuntime.Broker
