import FerrousRuntime.Broker.Cancellation
import FerrousRuntime.Runtime.OutputBudget

/-! # The event stream and the session state machine

The broker sends a session's events without asking the state machine it keeps beside
them. The two agree as long as a streaming session is not cancelled before it starts,
not ended by a failure or a panic after it starts, not decided before its caller is
notified, and writes no more than its budget over both streams.
-/
namespace FerrousRuntime.Broker
open Tally Transition FerrousRuntime.Runtime Capability Command

def Event.onChannel (k : ℕ) : Event → Option SessionEvent
  | .sent key (.event event) => if key = k then some event else none
  | _ => none

abbrev eventsOn (k : ℕ) (history : List Event) : List SessionEvent := transcript (Event.onChannel k) history

/-- The call cancels the session's parked job, or has taken it and sees its flag. -/
def CallPc.cancelsEarly (k : ℕ) (s : BrokerState) : CallPc → Bool
  | .cancel id => (s.pending.lookup id).any (fun parked => ofKey k parked.job)
  | .checkCancelled id job => ofKey k job && s.isCancelled id
  | _ => false

/-- The worker finds the session's flag set before the start, or its run failed. -/
def WorkerPc.endsIrregularly (k : ℕ) (s : BrokerState) : WorkerPc → Bool
  | .begin job cell => ofKey k job && s.flags cell
  | .running job _ run => ofKey k job && match run.phase with
    | .returned (.error error) => error != .cancelled
    | _ => false
  | _ => false

/-- The steps by which the stream of a session leaves the state machine. -/
def deviates (k : ℕ) (b : ActionBroker) : Act → Bool
  | .proceed call => (b.calls[call]?).any (fun pc => pc.cancelsEarly k b.state ||
      (pc.reporting == some k && b.worker.notifying == some k))
  | .sweeper _ => b.sweeper.reporting == some k && b.worker.notifying == some k
  | .worker => b.worker.endsIrregularly k b.state
  | .runtime act => match b.worker with
    | .running job _ run => ofKey k job && run.overflows act
    | _ => false
  | .unwind => match b.worker with
    | .running job _ _ => ofKey k job
    | _ => false
  | _ => false

/-- What a run owes to the state machine: it streams what was accepted, and the two
pipes together leave room. -/
structure Streams (state : SessionState) (run : WasiRun) : Prop where
  running : state.lifecycle = .running
  limits : state.limits.maxOutputBytes = run.budget
  streaming : run.StreamingInv
  within : run.WithinBudget
  delivered : ∃ events, run.Delivery events ∧ state.outputBytes = deliveredBytes events

def Closing.Fits (k : ℕ) (state : SessionState) (closing : Closing) : Prop :=
  closing.stage = .send → closing.key = k → ∃ event, closing.message = .event event ∧ state.Ends event

def CallPc.Fits (k : ℕ) (state : SessionState) : CallPc → Prop
  | .checkCancelled _ job | .requeue _ job => job.key = k → state.Unstarted
  | .closing c => c.Fits k state
  | _ => True

def WorkerPc.Fits (k : ℕ) (state : SessionState) : WorkerPc → Prop
  | .lookup job | .missing job | .begin job _ | .announce job _ | .deadline job _ | .park job _ _ =>
    job.key = k → state.Unstarted
  | .running job _ run => job.key = k → Streams state run
  | .notify sink _ _ => sink.channel = k → state.lifecycle = .created ∧ state.outputBytes = 0
  | .closing c => c.Fits k state
  | _ => True

def SweeperPc.Fits (k : ℕ) (state : SessionState) : SweeperPc → Prop
  | .closing c _ => c.Fits k state
  | _ => True

/-- The state machine has accepted the session's events so far, and its state fits the
places the session's job waits in. -/
structure BrokerState.Fits (k id : ℕ) (limits : ResourceLimits) (state : SessionState)
    (s : BrokerState) : Prop where
  replay : (SessionState.new id limits).acceptAll (eventsOn k s.history) = .ok state
  queue : ∀ job ∈ s.queue, job.key = k → state.Unstarted
  pending : ∀ i parked, s.pending.lookup i = some parked → parked.job.key = k → state.Unstarted
  unsent : s.history.countP (Event.isEnqueued k) = 0 → state.Unstarted
  unasked : s.history.countP (Event.isParked k) = 0 → state.lifecycle ≠ .waitingApproval

/-- The session's job is neither on the queue nor parked. -/
structure Sole (k : ℕ) (s : BrokerState) : Prop where
  queue : ∀ job ∈ s.queue, job.key ≠ k
  pending : ∀ id parked, s.pending.lookup id = some parked → parked.job.key ≠ k
  accepted : s.history.countP (Event.isEnqueued k) ≠ 0

namespace BrokerState.Fits
variable {k id : ℕ} {limits : ResourceLimits} {state next : SessionState} {s : BrokerState}

theorem log (h : s.Fits k id limits state) (event : Event) (he : event.onChannel k = none) :
    (s.log event).Fits k id limits state := by
  refine ⟨?_, h.queue, h.pending, ?_, ?_⟩
  · rw [BrokerState.log, eventsOn, transcript_cons, he, Option.toList_none, List.append_nil]
    exact h.replay
  · exact fun hz => h.unsent (List.countP_eq_zero.mpr
      (fun e hm => List.countP_eq_zero.mp hz e (List.mem_cons_of_mem _ hm)))
  · exact fun hz => h.unasked (List.countP_eq_zero.mpr
      (fun e hm => List.countP_eq_zero.mp hz e (List.mem_cons_of_mem _ hm)))

theorem replay_send (h : s.Fits k id limits state) {event : SessionEvent}
    (ha : state.accept event = .ok next) :
    (SessionState.new id limits).acceptAll (eventsOn k (s.send k (.event event)).history) = .ok next := by
  rw [BrokerState.send, eventsOn, transcript_cons]
  simp only [Event.onChannel, if_true, Option.toList_some]
  rw [SessionState.acceptAll_snoc h.replay, ha]

theorem send_ne (h : s.Fits k id limits state) {key : ℕ} (message : Message) (hk : key ≠ k) :
    (s.send key message).Fits k id limits state := by
  have hlog := h.log (.sent key message) (by cases message <;> simp [Event.onChannel, hk])
  exact ⟨hlog.replay, hlog.queue, hlog.pending, hlog.unsent, hlog.unasked⟩

theorem send (h : s.Fits k id limits state) (hsole : Sole k s) {event : SessionEvent}
    (ha : state.accept event = .ok next) (hl : next.lifecycle ≠ .waitingApproval) :
    (s.send k (.event event)).Fits k id limits next := by
  refine ⟨h.replay_send ha, fun job hj hk => absurd hk (hsole.queue job hj),
    fun i parked hp hk => absurd hk (hsole.pending i parked hp), ?_, fun _ => hl⟩
  intro hz
  simp only [BrokerState.send, countP_cons_one, Event.isEnqueued, one_false, zero_add] at hz
  exact absurd hz hsole.accepted

theorem ask (h : s.Fits k id limits state) (hl : state.lifecycle = .created)
    (hz : state.outputBytes = 0) (hparked : s.history.countP (Event.isParked k) ≠ 0)
    (reason : ApprovalReason) : (s.send k (.event (.pendingApproval reason))).Fits k id limits
      { state with lifecycle := .waitingApproval } := by
  have hunstarted : ({ state with lifecycle := .waitingApproval } : SessionState).Unstarted :=
    ⟨Or.inr rfl, hz⟩
  refine ⟨h.replay_send (SessionState.accept_pendingApproval hl reason), fun _ _ _ => hunstarted,
    fun _ _ _ _ => hunstarted, fun _ => hunstarted, ?_⟩
  intro hnone
  simp only [BrokerState.send, countP_cons_one, Event.isParked, one_false, zero_add] at hnone
  exact absurd hnone hparked

theorem unpark (h : s.Fits k id limits state) (i : ℕ) :
    { s with pending := s.pending.erase i }.Fits k id limits state :=
  ⟨h.replay, h.queue, fun _ _ hl => h.pending _ _ (lookup_of_erase hl), h.unsent, h.unasked⟩

theorem take (h : s.Fits k id limits state) (decider : Decider) (i : ℕ) (job : Job) :
    (s.take decider i job).Fits k id limits state :=
  (h.log (.took decider job) rfl).unpark i

theorem enqueue (h : s.Fits k id limits state) {job : Job} (hj : job.key = k → state.Unstarted) :
    { s with queue := s.queue ++ [job] }.Fits k id limits state := by
  refine ⟨h.replay, ?_, h.pending, h.unsent, h.unasked⟩
  intro other ho
  rcases List.mem_append.mp ho with ho | ho
  · exact h.queue other ho
  · rw [List.mem_singleton.mp ho]
    exact hj

theorem park (h : s.Fits k id limits state) {job : Job} (hj : job.key = k → state.Unstarted)
    (deadline : ℕ) :
    { s with
      pending := s.pending.insert job.id ⟨job, deadline⟩
      history := .parked job :: (displacement (s.pending.lookup job.id) ++ s.history) }.Fits
        k id limits state := by
  have hdisplaced : { s with
      history := displacement (s.pending.lookup job.id) ++ s.history }.Fits k id limits state := by
    cases s.pending.lookup job.id with
    | none => exact h
    | some old => exact h.log (.displaced old.job) rfl
  have hlog := hdisplaced.log (.parked job) rfl
  refine ⟨hlog.replay, hlog.queue, ?_, hlog.unsent, hlog.unasked⟩
  intro i parked hl
  rcases lookup_of_insert hl with ⟨-, rfl⟩ | ⟨-, hl⟩
  · exact hj
  · exact h.pending i parked hl

end BrokerState.Fits

def Dedicated (k : ℕ) (limits : ResourceLimits) (history : List Event) : Prop :=
  ∀ origin, .registered origin ∈ history → origin.key = k →
    origin.sink = .events k ∧ origin.request.grant.limits = limits

theorem Dedicated.of_registered {k : ℕ} {limits : ResourceLimits} {history : List Event} {job : Job}
    (h : Dedicated k limits history) (hr : Registered history job) (hk : job.key = k) :
    job.sink = .events k ∧ job.request.grant.limits = limits := by
  obtain ⟨origin, ho, hrequest, -, hsink⟩ := hr
  obtain ⟨hs, hl⟩ := h origin ho ((congrArg JobSink.channel hsink).trans hk)
  exact ⟨hsink.symm.trans hs, by rw [← hrequest]; exact hl⟩

section Threads
variable {k id : ℕ} {limits : ResourceLimits} {state : SessionState} {s : BrokerState} {config : Config}

theorem Job.close_fits {job : Job} {i : ℕ} {terminal : Terminal} {decision : ApprovalDecision}
    {outcome : AuditOutcome} (hsink : job.key = k → job.sink = .events k)
    (hu : job.key = k → state.Unstarted) (ht : terminal ≠ .cancelled) :
    (job.close i terminal decision outcome).Fits k state := by
  intro _ hk
  refine ⟨.denied, ?_, hu hk⟩
  simp only [Job.close, hsink hk]
  cases terminal <;> first | rfl | exact absurd rfl ht

theorem Closing.step_fits {closing : Closing} (h : s.Fits k id limits state)
    (hc : closing.Fits k state) (hsole : closing.reporting = some k → Sole k s) :
    ∃ next, (closing.step s).1.Fits k id limits next ∧
      (∀ after ∈ (closing.step s).2, after.Fits k next) ∧
        (next = state ∨ closing.reporting = some k) := by
  obtain ⟨key, message, terminal, entry, stage⟩ := closing
  cases stage with
  | send =>
    by_cases hk : key = k
    · subst hk
      obtain ⟨event, hm, hends⟩ := hc rfl rfl
      have hsent := h.send (hsole rfl) hends.accept (by simp)
      dsimp only at hm
      subst hm
      refine ⟨_, hsent, ?_, Or.inr rfl⟩
      rintro after ⟨⟩ hstage
      cases hstage
    · refine ⟨state, h.send_ne message hk, ?_, Or.inl rfl⟩
      rintro after ⟨⟩ hstage
      cases hstage
  | record =>
    have hlog := h.log (.recorded key entry) rfl
    refine ⟨state, ⟨hlog.replay, hlog.queue, hlog.pending, hlog.unsent, hlog.unasked⟩, ?_, Or.inl rfl⟩
    rintro after ⟨⟩ hstage
    cases hstage
  | release => exact ⟨state, ⟨h.replay, h.queue, h.pending, h.unsent, h.unasked⟩, by simp [Closing.step],
      Or.inl rfl⟩

theorem callStep_fits {n : ℕ} {pc : CallPc} {next : BrokerState × CallPc}
    (h : s.Fits k id limits state) (hgen : s.Genuine) (hpc : pc.Fits k state)
    (hded : Dedicated k limits s.history) (hsole : pc.reporting = some k → Sole k s)
    (hpush : ∀ job, pc = .push job → job.key = k → s.history.countP (Event.isEnqueued k) = 0)
    (hearly : pc.cancelsEarly k s = false) (he : callStep config n s pc = some next) :
    ∃ after, next.1.Fits k id limits after ∧ next.2.Fits k after ∧
      (after = state ∨ pc.reporting = some k) := by
  cases callStep_cases he with
  | registered job =>
    have hlog := h.log (.registered job) rfl
    exact ⟨state, ⟨hlog.replay, hlog.queue, hlog.pending, hlog.unsent, hlog.unasked⟩, trivial, Or.inl rfl⟩
  | enqueued job =>
    have hq := (h.log (.enqueued job) rfl).enqueue (fun hk => h.unsent (hpush job rfl hk))
    exact ⟨state, ⟨hq.replay, hq.queue, hq.pending, hq.unsent, hq.unasked⟩, trivial, Or.inl rfl⟩
  | unregistered i =>
    exact ⟨state, ⟨h.replay, h.queue, h.pending, h.unsent, h.unasked⟩, trivial, Or.inl rfl⟩
  | approved i parked hp => exact ⟨state, h.take _ _ _, h.pending _ _ hp, Or.inl rfl⟩
  | sawCancelled i job hflag =>
    have hne : job.key ≠ k := by simpa [CallPc.cancelsEarly, hflag, ofKey] using hearly
    exact ⟨state, h.log _ rfl, fun _ hk => absurd hk hne, Or.inl rfl⟩
  | admitted i job => exact ⟨state, h, hpc, Or.inl rfl⟩
  | requeued i job => exact ⟨state, h.enqueue hpc, trivial, Or.inl rfl⟩
  | stranded i job => exact ⟨state, h.log _ rfl, trivial, Or.inl rfl⟩
  | denied i parked hp =>
    have hregistered := (hgen.pending _ _ hp).2.1.registered
    exact ⟨state, h.take _ _ _, Job.close_fits (fun hk => (hded.of_registered hregistered hk).1)
      (h.pending _ _ hp) (by simp), Or.inl rfl⟩
  | cancelled i parked hp =>
    have hne := hearly
    simp only [CallPc.cancelsEarly, hp, Option.any_some, ofKey, beq_eq_false_iff_ne] at hne
    exact ⟨state, h.take _ _ _, fun _ hk => absurd hk hne, Or.inl rfl⟩
  | flagged cell =>
    have hlog := h.log (.flagged cell) rfl
    exact ⟨state, ⟨hlog.replay, hlog.queue, hlog.pending, hlog.unsent, hlog.unasked⟩, trivial, Or.inl rfl⟩
  | closing c d _ hstep =>
    obtain ⟨after, hs, hnext, hsame⟩ := Closing.step_fits h hpc hsole
    rw [hstep] at hs hnext
    exact ⟨after, hs, hnext d rfl, hsame⟩
  | closed c _ hstep =>
    obtain ⟨after, hs, -, hsame⟩ := Closing.step_fits h hpc hsole
    rw [hstep] at hs
    exact ⟨after, hs, trivial, hsame⟩
  | _ => exact ⟨state, h, trivial, Or.inl rfl⟩

theorem sweeperStep_fits {order : List ℕ} {pc : SweeperPc} {next : BrokerState × SweeperPc}
    (h : s.Fits k id limits state) (hgen : s.Genuine) (hpc : pc.Fits k state)
    (hded : Dedicated k limits s.history) (hsole : pc.reporting = some k → Sole k s)
    (he : sweeperStep s order pc = some next) :
    ∃ after, next.1.Fits k id limits after ∧ next.2.Fits k after ∧
      (after = state ∨ pc.reporting = some k) := by
  cases sweeperStep_cases he with
  | took i rest parked hp =>
    have hregistered := (hgen.pending _ _ hp).2.1.registered
    exact ⟨state, h.take _ _ _, Job.close_fits (fun hk => (hded.of_registered hregistered hk).1)
      (h.pending _ _ hp) (by simp), Or.inl rfl⟩
  | closing c d _ _ hstep =>
    obtain ⟨after, hs, hnext, hsame⟩ := Closing.step_fits h hpc hsole
    rw [hstep] at hs hnext
    exact ⟨after, hs, hnext d rfl, hsame⟩
  | closed c _ _ hstep =>
    obtain ⟨after, hs, -, hsame⟩ := Closing.step_fits h hpc hsole
    rw [hstep] at hs
    exact ⟨after, hs, trivial, hsame⟩
  | _ => exact ⟨state, h, trivial, Or.inl rfl⟩

theorem BrokerState.Fits.deny (h : s.Fits k id limits state) {job : Job} (terminal : Terminal)
    (hu : job.key = k → state.Unstarted) (hsink : job.key = k → job.sink = .events k)
    (hsole : job.key = k → Sole k s) (ht : terminal ≠ .cancelled) :
    ∃ after, (s.send job.key (terminalMessage job.sink terminal)).Fits k id limits after ∧
      (after = state ∨ job.key = k) := by
  by_cases hk : job.key = k
  · have hends : state.Ends .denied := hu hk
    have hmessage : terminalMessage job.sink terminal = .event .denied := by
      rw [hsink hk]
      cases terminal <;> first | rfl | exact absurd rfl ht
    rw [hmessage, hk]
    exact ⟨_, h.send (hsole hk) hends.accept (by simp), Or.inr rfl⟩
  · exact ⟨state, h.send_ne _ hk, Or.inl rfl⟩

theorem Job.conclude_fits {job : Job} {result : Except RuntimeError WasiOutput}
    (hsink : job.key = k → job.sink = .events k) (hl : job.key = k → state.lifecycle = .running)
    (hresult : job.key = k → ∀ error, result = .error error → error = .cancelled) :
    (job.conclude (Broker.conclude job.sink result)).Fits k state := by
  intro _ hk
  simp only [Job.conclude, Broker.conclude, hsink hk]
  cases result with
  | ok output => exact ⟨_, rfl, hl hk⟩
  | error error =>
    cases hresult hk error rfl
    exact ⟨_, rfl, hl hk⟩

theorem streams_start {component : Component} {request : CommandRequest}
    (hu : state.Unstarted) (hlimits : state.limits = request.grant.limits) :
    Streams { state with lifecycle := .running } (.start .events component request true) :=
  ⟨rfl, by rw [hlimits]; rfl, WasiRun.streamingInv_start component request true, Nat.zero_le _,
    [], WasiRun.delivery_start .events component request true, hu.outputBytes⟩

theorem workerStep_fits {pc : WorkerPc} {next : BrokerState × WorkerPc}
    (h : s.Fits k id limits state) (hgen : s.Genuine) (hg : pc.Genuine s.history)
    (hpc : pc.Fits k state) (hded : Dedicated k limits s.history)
    (hsole : 0 < (pc.footprint k).holds → Sole k s)
    (hparked : 0 < (pc.footprint k).unparked → s.history.countP (Event.isParked k) = 0)
    (hregular : pc.endsIrregularly k s = false) (he : workerStep config s pc = some next) :
    ∃ after, next.1.Fits k id limits after ∧ next.2.Fits k after ∧
      (after = state ∨ 0 < (pc.footprint k).holds ∨ pc.notifying = some k ∧
        state.lifecycle = .created ∧ after = { state with lifecycle := .waitingApproval }) := by
  cases workerStep_cases he with
  | popped job rest hq =>
    refine ⟨state, ⟨h.replay, ?_, h.pending, h.unsent, h.unasked⟩, h.queue job (by simp [hq]), Or.inl rfl⟩
    exact fun other ho => h.queue other (by rw [hq]; exact List.mem_cons_of_mem _ ho)
  | exited | forgotten | released =>
    exact ⟨state, ⟨h.replay, h.queue, h.pending, h.unsent, h.unasked⟩, trivial, Or.inl rfl⟩
  | missing job | executed job => exact ⟨state, h.log _ rfl, hpc, Or.inl rfl⟩
  | deferred job | announced job | timed job => exact ⟨state, h, hpc, Or.inl rfl⟩
  | denied job =>
    obtain ⟨after, hs, hsame⟩ := h.deny (.deniedWith _) hpc (fun hk => (hded.of_registered hg hk).1)
      (fun hk => hsole (by simp [WorkerPc.footprint, ofKey, hk])) (by simp)
    refine ⟨after, hs, trivial, hsame.imp_right (fun hk => Or.inl ?_)⟩
    simp [WorkerPc.footprint, ofKey, hk]
  | cancelled job cell hflag =>
    have hne : job.key ≠ k := by simpa [WorkerPc.endsIrregularly, hflag, ofKey] using hregular
    exact ⟨state, h, fun _ hk => absurd hk hne, Or.inl rfl⟩
  | unstartable job cell error _ herror =>
    rw [SessionState.accept_started hg.1.unstarted] at herror
    cases herror
  | invoked job cell _ _ _ _ hsink =>
    refine ⟨state, h.log _ rfl, ?_, Or.inl rfl⟩
    intro hk
    rw [(hded.of_registered hg.1.registered hk).1] at hsink
    cases hsink
  | started job cell =>
    by_cases hk : job.key = k
    · have hu : state.Unstarted := hpc hk
      have hholds : 0 < ((WorkerPc.announce job cell).footprint k).holds := by
        simp [WorkerPc.footprint, ofKey, hk]
      have hsent := h.send (hsole hholds) (SessionState.accept_started hu.lifecycle) (by simp)
      have hlimits : state.limits = job.request.grant.limits :=
        (SessionState.acceptAll_limits h.replay).trans (hded.of_registered hg.1 hk).2.symm
      rw [hk]
      exact ⟨_, hsent.log _ rfl, fun _ => streams_start hu hlimits, Or.inr (Or.inl hholds)⟩
    · exact ⟨state, (h.send_ne _ hk).log _ rfl, fun hk' => absurd hk' hk, Or.inl rfl⟩
  | returned job cell run result hphase =>
    refine ⟨state, h, Job.conclude_fits (fun hk => (hded.of_registered hg.1 hk).1)
      (fun hk => (hpc hk).running) ?_, Or.inl rfl⟩
    rintro hk error rfl
    simpa [WorkerPc.endsIrregularly, ofKey, hk, hphase] using hregular
  | closing c d _ hstep =>
    obtain ⟨after, hs, hnext, hsame⟩ := Closing.step_fits h hpc (fun hr => hsole (reporting_holds hr))
    rw [hstep] at hs hnext
    exact ⟨after, hs, hnext d rfl, hsame.imp_right (fun hr => Or.inl (reporting_holds hr))⟩
  | closed c _ hstep =>
    obtain ⟨after, hs, -, hsame⟩ := Closing.step_fits h hpc (fun hr => hsole (reporting_holds hr))
    rw [hstep] at hs
    exact ⟨after, hs, trivial, hsame.imp_right (fun hr => Or.inl (reporting_holds hr))⟩
  | panicked job =>
    exact ⟨state, h.log _ rfl, Job.close_fits
      (fun hk => (hded.of_registered (Waiting.registered hg) hk).1) hpc (by simp), Or.inl rfl⟩
  | parked job deadline reason =>
    refine ⟨state, h.park hpc deadline, ?_, Or.inl rfl⟩
    intro hk
    have hu : state.Unstarted := hpc hk
    have hunparked : s.history.countP (Event.isParked k) = 0 := by
      refine hparked ?_
      change job.key = k at hk
      simp [WorkerPc.footprint, ofKey, hk]
    exact ⟨hu.lifecycle.resolve_right (h.unasked hunparked), hu.outputBytes⟩
  | notified sink i reason | unnotified sink i reason =>
    obtain ⟨shown, hshown, rfl, -⟩ := hg
    by_cases hk : shown.sink.channel = k
    · obtain ⟨hl, hz⟩ := hpc hk
      obtain ⟨past, hpast, hw⟩ := hgen.warranted.of_mem hshown
      have hregistered : Registered past shown := hw
      have hsink := (hded.of_registered
        (hregistered.mono ((List.suffix_cons _ _).trans hpast).subset) hk).1
      have hparkedShown : Event.isParked k (.parked shown) = true := beq_iff_eq.mpr hk
      have hcount : s.history.countP (Event.isParked k) ≠ 0 :=
        (List.countP_pos_iff.mpr ⟨_, hshown, hparkedShown⟩).ne'
      refine ⟨_, ?_, trivial, Or.inr (Or.inr ⟨congrArg some hk, hl, rfl⟩)⟩
      rw [hsink]
      exact h.ask hl hz hcount reason
    · exact ⟨state, h.send_ne _ hk, trivial, Or.inl rfl⟩
  | gone i => exact ⟨state, h, trivial, Or.inl rfl⟩
  | discarded i parked => exact ⟨state, (h.log (.discarded _) rfl).unpark i, trivial, Or.inl rfl⟩

/-- The output a run sends is accepted while the two pipes hold no more than the budget. -/
theorem Streams.step {flag : Bool} {epoch : ℕ} {act : RunAct} {effect : Effect} {run : WasiRun}
    (h : Streams state run) (hact : run.overflows act = false)
    (he : run.step flag epoch act = some effect) : ∃ after, Streams after effect.run ∧
      (effect.event = none ∧ after = state ∨
        ∃ event, effect.event = some event ∧ state.accept event = .ok after) := by
  obtain ⟨events, hdelivery, hbytes⟩ := h.delivered
  have hstreaming := WasiRun.step_streamingInv h.streaming he
  have hwithin := WasiRun.step_withinBudget h.within hact he
  have hnext := WasiRun.step_delivery h.streaming hdelivery he
  have hlimits := h.limits.trans (WasiRun.step_budget he).symm
  have hle := hnext.le_budget hwithin
  cases hevent : effect.event with
  | none =>
    rw [hevent] at hnext
    exact ⟨state, ⟨h.running, hlimits, hstreaming, hwithin, events, hnext, hbytes⟩, Or.inl ⟨rfl, rfl⟩⟩
  | some event =>
    obtain ⟨stream, bytes, rfl⟩ := WasiRun.step_event he event hevent
    rw [hevent] at hnext hle
    have hsum : deliveredBytes (.output stream bytes :: events) = state.outputBytes + bytes.length := by
      rw [hbytes, Nat.add_comm]
      rfl
    change deliveredBytes (.output stream bytes :: events) ≤ effect.run.budget at hle
    have hroom : state.outputBytes + bytes.length ≤ state.limits.maxOutputBytes := by omega
    have haccept := SessionState.accept_output h.running hroom stream
    exact ⟨{ state with outputBytes := state.outputBytes + bytes.length },
      ⟨h.running, hlimits, hstreaming, hwithin, _, hnext, hsum.symm⟩, Or.inr ⟨_, rfl, haccept⟩⟩

theorem emit_fits {key : ℕ} {event : Option SessionEvent} (h : s.Fits k id limits state)
    (hk : key ≠ k) : (s.emit key event).Fits k id limits state := by
  cases event with
  | none => exact h
  | some e => exact h.send_ne _ hk

theorem runtimeStep_fits {act : RunAct} {pc : WorkerPc} {next : BrokerState × WorkerPc}
    (h : s.Fits k id limits state) (hpc : pc.Fits k state)
    (hsole : 0 < (pc.footprint k).holds → Sole k s)
    (hact : ∀ job cell run, pc = .running job cell run → job.key = k → run.overflows act = false)
    (he : runtimeStep s act pc = some next) :
    ∃ after, next.1.Fits k id limits after ∧ next.2.Fits k after ∧
      (after = state ∨ 0 < (pc.footprint k).holds) := by
  obtain ⟨job, cell, run, effect, rfl, heff, rfl⟩ := runtimeStep_cases he
  have hepoch : { s with epoch := effect.epoch }.Fits k id limits state :=
    ⟨h.replay, h.queue, h.pending, h.unsent, h.unasked⟩
  by_cases hk : job.key = k
  · have hholds : 0 < ((WorkerPc.running job cell run).footprint k).holds := by
      simp [WorkerPc.footprint, ofKey, hk]
    obtain ⟨after, hstreams, hsent⟩ := (hpc hk).step (hact job cell run rfl hk) heff
    refine ⟨after, ?_, fun _ => hstreams, Or.inr hholds⟩
    rcases hsent with ⟨hevent, rfl⟩ | ⟨event, hevent, haccept⟩
    · rw [hevent]
      exact hepoch
    · rw [hevent, hk]
      have hs := hsole hholds
      exact hepoch.send ⟨hs.queue, hs.pending, hs.accepted⟩ haccept (by simp [hstreams.running])
  · exact ⟨state, emit_fits hepoch hk, fun hk' => absurd hk' hk, Or.inl rfl⟩

theorem unwindStep_fits {pc : WorkerPc} {next : BrokerState × WorkerPc × Stray}
    (h : s.Fits k id limits state) (hne : ∀ job cell run, pc = .running job cell run → job.key ≠ k)
    (he : unwindStep s pc = some next) :
    next.1.Fits k id limits state ∧ next.2.1.Fits k state ∧ next.2.2.key ≠ k := by
  obtain ⟨job, cell, run, rfl, -, rfl⟩ := unwindStep_cases he
  have hk := hne job cell run rfl
  exact ⟨h.log _ rfl, fun _ hk' => absurd hk' hk, hk⟩

theorem strayStep_fits {elapsed : Bool} {stray : Stray} {next : BrokerState × Stray}
    (h : s.Fits k id limits state) (hk : stray.key ≠ k) (he : strayStep s elapsed stray = some next) :
    next.1.Fits k id limits state ∧ next.2.key ≠ k := by
  obtain ⟨effect, -, rfl⟩ := Option.map_eq_some_iff.mp he
  exact ⟨emit_fits (s := { s with epoch := effect.epoch })
    ⟨h.replay, h.queue, h.pending, h.unsent, h.unasked⟩ hk, hk⟩

theorem receiverStep_fits {key : ℕ} {drops : Bool} {next : BrokerState}
    (h : s.Fits k id limits state) (he : receiverStep s key drops = some next) :
    next.Fits k id limits state := by
  cases receiverStep_cases he with
  | dropped => exact ⟨h.replay, h.queue, h.pending, h.unsent, h.unasked⟩
  | received message rest =>
    have hlog := h.log (.received key message) rfl
    exact ⟨hlog.replay, hlog.queue, hlog.pending, hlog.unsent, hlog.unasked⟩

theorem dropStep_fits {b : ActionBroker} {next : BrokerState × DropPc}
    (h : b.state.Fits k id limits state) (he : dropStep b = some next) :
    next.1.Fits k id limits state := by
  cases dropStep_cases he with
  | joinedWorker | joinedSweeper => exact h
  | _ => exact ⟨h.replay, h.queue, h.pending, h.unsent, h.unasked⟩

theorem enter_fits (request : Request) (h : s.Fits k id limits state) :
    (enter s request).1.Fits k id limits state ∧ (enter s request).2.Fits k state := by
  have hn := enter_cases s request
  generalize enter s request = next at hn ⊢
  cases hn with
  | submitted => exact ⟨⟨h.replay, h.queue, h.pending, h.unsent, h.unasked⟩, trivial⟩
  | _ => exact ⟨h, trivial⟩

theorem Closing.Fits.asked {closing : Closing} (h : closing.Fits k state)
    (hl : state.lifecycle = .created) :
    closing.Fits k { state with lifecycle := .waitingApproval } := by
  intro hstage hk
  obtain ⟨event, hm, hends⟩ := h hstage hk
  refine ⟨event, hm, ?_⟩
  cases event with
  | denied => exact ⟨Or.inr rfl, hends.outputBytes⟩
  | exited code => exact absurd (hl.symm.trans hends) (by simp)
  | cancelled => exact absurd (hl.symm.trans hends) (by simp)
  | _ => exact hends

theorem CallPc.Fits.asked {pc : CallPc} (h : pc.Fits k state) (hl : state.lifecycle = .created) :
    pc.Fits k { state with lifecycle := .waitingApproval } := by
  cases pc with
  | checkCancelled i job => exact fun hk => ⟨Or.inr rfl, (h hk).outputBytes⟩
  | requeue i job => exact fun hk => ⟨Or.inr rfl, (h hk).outputBytes⟩
  | closing c => exact Closing.Fits.asked h hl
  | _ => trivial

theorem SweeperPc.Fits.asked {pc : SweeperPc} (h : pc.Fits k state) (hl : state.lifecycle = .created) :
    pc.Fits k { state with lifecycle := .waitingApproval } := by
  cases pc with
  | closing c rest => exact Closing.Fits.asked h hl
  | _ => trivial

theorem Closing.fits_of_footprint {closing : Closing} (h : (closing.footprint k).holds = 0)
    (state : SessionState) : closing.Fits k state := by
  intro hstage hk
  simp [Closing.footprint, hstage, hk] at h

theorem CallPc.fits_of_footprint {pc : CallPc} (h : (pc.footprint k).holds = 0)
    (state : SessionState) : pc.Fits k state := by
  cases pc with
  | checkCancelled | requeue => simp_all [CallPc.Fits, CallPc.footprint, one, ofKey]
  | closing c => exact Closing.fits_of_footprint h state
  | _ => trivial

theorem WorkerPc.fits_of_footprint {pc : WorkerPc} (h : (pc.footprint k).holds = 0)
    (hn : pc.notifying ≠ some k) (state : SessionState) : pc.Fits k state := by
  cases pc with
  | closing c => exact Closing.fits_of_footprint h state
  | lookup | deadline | park | begin | missing | announce | running =>
    simp_all [WorkerPc.Fits, WorkerPc.footprint, one, ofKey]
  | notify sink i reason => exact fun hk => absurd (congrArg some hk) hn
  | _ => trivial

theorem SweeperPc.fits_of_footprint {pc : SweeperPc} (h : (pc.footprint k).holds = 0)
    (state : SessionState) : pc.Fits k state := by
  cases pc with
  | closing c rest => exact Closing.fits_of_footprint h state
  | _ => trivial

end Threads

/-- A state of the session's state machine that has accepted what was sent and fits
every thread's position. -/
structure ActionBroker.Fits (k id : ℕ) (limits : ResourceLimits) (b : ActionBroker)
    (state : SessionState) : Prop where
  shared : b.state.Fits k id limits state
  calls : ∀ pc ∈ b.calls, pc.Fits k state
  worker : b.worker.Fits k state
  sweeper : b.sweeper.Fits k state
  strays : ∀ stray ∈ b.strays, stray.key ≠ k

section Reachable
variable {config : Config} {b t : ActionBroker} {k id : ℕ} {limits : ResourceLimits}
  {state after : SessionState}

theorem sole_of_holds (h : Reachable (system config) b) (hk : 0 < (b.footprint k).holds) :
    Sole k b.state := by
  have hplaces := (reachable_ledger h k).places_le
  have howned := (reachable_ledger h k).owned
  refine ⟨?_, ?_, by omega⟩
  · intro job hj heq
    have hpos : 0 < b.state.queue.countP (ofKey k) := List.countP_pos_iff.mpr ⟨job, hj, beq_iff_eq.mpr heq⟩
    omega
  · intro i parked hl heq
    have hpos := values_pos_of_lookup (p := fun parked => ofKey k parked.job) hl (beq_iff_eq.mpr heq)
    omega

theorem push_unsent (h : Reachable (system config) b) {n : ℕ} {job : Job}
    (hpc : b.calls[n]? = some (.push job)) (hk : job.key = k) :
    b.state.history.countP (Event.isEnqueued k) = 0 := by
  by_contra haccepted
  exact push_key_ne h (Nat.pos_of_ne_zero haccepted) hpc hk

theorem unparked_unasked (h : Reachable (system config) b) (hk : 0 < (b.worker.footprint k).unparked) :
    b.state.history.countP (Event.isParked k) = 0 := by
  have hborn := (reachable_ledger h k).born_le
  have hparking := (reachable_ledger h k).parking
  simp only [ActionBroker.footprint, Footprint.add_unparked] at hparking
  omega

/-- While the worker holds the session, the calls and the sweeper have no part in it. -/
theorem others_fit (hb : Reachable (system config) b) (hpos : 0 < (b.worker.footprint k).holds)
    (after : SessionState) : (∀ pc ∈ b.calls, pc.Fits k after) ∧ b.sweeper.Fits k after := by
  obtain ⟨hcalls, hsweeper⟩ := worker_exclusive hb hpos
  exact ⟨fun pc hmem => CallPc.fits_of_footprint (hcalls pc hmem) after,
    SweeperPc.fits_of_footprint hsweeper after⟩

theorem step_fits {act : Act} (hb : Reachable (system config) b) (h : b.Fits k id limits state)
    (ha : deviates k b act = false) (hded : Dedicated k limits b.state.history)
    (he : step config b act = some t) : ∃ after, t.Fits k id limits after := by
  have hgen := reachable_genuine hb
  have hsole : 0 < (b.worker.footprint k).holds → Sole k b.state :=
    fun hk => sole_of_holds hb (hk.trans_le (worker_holds_le b k))
  apply step_elim (P := fun t => ∃ after, t.Fits k id limits after) he
  case call =>
    intro request _
    obtain ⟨hs, hpc⟩ := enter_fits request h.shared
    refine ⟨state, hs, ?_, h.worker, h.sweeper, h.strays⟩
    intro other hmem
    rcases List.mem_append.mp hmem with hmem | hmem
    · exact h.calls other hmem
    · exact List.mem_singleton.mp hmem ▸ hpc
  case proceed =>
    rintro n pc next rfl hpc hn
    simp only [deviates, hpc, Option.any_some, Bool.or_eq_false_iff, Bool.and_eq_false_imp,
      beq_iff_eq, beq_eq_false_iff_ne] at ha
    have hmem := List.mem_of_getElem? hpc
    obtain ⟨after, hs, hnext, hmoved⟩ := callStep_fits h.shared hgen.state (h.calls pc hmem) hded
      (fun hr => sole_of_holds hb ((CallPc.reporting_holds hr).trans_le (call_holds_le hmem k)))
      (fun job hj hk => push_unsent hb (hj ▸ hpc) hk) ha.1 hn
    have hothers : (∀ m other, m ≠ n → b.calls[m]? = some other → other.Fits k after) ∧
        b.worker.Fits k after ∧ b.sweeper.Fits k after := by
      rcases hmoved with rfl | hr
      · exact ⟨fun m other _ ho => h.calls other (List.mem_of_getElem? ho), h.worker, h.sweeper⟩
      · obtain ⟨hcalls, hworker, hsweeper⟩ := call_exclusive hb hpc (CallPc.reporting_holds hr)
        exact ⟨fun m other hne ho => CallPc.fits_of_footprint (hcalls m other hne ho) after,
          WorkerPc.fits_of_footprint hworker (ha.2 hr) after,
          SweeperPc.fits_of_footprint hsweeper after⟩
    refine ⟨after, hs, ?_, hothers.2.1, hothers.2.2, h.strays⟩
    intro other hother
    obtain ⟨m, hm⟩ := List.mem_iff_getElem?.mp hother
    by_cases hmn : m = n
    · subst hmn
      have hlt := (List.getElem?_eq_some_iff.mp hpc).1
      rw [List.getElem?_set_self hlt] at hm
      exact Option.some.inj hm ▸ hnext
    · rw [List.getElem?_set_ne (Ne.symm hmn)] at hm
      exact hothers.1 m other hmn hm
  case worker =>
    rintro next rfl hn
    obtain ⟨after, hs, hnext, hmoved⟩ := workerStep_fits h.shared hgen.state hgen.worker h.worker hded
      hsole (unparked_unasked hb) ha hn
    have hothers : (∀ pc ∈ b.calls, pc.Fits k after) ∧ b.sweeper.Fits k after := by
      rcases hmoved with rfl | hpos | ⟨-, hl, rfl⟩
      · exact ⟨h.calls, h.sweeper⟩
      · exact others_fit hb hpos after
      · exact ⟨fun pc hmem => (h.calls pc hmem).asked hl, h.sweeper.asked hl⟩
    exact ⟨after, hs, hothers.1, hnext, hothers.2, h.strays⟩
  case runtime =>
    rintro act next rfl hn
    have hact : ∀ job cell run, b.worker = .running job cell run → job.key = k →
        run.overflows act = false := by
      intro job cell run hw hk
      simpa [deviates, hw, ofKey, hk] using ha
    obtain ⟨after, hs, hnext, hmoved⟩ := runtimeStep_fits h.shared h.worker hsole hact hn
    have hothers : (∀ pc ∈ b.calls, pc.Fits k after) ∧ b.sweeper.Fits k after := by
      rcases hmoved with rfl | hpos
      · exact ⟨h.calls, h.sweeper⟩
      · exact others_fit hb hpos after
    exact ⟨after, hs, hothers.1, hnext, hothers.2, h.strays⟩
  case unwind =>
    rintro next rfl hn
    have hne : ∀ job cell run, b.worker = .running job cell run → job.key ≠ k := by
      intro job cell run hw
      simpa [deviates, hw, ofKey] using ha
    obtain ⟨hs, hw, hstray⟩ := unwindStep_fits h.shared hne hn
    refine ⟨state, hs, h.calls, hw, h.sweeper, ?_⟩
    intro stray hmem
    rcases List.mem_append.mp hmem with hmem | hmem
    · exact h.strays stray hmem
    · exact List.mem_singleton.mp hmem ▸ hstray
  case stray =>
    rintro index elapsed stray next rfl hstray hn
    obtain ⟨hs, hk⟩ := strayStep_fits h.shared (h.strays stray (List.mem_of_getElem? hstray)) hn
    refine ⟨state, hs, h.calls, h.worker, h.sweeper, ?_⟩
    intro other hmem
    rcases List.mem_or_eq_of_mem_set hmem with hmem | rfl
    · exact h.strays other hmem
    · exact hk
  case sweeper =>
    rintro order next rfl hn
    simp only [deviates, Bool.and_eq_false_imp, beq_iff_eq, beq_eq_false_iff_ne] at ha
    obtain ⟨after, hs, hnext, hmoved⟩ := sweeperStep_fits h.shared hgen.state h.sweeper hded
      (fun hr => sole_of_holds hb ((SweeperPc.reporting_holds hr).trans_le (sweeper_holds_le b k))) hn
    have hothers : (∀ pc ∈ b.calls, pc.Fits k after) ∧ b.worker.Fits k after := by
      rcases hmoved with rfl | hr
      · exact ⟨h.calls, h.worker⟩
      · obtain ⟨hcalls, hworker⟩ := sweeper_exclusive hb (SweeperPc.reporting_holds hr)
        exact ⟨fun pc hmem => CallPc.fits_of_footprint (hcalls pc hmem) after,
          WorkerPc.fits_of_footprint hworker (ha hr) after⟩
    exact ⟨after, hs, hothers.1, hothers.2, hnext, h.strays⟩
  case receiver =>
    intro key drops next hn
    exact ⟨state, receiverStep_fits h.shared hn, h.calls, h.worker, h.sweeper, h.strays⟩
  case tick =>
    have hs := h.shared
    exact fun elapsed => ⟨state, ⟨hs.replay, hs.queue, hs.pending, hs.unsent, hs.unasked⟩, h.calls,
      h.worker, h.sweeper, h.strays⟩
  case drop => exact fun _ _ => ⟨state, h.shared, h.calls, h.worker, h.sweeper, h.strays⟩
  case dropping =>
    exact fun next hn => ⟨state, dropStep_fits h.shared hn, h.calls, h.worker, h.sweeper, h.strays⟩

theorem initial_fits (k id : ℕ) (limits : ResourceLimits) :
    ActionBroker.initial.Fits k id limits (.new id limits) := by
  refine ⟨⟨rfl, ?_, ?_, fun _ => SessionState.unstarted_new id limits, ?_⟩, ?_, trivial, trivial, ?_⟩ <;>
    simp [ActionBroker.initial, BrokerState.initial, SessionState.new]

/-- In every run without such a step the state machine accepts every event sent on a
streaming session's channel. -/
theorem emitted_events_accepted {origin : Job}
    (h : Runs (system config) (fun b a => deviates origin.key b a = false) .initial b)
    (ho : .registered origin ∈ b.state.history) (hsink : origin.sink = .events origin.key) :
    ∃ final, (SessionState.new origin.id origin.request.grant.limits).acceptAll
      (eventsOn origin.key b.state.history) = .ok final := by
  have hded : Dedicated origin.key origin.request.grant.limits b.state.history := by
    intro other hother hkey
    cases registered_unique h.free hother ho hkey
    exact ⟨hsink, rfl⟩
  obtain ⟨state, hstate⟩ : ∃ state, b.Fits origin.key origin.id origin.request.grant.limits state := by
    refine Runs.invariant_under
      (H := fun b => Dedicated origin.key origin.request.grant.limits b.state.history)
      (P := fun b => ∃ state, b.Fits origin.key origin.id origin.request.grant.limits state)
      ?_ ?_ h (.refl _) ⟨_, initial_fits _ _ _⟩ hded
    · exact fun v a v' hv he hded other hother => hded other ((history_suffix hv he).subset hother)
    · rintro v a v' hv ha he hded ⟨state, hstate⟩
      exact step_fits hv hstate ha
        (fun other hother => hded other ((history_suffix hv he).subset hother)) he
  exact ⟨state, hstate.shared.replay⟩

end Reachable

def streamingJob : Job := newJob true ⟨false⟩ (sampleRequest 1 .read defaultLimits) 0

def cancelledInQueue : List Act := submission 0 1 true .read ++
  ([.call (.cancel 1), .proceed 1, .proceed 1, .proceed 1, .worker, .worker, .worker, .worker] : List Act)

/-- The one event it is sent is one the state machine rejects before a start. -/
theorem cancelled_stream_rejected : ∃ b, Reachable (system sampleConfig) b ∧
    DistinctIds b.state.history ∧ .registered streamingJob ∈ b.state.history ∧
    streamingJob.sink = .events streamingJob.key ∧
    eventsOn streamingJob.key b.state.history = [.cancelled] ∧
    (SessionState.new streamingJob.id streamingJob.request.grant.limits).acceptAll
      (eventsOn streamingJob.key b.state.history) =
        .error (.invalidTransition "session has not started") := by
  obtain ⟨b, hb, hdistinct, ho, hevents⟩ := (system sampleConfig).reachable_of_replay
    (fun b => DistinctIds b.state.history ∧ .registered streamingJob ∈ b.state.history ∧
      eventsOn streamingJob.key b.state.history = [.cancelled])
    cancelledInQueue (by decide)
  exact ⟨b, hb, hdistinct, ho, rfl, hevents, by rw [hevents]; rfl⟩

def streamedSession : List Act := submission 0 1 true .read ++
  ([.worker, .worker, .worker, .worker, .runtime .main, .runtime (.build sampleHost), .runtime .main,
    .runtime .instantiated, .runtime (.write .stdout [111]), .runtime (.write .stderr [101]),
    .runtime (.guestEnd .success), .runtime .main, .runtime .main,
    .runtime (.watch false), .runtime (.watch false), .runtime (.watch false), .runtime (.watch false),
    .runtime (.watch false), .runtime (.watch false), .runtime (.watch false), .runtime (.watch false),
    .runtime .main, .runtime .main, .worker, .worker] : List Act)

theorem streamed_session_accepted : ∃ b : ActionBroker,
    eventsOn streamingJob.key b.state.history =
      [.started, .output .stdout [111], .output .stderr [101], .exited (some 0)] ∧
    ∃ final, (SessionState.new streamingJob.id streamingJob.request.grant.limits).acceptAll
      (eventsOn streamingJob.key b.state.history) = .ok final := by
  obtain ⟨b, hruns, ho, hevents⟩ := (system sampleConfig).exists_of_replay
    (fun b a => deviates streamingJob.key b a = false)
    (fun b => .registered streamingJob ∈ b.state.history ∧ eventsOn streamingJob.key b.state.history =
      [.started, .output .stdout [111], .output .stderr [101], .exited (some 0)])
    .initial streamedSession (by decide)
  exact ⟨b, hevents, emitted_events_accepted hruns ho rfl⟩

end FerrousRuntime.Broker
