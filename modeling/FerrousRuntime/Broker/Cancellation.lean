import FerrousRuntime.Broker.QueueService
import FerrousRuntime.Broker.Trace

/-! # A cancellation before the start

`cancel` ends a parked session itself; for any other it sets the handle's flag, and
leaves it to whoever holds the job next to look at it. The worker and `approve` look,
`deny` and the sweeper do not, a worker that finds no handle has no flag to look at, and
the clean-up after a failed notification and the end of the broker leave a parked session
without any ending. In every other run a flagged session ends as cancelled and never starts.
-/
namespace FerrousRuntime.Broker
open Tally Transition FerrousRuntime.Runtime Policy

def Message.isCancelled : Message → Bool
  | .outcome .cancelled => true
  | .event .cancelled => true
  | _ => false

@[simp] theorem terminalMessage_cancelled (sink : JobSink) :
    (terminalMessage sink .cancelled).isCancelled = true := by
  cases sink <;> rfl

/-- What the history of a cancelled session may hold: no start, and no other ending. -/
def Event.honours (k : ℕ) : Event → Bool
  | .invoked key => key != k
  | .missing job => job.key != k
  | .sent key message => key != k || !message.isTerminal || message.isCancelled
  | .recorded key entry => key != k || entry.outcome == .cancelled
  | _ => true

def Unpanicked (history : List Event) : Prop := ∀ event ∈ history, event.isPanicked = false

instance (history : List Event) : Decidable (Unpanicked history) :=
  inferInstanceAs (Decidable (∀ event ∈ history, event.isPanicked = false))

theorem Unpanicked.suffix {past history : List Event} (h : Unpanicked history)
    (hp : past <:+ history) : Unpanicked past :=
  fun event he => h event (hp.subset he)

def BrokerState.Awaiting (s : BrokerState) (k : ℕ) : Prop :=
  0 < s.queue.countP (ofKey k) + values (fun parked => ofKey k parked.job) s.pending

instance (s : BrokerState) (k : ℕ) : Decidable (s.Awaiting k) := by
  unfold BrokerState.Awaiting
  infer_instance

/-- The call's next step is the one by which `cancel` takes effect on the session. -/
def CallPc.cancels (s : BrokerState) (k : ℕ) : CallPc → Bool
  | .setFlag cell => cell == k
  | .cancel id => (s.pending.lookup id).any (fun parked => ofKey k parked.job)
  | _ => false

/-- The step ends the session without looking at its flag: `deny` or the sweeper takes
its parked job, or the worker finds no handle for it. -/
def overrules (k : ℕ) (b : ActionBroker) : Act → Bool
  | .proceed call => (b.calls[call]?).any (fun pc => match pc with
    | .deny id => (b.state.pending.lookup id).any (fun parked => ofKey k parked.job)
    | _ => false)
  | .sweeper _ => match b.sweeper with
    | .sweeping (id :: _) => (b.state.pending.lookup id).any (fun parked => ofKey k parked.job)
    | _ => false
  | .worker => match b.worker with
    | .lookup job => ofKey k job && (b.state.handles.lookup job.id).isNone
    | _ => false
  | _ => false

/-- The step leaves the session without an ending: the clean-up after a failed notification
removes its parked job, or `drop` begins before it was sent its terminal message. -/
def leavesUntold (k : ℕ) (b : ActionBroker) : Act → Bool
  | .worker => match b.worker with
    | .cleanupPending id => (b.state.pending.lookup id).any (fun parked => ofKey k parked.job)
    | _ => false
  | .drop => b.state.history.countP (Event.isConcluded k) == 0
  | _ => false

def Closing.EndsCancelled (k : ℕ) (closing : Closing) : Prop :=
  match closing.stage with
  | .send => closing.key = k →
    closing.message.isCancelled = true ∧ closing.entry.outcome = .cancelled
  | .record => closing.key = k → closing.entry.outcome = .cancelled
  | .release => True

/-- Where a call may hold the job of a session with that flag. -/
def CallPc.EndsCancelled (k : ℕ) (flag : Bool) : CallPc → Prop
  | .checkCancelled _ job | .requeue _ job => job.key = k → flag = true
  | .closing c => c.EndsCancelled k
  | _ => True

def WorkerPc.EndsCancelled (k : ℕ) (flag : Bool) : WorkerPc → Prop
  | .lookup job | .deadline job _ | .park job _ _ | .begin job _ => job.key = k → flag = true
  | .missing job | .announce job _ | .running job _ _ => job.key ≠ k
  | .closing c => c.EndsCancelled k
  | _ => True

def SweeperPc.EndsCancelled (k : ℕ) : SweeperPc → Prop
  | .closing c _ => c.EndsCancelled k
  | _ => True

theorem CallPc.EndsCancelled.mono {k : ℕ} {flag flag' : Bool} {pc : CallPc} (h : pc.EndsCancelled k flag)
    (hflag : flag = true → flag' = true) : pc.EndsCancelled k flag' := by
  cases pc <;> first | exact h | exact fun hk => hflag (h hk)

theorem WorkerPc.EndsCancelled.mono {k : ℕ} {flag flag' : Bool} {pc : WorkerPc} (h : pc.EndsCancelled k flag)
    (hflag : flag = true → flag' = true) : pc.EndsCancelled k flag' := by
  cases pc <;> first | exact h | exact fun hk => hflag (h hk)

/-- The session's waiting jobs are flagged, and its events are those of a cancellation. -/
structure BrokerState.EndsCancelled (k : ℕ) (s : BrokerState) : Prop where
  queue : ∀ job ∈ s.queue, job.key = k → s.flags k = true
  pending : ∀ id parked, s.pending.lookup id = some parked → parked.job.key = k → s.flags k = true
  history : ∀ event ∈ s.history, event.honours k = true

namespace BrokerState.EndsCancelled
variable {k : ℕ} {s : BrokerState}

theorem log (h : s.EndsCancelled k) (event : Event) (he : event.honours k = true) : (s.log event).EndsCancelled k :=
  ⟨h.queue, h.pending, List.forall_mem_cons.mpr ⟨he, h.history⟩⟩

theorem send (h : s.EndsCancelled k) (key : ℕ) (message : Message)
    (hm : key = k → message.isTerminal = true → message.isCancelled = true) :
    (s.send key message).EndsCancelled k := by
  refine ⟨h.queue, h.pending, List.forall_mem_cons.mpr ⟨?_, h.history⟩⟩
  by_cases hk : key = k <;> cases ht : message.isTerminal <;> simp_all [Event.honours]

theorem record (h : s.EndsCancelled k) {key : ℕ} {entry : AuditEntry}
    (he : key = k → entry.outcome = .cancelled) : (s.record key entry).EndsCancelled k := by
  refine ⟨h.queue, h.pending, List.forall_mem_cons.mpr ⟨?_, h.history⟩⟩
  by_cases hk : key = k <;> simp_all [Event.honours]

theorem unpark (h : s.EndsCancelled k) (id : ℕ) : { s with pending := s.pending.erase id }.EndsCancelled k :=
  ⟨h.queue, fun _ _ hl => h.pending _ _ (lookup_of_erase hl), h.history⟩

theorem take (h : s.EndsCancelled k) (decider : Decider) (id : ℕ) (job : Job) :
    (s.take decider id job).EndsCancelled k :=
  (h.log (.took decider job) rfl).unpark id

theorem enqueue (h : s.EndsCancelled k) {job : Job} (hj : job.key = k → s.flags k = true) :
    { s with queue := s.queue ++ [job] }.EndsCancelled k := by
  refine ⟨?_, h.pending, h.history⟩
  intro other ho
  rcases List.mem_append.mp ho with ho | ho
  · exact h.queue other ho
  · rw [List.mem_singleton.mp ho]
    exact hj

theorem park (h : s.EndsCancelled k) {job : Job} (hj : job.key = k → s.flags k = true) (deadline : ℕ) :
    { s with
      pending := s.pending.insert job.id ⟨job, deadline⟩
      history := .parked job :: (displacement (s.pending.lookup job.id) ++ s.history) }.EndsCancelled k := by
  refine ⟨h.queue, ?_, ?_⟩
  · intro id parked hl
    rcases lookup_of_insert hl with ⟨-, rfl⟩ | ⟨-, hl⟩
    · exact hj
    · exact h.pending id parked hl
  · cases s.pending.lookup job.id with
    | none => exact List.forall_mem_cons.mpr ⟨rfl, h.history⟩
    | some old => exact List.forall_mem_cons.mpr ⟨rfl, List.forall_mem_cons.mpr ⟨rfl, h.history⟩⟩

theorem flag (h : s.EndsCancelled k) {flags : ℕ → Bool} (hf : s.flags k = true → flags k = true) :
    { s with flags := flags }.EndsCancelled k :=
  ⟨fun job hj hk => hf (h.queue job hj hk), fun id parked hl hk => hf (h.pending id parked hl hk), h.history⟩

end BrokerState.EndsCancelled

section Threads
variable {k : ℕ} {s : BrokerState} {config : Config}

theorem Closing.step_flags (s : BrokerState) (closing : Closing) :
    (closing.step s).1.flags = s.flags := by
  unfold Closing.step
  split <;> rfl

theorem Closing.step_endsCancelled {closing : Closing} (h : s.EndsCancelled k) (hc : closing.EndsCancelled k) :
    (closing.step s).1.EndsCancelled k ∧ ∀ next ∈ (closing.step s).2, next.EndsCancelled k := by
  obtain ⟨key, message, terminal, entry, stage⟩ := closing
  cases stage with
  | send =>
    refine ⟨h.send _ _ (fun hk _ => (hc hk).1), ?_⟩
    rintro next ⟨⟩ hk
    exact (hc hk).2
  | record =>
    refine ⟨h.record hc, ?_⟩
    rintro next ⟨⟩
    trivial
  | release => exact ⟨⟨h.queue, h.pending, h.history⟩, by simp [Closing.step]⟩

theorem Job.close_endsCancelled (job : Job) (id : ℕ) (decision : ApprovalDecision) :
    (job.close id .cancelled decision .cancelled).EndsCancelled k :=
  fun _ => ⟨by simp [Job.close], rfl⟩

theorem Job.close_endsCancelled_of_ne {job : Job} {id : ℕ} {terminal : Terminal} {decision : ApprovalDecision}
    {outcome : AuditOutcome} (hj : job.key ≠ k) : (job.close id terminal decision outcome).EndsCancelled k :=
  fun hk => absurd hk hj

theorem Job.conclude_endsCancelled_of_ne {job : Job} {conclusion : Conclusion} (hj : job.key ≠ k) :
    (job.conclude conclusion).EndsCancelled k :=
  fun hk => absurd hk hj

theorem callStep_endsCancelled {n : ℕ} {pc : CallPc} {next : BrokerState × CallPc} (h : s.EndsCancelled k)
    (hpc : pc.EndsCancelled k (s.flags k)) (hpush : ∀ job, pc = .push job → job.key ≠ k)
    (hdeny : ∀ id parked, pc = .deny id → s.pending.lookup id = some parked → parked.job.key ≠ k)
    (he : callStep config n s pc = some next) :
    (s.flags k = true → next.1.flags k = true) ∧ next.1.EndsCancelled k ∧
      next.2.EndsCancelled k (next.1.flags k) := by
  cases callStep_cases he with
  | registered job =>
    have hlog := h.log (.registered job) rfl
    exact ⟨id, ⟨hlog.queue, hlog.pending, hlog.history⟩, trivial⟩
  | enqueued job =>
    have hq := (h.log (.enqueued job) rfl).enqueue (fun hk => absurd hk (hpush job rfl))
    exact ⟨id, ⟨hq.queue, hq.pending, hq.history⟩, trivial⟩
  | unregistered i => exact ⟨id, ⟨h.queue, h.pending, h.history⟩, trivial⟩
  | approved i parked hp => exact ⟨id, h.take _ _ _, h.pending _ _ hp⟩
  | sawCancelled i job => exact ⟨id, h.log _ rfl, job.close_endsCancelled i _⟩
  | admitted i job => exact ⟨id, h, hpc⟩
  | requeued i job => exact ⟨id, h.enqueue hpc, trivial⟩
  | stranded i job => exact ⟨id, h.log _ rfl, trivial⟩
  | denied i parked hp => exact ⟨id, h.take _ _ _, Job.close_endsCancelled_of_ne (hdeny i _ rfl hp)⟩
  | cancelled i parked hp => exact ⟨id, h.take _ _ _, Job.close_endsCancelled _ i _⟩
  | flagged cell =>
    have hflag : s.flags k = true → Function.update s.flags cell true k = true := by
      intro hk
      by_cases hc : k = cell <;> simp [hc, hk]
    exact ⟨hflag, (h.log (.flagged cell) rfl).flag hflag, trivial⟩
  | closing c d _ hs =>
    have hc := Closing.step_endsCancelled h hpc
    have hf := Closing.step_flags s c
    rw [hs] at hc hf
    exact ⟨by rw [hf]; exact id, hc.1, hc.2 d rfl⟩
  | closed c _ hs =>
    have hc := Closing.step_endsCancelled h hpc
    have hf := Closing.step_flags s c
    rw [hs] at hc hf
    exact ⟨by rw [hf]; exact id, hc.1, trivial⟩
  | _ => exact ⟨id, h, trivial⟩

theorem workerStep_endsCancelled {pc : WorkerPc} {next : BrokerState × WorkerPc} (h : s.EndsCancelled k)
    (hpc : pc.EndsCancelled k (s.flags k))
    (hcell : ∀ job cell, pc = .begin job cell → job.key = k → cell = k)
    (hhandle : ∀ job, pc = .lookup job → s.handles.lookup job.id = none → job.key ≠ k)
    (hpanic : Unpanicked next.1.history) (he : workerStep config s pc = some next) :
    next.1.flags = s.flags ∧ next.1.EndsCancelled k ∧ next.2.EndsCancelled k (s.flags k) := by
  -- an unflagged job is another session's
  have hunflagged : ∀ job cell, pc = .begin job cell → s.flags cell = false → job.key ≠ k := by
    rintro job cell rfl hflag rfl
    rw [hcell job cell rfl rfl, hpc rfl] at hflag
    cases hflag
  cases workerStep_cases he with
  | popped job rest hq =>
    have hrest : ∀ other ∈ rest, other.key = k → s.flags k = true :=
      fun other ho => h.queue other (by rw [hq]; exact List.mem_cons_of_mem _ ho)
    exact ⟨rfl, ⟨hrest, h.pending, h.history⟩, h.queue job (by simp [hq])⟩
  | exited => exact ⟨rfl, ⟨h.queue, h.pending, h.history⟩, trivial⟩
  | missing job hl =>
    have hne := hhandle job rfl hl
    exact ⟨rfl, h.log _ (bne_iff_ne.mpr hne), hne⟩
  | executed job cell => exact ⟨rfl, h.log _ rfl, hpc⟩
  | deferred job cell reason => exact ⟨rfl, h, hpc⟩
  | denied job => exact ⟨rfl, h.send _ _ (fun hk => absurd hk hpc), trivial⟩
  | forgotten i | released i => exact ⟨rfl, ⟨h.queue, h.pending, h.history⟩, trivial⟩
  | cancelled job cell => exact ⟨rfl, h, fun _ => ⟨by simp [Job.conclude, concludeCancelled], rfl⟩⟩
  | unstartable job cell _ hflag =>
    exact ⟨rfl, h, Job.conclude_endsCancelled_of_ne (hunflagged job cell rfl hflag)⟩
  | announced job cell _ _ hflag => exact ⟨rfl, h, hunflagged job cell rfl hflag⟩
  | invoked job cell _ _ hflag =>
    have hne := hunflagged job cell rfl hflag
    exact ⟨rfl, h.log _ (bne_iff_ne.mpr hne), hne⟩
  | started job cell =>
    have hsent := h.send job.key (.event .started) (fun hk => absurd hk hpc)
    have hinvoked : (Event.invoked job.key).honours k = true := bne_iff_ne.mpr hpc
    exact ⟨rfl, hsent.log _ hinvoked, hpc⟩
  | returned job cell run => exact ⟨rfl, h, Job.conclude_endsCancelled_of_ne hpc⟩
  | closing c d _ hs =>
    have hc := Closing.step_endsCancelled h hpc
    have hf := Closing.step_flags s c
    rw [hs] at hc hf
    exact ⟨hf, hc.1, hc.2 d rfl⟩
  | closed c _ hs =>
    have hc := Closing.step_endsCancelled h hpc
    have hf := Closing.step_flags s c
    rw [hs] at hc hf
    exact ⟨hf, hc.1, trivial⟩
  | panicked job => cases hpanic _ List.mem_cons_self
  | timed job reason => exact ⟨rfl, h, hpc⟩
  | parked job deadline => exact ⟨rfl, h.park hpc deadline, trivial⟩
  | notified sink i reason | unnotified sink i reason => exact ⟨rfl, h.send _ _ (by simp), trivial⟩
  | gone i => exact ⟨rfl, h, trivial⟩
  | discarded i parked => exact ⟨rfl, (h.log (.discarded _) rfl).unpark i, trivial⟩

theorem emit_endsCancelled {key : ℕ} {event : Option Command.SessionEvent} (h : s.EndsCancelled k)
    (hout : ∀ e, event = some e → e.isTerminal = false) : (s.emit key event).EndsCancelled k := by
  cases event with
  | none => exact h
  | some e =>
    refine h.send _ _ ?_
    intro _ ht
    rw [Message.isTerminal, hout e rfl] at ht
    cases ht

theorem emit_flags (s : BrokerState) (key : ℕ) (event : Option Command.SessionEvent) :
    (s.emit key event).flags = s.flags := by
  cases event <;> rfl

theorem runtimeStep_endsCancelled {act : RunAct} {pc : WorkerPc} {next : BrokerState × WorkerPc}
    (h : s.EndsCancelled k) (hpc : pc.EndsCancelled k (s.flags k)) (he : runtimeStep s act pc = some next) :
    next.1.flags = s.flags ∧ next.1.EndsCancelled k ∧ next.2.EndsCancelled k (s.flags k) := by
  obtain ⟨job, cell, run, effect, rfl, heff, rfl⟩ := runtimeStep_cases he
  exact ⟨emit_flags _ _ _, emit_endsCancelled (s := { s with epoch := effect.epoch })
    ⟨h.queue, h.pending, h.history⟩ (output_not_terminal heff), hpc⟩

theorem unwindStep_panicked {pc : WorkerPc} {next : BrokerState × WorkerPc × Stray}
    (he : unwindStep s pc = some next) : ¬ Unpanicked next.1.history := by
  obtain ⟨job, cell, run, rfl, -, rfl⟩ := unwindStep_cases he
  intro hpanic
  cases hpanic _ List.mem_cons_self

theorem enter_endsCancelled (request : Request) (h : s.EndsCancelled k) :
    (enter s request).1.flags = s.flags ∧ (enter s request).1.EndsCancelled k ∧
      (enter s request).2.EndsCancelled k ((enter s request).1.flags k) := by
  have hn := enter_cases s request
  generalize enter s request = next at hn ⊢
  cases hn with
  | submitted => exact ⟨rfl, ⟨h.queue, h.pending, h.history⟩, trivial⟩
  | _ => exact ⟨rfl, h, trivial⟩

theorem strayStep_endsCancelled {elapsed : Bool} {stray : Stray} {next : BrokerState × Stray}
    (h : s.EndsCancelled k) (he : strayStep s elapsed stray = some next) :
    next.1.flags = s.flags ∧ next.1.EndsCancelled k := by
  obtain ⟨effect, heff, rfl⟩ := Option.map_eq_some_iff.mp he
  exact ⟨emit_flags _ _ _, emit_endsCancelled (s := { s with epoch := effect.epoch })
    ⟨h.queue, h.pending, h.history⟩ (output_not_terminal heff)⟩

theorem sweeperStep_endsCancelled {order : List ℕ} {pc : SweeperPc} {next : BrokerState × SweeperPc}
    (h : s.EndsCancelled k) (hpc : pc.EndsCancelled k)
    (hsweep : ∀ id rest parked, pc = .sweeping (id :: rest) → s.pending.lookup id = some parked →
      parked.job.key ≠ k)
    (he : sweeperStep s order pc = some next) :
    next.1.flags = s.flags ∧ next.1.EndsCancelled k ∧ next.2.EndsCancelled k := by
  cases sweeperStep_cases he with
  | took id rest parked hp =>
    exact ⟨rfl, h.take _ _ _, Job.close_endsCancelled_of_ne (hsweep id rest _ rfl hp)⟩
  | closing c d _ _ hs =>
    have hc := Closing.step_endsCancelled h hpc
    have hf := Closing.step_flags s c
    rw [hs] at hc hf
    exact ⟨hf, hc.1, hc.2 d rfl⟩
  | closed c _ _ hs =>
    have hc := Closing.step_endsCancelled h hpc
    have hf := Closing.step_flags s c
    rw [hs] at hc hf
    exact ⟨hf, hc.1, trivial⟩
  | _ => exact ⟨rfl, h, trivial⟩

theorem receiverStep_endsCancelled {key : ℕ} {drops : Bool} {next : BrokerState} (h : s.EndsCancelled k)
    (he : receiverStep s key drops = some next) : next.flags = s.flags ∧ next.EndsCancelled k := by
  cases receiverStep_cases he with
  | dropped => exact ⟨rfl, ⟨h.queue, h.pending, h.history⟩⟩
  | received message rest =>
    exact ⟨rfl, ⟨h.queue, h.pending, (h.log (.received key message) rfl).history⟩⟩

theorem dropStep_endsCancelled {b : ActionBroker} {next : BrokerState × DropPc} (h : b.state.EndsCancelled k)
    (he : dropStep b = some next) :
    (b.state.flags k = true → next.1.flags k = true) ∧ next.1.EndsCancelled k := by
  cases dropStep_cases he with
  | cancelledAll =>
    have hflag : b.state.flags k = true →
        (b.state.flags k || b.state.handles.entries.any (fun entry => entry.2 == k)) = true :=
      fun hk => by rw [hk, Bool.true_or]
    exact ⟨hflag, h.flag hflag⟩
  | joinedWorker | joinedSweeper => exact ⟨id, h⟩
  | _ => exact ⟨id, ⟨h.queue, h.pending, h.history⟩⟩

end Threads

structure ActionBroker.EndsCancelled (k : ℕ) (b : ActionBroker) : Prop where
  accepted : 0 < b.state.history.countP (Event.isEnqueued k)
  state : b.state.EndsCancelled k
  calls : ∀ pc ∈ b.calls, pc.EndsCancelled k (b.state.flags k)
  worker : b.worker.EndsCancelled k (b.state.flags k)
  sweeper : b.sweeper.EndsCancelled k

section Reachable
variable {config : Config} {b t : ActionBroker} {k : ℕ}

theorem begin_cell (h : Reachable (system config) b) (hdistinct : DistinctIds b.state.history)
    {job : Job} {cell : ℕ} (hpc : b.worker = .begin job cell) : cell = job.key := by
  have hjob := (reachable_genuine h).worker
  rw [hpc] at hjob
  obtain ⟨hw, origin, ho, hid, hcell⟩ := hjob
  obtain ⟨origin', ho', hrequest', -, hsink'⟩ := hw.registered
  have hsame : origin.id = origin'.id := by rw [hid, Job.id, Job.id, hrequest']
  rw [← hcell, hdistinct.key_eq ho ho' hsame, Job.key, Job.key, hsink']

theorem push_key_ne (h : Reachable (system config) b)
    (haccepted : 0 < b.state.history.countP (Event.isEnqueued k)) {n : ℕ} {job : Job}
    (hpc : b.calls[n]? = some (.push job)) : job.key ≠ k := by
  rintro rfl
  have hborn := (reachable_ledger h job.key).born_le
  obtain ⟨rest, hsum, -⟩ := exists_frame (CallPc.footprint job.key) hpc
  simp only [ActionBroker.footprint, hsum, Footprint.add_unborn, CallPc.footprint, ofKey, beq_self_eq_true,
    one_true] at hborn
  omega

theorem Closing.endsCancelled_of_footprint {closing : Closing} (hholds : (closing.footprint k).holds = 0)
    (hrecording : (closing.footprint k).recording = 0) : closing.EndsCancelled k := by
  obtain ⟨key, message, terminal, entry, stage⟩ := closing
  cases stage <;> simp_all [Closing.EndsCancelled, Closing.footprint, one]

theorem CallPc.endsCancelled_of_footprint {pc : CallPc} (hholds : (pc.footprint k).holds = 0)
    (hrecording : (pc.footprint k).recording = 0) (flag : Bool) : pc.EndsCancelled k flag := by
  cases pc with
  | checkCancelled | requeue => simp_all [CallPc.EndsCancelled, CallPc.footprint, one, ofKey]
  | closing c => exact Closing.endsCancelled_of_footprint hholds hrecording
  | _ => trivial

theorem WorkerPc.endsCancelled_of_footprint {pc : WorkerPc} (hholds : (pc.footprint k).holds = 0)
    (hrecording : (pc.footprint k).recording = 0) (flag : Bool) : pc.EndsCancelled k flag := by
  cases pc with
  | closing c => exact Closing.endsCancelled_of_footprint hholds hrecording
  | lookup | deadline | park | begin | missing | announce | running =>
    simp_all [WorkerPc.EndsCancelled, WorkerPc.footprint, one, ofKey]
  | _ => trivial

theorem SweeperPc.endsCancelled_of_footprint {pc : SweeperPc} (hholds : (pc.footprint k).holds = 0)
    (hrecording : (pc.footprint k).recording = 0) : pc.EndsCancelled k := by
  cases pc with
  | closing c rest => exact Closing.endsCancelled_of_footprint hholds hrecording
  | _ => trivial

theorem unreported_le_holds (b : ActionBroker) (k : ℕ) :
    (b.footprint k).unreported ≤ (b.footprint k).holds := by
  have hclosing : ∀ closing : Closing, (closing.footprint k).unreported = 0 := by
    rintro ⟨key, message, terminal, entry, stage⟩
    cases stage <;> rfl
  have hcalls : ((b.calls.map (CallPc.footprint k)).sum).unreported = 0 := by
    induction b.calls with
    | nil => rfl
    | cons pc calls ih =>
      rw [List.map_cons, List.sum_cons, Footprint.add_unreported, ih, add_zero]
      cases pc <;> first | rfl | exact hclosing _
  have hsweeper : (b.sweeper.footprint k).unreported = 0 := by
    cases b.sweeper <;> first | rfl | exact hclosing _
  have hworker : (b.worker.footprint k).unreported ≤ (b.worker.footprint k).holds := by
    cases b.worker <;> first | exact Nat.zero_le _ | exact le_rfl | exact (hclosing _).trans_le (Nat.zero_le _)
  simp only [ActionBroker.footprint, Footprint.add_unreported, Footprint.add_holds]
  omega

/-- While a session's job waits, nobody holds it, and the session has neither started
nor ended. -/
theorem awaiting_untouched (h : Reachable (system config) b) (hw : b.state.Awaiting k) :
    0 < b.state.history.countP (Event.isEnqueued k) ∧ (b.footprint k).holds = 0 ∧
      (b.footprint k).recording = 0 ∧ ∀ event ∈ b.state.history, event.honours k = true := by
  have hledger := reachable_ledger h k
  have hborn := hledger.born_le
  have howned := hledger.owned
  have hreported := hledger.reported
  have hstarted := hledger.started
  have hinvoked := hledger.invoked
  have hunreported := unreported_le_holds b k
  unfold BrokerState.Awaiting at hw
  have hnone : b.state.history.countP (Event.isConcluded k) = 0 ∧
      b.state.history.countP (Event.isRecorded k) = 0 ∧
      b.state.history.countP (Event.isInvoked k) = 0 ∧
      b.state.history.countP (Event.isMissing k) = 0 := by omega
  refine ⟨by omega, by omega, by omega, ?_⟩
  intro event he
  have hc := List.countP_eq_zero.mp hnone.1 event he
  have hr := List.countP_eq_zero.mp hnone.2.1 event he
  have hi := List.countP_eq_zero.mp hnone.2.2.1 event he
  have hm := List.countP_eq_zero.mp hnone.2.2.2 event he
  cases event with
  | sent key message =>
    simp only [Event.isConcluded, Bool.not_eq_true, Bool.and_eq_false_iff] at hc
    rcases hc with hc | hc <;> simp [Event.honours, hc, bne]
  | recorded key entry =>
    simp only [Event.isRecorded, Bool.not_eq_true] at hr
    simp [Event.honours, hr, bne]
  | invoked key =>
    simp only [Event.isInvoked, Bool.not_eq_true] at hi
    simp [Event.honours, hi, bne]
  | missing job =>
    simp only [Event.isMissing, ofKey, Bool.not_eq_true] at hm
    simp [Event.honours, hm, bne]
  | _ => rfl

theorem cancel_endsCancelled (h : Reachable (system config) b) (hw : b.state.Awaiting k) {n : ℕ} {pc : CallPc}
    (hpc : b.calls[n]? = some pc) (hcancel : pc.cancels b.state k = true)
    (he : step config b (.proceed n) = some t) : t.EndsCancelled k := by
  obtain ⟨haccepted, hholds, hrecording, hhistory⟩ := awaiting_untouched h hw
  have hcalls : ∀ pc ∈ b.calls, ∀ flag, pc.EndsCancelled k flag := by
    intro other hmem
    obtain ⟨i, hi⟩ := List.mem_iff_getElem?.mp hmem
    obtain ⟨rest, hsum, -⟩ := exists_frame (CallPc.footprint k) hi
    simp only [ActionBroker.footprint, hsum, Footprint.add_holds, Footprint.add_recording] at hholds hrecording
    exact CallPc.endsCancelled_of_footprint (by omega) (by omega)
  simp only [ActionBroker.footprint, Footprint.add_holds, Footprint.add_recording] at hholds hrecording
  have hworker : ∀ flag, b.worker.EndsCancelled k flag := WorkerPc.endsCancelled_of_footprint (by omega) (by omega)
  have hsweeper : b.sweeper.EndsCancelled k := SweeperPc.endsCancelled_of_footprint (by omega) (by omega)
  obtain ⟨pc', hpc', he⟩ := Option.bind_eq_some_iff.mp he
  obtain ⟨next, hn, rfl⟩ := Option.map_eq_some_iff.mp he
  cases hpc.symm.trans hpc'
  have hset : ∀ flag (closing : CallPc), closing.EndsCancelled k flag →
      ∀ other ∈ b.calls.set n closing, other.EndsCancelled k flag := by
    intro flag closing hclosing other hmem
    rcases List.mem_or_eq_of_mem_set hmem with hmem | rfl
    · exact hcalls other hmem flag
    · exact hclosing
  cases pc <;> simp only [CallPc.cancels, Bool.false_eq_true] at hcancel
  case setFlag cell =>
    cases hn
    have hflag : Function.update b.state.flags cell true k = true := by
      simp [beq_iff_eq.mp hcancel]
    refine ⟨by simpa using haccepted, ⟨fun _ _ _ => hflag, fun _ _ _ _ => hflag, ?_⟩,
      hset _ _ trivial, hworker _, hsweeper⟩
    exact List.forall_mem_cons.mpr ⟨rfl, hhistory⟩
  case cancel id =>
    obtain ⟨parked, hl, hkey⟩ := (Option.any_eq_true _ _).mp hcancel
    simp only [callStep, hl, Option.some.injEq] at hn
    subst hn
    -- the job was taken from the only place it was in
    have hplaces := (reachable_ledger h k).places_le
    have hvalues := values_erase_some (fun parked => ofKey k parked.job) hl
    rw [hkey, one_true] at hvalues
    have hqueue : ∀ job ∈ b.state.queue, job.key = k → b.state.flags k = true := by
      intro job hj hk
      have hpos : 0 < b.state.queue.countP (ofKey k) := List.countP_pos_iff.mpr ⟨job, hj, beq_iff_eq.mpr hk⟩
      omega
    have hpending : ∀ i other, (b.state.pending.erase id).lookup i = some other → other.job.key = k →
        b.state.flags k = true := by
      intro i other ho hk
      have hpos := values_pos_of_lookup (p := fun parked => ofKey k parked.job) ho (beq_iff_eq.mpr hk)
      omega
    refine ⟨by simpa [BrokerState.take] using haccepted, ⟨hqueue, hpending, ?_⟩,
      hset _ _ (parked.job.close_endsCancelled id _), hworker _, hsweeper⟩
    exact List.forall_mem_cons.mpr ⟨rfl, hhistory⟩

theorem step_endsCancelled {act : Act} (hb : Reachable (system config) b) (h : b.EndsCancelled k)
    (ha : overrules k b act = false) (hdistinct : DistinctIds b.state.history)
    (hpanic : Unpanicked t.state.history) (he : step config b act = some t) :
    t.EndsCancelled k := by
  have haccepted : 0 < t.state.history.countP (Event.isEnqueued k) :=
    h.accepted.trans_le (history_suffix hb he).sublist.countP_le
  revert hpanic haccepted
  apply step_elim (P := fun t => Unpanicked t.state.history →
    0 < t.state.history.countP (Event.isEnqueued k) → t.EndsCancelled k) he
  case call =>
    intro request _ _ haccepted
    have hnext := enter_endsCancelled request h.state
    refine ⟨haccepted, hnext.2.1, ?_, hnext.1 ▸ h.worker, h.sweeper⟩
    intro pc hpc
    rcases List.mem_append.mp hpc with hpc | hpc
    · exact hnext.1 ▸ h.calls pc hpc
    · rw [List.mem_singleton.mp hpc]
      exact hnext.2.2
  case proceed =>
    rintro n pc next rfl hpc hn - haccepted
    have hdeny : ∀ id parked, pc = .deny id → b.state.pending.lookup id = some parked →
        parked.job.key ≠ k := by
      rintro id parked rfl hl
      simpa [overrules, hpc, hl, ofKey] using ha
    obtain ⟨hflags, hs, hnext⟩ := callStep_endsCancelled h.state (h.calls pc (List.mem_of_getElem? hpc))
      (fun job hj => push_key_ne hb h.accepted (hj ▸ hpc)) hdeny hn
    refine ⟨haccepted, hs, ?_, h.worker.mono hflags, h.sweeper⟩
    intro other hmem
    rcases List.mem_or_eq_of_mem_set hmem with hmem | rfl
    · exact (h.calls other hmem).mono hflags
    · exact hnext
  case worker =>
    rintro next rfl hn hpanic haccepted
    have hhandle : ∀ job, b.worker = .lookup job → b.state.handles.lookup job.id = none →
        job.key ≠ k := by
      intro job hw hl
      simpa [overrules, hw, hl, ofKey] using ha
    obtain ⟨hflags, hs, hw⟩ := workerStep_endsCancelled h.state h.worker
      (fun job cell hpc hk => (begin_cell hb hdistinct hpc).trans hk) hhandle hpanic hn
    exact ⟨haccepted, hs, hflags ▸ h.calls, hflags ▸ hw, h.sweeper⟩
  case runtime =>
    intro a next _ hn _ haccepted
    obtain ⟨hflags, hs, hw⟩ := runtimeStep_endsCancelled h.state h.worker hn
    exact ⟨haccepted, hs, hflags ▸ h.calls, hflags ▸ hw, h.sweeper⟩
  case unwind =>
    intro next _ hn hpanic _
    exact absurd hpanic (unwindStep_panicked hn)
  case stray =>
    intro index elapsed stray next _ _ hn _ haccepted
    obtain ⟨hflags, hs⟩ := strayStep_endsCancelled h.state hn
    exact ⟨haccepted, hs, hflags ▸ h.calls, hflags ▸ h.worker, h.sweeper⟩
  case sweeper =>
    rintro order next rfl hn - haccepted
    have hsweep : ∀ id rest parked, b.sweeper = .sweeping (id :: rest) →
        b.state.pending.lookup id = some parked → parked.job.key ≠ k := by
      intro id rest parked hs hl
      simpa [overrules, hs, hl, ofKey] using ha
    obtain ⟨hflags, hs, hnext⟩ := sweeperStep_endsCancelled h.state h.sweeper hsweep hn
    exact ⟨haccepted, hs, hflags ▸ h.calls, hflags ▸ h.worker, hnext⟩
  case receiver =>
    intro key drops next hn _ haccepted
    obtain ⟨hflags, hs⟩ := receiverStep_endsCancelled h.state hn
    exact ⟨haccepted, hs, hflags ▸ h.calls, hflags ▸ h.worker, h.sweeper⟩
  case tick =>
    intro elapsed _ haccepted
    exact ⟨haccepted, ⟨h.state.queue, h.state.pending, h.state.history⟩, h.calls, h.worker, h.sweeper⟩
  case drop => exact fun _ _ _ _ => ⟨h.accepted, h.state, h.calls, h.worker, h.sweeper⟩
  case dropping =>
    intro next hn _ haccepted
    obtain ⟨hflags, hs⟩ := dropStep_endsCancelled h.state hn
    exact ⟨haccepted, hs, fun pc hpc => (h.calls pc hpc).mono hflags, h.worker.mono hflags, h.sweeper⟩

/-- While nothing overrules the cancellation, all that happens to the session agrees with it. -/
theorem runs_endsCancelled {s u : ActionBroker} {n : ℕ} {pc : CallPc}
    (hs : Reachable (system config) s) (hw : s.state.Awaiting k) (hpc : s.calls[n]? = some pc)
    (hcancel : pc.cancels s.state k = true) (he : step config s (.proceed n) = some t)
    (hr : Runs (system config) (fun b a => overrules k b a = false) t u)
    (hdistinct : DistinctIds u.state.history) (hpanic : Unpanicked u.state.history) : u.EndsCancelled k := by
  have ht : Reachable (system config) t := hs.step (a := .proceed n) he
  refine Runs.invariant_under
    (H := fun v => DistinctIds v.state.history ∧ Unpanicked v.state.history) ?_ ?_ hr ht
    (cancel_endsCancelled hs hw hpc hcancel he) ⟨hdistinct, hpanic⟩
  · intro v a v' hv hstep h
    have hsuffix := history_suffix hv hstep
    exact ⟨h.1.suffix hsuffix, h.2.suffix hsuffix⟩
  · intro v a v' hv ha hstep h hends
    exact step_endsCancelled hv hends ha (h.1.suffix (history_suffix hv hstep)) h.2 hstep

/-- The session was not discarded, and the broker not dropped before it ended. -/
structure Unabandoned (k : ℕ) (b : ActionBroker) : Prop where
  kept : b.state.history.countP (Event.isDiscarded k) = 0
  ended : b.drop ≠ .undropped → 0 < b.state.history.countP (Event.isConcluded k)

theorem step_dropping {act : Act} (he : step config b act = some t) (hb : b.drop = .undropped)
    (ht : t.drop ≠ .undropped) : act = .drop := by
  cases act with
  | drop => rfl
  | dropStep =>
    obtain ⟨next, hn, rfl⟩ := Option.map_eq_some_iff.mp he
    simp [Broker.dropStep, hb] at hn
  | call request =>
    simp only [step, Option.ite_none_right_eq_some, Option.some.injEq] at he
    obtain ⟨-, rfl⟩ := he
    exact absurd hb ht
  | proceed call =>
    obtain ⟨pc, -, he⟩ := Option.bind_eq_some_iff.mp he
    obtain ⟨next, -, rfl⟩ := Option.map_eq_some_iff.mp he
    exact absurd hb ht
  | stray index elapsed =>
    obtain ⟨stray, -, he⟩ := Option.bind_eq_some_iff.mp he
    obtain ⟨next, -, rfl⟩ := Option.map_eq_some_iff.mp he
    exact absurd hb ht
  | tick elapsed =>
    cases he
    exact absurd hb ht
  | _ =>
    obtain ⟨next, -, rfl⟩ := Option.map_eq_some_iff.mp he
    exact absurd hb ht

theorem step_unabandoned {act : Act} (hb : Reachable (system config) b) (he : step config b act = some t)
    (ha : leavesUntold k b act = false) (h : Unabandoned k b) : Unabandoned k t := by
  constructor
  · obtain ⟨logged, hh, hlogged⟩ := step_logged he
    have hnone : logged.countP (Event.isDiscarded k) = 0 := by
      refine List.countP_eq_zero.mpr (fun event hin hdiscarded => ?_)
      cases event with
      | discarded job =>
        -- only the clean-up removes a job, and this one is not the session's
        cases hlogged _ hin with
        | call n pc event hpc hlogs => cases hlogs with | closing c event hc => cases hc
        | worker event hlogs =>
          generalize hw : b.worker = pc at hlogs
          cases hlogs with
          | closing c event hc => cases hc
          | discarded id parked hl =>
            simp only [leavesUntold, hw, hl, Option.any_some] at ha
            exact absurd hdiscarded (by simpa [Event.isDiscarded] using ha)
        | sweeper order event hlogs =>
          generalize b.sweeper = pc at hlogs
          cases hlogs with | closing c rest event hc => cases hc
      | _ => cases hdiscarded
    rw [hh, List.countP_append, hnone, h.kept]
  · intro hdrop
    have hmono := (history_suffix hb he).sublist.countP_le (p := Event.isConcluded k)
    by_cases hbefore : b.drop = .undropped
    · obtain rfl := step_dropping he hbefore hdrop
      have hconcluded : b.state.history.countP (Event.isConcluded k) ≠ 0 := by simpa [leavesUntold] using ha
      omega
    · exact (h.ended hbefore).trans_le hmono

theorem awaiting_unabandoned (h : Reachable (system config) b) (hw : b.state.Awaiting k) {n : ℕ} {pc : CallPc}
    (hpc : b.calls[n]? = some pc) (hcancel : pc.cancels b.state k = true) : Unabandoned k b := by
  constructor
  · have howned := (reachable_ledger h k).owned
    have hborn := (reachable_ledger h k).born_le
    unfold BrokerState.Awaiting at hw
    omega
  · have hdone : pc.isDone = false := by cases pc <;> first | rfl | cases hcancel
    exact fun hdrop => absurd ((reachable_servesQueue h).undropped (List.mem_of_getElem? hpc) hdone) hdrop

/-- At rest a session that was accepted and not abandoned was told once how it ended. -/
theorem Unabandoned.concluded (h : Unabandoned k b) (hq : Quiescent b) (hb : Reachable (system config) b)
    (hdistinct : DistinctIds b.state.history) (haccepted : 0 < b.state.history.countP (Event.isEnqueued k)) :
    b.state.history.countP (Event.isConcluded k) = 1 := by
  have hborn := (reachable_ledger hb k).born_le
  have howned := (reachable_ledger hb k).owned
  have hkept := h.kept
  by_cases hdrop : b.drop = .undropped
  · have haccounted := (hq.accounted hb hdrop hdistinct k).1
    omega
  · have hended := h.ended hdrop
    omega

/-- In every run after the cancellation in which nothing overrules it or leaves the session untold,
the session does not start, every terminal message it is sent and every audit entry it has say
that it was cancelled, and at rest it has one of each. -/
theorem cancelled_session_never_starts {s u : ActionBroker} {n : ℕ} {pc : CallPc}
    (hs : Reachable (system config) s) (hw : s.state.Awaiting k) (hpc : s.calls[n]? = some pc)
    (hcancel : pc.cancels s.state k = true) (he : step config s (.proceed n) = some t)
    (hr : Runs (system config) (fun b a => overrules k b a = false ∧ leavesUntold k b a = false) t u)
    (hdistinct : DistinctIds u.state.history) (hpanic : Unpanicked u.state.history) :
    .invoked k ∉ u.state.history ∧
    (∀ message, .sent k message ∈ u.state.history → message.isTerminal = true →
      message.isCancelled = true) ∧
    (∀ entry, .recorded k entry ∈ u.state.history → entry.outcome = .cancelled) ∧
    (Quiescent u → u.state.history.countP (Event.isConcluded k) = 1 ∧
      u.state.history.countP (Event.isRecorded k) = 1) := by
  have ht : Reachable (system config) t := hs.step (a := .proceed n) he
  have hends := runs_endsCancelled hs hw hpc hcancel he (hr.mono (fun _ _ h => h.1)) hdistinct hpanic
  have hunabandoned : Unabandoned k u := by
    refine Runs.invariant_of_reachable (P := Unabandoned k)
      (fun _ _ _ hb ha he hp => step_unabandoned hb he ha.2 hp) hr ht ?_
    exact step_unabandoned hs he rfl (awaiting_unabandoned hs hw hpc hcancel)
  have hhonours := hends.state.history
  refine ⟨?_, ?_, ?_, ?_⟩
  · intro hin
    simpa [Event.honours] using hhonours _ hin
  · intro message hin hterminal
    simpa [Event.honours, hterminal] using hhonours _ hin
  · intro entry hin
    simpa [Event.honours] using hhonours _ hin
  · intro hq
    have hu := ht.runs hr
    have hmissing : u.state.history.countP (Event.isMissing k) = 0 := by
      refine List.countP_eq_zero.mpr ?_
      intro event hin
      cases event with
      | missing job => simpa [Event.honours, ofKey] using hhonours _ hin
      | _ => simp
    have hconcluded := hunabandoned.concluded hq hu hdistinct hends.accepted
    have hreported := hq.reported hu k
    omega

end Reachable

def queuedSession : List Act := submission 0 1 false .readWrite ++
  ([.call (.cancel 1), .proceed 1, .proceed 1] : List Act)

/-- The cancelled session is parked all the same, and a denial ends it. -/
theorem cancelled_session_denied : ∃ s t u pc, Reachable (system sampleConfig) s ∧ s.state.Awaiting 0 ∧
    s.calls[1]? = some pc ∧ pc.cancels s.state 0 = true ∧ step sampleConfig s (.proceed 1) = some t ∧
    Runs (system sampleConfig) Free t u ∧ DistinctIds u.state.history ∧ Unpanicked u.state.history ∧
    .sent 0 (terminalMessage (.outcome 0) .denied) ∈ u.state.history := by
  obtain ⟨s, t, u, hs, ⟨hw, hcall⟩, he, hr, hdistinct, hpanic, hsent⟩ :=
    (system sampleConfig).exists_of_replay_through Free
      (fun s => s.state.Awaiting 0 ∧ (s.calls[1]?).any (fun pc => pc.cancels s.state 0) = true)
      (fun u => DistinctIds u.state.history ∧ Unpanicked u.state.history ∧
        .sent 0 (terminalMessage (.outcome 0) .denied) ∈ u.state.history)
      queuedSession (.proceed 1)
      (parking ++ ([.worker, .call (.deny 1), .proceed 2, .proceed 2] : List Act)) (by decide)
  obtain ⟨pc, hpc, hcancel⟩ := (Option.any_eq_true _ _).mp hcall
  exact ⟨s, t, u, pc, hs, hw, hpc, hcancel, he, hr, hdistinct, hpanic, hsent⟩

/-- After an approval in place of the denial the worker finds the flag set. -/
theorem approved_session_cancelled : ∃ u : ActionBroker, .invoked 0 ∉ u.state.history ∧
    (∀ message, .sent 0 message ∈ u.state.history → message.isTerminal = true →
      message.isCancelled = true) ∧
    (∀ entry, .recorded 0 entry ∈ u.state.history → entry.outcome = .cancelled) ∧
    u.state.history.countP (Event.isConcluded 0) = 1 ∧ u.state.history.countP (Event.isRecorded 0) = 1 := by
  obtain ⟨s, t, u, hs, ⟨hw, hcall⟩, he, hr, hdistinct, hpanic, hq⟩ :=
    (system sampleConfig).exists_of_replay_through
      (fun b a => overrules 0 b a = false ∧ leavesUntold 0 b a = false)
      (fun s => s.state.Awaiting 0 ∧ (s.calls[1]?).any (fun pc => pc.cancels s.state 0) = true)
      (fun u => DistinctIds u.state.history ∧ Unpanicked u.state.history ∧ Quiescent u)
      queuedSession (.proceed 1)
      (parking ++ ([.worker, .call (.approve 1), .proceed 2, .proceed 2, .proceed 2, .proceed 2,
        .proceed 2] : List Act))
      (by decide)
  obtain ⟨pc, hpc, hcancel⟩ := (Option.any_eq_true _ _).mp hcall
  obtain ⟨hstart, hmessages, hentries, hrest⟩ :=
    cancelled_session_never_starts hs hw hpc hcancel he hr hdistinct hpanic
  exact ⟨u, hstart, hmessages, hentries, hrest hq⟩

end FerrousRuntime.Broker
