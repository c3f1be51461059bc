import Mathlib.Tactic.Abel
import FerrousRuntime.Foundation.Tokens
import FerrousRuntime.Broker.DefensiveBranches

/-! # The life of a session

What the broker is for, one session at a time: an automaton whose states say where the
session's job is, and in which shape. The threads, the queue and the tables make up many
such automata, none of which can tell that there are others.
-/
namespace FerrousRuntime.Broker
open Tally Tokens Transition FerrousRuntime.Runtime Policy Command

/-- Where a session's job is, once it was accepted. -/
inductive Place
  | queued (job : Job)
  | fetched (job : Job)
  /-- found without a handle -/
  | unhandled (job : Job)
  /-- on its way to being parked -/
  | held (job : Job)
  | parked (job : Job)
  /-- taken by an approval -/
  | reviewed (job : Job)
  | admitted (job : Job)
  | executed (job : Job)
  | announced (job : Job)
  | running (job : Job)
  /-- its terminal message is due -/
  | closing (message : Message)
  | concluded (message : Message)
  /-- replaced in `pending` by a job of the same id -/
  | displaced (job : Job)
  /-- removed with nobody to notify -/
  | discarded (job : Job)
deriving DecidableEq

def Job.Submitted (job : Job) : Prop := ∃ streaming component request, request.validate = .ok () ∧
  request.mode = .wasi ∧ job = newJob streaming component request job.key

/-- What can become of a session. -/
inductive Becomes : Option Place → Option Place → Prop
  | submitted (job : Job) : job.Submitted → Becomes none (some (.queued job))
  | fetched (job : Job) : Becomes (some (.queued job)) (some (.fetched job))
  | missing (job : Job) : Becomes (some (.fetched job)) (some (.unhandled job))
  | reported (job : Job) : Becomes (some (.unhandled job)) (some (.concluded (terminalMessage job.sink
      (.deniedWith (.invalidTransition "session handle disappeared before start")))))
  | executed (job : Job) : job.admission = .approved ∨ ¬ Risky job.request →
    Becomes (some (.fetched job)) (some (.executed job))
  | held (job : Job) (reason : ApprovalReason) : classifyRisk job.request = .requiresApproval reason →
    job.admission ≠ .approved → Becomes (some (.fetched job))
      (some (.held (job.withSession (job.session.acceptIgnored (.pendingApproval reason)))))
  | parked (job : Job) : Becomes (some (.held job)) (some (.parked job))
  | unparkable (job : Job) : Becomes (some (.held job)) (some (.closing job.panic.message))
  | reviewed (job : Job) : Becomes (some (.parked job)) (some (.reviewed job))
  | denied (job : Job) : Becomes (some (.parked job)) (some (.closing (terminalMessage job.sink .denied)))
  | cancelled (job : Job) : Becomes (some (.parked job)) (some (.closing (terminalMessage job.sink .cancelled)))
  | displaced (job : Job) : Becomes (some (.parked job)) (some (.displaced job))
  | discarded (job : Job) : Becomes (some (.parked job)) (some (.discarded job))
  | overtaken (job : Job) : Becomes (some (.reviewed job)) (some (.closing (terminalMessage job.sink .cancelled)))
  | admitted (job : Job) : Becomes (some (.reviewed job)) (some (.admitted job.admit))
  | requeued (job : Job) : Becomes (some (.admitted job)) (some (.queued job))
  | stopped (job : Job) : Becomes (some (.executed job)) (some (.closing (terminalMessage job.sink .cancelled)))
  | announced (job : Job) (session : SessionState) : job.session.accept .started = .ok session →
    job.sink.streams = true → Becomes (some (.executed job)) (some (.announced (job.withSession session)))
  | invoked (job : Job) (session : SessionState) : job.session.accept .started = .ok session →
    job.sink.streams = false → Becomes (some (.executed job)) (some (.running (job.withSession session)))
  | started (job : Job) : Becomes (some (.announced job)) (some (.running job))
  | returned (job : Job) (result : Except RuntimeError WasiOutput) : result ≠ .error .wrongMode →
    Becomes (some (.running job)) (some (.closing (conclude job.sink result).message))
  | panicked (job : Job) : Becomes (some (.running job)) (some (.closing job.panic.message))
  | sent (message : Message) : Becomes (some (.closing message)) (some (.concluded message))

/-- The moves that are left at most. An approved job is not parked again. -/
def Place.rank : Place → ℕ
  | .queued job => if job.admission = .approved then 6 else 12
  | .fetched job => if job.admission = .approved then 5 else 11
  | .held _ => 10
  | .parked _ => 9
  | .reviewed _ => 8
  | .admitted job => if job.admission = .approved then 7 else 13
  | .executed _ => 4
  | .announced _ => 3
  | .running _ => 2
  | .closing _ | .unhandled _ => 1
  | .concluded _ | .displaced _ | .discarded _ => 0

def movesLeft : Option Place → ℕ
  | none => 13
  | some place => place.rank

theorem Becomes.movesLeft_lt {p q : Option Place} (h : Becomes p q) : movesLeft q < movesLeft p := by
  cases h with
  | submitted job hjob =>
    obtain ⟨streaming, component, request, -, -, hnew⟩ := hjob
    rw [hnew]
    simp [movesLeft, Place.rank, newJob]
  | held job reason _ ha => simp [movesLeft, Place.rank, ha]
  | fetched | executed | requeued =>
    simp only [movesLeft, Place.rank]
    split_ifs <;> omega
  | missing =>
    simp only [movesLeft, Place.rank]
    split_ifs <;> omega
  | _ => simp [movesLeft, Place.rank, Job.admit]

def ofSession (k key : ℕ) (place : Place) : Multiset Place := if key = k then {place} else 0

def Closing.whereabouts (k : ℕ) (closing : Closing) : Multiset Place :=
  match closing.stage with
  | .send => ofSession k closing.key (.closing closing.message)
  | .record | .release => 0

def CallPc.whereabouts (k : ℕ) : CallPc → Multiset Place
  | .checkCancelled _ job => ofSession k job.key (.reviewed job)
  | .requeue _ job => ofSession k job.key (.admitted job)
  | .closing c => c.whereabouts k
  | _ => 0

def WorkerPc.whereabouts (k : ℕ) : WorkerPc → Multiset Place
  | .lookup job => ofSession k job.key (.fetched job)
  | .missing job => ofSession k job.key (.unhandled job)
  | .begin job _ => ofSession k job.key (.executed job)
  | .announce job _ => ofSession k job.key (.announced job)
  | .running job _ _ => ofSession k job.key (.running job)
  | .deadline job _ | .park job _ _ => ofSession k job.key (.held job)
  | .closing c => c.whereabouts k
  | _ => 0

def SweeperPc.whereabouts (k : ℕ) : SweeperPc → Multiset Place
  | .closing c _ => c.whereabouts k
  | _ => 0

def Event.whereabouts (k : ℕ) : Event → Multiset Place
  | .sent key message => if message.isTerminal then ofSession k key (.concluded message) else 0
  | .displaced job | .stranded job => ofSession k job.key (.displaced job)
  | .discarded job => ofSession k job.key (.discarded job)
  | _ => 0

def waitingIn (k : ℕ) (job : Job) : Multiset Place := ofSession k job.key (.queued job)

def parkedIn (k : ℕ) (parked : PendingJob) : Multiset Place := ofSession k parked.job.key (.parked parked.job)

def BrokerState.whereabouts (k : ℕ) (s : BrokerState) : Multiset Place :=
  (s.queue.map (waitingIn k)).sum + total (parkedIn k) s.pending + (s.history.map (Event.whereabouts k)).sum

def ActionBroker.whereabouts (k : ℕ) (b : ActionBroker) : Multiset Place :=
  b.state.whereabouts k + ((b.calls.map (CallPc.whereabouts k)).sum + b.worker.whereabouts k +
    b.sweeper.whereabouts k)

section Room
variable {k : ℕ} {config : Config} {b t : ActionBroker}

theorem ofSession_of_ne {key : ℕ} (h : key ≠ k) (place : Place) : ofSession k key place = 0 := if_neg h

theorem card_ofSession (k key : ℕ) (place : Place) : (ofSession k key place).card = one (key == k) := by
  unfold ofSession
  by_cases h : key = k
  · simp [h]
  · simp [h, one]

theorem Closing.card_whereabouts (k : ℕ) (closing : Closing) :
    (closing.whereabouts k).card = (closing.footprint k).holds := by
  unfold Closing.whereabouts Closing.footprint
  cases closing.stage <;> simp [card_ofSession]

theorem CallPc.card_whereabouts (k : ℕ) (pc : CallPc) : (pc.whereabouts k).card = (pc.footprint k).holds := by
  cases pc with
  | closing c => exact c.card_whereabouts k
  | _ => simp [CallPc.whereabouts, CallPc.footprint, card_ofSession, ofKey]

theorem WorkerPc.card_whereabouts (k : ℕ) (pc : WorkerPc) : (pc.whereabouts k).card = (pc.footprint k).holds := by
  cases pc with
  | closing c => exact c.card_whereabouts k
  | _ => simp [WorkerPc.whereabouts, WorkerPc.footprint, card_ofSession, ofKey]

theorem SweeperPc.card_whereabouts (k : ℕ) (pc : SweeperPc) : (pc.whereabouts k).card = (pc.footprint k).holds := by
  cases pc with
  | closing c rest => exact c.card_whereabouts k
  | _ => rfl

theorem card_calls (k : ℕ) (calls : List CallPc) :
    (calls.map (CallPc.whereabouts k)).sum.card = (calls.map (CallPc.footprint k)).sum.holds := by
  induction calls with
  | nil => rfl
  | cons pc calls ih =>
    simp only [List.map_cons, List.sum_cons, Multiset.card_add, Footprint.add_holds, pc.card_whereabouts, ih]

theorem card_history (k : ℕ) (history : List Event) : (history.map (Event.whereabouts k)).sum.card =
    history.countP (Event.isConcluded k) + history.countP (Event.isLost k) +
      history.countP (Event.isDiscarded k) := by
  induction history with
  | nil => rfl
  | cons event history ih =>
    rw [List.map_cons, List.sum_cons, Multiset.card_add, ih]
    cases event with
    | sent key message =>
      cases hm : message.isTerminal
      · simp [Event.whereabouts, hm]
      · simp only [Event.whereabouts, card_ofSession, countP_cons_one, Event.isConcluded, Event.isLost,
          Event.isDiscarded, hm, if_true, Bool.and_true, one_false]
        omega
    | displaced | stranded | discarded =>
      simp only [Event.whereabouts, card_ofSession, countP_cons_one, Event.isConcluded, Event.isLost,
        Event.isDiscarded, ofKey, one_false]
      omega
    | _ => simp [Event.whereabouts]

theorem card_whereabouts_le_one (h : Reachable (system config) b) (k : ℕ) : (b.whereabouts k).card ≤ 1 := by
  have hplaces := (reachable_ledger h k).places_le
  have hqueue : (b.state.queue.map (waitingIn k)).sum.card = b.state.queue.countP (ofKey k) := by
    refine card_sum ?_ b.state.queue
    exact fun job => card_ofSession k job.key (.queued job)
  have hpending : (total (parkedIn k) b.state.pending).card =
      values (fun parked => ofKey k parked.job) b.state.pending := by
    refine card_sum ?_ b.state.pending.entries
    exact fun e => card_ofSession k e.2.job.key (.parked e.2.job)
  simp only [ActionBroker.footprint, Footprint.add_holds] at hplaces
  simp only [ActionBroker.whereabouts, BrokerState.whereabouts, Multiset.card_add, hqueue, hpending,
    card_history, card_calls, WorkerPc.card_whereabouts, SweeperPc.card_whereabouts]
  omega

end Room

section Threads
variable {k : ℕ} {config : Config} {s : BrokerState}

theorem shifts_of_eq {m m' : Multiset Place} (h : m' = m) : Shifts Becomes m m' := by
  rw [h]
  exact .stay m

/-- Whatever a session's job does is no business of the other sessions. -/
theorem shifts_of_becomes {p q : Place} {m m' : Multiset Place} (h : Becomes (some p) (some q))
    (key : ℕ) (rest : Multiset Place) (hm : m = ofSession k key p + rest)
    (hm' : m' = ofSession k key q + rest) : Shifts Becomes m m' := by
  subst hm hm'
  by_cases hkey : key = k
  · rw [ofSession, ofSession, if_pos hkey, if_pos hkey]
    exact .move rest h
  · rw [ofSession_of_ne hkey, ofSession_of_ne hkey]
    exact .stay _

def Closing.whereaboutsOf (k : ℕ) : Option Closing → Multiset Place
  | some closing => closing.whereabouts k
  | none => 0

theorem log_whereabouts (s : BrokerState) (event : Event) :
    (s.log event).whereabouts k = event.whereabouts k + s.whereabouts k := by
  simp only [BrokerState.whereabouts, BrokerState.log, List.map_cons, List.sum_cons]
  abel

theorem send_whereabouts (s : BrokerState) (key : ℕ) (message : Message) :
    (s.send key message).whereabouts k = (Event.sent key message).whereabouts k + s.whereabouts k :=
  log_whereabouts s (.sent key message)

theorem send_unseen {key : ℕ} {message : Message} (hm : message.isTerminal = false) :
    (s.send key message).whereabouts k = s.whereabouts k := by
  rw [send_whereabouts]
  simp [Event.whereabouts, hm]

theorem Closing.step_shifts (closing : Closing) : Shifts Becomes (s.whereabouts k + closing.whereabouts k)
    ((closing.step s).1.whereabouts k + Closing.whereaboutsOf k (closing.step s).2) := by
  obtain ⟨key, message, terminal, entry, stage⟩ := closing
  cases stage with
  | send =>
    refine shifts_of_becomes (.sent message) key (s.whereabouts k) (add_comm _ _) ?_
    have hsent : (s.send key message).whereabouts k = ofSession k key (.concluded message) + s.whereabouts k := by
      rw [send_whereabouts, Event.whereabouts, if_pos terminal]
    exact (add_zero _).trans hsent
  | record =>
    refine shifts_of_eq ?_
    exact congrArg (· + 0) ((log_whereabouts s (.recorded key entry)).trans (zero_add _))
  | release => exact .stay _

theorem take_whereabouts {id : ℕ} {parked : PendingJob} (hl : s.pending.lookup id = some parked)
    (decider : Decider) : s.whereabouts k =
      parkedIn k parked + (s.take decider id parked.job).whereabouts k := by
  simp only [BrokerState.whereabouts, BrokerState.take, List.map_cons, List.sum_cons, Event.whereabouts]
  rw [← total_erase_some (parkedIn k) hl]
  abel

theorem take_shifts {id : ℕ} {parked : PendingJob} {terminal : Terminal} (decider : Decider)
    (decision : ApprovalDecision) (outcome : AuditOutcome) (hl : s.pending.lookup id = some parked)
    (h : Becomes (some (.parked parked.job)) (some (.closing (terminalMessage parked.job.sink terminal)))) :
    Shifts Becomes (s.whereabouts k + 0) ((s.take decider id parked.job).whereabouts k +
      (parked.job.close id terminal decision outcome).whereabouts k) := by
  refine shifts_of_becomes (k := k) h parked.job.key ((s.take decider id parked.job).whereabouts k) ?_ (add_comm _ _)
  rw [take_whereabouts hl decider, add_zero]
  rfl

def CallPc.Fresh : CallPc → Prop
  | .enqueue job | .push job => job.Submitted
  | _ => True

theorem enter_whereabouts (request : Request) :
    (enter s request).1.whereabouts k + (enter s request).2.whereabouts k = s.whereabouts k := by
  have hn := enter_cases s request
  generalize enter s request = next at hn ⊢
  cases hn <;> exact add_zero _

theorem callStep_shifts {n : ℕ} {pc : CallPc} {next : BrokerState × CallPc} (hserved : s.served = true)
    (hfresh : pc.Fresh) (he : callStep config n s pc = some next) :
    Shifts Becomes (s.whereabouts k + pc.whereabouts k) (next.1.whereabouts k + next.2.whereabouts k) := by
  cases callStep_cases he with
  | registered job => exact shifts_of_eq (congrArg (· + 0) ((log_whereabouts s (.registered job)).trans (zero_add _)))
  | enqueued job =>
    have horder : BrokerState.whereabouts k { s with
        queue := s.queue ++ [job]
        channels := Function.update s.channels job.key { s.channels job.key with handed := true }
        history := .enqueued job :: s.history } = waitingIn k job + s.whereabouts k := by
      simp only [BrokerState.whereabouts, List.map_append, List.sum_append, List.map_cons, List.map_nil,
        List.sum_cons, List.sum_nil, Event.whereabouts]
      abel
    dsimp only
    rw [horder]
    by_cases hkey : job.key = k
    · rw [waitingIn, ofSession, if_pos hkey]
      have hborn : Shifts Becomes (token none + s.whereabouts k)
        (token (some (.queued job)) + s.whereabouts k) := .move _ (.submitted job hfresh)
      simpa [token, CallPc.whereabouts] using hborn
    · rw [waitingIn, ofSession_of_ne hkey]
      exact shifts_of_eq (by simp [CallPc.whereabouts])
  | stranded id job hstopped | unserved job hstopped => cases hserved.symm.trans hstopped
  | approved id parked hl =>
    refine shifts_of_becomes (.reviewed parked.job) parked.job.key _ ?_ (add_comm _ _)
    exact (add_zero _).trans (take_whereabouts hl (.approve n))
  | sawCancelled id job =>
    refine shifts_of_becomes (.overtaken job) job.key _ (add_comm _ _) ?_
    rw [log_whereabouts, add_comm]
    exact congrArg (_ + ·) (zero_add _)
  | admitted id job => exact shifts_of_becomes (.admitted job) job.key _ (add_comm _ _) (add_comm _ _)
  | requeued id job =>
    refine shifts_of_becomes (.requeued job) job.key _ (add_comm _ _) ?_
    simp only [BrokerState.whereabouts, CallPc.whereabouts, List.map_append, List.sum_append, List.map_cons,
      List.map_nil, List.sum_cons, List.sum_nil, waitingIn]
    abel
  | denied id parked hl => exact take_shifts _ _ _ hl (.denied parked.job)
  | cancelled id parked hl => exact take_shifts _ _ _ hl (.cancelled parked.job)
  | flagged cell => exact shifts_of_eq (congrArg (· + 0) ((log_whereabouts s (.flagged cell)).trans (zero_add _)))
  | closing c _ _ hs | closed c _ hs =>
    have hc := Closing.step_shifts (k := k) (s := s) c
    rw [hs] at hc
    exact hc
  | _ => exact .stay _

theorem park_shifts {job : Job} (deadline : ℕ)
    (hone : (s.whereabouts k + ofSession k job.key (.held job)).card ≤ 1) :
    Shifts Becomes (s.whereabouts k + ofSession k job.key (.held job)) (BrokerState.whereabouts k { s with
      pending := s.pending.insert job.id ⟨job, deadline⟩
      history := .parked job :: (displacement (s.pending.lookup job.id) ++ s.history) }) := by
  cases hl : s.pending.lookup job.id with
  | none =>
    refine shifts_of_becomes (.parked job) job.key _ (add_comm _ _) ?_
    simp only [BrokerState.whereabouts, displacement, List.nil_append, List.map_cons, List.sum_cons,
      Event.whereabouts, total_insert, total_erase_none _ hl, parkedIn]
    abel
  | some old =>
    have hbefore : s.whereabouts k =
        parkedIn k old + BrokerState.whereabouts k { s with pending := s.pending.erase job.id } := by
      simp only [BrokerState.whereabouts]
      rw [← total_erase_some (parkedIn k) hl]
      abel
    have hafter : BrokerState.whereabouts k { s with
        pending := s.pending.insert job.id ⟨job, deadline⟩
        history := .parked job :: (displacement (some old) ++ s.history) } =
          ofSession k job.key (.parked job) + (ofSession k old.job.key (.displaced old.job) +
            BrokerState.whereabouts k { s with pending := s.pending.erase job.id }) := by
      simp only [BrokerState.whereabouts, displacement, List.singleton_append, List.map_cons, List.sum_cons,
        Event.whereabouts, total_insert, parkedIn]
      abel
    rw [hafter, hbefore]
    by_cases hkey : job.key = k
    · have hother : old.job.key ≠ k := by
        intro hold
        rw [hbefore, Multiset.card_add, Multiset.card_add, parkedIn, card_ofSession, card_ofSession, hold,
          hkey] at hone
        simp at hone
      refine shifts_of_becomes (k := k) (.parked job) job.key
        (BrokerState.whereabouts k { s with pending := s.pending.erase job.id }) ?_ ?_
      · rw [parkedIn, ofSession_of_ne hother, zero_add, add_comm]
      · rw [ofSession_of_ne hother, zero_add]
    · refine shifts_of_becomes (k := k) (.displaced old.job) old.job.key
        (BrokerState.whereabouts k { s with pending := s.pending.erase job.id }) ?_ ?_
      · rw [ofSession_of_ne hkey, add_zero]
        rfl
      · rw [ofSession_of_ne hkey, zero_add]

theorem workerStep_shifts {pc : WorkerPc} {next : BrokerState × WorkerPc} (hprepared : pc.Prepared)
    (hone : (s.whereabouts k + pc.whereabouts k).card ≤ 1) (he : workerStep config s pc = some next) :
    Shifts Becomes (s.whereabouts k + pc.whereabouts k) (next.1.whereabouts k + next.2.whereabouts k) := by
  cases workerStep_cases he with
  | popped job rest hq =>
    refine shifts_of_becomes (.fetched job) job.key (BrokerState.whereabouts k { s with queue := rest }) ?_
      (add_comm _ _)
    simp only [BrokerState.whereabouts, WorkerPc.whereabouts, hq, List.map_cons, List.sum_cons, waitingIn]
    abel
  | missing job =>
    refine shifts_of_becomes (.missing job) job.key _ (add_comm _ _) ?_
    rw [log_whereabouts, add_comm]
    exact congrArg (_ + ·) (zero_add _)
  | executed job cell hl ha =>
    refine shifts_of_becomes (.executed job ha) job.key _ (add_comm _ _) ?_
    rw [log_whereabouts, add_comm]
    exact congrArg (_ + ·) (zero_add _)
  | deferred job cell reason _ hrisk ha =>
    exact shifts_of_becomes (.held job reason hrisk ha) job.key _ (add_comm _ _) (add_comm _ _)
  | denied job =>
    refine shifts_of_becomes (.reported job) job.key _ (add_comm _ _) ?_
    rw [send_whereabouts, Event.whereabouts, if_pos (by simp)]
    exact add_zero _
  | cancelled job =>
    exact shifts_of_becomes (.stopped job) job.key _ (add_comm _ _) (add_comm _ _)
  | unstartable job cell error _ haccept =>
    cases (Job.Ready.starts (Job.Runnable.ready hprepared)).symm.trans haccept
  | announced job cell channel session _ haccept hsink =>
    refine shifts_of_becomes (.announced job session haccept ?_) job.key _ (add_comm _ _) (add_comm _ _)
    rw [hsink]
    rfl
  | invoked job cell channel session _ haccept hsink =>
    refine shifts_of_becomes (.invoked job session haccept ?_) job.key _ (add_comm _ _) ?_
    · rw [hsink]
      rfl
    · rw [log_whereabouts, add_comm]
      exact congrArg (_ + ·) (zero_add _)
  | started job =>
    refine shifts_of_becomes (.started job) job.key _ (add_comm _ _) ?_
    rw [log_whereabouts, send_unseen rfl, add_comm]
    exact congrArg (_ + ·) (zero_add _)
  | returned job cell run result hphase =>
    refine shifts_of_becomes (.returned job result ?_) job.key _ (add_comm _ _) (add_comm _ _)
    rintro rfl
    exact hprepared.answer hphase
  | closing c _ _ hs | closed c _ hs =>
    have hc := Closing.step_shifts (k := k) (s := s) c
    rw [hs] at hc
    exact hc
  | panicked job reason =>
    refine shifts_of_becomes (.unparkable job) job.key _ (add_comm _ _) ?_
    rw [log_whereabouts, add_comm]
    exact congrArg (_ + ·) (zero_add _)
  | parked job deadline reason => exact (add_zero (BrokerState.whereabouts k _)).symm ▸ park_shifts deadline hone
  | notified sink id reason =>
    exact shifts_of_eq (congrArg (· + 0) (send_unseen (approvalMessage_isTerminal sink reason)))
  | unnotified sink id reason =>
    exact shifts_of_eq (congrArg (· + 0) (send_unseen (approvalMessage_isTerminal sink reason)))
  | discarded id parked hl =>
    refine shifts_of_becomes (k := k) (.discarded parked.job) parked.job.key
      (BrokerState.whereabouts k { s with pending := s.pending.erase id }) ?_ ?_
    · simp only [BrokerState.whereabouts, WorkerPc.whereabouts]
      rw [← total_erase_some (parkedIn k) hl, parkedIn]
      abel
    · simp only [BrokerState.whereabouts, WorkerPc.whereabouts, List.map_cons, List.sum_cons, Event.whereabouts]
      abel
  | _ => exact .stay _

theorem emit_whereabouts {key : ℕ} {event : Option SessionEvent}
    (he : ∀ e, event = some e → e.isTerminal = false) : (s.emit key event).whereabouts k = s.whereabouts k := by
  cases event with
  | none => rfl
  | some e => exact send_unseen (he e rfl)

theorem runtimeStep_whereabouts {act : RunAct} {pc : WorkerPc} {next : BrokerState × WorkerPc}
    (he : runtimeStep s act pc = some next) :
    next.1.whereabouts k + next.2.whereabouts k = s.whereabouts k + pc.whereabouts k := by
  obtain ⟨job, cell, run, effect, rfl, heff, rfl⟩ := runtimeStep_cases he
  exact congrArg (· + _) (emit_whereabouts (output_not_terminal heff))

theorem unwindStep_shifts {pc : WorkerPc} {next : BrokerState × WorkerPc × Stray}
    (he : unwindStep s pc = some next) :
    Shifts Becomes (s.whereabouts k + pc.whereabouts k) (next.1.whereabouts k + next.2.1.whereabouts k) := by
  obtain ⟨job, cell, run, rfl, -, rfl⟩ := unwindStep_cases he
  refine shifts_of_becomes (.panicked job) job.key _ (add_comm _ _) ?_
  rw [log_whereabouts, add_comm]
  exact congrArg (_ + ·) (zero_add _)

theorem strayStep_whereabouts {elapsed : Bool} {stray : Stray} {next : BrokerState × Stray}
    (he : strayStep s elapsed stray = some next) : next.1.whereabouts k = s.whereabouts k := by
  obtain ⟨effect, heff, rfl⟩ := Option.map_eq_some_iff.mp he
  exact emit_whereabouts (output_not_terminal heff)

theorem sweeperStep_shifts {order : List ℕ} {pc : SweeperPc} {next : BrokerState × SweeperPc}
    (he : sweeperStep s order pc = some next) :
    Shifts Becomes (s.whereabouts k + pc.whereabouts k) (next.1.whereabouts k + next.2.whereabouts k) := by
  cases sweeperStep_cases he with
  | took id rest parked hl => exact take_shifts _ _ _ hl (.denied parked.job)
  | closing c _ _ _ hs | closed c _ _ hs =>
    have hc := Closing.step_shifts (k := k) (s := s) c
    rw [hs] at hc
    exact hc
  | _ => exact .stay _

theorem receiverStep_whereabouts {key : ℕ} {drops : Bool} {next : BrokerState}
    (he : receiverStep s key drops = some next) : next.whereabouts k = s.whereabouts k := by
  cases receiverStep_cases he with
  | dropped => rfl
  | received message rest => exact (log_whereabouts s (.received key message)).trans (zero_add _)

theorem dropStep_whereabouts {b : ActionBroker} {next : BrokerState × DropPc} (he : dropStep b = some next) :
    next.1.whereabouts k = b.state.whereabouts k := by
  cases dropStep_cases he <;> rfl

end Threads

section Runs
variable {k : ℕ} {config : Config} {b t : ActionBroker} {act : Act}

theorem reachable_fresh (h : Reachable (system config) b) : ∀ pc ∈ b.calls, pc.Fresh := by
  refine h.invariant (P := fun b => ∀ pc ∈ b.calls, pc.Fresh) ?_ (by simp [system, ActionBroker.initial])
  intro b act t he ih pc hpc
  rcases step_calls he with hsame | ⟨request, hadd⟩ | ⟨n, old, next, -, hold, hn, -, hset⟩
  · exact ih pc (hsame ▸ hpc)
  · rcases List.mem_append.mp (hadd ▸ hpc) with hpc | hpc
    · exact ih pc hpc
    · rw [List.mem_singleton.mp hpc]
      have hn := enter_cases b.state request
      generalize enter b.state request = next at hn ⊢
      cases hn with
      | submitted streaming component request hvalid hmode =>
        exact ⟨streaming, component, request, hvalid, hmode, by rw [newJob_key]⟩
      | _ => trivial
  · rcases List.mem_or_eq_of_mem_set (hset ▸ hpc) with hpc | rfl
    · exact ih pc hpc
    · have hfresh := ih old (List.mem_of_getElem? hold)
      cases callStep_cases hn with
      | registered job => exact hfresh
      | _ => trivial

/-- Every step of the broker leaves a session where it is, or moves it on in its life. -/
theorem step_shifts (hb : Reachable (system config) b) (he : step config b act = some t) :
    Shifts Becomes (b.whereabouts k) (t.whereabouts k) := by
  have hone := card_whereabouts_le_one hb k
  -- a thread's own share of the whereabouts beside the rest
  have hworker : ∀ {s : BrokerState} {pc : WorkerPc},
      Shifts Becomes (b.state.whereabouts k + b.worker.whereabouts k) (s.whereabouts k + pc.whereabouts k) →
      Shifts Becomes (b.whereabouts k) (s.whereabouts k + ((b.calls.map (CallPc.whereabouts k)).sum +
        pc.whereabouts k + b.sweeper.whereabouts k)) := by
    intro s pc h
    have hframed := h.frame ((b.calls.map (CallPc.whereabouts k)).sum + b.sweeper.whereabouts k)
    convert hframed using 1
    · simp only [ActionBroker.whereabouts]
      abel
    · abel
  apply step_elim (P := fun t => Shifts Becomes (b.whereabouts k) (t.whereabouts k)) he
  case call =>
    intro request _
    refine shifts_of_eq ?_
    have hn := enter_whereabouts (k := k) (s := b.state) request
    simp only [ActionBroker.whereabouts, List.map_append, List.sum_append, List.map_cons, List.map_nil,
      List.sum_cons, List.sum_nil, ← hn]
    abel
  case proceed =>
    intro n pc next _ hpc hn
    have hmem := List.mem_of_getElem? hpc
    have hstaff := reachable_servesQueue hb
    have hserved := hstaff.serves (hstaff.undropped hmem (callStep_not_done hn))
    obtain ⟨rest, hsum, hset⟩ := exists_frame (CallPc.whereabouts k) hpc
    have hshift := (callStep_shifts (k := k) hserved (reachable_fresh hb pc hmem) hn).frame
      (rest + b.worker.whereabouts k + b.sweeper.whereabouts k)
    convert hshift using 1
    · simp only [ActionBroker.whereabouts, hsum]
      abel
    · simp only [ActionBroker.whereabouts, hset]
      abel
  case worker =>
    intro next _ hn
    have hshare : (b.state.whereabouts k + b.worker.whereabouts k).card ≤ 1 := by
      simp only [ActionBroker.whereabouts, Multiset.card_add] at hone ⊢
      omega
    exact hworker (workerStep_shifts (reachable_prepared hb).worker hshare hn)
  case runtime => exact fun a next _ hn => hworker (shifts_of_eq (runtimeStep_whereabouts hn))
  case unwind => exact fun next _ hn => hworker (unwindStep_shifts hn)
  case stray =>
    intro index elapsed stray next _ _ hn
    exact shifts_of_eq (congrArg (· + _) (strayStep_whereabouts hn))
  case sweeper =>
    intro order next _ hn
    have hframed := (sweeperStep_shifts (k := k) hn).frame
      ((b.calls.map (CallPc.whereabouts k)).sum + b.worker.whereabouts k)
    convert hframed using 1
    · simp only [ActionBroker.whereabouts]
      abel
    · simp only [ActionBroker.whereabouts]
      abel
  case receiver =>
    intro key drops next hn
    exact shifts_of_eq (congrArg (· + _) (receiverStep_whereabouts hn))
  case tick => exact fun elapsed => .stay _
  case drop => exact fun _ _ => .stay _
  case dropping =>
    intro next hn
    exact shifts_of_eq (congrArg (· + _) (dropStep_whereabouts hn))

def Stands (k : ℕ) (b : ActionBroker) (p : Option Place) : Prop := b.whereabouts k = token p

theorem reachable_stands (h : Reachable (system config) b) (k : ℕ) : ∃ p, Stands k b p :=
  exists_token (card_whereabouts_le_one h k)

theorem step_stands {p : Option Place} (hb : Reachable (system config) b) (he : step config b act = some t)
    (hp : Stands k b p) : ∃ q, Stands k t q ∧ (p = q ∨ Becomes p q) := by
  have hshift := step_shifts (k := k) hb he
  rw [hp] at hshift
  exact hshift.of_token (card_whereabouts_le_one (hb.step he) k)

/-- The refinement: whatever the threads do, and in whatever order, each session lives its
own life, a walk of the one automaton. -/
theorem sessions_live_their_lives (hb : Reachable (system config) b) (hr : Runs (system config) Free b t)
    (k : ℕ) : ∃ p q, Stands k b p ∧ Stands k t q ∧ Relation.ReflTransGen Becomes p q := by
  obtain ⟨p, hp⟩ := reachable_stands hb k
  have hwalk : ∃ q, Stands k t q ∧ Relation.ReflTransGen Becomes p q := by
    refine Runs.invariant_of_reachable (P := fun t => ∃ q, Stands k t q ∧ Relation.ReflTransGen Becomes p q)
      ?_ hr hb ⟨p, hp, .refl⟩
    rintro s act t hs - he ⟨q, hq, hwalk⟩
    obtain ⟨q', hq', rfl | hnext⟩ := step_stands hs he hq
    · exact ⟨q, hq', hwalk⟩
    · exact ⟨q', hq', hwalk.tail hnext⟩
  obtain ⟨q, hq, hwalk⟩ := hwalk
  exact ⟨p, q, hp, hq, hwalk⟩

def moved (config : Config) (k : ℕ) (b : ActionBroker) (act : Act) : Bool :=
  (step config b act).any (fun t => decide (t.whereabouts k ≠ b.whereabouts k))

/-- A session costs the broker a bounded number of moves, whatever its callers try. -/
theorem moves_are_bounded {p q : Option Place} {n : ℕ} (hb : Reachable (system config) b) (hp : Stands k b p)
    (hc : Counted (system config) (moved config k) n b t) (hq : Stands k t q) :
    n + movesLeft q ≤ movesLeft p := by
  have haccount : Reachable (system config) t ∧ ∃ q, Stands k t q ∧ n + movesLeft q ≤ movesLeft p := by
    refine Counted.invariant (P := fun n s => Reachable (system config) s ∧
      ∃ q, Stands k s q ∧ n + movesLeft q ≤ movesLeft p) ?_ ?_ hc ⟨hb, p, hp, (Nat.zero_add _).le⟩
    · rintro n s act u hmoved he ⟨hs, q, hq, hle⟩
      obtain ⟨q', hq', rfl | hnext⟩ := step_stands hs he hq
      · have hne : u.whereabouts k ≠ s.whereabouts k := by
          have hstep : step config s act = some u := he
          simpa [moved, hstep] using hmoved
        exact absurd (hq'.trans hq.symm) hne
      · have hlt := hnext.movesLeft_lt
        exact ⟨hs.step he, q', hq', by omega⟩
    · rintro n s act u - he ⟨hs, q, hq, hle⟩
      obtain ⟨q', hq', rfl | hnext⟩ := step_stands hs he hq
      · exact ⟨hs.step he, q, hq', hle⟩
      · have hlt := hnext.movesLeft_lt
        exact ⟨hs.step he, q', hq', by omega⟩
  obtain ⟨-, q', hq', hle⟩ := haccount
  rwa [token_injective (hq'.symm.trans hq)] at hle

end Runs

def longSession : List Act := submission 0 1 true .readWrite ++ parking ++
  ([.worker, .call (.approve 1), .proceed 1, .proceed 1, .proceed 1, .worker, .worker, .worker, .worker,
    .unwind, .worker] : List Act)

theorem long_session_lives : ∃ (b : ActionBroker) (q : Option Place), b.whereabouts 0 ≠ 0 ∧ Stands 0 b q ∧
    Relation.ReflTransGen Becomes none q := by
  obtain ⟨b, hb, hsomewhere⟩ := (system sampleConfig).reachable_of_replay (fun b => b.whereabouts 0 ≠ 0)
    longSession (by decide +kernel)
  obtain ⟨p, q, hp, hq, hwalk⟩ := sessions_live_their_lives (.refl _) hb 0
  cases token_injective ((rfl : token none = (system sampleConfig).init.whereabouts 0).trans hp)
  exact ⟨b, q, hsomewhere, hq, hwalk⟩

theorem long_session_moves : ∃ b q, Counted (system sampleConfig) (moved sampleConfig 0) 13 .initial b ∧
    Stands 0 b q ∧ movesLeft q = 0 := by
  have hmoves : ((system sampleConfig).replayCounting (moved sampleConfig 0) 0 .initial longSession).any
      (fun last => decide (last.1 = 13)) = true := by decide +kernel
  obtain ⟨⟨n, b⟩, hreplay, hn⟩ := (Option.any_eq_true _ _).mp hmoves
  obtain rfl : n = 13 := of_decide_eq_true hn
  have hc := (system sampleConfig).counted_of_replay (moved sampleConfig 0) (.refl .initial) hreplay
  obtain ⟨q, hq⟩ := reachable_stands hc.runs 0
  have hbound := moves_are_bounded (p := none) (.refl _) rfl hc hq
  exact ⟨b, q, hc, hq, Nat.le_zero.mp (Nat.add_le_add_iff_left.mp hbound)⟩

end FerrousRuntime.Broker
