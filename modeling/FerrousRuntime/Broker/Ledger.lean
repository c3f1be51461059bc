import FerrousRuntime.Broker.Inversion

/-! # The ledger of a session

For one session the ledger adds up where its job can be: the queue, `pending`, and
what each thread's position contributes, its footprint. Every step of a thread keeps
the ledger under any footprint of the other threads.
-/
namespace FerrousRuntime.Broker
open Tally Transition FerrousRuntime.Runtime Policy

/-- What the threads' positions contribute to one session's ledger. -/
@[ext] structure Footprint where
  /-- jobs without a registered handle -/
  unregistered : ℕ := 0
  /-- jobs not yet on the queue -/
  unborn : ℕ := 0
  /-- jobs held by a thread that has not sent their terminal message -/
  holds : ℕ := 0
  /-- held jobs that may still be executed -/
  startable : ℕ := 0
  /-- held jobs that nobody approved and that may still be parked -/
  unparked : ℕ := 0
  /-- executed jobs the runtime was not called for yet -/
  ready : ℕ := 0
  /-- jobs without a handle, before their terminal message -/
  unreported : ℕ := 0
  /-- sessions whose terminal message was sent and whose audit entry is due -/
  recording : ℕ := 0

namespace Footprint

instance : Zero Footprint := ⟨{}⟩

instance : Add Footprint := ⟨fun f g => {
  unregistered := f.unregistered + g.unregistered
  unborn := f.unborn + g.unborn
  holds := f.holds + g.holds
  startable := f.startable + g.startable
  unparked := f.unparked + g.unparked
  ready := f.ready + g.ready
  unreported := f.unreported + g.unreported
  recording := f.recording + g.recording }⟩

@[simp] theorem zero_unregistered : (0 : Footprint).unregistered = 0 := rfl
@[simp] theorem zero_unborn : (0 : Footprint).unborn = 0 := rfl
@[simp] theorem zero_holds : (0 : Footprint).holds = 0 := rfl
@[simp] theorem zero_startable : (0 : Footprint).startable = 0 := rfl
@[simp] theorem zero_unparked : (0 : Footprint).unparked = 0 := rfl
@[simp] theorem zero_ready : (0 : Footprint).ready = 0 := rfl
@[simp] theorem zero_unreported : (0 : Footprint).unreported = 0 := rfl
@[simp] theorem zero_recording : (0 : Footprint).recording = 0 := rfl

variable (f g : Footprint)

@[simp] theorem add_unregistered : (f + g).unregistered = f.unregistered + g.unregistered := rfl
@[simp] theorem add_unborn : (f + g).unborn = f.unborn + g.unborn := rfl
@[simp] theorem add_holds : (f + g).holds = f.holds + g.holds := rfl
@[simp] theorem add_startable : (f + g).startable = f.startable + g.startable := rfl
@[simp] theorem add_unparked : (f + g).unparked = f.unparked + g.unparked := rfl
@[simp] theorem add_ready : (f + g).ready = f.ready + g.ready := rfl
@[simp] theorem add_unreported : (f + g).unreported = f.unreported + g.unreported := rfl
@[simp] theorem add_recording : (f + g).recording = f.recording + g.recording := rfl

instance : AddCommMonoid Footprint where
  add_assoc f g h := by ext <;> simp [Nat.add_assoc]
  zero_add f := by ext <;> simp
  add_zero f := by ext <;> simp
  add_comm f g := by ext <;> simp [Nat.add_comm]
  nsmul := nsmulRec

/-- The second footprint holds the same jobs, with no more to be done about them. -/
structure Forgets : Prop where
  unregistered : g.unregistered ≤ f.unregistered
  unborn : g.unborn ≤ f.unborn
  holds : g.holds = f.holds
  unreported : g.unreported = f.unreported
  recording : g.recording = f.recording
  startable : g.startable ≤ f.startable
  unparked : g.unparked ≤ f.unparked
  ready : g.ready ≤ f.ready

/-- A held job that may still be executed, `unparked` of it also parked. -/
@[simp] def starting (job unparked : ℕ) : Footprint := {
  holds := job
  startable := job
  unparked := unparked }

/-- A held job that was executed, before the runtime is called. -/
@[simp] def executing (job : ℕ) : Footprint := { holds := job, ready := job }

@[simp] def unhandled (job : ℕ) : Footprint := { holds := job, unreported := job }

end Footprint

def ofKey (k : ℕ) (job : Job) : Bool := job.key == k

def unapproved (k : ℕ) (job : Job) : Bool := job.key == k && job.admission != .approved

def Closing.footprint (k : ℕ) (closing : Closing) : Footprint :=
  match closing.stage with
  | .send => { holds := one (closing.key == k) }
  | .record => { recording := one (closing.key == k) }
  | .release => 0

def CallPc.footprint (k : ℕ) : CallPc → Footprint
  | .enqueue job => { unregistered := one (ofKey k job), unborn := one (ofKey k job) }
  | .push job => { unborn := one (ofKey k job) }
  | .checkCancelled _ job => .starting (one (ofKey k job)) 0
  | .requeue _ job => .starting (one (ofKey k job)) (one (unapproved k job))
  | .closing c => c.footprint k
  | _ => 0

def WorkerPc.footprint (k : ℕ) : WorkerPc → Footprint
  | .lookup job => .starting (one (ofKey k job)) (one (unapproved k job))
  | .deadline job _ | .park job _ _ => .starting (one (ofKey k job)) (one (ofKey k job))
  | .missing job => .unhandled (one (ofKey k job))
  | .begin job _ | .announce job _ => .executing (one (ofKey k job))
  | .running job _ _ => { holds := one (ofKey k job) }
  | .closing c => c.footprint k
  | _ => 0

def SweeperPc.footprint (k : ℕ) : SweeperPc → Footprint
  | .closing c _ => c.footprint k
  | _ => 0

def ActionBroker.footprint (k : ℕ) (b : ActionBroker) : Footprint :=
  (b.calls.map (CallPc.footprint k)).sum + b.worker.footprint k + b.sweeper.footprint k

section Events

@[simp] def Event.isRegistered (k : ℕ) : Event → Bool
  | .registered job => ofKey k job
  | _ => false

@[simp] def Event.isEnqueued (k : ℕ) : Event → Bool
  | .enqueued job => ofKey k job
  | _ => false

@[simp] def Event.isConcluded (k : ℕ) : Event → Bool
  | .sent key message => key == k && message.isTerminal
  | _ => false

/-- The session's job was replaced in `pending`, or the queue would not take it. -/
@[simp] def Event.isLost (k : ℕ) : Event → Bool
  | .displaced job | .stranded job => ofKey k job
  | _ => false

/-- The session's job was removed with nobody to notify. -/
@[simp] def Event.isDiscarded (k : ℕ) : Event → Bool
  | .discarded job => ofKey k job
  | _ => false

@[simp] def Event.isRecorded (k : ℕ) : Event → Bool
  | .recorded key _ => key == k
  | _ => false

@[simp] def Event.isMissing (k : ℕ) : Event → Bool
  | .missing job => ofKey k job
  | _ => false

def Event.isPanicked : Event → Bool
  | .panicked _ => true
  | _ => false

@[simp] def Event.isParked (k : ℕ) : Event → Bool
  | .parked job => ofKey k job
  | _ => false

@[simp] def Event.isExecuted (k : ℕ) : Event → Bool
  | .executed job => ofKey k job
  | _ => false

@[simp] def Event.isInvoked (k : ℕ) : Event → Bool
  | .invoked key => key == k
  | _ => false

/-- The session's job was taken to be closed: by a denial, a cancellation, the sweeper,
or an approval that saw the flag. -/
@[simp] def Event.isDecided (k : ℕ) : Event → Bool
  | .took (.approve _) _ => false
  | .took _ job => ofKey k job
  | .sawCancelled job => ofKey k job
  | _ => false

end Events

def Event.isIdle : Event → Bool
  | .took (.approve _) _ | .received _ _ | .panicked _ | .flagged _ => true
  | .sent _ message => !message.isTerminal
  | _ => false

/-- The session's ledger: the number of channels, the queue, the parked jobs, the
history and the threads' footprint. -/
structure Ledger (k fresh : ℕ) (queue : List Job) (pending : AList (fun _ : ℕ => PendingJob))
    (history : List Event) (f : Footprint) : Prop where
  registered : f.unregistered + history.countP (Event.isRegistered k) ≤ one (decide (k < fresh))
  born : f.unborn + history.countP (Event.isEnqueued k) ≤ one (decide (k < fresh))
  owned : history.countP (Event.isEnqueued k) =
    queue.countP (ofKey k) + values (fun parked => ofKey k parked.job) pending + f.holds +
      history.countP (Event.isConcluded k) + history.countP (Event.isLost k) +
      history.countP (Event.isDiscarded k)
  reported : history.countP (Event.isConcluded k) + f.unreported =
    history.countP (Event.isRecorded k) + f.recording + history.countP (Event.isMissing k)
  started : queue.countP (ofKey k) + values (fun parked => ofKey k parked.job) pending +
    f.startable + history.countP (Event.isExecuted k) + history.countP (Event.isDecided k) ≤
      history.countP (Event.isEnqueued k)
  invoked : f.ready + history.countP (Event.isInvoked k) ≤ history.countP (Event.isExecuted k)
  parking : queue.countP (unapproved k) + f.unparked + history.countP (Event.isParked k) ≤
    history.countP (Event.isEnqueued k)

/-- What the logged events move in the ledger, along with the queue, the parked jobs and the
footprint of the thread that logs them. -/
structure Posting (k : ℕ) (logged : List Event) (queue queue' : List Job)
    (pending pending' : AList (fun _ : ℕ => PendingJob)) (f g : Footprint) : Prop where
  registered : g.unregistered + logged.countP (Event.isRegistered k) ≤ f.unregistered
  born : g.unborn + logged.countP (Event.isEnqueued k) ≤ f.unborn
  owned : queue.countP (ofKey k) + values (fun parked => ofKey k parked.job) pending + f.holds +
      logged.countP (Event.isEnqueued k) =
    queue'.countP (ofKey k) + values (fun parked => ofKey k parked.job) pending' + g.holds +
      logged.countP (Event.isConcluded k) + logged.countP (Event.isLost k) +
      logged.countP (Event.isDiscarded k)
  reported : logged.countP (Event.isConcluded k) + g.unreported + f.recording =
    logged.countP (Event.isRecorded k) + g.recording + logged.countP (Event.isMissing k) + f.unreported
  started : queue'.countP (ofKey k) + values (fun parked => ofKey k parked.job) pending' +
      g.startable + logged.countP (Event.isExecuted k) + logged.countP (Event.isDecided k) ≤
    queue.countP (ofKey k) + values (fun parked => ofKey k parked.job) pending + f.startable +
      logged.countP (Event.isEnqueued k)
  invoked : g.ready + logged.countP (Event.isInvoked k) ≤ f.ready + logged.countP (Event.isExecuted k)
  parking : queue'.countP (unapproved k) + g.unparked + logged.countP (Event.isParked k) ≤
    queue.countP (unapproved k) + f.unparked + logged.countP (Event.isEnqueued k)

def BrokerState.Ledger (k : ℕ) (s : BrokerState) (f : Footprint) : Prop :=
  Broker.Ledger k s.fresh s.queue s.pending s.history f

@[simp] theorem ofKey_admit (k : ℕ) (job : Job) : ofKey k job.admit = ofKey k job := rfl

@[simp] theorem ofKey_withSession (k : ℕ) (job : Job) (session : Command.SessionState) :
    ofKey k (job.withSession session) = ofKey k job := rfl

@[simp] theorem unapproved_admit (k : ℕ) (job : Job) : unapproved k job.admit = false := by
  simp [unapproved, Job.admit]

theorem unapproved_le (k : ℕ) (job : Job) : one (unapproved k job) ≤ one (ofKey k job) := by
  unfold unapproved ofKey
  cases job.key == k <;> simp [one_le]

theorem unapproved_of_ne {k : ℕ} {job : Job} (h : job.admission ≠ .approved) :
    unapproved k job = ofKey k job := by
  simp [unapproved, ofKey, h]

namespace Ledger
variable {k n id : ℕ} {q q' : List Job} {p p' : AList (fun _ : ℕ => PendingJob)} {h : List Event}
  {f g rest : Footprint} {job : Job} {parked : PendingJob} {message : Message} {key : ℕ}

/-- A thread may forget that it could start, park or run a job. -/
theorem weaken (hl : Ledger k n q p h f) (hg : Footprint.Forgets f g) : Ledger k n q p h g := by
  obtain ⟨hreg, hborn, howned, hreported, hstarted, hinvoked, hparking⟩ := hl
  obtain ⟨hg, hu, hh, hr, hd, hs, hp, hi⟩ := hg
  constructor <;> omega

theorem registered_le (hl : Ledger k n q p h f) :
    f.unregistered + h.countP (Event.isRegistered k) ≤ 1 :=
  hl.registered.trans (one_le _)

theorem born_le (hl : Ledger k n q p h f) : f.unborn + h.countP (Event.isEnqueued k) ≤ 1 :=
  hl.born.trans (one_le _)

theorem places_le (hl : Ledger k n q p h f) : q.countP (ofKey k) +
    values (fun parked => ofKey k parked.job) p + f.holds + h.countP (Event.isConcluded k) +
      h.countP (Event.isLost k) + h.countP (Event.isDiscarded k) ≤ 1 := by
  have hborn := hl.born_le
  have howned := hl.owned
  omega

/-- A balanced posting keeps the ledger, whatever the other threads hold. -/
theorem post (hl : Ledger k n q p h (f + rest)) (logged : List Event)
    (hp : Posting k logged q q' p p' f g) : Ledger k n q' p' (logged ++ h) (g + rest) where
  registered := by
    have hbefore := hl.registered
    have hmove := hp.registered
    rw [Footprint.add_unregistered] at hbefore ⊢
    rw [List.countP_append]
    omega
  born := by
    have hbefore := hl.born
    have hmove := hp.born
    rw [Footprint.add_unborn] at hbefore ⊢
    rw [List.countP_append]
    omega
  owned := by
    have hbefore := hl.owned
    have hmove := hp.owned
    rw [Footprint.add_holds] at hbefore ⊢
    simp only [List.countP_append]
    omega
  reported := by
    have hbefore := hl.reported
    have hmove := hp.reported
    rw [Footprint.add_unreported, Footprint.add_recording] at hbefore ⊢
    simp only [List.countP_append]
    omega
  started := by
    have hbefore := hl.started
    have hmove := hp.started
    rw [Footprint.add_startable] at hbefore ⊢
    simp only [List.countP_append]
    omega
  invoked := by
    have hbefore := hl.invoked
    have hmove := hp.invoked
    rw [Footprint.add_ready] at hbefore ⊢
    simp only [List.countP_append]
    omega
  parking := by
    have hbefore := hl.parking
    have hmove := hp.parking
    rw [Footprint.add_unparked] at hbefore ⊢
    simp only [List.countP_append]
    omega

theorem idle {event : Event} (hl : Ledger k n q p h f) (he : event.isIdle = true) :
    Ledger k n q p (event :: h) f := by
  have hnothing : Posting k [event] q q p p 0 0 := by
    cases event with
    | took d job =>
      cases d <;> simp [Event.isIdle] at he
      constructor <;> simp
    | sent key message =>
      simp [Event.isIdle] at he
      constructor <;> simp [he]
    | received | panicked | flagged => constructor <;> simp
    | _ => simp [Event.isIdle] at he
  rw [← zero_add f] at hl ⊢
  exact hl.post [event] hnothing

theorem submit (hl : Ledger k n q p h rest) :
    Ledger k (n + 1) q p h ({ unregistered := one (n == k), unborn := one (n == k) } + rest) := by
  obtain ⟨hreg, hborn, howned, hreported, hstarted, hinvoked, hparking⟩ := hl
  have hle : one (decide (k < n)) + one (n == k) ≤ one (decide (k < n + 1)) := by
    rcases lt_trichotomy k n with hk | rfl | hk
    · have hne : (n == k) = false := by simp; omega
      simp [hk, Nat.lt_succ_of_lt hk, hne]
    · simp
    · have hne : (n == k) = false := by simp; omega
      simp [hne, hk.not_gt]
  constructor <;> simp only [Footprint.add_unregistered, Footprint.add_unborn, Footprint.add_holds,
    Footprint.add_startable, Footprint.add_unparked, Footprint.add_ready, Footprint.add_unreported,
    Footprint.add_recording] <;> omega

theorem register (hl : Ledger k n q p h
      ({ unregistered := one (ofKey k job), unborn := one (ofKey k job) } + rest)) :
    Ledger k n q p (.registered job :: h) ({ unborn := one (ofKey k job) } + rest) := by
  refine hl.post [.registered job] ?_
  constructor <;> simp [countP_cons_one]

theorem enqueue (hl : Ledger k n q p h ({ unborn := one (ofKey k job) } + rest)) :
    Ledger k n (q ++ [job]) p (.enqueued job :: h) (0 + rest) := by
  have hle := unapproved_le k job
  refine hl.post [.enqueued job] ?_
  constructor <;> simp [countP_cons_one] <;> omega

theorem pop (hl : Ledger k n (job :: q) p h (0 + rest)) :
    Ledger k n q p h (.starting (one (ofKey k job)) (one (unapproved k job)) + rest) := by
  refine hl.post [] ?_
  constructor <;> simp [countP_cons_one] <;> omega

theorem requeue (hl : Ledger k n q p h (.starting (one (ofKey k job)) (one (unapproved k job)) + rest)) :
    Ledger k n (q ++ [job]) p h (0 + rest) := by
  refine hl.post [] ?_
  constructor <;> simp [countP_cons_one] <;> omega

theorem strand (hl : Ledger k n q p h (.starting (one (ofKey k job)) (one (unapproved k job)) + rest)) :
    Ledger k n q p (.stranded job :: h) (0 + rest) := by
  refine hl.post [.stranded job] ?_
  constructor <;> simp [countP_cons_one]

theorem approve {call : ℕ} (hl : Ledger k n q p h (0 + rest)) (hp : p.lookup id = some parked) :
    Ledger k n q (p.erase id) (.took (.approve call) parked.job :: h)
      (.starting (one (ofKey k parked.job)) 0 + rest) := by
  have hv := values_erase_some (fun parked => ofKey k parked.job) hp
  refine hl.post [.took (.approve call) parked.job] ?_
  constructor <;> simp <;> omega

theorem settle {decider : Decider} (hl : Ledger k n q p h (0 + rest)) (hp : p.lookup id = some parked)
    (hd : ∀ call, decider ≠ .approve call) :
    Ledger k n q (p.erase id) (.took decider parked.job :: h)
      ({ holds := one (ofKey k parked.job) } + rest) := by
  have hv := values_erase_some (fun parked => ofKey k parked.job) hp
  -- by `hd` the event is one of a decision
  refine hl.post [.took decider parked.job] ?_
  constructor <;> simp [countP_cons_one] <;> omega

theorem sawCancelled (hl : Ledger k n q p h (.starting (one (ofKey k job)) 0 + rest)) :
    Ledger k n q p (.sawCancelled job :: h) ({ holds := one (ofKey k job) } + rest) := by
  refine hl.post [.sawCancelled job] ?_
  constructor <;> simp [countP_cons_one]

theorem conclude (hl : Ledger k n q p h ({ holds := one (key == k) } + rest))
    (hm : message.isTerminal = true) :
    Ledger k n q p (.sent key message :: h) ({ recording := one (key == k) } + rest) := by
  refine hl.post [.sent key message] ?_
  constructor <;> simp [countP_cons_one, hm]

theorem record {entry : AuditEntry} (hl : Ledger k n q p h ({ recording := one (key == k) } + rest)) :
    Ledger k n q p (.recorded key entry :: h) (0 + rest) := by
  refine hl.post [.recorded key entry] ?_
  constructor <;> simp [countP_cons_one]

theorem missing (hl : Ledger k n q p h (.starting (one (ofKey k job)) (one (unapproved k job)) + rest)) :
    Ledger k n q p (.missing job :: h)
      (.unhandled (one (ofKey k job)) + rest) := by
  refine hl.post [.missing job] ?_
  constructor <;> simp [countP_cons_one]

theorem report (hl : Ledger k n q p h (.unhandled (one (ofKey k job)) + rest)) (hm : message.isTerminal = true) :
    Ledger k n q p (.sent job.key message :: h) (0 + rest) := by
  refine hl.post [.sent job.key message] ?_
  constructor <;> simp [countP_cons_one, hm, ofKey]

theorem execute (hl : Ledger k n q p h (.starting (one (ofKey k job)) (one (unapproved k job)) + rest)) :
    Ledger k n q p (.executed job :: h)
      (.executing (one (ofKey k job)) + rest) := by
  refine hl.post [.executed job] ?_
  constructor <;> simp [countP_cons_one]

theorem invoke (hl : Ledger k n q p h (.executing (one (ofKey k job)) + rest)) :
    Ledger k n q p (.invoked job.key :: h) ({ holds := one (ofKey k job) } + rest) := by
  refine hl.post [.invoked job.key] ?_
  constructor <;> simp [countP_cons_one, ofKey]

theorem park {deadline : ℕ} (hl : Ledger k n q p h (.starting (one (ofKey k job)) (one (ofKey k job)) + rest)) :
    Ledger k n q (p.insert id ⟨job, deadline⟩)
      (.parked job :: (displacement (p.lookup id) ++ h)) (0 + rest) := by
  have hv := values_insert (fun parked => ofKey k parked.job) p id ⟨job, deadline⟩
  dsimp only at hv
  refine hl.post (.parked job :: displacement (p.lookup id)) ?_
  cases hp : p.lookup id with
  | none =>
    have he := values_erase_none (fun parked => ofKey k parked.job) hp
    constructor <;> simp [displacement, countP_cons_one] <;> omega
  | some old =>
    have he := values_erase_some (fun parked => ofKey k parked.job) hp
    constructor <;> simp [displacement, countP_cons_one] <;> omega

theorem discard (hl : Ledger k n q p h f) (hp : p.lookup id = some parked) :
    Ledger k n q (p.erase id) (.discarded parked.job :: h) f := by
  have hv := values_erase_some (fun parked => ofKey k parked.job) hp
  rw [← zero_add f] at hl ⊢
  refine hl.post [.discarded parked.job] ?_
  constructor <;> simp [countP_cons_one] <;> omega

end Ledger

section Threads
variable {k : ℕ} {s : BrokerState} {rest : Footprint} {config : Config}

def Closing.footprintOf (k : ℕ) : Option Closing → Footprint
  | some closing => closing.footprint k
  | none => 0

theorem Closing.step_ledger {closing : Closing} (h : s.Ledger k (closing.footprint k + rest)) :
    (closing.step s).1.Ledger k (Closing.footprintOf k (closing.step s).2 + rest) := by
  obtain ⟨key, message, terminal, entry, stage⟩ := closing
  cases stage with
  | send => exact Ledger.conclude h terminal
  | record => exact Ledger.record h
  | release => exact h

theorem enter_ledger (request : Request) (h : s.Ledger k rest) :
    (enter s request).1.Ledger k ((enter s request).2.footprint k + rest) := by
  have hzero : s.Ledger k (0 + rest) := by rwa [zero_add]
  have hn := enter_cases s request
  generalize enter s request = next at hn ⊢
  cases hn with
  | submitted streaming component request =>
    have hk := newJob_key streaming component request s.fresh
    have hs := Ledger.submit h
    simp only [BrokerState.Ledger, CallPc.footprint, ofKey, hk]
    exact hs
  | _ => exact hzero

theorem callStep_ledger {n : ℕ} {pc : CallPc} {next : BrokerState × CallPc}
    (h : s.Ledger k (pc.footprint k + rest)) (he : callStep config n s pc = some next) :
    next.1.Ledger k (next.2.footprint k + rest) := by
  cases callStep_cases he with
  | refused job => exact Ledger.weaken h (by constructor <;> simp [CallPc.footprint])
  | registered job => exact Ledger.register h
  | enqueued job => exact Ledger.enqueue h
  | unserved job => exact Ledger.weaken h (by constructor <;> simp [CallPc.footprint])
  | approved id parked hp => exact Ledger.approve h hp
  | sawCancelled id job => exact Ledger.sawCancelled h
  | admitted id job => exact Ledger.weaken h (by constructor <;> simp [CallPc.footprint])
  | requeued id job => exact Ledger.requeue h
  | stranded id job => exact Ledger.strand h
  | denied id parked hp | cancelled id parked hp => exact Ledger.settle h hp (by simp)
  | flagged cell => exact Ledger.idle h rfl
  | closing c _ _ hs | closed c _ hs =>
    have hc := Closing.step_ledger h
    rw [hs] at hc
    exact hc
  | _ => exact h

theorem workerStep_ledger {pc : WorkerPc} {next : BrokerState × WorkerPc}
    (h : s.Ledger k (pc.footprint k + rest)) (he : workerStep config s pc = some next) :
    next.1.Ledger k (next.2.footprint k + rest) := by
  cases workerStep_cases he with
  | popped job rest hq =>
    unfold BrokerState.Ledger at h
    rw [hq] at h
    exact Ledger.pop h
  | missing job => exact Ledger.missing h
  | executed job => exact Ledger.execute h
  | deferred job cell reason _ _ ha =>
    have hu := unapproved_of_ne (k := k) ha
    exact Ledger.weaken h (by constructor <;> simp [WorkerPc.footprint, hu])
  | denied job => exact Ledger.report h (by simp)
  | cancelled job | unstartable job =>
    exact Ledger.weaken h (by constructor <;> simp [WorkerPc.footprint, Closing.footprint, Job.conclude, ofKey])
  | invoked job => exact Ledger.invoke h
  | started job => exact Ledger.invoke (Ledger.idle h rfl)
  | closing c _ _ hs | closed c _ hs =>
    have hc := Closing.step_ledger h
    rw [hs] at hc
    exact hc
  | panicked job =>
    refine Ledger.weaken (Ledger.idle h rfl) ?_
    constructor <;> simp [WorkerPc.footprint, Closing.footprint, Job.panic, Job.close, ofKey]
  | parked job deadline => exact Ledger.park h
  | notified | unnotified => exact Ledger.idle h (by simp [Event.isIdle])
  | discarded id parked hp => exact Ledger.discard h hp
  | _ => exact h

theorem emit_ledger {key : ℕ} {event : Option Command.SessionEvent}
    (he : ∀ e, event = some e → e.isTerminal = false) (h : s.Ledger k rest) :
    (s.emit key event).Ledger k rest := by
  cases event with
  | none => exact h
  | some e => exact Ledger.idle h (by simp [Event.isIdle, Message.isTerminal, he e rfl])

theorem output_not_terminal {run : WasiRun} {flag : Bool} {epoch : ℕ} {act : RunAct} {effect : Effect}
    (he : run.step flag epoch act = some effect) :
    ∀ e, effect.event = some e → e.isTerminal = false := by
  intro e hevent
  obtain ⟨stream, bytes, rfl⟩ := WasiRun.step_event he e hevent
  rfl

theorem runtimeStep_ledger {act : RunAct} {pc : WorkerPc} {next : BrokerState × WorkerPc}
    (h : s.Ledger k (pc.footprint k + rest)) (he : runtimeStep s act pc = some next) :
    next.1.Ledger k (next.2.footprint k + rest) := by
  obtain ⟨job, cell, run, effect, rfl, heff, rfl⟩ := runtimeStep_cases he
  exact emit_ledger (output_not_terminal heff) h

theorem unwindStep_ledger {pc : WorkerPc} {next : BrokerState × WorkerPc × Stray}
    (h : s.Ledger k (pc.footprint k + rest)) (he : unwindStep s pc = some next) :
    next.1.Ledger k (next.2.1.footprint k + rest) := by
  obtain ⟨job, cell, run, rfl, -, rfl⟩ := unwindStep_cases he
  exact Ledger.idle h rfl

theorem strayStep_ledger {elapsed : Bool} {stray : Stray} {next : BrokerState × Stray}
    (h : s.Ledger k rest) (he : strayStep s elapsed stray = some next) : next.1.Ledger k rest := by
  obtain ⟨effect, heff, rfl⟩ := Option.map_eq_some_iff.mp he
  exact emit_ledger (output_not_terminal heff) h

theorem sweeperStep_ledger {order : List ℕ} {pc : SweeperPc} {next : BrokerState × SweeperPc}
    (h : s.Ledger k (pc.footprint k + rest)) (he : sweeperStep s order pc = some next) :
    next.1.Ledger k (next.2.footprint k + rest) := by
  cases sweeperStep_cases he with
  | took id rest parked hp => exact Ledger.settle h hp (by simp)
  | closing c _ _ _ hs | closed c _ _ hs =>
    have hc := Closing.step_ledger h
    rw [hs] at hc
    exact hc
  | _ => exact h

theorem receiverStep_ledger {key : ℕ} {drops : Bool} {next : BrokerState} (h : s.Ledger k rest)
    (he : receiverStep s key drops = some next) : next.Ledger k rest := by
  cases receiverStep_cases he with
  | dropped => exact h
  | received message rest => exact Ledger.idle h rfl

theorem dropStep_ledger {b : ActionBroker} {next : BrokerState × DropPc} (h : b.state.Ledger k rest)
    (he : dropStep b = some next) : next.1.Ledger k rest := by
  cases dropStep_cases he <;> exact h

end Threads

def ActionBroker.Ledger (k : ℕ) (b : ActionBroker) : Prop := b.state.Ledger k (b.footprint k)

section Runs
variable {k : ℕ} {config : Config} {b t : ActionBroker} {act : Act}

theorem initial_ledger (k : ℕ) : ActionBroker.initial.Ledger k := by
  constructor <;> simp [ActionBroker.initial, ActionBroker.footprint, BrokerState.initial,
    WorkerPc.footprint, SweeperPc.footprint]

theorem worker_holds_le (b : ActionBroker) (k : ℕ) :
    (b.worker.footprint k).holds ≤ (b.footprint k).holds := by
  simp only [ActionBroker.footprint, Footprint.add_holds]
  omega

theorem sweeper_holds_le (b : ActionBroker) (k : ℕ) :
    (b.sweeper.footprint k).holds ≤ (b.footprint k).holds := by
  simp only [ActionBroker.footprint, Footprint.add_holds]
  omega

theorem call_holds_le_sum {calls : List CallPc} {pc : CallPc} (hpc : pc ∈ calls) (k : ℕ) :
    (pc.footprint k).holds ≤ ((calls.map (CallPc.footprint k)).sum).holds := by
  obtain ⟨n, hn⟩ := List.mem_iff_getElem?.mp hpc
  obtain ⟨rest, hsum, -⟩ := exists_frame (CallPc.footprint k) hn
  rw [hsum, Footprint.add_holds]
  omega

theorem call_holds_le {pc : CallPc} (hpc : pc ∈ b.calls) (k : ℕ) :
    (pc.footprint k).holds ≤ (b.footprint k).holds := by
  have hsum := call_holds_le_sum hpc k
  simp only [ActionBroker.footprint, Footprint.add_holds]
  omega

theorem step_ledger (h : b.Ledger k) (he : step config b act = some t) : t.Ledger k := by
  have hworker : b.state.Ledger k (b.worker.footprint k +
      ((b.calls.map (CallPc.footprint k)).sum + b.sweeper.footprint k)) := by
    rw [add_left_comm, ← add_assoc]
    exact h
  have hback : ∀ {s : BrokerState} {f : Footprint}, s.Ledger k (f +
      ((b.calls.map (CallPc.footprint k)).sum + b.sweeper.footprint k)) →
      s.Ledger k ((b.calls.map (CallPc.footprint k)).sum + f + b.sweeper.footprint k) := by
    intro s f hf
    rwa [add_left_comm, ← add_assoc] at hf
  apply step_elim he
  case call =>
    intro request _
    have hn := enter_ledger request h
    simp only [ActionBroker.Ledger, ActionBroker.footprint, List.map_append, List.sum_append,
      List.map_cons, List.map_nil, List.sum_cons, List.sum_nil, add_zero] at hn ⊢
    rwa [add_comm (List.sum _) (CallPc.footprint k _), add_assoc, add_assoc, ← add_assoc (List.sum _)]
  case proceed =>
    intro n pc next _ hpc hn
    obtain ⟨rest, hsum, hset⟩ := exists_frame (CallPc.footprint k) hpc
    have hcall : b.state.Ledger k (pc.footprint k +
        (rest + b.worker.footprint k + b.sweeper.footprint k)) := by
      rw [← add_assoc, ← add_assoc, ← hsum]
      exact h
    have hnext := callStep_ledger hcall hn
    rw [← add_assoc, ← add_assoc, ← hset] at hnext
    exact hnext
  case worker => exact fun next _ hn => hback (workerStep_ledger hworker hn)
  case runtime => exact fun a next _ hn => hback (runtimeStep_ledger hworker hn)
  case unwind => exact fun next _ hn => hback (unwindStep_ledger hworker hn)
  case stray => exact fun index elapsed stray next _ _ hn => strayStep_ledger h hn
  case sweeper =>
    intro order next _ hn
    have hsweeper : b.state.Ledger k (b.sweeper.footprint k +
        ((b.calls.map (CallPc.footprint k)).sum + b.worker.footprint k)) := by
      rw [add_comm]
      exact h
    have hnext := sweeperStep_ledger hsweeper hn
    rw [add_comm] at hnext
    exact hnext
  case receiver => exact fun key drops next hn => receiverStep_ledger h hn
  case tick => exact fun elapsed => h
  case drop => exact fun _ _ => h
  case dropping => exact fun next hn => dropStep_ledger h hn

theorem reachable_ledger (h : Reachable (system config) b) (k : ℕ) : b.Ledger k :=
  Reachable.invariant (fun _ _ _ he hl => step_ledger hl he) h (initial_ledger k)

theorem holds_le_one (h : Reachable (system config) b) (k : ℕ) :
    (b.calls.map (CallPc.footprint k)).sum.holds + (b.worker.footprint k).holds +
      (b.sweeper.footprint k).holds ≤ 1 := by
  have hplaces := (reachable_ledger h k).places_le
  simp only [ActionBroker.footprint, Footprint.add_holds] at hplaces
  omega

theorem calls_hold_nothing (h : Reachable (system config) b)
    (hk : 0 < (b.worker.footprint k).holds + (b.sweeper.footprint k).holds) :
    ∀ pc ∈ b.calls, (pc.footprint k).holds = 0 := by
  intro pc hpc
  have hsum := call_holds_le_sum hpc k
  have hone := holds_le_one h k
  omega

theorem worker_exclusive (h : Reachable (system config) b) (hk : 0 < (b.worker.footprint k).holds) :
    (∀ pc ∈ b.calls, (pc.footprint k).holds = 0) ∧ (b.sweeper.footprint k).holds = 0 := by
  have hone := holds_le_one h k
  exact ⟨calls_hold_nothing h (by omega), by omega⟩

theorem sweeper_exclusive (h : Reachable (system config) b) (hk : 0 < (b.sweeper.footprint k).holds) :
    (∀ pc ∈ b.calls, (pc.footprint k).holds = 0) ∧ (b.worker.footprint k).holds = 0 := by
  have hone := holds_le_one h k
  exact ⟨calls_hold_nothing h (by omega), by omega⟩

theorem call_exclusive (h : Reachable (system config) b) {n : ℕ} {pc : CallPc}
    (hpc : b.calls[n]? = some pc) (hk : 0 < (pc.footprint k).holds) :
    (∀ m other, m ≠ n → b.calls[m]? = some other → (other.footprint k).holds = 0) ∧
      (b.worker.footprint k).holds = 0 ∧ (b.sweeper.footprint k).holds = 0 := by
  have hone := holds_le_one h k
  refine ⟨?_, ?_⟩
  · intro m other hne ho
    obtain ⟨rest, hsum⟩ := exists_frame_two (CallPc.footprint k) hne ho hpc
    rw [hsum, Footprint.add_holds, Footprint.add_holds] at hone
    omega
  · obtain ⟨rest, hsum, -⟩ := exists_frame (CallPc.footprint k) hpc
    rw [hsum, Footprint.add_holds] at hone
    omega

end Runs

end FerrousRuntime.Broker
