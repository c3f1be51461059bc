import FerrousRuntime.Broker.Announcement

/-! # One session at a time, in the order of submission

The worker alone executes sessions, and it has recorded one before it takes the next from the
queue. A session that needs no approval waits on the queue once, and only the worker and the
reader of its run send on its channel; so everything that is sent to the session submitted
first comes before anything that is sent to the second.
-/
namespace FerrousRuntime.Broker
open Tally Transition FerrousRuntime.Runtime Policy Command Capability

def Steady (_ : ActionBroker) (act : Act) : Prop := act ≠ .unwind

def Act.unwinds : Act → Bool
  | .unwind => true
  | _ => false

theorem Act.unwinds_eq_false (act : Act) : act.unwinds = false ↔ act ≠ .unwind := by
  cases act <;> simp [unwinds]

instance (b : ActionBroker) (act : Act) : Decidable (Steady b act) :=
  decidable_of_iff (act.unwinds = false) act.unwinds_eq_false

namespace WorkerPc

/-- The worker is inside `execute`, whose last act is to send the terminal message. -/
def Executing (k : ℕ) : WorkerPc → Prop
  | .begin job _ | .announce job _ | .running job _ _ => job.key = k
  | .closing c => c.key = k ∧ c.stage = .send
  | _ => False

/-- `execute` has returned, and its outcome is to be recorded. -/
def Returned (k : ℕ) : WorkerPc → Prop
  | .closing c => c.key = k ∧ c.stage = .record
  | _ => False

end WorkerPc

/-- The session's `execute` ended in these entries: its terminal message was sent, and its
outcome recorded. -/
def Ended (k : ℕ) (entries : List Event) : Prop :=
  (∃ message, message.isTerminal = true ∧ .sent k message ∈ entries) ∧
    ∃ entry, .recorded k entry ∈ entries

theorem Ended.mono {k : ℕ} {entries entries' : List Event} (h : Ended k entries)
    (hsub : entries ⊆ entries') : Ended k entries' := by
  obtain ⟨⟨message, hm, hsent⟩, entry, hrecorded⟩ := h
  exact ⟨⟨message, hm, hsub hsent⟩, entry, hsub hrecorded⟩

/-- A session is executed only after every session executed before it has ended. -/
def OneByOne : Event → List Event → Prop
  | .executed _, past => ∀ mid job earlier, past = mid ++ .executed job :: earlier → Ended job.key mid
  | _, _ => True

section Threads
variable {config : Config} {s : BrokerState} {k : ℕ}

theorem workerStep_executing {pc : WorkerPc} {next : BrokerState × WorkerPc} (h : pc.Executing k)
    (he : workerStep config s pc = some next) : next.2.Executing k ∨
      next.2.Returned k ∧ ∃ message, message.isTerminal = true ∧
        next.1.history = .sent k message :: s.history := by
  cases workerStep_cases he with
  | announced | invoked | started => exact Or.inl h
  | cancelled | unstartable | returned => exact Or.inl ⟨h, rfl⟩
  | closing c d t hs =>
    obtain ⟨rfl, hstage⟩ := h
    simp only [Closing.step, hstage] at hs
    cases hs
    exact Or.inr ⟨⟨rfl, rfl⟩, c.message, c.terminal, rfl⟩
  | closed c t hs => simp [Closing.step, h.2] at hs
  | _ => exact h.elim

theorem workerStep_returned {pc : WorkerPc} {next : BrokerState × WorkerPc} (h : pc.Returned k)
    (he : workerStep config s pc = some next) :
    ∃ entry, next.1.history = .recorded k entry :: s.history := by
  cases workerStep_cases he with
  | closing c d t hs =>
    obtain ⟨rfl, hstage⟩ := h
    simp only [Closing.step, hstage] at hs
    cases hs
    exact ⟨c.entry, rfl⟩
  | closed c t hs => simp [Closing.step, h.2] at hs
  | _ => exact h.elim

end Threads

section Executions
variable {config : Config} {b t : ActionBroker} {act : Act}

theorem step_executes (he : step config b act = some t) :
    (∃ job cell, b.worker = .lookup job ∧ t.worker = .begin job cell ∧
      t.state.history = .executed job :: b.state.history) ∨
    Extends (fun event => ∀ job, event ≠ .executed job) b.state.history t.state.history := by
  by_cases hexecutes : ∃ job, Logs config b act (.executed job)
  · left
    obtain ⟨job, hlogs⟩ := hexecutes
    obtain ⟨rfl, hworker⟩ := hlogs.by_worker rfl
    obtain ⟨next, hn, rfl⟩ := Option.map_eq_some_iff.mp he
    generalize b.worker = pc at hworker hn
    cases hworker with
    | closing c event hc => cases hc
    | executed job cell hl hadmitted =>
      cases workerStep_cases hn with
      | missing _ hnone => cases hl.symm.trans hnone
      | executed _ cell => exact ⟨job, cell, rfl, rfl, rfl⟩
      | deferred _ _ reason _ hrisk hadmission =>
        rcases hadmitted with happroved | hsafe
        · exact absurd happroved hadmission
        · exact absurd ⟨reason, hrisk⟩ hsafe
  · right
    refine (step_logged he).imp ?_
    rintro event hlogs job rfl
    exact hexecutes ⟨job, hlogs⟩

/-- Every session that was executed is still in `execute`, or has ended since. -/
def Settled (b : ActionBroker) : Prop :=
  ∀ later job past, b.state.history = later ++ Event.executed job :: past →
    b.worker.Executing job.key ∨ b.worker.Returned job.key ∧
      (∃ message, message.isTerminal = true ∧ .sent job.key message ∈ later) ∨ Ended job.key later

theorem step_settled (he : step config b act = some t) (h : Settled b) : Settled t := by
  intro later job past hh
  rcases step_executes he with ⟨started, cell, hw, hbegin, hlog⟩ | hothers
  · rw [hlog] at hh
    cases later with
    | nil =>
      cases (List.cons.inj hh).1
      rw [hbegin]
      exact Or.inl rfl
    | cons event later =>
      -- the worker was at its lookup, so what was executed before has ended
      rcases h later job past (List.cons.inj hh).2 with hin | ⟨hin, -⟩ | hended
      · rw [hw] at hin
        exact hin.elim
      · rw [hw] at hin
        exact hin.elim
      · exact Or.inr (Or.inr (hended.mono (List.subset_cons_self _ _)))
  · rcases hothers.split hh with ⟨recent, rest, rfl, -, hb⟩ | ⟨hne, -⟩
    · have hrecent : t.state.history = recent ++ b.state.history := by rw [hh, hb, List.append_assoc]
      have hnew : ∀ event, t.state.history = event :: b.state.history → event ∈ recent ++ rest := by
        intro event hevent
        have hone : recent = [event] := List.append_cancel_right (hrecent.symm.trans hevent)
        simp [hone]
      have hold : rest ⊆ recent ++ rest := List.subset_append_right _ _
      rcases h rest job past hb with hin | ⟨hin, message, hm, hsent⟩ | hended
      · rcases step_worker he with hsame | ⟨next, -, hn, hstate, hnext⟩ |
          ⟨running, cell, run, hw, ⟨run', hrun⟩ | hpanic⟩
        · exact Or.inl (hsame ▸ hin)
        · rw [hnext]
          rcases workerStep_executing hin hn with hin | ⟨hin, message, hm, hlog⟩
          · exact Or.inl hin
          · exact Or.inr (Or.inl ⟨hin, message, hm, hnew _ (hstate ▸ hlog)⟩)
        · rw [hw] at hin
          rw [hrun]
          exact Or.inl hin
        · rw [hw] at hin
          rw [hpanic]
          exact Or.inl ⟨hin, rfl⟩
      · rcases step_worker he with hsame | ⟨next, -, hn, hstate, hnext⟩ | ⟨running, cell, run, hw, -⟩
        · exact Or.inr (Or.inl ⟨hsame ▸ hin, message, hm, hold hsent⟩)
        · obtain ⟨entry, hlog⟩ := workerStep_returned hin hn
          exact Or.inr (Or.inr ⟨⟨message, hm, hold hsent⟩, entry, hnew _ (hstate ▸ hlog)⟩)
        · rw [hw] at hin
          exact hin.elim
      · exact Or.inr (Or.inr (hended.mono hold))
    · exact absurd rfl (hne job)

theorem reachable_settled (h : Reachable (system config) b) : Settled b :=
  Reachable.invariant (fun _ _ _ he hs => step_settled he hs) h
    (by simp [Settled, system, ActionBroker.initial, BrokerState.initial])

theorem reachable_oneByOne (h : Reachable (system config) b) : Justified OneByOne b.state.history := by
  have hinit : Justified OneByOne (system config).init.state.history := trivial
  refine Runs.invariant_of_reachable (P := fun b => Justified OneByOne b.state.history) ?_ h (.refl _) hinit
  intro b act t hb _ he hp
  rcases step_executes he with ⟨started, cell, hw, -, hlog⟩ | hothers
  · rw [hlog]
    refine ⟨?_, hp⟩
    intro mid job earlier hh
    rcases reachable_settled hb mid job earlier hh with hin | ⟨hin, -⟩ | hended
    · rw [hw] at hin
      exact hin.elim
    · rw [hw] at hin
      exact hin.elim
    · exact hended
  · refine hothers.justified ?_ hp
    intro event hne past
    cases event with
    | executed job => exact absurd rfl (hne job)
    | _ => trivial

end Executions

section Takers
variable {config : Config} {s : BrokerState} {k : ℕ}

theorem Closing.step_takes (s : BrokerState) (closing : Closing) (k : ℕ) :
    (Closing.footprintOf k (closing.step s).2).holds ≤ (closing.footprint k).holds ∧
      (closing.step s).1.history.countP (Event.isTook k) = s.history.countP (Event.isTook k) := by
  unfold Closing.step
  cases hstage : closing.stage <;>
    simp [Closing.footprintOf, Closing.footprint, hstage, BrokerState.send, BrokerState.record,
      BrokerState.release]

theorem Closing.footprint_unborn (closing : Closing) (k : ℕ) : (closing.footprint k).unborn = 0 := by
  unfold Closing.footprint
  split <;> rfl

/-- A call comes to hold a job only by taking it out of `pending`, and none goes back to
before its push. -/
theorem callStep_takes {n : ℕ} {pc : CallPc} {next : BrokerState × CallPc}
    (he : callStep config n s pc = some next) :
    (next.2.footprint k).holds + s.history.countP (Event.isTook k) ≤
      (pc.footprint k).holds + next.1.history.countP (Event.isTook k) ∧
    (next.2.footprint k).unborn ≤ (pc.footprint k).unborn := by
  cases callStep_cases he with
  | closing c d t hs =>
    have hc := Closing.step_takes s c k
    rw [hs] at hc
    exact ⟨Nat.add_le_add hc.1 hc.2.ge, by simp [CallPc.footprint, Closing.footprint_unborn]⟩
  | closed c t hs =>
    have hc := Closing.step_takes s c k
    rw [hs] at hc
    exact ⟨Nat.add_le_add hc.1 hc.2.ge, by simp [CallPc.footprint]⟩
  | approved id parked | denied id parked | cancelled id parked =>
    simp [CallPc.footprint, Closing.footprint, Job.close, BrokerState.take, countP_cons_one, ofKey, add_comm]
  | _ => simp [CallPc.footprint, Closing.footprint, Job.close, BrokerState.log, BrokerState.release, ofKey]

theorem sweeperStep_takes {order : List ℕ} {pc : SweeperPc} {next : BrokerState × SweeperPc}
    (he : sweeperStep s order pc = some next) :
    (next.2.footprint k).holds + s.history.countP (Event.isTook k) ≤
      (pc.footprint k).holds + next.1.history.countP (Event.isTook k) := by
  cases sweeperStep_cases he with
  | closing c d rest t hs | closed c rest t hs =>
    have hc := Closing.step_takes s c k
    rw [hs] at hc
    exact Nat.add_le_add hc.1 hc.2.ge
  | took id rest parked =>
    simp [SweeperPc.footprint, Closing.footprint, Job.close, BrokerState.take, countP_cons_one, ofKey, add_comm]
  | _ => simp [SweeperPc.footprint]

theorem enter_takes (s : BrokerState) (request : Request) (k : ℕ) :
    ((enter s request).2.footprint k).holds = 0 ∧
      (0 < ((enter s request).2.footprint k).unborn → k = s.fresh) := by
  have hn := enter_cases s request
  generalize enter s request = next at hn ⊢
  cases hn with
  | submitted =>
    refine ⟨rfl, ?_⟩
    intro hpos
    simp only [CallPc.footprint, ofKey, newJob_key] at hpos
    by_contra hne
    simp [Ne.symm hne] at hpos
  | _ => simp [CallPc.footprint]

end Takers

section Holders
variable {config : Config} {b t : ActionBroker} {act : Act} {k : ℕ}

structure Takers (k : ℕ) (b : ActionBroker) : Prop where
  calls : ∀ pc ∈ b.calls, (pc.footprint k).holds ≤ b.state.history.countP (Event.isTook k)
  sweeper : (b.sweeper.footprint k).holds ≤ b.state.history.countP (Event.isTook k)

theorem step_takers (hb : Reachable (system config) b) (he : step config b act = some t)
    (h : Takers k b) : Takers k t := by
  have hmono := (history_suffix hb he).sublist.countP_le (p := Event.isTook k)
  refine ⟨?_, ?_⟩
  · intro pc hpc
    rcases step_calls he with hsame | ⟨request, hadd⟩ | ⟨n, old, next, -, hold, hn, hstate, hset⟩
    · rw [hsame] at hpc
      exact (h.calls pc hpc).trans hmono
    · rw [hadd] at hpc
      rcases List.mem_append.mp hpc with hpc | hpc
      · exact (h.calls pc hpc).trans hmono
      · rw [List.mem_singleton.mp hpc, (enter_takes b.state request k).1]
        exact Nat.zero_le _
    · rw [hset] at hpc
      rcases List.mem_or_eq_of_mem_set hpc with hpc | rfl
      · exact (h.calls pc hpc).trans hmono
      · have htakes := (callStep_takes (k := k) hn).1
        have hheld := h.calls old (List.mem_of_getElem? hold)
        rw [hstate]
        omega
  · revert hmono
    apply step_elim (P := fun t =>
      b.state.history.countP (Event.isTook k) ≤ t.state.history.countP (Event.isTook k) →
      (t.sweeper.footprint k).holds ≤ t.state.history.countP (Event.isTook k)) he
    case sweeper =>
      intro order next _ hn _
      have htakes := sweeperStep_takes (k := k) hn
      have hheld := h.sweeper
      change (next.2.footprint k).holds ≤ next.1.history.countP (Event.isTook k)
      omega
    all_goals
      intros
      exact h.sweeper.trans ‹_›

theorem reachable_takers (h : Reachable (system config) b) (k : ℕ) : Takers k b := by
  refine Runs.invariant_of_reachable (fun b act t hb _ he hp => step_takers hb he hp) h (.refl _) ?_
  constructor <;> simp [system, ActionBroker.initial, SweeperPc.footprint]

/-- Whatever session of this key is registered, it needs no approval. -/
def Direct (k : ℕ) (history : List Event) : Prop :=
  ∀ origin, .registered origin ∈ history → origin.key = k → ¬ Risky origin.request

theorem Direct.suffix {past history : List Event} (h : Direct k history) (hp : past <:+ history) :
    Direct k past := fun origin ho => h origin (hp.subset ho)

theorem Direct.held (hb : Reachable (system config) b) (h : Direct k b.state.history) :
    b.state.history.countP (Event.isParked k) = 0 ∧ (∀ pc ∈ b.calls, (pc.footprint k).holds = 0) ∧
      (b.sweeper.footprint k).holds = 0 := by
  have hparked : b.state.history.countP (Event.isParked k) = 0 := by
    rw [List.countP_eq_zero]
    intro event hin hevent
    cases event with
    | parked job =>
      obtain ⟨origin, ho, hrequest, -, hsink⟩ := Registered.of_parked hb hin
      have hkey : job.key = k := beq_iff_eq.mp hevent
      refine h origin ho ((congrArg JobSink.channel hsink).trans hkey) ?_
      rw [hrequest]
      exact (reachable_asks hb).2 job hin
    | _ => simp at hevent
  have htook : b.state.history.countP (Event.isTook k) = 0 := by
    have hgone := (reachable_parking hb k).gone
    omega
  have htakers := reachable_takers hb k
  refine ⟨hparked, ?_, ?_⟩
  · intro pc hpc
    have hle := htakers.calls pc hpc
    omega
  · have hle := htakers.sweeper
    omega

/-- Who sends on the channel of such a session holds its job: the worker, or the reader of the
run in its hands. -/
theorem Direct.sender (hb : Reachable (system config) b) (h : Direct k b.state.history)
    (hstrays : b.strays = []) {message : Message} (hlogs : Logs config b act (.sent k message)) :
    0 < (b.worker.footprint k).holds := by
  obtain ⟨hparked, hcalls, hsweeper⟩ := h.held hb
  cases hlogs with
  | call n pc event hpc hlogs =>
    have hheld := hcalls pc (List.mem_of_getElem? hpc)
    cases hlogs with
    | closing c event hc =>
      cases hc with
      | sent hstage => simp [CallPc.footprint, Closing.footprint, hstage] at hheld
  | worker event hlogs =>
    have hg := (reachable_genuine hb).worker
    generalize b.worker = pc at hlogs hg ⊢
    cases hlogs with
    | denied job => simp [WorkerPc.footprint, ofKey]
    | started job cell => simp [WorkerPc.footprint, ofKey]
    | closing c event hc =>
      cases hc with
      | sent hstage => simp [WorkerPc.footprint, Closing.footprint, hstage]
    | notified sink id reason =>
      -- the caller of a parked session, of which there is none
      obtain ⟨shown, hshown, rfl, -⟩ := hg
      refine absurd hparked (Nat.ne_of_gt (List.countP_pos_iff.mpr ⟨_, hshown, ?_⟩))
      simp [ofKey, Job.key]
  | output a job cell run stream bytes hw => simp [hw, WorkerPc.footprint, ofKey]
  | stray index elapsed stray stream bytes hs => simp [hstrays] at hs
  | sweeper order event hlogs =>
    generalize b.sweeper = pc at hlogs hsweeper
    cases hlogs with
    | closing c rest event hc =>
      cases hc with
      | sent hstage => simp [SweeperPc.footprint, Closing.footprint, hstage] at hsweeper

theorem step_strayless (hsteady : Steady b act) (he : step config b act = some t) (hb : b.strays = []) :
    t.strays = [] := by
  apply step_elim (P := fun t => t.strays = []) he
  case unwind => exact fun next ha _ => absurd ha hsteady
  case stray =>
    intro index elapsed stray next _ hs _
    simp [hb] at hs
  all_goals
    intros
    exact hb

theorem enqueued_of_sent (h : Runs (system config) Steady .initial b) (hk : Direct k b.state.history) :
    b.strays = [] ∧ ∀ message, .sent k message ∈ b.state.history →
      0 < b.state.history.countP (Event.isEnqueued k) := by
  refine Runs.invariant_under (H := fun b => Direct k b.state.history)
    (P := fun b => b.strays = [] ∧ ∀ message, .sent k message ∈ b.state.history →
      0 < b.state.history.countP (Event.isEnqueued k)) ?_ ?_ h (.refl _) ⟨rfl, ?_⟩ hk
  · exact fun b act t hb he ht => ht.suffix (history_suffix hb he)
  · rintro b act t hb hsteady he ht ⟨hstrays, hp⟩
    refine ⟨step_strayless hsteady he hstrays, fun message hin => ?_⟩
    have hsuffix := history_suffix hb he
    have hmono := hsuffix.sublist.countP_le (p := Event.isEnqueued k)
    rcases step_logs he hin with hin | hlogs
    · exact (hp message hin).trans_le hmono
    · have hheld := (ht.suffix hsuffix).sender hb hstrays hlogs
      have hle := worker_holds_le b k
      have howned := (reachable_ledger hb k).owned
      omega
  · simp [ActionBroker.initial, BrokerState.initial]

end Holders

section Queue
variable {config : Config} {b t : ActionBroker} {act : Act} {k l : ℕ}

inductive QueueMoves (b t : ActionBroker) : Prop
  | kept : t.state.queue = b.state.queue →
    (∀ k, (t.worker.footprint k).holds ≤ (b.worker.footprint k).holds) → QueueMoves b t
  | popped (job : Job) : b.worker = .idle → b.state.queue = job :: t.state.queue →
    t.worker = .lookup job → QueueMoves b t
  | pushed (n : ℕ) (pc : CallPc) (job : Job) : b.calls[n]? = some pc →
    (pc = .push job ∨ ∃ id, pc = .requeue id job) → t.state.queue = b.state.queue ++ [job] →
    t.worker = b.worker → QueueMoves b t

theorem callStep_queue {n : ℕ} {s : BrokerState} {pc : CallPc} {next : BrokerState × CallPc}
    (he : callStep config n s pc = some next) : next.1.queue = s.queue ∨
      ∃ job, (pc = .push job ∨ ∃ id, pc = .requeue id job) ∧ next.1.queue = s.queue ++ [job] := by
  cases callStep_cases he with
  | enqueued job => exact Or.inr ⟨job, Or.inl rfl, rfl⟩
  | requeued id job => exact Or.inr ⟨job, Or.inr ⟨id, rfl⟩, rfl⟩
  | closing c _ _ hs | closed c _ hs =>
    have hc := (Closing.step_queue s c).2.2
    rw [hs] at hc
    exact Or.inl hc
  | _ => exact Or.inl rfl

theorem workerStep_queue {s : BrokerState} {pc : WorkerPc} {next : BrokerState × WorkerPc}
    (he : workerStep config s pc = some next) :
    (next.1.queue = s.queue ∧ ∀ k, (next.2.footprint k).holds ≤ (pc.footprint k).holds) ∨
      ∃ job, pc = .idle ∧ s.queue = job :: next.1.queue ∧ next.2 = .lookup job := by
  cases workerStep_cases he with
  | popped job rest hq => exact Or.inr ⟨job, rfl, hq, rfl⟩
  | closing c d t hs | closed c t hs =>
    left
    have hq := (Closing.step_queue s c).2.2
    have htakes := fun k => (Closing.step_takes s c k).1
    rw [hs] at hq htakes
    exact ⟨hq, htakes⟩
  | _ =>
    refine Or.inl ⟨rfl, fun k => ?_⟩
    simp [WorkerPc.footprint, Closing.footprint, Job.conclude, Job.panic, Job.close, ofKey]

theorem step_queue (he : step config b act = some t) : QueueMoves b t := by
  have hkept : ∀ {t : ActionBroker}, t.state.queue = b.state.queue → t.worker = b.worker → QueueMoves b t :=
    fun hq hw => .kept hq (fun k => by rw [hw])
  apply step_elim (P := QueueMoves b) he
  case call => exact fun request _ => hkept (enter_named b.state request).2.2.1 rfl
  case proceed =>
    intro n pc next _ hpc hn
    rcases callStep_queue hn with hq | ⟨job, hjob, hq⟩
    · exact hkept hq rfl
    · exact .pushed n pc job hpc hjob hq rfl
  case worker =>
    intro next _ hn
    rcases workerStep_queue hn with ⟨hq, hheld⟩ | ⟨job, hw, hq, hnext⟩
    · exact .kept hq hheld
    · exact .popped job hw hq hnext
  case runtime =>
    intro a next _ hn
    obtain ⟨job, cell, run, effect, hw, -, rfl⟩ := runtimeStep_cases hn
    exact .kept (emit_queue _ _ _).2.2 (fun k => by rw [hw]; exact Nat.le_refl _)
  case unwind =>
    intro next _ hn
    obtain ⟨job, cell, run, hw, -, rfl⟩ := unwindStep_cases hn
    exact .kept rfl (fun k => by rw [hw]; exact Nat.le_refl _)
  case stray =>
    intro index elapsed stray next _ _ hn
    obtain ⟨effect, -, rfl⟩ := Option.map_eq_some_iff.mp hn
    exact hkept (emit_queue _ _ _).2.2 rfl
  case sweeper => exact fun order next _ hn => hkept (sweeperStep_queue hn).2.2.1 rfl
  case receiver =>
    intro key drops next hn
    cases receiverStep_cases hn <;> exact hkept rfl rfl
  case tick => exact fun _ => hkept rfl rfl
  case drop => exact fun _ _ => hkept rfl rfl
  case dropping =>
    intro next hn
    cases dropStep_cases hn <;> exact hkept rfl rfl

end Queue

section Submissions
variable {config : Config} {b t : ActionBroker} {act : Act} {n : ℕ} {job : Job}

/-- The call with this number made the session of this job, and nobody else submits on its
channel. -/
structure Submission (n : ℕ) (job : Job) (b : ActionBroker) : Prop where
  fresh : job.key < b.state.fresh
  sole : ∀ m pc, b.calls[m]? = some pc → 0 < (pc.footprint job.key).unborn →
    m = n ∧ (pc = .enqueue job ∨ pc = .push job)
  own : ∀ origin, .registered origin ∈ b.state.history → origin.key = job.key → origin = job

theorem submission_of_call (hb : Reachable (system config) b) (hn : b.calls[n]? = some (.enqueue job)) :
    Submission n job b := by
  have hledger := reachable_ledger hb job.key
  have hborn := hledger.born
  have hregistered := hledger.registered
  have hone := one_le (decide (job.key < b.state.fresh))
  have hown : (CallPc.footprint job.key (.enqueue job)).unborn = 1 ∧
      (CallPc.footprint job.key (.enqueue job)).unregistered = 1 := by
    simp [CallPc.footprint, ofKey]
  obtain ⟨rest, hsum, -⟩ := exists_frame (CallPc.footprint job.key) hn
  simp only [ActionBroker.footprint, hsum, Footprint.add_unborn, Footprint.add_unregistered] at hborn hregistered
  refine ⟨?_, ?_, ?_⟩
  · by_contra hlt
    rw [decide_eq_false hlt, one_false] at hborn
    omega
  · intro m pc hm hpos
    by_cases hmn : m = n
    · subst hmn
      cases hn.symm.trans hm
      exact ⟨rfl, Or.inl rfl⟩
    · obtain ⟨others, hsums⟩ := exists_frame_two (CallPc.footprint job.key) hmn hm hn
      have htotal := congrArg Footprint.unborn (hsum.symm.trans hsums)
      simp only [Footprint.add_unborn] at htotal
      omega
  · intro origin ho hkey
    have hpos : 0 < b.state.history.countP (Event.isRegistered job.key) :=
      List.countP_pos_iff.mpr ⟨_, ho, by simp [ofKey, hkey]⟩
    omega

theorem step_submission (he : step config b act = some t) (h : Submission n job b) :
    Submission n job t := by
  refine ⟨h.fresh.trans_le (step_forward he).fresh, ?_, ?_⟩
  · intro m pc hm hpos
    rcases step_calls he with hsame | ⟨request, hadd⟩ | ⟨i, old, next, -, hold, hn, -, hset⟩
    · exact h.sole m pc (hsame ▸ hm) hpos
    · rw [hadd] at hm
      by_cases hlt : m < b.calls.length
      · exact h.sole m pc ((List.getElem?_append_left hlt).symm.trans hm) hpos
      · rw [List.getElem?_append_right (by omega)] at hm
        have hpc := List.mem_singleton.mp (List.mem_of_getElem? hm)
        rw [hpc] at hpos
        exact absurd ((enter_takes b.state request job.key).2 hpos) h.fresh.ne
    · rw [hset] at hm
      by_cases him : i = m
      · subst him
        have hlt := (List.getElem?_eq_some_iff.mp hold).1
        rw [List.getElem?_set_self hlt] at hm
        cases hm
        obtain ⟨rfl, hpc⟩ := h.sole i old hold (hpos.trans_le (callStep_takes hn).2)
        refine ⟨rfl, ?_⟩
        rcases hpc with rfl | rfl
        · cases callStep_cases hn with
          | refused => simp [CallPc.footprint] at hpos
          | registered => exact Or.inr rfl
        · cases callStep_cases hn <;> simp [CallPc.footprint] at hpos
      · rw [List.getElem?_set_ne him] at hm
        exact h.sole m pc hm hpos
  · intro origin ho hkey
    rcases step_logs he ho with ho | hlogs
    · exact h.own origin ho hkey
    · obtain ⟨m, pc, -, hm, hlogs⟩ := hlogs.by_call rfl
      cases hlogs with
      | registered =>
        obtain ⟨-, hpc | hpc⟩ := h.sole m _ hm (by simp [CallPc.footprint, ofKey, hkey])
        · exact CallPc.enqueue.inj hpc
        · cases hpc
      | closing c event hc => cases hc

theorem runs_submission {ok : ActionBroker → Act → Prop} (hr : Runs (system config) ok b t)
    (h : Submission n job b) : Submission n job t :=
  Runs.invariant (P := Submission n job) (fun _ _ _ _ he hs => step_submission he hs) hr h

theorem Submission.direct (h : Submission n job b) (hrisk : ¬ Risky job.request) :
    Direct job.key b.state.history := by
  intro origin ho hkey
  rwa [h.own origin ho hkey]

theorem step_done {result : Except BrokerError Unit} (he : step config b act = some t)
    (h : b.calls[n]? = some (.done result)) : t.calls[n]? = some (.done result) := by
  have hlt := (List.getElem?_eq_some_iff.mp h).1
  rcases step_calls he with hsame | ⟨request, hadd⟩ | ⟨i, old, next, -, hold, hn, -, hset⟩
  · rwa [hsame]
  · rwa [hadd, List.getElem?_append_left hlt]
  · by_cases hin : i = n
    · subst hin
      cases h.symm.trans hold
      cases hn
    · rwa [hset, List.getElem?_set_ne hin]

end Submissions

section Order
variable {config : Config} {b t : ActionBroker} {act : Act} {k l : ℕ}

structure Finished (k : ℕ) (b : ActionBroker) : Prop where
  queue : ∀ job ∈ b.state.queue, job.key ≠ k
  worker : (b.worker.footprint k).holds = 0

/-- Nothing was sent to the session `l`, which is not ahead of `k` on the queue. -/
structure Behind (k l : ℕ) (b : ActionBroker) : Prop where
  unsent : ∀ message, .sent l message ∉ b.state.history
  worker : (b.worker.footprint l).holds = 0
  queue : b.state.queue.Pairwise (fun ahead job => ahead.key = l → job.key ≠ k)

def Sequenced (k l : ℕ) (history : List Event) : Prop :=
  ∀ later message past message', history = later ++ .sent l message :: past → .sent k message' ∉ later

/-- What both sessions rely on: neither needs an approval, no reader was left behind, and the
first is not about to be submitted. -/
structure Orderly (k l : ℕ) (b : ActionBroker) : Prop where
  first : Direct k b.state.history
  second : Direct l b.state.history
  strays : b.strays = []
  submitted : ∀ pc ∈ b.calls, (pc.footprint k).unborn = 0

/-- The queue is first in, first out: the second session gets its turn when the first is done. -/
theorem step_inTurn (hb : Reachable (system config) b) (ho : Orderly k l b) (hne : k ≠ l)
    (he : step config b act = some t) (h : Finished k b ∨ Behind k l b) :
    Finished k t ∨ Behind k l t := by
  have hunsent : Behind k l b → ∀ message, .sent l message ∉ t.state.history := by
    intro hbehind message hin
    rcases step_logs he hin with hin | hlogs
    · exact hbehind.unsent message hin
    · have hheld := ho.second.sender hb ho.strays hlogs
      rw [hbehind.worker] at hheld
      exact absurd hheld (Nat.lt_irrefl 0)
  cases step_queue he with
  | kept hq hheld =>
    rcases h with hfinished | hbehind
    · exact Or.inl ⟨hq ▸ hfinished.queue, Nat.le_zero.mp (hfinished.worker ▸ hheld k)⟩
    · exact Or.inr ⟨hunsent hbehind, Nat.le_zero.mp (hbehind.worker ▸ hheld l), hq ▸ hbehind.queue⟩
  | popped job _ hq hlookup =>
    have hheld : ∀ {key}, job.key ≠ key → (t.worker.footprint key).holds = 0 := by
      intro key hkey
      simp [hlookup, WorkerPc.footprint, ofKey, beq_eq_false_iff_ne.mpr hkey]
    rcases h with hfinished | hbehind
    · have hqueue := hfinished.queue
      rw [hq] at hqueue
      obtain ⟨hkey, hrest⟩ := List.forall_mem_cons.mp hqueue
      exact Or.inl ⟨hrest, hheld hkey⟩
    · have hqueue := hbehind.queue
      rw [hq] at hqueue
      obtain ⟨hahead, hrest⟩ := List.pairwise_cons.mp hqueue
      by_cases hkey : job.key = l
      · exact Or.inl ⟨fun other hin => hahead other hin hkey, hheld (hkey ▸ hne.symm)⟩
      · exact Or.inr ⟨hunsent hbehind, hheld hkey, hrest⟩
  | pushed n pc job hpc hjob hq hw =>
    have hmem := List.mem_of_getElem? hpc
    have hkey : job.key ≠ k := by
      rintro rfl
      rcases hjob with rfl | ⟨id, rfl⟩
      · have hunborn := ho.submitted _ hmem
        simp [CallPc.footprint, ofKey] at hunborn
      · have hheld := (ho.first.held hb).2.1 _ hmem
        simp [CallPc.footprint, ofKey] at hheld
    rcases h with hfinished | hbehind
    · refine Or.inl ⟨?_, hw ▸ hfinished.worker⟩
      rw [hq]
      intro other hin
      rcases List.mem_append.mp hin with hin | hin
      · exact hfinished.queue other hin
      · rwa [List.mem_singleton.mp hin]
    · refine Or.inr ⟨hunsent hbehind, hw ▸ hbehind.worker, ?_⟩
      rw [hq]
      refine List.pairwise_append.mpr ⟨hbehind.queue, List.pairwise_singleton _ _, ?_⟩
      intro ahead _ other hin _
      rwa [List.mem_singleton.mp hin]

theorem step_sequenced (hb : Reachable (system config) b) (ho : Orderly k l b)
    (he : step config b act = some t) (hturn : Finished k b ∨ Behind k l b)
    (h : Sequenced k l b.state.history) : Sequenced k l t.state.history := by
  intro later message past message' hh hin
  rcases (step_logged he).split hh with ⟨recent, rest, rfl, hrecent, hpast⟩ | ⟨hlogs, hlater⟩
  · rcases List.mem_append.mp hin with hin | hin
    · -- whoever sends to the first session still holds it, so the second has to wait
      have hheld := ho.first.sender hb ho.strays (hrecent _ hin)
      rcases hturn with hfinished | hbehind
      · exact absurd hfinished.worker hheld.ne'
      · exact hbehind.unsent message (by rw [hpast]; simp)
    · exact h rest message past message' hpast hin
  · have hfirst := ho.first.sender hb ho.strays (hlater _ hin)
    have hsecond := ho.second.sender hb ho.strays hlogs
    rcases hturn with hfinished | hbehind
    · exact absurd hfinished.worker hfirst.ne'
    · exact absurd hbehind.worker hsecond.ne'

theorem behind_of_call (hb : Reachable (system config) b) {n : ℕ} {job : Job}
    (hn : b.calls[n]? = some (.enqueue job)) (hsent : ∀ message, .sent job.key message ∈ b.state.history →
      0 < b.state.history.countP (Event.isEnqueued job.key)) : Behind k job.key b := by
  have hledger := reachable_ledger hb job.key
  have hborn := hledger.born_le
  have howned := hledger.owned
  have hown : (CallPc.footprint job.key (.enqueue job)).unborn = 1 := by
    simp [CallPc.footprint, ofKey]
  obtain ⟨rest, hsum, -⟩ := exists_frame (CallPc.footprint job.key) hn
  simp only [ActionBroker.footprint, hsum, Footprint.add_unborn] at hborn
  have hworker := worker_holds_le b job.key
  have hnone : b.state.queue.countP (ofKey job.key) = 0 := by omega
  refine ⟨?_, by omega, List.pairwise_of_forall_mem_list ?_⟩
  · intro message hin
    have hpos := hsent message hin
    omega
  · intro ahead hin _ _ hkey
    exact absurd (by simpa [ofKey] using hkey) (List.countP_eq_zero.mp hnone ahead hin)

theorem key_of_call {request : Request} {job : Job} (he : step config b (.call request) = some t)
    (hm : t.calls[b.calls.length]? = some (.enqueue job)) : job.key = b.state.fresh := by
  simp only [step, Option.ite_none_right_eq_some, Option.some.injEq] at he
  obtain ⟨-, rfl⟩ := he
  have henter : (enter b.state request).2 = .enqueue job := by simpa using hm
  refine (enter_takes b.state request job.key).2 ?_
  simp [henter, CallPc.footprint, ofKey]

structure SubmittedInOrder (n m : ℕ) (first second : Job) (b : ActionBroker) : Prop where
  strays : b.strays = []
  earlier : Submission n first b
  returned : ∃ result, b.calls[n]? = some (.done result)
  later : Submission m second b
  turn : Finished first.key b ∨ Behind first.key second.key b
  sequenced : Sequenced first.key second.key b.state.history

theorem step_submittedInOrder {n m : ℕ} {first second : Job} (hfirst : ¬ Risky first.request)
    (hsecond : ¬ Risky second.request) (hne : first.key ≠ second.key) (hb : Reachable (system config) b)
    (hsteady : Steady b act) (he : step config b act = some t) (h : SubmittedInOrder n m first second b) :
    SubmittedInOrder n m first second t := by
  obtain ⟨result, hdone⟩ := h.returned
  have ho : Orderly first.key second.key b := by
    refine ⟨h.earlier.direct hfirst, h.later.direct hsecond, h.strays, ?_⟩
    intro pc hpc
    obtain ⟨i, hi⟩ := List.mem_iff_getElem?.mp hpc
    by_contra hunborn
    obtain ⟨rfl, hsubmitting⟩ := h.earlier.sole i pc hi (Nat.pos_of_ne_zero hunborn)
    cases hdone.symm.trans hi
    rcases hsubmitting with hpc | hpc <;> cases hpc
  exact ⟨step_strayless hsteady he h.strays, step_submission he h.earlier, ⟨result, step_done he hdone⟩,
    step_submission he h.later, step_inTurn hb ho hne he h.turn, step_sequenced hb ho he h.turn h.sequenced⟩

end Order

/-- The session of `first` was submitted, and the call had returned when the submission of
`second` was called; since then the broker went on to this state, and no run unwound. -/
def Successive (config : Config) (first second : Job) (d : ActionBroker) : Prop :=
  ∃ (a b c : ActionBroker) (n : ℕ) (result : Except BrokerError Unit) (request : Request),
    Runs (system config) Steady .initial a ∧ a.calls[n]? = some (.enqueue first) ∧
    Runs (system config) Steady a b ∧ b.calls[n]? = some (.done result) ∧
    step config b (.call request) = some c ∧ c.calls[b.calls.length]? = some (.enqueue second) ∧
    Runs (system config) Steady c d

theorem Successive.sequenced {config : Config} {first second : Job} {d : ActionBroker}
    (h : Successive config first second d) (hfirst : ¬ Risky first.request)
    (hsecond : ¬ Risky second.request) : Sequenced first.key second.key d.state.history := by
  obtain ⟨a, b, c, n, result, request, ha, hn, hab, hdone, he, hm, hcd⟩ := h
  have hsub := runs_submission hab (submission_of_call ha.free hn)
  have hc : Runs (system config) Steady .initial c :=
    Runs.step (a := .call request) (ha.trans hab) (by simp [Steady]) he
  have hnext := submission_of_call hc.free hm
  have hne : first.key ≠ second.key := by
    rw [key_of_call he hm]
    exact hsub.fresh.ne
  obtain ⟨hstrays, hsent⟩ := enqueued_of_sent hc (hnext.direct hsecond)
  have hbehind : Behind first.key second.key c := behind_of_call hc.free hm hsent
  have horder : SubmittedInOrder n b.calls.length first second c := by
    refine ⟨hstrays, step_submission he hsub, ⟨result, step_done he hdone⟩, hnext, Or.inr hbehind, ?_⟩
    intro later message past message' hh
    exact absurd (by rw [hh]; simp) (hbehind.unsent message)
  have hd := Runs.invariant_of_reachable (P := SubmittedInOrder n b.calls.length first second)
    (fun b act t hb hsteady he hp => step_submittedInOrder hfirst hsecond hne hb hsteady he hp) hcd hc.free horder
  exact hd.sequenced

/-- Sessions execute one at a time, each ended before the next begins; and of two sessions
that need no approval, the one whose submission had returned when the other's was called is
sent all its messages before the other is sent any. -/
theorem sessions_run_in_submission_order :
    (∀ (config : Config) (b : ActionBroker) (first second : Job) later mid past,
      Runs (system config) Steady .initial b →
      b.state.history = later ++ .executed second :: (mid ++ .executed first :: past) →
        Ended first.key mid) ∧
    ∀ (config : Config) (d : ActionBroker) (first second : Job) later past message message',
      Successive config first second d → classifyRisk first.request = .autoApprove →
      classifyRisk second.request = .autoApprove →
      d.state.history = later ++ .sent second.key message :: past →
        .sent first.key message' ∉ later := by
  refine ⟨?_, ?_⟩
  · intro config b first second later mid past hb hh
    have hsplit := reachable_oneByOne hb.free
    rw [hh] at hsplit
    exact hsplit.split mid first past rfl
  · intro config d first second later past message message' hd hfirst hsecond hh
    have hsafe : ∀ {request : CommandRequest}, classifyRisk request = .autoApprove → ¬ Risky request := by
      rintro request hauto ⟨reason, hrisk⟩
      cases hauto.symm.trans hrisk
    exact hd.sequenced (hsafe hfirst) (hsafe hsecond) later message past message' hh

def firstJob : Job := newJob true ⟨false⟩ (sampleRequest 1 .read defaultLimits) 0

def secondRequest : Request := .submit true ⟨false⟩ (sampleRequest 2 .read defaultLimits)

def secondJob : Job := newJob true ⟨false⟩ (sampleRequest 2 .read defaultLimits) 1

def firstThenSecond : List Act := ([.proceed 1, .proceed 1, .worker, .worker, .worker, .worker,
    .runtime .main, .runtime (.build sampleHost), .runtime .main, .runtime .instantiated,
    .runtime (.write .stdout [111]), .runtime (.guestEnd .success), .runtime .main, .runtime .main] : List Act) ++
  List.replicate 7 (Act.runtime (.watch false)) ++ ([.runtime .main, .runtime .main] : List Act) ++
  List.replicate 5 Act.worker

theorem two_streams_in_order : ∃ (e f : ActionBroker) (mid past later past' : List Event) (message : Message),
    e.state.history = .executed secondJob :: (mid ++ .executed firstJob :: past) ∧
    Ended firstJob.key mid ∧ f.state.history = later ++ .sent secondJob.key message :: past' ∧
      ∀ message', .sent firstJob.key message' ∉ later := by
  have hreplay : ∃ a b c d e f : ActionBroker,
      (system sampleConfig).replay Steady .initial
        [.call (.submit true ⟨false⟩ (sampleRequest 1 .read defaultLimits))] = some a ∧
      a.calls[0]? = some (.enqueue firstJob) ∧
      (system sampleConfig).replay Steady a [.proceed 0, .proceed 0] = some b ∧
      b.calls[0]? = some (.done (.ok ())) ∧
      step sampleConfig b (.call secondRequest) = some c ∧
      c.calls[b.calls.length]? = some (.enqueue secondJob) ∧
      (system sampleConfig).replay Steady c firstThenSecond = some d ∧
      d.state.history[5]? = some (.executed firstJob) ∧
      (system sampleConfig).replay Steady d [.worker] = some e ∧
      e.state.history = .executed secondJob :: d.state.history ∧
      (system sampleConfig).replay Steady e [.worker, .worker] = some f ∧
      f.state.history = .invoked 1 :: .sent 1 (.event .started) :: e.state.history :=
    ⟨_, _, _, _, _, _, rfl, rfl, rfl, rfl, rfl, rfl, rfl, rfl, rfl, rfl, rfl, rfl⟩
  obtain ⟨a, b, c, d, e, f, ha, hfirst, hb, hdone, hc, hsecond, hd, hexecuted, he, hnext, hf, hstarted⟩ := hreplay
  have ha := System.replay_runs _ Steady ha
  have hb := System.replay_runs _ Steady hb
  have hce := (System.replay_runs _ Steady hd).trans (System.replay_runs _ Steady he)
  have hcf := hce.trans (System.replay_runs _ Steady hf)
  have hcalled : Runs (system sampleConfig) Steady .initial c :=
    Runs.step (a := .call secondRequest) (ha.trans hb) (by simp [Steady]) hc
  obtain ⟨mid, past, hsplit⟩ := List.append_of_mem (List.mem_of_getElem? hexecuted)
  rw [hsplit] at hnext
  refine ⟨e, f, mid, past, [.invoked 1], e.state.history, .event .started, hnext, ?_, hstarted, ?_⟩
  · exact sessions_run_in_submission_order.1 _ e _ _ [] mid past (hcalled.trans hce) hnext
  · intro message'
    exact sessions_run_in_submission_order.2 _ f _ _ [.invoked 1] e.state.history (.event .started) message'
      ⟨a, b, c, 0, _, _, ha, hfirst, hb, hdone, hc, hsecond, hcf⟩ rfl rfl hstarted

end FerrousRuntime.Broker
