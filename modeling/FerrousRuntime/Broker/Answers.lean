import FerrousRuntime.Broker.Deciders

/-! # What an answer stands for

A call that was answered `Ok` did what it was made for: the session it submitted was put
on the queue, the session it decided on was taken out of `pending` by this call alone, one that
it approved was put back on the queue as approved, and one that it closed was told so and
recorded. Deciders race, but for each session one wins.
-/
namespace FerrousRuntime.Broker
open Tally Transition Command FerrousRuntime.Runtime

/-- The call with this number was made with this request. -/
def Called (config : Config) (n : ℕ) (request : Request) (b : ActionBroker) : Prop :=
  ∃ d t, Reachable (system config) d ∧ d.calls.length = n ∧ step config d (.call request) = some t ∧
    Runs (system config) Free t b

/-- A session that was taken is told how it ended, and that is recorded. -/
structure ClosedAs (history : List Event) (job : Job) (terminal : Terminal) (decision : ApprovalDecision)
    (outcome : AuditOutcome) : Prop where
  sent : .sent job.key (terminalMessage job.sink terminal) ∈ history
  recorded : .recorded job.key (job.entry job.id decision outcome) ∈ history

/-- The job that this call had taken was put back on the queue, as approved. -/
def Requeued (config : Config) (n : ℕ) (b : ActionBroker) (job : Job) : Prop :=
  ∃ c, Reachable (system config) c ∧ Runs (system config) Free c b ∧
    .took (.approve n) job ∈ c.state.history ∧ job.admit ∈ c.state.queue

/-- What the call with this number has done once its request is answered `Ok`, where these jobs
were put back on the queue. -/
inductive Request.Kept (n : ℕ) (history : List Event) (requeued : Job → Prop) : Request → Prop
  | submitted (streaming : Bool) (component : Component) (request : CommandRequest) (key : ℕ) :
    .enqueued (newJob streaming component request key) ∈ history →
    Kept n history requeued (.submit streaming component request)
  | approved (job : Job) : .took (.approve n) job ∈ history → requeued job →
    Kept n history requeued (.approve job.id)
  | approvedCancelled (job : Job) : .took (.approve n) job ∈ history →
    ClosedAs history job .cancelled .cancelled .cancelled → Kept n history requeued (.approve job.id)
  | denied (job : Job) : .took (.deny n) job ∈ history → ClosedAs history job .denied .denied .denied →
    Kept n history requeued (.deny job.id)
  | cancelled (job : Job) : .took (.cancel n) job ∈ history →
    ClosedAs history job .cancelled .cancelled .cancelled → Kept n history requeued (.cancel job.id)
  | flagged (id cell : ℕ) : HandleOf history id cell → .flagged cell ∈ history →
    Kept n history requeued (.cancel id)

/-- Where a call stands that was made with the request. -/
inductive CallPc.Follows (n : ℕ) (history : List Event) (requeued : Job → Prop) : Request → CallPc → Prop
  | enqueue (streaming : Bool) (component : Component) (request : CommandRequest) (key : ℕ) :
    Follows n history requeued (.submit streaming component request)
      (.enqueue (newJob streaming component request key))
  | push (streaming : Bool) (component : Component) (request : CommandRequest) (key : ℕ) :
    Follows n history requeued (.submit streaming component request)
      (.push (newJob streaming component request key))
  | approve (id : ℕ) : Follows n history requeued (.approve id) (.approve id)
  | deny (id : ℕ) : Follows n history requeued (.deny id) (.deny id)
  | cancel (id : ℕ) : Follows n history requeued (.cancel id) (.cancel id)
  | checkCancelled (job : Job) : .took (.approve n) job ∈ history →
    Follows n history requeued (.approve job.id) (.checkCancelled job.id job)
  | requeue (job : Job) : .took (.approve n) job ∈ history →
    Follows n history requeued (.approve job.id) (.requeue job.id job.admit)
  | lookup (id : ℕ) : Follows n history requeued (.cancel id) (.lookup id)
  | setFlag (id cell : ℕ) : HandleOf history id cell → Follows n history requeued (.cancel id) (.setFlag cell)
  | closing (request : Request) (c : Closing) : (∀ later, history ⊆ later → .sent c.key c.message ∈ later →
      .recorded c.key c.entry ∈ later → ∀ onQueue, request.Kept n later onQueue) →
    Follows n history requeued request (.closing c)
  | unregister (request : Request) (id : ℕ) : Follows n history requeued request (.unregister id)
  | refused (request : Request) (error : BrokerError) : Follows n history requeued request (.done (.error error))
  | answered (request : Request) : request.Kept n history requeued →
    Follows n history requeued request (.done (.ok ()))

section Calls
variable {config : Config} {n : ℕ} {s : BrokerState} {request : Request} {history history' : List Event}
  {requeued requeued' : Job → Prop}

theorem ClosedAs.mono {job : Job} {terminal : Terminal} {decision : ApprovalDecision} {outcome : AuditOutcome}
    (h : ClosedAs history job terminal decision outcome) (hsub : history ⊆ history') :
    ClosedAs history' job terminal decision outcome :=
  ⟨hsub h.sent, hsub h.recorded⟩

theorem Request.Kept.mono (h : request.Kept n history requeued) (hsub : history ⊆ history')
    (hrequeued : ∀ job, requeued job → requeued' job) : request.Kept n history' requeued' := by
  cases h with
  | submitted streaming component request key hin => exact .submitted streaming component request key (hsub hin)
  | approved job htook hjob => exact .approved job (hsub htook) (hrequeued _ hjob)
  | approvedCancelled job htook hclosed => exact .approvedCancelled job (hsub htook) (hclosed.mono hsub)
  | denied job htook hclosed => exact .denied job (hsub htook) (hclosed.mono hsub)
  | cancelled job htook hclosed => exact .cancelled job (hsub htook) (hclosed.mono hsub)
  | flagged id cell hhandle hin => exact .flagged id cell (hhandle.mono hsub) (hsub hin)

theorem CallPc.Follows.mono {pc : CallPc} (h : pc.Follows n history requeued request)
    (hsub : history ⊆ history') (hrequeued : ∀ job, requeued job → requeued' job) :
    pc.Follows n history' requeued' request := by
  cases h with
  | checkCancelled job htook => exact .checkCancelled job (hsub htook)
  | requeue job htook => exact .requeue job (hsub htook)
  | setFlag id cell hhandle => exact .setFlag id cell (hhandle.mono hsub)
  | closing _ c hkept => exact .closing request c (fun later hlater => hkept later (List.Subset.trans hsub hlater))
  | answered _ hkept => exact .answered request (hkept.mono hsub hrequeued)
  | _ => constructor

theorem kept_of_closed {job : Job} {terminal : Terminal} {decision : ApprovalDecision}
    {outcome : AuditOutcome} {later : List Event}
    (hsent : .sent (job.close job.id terminal decision outcome).key
      (job.close job.id terminal decision outcome).message ∈ later)
    (hrecorded : .recorded (job.close job.id terminal decision outcome).key
      (job.close job.id terminal decision outcome).entry ∈ later) :
    ClosedAs later job terminal decision outcome :=
  ⟨hsent, hrecorded⟩

theorem enter_follows (n : ℕ) (s : BrokerState) (requeued : Job → Prop) (request : Request) :
    (enter s request).2.Follows n (enter s request).1.history requeued request := by
  have hn := enter_cases s request
  generalize enter s request = next at hn
  cases hn with
  | invalid streaming component request error => exact .refused _ _
  | notWasi streaming component request => exact .refused _ _
  | submitted streaming component request => exact .enqueue streaming component request s.fresh
  | approving id => exact .approve id
  | denying id => exact .deny id
  | cancelling id => exact .cancel id

/-- A step of the call takes it on; what it knows comes from the maps and from its closing. -/
theorem callStep_follows {pc : CallPc} {next : BrokerState × CallPc}
    (h : pc.Follows n s.history requeued request) (he : callStep config n s pc = some next)
    (hrequeue : ∀ job, .took (.approve n) job ∈ next.1.history → job.admit ∈ next.1.queue → requeued' job)
    (hpending : ∀ id parked, s.pending.lookup id = some parked → parked.job.id = id)
    (hhandles : ∀ id cell, s.handles.lookup id = some cell → HandleOf s.history id cell)
    (hclosing : ∀ c, pc = .closing c → c.Sound s.history) :
    next.2.Follows n next.1.history requeued' request := by
  cases callStep_cases he with
  | refused job => exact .refused _ _
  | registered job =>
    cases h with
    | enqueue streaming component request key => exact .push streaming component request key
  | enqueued job =>
    cases h with
    | push streaming component request key =>
      exact .answered _ (.submitted streaming component request key List.mem_cons_self)
  | unserved job => exact .unregister _ _
  | unregistered id => exact .refused _ _
  | approveMissed id => exact .refused _ _
  | approved id parked hl =>
    cases h
    cases hpending id parked hl
    exact .checkCancelled parked.job List.mem_cons_self
  | sawCancelled id job =>
    cases h with
    | checkCancelled _ htook =>
      exact .closing _ _ (fun later hlater hsent hrecorded _ =>
        .approvedCancelled job (hlater (List.mem_cons_of_mem _ htook)) (kept_of_closed hsent hrecorded))
  | admitted id job =>
    cases h with
    | checkCancelled _ htook => exact .requeue job htook
  | requeued id job =>
    cases h with
    | requeue job htook => exact .answered _ (.approved job htook (hrequeue job htook (by simp)))
  | stranded id job => exact .unregister _ _
  | denyMissed id => exact .refused _ _
  | denied id parked hl =>
    cases h
    cases hpending id parked hl
    exact .closing _ _ (fun later hlater hsent hrecorded _ =>
      .denied parked.job (hlater List.mem_cons_self) (kept_of_closed hsent hrecorded))
  | cancelMissed id =>
    cases h
    exact .lookup id
  | cancelled id parked hl =>
    cases h
    cases hpending id parked hl
    exact .closing _ _ (fun later hlater hsent hrecorded _ =>
      .cancelled parked.job (hlater List.mem_cons_self) (kept_of_closed hsent hrecorded))
  | unknown id => exact .refused _ _
  | found id cell hl =>
    cases h
    exact .setFlag id cell (hhandles id cell hl)
  | flagged cell =>
    cases h with
    | setFlag id cell hhandle =>
      exact .answered _ (.flagged id cell (hhandle.mono (List.subset_cons_self _ _)) List.mem_cons_self)
  | closing c d t hs =>
    cases h with
    | closing _ _ hkept =>
      have hsub := (Closing.step_history s c).subset
      obtain ⟨hkey, hmessage, hentry, -⟩ := (Closing.step_advances hs).kept
      rw [hs] at hsub
      refine .closing _ d (fun later hlater hsent hrecorded => ?_)
      rw [hkey, hmessage] at hsent
      rw [hkey, hentry] at hrecorded
      exact hkept later (List.Subset.trans hsub hlater) hsent hrecorded
  | closed c t hs =>
    cases h with
    | closing _ _ hkept =>
      have hsound := hclosing c rfl
      have hstage : c.stage = .release := by
        unfold Closing.step at hs
        split at hs <;> first | assumption | cases hs
      have hsub := (Closing.step_history s c).subset
      rw [hs] at hsub
      exact .answered _ (hkept t.history hsub (hsub (hsound.sent (by simp [hstage])))
        (hsub (hsound.recorded hstage)) requeued')

end Calls

section Runs
variable {config : Config} {b t : ActionBroker} {act : Act} {n m : ℕ} {request : Request}

def Made (config : Config) (n : ℕ) (request : Request) (b : ActionBroker) : Prop :=
  ∃ pc, b.calls[n]? = some pc ∧ pc.Follows n b.state.history (Requeued config n b) request

theorem Requeued.step {job : Job} (h : Requeued config n b job) (he : step config b act = some t) :
    Requeued config n t job := by
  obtain ⟨c, hc, hruns, hjob⟩ := h
  exact ⟨c, hc, hruns.step trivial he, hjob⟩

theorem step_made (hb : Reachable (system config) b) (he : step config b act = some t)
    (h : Made config n request b) : Made config n request t := by
  obtain ⟨pc, hpc, hfollows⟩ := h
  have ht : Reachable (system config) t := hb.step (a := act) he
  have hrequeued : ∀ job, Requeued config n b job → Requeued config n t job := fun _ hjob => hjob.step he
  have hsub := (history_suffix hb he).subset
  have hlt := (List.getElem?_eq_some_iff.mp hpc).1
  rcases step_calls he with hsame | ⟨other, hadd⟩ | ⟨m, own, next, -, hown, hn, hstate, hset⟩
  · exact ⟨pc, by rw [hsame]; exact hpc, hfollows.mono hsub hrequeued⟩
  · exact ⟨pc, by rw [hadd, List.getElem?_append_left hlt]; exact hpc, hfollows.mono hsub hrequeued⟩
  · by_cases hmn : m = n
    · subst hmn
      cases hpc.symm.trans hown
      refine ⟨next.2, by rw [hset, List.getElem?_set_self hlt], ?_⟩
      have hg := (reachable_genuine hb).state
      rw [hstate]
      exact callStep_follows hfollows hn (fun job htook hjob => ⟨t, ht, .refl t, hstate ▸ htook, hstate ▸ hjob⟩)
        (fun id parked hl => (hg.pending id parked hl).1) hg.handles
        (fun c hc => reachable_closings hb _ c (.call m c (hc ▸ hpc)))
    · exact ⟨pc, by rw [hset, List.getElem?_set_ne hmn]; exact hpc, hfollows.mono hsub hrequeued⟩

theorem Called.made (h : Called config n request b) : Made config n request b := by
  obtain ⟨d, t, hd, hlength, he, hr⟩ := h
  refine Runs.invariant_of_reachable (P := Made config n request) (fun _ _ _ hb _ he hm => step_made hb he hm) hr
    (hd.step (a := .call request) he) ?_
  simp only [step, Option.ite_none_right_eq_some, Option.some.injEq] at he
  obtain ⟨-, rfl⟩ := he
  exact ⟨_, by simp [← hlength], enter_follows n d.state _ request⟩

theorem Called.reachable (h : Called config n request b) : Reachable (system config) b := by
  obtain ⟨d, t, hd, -, he, hr⟩ := h
  have hcalled : Reachable (system config) t := hd.step (a := .call request) he
  exact hcalled.runs hr

theorem Called.kept (h : Called config n request b) (hok : b.answer n = some (.ok ())) :
    request.Kept n b.state.history (Requeued config n b) := by
  obtain ⟨pc, hpc, hfollows⟩ := h.made
  simp only [ActionBroker.answer, hpc] at hok
  cases hfollows with
  | answered _ hkept => exact hkept
  | _ => simp at hok

def Request.decides (id : ℕ) : Request → Prop
  | .approve own | .deny own => own = id
  | _ => False

theorem Request.Kept.took {history : List Event} {requeued : Job → Prop} {id : ℕ}
    (h : request.Kept n history requeued) (hid : request.decides id) :
    ∃ decider job, .took decider job ∈ history ∧ decider.call = some n ∧ job.id = id := by
  cases h with
  | approved job htook => exact ⟨_, job, htook, rfl, hid⟩
  | approvedCancelled job htook => exact ⟨_, job, htook, rfl, hid⟩
  | denied job htook => exact ⟨_, job, htook, rfl, hid⟩
  | _ => exact hid.elim

theorem decider_unique (h : Reachable (system config) b) {decider other : Decider} {job taken : Job}
    (htook : .took decider job ∈ b.state.history) (hother : .took other taken ∈ b.state.history)
    (hkey : taken.key = job.key) : other = decider := by
  have heq := eq_of_countP_le_one (took_once h job.key) hother htook (by simp [ofKey, hkey])
    (by simp [ofKey])
  exact (Event.took.inj heq).1

theorem took_registered (h : Reachable (system config) b) {decider : Decider} {job : Job}
    (htook : .took decider job ∈ b.state.history) : HandleOf b.state.history job.id job.key := by
  obtain ⟨past, hpast, hw⟩ := (reachable_genuine h).state.warranted.of_mem (parked_of_took h htook)
  have hregistered : Registered past job := hw
  exact (hregistered.mono (List.Subset.trans (List.subset_cons_self _ _) hpast.subset)).handleOf

/-- Of all approvals and denials of one id, at most one is ever answered `Ok`. -/
theorem decisions_exclude_each_other {other : Request} {id : ℕ} (h : Called config n request b)
    (h' : Called config m other b) (hne : n ≠ m) (hid : request.decides id) (hid' : other.decides id)
    (hdistinct : DistinctIds b.state.history) (hok : b.answer n = some (.ok ())) :
    b.answer m ≠ some (.ok ()) := by
  intro hok'
  obtain ⟨decider, job, htook, hcall, hname⟩ := (h.kept hok).took hid
  obtain ⟨decider', job', htook', hcall', hname'⟩ := (h'.kept hok').took hid'
  obtain ⟨origin, ho, hown, hkey⟩ := took_registered h.reachable htook
  obtain ⟨origin', ho', hown', hkey'⟩ := took_registered h.reachable htook'
  have hsame : origin.key = origin'.key :=
    hdistinct.key_eq ho ho' (by rw [hown, hown', hname, hname'])
  have hdecider : decider' = decider :=
    decider_unique h.reachable htook htook' (by rw [← hkey', ← hsame, hkey])
  rw [hdecider, hcall] at hcall'
  exact hne (Option.some.inj hcall')

end Runs

def racedDecision : List Act := submission 0 1 false .readWrite ++ parking ++ ([.worker] : List Act)

@[simp] def Event.isEntry : Event → Bool
  | .recorded _ _ => true
  | _ => false

/-- Its denial is called before its approval takes it. -/
def approvalWins (b : ActionBroker) : Bool :=
  (step sampleConfig b (.call (.approve 1))).any (fun c =>
    decide (c.calls.length = 2) && (step sampleConfig c (.call (.deny 1))).any (fun d =>
      ((system sampleConfig).replay Free d [.proceed 1, .proceed 2, .proceed 1, .proceed 1]).any (fun t =>
        decide (t.answer 1 = some (.ok ()) ∧ DistinctIds t.state.history ∧
          t.state.history.countP Event.isEntry = 0))))

theorem raced_decision : ∃ b, Called sampleConfig 1 (.approve 1) b ∧ Called sampleConfig 2 (.deny 1) b ∧
    DistinctIds b.state.history ∧ b.answer 1 = some (.ok ()) ∧ b.state.history.countP Event.isEntry = 0 := by
  obtain ⟨b, hb, hlength, hrace⟩ := (system sampleConfig).reachable_of_replay
    (fun b => b.calls.length = 1 ∧ approvalWins b = true) racedDecision (by decide)
  obtain ⟨c, hc, hrace⟩ := (Option.any_eq_true _ _).mp hrace
  obtain ⟨hmore, hrace⟩ := (Bool.and_eq_true _ _).mp hrace
  obtain ⟨d, hd, hrace⟩ := (Option.any_eq_true _ _).mp hrace
  obtain ⟨t, ht, hrace⟩ := (Option.any_eq_true _ _).mp hrace
  obtain ⟨hok, hdistinct, hnone⟩ := of_decide_eq_true hrace
  have hrest := (system sampleConfig).replay_runs Free ht
  have hcalled : Reachable (system sampleConfig) c := hb.step (a := .call (.approve 1)) hc
  have hdenied : Runs (system sampleConfig) Free c d := (Runs.refl c).step (a := .call (.deny 1)) trivial hd
  exact ⟨t, ⟨b, c, hb, hlength, hc, hdenied.trans hrest⟩,
    ⟨c, d, hcalled, of_decide_eq_true hmore, hd, hrest⟩, hdistinct, hok, hnone⟩

theorem raced_denial_refused : ∃ b : ActionBroker, b.answer 1 = some (.ok ()) ∧ b.answer 2 ≠ some (.ok ()) := by
  obtain ⟨b, happrove, hdeny, hdistinct, hok, -⟩ := raced_decision
  exact ⟨b, hok, decisions_exclude_each_other happrove hdeny (by decide) rfl rfl hdistinct hok⟩

end FerrousRuntime.Broker
