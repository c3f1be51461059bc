import FerrousRuntime.Broker.QueueService
import FerrousRuntime.Broker.Trace

/-! # How sessions are closed

A thread that ends a session sends its terminal message, records its entry and releases
its handle, in three steps. `Opens` lists the places where a thread starts to, with what
it knows there; every closing comes from one of them and goes through its stages.
-/
namespace FerrousRuntime.Broker
open Tally Transition FerrousRuntime.Runtime

def Closing.next (closing : Closing) : Option Closing :=
  match closing.stage with
  | .send => some { closing with stage := .record }
  | .record => some { closing with stage := .release }
  | .release => none

inductive Thread
  | call (n : ℕ)
  | worker
  | sweeper

inductive Closes (b : ActionBroker) : Thread → Closing → Prop
  | call (n : ℕ) (c : Closing) : b.calls[n]? = some (.closing c) → Closes b (.call n) c
  | worker (c : Closing) : b.worker = .closing c → Closes b .worker c
  | sweeper (c : Closing) (rest : List ℕ) : b.sweeper = .closing c rest → Closes b .sweeper c

/-- The places where a thread starts to close a session. -/
inductive Opens (b : ActionBroker) (history : List Event) : Thread → Closing → Prop
  | denied (n id : ℕ) (parked : PendingJob) : b.state.pending.lookup id = some parked →
    .took (.deny n) parked.job ∈ history →
    Opens b history (.call n) (parked.job.close id .denied .denied .denied)
  | cancelled (n id : ℕ) (parked : PendingJob) : b.state.pending.lookup id = some parked →
    .took (.cancel n) parked.job ∈ history →
    Opens b history (.call n) (parked.job.close id .cancelled .cancelled .cancelled)
  | sawCancelled (n id : ℕ) (job : Job) : b.calls[n]? = some (.checkCancelled id job) →
    .sawCancelled job ∈ history →
    Opens b history (.call n) (job.close id .cancelled .cancelled .cancelled)
  | timedOut (id : ℕ) (parked : PendingJob) : b.state.pending.lookup id = some parked →
    .took .sweeper parked.job ∈ history →
    Opens b history .sweeper (parked.job.close id .denied .timedOut .denied)
  | refused (job : Job) (cell : ℕ) : b.worker = .begin job cell →
    Opens b history .worker (job.conclude (concludeCancelled job.sink))
  | unstartable (job : Job) (cell : ℕ) (error : Command.CommandError) : b.worker = .begin job cell →
    job.session.accept .started = .error error →
    Opens b history .worker (job.conclude (concludeUnstartable job.sink))
  | returned (job : Job) (cell : ℕ) (run : WasiRun) (result : Except RuntimeError WasiOutput) :
    b.worker = .running job cell run → run.phase = .returned result →
    Opens b history .worker (job.conclude (conclude job.sink result))
  | unwound (job : Job) (cell : ℕ) (run : WasiRun) : b.worker = .running job cell run →
    .panicked job ∈ history → Opens b history .worker job.panic
  | overdue (job : Job) (reason : Command.ApprovalReason) : b.worker = .deadline job reason →
    .panicked job ∈ history → Opens b history .worker job.panic

structure Closing.Advances (history : List Event) (d c : Closing) : Prop where
  next : d.next = some c
  sent : d.stage = .send → .sent d.key d.message ∈ history
  recorded : d.stage = .record → .recorded d.key d.entry ∈ history

section Threads
variable {config : Config} {s : BrokerState}

theorem Closing.step_advances {closing next : Closing} {s' : BrokerState}
    (he : closing.step s = (s', some next)) : closing.Advances s'.history next := by
  unfold Closing.step at he
  split at he <;> rename_i hs
  · cases he
    exact ⟨by simp [Closing.next, hs], fun _ => List.mem_cons_self, by simp [hs]⟩
  · cases he
    exact ⟨by simp [Closing.next, hs], by simp [hs], fun _ => List.mem_cons_self⟩
  · cases he

end Threads

section Steps
variable {config : Config} {b t : ActionBroker} {act : Act} {c : Closing}

theorem proceed_closes {n : ℕ} {pc : CallPc} {next : BrokerState × CallPc}
    (hpc : b.calls[n]? = some pc) (hn : callStep config n b.state pc = some next)
    (hc : next.2 = .closing c) :
    (∃ d, pc = .closing d ∧ d.Advances next.1.history c) ∨ Opens b next.1.history (.call n) c := by
  cases callStep_cases hn with
  | sawCancelled id job =>
    cases hc
    exact Or.inr (.sawCancelled n id job hpc List.mem_cons_self)
  | denied id parked hl =>
    cases hc
    exact Or.inr (.denied n id parked hl List.mem_cons_self)
  | cancelled id parked hl =>
    cases hc
    exact Or.inr (.cancelled n id parked hl List.mem_cons_self)
  | closing d _ _ hs =>
    cases hc
    exact Or.inl ⟨d, rfl, Closing.step_advances hs⟩
  | _ => cases hc

theorem worker_closes {next : BrokerState × WorkerPc}
    (hn : workerStep config b.state b.worker = some next) (hc : next.2 = .closing c) :
    (∃ d, b.worker = .closing d ∧ d.Advances next.1.history c) ∨ Opens b next.1.history .worker c := by
  generalize hw : b.worker = pc at hn
  cases workerStep_cases hn with
  | cancelled job cell =>
    cases hc
    exact Or.inr (.refused job cell hw)
  | unstartable job cell error _ hs =>
    cases hc
    exact Or.inr (.unstartable job cell error hw hs)
  | returned job cell run result hs =>
    cases hc
    exact Or.inr (.returned job cell run result hw hs)
  | closing d _ _ hs =>
    cases hc
    exact Or.inl ⟨d, rfl, Closing.step_advances hs⟩
  | panicked job reason =>
    cases hc
    exact Or.inr (.overdue job reason hw List.mem_cons_self)
  | _ => cases hc

theorem sweeper_closes {order rest : List ℕ} {next : BrokerState × SweeperPc}
    (hn : sweeperStep b.state order b.sweeper = some next) (hc : next.2 = .closing c rest) :
    (∃ d rest', b.sweeper = .closing d rest' ∧ d.Advances next.1.history c) ∨
      Opens b next.1.history .sweeper c := by
  generalize b.sweeper = pc at hn
  cases sweeperStep_cases hn with
  | took id rest parked hl =>
    cases hc
    exact Or.inr (.timedOut id parked hl List.mem_cons_self)
  | closing d _ rest _ hs =>
    cases hc
    exact Or.inl ⟨d, rest, rfl, Closing.step_advances hs⟩
  | _ => cases hc

/-- A thread's closing was there before the step, took the step, or is started by it. -/
theorem step_closes {thread : Thread} (he : step config b act = some t) (hc : Closes t thread c) :
    Closes b thread c ∨ (∃ d, Closes b thread d ∧ d.Advances t.state.history c) ∨
      Opens b t.state.history thread c := by
  revert hc
  apply step_elim (P := fun t => Closes t thread c → Closes b thread c ∨
    (∃ d, Closes b thread d ∧ d.Advances t.state.history c) ∨ Opens b t.state.history thread c) he
  case call =>
    intro request _ hc
    left
    cases hc with
    | call n _ hn =>
      rw [List.getElem?_append] at hn
      split at hn
      · exact .call n c hn
      · exfalso
        have heq := List.mem_singleton.mp (List.mem_of_getElem? hn)
        have hnext := enter_cases b.state request
        generalize enter b.state request = next at hnext heq
        cases hnext <;> cases heq
    | worker _ hw => exact .worker c hw
    | sweeper _ rest hs => exact .sweeper c rest hs
  case proceed =>
    intro n pc next _ hpc hn hc
    cases hc with
    | call m _ hm =>
      by_cases hmn : n = m
      · subst hmn
        have hlt := (List.getElem?_eq_some_iff.mp hpc).1
        have hnext : next.2 = .closing c := by simpa [hlt] using hm
        rcases proceed_closes hpc hn hnext with ⟨d, rfl, hd⟩ | ho
        · exact Or.inr (Or.inl ⟨d, .call n d hpc, hd⟩)
        · exact Or.inr (Or.inr ho)
      · exact Or.inl (.call m c (by simpa [hmn] using hm))
    | worker _ hw => exact Or.inl (.worker c hw)
    | sweeper _ rest hs => exact Or.inl (.sweeper c rest hs)
  case worker =>
    intro next _ hn hc
    cases hc with
    | call m _ hm => exact Or.inl (.call m c hm)
    | worker _ hw =>
      rcases worker_closes hn hw with ⟨d, hd, hadv⟩ | ho
      · exact Or.inr (Or.inl ⟨d, .worker d hd, hadv⟩)
      · exact Or.inr (Or.inr ho)
    | sweeper _ rest hs => exact Or.inl (.sweeper c rest hs)
  case runtime =>
    intro a next _ hn hc
    cases hc with
    | call m _ hm => exact Or.inl (.call m c hm)
    | worker _ hw =>
      obtain ⟨job, cell, run, effect, -, -, rfl⟩ := runtimeStep_cases hn
      cases hw
    | sweeper _ rest hs => exact Or.inl (.sweeper c rest hs)
  case unwind =>
    intro next _ hn hc
    cases hc with
    | call m _ hm => exact Or.inl (.call m c hm)
    | worker _ hw =>
      obtain ⟨job, cell, run, hpc, -, rfl⟩ := unwindStep_cases hn
      cases hw
      exact Or.inr (Or.inr (.unwound job cell run hpc List.mem_cons_self))
    | sweeper _ rest hs => exact Or.inl (.sweeper c rest hs)
  case sweeper =>
    intro order next _ hn hc
    cases hc with
    | call m _ hm => exact Or.inl (.call m c hm)
    | worker _ hw => exact Or.inl (.worker c hw)
    | sweeper _ rest hs =>
      rcases sweeper_closes hn hs with ⟨d, rest', hd, hadv⟩ | ho
      · exact Or.inr (Or.inl ⟨d, .sweeper d rest' hd, hadv⟩)
      · exact Or.inr (Or.inr ho)
  all_goals
    intros
    rename_i hc
    left
    cases hc with
    | call m _ hm => exact .call m c hm
    | worker _ hw => exact .worker c hw
    | sweeper _ rest hs => exact .sweeper c rest hs

end Steps

section Reachable
variable {config : Config} {b t : ActionBroker} {act : Act} {c : Closing}

theorem Registered.handleOf {history : List Event} {job : Job} (h : Registered history job) :
    HandleOf history job.id job.key := by
  obtain ⟨origin, ho, hrequest, -, hsink⟩ := h
  exact ⟨origin, ho, by rw [Job.id, Job.id, hrequest], by rw [Job.key, Job.key, hsink]⟩

/-- The worker executed the job, up to the state of its session. -/
def Ran (history : List Event) (job : Job) : Prop :=
  ∃ executed, .executed executed ∈ history ∧ executed.request = job.request ∧
    executed.sink = job.sink ∧ executed.admission = job.admission

theorem Ran.mono {history history' : List Event} {job : Job} (h : Ran history job)
    (hsub : history ⊆ history') : Ran history' job := by
  obtain ⟨executed, he, heq⟩ := h
  exact ⟨executed, hsub he, heq⟩

def WorkerPc.Traced (history : List Event) : WorkerPc → Prop
  | .missing job => .missing job ∈ history
  | .begin job _ | .announce job _ | .running job _ _ => Ran history job
  | _ => True

theorem WorkerPc.Traced.mono {history history' : List Event} {pc : WorkerPc} (h : pc.Traced history)
    (hsub : history ⊆ history') : pc.Traced history' := by
  cases pc with
  | missing job => exact hsub h
  | begin job cell => exact Ran.mono h hsub
  | announce job cell => exact Ran.mono h hsub
  | running job cell run => exact Ran.mono h hsub
  | _ => trivial

theorem workerStep_traced {s : BrokerState} {pc : WorkerPc} {next : BrokerState × WorkerPc}
    (h : pc.Traced s.history) (he : workerStep config s pc = some next) :
    next.2.Traced next.1.history := by
  cases workerStep_cases he with
  | missing job => exact List.mem_cons_self
  | executed job => exact ⟨job, List.mem_cons_self, rfl, rfl, rfl⟩
  | announced job => exact h
  | invoked job => exact Ran.mono h (List.subset_cons_self _ _)
  | started job => exact Ran.mono h (List.subset_cons_of_subset _ (List.subset_cons_self _ _))
  | _ => trivial

theorem reachable_traced (h : Reachable (system config) b) : b.worker.Traced b.state.history := by
  refine Runs.invariant_of_reachable (P := fun b => b.worker.Traced b.state.history) ?_ h (.refl _) trivial
  intro b act t hb _ he hp
  have hsub := (history_suffix hb he).subset
  rcases step_worker he with hsame | ⟨next, -, hn, hstate, hnext⟩ | ⟨job, cell, run, hw, ⟨run', hrun⟩ | hpanic⟩
  · rw [hsame]
    exact hp.mono hsub
  · rw [hnext, hstate]
    exact workerStep_traced hp hn
  · rw [hw] at hp
    rw [hrun]
    exact Ran.mono hp hsub
  · rw [hpanic]
    trivial

inductive Conclusion.Of (sink : JobSink) : Conclusion → Prop
  | cancelled : Of sink (concludeCancelled sink)
  | unstartable : Of sink (concludeUnstartable sink)
  | returned (result : Except RuntimeError WasiOutput) : Of sink (conclude sink result)

/-- Why a job is closed with this message and this entry. -/
inductive Cause (history : List Event) (job : Job) : Message → AuditEntry → Prop
  | denied (call : ℕ) : .took (.deny call) job ∈ history →
    Cause history job (terminalMessage job.sink .denied) (job.entry job.id .denied .denied)
  | timedOut : .took .sweeper job ∈ history →
    Cause history job (terminalMessage job.sink .denied) (job.entry job.id .timedOut .denied)
  | cancelled (call : ℕ) : .took (.cancel call) job ∈ history →
    Cause history job (terminalMessage job.sink .cancelled) (job.entry job.id .cancelled .cancelled)
  | sawCancelled : .sawCancelled job ∈ history →
    Cause history job (terminalMessage job.sink .cancelled) (job.entry job.id .cancelled .cancelled)
  | executed (conclusion : Conclusion) : Ran history job → conclusion.Of job.sink →
    Cause history job conclusion.message (job.entry job.id job.admission conclusion.outcome)
  | panicked : .panicked job ∈ history → Cause history job job.panic.message job.panic.entry

theorem Cause.mono {history history' : List Event} {job : Job} {message : Message} {entry : AuditEntry}
    (h : Cause history job message entry) (hsub : history ⊆ history') :
    Cause history' job message entry := by
  cases h with
  | denied call ht => exact .denied call (hsub ht)
  | timedOut ht => exact .timedOut (hsub ht)
  | cancelled call ht => exact .cancelled call (hsub ht)
  | sawCancelled hs => exact .sawCancelled (hsub hs)
  | executed conclusion hr hc => exact .executed conclusion (hr.mono hsub) hc
  | panicked hp => exact .panicked (hsub hp)

theorem Cause.entry {history : List Event} {job : Job} {message : Message} {entry : AuditEntry}
    (h : Cause history job message entry) : entry.id = job.id ∧ entry.actor = job.request.actor ∧
      entry.program = job.request.program := by
  cases h <;> exact ⟨rfl, rfl, rfl⟩

theorem Opens.cause (hb : Reachable (system config) b) {history : List Event} {thread : Thread}
    (hsub : b.state.history ⊆ history) (h : Opens b history thread c) :
    ∃ job, Registered b.state.history job ∧ c.key = job.key ∧ c.stage = .send ∧
      Cause history job c.message c.entry := by
  have hg := reachable_genuine hb
  have htraced := reachable_traced hb
  have hworker := hg.worker
  cases h with
  | denied n id parked hl ht =>
    obtain ⟨rfl, hwait, -⟩ := hg.state.pending _ _ hl
    exact ⟨parked.job, hwait.registered, rfl, rfl, .denied n ht⟩
  | cancelled n id parked hl ht =>
    obtain ⟨rfl, hwait, -⟩ := hg.state.pending _ _ hl
    exact ⟨parked.job, hwait.registered, rfl, rfl, .cancelled n ht⟩
  | timedOut id parked hl ht =>
    obtain ⟨rfl, hwait, -⟩ := hg.state.pending _ _ hl
    exact ⟨parked.job, hwait.registered, rfl, rfl, .timedOut ht⟩
  | sawCancelled n id job hpc hs =>
    have hmem := List.mem_of_getElem? hpc
    have hwait : Waiting b.state.history job := (hg.calls _ hmem).1
    have hid : job.id = id := (reachable_servesQueue hb).named _ hmem
    subst hid
    exact ⟨job, hwait.registered, rfl, rfl, .sawCancelled hs⟩
  | refused job cell hw =>
    rw [hw] at htraced hworker
    exact ⟨job, hworker.1.registered, rfl, rfl, .executed _ (Ran.mono htraced hsub) .cancelled⟩
  | unstartable job cell _ hw =>
    rw [hw] at htraced hworker
    exact ⟨job, hworker.1.registered, rfl, rfl, .executed _ (Ran.mono htraced hsub) .unstartable⟩
  | returned job cell run result hw =>
    rw [hw] at htraced hworker
    exact ⟨job, hworker.1, rfl, rfl, .executed _ (Ran.mono htraced hsub) (.returned result)⟩
  | unwound job cell run hw hp =>
    rw [hw] at hworker
    exact ⟨job, hworker.1, rfl, rfl, .panicked hp⟩
  | overdue job reason hw hp =>
    rw [hw] at hworker
    exact ⟨job, Waiting.registered hworker, rfl, rfl, .panicked hp⟩

/-- A closing is of a registered session, for a cause, and sends before it records and
releases. -/
structure Closing.Sound (history : List Event) (c : Closing) : Prop where
  caused : ∃ job, Registered history job ∧ c.key = job.key ∧ Cause history job c.message c.entry
  sent : c.stage ≠ .send → .sent c.key c.message ∈ history
  recorded : c.stage = .release → .recorded c.key c.entry ∈ history

theorem Closing.Sound.registered {history : List Event} (h : c.Sound history) :
    HandleOf history c.entry.id c.key := by
  obtain ⟨job, hr, hkey, hcause⟩ := h.caused
  rw [hkey, hcause.entry.1]
  exact hr.handleOf

theorem Closing.Sound.mono {history history' : List Event} (h : c.Sound history)
    (hsub : history ⊆ history') : c.Sound history' :=
  have ⟨job, hr, hkey, hcause⟩ := h.caused
  ⟨⟨job, hr.mono hsub, hkey, hcause.mono hsub⟩, fun hs => hsub (h.sent hs),
    fun hs => hsub (h.recorded hs)⟩

theorem Closing.Advances.kept {history : List Event} {d : Closing} (h : d.Advances history c) :
    c.key = d.key ∧ c.message = d.message ∧ c.entry = d.entry ∧ d.stage ≠ .release ∧
      c.stage = (match d.stage with | .send => .record | _ => .release) := by
  have hnext := h.next
  unfold Closing.next at hnext
  split at hnext <;> rename_i hs <;> cases hnext
  · exact ⟨rfl, rfl, rfl, by simp [hs], by simp [hs]⟩
  · exact ⟨rfl, rfl, rfl, by simp [hs], by simp [hs]⟩

theorem Closing.Advances.sound {history : List Event} {d : Closing} (h : d.Advances history c)
    (hd : d.Sound history) : c.Sound history := by
  obtain ⟨hkey, hmessage, hentry, -, hstage⟩ := h.kept
  refine ⟨by rw [hkey, hmessage, hentry]; exact hd.caused, fun _ => ?_, fun hs => ?_⟩
  · rw [hkey, hmessage]
    by_cases hsend : d.stage = .send
    · exact h.sent hsend
    · exact hd.sent hsend
  · rw [hkey, hentry]
    cases hd' : d.stage with
    | send => rw [hstage, hd'] at hs; cases hs
    | record => exact h.recorded hd'
    | release => exact hd.recorded hd'

theorem reachable_closings (h : Reachable (system config) b) :
    ∀ thread c, Closes b thread c → c.Sound b.state.history := by
  refine Runs.invariant_of_reachable
    (P := fun b => ∀ thread c, Closes b thread c → c.Sound b.state.history) ?_ h (.refl _) ?_
  · intro b act t hb _ he hp thread c hc
    have hsub := (history_suffix hb he).subset
    rcases step_closes he hc with hc | ⟨d, hd, hadv⟩ | ho
    · exact (hp thread c hc).mono hsub
    · exact hadv.sound ((hp thread d hd).mono hsub)
    · obtain ⟨job, hr, hkey, hstage, hcause⟩ := ho.cause hb hsub
      refine ⟨⟨job, hr.mono hsub, hkey, hcause⟩, fun hs => absurd hstage hs, fun hs => ?_⟩
      rw [hstage] at hs
      cases hs
  · intro thread c hc
    cases hc with
    | call n _ hn => simp [system, ActionBroker.initial] at hn
    | worker _ hw => cases hw
    | sweeper _ rest hs => cases hs

theorem Closes.holds {thread : Thread} (hc : Closes b thread c) (hs : c.stage = .send) :
    0 < (b.footprint c.key).holds := by
  have hreport : c.reporting = some c.key := by simp [Closing.reporting, hs]
  have hholds := Broker.reporting_holds hreport
  cases hc with
  | call n _ hn => exact hholds.trans_le (call_holds_le (List.mem_of_getElem? hn) c.key)
  | worker _ hw =>
    have hle := worker_holds_le b c.key
    rw [hw] at hle
    exact hholds.trans_le hle
  | sweeper _ rest hs =>
    have hle := sweeper_holds_le b c.key
    rw [hs] at hle
    exact hholds.trans_le hle

theorem Closes.unconcluded {thread : Thread} (h : Reachable (system config) b) (hc : Closes b thread c)
    (hs : c.stage = .send) : b.state.history.countP (Event.isConcluded c.key) = 0 :=
  unconcluded_of_holds h (hc.holds hs)

/-- One that has sent it has concluded its session. -/
theorem Closes.concluded {thread : Thread} (h : Reachable (system config) b) (hc : Closes b thread c)
    (hs : c.stage ≠ .send) : 0 < b.state.history.countP (Event.isConcluded c.key) :=
  List.countP_pos_iff.mpr ⟨_, (reachable_closings h thread c hc).sent hs, by simp [c.terminal]⟩

theorem recorded_cause (h : Reachable (system config) b) : ∀ key entry,
    .recorded key entry ∈ b.state.history → ∃ message job, .sent key message ∈ b.state.history ∧
      message.isTerminal = true ∧ Registered b.state.history job ∧ job.key = key ∧
        Cause b.state.history job message entry := by
  refine Runs.invariant_of_reachable
    (P := fun b => ∀ key entry, .recorded key entry ∈ b.state.history → ∃ message job,
      .sent key message ∈ b.state.history ∧ message.isTerminal = true ∧
        Registered b.state.history job ∧ job.key = key ∧ Cause b.state.history job message entry)
    ?_ h (.refl _) (by simp [system, ActionBroker.initial, BrokerState.initial])
  intro b act t hb _ he hp key entry hin
  have hsub := (history_suffix hb he).subset
  have hclosing : ∀ thread c, Closes b thread c → c.Logs (.recorded key entry) → ∃ message job,
      .sent key message ∈ t.state.history ∧ message.isTerminal = true ∧
        Registered t.state.history job ∧ job.key = key ∧ Cause t.state.history job message entry := by
    intro thread c hc hlogs
    have hsound := reachable_closings hb thread c hc
    obtain ⟨job, hr, hkey, hcause⟩ := hsound.caused
    cases hlogs with
    | recorded hs =>
      exact ⟨c.message, job, hsub (hsound.sent (by simp [hs])), c.terminal, hr.mono hsub, hkey.symm,
        hcause.mono hsub⟩
  rcases step_logs he hin with hin | hlogs
  · obtain ⟨message, job, hsent, hm, hr, hkey, hcause⟩ := hp key entry hin
    exact ⟨message, job, hsub hsent, hm, hr.mono hsub, hkey, hcause.mono hsub⟩
  · cases hlogs with
    | call n pc event hpc hlogs =>
      cases hlogs with
      | closing c event hc => exact hclosing _ c (.call n c hpc) hc
    | worker event hlogs =>
      generalize hw : b.worker = pc at hlogs
      cases hlogs with
      | closing c event hc => exact hclosing _ c (.worker c hw) hc
    | sweeper order event hlogs =>
      generalize hs : b.sweeper = pc at hlogs
      cases hlogs with
      | closing c rest event hc => exact hclosing _ c (.sweeper c rest hs) hc

theorem sent_cause (h : Reachable (system config) b) : ∀ key message,
    .sent key message ∈ b.state.history → message.isTerminal = true →
      ∃ job, Registered b.state.history job ∧ job.key = key ∧
        ((∃ entry, Cause b.state.history job message entry) ∨ .missing job ∈ b.state.history) := by
  refine Runs.invariant_of_reachable
    (P := fun b => ∀ key message, .sent key message ∈ b.state.history → message.isTerminal = true →
      ∃ job, Registered b.state.history job ∧ job.key = key ∧
        ((∃ entry, Cause b.state.history job message entry) ∨ .missing job ∈ b.state.history))
    ?_ h (.refl _) (by simp [system, ActionBroker.initial, BrokerState.initial])
  intro b act t hb _ he hp key message hin hm
  have hsub := (history_suffix hb he).subset
  have hclosing : ∀ thread c, Closes b thread c → c.Logs (.sent key message) →
      ∃ job, Registered t.state.history job ∧ job.key = key ∧
        ((∃ entry, Cause t.state.history job message entry) ∨ .missing job ∈ t.state.history) := by
    intro thread c hc hlogs
    obtain ⟨job, hr, hkey, hcause⟩ := (reachable_closings hb thread c hc).caused
    cases hlogs with
    | sent hs => exact ⟨job, hr.mono hsub, hkey.symm, Or.inl ⟨c.entry, hcause.mono hsub⟩⟩
  rcases step_logs he hin with hin | hlogs
  · obtain ⟨job, hr, hkey, hcause⟩ := hp key message hin hm
    refine ⟨job, hr.mono hsub, hkey, hcause.imp ?_ (fun hmissing => hsub hmissing)⟩
    exact Exists.imp (fun entry hentry => hentry.mono hsub)
  · cases hlogs with
    | call n pc event hpc hlogs =>
      cases hlogs with
      | closing c event hc => exact hclosing _ c (.call n c hpc) hc
    | worker event hlogs =>
      have htraced := reachable_traced hb
      have hg := (reachable_genuine hb).worker
      generalize hw : b.worker = pc at hlogs htraced hg
      cases hlogs with
      | closing c event hc => exact hclosing _ c (.worker c hw) hc
      | denied job => exact ⟨job, Registered.mono hg hsub, rfl, Or.inr (hsub htraced)⟩
      | started job cell => cases hm
      | notified sink id reason => simp at hm
    | output act job cell run stream bytes => cases hm
    | stray index elapsed stray stream bytes => cases hm
    | sweeper order event hlogs =>
      generalize hs : b.sweeper = pc at hlogs
      cases hlogs with
      | closing c rest event hc => exact hclosing _ c (.sweeper c rest hs) hc

end Reachable
end FerrousRuntime.Broker
