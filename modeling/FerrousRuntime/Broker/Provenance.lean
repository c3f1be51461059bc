import FerrousRuntime.Broker.Ledger

/-! # Where jobs, handles and messages come from

Every job in the broker belongs to a registered session, every approved one is the
job an approval took, every handle is the cell of a session registered under its id,
every parked job is the one parked last under its id, and every entry of the history
is warranted by earlier ones.
-/
namespace FerrousRuntime.Broker
open Tally Transition FerrousRuntime.Runtime Policy Command

def lastParked (id : ℕ) : List Event → Option Job
  | [] => none
  | .parked job :: past => if job.id = id then some job else lastParked id past
  | _ :: past => lastParked id past

theorem lastParked_cons {id : ℕ} {event : Event} {past : List Event}
    (h : ∀ job, event ≠ .parked job) : lastParked id (event :: past) = lastParked id past := by
  cases event with
  | parked job => exact absurd rfl (h job)
  | _ => rfl

theorem lastParked_eq_some {id : ℕ} {job : Job} {past : List Event}
    (h : lastParked id past = some job) :
    job.id = id ∧ ∃ recent earlier, past = recent ++ Event.parked job :: earlier ∧
      ∀ other, .parked other ∈ recent → other.id ≠ id := by
  induction past with
  | nil => cases h
  | cons event past ih =>
    have skip : lastParked id past = some job → (∀ other, event = .parked other → other.id ≠ id) →
        job.id = id ∧ ∃ recent earlier, event :: past = recent ++ Event.parked job :: earlier ∧
          ∀ other, .parked other ∈ recent → other.id ≠ id := by
      intro hlast hevent
      obtain ⟨hid, recent, earlier, rfl, hrecent⟩ := ih hlast
      refine ⟨hid, event :: recent, earlier, rfl, ?_⟩
      intro other ho
      rcases List.mem_cons.mp ho with heq | ho
      · exact hevent other heq.symm
      · exact hrecent other ho
    cases event with
    | parked other =>
      rw [lastParked] at h
      split at h
      · rename_i hid
        cases h
        exact ⟨hid, [], past, rfl, by simp⟩
      · rename_i hid
        refine skip h ?_
        rintro _ ⟨⟩
        exact hid
    | _ => exact skip h (by simp)

def Message.asksApproval : Message → Bool
  | .outcome (.pendingApproval _) => true
  | .event (.pendingApproval _) => true
  | _ => false

theorem asksApproval_of_terminal {message : Message} (h : message.isTerminal = true) :
    message.asksApproval = false := by
  cases message with
  | outcome result => cases result <;> first | rfl | cases h
  | event sent => cases sent <;> first | rfl | cases h

def Registered (history : List Event) (job : Job) : Prop :=
  ∃ origin, .registered origin ∈ history ∧ origin.request = job.request ∧
    origin.component = job.component ∧ origin.sink = job.sink

/-- The cell is the handle of a session registered under the id. -/
def HandleOf (history : List Event) (id cell : ℕ) : Prop :=
  ∃ origin, .registered origin ∈ history ∧ origin.id = id ∧ origin.key = cell

/-- What earlier events an event needs. -/
def Warranted : Event → List Event → Prop
  | .executed job, past => Risky job.request →
    ∃ call taken, .took (.approve call) taken ∈ past ∧ job = taken.admit
  | .took _ job, past => lastParked job.id past = some job
  | .parked job, past => Registered past job
  | .sent key message, past => message.asksApproval = true →
    ∃ shown, .parked shown ∈ past ∧ shown.key = key
  | .received key message, past => .sent key message ∈ past
  | _, _ => True

/-- A job that was not executed. -/
structure Waiting (history : List Event) (job : Job) : Prop where
  registered : Registered history job
  admission : job.admission = .autoApproved ∨
    ∃ call taken, .took (.approve call) taken ∈ history ∧ job = taken.admit
  unstarted : job.session.lifecycle = .created ∨ job.session.lifecycle = .waitingApproval

section Mono
variable {history history' : List Event} {job : Job} {id cell : ℕ}

theorem Registered.mono (h : Registered history job) (hsub : history ⊆ history') :
    Registered history' job := by
  obtain ⟨origin, ho, heq⟩ := h
  exact ⟨origin, hsub ho, heq⟩

theorem HandleOf.mono (h : HandleOf history id cell) (hsub : history ⊆ history') :
    HandleOf history' id cell := by
  obtain ⟨origin, ho, heq⟩ := h
  exact ⟨origin, hsub ho, heq⟩

theorem Waiting.mono (h : Waiting history job) (hsub : history ⊆ history') : Waiting history' job := by
  refine ⟨h.registered.mono hsub, ?_, h.unstarted⟩
  rcases h.admission with hauto | ⟨call, taken, ht, heq⟩
  · exact Or.inl hauto
  · exact Or.inr ⟨call, taken, hsub ht, heq⟩

theorem Waiting.admit {call : ℕ} (h : Waiting history job)
    (ht : .took (.approve call) job ∈ history) : Waiting history job.admit :=
  ⟨h.registered, Or.inr ⟨call, job, ht, rfl⟩, h.unstarted⟩

theorem Waiting.ask (h : Waiting history job) (ha : job.admission ≠ .approved)
    (reason : ApprovalReason) :
    Waiting history (job.withSession (job.session.acceptIgnored (.pendingApproval reason))) := by
  have hauto : job.admission = .autoApproved := by
    rcases h.admission with hauto | ⟨call, taken, -, heq⟩
    · exact hauto
    · exact absurd (heq ▸ rfl) ha
  refine ⟨h.registered, Or.inl hauto, Or.inr ?_⟩
  rcases h.unstarted with hc | hw
  · simp [Job.withSession, SessionState.acceptIgnored, SessionState.accept, hc]
  · simp [Job.withSession, SessionState.acceptIgnored, SessionState.accept, hw]

end Mono

def CallPc.Genuine (history : List Event) : CallPc → Prop
  | .enqueue job => job.admission = .autoApproved ∧ job.session.lifecycle = .created
  | .push job | .requeue _ job => Waiting history job
  | .checkCancelled _ job => Waiting history job ∧ ∃ call, .took (.approve call) job ∈ history
  | _ => True

def WorkerPc.Genuine (history : List Event) : WorkerPc → Prop
  | .lookup job | .deadline job _ | .park job _ _ => Waiting history job
  | .missing job => Registered history job
  | .begin job cell => Waiting history job ∧ HandleOf history job.id cell
  | .announce job cell | .running job cell _ => Registered history job ∧ HandleOf history job.id cell
  | .notify sink id _ => ∃ shown, .parked shown ∈ history ∧ shown.sink = sink ∧ shown.id = id
  | _ => True

theorem CallPc.Genuine.mono {history history' : List Event} {pc : CallPc} (h : pc.Genuine history)
    (hsub : history ⊆ history') : pc.Genuine history' := by
  cases pc with
  | push job => exact Waiting.mono h hsub
  | requeue id job => exact Waiting.mono h hsub
  | checkCancelled id job =>
    obtain ⟨hw, call, ht⟩ := h
    exact ⟨hw.mono hsub, call, hsub ht⟩
  | _ => exact h

theorem WorkerPc.Genuine.mono {history history' : List Event} {pc : WorkerPc} (h : pc.Genuine history)
    (hsub : history ⊆ history') : pc.Genuine history' := by
  cases pc with
  | lookup job => exact Waiting.mono h hsub
  | deadline job reason => exact Waiting.mono h hsub
  | park job deadline reason => exact Waiting.mono h hsub
  | missing job => exact Registered.mono h hsub
  | begin job cell => exact ⟨h.1.mono hsub, h.2.mono hsub⟩
  | announce job cell => exact ⟨h.1.mono hsub, h.2.mono hsub⟩
  | running job cell run => exact ⟨h.1.mono hsub, h.2.mono hsub⟩
  | notify sink id reason =>
    obtain ⟨shown, hs, heq⟩ := h
    exact ⟨shown, hsub hs, heq⟩
  | _ => exact h

structure BrokerState.Genuine (s : BrokerState) : Prop where
  queue : ∀ job ∈ s.queue, Waiting s.history job
  pending : ∀ id parked, s.pending.lookup id = some parked →
    parked.job.id = id ∧ Waiting s.history parked.job ∧ lastParked id s.history = some parked.job
  handles : ∀ id cell, s.handles.lookup id = some cell → HandleOf s.history id cell
  messages : ∀ key, ∀ message ∈ (s.channels key).messages, .sent key message ∈ s.history
  warranted : Justified Warranted s.history

namespace BrokerState.Genuine
variable {s : BrokerState} {key id : ℕ} {message : Message}

theorem log (h : s.Genuine) (event : Event) (hw : Warranted event s.history)
    (hp : ∀ job, event ≠ .parked job) : (s.log event).Genuine := by
  have hsub : s.history ⊆ (s.log event).history := List.subset_cons_self _ _
  refine ⟨fun job hj => (h.queue job hj).mono hsub, ?_,
    fun id cell hc => (h.handles id cell hc).mono hsub,
    fun key message hm => hsub (h.messages key message hm), hw, h.warranted⟩
  intro id parked hl
  obtain ⟨hid, hwait, hlast⟩ := h.pending id parked hl
  exact ⟨hid, hwait.mono hsub, (lastParked_cons hp).trans hlast⟩

theorem send (h : s.Genuine) (key : ℕ) (message : Message)
    (hw : Warranted (.sent key message) s.history) : (s.send key message).Genuine := by
  have hlog := h.log (.sent key message) hw (by simp)
  refine ⟨hlog.queue, hlog.pending, hlog.handles, ?_, hlog.warranted⟩
  intro other sent hm
  simp only [BrokerState.send] at hm
  by_cases hk : other = key
  · subst hk
    rw [Function.update_self] at hm
    split at hm
    · exact hlog.messages other sent hm
    · rcases List.mem_append.mp hm with hm | hm
      · exact hlog.messages other sent hm
      · rw [List.mem_singleton.mp hm]
        exact List.mem_cons_self
  · rw [Function.update_of_ne hk] at hm
    exact hlog.messages other sent hm

theorem send_terminal (h : s.Genuine) (hm : message.isTerminal = true) :
    (s.send key message).Genuine := by
  refine h.send key message ?_
  intro ha
  rw [asksApproval_of_terminal hm] at ha
  cases ha

theorem release (h : s.Genuine) : (s.release id).Genuine :=
  ⟨h.queue, h.pending, fun i cell hc => h.handles i cell (lookup_of_erase hc), h.messages, h.warranted⟩

theorem record {entry : AuditEntry} (h : s.Genuine) : (s.record key entry).Genuine := by
  have hlog := h.log (.recorded key entry) trivial (by simp)
  exact ⟨hlog.queue, hlog.pending, hlog.handles, hlog.messages, hlog.warranted⟩

theorem unpark (h : s.Genuine) : { s with pending := s.pending.erase id }.Genuine :=
  ⟨h.queue, fun i parked hl => h.pending i parked (lookup_of_erase hl), h.handles, h.messages, h.warranted⟩

theorem take {decider : Decider} {parked : PendingJob} (h : s.Genuine)
    (hl : s.pending.lookup id = some parked) : (s.take decider id parked.job).Genuine := by
  obtain ⟨hid, -, hlast⟩ := h.pending id parked hl
  have hlog := h.log (.took decider parked.job) (by rw [Warranted, hid, hlast]) (by simp)
  exact hlog.unpark

theorem enqueue {job : Job} (h : s.Genuine) (hw : Waiting s.history job) :
    { s with queue := s.queue ++ [job] }.Genuine := by
  refine ⟨?_, h.pending, h.handles, h.messages, h.warranted⟩
  intro other ho
  rcases List.mem_append.mp ho with ho | ho
  · exact h.queue other ho
  · exact List.mem_singleton.mp ho ▸ hw

theorem displaced_warranted {job : Job} (h : s.Genuine) (hr : Registered s.history job) :
    Justified Warranted (.parked job :: (displacement (s.pending.lookup id) ++ s.history)) := by
  cases s.pending.lookup id with
  | none => exact ⟨hr, h.warranted⟩
  | some old => exact ⟨hr.mono (List.subset_cons_self _ _), trivial, h.warranted⟩

theorem park {job : Job} (h : s.Genuine) (hw : Waiting s.history job) (deadline : ℕ) :
    { s with
      pending := s.pending.insert job.id ⟨job, deadline⟩
      history := .parked job :: (displacement (s.pending.lookup job.id) ++ s.history) }.Genuine := by
  have hsub : s.history ⊆ .parked job :: (displacement (s.pending.lookup job.id) ++ s.history) :=
    (List.suffix_cons_iff.mpr (Or.inr (List.suffix_append _ _))).subset
  have hskip : ∀ id, lastParked id (displacement (s.pending.lookup job.id) ++ s.history) =
      lastParked id s.history := by
    intro id
    cases s.pending.lookup job.id <;> rfl
  refine ⟨fun other ho => (h.queue other ho).mono hsub, ?_,
    fun id cell hc => (h.handles id cell hc).mono hsub,
    fun key message hm => hsub (h.messages key message hm), h.displaced_warranted hw.registered⟩
  intro id parked hl
  rcases lookup_of_insert hl with ⟨rfl, rfl⟩ | ⟨hne, hl⟩
  · exact ⟨rfl, hw.mono hsub, by simp [lastParked]⟩
  · obtain ⟨hid, hwait, hlast⟩ := h.pending id parked hl
    refine ⟨hid, hwait.mono hsub, ?_⟩
    rw [lastParked, if_neg (Ne.symm hne), hskip, hlast]

end BrokerState.Genuine

section Threads
variable {s : BrokerState} {config : Config}

theorem Closing.step_history (s : BrokerState) (closing : Closing) :
    s.history <:+ (closing.step s).1.history := by
  unfold Closing.step
  split
  · exact List.suffix_cons _ _
  · exact List.suffix_cons _ _
  · exact List.suffix_refl _

theorem Closing.step_genuine {closing : Closing} (h : s.Genuine) : (closing.step s).1.Genuine := by
  unfold Closing.step
  split
  · exact h.send_terminal closing.terminal
  · exact h.record
  · exact h.release

theorem callStep_genuine {n : ℕ} {pc : CallPc} {next : BrokerState × CallPc} (h : s.Genuine)
    (hpc : pc.Genuine s.history) (he : callStep config n s pc = some next) :
    s.history <:+ next.1.history ∧ next.1.Genuine ∧ next.2.Genuine next.1.history := by
  cases callStep_cases he with
  | registered job =>
    have hlog := h.log (.registered job) trivial (by simp)
    have hjob : Waiting (.registered job :: s.history) job :=
      ⟨⟨job, List.mem_cons_self, rfl, rfl, rfl⟩, Or.inl hpc.1, Or.inl hpc.2⟩
    refine ⟨List.suffix_cons _ _, ⟨hlog.queue, hlog.pending, ?_, hlog.messages, hlog.warranted⟩, hjob⟩
    intro id cell hc
    rcases lookup_of_insert hc with ⟨rfl, rfl⟩ | ⟨-, hc⟩
    · exact ⟨job, List.mem_cons_self, rfl, rfl⟩
    · exact hlog.handles id cell hc
  | enqueued job =>
    have hlog := h.log (.enqueued job) trivial (by simp)
    have hq := hlog.enqueue (hpc.mono (List.subset_cons_self _ _))
    refine ⟨List.suffix_cons _ _, ⟨hq.queue, hq.pending, hq.handles, ?_, hq.warranted⟩, trivial⟩
    intro key message hm
    refine hq.messages key message ?_
    change message ∈ (s.channels key).messages
    by_cases hk : key = job.key
    · subst hk
      simpa using hm
    · simpa [Function.update_of_ne hk] using hm
  | unregistered id => exact ⟨List.suffix_refl _, h.release, trivial⟩
  | approved id parked hp =>
    refine ⟨List.suffix_cons _ _, h.take hp, ?_, n, List.mem_cons_self⟩
    exact (h.pending _ _ hp).2.1.mono (List.subset_cons_self _ _)
  | sawCancelled id job =>
    exact ⟨List.suffix_cons _ _, h.log (.sawCancelled job) trivial (by simp), trivial⟩
  | admitted id job =>
    obtain ⟨hw, call, ht⟩ := hpc
    exact ⟨List.suffix_refl _, h, hw.admit ht⟩
  | requeued id job => exact ⟨List.suffix_refl _, h.enqueue hpc, trivial⟩
  | stranded id job =>
    exact ⟨List.suffix_cons _ _, h.log (.stranded job) trivial (by simp), trivial⟩
  | denied id parked hp | cancelled id parked hp =>
    exact ⟨List.suffix_cons _ _, h.take hp, trivial⟩
  | flagged cell =>
    have hlog := h.log (.flagged cell) trivial (by simp)
    exact ⟨List.suffix_cons _ _,
      ⟨hlog.queue, hlog.pending, hlog.handles, hlog.messages, hlog.warranted⟩, trivial⟩
  | closing c _ _ hs | closed c _ hs =>
    have hc : (c.step s).1.Genuine := Closing.step_genuine h
    have hh := Closing.step_history s c
    rw [hs] at hc hh
    exact ⟨hh, hc, trivial⟩
  | _ => exact ⟨List.suffix_refl _, h, trivial⟩

theorem Waiting.executed {job : Job} {history : List Event} (h : Waiting history job)
    (ha : job.admission = .approved ∨ ¬ Risky job.request) : Warranted (.executed job) history := by
  intro hrisky
  rcases h.admission with hauto | htook
  · rcases ha with ha | ha
    · rw [hauto] at ha
      cases ha
    · exact absurd hrisky ha
  · exact htook

theorem workerStep_genuine {pc : WorkerPc} {next : BrokerState × WorkerPc} (h : s.Genuine)
    (hpc : pc.Genuine s.history) (he : workerStep config s pc = some next) :
    s.history <:+ next.1.history ∧ next.1.Genuine ∧ next.2.Genuine next.1.history := by
  cases workerStep_cases he with
  | popped job rest hq =>
    have hjob := h.queue job (by simp [hq])
    refine ⟨List.suffix_refl _, ⟨?_, h.pending, h.handles, h.messages, h.warranted⟩, hjob⟩
    exact fun other ho => h.queue other (by rw [hq]; exact List.mem_cons_of_mem _ ho)
  | exited => exact ⟨List.suffix_refl _, ⟨h.queue, h.pending, h.handles, h.messages, h.warranted⟩, trivial⟩
  | missing job =>
    exact ⟨List.suffix_cons _ _, h.log (.missing job) trivial (by simp),
      hpc.registered.mono (List.subset_cons_self _ _)⟩
  | executed job cell hl ha =>
    have hsub := List.subset_cons_self (.executed job) s.history
    have hcell := (h.handles job.id cell hl).mono hsub
    exact ⟨List.suffix_cons _ _, h.log (.executed job) (Waiting.executed hpc ha) (by simp),
      Waiting.mono hpc hsub, hcell⟩
  | deferred job cell reason _ _ ha => exact ⟨List.suffix_refl _, h, hpc.ask ha reason⟩
  | denied job => exact ⟨List.suffix_cons _ _, h.send_terminal (by simp), trivial⟩
  | forgotten id | released id => exact ⟨List.suffix_refl _, h.release, trivial⟩
  | announced job cell => exact ⟨List.suffix_refl _, h, hpc.1.registered, hpc.2⟩
  | invoked job cell =>
    exact ⟨List.suffix_cons _ _, h.log (.invoked job.key) trivial (by simp),
      hpc.1.registered.mono (List.subset_cons_self _ _), hpc.2.mono (List.subset_cons_self _ _)⟩
  | started job cell =>
    have hsent := h.send job.key (.event .started) (fun ha => by cases ha)
    have hsub : s.history ⊆ .invoked job.key :: .sent job.key (.event .started) :: s.history :=
      (List.suffix_cons_iff.mpr (Or.inr (List.suffix_cons _ _))).subset
    exact ⟨List.suffix_cons_iff.mpr (Or.inr (List.suffix_cons _ _)),
      hsent.log (.invoked job.key) trivial (by simp), hpc.1.mono hsub, hpc.2.mono hsub⟩
  | closing c _ _ hs | closed c _ hs =>
    have hc : (c.step s).1.Genuine := Closing.step_genuine h
    have hh := Closing.step_history s c
    rw [hs] at hc hh
    exact ⟨hh, hc, trivial⟩
  | panicked job => exact ⟨List.suffix_cons _ _, h.log (.panicked job) trivial (by simp), trivial⟩
  | timed job reason => exact ⟨List.suffix_refl _, h, hpc⟩
  | parked job deadline reason =>
    exact ⟨List.suffix_cons_iff.mpr (Or.inr (List.suffix_append _ _)), h.park hpc deadline,
      job, List.mem_cons_self, rfl, rfl⟩
  | notified sink id reason | unnotified sink id reason =>
    obtain ⟨shown, hs, rfl, -⟩ := hpc
    have hsent := h.send shown.sink.channel (approvalMessage shown.sink reason)
      (fun _ => ⟨shown, hs, rfl⟩)
    exact ⟨List.suffix_cons _ _, hsent, trivial⟩
  | discarded id parked =>
    have hlog := h.log (.discarded parked.job) trivial (by simp)
    exact ⟨List.suffix_cons _ _, hlog.unpark, trivial⟩
  | _ => exact ⟨List.suffix_refl _, h, trivial⟩

theorem emit_genuine (key : ℕ) {event : Option SessionEvent}
    (he : ∀ e, event = some e → ∃ stream bytes, e = .output stream bytes) (h : s.Genuine) :
    s.history <:+ (s.emit key event).history ∧ (s.emit key event).Genuine := by
  cases event with
  | none => exact ⟨List.suffix_refl _, h⟩
  | some e =>
    obtain ⟨stream, bytes, rfl⟩ := he e rfl
    exact ⟨List.suffix_cons _ _, h.send key (.event (.output stream bytes)) (fun ha => by cases ha)⟩

theorem BrokerState.Genuine.atEpoch (h : s.Genuine) (epoch : ℕ) : { s with epoch := epoch }.Genuine :=
  ⟨h.queue, h.pending, h.handles, h.messages, h.warranted⟩

theorem runtimeStep_genuine {act : RunAct} {pc : WorkerPc} {next : BrokerState × WorkerPc}
    (h : s.Genuine) (hpc : pc.Genuine s.history) (he : runtimeStep s act pc = some next) :
    s.history <:+ next.1.history ∧ next.1.Genuine ∧ next.2.Genuine next.1.history := by
  obtain ⟨job, cell, run, effect, rfl, heff, rfl⟩ := runtimeStep_cases he
  obtain ⟨hh, hg⟩ := emit_genuine job.key (WasiRun.step_event heff) (h.atEpoch effect.epoch)
  exact ⟨hh, hg, hpc.1.mono hh.subset, hpc.2.mono hh.subset⟩

theorem unwindStep_genuine {pc : WorkerPc} {next : BrokerState × WorkerPc × Stray} (h : s.Genuine)
    (he : unwindStep s pc = some next) :
    s.history <:+ next.1.history ∧ next.1.Genuine ∧ next.2.1.Genuine next.1.history := by
  obtain ⟨job, cell, run, rfl, -, rfl⟩ := unwindStep_cases he
  exact ⟨List.suffix_cons _ _, h.log (.panicked job) trivial (by simp), trivial⟩

theorem strayStep_genuine {elapsed : Bool} {stray : Stray} {next : BrokerState × Stray}
    (h : s.Genuine) (he : strayStep s elapsed stray = some next) :
    s.history <:+ next.1.history ∧ next.1.Genuine := by
  obtain ⟨effect, heff, rfl⟩ := Option.map_eq_some_iff.mp he
  exact emit_genuine stray.key (WasiRun.step_event heff) (h.atEpoch effect.epoch)

theorem sweeperStep_genuine {order : List ℕ} {pc : SweeperPc} {next : BrokerState × SweeperPc}
    (h : s.Genuine) (he : sweeperStep s order pc = some next) :
    s.history <:+ next.1.history ∧ next.1.Genuine := by
  cases sweeperStep_cases he with
  | took id rest parked hp => exact ⟨List.suffix_cons _ _, h.take hp⟩
  | closing c _ _ _ hs | closed c _ _ hs =>
    have hc : (c.step s).1.Genuine := Closing.step_genuine h
    have hh := Closing.step_history s c
    rw [hs] at hc hh
    exact ⟨hh, hc⟩
  | _ => exact ⟨List.suffix_refl _, h⟩

theorem receiverStep_genuine {key : ℕ} {drops : Bool} {next : BrokerState} (h : s.Genuine)
    (he : receiverStep s key drops = some next) : s.history <:+ next.history ∧ next.Genuine := by
  cases receiverStep_cases he with
  | dropped => exact ⟨List.suffix_refl _, h.queue, h.pending, h.handles, h.messages, h.warranted⟩
  | received message rest hm =>
    have hin : .sent key message ∈ s.history := h.messages key message (by simp [hm])
    have hlog := h.log (.received key message) hin (by simp)
    refine ⟨List.suffix_cons _ _, hlog.queue, hlog.pending, hlog.handles, ?_, hlog.warranted⟩
    intro other sent hs
    refine hlog.messages other sent ?_
    change sent ∈ (s.channels other).messages
    by_cases hk : other = key
    · subst hk
      rw [hm]
      exact List.mem_cons_of_mem _ (by simpa using hs)
    · simpa [Function.update_of_ne hk] using hs

theorem dropStep_genuine {b : ActionBroker} {next : BrokerState × DropPc} (h : b.state.Genuine)
    (he : dropStep b = some next) : b.state.history <:+ next.1.history ∧ next.1.Genuine := by
  cases dropStep_cases he with
  | joinedWorker | joinedSweeper => exact ⟨List.suffix_refl _, h⟩
  | _ => exact ⟨List.suffix_refl _, h.queue, h.pending, h.handles, h.messages, h.warranted⟩

end Threads

/-- What holds of the whole broker. -/
structure ActionBroker.Genuine (b : ActionBroker) : Prop where
  state : b.state.Genuine
  calls : ∀ pc ∈ b.calls, pc.Genuine b.state.history
  worker : b.worker.Genuine b.state.history

section Runs
variable {config : Config} {b t : ActionBroker} {act : Act}

theorem initial_genuine : ActionBroker.initial.Genuine := by
  refine ⟨⟨?_, ?_, ?_, ?_, trivial⟩, ?_, trivial⟩ <;>
    simp [ActionBroker.initial, BrokerState.initial]

theorem enter_genuine (s : BrokerState) (request : Request) (h : s.Genuine) :
    (enter s request).1.history = s.history ∧ (enter s request).1.Genuine ∧
      (enter s request).2.Genuine s.history := by
  have hn := enter_cases s request
  generalize enter s request = next at hn ⊢
  cases hn with
  | submitted =>
    exact ⟨rfl, ⟨h.queue, h.pending, h.handles, h.messages, h.warranted⟩, rfl, rfl⟩
  | _ => exact ⟨rfl, h, trivial⟩

/-- A step by one thread: the history grows, and the others' positions stay genuine. -/
theorem step_genuine (h : b.Genuine) (he : step config b act = some t) :
    b.state.history <:+ t.state.history ∧ t.Genuine := by
  have hcalls : ∀ {history}, b.state.history <:+ history → ∀ pc ∈ b.calls, pc.Genuine history :=
    fun hh pc hpc => (h.calls pc hpc).mono hh.subset
  have hworker : ∀ {history}, b.state.history <:+ history → b.worker.Genuine history :=
    fun hh => h.worker.mono hh.subset
  apply step_elim (P := fun t => b.state.history <:+ t.state.history ∧ t.Genuine) he
  case call =>
    intro request _
    obtain ⟨hh, hg, hpc⟩ := enter_genuine b.state request h.state
    have hsuffix : b.state.history <:+ (enter b.state request).1.history := by rw [hh]
    refine ⟨hsuffix, hg, ?_, hworker hsuffix⟩
    intro pc hmem
    rcases List.mem_append.mp hmem with hmem | hmem
    · exact hcalls hsuffix pc hmem
    · rw [List.mem_singleton.mp hmem, hh]
      exact hpc
  case proceed =>
    intro n pc next _ hpc hn
    obtain ⟨hh, hg, hnext⟩ := callStep_genuine h.state (h.calls pc (List.mem_of_getElem? hpc)) hn
    refine ⟨hh, hg, ?_, hworker hh⟩
    intro other hmem
    rcases List.mem_or_eq_of_mem_set hmem with hmem | rfl
    · exact hcalls hh other hmem
    · exact hnext
  case worker =>
    intro next _ hn
    obtain ⟨hh, hg, hnext⟩ := workerStep_genuine h.state h.worker hn
    exact ⟨hh, hg, hcalls hh, hnext⟩
  case runtime =>
    intro a next _ hn
    obtain ⟨hh, hg, hnext⟩ := runtimeStep_genuine h.state h.worker hn
    exact ⟨hh, hg, hcalls hh, hnext⟩
  case unwind =>
    intro next _ hn
    obtain ⟨hh, hg, hnext⟩ := unwindStep_genuine h.state hn
    exact ⟨hh, hg, hcalls hh, hnext⟩
  case stray =>
    intro index elapsed stray next _ _ hn
    obtain ⟨hh, hg⟩ := strayStep_genuine h.state hn
    exact ⟨hh, hg, hcalls hh, hworker hh⟩
  case sweeper =>
    intro order next _ hn
    obtain ⟨hh, hg⟩ := sweeperStep_genuine h.state hn
    exact ⟨hh, hg, hcalls hh, hworker hh⟩
  case receiver =>
    intro key drops next hn
    obtain ⟨hh, hg⟩ := receiverStep_genuine h.state hn
    exact ⟨hh, hg, hcalls hh, hworker hh⟩
  case tick =>
    intro elapsed
    exact ⟨List.suffix_refl _, ⟨h.state.queue, h.state.pending, h.state.handles, h.state.messages,
      h.state.warranted⟩, h.calls, h.worker⟩
  case drop => exact fun _ _ => ⟨List.suffix_refl _, h.state, h.calls, h.worker⟩
  case dropping =>
    intro next hn
    obtain ⟨hh, hg⟩ := dropStep_genuine h.state hn
    exact ⟨hh, hg, hcalls hh, hworker hh⟩

theorem reachable_genuine (h : Reachable (system config) b) : b.Genuine :=
  Reachable.invariant (fun _ _ _ he hg => (step_genuine hg he).2) h initial_genuine

theorem history_suffix (hb : Reachable (system config) b) (he : step config b act = some t) :
    b.state.history <:+ t.state.history := (step_genuine (reachable_genuine hb) he).1

theorem runs_history_suffix (hb : Reachable (system config) b) (hr : Runs (system config) Free b t) :
    b.state.history <:+ t.state.history := by
  refine Runs.invariant_of_reachable (P := fun t => b.state.history <:+ t.state.history) ?_ hr hb
    (List.suffix_refl _)
  exact fun c act d hc _ he hp => hp.trans (history_suffix hc he)

end Runs

end FerrousRuntime.Broker
