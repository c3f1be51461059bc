import FerrousRuntime.Broker.Entitlement
import FerrousRuntime.Broker.Handover
import FerrousRuntime.Runtime.Completeness
import Mathlib.Data.List.Flatten

/-! # What an unread channel holds

Nothing bounds the channel of a session, and its caller need not read it. What bounds it is
the session: its reader sends no empty chunk, and never more of a stream than the pipe took
in, also once a panic has left it behind; a captured run returns what its pipes hold; besides
the output there are two notices and one terminal message at most.
-/
namespace FerrousRuntime.Broker
open Tally Transition FerrousRuntime.Runtime Capability Command

structure ReaderDelivers (history : List Event) (key : ℕ) (run : WasiRun) : Prop where
  owner : ∃ origin, .registered origin ∈ history ∧ origin.key = key ∧ origin.request = run.request
  streaming : run.StreamingInv
  chunk : run.watcher.chunk ≠ some []
  sent : ∃ events, run.Delivery events ∧
    ∀ stream, outputIn stream (sentOn key history) = delivered stream events

namespace ReaderDelivers
variable {history history' : List Event} {key : ℕ} {run : WasiRun}

theorem mono (h : ReaderDelivers history key run) (hsub : history ⊆ history')
    (hsame : ∀ stream, outputIn stream (sentOn key history') = outputIn stream (sentOn key history)) :
    ReaderDelivers history' key run := by
  obtain ⟨origin, ho, howner⟩ := h.owner
  obtain ⟨events, hdelivery, hsent⟩ := h.sent
  exact ⟨⟨origin, hsub ho, howner⟩, h.streaming, h.chunk, events, hdelivery,
    fun stream => (hsame stream).trans (hsent stream)⟩

theorem unwind (h : ReaderDelivers history key run) : ReaderDelivers history key run.unwind := by
  obtain ⟨events, hdelivery, hsent⟩ := h.sent
  refine ⟨h.owner, ⟨h.streaming.path, ?_, ?_, h.streaming.marks, ?_⟩, h.chunk, events,
    ⟨hdelivery.stdout, hdelivery.stderr⟩, hsent⟩ <;> simp [WasiRun.unwind, WasiRun.BeforeEof]

theorem step {s : BrokerState} {flag : Bool} {epoch : ℕ} {act : RunAct} {effect : Effect}
    (h : ReaderDelivers s.history key run) (he : run.step flag epoch act = some effect) :
    ReaderDelivers (s.emit key effect.event).history key effect.run := by
  obtain ⟨origin, ho, hkey, hrequest⟩ := h.owner
  obtain ⟨events, hdelivery, hsent⟩ := h.sent
  refine ⟨⟨origin, ?_, hkey, hrequest.trans (WasiRun.step_params he).2.2.1.symm⟩,
    WasiRun.step_streamingInv h.streaming he, WasiRun.step_chunk he h.chunk, _,
    WasiRun.step_delivery h.streaming hdelivery he, fun stream => emit_delivered _ (hsent stream)⟩
  cases effect.event with
  | none => exact ho
  | some event => exact List.mem_cons_of_mem _ ho

theorem bytes_le (h : ReaderDelivers history key run) (stream : Stream) : ∃ origin, .registered origin ∈ history ∧
    origin.key = key ∧
      (outputIn stream (sentOn key history)).length ≤ origin.request.grant.limits.maxOutputBytes := by
  obtain ⟨origin, ho, hkey, hrequest⟩ := h.owner
  obtain ⟨events, hdelivery, hsent⟩ := h.sent
  refine ⟨origin, ho, hkey, ?_⟩
  rw [hsent stream, hrequest]
  cases stream with
  | stdout => exact hdelivery.stdout.sent_le.1.trans hdelivery.stdout.sent_le.2
  | stderr => exact hdelivery.stderr.sent_le.1.trans hdelivery.stderr.sent_le.2

end ReaderDelivers

section Steps
variable {config : Config} {b t : ActionBroker} {act : Act} {k : ℕ}

def WorkerPc.Chunked : WorkerPc → Prop
  | .running _ _ run => run.watcher.chunk ≠ some []
  | _ => True

theorem workerStep_chunked {s : BrokerState} {pc : WorkerPc} {next : BrokerState × WorkerPc}
    (he : workerStep config s pc = some next) : next.2.Chunked := by
  cases workerStep_cases he with
  | invoked | started => simp [WorkerPc.Chunked, WasiRun.start, Watcher.chunk]
  | _ => trivial

theorem reachable_chunked (h : Reachable (system config) b) : b.worker.Chunked := by
  refine Reachable.invariant (P := fun b => b.worker.Chunked) (fun b act t he hp => ?_) h trivial
  exact step_position (fun _ hn => workerStep_chunked hn)
    (fun _ _ _ _ _ _ _ hp heff => WasiRun.step_chunk heff hp) (fun _ => trivial) he hp

theorem running_readerDelivers (h : Reachable (system config) b) {job : Job} {cell : ℕ} {run : WasiRun}
    (hw : b.worker = .running job cell run) (hr : ∃ reader, run.watcher = .reader reader) :
    ReaderDelivers b.state.history job.key run := by
  have hannounced := (reachable_sourced h).announced
  have hgenuine := (reachable_genuine h).worker
  have hequipped := reachable_equipped h
  have hstreaming := reachable_streaming h
  have hchunked := reachable_chunked h
  have hflowing := reachable_flowing h
  rw [hw] at hannounced hgenuine hequipped hstreaming hchunked hflowing
  have hpath := hannounced.1 hr
  obtain ⟨origin, ho, hrequest, -, hsink⟩ := hgenuine.1
  obtain ⟨-, events, hdelivery, hsent⟩ := hflowing hpath
  exact ⟨⟨origin, ho, by rw [Job.key, Job.key, hsink], hrequest.trans hequipped.1.symm⟩, hstreaming hpath,
    hchunked, events, hdelivery, hsent⟩

/-- The readers that panics left behind, each with a session of its own. -/
structure Leftovers (b : ActionBroker) : Prop where
  delivers : ∀ (index : ℕ) (stray : Stray), b.strays[index]? = some stray →
    (∃ reader, stray.run.watcher = .reader reader) → ReaderDelivers b.state.history stray.key stray.run
  apart : ∀ (i j : ℕ) (stray other : Stray), b.strays[i]? = some stray → b.strays[j]? = some other →
    stray.key = other.key → i = j

inductive Stays (b t : ActionBroker) (act : Act) (index : ℕ) (stray : Stray) : Prop
  | same : b.strays[index]? = some stray → (∀ elapsed, act ≠ .stray index elapsed) → Stays b t act index stray
  | moved (old : Stray) (elapsed : Bool) (effect : Effect) : act = .stray index elapsed →
    b.strays[index]? = some old →
    old.run.step (b.state.flags old.cell) b.state.epoch (.watch elapsed) = some effect →
    stray = { old with run := effect.run } →
    t.state = BrokerState.emit { b.state with epoch := effect.epoch } old.key effect.event →
    Stays b t act index stray
  | unwound (job : Job) (cell : ℕ) (run : WasiRun) : act = .unwind → index = b.strays.length →
    b.worker = .running job cell run → stray = ⟨job.key, cell, run.unwind⟩ →
    t.state.history = .panicked job :: b.state.history → Stays b t act index stray

theorem step_stays (he : step config b act = some t) {index : ℕ} {stray : Stray}
    (hs : t.strays[index]? = some stray) : Stays b t act index stray := by
  cases act with
  | stray i elapsed =>
    obtain ⟨old, hold, he⟩ := Option.bind_eq_some_iff.mp he
    obtain ⟨next, hn, rfl⟩ := Option.map_eq_some_iff.mp he
    obtain ⟨effect, heff, rfl⟩ := Option.map_eq_some_iff.mp hn
    by_cases hi : i = index
    · subst hi
      have hlt := (List.getElem?_eq_some_iff.mp hold).1
      cases hs.symm.trans (List.getElem?_set_self hlt)
      exact .moved old elapsed effect rfl hold heff rfl rfl
    · exact .same ((List.getElem?_set_ne hi).symm.trans hs) (by simp [hi])
  | unwind =>
    obtain ⟨next, hn, rfl⟩ := Option.map_eq_some_iff.mp he
    obtain ⟨job, cell, run, hw, -, rfl⟩ := unwindStep_cases hn
    by_cases hlt : index < b.strays.length
    · exact .same ((List.getElem?_append_left hlt).symm.trans hs) (by simp)
    · have hend : index = b.strays.length := by
        have hbound := (List.getElem?_eq_some_iff.mp hs).1
        simp only [List.length_append, List.length_singleton] at hbound
        omega
      subst hend
      exact .unwound job cell run rfl rfl hw (by simpa using hs.symm) rfl
  | _ =>
    refine .same ?_ (by simp)
    have hsame : b.strays = t.strays := by
      apply step_elim (P := fun t => b.strays = t.strays) he
      case unwind =>
        intro next ha
        cases ha
      case stray =>
        intro i elapsed old next ha
        cases ha
      all_goals
        intros
        rfl
    rwa [hsame]

/-- Only a panic adds a reader, and it takes the session of the worker. -/
theorem step_stray_key (he : step config b act = some t) {index : ℕ} {stray : Stray}
    (hs : t.strays[index]? = some stray) : (∃ old, b.strays[index]? = some old ∧ old.key = stray.key) ∨
      index = b.strays.length ∧ ∃ job cell run, b.worker = .running job cell run ∧ job.key = stray.key := by
  cases step_stays he hs with
  | same hsame => exact Or.inl ⟨stray, hsame, rfl⟩
  | moved old elapsed effect _ hold _ hnew => exact Or.inl ⟨old, hold, by rw [hnew]⟩
  | unwound job cell run _ hindex hw hnew => exact Or.inr ⟨hindex, job, cell, run, hw, by rw [hnew]⟩

theorem step_apart (hb : Reachable (system config) b) (he : step config b act = some t) (h : Leftovers b)
    (i j : ℕ) (stray other : Stray) (hs : t.strays[i]? = some stray) (ho : t.strays[j]? = some other)
    (hkey : stray.key = other.key) : i = j := by
  rcases step_stray_key he hs with ⟨old, hold, hsame⟩ | ⟨hi, job, cell, run, hw, hjob⟩
  · rcases step_stray_key he ho with ⟨old', hold', hsame'⟩ | ⟨-, job, cell, run, hw, hjob⟩
    · exact h.apart i j old old' hold hold' (hsame.trans (hkey.trans hsame'.symm))
    · exact absurd (hsame.trans (hkey.trans hjob.symm)) (stray_apart hb hold hw)
  · rcases step_stray_key he ho with ⟨old', hold', hsame'⟩ | ⟨hj, -⟩
    · exact absurd (hsame'.trans (hkey.symm.trans hjob.symm)) (stray_apart hb hold' hw)
    · exact hi.trans hj.symm

theorem step_readerDelivers (hb : Reachable (system config) b) (he : step config b act = some t) (h : Leftovers b)
    (index : ℕ) (stray : Stray) (hs : t.strays[index]? = some stray)
    (hr : ∃ reader, stray.run.watcher = .reader reader) : ReaderDelivers t.state.history stray.key stray.run := by
  have hsub := (history_suffix hb he).subset
  cases step_stays he hs with
  | same hsame hact =>
    refine (h.delivers index stray hsame hr).mono hsub (step_outputIn he ?_)
    -- what is sent belongs to the worker's session or to another reader's
    intro stream bytes hlogs
    rcases hlogs.output_source with ⟨-, job, cell, run, hw, hkey⟩ | ⟨i, elapsed, other, ha, ho, hkey⟩
    · exact stray_apart hb hsame hw hkey.symm
    · cases h.apart i index other stray ho hsame hkey
      exact hact elapsed ha
  | moved old elapsed effect _ hold heff hnew hstate =>
    subst hnew
    have hdelivers := h.delivers index old hold (WasiRun.watch_reader heff hr)
    rw [hstate]
    exact ReaderDelivers.step (s := { b.state with epoch := effect.epoch }) hdelivers heff
  | unwound job cell run _ _ hw hnew hhistory =>
    subst hnew
    refine ((running_readerDelivers hb hw hr).unwind).mono hsub ?_
    intro stream
    rw [hhistory, sentOn, transcript_cons, outputIn_append]
    exact List.append_nil _

theorem reachable_leftovers (h : Reachable (system config) b) : Leftovers b := by
  refine Runs.invariant_of_reachable (P := Leftovers)
    (fun _ _ _ hb _ he hp => ⟨step_readerDelivers hb he hp, step_apart hb he hp⟩) h (.refl _) ?_
  constructor <;> simp [system, ActionBroker.initial]

theorem emit_chunk (s : BrokerState) (key : ℕ) {run : WasiRun} {flag : Bool} {epoch : ℕ} {a : RunAct}
    {effect : Effect} (heff : run.step flag epoch a = some effect)
    (hchunk : (∃ reader, run.watcher = .reader reader) → run.watcher.chunk ≠ some []) :
    (s.emit key effect.event).history = s.history ∨ ∃ stream bytes,
      (s.emit key effect.event).history = .sent key (.event (.output stream bytes)) :: s.history ∧
        bytes ≠ [] ∧ ∃ reader, effect.run.watcher = .reader reader := by
  cases hevent : effect.event with
  | none => exact Or.inl rfl
  | some event =>
    obtain ⟨hreads, stream, bytes, rfl, hsome⟩ := WasiRun.event_chunk heff hevent
    refine Or.inr ⟨stream, bytes, rfl, ?_, hreads⟩
    rintro rfl
    exact hchunk (WasiRun.reader_of_event heff hevent) hsome

theorem step_output (hb : Reachable (system config) b) (he : step config b act = some t) :
    (∃ logged, t.state.history = logged ++ b.state.history ∧
      ∀ key stream bytes, .sent key (.event (.output stream bytes)) ∉ logged) ∨
    ∃ key stream bytes run, t.state.history = .sent key (.event (.output stream bytes)) :: b.state.history ∧
      bytes ≠ [] ∧ ReaderDelivers t.state.history key run := by
  have ht : Reachable (system config) t := hb.step (a := act) he
  cases act with
  | runtime a =>
    obtain ⟨next, hn, rfl⟩ := Option.map_eq_some_iff.mp he
    obtain ⟨job, cell, run, effect, hw, heff, rfl⟩ := runtimeStep_cases hn
    have hchunked := reachable_chunked hb
    rw [hw] at hchunked
    rcases emit_chunk { b.state with epoch := effect.epoch } job.key heff (fun _ => hchunked) with
      hsame | ⟨stream, bytes, hhistory, hne, hr⟩
    · exact Or.inl ⟨[], hsame, by simp⟩
    · exact Or.inr ⟨job.key, stream, bytes, effect.run, hhistory, hne, running_readerDelivers ht rfl hr⟩
  | stray index elapsed =>
    obtain ⟨old, hold, he'⟩ := Option.bind_eq_some_iff.mp he
    obtain ⟨next, hn, rfl⟩ := Option.map_eq_some_iff.mp he'
    obtain ⟨effect, heff, rfl⟩ := Option.map_eq_some_iff.mp hn
    have hlt := (List.getElem?_eq_some_iff.mp hold).1
    rcases emit_chunk { b.state with epoch := effect.epoch } old.key heff
      (fun hreads => ((reachable_leftovers hb).delivers index old hold hreads).chunk) with
      hsame | ⟨stream, bytes, hhistory, hne, hr⟩
    · exact Or.inl ⟨[], hsame, by simp⟩
    · exact Or.inr ⟨old.key, stream, bytes, effect.run, hhistory, hne,
        (reachable_leftovers ht).delivers index _ (List.getElem?_set_self hlt) hr⟩
  | _ =>
    obtain ⟨logged, hh, hlogged⟩ := step_logged he
    refine Or.inl ⟨logged, hh, fun key stream bytes hin => ?_⟩
    have hsilent := (hlogged _ hin).not_output (by simp) (by simp)
    cases hsilent

/-- Each stream of a session was sent within the session's budget, in chunks that are not empty. -/
structure OutputBounded (history : List Event) : Prop where
  bytes : ∀ k stream, outputIn stream (sentOn k history) = [] ∨ ∃ origin, .registered origin ∈ history ∧
    origin.key = k ∧ (outputIn stream (sentOn k history)).length ≤ origin.request.grant.limits.maxOutputBytes
  chunks : ∀ key stream bytes, .sent key (.event (.output stream bytes)) ∈ history → bytes ≠ []

theorem step_outputBounded (hb : Reachable (system config) b) (he : step config b act = some t)
    (h : OutputBounded b.state.history) : OutputBounded t.state.history := by
  have hsub := (history_suffix hb he).subset
  have hkeep : ∀ k stream,
      outputIn stream (sentOn k t.state.history) = outputIn stream (sentOn k b.state.history) →
      outputIn stream (sentOn k t.state.history) = [] ∨ ∃ origin, .registered origin ∈ t.state.history ∧
        origin.key = k ∧
        (outputIn stream (sentOn k t.state.history)).length ≤ origin.request.grant.limits.maxOutputBytes := by
    intro k stream hsame
    rw [hsame]
    refine (h.bytes k stream).imp_right ?_
    rintro ⟨origin, ho, hbound⟩
    exact ⟨origin, hsub ho, hbound⟩
  rcases step_output hb he with ⟨logged, hh, hquiet⟩ | ⟨key, target, chunk, run, hh, hne, hdelivers⟩
  · refine ⟨fun k stream => hkeep k stream ?_, fun key stream bytes hin => ?_⟩
    · rw [hh, sentOn, transcript_append, outputIn_append, outputIn_quiet (hquiet k), List.append_nil]
    · rw [hh] at hin
      exact h.chunks key stream bytes ((List.mem_append.mp hin).resolve_left (hquiet key stream bytes))
  · refine ⟨fun k stream => ?_, fun other stream bytes hin => ?_⟩
    · by_cases hk : key = k
      · exact Or.inr (hk ▸ hdelivers.bytes_le stream)
      · refine hkeep k stream ?_
        rw [hh, sentOn, transcript_cons]
        simp [Event.sentTo, hk]
    · rw [hh] at hin
      rcases List.mem_cons.mp hin with heq | hin
      · cases heq
        exact hne
      · exact h.chunks other stream bytes hin

theorem reachable_outputBounded (h : Reachable (system config) b) : OutputBounded b.state.history := by
  refine Runs.invariant_of_reachable (P := fun b : ActionBroker => OutputBounded b.state.history)
    (fun _ _ _ hb _ he hp => step_outputBounded hb he hp) h (.refl _) ⟨fun _ _ => Or.inl rfl, ?_⟩
  simp [system, ActionBroker.initial, BrokerState.initial]

def WorkerPc.Confined : WorkerPc → Prop
  | .running _ _ run => run.Confined ∧ run.Reports
  | _ => True

theorem workerStep_confined {s : BrokerState} {pc : WorkerPc} {next : BrokerState × WorkerPc}
    (he : workerStep config s pc = some next) : next.2.Confined := by
  cases workerStep_cases he with
  | invoked | started =>
    refine ⟨WasiRun.confined_start _ _ _ _, ?_⟩
    rintro output ⟨⟩
  | _ => trivial

theorem step_confined (hb : Reachable (system config) b) (he : step config b act = some t)
    (h : b.worker.Confined) : t.worker.Confined := by
  apply step_elim (P := fun t => t.worker.Confined) he
  case worker => exact fun next _ hn => workerStep_confined hn
  case runtime =>
    intro a next _ hn
    have hflowing := reachable_flowing hb
    obtain ⟨job, cell, run, effect, hw, heff, rfl⟩ := runtimeStep_cases hn
    rw [hw] at h hflowing
    exact ⟨WasiRun.step_confined heff h.1, WasiRun.step_reports (fun hpath => (hflowing hpath).1) heff h.2⟩
  case unwind =>
    intro next _ hn
    obtain ⟨job, cell, run, -, -, rfl⟩ := unwindStep_cases hn
    trivial
  all_goals
    intros
    exact h

theorem reachable_confined (h : Reachable (system config) b) : b.worker.Confined :=
  Runs.invariant_of_reachable (P := fun b => b.worker.Confined)
    (fun _ _ _ hb _ he hp => step_confined hb he hp) h (.refl _) trivial

theorem returned_within (h : Reachable (system config) b) {origin : Job} {output : WasiOutput}
    (ho : .registered origin ∈ b.state.history) (hr : ReturnedBy config b origin.key output) (stream : Stream) :
    (outputOn output stream).length ≤ origin.request.grant.limits.maxOutputBytes := by
  obtain ⟨c, job, cell, run, hc, hruns, hw, hkey, hreturned⟩ := hr
  have hconfined := reachable_confined hc
  have hequipped := reachable_equipped hc
  have hgenuine := (reachable_genuine hc).worker
  rw [hw] at hconfined hequipped hgenuine
  obtain ⟨source, hs, hrequest, -, hsink⟩ := hgenuine.1
  have hsource : source.key = origin.key := by rw [← hkey, Job.key, Job.key, hsink]
  obtain rfl := registered_unique h ((runs_history_suffix hc hruns).subset hs) ho hsource
  have hbudget : run.budget = source.request.grant.limits.maxOutputBytes := by
    rw [WasiRun.budget, hequipped.1, hrequest]
  obtain ⟨hout, herr⟩ := hconfined.2 output hreturned
  rw [← hbudget]
  cases stream with
  | stdout => exact (congrArg List.length hout).trans_le (hconfined.1 .stdout).2
  | stderr => exact (congrArg List.length herr).trans_le (hconfined.1 .stderr).2

theorem completed_within (h : Reachable (system config) b) {origin : Job} {output : WasiOutput}
    (ho : .registered origin ∈ b.state.history)
    (hsent : .sent origin.key (.outcome (.completed output)) ∈ b.state.history) (stream : Stream) :
    (outputOn output stream).length ≤ origin.request.grant.limits.maxOutputBytes := by
  obtain ⟨past, -, hhanded⟩ := (reachable_handsOver h).of_mem hsent
  obtain ⟨other, hreturned, hhands⟩ := hhanded rfl
  cases hhands
  exact returned_within h ho hreturned stream

end Steps

def Message.isOutput : Message → Bool
  | .event (.output _ _) => true
  | _ => false

def Message.isNotice (message : Message) : Bool := !message.isTerminal && !message.isOutput

def Event.isNotice (k : ℕ) : Event → Bool
  | .sent key message => key == k && message.isNotice
  | _ => false

section Notices
variable {config : Config} {b t : ActionBroker} {act : Act} {k : ℕ}

/-- The worker alone sends notices, once a session is parked and once it starts. -/
theorem Logs.notice_by_worker {message : Message} (h : Logs config b act (.sent k message))
    (hm : message.isNotice = true) : act = .worker := by
  have hclosing : ∀ {closing : Closing} {event : Event}, closing.Logs event → event ≠ .sent k message := by
    rintro closing event hc rfl
    cases hc with
    | sent => simp [Message.isNotice, closing.terminal] at hm
  cases h with
  | call n pc event _ h =>
    generalize hevent : Event.sent k message = event at h
    cases h with
    | closing c event hc => exact absurd hevent.symm (hclosing hc)
    | _ => cases hevent
  | worker => rfl
  | output => simp [Message.isNotice, Message.isOutput] at hm
  | stray => simp [Message.isNotice, Message.isOutput] at hm
  | sweeper order event h =>
    generalize hevent : Event.sent k message = event at h
    generalize b.sweeper = pc at h
    cases h with
    | closing c rest event hc => exact absurd hevent.symm (hclosing hc)
    | _ => cases hevent

theorem approvalMessage_isNotice (sink : JobSink) (reason : ApprovalReason) :
    (approvalMessage sink reason).isNotice = true := by cases sink <;> rfl

theorem terminal_not_notice {message : Message} (h : message.isTerminal = true) : message.isNotice = false := by
  simp [Message.isNotice, h]

theorem Closing.step_notices (s : BrokerState) (closing : Closing) (k : ℕ) :
    (closing.step s).1.history.countP (Event.isNotice k) = s.history.countP (Event.isNotice k) ∧
      (closing.step s).1.history.countP (Event.isParked k) = s.history.countP (Event.isParked k) ∧
      (closing.step s).1.history.countP (Event.isInvoked k) = s.history.countP (Event.isInvoked k) := by
  have hquiet := terminal_not_notice closing.terminal
  unfold Closing.step
  split <;> simp [BrokerState.send, BrokerState.record, BrokerState.release, Event.isNotice, hquiet]

/-- A notice is due once a session is parked, and goes out with the call of the runtime once it
starts. -/
theorem workerStep_notices {s : BrokerState} {pc : WorkerPc} {next : BrokerState × WorkerPc}
    (he : workerStep config s pc = some next) (k : ℕ) :
    next.1.history.countP (Event.isNotice k) + one (next.2.notifying == some k) +
        s.history.countP (Event.isParked k) + s.history.countP (Event.isInvoked k) ≤
      s.history.countP (Event.isNotice k) + one (pc.notifying == some k) +
        next.1.history.countP (Event.isParked k) + next.1.history.countP (Event.isInvoked k) := by
  cases workerStep_cases he with
  | parked job deadline reason =>
    cases s.pending.lookup job.id <;>
      simp [WorkerPc.notifying, countP_cons_one, displacement, Event.isNotice, ofKey, Job.key] <;> omega
  | notified sink id reason | unnotified sink id reason =>
    simp [WorkerPc.notifying, BrokerState.send, countP_cons_one, Event.isNotice, approvalMessage_isNotice]
    omega
  | started job cell =>
    simp only [WorkerPc.notifying, BrokerState.log, BrokerState.send, countP_cons_one, Event.isNotice,
      Event.isParked, Event.isInvoked]
    have hle : one (job.key == k && (Message.event .started).isNotice) ≤ one (job.key == k) := by
      cases job.key == k <;> simp [one_le]
    simp
    omega
  | closing c d _ hs | closed c _ hs =>
    obtain ⟨hnotices, hparked, hinvoked⟩ := c.step_notices s k
    rw [hs] at hnotices hparked hinvoked
    simp [WorkerPc.notifying, hnotices, hparked, hinvoked]
  | denied job =>
    have hquiet := terminal_not_notice (terminalMessage_isTerminal job.sink
      (.deniedWith (.invalidTransition "session handle disappeared before start")))
    simp [WorkerPc.notifying, BrokerState.send, Event.isNotice, hquiet]
  | _ => simp [WorkerPc.notifying, BrokerState.log, BrokerState.release, countP_cons_one, Event.isNotice]

theorem step_notices (hb : Reachable (system config) b) (he : step config b act = some t)
    (h : b.state.history.countP (Event.isNotice k) + one (b.worker.notifying == some k) ≤
      b.state.history.countP (Event.isParked k) + b.state.history.countP (Event.isInvoked k)) :
    t.state.history.countP (Event.isNotice k) + one (t.worker.notifying == some k) ≤
      t.state.history.countP (Event.isParked k) + t.state.history.countP (Event.isInvoked k) := by
  by_cases hact : act = .worker
  · subst hact
    obtain ⟨next, hn, rfl⟩ := Option.map_eq_some_iff.mp he
    have hmoved := workerStep_notices hn k
    dsimp only
    omega
  · have hsuffix := (history_suffix hb he).sublist
    have hparked := hsuffix.countP_le (p := Event.isParked k)
    have hinvoked := hsuffix.countP_le (p := Event.isInvoked k)
    have hnotices : t.state.history.countP (Event.isNotice k) = b.state.history.countP (Event.isNotice k) := by
      obtain ⟨logged, hh, hlogged⟩ := step_logged he
      have hnone : logged.countP (Event.isNotice k) = 0 := by
        refine List.countP_eq_zero.mpr (fun event hin hnotice => ?_)
        cases event with
        | sent key message =>
          obtain ⟨-, hm⟩ := (Bool.and_eq_true _ _).mp hnotice
          exact hact ((hlogged _ hin).notice_by_worker hm)
        | _ => cases hnotice
      rw [hh, List.countP_append, hnone, Nat.zero_add]
    have hdue : one (t.worker.notifying == some k) ≤ one (b.worker.notifying == some k) := by
      rcases step_worker he with hsame | ⟨next, ha, -⟩ | ⟨job, cell, run, -, ⟨run', hrun⟩ | hpanic⟩
      · rw [hsame]
      · exact absurd ha hact
      · simp [hrun, WorkerPc.notifying]
      · simp [hpanic, WorkerPc.notifying]
    omega

theorem notices_le_two (h : Reachable (system config) b) (k : ℕ) :
    b.state.history.countP (Event.isNotice k) ≤ 2 := by
  have hnotices := Runs.invariant_of_reachable (P := fun b : ActionBroker =>
    b.state.history.countP (Event.isNotice k) + one (b.worker.notifying == some k) ≤
      b.state.history.countP (Event.isParked k) + b.state.history.countP (Event.isInvoked k))
    (fun _ _ _ hb _ he hp => step_notices hb he hp) h (.refl _)
    (by simp [system, ActionBroker.initial, BrokerState.initial, WorkerPc.notifying])
  have hparked := parked_once h k
  have hledger := reachable_ledger h k
  have hborn := hledger.born_le
  have hstarted := hledger.started
  have hinvoked := hledger.invoked
  omega

end Notices

section Messages

theorem length_eq_kinds (messages : List Message) : messages.length = messages.countP Message.isNotice +
    messages.countP Message.isTerminal + messages.countP Message.isOutput := by
  induction messages with
  | nil => rfl
  | cons message rest ih =>
    simp only [List.length_cons, countP_cons_one, ih]
    have hkind : one message.isNotice + one message.isTerminal + one message.isOutput = 1 := by
      cases message with
      | outcome result => cases result <;> rfl
      | event sent => cases sent <;> rfl
    omega

/-- Chunks that are not empty are no more than their bytes. -/
theorem output_count_le {messages : List Message}
    (h : ∀ stream bytes, .event (.output stream bytes) ∈ messages → bytes ≠ []) :
    messages.countP Message.isOutput ≤
      (outputIn .stdout messages).length + (outputIn .stderr messages).length := by
  induction messages with
  | nil => exact Nat.le_refl _
  | cons message rest ih =>
    have hrest := ih (fun stream bytes hin => h stream bytes (List.mem_cons_of_mem _ hin))
    have hfirst : one message.isOutput ≤ (message.bytes .stdout).length + (message.bytes .stderr).length := by
      cases message with
      | outcome result => exact Nat.zero_le _
      | event sent =>
        cases sent with
        | output stream bytes =>
          have hpos := List.length_pos_iff.mpr (h stream bytes List.mem_cons_self)
          cases stream <;> simp [Message.isOutput, Message.bytes, bytesOn] <;> omega
        | _ => exact Nat.zero_le _
    simp only [countP_cons_one, outputIn, List.flatMap_cons, List.length_append] at hrest ⊢
    omega

theorem sentOn_countP {kind : Message → Bool} {counted : Event → Bool} {k : ℕ}
    (h : ∀ event, counted event = ((event.sentTo k).map kind).getD false) (history : List Event) :
    (sentOn k history).countP kind = history.countP counted := by
  rw [sentOn, transcript, List.countP_reverse, List.countP_filterMap]
  exact List.countP_congr (fun event _ => by rw [h event])

theorem isNotice_eq (k : ℕ) (event : Event) :
    event.isNotice k = ((event.sentTo k).map Message.isNotice).getD false := by
  cases event with
  | sent key message => by_cases hk : key = k <;> simp [Event.isNotice, Event.sentTo, hk]
  | _ => rfl

theorem isConcluded_eq (k : ℕ) (event : Event) :
    event.isConcluded k = ((event.sentTo k).map Message.isTerminal).getD false := by
  cases event with
  | sent key message => by_cases hk : key = k <;> simp [Event.sentTo, hk]
  | _ => rfl

end Messages

/-- Messages that cost no more than a session's output, two notices and one end. -/
structure Affordable (budget : ℕ) (messages : List Message) : Prop where
  bytes : ∀ stream, (outputIn stream messages).length ≤ budget
  completed : ∀ output, .outcome (.completed output) ∈ messages → ∀ stream,
    (outputOn output stream).length ≤ budget
  messages : messages.length ≤ 2 * budget + 3

/-- What waits in a channel is among what was sent on it. -/
theorem Affordable.sublist {budget : ℕ} {waiting sent : List Message} (h : Affordable budget sent)
    (hsub : waiting.Sublist sent) : Affordable budget waiting :=
  ⟨fun stream => (List.Sublist.flatMap hsub (Message.bytes stream)).length_le.trans (h.bytes stream),
    fun output hin => h.completed output (hsub.subset hin), hsub.length_le.trans h.messages⟩

section Runs
variable {config : Config} {b : ActionBroker} {origin : Job}

theorem sent_affordable (h : Reachable (system config) b) (ho : .registered origin ∈ b.state.history) :
    Affordable origin.request.grant.limits.maxOutputBytes (sentOn origin.key b.state.history) := by
  have hbounded := reachable_outputBounded h
  have hbytes : ∀ stream, (outputIn stream (sentOn origin.key b.state.history)).length ≤
      origin.request.grant.limits.maxOutputBytes := by
    intro stream
    rcases hbounded.bytes origin.key stream with hnone | ⟨other, hother, hkey, hbound⟩
    · rw [hnone]
      exact Nat.zero_le _
    · obtain rfl := registered_unique h hother ho hkey
      exact hbound
  refine ⟨hbytes, fun output hin => completed_within h ho (mem_sentOn hin), ?_⟩
  have hnotices := notices_le_two h origin.key
  have hends := (reachable_ledger h origin.key).owned
  have hborn := (reachable_ledger h origin.key).born_le
  have hchunks := output_count_le (fun stream bytes hin =>
    hbounded.chunks origin.key stream bytes (mem_sentOn hin))
  have hout := hbytes .stdout
  have herr := hbytes .stderr
  rw [length_eq_kinds, sentOn_countP (isNotice_eq origin.key), sentOn_countP (isConcluded_eq origin.key)]
  omega

/-- However little of it its caller reads, and even if its run panics, a session's channel
never holds more than its request has budgeted: each stream's output within the budget, in
chunks or in a completion, in no more messages than bytes and three besides. -/
theorem backlog_is_bounded (h : Reachable (system config) b) (ho : .registered origin ∈ b.state.history) :
    Affordable origin.request.grant.limits.maxOutputBytes (sentOn origin.key b.state.history) ∧
      Affordable origin.request.grant.limits.maxOutputBytes (b.state.channels origin.key).messages := by
  have hsent := sent_affordable h ho
  obtain ⟨lost, htransit, -⟩ := reachable_inTransit h origin.key
  refine ⟨hsent, hsent.sublist ?_⟩
  rw [htransit, List.append_assoc]
  exact (List.sublist_append_left _ _).trans (List.sublist_append_right _ _)

end Runs

def frugalJob : Job := newJob true ⟨false⟩ (sampleRequest 1 .readWrite oneByte) 0

def unreadSession : List Act :=
  ([.call (.submit true frugalJob.component frugalJob.request), .proceed 0, .proceed 0] : List Act) ++
    parking ++
    ([.worker, .call (.approve 1), .proceed 1, .proceed 1, .proceed 1, .worker, .worker, .worker, .worker,
      .runtime .main, .runtime (.build sampleHost), .runtime .main, .runtime .instantiated,
      .runtime (.write .stdout [111]), .runtime (.write .stderr [101]), .runtime (.guestEnd .success),
      .runtime .main, .runtime .main] : List Act) ++
    List.replicate 10 (.runtime (.watch false)) ++
    ([.runtime .main, .runtime .main, .worker, .worker, .worker] : List Act)

theorem unread_backlog_bounded : ∃ b : ActionBroker,
    (b.state.channels frugalJob.key).messages.length = 2 * frugalJob.request.grant.limits.maxOutputBytes + 3 ∧
    Affordable frugalJob.request.grant.limits.maxOutputBytes (sentOn frugalJob.key b.state.history) ∧
    Affordable frugalJob.request.grant.limits.maxOutputBytes (b.state.channels frugalJob.key).messages := by
  obtain ⟨b, hb, ho, hfull⟩ := (system sampleConfig).reachable_of_replay
    (fun b => .registered frugalJob ∈ b.state.history ∧ (b.state.channels frugalJob.key).messages.length =
      2 * frugalJob.request.grant.limits.maxOutputBytes + 3)
    unreadSession (by decide)
  exact ⟨b, hfull, backlog_is_bounded hb ho⟩

end FerrousRuntime.Broker
