import FerrousRuntime.Broker.Channels
import FerrousRuntime.Broker.WaitingHandles
import FerrousRuntime.Broker.DefensiveBranches
import FerrousRuntime.Broker.LeftoverReader
import FerrousRuntime.Broker.OutputOrder

/-! # A completed session hands over its output

A caller that is told of a completion holds all that the run returned: in one message, or
in the chunks it received before. The chunks come from the reader of that run alone, and
the worker does not conclude a session before the reader was joined.
-/
namespace FerrousRuntime.Broker
open Tally Transition FerrousRuntime.Runtime Capability Command

def Message.isCompletion : Message → Bool
  | .outcome (.completed _) => true
  | .event (.exited _) => true
  | _ => false

def Message.bytes (stream : Stream) : Message → List UInt8
  | .event sent => bytesOn stream sent
  | .outcome _ => []

def outputIn (stream : Stream) (messages : List Message) : List UInt8 :=
  messages.flatMap (Message.bytes stream)

def outputOn (output : WasiOutput) : Stream → List UInt8
  | .stdout => output.stdout
  | .stderr => output.stderr

/-- The message, after those before it, hands over the output. -/
inductive Hands (output : WasiOutput) (before : List Message) : Message → Prop
  | captured : Hands output before (.outcome (.completed output))
  | streamed : (∀ stream, outputIn stream before = outputOn output stream) →
    Hands output before (.event (.exited (some output.exitCode)))

/-- Earlier in the broker's run, a run of the session came back with the output. -/
def ReturnedBy (config : Config) (b : ActionBroker) (k : ℕ) (output : WasiOutput) : Prop :=
  ∃ (c : ActionBroker) (job : Job) (cell : ℕ) (run : WasiRun), Reachable (system config) c ∧
    Runs (system config) Free c b ∧ c.worker = .running job cell run ∧ job.key = k ∧
    run.phase = .returned (.ok output)

/-- A completion is handed over with the output of a run of its session. -/
def Handed (config : Config) (b : ActionBroker) (k : ℕ) (message : Message) (history : List Event) : Prop :=
  ∃ output, ReturnedBy config b k output ∧ Hands output (sentOn k history) message

theorem outputIn_append (stream : Stream) (before after : List Message) :
    outputIn stream (before ++ after) = outputIn stream before ++ outputIn stream after :=
  List.flatMap_append

theorem outputIn_quiet {k : ℕ} {logged : List Event}
    (h : ∀ stream bytes, .sent k (.event (.output stream bytes)) ∉ logged) (stream : Stream) :
    outputIn stream (sentOn k logged) = [] := by
  refine List.flatMap_eq_nil_iff.mpr ?_
  intro message hm
  cases message with
  | outcome result => rfl
  | event sent =>
    cases sent with
    | output target bytes => exact absurd (mem_sentOn hm) (h target bytes)
    | _ => rfl

theorem emit_delivered {s : BrokerState} {key : ℕ} {stream : Stream} {events : List SessionEvent}
    (event : Option SessionEvent) (h : outputIn stream (sentOn key s.history) = delivered stream events) :
    outputIn stream (sentOn key (s.emit key event).history) = delivered stream (event.toList ++ events) := by
  cases event with
  | none => exact h
  | some event =>
    simp only [BrokerState.emit, BrokerState.send, transcript_cons, outputIn_append, h]
    simp [Event.sentTo, outputIn, Message.bytes, delivered]

theorem completion_not_decided (sink : JobSink) (terminal : Terminal) :
    (terminalMessage sink terminal).isCompletion = false := by
  cases sink <;> cases terminal <;> rfl

theorem completion_returned {sink : JobSink} {result : Except RuntimeError WasiOutput}
    (h : (conclude sink result).message.isCompletion = true) : ∃ output, result = .ok output := by
  cases result with
  | ok output => exact ⟨output, rfl⟩
  | error error => cases sink <;> cases error <;> cases h

/-- What a returned run's reader sent is all that its pipes hold. -/
theorem returned_sent {run : WasiRun} {events : List SessionEvent} {result : Except RuntimeError WasiOutput}
    (hc : run.Collects) (hd : run.Delivery events) (hr : run.phase = .returned result) (stream : Stream) :
    delivered stream events = (run.pipe stream).state.buffer := by
  rcases hc.returned result hr with ⟨stdout, stderr, hx⟩ | ⟨hu, -⟩
  · obtain ⟨-, -, hall⟩ := hc.exited stdout stderr hx
    exact hd.whole (by rw [hx]; rfl) (hall stream)
  · have hempty := hc.unspawned hu stream
    have hread := hd.pipe stream
    refine hd.whole (by rw [hu]; rfl) ?_
    rw [hempty] at hread
    rw [WasiRun.Emptied, hempty]
    exact Nat.le_zero.mp hread

section Steps
variable {config : Config} {b t : ActionBroker} {act : Act} {k : ℕ}

theorem step_outputIn (he : step config b act = some t)
    (hquiet : ∀ stream bytes, ¬ Logs config b act (.sent k (.event (.output stream bytes)))) (stream : Stream) :
    outputIn stream (sentOn k t.state.history) = outputIn stream (sentOn k b.state.history) := by
  obtain ⟨logged, hh, hlogged⟩ := step_logged he
  rw [hh, sentOn, transcript_append, outputIn_append,
    outputIn_quiet (fun stream bytes hin => hquiet stream bytes (hlogged _ hin)), List.append_nil]

/-- Output is sent by the run in the worker's hands, or by a reader that was left behind. -/
theorem Logs.output_source {stream : Stream} {bytes : List UInt8}
    (h : Logs config b act (.sent k (.event (.output stream bytes)))) :
    ((∃ a, act = .runtime a) ∧ ∃ job cell run, b.worker = .running job cell run ∧ job.key = k) ∨
      ∃ index elapsed stray, act = .stray index elapsed ∧ b.strays[index]? = some stray ∧ stray.key = k := by
  cases act with
  | runtime a =>
    cases h with
    | output _ job cell run _ _ hw => exact Or.inl ⟨⟨a, rfl⟩, job, cell, run, hw, rfl⟩
  | stray index elapsed =>
    cases h with
    | stray _ _ stray _ _ hs => exact Or.inr ⟨index, elapsed, stray, rfl, hs, rfl⟩
  | _ =>
    have hsilent := h.not_output (by simp) (by simp)
    cases hsilent

theorem stray_panicked (hb : Reachable (system config) b) {index : ℕ} {stray : Stray}
    (hs : b.strays[index]? = some stray) : ∃ job, .panicked job ∈ b.state.history ∧ job.key = stray.key :=
  (reachable_sourced hb).strays stray (List.mem_of_getElem? hs)

def WorkerPc.carries (k : ℕ) : WorkerPc → Prop
  | .running job _ _ => job.key = k
  | .closing c => c.stage = .send ∧ c.key = k
  | _ => False

def Begun (k : ℕ) (b : ActionBroker) : Prop :=
  0 < b.state.history.countP (Event.isConcluded k) ∨ b.worker.carries k

theorem Begun.step (hb : Reachable (system config) b) (he : step config b act = some t) (h : Begun k b) :
    Begun k t := by
  have hle := (history_suffix hb he).sublist.countP_le (p := Event.isConcluded k)
  rcases h with hc | hw
  · exact Or.inl (hc.trans_le hle)
  · rcases step_worker he with hsame | ⟨next, -, hn, hstate, hnext⟩ | ⟨job, cell, run, hrun, hafter⟩
    · exact Or.inr (by rwa [hsame])
    · rw [Begun, hstate, hnext]
      generalize b.worker = pc at hn hw
      cases workerStep_cases hn with
      | returned job cell run result => exact Or.inr ⟨rfl, hw⟩
      | closing c d _ hs | closed c _ hs =>
        left
        simp only [Closing.step, hw.1, Prod.mk.injEq] at hs
        obtain ⟨rfl, -⟩ := hs
        exact List.countP_pos_iff.mpr ⟨_, List.mem_cons_self, by simp [hw.2, c.terminal]⟩
      | _ => exact hw.elim
    · right
      rw [hrun] at hw
      rcases hafter with ⟨run', hafter⟩ | hafter
      · rwa [hafter]
      · rw [hafter]
        exact ⟨rfl, hw⟩

theorem reachable_begun (h : Reachable (system config) b) : ∀ k stream bytes,
    .sent k (.event (.output stream bytes)) ∈ b.state.history → Begun k b := by
  refine Runs.invariant_of_reachable (P := fun b => ∀ k stream bytes,
    .sent k (.event (.output stream bytes)) ∈ b.state.history → Begun k b) ?_ h (.refl _)
    (by simp [system, ActionBroker.initial, BrokerState.initial])
  intro b act t hb _ he hp k stream bytes hin
  refine Begun.step hb he ?_
  rcases step_logs he hin with hin | hlogs
  · exact hp k stream bytes hin
  · rcases hlogs.output_source with ⟨-, job, cell, run, hw, hkey⟩ | ⟨index, elapsed, stray, -, hs, rfl⟩
    · exact Or.inr (by rwa [hw])
    · obtain ⟨job, hpanic, hkey⟩ := stray_panicked hb hs
      rw [← hkey]
      refine (reachable_panicked hb job hpanic).imp_right ?_
      rintro ⟨c, hw, hstage, hclosing⟩
      rw [hw]
      exact ⟨hstage, hclosing⟩

theorem announce_quiet (h : Reachable (system config) b) {job : Job} {cell : ℕ}
    (hw : b.worker = .announce job cell) (stream : Stream) :
    outputIn stream (sentOn job.key b.state.history) = [] := by
  refine outputIn_quiet (fun stream bytes hin => ?_) stream
  have hopen := worker_unconcluded h job.key (by simp [hw, WorkerPc.footprint, ofKey])
  rcases reachable_begun h job.key stream bytes hin with hc | hc
  · omega
  · rw [hw] at hc
    exact hc

theorem running_unpanicked (h : Reachable (system config) b) {job : Job} {cell : ℕ} {run : WasiRun}
    (hw : b.worker = .running job cell run) :
    ∀ other, .panicked other ∈ b.state.history → other.key ≠ job.key := by
  intro other hpanic hkey
  have hopen := worker_unconcluded h job.key (by simp [hw, WorkerPc.footprint, ofKey])
  rcases reachable_panicked h other hpanic with hc | ⟨c, hc, -⟩
  · rw [hkey] at hc
    omega
  · cases hw.symm.trans hc

theorem stray_apart (h : Reachable (system config) b) {index : ℕ} {stray : Stray}
    (hs : b.strays[index]? = some stray) {job : Job} {cell : ℕ} {run : WasiRun}
    (hw : b.worker = .running job cell run) : stray.key ≠ job.key := by
  intro hkey
  obtain ⟨panicked, hpanic, hsession⟩ := stray_panicked h hs
  exact running_unpanicked h hw panicked hpanic (hsession.trans hkey)

/-- What was sent for a streaming session is what its reader sent. -/
def WorkerPc.Flowing (history : List Event) : WorkerPc → Prop
  | .running job _ run => run.path = .events → run.Collects ∧ ∃ events, run.Delivery events ∧
    ∀ stream, outputIn stream (sentOn job.key history) = delivered stream events
  | _ => True

theorem workerStep_flowing {s : BrokerState} {pc : WorkerPc} {next : BrokerState × WorkerPc}
    (hquiet : ∀ job cell, pc = .announce job cell → ∀ stream, outputIn stream (sentOn job.key s.history) = [])
    (he : workerStep config s pc = some next) : next.2.Flowing next.1.history := by
  cases workerStep_cases he with
  | invoked job cell =>
    intro hpath
    cases hpath
  | started job cell =>
    refine fun _ => ⟨WasiRun.collects_start .., [], WasiRun.delivery_start .., fun stream => ?_⟩
    simp only [BrokerState.log, BrokerState.send, transcript_cons, outputIn_append, hquiet job cell rfl stream]
    simp [Event.sentTo, outputIn, Message.bytes, bytesOn, delivered]
  | _ => trivial

theorem runtimeStep_flowing (hb : Reachable (system config) b) {a : RunAct} {next : BrokerState × WorkerPc}
    (h : b.worker.Flowing b.state.history) (hn : runtimeStep b.state a b.worker = some next) :
    next.2.Flowing next.1.history := by
  have hstreaming := reachable_streaming hb
  obtain ⟨job, cell, run, effect, hw, heff, rfl⟩ := runtimeStep_cases hn
  rw [hw] at h hstreaming
  intro hpath
  have hbefore : run.path = .events := (WasiRun.step_params heff).1.symm.trans hpath
  obtain ⟨hcollects, events, hdelivery, hsent⟩ := h hbefore
  exact ⟨WasiRun.step_collects (hstreaming hbefore) hdelivery hcollects heff, _,
    WasiRun.step_delivery (hstreaming hbefore) hdelivery heff, fun stream => emit_delivered _ (hsent stream)⟩

theorem step_flowing (hb : Reachable (system config) b) (he : step config b act = some t)
    (h : b.worker.Flowing b.state.history) : t.worker.Flowing t.state.history := by
  by_cases hruntime : ∃ a, act = .runtime a
  · obtain ⟨a, rfl⟩ := hruntime
    obtain ⟨next, hn, rfl⟩ := Option.map_eq_some_iff.mp he
    exact runtimeStep_flowing hb h hn
  have hkeep : b.worker.Flowing t.state.history := by
    cases hw : b.worker with
    | running job cell run =>
      rw [hw] at h
      intro hpath
      obtain ⟨hcollects, events, hdelivery, hsent⟩ := h hpath
      refine ⟨hcollects, events, hdelivery, fun stream => ?_⟩
      rw [step_outputIn he ?_ stream, hsent stream]
      intro target bytes hlogs
      rcases hlogs.output_source with ⟨hact, -⟩ | ⟨index, elapsed, stray, -, hs, hsession⟩
      · exact hruntime hact
      · exact stray_apart hb hs hw hsession
    | _ => trivial
  revert hkeep
  apply step_elim (P := fun t => b.worker.Flowing t.state.history → t.worker.Flowing t.state.history) he
  case worker =>
    refine fun next _ hn _ => workerStep_flowing ?_ hn
    exact fun job cell hw => announce_quiet hb hw
  case runtime => exact fun a next ha => absurd ⟨a, ha⟩ hruntime
  case unwind =>
    intro next _ hn _
    obtain ⟨job, cell, run, -, -, rfl⟩ := unwindStep_cases hn
    trivial
  all_goals
    intros
    assumption

theorem reachable_flowing (h : Reachable (system config) b) : b.worker.Flowing b.state.history :=
  Runs.invariant_of_reachable (P := fun b => b.worker.Flowing b.state.history)
    (fun _ _ _ hb _ he hp => step_flowing hb he hp) h (.refl _) trivial

theorem ReturnedBy.step {output : WasiOutput} (he : step config b act = some t)
    (h : ReturnedBy config b k output) : ReturnedBy config t k output := by
  obtain ⟨c, job, cell, run, hc, hruns, hrun⟩ := h
  exact ⟨c, job, cell, run, hc, hruns.step trivial he, hrun⟩

/-- What the worker will report of a run that returned output is handed over by what was sent. -/
theorem returned_handed (h : Reachable (system config) b) {job : Job} {cell : ℕ} {run : WasiRun}
    {output : WasiOutput} (hw : b.worker = .running job cell run) (hr : run.phase = .returned (.ok output)) :
    Handed config b job.key (conclude job.sink (.ok output)).message b.state.history := by
  refine ⟨output, ⟨b, job, cell, run, h, .refl _, hw, rfl, hr⟩, ?_⟩
  have hflowing := reachable_flowing h
  have hpath := ((defensive_branches_unreachable h).running job cell run hw).2.2
  rw [hw] at hflowing
  cases hsink : job.sink with
  | outcome channel => exact .captured
  | events channel =>
    refine .streamed (fun stream => ?_)
    obtain ⟨hcollects, events, hdelivery, hsent⟩ := hflowing (hpath.mpr (by rw [hsink]; rfl))
    obtain ⟨hout, herr⟩ := hcollects.output output hr
    rw [hsent stream, returned_sent hcollects hdelivery hr stream]
    cases stream with
    | stdout => exact hout.symm
    | stderr => exact herr.symm

theorem completion_by_worker (h : Reachable (system config) b) : ∀ thread c, Closes b thread c →
    c.message.isCompletion = true → thread = .worker := by
  refine Runs.invariant_of_reachable (P := fun b => ∀ thread c, Closes b thread c →
    c.message.isCompletion = true → thread = .worker) ?_ h (.refl _) ?_
  · intro b act t hb _ he hp thread c hc hm
    rcases step_closes he hc with hc | ⟨d, hd, hadv⟩ | ho
    · exact hp thread c hc hm
    · exact hp thread d hd (hadv.kept.2.1 ▸ hm)
    · cases ho with
      | denied | cancelled | sawCancelled | timedOut =>
        exact absurd hm (Bool.eq_false_iff.mp (completion_not_decided _ _))
      | _ => rfl
  · intro thread c hc
    cases hc with
    | call n _ hn => simp [system, ActionBroker.initial] at hn
    | worker _ hw => cases hw
    | sweeper _ rest hs => cases hs

/-- A completion that the worker has yet to send hands over its run's output. -/
def WorkerPc.ReportsOutput (config : Config) (b : ActionBroker) (history : List Event) : WorkerPc → Prop
  | .closing c => c.stage = .send → c.message.isCompletion = true →
    (∀ job, .panicked job ∈ history → job.key ≠ c.key) ∧ Handed config b c.key c.message history
  | _ => True

theorem workerStep_reportsOutput (h : Reachable (system config) b) {next : BrokerState × WorkerPc}
    (hn : workerStep config b.state b.worker = some next) : next.2.ReportsOutput config b next.1.history := by
  have hreturned : ∀ job cell run output, b.worker = .running job cell run →
      run.phase = .returned (.ok output) →
      Handed config b job.key (conclude job.sink (.ok output)).message b.state.history :=
    fun _ _ _ _ hw hr => returned_handed h hw hr
  have hcalm : ∀ job cell run, b.worker = .running job cell run →
      ∀ other, .panicked other ∈ b.state.history → other.key ≠ job.key :=
    fun _ _ _ hw => running_unpanicked h hw
  generalize b.worker = pc at hn hreturned hcalm
  cases workerStep_cases hn with
  | returned job cell run result hr =>
    intro _ hm
    obtain ⟨output, rfl⟩ := completion_returned hm
    exact ⟨hcalm job cell run rfl, hreturned job cell run output rfl hr⟩
  | cancelled | unstartable | panicked =>
    exact fun _ hm => absurd hm (Bool.eq_false_iff.mp (completion_not_decided _ _))
  | closing c d _ hs =>
    intro hstage
    have hadvanced := (Closing.step_advances hs).kept.2.2.2.2
    rw [hstage] at hadvanced
    cases hd : c.stage <;> rw [hd] at hadvanced <;> cases hadvanced
  | _ => trivial

theorem Handed.step {message : Message} {history history' : List Event} (he : step config b act = some t)
    (h : Handed config b k message history)
    (hsame : ∀ stream, outputIn stream (sentOn k history') = outputIn stream (sentOn k history)) :
    Handed config t k message history' := by
  obtain ⟨output, hreturned, hhands⟩ := h
  refine ⟨output, hreturned.step he, ?_⟩
  cases hhands with
  | captured => exact .captured
  | streamed hall => exact .streamed (fun stream => (hsame stream).trans (hall stream))

theorem WorkerPc.ReportsOutput.step {pc : WorkerPc} {history : List Event} (he : step config b act = some t)
    (h : pc.ReportsOutput config b history) : pc.ReportsOutput config t history := by
  cases pc with
  | closing c => exact fun hs hm => (h hs hm).imp_right (fun hh => hh.step he (fun _ => rfl))
  | _ => trivial

theorem step_reportsOutput (hb : Reachable (system config) b) (he : step config b act = some t)
    (h : b.worker.ReportsOutput config b b.state.history) : t.worker.ReportsOutput config t t.state.history := by
  have hkeep : b.worker.ReportsOutput config t t.state.history := by
    cases hw : b.worker with
    | closing c =>
      rw [hw] at h
      intro hs hm
      obtain ⟨hcalm, hhanded⟩ := h hs hm
      refine ⟨?_, hhanded.step he (step_outputIn he ?_)⟩
      · intro job hpanic
        rcases step_logs he hpanic with hpanic | hlogs
        · exact hcalm job hpanic
        · rcases (hlogs.panicked he).2.2 with ⟨reason, hother⟩ | ⟨cell, run, hother⟩ <;>
            cases hw.symm.trans hother
      · intro stream bytes hlogs
        rcases hlogs.output_source with
          ⟨-, job, cell, run, hother, -⟩ | ⟨index, elapsed, stray, -, hs, hsession⟩
        · cases hw.symm.trans hother
        · obtain ⟨job, hpanic, hkey⟩ := stray_panicked hb hs
          exact hcalm job hpanic (hkey.trans hsession)
    | _ => trivial
  rcases step_worker he with hsame | ⟨next, -, hn, hstate, hnext⟩ | ⟨job, cell, run, -, ⟨run', hrun⟩ | hpanic⟩
  · rwa [hsame]
  · rw [hstate, hnext]
    exact (workerStep_reportsOutput hb hn).step he
  · rw [hrun]
    trivial
  · rw [hpanic]
    exact fun _ hm => absurd hm (Bool.eq_false_iff.mp (completion_not_decided _ _))

theorem reachable_reportsOutput (h : Reachable (system config) b) :
    b.worker.ReportsOutput config b b.state.history :=
  Runs.invariant_of_reachable (P := fun b => b.worker.ReportsOutput config b b.state.history)
    (fun _ _ _ hb _ he hp => step_reportsOutput hb he hp) h (.refl _) trivial

def HandsOver (config : Config) (b : ActionBroker) : Event → List Event → Prop
  | .sent k message, past => message.isCompletion = true → Handed config b k message past
  | _, _ => True

theorem HandsOver.step (he : step config b act = some t) : ∀ event past, HandsOver config b event past →
    HandsOver config t event past := by
  intro event past h
  cases event with
  | sent k message => exact fun hm => (h hm).step he (fun _ => rfl)
  | _ => trivial

theorem Logs.completion {message : Message} (hb : Reachable (system config) b)
    (h : Logs config b act (.sent k message)) (hm : message.isCompletion = true) :
    act = .worker ∧ ∃ c, b.worker = .closing c ∧ c.stage = .send := by
  cases h with
  | call n pc event hpc h =>
    cases h with
    | closing c event hc =>
      cases hc
      cases completion_by_worker hb (.call n) c (.call n c hpc) hm
  | worker event h =>
    refine ⟨rfl, ?_⟩
    generalize b.worker = pc at h
    cases h with
    | closing c event hc =>
      cases hc with
      | sent hs => exact ⟨c, rfl, hs⟩
    | denied job => exact absurd hm (Bool.eq_false_iff.mp (completion_not_decided _ _))
    | started => cases hm
    | notified sink => cases sink <;> cases hm
  | output => cases hm
  | stray => cases hm
  | sweeper order event h =>
    generalize hs : b.sweeper = pc at h
    cases h with
    | closing c rest event hc =>
      cases hc
      cases completion_by_worker hb .sweeper c (.sweeper c rest hs) hm

theorem step_handsOver (hb : Reachable (system config) b) (he : step config b act = some t)
    (h : Justified (HandsOver config b) b.state.history) : Justified (HandsOver config t) t.state.history := by
  have hpast := h.imp (HandsOver.step he)
  by_cases hsends : act = .worker ∧ ∃ c, b.worker = .closing c ∧ c.stage = .send
  · obtain ⟨rfl, c, hw, hs⟩ := hsends
    have hreports := (reachable_reportsOutput hb).step he
    obtain ⟨next, hn, rfl⟩ := Option.map_eq_some_iff.mp he
    rw [hw] at hn hreports
    simp only [workerStep, Closing.step, hs, Option.some.injEq] at hn
    subst hn
    exact ⟨fun hm => (hreports hs hm).2, hpast⟩
  · refine (step_logged he).justified (fun event hlogs past => ?_) hpast
    cases event with
    | sent k message => exact fun hm => absurd (hlogs.completion hb hm) hsends
    | _ => trivial

theorem reachable_handsOver (h : Reachable (system config) b) :
    Justified (HandsOver config b) b.state.history :=
  Runs.invariant_of_reachable (P := fun b : ActionBroker => Justified (HandsOver config b) b.state.history)
    (fun _ _ _ hb _ he hp => step_handsOver hb he hp) h (.refl _) trivial

/-- A caller that receives a completion has received exactly the output of a run of its session:
in the message itself, or in the chunks before it. -/
theorem completion_hands_over_output (h : Reachable (system config) b) {before after : List Message}
    {message : Message} (hr : receivedOn k b.state.history = before ++ message :: after)
    (hm : message.isCompletion = true) :
    ∃ output, ReturnedBy config b k output ∧ Hands output before message := by
  obtain ⟨rest, hsent⟩ := received_prefix h k
  rw [hr, List.append_assoc, List.cons_append] at hsent
  obtain ⟨later, past, hh, rfl⟩ := sentOn_split hsent.symm
  have hjustified := reachable_handsOver h
  rw [hh] at hjustified
  exact hjustified.split hm

end Steps

def receivedSession : List Act := streamedSession ++ List.replicate 4 (.receive 0)

theorem streamed_output_handed_over : ∃ (b : ActionBroker) (output : WasiOutput),
    ReturnedBy sampleConfig b 0 output ∧ output.exitCode = 0 ∧ outputOn output .stdout = [111] ∧
    outputOn output .stderr = [101] := by
  obtain ⟨b, hb, hr⟩ := (system sampleConfig).reachable_of_replay
    (fun b => receivedOn 0 b.state.history = [.event .started, .event (.output .stdout [111]),
      .event (.output .stderr [101])] ++ [.event (.exited (some 0))]) receivedSession (by decide)
  obtain ⟨output, hreturned, hhands⟩ := completion_hands_over_output hb hr rfl
  generalize hm : Message.event (.exited (some 0)) = message at hhands
  cases hhands with
  | captured => cases hm
  | streamed hall =>
    have hcode : 0 = output.exitCode := by simpa using hm
    exact ⟨b, output, hreturned, hcode.symm, (hall .stdout).symm, (hall .stderr).symm⟩

end FerrousRuntime.Broker
