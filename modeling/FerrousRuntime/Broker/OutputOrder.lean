import FerrousRuntime.Broker.Endings
import FerrousRuntime.Broker.EventStream
import FerrousRuntime.Runtime.Streaming

/-! # Output between start and end

Output on a session's channel comes from the reader of its run. The worker spawns one only
on the streaming path, after it announced the start, and holds the session's job as long
as the run lasts. The reader that a panicked run leaves behind is not held to this.
-/
namespace FerrousRuntime.Broker
open Tally Transition FerrousRuntime.Runtime Capability Command

def Event.isOutput : Event → Bool
  | .sent _ (.event (.output _ _)) => true
  | _ => false

/-- Output is sent after the session's start and before its end, unless its run panicked. -/
def Framed : Event → List Event → Prop
  | .sent key (.event (.output _ _)), past => (∃ job, .panicked job ∈ past ∧ job.key = key) ∨
    .sent key (.event .started) ∈ past ∧ past.countP (Event.isConcluded key) = 0
  | _, _ => True

def WorkerPc.Announced (history : List Event) : WorkerPc → Prop
  | .running job _ run => ((∃ reader, run.watcher = .reader reader) → run.path = .events) ∧
    (run.path = .events → .sent job.key (.event .started) ∈ history)
  | _ => True

theorem WorkerPc.Announced.mono {history history' : List Event} {pc : WorkerPc}
    (h : pc.Announced history) (hsub : history ⊆ history') : pc.Announced history' := by
  cases pc with
  | running job cell run => exact ⟨h.1, fun hp => hsub (h.2 hp)⟩
  | _ => trivial

theorem framed_of_not_output {event : Event} (h : event.isOutput = false) (past : List Event) :
    Framed event past := by
  cases event with
  | sent key message =>
    cases message with
    | event sent =>
      cases sent with
      | output stream bytes => cases h
      | _ => trivial
    | outcome result => trivial
  | _ => trivial

theorem not_output_of_terminal {key : ℕ} {message : Message} (h : message.isTerminal = true) :
    (Event.sent key message).isOutput = false := by
  cases message with
  | event sent => cases sent <;> first | rfl | cases h
  | outcome result => rfl

theorem Closing.Logs.not_output {closing : Closing} {event : Event} (h : closing.Logs event) :
    event.isOutput = false := by
  cases h with
  | sent => exact not_output_of_terminal closing.terminal
  | recorded => rfl

section Threads
variable {config : Config} {s : BrokerState}

theorem workerStep_announced {pc : WorkerPc} {next : BrokerState × WorkerPc}
    (he : workerStep config s pc = some next) : next.2.Announced next.1.history := by
  cases workerStep_cases he with
  | invoked job cell =>
    refine ⟨?_, by simp [WasiRun.start]⟩
    rintro ⟨reader, hr⟩
    simp [WasiRun.start] at hr
  | started job cell => exact ⟨fun _ => rfl, fun _ => List.mem_cons_of_mem _ List.mem_cons_self⟩
  | _ => trivial

end Threads

section Steps
variable {config : Config} {b t : ActionBroker} {act : Act}

/-- The run in the worker's hands is announced, the stray readers are those of panicked
runs, and all output is framed. -/
structure Sourced (b : ActionBroker) : Prop where
  announced : b.worker.Announced b.state.history
  strays : ∀ stray ∈ b.strays, ∃ job, .panicked job ∈ b.state.history ∧ job.key = stray.key
  framed : Justified Framed b.state.history

theorem Logs.not_output {event : Event} (h : Logs config b act event) (hruntime : ∀ a, act ≠ .runtime a)
    (hstray : ∀ index elapsed, act ≠ .stray index elapsed) : event.isOutput = false := by
  cases h with
  | call n pc event _ h =>
    cases h with
    | closing c event hc => exact hc.not_output
    | _ => rfl
  | worker event h =>
    generalize b.worker = pc at h
    cases h with
    | closing c event hc => exact hc.not_output
    | denied job => exact not_output_of_terminal (terminalMessage_isTerminal _ _)
    | notified sink id reason => cases sink <;> rfl
    | _ => rfl
  | sweeper order event h =>
    generalize b.sweeper = pc at h
    cases h with
    | closing c rest event hc => exact hc.not_output
    | _ => rfl
  | output a => exact absurd rfl (hruntime a)
  | stray index elapsed => exact absurd rfl (hstray index elapsed)
  | _ => rfl

theorem step_strays (he : step config b act = some t) : ∀ stray ∈ t.strays,
    (∃ old ∈ b.strays, old.key = stray.key) ∨ ∃ job, .panicked job ∈ t.state.history ∧ job.key = stray.key := by
  have hsame : ∀ stray ∈ b.strays, (∃ old ∈ b.strays, old.key = stray.key) :=
    fun stray hs => ⟨stray, hs, rfl⟩
  apply step_elim (P := fun t => ∀ stray ∈ t.strays, (∃ old ∈ b.strays, old.key = stray.key) ∨
    ∃ job, .panicked job ∈ t.state.history ∧ job.key = stray.key) he
  case unwind =>
    intro next _ hn stray hs
    rcases List.mem_append.mp hs with hs | hs
    · exact Or.inl (hsame stray hs)
    · right
      obtain ⟨job, cell, run, -, -, rfl⟩ := unwindStep_cases hn
      cases List.mem_singleton.mp hs
      exact ⟨job, List.mem_cons_self, rfl⟩
  case stray =>
    intro index elapsed old next _ hold hn stray hs
    left
    rcases List.mem_or_eq_of_mem_set hs with hs | rfl
    · exact hsame stray hs
    · obtain ⟨effect, -, rfl⟩ := Option.map_eq_some_iff.mp hn
      exact ⟨old, List.mem_of_getElem? hold, rfl⟩
  all_goals
    intros
    exact Or.inl (hsame _ ‹_›)

theorem step_sourced (hb : Reachable (system config) b) (he : step config b act = some t)
    (h : Sourced b) : Sourced t := by
  have hsub := (history_suffix hb he).subset
  refine ⟨?_, ?_, ?_⟩
  · have hkeep := h.announced.mono hsub
    revert hkeep
    apply step_elim (P := fun t => b.worker.Announced t.state.history → t.worker.Announced t.state.history) he
    case worker => exact fun next _ hn _ => workerStep_announced hn
    case runtime =>
      intro a next _ hn hkeep
      obtain ⟨job, cell, run, effect, hw, heff, rfl⟩ := runtimeStep_cases hn
      rw [hw] at hkeep
      have hpath := (WasiRun.step_params heff).1
      exact ⟨fun hr => hpath.trans (WasiRun.step_reader heff hkeep.1 hr),
        fun hp => hkeep.2 (hpath.symm.trans hp)⟩
    case unwind =>
      intro next _ hn _
      obtain ⟨job, cell, run, -, -, rfl⟩ := unwindStep_cases hn
      trivial
    all_goals
      intros
      assumption
  · intro stray hs
    rcases step_strays he stray hs with ⟨old, hold, hkey⟩ | hpanic
    · obtain ⟨job, hp, hjob⟩ := h.strays old hold
      exact ⟨job, hsub hp, hjob.trans hkey⟩
    · exact hpanic
  · have hlogged := step_logged he
    cases act with
    | runtime a =>
      obtain ⟨next, hn, rfl⟩ := Option.map_eq_some_iff.mp he
      obtain ⟨job, cell, run, effect, hw, heff, rfl⟩ := runtimeStep_cases hn
      have hannounced := h.announced
      rw [hw] at hannounced
      cases hevent : effect.event with
      | none => simpa [BrokerState.emit, hevent] using h.framed
      | some event =>
        have hpath := hannounced.1 (WasiRun.reader_of_event heff hevent)
        have hopen := worker_unconcluded hb job.key (by simp [hw, WorkerPc.footprint, ofKey])
        obtain ⟨stream, bytes, rfl⟩ := WasiRun.step_event heff event hevent
        simp only [BrokerState.emit, BrokerState.send]
        exact ⟨Or.inr ⟨hannounced.2 hpath, hopen⟩, h.framed⟩
    | stray index elapsed =>
      obtain ⟨stray, hs, he⟩ := Option.bind_eq_some_iff.mp he
      obtain ⟨next, hn, rfl⟩ := Option.map_eq_some_iff.mp he
      rcases stray_history hn with hsame | ⟨stream, bytes, hh⟩
      · exact hsame ▸ h.framed
      · change Justified Framed next.1.history
        rw [hh]
        exact ⟨Or.inl (h.strays stray (List.mem_of_getElem? hs)), h.framed⟩
    | _ =>
      refine hlogged.justified (fun event hlogs => ?_) h.framed
      exact framed_of_not_output (hlogs.not_output (by simp) (by simp))

theorem reachable_sourced (h : Reachable (system config) b) : Sourced b := by
  refine Runs.invariant_of_reachable (P := Sourced) (fun b act t hb _ he hp => step_sourced hb he hp) h
    (.refl _) ⟨trivial, ?_, trivial⟩
  simp [system, ActionBroker.initial]

end Steps

/-- In every run of the streaming path, whoever closes a pipe and when: at its return the
bytes sent on each stream are the bytes successfully written to it, and so are the bytes it
returns with `Ok`. And in every run of the broker, output is sent on a session's channel
after `Started` and before a terminal message, unless the session's run panicked before. -/
theorem streaming_keeps_output :
    (∀ component request cancellable epoch flag s result,
      Reachable (streamSystem component request cancellable epoch flag) s →
      s.solo.run.phase = .returned result →
      (∀ stream, delivered stream s.solo.events = written stream s.writes) ∧
      ∀ output, result = .ok output →
        output.stdout = written .stdout s.writes ∧ output.stderr = written .stderr s.writes) ∧
    ∀ config b key stream bytes later past, Reachable (system config) b →
      b.state.history = later ++ .sent key (.event (.output stream bytes)) :: past →
      (∀ job, .panicked job ∈ past → job.key ≠ key) →
      .sent key (.event .started) ∈ past ∧ past.countP (Event.isConcluded key) = 0 := by
  refine ⟨?_, ?_⟩
  · intro component request cancellable epoch flag s result hs hresult
    refine ⟨returned_delivered hs hresult, ?_⟩
    rintro output rfl
    exact returned_output hs hresult
  · intro config b key stream bytes later past hb hh hcalm
    have hframed := (reachable_sourced hb).framed
    rw [hh] at hframed
    rcases hframed.split with ⟨job, hp, hkey⟩ | hbetween
    · exact absurd hkey (hcalm job hp)
    · exact hbetween

def runSteps (acts : List RunAct) : List StreamAct := acts.map (fun act => .solo (.run act))

/-- A guest that writes before and after a drain, with its other pipe closed from outside. -/
def streamedRun : List StreamAct :=
  runSteps [.main, .build sampleHost, .main, .instantiated, .write .stdout [104, 105], .watch false,
    .watch false] ++ ([.close .stderr] : List StreamAct) ++
  runSteps (([.write .stdout [33], .write .stderr [63], .guestEnd .success, .main, .main] : List RunAct) ++
    List.replicate 12 (RunAct.watch false) ++ ([.main, .main] : List RunAct))

theorem streamed_output_kept :
    (∃ s : Streamed, delivered .stdout s.solo.events = [104, 105, 33] ∧
      delivered .stdout s.solo.events = written .stdout s.writes) ∧
    ∃ (b : ActionBroker) (later past : List Event),
      b.state.history = later ++ .sent 0 (.event (.output .stdout [111])) :: past ∧
        .sent 0 (.event .started) ∈ past := by
  refine ⟨?_, ?_⟩
  · obtain ⟨s, hs, hdelivered, hreturned⟩ :=
      (streamSystem ⟨false⟩ (sampleRequest 1 .read defaultLimits) true 0 false).reachable_of_replay
        (fun s => delivered .stdout s.solo.events = [104, 105, 33] ∧ s.solo.run.isReturned = true)
        streamedRun (by decide)
    cases hphase : s.solo.run.phase with
    | returned result =>
      exact ⟨s, hdelivered, (streaming_keeps_output.1 _ _ _ _ _ s result hs hphase).1 .stdout⟩
    | _ => simp [WasiRun.isReturned, hphase] at hreturned
  · obtain ⟨b, hb, hsent, hcalm⟩ := (system sampleConfig).reachable_of_replay
      (fun b => .sent 0 (.event (.output .stdout [111])) ∈ b.state.history ∧ Unpanicked b.state.history)
      streamedSession (by decide)
    obtain ⟨later, past, hh⟩ := List.append_of_mem hsent
    refine ⟨b, later, past, hh, (streaming_keeps_output.2 _ b _ _ _ later past hb hh ?_).1⟩
    intro job hp
    have hin : .panicked job ∈ b.state.history := by
      rw [hh]
      exact List.mem_append_right _ (List.mem_cons_of_mem _ hp)
    cases hcalm _ hin

end FerrousRuntime.Broker
