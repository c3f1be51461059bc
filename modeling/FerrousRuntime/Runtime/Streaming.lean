import FerrousRuntime.Runtime.OutputBudget

/-! # The stream is complete

The reader takes the end-of-stream mark under the lock under which it drains, and marks
are set after the last write. So a reader that leaves its loop has drained both pipes for
good: what it sent, what it returns and what the guest wrote are the same bytes. Closing a
pipe, whoever does it and when, only refuses later writes.
-/
namespace FerrousRuntime.Runtime
open Capability Command Pipe Transition

def WasiRun.isReturned (run : WasiRun) : Bool :=
  match run.phase with
  | .returned _ => true
  | _ => false

structure Streamed where
  solo : Solo
  writes : List (Stream × List UInt8)

inductive StreamAct
  | solo (act : SoloAct)
  /-- `close` on one of the pipes, by anyone -/
  | close (stream : Stream)

def accepted (run : WasiRun) : SoloAct → List (Stream × List UInt8)
  | .run (.write stream bytes) =>
    match (run.pipe stream).write bytes with
    | .ok _ => [(stream, bytes)]
    | .error _ => []
  | _ => []

def WasiRun.closePipe (run : WasiRun) (stream : Stream) : WasiRun :=
  run.setPipe stream (run.pipe stream).close

def Streamed.step (s : Streamed) : StreamAct → Option Streamed
  | .solo act => (s.solo.step act).map (fun next => ⟨next, accepted s.solo.run act ++ s.writes⟩)
  | .close stream => some { s with solo := { s.solo with run := s.solo.run.closePipe stream } }

def streamSystem (component : Component) (request : CommandRequest) (cancellable : Bool) (epoch : ℕ)
    (flag : Bool) : System Streamed StreamAct where
  init := ⟨⟨.start .events component request cancellable, epoch, flag, []⟩, []⟩
  step := Streamed.step

def written (stream : Stream) : List (Stream × List UInt8) → List UInt8
  | [] => []
  | (s, bytes) :: past => written stream past ++ if s = stream then bytes else []

def Reader.total (reader : Reader) : Stream → List UInt8
  | .stdout => reader.totalStdout
  | .stderr => reader.totalStderr

def Reader.sawEof (reader : Reader) : Stream → Bool
  | .stdout => reader.outEof
  | .stderr => reader.errEof

namespace WasiRun

def Emptied (run : WasiRun) (stream : Stream) : Prop :=
  (run.pipe stream).state.readPos = (run.pipe stream).state.buffer.length

/-- The reader collects what it drained, sees the end of a stream when it has drained it
whole, and hands the collected bytes to the caller. -/
structure Collects (run : WasiRun) : Prop where
  reads : ∀ pc ticks, run.watcher ≠ .watchdog pc ticks
  totals : ∀ reader, run.watcher = .reader reader → ∀ stream,
    reader.total stream = (run.pipe stream).state.buffer.take (run.pipe stream).state.readPos
  emptied : ∀ reader, run.watcher = .reader reader → ∀ stream, reader.sawEof stream = true →
    run.Emptied stream
  unspawned : run.watcher = .unspawned → ∀ stream, (run.pipe stream).state.buffer = []
  exited : ∀ stdout stderr, run.watcher = .exited stdout stderr →
    stdout = run.stdout.state.buffer ∧ stderr = run.stderr.state.buffer ∧ ∀ stream, run.Emptied stream
  joined : ∀ guestEnd, run.phase = .classify guestEnd → ∃ stdout stderr, run.watcher = .exited stdout stderr
  returned : ∀ result, run.phase = .returned result →
    (∃ stdout stderr, run.watcher = .exited stdout stderr) ∨
      run.watcher = .unspawned ∧ ∃ error, result = .error error
  output : ∀ output, run.phase = .returned (.ok output) →
    output.stdout = run.stdout.state.buffer ∧ output.stderr = run.stderr.state.buffer

variable {run next : WasiRun} {events : List SessionEvent}

theorem collects_start (component : Component) (request : CommandRequest) (cancellable : Bool) :
    Collects (start .events component request cancellable) := by
  refine ⟨?_, ?_, ?_, ?_, ?_, ?_, ?_, ?_⟩
  case refine_4 =>
    intro _ stream
    cases stream <;> rfl
  all_goals simp [start]

theorem Collects.frame (h : Collects run) (hw : next.watcher = run.watcher)
    (hb : ∀ stream, (next.pipe stream).state.buffer = (run.pipe stream).state.buffer)
    (hr : ∀ stream, (next.pipe stream).state.readPos = (run.pipe stream).state.readPos)
    (hj : ∀ guestEnd, next.phase = .classify guestEnd → ∃ stdout stderr, run.watcher = .exited stdout stderr)
    (hreturned : ∀ result, next.phase = .returned result →
      (∃ stdout stderr, run.watcher = .exited stdout stderr) ∨
        run.watcher = .unspawned ∧ ∃ error, result = .error error)
    (ho : ∀ output, next.phase = .returned (.ok output) →
      output.stdout = run.stdout.state.buffer ∧ output.stderr = run.stderr.state.buffer) :
    Collects next := by
  have hsame : ∀ stream, run.Emptied stream → next.Emptied stream := by
    intro stream he
    rw [Emptied, hb, hr]
    exact he
  have hout : next.stdout.state.buffer = run.stdout.state.buffer := hb .stdout
  have herr : next.stderr.state.buffer = run.stderr.state.buffer := hb .stderr
  refine ⟨?_, ?_, ?_, ?_, ?_, ?_, ?_, ?_⟩
  · rw [hw]
    exact h.reads
  · intro reader hreader stream
    rw [hb, hr]
    exact h.totals reader (hw ▸ hreader) stream
  · exact fun reader hreader stream heof => hsame stream (h.emptied reader (hw ▸ hreader) stream heof)
  · intro hu stream
    rw [hb]
    exact h.unspawned (hw ▸ hu) stream
  · intro stdout stderr hx
    obtain ⟨ho, he, hall⟩ := h.exited stdout stderr (hw ▸ hx)
    exact ⟨ho.trans hout.symm, he.trans herr.symm, fun stream => hsame stream (hall stream)⟩
  · rw [hw]
    exact hj
  · rw [hw]
    exact hreturned
  · rw [hout, herr]
    exact ho

theorem closePipe_collects (h : Collects run) (stream : Stream) : Collects (run.closePipe stream) := by
  refine h.frame ?_ ?_ ?_ ?_ ?_ ?_
  · cases stream <;> rfl
  · intro other
    cases stream <;> cases other <;> rfl
  · intro other
    cases stream <;> cases other <;> rfl
  · cases stream <;> exact h.joined
  · cases stream <;> exact h.returned
  · cases stream <;> exact h.output

theorem guestExecuting_phase (hg : run.guestExecuting) : run.phase = .instantiate ∨ run.phase = .call := by
  unfold guestExecuting at hg
  cases hp : run.phase <;> simp [hp] at hg ⊢

theorem StreamingInv.reading (h : StreamingInv run) (hg : run.guestExecuting) :
    ∃ reader, run.watcher = .reader reader ∧ ∀ stream, reader.sawEof stream = false := by
  have hphase := guestExecuting_phase hg
  obtain ⟨reader, hr⟩ := h.spawned hphase
  have hopen := h.open_ (by rcases hphase with hp | hp <;> simp [hp, BeforeEof])
  obtain ⟨hout, herr⟩ := h.marks reader hr
  rw [hopen.1] at hout
  rw [hopen.2] at herr
  refine ⟨reader, hr, fun stream => ?_⟩
  cases stream with
  | stdout => simpa [Reader.sawEof] using hout
  | stderr => simpa [Reader.sawEof] using herr

theorem Delivery.pipe (h : Delivery run events) (stream : Stream) :
    (run.pipe stream).state.readPos ≤ (run.pipe stream).state.buffer.length := by
  cases stream with
  | stdout => exact h.stdout.wellFormed.read
  | stderr => exact h.stderr.wellFormed.read

theorem stopGuest_collects (hs : run.StreamingInv) (h : Collects run) (guestEnd : GuestEnd) :
    Collects (run.stopGuest guestEnd) := by
  refine h.frame rfl (fun stream => by cases stream <;> rfl) (fun stream => by cases stream <;> rfl) ?_ ?_ ?_
  all_goals simp [stopGuest, hs.path, afterGuest]

theorem setPipe_collects {stream : Stream} {bytes : List UInt8} {pipe : StreamOutputPipe}
    (hs : run.StreamingInv) (hd : Delivery run events) (h : Collects run) (hg : run.guestExecuting)
    (hw : (run.pipe stream).write bytes = .ok pipe) : Collects (run.setPipe stream pipe) := by
  obtain ⟨reader, hr, hunseen⟩ := hs.reading hg
  have hphase := guestExecuting_phase hg
  obtain ⟨-, -, rfl⟩ := StreamOutputPipe.write_eq_ok hw
  have hwatcher : ∀ pipe, (run.setPipe stream pipe).watcher = .reader reader := by
    intro pipe
    cases stream <;> exact hr
  have hafter : ∀ pipe, (run.setPipe stream pipe).phase = run.phase := by
    intro pipe
    cases stream <;> rfl
  refine ⟨?_, ?_, ?_, ?_, ?_, ?_, ?_, ?_⟩
  · intro pc ticks hw
    cases (hwatcher _).symm.trans hw
  · intro other hother target
    cases (hwatcher _).symm.trans hother
    have htotal := h.totals reader hr target
    have hread := hd.pipe target
    cases stream <;> cases target <;> simp only [setPipe, WasiRun.pipe] at htotal hread ⊢ <;>
      first
        | exact htotal
        | exact htotal.trans (List.take_append_of_le_length hread).symm
  · intro other hother target heof
    cases (hwatcher _).symm.trans hother
    rw [hunseen target] at heof
    cases heof
  · intro hu
    cases (hwatcher _).symm.trans hu
  · intro stdout stderr hx
    cases (hwatcher _).symm.trans hx
  · intro guestEnd hp
    rw [hafter] at hp
    rcases hphase with hi | hc
    · cases hi.symm.trans hp
    · cases hc.symm.trans hp
  · intro result hp
    rw [hafter] at hp
    rcases hphase with hi | hc
    · cases hi.symm.trans hp
    · cases hc.symm.trans hp
  · intro output hp
    rw [hafter] at hp
    rcases hphase with hi | hc
    · cases hi.symm.trans hp
    · cases hc.symm.trans hp

theorem guestWrite_collects (hs : run.StreamingInv) (hd : Delivery run events) (h : Collects run)
    (hg : run.guestExecuting) (stream : Stream) (bytes : List UInt8) :
    Collects (run.guestWrite stream bytes) := by
  rcases guestWrite_cases run stream bytes with he | he | ⟨pipe, -, hw, he⟩ | ⟨pipe, hp, -, -⟩
  · rwa [he]
  · exact he ▸ stopGuest_collects hs h _
  · exact he ▸ setPipe_collects hs hd h hg hw
  · exact absurd (hs.path.symm.trans hp) (by simp)

theorem mainStep_collects {cancelled : Bool} (hs : run.StreamingInv) (h : Collects run)
    (hn : MainSteps cancelled run next) : Collects next := by
  cases hn with
  | locked => exact h.frame rfl (fun _ => rfl) (fun _ => rfl) (by simp) (by simp) (by simp)
  | spawned hp =>
    -- the reader starts with empty totals on empty pipes
    have hbuffer := h.unspawned (hs.unspawned (Or.inr (Or.inr hp)))
    refine ⟨by simp [spawned, hs.path], ?_, ?_, ?_, ?_, by simp [hs.path], by simp [hs.path],
      by simp [hs.path]⟩
    · intro reader hr stream
      simp only [spawned, hs.path, Watcher.reader.injEq] at hr
      subst hr
      have hempty := hbuffer stream
      cases stream <;> simp only [WasiRun.pipe] at hempty ⊢ <;> simp [Reader.total, hempty]
    · intro reader hr stream heof
      simp only [spawned, hs.path, Watcher.reader.injEq] at hr
      subst hr
      cases stream <;> cases heof
    · intro hu
      simp [spawned, hs.path] at hu
    · intro stdout stderr hx
      simp [spawned, hs.path] at hx
  | endedStdout =>
    exact h.frame rfl (fun stream => by cases stream <;> rfl) (fun stream => by cases stream <;> rfl)
      (by simp) (by simp) (by simp)
  | endedStderr =>
    exact h.frame rfl (fun stream => by cases stream <;> rfl) (fun stream => by cases stream <;> rfl)
      (by simp) (by simp) (by simp)
  | stopped => exact h.frame rfl (fun _ => rfl) (fun _ => rfl) (by simp) (by simp) (by simp)
  | joined guestEnd stdout stderr _ hx =>
    exact h.frame rfl (fun _ => rfl) (fun _ => rfl) (fun _ _ => ⟨stdout, stderr, hx⟩) (by simp) (by simp)
  | classified guestEnd hp =>
    obtain ⟨stdout, stderr, hx⟩ := h.joined guestEnd hp
    obtain ⟨hout, herr, -⟩ := h.exited stdout stderr hx
    refine h.frame rfl (fun _ => rfl) (fun _ => rfl) (by simp) (fun _ _ => Or.inl ⟨stdout, stderr, hx⟩) ?_
    intro output ho
    have houtputs : run.outputs = (run.stdout.state.buffer, run.stderr.state.buffer) := by
      simp only [outputs, hs.path, hx, hout, herr]
    simp only [Phase.returned.injEq] at ho
    cases guestEnd <;> simp only [result, houtputs] at ho
    case success | failure => cases ho; exact ⟨rfl, rfl⟩
    case trap => split at ho <;> cases ho
    case notInstantiated => cases ho

theorem Collects.turn {reader after : Reader} (h : Collects run) (hr : run.watcher = .reader reader)
    (hw : next.watcher = .reader after) (hphase : next.phase = run.phase)
    (htotals : ∀ stream,
      after.total stream = (next.pipe stream).state.buffer.take (next.pipe stream).state.readPos)
    (hemptied : ∀ stream, after.sawEof stream = true → next.Emptied stream) : Collects next := by
  refine ⟨?_, ?_, ?_, ?_, ?_, ?_, ?_, ?_⟩
  · simp [hw]
  · intro other hother
    cases hw.symm.trans hother
    exact htotals
  · intro other hother
    cases hw.symm.trans hother
    exact hemptied
  · intro hu
    cases hw.symm.trans hu
  · intro stdout stderr hx
    cases hw.symm.trans hx
  · intro guestEnd hp
    obtain ⟨stdout, stderr, hx⟩ := h.joined guestEnd (hphase ▸ hp)
    cases hr.symm.trans hx
  · intro result hp
    rcases h.returned result (hphase ▸ hp) with ⟨stdout, stderr, hx⟩ | ⟨hu, -⟩
    · cases hr.symm.trans hx
    · cases hr.symm.trans hu
  · intro output hp
    rcases h.returned _ (hphase ▸ hp) with ⟨stdout, stderr, hx⟩ | ⟨hu, -⟩
    · cases hr.symm.trans hx
    · cases hr.symm.trans hu

/-- The reader sees the end of a stream with the drain that empties it, and leaves when it
has seen both. -/
theorem readerStep_collects {reader : Reader} {cancelled elapsed : Bool}
    {turn : WasiRun × ℕ × Option SessionEvent} (h : Collects run) (hr : run.watcher = .reader reader)
    (hn : ReaderSteps cancelled elapsed run reader turn) : Collects turn.1 := by
  have htotals := h.totals reader hr
  have hemptied := h.emptied reader hr
  cases hn with
  | drainedStdout =>
    refine h.turn hr rfl rfl ?_ ?_
    · intro stream
      have htotal := htotals stream
      cases stream
      · simp only [Reader.total, WasiRun.pipe, StreamOutputPipe.waitAndDrain] at htotal ⊢
        rw [htotal, List.take_append_drop, List.take_length]
      · exact htotal
    · intro stream heof
      cases stream
      · rfl
      · exact hemptied .stderr heof
  | drainedStderr =>
    refine h.turn hr rfl rfl ?_ ?_
    · intro stream
      have htotal := htotals stream
      cases stream
      · exact htotal
      · simp only [Reader.total, WasiRun.pipe, StreamOutputPipe.waitAndDrain] at htotal ⊢
        rw [htotal, List.take_append_drop, List.take_length]
    · intro stream heof
      cases stream
      · exact hemptied .stdout heof
      · rfl
  | closedStdout | closedStderr =>
    refine h.turn hr rfl rfl (fun stream => ?_) (fun stream heof => ?_)
    · cases stream
      · exact htotals .stdout
      · exact htotals .stderr
    · cases stream
      · exact hemptied .stdout heof
      · exact hemptied .stderr heof
  | left _ hout herr =>
    have hall : ∀ stream, run.Emptied stream := by
      intro stream
      cases stream
      · exact hemptied .stdout hout
      · exact hemptied .stderr herr
    have hwhole : ∀ stream, reader.total stream = (run.pipe stream).state.buffer := by
      intro stream
      rw [htotals stream, hall stream, List.take_length]
    refine ⟨by simp, by simp, by simp, by simp, ?_, ?_, ?_, ?_⟩
    · rintro _ _ ⟨⟩
      exact ⟨hwhole .stdout, hwhole .stderr, hall⟩
    · exact fun _ _ => ⟨_, _, rfl⟩
    · exact fun _ _ => Or.inl ⟨_, _, rfl⟩
    · exact h.output
  | _ => exact h.turn hr rfl rfl htotals hemptied

theorem step_collects {flag : Bool} {epoch : ℕ} {act : RunAct} {effect : Effect}
    (hs : run.StreamingInv) (hd : Delivery run events) (h : Collects run)
    (he : run.step flag epoch act = some effect) : Collects effect.run := by
  apply step_elim (P := fun run _ _ => Collects run) he
  case main => exact fun next hn => mainStep_collects hs h hn
  case build =>
    intro host hp
    have hu := hs.unspawned (Or.inr (Or.inl hp))
    unfold buildStep
    split
    · rename_i error _
      refine h.frame rfl (fun _ => rfl) (fun _ => rfl) (by simp) ?_ (by simp)
      rintro _ ⟨⟩
      exact Or.inr ⟨hu, error, rfl⟩
    · exact h.frame rfl (fun _ => rfl) (fun _ => rfl) (by simp [hs.path]) (by simp [hs.path])
        (by simp [hs.path])
  case write => exact fun stream bytes _ hg => guestWrite_collects hs hd h hg stream bytes
  case compute => exact fun _ => h
  case instantiated =>
    intro _
    exact h.frame rfl (fun _ => rfl) (fun _ => rfl) (by simp [enterCall, hs.path])
      (by simp [enterCall, hs.path]) (by simp [enterCall, hs.path])
  case guestEnd => exact fun guestEnd _ => stopGuest_collects hs h guestEnd
  case watchdog =>
    intro elapsed pc ticks next hw _
    exact absurd hw (h.reads pc ticks)
  case reader => exact fun elapsed reader turn hr hn => readerStep_collects h hr hn

theorem step_reader {flag : Bool} {epoch : ℕ} {act : RunAct} {effect : Effect}
    (he : run.step flag epoch act = some effect)
    (h : (∃ reader, run.watcher = .reader reader) → run.path = .events)
    (hr : ∃ reader, effect.run.watcher = .reader reader) : run.path = .events := by
  revert hr
  apply step_elim (P := fun next _ _ => (∃ reader, next.watcher = .reader reader) →
    run.path = .events) he
  case main =>
    intro next hn
    cases hn with
    | spawned =>
      rintro ⟨reader, hr⟩
      cases hpath : run.path with
      | inner => simp [hpath, spawned] at hr
      | events => rfl
    | _ => exact h
  case build =>
    intro host _
    unfold buildStep
    split <;> exact h
  case write =>
    intro stream bytes _ _
    rcases guestWrite_cases run stream bytes with he | he | ⟨pipe, -, -, he⟩ | ⟨pipe, -, -, he⟩ <;>
      rw [he]
    · exact h
    · exact h
    · cases stream <;> exact h
    · cases stream <;> exact h
  case compute => exact fun _ => h
  case instantiated => exact fun _ => h
  case guestEnd => exact fun _ _ => h
  case watchdog =>
    rintro elapsed pc ticks next hw hn ⟨reader, hr⟩
    rcases watchdogStep_kind hn with ⟨_, _, hnext⟩ | hnext <;> cases hnext.symm.trans hr
  case reader => exact fun elapsed reader _ hr _ _ => h ⟨reader, hr⟩

theorem reader_of_event {flag : Bool} {epoch : ℕ} {act : RunAct} {effect : Effect}
    {event : SessionEvent} (he : run.step flag epoch act = some effect) (hevent : effect.event = some event) :
    ∃ reader, run.watcher = .reader reader := by
  revert hevent
  apply step_elim (P := fun _ _ sent => sent = some event → ∃ reader, run.watcher = .reader reader) he
  case reader => exact fun elapsed reader _ hr _ _ => ⟨reader, hr⟩
  all_goals
    intros
    simp_all only [reduceCtorEq]

end WasiRun

section Runs
variable {component : Component} {request : CommandRequest} {cancellable : Bool}
  {epoch : ℕ} {flag : Bool} {s t : Streamed}

/-- The invariants of the streaming path, and the successful writes in the pipes' buffers. -/
structure Streamed.Complete (s : Streamed) : Prop where
  streaming : s.solo.run.StreamingInv
  delivery : s.solo.run.Delivery s.solo.events
  collects : s.solo.run.Collects
  written : ∀ stream, written stream s.writes = (s.solo.run.pipe stream).state.buffer

theorem closePipe_complete (h : s.Complete) (stream : Stream) :
    Streamed.Complete { s with solo := { s.solo with run := s.solo.run.closePipe stream } } := by
  obtain ⟨hs, hd, hc, hw⟩ := h
  have hcollects := WasiRun.closePipe_collects hc stream
  refine ⟨?_, ?_, hcollects, fun target => ?_⟩
  · cases stream <;> exact ⟨hs.path, hs.unspawned, hs.open_, hs.marks, hs.spawned⟩
  · cases stream
    · exact ⟨hd.stdout.close, hd.stderr⟩
    · exact ⟨hd.stdout, hd.stderr.close⟩
  · rw [hw target]
    cases stream <;> cases target <;> rfl

theorem step_written {act : RunAct} {effect : Effect} (hs : s.solo.run.StreamingInv)
    (he : s.solo.run.step s.solo.flag s.solo.epoch act = some effect)
    (hw : ∀ stream, written stream s.writes = (s.solo.run.pipe stream).state.buffer) (stream : Stream) :
    written stream (accepted s.solo.run (.run act) ++ s.writes) = (effect.run.pipe stream).state.buffer := by
  cases act with
  | write target bytes =>
    simp only [WasiRun.step, Option.ite_none_right_eq_some, Option.some.injEq] at he
    obtain ⟨-, rfl⟩ := he
    have hbuffer := hw stream
    simp only [accepted, WasiRun.guestWrite, hs.path]
    cases hwrite : (s.solo.run.pipe target).write bytes with
    | ok pipe =>
      obtain ⟨-, -, rfl⟩ := StreamOutputPipe.write_eq_ok hwrite
      cases target <;> cases stream <;>
        simpa [written, WasiRun.pipe, WasiRun.setPipe] using hbuffer
    | error error =>
      cases error <;> exact hbuffer
  | _ =>
    rcases WasiRun.step_buffers he with ⟨hout, herr⟩ | ⟨_, _, _, ha, -⟩
    · cases stream with
      | stdout => exact (hw .stdout).trans hout.symm
      | stderr => exact (hw .stderr).trans herr.symm
    · cases ha

theorem step_complete {a : StreamAct} (h : s.Complete) (he : s.step a = some t) : t.Complete := by
  cases a with
  | close stream =>
    cases he
    exact closePipe_complete h stream
  | solo act =>
    obtain ⟨next, hn, rfl⟩ := Option.map_eq_some_iff.mp he
    cases act with
    | run act =>
      obtain ⟨effect, heff, rfl⟩ := Option.map_eq_some_iff.mp hn
      exact ⟨WasiRun.step_streamingInv h.streaming heff, WasiRun.step_delivery h.streaming h.delivery heff,
        WasiRun.step_collects h.streaming h.delivery h.collects heff, step_written h.streaming heff h.written⟩
    | cancel => cases hn; exact ⟨h.streaming, h.delivery, h.collects, h.written⟩
    | foreignTick => cases hn; exact ⟨h.streaming, h.delivery, h.collects, h.written⟩

theorem reachable_complete (h : Reachable (streamSystem component request cancellable epoch flag) s) :
    s.Complete := by
  refine Reachable.invariant (fun s a t he hp => step_complete hp he) h
    ⟨WasiRun.streamingInv_start component request cancellable,
      WasiRun.delivery_start .events component request cancellable,
      WasiRun.collects_start component request cancellable, ?_⟩
  intro stream
  cases stream <;> rfl

theorem WasiRun.Delivery.drained {run : WasiRun} {events : List SessionEvent} (h : run.Delivery events)
    (stream : Stream) : delivered stream events ++ inFlight stream run.watcher =
      (run.pipe stream).state.buffer.take (run.pipe stream).state.readPos := by
  cases stream with
  | stdout => exact h.stdout.drained
  | stderr => exact h.stderr.drained

/-- What a reader that has drained both pipes sent is all they hold. -/
theorem WasiRun.Delivery.whole {run : WasiRun} {events : List SessionEvent} (h : run.Delivery events)
    {stream : Stream} (hheld : inFlight stream run.watcher = []) (hall : run.Emptied stream) :
    delivered stream events = (run.pipe stream).state.buffer := by
  have hd := h.drained stream
  have hread : (run.pipe stream).state.readPos = (run.pipe stream).state.buffer.length := hall
  rwa [hheld, List.append_nil, hread, List.take_length] at hd

theorem returned_delivered (h : Reachable (streamSystem component request cancellable epoch flag) s)
    {result : Except RuntimeError WasiOutput} (hr : s.solo.run.phase = .returned result) (stream : Stream) :
    delivered stream s.solo.events = written stream s.writes := by
  have hc := reachable_complete h
  rw [hc.written stream]
  rcases hc.collects.returned result hr with ⟨stdout, stderr, hx⟩ | ⟨hu, -⟩
  · obtain ⟨-, -, hall⟩ := hc.collects.exited stdout stderr hx
    exact hc.delivery.whole (by rw [hx]; rfl) (hall stream)
  · have hempty := hc.collects.unspawned hu stream
    have hread := hc.delivery.pipe stream
    refine hc.delivery.whole (by rw [hu]; rfl) ?_
    rw [hempty] at hread
    rw [WasiRun.Emptied, hempty]
    exact Nat.le_zero.mp hread

theorem returned_output (h : Reachable (streamSystem component request cancellable epoch flag) s)
    {output : WasiOutput} (hr : s.solo.run.phase = .returned (.ok output)) :
    output.stdout = written .stdout s.writes ∧ output.stderr = written .stderr s.writes := by
  have hc := reachable_complete h
  rw [hc.written, hc.written]
  exact hc.collects.output output hr

end Runs

end FerrousRuntime.Runtime
