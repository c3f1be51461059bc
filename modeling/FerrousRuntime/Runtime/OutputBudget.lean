import FerrousRuntime.Runtime.Watchdog

/-! # What the reader delivers

The reader hands on exactly the drained prefix of each pipe's buffer, so the bytes
of a stream's `Output` events never exceed what the guest wrote to it. Each pipe
stops at the budget on its own. The combined check closes both pipes once the bytes
that exceed the budget were drained: a guest that is slower than the reader gets
nothing more through, one that fills both pipes first has all of it delivered.
-/
namespace FerrousRuntime.Runtime
open Capability Command Pipe Transition

def bytesOn (stream : Stream) : SessionEvent → List UInt8
  | .output s bytes => if s = stream then bytes else []
  | _ => []

/-- The bytes delivered on one stream, in order, by a latest-first list of events. -/
def delivered (stream : Stream) : List SessionEvent → List UInt8
  | [] => []
  | event :: past => delivered stream past ++ bytesOn stream event

def otherStream : Stream → Stream
  | .stdout => .stderr
  | .stderr => .stdout

/-- The turns of the reader from its combined check to the next drain. -/
def ReaderPc.afterCheck : ReaderPc → Bool
  | .cancelled | .burst _ | .tick | .eof | .drainStdout => true
  | _ => false

def deliveredBytes : List SessionEvent → ℕ
  | [] => 0
  | event :: past => event.bytes.length + deliveredBytes past

theorem bytesOn_length (event : SessionEvent) :
    (bytesOn .stdout event).length + (bytesOn .stderr event).length = event.bytes.length := by
  cases event with
  | output s bytes => cases s <;> simp [bytesOn, SessionEvent.bytes]
  | _ => rfl

theorem deliveredBytes_eq (events : List SessionEvent) :
    deliveredBytes events = (delivered .stdout events).length + (delivered .stderr events).length := by
  induction events with
  | nil => rfl
  | cons event past ih =>
    have hb := bytesOn_length event
    simp only [deliveredBytes, delivered, List.length_append]
    omega

def inFlight (stream : Stream) : Watcher → List UInt8
  | .reader reader =>
    match reader.pc, stream with
    | .sendStdout bytes, .stdout => bytes
    | .sendStderr bytes, .stderr => bytes
    | _, _ => []
  | _ => []

/-- A pipe of the budget's capacity whose drained prefix is what was sent on its stream
followed by what the reader holds. -/
structure Carried (pipe : StreamOutputPipe) (budget : ℕ) (sent held : List UInt8) : Prop where
  wellFormed : pipe.WellFormed
  capacity : pipe.capacity = budget
  drained : sent ++ held = pipe.state.buffer.take pipe.state.readPos

namespace Carried
variable {pipe next : StreamOutputPipe} {budget : ℕ} {sent held bytes : List UInt8}

theorem new (budget : ℕ) : Carried (.new budget) budget [] [] :=
  ⟨StreamOutputPipe.wellFormed_new budget, rfl, rfl⟩

theorem drain (h : Carried pipe budget sent []) :
    Carried pipe.waitAndDrain.2 budget sent pipe.waitAndDrain.1.1 := by
  have hd := h.drained
  rw [List.append_nil] at hd
  refine ⟨h.wellFormed.waitAndDrain, h.capacity, ?_⟩
  simp [hd, StreamOutputPipe.waitAndDrain]

theorem send (h : Carried pipe budget sent held) : Carried pipe budget (sent ++ held) [] :=
  ⟨h.wellFormed, h.capacity, by rw [List.append_nil, h.drained]⟩

theorem setEof (h : Carried pipe budget sent held) : Carried pipe.setEof budget sent held :=
  ⟨h.wellFormed.setEof, h.capacity, h.drained⟩

theorem close (h : Carried pipe budget sent held) : Carried pipe.close budget sent held :=
  ⟨h.wellFormed.close, h.capacity, h.drained⟩

theorem write (h : Carried pipe budget sent held) (hw : pipe.write bytes = .ok next) :
    Carried next budget sent held := by
  have hwell := h.wellFormed.write hw
  obtain ⟨-, -, rfl⟩ := StreamOutputPipe.write_eq_ok hw
  refine ⟨hwell, h.capacity, ?_⟩
  rw [h.drained]
  exact (List.take_append_of_le_length h.wellFormed.read).symm

theorem sent_le (h : Carried pipe budget sent held) :
    sent.length ≤ pipe.state.buffer.length ∧ pipe.state.buffer.length ≤ budget := by
  have hd := congrArg List.length h.drained
  have hb := h.wellFormed.bounded
  rw [h.capacity] at hb
  simp only [List.length_append, List.length_take] at hd
  omega

end Carried

namespace WasiRun

/-- What was sent on each stream and what the reader holds are the drained parts of
the two buffers. -/
structure Delivery (run : WasiRun) (events : List SessionEvent) : Prop where
  stdout : Carried run.stdout run.budget (delivered .stdout events) (inFlight .stdout run.watcher)
  stderr : Carried run.stderr run.budget (delivered .stderr events) (inFlight .stderr run.watcher)

variable {run next : WasiRun} {events : List SessionEvent}

theorem delivery_start (path : RunPath) (component : Component) (request : CommandRequest)
    (cancellable : Bool) : Delivery (start path component request cancellable) [] :=
  ⟨.new _, .new _⟩

theorem mainStep_delivery {cancelled : Bool} (hs : run.StreamingInv) (h : Delivery run events)
    (hn : MainSteps cancelled run next) : Delivery next events := by
  cases hn with
  | spawned hp =>
    obtain ⟨ho, he⟩ := h
    rw [hs.unspawned (Or.inr (Or.inr hp))] at ho he
    constructor <;> simp only [spawned, hs.path, inFlight]
    · exact ho
    · exact he
  | endedStdout => exact ⟨h.stdout.setEof, h.stderr⟩
  | endedStderr => exact ⟨h.stdout, h.stderr.setEof⟩
  | _ => exact ⟨h.stdout, h.stderr⟩

theorem guestWrite_delivery (h : Delivery run events) (stream : Stream) (bytes : List UInt8) :
    Delivery (run.guestWrite stream bytes) events := by
  rcases guestWrite_cases run stream bytes with he | he | ⟨pipe, -, hw, he⟩ | ⟨pipe, -, -, he⟩ <;>
    rw [he]
  · exact h
  · exact ⟨h.stdout, h.stderr⟩
  · cases stream with
    | stdout => exact ⟨h.stdout.write hw, h.stderr⟩
    | stderr => exact ⟨h.stdout, h.stderr.write hw⟩
  · cases stream <;> exact ⟨h.stdout, h.stderr⟩

theorem readerStep_delivery {reader : Reader} {cancelled elapsed : Bool}
    {turn : WasiRun × ℕ × Option SessionEvent} (h : Delivery run events)
    (hr : run.watcher = .reader reader) (hn : ReaderSteps cancelled elapsed run reader turn) :
    Delivery turn.1 (turn.2.2.toList ++ events) := by
  obtain ⟨ho, he⟩ := h
  rw [hr] at ho he
  cases hn with
  | drainedStdout hpc =>
    simp only [hpc, inFlight] at ho he ⊢
    have hd := ho.drain
    constructor
    · split
      · rename_i hnil
        exact hnil ▸ hd
      · exact hd
    · split <;> exact he
  | drainedStderr hpc =>
    simp only [hpc, inFlight] at ho he ⊢
    have hd := he.drain
    constructor
    · split <;> exact ho
    · split
      · rename_i hnil
        exact hnil ▸ hd
      · exact hd
  | sentStdout bytes hpc =>
    simp only [hpc, inFlight] at ho he
    exact ⟨ho.send, he.send⟩
  | sentStderr bytes hpc =>
    simp only [hpc, inFlight] at ho he
    exact ⟨ho.send, he.send⟩
  | closedStdout hpc =>
    simp only [hpc, inFlight] at ho he
    exact ⟨ho.close, he⟩
  | closedStderr hpc =>
    simp only [hpc, inFlight] at ho he
    exact ⟨ho, he.close⟩
  | overBudget hpc | withinBudget hpc | sawCancelled hpc | sawUncancelled hpc | spent hpc
  | bumped _ hpc | ticked hpc | left hpc | looped hpc =>
    simp only [hpc, inFlight] at ho he
    exact ⟨ho, he⟩

theorem step_delivery {flag : Bool} {epoch : ℕ} {act : RunAct} {effect : Effect}
    (hs : run.StreamingInv) (h : Delivery run events)
    (he : run.step flag epoch act = some effect) :
    Delivery effect.run (effect.event.toList ++ events) := by
  apply step_elim (P := fun run _ event => Delivery run (event.toList ++ events)) he
  case main => exact fun next hn => mainStep_delivery hs h hn
  case build =>
    intro host _
    unfold buildStep
    split <;> exact ⟨h.stdout, h.stderr⟩
  case write => exact fun stream bytes _ _ => guestWrite_delivery h stream bytes
  case compute => exact fun _ => h
  case instantiated => exact fun _ => ⟨h.stdout, h.stderr⟩
  case guestEnd => exact fun _ _ => ⟨h.stdout, h.stderr⟩
  case watchdog =>
    intro elapsed pc ticks next hw hn
    obtain ⟨ho, he'⟩ := h
    rw [hw] at ho he'
    have hnone : ∀ stream, inFlight stream next.1 = [] := by
      intro stream
      rcases watchdogStep_kind hn with ⟨_, _, hnext⟩ | hnext <;> rw [hnext] <;> rfl
    refine ⟨?_, ?_⟩ <;> simp only [hnone]
    · exact ho
    · exact he'
  case reader => exact fun elapsed reader turn hr hn => readerStep_delivery h hr hn

def held (run : WasiRun) : ℕ := run.stdout.state.buffer.length + run.stderr.state.buffer.length

theorem held_eq (run : WasiRun) (stream : Stream) : run.held =
    (run.pipe stream).state.buffer.length + (run.pipe (otherStream stream)).state.buffer.length := by
  cases stream
  · rfl
  · exact Nat.add_comm _ _

theorem setPipe_held {stream : Stream} {pipe : StreamOutputPipe} {bytes : List UInt8}
    (hw : (run.pipe stream).write bytes = .ok pipe) :
    (run.setPipe stream pipe).held = run.held + bytes.length := by
  obtain ⟨-, -, rfl⟩ := StreamOutputPipe.write_eq_ok hw
  cases stream <;> simp only [held, setPipe, WasiRun.pipe, List.length_append] <;> omega

theorem Delivery.le_held (h : Delivery run events) : deliveredBytes events ≤ run.held := by
  obtain ⟨hout, -⟩ := h.stdout.sent_le
  obtain ⟨herr, -⟩ := h.stderr.sent_le
  unfold held
  rw [deliveredBytes_eq]
  omega

structure SameBuffers (run next : WasiRun) : Prop where
  stdout : next.stdout.state.buffer = run.stdout.state.buffer
  stderr : next.stderr.state.buffer = run.stderr.state.buffer

theorem mainStep_buffers {cancelled : Bool} (hn : MainSteps cancelled run next) :
    SameBuffers run next := by
  cases hn <;> exact ⟨rfl, rfl⟩

theorem readerStep_buffers {reader : Reader} {cancelled elapsed : Bool}
    {turn : WasiRun × ℕ × Option SessionEvent} (hn : ReaderSteps cancelled elapsed run reader turn) :
    SameBuffers run turn.1 := by
  cases hn <;> exact ⟨rfl, rfl⟩

/-- Only an accepted guest write adds to the streaming pipes. -/
theorem step_buffers {flag : Bool} {epoch : ℕ} {act : RunAct} {effect : Effect}
    (he : run.step flag epoch act = some effect) : SameBuffers run effect.run ∨
      ∃ stream bytes pipe, act = .write stream bytes ∧ run.guestExecuting ∧
        (run.pipe stream).write bytes = .ok pipe ∧ effect.run = run.setPipe stream pipe := by
  apply step_elim (P := fun next _ _ => SameBuffers run next ∨
    ∃ stream bytes pipe, act = .write stream bytes ∧ run.guestExecuting ∧
      (run.pipe stream).write bytes = .ok pipe ∧ next = run.setPipe stream pipe) he
  case main => exact fun next hn => Or.inl (mainStep_buffers hn)
  case build =>
    intro host _
    unfold buildStep
    split <;> exact Or.inl ⟨rfl, rfl⟩
  case write =>
    intro stream bytes ha hg
    rcases guestWrite_cases run stream bytes with he | he | ⟨pipe, -, hw, he⟩ | ⟨pipe, -, -, he⟩ <;>
      rw [he]
    · exact Or.inl ⟨rfl, rfl⟩
    · exact Or.inl ⟨rfl, rfl⟩
    · exact Or.inr ⟨stream, bytes, pipe, ha, hg, hw, rfl⟩
    · cases stream <;> exact Or.inl ⟨rfl, rfl⟩
  case compute => exact fun _ => Or.inl ⟨rfl, rfl⟩
  case instantiated => exact fun _ => Or.inl ⟨rfl, rfl⟩
  case guestEnd => exact fun _ _ => Or.inl ⟨rfl, rfl⟩
  case watchdog => exact fun _ _ _ _ _ _ => Or.inl ⟨rfl, rfl⟩
  case reader => exact fun elapsed reader turn _ hn => Or.inl (readerStep_buffers hn)

theorem step_budget {flag : Bool} {epoch : ℕ} {act : RunAct} {effect : Effect}
    (he : run.step flag epoch act = some effect) : effect.run.budget = run.budget :=
  congrArg (fun request => request.grant.limits.maxOutputBytes) (step_params he).2.2.1

def Shut (run : WasiRun) : Prop := ∀ stream, (run.pipe stream).state.closed = true

/-- What the combined check leaves behind. From a check to the next drain the reader has no
more than the budget, or the pipes are closed. -/
structure Checked (run : WasiRun) (reader : Reader) : Prop where
  passed : reader.pc.afterCheck = true →
    reader.totalStdout.length + reader.totalStderr.length ≤ run.budget ∨ run.Shut
  closing : reader.pc = .closeStderr → run.stdout.state.closed = true
  marked : reader.budgetClosed = true → run.Shut

def ChecksBudget (run : WasiRun) : Prop := ∀ reader, run.watcher = .reader reader → run.Checked reader

theorem checksBudget_start (path : RunPath) (component : Component) (request : CommandRequest)
    (cancellable : Bool) : (start path component request cancellable).ChecksBudget := by
  rintro reader ⟨⟩

theorem ChecksBudget.keep (h : run.ChecksBudget) (hwatcher : next.watcher = run.watcher)
    (hbudget : next.budget = run.budget)
    (hclosed : ∀ stream, (run.pipe stream).state.closed = true → (next.pipe stream).state.closed = true) :
    next.ChecksBudget := by
  intro reader hr
  obtain ⟨hpassed, hclosing, hmarked⟩ := h reader (hwatcher ▸ hr)
  have hshut : run.Shut → next.Shut := fun hs stream => hclosed stream (hs stream)
  exact ⟨fun hpc => hbudget ▸ (hpassed hpc).imp_right hshut, fun hpc => hclosed .stdout (hclosing hpc),
    fun hm => hshut (hmarked hm)⟩

theorem setPipe_closed {stream : Stream} {pipe : StreamOutputPipe} {bytes : List UInt8}
    (hw : (run.pipe stream).write bytes = .ok pipe) (other : Stream) :
    ((run.setPipe stream pipe).pipe other).state.closed = (run.pipe other).state.closed := by
  obtain ⟨-, -, rfl⟩ := StreamOutputPipe.write_eq_ok hw
  cases stream <;> cases other <;> rfl

/-- The check closes both pipes beyond the budget, and passes on within it. -/
theorem readerStep_checksBudget {reader : Reader} {cancelled elapsed : Bool}
    {turn : WasiRun × ℕ × Option SessionEvent} (h : run.Checked reader)
    (hn : ReaderSteps cancelled elapsed run reader turn) : turn.1.ChecksBudget := by
  obtain ⟨hpassed, hclosing, hmarked⟩ := h
  cases hn with
  | drainedStdout | drainedStderr =>
    rintro _ ⟨⟩
    refine ⟨?_, ?_, fun hm => ?_⟩
    · dsimp only
      split <;> simp [ReaderPc.afterCheck]
    · dsimp only
      split <;> simp
    · have hshut := hmarked hm
      rintro (_ | _)
      · exact hshut .stdout
      · exact hshut .stderr
  | sentStdout | sentStderr =>
    rintro _ ⟨⟩
    exact ⟨by simp [ReaderPc.afterCheck], by simp, hmarked⟩
  | overBudget hpc hopen hover =>
    rintro _ ⟨⟩
    exact ⟨by simp [ReaderPc.afterCheck], by simp, hmarked⟩
  | withinBudget hpc hwithin =>
    rintro _ ⟨⟩
    refine ⟨fun _ => ?_, by simp, hmarked⟩
    cases hclosed : reader.budgetClosed with
    | false => exact Or.inl (hwithin hclosed)
    | true => exact Or.inr (hmarked hclosed)
  | closedStdout hpc =>
    rintro _ ⟨⟩
    refine ⟨by simp [ReaderPc.afterCheck], fun _ => rfl, fun hm => ?_⟩
    have hshut := hmarked hm
    rintro (_ | _)
    · rfl
    · exact hshut .stderr
  | closedStderr hpc =>
    have hshut : ({ run with stderr := run.stderr.close } : WasiRun).Shut := by
      rintro (_ | _)
      · exact hclosing hpc
      · rfl
    rintro _ ⟨⟩
    exact ⟨fun _ => Or.inr hshut, by simp, fun _ => hshut⟩
  | sawCancelled hpc | sawUncancelled hpc | spent hpc | bumped left hpc | ticked hpc | looped hpc =>
    rintro _ ⟨⟩
    exact ⟨fun _ => hpassed (by rw [hpc]; rfl), by simp, hmarked⟩
  | left => rintro _ ⟨⟩

theorem step_checksBudget {flag : Bool} {epoch : ℕ} {act : RunAct} {effect : Effect}
    (h : run.ChecksBudget) (he : run.step flag epoch act = some effect) : effect.run.ChecksBudget := by
  apply step_elim (P := fun next _ _ => next.ChecksBudget) he
  case main =>
    intro next hn
    cases hn with
    | spawned =>
      intro reader hr
      cases hpath : run.path with
      | inner => simp [spawned, hpath] at hr
      | events =>
        simp only [spawned, hpath, Watcher.reader.injEq] at hr
        subst hr
        exact ⟨fun _ => Or.inl (Nat.zero_le _), by simp, by simp⟩
    | endedStdout | endedStderr => exact h.keep rfl rfl (by rintro (_ | _) hc <;> exact hc)
    | _ => exact h.keep rfl rfl (fun _ hc => hc)
  case build =>
    intro host _
    unfold buildStep
    split <;> exact h.keep rfl rfl (fun _ hc => hc)
  case write =>
    intro stream bytes _ _
    rcases guestWrite_cases run stream bytes with he | he | ⟨pipe, -, hw, he⟩ | ⟨pipe, -, -, he⟩ <;>
      rw [he]
    · exact h
    · exact h.keep rfl rfl (fun _ hc => hc)
    · exact h.keep (by cases stream <;> rfl) (by cases stream <;> rfl)
        (fun other hc => (setPipe_closed hw other).trans hc)
    · exact h.keep (by cases stream <;> rfl) (by cases stream <;> rfl)
        (by cases stream <;> exact fun _ hc => hc)
  case compute => exact fun _ => h
  case instantiated => exact fun _ => h.keep rfl rfl (fun _ hc => hc)
  case guestEnd => exact fun _ _ => h.keep rfl rfl (fun _ hc => hc)
  case watchdog =>
    intro elapsed pc ticks turn _ hn reader hr
    rcases watchdogStep_kind hn with ⟨_, _, hnext⟩ | hnext <;> simp [hnext] at hr
  case reader => exact fun elapsed reader turn hr hn => readerStep_checksBudget (h reader hr) hn

/-- The reader has drained all that the pipes hold, and made its check since. -/
def caughtUp (run : WasiRun) : Bool :=
  match run.watcher with
  | .reader reader => reader.pc.afterCheck &&
    decide (reader.totalStdout.length = run.stdout.state.buffer.length ∧
      reader.totalStderr.length = run.stderr.state.buffer.length)
  | _ => false

/-- A reader that caught up with pipes beyond the budget has closed them. -/
theorem ChecksBudget.shut (h : run.ChecksBudget) (hcaught : run.caughtUp = true)
    (hover : run.budget < run.held) : run.Shut := by
  unfold caughtUp at hcaught
  split at hcaught
  · rename_i reader hr
    obtain ⟨hpc, htotals⟩ := (Bool.and_eq_true _ _).mp hcaught
    obtain ⟨hout, herr⟩ := of_decide_eq_true htotals
    unfold held at hover
    exact ((h reader hr).passed hpc).resolve_left (by omega)
  · cases hcaught

/-- The guest's write is accepted beyond the budget, before the reader has caught up. -/
def outrunsCheck (run : WasiRun) : RunAct → Bool
  | .write stream bytes =>
    match (run.pipe stream).write bytes with
    | .ok _ => bytes != [] && decide (run.budget < run.held) && !run.caughtUp
    | .error _ => false
  | _ => false

/-- The guest's write is accepted, and brings the whole budget in one piece while the other pipe
holds exactly the budget, which the check lets pass. -/
def leapsCheck (run : WasiRun) : RunAct → Bool
  | .write stream bytes =>
    match (run.pipe stream).write bytes with
    | .ok _ => decide (bytes.length = run.budget ∧ (run.pipe stream).state.buffer = [] ∧
      (run.pipe (otherStream stream)).state.buffer.length = run.budget)
    | .error _ => false
  | _ => false

theorem step_held {flag : Bool} {epoch : ℕ} {act : RunAct} {effect : Effect}
    (hd : Delivery run events) (hc : run.ChecksBudget) (he : run.step flag epoch act = some effect)
    (hcheck : run.outrunsCheck act = false) (hleap : run.leapsCheck act = false)
    (h : run.held < 2 * run.budget) : effect.run.held < 2 * effect.run.budget := by
  rw [step_budget he]
  rcases step_buffers he with ⟨hout, herr⟩ | ⟨stream, bytes, pipe, rfl, -, hw, hnext⟩
  · unfold held at h ⊢
    rwa [hout, herr]
  · have hkept : run.budget < run.held → bytes = [] := by
      intro hover
      by_contra hne
      -- the reader has caught up, so the pipe is closed
      have hcaught : run.caughtUp = true := by simpa [outrunsCheck, hw, hne, hover] using hcheck
      have hclosed := hc.shut hcaught hover stream
      obtain ⟨hopen, -, -⟩ := StreamOutputPipe.write_eq_ok hw
      cases hclosed.symm.trans hopen
    have hadded := setPipe_held hw
    have hsplit := run.held_eq stream
    have hcapacity : (run.pipe stream).capacity = run.budget := by
      cases stream
      · exact hd.stdout.capacity
      · exact hd.stderr.capacity
    have hleap : ¬ (bytes.length = run.budget ∧ (run.pipe stream).state.buffer = [] ∧
        (run.pipe (otherStream stream)).state.buffer.length = run.budget) := by
      simpa only [leapsCheck, hw, decide_eq_false_iff_not] using hleap
    rw [← List.length_eq_zero_iff] at hleap
    obtain ⟨-, hfits, -⟩ := StreamOutputPipe.write_eq_ok hw
    rw [hnext, hadded]
    by_cases hover : run.budget < run.held
    · rw [hkept hover, List.length_nil]
      omega
    · omega

def WithinBudget (run : WasiRun) : Prop :=
  run.stdout.state.buffer.length + run.stderr.state.buffer.length ≤ run.budget

/-- The guest's write is accepted and takes the two pipes together beyond the budget. -/
def overflows (run : WasiRun) : RunAct → Bool
  | .write stream bytes =>
    match (run.pipe stream).write bytes with
    | .ok _ =>
      decide (run.budget <
        run.stdout.state.buffer.length + run.stderr.state.buffer.length + bytes.length)
    | .error _ => false
  | _ => false

theorem step_withinBudget {flag : Bool} {epoch : ℕ} {act : RunAct} {effect : Effect}
    (h : run.WithinBudget) (hact : run.overflows act = false)
    (he : run.step flag epoch act = some effect) : effect.run.WithinBudget := by
  rw [WithinBudget, step_budget he]
  rcases step_buffers he with ⟨hout, herr⟩ | ⟨stream, bytes, pipe, rfl, -, hw, hnext⟩
  · rw [hout, herr]
    exact h
  · simp only [overflows, hw, decide_eq_false_iff_not] at hact
    obtain ⟨-, -, rfl⟩ := StreamOutputPipe.write_eq_ok hw
    rw [hnext]
    cases stream <;> simp only [setPipe, WasiRun.pipe, List.length_append] <;> omega

theorem Delivery.le_budget (h : Delivery run events) (hwithin : run.WithinBudget) :
    deliveredBytes events ≤ run.budget :=
  h.le_held.trans hwithin

end WasiRun

/-- The guest's write gets past the reader's check. -/
def escapesCheck (s : Solo) : SoloAct → Bool
  | .run act => s.run.outrunsCheck act || s.run.leapsCheck act
  | _ => false

def oneByte : ResourceLimits := { defaultLimits with
  maxOutputBytes := 1
  output_pos := by decide
  output_le := by decide }

def splitSystem : System Solo SoloAct :=
  soloSystem .events ⟨false⟩ (sampleRequest 1 .read oneByte) true 0 false

/-- Both writes land before the reader looks at either pipe. -/
def splitSchedule : List SoloAct :=
  [.run .main, .run (.build sampleHost), .run .main, .run .instantiated,
    .run (.write .stdout [111]), .run (.write .stderr [101]),
    .run (.watch false), .run (.watch false), .run (.watch false), .run (.watch false)]

/-- A guest that splits its output across the streams is delivered twice the budget. -/
theorem split_output_delivers_twice_the_budget :
    ∃ s, Reachable splitSystem s ∧ ¬ deliveredBytes s.events < 2 * oneByte.maxOutputBytes :=
  splitSystem.reachable_of_replay (fun s => ¬ deliveredBytes s.events < 2 * oneByte.maxOutputBytes)
    splitSchedule (by decide)

section Runs
variable {component : Component} {request : CommandRequest} {cancellable : Bool}
  {epoch : ℕ} {flag : Bool} {s t : Solo}

/-- The invariants of the streaming path and of its reader's check, and less than twice the
budget in the pipes. -/
structure KeepsBudget (request : CommandRequest) (s : Solo) : Prop where
  streaming : s.run.StreamingInv
  delivery : s.run.Delivery s.events
  checks : s.run.ChecksBudget
  request : s.run.request = request
  held : s.run.held < 2 * s.run.budget

theorem step_keepsBudget {a : SoloAct} (h : KeepsBudget request s) (ha : escapesCheck s a = false)
    (he : s.step a = some t) : KeepsBudget request t := by
  cases a with
  | run act =>
    obtain ⟨effect, heff, rfl⟩ := Option.map_eq_some_iff.mp he
    obtain ⟨hcheck, hleap⟩ := (Bool.or_eq_false_iff).mp ha
    exact ⟨WasiRun.step_streamingInv h.streaming heff,
      WasiRun.step_delivery h.streaming h.delivery heff,
      WasiRun.step_checksBudget h.checks heff,
      (WasiRun.step_params heff).2.2.1.trans h.request,
      WasiRun.step_held h.delivery h.checks heff hcheck hleap h.held⟩
  | cancel => cases he; exact ⟨h.streaming, h.delivery, h.checks, h.request, h.held⟩
  | foreignTick => cases he; exact ⟨h.streaming, h.delivery, h.checks, h.request, h.held⟩

/-- In every run in which no write gets past the reader's check, less than twice the budget is
delivered. -/
theorem delivered_lt_twice_budget (component : Component) (request : CommandRequest)
    (cancellable : Bool) (epoch : ℕ) (flag : Bool) (s : Solo)
    (h : Runs (soloSystem .events component request cancellable epoch flag)
      (fun s a => escapesCheck s a = false)
      (soloSystem .events component request cancellable epoch flag).init s) :
    deliveredBytes s.events < 2 * request.grant.limits.maxOutputBytes := by
  have hpos := request.grant.limits.output_pos
  have hinit : KeepsBudget request
      (soloSystem .events component request cancellable epoch flag).init := by
    refine ⟨WasiRun.streamingInv_start component request cancellable,
      WasiRun.delivery_start .events component request cancellable,
      WasiRun.checksBudget_start .events component request cancellable, rfl, ?_⟩
    simp only [soloSystem, WasiRun.start, WasiRun.held, WasiRun.budget, StreamOutputPipe.new, List.length_nil]
    omega
  have hinv := Runs.invariant (fun s a t ha he hp => step_keepsBudget hp ha he) h hinit
  have hlt := hinv.delivery.le_held.trans_lt hinv.held
  rwa [WasiRun.budget, hinv.request] at hlt

def twoBytes : ResourceLimits := { defaultLimits with
  maxOutputBytes := 2
  output_pos := by decide
  output_le := by decide }

/-- Two bytes on one stream and one on the other, which the reader drains before the guest's
next write. -/
def overtakenSchedule : List SoloAct :=
  [.run .main, .run (.build sampleHost), .run .main, .run .instantiated,
    .run (.write .stdout [111, 117]), .run (.write .stderr [101]),
    .run (.watch false), .run (.watch false), .run (.watch false), .run (.watch false),
    .run (.watch false), .run (.watch false), .run (.watch false), .run (.write .stderr [114])]

theorem overtaken_output_is_cut : ∃ s : Solo, s.run.stderr.state.buffer = [101] ∧
    deliveredBytes s.events = 3 ∧ deliveredBytes s.events < 2 * twoBytes.maxOutputBytes := by
  obtain ⟨s, hruns, hcut, hsent⟩ :=
    (soloSystem .events ⟨false⟩ (sampleRequest 1 .read twoBytes) true 0 false).exists_of_replay
      (fun s a => escapesCheck s a = false)
      (fun s => s.run.stderr.state.buffer = [101] ∧ deliveredBytes s.events = 3)
      (soloSystem .events ⟨false⟩ (sampleRequest 1 .read twoBytes) true 0 false).init
      overtakenSchedule (by decide)
  exact ⟨s, hcut, hsent, delivered_lt_twice_budget _ _ _ _ _ s hruns⟩

end Runs

end FerrousRuntime.Runtime
