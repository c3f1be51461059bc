import FerrousRuntime.Runtime.Engine
import FerrousRuntime.Runtime.Streaming

/-! # Guests

A guest decides by itself what it does next; of what it is told, only the answers to
`check_write` and `write` on its two streams can differ between the paths. `Reference` runs
it on the pipes that the library documents, with nobody else around; `Guided` runs it on
either path, among all the threads of the run.
-/
namespace FerrousRuntime.Runtime
open Capability Command Pipe Transition
variable {G : Type*}

inductive GuestCall (G : Type*)
  | compute (next : G)
  | checkWrite (stream : Stream) (resume : Except StreamError ℕ → G)
  | write (stream : Stream) (bytes : List UInt8) (resume : Except StreamError Unit → G)
  /-- `Command::instantiate` succeeds -/
  | instantiated (next : G)
  | finish (guestEnd : GuestEnd)

/-- A deterministic guest. The epoch interrupt is not its own doing. -/
structure Guest (G : Type*) where
  start : G
  next : G → GuestCall G
  uninterrupted : ∀ g guestEnd, next g = .finish guestEnd → guestEnd.interrupted = false

inductive GuestStage
  | instantiating
  | calling
  | ended (guestEnd : GuestEnd)
deriving DecidableEq, Repr

namespace GuestStage

def executes (hasStart : Bool) : GuestStage → Bool
  | .instantiating => hasStart
  | .calling => true
  | .ended _ => false

def canEnd : GuestStage → GuestEnd → Bool
  | .instantiating, .notInstantiated _ => true
  | .instantiating, _ => false
  | .calling, .notInstantiated _ => false
  | .calling, _ => true
  | .ended _, _ => false

def trapEnd : GuestStage → GuestEnd
  | .instantiating => .notInstantiated .writeBeyondCapacity
  | _ => .trap .writeBeyondCapacity

end GuestStage

structure Reference (G : Type*) where
  stage : GuestStage
  pipes : Stream → MemoryOutputPipe
  guest : G

namespace Reference

def start (guest : Guest G) (request : CommandRequest) : Reference G :=
  ⟨.instantiating, fun _ => .new request.grant.limits.maxOutputBytes, guest.start⟩

/-- A write beyond the capacity of its pipe ends the guest where it stands. -/
def write (r : Reference G) (stream : Stream) (bytes : List UInt8)
    (resume : Except StreamError Unit → G) : Reference G :=
  match (r.pipes stream).write bytes with
  | .ok pipe => { r with pipes := Function.update r.pipes stream pipe, guest := resume (.ok ()) }
  | .error .closed => { r with guest := resume (.error .closed) }
  | .error (.trap _) => { r with stage := .ended r.stage.trapEnd }

def step (guest : Guest G) (hasStart : Bool) (r : Reference G) : Option (Reference G) :=
  match guest.next r.guest with
  | .compute next => if r.stage.executes hasStart then some { r with guest := next } else none
  | .checkWrite stream resume =>
    if r.stage.executes hasStart then some { r with guest := resume (r.pipes stream).checkWrite }
    else none
  | .write stream bytes resume =>
    if r.stage.executes hasStart then some (r.write stream bytes resume) else none
  | .instantiated next =>
    match r.stage with
    | .instantiating => some { r with stage := .calling, guest := next }
    | _ => none
  | .finish guestEnd =>
    if r.stage.canEnd guestEnd then some { r with stage := .ended guestEnd } else none

def result (r : Reference G) : GuestEnd → Except RuntimeError WasiOutput
  | .notInstantiated error => .error (.wasi error)
  | .success => .ok ⟨(r.pipes .stdout).contents, (r.pipes .stderr).contents, 0⟩
  | .failure => .ok ⟨(r.pipes .stdout).contents, (r.pipes .stderr).contents, 1⟩
  | .trap error => .error (.wasi error)

theorem step_ended {guest : Guest G} {hasStart : Bool} {r : Reference G} {guestEnd : GuestEnd}
    (h : r.stage = .ended guestEnd) : r.step guest hasStart = none := by
  unfold step
  split <;> simp [h, GuestStage.executes, GuestStage.canEnd]

end Reference

namespace WasiRun

def checkWrite (run : WasiRun) (stream : Stream) : Except StreamError ℕ :=
  match run.path with
  | .events => (run.pipe stream).checkWrite
  | .inner => (run.captured stream).checkWrite

def writeResult (run : WasiRun) (stream : Stream) (bytes : List UInt8) : Except StreamError Unit :=
  match run.path with
  | .events => ((run.pipe stream).write bytes).map (fun _ => ())
  | .inner => ((run.captured stream).write bytes).map (fun _ => ())

def interruptEnd (phase : Phase) : GuestEnd :=
  match phase with
  | .instantiate => .notInstantiated .interrupt
  | _ => .trap .interrupt

end WasiRun

structure Guided (G : Type*) where
  solo : Solo
  guest : G

inductive GuidedAct
  | main
  | build
  | guest
  | interrupt
  | watch (elapsed : Bool)
  | cancel
  | foreignTick
deriving DecidableEq, Repr

namespace Guided

/-- The run's part in the guest's next step, and the guest afterwards. A trapped guest does
not resume. -/
def guestAct (guest : Guest G) (s : Guided G) : RunAct × G :=
  match guest.next s.guest with
  | .compute next => (.compute, next)
  | .checkWrite stream resume => (.compute, resume (s.solo.run.checkWrite stream))
  | .write stream bytes resume =>
    match s.solo.run.writeResult stream bytes with
    | .error (.trap _) => (.write stream bytes, s.guest)
    | answer => (.write stream bytes, resume answer)
  | .instantiated next => (.instantiated, next)
  | .finish guestEnd => (.guestEnd guestEnd, s.guest)

def act (guest : Guest G) (host : HostView) (s : Guided G) : GuidedAct → SoloAct × G
  | .main => (.run .main, s.guest)
  | .build => (.run (.build host), s.guest)
  | .guest => (.run (s.guestAct guest).1, (s.guestAct guest).2)
  | .interrupt => (.run (.guestEnd (WasiRun.interruptEnd s.solo.run.phase)), s.guest)
  | .watch elapsed => (.run (.watch elapsed), s.guest)
  | .cancel => (.cancel, s.guest)
  | .foreignTick => (.foreignTick, s.guest)

def step (guest : Guest G) (host : HostView) (s : Guided G) (a : GuidedAct) : Option (Guided G) :=
  (s.solo.step (s.act guest host a).1).map (fun solo => ⟨solo, (s.act guest host a).2⟩)

/-- No step cancels the run, and none is the epoch's interrupt at the deadline. -/
def Calm (_ : Guided G) (a : GuidedAct) : Prop := a ≠ .cancel ∧ a ≠ .interrupt

instance (s : Guided G) (a : GuidedAct) : Decidable (Calm s a) := inferInstanceAs (Decidable (_ ∧ _))

end Guided

def WasiRun.acceptedBytes (run : WasiRun) : ℕ :=
  match run.path with
  | .events => run.stdout.state.buffer.length + run.stderr.state.buffer.length
  | .inner => run.capturedStdout.buffer.length + run.capturedStderr.buffer.length

def guidedSystem (guest : Guest G) (host : HostView) (path : RunPath) (component : Component)
    (request : CommandRequest) (cancellable : Bool) (epoch : ℕ) : System (Guided G) GuidedAct where
  init := ⟨⟨.start path component request cancellable, epoch, false, []⟩, guest.start⟩
  step := Guided.step guest host

end FerrousRuntime.Runtime
