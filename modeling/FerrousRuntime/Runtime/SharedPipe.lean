import FerrousRuntime.Runtime.WritePermits

/-! # The representation of a shared pipe

Clones of a pipe share one buffer behind a lock. The source subtracts and slices without a
check; `checkedCall` executes a call with these operations partial, so that an underflow or
an index out of range shows as `none`.
-/
namespace FerrousRuntime.Pipe
open Transition

inductive PipeReply
  | written (result : Except StreamError Unit)
  | polled (result : Except IoError ℕ)
  | permit (result : Except StreamError ℕ)
  | drained (bytes : List UInt8) (eof : Bool)
  | contents (bytes : List UInt8)
  | done
deriving DecidableEq, Repr

namespace PipeReply

def failed : PipeReply → Bool
  | .written (.error _) | .polled (.error _) => true
  | _ => false

def chunks : PipeReply → List (List UInt8)
  | .drained bytes _ => [bytes]
  | _ => []

end PipeReply

/-- `a - b` on `usize`. -/
def usizeSub (a b : ℕ) : Option ℕ := if b ≤ a then some (a - b) else none

/-- `bytes[start..]`. -/
def sliceFrom (bytes : List UInt8) (start : ℕ) : Option (List UInt8) :=
  if start ≤ bytes.length then some (bytes.drop start) else none

def sliceTo (bytes : List UInt8) (stop : ℕ) : Option (List UInt8) :=
  if stop ≤ bytes.length then some (bytes.take stop) else none

namespace StreamOutputPipe

/-- `buffer.extend_from_slice(bytes)`. -/
def append (pipe : StreamOutputPipe) (bytes : List UInt8) : StreamOutputPipe :=
  { pipe with state := { pipe.state with buffer := pipe.state.buffer ++ bytes } }

def reply (pipe : StreamOutputPipe) : PipeCall → PipeReply
  | .write bytes => .written ((pipe.write bytes).map fun _ => ())
  | .pollWrite buf => .polled ((pipe.pollWrite buf).map Prod.fst)
  | .checkWrite => .permit pipe.checkWrite
  | .waitAndDrain => .drained pipe.waitAndDrain.1.1 pipe.waitAndDrain.1.2
  | .contents => .contents pipe.contents
  | .flush | .pollFlush | .pollShutdown | .setEof | .close => .done

/-- A call under the lock, with every subtraction and every slice as partial as the source's. -/
def checkedCall (pipe : StreamOutputPipe) : PipeCall → Option (PipeReply × StreamOutputPipe)
  | .write bytes =>
    if pipe.state.closed then some (.written (.error .closed), pipe)
    else do
      let room ← usizeSub pipe.capacity pipe.state.buffer.length
      if bytes.length > room then
        some (.written (.error (.trap "write beyond capacity of StreamOutputPipe")), pipe)
      else some (.written (.ok ()), pipe.append bytes)
  | .pollWrite buf =>
    if pipe.state.closed || decide (pipe.state.buffer.length ≥ pipe.capacity) then
      some (.polled (.error (.writeZero "StreamOutputPipe is closed or full")), pipe)
    else do
      let room ← usizeSub pipe.capacity pipe.state.buffer.length
      let amt := min buf.length room
      let bytes ← sliceTo buf amt
      some (.polled (.ok amt), pipe.append bytes)
  | .checkWrite =>
    if pipe.state.closed then some (.permit (.error .closed), pipe)
    else if pipe.state.buffer.length < pipe.capacity then do
      let room ← usizeSub pipe.capacity pipe.state.buffer.length
      some (.permit (.ok room), pipe)
    else some (.permit (.error .closed), pipe)
  | .waitAndDrain => do
    let bytes ← sliceFrom pipe.state.buffer pipe.state.readPos
    some (.drained bytes pipe.state.eof, pipe.waitAndDrain.2)
  | .contents => some (.contents pipe.contents, pipe)
  | .flush | .pollFlush => some (.done, pipe)
  | .pollShutdown => some (.done, pipe.pollShutdown)
  | .setEof => some (.done, pipe.setEof)
  | .close => some (.done, pipe.close)

end StreamOutputPipe

/-- The pipe behind the lock, the clones that share it, and what its readers took so far. -/
structure SharedPipe where
  pipe : StreamOutputPipe
  clones : ℕ
  drained : List (List UInt8)
deriving DecidableEq, Repr

/-- Clones are numbered in the order they were made; the pipe itself is the first. -/
inductive CloneAct
  | clone (of : ℕ)
  | call (on : ℕ) (made : PipeCall)
deriving DecidableEq, Repr

namespace SharedPipe

def new (capacity : ℕ) : SharedPipe := ⟨.new capacity, 1, []⟩

def step (s : SharedPipe) : CloneAct → Option SharedPipe
  | .clone of => if of < s.clones then some { s with clones := s.clones + 1 } else none
  | .call on made =>
    if on < s.clones then
      some { s with
        pipe := s.pipe.call made
        drained := s.drained ++ (s.pipe.reply made).chunks }
    else none

theorem step_cases {s t : SharedPipe} {a : CloneAct} (h : s.step a = some t) :
    (t.pipe = s.pipe ∧ t.drained = s.drained) ∨
      ∃ on made, a = .call on made ∧ t = { s with
        pipe := s.pipe.call made
        drained := s.drained ++ (s.pipe.reply made).chunks } := by
  cases a with
  | clone of =>
    obtain ⟨-, h⟩ := Option.ite_none_right_eq_some.mp h
    cases h
    exact Or.inl ⟨rfl, rfl⟩
  | call on made =>
    obtain ⟨-, h⟩ := Option.ite_none_right_eq_some.mp h
    cases h
    exact Or.inr ⟨on, made, rfl, rfl⟩

end SharedPipe

def cloneSystem (capacity : ℕ) : System SharedPipe CloneAct where
  init := .new capacity
  step := SharedPipe.step

theorem usizeSub_of_le {a b : ℕ} (h : b ≤ a) : usizeSub a b = some (a - b) := if_pos h

theorem sliceFrom_of_le {bytes : List UInt8} {start : ℕ} (h : start ≤ bytes.length) :
    sliceFrom bytes start = some (bytes.drop start) := if_pos h

theorem sliceTo_of_le {bytes : List UInt8} {stop : ℕ} (h : stop ≤ bytes.length) :
    sliceTo bytes stop = some (bytes.take stop) := if_pos h

namespace StreamOutputPipe
variable {pipe : StreamOutputPipe}

/-- Within its bounds the pipe never meets the end of a partial operation. -/
theorem WellFormed.checkedCall (h : pipe.WellFormed) (made : PipeCall) :
    pipe.checkedCall made = some (pipe.reply made, pipe.call made) := by
  have hroom := usizeSub_of_le h.bounded
  cases made with
  | write bytes =>
    simp only [StreamOutputPipe.checkedCall, reply, StreamOutputPipe.call, StreamOutputPipe.write,
      hroom, Option.bind_eq_bind, Option.bind_some]
    split_ifs <;> rfl
  | pollWrite buf =>
    have hslice := sliceTo_of_le (Nat.min_le_left buf.length (pipe.capacity - pipe.state.buffer.length))
    simp only [StreamOutputPipe.checkedCall, reply, StreamOutputPipe.call, StreamOutputPipe.pollWrite,
      hroom, Option.bind_eq_bind, Option.bind_some, hslice]
    split_ifs <;> rfl
  | checkWrite =>
    simp only [StreamOutputPipe.checkedCall, reply, StreamOutputPipe.call, checkWrite, hroom]
    split_ifs <;> rfl
  | waitAndDrain =>
    simp only [StreamOutputPipe.checkedCall, sliceFrom_of_le h.read]
    rfl
  | _ => rfl

theorem call_of_failed {made : PipeCall} (h : (pipe.reply made).failed = true) :
    pipe.call made = pipe := by
  cases made with
  | write bytes =>
    cases he : pipe.write bytes with
    | ok next => simp [reply, he, Except.map, PipeReply.failed] at h
    | error error => simp only [call, he]
  | pollWrite buf =>
    cases he : pipe.pollWrite buf with
    | ok polled => simp [reply, he, Except.map, PipeReply.failed] at h
    | error error => simp only [call, he]
  | _ => cases h

theorem call_reader (pipe : StreamOutputPipe) (made : PipeCall) :
    (pipe.call made).state.readPos =
        (if made = .waitAndDrain then pipe.state.buffer.length else pipe.state.readPos) ∧
      (pipe.state.eof = true → (pipe.call made).state.eof = true) := by
  cases made with
  | write bytes =>
    cases he : pipe.write bytes with
    | ok next =>
      obtain ⟨-, -, rfl⟩ := write_eq_ok he
      simp [call, he]
    | error error => simp [call, he]
  | pollWrite buf =>
    cases he : pipe.pollWrite buf with
    | ok polled =>
      obtain ⟨k, next⟩ := polled
      obtain ⟨-, -, -, rfl⟩ := pollWrite_eq_ok he
      simp [call, he]
    | error error => simp [call, he]
  | pollShutdown => simp [call, pollShutdown]
  | _ => simp [call]

/-- What a call takes away is what it moves the read position over. -/
theorem WellFormed.chunks (h : pipe.WellFormed) (made : PipeCall) :
    pipe.state.buffer.take pipe.state.readPos ++ (pipe.reply made).chunks.flatten =
      (pipe.call made).state.buffer.take (pipe.call made).state.readPos := by
  obtain ⟨bytes, -, hbuffer, -, -⟩ := pipe.call_spec made
  by_cases hdrain : made = .waitAndDrain
  · subst hdrain
    have hchunk : (pipe.reply .waitAndDrain).chunks.flatten =
        pipe.state.buffer.drop pipe.state.readPos := List.flatten_singleton
    rw [hchunk, List.take_append_drop]
    exact List.take_length.symm
  · have hnone : (pipe.reply made).chunks = [] := by cases made <;> first | rfl | exact absurd rfl hdrain
    have hpos := (pipe.call_reader made).1
    rw [if_neg hdrain] at hpos
    rw [hnone, List.flatten_nil, List.append_nil, hpos, hbuffer, List.take_append_of_le_length h.read]

end StreamOutputPipe

structure Evolves (before after : StreamOutputPipe) : Prop where
  capacity : after.capacity = before.capacity
  grows : before.state.buffer <+: after.state.buffer
  closed : before.state.closed = true → after.state.closed = true
  eof : before.state.eof = true → after.state.eof = true

namespace Evolves
variable {before between after : StreamOutputPipe}

theorem refl (pipe : StreamOutputPipe) : Evolves pipe pipe := ⟨rfl, List.prefix_rfl, id, id⟩

theorem trans (h : Evolves before between) (h' : Evolves between after) : Evolves before after where
  capacity := h'.capacity.trans h.capacity
  grows := h.grows.trans h'.grows
  closed := h'.closed ∘ h.closed
  eof := h'.eof ∘ h.eof

theorem call (pipe : StreamOutputPipe) (made : PipeCall) : Evolves pipe (pipe.call made) := by
  obtain ⟨bytes, hcap, hbuffer, -, hclosed⟩ := pipe.call_spec made
  refine ⟨hcap, ⟨bytes, hbuffer.symm⟩, ?_, (pipe.call_reader made).2⟩
  intro h
  rw [hclosed, h, Bool.true_or]

theorem step {s t : SharedPipe} {a : CloneAct} (h : s.step a = some t) : Evolves s.pipe t.pipe := by
  obtain ⟨hpipe, -⟩ | ⟨on, made, -, rfl⟩ := SharedPipe.step_cases h
  · rw [hpipe]
    exact refl s.pipe
  · exact call s.pipe made

theorem runs {capacity : ℕ} {s t : SharedPipe} (h : Runs (cloneSystem capacity) Free s t) :
    Evolves s.pipe t.pipe := by
  induction h with
  | refl => exact refl _
  | step _ _ he ih => exact ih.trans (step he)

end Evolves

namespace SharedPipe
variable {capacity : ℕ} {s t : SharedPipe}

structure Accounted (s : SharedPipe) : Prop where
  wellFormed : s.pipe.WellFormed
  drained : s.drained.flatten = s.pipe.state.buffer.take s.pipe.state.readPos

theorem Accounted.step {a : CloneAct} (h : s.Accounted) (he : s.step a = some t) : t.Accounted := by
  obtain ⟨hpipe, hdrained⟩ | ⟨on, made, -, rfl⟩ := step_cases he
  · exact ⟨by rw [hpipe]; exact h.wellFormed, by rw [hdrained, hpipe]; exact h.drained⟩
  · refine ⟨h.wellFormed.call made, ?_⟩
    have hchunks := h.wellFormed.chunks made
    rw [← h.drained] at hchunks
    simpa only [List.flatten_append] using hchunks

theorem accounted_of_reachable (h : Reachable (cloneSystem capacity) s) : s.Accounted := by
  refine h.invariant (fun _ _ _ he hs => hs.step he) ?_
  exact ⟨StreamOutputPipe.wellFormed_new capacity, rfl⟩

theorem step_of_failed {on : ℕ} {made : PipeCall} (he : s.step (.call on made) = some t)
    (hfailed : (s.pipe.reply made).failed = true) : t = s := by
  obtain ⟨-, he⟩ := Option.ite_none_right_eq_some.mp he
  have hnone : (s.pipe.reply made).chunks = [] := by
    cases made <;> first | rfl | cases hfailed
  rw [StreamOutputPipe.call_of_failed hfailed, hnone, List.append_nil] at he
  exact (Option.some.inj he).symm

end SharedPipe

/-- The representation invariant of a pipe of the given capacity, and what its calls may
rely on. -/
structure KeepsRepresentation (capacity : ℕ) (s : SharedPipe) : Prop where
  read : s.pipe.state.readPos ≤ s.pipe.state.buffer.length
  bounded : s.pipe.state.buffer.length ≤ s.pipe.capacity
  fixed : s.pipe.capacity = capacity
  /-- No call underflows or slices out of range. -/
  checked : ∀ made, s.pipe.checkedCall made = some (s.pipe.reply made, s.pipe.call made)
  /-- The chunks drained so far, one after the other. -/
  drained : s.drained.flatten = s.pipe.state.buffer.take s.pipe.state.readPos
  failed : ∀ on made t, s.step (.call on made) = some t → (s.pipe.reply made).failed = true → t = s
  later : ∀ t, Runs (cloneSystem capacity) Free s t → Evolves s.pipe t.pipe

/-- However the calls on the clones of a pipe interleave, its representation stays in bounds,
only grows, and has handed out exactly what was read. -/
theorem clones_keep_representation {capacity : ℕ} {s : SharedPipe}
    (h : Reachable (cloneSystem capacity) s) : KeepsRepresentation capacity s where
  read := (SharedPipe.accounted_of_reachable h).wellFormed.read
  bounded := (SharedPipe.accounted_of_reachable h).wellFormed.bounded
  fixed := (Evolves.runs h).capacity
  checked made := (SharedPipe.accounted_of_reachable h).wellFormed.checkedCall made
  drained := (SharedPipe.accounted_of_reachable h).drained
  failed _ _ _ he hfailed := SharedPipe.step_of_failed he hfailed
  later _ hr := Evolves.runs hr

theorem clones_keep_representation_of_three : ∃ s, Reachable (cloneSystem 4) s ∧
    s.drained = [[104, 105], [33, 33]] ∧ s.clones = 3 ∧ KeepsRepresentation 4 s := by
  obtain ⟨s, hs, hdrained, hclones⟩ := (cloneSystem 4).reachable_of_replay
    (fun s => s.drained = [[104, 105], [33, 33]] ∧ s.clones = 3)
    [.clone 0, .clone 1, .call 0 (.write [104, 105]), .call 1 .waitAndDrain,
      .call 2 (.write [33, 33, 33]), .call 2 (.pollWrite [33, 33, 33]), .call 0 .waitAndDrain]
    (by decide)
  exact ⟨s, hs, hdrained, hclones, clones_keep_representation hs⟩

end FerrousRuntime.Pipe
