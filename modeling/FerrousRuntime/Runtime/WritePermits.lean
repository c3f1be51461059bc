import FerrousRuntime.Foundation.Transition
import FerrousRuntime.Runtime.Pipe

/-! # Write permits of the streaming pipe

A permit is what `check_write` grants: the writer may pass that many bytes to its next
`write`. The writer's calls and the host's own (`wait_and_drain`, `set_eof`, `close`)
lock the pipe one at a time, so an interleaving of the two sides is a list of calls.
-/
namespace FerrousRuntime.Pipe
open Transition

inductive PipeCall
  | write (bytes : List UInt8)
  | pollWrite (buf : List UInt8)
  | checkWrite
  | flush
  | pollFlush
  | pollShutdown
  | waitAndDrain
  | contents
  | setEof
  | close
deriving DecidableEq, Repr

def PipeCall.writes : PipeCall → Bool
  | .write _ | .pollWrite _ => true
  | _ => false

namespace StreamOutputPipe

def call (pipe : StreamOutputPipe) : PipeCall → StreamOutputPipe
  | .write bytes => match pipe.write bytes with
    | .ok next => next
    | .error _ => pipe
  | .pollWrite buf => match pipe.pollWrite buf with
    | .ok (_, next) => next
    | .error _ => pipe
  | .checkWrite | .flush | .pollFlush | .contents => pipe
  | .pollShutdown => pipe.pollShutdown
  | .waitAndDrain => pipe.waitAndDrain.2
  | .setEof => pipe.setEof
  | .close => pipe.close

def calls (pipe : StreamOutputPipe) (made : List PipeCall) : StreamOutputPipe := made.foldl call pipe

def room (pipe : StreamOutputPipe) : ℕ := pipe.capacity - pipe.state.buffer.length

end StreamOutputPipe

def pipeSystem (capacity : ℕ) : System StreamOutputPipe PipeCall where
  init := .new capacity
  step pipe made := some (pipe.call made)

namespace StreamOutputPipe
variable {pipe other : StreamOutputPipe} {made : PipeCall}

/-- Everything a call can do to what writers depend on: append bytes that fit, if it hands
any over, and close the pipe, if it is the hard close. -/
theorem call_spec (pipe : StreamOutputPipe) (made : PipeCall) : ∃ bytes,
    (pipe.call made).capacity = pipe.capacity ∧
    (pipe.call made).state.buffer = pipe.state.buffer ++ bytes ∧
    (made.writes = false → bytes = []) ∧
    (pipe.call made).state.closed = (pipe.state.closed || decide (made = .close)) := by
  cases made with
  | write bytes =>
    cases he : pipe.write bytes with
    | ok next =>
      obtain ⟨-, -, rfl⟩ := write_eq_ok he
      exact ⟨bytes, by simp [call, he, PipeCall.writes]⟩
    | error error => exact ⟨[], by simp [call, he]⟩
  | pollWrite buf =>
    cases he : pipe.pollWrite buf with
    | ok polled =>
      obtain ⟨k, next⟩ := polled
      obtain ⟨-, -, -, rfl⟩ := pollWrite_eq_ok he
      exact ⟨buf.take k, by simp [call, he, PipeCall.writes]⟩
    | error error => exact ⟨[], by simp [call, he]⟩
  | pollShutdown => exact ⟨[], by simp [call, pollShutdown]⟩
  | _ => exact ⟨[], by simp [call]⟩

theorem WellFormed.call (h : pipe.WellFormed) (made : PipeCall) : (pipe.call made).WellFormed := by
  cases made with
  | write bytes =>
    cases he : pipe.write bytes with
    | ok next => simpa [StreamOutputPipe.call, he] using h.write he
    | error error => simpa [StreamOutputPipe.call, he] using h
  | pollWrite buf =>
    cases he : pipe.pollWrite buf with
    | ok polled =>
      obtain ⟨k, next⟩ := polled
      simpa [StreamOutputPipe.call, he] using h.pollWrite he
    | error error => simpa [StreamOutputPipe.call, he] using h
  | waitAndDrain => exact h.waitAndDrain
  | pollShutdown => exact h.setEof
  | setEof => exact h.setEof
  | close => exact h.close
  | _ => exact h

theorem wellFormed_of_reachable {capacity : ℕ} (h : Reachable (pipeSystem capacity) pipe) :
    pipe.WellFormed := by
  refine h.invariant ?_ (wellFormed_new capacity)
  rintro s made t ⟨⟩ hs
  exact hs.call made

theorem calls_spec (pipe : StreamOutputPipe) (made : List PipeCall) : ∃ bytes,
    (pipe.calls made).capacity = pipe.capacity ∧
    (pipe.calls made).state.buffer = pipe.state.buffer ++ bytes ∧
    ((∀ a ∈ made, a.writes = false) → bytes = []) ∧
    (pipe.calls made).state.closed = (pipe.state.closed || decide (.close ∈ made)) := by
  induction made generalizing pipe with
  | nil => exact ⟨[], by simp [calls]⟩
  | cons a made ih =>
    obtain ⟨first, hcap, hbuffer, hfirst, hclosed⟩ := pipe.call_spec a
    obtain ⟨rest, hcap', hbuffer', hrest, hclosed'⟩ := ih (pipe.call a)
    refine ⟨first ++ rest, hcap'.trans hcap, ?_, ?_, ?_⟩
    · exact hbuffer'.trans (by rw [hbuffer, List.append_assoc])
    · intro hquiet
      obtain ⟨ha, hmade⟩ := List.forall_mem_cons.mp hquiet
      rw [hfirst ha, hrest hmade, List.append_nil]
    · refine hclosed'.trans ?_
      rw [hclosed, Bool.or_assoc]
      simp only [List.mem_cons, Bool.decide_or, eq_comm]

theorem room_calls_le (pipe : StreamOutputPipe) (made : List PipeCall) :
    (pipe.calls made).room ≤ pipe.room := by
  obtain ⟨bytes, hcap, hbuffer, -, -⟩ := pipe.calls_spec made
  simp only [room, hcap, hbuffer, List.length_append]
  omega

def unread (pipe : StreamOutputPipe) : StreamOutputPipe :=
  { pipe with state := { pipe.state with readPos := 0 } }

theorem unread_room (h : pipe.unread = other.unread) : pipe.room = other.room := by
  obtain ⟨capacity, buffer, readPos, eof, closed⟩ := pipe
  obtain ⟨capacity', buffer', readPos', eof', closed'⟩ := other
  simp only [unread, mk.injEq, StreamState.mk.injEq] at h
  simp only [room, h.1, h.2.1]

theorem unread_call (h : pipe.unread = other.unread) (made : PipeCall) :
    (pipe.call made).unread = (other.call made).unread := by
  obtain ⟨capacity, buffer, readPos, eof, closed⟩ := pipe
  obtain ⟨capacity', buffer', readPos', eof', closed'⟩ := other
  simp only [unread, mk.injEq, StreamState.mk.injEq] at h
  obtain ⟨rfl, rfl, -, rfl, rfl⟩ := h
  cases made with
  | write bytes =>
    simp only [call, write]
    split_ifs <;> rfl
  | pollWrite buf =>
    simp only [call, pollWrite]
    split_ifs <;> rfl
  | _ => rfl

theorem unread_calls (h : pipe.unread = other.unread) (made : List PipeCall) :
    (pipe.calls made).unread = (other.calls (made.filter (· ≠ .waitAndDrain))).unread := by
  induction made generalizing pipe other with
  | nil => exact h
  | cons a made ih =>
    by_cases ha : a = .waitAndDrain
    · subst ha
      rw [List.filter_cons_of_neg (by simp)]
      have hdrained : (pipe.call .waitAndDrain).unread = other.unread := h
      exact ih hdrained
    · simpa [ha, calls] using ih (unread_call h a)

end StreamOutputPipe

/-- What the pipe owes a writer that asks before it writes. -/
structure HonoursPermits (pipe : StreamOutputPipe) : Prop where
  /-- A permit is never empty, and never for more than the pipe can hold. -/
  within : ∀ n, pipe.checkWrite = .ok n → 0 < n ∧ pipe.contents.length + n = pipe.capacity
  /-- Whatever happens up to the next write, only the hard close withdraws a permit. -/
  granted : ∀ n between bytes, pipe.checkWrite = .ok n → (∀ made ∈ between, made.writes = false) →
    bytes.length ≤ n →
      if .close ∈ between then (pipe.calls between).write bytes = .error .closed
      else ∃ next, (pipe.calls between).write bytes = .ok next
  /-- A refusal is final. -/
  refused : pipe.checkWrite = .error .closed → ∀ between bytes, bytes ≠ [] →
    ∃ error, (pipe.calls between).write bytes = .error error
  /-- No series of calls makes room, and draining has no part in it. -/
  drained : ∀ made, (pipe.calls made).room ≤ pipe.room ∧
    (pipe.calls made).room = (pipe.calls (made.filter (· ≠ .waitAndDrain))).room
  polled : ∀ buf k next, pipe.pollWrite buf = .ok (k, next) →
    (buf ≠ [] → k ≠ 0) ∧ k ≤ buf.length ∧ next.contents = pipe.contents ++ buf.take k

namespace StreamOutputPipe
variable {pipe : StreamOutputPipe}

theorem granted_write {n : ℕ} {between : List PipeCall} {bytes : List UInt8}
    (hpermit : pipe.checkWrite = .ok n) (hquiet : ∀ made ∈ between, made.writes = false)
    (hbytes : bytes.length ≤ n) :
    if .close ∈ between then (pipe.calls between).write bytes = .error .closed
    else ∃ next, (pipe.calls between).write bytes = .ok next := by
  obtain ⟨hopen, -, hn⟩ := checkWrite_eq_ok.mp hpermit
  obtain ⟨appended, hcap, hbuffer, hnone, hclosed⟩ := pipe.calls_spec between
  rw [hnone hquiet, List.append_nil] at hbuffer
  rw [hopen, Bool.false_or] at hclosed
  split_ifs with hc
  · unfold write
    rw [if_pos (by rw [hclosed]; exact decide_eq_true hc)]
  · refine write_ok_iff.mpr ⟨by rw [hclosed]; exact decide_eq_false hc, ?_⟩
    rw [hcap, hbuffer, ← hn]
    exact hbytes

theorem refused_write (hrefused : pipe.checkWrite = .error .closed) (between : List PipeCall)
    {bytes : List UInt8} (hbytes : bytes ≠ []) :
    ∃ error, (pipe.calls between).write bytes = .error error := by
  cases he : (pipe.calls between).write bytes with
  | error error => exact ⟨error, rfl⟩
  | ok next =>
    -- a write that goes through contradicts both reasons for the refusal
    obtain ⟨appended, hcap, hbuffer, -, hclosed⟩ := pipe.calls_spec between
    obtain ⟨hopen, hfits, -⟩ := write_eq_ok he
    rw [hclosed, Bool.or_eq_false_iff] at hopen
    have hfull := checkWrite_eq_closed.mp hrefused hopen.1
    have hlength := List.length_pos_of_ne_nil hbytes
    rw [hcap, hbuffer, List.length_append] at hfits
    omega

theorem polled_bytes {buf : List UInt8} {k : ℕ} {next : StreamOutputPipe}
    (h : pipe.pollWrite buf = .ok (k, next)) :
    (buf ≠ [] → k ≠ 0) ∧ k ≤ buf.length ∧ next.contents = pipe.contents ++ buf.take k := by
  obtain ⟨-, hroom, hk, rfl⟩ := pollWrite_eq_ok h
  refine ⟨?_, by omega, rfl⟩
  intro hbuf
  have hlength := List.length_pos_of_ne_nil hbuf
  omega

end StreamOutputPipe

/-- Every permit is honoured, however the host's calls fall between the writer's. -/
theorem pipe_honours_permits {capacity : ℕ} {pipe : StreamOutputPipe}
    (h : Reachable (pipeSystem capacity) pipe) : HonoursPermits pipe where
  within n hn := by
    obtain ⟨-, hpos, rfl⟩ := StreamOutputPipe.checkWrite_eq_ok.mp hn
    have hbounded := (StreamOutputPipe.wellFormed_of_reachable h).bounded
    exact ⟨hpos, Nat.add_sub_cancel' hbounded⟩
  granted _ _ _ hpermit hquiet hbytes := StreamOutputPipe.granted_write hpermit hquiet hbytes
  refused hrefused between _ hbytes := StreamOutputPipe.refused_write hrefused between hbytes
  drained made := by
    refine ⟨pipe.room_calls_le made, ?_⟩
    exact StreamOutputPipe.unread_room (StreamOutputPipe.unread_calls rfl made)
  polled _ _ _ hp := StreamOutputPipe.polled_bytes hp

theorem pipe_honours_permits_exact_fit :
    HonoursPermits (((StreamOutputPipe.new 4).call (.write [104, 105])).call .waitAndDrain) :=
  @pipe_honours_permits 4 _
    (((Runs.refl _).step (a := .write [104, 105]) trivial rfl).step (a := .waitAndDrain) trivial rfl)

end FerrousRuntime.Pipe
