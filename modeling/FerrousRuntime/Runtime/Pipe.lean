import FerrousRuntime.Contract.Command

/-! # Bounded output pipes

`StreamOutputPipe` is the pipe of the streaming path: a buffer that only grows, a
read position, and two one-way flags. Every operation below is one critical
section of the source. `MemoryOutputPipe` is the capturing path's pipe, with the
behaviour its library documents.
-/
namespace FerrousRuntime.Pipe
open Command

inductive StreamError
  | closed
  | trap (message : String)
deriving DecidableEq, Repr

inductive IoError
  | writeZero (message : String)
deriving DecidableEq, Repr

structure StreamState where
  buffer : List UInt8
  readPos : ℕ
  eof : Bool
  closed : Bool
deriving DecidableEq, Repr

structure StreamOutputPipe where
  capacity : ℕ
  state : StreamState
deriving DecidableEq, Repr

namespace StreamOutputPipe

def new (capacity : ℕ) : StreamOutputPipe := ⟨capacity, ⟨[], 0, false, false⟩⟩

/-- The drain of `wait_and_drain`, once the wait is over: by data, end-of-stream
or the timeout. -/
def waitAndDrain (pipe : StreamOutputPipe) : (List UInt8 × Bool) × StreamOutputPipe :=
  ((pipe.state.buffer.drop pipe.state.readPos, pipe.state.eof),
    { pipe with state := { pipe.state with readPos := pipe.state.buffer.length } })

def contents (pipe : StreamOutputPipe) : List UInt8 := pipe.state.buffer

def setEof (pipe : StreamOutputPipe) : StreamOutputPipe :=
  { pipe with state := { pipe.state with eof := true } }

def close (pipe : StreamOutputPipe) : StreamOutputPipe :=
  { pipe with state := { pipe.state with closed := true } }

/-- `OutputStream::write`; an error leaves the pipe unchanged. -/
def write (pipe : StreamOutputPipe) (bytes : List UInt8) : Except StreamError StreamOutputPipe :=
  if pipe.state.closed then .error .closed
  else if bytes.length > pipe.capacity - pipe.state.buffer.length then
    .error (.trap "write beyond capacity of StreamOutputPipe")
  else .ok { pipe with state := { pipe.state with buffer := pipe.state.buffer ++ bytes } }

/-- `OutputStream::check_write`: the room left; a full pipe counts as closed. -/
def checkWrite (pipe : StreamOutputPipe) : Except StreamError ℕ :=
  if pipe.state.closed then .error .closed
  else if pipe.state.buffer.length < pipe.capacity then
    .ok (pipe.capacity - pipe.state.buffer.length)
  else .error .closed

def pollWrite (pipe : StreamOutputPipe) (buf : List UInt8) : Except IoError (ℕ × StreamOutputPipe) :=
  if pipe.state.closed || decide (pipe.state.buffer.length ≥ pipe.capacity) then
    .error (.writeZero "StreamOutputPipe is closed or full")
  else
    let amt := min buf.length (pipe.capacity - pipe.state.buffer.length)
    .ok (amt, { pipe with state := { pipe.state with buffer := pipe.state.buffer ++ buf.take amt } })

def pollShutdown (pipe : StreamOutputPipe) : StreamOutputPipe := pipe.setEof

@[simp] theorem waitAndDrain_capacity (pipe : StreamOutputPipe) :
    pipe.waitAndDrain.2.capacity = pipe.capacity := rfl
@[simp] theorem waitAndDrain_buffer (pipe : StreamOutputPipe) :
    pipe.waitAndDrain.2.state.buffer = pipe.state.buffer := rfl
@[simp] theorem waitAndDrain_readPos (pipe : StreamOutputPipe) :
    pipe.waitAndDrain.2.state.readPos = pipe.state.buffer.length := rfl
@[simp] theorem waitAndDrain_eof (pipe : StreamOutputPipe) :
    pipe.waitAndDrain.2.state.eof = pipe.state.eof := rfl
@[simp] theorem waitAndDrain_closed (pipe : StreamOutputPipe) :
    pipe.waitAndDrain.2.state.closed = pipe.state.closed := rfl
@[simp] theorem setEof_capacity (pipe : StreamOutputPipe) :
    pipe.setEof.capacity = pipe.capacity := rfl
@[simp] theorem setEof_buffer (pipe : StreamOutputPipe) :
    pipe.setEof.state.buffer = pipe.state.buffer := rfl
@[simp] theorem setEof_readPos (pipe : StreamOutputPipe) :
    pipe.setEof.state.readPos = pipe.state.readPos := rfl
@[simp] theorem setEof_eof (pipe : StreamOutputPipe) : pipe.setEof.state.eof = true := rfl
@[simp] theorem setEof_closed (pipe : StreamOutputPipe) :
    pipe.setEof.state.closed = pipe.state.closed := rfl
@[simp] theorem close_capacity (pipe : StreamOutputPipe) : pipe.close.capacity = pipe.capacity := rfl
@[simp] theorem close_buffer (pipe : StreamOutputPipe) :
    pipe.close.state.buffer = pipe.state.buffer := rfl
@[simp] theorem close_readPos (pipe : StreamOutputPipe) :
    pipe.close.state.readPos = pipe.state.readPos := rfl
@[simp] theorem close_eof (pipe : StreamOutputPipe) : pipe.close.state.eof = pipe.state.eof := rfl
@[simp] theorem close_closed (pipe : StreamOutputPipe) : pipe.close.state.closed = true := rfl

theorem write_eq_ok {pipe next : StreamOutputPipe} {bytes : List UInt8}
    (h : pipe.write bytes = .ok next) :
    pipe.state.closed = false ∧ bytes.length ≤ pipe.capacity - pipe.state.buffer.length ∧
      next = { pipe with state := { pipe.state with buffer := pipe.state.buffer ++ bytes } } := by
  unfold write at h
  split at h
  · cases h
  · rename_i hc
    split at h
    · cases h
    · rename_i hl
      cases h
      exact ⟨by simpa using hc, by omega, rfl⟩

theorem write_ok_iff {pipe : StreamOutputPipe} {bytes : List UInt8} :
    (∃ next, pipe.write bytes = .ok next) ↔
      pipe.state.closed = false ∧ bytes.length ≤ pipe.capacity - pipe.state.buffer.length := by
  constructor
  · rintro ⟨next, h⟩
    exact ⟨(write_eq_ok h).1, (write_eq_ok h).2.1⟩
  · rintro ⟨hopen, hfits⟩
    unfold write
    rw [if_neg (by simp [hopen]), if_neg hfits.not_gt]
    exact ⟨_, rfl⟩

theorem checkWrite_eq_ok {pipe : StreamOutputPipe} {n : ℕ} :
    pipe.checkWrite = .ok n ↔ pipe.state.closed = false ∧ 0 < n ∧
      n = pipe.capacity - pipe.state.buffer.length := by
  unfold checkWrite
  split
  · simp_all
  · split
    · simp_all only [Bool.not_eq_true, Except.ok.injEq, true_and]
      omega
    · simp_all only [Bool.not_eq_true, reduceCtorEq, true_and, false_iff]
      omega

theorem checkWrite_eq_closed {pipe : StreamOutputPipe} :
    pipe.checkWrite = .error .closed ↔
      (pipe.state.closed = false → pipe.capacity ≤ pipe.state.buffer.length) := by
  unfold checkWrite
  split
  · simp_all
  · split <;> simp_all

theorem pollWrite_eq_ok {pipe next : StreamOutputPipe} {buf : List UInt8} {k : ℕ}
    (h : pipe.pollWrite buf = .ok (k, next)) : pipe.state.closed = false ∧
      pipe.state.buffer.length < pipe.capacity ∧
      k = min buf.length (pipe.capacity - pipe.state.buffer.length) ∧
      next = { pipe with state := { pipe.state with buffer := pipe.state.buffer ++ buf.take k } } := by
  unfold pollWrite at h
  split at h
  · cases h
  · rename_i hopen
    simp only [ge_iff_le, Bool.or_eq_true, decide_eq_true_eq, not_or, Bool.not_eq_true, not_le] at hopen
    cases h
    exact ⟨hopen.1, hopen.2, rfl, rfl⟩

structure WellFormed (pipe : StreamOutputPipe) : Prop where
  read : pipe.state.readPos ≤ pipe.state.buffer.length
  bounded : pipe.state.buffer.length ≤ pipe.capacity

theorem wellFormed_new (capacity : ℕ) : (new capacity).WellFormed := ⟨le_rfl, Nat.zero_le _⟩

theorem WellFormed.waitAndDrain {pipe : StreamOutputPipe} (h : pipe.WellFormed) :
    pipe.waitAndDrain.2.WellFormed := ⟨le_rfl, h.bounded⟩

theorem WellFormed.setEof {pipe : StreamOutputPipe} (h : pipe.WellFormed) :
    pipe.setEof.WellFormed := ⟨h.read, h.bounded⟩

theorem WellFormed.close {pipe : StreamOutputPipe} (h : pipe.WellFormed) :
    pipe.close.WellFormed := ⟨h.read, h.bounded⟩

theorem WellFormed.write {pipe next : StreamOutputPipe} {bytes : List UInt8} (h : pipe.WellFormed)
    (he : pipe.write bytes = .ok next) : next.WellFormed := by
  obtain ⟨-, hl, rfl⟩ := write_eq_ok he
  have hr := h.read
  have hb := h.bounded
  constructor <;> simp only [List.length_append] <;> omega

theorem WellFormed.pollWrite {pipe next : StreamOutputPipe} {buf : List UInt8} {k : ℕ}
    (h : pipe.WellFormed) (he : pipe.pollWrite buf = .ok (k, next)) : next.WellFormed := by
  obtain ⟨-, hroom, rfl, rfl⟩ := pollWrite_eq_ok he
  have hr := h.read
  constructor <;> simp only [List.length_append, List.length_take] <;> omega

end StreamOutputPipe

structure MemoryOutputPipe where
  capacity : ℕ
  buffer : List UInt8
deriving DecidableEq, Repr

namespace MemoryOutputPipe

def new (capacity : ℕ) : MemoryOutputPipe := ⟨capacity, []⟩

def contents (pipe : MemoryOutputPipe) : List UInt8 := pipe.buffer

def write (pipe : MemoryOutputPipe) (bytes : List UInt8) : Except StreamError MemoryOutputPipe :=
  if bytes.length > pipe.capacity - pipe.buffer.length then
    .error (.trap "write beyond capacity of MemoryOutputPipe")
  else .ok { pipe with buffer := pipe.buffer ++ bytes }

def checkWrite (pipe : MemoryOutputPipe) : Except StreamError ℕ :=
  if pipe.buffer.length < pipe.capacity then .ok (pipe.capacity - pipe.buffer.length)
  else .error .closed

end MemoryOutputPipe

namespace StreamOutputPipe
variable {pipe : StreamOutputPipe}

def toMemory (pipe : StreamOutputPipe) : MemoryOutputPipe := ⟨pipe.capacity, pipe.state.buffer⟩

theorem checkWrite_toMemory (hopen : pipe.state.closed = false) :
    pipe.checkWrite = pipe.toMemory.checkWrite := by
  unfold checkWrite
  rw [if_neg (by simp [hopen])]
  rfl

/-- Until it is closed, a pipe takes and refuses what the capturing path's pipe does. -/
theorem write_toMemory (hopen : pipe.state.closed = false) (bytes : List UInt8) :
    (∃ next, pipe.write bytes = .ok next ∧ pipe.toMemory.write bytes = .ok next.toMemory) ∨
      ∃ message message', pipe.write bytes = .error (.trap message) ∧
        pipe.toMemory.write bytes = .error (.trap message') := by
  unfold write MemoryOutputPipe.write toMemory
  rw [if_neg (by simp [hopen])]
  dsimp only
  by_cases hfits : bytes.length > pipe.capacity - pipe.state.buffer.length
  · rw [if_pos hfits, if_pos hfits]
    exact Or.inr ⟨_, _, rfl, rfl⟩
  · rw [if_neg hfits, if_neg hfits]
    exact Or.inl ⟨_, rfl, rfl⟩

end StreamOutputPipe

namespace MemoryOutputPipe

theorem write_cases (pipe : MemoryOutputPipe) (bytes : List UInt8) :
    (∃ next, pipe.write bytes = .ok next) ∨ ∃ message, pipe.write bytes = .error (.trap message) := by
  unfold write
  split
  · exact Or.inr ⟨_, rfl⟩
  · exact Or.inl ⟨_, rfl⟩

theorem write_eq_ok {pipe next : MemoryOutputPipe} {bytes : List UInt8} (h : pipe.write bytes = .ok next) :
    next = { pipe with buffer := pipe.buffer ++ bytes } := by
  unfold write at h
  split at h
  · cases h
  · cases h
    rfl

theorem write_fits {pipe next : MemoryOutputPipe} {bytes : List UInt8} (h : pipe.write bytes = .ok next) :
    bytes.length ≤ pipe.capacity - pipe.buffer.length := by
  unfold write at h
  split at h
  · cases h
  · rename_i hfits
    exact Nat.not_lt.mp hfits

end MemoryOutputPipe

end FerrousRuntime.Pipe
