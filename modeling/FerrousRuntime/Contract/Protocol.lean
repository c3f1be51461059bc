import FerrousRuntime.Contract.Command
import FerrousRuntime.Foundation.Residual

/-! # The protocol of a session's events

`protocol` is the language a session speaks, in the shape a reader of its events would
write it down. `SessionState.accept` is a hand-written table over a lifecycle: each
lifecycle stands for a residual of the language, and the table takes exactly the events
its residual can begin with.
-/
namespace FerrousRuntime.Command
open Capability Residual Computability

namespace SessionEvent

def isStarted : SessionEvent → Bool
  | .started => true
  | _ => false

def isPendingApproval : SessionEvent → Bool
  | .pendingApproval _ => true
  | _ => false

def isOutput : SessionEvent → Bool
  | .output _ _ => true
  | _ => false

def isStop : SessionEvent → Bool
  | .exited _ | .cancelled => true
  | _ => false

def isRefusal : SessionEvent → Bool
  | .denied | .unsupported => true
  | _ => false

end SessionEvent

/-- From the start on: `Started Output* (Exited | Cancelled)`. -/
def executions : Language SessionEvent :=
  letter SessionEvent.isStarted * ((letter SessionEvent.isOutput)∗ * letter SessionEvent.isStop)

def refusals : Language SessionEvent := letter SessionEvent.isRefusal

/-- `PendingApproval? Started Output* (Exited | Cancelled)`, or
`PendingApproval? (Denied | Unsupported)`. -/
def protocol : Language SessionEvent :=
  (1 + letter SessionEvent.isPendingApproval) * executions +
    (1 + letter SessionEvent.isPendingApproval) * refusals

namespace Lifecycle

/-- What a session at this point of its life may still say. -/
def residual : Lifecycle → Language SessionEvent
  | .created => protocol
  | .waitingApproval => executions + refusals
  | .running => (letter SessionEvent.isOutput)∗ * letter SessionEvent.isStop
  | .finished => 1

def after : Lifecycle → SessionEvent → Option Lifecycle
  | .created, .pendingApproval _ => some .waitingApproval
  | .created, .started | .waitingApproval, .started => some .running
  | .created, .denied | .waitingApproval, .denied => some .finished
  | .created, .unsupported | .waitingApproval, .unsupported => some .finished
  | .running, .output _ _ => some .running
  | .running, .exited _ | .running, .cancelled => some .finished
  | _, _ => none

theorem quotient_executions (event : SessionEvent) : executions.leftQuotient [event] =
    if event.isStarted then residual .running else 0 := quotient_letter_mul

/-- The lifecycle moves along the residuals of the protocol. -/
theorem residual_quotient (lifecycle : Lifecycle) (event : SessionEvent) :
    lifecycle.residual.leftQuotient [event] = (lifecycle.after event).elim 0 residual := by
  cases lifecycle with
  | created =>
    simp only [residual, protocol, refusals, add_mul, one_mul, quotient_add, quotient_executions,
      quotient_letter_mul, quotient_letter]
    cases event <;> simp [SessionEvent.isStarted, SessionEvent.isPendingApproval,
      SessionEvent.isRefusal, after, residual, refusals]
  | waitingApproval =>
    simp only [residual, refusals, quotient_add, quotient_executions, quotient_letter]
    cases event <;> simp [SessionEvent.isStarted, SessionEvent.isRefusal, after, residual]
  | running =>
    simp only [residual, quotient_kstar_mul, quotient_letter]
    cases event <;> simp [SessionEvent.isOutput, SessionEvent.isStop, after, residual]
  | finished =>
    simp only [residual, quotient_one]
    cases event <;> rfl

theorem residual_within (lifecycle : Lifecycle) : Within lifecycle.residual [] := by
  have hrunning : [.cancelled] ∈ residual .running :=
    Language.append_mem_mul (Language.nil_mem_kstar _) ⟨.cancelled, rfl, rfl⟩
  have hexecution : [.started, .cancelled] ∈ executions :=
    cons_mem_letter_mul.mpr ⟨rfl, hrunning⟩
  cases lifecycle with
  | created =>
    refine ⟨[.started, .cancelled], Or.inl ?_⟩
    rw [add_mul, one_mul]
    exact Or.inl hexecution
  | waitingApproval => exact ⟨[.started, .cancelled], Or.inl hexecution⟩
  | running => exact ⟨[.cancelled], hrunning⟩
  | finished => exact ⟨[], rfl⟩

theorem within_residual_iff (lifecycle : Lifecycle) (event : SessionEvent) :
    Within lifecycle.residual [event] ↔ (lifecycle.after event).isSome := by
  rw [← List.append_nil [event], within_append, residual_quotient]
  cases lifecycle.after event with
  | none => exact iff_of_false (not_within_zero []) Bool.false_ne_true
  | some next => exact iff_of_true next.residual_within rfl

end Lifecycle

namespace SessionState

/-- `SessionState::accept` on the state it borrows: the assignments in the places of the
source, with an early return at every error. -/
def acceptMut (event : SessionEvent) : EStateM CommandError SessionState Unit := do
  match (← get).lifecycle, event with
  | .created, .started => modify (fun state => { state with lifecycle := .running })
  | .created, .pendingApproval _ =>
    modify (fun state => { state with lifecycle := .waitingApproval })
  | .waitingApproval, .started => modify (fun state => { state with lifecycle := .running })
  | .waitingApproval, .denied | .waitingApproval, .unsupported =>
    modify (fun state => { state with lifecycle := .finished })
  | .running, .output _ bytes =>
    let some next := checkedAdd (← get).outputBytes bytes.length | throw .outputLimit
    if next > (← get).limits.maxOutputBytes then throw .outputLimit
    modify (fun state => { state with outputBytes := next })
  | .running, .exited _ | .running, .cancelled =>
    modify (fun state => { state with lifecycle := .finished })
  | .created, .denied | .created, .unsupported =>
    modify (fun state => { state with lifecycle := .finished })
  | .created, _ => throw (.invalidTransition "session has not started")
  | .waitingApproval, _ => throw (.invalidTransition "session is awaiting approval")
  | .running, .started => throw (.invalidTransition "session already started")
  | .running, .pendingApproval _ =>
    throw (.invalidTransition "running session cannot await approval")
  | .running, .denied | .running, .unsupported =>
    throw (.invalidTransition "running session cannot be denied")
  | .finished, _ => throw (.invalidTransition "session is finished")

/-- An error leaves the borrowed state as it was, and a success leaves the state that
`accept` returns. -/
theorem acceptMut_run (state : SessionState) (event : SessionEvent) : (acceptMut event).run state =
    match state.accept event with
    | .ok next => .ok () next
    | .error error => .error error state := by
  obtain ⟨id, limits, outputBytes, lifecycle⟩ := state
  cases lifecycle with
  | running =>
    cases event with
    | output stream bytes =>
      cases hadd : checkedAdd outputBytes bytes.length with
      | none => simp [acceptMut, accept, hadd]
      | some next =>
        by_cases hover : next > limits.maxOutputBytes
        · simp [acceptMut, accept, hadd, hover]
        · simp [acceptMut, accept, hadd, hover]
    | _ => rfl
  | _ => cases event <;> rfl

/-- Events in order are accepted as long as the output fits, counted without bound. -/
theorem accept_eq_ok {state next : SessionState} {event : SessionEvent} :
    state.accept event = .ok next ↔ ∃ lifecycle, state.lifecycle.after event = some lifecycle ∧
      (event.isOutput = true →
        state.outputBytes + event.bytes.length ≤ state.limits.maxOutputBytes) ∧
      next = { state with
        outputBytes := state.outputBytes + event.bytes.length
        lifecycle := lifecycle } := by
  obtain ⟨id, limits, outputBytes, lifecycle⟩ := state
  cases lifecycle with
  | running =>
    cases event with
    | output stream bytes =>
      simp only [accept, checkedAdd, Lifecycle.after, SessionEvent.isOutput, SessionEvent.bytes,
        Option.some.injEq, exists_eq_left', forall_const]
      by_cases hle : outputBytes + bytes.length ≤ limits.maxOutputBytes
      · rw [if_pos (hle.trans limits.output_le)]
        simp [hle.not_gt, hle, eq_comm]
      · -- past the limit, whether or not the counter itself overflows
        by_cases hsum : outputBytes + bytes.length ≤ u64Max
        · simp [hsum, hle, not_le.mp hle]
        · simp [hsum, hle]
    | _ => simp [accept, Lifecycle.after, SessionEvent.isOutput, SessionEvent.bytes, eq_comm]
  | _ =>
    cases event <;>
      simp [accept, Lifecycle.after, SessionEvent.isOutput, SessionEvent.bytes, eq_comm]

def offers : SessionState → List SessionEvent → SessionState × List SessionEvent
  | state, [] => (state, [])
  | state, event :: rest =>
    match (acceptMut event).run state with
    | .ok _ next => ((next.offers rest).1, event :: (next.offers rest).2)
    | .error _ next => next.offers rest

def outputSum (events : List SessionEvent) : ℕ := (events.map (fun event => event.bytes.length)).sum

/-- The state sums up what was accepted: the count of its bytes, and what may follow it. -/
structure Summarises (start : SessionState) (accepted : List SessionEvent) (state : SessionState) :
    Prop where
  id : state.id = start.id
  limits : state.limits = start.limits
  outputBytes : state.outputBytes = start.outputBytes + outputSum accepted
  residual : state.lifecycle.residual = start.lifecycle.residual.leftQuotient accepted

theorem summarises_accept {state next final : SessionState} {event : SessionEvent}
    {accepted : List SessionEvent} (ha : state.accept event = .ok next)
    (h : Summarises next accepted final) : Summarises state (event :: accepted) final := by
  obtain ⟨lifecycle, hafter, -, rfl⟩ := accept_eq_ok.mp ha
  refine ⟨h.id, h.limits, ?_, ?_⟩
  · simp only [h.outputBytes, outputSum, List.map_cons, List.sum_cons, Nat.add_assoc]
  · rw [h.residual, ← List.singleton_append, Language.leftQuotient_append,
      Lifecycle.residual_quotient, hafter]
    rfl

theorem offers_summarises (state : SessionState) (offered : List SessionEvent) :
    Summarises state (state.offers offered).2 (state.offers offered).1 := by
  induction offered generalizing state with
  | nil => exact ⟨rfl, rfl, rfl, rfl⟩
  | cons event rest ih =>
    have hrun := acceptMut_run state event
    unfold offers
    cases ha : state.accept event with
    | ok next =>
      rw [ha] at hrun
      rw [hrun]
      exact summarises_accept ha (ih next)
    | error error =>
      rw [ha] at hrun
      rw [hrun]
      exact ih state

structure KeepsProtocol (state : SessionState) (limits : ResourceLimits)
    (accepted : List SessionEvent) : Prop where
  within : Within protocol accepted
  outputBytes : state.outputBytes = outputSum accepted
  accepts : ∀ event, (∃ next, (acceptMut event).run state = .ok () next) ↔
    Within protocol (accepted ++ [event]) ∧
      (event.isOutput = true → outputSum (accepted ++ [event]) ≤ limits.maxOutputBytes)
  rejects : ∀ event error next, (acceptMut event).run state = .error error next → next = state

theorem acceptMut_ok_iff {state : SessionState} {event : SessionEvent} :
    (∃ next, (acceptMut event).run state = .ok () next) ↔
      (state.lifecycle.after event).isSome ∧ (event.isOutput = true →
        state.outputBytes + event.bytes.length ≤ state.limits.maxOutputBytes) := by
  rw [acceptMut_run, Option.isSome_iff_exists]
  cases ha : state.accept event with
  | ok next =>
    obtain ⟨lifecycle, hafter, hfits, -⟩ := accept_eq_ok.mp ha
    exact iff_of_true ⟨next, rfl⟩ ⟨⟨lifecycle, hafter⟩, hfits⟩
  | error error =>
    refine iff_of_false (by rintro ⟨next, ⟨⟩⟩) ?_
    rintro ⟨⟨lifecycle, hafter⟩, hfits⟩
    rw [accept_eq_ok.mpr ⟨lifecycle, hafter, hfits, rfl⟩] at ha
    cases ha

theorem acceptMut_rejects {state next : SessionState} {event : SessionEvent} {error : CommandError}
    (h : (acceptMut event).run state = .error error next) : next = state := by
  rw [acceptMut_run] at h
  split at h <;> cases h
  rfl

end SessionState

/-- A session accepts exactly its protocol, within its output limit. -/
theorem session_keeps_protocol (id : ℕ) (limits : ResourceLimits) (offered : List SessionEvent) :
    ((SessionState.new id limits).offers offered).1.KeepsProtocol limits
      ((SessionState.new id limits).offers offered).2 := by
  have h := SessionState.offers_summarises (.new id limits) offered
  generalize (SessionState.new id limits).offers offered = session at h ⊢
  have hresidual : session.1.lifecycle.residual = protocol.leftQuotient session.2 := h.residual
  have hsum : session.1.outputBytes = SessionState.outputSum session.2 :=
    h.outputBytes.trans (Nat.zero_add _)
  refine ⟨?_, hsum, ?_, fun _ _ _ => SessionState.acceptMut_rejects⟩
  · rw [← List.append_nil session.2, within_append, ← hresidual]
    exact session.1.lifecycle.residual_within
  · intro event
    have hlimits : session.1.limits = limits := h.limits
    rw [SessionState.acceptMut_ok_iff, within_append, ← hresidual, Lifecycle.within_residual_iff,
      hsum, hlimits]
    simp [SessionState.outputSum]

end FerrousRuntime.Command
