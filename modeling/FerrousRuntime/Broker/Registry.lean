import FerrousRuntime.Broker.Trace
import FerrousRuntime.Foundation.Lease

/-! # The table of handles

One step enters a handle, `enqueue`; every ending releases one, by id. A session is
entitled to its handle from its registration until the first of the events that end it,
and a table in which every entitled session finds its handle stays one as long as no
step enters a handle over, or releases, one that a session stays entitled to.
-/
namespace FerrousRuntime.Broker
open Tally Lease Transition FerrousRuntime.Runtime

section Releases

def Closing.releases (closing : Closing) : Option ℕ :=
  if closing.stage = .release then some closing.entry.id else none

def CallPc.releases : CallPc → Option ℕ
  | .unregister id => some id
  | .closing c => c.releases
  | _ => none

def WorkerPc.releases : WorkerPc → Option ℕ
  | .missingRelease id | .cleanupHandles id => some id
  | .closing c => c.releases
  | _ => none

def SweeperPc.releases : SweeperPc → Option ℕ
  | .closing c _ => c.releases
  | _ => none

def ActionBroker.releases (b : ActionBroker) : Act → Option ℕ
  | .proceed n => (b.calls[n]?).bind CallPc.releases
  | .worker => b.worker.releases
  | .sweeper _ => b.sweeper.releases
  | _ => none

def CallPc.registers (config : Config) (s : BrokerState) : CallPc → Option Job
  | .enqueue job => if s.handles.entries.length ≥ config.capacity then none else some job
  | _ => none

def ActionBroker.registers (config : Config) (b : ActionBroker) : Act → Option Job
  | .proceed n => (b.calls[n]?).bind (CallPc.registers config b.state)
  | _ => none

def BrokerState.handlesAfter (s : BrokerState) : Option Job → Option ℕ → AList (fun _ : ℕ => ℕ)
  | some job, _ => s.handles.insert job.id job.key
  | none, some id => s.handles.erase id
  | none, none => s.handles

end Releases

section Threads
variable {config : Config} {s : BrokerState}

theorem Closing.step_handles (s : BrokerState) (closing : Closing) :
    (closing.step s).1.handles = s.handlesAfter none closing.releases := by
  unfold Closing.step Closing.releases
  split <;> simp_all [BrokerState.send, BrokerState.record, BrokerState.release, BrokerState.handlesAfter]

theorem callStep_handles {n : ℕ} {pc : CallPc} {next : BrokerState × CallPc}
    (he : callStep config n s pc = some next) :
    next.1.handles = s.handlesAfter (pc.registers config s) pc.releases := by
  cases callStep_cases he with
  | refused job hfull => simp [CallPc.registers, hfull, BrokerState.handlesAfter, CallPc.releases]
  | registered job hroom =>
    simp [CallPc.registers, Nat.not_le.mpr hroom, BrokerState.handlesAfter]
  | closing c _ _ hs | closed c _ hs =>
    have hc := Closing.step_handles s c
    rw [hs] at hc
    exact hc
  | _ => rfl

theorem workerStep_handles {pc : WorkerPc} {next : BrokerState × WorkerPc}
    (he : workerStep config s pc = some next) :
    next.1.handles = s.handlesAfter none pc.releases := by
  cases workerStep_cases he with
  | closing c _ _ hs | closed c _ hs =>
    have hc := Closing.step_handles s c
    rw [hs] at hc
    exact hc
  | _ => rfl

theorem sweeperStep_handles {order : List ℕ} {pc : SweeperPc} {next : BrokerState × SweeperPc}
    (he : sweeperStep s order pc = some next) :
    next.1.handles = s.handlesAfter none pc.releases := by
  cases sweeperStep_cases he with
  | closing c _ _ _ hs | closed c _ _ hs =>
    have hc := Closing.step_handles s c
    rw [hs] at hc
    exact hc
  | _ => rfl

theorem emit_handles (s : BrokerState) (key : ℕ) (event : Option Command.SessionEvent) :
    (s.emit key event).handles = s.handles := by
  cases event <;> rfl

theorem enter_handles (s : BrokerState) (request : Request) :
    (enter s request).1.handles = s.handles := by
  have hn := enter_cases s request
  generalize enter s request = next at hn ⊢
  cases hn <;> rfl

end Threads

section Steps
variable {config : Config} {b t : ActionBroker} {act : Act}

theorem step_handles (he : step config b act = some t) :
    t.state.handles = b.state.handlesAfter (b.registers config act) (b.releases act) := by
  cases act with
  | call request =>
    simp only [step, Option.ite_none_right_eq_some, Option.some.injEq] at he
    obtain ⟨-, rfl⟩ := he
    exact enter_handles b.state request
  | proceed n =>
    obtain ⟨pc, hpc, he⟩ := Option.bind_eq_some_iff.mp he
    obtain ⟨next, hn, rfl⟩ := Option.map_eq_some_iff.mp he
    simp only [ActionBroker.registers, ActionBroker.releases, hpc, Option.bind_some]
    exact callStep_handles hn
  | worker =>
    obtain ⟨next, hn, rfl⟩ := Option.map_eq_some_iff.mp he
    exact workerStep_handles hn
  | sweeper order =>
    obtain ⟨next, hn, rfl⟩ := Option.map_eq_some_iff.mp he
    exact sweeperStep_handles hn
  | runtime a =>
    obtain ⟨next, hn, rfl⟩ := Option.map_eq_some_iff.mp he
    obtain ⟨job, cell, run, effect, -, -, rfl⟩ := runtimeStep_cases hn
    exact emit_handles _ job.key effect.event
  | unwind =>
    obtain ⟨next, hn, rfl⟩ := Option.map_eq_some_iff.mp he
    obtain ⟨job, cell, run, -, -, rfl⟩ := unwindStep_cases hn
    rfl
  | stray index elapsed =>
    obtain ⟨stray, -, he⟩ := Option.bind_eq_some_iff.mp he
    obtain ⟨next, hn, rfl⟩ := Option.map_eq_some_iff.mp he
    obtain ⟨effect, -, rfl⟩ := Option.map_eq_some_iff.mp hn
    exact emit_handles _ stray.key effect.event
  | receive key | dropReceiver key =>
    obtain ⟨next, hn, rfl⟩ := Option.map_eq_some_iff.mp he
    cases receiverStep_cases hn
    rfl
  | tick elapsed => cases he; rfl
  | drop =>
    simp only [step, Option.ite_none_right_eq_some, Option.some.injEq] at he
    obtain ⟨-, rfl⟩ := he
    rfl
  | dropStep =>
    obtain ⟨next, hn, rfl⟩ := Option.map_eq_some_iff.mp he
    cases dropStep_cases hn <;> rfl

theorem registers_eq_some {job : Job} (hr : b.registers config act = some job) :
    ∃ n, act = .proceed n ∧ b.calls[n]? = some (.enqueue job) ∧
      b.state.handles.entries.length < config.capacity := by
  cases act with
  | proceed n =>
    obtain ⟨pc, hpc, hr⟩ := Option.bind_eq_some_iff.mp hr
    cases pc with
    | enqueue other =>
      simp only [CallPc.registers, Option.ite_none_left_eq_some, Option.some.injEq] at hr
      obtain ⟨hroom, rfl⟩ := hr
      exact ⟨n, rfl, hpc, by omega⟩
    | _ => cases hr
  | _ => cases hr

theorem releases_of_registers {job : Job} (hr : b.registers config act = some job) :
    b.releases act = none := by
  obtain ⟨n, rfl, hpc, -⟩ := registers_eq_some hr
  simp [ActionBroker.releases, hpc, CallPc.releases]

theorem step_registers {job : Job} (he : step config b act = some t)
    (hr : b.registers config act = some job) :
    t.state.history = .registered job :: b.state.history := by
  obtain ⟨n, rfl, hpc, hroom⟩ := registers_eq_some hr
  simp only [step, hpc, Option.bind_some, callStep, if_neg (Nat.not_le.mpr hroom), Option.map_some,
    Option.some.injEq] at he
  exact he ▸ rfl

theorem registered_or_registers {job : Job} (he : step config b act = some t)
    (hin : .registered job ∈ t.state.history) :
    .registered job ∈ b.state.history ∨ b.registers config act = some job := by
  rcases step_logs he hin with hin | hlogs
  · exact Or.inl hin
  · right
    obtain ⟨n, pc, rfl, hpc, hcall⟩ := hlogs.by_call rfl
    cases hcall with
    | registered job hroom =>
      simp only [ActionBroker.registers, hpc, Option.bind_some, CallPc.registers]
      exact if_neg (by omega)
    | closing c event hc => cases hc

end Steps

/-- The session is registered under the id, and no event has ended its claim to the handle. -/
def Entitled (ends : ℕ → Event → Bool) (history : List Event) (id key : ℕ) : Prop :=
  HandleOf history id key ∧ history.countP (ends key) = 0

section Kept
variable {config : Config} {b t : ActionBroker} {act : Act} {ends : ℕ → Event → Bool}

theorem Entitled.key_eq {history : List Event} {job : Job} {key : ℕ} (hd : DistinctIds history)
    (h : Entitled ends history job.id key) (hjob : .registered job ∈ history) : key = job.key := by
  obtain ⟨⟨origin, ho, hid, rfl⟩, -⟩ := h
  exact hd.key_eq ho hjob hid

theorem step_entitled (hb : Reachable (system config) b) (he : step config b act = some t)
    {id key : ℕ} (h : Entitled ends t.state.history id key) : Entitled ends b.state.history id key ∨
      ∃ job, b.registers config act = some job ∧ job.id = id ∧ job.key = key := by
  obtain ⟨⟨origin, ho, hid, hkey⟩, hcount⟩ := h
  rcases registered_or_registers he ho with ho | hr
  · have hle := (history_suffix hb he).sublist.countP_le (p := ends key)
    exact Or.inl ⟨⟨origin, ho, hid, hkey⟩, by omega⟩
  · exact Or.inr ⟨origin, hr, hid, hkey⟩

/-- The rule for the sessions that use their handles: none of them is entered over, and
none is released. -/
theorem step_kept {uses uses' : ℕ → ℕ → Prop} (he : step config b act = some t)
    (hback : ∀ id key, uses' id key → uses id key ∨
      ∃ job, b.registers config act = some job ∧ job.id = id ∧ job.key = key)
    (hover : ∀ job, b.registers config act = some job → ∀ key, uses' job.id key → key = job.key)
    (hfree : ∀ id, b.releases act = some id → ∀ key, ¬ uses' id key)
    (h : Kept b.state.handles uses) : Kept t.state.handles uses' := by
  rw [step_handles he]
  cases hr : b.registers config act with
  | some job =>
    refine h.insert ?_ (hover job hr)
    intro id key hu
    rcases hback id key hu with hu | ⟨other, ho, rfl, rfl⟩
    · exact Or.inl hu
    · cases hr.symm.trans ho
      exact Or.inr ⟨rfl, rfl⟩
  | none =>
    have hsub : ∀ id key, uses' id key → uses id key := by
      intro id key hu
      rcases hback id key hu with hu | ⟨job, hjob, -⟩
      · exact hu
      · cases hr.symm.trans hjob
    cases hrel : b.releases act with
    | none => exact h.mono hsub
    | some id => exact h.erase hsub (hfree id hrel)

end Kept

end FerrousRuntime.Broker
