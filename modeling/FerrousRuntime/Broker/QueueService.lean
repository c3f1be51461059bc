import FerrousRuntime.Broker.TerminalOrder

/-! # Who is at work

The worker serves the queue until it exits, and it exits only when the queue is closed
and empty. `drop` closes the queue after the last call, so no call finds it unserved:
an accepted submission is never taken back, and an approved job always returns.
-/
namespace FerrousRuntime.Broker
open Tally Transition FerrousRuntime.Runtime

def Act.isWorker : Act → Bool
  | .worker => true
  | _ => false

/-- The job an approval holds was parked under the approved id, and no call takes a
registration back. -/
def CallPc.Named : CallPc → Prop
  | .checkCancelled id job | .requeue id job => job.id = id
  | .unregister _ => False
  | _ => True

/-- The worker serves the queue until it is closed and empty, and `drop` waits for the
calls, then for the worker, then for the sweeper. -/
structure ServesQueue (b : ActionBroker) : Prop where
  queueOpen : b.drop = .undropped → b.state.queueOpen = true
  calls : b.drop ≠ .undropped → b.calls.all CallPc.isDone = true
  named : ∀ pc ∈ b.calls, pc.Named
  served : b.state.served = !b.worker.isExited
  exited : b.worker.isExited = true → b.state.queueOpen = false ∧ b.state.queue = []
  joined : b.drop = .joinSweeper ∨ b.drop = .dropped → b.worker.isExited = true
  swept : b.drop = .dropped → b.sweeper.isExited = true

section Threads
variable {config : Config} {s : BrokerState}

theorem Closing.step_queue (s : BrokerState) (closing : Closing) :
    (closing.step s).1.queueOpen = s.queueOpen ∧ (closing.step s).1.served = s.served ∧
      (closing.step s).1.queue = s.queue := by
  unfold Closing.step
  split <;> exact ⟨rfl, rfl, rfl⟩

theorem callStep_named {n : ℕ} {pc : CallPc} {next : BrokerState × CallPc} (hs : s.served = true)
    (hg : s.Genuine) (hpc : pc.Named) (he : callStep config n s pc = some next) :
    next.1.queueOpen = s.queueOpen ∧ next.1.served = s.served ∧ next.2.Named := by
  cases callStep_cases he with
  | unserved job hunserved | stranded id job hunserved => cases hs.symm.trans hunserved
  | unregistered id => exact hpc.elim
  | approved id parked hl => exact ⟨rfl, rfl, (hg.pending _ _ hl).1⟩
  | admitted id job => exact ⟨rfl, rfl, hpc⟩
  | closing c _ _ hstep | closed c _ hstep =>
    obtain ⟨ho, hserved, -⟩ := Closing.step_queue s c
    rw [hstep] at ho hserved
    exact ⟨ho, hserved, trivial⟩
  | _ => exact ⟨rfl, rfl, trivial⟩

/-- The worker stops serving the queue when it exits, and exits when it is closed and empty. -/
theorem workerStep_servesQueue {pc : WorkerPc} {next : BrokerState × WorkerPc} (hs : s.served = true)
    (he : workerStep config s pc = some next) : next.1.queueOpen = s.queueOpen ∧
      next.1.served = !next.2.isExited ∧
      (next.2.isExited = true → next.1.queueOpen = false ∧ next.1.queue = []) := by
  cases workerStep_cases he with
  | exited hq ho => exact ⟨rfl, rfl, fun _ => ⟨ho, hq⟩⟩
  | closing c _ _ hstep | closed c _ hstep =>
    obtain ⟨ho, hserved, -⟩ := Closing.step_queue s c
    rw [hstep] at ho hserved
    exact ⟨ho, hserved.trans hs, by simp [WorkerPc.isExited]⟩
  | _ => exact ⟨rfl, hs, by simp [WorkerPc.isExited]⟩

theorem sweeperStep_queue {order : List ℕ} {pc : SweeperPc} {next : BrokerState × SweeperPc}
    (he : sweeperStep s order pc = some next) : next.1.queueOpen = s.queueOpen ∧
      next.1.served = s.served ∧ next.1.queue = s.queue ∧ pc.isExited = false := by
  cases sweeperStep_cases he with
  | closing c _ _ _ hs | closed c _ _ hs =>
    obtain ⟨ho, hserved, hq⟩ := Closing.step_queue s c
    rw [hs] at ho hserved hq
    exact ⟨ho, hserved, hq, rfl⟩
  | _ => exact ⟨rfl, rfl, rfl, rfl⟩

theorem emit_queue (s : BrokerState) (key : ℕ) (event : Option Command.SessionEvent) :
    (s.emit key event).queueOpen = s.queueOpen ∧ (s.emit key event).served = s.served ∧
      (s.emit key event).queue = s.queue := by
  cases event <;> exact ⟨rfl, rfl, rfl⟩

theorem enter_named (s : BrokerState) (request : Request) :
    (enter s request).1.queueOpen = s.queueOpen ∧ (enter s request).1.served = s.served ∧
      (enter s request).1.queue = s.queue ∧ (enter s request).2.Named := by
  have hn := enter_cases s request
  generalize enter s request = next at hn ⊢
  cases hn <;> exact ⟨rfl, rfl, rfl, trivial⟩

end Threads

section ServesQueue
variable {config : Config} {b t : ActionBroker} {act : Act}

theorem ServesQueue.undropped (h : ServesQueue b) {pc : CallPc} (hpc : pc ∈ b.calls)
    (hdone : pc.isDone = false) : b.drop = .undropped := by
  by_contra hne
  have hall := List.all_eq_true.mp (h.calls hne) pc hpc
  rw [hdone] at hall
  cases hall

theorem ServesQueue.serves (h : ServesQueue b) (hdrop : b.drop = .undropped) : b.state.served = true := by
  have hserved := h.served
  cases hw : b.worker.isExited with
  | false => rw [hserved, hw]; rfl
  | true =>
    have hclosed := (h.exited hw).1
    rw [h.queueOpen hdrop] at hclosed
    cases hclosed

theorem ServesQueue.unjoined (h : ServesQueue b) (hw : b.worker.isExited = false) :
    b.drop ≠ .joinSweeper ∧ b.drop ≠ .dropped := by
  constructor <;> intro hdrop
  · simpa [hw] using h.joined (Or.inl hdrop)
  · simpa [hw] using h.joined (Or.inr hdrop)

theorem ServesQueue.relieve (h : ServesQueue b) {s : BrokerState} {pc : WorkerPc} {strays : List Stray}
    (hw : b.worker.isExited = false) (ho : s.queueOpen = b.state.queueOpen)
    (hs : s.served = !pc.isExited) (hq : pc.isExited = true → s.queueOpen = false ∧ s.queue = []) :
    ServesQueue { b with state := s, worker := pc, strays := strays } := by
  obtain ⟨hsweeper, hdropped⟩ := h.unjoined hw
  refine ⟨fun hd => ho.trans (h.queueOpen hd), h.calls, h.named, hs, hq, ?_,
    fun hd => absurd hd hdropped⟩
  rintro (hd | hd)
  · exact absurd hd hsweeper
  · exact absurd hd hdropped

theorem callStep_not_done {n : ℕ} {s : BrokerState} {pc : CallPc} {next : BrokerState × CallPc}
    (he : callStep config n s pc = some next) : pc.isDone = false := by
  cases pc with
  | done result => cases he
  | _ => rfl

theorem ServesQueue.frame {s : BrokerState} (h : ServesQueue b) (ho : s.queueOpen = b.state.queueOpen)
    (hs : s.served = b.state.served) (hq : s.queue = b.state.queue) :
    ServesQueue { b with state := s } :=
  ⟨fun hd => ho.trans (h.queueOpen hd), h.calls, h.named, hs.trans h.served,
    fun hw => ⟨ho.trans (h.exited hw).1, hq.trans (h.exited hw).2⟩, h.joined, h.swept⟩

theorem step_servesQueue (hb : Reachable (system config) b) (he : step config b act = some t)
    (h : ServesQueue b) : ServesQueue t := by
  have hg := (reachable_genuine hb).state
  apply step_elim he
  case call =>
    intro request hdrop
    obtain ⟨ho, hs, hq, hnamed⟩ := enter_named b.state request
    have hf := h.frame ho hs hq
    refine ⟨hf.queueOpen, fun hne => absurd hdrop hne, ?_, hf.served, hf.exited, hf.joined, hf.swept⟩
    intro pc hpc
    rcases List.mem_append.mp hpc with hpc | hpc
    · exact h.named pc hpc
    · exact List.mem_singleton.mp hpc ▸ hnamed
  case proceed =>
    intro n pc next _ hpc hn
    have hmem := List.mem_of_getElem? hpc
    have hdrop := h.undropped hmem (callStep_not_done hn)
    have hserves := h.serves hdrop
    obtain ⟨ho, hs, hnamed⟩ := callStep_named hserves hg (h.named pc hmem) hn
    have hworker : b.worker.isExited = false := by
      have := h.served
      rw [hserves] at this
      simpa using this
    refine ⟨fun hd => ho.trans (h.queueOpen hd), fun hne => absurd hdrop hne, ?_, hs.trans h.served,
      fun hw => ?_, h.joined, h.swept⟩
    · intro other ho
      rcases List.mem_or_eq_of_mem_set ho with ho | rfl
      · exact h.named other ho
      · exact hnamed
    · rw [hworker] at hw
      cases hw
  case worker =>
    intro next _ hn
    cases hw : b.worker.isExited with
    | true =>
      cases hpc : b.worker with
      | exited => rw [hpc] at hn; cases hn
      | _ => rw [hpc] at hw; cases hw
    | false =>
      have hserves : b.state.served = true := by rw [h.served, hw]; rfl
      obtain ⟨ho, hs, hq⟩ := workerStep_servesQueue hserves hn
      exact h.relieve hw ho hs hq
  case runtime =>
    intro a next _ hn
    obtain ⟨job, cell, run, effect, hw, -, rfl⟩ := runtimeStep_cases hn
    obtain ⟨ho, hs, -⟩ := emit_queue { b.state with epoch := effect.epoch } job.key effect.event
    have hserves : b.state.served = true := by rw [h.served, hw]; rfl
    exact h.relieve (by rw [hw]; rfl) ho (hs.trans hserves) (by simp [WorkerPc.isExited])
  case unwind =>
    intro next _ hn
    obtain ⟨job, cell, run, hw, -, rfl⟩ := unwindStep_cases hn
    have hserves : b.state.served = true := by rw [h.served, hw]; rfl
    exact h.relieve (by rw [hw]; rfl) rfl hserves (by simp [WorkerPc.isExited])
  case stray =>
    intro index elapsed stray next _ _ hn
    obtain ⟨effect, -, rfl⟩ := Option.map_eq_some_iff.mp hn
    obtain ⟨ho, hs, hq⟩ := emit_queue { b.state with epoch := effect.epoch } stray.key effect.event
    have hf := h.frame ho hs hq
    exact ⟨hf.queueOpen, hf.calls, hf.named, hf.served, hf.exited, hf.joined, hf.swept⟩
  case sweeper =>
    intro order next _ hn
    obtain ⟨ho, hs, hq, hopen⟩ := sweeperStep_queue hn
    have hf := h.frame ho hs hq
    refine ⟨hf.queueOpen, hf.calls, hf.named, hf.served, hf.exited, hf.joined, fun hd => ?_⟩
    have hswept := h.swept hd
    rw [hopen] at hswept
    cases hswept
  case receiver =>
    intro key drops next hn
    cases receiverStep_cases hn <;> exact h.frame rfl rfl rfl
  case tick => exact fun elapsed => h.frame rfl rfl rfl
  case drop =>
    intro _ hcalls
    exact ⟨by simp, fun _ => hcalls, h.named, h.served, h.exited, by simp, by simp⟩
  case dropping =>
    intro next hn
    cases dropStep_cases hn with
    | stopped hd | cancelledAll hd =>
      exact ⟨by simp, fun _ => h.calls (by simp [hd]), h.named, h.served, h.exited, by simp, by simp⟩
    | closedQueue hd =>
      exact ⟨by simp, fun _ => h.calls (by simp [hd]), h.named, h.served,
        fun hw => ⟨rfl, (h.exited hw).2⟩, by simp, by simp⟩
    | joinedWorker hd hw =>
      have hexited : b.worker.isExited = true := by rw [hw]; rfl
      exact ⟨by simp, fun _ => h.calls (by simp [hd]), h.named, h.served, h.exited, fun _ => hexited, by simp⟩
    | joinedSweeper hd hs =>
      have hexited : b.sweeper.isExited = true := by rw [hs]; rfl
      exact ⟨by simp, fun _ => h.calls (by simp [hd]), h.named, h.served, h.exited,
        fun _ => h.joined (Or.inl hd), fun _ => hexited⟩

theorem reachable_servesQueue (h : Reachable (system config) b) : ServesQueue b := by
  refine Runs.invariant_of_reachable (fun b act t hb _ he hp => step_servesQueue hb he hp) h (.refl _) ?_
  refine ⟨fun _ => rfl, fun hd => absurd rfl hd, ?_, rfl, ?_, ?_, ?_⟩ <;>
    simp [system, ActionBroker.initial, WorkerPc.isExited]

theorem step_calls (he : step config b act = some t) :
    t.calls = b.calls ∨
    (∃ request, t.calls = b.calls ++ [(enter b.state request).2]) ∨
    ∃ n pc next, act = .proceed n ∧ b.calls[n]? = some pc ∧ callStep config n b.state pc = some next ∧
      t.state = next.1 ∧ t.calls = b.calls.set n next.2 := by
  apply step_elim (P := fun t => t.calls = b.calls ∨
    (∃ request, t.calls = b.calls ++ [(enter b.state request).2]) ∨
    ∃ n pc next, act = .proceed n ∧ b.calls[n]? = some pc ∧ callStep config n b.state pc = some next ∧
      t.state = next.1 ∧ t.calls = b.calls.set n next.2) he
  case call => exact fun request _ => Or.inr (Or.inl ⟨request, rfl⟩)
  case proceed => exact fun n pc next ha hpc hn => Or.inr (Or.inr ⟨n, pc, next, ha, hpc, hn, rfl, rfl⟩)
  all_goals
    intros
    exact Or.inl rfl

/-- A step that is not the worker's own leaves it where it stands, or inside its run, or
brings it out of it by a panic. -/
theorem step_worker (he : step config b act = some t) :
    t.worker = b.worker ∨
    (∃ next, act = .worker ∧ workerStep config b.state b.worker = some next ∧ t.state = next.1 ∧
      t.worker = next.2) ∨
    ∃ job cell run, b.worker = .running job cell run ∧
      ((∃ run', t.worker = .running job cell run') ∨ t.worker = .closing job.panic) := by
  apply step_elim (P := fun t => t.worker = b.worker ∨
    (∃ next, act = .worker ∧ workerStep config b.state b.worker = some next ∧ t.state = next.1 ∧
      t.worker = next.2) ∨
    ∃ job cell run, b.worker = .running job cell run ∧
      ((∃ run', t.worker = .running job cell run') ∨ t.worker = .closing job.panic)) he
  case worker => exact fun next ha hn => Or.inr (Or.inl ⟨next, ha, hn, rfl, rfl⟩)
  case runtime =>
    intro a next _ hn
    obtain ⟨job, cell, run, effect, hw, -, rfl⟩ := runtimeStep_cases hn
    exact Or.inr (Or.inr ⟨job, cell, run, hw, Or.inl ⟨effect.run, rfl⟩⟩)
  case unwind =>
    intro next _ hn
    obtain ⟨job, cell, run, hw, -, rfl⟩ := unwindStep_cases hn
    exact Or.inr (Or.inr ⟨job, cell, run, hw, Or.inr rfl⟩)
  all_goals
    intros
    exact Or.inl rfl

end ServesQueue
end FerrousRuntime.Broker
