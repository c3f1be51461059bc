import FerrousRuntime.Broker.Registry
import FerrousRuntime.Broker.Parking

/-! # An open session keeps its handle

A session is open from its registration until its terminal message. While ids are not
shared by open sessions, no id is registered that some thread still has to release, and
no clean-up meets an open session, every open session has its handle: the worker finds
it, and so does a cancellation.
-/
namespace FerrousRuntime.Broker
open Tally Lease Transition FerrousRuntime.Runtime

/-- The session is registered under the id and was sent no terminal message. -/
abbrev Open (history : List Event) (id key : ℕ) : Prop := Entitled Event.isConcluded history id key

def Unshared (history : List Event) : Prop :=
  ∀ id key key', Open history id key → Open history id key' → key = key'

def WorkerPc.cleans : WorkerPc → Option ℕ
  | .cleanupPending id | .cleanupHandles id => some id
  | _ => none

def WorkerPc.isMissing : WorkerPc → Bool
  | .missing _ | .missingRelease _ => true
  | _ => false

/-- Every open session has its handle, and nobody is about to release it on another's account. -/
structure HandlesKept (b : ActionBroker) : Prop where
  kept : Kept b.state.handles (Open b.state.history)
  closings : ∀ thread c, Closes b thread c → ∀ key, Open b.state.history c.entry.id key → key = c.key
  cleaning : ∀ id, b.worker.cleans = some id → ∀ key, ¬ Open b.state.history id key
  present : b.worker.isMissing = false
  unmissed : ∀ job, .missing job ∉ b.state.history

/-- What a step must not do: register an id that is still to be released, or start the
clean-up of an id that an open session has. -/
structure Respects (config : Config) (b : ActionBroker) (act : Act) : Prop where
  closings : ∀ job, b.registers config act = some job → ∀ thread c, Closes b thread c → c.entry.id ≠ job.id
  cleaning : ∀ job, b.registers config act = some job → b.worker.cleans ≠ some job.id
  notified : ∀ sink id reason, act = .worker → b.worker = .notify sink id reason →
    b.state.dropped.contains sink.channel = true → ∀ key, ¬ Open b.state.history id key

section Threads
variable {config : Config} {s : BrokerState}

theorem workerStep_cleans {pc : WorkerPc} {next : BrokerState × WorkerPc} {id : ℕ}
    (he : workerStep config s pc = some next) (hc : next.2.cleans = some id) :
    pc.cleans = some id ∨ ∃ sink reason, pc = .notify sink id reason ∧ s.dropped.contains sink.channel = true := by
  cases workerStep_cases he with
  | unnotified sink own reason hdropped =>
    cases hc
    exact Or.inr ⟨sink, reason, rfl, hdropped⟩
  | gone | discarded => exact Or.inl hc
  | _ => cases hc

theorem workerStep_missing {pc : WorkerPc} {next : BrokerState × WorkerPc}
    (he : workerStep config s pc = some next) (hm : next.2.isMissing = true) :
    pc.isMissing = true ∨ ∃ job, pc = .lookup job ∧ s.handles.lookup job.id = none := by
  cases workerStep_cases he with
  | missing job hl => exact Or.inr ⟨job, rfl, hl⟩
  | denied => exact Or.inl rfl
  | _ => cases hm

end Threads

section Steps
variable {config : Config} {b t : ActionBroker} {act : Act}

theorem registers_open (hb : Reachable (system config) b) (he : step config b act = some t) {job : Job}
    (hr : b.registers config act = some job) : Open t.state.history job.id job.key := by
  have hh := step_registers he hr
  obtain ⟨n, -, hpc, -⟩ := registers_eq_some hr
  refine ⟨⟨job, by rw [hh]; exact List.mem_cons_self, rfl, rfl⟩, ?_⟩
  have hledger := reachable_ledger hb job.key
  have hborn := hledger.born_le
  have howned := hledger.owned
  obtain ⟨rest, hsum, -⟩ := exists_frame (CallPc.footprint job.key) hpc
  have hself : one (ofKey job.key job) = 1 := by simp [ofKey]
  simp only [ActionBroker.footprint, hsum, Footprint.add_unborn, CallPc.footprint, hself] at hborn
  rw [hh, countP_cons_one]
  simp only [Event.isConcluded, one_false]
  omega

/-- A handle is released at the end of a closing, by a worker that found none, or by the
clean-up. -/
theorem releases_eq_some (hstaff : ServesQueue b) {id : ℕ} (hr : b.releases act = some id) :
    (∃ thread c, Closes b thread c ∧ c.stage = .release ∧ c.entry.id = id) ∨
      act = .worker ∧ (b.worker.isMissing = true ∨ b.worker = .cleanupHandles id) := by
  have hclosing : ∀ c : Closing, c.releases = some id → c.stage = .release ∧ c.entry.id = id := by
    intro c hc
    simpa [Closing.releases] using hc
  cases act with
  | proceed n =>
    obtain ⟨pc, hpc, hr⟩ := Option.bind_eq_some_iff.mp hr
    cases pc with
    | unregister own => exact (hstaff.named _ (List.mem_of_getElem? hpc)).elim
    | closing c => exact Or.inl ⟨.call n, c, .call n c hpc, hclosing c hr⟩
    | _ => cases hr
  | worker =>
    change b.worker.releases = some id at hr
    cases hw : b.worker with
    | closing c => rw [hw] at hr; exact Or.inl ⟨.worker, c, .worker c hw, hclosing c hr⟩
    | missingRelease own => exact Or.inr ⟨rfl, Or.inl rfl⟩
    | cleanupHandles own =>
      rw [hw] at hr
      cases hr
      exact Or.inr ⟨rfl, Or.inr rfl⟩
    | _ => rw [hw] at hr; cases hr
  | sweeper order =>
    change b.sweeper.releases = some id at hr
    cases hs : b.sweeper with
    | closing c rest => rw [hs] at hr; exact Or.inl ⟨.sweeper, c, .sweeper c rest hs, hclosing c hr⟩
    | _ => rw [hs] at hr; cases hr
  | _ => cases hr

theorem missing_or_lookup (he : step config b act = some t) {job : Job}
    (hin : .missing job ∈ t.state.history) : .missing job ∈ b.state.history ∨
      b.worker = .lookup job ∧ b.state.handles.lookup job.id = none := by
  rcases step_logs he hin with hin | hlogs
  · exact Or.inl hin
  · right
    obtain ⟨-, hlogs⟩ := hlogs.by_worker rfl
    generalize b.worker = pc at hlogs
    cases hlogs with
    | closing c event hc => cases hc
    | missing job hl => exact ⟨rfl, hl⟩

theorem step_cleans (he : step config b act = some t) {id : ℕ} (hc : t.worker.cleans = some id) :
    b.worker.cleans = some id ∨ ∃ sink reason, act = .worker ∧ b.worker = .notify sink id reason ∧
      b.state.dropped.contains sink.channel = true := by
  rcases step_worker he with hsame | ⟨next, ha, hn, -, hnext⟩ | ⟨job, cell, run, -, ⟨run', hrun⟩ | hpanic⟩
  · exact Or.inl (hsame ▸ hc)
  · rcases workerStep_cleans hn (hnext ▸ hc) with hold | ⟨sink, reason, hw, hd⟩
    · exact Or.inl hold
    · exact Or.inr ⟨sink, reason, ha, hw, hd⟩
  · rw [hrun] at hc; cases hc
  · rw [hpanic] at hc; cases hc

theorem step_present (he : step config b act = some t) (h : b.worker.isMissing = false)
    (hlooked : ∀ job, b.worker = .lookup job → b.state.handles.lookup job.id ≠ none) :
    t.worker.isMissing = false := by
  rw [Bool.eq_false_iff]
  intro hm
  rcases step_worker he with hsame | ⟨next, -, hn, -, hnext⟩ | ⟨job, cell, run, -, ⟨run', hrun⟩ | hpanic⟩
  · rw [hsame, h] at hm; cases hm
  · rcases workerStep_missing hn (hnext ▸ hm) with hold | ⟨job, hw, hl⟩
    · rw [h] at hold; cases hold
    · exact hlooked job hw hl
  · rw [hrun] at hm; cases hm
  · rw [hpanic] at hm; cases hm

/-- The job the worker looks up is of an open session. -/
theorem lookup_open (hb : Reachable (system config) b) {job : Job} (hw : b.worker = .lookup job) :
    Open b.state.history job.id job.key := by
  have hjob := (reachable_genuine hb).worker
  rw [hw] at hjob
  refine ⟨(Waiting.registered hjob).handleOf, worker_unconcluded hb job.key ?_⟩
  simp [hw, WorkerPc.footprint, ofKey]

theorem step_handlesKept (hb : Reachable (system config) b) (he : step config b act = some t)
    (hunshared : Unshared t.state.history) (hrespects : Respects config b act) (h : HandlesKept b) :
    HandlesKept t := by
  have hback : ∀ id key, Open t.state.history id key → Open b.state.history id key ∨
      ∃ job, b.registers config act = some job ∧ job.id = id ∧ job.key = key :=
    fun id key ho => step_entitled hb he ho
  have hnone : ∀ id, b.releases act = some id → b.registers config act = none := by
    intro id hrel
    cases hr : b.registers config act with
    | none => rfl
    | some job => rw [releases_of_registers hr] at hrel; cases hrel
  have hlooked : ∀ job, b.worker = .lookup job → b.state.handles.lookup job.id ≠ none := by
    intro job hw
    rw [h.kept _ _ (lookup_open hb hw)]
    simp
  refine ⟨?_, ?_, ?_, ?_, ?_⟩
  · refine step_kept he hback ?_ ?_ h.kept
    · exact fun job hr key ho => hunshared job.id key job.key ho (registers_open hb he hr)
    · intro id hrel key ho
      have hold : Open b.state.history id key := by
        rcases hback id key ho with hold | ⟨job, hr, -⟩
        · exact hold
        · rw [hnone id hrel] at hr; cases hr
      rcases releases_eq_some (reachable_servesQueue hb) hrel with ⟨thread, c, hc, hs, rfl⟩ | ⟨-, hm | hw⟩
      · have hconcluded := hc.concluded hb (by simp [hs])
        have hkey := h.closings thread c hc key hold
        rw [← hkey, hold.2] at hconcluded
        exact absurd hconcluded (Nat.lt_irrefl 0)
      · rw [h.present] at hm; cases hm
      · exact h.cleaning id (by rw [hw]; rfl) key hold
  · intro thread c hc key ho
    rcases step_closes he hc with hc | ⟨d, hd, hadv⟩ | hopens
    · rcases hback _ _ ho with hold | ⟨job, hr, hid, -⟩
      · exact h.closings thread c hc key hold
      · exact absurd hid.symm (hrespects.closings job hr thread c hc)
    · obtain ⟨hkey, -, hentry, -, -⟩ := hadv.kept
      rw [hentry] at ho
      rw [hkey]
      rcases hback _ _ ho with hold | ⟨job, hr, hid, -⟩
      · exact h.closings thread d hd key hold
      · exact absurd hid.symm (hrespects.closings job hr thread d hd)
    · obtain ⟨job, -, -, hsend, -⟩ := hopens.cause hb (history_suffix hb he).subset
      have ht := Reachable.step hb he
      have hown : Open t.state.history c.entry.id c.key :=
        ⟨(reachable_closings ht thread c hc).registered, hc.unconcluded ht hsend⟩
      exact hunshared _ _ _ ho hown
  · intro id hc key ho
    have hcleans := step_cleans he hc
    rcases hback id key ho with hold | ⟨job, hr, rfl, -⟩
    · rcases hcleans with hcleans | ⟨sink, reason, ha, hw, hd⟩
      · exact h.cleaning id hcleans key hold
      · exact hrespects.notified sink id reason ha hw hd key hold
    · rcases hcleans with hcleans | ⟨sink, reason, rfl, -⟩
      · exact hrespects.cleaning job hr hcleans
      · cases hr
  · exact step_present he h.present hlooked
  · intro job hin
    rcases missing_or_lookup he hin with hin | ⟨hw, hl⟩
    · exact h.unmissed job hin
    · exact hlooked job hw hl

theorem initial_handlesKept : HandlesKept ActionBroker.initial := by
  refine ⟨?_, ?_, ?_, rfl, ?_⟩
  · rintro id key ⟨⟨origin, ho, -⟩, -⟩
    cases ho
  · intro thread c hc
    cases hc with
    | call n _ hn => simp [ActionBroker.initial] at hn
    | worker _ hw => cases hw
    | sweeper _ rest hs => cases hs
  · intro id hc
    cases hc
  · simp [ActionBroker.initial, BrokerState.initial]

end Steps
end FerrousRuntime.Broker
