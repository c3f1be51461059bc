import FerrousRuntime.Broker.OpenHandles
import FerrousRuntime.Broker.Cancellation

/-! # Waiting jobs and their handles

A job that is queued, parked or held by an approval waits for the worker, which will not
run it without its handle. Every closing releases the handle of a session that waits no
more; the clean-up after a failed notification releases one by id alone, and the session
it was to notify of may be waiting again.
-/
namespace FerrousRuntime.Broker
open Tally Lease Transition FerrousRuntime.Runtime

def Event.isSettled (k : ℕ) (event : Event) : Bool :=
  event.isConcluded k || event.isExecuted k || event.isDecided k || event.isLost k || event.isDiscarded k

/-- The clean-up after a failed notification releases the id of a job that is queued or
held by an approval. -/
def strips (b : ActionBroker) (act : Act) : Bool :=
  act.isWorker && match b.worker with
    | .cleanupHandles id => b.state.queue.any (fun job => job.id == id) ||
      b.calls.any (fun pc => match pc with
        | .checkCancelled own _ | .requeue own _ => own == id
        | _ => false)
    | _ => false

section Reachable
variable {config : Config} {b t : ActionBroker} {act : Act}

theorem countP_isSettled {k : ℕ} {history : List Event} (hc : history.countP (Event.isConcluded k) = 0)
    (he : history.countP (Event.isExecuted k) = 0) (hd : history.countP (Event.isDecided k) = 0)
    (hl : history.countP (Event.isLost k) = 0) (hg : history.countP (Event.isDiscarded k) = 0) :
    history.countP (Event.isSettled k) = 0 := by
  rw [List.countP_eq_zero] at *
  intro event hin
  rw [Event.isSettled, Bool.or_eq_true, Bool.or_eq_true, Bool.or_eq_true, Bool.or_eq_true]
  rintro ((((hevent | hevent) | hevent) | hevent) | hevent)
  · exact hc event hin hevent
  · exact he event hin hevent
  · exact hd event hin hevent
  · exact hl event hin hevent
  · exact hg event hin hevent

theorem countP_le_isSettled {k : ℕ} {p : Event → Bool} {history : List Event}
    (hp : ∀ event, p event = true → event.isSettled k = true)
    (hs : history.countP (Event.isSettled k) = 0) : history.countP p = 0 := by
  have hle := List.countP_mono_left (l := history) (fun event _ hevent => hp event hevent)
  omega

theorem unsettled_of_waiting (h : Reachable (system config) b) {k : ℕ}
    (hk : 0 < b.state.queue.countP (ofKey k) + values (fun parked => ofKey k parked.job) b.state.pending) :
    b.state.history.countP (Event.isSettled k) = 0 := by
  have hledger := reachable_ledger h k
  have hplaces := hledger.places_le
  have hborn := hledger.born_le
  have hstarted := hledger.started
  exact countP_isSettled (by omega) (by omega) (by omega) (by omega) (by omega)

theorem unsettled_of_lookup (h : Reachable (system config) b) {job : Job} (hw : b.worker = .lookup job) :
    b.state.history.countP (Event.isSettled job.key) = 0 := by
  have hledger := reachable_ledger h job.key
  have hself : one (ofKey job.key job) = 1 := by simp [ofKey]
  have hplaces := hledger.places_le
  have hborn := hledger.born_le
  have hstarted := hledger.started
  simp only [ActionBroker.footprint, hw, WorkerPc.footprint, Footprint.starting, Footprint.add_holds,
    Footprint.add_startable, Footprint.add_unborn, hself] at hplaces hborn hstarted
  exact countP_isSettled (by omega) (by omega) (by omega) (by omega) (by omega)

theorem reachable_unstranded (h : Reachable (system config) b) :
    ∀ job, .stranded job ∉ b.state.history := by
  refine Runs.invariant_of_reachable (P := fun b => ∀ job, .stranded job ∉ b.state.history) ?_ h (.refl _)
    (by simp [system, ActionBroker.initial, BrokerState.initial])
  intro b act t hb _ he hp job hin
  rcases step_logs he hin with hin | hlogs
  · exact hp job hin
  · obtain ⟨n, pc, -, hpc, hcall⟩ := hlogs.by_call rfl
    cases hcall with
    | closing c event hc => cases hc
    | stranded id job hserved =>
      have hstaff := reachable_servesQueue hb
      have hserves := hstaff.serves (hstaff.undropped (List.mem_of_getElem? hpc) rfl)
      rw [hserves] at hserved
      cases hserved

theorem reachable_undisplaced (h : Reachable (system config) b) (hd : DistinctIds b.state.history) :
    ∀ job, .displaced job ∉ b.state.history := by
  refine Runs.invariant_under (H := fun b => DistinctIds b.state.history)
    (P := fun b => ∀ job, .displaced job ∉ b.state.history) ?_ ?_ h (.refl _)
    (by simp [system, ActionBroker.initial, BrokerState.initial]) hd
  · exact fun b act t hb he ht => ht.suffix (history_suffix hb he)
  · intro b act t hb _ he ht hp job hin
    have hback := ht.suffix (history_suffix hb he)
    rcases step_logs he hin with hin | hlogs
    · exact hp job hin
    · obtain ⟨-, hlogs⟩ := hlogs.by_worker rfl
      generalize hw : b.worker = pc at hlogs
      cases hlogs with
      | closing c event hc => cases hc
      | displaced job deadline reason old hl =>
        rw [park_displaces_none hb hback hw] at hl
        cases hl

theorem reachable_unlost (h : Reachable (system config) b) (hd : DistinctIds b.state.history) (k : ℕ) :
    b.state.history.countP (Event.isLost k) = 0 := by
  rw [List.countP_eq_zero]
  intro event hin hlost
  cases event with
  | displaced job => exact reachable_undisplaced h hd job hin
  | stranded job => exact reachable_unstranded h job hin
  | _ => simp at hlost

theorem reachable_deciding (h : Reachable (system config) b) : ∀ thread c, Closes b thread c →
    thread ≠ .worker → 0 < b.state.history.countP (Event.isDecided c.key) := by
  refine Runs.invariant_of_reachable (P := fun b => ∀ thread c, Closes b thread c →
    thread ≠ .worker → 0 < b.state.history.countP (Event.isDecided c.key)) ?_ h (.refl _) ?_
  · intro b act t hb _ he hp thread c hc hthread
    have hle : ∀ key, b.state.history.countP (Event.isDecided key) ≤
        t.state.history.countP (Event.isDecided key) :=
      fun key => (history_suffix hb he).sublist.countP_le
    have hevent : ∀ {event}, event ∈ t.state.history → event.isDecided c.key = true →
        0 < t.state.history.countP (Event.isDecided c.key) :=
      fun hin hd => List.countP_pos_iff.mpr ⟨_, hin, hd⟩
    rcases step_closes he hc with hc | ⟨d, hd, hadv⟩ | ho
    · exact (hp thread c hc hthread).trans_le (hle c.key)
    · rw [hadv.kept.1]
      exact (hp thread d hd hthread).trans_le (hle d.key)
    · cases ho with
      | denied n id parked hl ht => exact hevent ht (by simp [ofKey, Job.close])
      | cancelled n id parked hl ht => exact hevent ht (by simp [ofKey, Job.close])
      | sawCancelled n id job hpc hs => exact hevent hs (by simp [ofKey, Job.close])
      | timedOut id parked hl ht => exact hevent ht (by simp [ofKey, Job.close])
      | _ => exact absurd rfl hthread
  · intro thread c hc
    cases hc with
    | call n _ hn => simp [system, ActionBroker.initial] at hn
    | worker _ hw => cases hw
    | sweeper _ rest hs => cases hs

theorem Closing.holds_eq_zero {c : Closing} {k : ℕ} (h : c.key ≠ k) : (c.footprint k).holds = 0 := by
  have hne : (c.key == k) = false := beq_eq_false_iff_ne.mpr h
  unfold Closing.footprint
  split <;> simp [hne]

theorem exists_call_holds {calls : List CallPc} {k : ℕ}
    (hk : 0 < ((calls.map (CallPc.footprint k)).sum).holds) :
    ∃ (n : ℕ) (pc : CallPc), calls[n]? = some pc ∧ 0 < (pc.footprint k).holds := by
  induction calls with
  | nil => exact absurd hk (Nat.lt_irrefl 0)
  | cons pc calls ih =>
    rw [List.map_cons, List.sum_cons, Footprint.add_holds] at hk
    by_cases hpc : 0 < (pc.footprint k).holds
    · exact ⟨0, pc, rfl, hpc⟩
    · obtain ⟨n, other, hn, ho⟩ := ih (by omega)
      exact ⟨n + 1, other, by simpa using hn, ho⟩

/-- Every session that waits has its handle, and the clean-up is of a session that was parked. -/
structure WaitersKept (b : ActionBroker) : Prop where
  kept : Kept b.state.handles (Entitled Event.isSettled b.state.history)
  present : b.worker.isMissing = false
  unmissed : ∀ job, .missing job ∉ b.state.history
  cleaning : ∀ id, b.worker.cleans = some id → ∃ job, .parked job ∈ b.state.history ∧ job.id = id
  cleared : ∀ id, b.worker = .cleanupHandles id → b.state.pending.lookup id = none

theorem lookup_kept (h : Reachable (system config) b) (hc : WaitersKept b) {job : Job}
    (hw : b.worker = .lookup job) : b.state.handles.lookup job.id = some job.key := by
  have hjob := (reachable_genuine h).worker
  rw [hw] at hjob
  exact hc.kept _ _ ⟨(Waiting.registered hjob).handleOf, unsettled_of_lookup h hw⟩

theorem Registered.id_eq (h : Reachable (system config) b) {job : Job} {id key : ℕ}
    (hr : Registered b.state.history job) (hk : HandleOf b.state.history id key) (hkey : job.key = key) :
    job.id = id := by
  obtain ⟨origin, ho, hid, horigin⟩ := hr.handleOf
  obtain ⟨other, hother, hotherid, hotherkey⟩ := hk
  have hsame := registered_unique h ho hother (horigin.trans (hkey.trans hotherkey.symm))
  rw [← hid, hsame, hotherid]

/-- At the last step of the clean-up, a session that waits is queued or held by an approval. -/
theorem strips_of_entitled (h : Reachable (system config) b) (hd : DistinctIds b.state.history)
    (hc : WaitersKept b) {id key : ℕ} (hw : b.worker = .cleanupHandles id)
    (he : Entitled Event.isSettled b.state.history id key) : strips b .worker = true := by
  obtain ⟨hkey, hsettled⟩ := he
  have hevent : ∀ {p : Event → Bool}, (∀ event, p event = true → event.isSettled key = true) →
      b.state.history.countP p = 0 := fun hp => countP_le_isSettled hp hsettled
  have hconcluded := hevent (p := Event.isConcluded key)
    (fun event hp => by simp only [Event.isSettled, hp, Bool.true_or])
  have hdecided := hevent (p := Event.isDecided key)
    (fun event hp => by simp only [Event.isSettled, hp, Bool.or_true, Bool.true_or])
  have hlost := hevent (p := Event.isLost key)
    (fun event hp => by simp only [Event.isSettled, hp, Bool.or_true, Bool.true_or])
  have hdiscarded := hevent (p := Event.isDiscarded key)
    (fun event hp => by simp only [Event.isSettled, hp, Bool.or_true])
  have hledger := reachable_ledger h key
  -- the worker parked this session, so it was accepted, and it is somewhere
  have hparked : 0 < b.state.history.countP (Event.isParked key) := by
    obtain ⟨job, hp, rfl⟩ := hc.cleaning id (by rw [hw]; rfl)
    obtain ⟨past, hpast, hr⟩ := (reachable_genuine h).state.warranted.of_mem hp
    have hregistered := Registered.mono hr ((List.suffix_cons _ _).trans hpast).subset
    obtain ⟨origin, ho, hid, horigin⟩ := hregistered.handleOf
    obtain ⟨other, hother, hotherid, hotherkey⟩ := hkey
    have hsame := hd.key_eq ho hother (hid.trans hotherid.symm)
    refine List.countP_pos_iff.mpr ⟨_, hp, ?_⟩
    simp [ofKey, ← horigin, hsame, hotherkey]
  have howned := hledger.owned
  have hparking := hledger.parking
  have hvalues : values (fun parked => ofKey key parked.job) b.state.pending = 0 := by
    rw [values, List.countP_eq_zero]
    rintro ⟨own, parked⟩ hmem hown
    have hlookup := AList.mem_lookup_iff.mpr hmem
    obtain ⟨hname, hwait, -⟩ := (reachable_genuine h).state.pending own parked hlookup
    have hid := Registered.id_eq h hwait.registered hkey (beq_iff_eq.mp hown)
    rw [← hname, hid, hc.cleared id hw] at hlookup
    cases hlookup
  simp only [strips, Act.isWorker, hw, Bool.true_and, Bool.or_eq_true]
  by_cases hqueue : 0 < b.state.queue.countP (ofKey key)
  · left
    obtain ⟨job, hj, hown⟩ := List.countP_pos_iff.mp hqueue
    have hwait := (reachable_genuine h).state.queue job hj
    exact List.any_eq_true.mpr ⟨job, hj, by
      simpa using Registered.id_eq h hwait.registered hkey (beq_iff_eq.mp hown)⟩
  · right
    have hholds : 0 < (b.footprint key).holds := by omega
    have hworker : (b.worker.footprint key).holds = 0 := by rw [hw]; rfl
    have hclosing : ∀ thread c, Closes b thread c → thread ≠ .worker → c.key ≠ key := by
      rintro thread c hcloses hthread rfl
      have hpos := reachable_deciding h thread c hcloses hthread
      omega
    simp only [ActionBroker.footprint, Footprint.add_holds, hworker] at hholds
    have hsweeper : (b.sweeper.footprint key).holds = 0 := by
      cases hs : b.sweeper with
      | closing c rest =>
        exact Closing.holds_eq_zero (hclosing .sweeper c (.sweeper c rest hs) (by simp))
      | _ => rfl
    have hcalls : 0 < ((b.calls.map (CallPc.footprint key)).sum).holds := by omega
    obtain ⟨n, pc, hn, hpc⟩ := exists_call_holds hcalls
    have hmem := List.mem_of_getElem? hn
    have hg := (reachable_genuine h).calls pc hmem
    have hnamed := (reachable_servesQueue h).named pc hmem
    refine List.any_eq_true.mpr ⟨pc, hmem, ?_⟩
    cases pc with
    | checkCancelled own job =>
      have hown : job.key = key := by simpa [CallPc.footprint, ofKey] using hpc
      have hname : job.id = own := hnamed
      simpa [← hname] using Registered.id_eq h hg.1.registered hkey hown
    | requeue own job =>
      have hown : job.key = key := by simpa [CallPc.footprint, ofKey] using hpc
      have hname : job.id = own := hnamed
      simpa [← hname] using Registered.id_eq h (Waiting.registered hg) hkey hown
    | closing c =>
      have hzero := Closing.holds_eq_zero (hclosing (.call n) c (.call n c hn) (by simp))
      rw [CallPc.footprint, hzero] at hpc
      exact absurd hpc (Nat.lt_irrefl 0)
    | _ => exact absurd hpc (Nat.lt_irrefl 0)

theorem workerStep_cleared {s : BrokerState} {pc : WorkerPc} {next : BrokerState × WorkerPc} {id : ℕ}
    (he : workerStep config s pc = some next) (hw : next.2 = .cleanupHandles id) :
    next.1.pending.lookup id = none := by
  cases workerStep_cases he with
  | gone own hl =>
    cases hw
    exact hl
  | discarded own parked =>
    cases hw
    exact AList.lookup_erase _ _
  | _ => cases hw

theorem step_waitersKept (hb : Reachable (system config) b) (he : step config b act = some t)
    (hd : DistinctIds t.state.history) (hguard : strips b act = false) (h : WaitersKept b) : WaitersKept t := by
  have hsuffix := history_suffix hb he
  have hback := hd.suffix hsuffix
  have hsub := hsuffix.subset
  have hlooked : ∀ job, b.worker = .lookup job → b.state.handles.lookup job.id ≠ none := by
    intro job hw
    simp [lookup_kept hb h hw]
  refine ⟨?_, ?_, ?_, ?_, ?_⟩
  · refine step_kept he (fun id key ho => step_entitled hb he ho) ?_ ?_ h.kept
    · intro job hr key ho
      exact ho.key_eq hd (by rw [step_registers he hr]; exact List.mem_cons_self)
    · intro id hrel key ho
      have hold : Entitled Event.isSettled b.state.history id key := by
        rcases step_entitled hb he ho with hold | ⟨job, hr, -⟩
        · exact hold
        · rw [releases_of_registers hr] at hrel; cases hrel
      rcases releases_eq_some (reachable_servesQueue hb) hrel with ⟨thread, c, hc, hs, rfl⟩ | ⟨rfl, hm | hw⟩
      · obtain ⟨origin, horigin, hid, hkey⟩ := (reachable_closings hb thread c hc).registered
        obtain ⟨⟨other, hother, hotherid, rfl⟩, hsettled⟩ := hold
        have hsame := hback.key_eq horigin hother (hid.trans hotherid.symm)
        have hconcluded := hc.concluded hb (by simp [hs])
        have hzero := countP_le_isSettled (p := Event.isConcluded other.key)
          (fun event hp => by simp only [Event.isSettled, hp, Bool.true_or]) hsettled
        rw [← hkey, hsame] at hconcluded
        omega
      · rw [h.present] at hm; cases hm
      · rw [strips_of_entitled hb hback h hw hold] at hguard; cases hguard
  · exact step_present he h.present hlooked
  · intro job hin
    rcases missing_or_lookup he hin with hin | ⟨hw, hl⟩
    · exact h.unmissed job hin
    · exact hlooked job hw hl
  · intro id hc
    rcases step_cleans he hc with hold | ⟨sink, reason, -, hw, -⟩
    · obtain ⟨job, hp, hid⟩ := h.cleaning id hold
      exact ⟨job, hsub hp, hid⟩
    · have hg := (reachable_genuine hb).worker
      rw [hw] at hg
      obtain ⟨shown, hp, -, hid⟩ := hg
      exact ⟨shown, hsub hp, hid⟩
  · intro id hw
    rcases step_worker he with hsame | ⟨next, -, hn, hstate, hnext⟩ | ⟨job, cell, run, -, ⟨run', hrun⟩ | hpanic⟩
    · have hclear := h.cleared id (hsame ▸ hw)
      -- while the worker cleans up, jobs only leave `pending`
      cases hl : t.state.pending.lookup id with
      | none => rfl
      | some parked =>
        rcases pending_or_parked he hl with hold | ⟨-, -, reason, -, hnotify⟩
        · cases hold.symm.trans hclear
        · cases hw.symm.trans hnotify
    · rw [hstate]
      exact workerStep_cleared hn (hnext ▸ hw)
    · rw [hrun] at hw; cases hw
    · rw [hpanic] at hw; cases hw

theorem runs_waitersKept (h : Runs (system config) (fun b act => strips b act = false) .initial b)
    (hd : DistinctIds b.state.history) : WaitersKept b := by
  refine Runs.invariant_under (H := fun b => DistinctIds b.state.history) (P := WaitersKept) ?_ ?_ h (.refl _) ?_ hd
  · exact fun b act t hb he ht => ht.suffix (history_suffix hb he)
  · exact fun b act t hb hguard he ht hp => step_waitersKept hb he ht hguard hp
  · refine ⟨?_, rfl, ?_, ?_, ?_⟩
    · rintro id key ⟨⟨origin, ho, -⟩, -⟩
      cases ho
    · simp [ActionBroker.initial, BrokerState.initial]
    · intro id hc
      cases hc
    · intro id hw
      cases hw

theorem Logs.panicked {job : Job} (h : Logs config b act (.panicked job))
    (he : step config b act = some t) : t.worker = .closing job.panic ∧
      t.state.history = .panicked job :: b.state.history ∧
        ((∃ reason, b.worker = .deadline job reason) ∨ ∃ cell run, b.worker = .running job cell run) := by
  cases h with
  | call n pc event _ h =>
    cases h with
    | closing c event hc => cases hc
  | worker event h =>
    obtain ⟨next, hn, rfl⟩ := Option.map_eq_some_iff.mp he
    generalize b.worker = pc at h hn
    cases h with
    | closing c event hc => cases hc
    | panicked job reason hlate =>
      simp only [workerStep, gt_iff_lt, hlate, if_true, Option.some.injEq] at hn
      cases hn
      exact ⟨rfl, rfl, Or.inl ⟨reason, rfl⟩⟩
  | unwound job cell run hw =>
    obtain ⟨next, hn, rfl⟩ := Option.map_eq_some_iff.mp he
    obtain ⟨other, cell, run, hother, -, rfl⟩ := unwindStep_cases hn
    cases hw.symm.trans hother
    exact ⟨rfl, rfl, Or.inr ⟨cell, run, hw⟩⟩
  | sweeper order event h =>
    generalize b.sweeper = pc at h
    cases h with
    | closing c rest event hc => cases hc

theorem reachable_panicked (h : Reachable (system config) b) : ∀ job, .panicked job ∈ b.state.history →
    0 < b.state.history.countP (Event.isConcluded job.key) ∨
      ∃ c, b.worker = .closing c ∧ c.stage = .send ∧ c.key = job.key := by
  refine Runs.invariant_of_reachable (P := fun b => ∀ job, .panicked job ∈ b.state.history →
    0 < b.state.history.countP (Event.isConcluded job.key) ∨
      ∃ c, b.worker = .closing c ∧ c.stage = .send ∧ c.key = job.key) ?_ h (.refl _)
    (by simp [system, ActionBroker.initial, BrokerState.initial])
  intro b act t hb _ he hp job hin
  have hle := (history_suffix hb he).sublist.countP_le (p := Event.isConcluded job.key)
  rcases step_logs he hin with hin | hlogs
  · rcases hp job hin with hconcluded | ⟨c, hw, hs, hkey⟩
    · exact Or.inl (hconcluded.trans_le hle)
    · rcases step_worker he with hsame | ⟨next, -, hn, hstate, -⟩ | ⟨other, cell, run, hrun, -⟩
      · exact Or.inr ⟨c, hsame.trans hw, hs, hkey⟩
      · left
        rw [hw] at hn
        simp only [workerStep, Closing.step, hs, Option.some.injEq] at hn
        rw [hstate, ← hn]
        exact List.countP_pos_iff.mpr ⟨_, List.mem_cons_self, by simp [hkey, c.terminal]⟩
      · cases hw.symm.trans hrun
  · exact Or.inr ⟨job.panic, (hlogs.panicked he).1, rfl, rfl⟩

theorem panicked_unparked (h : Reachable (system config) b) : ∀ job, .panicked job ∈ b.state.history →
    Ran b.state.history job ∨ b.state.history.countP (Event.isParked job.key) = 0 := by
  refine Runs.invariant_of_reachable (P := fun b => ∀ job, .panicked job ∈ b.state.history →
    Ran b.state.history job ∨ b.state.history.countP (Event.isParked job.key) = 0) ?_ h (.refl _)
    (by simp [system, ActionBroker.initial, BrokerState.initial])
  intro b act t hb _ he hp job hin
  have hsub := (history_suffix hb he).subset
  rcases step_logs he hin with hin | hlogs
  · rcases hp job hin with hran | hunparked
    · exact Or.inl (hran.mono hsub)
    · right
      cases step_pending he with
      | none logged hh hidle _ =>
        rw [hh, countP_unmoved (fun event hm => by cases event <;> first | rfl | cases hm) hidle]
        exact hunparked
      | took decider id parked _ hh _ => rw [hh]; simpa [countP_cons_one] using hunparked
      | discarded id parked _ hh _ => rw [hh]; simpa [countP_cons_one] using hunparked
      | parked other deadline reason hw hh _ =>
        have hne : ofKey job.key other = false := by
          by_contra hself
          have hkey : other.key = job.key := beq_iff_eq.mp (by simpa [ofKey] using hself)
          have hopen := worker_unconcluded hb job.key (by simp [hw, WorkerPc.footprint, ofKey, hkey])
          rcases reachable_panicked hb job hin with hconcluded | ⟨c, hc, -⟩
          · omega
          · cases hw.symm.trans hc
        rw [hh]
        cases b.state.pending.lookup other.id <;> simpa [displacement, countP_cons_one, hne] using hunparked
  · obtain ⟨-, hh, ⟨reason, hw⟩ | ⟨cell, run, hw⟩⟩ := hlogs.panicked he
    · right
      -- whoever is at its first deadline has not been parked
      have hledger := reachable_ledger hb job.key
      have hborn := hledger.born_le
      have hparking := hledger.parking
      have hself : one (ofKey job.key job) = 1 := by simp [ofKey]
      simp only [ActionBroker.footprint, hw, WorkerPc.footprint, Footprint.starting,
        Footprint.add_unparked, hself] at hparking
      rw [hh]
      simp only [countP_cons_one, Event.isParked, one_false]
      omega
    · left
      have htraced := reachable_traced hb
      rw [hw] at htraced
      exact Ran.mono htraced hsub

/-- A session that an approval took was executed, was reported as cancelled, or is on the
queue or in a thread's hands. -/
theorem approved_executed_or_cancelled (h : Reachable (system config) b)
    (hd : DistinctIds b.state.history) (hmissing : ∀ job, .missing job ∉ b.state.history) {call : ℕ}
    {job : Job} (ht : .took (.approve call) job ∈ b.state.history) :
    0 < b.state.history.countP (Event.isExecuted job.key) ∨
      (∃ message, .sent job.key message ∈ b.state.history ∧ message.isCancelled = true) ∨
        0 < b.state.queue.countP (ofKey job.key) + (b.footprint job.key).holds := by
  have hledger := reachable_ledger h job.key
  have howned := hledger.owned
  have hparking := hledger.parking
  have hgone := (reachable_parking h job.key).gone
  have honce := parked_once h job.key
  have hlost := reachable_unlost h hd job.key
  have htook : 0 < b.state.history.countP (Event.isTook job.key) :=
    List.countP_pos_iff.mpr ⟨_, ht, by simp [ofKey]⟩
  by_cases hheld : 0 < b.state.queue.countP (ofKey job.key) + (b.footprint job.key).holds
  · exact Or.inr (Or.inr hheld)
  · have hconcluded : 0 < b.state.history.countP (Event.isConcluded job.key) := by omega
    obtain ⟨event, hin, hevent⟩ := List.countP_pos_iff.mp hconcluded
    cases event with
    | sent key message =>
      obtain ⟨hkey, hm⟩ : key = job.key ∧ message.isTerminal = true := by simpa using hevent
      subst hkey
      obtain ⟨closed, -, hclosed, ⟨entry, hcause⟩ | hmiss⟩ := sent_cause h _ message hin hm
      · have htwice : ∀ decider, .took decider closed ∈ b.state.history → decider = .approve call := by
          intro decider hother
          have heq := eq_of_countP_le_one (took_once h job.key) hother ht (by simp [ofKey, hclosed])
            (by simp [ofKey])
          exact (Event.took.inj heq).1
        cases hcause with
        | denied n hother => cases htwice _ hother
        | timedOut hother => cases htwice _ hother
        | cancelled n hother => cases htwice _ hother
        | sawCancelled => exact Or.inr (Or.inl ⟨_, hin, by cases closed.sink <;> rfl⟩)
        | executed conclusion hran =>
          obtain ⟨ran, hran, -, hsink, -⟩ := hran
          have hkey : ran.key = job.key := (congrArg JobSink.channel hsink).trans hclosed
          exact Or.inl (List.countP_pos_iff.mpr ⟨_, hran, by simp [ofKey, hkey]⟩)
        | panicked hpanic =>
          rcases panicked_unparked h closed hpanic with ⟨ran, hran, -, hsink, -⟩ | hunparked
          · have hkey : ran.key = job.key := (congrArg JobSink.channel hsink).trans hclosed
            exact Or.inl (List.countP_pos_iff.mpr ⟨_, hran, by simp [ofKey, hkey]⟩)
          · rw [hclosed] at hunparked
            omega
      · exact absurd hmiss (hmissing closed)
    | _ => simp at hevent

/-- In every run with distinct ids in which no clean-up strips a waiting session, each
queued or parked job has its handle, the worker misses none, and a session that an
approval released is executed or reported as cancelled. -/
theorem waiting_jobs_keep_handles
    (h : Runs (system config) (fun b act => strips b act = false) .initial b)
    (hd : DistinctIds b.state.history) :
    (∀ job ∈ b.state.queue, b.state.handles.lookup job.id = some job.key) ∧
    (∀ id parked, b.state.pending.lookup id = some parked →
      b.state.handles.lookup id = some parked.job.key) ∧
    (∀ job, .missing job ∉ b.state.history) ∧
    ∀ call job, .took (.approve call) job ∈ b.state.history →
      0 < b.state.history.countP (Event.isExecuted job.key) ∨
        (∃ message, .sent job.key message ∈ b.state.history ∧ message.isCancelled = true) ∨
          0 < b.state.queue.countP (ofKey job.key) + (b.footprint job.key).holds := by
  have hc := runs_waitersKept h hd
  have hg := (reachable_genuine h.free).state
  refine ⟨?_, ?_, hc.unmissed, fun call job ht => approved_executed_or_cancelled h.free hd hc.unmissed ht⟩
  · intro job hj
    have hpos : 0 < b.state.queue.countP (ofKey job.key) :=
      List.countP_pos_iff.mpr ⟨job, hj, by simp [ofKey]⟩
    exact hc.kept _ _ ⟨(hg.queue job hj).registered.handleOf, unsettled_of_waiting h.free (by omega)⟩
  · intro id parked hl
    obtain ⟨rfl, hwait, -⟩ := hg.pending id parked hl
    have hpos := values_pos_of_lookup (p := fun other => ofKey parked.job.key other.job) hl (by simp [ofKey])
    exact hc.kept _ _ ⟨hwait.registered.handleOf, unsettled_of_waiting h.free (by omega)⟩

end Reachable

/-- An approval takes the session between the failed notification and its clean-up, and the
clean-up releases the handle of the session that is queued again. -/
theorem stripped_session_misses_handle : ∃ b, Reachable (system sampleConfig) b ∧
    DistinctIds b.state.history ∧ b.state.queue.map Job.key = [0] ∧ b.state.handles.lookup 1 = none :=
  (system sampleConfig).reachable_of_replay
    (fun b => DistinctIds b.state.history ∧ b.state.queue.map Job.key = [0] ∧
      b.state.handles.lookup 1 = none)
    (vanishedHandle.take 15) (by decide)

theorem approved_session_keeps_handle : ∃ b : ActionBroker, ∃ job ∈ b.state.queue,
    job.admission = .approved ∧ b.state.handles.lookup job.id = some job.key := by
  obtain ⟨b, hruns, hdistinct, hqueue⟩ := (system sampleConfig).exists_of_replay
    (fun b act => strips b act = false)
    (fun b => DistinctIds b.state.history ∧
      b.state.queue.any (fun job => decide (job.admission = .approved)) = true)
    .initial (approvedSession.take 13) (by decide)
  obtain ⟨job, hj, ha⟩ := List.any_eq_true.mp hqueue
  exact ⟨b, job, hj, of_decide_eq_true ha, (waiting_jobs_keep_handles hruns hdistinct).1 job hj⟩

end FerrousRuntime.Broker
