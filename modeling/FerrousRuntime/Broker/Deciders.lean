import FerrousRuntime.Broker.OpenHandles

/-! # A decider that misses a session comes too late

In an undisturbed broker a session that was parked leaves `pending` only by a decision,
and a session that was registered leaves the handles only after its terminal message. So
an answer that a session is not pending, or not known, is never a matter of timing.
-/
namespace FerrousRuntime.Broker
open Tally Lease Transition FerrousRuntime.Runtime

def Decider.call : Decider → Option ℕ
  | .approve n | .deny n | .cancel n => some n
  | .sweeper => none

def CallPc.isDeciding : CallPc → Bool
  | .approve _ | .deny _ | .cancel _ => true
  | _ => false

section Reachable
variable {config : Config} {b t : ActionBroker} {act : Act}

theorem callStep_decided {n : ℕ} {s : BrokerState} {pc : CallPc} {next : BrokerState × CallPc}
    (he : callStep config n s pc = some next) : next.2.isDeciding = false := by
  cases callStep_cases he <;> rfl

def Decided (b : ActionBroker) : Prop :=
  ∀ decider job n, .took decider job ∈ b.state.history → decider.call = some n →
    ∃ pc, b.calls[n]? = some pc ∧ pc.isDeciding = false

theorem step_decided (he : step config b act = some t) (h : Decided b) : Decided t := by
  intro decider job n hin hcall
  rcases step_logs he hin with hin | hlogs
  · obtain ⟨pc, hpc, hdone⟩ := h decider job n hin hcall
    have hlt := (List.getElem?_eq_some_iff.mp hpc).1
    rcases step_calls he with hsame | ⟨request, hadd⟩ | ⟨m, other, next, -, -, hn, -, hset⟩
    · exact ⟨pc, by rw [hsame]; exact hpc, hdone⟩
    · exact ⟨pc, by rw [hadd, List.getElem?_append_left hlt]; exact hpc, hdone⟩
    · by_cases hmn : m = n
      · exact ⟨next.2, by rw [hset, hmn, List.getElem?_set_self hlt], callStep_decided hn⟩
      · exact ⟨pc, by rw [hset, List.getElem?_set_ne hmn]; exact hpc, hdone⟩
  · cases hlogs with
    | call m pc event hpc hlogs =>
      obtain ⟨other, ho, he⟩ := Option.bind_eq_some_iff.mp he
      obtain ⟨next, hn, rfl⟩ := Option.map_eq_some_iff.mp he
      have hlt := (List.getElem?_eq_some_iff.mp hpc).1
      have hm : decider.call = some m := by
        cases hlogs with
        | closing c event hc => cases hc
        | _ => rfl
      cases Option.some.inj (hcall.symm.trans hm)
      exact ⟨next.2, List.getElem?_set_self hlt, callStep_decided hn⟩
    | worker event hlogs =>
      generalize b.worker = pc at hlogs
      cases hlogs with
      | closing c event hc => cases hc
    | sweeper order event hlogs =>
      generalize b.sweeper = pc at hlogs
      cases hlogs with
      | closing c rest event hc => cases hc
      | took id rest parked hl => cases hcall

theorem reachable_decided (h : Reachable (system config) b) : Decided b :=
  Reachable.invariant (fun _ _ _ he hd => step_decided he hd) h
    (by simp [Decided, system, ActionBroker.initial, BrokerState.initial])

theorem took_of_parked (h : Reachable (system config) b) (hu : Undisturbed b) {job : Job}
    (hp : .parked job ∈ b.state.history) (hl : b.state.pending.lookup job.id = none) :
    ∃ decider taken, .took decider taken ∈ b.state.history ∧ taken.key = job.key := by
  have hkept := (reachable_parking h job.key).kept
  have hlost := (reachable_lossless h hu.undropped hu.distinct).2.2 job.key
  have hdiscarded := (reachable_undiscarded h hu).2 job.key
  have hparked : 0 < b.state.history.countP (Event.isParked job.key) :=
    List.countP_pos_iff.mpr ⟨_, hp, by simp [ofKey]⟩
  have hvalues : values (fun parked => ofKey job.key parked.job) b.state.pending = 0 := by
    rw [values, List.countP_eq_zero]
    rintro ⟨id, parked⟩ hmem hkey
    have hlookup := AList.mem_lookup_iff.mpr hmem
    obtain ⟨hname, hwait, -⟩ := (reachable_genuine h).state.pending id parked hlookup
    obtain ⟨origin, ho, hid, horigin⟩ := hwait.registered.handleOf
    have hparked : parked.job.key = job.key := beq_iff_eq.mp hkey
    have hkeys : job.key = origin.key := hparked.symm.trans horigin.symm
    have hsame : job.id = id := (parked_id h hp ho hkeys).trans (hid.trans hname)
    rw [hsame, hlookup] at hl
    cases hl
  have htook : 0 < b.state.history.countP (Event.isTook job.key) := by omega
  obtain ⟨event, hmem, hevent⟩ := List.countP_pos_iff.mp htook
  cases event with
  | took decider taken => exact ⟨decider, taken, hmem, by simpa [ofKey] using hevent⟩
  | _ => simp at hevent

theorem registers_fresh (h : Reachable (system config) b) {job origin : Job}
    (hr : b.registers config act = some job) (ho : .registered origin ∈ b.state.history) :
    origin.key ≠ job.key := by
  intro hkey
  have hregistered := (reachable_ledger h job.key).registered_le
  obtain ⟨n, -, hpc, -⟩ := registers_eq_some hr
  obtain ⟨rest, hsum, -⟩ := exists_frame (CallPc.footprint job.key) hpc
  have hself : one (ofKey job.key job) = 1 := by simp [ofKey]
  simp only [ActionBroker.footprint, hsum, Footprint.add_unregistered, CallPc.footprint, hself]
    at hregistered
  have hpos : 0 < b.state.history.countP (Event.isRegistered job.key) :=
    List.countP_pos_iff.mpr ⟨_, ho, by simp [ofKey, hkey]⟩
  omega

theorem DistinctIds.unshared {history : List Event} (h : DistinctIds history) : Unshared history := by
  rintro id key key' ⟨⟨origin, ho, hid, rfl⟩, -⟩ ⟨⟨origin', ho', hid', rfl⟩, -⟩
  exact h.key_eq ho ho' (hid.trans hid'.symm)

/-- With distinct ids nobody still has to release an id that is registered. -/
theorem registers_unclosed (h : Reachable (system config) b) (he : step config b act = some t)
    (hdistinct : DistinctIds t.state.history) {job : Job} (hr : b.registers config act = some job)
    {id : ℕ} {key : ℕ} (hid : HandleOf b.state.history id key) : id ≠ job.id := by
  rintro rfl
  obtain ⟨origin, ho, hname, hkey⟩ := hid
  have hh := step_registers he hr
  have hold : .registered origin ∈ t.state.history := by rw [hh]; exact List.mem_cons_of_mem _ ho
  have hnew : .registered job ∈ t.state.history := by rw [hh]; exact List.mem_cons_self
  exact registers_fresh h hr ho (hdistinct.key_eq hold hnew hname)

theorem undisturbed_handlesKept (h : Reachable (system config) b) (hu : Undisturbed b) : HandlesKept b := by
  refine Runs.invariant_under (H := Undisturbed) (P := HandlesKept) ?_ ?_ h (.refl _) initial_handlesKept hu
  · exact fun b act t hb he ht => (step_undisturbed hb he ht).2
  · intro b act t hb _ he ht hp
    have hback := (step_undisturbed hb he ht).2
    have hclean := (reachable_undiscarded hb hback).1
    refine step_handlesKept hb he ht.distinct.unshared ⟨?_, ?_, ?_⟩ hp
    · exact fun job hr thread c hc =>
        registers_unclosed hb he ht.distinct hr (reachable_closings hb thread c hc).registered
    · intro job _ hcleans
      cases hw : b.worker with
      | cleanupPending own => rw [hw] at hclean; cases hclean
      | cleanupHandles own => rw [hw] at hclean; cases hclean
      | _ => rw [hw] at hcleans; cases hcleans
    · intro sink id reason _ _ hdropped
      simp [hback.alive] at hdropped

/-- In every run of an undropped broker with distinct ids whose receivers are kept alive:
once a caller was asked to decide, an approval or a denial misses its session only if a
decision of another call or the sweeper took it; and a cancellation finds a registered
session unknown only after its terminal message was sent. -/
theorem deciders_miss_only_finished (h : Reachable (system config) b) (hu : Undisturbed b)
    {n id : ℕ} (he : step config b (.proceed n) = some t) {shown : Job}
    (hshown : .registered shown ∈ b.state.history) (hid : shown.id = id) :
    ((b.calls[n]? = some (.approve id) ∨ b.calls[n]? = some (.deny id)) →
      t.answer n = some (.error (.notPendingApproval id)) →
      (∃ reason, .received shown.key (approvalMessage shown.sink reason) ∈ b.state.history) →
      ∃ decider job, .took decider job ∈ b.state.history ∧ job.key = shown.key ∧ decider.call ≠ some n) ∧
    (b.calls[n]? = some (.lookup id) → t.answer n = some (.error (.unknownSession id)) →
      0 < b.state.history.countP (Event.isConcluded shown.key)) := by
  subst hid
  refine ⟨?_, ?_⟩
  · rintro hcall hanswer ⟨reason, hreceived⟩
    have hl : b.state.pending.lookup shown.id = none := by
      by_contra hne
      obtain ⟨parked, hparked⟩ := Option.ne_none_iff_exists'.mp hne
      rcases hcall with hn | hn
      all_goals
        have hlt := (List.getElem?_eq_some_iff.mp hn).1
        simp only [step, hn, Option.bind_some, callStep, hparked, Option.map_some, Option.some.injEq] at he
        subst he
        simp [ActionBroker.answer, hlt] at hanswer
    obtain ⟨own, hown, hkey⟩ := parked_of_received (reachable_genuine h).state.warranted hreceived
    have hsame := parked_id h hown hshown hkey
    obtain ⟨decider, taken, htook, htaken⟩ := took_of_parked h hu hown (by rw [hsame]; exact hl)
    refine ⟨decider, taken, htook, htaken.trans hkey, fun hself => ?_⟩
    obtain ⟨pc, hpc, hdecided⟩ := reachable_decided h decider taken n htook hself
    rcases hcall with hn | hn <;> cases hn.symm.trans hpc <;> cases hdecided
  · intro hn hanswer
    by_contra hopen
    have hl := (undisturbed_handlesKept h hu).kept shown.id shown.key ⟨⟨shown, hshown, rfl, rfl⟩, by omega⟩
    have hlt := (List.getElem?_eq_some_iff.mp hn).1
    simp only [step, hn, Option.bind_some, callStep, hl, Option.map_some, Option.some.injEq] at he
    subst he
    simp [ActionBroker.answer, hlt] at hanswer

end Reachable

/-- A session that its caller was asked about is denied by another call before its approval. -/
def lateApproval : List Act := submission 0 1 false .readWrite ++ parking ++
  ([.worker, .receive 0, .call (.approve 1), .call (.deny 1), .proceed 2] : List Act)

theorem late_approval_overtaken : ∃ (b : ActionBroker) (decider : Decider) (job : Job),
    .took decider job ∈ b.state.history ∧
    job.key = (riskySession 0).key ∧ decider.call ≠ some 1 := by
  obtain ⟨b, hb, ⟨hdrop, hdistinct, halive⟩, hcall, hanswer, hregistered, hreceived⟩ :=
    (system sampleConfig).reachable_of_replay
      (fun b => (b.drop = .undropped ∧ DistinctIds b.state.history ∧ b.state.dropped = []) ∧
        (b.calls[1]?).any (fun pc => match pc with | .approve id => id == 1 | _ => false) = true ∧
        (step sampleConfig b (.proceed 1)).any
          (fun t => t.answer 1 == some (.error (.notPendingApproval 1))) = true ∧
        .registered (riskySession 0) ∈ b.state.history ∧
        .received 0 (approvalMessage (riskySession 0).sink .filesystemWrite) ∈ b.state.history)
      lateApproval (by decide)
  obtain ⟨pc, hpc, hid⟩ := (Option.any_eq_true _ _).mp hcall
  obtain ⟨t, ht, hmiss⟩ := (Option.any_eq_true _ _).mp hanswer
  cases pc with
  | approve id =>
    cases (beq_iff_eq.mp hid : id = 1)
    exact ⟨b, (deciders_miss_only_finished hb ⟨hdrop, hdistinct, halive⟩ ht hregistered rfl).1
      (Or.inl hpc) (beq_iff_eq.mp hmiss) ⟨_, hreceived⟩⟩
  | _ => cases hid

end FerrousRuntime.Broker
