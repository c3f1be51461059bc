import FerrousRuntime.Broker.ApprovalGate

/-! # What an approval releases

`pending` is keyed by the callers' ids and parking inserts without a check, so an
approval takes the job parked last under its id. That is the job the caller was
shown exactly when no other session was parked under the id since.
-/
namespace FerrousRuntime.Broker
open Tally Transition Policy Capability FerrousRuntime.Runtime

/-- After the session was parked, another session was parked under its id. -/
def Superseded (shown : Job) (past : List Event) : Prop :=
  ∃ later other earlier, past = later ++ .parked other :: earlier ∧ other.id = shown.id ∧
    other.key ≠ shown.key ∧ ∃ own, .parked own ∈ earlier ∧ own.key = shown.key

section Reachable
variable {config : Config} {b : ActionBroker}

theorem registered_unique (h : Reachable (system config) b) {job other : Job}
    (hj : .registered job ∈ b.state.history) (ho : .registered other ∈ b.state.history)
    (hkey : job.key = other.key) : job = other := by
  have hcount := (reachable_ledger h other.key).registered_le
  have heq := eq_of_countP_le_one (p := Event.isRegistered other.key) (by omega) hj ho
    (by simp [ofKey, hkey]) (by simp [ofKey])
  exact Event.registered.inj heq

theorem parked_once (h : Reachable (system config) b) (k : ℕ) :
    b.state.history.countP (Event.isParked k) ≤ 1 := by
  have hborn := (reachable_ledger h k).born_le
  have hcount := (reachable_ledger h k).parking
  omega

theorem parked_id (h : Reachable (system config) b) {job shown : Job}
    (hp : .parked job ∈ b.state.history) (hs : .registered shown ∈ b.state.history)
    (hkey : job.key = shown.key) : job.id = shown.id := by
  obtain ⟨past, hpast, hw⟩ := (reachable_genuine h).state.warranted.of_mem hp
  have hregistered : Registered past job := hw
  obtain ⟨origin, ho, hrequest, -, hsink⟩ := hregistered
  have horigin := hpast.subset (List.mem_cons_of_mem _ ho)
  have heq := registered_unique h horigin hs ((congrArg JobSink.channel hsink).trans hkey)
  rw [← heq]
  exact congrArg Command.CommandRequest.id hrequest.symm

theorem parked_of_received {past : List Event} {shown : Job} {reason : Command.ApprovalReason}
    (hw : Justified Warranted past)
    (hreceived : .received shown.key (approvalMessage shown.sink reason) ∈ past) :
    ∃ own, .parked own ∈ past ∧ own.key = shown.key := by
  have hasks : (approvalMessage shown.sink reason).asksApproval = true := by
    cases shown.sink <;> rfl
  obtain ⟨before, hbefore, hsent⟩ := hw.of_mem hreceived
  have hsub := (List.suffix_cons _ _).trans hbefore
  obtain ⟨earlier, hearlier, hask⟩ := (hw.suffix hsub).of_mem hsent
  obtain ⟨own, hown, hkey⟩ := hask hasks
  exact ⟨own, hsub.subset (hearlier.subset (List.mem_cons_of_mem _ hown)), hkey⟩

/-- The approval of a shown session's id releases that session's job if and only if no
other session was parked under the id in between. -/
theorem approval_releases_shown_iff (h : Reachable (system config) b) {later past : List Event}
    {call : ℕ} {job shown : Job} {reason : Command.ApprovalReason}
    (hshown : .registered shown ∈ b.state.history)
    (hh : b.state.history = later ++ .took (.approve call) job :: past)
    (hreceived : .received shown.key (approvalMessage shown.sink reason) ∈ past)
    (hid : job.id = shown.id) : job.key = shown.key ↔ ¬ Superseded shown past := by
  have hsub : past ⊆ b.state.history := by
    rw [hh]
    exact fun e he => List.mem_append_right _ (List.mem_cons_of_mem _ he)
  have hw := (reachable_genuine h).state.warranted
  rw [hh] at hw
  have hlast : lastParked job.id past = some job := hw.split
  obtain ⟨-, recent, earlier, rfl, hrecent⟩ := lastParked_eq_some hlast
  constructor
  · rintro hkey ⟨recent', other, earlier', heq, hother, hne, own, hown, hownkey⟩
    have hdiffers : Event.parked job ≠ .parked other := by
      rintro ⟨⟩
      exact hne hkey
    have hnot : .parked other ∉ recent := fun ho => hrecent other ho (hother.trans hid.symm)
    have hsuffix := earlier_of_not_later heq hdiffers hnot
    have hearlier : .parked own ∈ earlier := hsuffix.subset (List.mem_cons_of_mem _ hown)
    -- so the session was parked twice
    have hone := parked_once h shown.key
    have hpos : 0 < earlier.countP (Event.isParked shown.key) :=
      List.countP_pos_iff.mpr ⟨_, hearlier, by simp [ofKey, hownkey]⟩
    have hjob : Event.isParked shown.key (.parked job) = true := by simp [ofKey, hkey]
    simp only [hh, List.countP_append, countP_cons_one, hjob, one_true] at hone
    omega
  · intro hno
    by_contra hne
    obtain ⟨own, hown, hownkey⟩ := parked_of_received
      (hw.suffix ((List.suffix_cons _ _).trans (List.suffix_append _ _))) hreceived
    have hownid := parked_id h (hsub hown) hshown hownkey
    rcases List.mem_append.mp hown with hown | hown
    · exact hrecent own hown (hownid.trans hid.symm)
    · rcases List.mem_cons.mp hown with heq | hown
      · exact hne ((congrArg Job.key (Event.parked.inj heq)).symm.trans hownkey)
      · exact hno ⟨recent, job, earlier, rfl, hid, hne, own, hown, hownkey⟩

end Reachable

def ActionBroker.answer (b : ActionBroker) (call : ℕ) : Option (Except BrokerError Unit) :=
  match b.calls[call]? with
  | some (.done result) => some result
  | _ => none

def riskySession (key : ℕ) : Job := newJob false ⟨false⟩ (sampleRequest 1 .readWrite defaultLimits) key

def parkedSession (key : ℕ) : Job :=
  (riskySession key).withSession
    ((riskySession key).session.acceptIgnored (.pendingApproval .filesystemWrite))

/-- After the caller was shown the first session, a second one is submitted under its
id and parked in its place. -/
def reusedId : List Act := submission 0 1 false .readWrite ++ parking ++ ([.worker, .receive 0] : List Act) ++
  submission 1 1 false .readWrite ++ parking ++
  ([.call (.approve 1), .proceed 2, .proceed 2, .proceed 2] : List Act)

/-- The approval of the session that was shown released another one. -/
theorem approval_releases_another_session : ∃ b, Reachable (system sampleConfig) b ∧
    b.answer 2 = some (.ok ()) ∧ .registered (riskySession 0) ∈ b.state.history ∧
    ∃ job past, b.state.history = .took (.approve 2) job :: past ∧
      .received 0 (approvalMessage (riskySession 0).sink .filesystemWrite) ∈ past ∧
      job.id = (riskySession 0).id ∧ job.key ≠ (riskySession 0).key := by
  obtain ⟨b, hb, hanswer, hregistered, hhead, htail⟩ := (system sampleConfig).reachable_of_replay
    (fun b => b.answer 2 = some (.ok ()) ∧ .registered (riskySession 0) ∈ b.state.history ∧
      b.state.history.head? = some (.took (.approve 2) (parkedSession 1)) ∧
      .received 0 (approvalMessage (riskySession 0).sink .filesystemWrite) ∈ b.state.history.tail)
    reusedId (by decide)
  obtain ⟨past, hh⟩ := List.head?_eq_some_iff.mp hhead
  rw [hh] at htail
  exact ⟨b, hb, hanswer, hregistered, _, past, hh, htail, rfl, by decide⟩

theorem approval_releases_shown_session : ∃ b past, Reachable (system sampleConfig) b ∧
    b.state.history = .took (.approve 1) (parkedSession 0) :: past ∧
      .received 0 (approvalMessage (riskySession 0).sink .filesystemWrite) ∈ past ∧
      (parkedSession 0).key = (riskySession 0).key ∧ ¬ Superseded (riskySession 0) past := by
  obtain ⟨b, hb, hregistered, hhead, htail⟩ := (system sampleConfig).reachable_of_replay
    (fun b => .registered (riskySession 0) ∈ b.state.history ∧
      b.state.history.head? = some (.took (.approve 1) (parkedSession 0)) ∧
      .received 0 (approvalMessage (riskySession 0).sink .filesystemWrite) ∈ b.state.history.tail)
    (approvedSession.take 11) (by decide)
  obtain ⟨past, hh⟩ := List.head?_eq_some_iff.mp hhead
  rw [hh] at htail
  have hsplit : b.state.history = [] ++ .took (.approve 1) (parkedSession 0) :: past := hh
  exact ⟨b, past, hb, hh, htail, rfl, (approval_releases_shown_iff hb hregistered hsplit htail rfl).mp rfl⟩

end FerrousRuntime.Broker
