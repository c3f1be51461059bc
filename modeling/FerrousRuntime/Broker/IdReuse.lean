import FerrousRuntime.Broker.OpenHandles

/-! # Ids that are used again

A caller that has received a session's terminal message may submit its id again. The
session's own closing still has to record its entry and to release its id, so the new
registration has to wait for it; nothing makes it wait.
-/
namespace FerrousRuntime.Broker
open Tally Lease Transition FerrousRuntime.Runtime Capability

@[simp] def Event.isReceipt (k : ℕ) : Event → Bool
  | .received key message => key == k && message.isTerminal
  | _ => false

/-- A registration with the job's id whose session the caller has not seen finish. -/
def Event.blocks (past : List Event) (job : Job) : Event → Bool
  | .registered origin => origin.id == job.id && past.countP (Event.isReceipt origin.key) == 0
  | _ => false

def Event.reuses (past : List Event) : Event → Bool
  | .registered job => past.all (fun event => !event.blocks past job)
  | _ => true

/-- An id is registered only after the caller of every earlier session with it received
that session's terminal message. -/
def ReusesFinished (event : Event) (past : List Event) : Prop := event.reuses past = true

instance (event : Event) (past : List Event) : Decidable (ReusesFinished event past) :=
  inferInstanceAs (Decidable (event.reuses past = true))

section Sessions
variable {config : Config} {b t : ActionBroker} {act : Act}

theorem concluded_of_receipt {past : List Event} {k : ℕ} (hw : Justified Warranted past)
    (hr : 0 < past.countP (Event.isReceipt k)) : 0 < past.countP (Event.isConcluded k) := by
  obtain ⟨event, he, hevent⟩ := List.countP_pos_iff.mp hr
  cases event with
  | received key message =>
    obtain ⟨before, hbefore, hsent⟩ := hw.of_mem he
    exact List.countP_pos_iff.mpr
      ⟨_, hbefore.subset (List.mem_cons_of_mem _ hsent), by simpa using hevent⟩
  | _ => simp at hevent

/-- Of two sessions with one id, the one registered first was concluded. -/
theorem concluded_of_reuse (hb : Reachable (system config) b)
    (hr : Justified ReusesFinished b.state.history) {later past : List Event} {job origin : Job}
    (hh : b.state.history = later ++ .registered job :: past) (ho : .registered origin ∈ past)
    (hid : origin.id = job.id) : 0 < b.state.history.countP (Event.isConcluded origin.key) := by
  have hsuffix : past <:+ b.state.history :=
    hh ▸ (List.suffix_cons _ _).trans (List.suffix_append _ _)
  rw [hh] at hr
  have hall : past.all (fun event => !event.blocks past job) = true := hr.split
  have hblocks : Event.blocks past job (.registered origin) = false := by
    simpa using List.all_eq_true.mp hall _ ho
  have hreceipt : 0 < past.countP (Event.isReceipt origin.key) := by
    simp only [Event.blocks, hid, beq_self_eq_true, Bool.true_and, beq_eq_false_iff_ne, ne_eq] at hblocks
    omega
  have hpast := concluded_of_receipt ((reachable_genuine hb).state.warranted.suffix hsuffix) hreceipt
  exact hpast.trans_le (hsuffix.sublist.countP_le)

theorem unshared_of_reuse (hb : Reachable (system config) b)
    (hr : Justified ReusesFinished b.state.history) : Unshared b.state.history := by
  rintro id key key' ⟨⟨origin, ho, hid, rfl⟩, hopen⟩ ⟨⟨origin', ho', hid', rfl⟩, hopen'⟩
  obtain ⟨later, past, hh⟩ := List.append_of_mem ho
  have hmem := ho'
  rw [hh] at hmem
  rcases List.mem_append.mp hmem with hmem | hmem
  · obtain ⟨recent, rest, rfl⟩ := List.append_of_mem hmem
    have hconcluded := concluded_of_reuse hb hr (by rw [hh, List.append_assoc]; rfl)
      (List.mem_append_right rest List.mem_cons_self) (hid.trans hid'.symm)
    omega
  · rcases List.mem_cons.mp hmem with heq | hmem
    · rw [Event.registered.inj heq]
    · have hconcluded := concluded_of_reuse hb hr hh hmem (hid'.trans hid.symm)
      omega

end Sessions

def Closing.closesId (id : ℕ) (closing : Closing) : Bool := closing.entry.id == id

def ActionBroker.closesId (id : ℕ) (b : ActionBroker) : Bool :=
  b.calls.any (fun pc => match pc with | .closing c => c.closesId id | _ => false) ||
    (match b.worker with | .closing c => c.closesId id | _ => false) ||
    (match b.sweeper with | .closing c _ => c.closesId id | _ => false)

/-- The step registers an id that a closing or a clean-up has yet to release, or it is a
notification that fails while the id is that of an open session. -/
def crossesCleanup (config : Config) (b : ActionBroker) (act : Act) : Bool :=
  (b.registers config act).any
    (fun job => b.closesId job.id || b.worker.cleans == some job.id) ||
  (act.isWorker && match b.worker with
    | .notify sink id _ => b.state.dropped.contains sink.channel &&
      (b.state.handles.lookup id).any
        (fun key => b.state.history.countP (Event.isConcluded key) == 0)
    | _ => false)

section Runs
variable {config : Config} {b t : ActionBroker} {act : Act}

theorem Closes.closesId {thread : Thread} {c : Closing} (hc : Closes b thread c) :
    b.closesId c.entry.id = true := by
  unfold ActionBroker.closesId
  cases hc with
  | call n _ hn =>
    have hany : b.calls.any (fun pc => match pc with
        | .closing d => d.closesId c.entry.id | _ => false) = true :=
      List.any_eq_true.mpr ⟨_, List.mem_of_getElem? hn, by simp [Closing.closesId]⟩
    simp [hany]
  | worker _ hw => simp [hw, Closing.closesId]
  | sweeper _ rest hs => simp [hs, Closing.closesId]

theorem respects_of_guard (h : HandlesKept b) (hguard : crossesCleanup config b act = false) :
    Respects config b act := by
  obtain ⟨hregisters, hnotify⟩ := Bool.or_eq_false_iff.mp hguard
  refine ⟨?_, ?_, ?_⟩
  · intro job hr thread c hc hid
    have hcloses := hc.closesId
    simp only [hr, Option.any_some, Bool.or_eq_false_iff] at hregisters
    rw [hid, hregisters.1] at hcloses
    cases hcloses
  · intro job hr hcleans
    simp [hr, hcleans] at hregisters
  · rintro sink id reason rfl hw hdropped key hopen
    have hl := h.kept id key hopen
    simp only [Act.isWorker, hw, hdropped, hl, Option.any_some, hopen.2, Bool.true_and,
      beq_self_eq_true] at hnotify
    cases hnotify

/-- In every run that reuses only finished ids, and in which no step crosses a clean-up,
every session has its handle from its registration until its terminal message: the worker
never misses it, and no cancellation of a live session finds it unknown. -/
theorem reused_id_keeps_handle
    (h : Runs (system config) (fun b act => crossesCleanup config b act = false) .initial b)
    (hreused : Justified ReusesFinished b.state.history) :
    (∀ job, .registered job ∈ b.state.history → b.state.history.countP (Event.isConcluded job.key) = 0 →
      b.state.handles.lookup job.id = some job.key) ∧
    (∀ job, .missing job ∉ b.state.history) ∧
    ∀ n id t, b.calls[n]? = some (.lookup id) → step config b (.proceed n) = some t →
      t.answer n = some (.error (.unknownSession id)) →
      ∀ job, .registered job ∈ b.state.history → job.id = id →
        0 < b.state.history.countP (Event.isConcluded job.key) := by
  have hten : HandlesKept b := by
    refine Runs.invariant_under (H := fun b => Justified ReusesFinished b.state.history)
      (P := HandlesKept) ?_ ?_ h (.refl _) initial_handlesKept hreused
    · exact fun b act t hb he ht => ht.suffix (history_suffix hb he)
    · intro b act t hb hguard he ht hp
      exact step_handlesKept hb he (unshared_of_reuse (Reachable.step hb he) ht)
        (respects_of_guard hp hguard) hp
  have hkept : ∀ job, .registered job ∈ b.state.history →
      b.state.history.countP (Event.isConcluded job.key) = 0 →
      b.state.handles.lookup job.id = some job.key :=
    fun job hj hopen => hten.kept job.id job.key ⟨⟨job, hj, rfl, rfl⟩, hopen⟩
  refine ⟨hkept, hten.unmissed, ?_⟩
  rintro n id t hn he hanswer job hj rfl
  by_contra hopen
  have hl := hkept job hj (by omega)
  have hlt := (List.getElem?_eq_some_iff.mp hn).1
  simp only [step, hn, Option.bind_some, callStep, hl, Option.map_some, Option.some.injEq] at he
  subst he
  simp [ActionBroker.answer, hlt] at hanswer

end Runs

/-- A parked session is cancelled, its caller receives the terminal message and submits the
id again before the cancellation has released it. -/
def resubmission : List Act := submission 0 1 false .readWrite ++ parking ++
  ([.worker, .call (.cancel 1), .proceed 1, .proceed 1, .receive 0, .receive 0] : List Act) ++
  submission 2 1 false .readWrite

/-- The release then takes the new session's handle: its cancellation finds it unknown, and
the worker finds it missing. -/
theorem resubmission_loses_handle : ∃ b, Reachable (system sampleConfig) b ∧
    Justified ReusesFinished b.state.history ∧ .registered (riskySession 1) ∈ b.state.history ∧
    b.state.history.countP (Event.isConcluded 1) = 0 ∧
    b.answer 3 = some (.error (.unknownSession 1)) ∧ .missing (riskySession 1) ∈ b.state.history :=
  (system sampleConfig).reachable_of_replay
    (fun b => Justified ReusesFinished b.state.history ∧ .registered (riskySession 1) ∈ b.state.history ∧
      b.state.history.countP (Event.isConcluded 1) = 0 ∧
      b.answer 3 = some (.error (.unknownSession 1)) ∧ .missing (riskySession 1) ∈ b.state.history)
    (resubmission ++
      ([.proceed 1, .proceed 1, .call (.cancel 1), .proceed 3, .proceed 3, .worker, .worker] : List Act))
    (by decide)

theorem resubmission_keeps_handle : ∃ b : ActionBroker,
    b.state.history.countP (Event.isConcluded 0) = 1 ∧ b.state.handles.lookup 1 = some 1 := by
  obtain ⟨b, hruns, hreused, hregistered, hopen, hconcluded⟩ := (system sampleConfig).exists_of_replay
    (fun b act => crossesCleanup sampleConfig b act = false)
    (fun b => Justified ReusesFinished b.state.history ∧ .registered (riskySession 1) ∈ b.state.history ∧
      b.state.history.countP (Event.isConcluded 1) = 0 ∧
      b.state.history.countP (Event.isConcluded 0) = 1)
    .initial
    (submission 0 1 false .readWrite ++ parking ++
      ([.worker, .call (.cancel 1), .proceed 1, .proceed 1, .receive 0, .receive 0, .proceed 1,
        .proceed 1] : List Act) ++
      submission 2 1 false .readWrite)
    (by decide)
  exact ⟨b, hconcluded, (reused_id_keeps_handle hruns hreused).1 (riskySession 1) hregistered hopen⟩

end FerrousRuntime.Broker
