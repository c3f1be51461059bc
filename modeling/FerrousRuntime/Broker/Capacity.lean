import FerrousRuntime.Broker.Registry
import FerrousRuntime.Broker.Endings

/-! # The capacity bounds the outstanding sessions

`enqueue` compares the capacity with the number of handles, not of sessions. The two
agree as long as every outstanding session has a handle of its own, and it has one until
a step enters another session's handle over it, or releases it on another's account.
-/
namespace FerrousRuntime.Broker
open Tally Lease Transition FerrousRuntime.Runtime Capability

/-- The session whose job the worker has in hand, until its handle is released. -/
def WorkerPc.session : WorkerPc → Option ℕ
  | .lookup job | .missing job | .begin job _ | .announce job _ | .running job _ _
  | .deadline job _ | .park job _ _ => some job.key
  | .closing c => some c.key
  | _ => none

def ActionBroker.outstanding (b : ActionBroker) : List ℕ :=
  b.state.queue.map Job.key ++ b.state.pending.entries.map (fun entry => entry.2.job.key) ++
    b.worker.session.toList

def Event.isOver (k : ℕ) (event : Event) : Bool :=
  event.isConcluded k || event.isLost k || event.isDiscarded k

def WorkerPc.closesSession (k : ℕ) : WorkerPc → Bool
  | .closing c => c.key == k
  | _ => false

/-- The session is not over, or the worker is closing it and is not the one to step. -/
def ActionBroker.needs (b : ActionBroker) (act : Act) (k : ℕ) : Bool :=
  b.state.history.countP (Event.isOver k) == 0 || (!act.isWorker && b.worker.closesSession k)

/-- The step enters a handle over that of a session in need of it, or releases it. -/
def dispossesses (config : Config) (b : ActionBroker) (act : Act) : Bool :=
  (((b.registers config act).map Job.id).or (b.releases act)).any
    (fun id => (b.state.handles.lookup id).any (b.needs act))

def ActionBroker.Uses (b : ActionBroker) (id key : ℕ) : Prop :=
  Entitled Event.isOver b.state.history id key ∨
    ∃ c, Closes b .worker c ∧ c.stage ≠ .send ∧ c.entry.id = id ∧ c.key = key

section Steps
variable {config : Config} {b t : ActionBroker} {act : Act} {k : ℕ}

theorem countP_isOver {history : List Event} (hc : history.countP (Event.isConcluded k) = 0)
    (hl : history.countP (Event.isLost k) = 0) (hd : history.countP (Event.isDiscarded k) = 0) :
    history.countP (Event.isOver k) = 0 := by
  rw [List.countP_eq_zero] at *
  intro event he
  rw [Event.isOver, Bool.or_eq_true, Bool.or_eq_true]
  rintro ((hover | hover) | hover)
  · exact hc event he hover
  · exact hl event he hover
  · exact hd event he hover

theorem unfinished (h : Reachable (system config) b)
    (hk : 0 < b.state.queue.countP (ofKey k) + values (fun parked => ofKey k parked.job) b.state.pending +
      (b.footprint k).holds) : b.state.history.countP (Event.isOver k) = 0 := by
  have hplaces := (reachable_ledger h k).places_le
  exact countP_isOver (by omega) (by omega) (by omega)

theorem reachable_handles_le (h : Reachable (system config) b) :
    b.state.handles.entries.length ≤ config.capacity := by
  refine Reachable.invariant
    (P := fun b : ActionBroker => b.state.handles.entries.length ≤ config.capacity)
    ?_ h (Nat.zero_le _)
  intro b act t he hle
  have herase : ∀ id, (b.state.handles.entries.kerase id).length ≤ b.state.handles.entries.length :=
    fun id => (List.kerase_sublist id _).length_le
  rw [step_handles he]
  cases hr : b.registers config act with
  | some job =>
    obtain ⟨n, -, -, hroom⟩ := registers_eq_some hr
    have hlen := herase job.id
    simp only [BrokerState.handlesAfter, AList.entries_insert, List.length_cons]
    omega
  | none =>
    cases b.releases act with
    | none => exact hle
    | some id => exact (herase id).trans hle

theorem workerStep_releases {s : BrokerState} {pc : WorkerPc} {next : BrokerState × WorkerPc} {id : ℕ}
    (hr : pc.releases = some id) (he : workerStep config s pc = some next) : next.2 = .idle := by
  cases workerStep_cases he with
  | forgotten | released | closed => rfl
  | closing c d _ hs =>
    simp only [WorkerPc.releases, Closing.releases, Option.ite_none_right_eq_some] at hr
    simp only [Closing.step, hr.1, Prod.mk.injEq, reduceCtorEq, and_false] at hs
  | _ => cases hr

theorem step_uses (hb : Reachable (system config) b) (he : step config b act = some t) {id key : ℕ}
    (h : t.Uses id key) : b.Uses id key ∨
      ∃ job, b.registers config act = some job ∧ job.id = id ∧ job.key = key := by
  rcases h with h | ⟨c, hc, hstage, hid, hkey⟩
  · exact (step_entitled hb he h).imp_left Or.inl
  · left
    rcases step_closes he hc with hc | ⟨d, hd, hadv⟩ | ho
    · exact Or.inr ⟨c, hc, hstage, hid, hkey⟩
    · obtain ⟨hdkey, -, hdentry, -, -⟩ := hadv.kept
      rw [hdkey] at hkey
      rw [hdentry] at hid
      by_cases hsend : d.stage = .send
      · have hover := unfinished hb (k := d.key) (by have := hd.holds hsend; omega)
        have hsound := (reachable_closings hb .worker d hd).registered
        exact Or.inl ⟨hid ▸ hkey ▸ hsound, hkey ▸ hover⟩
      · exact Or.inr ⟨d, hd, hsend, hid, hkey⟩
    · obtain ⟨job, -, -, hsend, -⟩ := ho.cause hb (history_suffix hb he).subset
      exact absurd hsend hstage

theorem step_possession (hb : Reachable (system config) b) (he : step config b act = some t)
    (hguard : dispossesses config b act = false) (h : Kept b.state.handles b.Uses) :
    Kept t.state.handles t.Uses := by
  have hback : ∀ id key, t.Uses id key → b.Uses id key ∨
      ∃ job, b.registers config act = some job ∧ job.id = id ∧ job.key = key :=
    fun id key hu => step_uses hb he hu
  refine step_kept he hback ?_ ?_ h
  · intro job hr key hu
    by_contra hne
    have hold : b.Uses job.id key := by
      rcases hback job.id key hu with hold | ⟨other, ho, -, hkey⟩
      · exact hold
      · cases hr.symm.trans ho
        exact absurd hkey.symm hne
    have hneeds : b.needs act key = false := by
      simpa [dispossesses, hr, h job.id key hold] using hguard
    obtain ⟨n, rfl, -, -⟩ := registers_eq_some hr
    rcases hold with ⟨-, hover⟩ | ⟨c, hc, -, -, rfl⟩
    · simp [ActionBroker.needs, hover] at hneeds
    · cases hc with
      | worker _ hw => simp [ActionBroker.needs, hw, WorkerPc.closesSession, Act.isWorker] at hneeds
  · intro id hrel key hu
    have hr : b.registers config act = none := by
      cases hr : b.registers config act with
      | none => rfl
      | some job => rw [releases_of_registers hr] at hrel; cases hrel
    have hold : b.Uses id key := by
      rcases hback id key hu with hold | ⟨job, hjob, -⟩
      · exact hold
      · rw [hr] at hjob; cases hjob
    have hneeds : b.needs act key = false := by
      simpa [dispossesses, hr, hrel, h id key hold] using hguard
    have hover : b.state.history.countP (Event.isOver key) ≠ 0 := by
      intro hover
      simp [ActionBroker.needs, hover] at hneeds
    rcases hold with ⟨-, hzero⟩ | ⟨c, hc, -, -, rfl⟩
    · exact hover hzero
    · cases hc with
      | worker _ hw =>
        cases act with
        | worker =>
          obtain ⟨next, hn, rfl⟩ := Option.map_eq_some_iff.mp he
          have hidle := workerStep_releases hrel hn
          rcases hu with ⟨-, hzero⟩ | ⟨d, hd, -⟩
          · have hle := (history_suffix hb he).sublist.countP_le (p := Event.isOver c.key)
            exact hover (by omega)
          · cases hd with
            | worker _ hd => cases hidle.symm.trans hd
        | _ => simp [ActionBroker.needs, hw, WorkerPc.closesSession, Act.isWorker] at hneeds

theorem runs_possession (h : Runs (system config) (fun b act => dispossesses config b act = false) .initial b) :
    Kept b.state.handles b.Uses := by
  refine Runs.invariant_of_reachable (P := fun b => Kept b.state.handles b.Uses)
    (fun b act t hb hguard he hp => step_possession hb he hguard hp) h (.refl _) ?_
  rintro id key (⟨⟨origin, ho, -⟩, -⟩ | ⟨c, hc, -⟩)
  · cases ho
  · cases hc with
    | worker _ hw => cases hw

end Steps

section Outstanding
variable {config : Config} {b : ActionBroker} {k : ℕ}

theorem count_outstanding (b : ActionBroker) (k : ℕ) : b.outstanding.count k =
    b.state.queue.countP (ofKey k) + values (fun parked => ofKey k parked.job) b.state.pending +
      b.worker.session.toList.count k := by
  rw [ActionBroker.outstanding, List.count_append, List.count_append]
  simp only [List.count_eq_countP, List.countP_map]
  rfl

/-- The worker's session is one whose job it holds, or one it has concluded. -/
theorem worker_session (hk : b.worker.session = some k) :
    0 < (b.worker.footprint k).holds ∨ ∃ c, Closes b .worker c ∧ c.stage ≠ .send ∧ c.key = k := by
  cases hw : b.worker <;> rw [hw] at hk <;> cases hk
  case closing c =>
    by_cases hsend : c.stage = .send
    · exact Or.inl (by simp [WorkerPc.footprint, Closing.footprint, hsend])
    · exact Or.inr ⟨c, .worker c hw, hsend, rfl⟩
  all_goals simp [WorkerPc.footprint, ofKey]

theorem outstanding_nodup (h : Reachable (system config) b) : b.outstanding.Nodup := by
  rw [List.nodup_iff_count_le_one]
  intro k
  rw [count_outstanding]
  have hplaces := (reachable_ledger h k).places_le
  have hworker := worker_holds_le b k
  cases hs : b.worker.session with
  | none => simp only [Option.toList_none, List.count_nil]; omega
  | some own =>
    by_cases hown : own = k
    · subst hown
      simp only [Option.toList_some, List.count_singleton_self]
      rcases worker_session hs with hholds | ⟨c, hc, hstage, rfl⟩
      · omega
      · have hconcluded := hc.concluded h hstage
        omega
    · simp only [Option.toList_some, List.count_singleton, beq_iff_eq, hown, if_false]
      omega

theorem worker_session_registered (h : Reachable (system config) b) (hk : b.worker.session = some k) :
    ∃ id, HandleOf b.state.history id k := by
  have hg := (reachable_genuine h).worker
  cases hw : b.worker <;> rw [hw] at hk hg <;> cases hk
  case closing c => exact ⟨_, (reachable_closings h .worker c (.worker c hw)).registered⟩
  case missing job => exact ⟨_, Registered.handleOf hg⟩
  case begin job cell => exact ⟨_, hg.1.registered.handleOf⟩
  case announce | running => exact ⟨_, hg.1.handleOf⟩
  all_goals exact ⟨_, (Waiting.registered hg).handleOf⟩

theorem outstanding_uses (h : Reachable (system config) b) (hk : k ∈ b.outstanding) :
    ∃ id, b.Uses id k := by
  have hg := (reachable_genuine h).state
  have hworker := worker_holds_le b k
  rcases List.mem_append.mp hk with hk | hk
  · rcases List.mem_append.mp hk with hk | hk
    · obtain ⟨job, hj, rfl⟩ := List.mem_map.mp hk
      have hpos : 0 < b.state.queue.countP (ofKey job.key) :=
        List.countP_pos_iff.mpr ⟨job, hj, by simp [ofKey]⟩
      exact ⟨job.id, Or.inl ⟨(hg.queue job hj).registered.handleOf, unfinished h (by omega)⟩⟩
    · obtain ⟨⟨id, parked⟩, hmem, rfl⟩ := List.mem_map.mp hk
      have hl := AList.mem_lookup_iff.mpr hmem
      dsimp only at hworker ⊢
      have hpos := values_pos_of_lookup (p := fun other => ofKey parked.job.key other.job) hl
        (by simp [ofKey])
      exact ⟨parked.job.id, Or.inl ⟨(hg.pending id parked hl).2.1.registered.handleOf,
        unfinished h (by omega)⟩⟩
  · have hs := Option.mem_toList.mp hk
    rcases worker_session hs with hholds | ⟨c, hc, hstage, rfl⟩
    · obtain ⟨id, hid⟩ := worker_session_registered h hs
      exact ⟨id, Or.inl ⟨hid, unfinished h (by omega)⟩⟩
    · exact ⟨c.entry.id, Or.inr ⟨c, hc, hstage, rfl, rfl⟩⟩

/-- In every run in which no step dispossesses a session, the outstanding sessions are at
most as many as the capacity, and a submission beyond it is refused and changes nothing. -/
theorem outstanding_bounded
    (h : Runs (system config) (fun b act => dispossesses config b act = false) .initial b) :
    b.outstanding.length ≤ config.capacity ∧
      ∀ n job, b.calls[n]? = some (.enqueue job) → config.capacity ≤ b.outstanding.length →
        step config b (.proceed n) =
          some { b with calls := b.calls.set n (.done (.error .queueFull)) } := by
  have hlen : b.outstanding.length ≤ b.state.handles.entries.length :=
    (runs_possession h).length_le (outstanding_nodup h.free) (fun k hk => outstanding_uses h.free hk)
  refine ⟨hlen.trans (reachable_handles_le h.free), fun n job hn hfull => ?_⟩
  simp only [step, hn, Option.bind_some, callStep, if_pos (hfull.trans hlen), Option.map_some]

end Outstanding

/-- Five submissions under one id to a broker for four sessions. -/
def overbooked : List Act := (List.range 5).flatMap (fun call => submission call 1 false .read)

theorem overbooked_beyond_capacity : ∃ b, Reachable (system sampleConfig) b ∧
    sampleConfig.capacity < b.outstanding.length :=
  (system sampleConfig).reachable_of_replay
    (fun b => sampleConfig.capacity < b.outstanding.length) overbooked (by decide)

def CallPc.isEnqueue : CallPc → Bool
  | .enqueue _ => true
  | _ => false

def fullHouse : List Act := submission 0 1 false .readWrite ++ submission 1 2 false .read ++ parking ++
  ([.worker, .worker, .worker, .worker] : List Act) ++ submission 2 3 false .read ++ submission 3 4 true .read ++
  ([.call (.submit false ⟨false⟩ (sampleRequest 5 .read defaultLimits))] : List Act)

theorem full_house_refuses : ∃ b, b.outstanding.length = sampleConfig.capacity ∧
    step sampleConfig b (.proceed 4) =
      some { b with calls := b.calls.set 4 (.done (.error .queueFull)) } := by
  obtain ⟨b, hruns, hlen, hcall⟩ := (system sampleConfig).exists_of_replay
    (fun b act => dispossesses sampleConfig b act = false)
    (fun b => b.outstanding.length = sampleConfig.capacity ∧
      (b.calls[4]?).any CallPc.isEnqueue = true)
    .initial fullHouse (by decide)
  obtain ⟨pc, hpc, hfull⟩ := (Option.any_eq_true _ _).mp hcall
  cases pc with
  | enqueue job => exact ⟨b, hlen, (outstanding_bounded hruns).2 4 job hpc (by omega)⟩
  | _ => cases hfull

end FerrousRuntime.Broker
