import FerrousRuntime.Broker.Cancellation
import FerrousRuntime.Broker.Endings
import FerrousRuntime.Runtime.Engine

/-! # Who can be cancelled

A session ends cancelled for one of three requests: a call that took its parked job, a call
that set the handle registered under its id, or the shutdown, which sets all of them. The
worker looks at the handle, the run it calls does, and so does an approval.
-/
namespace FerrousRuntime.Broker
open Tally Transition Command FerrousRuntime.Runtime

def Message.isCancellation : Message → Bool
  | .outcome .cancelled | .event .cancelled => true
  | _ => false

/-- The handle of a session of the id was set, or the shutdown has begun. -/
def Flagged (history : List Event) (drop : DropPc) (id : ℕ) : Prop :=
  drop ≠ .undropped ∨ ∃ target, .registered target ∈ history ∧ target.id = id ∧ .flagged target.key ∈ history

/-- Somebody asked for the session of the id and the key to be cancelled. -/
def Sought (history : List Event) (drop : DropPc) (id key : ℕ) : Prop :=
  Flagged history drop id ∨ ∃ n taken, .took (.cancel n) taken ∈ history ∧ taken.key = key

structure Later (b t : ActionBroker) : Prop where
  history : b.state.history ⊆ t.state.history
  drop : b.drop ≠ .undropped → t.drop ≠ .undropped

section Threads
variable {config : Config} {s : BrokerState}

theorem callStep_flags {n : ℕ} {pc : CallPc} {next : BrokerState × CallPc} {cell : ℕ}
    (he : callStep config n s pc = some next) (hset : next.1.flags cell = true) :
    s.flags cell = true ∨ .flagged cell ∈ next.1.history := by
  cases callStep_cases he with
  | flagged own =>
    by_cases heq : cell = own
    · subst heq
      exact Or.inr List.mem_cons_self
    · exact Or.inl (by simpa [Function.update_of_ne heq] using hset)
  | closing c _ _ hs | closed c _ hs =>
    have hc := Closing.step_flags s c
    rw [hs] at hc
    exact Or.inl (hc ▸ hset)
  | _ => exact Or.inl hset

theorem workerStep_flags {pc : WorkerPc} {next : BrokerState × WorkerPc}
    (he : workerStep config s pc = some next) : next.1.flags = s.flags := by
  cases workerStep_cases he with
  | closing c _ _ hs | closed c _ hs =>
    have hc := Closing.step_flags s c
    rw [hs] at hc
    exact hc
  | _ => rfl

theorem sweeperStep_flags {order : List ℕ} {pc : SweeperPc} {next : BrokerState × SweeperPc}
    (he : sweeperStep s order pc = some next) : next.1.flags = s.flags := by
  cases sweeperStep_cases he with
  | closing c _ _ _ hs | closed c _ _ hs =>
    have hc := Closing.step_flags s c
    rw [hs] at hc
    exact hc
  | _ => rfl

theorem conclude_cancellation {sink : JobSink} {result : Except RuntimeError WasiOutput}
    (h : (conclude sink result).message.isCancellation = true) : result = .error .cancelled := by
  cases sink <;> rcases result with error | output <;>
    first | (cases error <;> first | rfl | cases h) | cases h

theorem denial_not_cancellation (sink : JobSink) {terminal : Terminal} (h : terminal ≠ .cancelled) :
    (terminalMessage sink terminal).isCancellation = false := by
  cases sink <;> cases terminal <;> first | rfl | exact absurd rfl h

theorem begin_flagged {job : Job} {cell : ℕ} {next : BrokerState × WorkerPc} {c : Closing}
    (he : workerStep config s (.begin job cell) = some next) (hc : next.2 = .closing c)
    (hm : c.message.isCancellation = true) : s.flags cell = true := by
  cases workerStep_cases he with
  | cancelled _ _ hflag => exact hflag
  | unstartable =>
    cases hc
    exact absurd hm (Bool.eq_false_iff.mp (denial_not_cancellation _ (by simp)))
  | _ => cases hc

end Threads

section Scope
variable {config : Config} {b t : ActionBroker} {act : Act} {id key cell : ℕ}

theorem later_of_step (hb : Reachable (system config) b) (he : step config b act = some t) : Later b t :=
  ⟨(history_suffix hb he).subset, fun hb ht => hb (step_drop he ht)⟩

theorem Flagged.later (h : Flagged b.state.history b.drop id) (hlater : Later b t) :
    Flagged t.state.history t.drop id := by
  rcases h with hdrop | ⟨target, htarget, hid, hflagged⟩
  · exact Or.inl (hlater.drop hdrop)
  · exact Or.inr ⟨target, hlater.history htarget, hid, hlater.history hflagged⟩

theorem Sought.later (h : Sought b.state.history b.drop id key) (hlater : Later b t) :
    Sought t.state.history t.drop id key := by
  rcases h with hflagged | ⟨n, taken, htook, hkey⟩
  · exact Or.inl (hflagged.later hlater)
  · exact Or.inr ⟨n, taken, hlater.history htook, hkey⟩

/-- Flags are set by `cancel`, which says so, and by the shutdown. -/
theorem step_flags (he : step config b act = some t) (hset : t.state.flags cell = true) :
    b.state.flags cell = true ∨ .flagged cell ∈ t.state.history ∨ t.drop ≠ .undropped := by
  revert hset
  apply step_elim (P := fun t => t.state.flags cell = true →
    b.state.flags cell = true ∨ .flagged cell ∈ t.state.history ∨ t.drop ≠ .undropped) he
  case call =>
    intro request _ hset
    have hn := enter_cases b.state request
    generalize enter b.state request = next at hn hset
    cases hn <;> exact Or.inl hset
  case proceed => exact fun n pc next _ _ hn hset => (callStep_flags hn hset).imp_right Or.inl
  case worker => exact fun next _ hn hset => Or.inl (workerStep_flags hn ▸ hset)
  case runtime =>
    intro a next _ hn hset
    obtain ⟨job, cell, run, effect, -, -, rfl⟩ := runtimeStep_cases hn
    rw [emit_flags] at hset
    exact Or.inl hset
  case unwind =>
    intro next _ hn hset
    obtain ⟨job, cell, run, -, -, rfl⟩ := unwindStep_cases hn
    exact Or.inl hset
  case stray =>
    intro index elapsed stray next _ _ hn hset
    obtain ⟨effect, -, rfl⟩ := Option.map_eq_some_iff.mp hn
    rw [emit_flags] at hset
    exact Or.inl hset
  case sweeper => exact fun order next _ hn hset => Or.inl (sweeperStep_flags hn ▸ hset)
  case receiver =>
    intro key drops next hn hset
    cases receiverStep_cases hn <;> exact Or.inl hset
  case tick => exact fun _ hset => Or.inl hset
  case drop => exact fun _ _ hset => Or.inl hset
  case dropping => exact fun next hn _ => Or.inr (Or.inr (dropStep_ne hn))

theorem reachable_flags (h : Reachable (system config) b) :
    ∀ cell, b.state.flags cell = true → b.drop ≠ .undropped ∨ .flagged cell ∈ b.state.history := by
  refine Runs.invariant_of_reachable (P := fun b : ActionBroker => ∀ cell, b.state.flags cell = true →
    b.drop ≠ .undropped ∨ .flagged cell ∈ b.state.history) ?_ h (.refl _)
    (by simp [system, ActionBroker.initial, BrokerState.initial])
  intro b act t hb _ he hp cell hset
  have hlater := later_of_step hb he
  rcases step_flags he hset with hold | hflagged | hdrop
  · exact (hp cell hold).imp hlater.drop (fun hin => hlater.history hin)
  · exact Or.inr hflagged
  · exact Or.inl hdrop

theorem flagged_of_handle (h : Reachable (system config) b) (hhandle : HandleOf b.state.history id cell)
    (hset : b.state.flags cell = true) : Flagged b.state.history b.drop id := by
  obtain ⟨target, htarget, hid, rfl⟩ := hhandle
  exact (reachable_flags h target.key hset).imp_right (fun hflagged => ⟨target, htarget, hid, hflagged⟩)

theorem reachable_sawCancelled (h : Reachable (system config) b) :
    ∀ job, .sawCancelled job ∈ b.state.history → Flagged b.state.history b.drop job.id := by
  refine Runs.invariant_of_reachable (P := fun b : ActionBroker => ∀ job,
    .sawCancelled job ∈ b.state.history → Flagged b.state.history b.drop job.id) ?_ h (.refl _)
    (by simp [system, ActionBroker.initial, BrokerState.initial])
  intro b act t hb _ he hp job hin
  have hlater := later_of_step hb he
  refine Flagged.later ?_ hlater
  rcases step_logs he hin with hin | hlogs
  · exact hp job hin
  · obtain ⟨n, pc, -, hpc, hlogs⟩ := hlogs.by_call rfl
    have hmem := List.mem_of_getElem? hpc
    cases hlogs with
    | closing c event hc => cases hc
    | sawCancelled id job hset =>
      have hid : job.id = id := (reachable_servesQueue hb).named _ hmem
      subst hid
      unfold BrokerState.isCancelled at hset
      split at hset
      · rename_i cell hl
        exact flagged_of_handle hb ((reachable_genuine hb).state.handles _ _ hl) hset
      · cases hset

theorem reachable_cancelled_run (h : Reachable (system config) b) {job : Job} {run : WasiRun}
    (hw : b.worker = .running job cell run) (hr : run.phase = .returned (.error .cancelled)) :
    Flagged b.state.history b.drop job.id := by
  refine Runs.invariant_of_reachable (P := fun b : ActionBroker => ∀ job cell run,
    b.worker = .running job cell run → run.phase = .returned (.error .cancelled) →
      Flagged b.state.history b.drop job.id) ?_ h (.refl _) (fun _ _ _ hw => nomatch hw) job cell run hw hr
  intro b act t hb _ he hp job cell run hw hr
  refine Flagged.later ?_ (later_of_step hb he)
  revert hw
  apply step_elim (P := fun t => t.worker = .running job cell run → Flagged b.state.history b.drop job.id) he
  case worker =>
    intro next _ hn hw
    dsimp only at hw
    generalize b.worker = pc at hn
    cases workerStep_cases hn with
    | invoked | started =>
      cases hw
      cases hr
    | _ => cases hw
  case runtime =>
    intro a next _ hn hw
    obtain ⟨job', cell', run', effect, hbefore, heff, rfl⟩ := runtimeStep_cases hn
    cases hw
    rcases WasiRun.step_returned_cancelled heff hr with hold | hseen
    · exact hp job cell run' hbefore hold
    · have hg := (reachable_genuine hb).worker
      rw [hbefore] at hg
      exact flagged_of_handle hb hg.2 ((Bool.and_eq_true _ _).mp hseen).2
  case unwind =>
    intro next _ hn hw
    obtain ⟨job', cell', run', -, -, rfl⟩ := unwindStep_cases hn
    cases hw
  all_goals
    intros
    rename_i hw
    exact hp job cell run hw hr

theorem Opens.sought {thread : Thread} {c : Closing} (hb : Reachable (system config) b)
    (he : step config b act = some t) (h : Opens b t.state.history thread c) (hc : Closes t thread c)
    (hm : c.message.isCancellation = true) : Sought t.state.history t.drop c.entry.id c.key := by
  have hlater := later_of_step hb he
  have ht := hb.step he
  have hg := (reachable_genuine hb).worker
  cases h with
  | cancelled n id parked hl htook => exact Or.inr ⟨n, parked.job, htook, rfl⟩
  | sawCancelled n id job hpc hs =>
    have hid : job.id = id := (reachable_servesQueue hb).named _ (List.mem_of_getElem? hpc)
    subst hid
    exact Or.inl (reachable_sawCancelled ht job hs)
  | refused job cell hw =>
    rw [hw] at hg
    have hset : b.state.flags cell = true := by
      cases hc with
      | worker _ hnext =>
        rcases step_worker he with hsame | ⟨next, -, hn, -, hw'⟩ | ⟨_, _, _, hrun, -⟩
        · cases hw.symm.trans (hsame.symm.trans hnext)
        · rw [hw] at hn
          exact begin_flagged hn (hw'.symm.trans hnext) hm
        · cases hw.symm.trans hrun
    exact Or.inl ((flagged_of_handle hb hg.2 hset).later hlater)
  | returned job cell run result hw hr =>
    obtain rfl := conclude_cancellation hm
    exact Or.inl ((reachable_cancelled_run hb hw hr).later hlater)
  | denied | timedOut | unstartable | unwound | overdue =>
    exact absurd hm (Bool.eq_false_iff.mp (denial_not_cancellation _ (by simp)))

theorem reachable_closings_sought (h : Reachable (system config) b) : ∀ thread c, Closes b thread c →
    c.message.isCancellation = true → Sought b.state.history b.drop c.entry.id c.key := by
  refine Runs.invariant_of_reachable (P := fun b : ActionBroker => ∀ thread c, Closes b thread c →
    c.message.isCancellation = true → Sought b.state.history b.drop c.entry.id c.key) ?_ h (.refl _) ?_
  · intro b act t hb _ he hp thread c hc hm
    have hlater := later_of_step hb he
    rcases step_closes he hc with hc | ⟨d, hd, hadv⟩ | ho
    · exact (hp thread c hc hm).later hlater
    · obtain ⟨hkey, hmessage, hentry, -⟩ := hadv.kept
      rw [hkey, hentry]
      exact (hp thread d hd (hmessage ▸ hm)).later hlater
    · exact ho.sought hb he hc hm
  · intro thread c hc
    cases hc with
    | call n _ hn => simp [system, ActionBroker.initial] at hn
    | worker _ hw => cases hw
    | sweeper _ rest hs => cases hs

theorem Logs.cancellation {message : Message} (h : Logs config b act (.sent key message))
    (hm : message.isCancellation = true) :
    ∃ thread c, Closes b thread c ∧ c.key = key ∧ c.message = message := by
  cases h with
  | call n pc event hpc h =>
    cases h with
    | closing c event hc =>
      cases hc
      exact ⟨_, c, .call n c hpc, rfl, rfl⟩
  | worker event h =>
    generalize hw : b.worker = pc at h
    cases h with
    | closing c event hc =>
      cases hc
      exact ⟨_, c, .worker c hw, rfl, rfl⟩
    | denied job => exact absurd hm (Bool.eq_false_iff.mp (denial_not_cancellation _ (by simp)))
    | started => cases hm
    | notified sink => cases sink <;> cases hm
  | output => cases hm
  | stray => cases hm
  | sweeper order event h =>
    generalize hs : b.sweeper = pc at h
    cases h with
    | closing c rest event hc =>
      cases hc
      exact ⟨_, c, .sweeper c rest hs, rfl, rfl⟩

theorem reachable_sent_sought (h : Reachable (system config) b) : ∀ key message,
    .sent key message ∈ b.state.history → message.isCancellation = true →
      ∃ id, HandleOf b.state.history id key ∧ Sought b.state.history b.drop id key := by
  refine Runs.invariant_of_reachable (P := fun b : ActionBroker => ∀ key message,
    .sent key message ∈ b.state.history → message.isCancellation = true →
      ∃ id, HandleOf b.state.history id key ∧ Sought b.state.history b.drop id key) ?_ h (.refl _)
    (by simp [system, ActionBroker.initial, BrokerState.initial])
  intro b act t hb _ he hp key message hin hm
  have hlater := later_of_step hb he
  suffices hbefore : ∃ id, HandleOf b.state.history id key ∧ Sought b.state.history b.drop id key by
    obtain ⟨id, hhandle, hsought⟩ := hbefore
    exact ⟨id, hhandle.mono hlater.history, hsought.later hlater⟩
  rcases step_logs he hin with hin | hlogs
  · exact hp key message hin hm
  · obtain ⟨thread, c, hc, rfl, rfl⟩ := hlogs.cancellation hm
    exact ⟨c.entry.id, (reachable_closings hb thread c hc).registered,
      reachable_closings_sought hb thread c hc hm⟩

/-- Without a shutdown, and with ids of their own, sessions are cancelled by requests for them. -/
theorem Sought.own (hd : DistinctIds b.state.history)
    (hdrop : b.drop = .undropped) (hhandle : HandleOf b.state.history id key)
    (hs : Sought b.state.history b.drop id key) :
    .flagged key ∈ b.state.history ∨ ∃ n taken, .took (.cancel n) taken ∈ b.state.history ∧ taken.key = key := by
  refine hs.imp_left ?_
  rintro (hdropped | ⟨target, htarget, hid, hflagged⟩)
  · exact absurd hdrop hdropped
  · obtain ⟨origin, horigin, hown, rfl⟩ := hhandle
    rw [← hd.key_eq htarget horigin (hid.trans hown.symm)]
    exact hflagged

/-- No session is told that it was cancelled unless somebody asked for it: whoever reuses
ids is answerable for the sessions of the same id, and for no others. -/
theorem cancelled_only_if_sought (h : Reachable (system config) b) {message : Message}
    (hsent : .sent key message ∈ b.state.history) (hm : message.isCancellation = true) :
    (∃ id, HandleOf b.state.history id key ∧ Sought b.state.history b.drop id key) ∧
      (DistinctIds b.state.history → b.drop = .undropped → .flagged key ∈ b.state.history ∨
        ∃ n taken, .took (.cancel n) taken ∈ b.state.history ∧ taken.key = key) := by
  obtain ⟨id, hhandle, hsought⟩ := reachable_sent_sought h key message hsent hm
  exact ⟨⟨id, hhandle, hsought⟩, fun hd hdrop => hsought.own hd hdrop hhandle⟩

end Scope

def cancelledWhileQueued : List Act := submission 0 1 false .read ++ ([.call (.cancel 1)] : List Act) ++
  List.replicate 3 (.proceed 1) ++ List.replicate 4 .worker

theorem cancelled_in_queue_sought : ∃ b : ActionBroker, .sent 0 (.outcome .cancelled) ∈ b.state.history ∧
    (.flagged 0 ∈ b.state.history ∨
      ∃ n taken, .took (.cancel n) taken ∈ b.state.history ∧ taken.key = 0) := by
  obtain ⟨b, hb, hsent, hd, hdrop⟩ := (system sampleConfig).reachable_of_replay
    (fun b => .sent 0 (.outcome .cancelled) ∈ b.state.history ∧ DistinctIds b.state.history ∧
      b.drop = .undropped) cancelledWhileQueued (by decide)
  exact ⟨b, hsent, (cancelled_only_if_sought hb hsent rfl).2 hd hdrop⟩

end FerrousRuntime.Broker
