import FerrousRuntime.Broker.Inversion

/-! # Channels keep their messages in order

What was sent on a channel was received, waits in it, or was sent after its receiver was
gone, in this order.
-/
namespace FerrousRuntime.Broker
open Transition FerrousRuntime.Runtime

def Event.sentTo (k : ℕ) : Event → Option Message
  | .sent key message => if key = k then some message else none
  | _ => none

def Event.receivedFrom (k : ℕ) : Event → Option Message
  | .received key message => if key = k then some message else none
  | _ => none

abbrev sentOn (k : ℕ) (history : List Event) : List Message := transcript (Event.sentTo k) history

abbrev receivedOn (k : ℕ) (history : List Event) : List Message := transcript (Event.receivedFrom k) history

theorem mem_sentOn {k : ℕ} {message : Message} {history : List Event} (h : message ∈ sentOn k history) :
    .sent k message ∈ history := by
  obtain ⟨event, hin, hevent⟩ := List.mem_filterMap.mp (List.mem_reverse.mp h)
  cases event with
  | sent key sent =>
    simp only [Event.sentTo, Option.ite_none_right_eq_some, Option.some.injEq] at hevent
    obtain ⟨rfl, rfl⟩ := hevent
    exact hin
  | _ => cases hevent

theorem sentOn_split {k : ℕ} {history : List Event} {before after : List Message} {message : Message}
    (h : sentOn k history = before ++ message :: after) :
    ∃ later past, history = later ++ .sent k message :: past ∧ sentOn k past = before := by
  have hreversed : history.filterMap (Event.sentTo k) = after.reverse ++ message :: before.reverse := by
    rw [List.reverse_eq_iff.mp h]
    simp
  obtain ⟨recent, rest, rfl, -, hrest⟩ := List.filterMap_eq_append_iff.mp hreversed
  obtain ⟨skipped, event, past, rfl, -, hevent, hpast⟩ := List.filterMap_eq_cons_iff.mp hrest
  refine ⟨recent ++ skipped, past, ?_, by rw [sentOn, transcript, hpast, List.reverse_reverse]⟩
  cases event with
  | sent key sent =>
    simp only [Event.sentTo, Option.ite_none_right_eq_some, Option.some.injEq] at hevent
    obtain ⟨rfl, rfl⟩ := hevent
    rw [List.append_assoc]
  | _ => cases hevent

/-- Each channel holds what was sent on it and not received, up to what was lost with its
receiver. -/
def BrokerState.InTransit (s : BrokerState) : Prop :=
  ∀ k, ∃ lost, sentOn k s.history = receivedOn k s.history ++ (s.channels k).messages ++ lost ∧
    (lost = [] ∨ k ∈ s.dropped)

namespace BrokerState.InTransit
variable {s : BrokerState}

theorem send (h : s.InTransit) (key : ℕ) (message : Message) : (s.send key message).InTransit := by
  intro k
  obtain ⟨lost, hsent, hlost⟩ := h k
  simp only [BrokerState.send, transcript_cons, Event.sentTo, Event.receivedFrom, Option.toList_none,
    List.append_nil]
  by_cases hk : key = k
  · subst hk
    by_cases hdropped : key ∈ s.dropped
    · refine ⟨lost ++ [message], ?_, Or.inr hdropped⟩
      simp [hdropped, hsent]
    · obtain rfl := hlost.resolve_right hdropped
      refine ⟨[], ?_, Or.inl rfl⟩
      simp [hdropped, hsent]
  · refine ⟨lost, ?_, hlost⟩
    simp [hk, Function.update_of_ne (Ne.symm hk), hsent]

theorem frame {t : BrokerState} (h : s.InTransit) (hsent : ∀ k, sentOn k t.history = sentOn k s.history)
    (hreceived : ∀ k, receivedOn k t.history = receivedOn k s.history)
    (hmessages : ∀ k, (t.channels k).messages = (s.channels k).messages)
    (hdropped : s.dropped ⊆ t.dropped) : t.InTransit := by
  intro k
  obtain ⟨lost, hsame, hlost⟩ := h k
  refine ⟨lost, ?_, hlost.imp_right (fun hk => hdropped hk)⟩
  rw [hsent, hreceived, hmessages]
  exact hsame

end BrokerState.InTransit

section Threads
variable {config : Config} {s : BrokerState}

theorem Closing.step_inTransit (closing : Closing) (h : s.InTransit) : (closing.step s).1.InTransit := by
  unfold Closing.step
  split
  · exact h.send _ _
  · exact h.frame (fun k => by simp [BrokerState.record, transcript_cons, Event.sentTo])
      (fun k => by simp [BrokerState.record, transcript_cons, Event.receivedFrom])
      (fun _ => rfl) (List.Subset.refl _)
  · exact h

theorem callStep_inTransit {n : ℕ} {pc : CallPc} {next : BrokerState × CallPc} (h : s.InTransit)
    (he : callStep config n s pc = some next) : next.1.InTransit := by
  cases callStep_cases he with
  | enqueued job =>
    refine h.frame (fun _ => rfl) (fun _ => rfl) (fun k => ?_) (List.Subset.refl _)
    by_cases hk : k = job.key
    · subst hk
      simp
    · simp [Function.update_of_ne hk]
  | closing c _ _ hs | closed c _ hs =>
    have hc := c.step_inTransit h
    rw [hs] at hc
    exact hc
  | _ => exact h

theorem workerStep_inTransit {pc : WorkerPc} {next : BrokerState × WorkerPc} (h : s.InTransit)
    (he : workerStep config s pc = some next) : next.1.InTransit := by
  cases workerStep_cases he with
  | denied | notified | unnotified => exact h.send _ _
  | started job cell => exact h.send job.key (.event .started)
  | closing c _ _ hs | closed c _ hs =>
    have hc := c.step_inTransit h
    rw [hs] at hc
    exact hc
  | parked job deadline reason => cases hl : s.pending.lookup job.id <;> exact h
  | _ => exact h

theorem sweeperStep_inTransit {order : List ℕ} {pc : SweeperPc} {next : BrokerState × SweeperPc}
    (h : s.InTransit) (he : sweeperStep s order pc = some next) : next.1.InTransit := by
  cases sweeperStep_cases he with
  | closing c _ _ _ hs | closed c _ _ hs =>
    have hc := c.step_inTransit h
    rw [hs] at hc
    exact hc
  | _ => exact h

theorem emit_inTransit {key : ℕ} {event : Option Command.SessionEvent} (h : s.InTransit) :
    (s.emit key event).InTransit := by
  cases event with
  | none => exact h
  | some event => exact h.send key (.event event)

theorem receiverStep_inTransit {key : ℕ} {drops : Bool} {next : BrokerState} (h : s.InTransit)
    (he : receiverStep s key drops = some next) : next.InTransit := by
  cases receiverStep_cases he with
  | dropped =>
    exact h.frame (fun _ => rfl) (fun _ => rfl) (fun _ => rfl) (List.subset_cons_self _ _)
  | received message rest hm =>
    intro k
    obtain ⟨lost, hsent, hlost⟩ := h k
    refine ⟨lost, ?_, hlost⟩
    simp only [transcript_cons, Event.sentTo, Event.receivedFrom, Option.toList_none, List.append_nil]
    by_cases hk : key = k
    · subst hk
      simp [hsent, hm]
    · simp [hk, Function.update_of_ne (Ne.symm hk), hsent]

theorem enter_inTransit (request : Request) (h : s.InTransit) : (enter s request).1.InTransit := by
  have hn := enter_cases s request
  generalize enter s request = next at hn ⊢
  cases hn with
  | _ => exact h

end Threads

section Runs
variable {config : Config} {b t : ActionBroker} {act : Act}

theorem step_inTransit (he : step config b act = some t) (h : b.state.InTransit) : t.state.InTransit := by
  apply step_elim (P := fun t => t.state.InTransit) he
  case call => exact fun request _ => enter_inTransit request h
  case proceed => exact fun n pc next _ _ hn => callStep_inTransit h hn
  case worker => exact fun next _ hn => workerStep_inTransit h hn
  case runtime =>
    intro a next _ hn
    obtain ⟨job, cell, run, effect, -, -, rfl⟩ := runtimeStep_cases hn
    exact emit_inTransit h
  case unwind =>
    intro next _ hn
    obtain ⟨job, cell, run, -, -, rfl⟩ := unwindStep_cases hn
    exact h
  case stray =>
    intro index elapsed stray next _ _ hn
    obtain ⟨effect, -, rfl⟩ := Option.map_eq_some_iff.mp hn
    exact emit_inTransit h
  case sweeper => exact fun order next _ hn => sweeperStep_inTransit h hn
  case receiver => exact fun key drops next hn => receiverStep_inTransit h hn
  case tick => exact fun _ => h
  case drop => exact fun _ _ => h
  case dropping =>
    intro next hn
    cases dropStep_cases hn <;> exact h

theorem reachable_inTransit (h : Reachable (system config) b) : b.state.InTransit := by
  refine Reachable.invariant (P := fun b : ActionBroker => b.state.InTransit)
    (fun _ _ _ he hs => step_inTransit he hs) h ?_
  exact fun k => ⟨[], rfl, Or.inl rfl⟩

/-- A caller receives what was sent to it, in order. -/
theorem received_prefix (h : Reachable (system config) b) (k : ℕ) :
    receivedOn k b.state.history <+: sentOn k b.state.history := by
  obtain ⟨lost, hsent, -⟩ := reachable_inTransit h k
  exact ⟨(b.state.channels k).messages ++ lost, by rw [hsent, List.append_assoc]⟩

end Runs

end FerrousRuntime.Broker
