import FerrousRuntime.Foundation.Monitor
import FerrousRuntime.Runtime.SharedPipe

/-! # The wait of a shared pipe

`wait_and_drain` sleeps until there is something to read, and the other calls wake it after
they have let go of the pipe. Under any number of threads this comes to the pipe whose calls
are single steps.
-/
namespace FerrousRuntime.Pipe
open Transition Monitor

def guardedPipe : Guarded StreamOutputPipe PipeCall PipeReply where
  reply := StreamOutputPipe.reply
  call := StreamOutputPipe.call
  ready pipe := !(pipe.state.readPos == pipe.state.buffer.length && !pipe.state.eof)
  waits made := made == .waitAndDrain
  -- A refused write returns before it notifies.
  notifies pipe made := match made with
    | .write _ | .pollWrite _ => !(pipe.reply made).failed
    | .pollShutdown | .setEof | .close => true
    | .checkWrite | .flush | .pollFlush | .waitAndDrain | .contents => false

abbrev Threaded := State StreamOutputPipe PipeCall PipeReply

def threadedPipe (capacity : ℕ) : System Threaded (Act PipeCall) := guardedPipe.monitor (.new capacity)

namespace StreamOutputPipe
variable {pipe : StreamOutputPipe} {made : PipeCall}

theorem ready_eq_false : guardedPipe.ready pipe = false ↔
    pipe.state.readPos = pipe.state.buffer.length ∧ pipe.state.eof = false := by
  simp [guardedPipe]

def pending (pipe : StreamOutputPipe) : List UInt8 := pipe.state.buffer.drop pipe.state.readPos

theorem ready_of_pending (h : pipe.pending ≠ [] ∨ pipe.state.eof = true) : guardedPipe.ready pipe = true := by
  by_contra hnot
  obtain ⟨hread, heof⟩ := ready_eq_false.mp (Bool.eq_false_iff.mpr hnot)
  rcases h with hpending | hend
  · exact hpending (by rw [pending, hread, List.drop_length])
  · exact absurd (heof.symm.trans hend) Bool.false_ne_true

theorem reply_empty (h : pipe.reply made = .drained [] false) :
    made = .waitAndDrain ∧ pipe.state.buffer.length ≤ pipe.state.readPos ∧ pipe.state.eof = false := by
  cases made with
  | waitAndDrain =>
    have hbytes : pipe.pending = [] ∧ pipe.state.eof = false := by simpa [reply, waitAndDrain, pending] using h
    exact ⟨rfl, List.drop_eq_nil_iff.mp hbytes.1, hbytes.2⟩
  | _ => cases h

theorem announces : guardedPipe.Announces := by
  intro pipe made hbefore hafter
  cases made with
  | write bytes =>
    cases hfailed : (pipe.reply (.write bytes)).failed with
    | true =>
      change guardedPipe.ready (pipe.call (.write bytes)) = true at hafter
      rw [call_of_failed hfailed, hbefore] at hafter
      cases hafter
    | false => simp [guardedPipe, hfailed]
  | pollWrite buf =>
    cases hfailed : (pipe.reply (.pollWrite buf)).failed with
    | true =>
      change guardedPipe.ready (pipe.call (.pollWrite buf)) = true at hafter
      rw [call_of_failed hfailed, hbefore] at hafter
      cases hafter
    | false => simp [guardedPipe, hfailed]
  | waitAndDrain =>
    have hdrained : guardedPipe.ready (pipe.call .waitAndDrain) = false :=
      ready_eq_false.mpr ⟨rfl, (ready_eq_false.mp hbefore).2⟩
    exact absurd (hdrained.symm.trans hafter) Bool.false_ne_true
  | checkWrite | flush | pollFlush | contents =>
    exact absurd (hbefore.symm.trans hafter) Bool.false_ne_true
  | pollShutdown | setEof | close => rfl

end StreamOutputPipe

namespace Threaded
variable {capacity : ℕ} {s t : Threaded}

def chunks (s : Threaded) : List (List UInt8) := s.served.flatMap fun call => call.reply.chunks

/-- Each step is at most one step of the pipe whose calls are single steps. -/
theorem shared_of_reachable (h : Reachable (threadedPipe capacity) s) :
    ∃ shared, Reachable (cloneSystem capacity) shared ∧ shared.pipe = s.guarded ∧ shared.drained = s.chunks := by
  have hlifted : ∃ shared, Runs (cloneSystem capacity) Free (.new capacity) shared ∧
      shared.pipe = s.guarded ∧ shared.drained = s.chunks ∧ 0 < shared.clones := by
    refine Runs.lift (R := fun (s : Threaded) (shared : SharedPipe) =>
      shared.pipe = s.guarded ∧ shared.drained = s.chunks ∧ 0 < shared.clones) ?_ h ⟨rfl, rfl, Nat.one_pos⟩
    rintro s a s' shared - he ⟨hpipe, hdrained, hclones⟩
    rcases Guarded.step_served he with ⟨hg, hserved⟩ | ⟨made, elapsed, -, hg, hserved⟩
    · exact ⟨shared, .refl shared, by rw [hg]; exact hpipe, by rw [chunks, hserved]; exact hdrained, hclones⟩
    · refine ⟨_, (Runs.refl shared).step (a := .call 0 made) trivial (if_pos hclones), ?_, ?_, hclones⟩
      · rw [hg, hpipe]
        rfl
      · rw [chunks, hserved, List.flatMap_append, ← chunks, ← hdrained, hpipe]
        simp [guardedPipe]
  obtain ⟨shared, hruns, hpipe, hdrained, -⟩ := hlifted
  exact ⟨shared, hruns, hpipe, hdrained⟩

theorem wellFormed_of_reachable (h : Reachable (threadedPipe capacity) s) : s.guarded.WellFormed := by
  obtain ⟨shared, hshared, hpipe, -⟩ := shared_of_reachable h
  exact hpipe ▸ (SharedPipe.accounted_of_reachable hshared).wellFormed

theorem elapsed_of_empty (h : Reachable (threadedPipe capacity) s) {call : Served PipeCall PipeReply}
    (hcall : call ∈ s.served) (hempty : call.reply = .drained [] false) : call.elapsed = true := by
  refine h.invariant_of_reachable
    (P := fun s => ∀ call ∈ s.served, call.reply = .drained [] false → call.elapsed = true)
    ?_ (.refl _) (by simp [threadedPipe, Guarded.monitor]) call hcall hempty
  intro s a t hs _ he ih call hcall hempty
  rcases Guarded.step_served he with ⟨-, hserved⟩ | ⟨made, elapsed, hready, -, hserved⟩
  · rw [hserved] at hcall
    exact ih call hcall hempty
  · rw [hserved] at hcall
    rcases List.mem_append.mp hcall with hcall | hcall
    · exact ih call hcall hempty
    · obtain rfl := List.mem_singleton.mp hcall
      obtain ⟨rfl, hunread, heof⟩ := StreamOutputPipe.reply_empty hempty
      have hunready : guardedPipe.ready s.guarded = false :=
        StreamOutputPipe.ready_eq_false.mpr ⟨le_antisymm (wellFormed_of_reachable hs).read hunread, heof⟩
      rcases hready rfl with hready | helapsed
      · exact absurd (hunready.symm.trans hready) Bool.false_ne_true
      · exact helapsed

/-- What the threads that share a pipe can rely on. -/
structure Attentive (capacity : ℕ) (s : Threaded) : Prop where
  /-- The replies are those of single steps, in the order of the critical sections. -/
  atomic : s.served.map Served.reply = guardedPipe.replies (.new capacity) (s.served.map Served.made)
  /-- Between them the readers have what lies before the read position, each byte once. -/
  delivered : s.chunks.flatten = s.guarded.state.buffer.take s.guarded.state.readPos
  elapsed : ∀ call ∈ s.served, call.reply = .drained [] false → call.elapsed = true
  /-- A reader that sleeps beside something to read gets all of it by one notification, which
  is due already, and its own next turn. -/
  woken : ∀ thread made, s.threads thread = .asleep made → s.guarded.pending ≠ [] ∨ s.guarded.state.eof = true →
    ∃ other t u, guardedPipe.step s (.notify other) = some t ∧
      guardedPipe.step t (.resume thread false) = some u ∧
      u.served = s.served ++ [⟨.waitAndDrain, .drained s.guarded.pending s.guarded.state.eof, false⟩]

/-- However many threads write, read, close and end a pipe, the waiting shows in nothing but
time, and no reader sleeps through what it waits for. -/
theorem readers_are_woken {capacity : ℕ} {s : Threaded} (h : Reachable (threadedPipe capacity) s) :
    Attentive capacity s where
  atomic := (Guarded.atomic_of_reachable h).1
  delivered := by
    obtain ⟨shared, hshared, hpipe, hdrained⟩ := shared_of_reachable h
    rw [← hdrained, ← hpipe]
    exact (SharedPipe.accounted_of_reachable hshared).drained
  elapsed _ hcall hempty := elapsed_of_empty h hcall hempty
  woken thread made hsleeps hpending := by
    have hmade : made = .waitAndDrain := by
      simpa [guardedPipe] using Guarded.waits_of_reachable h (congrArg Thread.call hsleeps)
    subst hmade
    exact Guarded.sleeper_served StreamOutputPipe.announces h hsleeps (StreamOutputPipe.ready_of_pending hpending)

theorem readers_are_woken_of_two : ∃ s, Reachable (threadedPipe 4) s ∧
    s.threads 1 = .asleep .waitAndDrain ∧ s.threads 2 = .asleep .waitAndDrain ∧ s.guarded.pending = [104, 105] ∧
    Attentive 4 s := by
  obtain ⟨s, hs, hfirst, hsecond, hpending⟩ := (threadedPipe 4).reachable_of_replay
    (fun s => s.threads 1 = .asleep .waitAndDrain ∧ s.threads 2 = .asleep .waitAndDrain ∧
      s.guarded.pending = [104, 105])
    [.enter 1 .waitAndDrain false, .enter 2 .waitAndDrain false, .wake 1, .resume 1 false,
      .enter 0 (.write [104, 105]) false]
    (by decide)
  exact ⟨s, hs, hfirst, hsecond, hpending, readers_are_woken hs⟩

end Threaded

end FerrousRuntime.Pipe
