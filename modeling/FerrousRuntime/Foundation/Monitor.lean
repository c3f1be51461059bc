import Mathlib.Logic.Function.Basic
import FerrousRuntime.Foundation.Transition

/-! # Monitors with a condition variable

Calls run one at a time under a lock. Some of them first wait, up to a deadline, for a
condition on what the lock guards; a call that may have brought the condition about wakes
every sleeper, but only after it has let go of the lock. In between the other threads run.
-/
namespace FerrousRuntime.Monitor
open Transition
variable {σ κ ρ : Type*}

/-- What a lock guards: the effect and the reply of each call, the condition, the calls that
wait for it and those that notify. -/
structure Guarded (σ κ ρ : Type*) where
  reply : σ → κ → ρ
  call : σ → κ → σ
  ready : σ → Bool
  waits : κ → Bool
  notifies : σ → κ → Bool

inductive Thread (κ : Type*)
  | outside
  /-- On the condition variable, the lock released. -/
  | asleep (made : κ)
  /-- Off the condition variable, and not back in the lock yet. -/
  | woken (made : κ)
  /-- Out of the lock, its notification still to come. -/
  | notifying
deriving DecidableEq, Repr

/-- A call that came back. Only the wait loop of a call that waits looks at its deadline. -/
structure Served (κ ρ : Type*) where
  made : κ
  reply : ρ
  elapsed : Bool
deriving DecidableEq, Repr

/-- Threads are numbered; what came back is listed in the order of the critical sections. -/
structure State (σ κ ρ : Type*) where
  guarded : σ
  threads : ℕ → Thread κ
  served : List (Served κ ρ)

inductive Act (κ : Type*)
  | enter (thread : ℕ) (made : κ) (elapsed : Bool)
  /-- A sleeper wakes up with nobody's help: at its deadline, or for no reason. -/
  | wake (thread : ℕ)
  | resume (thread : ℕ) (elapsed : Bool)
  | notify (thread : ℕ)

def Thread.roused : Thread κ → Thread κ
  | .asleep made => .woken made
  | thread => thread

def Thread.call : Thread κ → Option κ
  | .asleep made | .woken made => some made
  | .outside | .notifying => none

theorem Thread.call_roused (thread : Thread κ) : thread.roused.call = thread.call := by
  cases thread <;> rfl

namespace State

def moved (s : State σ κ ρ) (thread : ℕ) (next : Thread κ) : State σ κ ρ :=
  { s with threads := Function.update s.threads thread next }

def roused (s : State σ κ ρ) : State σ κ ρ := { s with threads := fun thread => (s.threads thread).roused }

def serving (s : State σ κ ρ) (made : κ) (reply : ρ) (elapsed : Bool) (after : σ) : State σ κ ρ :=
  { s with guarded := after, served := s.served ++ [⟨made, reply, elapsed⟩] }

theorem moved_self (s : State σ κ ρ) (thread : ℕ) (next : Thread κ) :
    (s.moved thread next).threads thread = next := by simp [moved]

theorem moved_of_ne (s : State σ κ ρ) {thread other : ℕ} (next : Thread κ) (h : other ≠ thread) :
    (s.moved thread next).threads other = s.threads other := by simp [moved, h]

theorem call_of_moved {s : State σ κ ρ} {thread other : ℕ} {next : Thread κ} {made : κ}
    (h : ((s.moved thread next).threads other).call = some made) :
    next.call = some made ∨ (s.threads other).call = some made := by
  by_cases hne : other = thread
  · subst hne
    rw [s.moved_self] at h
    exact Or.inl h
  · rw [s.moved_of_ne next hne] at h
    exact Or.inr h

theorem roused_not_asleep (s : State σ κ ρ) (thread : ℕ) (made : κ) :
    s.roused.threads thread ≠ .asleep made := by
  change (s.threads thread).roused ≠ .asleep made
  cases s.threads thread <;> simp [Thread.roused]

end State

namespace Guarded
variable (o : Guarded σ κ ρ)

/-- One turn in the lock: the wait loop looks at the condition first, at the deadline second. -/
def turn (s : State σ κ ρ) (thread : ℕ) (made : κ) (elapsed : Bool) : State σ κ ρ :=
  if o.waits made && !o.ready s.guarded && !elapsed then s.moved thread (.asleep made)
  else
    (s.serving made (o.reply s.guarded made) elapsed (o.call s.guarded made)).moved thread
      (if o.notifies s.guarded made then .notifying else .outside)

def step (s : State σ κ ρ) : Act κ → Option (State σ κ ρ)
  | .enter thread made elapsed => match s.threads thread with
    | .outside => some (o.turn s thread made elapsed)
    | _ => none
  | .wake thread => match s.threads thread with
    | .asleep made => some (s.moved thread (.woken made))
    | _ => none
  | .resume thread elapsed => match s.threads thread with
    | .woken made => some (o.turn s thread made elapsed)
    | _ => none
  | .notify thread => match s.threads thread with
    | .notifying => some (s.moved thread .outside).roused
    | _ => none

def monitor (init : σ) : System (State σ κ ρ) (Act κ) where
  init := ⟨init, fun _ => .outside, []⟩
  step := o.step

def replies (o : Guarded σ κ ρ) : σ → List κ → List ρ
  | _, [] => []
  | s, made :: rest => o.reply s made :: o.replies (o.call s made) rest

def Announces : Prop :=
  ∀ s made, o.ready s = false → o.ready (o.call s made) = true → o.notifies s made = true

variable {o} {s t : State σ κ ρ} {init : σ}

theorem turn_cases (s : State σ κ ρ) (thread : ℕ) (made : κ) (elapsed : Bool) :
    (o.waits made = true ∧ o.ready s.guarded = false ∧ elapsed = false ∧
      o.turn s thread made elapsed = s.moved thread (.asleep made)) ∨
    ((o.waits made = true → o.ready s.guarded = true ∨ elapsed = true) ∧
      o.turn s thread made elapsed =
        (s.serving made (o.reply s.guarded made) elapsed (o.call s.guarded made)).moved thread
          (if o.notifies s.guarded made then .notifying else .outside)) := by
  unfold turn
  split
  · rename_i h
    simp only [Bool.and_eq_true, Bool.not_eq_true'] at h
    exact Or.inl ⟨h.1.1, h.1.2, h.2, rfl⟩
  · rename_i h
    refine Or.inr ⟨?_, rfl⟩
    intro hw
    by_contra hne
    push Not at hne
    exact h (by simp [hw, hne.1, hne.2])

theorem step_cases {a : Act κ} (h : o.step s a = some t) :
    (∃ thread made elapsed, (s.threads thread = .outside ∨ s.threads thread = .woken made) ∧
      t = o.turn s thread made elapsed) ∨
    (∃ thread made, s.threads thread = .asleep made ∧ t = s.moved thread (.woken made)) ∨
    (t.guarded = s.guarded ∧ t.served = s.served ∧ (∀ thread made, t.threads thread ≠ .asleep made) ∧
      ∀ thread made, (t.threads thread).call = some made → (s.threads thread).call = some made) := by
  cases a with
  | enter thread made elapsed =>
    simp only [step] at h
    split at h <;> cases h
    rename_i hpc
    exact Or.inl ⟨thread, made, elapsed, Or.inl hpc, rfl⟩
  | wake thread =>
    simp only [step] at h
    split at h <;> cases h
    rename_i made hpc
    exact Or.inr (Or.inl ⟨thread, made, hpc, rfl⟩)
  | resume thread elapsed =>
    simp only [step] at h
    split at h <;> cases h
    rename_i made hpc
    exact Or.inl ⟨thread, made, elapsed, Or.inr hpc, rfl⟩
  | notify thread =>
    simp only [step] at h
    split at h <;> cases h
    refine Or.inr (Or.inr ⟨rfl, rfl, (s.moved thread .outside).roused_not_asleep, ?_⟩)
    intro other made hcall
    change ((s.moved thread .outside).threads other).roused.call = some made at hcall
    rw [Thread.call_roused] at hcall
    rcases State.call_of_moved hcall with hcall | hcall
    · cases hcall
    · exact hcall

theorem step_served {a : Act κ} (h : o.step s a = some t) :
    (t.guarded = s.guarded ∧ t.served = s.served) ∨
      ∃ made elapsed, (o.waits made = true → o.ready s.guarded = true ∨ elapsed = true) ∧
        t.guarded = o.call s.guarded made ∧
        t.served = s.served ++ [⟨made, o.reply s.guarded made, elapsed⟩] := by
  rcases step_cases h with ⟨thread, made, elapsed, -, rfl⟩ | ⟨thread, made, -, rfl⟩ | ⟨hg, hs, -, -⟩
  · rcases turn_cases (o := o) s thread made elapsed with ⟨-, -, -, ht⟩ | ⟨hready, ht⟩
    · rw [ht]
      exact Or.inl ⟨rfl, rfl⟩
    · rw [ht]
      exact Or.inr ⟨made, elapsed, hready, rfl, rfl⟩
  · exact Or.inl ⟨rfl, rfl⟩
  · exact Or.inl ⟨hg, hs⟩

theorem replies_append (before after : List κ) (s : σ) :
    o.replies s (before ++ after) = o.replies s before ++ o.replies (before.foldl o.call s) after := by
  induction before generalizing s with
  | nil => rfl
  | cons made before ih => exact congrArg (o.reply s made :: ·) (ih (o.call s made))

/-- The waiting is invisible: what came back is what the calls give one after another, in the
order of their critical sections. -/
theorem atomic_of_reachable (h : Reachable (o.monitor init) s) :
    s.served.map Served.reply = o.replies init (s.served.map Served.made) ∧
      s.guarded = (s.served.map Served.made).foldl o.call init := by
  refine h.invariant (P := fun s => s.served.map Served.reply = o.replies init (s.served.map Served.made) ∧
      s.guarded = (s.served.map Served.made).foldl o.call init) ?_ ⟨rfl, rfl⟩
  intro s a t he ih
  rcases step_served he with ⟨hg, hs⟩ | ⟨made, elapsed, -, hg, hs⟩
  · rw [hg, hs]
    exact ih
  · rw [hg, hs, List.map_append, List.map_append, replies_append, ← ih.1, List.foldl_append, ← ih.2]
    exact ⟨rfl, rfl⟩

theorem waits_of_reachable (h : Reachable (o.monitor init) s) {thread : ℕ} {made : κ}
    (hcall : (s.threads thread).call = some made) : o.waits made = true := by
  refine h.invariant (P := fun s => ∀ thread made, (s.threads thread).call = some made → o.waits made = true)
    ?_ (fun _ _ hnone => nomatch hnone) thread made hcall
  intro s a t he ih other made hcall
  rcases step_cases he with ⟨thread, making, elapsed, -, rfl⟩ | ⟨thread, making, hpc, rfl⟩ | ⟨-, -, -, hkept⟩
  · rcases turn_cases (o := o) s thread making elapsed with ⟨hwaits, -, -, ht⟩ | ⟨-, ht⟩
    · rw [ht] at hcall
      rcases State.call_of_moved hcall with hcall | hcall
      · cases hcall
        exact hwaits
      · exact ih other made hcall
    · rw [ht] at hcall
      rcases State.call_of_moved hcall with hcall | hcall
      · split at hcall <;> cases hcall
      · exact ih other made hcall
  · rcases State.call_of_moved hcall with hcall | hcall
    · cases hcall
      exact ih thread made (congrArg Thread.call hpc)
    · exact ih other made hcall
  · exact ih other made (hkept other made hcall)

/-- While the condition holds, no thread sleeps without a notification to come. -/
def Alert (o : Guarded σ κ ρ) (s : State σ κ ρ) : Prop :=
  o.ready s.guarded = true → ∀ thread made, s.threads thread = .asleep made →
    ∃ other, s.threads other = .notifying

theorem Alert.moved {thread : ℕ} {next : Thread κ} (h : o.Alert s) (hnext : ∀ made, next ≠ .asleep made)
    (hpc : s.threads thread ≠ .notifying) : o.Alert (s.moved thread next) := by
  intro hready sleeper made hsleeps
  have hne : sleeper ≠ thread := by
    rintro rfl
    rw [s.moved_self] at hsleeps
    exact hnext made hsleeps
  rw [s.moved_of_ne next hne] at hsleeps
  obtain ⟨other, hother⟩ := h hready sleeper made hsleeps
  refine ⟨other, ?_⟩
  rw [s.moved_of_ne next (by rintro rfl; exact hpc hother)]
  exact hother

theorem Alert.turn {thread : ℕ} {made : κ} (h : o.Alert s) (ho : o.Announces) (elapsed : Bool)
    (hpc : s.threads thread ≠ .notifying) : o.Alert (o.turn s thread made elapsed) := by
  rcases turn_cases (o := o) s thread made elapsed with ⟨-, hready, -, ht⟩ | ⟨-, ht⟩
  · rw [ht]
    intro hholds
    exact absurd (hready.symm.trans hholds) Bool.false_ne_true
  · rw [ht]
    by_cases hnotifies : o.notifies s.guarded made = true
    · intro _ _ _ _
      exact ⟨thread, by rw [State.moved_self, if_pos hnotifies]⟩
    · rw [if_neg hnotifies]
      refine Alert.moved (s := s.serving made _ elapsed _) ?_ (fun _ => nofun) hpc
      intro hready sleeper sleeping hsleeps
      cases hbefore : o.ready s.guarded with
      | true => exact h hbefore sleeper sleeping hsleeps
      | false => exact absurd (ho _ _ hbefore hready) hnotifies

/-- No wake-up is lost. -/
theorem alert_of_reachable (ho : o.Announces) (h : Reachable (o.monitor init) s) : o.Alert s := by
  refine h.invariant ?_ (fun _ _ _ hsleeps => nomatch hsleeps)
  intro s a t he ih
  rcases step_cases he with ⟨thread, made, elapsed, hpc, rfl⟩ | ⟨thread, made, hpc, rfl⟩ | ⟨-, -, hnone, -⟩
  · refine ih.turn ho elapsed ?_
    rcases hpc with hpc | hpc <;> rw [hpc] <;> nofun
  · refine ih.moved (fun _ => nofun) ?_
    rw [hpc]
    nofun
  · intro _ thread made hsleeps
    exact absurd hsleeps (hnone thread made)

/-- Once the condition holds, a sleeper is served by the notification to come and its own next
turn, however much is left of its time. -/
theorem sleeper_served (ho : o.Announces) (h : Reachable (o.monitor init) s) {thread : ℕ} {made : κ}
    (hsleeps : s.threads thread = .asleep made) (hready : o.ready s.guarded = true) :
    ∃ other t u, o.step s (.notify other) = some t ∧ o.step t (.resume thread false) = some u ∧
      u.served = s.served ++ [⟨made, o.reply s.guarded made, false⟩] := by
  obtain ⟨other, hother⟩ := alert_of_reachable ho h hready thread made hsleeps
  have hne : thread ≠ other := by
    rintro rfl
    cases hsleeps.symm.trans hother
  have hwoken : (s.moved other .outside).roused.threads thread = .woken made := by
    change ((s.moved other .outside).threads thread).roused = .woken made
    rw [s.moved_of_ne .outside hne, hsleeps]
    rfl
  refine ⟨other, (s.moved other .outside).roused, o.turn (s.moved other .outside).roused thread made false,
    ?_, ?_, ?_⟩
  · simp only [step, hother]
  · simp only [step, hwoken]
  · rcases turn_cases (o := o) (s.moved other .outside).roused thread made false with
      ⟨-, hunready, -, -⟩ | ⟨-, ht⟩
    · exact absurd (hunready.symm.trans hready) Bool.false_ne_true
    · rw [ht]
      rfl

end Guarded

end FerrousRuntime.Monitor
