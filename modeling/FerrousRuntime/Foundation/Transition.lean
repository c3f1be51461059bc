import Mathlib.Data.List.Basic
import Mathlib.Logic.Relation

/-! # Partial transition systems and guarded runs

A system is an initial state with a partial step function. Runs carry a guard on
the steps they take, so "every run" and "every run whose steps satisfy a guard"
are one notion. Histories are kept latest entry first, which makes "justified by
what happened earlier" a structural recursion.
-/
namespace FerrousRuntime.Transition
variable {σ α ε : Type*}

structure System (σ α : Type*) where
  init : σ
  step : σ → α → Option σ

/-- Finite runs all of whose steps satisfy the guard. -/
inductive Runs (sys : System σ α) (ok : σ → α → Prop) : σ → σ → Prop
  | refl (s : σ) : Runs sys ok s s
  | step {s t u : σ} {a : α} : Runs sys ok s t → ok t a → sys.step t a = some u → Runs sys ok s u

def Free (_ : σ) (_ : α) : Prop := True

instance (s : σ) (a : α) : Decidable (Free s a) := inferInstanceAs (Decidable True)

def Reachable (sys : System σ α) (s : σ) : Prop := Runs sys Free sys.init s

theorem Runs.trans {sys : System σ α} {ok : σ → α → Prop} {s t u : σ}
    (h : Runs sys ok s t) (h' : Runs sys ok t u) : Runs sys ok s u := by
  induction h' with
  | refl => exact h
  | step _ ha he ih => exact ih.step ha he

theorem Runs.mono {sys : System σ α} {ok ok' : σ → α → Prop} {s t : σ}
    (h : Runs sys ok s t) (hok : ∀ s a, ok s a → ok' s a) : Runs sys ok' s t := by
  induction h with
  | refl => exact .refl _
  | step _ ha he ih => exact ih.step (hok _ _ ha) he

theorem Runs.free {sys : System σ α} {ok : σ → α → Prop} {s t : σ}
    (h : Runs sys ok s t) : Runs sys Free s t := h.mono (fun _ _ _ => trivial)

theorem Reachable.runs {sys : System σ α} {ok : σ → α → Prop} {s t : σ}
    (h : Reachable sys s) (hr : Runs sys ok s t) : Reachable sys t := Runs.trans h hr.free

theorem Reachable.step {sys : System σ α} {s t : σ} {a : α}
    (h : Reachable sys s) (he : sys.step s a = some t) : Reachable sys t :=
  Runs.step h trivial he

/-- The invariant rule: what every admitted step keeps, every run keeps. -/
theorem Runs.invariant {sys : System σ α} {ok : σ → α → Prop} {P : σ → Prop} {s t : σ}
    (hstep : ∀ s a t, ok s a → sys.step s a = some t → P s → P t)
    (h : Runs sys ok s t) (hs : P s) : P t := by
  induction h with
  | refl => exact hs
  | step _ ha he ih => exact hstep _ _ _ ha he ih

theorem Reachable.invariant {sys : System σ α} {P : σ → Prop} {s : σ}
    (hstep : ∀ s a t, sys.step s a = some t → P s → P t)
    (h : Reachable sys s) (hs : P sys.init) : P s :=
  Runs.invariant (fun s a t _ => hstep s a t) h hs

/-- An invariant may use the reachability of the state it is checked at. -/
theorem Runs.invariant_of_reachable {sys : System σ α} {ok : σ → α → Prop} {P : σ → Prop} {s t : σ}
    (hstep : ∀ s a t, Reachable sys s → ok s a → sys.step s a = some t → P s → P t)
    (h : Runs sys ok s t) (hs : Reachable sys s) (hp : P s) : P t := by
  have hboth : Reachable sys t ∧ P t := by
    refine Runs.invariant (P := fun s => Reachable sys s ∧ P s) ?_ h ⟨hs, hp⟩
    intro s a t ha he hp
    exact ⟨hp.1.step he, hstep s a t hp.1 ha he hp.2⟩
  exact hboth.2

/-- The rule under an assumption on the last state that no step can restore once it is
lost. -/
theorem Runs.invariant_under {sys : System σ α} {ok : σ → α → Prop} {H P : σ → Prop} {s t : σ}
    (hback : ∀ s a t, Reachable sys s → sys.step s a = some t → H t → H s)
    (hstep : ∀ s a t, Reachable sys s → ok s a → sys.step s a = some t → H t → P s → P t)
    (h : Runs sys ok s t) (hs : Reachable sys s) (hp : P s) (ht : H t) : P t := by
  refine Runs.invariant_of_reachable (P := fun t => H t → P t) ?_ h hs (fun _ => hp) ht
  intro s a t hr ha he hp ht
  exact hstep s a t hr ha he ht (hp (hback s a t hr he ht))

/-- The progress rule: admitted steps that keep `P` and bring its rank down until the goal is
met make up a run to the goal. -/
theorem Runs.progress {sys : System σ α} {ok : σ → α → Prop} {P : ℕ → σ → Prop} {Goal : σ → Prop}
    (hstep : ∀ n s, P n s → Goal s ∨ ∃ m < n, ∃ a t, ok s a ∧ sys.step s a = some t ∧ P m t)
    {n : ℕ} {s : σ} (hs : P n s) : ∃ t, Runs sys ok s t ∧ Goal t := by
  induction n using Nat.strongRecOn generalizing s with
  | ind n ih =>
    rcases hstep n s hs with hgoal | ⟨m, hlt, a, t, ha, he, ht⟩
    · exact ⟨s, .refl s, hgoal⟩
    · obtain ⟨u, hu, hgoal⟩ := ih m hlt ht
      exact ⟨u, ((Runs.refl s).step ha he).trans hu, hgoal⟩

theorem Runs.reach {sys : System σ α} {ok : σ → α → Prop} {P : ℕ → σ → Prop} {Goal : σ → Prop}
    (hrun : ∀ n s, P n s → Goal s ∨ ∃ m < n, ∃ t, Runs sys ok s t ∧ P m t)
    {n : ℕ} {s : σ} (hs : P n s) : ∃ t, Runs sys ok s t ∧ Goal t := by
  induction n using Nat.strongRecOn generalizing s with
  | ind n ih =>
    rcases hrun n s hs with hgoal | ⟨m, hlt, t, ht, hm⟩
    · exact ⟨s, .refl s, hgoal⟩
    · obtain ⟨u, hu, hgoal⟩ := ih m hlt hm
      exact ⟨u, ht.trans hu, hgoal⟩

theorem Runs.lift {τ β : Type*} {sys : System σ α} {sys' : System τ β} {ok : σ → α → Prop}
    {ok' : τ → β → Prop} {R : σ → τ → Prop}
    (hstep : ∀ s a s' t, ok s a → sys.step s a = some s' → R s t → ∃ t', Runs sys' ok' t t' ∧ R s' t')
    {s s' : σ} (h : Runs sys ok s s') {t : τ} (ht : R s t) : ∃ t', Runs sys' ok' t t' ∧ R s' t' := by
  induction h with
  | refl => exact ⟨t, .refl t, ht⟩
  | step _ ha he ih =>
    obtain ⟨t', hruns, ht'⟩ := ih
    obtain ⟨t'', hmore, ht''⟩ := hstep _ _ _ _ ha he ht'
    exact ⟨t'', hruns.trans hmore, ht''⟩

inductive Counted (sys : System σ α) (kind : σ → α → Bool) : ℕ → σ → σ → Prop
  | refl (s : σ) : Counted sys kind 0 s s
  | counted {n : ℕ} {s t u : σ} {a : α} : Counted sys kind n s t → kind t a = true → sys.step t a = some u →
    Counted sys kind (n + 1) s u
  | other {n : ℕ} {s t u : σ} {a : α} : Counted sys kind n s t → kind t a = false → sys.step t a = some u →
    Counted sys kind n s u

theorem Counted.runs {sys : System σ α} {kind : σ → α → Bool} {n : ℕ} {s t : σ}
    (h : Counted sys kind n s t) : Runs sys Free s t := by
  induction h with
  | refl => exact .refl _
  | counted _ _ he ih => exact ih.step trivial he
  | other _ _ he ih => exact ih.step trivial he

/-- The counting rule: an account of the steps of a kind that each of them moves on, and that
no other step disturbs, is kept under every schedule. -/
theorem Counted.invariant {sys : System σ α} {kind : σ → α → Bool} {P : ℕ → σ → Prop}
    (hcounted : ∀ n s a t, kind s a = true → sys.step s a = some t → P n s → P (n + 1) t)
    (hother : ∀ n s a t, kind s a = false → sys.step s a = some t → P n s → P n t)
    {n : ℕ} {s t : σ} (h : Counted sys kind n s t) (hs : P 0 s) : P n t := by
  induction h with
  | refl => exact hs
  | counted _ hk he ih => exact hcounted _ _ _ _ hk he (ih hs)
  | other _ hk he ih => exact hother _ _ _ _ hk he (ih hs)

/-- A deterministic machine that comes to rest, with the number of its steps. -/
inductive Settles (next : σ → Option σ) : ℕ → σ → σ → Prop
  | rest {s : σ} : next s = none → Settles next 0 s s
  | step {n : ℕ} {s t u : σ} : next s = some t → Settles next n t u → Settles next (n + 1) s u

namespace Settles
variable {next : σ → Option σ} {n : ℕ} {s t u : σ}

theorem of_reaches (h : Relation.ReflTransGen (fun s t => next s = some t) s u) (hu : next u = none) :
    ∃ n, Settles next n s u := by
  induction h using Relation.ReflTransGen.head_induction_on with
  | refl => exact ⟨0, .rest hu⟩
  | head he _ ih =>
    obtain ⟨n, hn⟩ := ih
    exact ⟨n + 1, .step he hn⟩

theorem follow (h : Settles next n s u) (he : next s = some t) : ∃ m, n = m + 1 ∧ Settles next m t u := by
  cases h with
  | rest hs => cases hs.symm.trans he
  | step hs ht =>
    cases hs.symm.trans he
    exact ⟨_, rfl, ht⟩

theorem eq_of_rest (h : Settles next n s u) (hs : next s = none) : s = u := by
  cases h with
  | rest => rfl
  | step he => cases hs.symm.trans he

end Settles

/-- Execute a schedule, stopping at the first step the guard rejects. -/
def System.replay (sys : System σ α) (ok : σ → α → Prop) [∀ s a, Decidable (ok s a)] :
    σ → List α → Option σ
  | s, [] => some s
  | s, a :: rest => if ok s a then (sys.step s a).bind (fun t => sys.replay ok t rest) else none

theorem System.replay_runs (sys : System σ α) (ok : σ → α → Prop) [∀ s a, Decidable (ok s a)]
    {s t : σ} {schedule : List α} (h : sys.replay ok s schedule = some t) : Runs sys ok s t := by
  induction schedule generalizing s with
  | nil => cases h; exact .refl _
  | cons a rest ih =>
    unfold System.replay at h
    split at h
    · rename_i ha
      obtain ⟨u, hu, ht⟩ := Option.bind_eq_some_iff.mp h
      exact ((Runs.refl s).step ha hu).trans (ih ht)
    · cases h

theorem System.exists_of_replay (sys : System σ α) (ok : σ → α → Prop) [∀ s a, Decidable (ok s a)]
    (P : σ → Prop) [DecidablePred P] (s : σ) (schedule : List α)
    (h : (sys.replay ok s schedule).any (fun t => decide (P t)) = true) :
    ∃ t, Runs sys ok s t ∧ P t := by
  obtain ⟨t, ht, hp⟩ := (Option.any_eq_true _ _).mp h
  exact ⟨t, sys.replay_runs ok ht, of_decide_eq_true hp⟩

theorem System.reachable_of_replay (sys : System σ α) (P : σ → Prop) [DecidablePred P]
    (schedule : List α)
    (h : (sys.replay Free sys.init schedule).any (fun t => decide (P t)) = true) :
    ∃ t, Reachable sys t ∧ P t := sys.exists_of_replay Free P sys.init schedule h

def System.replayCounting (sys : System σ α) (kind : σ → α → Bool) : ℕ → σ → List α → Option (ℕ × σ)
  | n, s, [] => some (n, s)
  | n, s, a :: rest =>
    (sys.step s a).bind (fun t => sys.replayCounting kind (if kind s a then n + 1 else n) t rest)

theorem System.counted_of_replay (sys : System σ α) (kind : σ → α → Bool) {s t u : σ} {m n : ℕ}
    {schedule : List α} (hs : Counted sys kind m s t)
    (h : sys.replayCounting kind m t schedule = some (n, u)) : Counted sys kind n s u := by
  induction schedule generalizing m t with
  | nil =>
    cases h
    exact hs
  | cons a rest ih =>
    obtain ⟨v, hv, hu⟩ := Option.bind_eq_some_iff.mp h
    refine ih ?_ hu
    cases hk : kind t a with
    | true => exact hs.counted hk hv
    | false => exact hs.other hk hv

/-- Two schedules around a marked step exhibit a run before it and a guarded one after it. -/
theorem System.exists_of_replay_through (sys : System σ α) (ok : σ → α → Prop)
    [∀ s a, Decidable (ok s a)] (P Q : σ → Prop) [DecidablePred P] [DecidablePred Q]
    (before : List α) (a : α) (after : List α)
    (h : (sys.replay Free sys.init before).any (fun s => decide (P s) &&
      (sys.step s a).any (fun t => (sys.replay ok t after).any (fun u => decide (Q u)))) = true) :
    ∃ s t u, Reachable sys s ∧ P s ∧ sys.step s a = some t ∧ Runs sys ok t u ∧ Q u := by
  obtain ⟨s, hs, hrest⟩ := (Option.any_eq_true _ _).mp h
  obtain ⟨hp, hrest⟩ := (Bool.and_eq_true _ _).mp hrest
  obtain ⟨t, ht, hafter⟩ := (Option.any_eq_true _ _).mp hrest
  obtain ⟨u, hu, hq⟩ := sys.exists_of_replay ok Q t after hafter
  exact ⟨s, t, u, sys.replay_runs Free hs, of_decide_eq_true hp, ht, hu, hq⟩

theorem System.replay_free (sys : System σ α) (s : σ) (a : α) (rest : List α) :
    sys.replay Free s (a :: rest) = (sys.step s a).bind (fun t => sys.replay Free t rest) :=
  if_pos trivial

theorem System.replay_guarded (sys : System σ α) (ok : σ → α → Prop) [∀ s a, Decidable (ok s a)]
    {s t : σ} {schedule : List α} (h : sys.replay Free s schedule = some t) :
    Runs sys ok s t ∨ ∃ before a after u, schedule = before ++ a :: after ∧
      sys.replay Free s before = some u ∧ Runs sys ok s u ∧ ¬ ok u a ∧ Runs sys Free u t := by
  induction schedule generalizing s with
  | nil =>
    cases h
    exact Or.inl (.refl _)
  | cons a rest ih =>
    by_cases ha : ok s a
    · rw [sys.replay_free] at h
      obtain ⟨u, hu, ht⟩ := Option.bind_eq_some_iff.mp h
      rcases ih ht with hruns | ⟨before, c, after, v, rfl, hv, hruns, hc, hrest⟩
      · exact Or.inl (((Runs.refl s).step ha hu).trans hruns)
      · right
        refine ⟨a :: before, c, after, v, rfl, ?_, ((Runs.refl s).step ha hu).trans hruns, hc, hrest⟩
        rw [sys.replay_free, hu]
        exact hv
    · exact Or.inr ⟨[], a, rest, s, rfl, rfl, .refl s, ha, sys.replay_runs Free h⟩

theorem earlier_of_not_later {a b : ε} {recent earlier later past : List ε}
    (h : recent ++ a :: earlier = later ++ b :: past) (hne : a ≠ b) (hb : b ∉ recent) :
    b :: past <:+ earlier := by
  rcases List.append_eq_append_iff.mp h with ⟨mid, -, hmid⟩ | ⟨mid, rfl, hmid⟩
  · cases mid with
    | nil => exact absurd (List.cons.inj hmid).1 hne
    | cons c mid => exact ⟨mid, (List.cons.inj hmid).2.symm⟩
  · cases mid with
    | nil => exact absurd (List.cons.inj hmid).1.symm hne
    | cons c mid => exact absurd (by simp [(List.cons.inj hmid).1]) hb

/-- What the entries of a latest-first history tell, in order. -/
def transcript {α : Type*} (tells : ε → Option α) (history : List ε) : List α :=
  (history.filterMap tells).reverse

theorem transcript_cons {α : Type*} (tells : ε → Option α) (e : ε) (history : List ε) :
    transcript tells (e :: history) = transcript tells history ++ (tells e).toList := by
  unfold transcript
  cases h : tells e <;> simp [h]

theorem transcript_append {α : Type*} (tells : ε → Option α) (later past : List ε) :
    transcript tells (later ++ past) = transcript tells past ++ transcript tells later := by
  simp [transcript]

/-- Every entry of a latest-first history is justified by the entries before it. -/
def Justified (J : ε → List ε → Prop) : List ε → Prop
  | [] => True
  | e :: past => J e past ∧ Justified J past

instance Justified.instDecidable (J : ε → List ε → Prop) [∀ e past, Decidable (J e past)] :
    (history : List ε) → Decidable (Justified J history)
  | [] => isTrue trivial
  | e :: past =>
    @instDecidableAnd (J e past) (Justified J past) inferInstance (Justified.instDecidable J past)

theorem Justified.split {J : ε → List ε → Prop} {later past : List ε} {e : ε}
    (h : Justified J (later ++ e :: past)) : J e past := by
  induction later with
  | nil => exact h.1
  | cons _ later ih => exact ih h.2

theorem Justified.suffix {J : ε → List ε → Prop} {past history : List ε} (h : Justified J history)
    (hp : past <:+ history) : Justified J past := by
  obtain ⟨later, rfl⟩ := hp
  induction later with
  | nil => exact h
  | cons _ later ih => exact ih h.2

theorem Justified.imp {J K : ε → List ε → Prop} {history : List ε} (h : Justified J history)
    (hJ : ∀ e past, J e past → K e past) : Justified K history := by
  induction history with
  | nil => trivial
  | cons e past ih => exact ⟨hJ e past h.1, ih h.2⟩

theorem Justified.of_mem {J : ε → List ε → Prop} {history : List ε} {e : ε} (h : Justified J history)
    (he : e ∈ history) : ∃ past, e :: past <:+ history ∧ J e past := by
  obtain ⟨later, past, rfl⟩ := List.append_of_mem he
  exact ⟨past, List.suffix_append _ _, h.split⟩

/-- A history that went on from a past with entries of one kind. -/
def Extends (J : ε → Prop) (past history : List ε) : Prop :=
  ∃ logged, history = logged ++ past ∧ ∀ e ∈ logged, J e

namespace Extends
variable {J K : ε → Prop} {past history : List ε} {e : ε}

theorem refl (history : List ε) : Extends J history history := ⟨[], rfl, by simp⟩

theorem cons (he : J e) (h : Extends J past history) : Extends J past (e :: history) := by
  obtain ⟨logged, rfl, hlogged⟩ := h
  exact ⟨e :: logged, rfl, List.forall_mem_cons.mpr ⟨he, hlogged⟩⟩

theorem one (he : J e) : Extends J past (e :: past) := (refl past).cons he

theorem imp (h : Extends J past history) (hJ : ∀ e, J e → K e) : Extends K past history := by
  obtain ⟨logged, hh, hlogged⟩ := h
  exact ⟨logged, hh, fun e he => hJ e (hlogged e he)⟩

theorem split {later earlier : List ε} (h : Extends J past history)
    (hs : history = later ++ e :: earlier) :
    (∃ recent rest, later = recent ++ rest ∧ (∀ d ∈ recent, J d) ∧ past = rest ++ e :: earlier) ∨
      J e ∧ ∀ d ∈ later, J d := by
  obtain ⟨logged, rfl, hlogged⟩ := h
  rcases List.append_eq_append_iff.mp hs with ⟨rest, rfl, hrest⟩ | ⟨rest, rfl, hrest⟩
  · exact Or.inl ⟨logged, rest, rfl, hlogged, hrest⟩
  · cases rest with
    | nil => exact Or.inl ⟨later, [], by simp, by simpa using hlogged, hrest.symm⟩
    | cons d rest =>
      cases (List.cons.inj hrest).1
      exact Or.inr ⟨hlogged _ (by simp), fun d hd => hlogged d (List.mem_append_left _ hd)⟩

theorem mem (h : Extends J past history) (he : e ∈ history) : e ∈ past ∨ J e := by
  obtain ⟨logged, rfl, hlogged⟩ := h
  rcases List.mem_append.mp he with he | he
  · exact Or.inr (hlogged e he)
  · exact Or.inl he

theorem justified {L : ε → List ε → Prop} (h : Extends J past history) (hJ : ∀ e, J e → ∀ past, L e past)
    (hp : Justified L past) : Justified L history := by
  obtain ⟨logged, rfl, hlogged⟩ := h
  induction logged with
  | nil => exact hp
  | cons e logged ih =>
    obtain ⟨he, hlogged⟩ := List.forall_mem_cons.mp hlogged
    exact ⟨hJ e he _, ih hlogged⟩

end Extends

end FerrousRuntime.Transition
