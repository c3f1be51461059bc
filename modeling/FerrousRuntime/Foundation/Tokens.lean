import Mathlib.Algebra.Order.Group.Multiset
import Mathlib.Data.Multiset.AddSub
import FerrousRuntime.Foundation.Transition
import FerrousRuntime.Foundation.Tally

/-! # Tokens

An item that is in at most one place leaves a multiset with at most one token behind. Steps
of the parts move tokens beside each other; under the bound this is one automaton's walk.
-/
namespace FerrousRuntime.Tokens
open Tally Transition
variable {α ι : Type*} {R : Option α → Option α → Prop} {m m' : Multiset α} {p q : Option α}

def token : Option α → Multiset α
  | none => 0
  | some place => {place}

/-- One token moves, or comes up, beside any others; or none does. -/
inductive Shifts (R : Option α → Option α → Prop) : Multiset α → Multiset α → Prop
  | stay (m : Multiset α) : Shifts R m m
  | move {p q : Option α} (rest : Multiset α) : R p q → Shifts R (token p + rest) (token q + rest)

theorem token_injective : Function.Injective (token (α := α)) := by
  intro p q h
  cases p <;> cases q <;> simp_all [token]

theorem exists_token (h : m.card ≤ 1) : ∃ p, m = token p := by
  rcases Nat.le_one_iff_eq_zero_or_eq_one.mp h with hnone | hone
  · exact ⟨none, Multiset.card_eq_zero.mp hnone⟩
  · obtain ⟨place, hplace⟩ := Multiset.card_eq_one.mp hone
    exact ⟨some place, hplace⟩

theorem Shifts.frame (h : Shifts R m m') (others : Multiset α) : Shifts R (m + others) (m' + others) := by
  cases h with
  | stay => exact .stay _
  | move rest hr =>
    rw [add_assoc, add_assoc]
    exact .move (rest + others) hr

/-- Where there is room for one token only, a move is a step of the automaton. -/
theorem Shifts.of_token (h : Shifts R (token p) m') (hm : m'.card ≤ 1) :
    ∃ q, m' = token q ∧ (p = q ∨ R p q) := by
  generalize hfrom : token p = m at h
  cases h with
  | stay => exact ⟨p, hfrom.symm, Or.inl rfl⟩
  | @move p' q' rest hr =>
    cases p' with
    | some place =>
      have hnone : rest = 0 := by
        have hcard := congrArg Multiset.card hfrom
        rw [Multiset.card_add] at hcard
        have hone : (token p).card ≤ 1 := by cases p <;> simp [token]
        rw [hcard, token, Multiset.card_singleton] at hone
        exact Multiset.card_eq_zero.mp (by omega)
      subst hnone
      rw [add_zero] at hfrom ⊢
      cases token_injective hfrom
      exact ⟨q', rfl, Or.inr hr⟩
    | none =>
      simp only [token, zero_add] at hfrom
      subst hfrom
      cases q' with
      | none => exact ⟨p, zero_add _, Or.inl rfl⟩
      | some place =>
        cases p with
        | none => exact ⟨some place, add_zero _, Or.inr hr⟩
        | some other => simp [token] at hm

theorem card_sum {f : ι → Multiset α} {test : ι → Bool} (h : ∀ i, (f i).card = one (test i)) (l : List ι) :
    (l.map f).sum.card = l.countP test := by
  induction l with
  | nil => rfl
  | cons i l ih => rw [List.map_cons, List.sum_cons, Multiset.card_add, h, ih, countP_cons_one]

end FerrousRuntime.Tokens
