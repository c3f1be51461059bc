import Mathlib.Computability.MyhillNerode

/-! # Residuals of protocol languages

A protocol is a language of events, and what may still follow a series of events is the
left quotient by it. The rules below compute the quotient by one event of the languages
that are built from classes of single events; a word is within the protocol when it can
be completed to one of its words.
-/
namespace FerrousRuntime.Residual
open Computability
variable {α : Type*} {K L : Language α} {p : α → Bool} {a : α}

def letter (p : α → Bool) : Language α := {x | ∃ a, p a = true ∧ x = [a]}

/-- Words that some word of the language begins with. -/
def Within (L : Language α) (word : List α) : Prop := ∃ rest, word ++ rest ∈ L

theorem cons_mem_letter_mul {word : List α} :
    a :: word ∈ letter p * L ↔ p a = true ∧ word ∈ L := by
  rw [Language.mem_mul]
  constructor
  · rintro ⟨x, ⟨b, hb, rfl⟩, y, hy, he⟩
    obtain ⟨rfl, rfl⟩ := List.cons.inj he
    exact ⟨hb, hy⟩
  · rintro ⟨ha, hword⟩
    exact ⟨[a], ⟨a, ha, rfl⟩, word, hword, rfl⟩

theorem quotient_add : (K + L).leftQuotient [a] = K.leftQuotient [a] + L.leftQuotient [a] := rfl

theorem quotient_one : (1 : Language α).leftQuotient [a] = 0 := by
  ext word
  simp [Language.mem_leftQuotient, Language.mem_one, Language.notMem_zero]

theorem quotient_letter_mul : (letter p * L).leftQuotient [a] = if p a then L else 0 := by
  ext word
  refine cons_mem_letter_mul.trans ?_
  split
  · rename_i ha
    exact and_iff_right ha
  · rename_i ha
    exact iff_of_false (fun h => ha h.1) (Language.notMem_zero word)

theorem quotient_letter : (letter p).leftQuotient [a] = if p a then 1 else 0 := by
  conv_lhs => rw [← mul_one (letter p), quotient_letter_mul]

theorem kstar_mul (K L : Language α) : K∗ * L = L + K * (K∗ * L) := by
  conv_lhs => rw [← Language.one_add_self_mul_kstar_eq_kstar K]
  rw [add_mul, one_mul, mul_assoc]

/-- A letter before a starred class is of the class, or begins what follows. -/
theorem quotient_kstar_mul : ((letter p)∗ * L).leftQuotient [a] =
    L.leftQuotient [a] + if p a then (letter p)∗ * L else 0 := by
  conv_lhs => rw [kstar_mul, quotient_add, quotient_letter_mul]

theorem within_append {first second : List α} :
    Within L (first ++ second) ↔ Within (L.leftQuotient first) second := by
  unfold Within
  simp only [List.append_assoc, Language.mem_leftQuotient]

theorem not_within_zero (word : List α) : ¬ Within (0 : Language α) word := by
  rintro ⟨rest, hrest⟩
  exact Language.notMem_zero _ hrest

end FerrousRuntime.Residual
