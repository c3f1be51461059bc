import Mathlib.Data.List.AList
import Mathlib.Data.List.Basic
import Mathlib.Algebra.BigOperators.Group.List.Basic

/-! # Counting what a list, a table or a thread table holds

Ownership arguments count, for one item, the places that hold it. The lemmas say
how a count moves under the updates of the two containers: replacing one entry
of a list, and inserting into or erasing from a finite map.
-/
namespace FerrousRuntime.Tally
variable {α V : Type*}

def one (b : Bool) : ℕ := if b then 1 else 0

@[simp] theorem one_true : one true = 1 := rfl
@[simp] theorem one_false : one false = 0 := rfl

theorem one_le (b : Bool) : one b ≤ 1 := by cases b <;> simp

@[simp] theorem one_pos {b : Bool} : 0 < one b ↔ b = true := by cases b <;> simp

theorem countP_cons_one (p : α → Bool) (a : α) (l : List α) :
    (a :: l).countP p = one (p a) + l.countP p := by
  cases h : p a <;> simp [h, one, Nat.add_comm]

/-- One entry's share of a sum over a list, and the rest, which replacing the entry
leaves alone. -/
theorem exists_frame {M : Type*} [AddCommMonoid M] (share : α → M) {l : List α} {i : ℕ} {old : α}
    (h : l[i]? = some old) :
    ∃ rest, (l.map share).sum = share old + rest ∧
      ∀ new, ((l.set i new).map share).sum = share new + rest := by
  induction l generalizing i with
  | nil => simp at h
  | cons a l ih =>
    cases i with
    | zero =>
      simp only [List.getElem?_cons_zero, Option.some.injEq] at h
      subst h
      exact ⟨(l.map share).sum, by simp, fun new => by simp⟩
    | succ i =>
      obtain ⟨rest, hl, hset⟩ := ih (by simpa using h)
      refine ⟨share a + rest, ?_, fun new => ?_⟩
      · rw [List.map_cons, List.sum_cons, hl, add_left_comm]
      · rw [List.set_cons_succ, List.map_cons, List.sum_cons, hset, add_left_comm]

theorem exists_frame_two {M : Type*} [AddCommMonoid M] (share : α → M) {l : List α} {i j : ℕ} {a b : α}
    (hij : i ≠ j) (hi : l[i]? = some a) (hj : l[j]? = some b) :
    ∃ rest, (l.map share).sum = share a + share b + rest := by
  induction l generalizing i j with
  | nil => simp at hi
  | cons c l ih =>
    rw [List.map_cons, List.sum_cons]
    cases i with
    | zero =>
      cases j with
      | zero => exact absurd rfl hij
      | succ j =>
        obtain ⟨rest, hrest, -⟩ := exists_frame share (by simpa using hj)
        cases Option.some.inj hi
        exact ⟨rest, by rw [hrest, add_assoc]⟩
    | succ i =>
      cases j with
      | zero =>
        obtain ⟨rest, hrest, -⟩ := exists_frame share (by simpa using hi)
        cases Option.some.inj hj
        exact ⟨rest, by rw [hrest, add_left_comm, add_assoc]⟩
      | succ j =>
        have hi' : l[i]? = some a := by simpa using hi
        have hj' : l[j]? = some b := by simpa using hj
        obtain ⟨rest, hrest⟩ := ih (by omega) hi' hj'
        exact ⟨share c + rest, by rw [hrest, add_left_comm]⟩

/-- The number of values of a finite map that pass a test. -/
def values (p : V → Bool) (m : AList (fun _ : ℕ => V)) : ℕ := m.entries.countP (fun e => p e.2)

@[simp] theorem values_empty (p : V → Bool) : values p (∅ : AList (fun _ : ℕ => V)) = 0 := rfl

theorem values_erase_none (p : V → Bool) {m : AList (fun _ : ℕ => V)} {k : ℕ}
    (h : m.lookup k = none) : values p (m.erase k) = values p m := by
  have hk : k ∉ m.entries.keys := AList.lookup_eq_none.mp h
  change (m.entries.kerase k).countP _ = m.entries.countP _
  rw [List.kerase_of_notMem_keys hk]

theorem values_erase_some (p : V → Bool) {m : AList (fun _ : ℕ => V)} {k : ℕ} {v : V}
    (h : m.lookup k = some v) : values p (m.erase k) + one (p v) = values p m := by
  have hk : k ∈ m.entries.keys := AList.lookup_isSome.mp (by rw [h]; rfl)
  obtain ⟨w, l₁, l₂, -, hl, he⟩ := List.exists_of_kerase hk
  have hw : w = v := by
    have hm : (⟨k, w⟩ : Sigma (fun _ : ℕ => V)) ∈ m.entries := by rw [hl]; simp
    have hs : m.lookup k = some w := (List.mem_dlookup_iff m.nodupKeys).mpr hm
    exact Option.some.inj (hs.symm.trans h)
  subst hw
  change (m.entries.kerase k).countP _ + _ = m.entries.countP _
  rw [he, hl]
  simp only [List.countP_append, countP_cons_one]
  omega

theorem values_insert (p : V → Bool) (m : AList (fun _ : ℕ => V)) (k : ℕ) (v : V) :
    values p (m.insert k v) = values p (m.erase k) + one (p v) := by
  change (m.insert k v).entries.countP _ = (m.entries.kerase k).countP _ + one (p v)
  rw [AList.entries_insert, countP_cons_one, Nat.add_comm]

theorem lookup_of_erase {m : AList (fun _ : ℕ => V)} {k i : ℕ} {v : V}
    (h : (m.erase k).lookup i = some v) : m.lookup i = some v := by
  by_cases hi : i = k
  · subst hi
    rw [AList.lookup_erase] at h
    cases h
  · rwa [AList.lookup_erase_ne hi] at h

theorem lookup_of_insert {m : AList (fun _ : ℕ => V)} {k i : ℕ} {v w : V}
    (h : (m.insert k v).lookup i = some w) : i = k ∧ w = v ∨ i ≠ k ∧ m.lookup i = some w := by
  by_cases hi : i = k
  · subst hi
    rw [AList.lookup_insert] at h
    exact Or.inl ⟨rfl, (Option.some.inj h).symm⟩
  · rw [AList.lookup_insert_ne hi] at h
    exact Or.inr ⟨hi, h⟩

theorem eq_of_countP_le_one {p : α → Bool} {l : List α} {a b : α} (h : l.countP p ≤ 1) (ha : a ∈ l)
    (hb : b ∈ l) (hpa : p a = true) (hpb : p b = true) : a = b := by
  induction l with
  | nil => cases ha
  | cons c l ih =>
    have hnone : p c = true → ∀ d ∈ l, p d = true → False := by
      intro hc d hd hpd
      have hpos := List.countP_pos_iff.mpr ⟨d, hd, hpd⟩
      rw [countP_cons_one, hc, one_true] at h
      omega
    rcases List.mem_cons.mp ha with rfl | ha' <;> rcases List.mem_cons.mp hb with rfl | hb'
    · rfl
    · exact absurd hpb (hnone hpa b hb')
    · exact absurd hpa (hnone hpb a ha')
    · exact ih (by rw [countP_cons_one] at h; omega) ha' hb'

theorem values_pos_of_lookup {p : V → Bool} {m : AList (fun _ : ℕ => V)} {k : ℕ} {v : V}
    (h : m.lookup k = some v) (hp : p v = true) : 0 < values p m := by
  have hs := values_erase_some p h
  rw [hp] at hs
  simp only [one_true] at hs
  omega

def total {M : Type*} [AddCommMonoid M] (share : V → M) (m : AList (fun _ : ℕ => V)) : M :=
  (m.entries.map (fun e => share e.2)).sum

section Total
variable {M : Type*} [AddCommMonoid M] (share : V → M) {m : AList (fun _ : ℕ => V)} {k : ℕ} {v : V}

theorem total_insert (m : AList (fun _ : ℕ => V)) (k : ℕ) (v : V) :
    total share (m.insert k v) = share v + total share (m.erase k) := rfl

theorem total_erase_none (h : m.lookup k = none) : total share (m.erase k) = total share m := by
  have hk : k ∉ m.entries.keys := AList.lookup_eq_none.mp h
  change ((m.entries.kerase k).map _).sum = _
  rw [List.kerase_of_notMem_keys hk]
  rfl

theorem total_erase_some (h : m.lookup k = some v) : share v + total share (m.erase k) = total share m := by
  have hk : k ∈ m.entries.keys := AList.lookup_isSome.mp (by rw [h]; rfl)
  obtain ⟨w, before, after, -, hl, he⟩ := List.exists_of_kerase hk
  have hm : (⟨k, w⟩ : Sigma (fun _ : ℕ => V)) ∈ m.entries := by rw [hl]; simp
  have hs : m.lookup k = some w := (List.mem_dlookup_iff m.nodupKeys).mpr hm
  cases Option.some.inj (hs.symm.trans h)
  change share v + ((m.entries.kerase k).map _).sum = (m.entries.map _).sum
  rw [he, hl, List.map_append, List.map_append, List.map_cons, List.sum_append, List.sum_append,
    List.sum_cons, add_left_comm]

end Total

end FerrousRuntime.Tally
