import Mathlib.Data.List.AList
import Mathlib.Data.List.Perm.Subperm

/-! # Leases on the names of a table

Items are entered in a table under names, and whoever uses an item relies on its entry.
`Kept` says that no user has lost its entry, `Covered` that no entry has lost its user.
The two are independent: an entry may be overwritten while it is in use, and it may stay
behind when nobody uses it any more.
-/
namespace FerrousRuntime.Lease
variable {N V : Type*} {table : AList (fun _ : N => V)} {n : N} {v : V}

/-- Every item in use is the one the table has under its name. -/
def Kept [DecidableEq N] (table : AList (fun _ : N => V)) (uses : N → V → Prop) : Prop :=
  ∀ n v, uses n v → table.lookup n = some v

namespace Kept
variable [DecidableEq N] {uses uses' : N → V → Prop}

theorem mono (h : Kept table uses) (hsub : ∀ n v, uses' n v → uses n v) : Kept table uses' :=
  fun n v hv => h n v (hsub n v hv)

/-- An insertion must not overwrite an item that stays in use. -/
theorem insert (h : Kept table uses) (hsub : ∀ m w, uses' m w → uses m w ∨ m = n ∧ w = v)
    (hover : ∀ w, uses' n w → w = v) : Kept (table.insert n v) uses' := by
  intro m w hw
  by_cases hm : m = n
  · subst hm
    rw [hover w hw, AList.lookup_insert]
  · rw [AList.lookup_insert_ne hm]
    rcases hsub m w hw with hw | ⟨hmn, -⟩
    · exact h m w hw
    · exact absurd hmn hm

/-- An item whose entry is erased must not stay in use. -/
theorem erase (h : Kept table uses) (hsub : ∀ m w, uses' m w → uses m w)
    (hfree : ∀ w, ¬ uses' n w) : Kept (table.erase n) uses' := by
  intro m w hw
  by_cases hm : m = n
  · subst hm
    exact absurd hw (hfree w)
  · rw [AList.lookup_erase_ne hm]
    exact h m w (hsub m w hw)

theorem length_le (h : Kept table uses) {items : List V} (hnodup : items.Nodup)
    (hitems : ∀ v ∈ items, ∃ n, uses n v) : items.length ≤ table.entries.length := by
  have hsub : items ⊆ table.entries.map (fun entry => entry.2) := by
    intro v hv
    obtain ⟨n, hn⟩ := hitems v hv
    have hmem : (⟨n, v⟩ : Sigma (fun _ : N => V)) ∈ table.entries :=
      AList.mem_lookup_iff.mp (h n v hn)
    exact List.mem_map.mpr ⟨_, hmem, rfl⟩
  have hle := (List.subperm_of_subset hnodup hsub).length_le
  rwa [List.length_map] at hle

end Kept

/-- Every name of the table is owed an erasure by somebody. -/
def Covered (table : AList (fun _ : N => V)) (owed : N → Prop) : Prop := ∀ n ∈ table, owed n

namespace Covered
variable {owed owed' : N → Prop}

theorem mono (h : Covered table owed) (hsub : ∀ n ∈ table, owed n → owed' n) : Covered table owed' :=
  fun n hn => hsub n hn (h n hn)

theorem insert [DecidableEq N] (h : Covered table owed) (hsub : ∀ m, owed m → owed' m) (hn : owed' n) :
    Covered (table.insert n v) owed' := by
  intro m hm
  rcases (AList.mem_insert table).mp hm with rfl | hm
  · exact hn
  · exact hsub m (h m hm)

theorem erase [DecidableEq N] (h : Covered table owed) (hsub : ∀ m, m ≠ n → owed m → owed' m) :
    Covered (table.erase n) owed' := by
  intro m hm
  obtain ⟨hne, hm⟩ := AList.mem_erase.mp hm
  exact hsub m hne (h m hm)

theorem entries_eq_nil (h : Covered table owed) (hnone : ∀ n, ¬ owed n) : table.entries = [] := by
  refine List.eq_nil_iff_forall_not_mem.mpr ?_
  intro entry hentry
  exact hnone entry.1 (h entry.1 (AList.mem_keys.mpr (List.mem_map.mpr ⟨entry, hentry, rfl⟩)))

end Covered

end FerrousRuntime.Lease
