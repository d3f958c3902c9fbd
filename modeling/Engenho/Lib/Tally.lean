import Mathlib.Data.List.Perm.Subperm

/-!
# Counts in keyed lists

Two lists of entries with distinct keys are compared by what is counted at each key.
-/

universe u v w
namespace Tally
open List
variable {κ : Type u} {α : Type v} {β : Type w}

/-- What is counted in the one list is counted at its key in the other, but for the keys `ks`. -/
theorem countP_le {l : List α} {l' : List β} (f : α → κ) {g : β → κ} (p : α → Bool) (p' : β → Bool)
    (ks : List κ) (hkeys : (l'.map g).Nodup)
    (h : ∀ e' ∈ l', p' e' = true → g e' ∈ ks ∨ ∃ e ∈ l, f e = g e' ∧ p e = true) :
    l'.countP p' ≤ ks.length + l.countP p := by
  have hsub : (l'.filter p').map g ⊆ ks ++ (l.filter p).map f := by
    intro k hk
    obtain ⟨e', he', rfl⟩ := mem_map.mp hk
    obtain ⟨hmem, hp'⟩ := mem_filter.mp he'
    rcases h e' hmem hp' with hks | ⟨e, he, hek, hp⟩
    · exact mem_append_left _ hks
    · exact mem_append_right _ (mem_map.mpr ⟨e, mem_filter.mpr ⟨he, hp⟩, hek⟩)
  have hlen := (subperm_of_subset ((filter_sublist.map g).nodup hkeys) hsub).length_le
  rw [length_append, length_map, length_map] at hlen
  rwa [countP_eq_length_filter, countP_eq_length_filter]

end Tally
