import Mathlib.Data.List.Perm.Subperm
import Mathlib.Data.List.Range

/-!
# Free indices

The lowest natural numbers that a finite list does not hold, from a start on. The search for the
next one ends, as a list cannot hold more numbers than it is long.
-/

namespace FreeIndices
variable (used : List Nat)

/-- The first number from `i` on that is not used, or the one `fuel` steps on. -/
def search : Nat → Nat → Nat
  | 0, i => i
  | fuel + 1, i => if i ∈ used then search fuel (i + 1) else i

/-- The first number from `i` on that is not used. -/
def next (i : Nat) : Nat := search used used.length i

/-- The lowest `count` numbers from `i` on that are not used. -/
def take : Nat → Nat → List Nat
  | 0, _ => []
  | count + 1, i => next used i :: take count (next used i + 1)

variable {used}

theorem le_search (fuel i : Nat) : i ≤ search used fuel i := by
  induction fuel generalizing i with
  | zero => exact Nat.le_refl i
  | succ fuel ih =>
    unfold search
    split
    · exact Nat.le_of_succ_le (ih (i + 1))
    · exact Nat.le_refl i

/-- A search that ends on a used number went through used numbers only. -/
theorem used_of_search_mem {fuel i : Nat} (h : search used fuel i ∈ used) :
    ∀ j, i ≤ j → j ≤ i + fuel → j ∈ used := by
  induction fuel generalizing i with
  | zero =>
    intro j hi hj
    obtain rfl : j = i := by omega
    exact h
  | succ fuel ih =>
    intro j hi hj
    unfold search at h
    split at h
    · rename_i hmem
      rcases Nat.eq_or_lt_of_le hi with rfl | hlt
      · exact hmem
      · exact ih h j hlt (by omega)
    · contradiction

theorem next_notMem (i : Nat) : next used i ∉ used := by
  intro h
  have hall := used_of_search_mem h
  have hsub : List.range' i (used.length + 1) ⊆ used := by
    intro j hj
    obtain ⟨hi, hj⟩ := List.mem_range'_1.mp hj
    exact hall j hi (by omega)
  have hnodup : (List.range' i (used.length + 1)).Nodup := List.nodup_range'
  have hlen := (List.subperm_of_subset hnodup hsub).length_le
  rw [List.length_range'] at hlen
  omega

end FreeIndices
