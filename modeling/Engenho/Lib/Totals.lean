import Mathlib.Algebra.BigOperators.Group.List.Basic
import Engenho.Lib.OrdMap

/-!
# Totals over an ordered map

The sum of a measure over all entries, and what a write of one key does to it.
-/

universe u v w
namespace OrdMap
open Assoc
variable {κ : Type u} {α : Type v} {M : Type w} [LinearOrder κ] [AddCommGroup M]

/-- The sum of a measure over the entries. -/
def total (f : κ → α → M) (m : OrdMap κ α) : M := (m.entries.map fun e => f e.1 e.2).sum

variable {m : OrdMap κ α} {k : κ} {v : α}
variable {l : List (κ × α)}

theorem sum_drop (h : Sorted l) (hl : l.lookup k = some v) (f : κ → α → M) :
    ((drop k l).map fun e => f e.1 e.2).sum = (l.map fun e => f e.1 e.2).sum - f k v := by
  induction l with
  | nil => cases hl
  | cons e l ih =>
    obtain ⟨k', v'⟩ := e
    obtain ⟨hfirst, hrest⟩ := List.pairwise_cons.mp h
    rw [lookup_cons_ite] at hl
    by_cases hk : k = k'
    · subst hk
      rw [if_pos rfl] at hl
      obtain rfl := Option.some.inj hl
      -- the other keys are greater, so nothing else is dropped
      have hkeep : drop k l = l := List.filter_eq_self.mpr fun e he => by
        simpa using (hfirst e he).ne'
      have : drop k ((k, v') :: l) = l := by
        rw [← hkeep]
        simp [drop]
      rw [this, List.map_cons, List.sum_cons, add_sub_cancel_left]
    · rw [if_neg hk] at hl
      have : drop k ((k', v') :: l) = (k', v') :: drop k l := by simp [drop, Ne.symm hk]
      rw [this, List.map_cons, List.sum_cons, ih hrest hl, List.map_cons, List.sum_cons,
        add_sub_assoc]

theorem sum_put_of_lookup_none (hl : l.lookup k = none) (v : α) (f : κ → α → M) :
    ((put k v l).map fun e => f e.1 e.2).sum = f k v + (l.map fun e => f e.1 e.2).sum := by
  induction l with
  | nil => rfl
  | cons e l ih =>
    obtain ⟨k', v'⟩ := e
    rw [lookup_cons_ite] at hl
    by_cases hk : k = k'
    · rw [if_pos hk] at hl
      cases hl
    · rw [if_neg hk] at hl
      rw [put]
      split
      · simp only [List.map_cons, List.sum_cons]
      · simp only [List.map_cons, List.sum_cons, ih hl]
        exact add_left_comm _ _ _

theorem total_erase (h : m.get k = some v) (f : κ → α → M) :
    (m.erase k).total f = m.total f - f k v :=
  sum_drop m.sorted h f

theorem total_insert_new (h : m.get k = none) (v : α) (f : κ → α → M) :
    (m.insert k v).total f = f k v + m.total f :=
  sum_put_of_lookup_none h v f

/-- A write over an entry is the removal of the old one and the insertion of the new one. -/
theorem total_insert (h : m.get k = some v) (w : α) (f : κ → α → M) :
    (m.insert k w).total f = m.total f - f k v + f k w := by
  have hsplit : m.insert k w = (m.erase k).insert k w := by
    refine ext_get fun k' => ?_
    rw [get_insert, get_insert, get_erase]
    split <;> rfl
  have hnone : (m.erase k).get k = none := by rw [get_erase, if_pos rfl]
  rw [hsplit, total_insert_new hnone, total_erase h, add_comm]

end OrdMap
