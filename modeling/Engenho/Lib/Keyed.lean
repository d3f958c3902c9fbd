import Mathlib.Data.List.Induction
import Mathlib.Logic.Function.Basic

/-!
# Keyed writes

A write sets or clears one key of a partial map. What a list of writes leaves at a key is its last
write to that key (`replay_apply`), so clearing again what was cleared last changes nothing
(`replay_cleared`, `replay_clear`).
-/

universe u v
namespace Keyed
open List
variable {κ : Type u} {α : Type v} [DecidableEq κ]

/-- The map after the writes `l`, in order; `none` clears the key. -/
def replay (f : κ → Option α) (l : List (κ × Option α)) : κ → Option α :=
  l.foldl (fun f e => Function.update f e.1 e.2) f

/-- The last write to `k`. -/
def last (l : List (κ × Option α)) (k : κ) : Option (Option α) :=
  (l.reverse.find? fun e => e.1 = k).map Prod.snd

variable {f g : κ → Option α} {l l' : List (κ × Option α)} {k : κ}

@[simp] theorem replay_nil : replay f [] = f := rfl

@[simp] theorem replay_append : replay f (l ++ l') = replay (replay f l) l' := foldl_append ..

theorem last_append : last (l ++ l') k = (last l' k).or (last l k) := by
  unfold last
  rw [reverse_append, List.find?_append]
  cases l'.reverse.find? fun e => e.1 = k <;> rfl

theorem replay_apply : replay f l k = (last l k).getD (f k) := by
  induction l using List.reverseRecOn with
  | nil => rfl
  | append_singleton l e ih =>
    obtain ⟨k', v⟩ := e
    rw [replay_append, last_append]
    by_cases h : k' = k
    · subst h
      simp [replay, last]
    · have hk : k ≠ k' := fun he => h he.symm
      simpa [replay, last, h, Function.update_of_ne hk] using ih

/-- A key that the last writes only clear is clear. -/
theorem replay_cleared (h : ∀ e ∈ l', e.2 = none) (hk : ∃ e ∈ l', e.1 = k) :
    replay f (l ++ l') k = none := by
  obtain ⟨e, he, hek⟩ := hk
  have hsome : (l'.reverse.find? fun e => e.1 = k).isSome := by
    rw [List.find?_isSome]
    exact ⟨e, mem_reverse.mpr he, by simpa using hek⟩
  obtain ⟨e', he'⟩ := Option.isSome_iff_exists.mp hsome
  have hnone := h e' (mem_reverse.mp (mem_of_find?_eq_some he'))
  rw [replay_append, replay_apply, last, he']
  exact hnone

theorem replay_clear (h : f k = none) : replay f [(k, none)] = f := by simp [replay, ← h]

theorem replay_eq_none (h : ∀ e ∈ l, e.2 = none) :
    replay (fun _ => none) l = fun _ : κ => none := by
  induction l with
  | nil => rfl
  | cons e l ih =>
    obtain ⟨k, v⟩ := e
    obtain rfl : v = none := h (k, v) (mem_cons_self ..)
    have hsplit : replay (fun _ => none) ((k, none) :: l) =
        replay (replay (fun _ => none) [(k, (none : Option α))]) l := rfl
    rw [hsplit, replay_clear rfl]
    exact ih fun e he => h e (.tail _ he)

end Keyed
