import Mathlib.Init

/-!
# Computations that may fail

A computation that succeeded did so at every step. These are the inversions of the ways the steps
are put together.
-/

universe u
namespace Except
variable {ε ε' α β : Type u}
variable {x : Except ε α}

theorem of_bind_ok {f : α → Except ε β} {b : β} (h : (x >>= f) = .ok b) :
    ∃ a, x = .ok a ∧ f a = .ok b := by
  cases x with
  | error e => cases h
  | ok a => exact ⟨a, rfl, h⟩

theorem of_map_ok {f : α → β} {b : β} (h : x.map f = .ok b) : ∃ a, x = .ok a ∧ f a = b := by
  cases x with
  | error e => cases h
  | ok a => exact ⟨a, rfl, ok.inj h⟩

theorem of_mapError_ok {f : ε → ε'} {a : α} (h : x.mapError f = .ok a) : x = .ok a := by
  cases x with
  | error e => cases h
  | ok a' => exact congrArg _ (ok.inj h)

theorem of_toOption {a : α} (h : x.toOption = some a) : x = .ok a := by
  cases x with
  | error e => cases h
  | ok a' => exact congrArg _ (Option.some.inj h)

theorem forM_ok_iff {ε α : Type} {f : α → Except ε Unit} {l : List α} :
    l.forM f = .ok () ↔ ∀ a ∈ l, f a = .ok () := by
  induction l with
  | nil => exact ⟨fun _ => List.forall_mem_nil _, fun _ => rfl⟩
  | cons a l ih =>
    rw [List.forall_mem_cons, ← ih]
    constructor
    · intro h
      obtain ⟨u, ha, hl⟩ := of_bind_ok h
      exact ⟨ha, hl⟩
    · rintro ⟨ha, hl⟩
      show (f a >>= fun _ => l.forM f) = _
      rw [ha]
      exact hl

end Except
