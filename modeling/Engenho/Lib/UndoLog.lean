import Mathlib.Data.List.Basic
import Mathlib.Logic.Function.Basic

/-!
# Undoing a log of writes

Each record of the log names the key it wrote and the value the key had before (`none`: it was
absent). `rewind` undoes a log, newest record first. What it leaves at a key is the prior of the
*first* record on that key (`rewind_apply`), so rewinding restores the state before the log as soon
as those first priors are true, whatever the later records say (`PriorsTrue`).
-/

universe u v w
namespace UndoLog
variable {κ : Type u} {ε : Type v} {α : Type w} [DecidableEq κ]
variable (key : ε → κ) (prior : ε → Option α)

/-- The state with one record undone. -/
def undo (e : ε) (s : κ → Option α) : κ → Option α := Function.update s (key e) (prior e)

/-- The state with the whole log undone, its last record first. -/
def rewind (s : κ → Option α) (log : List ε) : κ → Option α := log.foldr (undo key prior) s

/-- The first record of each key says what `s` held there. -/
def PriorsTrue (s : κ → Option α) (log : List ε) : Prop :=
  ∀ k e, log.find? (fun e => key e = k) = some e → prior e = s k

variable {key prior} {s : κ → Option α} {log log' : List ε}

theorem rewind_apply (k : κ) : rewind key prior s log k = match log.find? (fun e => key e = k) with
      | some e => prior e
      | none => s k := by
  induction log with
  | nil => rfl
  | cons e log ih =>
    have hstep : rewind key prior s (e :: log) = undo key prior e (rewind key prior s log) := rfl
    rw [hstep, List.find?_cons, undo]
    by_cases h : key e = k
    · subst h; simp
    · rw [Function.update_of_ne (Ne.symm h), ih]
      simp [h]

theorem PriorsTrue.append {t : κ → Option α} (h : PriorsTrue key prior s log)
    (h' : PriorsTrue key prior t log')
    (ht : ∀ k, log.find? (fun e => key e = k) = none → t k = s k) :
    PriorsTrue key prior s (log ++ log') := by
  intro k e he
  rw [List.find?_append] at he
  cases hl : log.find? (fun e => key e = k) with
  | some e' =>
    rw [hl] at he
    cases he
    exact h k e hl
  | none =>
    rw [hl, Option.none_or] at he
    rw [h' k e he, ht k hl]

end UndoLog
