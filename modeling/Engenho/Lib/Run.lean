import Mathlib.Data.List.Basic

/-!
# Runs of a deterministic machine

A machine is a step function `step : σ → ι → σ`; a run feeds it a list of inputs. An invariant that
every step keeps holds after every run (`Run.exec_inv`). `Run.Along ok s is` says that every step of
the run from `s` meets `ok`, a condition on the state before the step and the input; it carries
conditional invariants (`Run.Along.exec_inv`).
-/

universe u v
namespace Run
variable {σ : Type u} {ι : Type v} (step : σ → ι → σ)

/-- The state after the inputs `is`. -/
def exec (s : σ) (is : List ι) : σ := is.foldl step s

/-- Every step of the run meets `ok`, a condition on the state before the step and its input. -/
def Along (ok : σ → ι → Prop) : σ → List ι → Prop
  | _, [] => True
  | s, i :: is => ok s i ∧ Along ok (step s i) is

instance Along.decidable {ok : σ → ι → Prop} [∀ s i, Decidable (ok s i)] :
    ∀ s is, Decidable (Along step ok s is)
  | _, [] => .isTrue trivial
  | s, i :: is =>
    have : Decidable (Along step ok (step s i) is) := Along.decidable (step s i) is
    inferInstanceAs (Decidable (ok s i ∧ Along step ok (step s i) is))

variable {step} {s : σ} {i : ι} {is js : List ι}

@[simp] theorem exec_nil : exec step s [] = s := rfl

@[simp] theorem exec_cons : exec step s (i :: is) = exec step (step s i) is := rfl

@[simp] theorem exec_append : exec step s (is ++ js) = exec step (exec step s is) js :=
  List.foldl_append ..

variable {ok : σ → ι → Prop}

theorem along_append : Along step ok s (is ++ js) ↔ Along step ok s is ∧
    Along step ok (exec step s is) js := by
  induction is generalizing s with
  | nil => simp [Along]
  | cons i is ih => simp [Along, ih, and_assoc]

theorem along_of_forall (h : ∀ s i, ok s i) : ∀ s is, Along step ok s is
  | _, [] => trivial
  | s, i :: is => ⟨h s i, along_of_forall h (step s i) is⟩

variable {I : σ → Prop}

/-- An invariant that every step of the run keeps. -/
theorem exec_inv_mem (hstep : ∀ s, ∀ i ∈ is, I s → I (step s i)) (h : I s) :
    I (exec step s is) := by
  induction is generalizing s with
  | nil => exact h
  | cons i is ih =>
    exact ih (fun s j hj => hstep s j (List.mem_cons_of_mem i hj)) (hstep s i List.mem_cons_self h)

theorem exec_inv (hstep : ∀ s i, I s → I (step s i)) (h : I s) (is : List ι) : I (exec step s is) :=
  exec_inv_mem (fun s i _ => hstep s i) h

/-- An invariant that every step under `ok` keeps holds after a run whose steps all meet `ok`. -/
theorem Along.exec_inv (hstep : ∀ s i, ok s i → I s → I (step s i)) (h : I s)
    (hok : Along step ok s is) : I (exec step s is) := by
  induction is generalizing s with
  | nil => exact h
  | cons i is ih => exact ih (hstep s i hok.1 h) hok.2

/-- What follows from the invariant at a step under `ok` holds at every step of such a run. -/
theorem Along.imp_of_inv {good : σ → ι → Prop} (hstep : ∀ s i, ok s i → I s → I (step s i))
    (hgood : ∀ s i, ok s i → I s → good s i) (h : I s) (hok : Along step ok s is) :
    Along step good s is := by
  induction is generalizing s with
  | nil => trivial
  | cons i is ih => exact ⟨hgood s i hok.1 h, ih (hstep s i hok.1 h) hok.2⟩

/-- A relation that every step keeps and composes holds between the ends of a run. -/
theorem exec_rel {R : σ → σ → Prop} (hrefl : ∀ s, R s s) (htrans : ∀ {a b c}, R a b → R b c → R a c)
    (hstep : ∀ s i, R s (step s i)) (s : σ) (is : List ι) : R s (exec step s is) := by
  induction is generalizing s with
  | nil => exact hrefl s
  | cons i is ih => exact htrans (hstep s i) (ih (step s i))

end Run
