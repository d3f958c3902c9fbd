import Mathlib.Data.List.Basic
import Mathlib.Order.Lattice
import Mathlib.Order.Basic

/-!
# Logs in stamp order

A log is a list of items, each with a number as its stamp, stamps never decreasing. Cutting such a
log at a stamp is the same as selecting by stamp: `dropWhile_eq_above`, `takeWhile_eq_upTo`.
-/

universe u
namespace Stamped
open List
variable {α : Type u} (stamp : α → Nat)

/-- The stamps never decrease. -/
def Ordered (l : List α) : Prop := l.Pairwise fun a b => stamp a ≤ stamp b

/-- The items stamped above `r`. -/
def above (r : Nat) (l : List α) : List α := l.filter fun a => r < stamp a

/-- The items stamped `r` or below. -/
def upTo (r : Nat) (l : List α) : List α := l.filter fun a => stamp a ≤ r

variable {stamp} {l l' : List α} {r q : Nat}

theorem mem_above {a : α} : a ∈ above stamp r l ↔ a ∈ l ∧ r < stamp a := by simp [above]

@[simp] theorem above_nil : above stamp r [] = [] := rfl

@[simp] theorem above_append : above stamp r (l ++ l') = above stamp r l ++ above stamp r l' :=
  filter_append ..

@[simp] theorem upTo_append : upTo stamp r (l ++ l') = upTo stamp r l ++ upTo stamp r l' :=
  filter_append ..

theorem above_above (h : q ≤ r) : above stamp r (above stamp q l) = above stamp r l := by
  rw [above, above, filter_filter]
  refine filter_congr fun a _ => ?_
  by_cases ha : r < stamp a
  · simp [h.trans_lt ha]
  · simp [ha]

theorem above_eq_self (h : ∀ a ∈ l, r < stamp a) : above stamp r l = l :=
  filter_eq_self.mpr fun a ha => by simpa using h a ha

theorem above_eq_nil (h : ∀ a ∈ l, stamp a ≤ r) : above stamp r l = [] :=
  filter_eq_nil_iff.mpr fun a ha => by simpa using h a ha

theorem upTo_eq_self (h : ∀ a ∈ l, stamp a ≤ r) : upTo stamp r l = l :=
  filter_eq_self.mpr fun a ha => by simpa using h a ha

theorem upTo_eq_nil (h : ∀ a ∈ l, r < stamp a) : upTo stamp r l = [] :=
  filter_eq_nil_iff.mpr fun a ha => by simpa using h a ha

/-! ## Ordered logs -/

theorem Ordered.above (h : Ordered stamp l) : Ordered stamp (above stamp r l) :=
  List.Pairwise.sublist filter_sublist h

theorem Ordered.append (h : Ordered stamp l) (h' : Ordered stamp l')
    (hle : ∀ a ∈ l, ∀ b ∈ l', stamp a ≤ stamp b) : Ordered stamp (l ++ l') :=
  pairwise_append.mpr ⟨h, h', hle⟩

theorem ordered_of_const (h : ∀ a ∈ l, stamp a = r) : Ordered stamp l :=
  pairwise_of_forall_mem_list fun a ha b hb => ((h a ha).trans (h b hb).symm).le

section
variable (h : Ordered stamp l)
include h

theorem Ordered.dropWhile_eq_above :
    l.dropWhile (fun a => stamp a ≤ r) = Stamped.above stamp r l := by
  induction l with
  | nil => rfl
  | cons a l ih =>
    obtain ⟨ha, hl⟩ := pairwise_cons.mp h
    by_cases hr : stamp a ≤ r
    · rw [dropWhile_cons_of_pos (by simpa using hr), ih hl]
      simp [Stamped.above, hr]
    · rw [dropWhile_cons_of_neg (by simpa using hr), above_eq_self]
      intro b hb
      rcases mem_cons.mp hb with rfl | hb
      · omega
      · have := ha b hb; omega

theorem Ordered.takeWhile_eq_upTo :
    l.takeWhile (fun a => stamp a ≤ r) = Stamped.upTo stamp r l := by
  induction l with
  | nil => rfl
  | cons a l ih =>
    obtain ⟨ha, hl⟩ := pairwise_cons.mp h
    by_cases hr : stamp a ≤ r
    · rw [takeWhile_cons_of_pos (by simpa using hr), ih hl]
      simp [Stamped.upTo, hr]
    · rw [takeWhile_cons_of_neg (by simpa using hr), upTo_eq_nil]
      intro b hb
      rcases mem_cons.mp hb with rfl | hb
      · omega
      · have := ha b hb; omega

/-- An ordered log is what is stamped up to `r`, then what is stamped above. -/
theorem Ordered.upTo_append_above : Stamped.upTo stamp r l ++ Stamped.above stamp r l = l := by
  rw [← h.takeWhile_eq_upTo, ← h.dropWhile_eq_above]
  exact takeWhile_append_dropWhile

theorem Ordered.take_upTo : l.take (Stamped.upTo stamp r l).length = Stamped.upTo stamp r l := by
  have happ := h.upTo_append_above (r := r)
  exact (prefix_iff_eq_take.mp ⟨_, happ⟩).symm

theorem Ordered.drop_upTo : l.drop (Stamped.upTo stamp r l).length = Stamped.above stamp r l := by
  have happ := take_append_drop (Stamped.upTo stamp r l).length l
  rw [h.take_upTo] at happ
  exact append_cancel_left (happ.trans h.upTo_append_above.symm)

end

/-! ## Going on at a stamp -/

section
variable (stamp)

/-- After `sent`, going on above `r` gives what is above `q`, with nothing lost and nothing
repeated. -/
def Resumes (q r : Nat) (sent log : List α) : Prop :=
  sent ++ Stamped.above stamp r log = Stamped.above stamp q log

/-- No stamp is on both sides of the cut behind the first `n` items. -/
def CutsBetween (n : Nat) (l : List α) : Prop :=
  ∀ a ∈ l.take n, ∀ b ∈ l.drop n, stamp a ≠ stamp b

instance (n : Nat) (l : List α) : Decidable (CutsBetween stamp n l) :=
  inferInstanceAs (Decidable (∀ a ∈ l.take n, ∀ b ∈ l.drop n, stamp a ≠ stamp b))

end

theorem Resumes.append {sent : List α} (h : Resumes stamp q r sent l)
    (hr : ∀ a ∈ l', r < stamp a) (hq : ∀ a ∈ l', q < stamp a) :
    Resumes stamp q r sent (l ++ l') := by
  unfold Resumes at h ⊢
  rw [above_append, above_append, above_eq_self hr, above_eq_self hq, ← h, append_assoc]

end Stamped
