import Mathlib.Data.List.Basic
import Mathlib.Data.List.Infix

/-!
# Pages of the matches of a run, read in chunks

A run `xs` is read in chunks of `L` entries, and the entries that satisfy `p` are handed out in
pages of `L`. `cut p t xs` is the number of entries up to and including the `t`-th match. `series p
L xs` is what a reader collects that asks for another page only while entries lie beyond the chunk
its page filled up in. It is a prefix of the matches (`series_prefix`), and all of them exactly when
no page that leaves a match behind fills up in the last chunk (`series_eq_iff`).
-/

universe u
namespace Paging
open List Nat
variable {α : Type u} (p : α → Bool)

/-- The number of entries up to and including the `t`-th match; all of them if there are fewer. -/
def cut : Nat → List α → Nat
  | 0, _ => 0
  | _ + 1, [] => 0
  | t + 1, x :: xs => 1 + if p x then cut t xs else cut (t + 1) xs

@[simp] theorem cut_zero (xs : List α) : cut p 0 xs = 0 := by cases xs <;> rfl

@[simp] theorem cut_nil (t : Nat) : cut p t ([] : List α) = 0 := by cases t <;> rfl

theorem cut_cons_pos {x : α} (hx : p x = true) (t : Nat) (xs : List α) :
    cut p (t + 1) (x :: xs) = 1 + cut p t xs := by
  rw [cut, if_pos hx]

variable {t L : Nat}

theorem cut_cons_neg {x : α} (hx : ¬ p x = true) (ht : t ≠ 0) (xs : List α) :
    cut p t (x :: xs) = 1 + cut p t xs := by
  obtain ⟨t, rfl⟩ := exists_eq_succ_of_ne_zero ht
  rw [cut, if_neg hx]

theorem cut_le_length (t : Nat) (xs : List α) : cut p t xs ≤ xs.length := by
  induction xs generalizing t with
  | nil => simp
  | cons x xs ih =>
    cases t with
    | zero => simp
    | succ t =>
      have h₁ := ih t
      have h₂ := ih (t + 1)
      rw [cut, length_cons]
      split <;> omega

variable {xs : List α}

theorem cut_pos (ht : 0 < t) (hxs : xs ≠ []) : 0 < cut p t xs := by
  obtain ⟨t, rfl⟩ := exists_eq_succ_of_ne_zero ht.ne'
  obtain ⟨x, xs, rfl⟩ := exists_cons_of_ne_nil hxs
  rw [cut]
  omega

/-- The entries up to the `t`-th match hold the first `t` matches, those beyond it the others. -/
theorem filter_cut (t : Nat) (xs : List α) :
    (xs.take (cut p t xs)).filter p = (xs.filter p).take t ∧
      (xs.drop (cut p t xs)).filter p = (xs.filter p).drop t := by
  induction xs generalizing t with
  | nil => simp
  | cons x xs ih =>
    by_cases ht : t = 0
    · subst ht
      simp
    by_cases hx : p x = true
    · obtain ⟨t, rfl⟩ := exists_eq_succ_of_ne_zero ht
      rw [cut_cons_pos p hx, Nat.add_comm 1]
      simp [hx, ih t]
    · rw [cut_cons_neg p hx ht, Nat.add_comm 1]
      simp [hx, ih t]

theorem cut_add (s t : Nat) (xs : List α) :
    cut p (s + t) xs = cut p s xs + cut p t (xs.drop (cut p s xs)) := by
  induction xs generalizing s with
  | nil => simp
  | cons x xs ih =>
    by_cases hs : s = 0
    · subst hs
      simp
    by_cases hx : p x = true
    · obtain ⟨s, rfl⟩ := exists_eq_succ_of_ne_zero hs
      rw [succ_eq_add_one, Nat.add_right_comm, cut_cons_pos p hx, cut_cons_pos p hx, ih s,
        Nat.add_comm 1 (cut p s xs), drop_succ_cons]
      omega
    · rw [cut_cons_neg p hx (by omega), cut_cons_neg p hx hs, ih s, Nat.add_comm 1 (cut p s xs),
        drop_succ_cons]
      omega

/-- The `t`-th match of two runs lies in the first if that has so many, else in the second. -/
theorem cut_append (t : Nat) (xs ys : List α) : cut p t (xs ++ ys) =
      if t ≤ (xs.filter p).length then cut p t xs
      else xs.length + cut p (t - (xs.filter p).length) ys := by
  induction xs generalizing t with
  | nil =>
    by_cases ht : t = 0
    · subst ht
      simp
    · simp [ht]
  | cons x xs ih =>
    by_cases ht : t = 0
    · subst ht
      simp
    by_cases hx : p x = true
    · obtain ⟨t, rfl⟩ := exists_eq_succ_of_ne_zero ht
      have hlen : ((x :: xs).filter p).length = (xs.filter p).length + 1 := by simp [hx]
      rw [cons_append, succ_eq_add_one, cut_cons_pos p hx, cut_cons_pos p hx, ih t, hlen,
        length_cons, Nat.add_sub_add_right]
      split <;> split <;> omega
    · have hlen : ((x :: xs).filter p).length = (xs.filter p).length := by simp [hx]
      rw [cons_append, cut_cons_neg p hx ht, cut_cons_neg p hx ht, ih t, hlen, length_cons]
      split <;> omega

/-- The `t`-th match is the last entry of the run up to it. -/
theorem getLast?_take_cut (ht : 0 < t) (hle : t ≤ (xs.filter p).length) :
    (xs.take (cut p t xs)).getLast? = ((xs.filter p).take t).getLast? := by
  induction xs generalizing t with
  | nil => simp at hle; omega
  | cons x xs ih =>
    by_cases hx : p x = true
    · obtain ⟨t, rfl⟩ := exists_eq_succ_of_ne_zero ht.ne'
      rw [cut_cons_pos p hx, Nat.add_comm 1]
      simp only [filter_cons, hx, ↓reduceIte, take_succ_cons, length_cons] at hle ⊢
      by_cases ht : t = 0
      · subst ht
        simp
      · rw [List.getLast?_cons, List.getLast?_cons, ih (by omega) (by omega)]
    · rw [cut_cons_neg p hx ht.ne', Nat.add_comm 1, take_succ_cons, List.getLast?_cons]
      have hfil : (x :: xs).filter p = xs.filter p := by simp [hx]
      rw [hfil] at hle ⊢
      rw [ih ht hle]
      -- the first `t` matches are not empty, so the default is not used
      have hne : (xs.filter p).take t ≠ [] := by
        intro h
        have hlen := congrArg List.length h
        rw [length_take, length_nil] at hlen
        omega
      rw [List.getLast?_eq_some_getLast hne]
      rfl

/-! ## Chunks -/

/-- The end of the chunk of size `L` that holds the `k`-th entry. -/
def roundUp (L k : Nat) : Nat := (k + (L - 1)) / L * L

theorem roundUp_le_of_le {k : Nat} (hk : 0 < k) (h : k ≤ L) : roundUp L k = L := by
  have hL : 0 < L := by omega
  have : (k + (L - 1)) / L = 1 := by
    rw [Nat.div_eq_iff hL]
    omega
  rw [roundUp, this, Nat.one_mul]

theorem roundUp_add {k : Nat} (hL : 0 < L) : roundUp L (L + k) = L + roundUp L k := by
  rw [roundUp, roundUp, Nat.add_assoc, add_div_left _ hL, succ_mul, Nat.add_comm]

/-- What a reader collects that asks for the next page only if entries lie beyond the chunk in which
its page filled up. -/
def series (L : Nat) : Nat → List α → List α
  | 0, _ => []
  | fuel + 1, xs =>
    let page := (xs.filter p).take L
    if L ≤ (xs.filter p).length ∧ roundUp L (cut p L xs) < xs.length then
      page ++ series L fuel (xs.drop (cut p L xs))
    else page

theorem series_prefix (L fuel : Nat) (xs : List α) : series p L fuel xs <+: xs.filter p := by
  induction fuel generalizing xs with
  | zero => exact nil_prefix
  | succ fuel ih =>
    rw [series]
    split
    · have hrest := ih (xs.drop (cut p L xs))
      rw [(filter_cut p L xs).2] at hrest
      have := (prefix_append_right_inj ((xs.filter p).take L)).mpr hrest
      rwa [take_append_drop] at this
    · exact take_prefix L _

/-- No page that leaves a match behind fills up in the last chunk. The page after the first `j * L`
matches begins behind entry `cut p (j * L) xs`. -/
def FillsBeforeEnd (L : Nat) (xs : List α) : Prop :=
  ∀ j, (j + 1) * L < (xs.filter p).length →
    cut p (j * L) xs + roundUp L (cut p ((j + 1) * L) xs - cut p (j * L) xs) < xs.length

/-- The condition for a run is the one for its first page and the one for what follows that page. -/
theorem fillsBeforeEnd_iff (hcount : L < (xs.filter p).length) : FillsBeforeEnd p L xs ↔
      roundUp L (cut p L xs) < xs.length ∧ FillsBeforeEnd p L (xs.drop (cut p L xs)) := by
  have hlen : ((xs.drop (cut p L xs)).filter p).length = (xs.filter p).length - L := by
    rw [(filter_cut p L xs).2, length_drop]
  have hshift : ∀ j, cut p ((j + 1) * L) xs =
      cut p L xs + cut p (j * L) (xs.drop (cut p L xs)) := by
    intro j
    rw [succ_mul, Nat.add_comm, cut_add]
  constructor
  · intro h
    refine ⟨by simpa using h 0 (by simpa using hcount), fun j hj => ?_⟩
    have hj' := h (j + 1) (by rw [succ_mul]; omega)
    rw [hshift j, hshift (j + 1), Nat.add_sub_add_left] at hj'
    rw [length_drop]
    omega
  · rintro ⟨h₀, h⟩ j hj
    cases j with
    | zero => simpa using h₀
    | succ j =>
      have hj' := h j (by rw [hlen]; rw [succ_mul (j + 1)] at hj; omega)
      rw [hshift j, hshift (j + 1), Nat.add_sub_add_left]
      rw [length_drop] at hj'
      omega

/-- The series collects every match exactly when no page that leaves a match behind fills up in the
last chunk. -/
theorem series_eq_iff (hL : 0 < L) {fuel : Nat} (hfuel : xs.length < fuel) :
    series p L fuel xs = xs.filter p ↔ FillsBeforeEnd p L xs := by
  induction fuel generalizing xs with
  | zero => omega
  | succ fuel ih =>
    have hsplit := take_append_drop L (xs.filter p)
    have hdrop := (filter_cut p L xs).2
    have next : xs ≠ [] → (series p L fuel (xs.drop (cut p L xs)) = (xs.filter p).drop L ↔
        FillsBeforeEnd p L (xs.drop (cut p L xs))) := by
      intro hne
      have hpos := cut_pos p hL hne
      have hlt : 0 < xs.length := length_pos_iff.mpr hne
      rw [← hdrop]
      exact ih (by rw [length_drop]; omega)
    rw [series]
    by_cases hcount : L < (xs.filter p).length
    · have hne : xs ≠ [] := by rintro rfl; simp at hcount
      rw [fillsBeforeEnd_iff p hcount]
      split
      · rename_i hc
        constructor
        · intro h
          refine ⟨hc.2, (next hne).mp ?_⟩
          exact append_cancel_left (h.trans hsplit.symm)
        · rintro ⟨-, h⟩
          rw [(next hne).mpr h, hsplit]
      · rename_i hc
        constructor
        · intro h
          have := congrArg List.length h
          rw [length_take] at this
          omega
        · rintro ⟨h, -⟩
          exact absurd ⟨hcount.le, h⟩ hc
    · -- at most one page of matches: nothing is left behind
      have hcond : FillsBeforeEnd p L xs := by
        intro j hj
        rw [succ_mul] at hj
        omega
      refine ⟨fun _ => hcond, fun _ => ?_⟩
      have htake : (xs.filter p).take L = xs.filter p := take_of_length_le (by omega)
      have hempty : (xs.drop (cut p L xs)).filter p = [] := by
        rw [hdrop]
        exact drop_of_length_le (by omega)
      have hrest : series p L fuel (xs.drop (cut p L xs)) = [] := by
        have := series_prefix p L fuel (xs.drop (cut p L xs))
        rw [hempty] at this
        exact prefix_nil.mp this
      split
      · rw [hrest, append_nil, htake]
      · exact htake

end Paging
