import Mathlib.Data.List.Sort
import Mathlib.Order.Basic
import Mathlib.Order.Lattice

/-!
# Ordered maps as sorted association lists

The raw operations `Assoc.put` and `Assoc.drop` work on any association list, so that they also
serve inside a nested inductive type, where a list can stand but a list with a proof cannot. Their
lookup laws need no hypothesis on the list.

`OrdMap κ α` is an association list with the proof that its keys increase. It is determined by
its lookups (`OrdMap.ext_get`).
-/

universe u v w x
namespace Assoc
open List
variable {κ : Type u} {α : Type v} [LinearOrder κ]

/-- `l` with `v` under `k`: in place of the entry of `k`, or in front of the first larger key. -/
def put (k : κ) (v : α) : List (κ × α) → List (κ × α)
  | [] => [(k, v)]
  | (k', v') :: l =>
    if k < k' then (k, v) :: (k', v') :: l
    else if k = k' then (k, v) :: l
    else (k', v') :: put k v l

/-- `l` without the entries of `k`. -/
def drop (k : κ) (l : List (κ × α)) : List (κ × α) := l.filter fun e => e.1 ≠ k

/-! ## Lookups -/

theorem lookup_cons_ite (k k' : κ) (v : α) (l : List (κ × α)) :
    ((k', v) :: l).lookup k = if k = k' then some v else l.lookup k := by
  by_cases h : k = k'
  · simp [h]
  · have : (k == k') = false := by simp [h]
    simp [lookup_cons, this, h]

theorem lookup_put (k k' : κ) (v : α) (l : List (κ × α)) :
    (put k v l).lookup k' = if k' = k then some v else l.lookup k' := by
  induction l with
  | nil => exact lookup_cons_ite ..
  | cons e l ih =>
    obtain ⟨k₀, v₀⟩ := e
    unfold put
    split
    · exact lookup_cons_ite ..
    split
    · rename_i h; subst h
      simp only [lookup_cons_ite]
      split <;> rfl
    · rename_i h
      rw [lookup_cons_ite, ih, lookup_cons_ite]
      by_cases h₀ : k' = k₀
      · subst h₀; simp [Ne.symm h]
      · simp [h₀]

theorem lookup_filter (p : κ → Bool) (k : κ) (l : List (κ × α)) :
    (l.filter fun e => p e.1).lookup k = if p k then l.lookup k else none := by
  induction l with
  | nil => simp
  | cons e l ih =>
    obtain ⟨k₀, v₀⟩ := e
    by_cases h₀ : p k₀
    · rw [filter_cons_of_pos (by simpa using h₀), lookup_cons_ite, ih, lookup_cons_ite]
      by_cases h : k = k₀
      · subst h; simp [h₀]
      · simp [h]
    · rw [filter_cons_of_neg (by simpa using h₀), ih, lookup_cons_ite]
      by_cases h : k = k₀
      · subst h; simp [h₀]
      · simp [h]

theorem lookup_drop (k k' : κ) (l : List (κ × α)) :
    (drop k l).lookup k' = if k' = k then none else l.lookup k' := by
  rw [drop, lookup_filter fun k' => decide (k' ≠ k)]
  by_cases h : k' = k <;> simp

@[simp] theorem lookup_put_self (k : κ) (v : α) (l : List (κ × α)) :
    (put k v l).lookup k = some v := by simp [lookup_put]

variable {k : κ}
variable {k' : κ} {e : κ × α} {ks : List κ}

theorem lookup_put_ne (h : k' ≠ k) (v : α) (l : List (κ × α)) :
    (put k v l).lookup k' = l.lookup k' := by simp [lookup_put, h]

@[simp] theorem lookup_drop_self (k : κ) (l : List (κ × α)) : (drop k l).lookup k = none := by
  simp [lookup_drop]

theorem lookup_drop_ne (h : k' ≠ k) (l : List (κ × α)) :
    (drop k l).lookup k' = l.lookup k' := by simp [lookup_drop, h]

variable {l : List (κ × α)} {v : α}

theorem mem_of_lookup (h : l.lookup k = some v) : (k, v) ∈ l := by
  obtain ⟨l₁, l₂, rfl, -⟩ := lookup_eq_some_iff.mp h
  simp

theorem lookup_map {β : Type v} (f : α → β) (k : κ) (l : List (κ × α)) :
    (l.map fun e => (e.1, f e.2)).lookup k = (l.lookup k).map f := by
  induction l with
  | nil => rfl
  | cons e l ih =>
    rw [map_cons, lookup_cons_ite, ih, lookup_cons_ite]
    split <;> rfl

theorem mem_put (h : e ∈ put k v l) : e = (k, v) ∨ e ∈ l := by
  induction l with
  | nil => simpa [put] using h
  | cons e₀ l ih =>
    unfold put at h
    split at h
    · simpa using h
    split at h
    · exact (mem_cons.mp h).imp_right (mem_cons_of_mem _)
    · rcases mem_cons.mp h with h | h
      · exact .inr (by simp [h])
      · exact (ih h).imp_right (mem_cons_of_mem _)

/-! ## Updates of one key -/

theorem length_put_of_lookup_none (h : l.lookup k = none) (v : α) :
    (put k v l).length = l.length + 1 := by
  induction l with
  | nil => rfl
  | cons e l ih =>
    obtain ⟨k', v'⟩ := e
    rw [lookup_cons_ite] at h
    have hne : k ≠ k' := by
      rintro rfl
      simp at h
    rw [if_neg hne] at h
    rw [put]
    split
    · rfl
    · simp [ih h]

theorem drop_of_lookup_none (h : l.lookup k = none) : drop k l = l := by
  refine filter_eq_self.mpr fun e he => ?_
  have hne : k ≠ e.1 := by simpa using lookup_eq_none_iff.mp h e he
  simpa using hne.symm

theorem put_of_forall_lt (h : ∀ e ∈ l, e.1 < k) (v : α) : put k v l = l ++ [(k, v)] := by
  induction l with
  | nil => rfl
  | cons e l ih =>
    have hlt : e.1 < k := h e (.head _)
    rw [put, if_neg hlt.not_gt, if_neg hlt.ne', ih fun e he => h e (.tail _ he)]
    rfl

theorem lookup_of_forall_lt (h : ∀ e ∈ l, e.1 < k) : l.lookup k = none := by
  cases hl : l.lookup k with
  | none => rfl
  | some v => exact absurd (h _ (mem_of_lookup hl)) (lt_irrefl k)

theorem put_put (k : κ) (v w : α) (l : List (κ × α)) : put k v (put k w l) = put k v l := by
  induction l with
  | nil => simp [put]
  | cons e l ih =>
    obtain ⟨k₀, v₀⟩ := e
    by_cases hlt : k < k₀
    · simp [put, hlt]
    · by_cases he : k = k₀
      · simp [put, he]
      · simp [put, hlt, he, ih]

theorem put_comm (h : k ≠ k') (v v' : α) (l : List (κ × α)) :
    put k v (put k' v' l) = put k' v' (put k v l) := by
  induction l with
  | nil =>
    rcases lt_or_gt_of_ne h with hlt | hgt
    · simp [put, hlt, hlt.not_gt, h.symm]
    · simp [put, hgt, hgt.not_gt, h]
  | cons e l ih =>
    obtain ⟨k₀, v₀⟩ := e
    -- each key goes in front of the head, in its place, or behind it
    rcases lt_trichotomy k k₀ with hk | hk | hk
    · rcases lt_trichotomy k' k₀ with hk' | hk' | hk'
      · rcases lt_or_gt_of_ne h with hlt | hgt
        · simp [put, hk, hk', hlt, hlt.not_gt, h.symm]
        · simp [put, hk, hk', hgt, hgt.not_gt, h]
      · subst hk'
        simp [put, hk, hk.not_gt, hk.ne']
      · have hkk' := hk.trans hk'
        simp [put, hk, hk'.not_gt, hk'.ne', hkk'.not_gt, hkk'.ne']
    · subst hk
      rcases lt_or_gt_of_ne h with hk' | hk'
      · simp [put, hk'.not_gt, hk'.ne']
      · simp [put, hk', hk'.not_gt, hk'.ne']
    · rcases lt_trichotomy k' k₀ with hk' | hk' | hk'
      · have hkk' := hk'.trans hk
        simp [put, hk', hk.not_gt, hk.ne', hkk'.not_gt, hkk'.ne']
      · subst hk'
        simp [put, hk.not_gt, hk.ne']
      · simp [put, hk.not_gt, hk.ne', hk'.not_gt, hk'.ne', ih]

/-- Putting what is there already under `k` changes nothing. So in every list in key order, and
wherever `k` was put. -/
def Steady (k : κ) (l : List (κ × α)) : Prop := ∀ v, l.lookup k = some v → put k v l = l

theorem Steady.put_self (k : κ) (v : α) (l : List (κ × α)) : Steady k (put k v l) := by
  intro w hw
  rw [lookup_put_self, Option.some.injEq] at hw
  rw [put_put, hw]

theorem Steady.put (h : Steady k l) (k' : κ) (v' : α) : Steady k (put k' v' l) := by
  by_cases hk : k = k'
  · subst hk
    exact Steady.put_self k v' l
  · intro v hv
    rw [lookup_put_ne hk] at hv
    rw [put_comm hk, h v hv]

/-- What is filtered out by its key may be put before. -/
theorem filter_put_of_neg {p : κ → Bool} (hp : p k = false) (v : α) (l : List (κ × α)) :
    (put k v l).filter (fun e => p e.1) = l.filter fun e => p e.1 := by
  induction l with
  | nil => simp [put, hp]
  | cons e l ih =>
    unfold put
    split
    · simp [hp]
    split
    · rename_i h
      subst h
      simp [hp]
    · simp only [filter_cons, ih]

theorem drop_put_self (k : κ) (v : α) (l : List (κ × α)) : drop k (put k v l) = drop k l :=
  filter_put_of_neg (p := fun k' => decide (k' ≠ k)) (by simp) v l

theorem drop_comm (k k' : κ) (l : List (κ × α)) : drop k (drop k' l) = drop k' (drop k l) :=
  filter_comm ..

/-! ## Lists that agree except at some keys -/

/-- The same keys in the same places, and the same values at all keys but `ks`. -/
def AgreeExcept (ks : List κ) (l l' : List (κ × α)) : Prop :=
  List.Forall₂ (fun e e' => e.1 = e'.1 ∧ (e.1 ∉ ks → e.2 = e'.2)) l l'

omit [LinearOrder κ] in
theorem AgreeExcept.refl (ks : List κ) (l : List (κ × α)) : AgreeExcept ks l l := by
  induction l with
  | nil => exact .nil
  | cons e l ih => exact .cons ⟨rfl, fun _ => rfl⟩ ih

variable {l' : List (κ × α)}

theorem AgreeExcept.put (h : AgreeExcept ks l l') {v' : α} (hv : k ∉ ks → v = v') :
    AgreeExcept ks (put k v l) (put k v' l') := by
  induction h with
  | nil => exact .cons ⟨rfl, hv⟩ .nil
  | cons he hrest ih =>
    rename_i e e' l l'
    obtain ⟨k₀, w⟩ := e
    obtain ⟨k₀', w'⟩ := e'
    obtain ⟨hk, hw⟩ := he
    obtain rfl : k₀ = k₀' := hk
    unfold Assoc.put
    split
    · exact .cons ⟨rfl, hv⟩ (.cons ⟨rfl, hw⟩ hrest)
    · split
      · exact .cons ⟨rfl, hv⟩ hrest
      · exact .cons ⟨rfl, hw⟩ ih

theorem AgreeExcept.lookup (h : AgreeExcept ks l l') (hk : k ∉ ks) : l.lookup k = l'.lookup k := by
  induction h with
  | nil => rfl
  | cons he hrest ih =>
    rename_i e e' l l'
    obtain ⟨k₀, w⟩ := e
    obtain ⟨k₀', w'⟩ := e'
    obtain ⟨hk₀, hw⟩ := he
    obtain rfl : k₀ = k₀' := hk₀
    rw [lookup_cons_ite, lookup_cons_ite]
    by_cases he : k = k₀
    · subst he
      simpa using hw hk
    · simpa [he] using ih

/-! ## Sorted lists -/

/-- The keys of `l` increase. -/
def Sorted (l : List (κ × α)) : Prop := l.Pairwise fun a b => a.1 < b.1

theorem Sorted.put (h : Sorted l) : Sorted (put k v l) := by
  induction l with
  | nil => simp [Sorted, Assoc.put]
  | cons e l ih =>
    obtain ⟨h₀, hl⟩ := pairwise_cons.mp h
    unfold Assoc.put
    split
    · rename_i hk
      refine pairwise_cons.mpr ⟨fun e he => ?_, h⟩
      rcases mem_cons.mp he with rfl | he
      · exact hk
      · exact hk.trans (h₀ e he)
    · split
      · rename_i hk; subst hk
        exact pairwise_cons.mpr ⟨h₀, hl⟩
      · rename_i hlt hne
        refine pairwise_cons.mpr ⟨fun e he => ?_, ih hl⟩
        rcases mem_put he with rfl | he
        · exact lt_of_le_of_ne (not_lt.mp hlt) (Ne.symm hne)
        · exact h₀ e he

theorem Sorted.drop (h : Sorted l) : Sorted (drop k l) := List.Pairwise.sublist filter_sublist h

theorem Sorted.map {β : Type v} (f : α → β) (h : Sorted l) : Sorted (l.map fun e => (e.1, f e.2)) :=
  pairwise_map.mpr h

theorem Sorted.filter (p : κ × α → Bool) (h : Sorted l) : Sorted (l.filter p) :=
  List.Pairwise.sublist filter_sublist h

theorem Sorted.nodup_keys (h : Sorted l) : (l.map Prod.fst).Nodup :=
  pairwise_map.mpr (h.imp fun hab => hab.ne)

theorem lookup_eq_some_iff_mem (h : (l.map Prod.fst).Nodup) : l.lookup k = some v ↔ (k, v) ∈ l := by
  refine ⟨mem_of_lookup, fun hmem => ?_⟩
  induction l with
  | nil => cases hmem
  | cons e l ih =>
    obtain ⟨he, hl⟩ := nodup_cons.mp h
    rw [lookup_cons_ite]
    rcases mem_cons.mp hmem with rfl | hmem
    · simp
    have hne : k ≠ e.1 := by
      rintro rfl
      exact he (mem_map.mpr ⟨_, hmem, rfl⟩)
    rw [if_neg hne]
    exact ih hl hmem

theorem Sorted.lookup_of_mem (h : Sorted l) (he : e ∈ l) : l.lookup e.1 = some e.2 :=
  (lookup_eq_some_iff_mem h.nodup_keys).mpr he

theorem Sorted.lookup_filter (h : Sorted l) (p : κ × α → Bool) (k : κ) :
    (l.filter p).lookup k = (l.lookup k).filter fun v => p (k, v) := by
  ext v
  rw [Option.filter_eq_some_iff]
  constructor
  · intro hl
    obtain ⟨hmem, hp⟩ := mem_filter.mp (mem_of_lookup hl)
    exact ⟨h.lookup_of_mem hmem, hp⟩
  · rintro ⟨hl, hp⟩
    exact (h.filter p).lookup_of_mem (e := (k, v)) (mem_filter.mpr ⟨mem_of_lookup hl, hp⟩)

/-- Behind a key of a sorted list lies what follows it. -/
theorem Sorted.filter_gt {pre post : List (κ × α)} (h : Sorted (pre ++ (k, v) :: post)) :
    (pre ++ (k, v) :: post).filter (fun e => decide (k < e.1)) = post := by
  obtain ⟨-, hpost, hpre⟩ := pairwise_append.mp h
  have hpost := (pairwise_cons.mp hpost).1
  have h₁ : pre.filter (fun e => decide (k < e.1)) = [] := by
    rw [filter_eq_nil_iff]
    intro e he
    have := hpre e he (k, v) (by simp)
    simpa using this.le
  have h₂ : post.filter (fun e => decide (k < e.1)) = post := by
    rw [filter_eq_self]
    intro e he
    simpa using hpost e he
  rw [filter_append, h₁, filter_cons, h₂]
  simp

theorem Sorted.nodup (h : Sorted l) : l.Nodup := h.imp fun hab he => hab.ne (congrArg Prod.fst he)

theorem Sorted.ext (h : Sorted l) (h' : Sorted l') (hl : ∀ k, l.lookup k = l'.lookup k) :
    l = l' := by
  have hmem : ∀ e, e ∈ l ↔ e ∈ l' := fun e =>
    ⟨fun he => mem_of_lookup (by rw [← hl]; exact h.lookup_of_mem he),
     fun he => mem_of_lookup (by rw [hl]; exact h'.lookup_of_mem he)⟩
  exact List.Perm.eq_of_pairwise (fun a b _ _ hab hba => absurd hab (lt_asymm hba)) h h'
    ((perm_ext_iff_of_nodup h.nodup h'.nodup).mpr hmem)

theorem Sorted.put_of_lookup (h : Sorted l) (hl : l.lookup k = some v) : Assoc.put k v l = l := by
  refine h.put.ext h fun k' => ?_
  rw [lookup_put]
  split
  · rename_i he
    rw [he, hl]
  · rfl

/-- Sorting entries with distinct keys by key keeps their lookups. -/
theorem sorted_insertionSort (h : (l.map Prod.fst).Nodup) :
    Sorted (l.insertionSort fun a b => a.1 ≤ b.1) ∧
      ∀ k, (l.insertionSort fun a b => a.1 ≤ b.1).lookup k = l.lookup k := by
  have hperm := perm_insertionSort (fun a b : κ × α => a.1 ≤ b.1) l
  have hkeys := (hperm.map Prod.fst).nodup_iff.mpr h
  have hle := pairwise_insertionSort (fun a b : κ × α => a.1 ≤ b.1) l
  refine ⟨?_, fun k => Option.ext fun v => ?_⟩
  · have hne := pairwise_map.mp hkeys
    exact hle.imp₂ (fun _ _ hab hne => lt_of_le_of_ne hab hne) hne
  · rw [lookup_eq_some_iff_mem hkeys, lookup_eq_some_iff_mem h, hperm.mem_iff]

/-- A fold over entries in key order, whose steps change what is observed of the state at their own
key only: at every key one entry counts. -/
theorem Sorted.foldl_observe {σ : Type w} {β : Type x} {step : σ → κ × α → σ} (obs : σ → κ → β)
    (upd : κ → α → β → β) (hne : ∀ s e k, k ≠ e.1 → obs (step s e) k = obs s k)
    (hself : ∀ s e, obs (step s e) e.1 = upd e.1 e.2 (obs s e.1)) (h : Sorted l) (s : σ) (k : κ) :
    obs (l.foldl step s) k = (l.lookup k).elim (obs s k) fun a => upd k a (obs s k) := by
  induction l generalizing s with
  | nil => rfl
  | cons e l ih =>
    obtain ⟨he, hl⟩ := pairwise_cons.mp h
    rw [foldl_cons, ih hl, lookup_cons_ite]
    by_cases hk : k = e.1
    · -- the rest of a sorted list does not mention the head's key
      have hn : l.lookup k = none := by
        cases hl' : l.lookup k with
        | none => rfl
        | some v => exact absurd hk (he _ (mem_of_lookup hl')).ne'
      subst hk
      simp [hn, hself]
    · rw [if_neg hk, hne s e k hk]

end Assoc

/-- A map from `κ` to `α`, its entries in key order. -/
structure OrdMap (κ : Type u) (α : Type v) [LinearOrder κ] where
  entries : List (κ × α)
  sorted : Assoc.Sorted entries

namespace OrdMap
variable {κ : Type u} {α : Type v} [LinearOrder κ]

instance [DecidableEq α] : DecidableEq (OrdMap κ α) := fun m m' =>
  decidable_of_iff (m.entries = m'.entries) (by cases m; cases m'; simp)

def empty : OrdMap κ α := ⟨[], List.Pairwise.nil⟩

def get (m : OrdMap κ α) (k : κ) : Option α := m.entries.lookup k

def insert (m : OrdMap κ α) (k : κ) (v : α) : OrdMap κ α := ⟨Assoc.put k v m.entries, m.sorted.put⟩

def erase (m : OrdMap κ α) (k : κ) : OrdMap κ α := ⟨Assoc.drop k m.entries, m.sorted.drop⟩

theorem ext_get {m m' : OrdMap κ α} (h : ∀ k, m.get k = m'.get k) : m = m' := by
  have := m.sorted.ext m'.sorted h
  cases m; cases m'; simp_all

@[simp] theorem get_empty (k : κ) : (empty : OrdMap κ α).get k = none := rfl

variable (m : OrdMap κ α)

theorem get_insert (k k' : κ) (v : α) :
    (m.insert k v).get k' = if k' = k then some v else m.get k' := Assoc.lookup_put ..

theorem get_erase (k k' : κ) : (m.erase k).get k' = if k' = k then none else m.get k' :=
  Assoc.lookup_drop ..

@[simp] theorem get_insert_self (k : κ) (v : α) : (m.insert k v).get k = some v := by
  simp [get_insert]

@[simp] theorem get_erase_self (k : κ) : (m.erase k).get k = none := by simp [get_erase]

variable {k : κ}

theorem get_insert_ne {k' : κ} (h : k' ≠ k) (v : α) :
    (m.insert k v).get k' = m.get k' := by simp [get_insert, h]

theorem get_erase_ne {k' : κ} (h : k' ≠ k) : (m.erase k).get k' = m.get k' := by simp [get_erase, h]

/-- The map of a list of entries, a later entry over an earlier one. -/
def ofList (l : List (κ × α)) : OrdMap κ α := l.foldl (fun m e => m.insert e.1 e.2) empty

/-- The map with `f` applied to every value. -/
def mapVal {β : Type v} (f : α → β) (m : OrdMap κ α) : OrdMap κ β :=
  ⟨m.entries.map fun e => (e.1, f e.2), Assoc.Sorted.map f m.sorted⟩

variable {l : List (κ × α)}

theorem get_foldl_insert (h : Assoc.Sorted l) (m : OrdMap κ α) (k : κ) :
    (l.foldl (fun m e => m.insert e.1 e.2) m).get k = (l.lookup k).or (m.get k) := by
  rw [Assoc.Sorted.foldl_observe get (fun _ v _ => some v)
    (fun m e k hk => get_insert_ne m hk e.2) (fun m e => get_insert_self m e.1 e.2) h]
  cases l.lookup k <;> rfl

theorem get_ofList (h : Assoc.Sorted l) (k : κ) : (ofList l).get k = l.lookup k := by
  rw [ofList, get_foldl_insert h]
  simp

/-- What is found in a map after inserts was inserted, or was there. -/
theorem mem_of_get_foldl_insert (l : List (κ × α)) : ∀ {m : OrdMap κ α} {k : κ} {v : α},
      (l.foldl (fun m e => m.insert e.1 e.2) m).get k = some v → (k, v) ∈ l ∨ m.get k = some v := by
  induction l with
  | nil => exact fun h => .inr h
  | cons e l ih =>
    intro m k v h
    rcases ih h with h | h
    · exact .inl (.tail _ h)
    rw [get_insert] at h
    split at h
    · rename_i hk
      cases h
      exact .inl (by rw [hk]; exact .head _)
    · exact .inr h

theorem mem_of_get_ofList {v : α} (h : (ofList l).get k = some v) : (k, v) ∈ l := by
  rcases mem_of_get_foldl_insert l h with h | h
  · exact h
  · cases h

theorem get_mapVal {β : Type v} (f : α → β) (m : OrdMap κ α) (k : κ) :
    (m.mapVal f).get k = (m.get k).map f := Assoc.lookup_map ..

theorem mem_entries {v : α} : (k, v) ∈ m.entries ↔ m.get k = some v :=
  ⟨fun h => m.sorted.lookup_of_mem h, Assoc.mem_of_lookup⟩

end OrdMap
