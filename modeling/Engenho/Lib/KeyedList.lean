import Mathlib.Data.List.Basic
import Mathlib.Data.List.Nodup

/-!
# Lists with one element for each key

A change concerns one key: it adds an element at the end, puts another in its place, or takes it
away (`Change`). It leaves the other keys alone, and a run of changes keeps the order: first what
was there and was never taken away, in its old order, then the new elements in the order of the
changes that brought them (`Run.order`).
-/

universe u v
namespace KeyedList
open List
variable {κ : Type u} {α : Type v} [DecidableEq κ] (key : α → Option κ)

/-- Every element has a key, and no two the same. -/
structure Keyed (l : List α) : Prop where
  keyed : ∀ x ∈ l, (key x).isSome = true
  distinct : (l.map key).Nodup

/-- A change at the key `k` that leaves `new` there. -/
inductive Change (k : κ) (l : List α) : Option α → List α → Prop
  | keep (h : l.findIdx? (fun x => key x = some k) = none) : Change k l none l
  | add (x : α) (hx : key x = some k) (h : l.findIdx? (fun x => key x = some k) = none) :
      Change k l (some x) (l ++ [x])
  | erase (i : Nat) (h : l.findIdx? (fun x => key x = some k) = some i) : Change k l none
    (l.eraseIdx i)
  | put (i : Nat) (x : α) (hx : key x = some k)
      (h : l.findIdx? (fun x => key x = some k) = some i) :
      Change k l (some x) (l.set i x)

/-- Changes one after another, each with its key and what it leaves there. -/
inductive Run : List α → List (κ × Option α) → List α → Prop
  | nil (l : List α) : Run l [] l
  | cons {l mid l' : List α} {k : κ} {new : Option α} {cs : List (κ × Option α)}
      (h : Change key k l new mid) (hrun : Run mid cs l') : Run l ((k, new) :: cs) l'

variable {key} {k k' : κ} {l mid l' : List α} {new : Option α}

theorem not_mem_keys (h : l.findIdx? (fun x => key x = some k) = none) : some k ∉ l.map key := by
  intro hmem
  obtain ⟨x, hx, hkx⟩ := mem_map.mp hmem
  have := List.findIdx?_eq_none_iff.mp h x hx
  simp [hkx] at this

/-- The list before and after the place of a key. -/
theorem keys_split {i : Nat} (hl : Keyed key l)
    (h : l.findIdx? (fun x => key x = some k) = some i) :
    ∃ pre x post, l = pre ++ x :: post ∧ l.eraseIdx i = pre ++ post ∧
    (∀ y, l.set i y = pre ++ y :: post) ∧
      key x = some k ∧ some k ∉ pre.map key ∧ some k ∉ post.map key := by
  obtain ⟨hlt, hk, -⟩ := List.findIdx?_eq_some_iff_getElem.mp h
  have hk : key l[i] = some k := by simpa using hk
  have hsplit : l = l.take i ++ l[i] :: l.drop (i + 1) := by
    rw [getElem_cons_drop, take_append_drop]
  refine ⟨l.take i, l[i], l.drop (i + 1), hsplit, eraseIdx_eq_take_drop_succ ..,
    fun y => ?_, hk, ?_⟩
  · rw [set_eq_take_append_cons_drop, if_pos hlt]
  · have hnd := hl.distinct
    rw [hsplit, map_append, map_cons, hk, nodup_middle, nodup_cons, mem_append, not_or] at hnd
    exact hnd.1

theorem filter_of_not_mem {ks : List (Option κ)} (h : some k ∉ ks) : ks.filter (· ≠ some k) = ks :=
  filter_eq_self.mpr fun _ ha => decide_eq_true (ne_of_mem_of_not_mem ha h)

theorem Change.keys (hl : Keyed key l) (h : Change key k l new mid) :
    mid.map key = if new.isSome then (if some k ∈ l.map key then l.map key else l.map key ++
      [some k])
      else (l.map key).filter (· ≠ some k) := by
  cases h with
  | keep h => rw [if_neg (by simp), filter_of_not_mem (not_mem_keys h)]
  | add x hx h =>
    rw [Option.isSome_some, if_pos rfl, if_neg (not_mem_keys h), map_append, map_singleton, hx]
  | erase i h =>
    obtain ⟨pre, x, post, hsplit, herase, -, hx, hpre, hpost⟩ := keys_split hl h
    rw [if_neg (by simp), herase, hsplit, map_append, map_append, filter_append, map_cons,
      filter_cons_of_neg (by simp [hx]), filter_of_not_mem hpre, filter_of_not_mem hpost]
  | put i x hx h =>
    obtain ⟨pre, y, post, hsplit, -, hset, hy, -, -⟩ := keys_split hl h
    rw [hset, hsplit]
    simp [hx, hy]

theorem Change.keyed (hl : Keyed key l) (h : Change key k l new mid) : Keyed key mid := by
  refine ⟨?_, ?_⟩
  · intro x hx
    cases h with
    | keep => exact hl.keyed x hx
    | add y hy _ =>
      rcases mem_append.mp hx with hx | hx
      · exact hl.keyed x hx
      · rw [mem_singleton.mp hx, hy]
        rfl
    | erase => exact hl.keyed x (mem_of_mem_eraseIdx hx)
    | put i y hy _ =>
      rcases mem_or_eq_of_mem_set hx with hx | rfl
      · exact hl.keyed x hx
      · rw [hy]
        rfl
  · rw [h.keys hl]
    split
    · split
      · exact hl.distinct
      · rename_i hk
        refine List.Nodup.append hl.distinct (nodup_singleton _) ?_
        exact disjoint_singleton.mpr hk
    · exact hl.distinct.filter _

theorem find?_none_of_not_mem (h : some k ∉ l.map key) :
    l.find? (fun x => key x = some k) = none := by
  refine List.find?_eq_none.mpr fun x hx hcon => h ?_
  rw [← of_decide_eq_true hcon]
  exact mem_map_of_mem hx

theorem Change.find?_self (hl : Keyed key l) (h : Change key k l new mid) :
    mid.find? (fun x => key x = some k) = new := by
  cases h with
  | keep h => exact find?_none_of_not_mem (not_mem_keys h)
  | add x hx h =>
    rw [List.find?_append, find?_none_of_not_mem (not_mem_keys h)]
    simp [hx]
  | erase i h =>
    obtain ⟨pre, x, post, -, herase, -, -, hpre, hpost⟩ := keys_split hl h
    rw [herase, List.find?_append, find?_none_of_not_mem hpre, find?_none_of_not_mem hpost]
    rfl
  | put i x hx h =>
    obtain ⟨pre, y, post, -, -, hset, -, hpre, -⟩ := keys_split hl h
    rw [hset, List.find?_append, find?_none_of_not_mem hpre, List.find?_cons_of_pos (by simp [hx])]
    rfl

theorem Change.find?_other (hl : Keyed key l) (h : Change key k l new mid) (hne : k' ≠ k) :
    mid.find? (fun x => key x = some k') = l.find? (fun x => key x = some k') := by
  have hskip : ∀ {x}, key x = some k → ∀ xs : List α,
      (x :: xs).find? (fun x => key x = some k') = xs.find? (fun x => key x = some k') := by
    intro x hx xs
    refine List.find?_cons_of_neg ?_
    rw [hx]
    simpa using fun hcon : k = k' => hne hcon.symm
  cases h with
  | keep => rfl
  | add x hx _ =>
    rw [List.find?_append, hskip hx]
    simp
  | erase i h =>
    obtain ⟨pre, x, post, hsplit, herase, -, hx, -, -⟩ := keys_split hl h
    rw [herase, hsplit, List.find?_append, List.find?_append, hskip hx]
  | put i x hx h =>
    obtain ⟨pre, y, post, hsplit, -, hset, hy, -, -⟩ := keys_split hl h
    rw [hset, hsplit, List.find?_append, List.find?_append, hskip hx, hskip hy]

variable {cs : List (κ × Option α)}

theorem Run.keyed (hl : Keyed key l) (h : Run key l cs l') : Keyed key l' := by
  induction h with
  | nil => exact hl
  | cons hstep _ ih => exact ih (hstep.keyed hl)

/-- The changes take the key away at some time. -/
def erased (cs : List (κ × Option α)) (k : Option κ) : Bool :=
  cs.any fun c => decide (some c.1 = k) && c.2.isNone

/-- What was there and was never taken away comes first, in its old order; the rest comes in the
order of the changes. -/
theorem Run.order (hl : Keyed key l) (h : Run key l cs l') :
    ∃ news, l'.map key = (l.map key).filter (fun k => !erased cs k) ++ news ∧
      news.Sublist (cs.map fun c => some c.1) := by
  induction h with
  | nil => exact ⟨[], by simp [erased], List.Sublist.refl _⟩
  | @cons l mid l' k new cs hstep _ ih =>
    obtain ⟨news, hkeys, hsub⟩ := ih (hstep.keyed hl)
    rw [hstep.keys hl] at hkeys
    have hcons : ∀ a, erased ((k, new) :: cs) a =
        (decide (some k = a) && new.isNone || erased cs a) :=
      fun a => rfl
    cases new with
    | none =>
      refine ⟨news, ?_, hsub.cons _⟩
      rw [hkeys]
      simp only [Option.isSome_none, Bool.false_eq_true, if_false, filter_filter]
      congr 1
      refine filter_congr fun a _ => ?_
      rw [hcons]
      by_cases ha : a = some k
      · simp [ha]
      · have hka : ¬ some k = a := fun h => ha h.symm
        simp [ha, hka]
    | some x =>
      have hsame : (fun a => !erased ((k, some x) :: cs) a) = fun a => !erased cs a := by
        funext a
        rw [hcons]
        simp
      rw [hsame]
      simp only [Option.isSome_some, if_true] at hkeys
      split at hkeys
      · exact ⟨news, hkeys, hsub.cons _⟩
      · rw [filter_append, append_assoc] at hkeys
        refine ⟨_, hkeys, ?_⟩
        exact (filter_sublist).append hsub

end KeyedList
