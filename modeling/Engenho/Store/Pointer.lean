import Mathlib.Algebra.BigOperators.Group.Finset.Basic
import Mathlib.Algebra.Order.BigOperators.Group.Finset
import Engenho.Lib.Except
import Engenho.Store.Patch

/-!
# What the pointer operations do to a document

An operation on the pointer `/t/…` of an object changes the field `t` only (`OnlyField`). A removal
is described by `Removes`, and it makes its document lighter: `weight n` counts what a document
holds down to depth `n`, by lookups alone, and a removal at a depth of at most `n` lowers it
(`Removes.weigh`).
-/

namespace Engenho
open Assoc List Except
variable {v v' value x : Json} {t last path : String} {bad : PatchError} {ts : List String}
  {m : JsonMap}
variable {α : Type} {xs : List Json}

theorem map_fst_ok {r : Except PatchError (Json × α)} (h : r.map Prod.fst = .ok v) :
    ∃ a, r = .ok (v, a) := by
  cases r with
  | error e => cases h
  | ok p =>
    cases h
    exact ⟨p.2, rfl⟩

/-- Both are objects, and they differ in the field `t` at most. -/
def OnlyField (t : String) (v v' : Json) : Prop :=
  ∃ m m' : JsonMap, v = .obj m ∧ v' = .obj m' ∧ ∀ name, name ≠ t → m'.lookup name = m.lookup name

theorem OnlyField.get (h : OnlyField t v v') {name : String} (hn : name ≠ t) :
    v'.get name = v.get name := by
  obtain ⟨m, m', rfl, rfl, hm⟩ := h
  exact hm name hn

theorem modifyAt_onlyField {f : Json → Except PatchError (Json × α)} {a : α}
    (h : modifyAt bad f (t :: ts) (.obj m) = .ok (v', a)) : OnlyField t (.obj m) v' := by
  rw [modifyAt] at h
  split at h
  · cases h
  · obtain ⟨⟨x', a'⟩, -, h⟩ := of_bind_ok h
    cases h
    exact ⟨m, _, rfl, rfl, fun name hn => lookup_put_ne hn ..⟩

/-- The common shape of the three operations: `f` acts inside the parent of the last token. -/
theorem atParent_onlyField {f : String → Json → Except PatchError (Json × α)}
    (hf : ∀ {last : String} {m : JsonMap} {v' : Json} {a : α}, f last (.obj m) = .ok (v', a) →
      OnlyField last (.obj m) v') {a : α} (hlast : (t :: ts).getLast? = some last)
    (h : modifyAt bad (f last) (t :: ts).dropLast (.obj m) = .ok (v', a)) :
    OnlyField t (.obj m) v' := by
  cases ts with
  | nil =>
    cases hlast
    exact hf h
  | cons t' ts => exact modifyAt_onlyField h

theorem addLast_onlyField {a : Unit} (h : addLast bad last value (.obj m) = .ok (v', a)) :
    OnlyField last (.obj m) v' := by
  cases h
  exact ⟨m, _, rfl, rfl, fun name hn => lookup_put_ne hn ..⟩

theorem replaceLast_onlyField {a : Unit} (h : replaceLast bad last value (.obj m) = .ok (v', a)) :
    OnlyField last (.obj m) v' := by
  cases h
  exact ⟨m, _, rfl, rfl, fun name hn => lookup_put_ne hn ..⟩

theorem pointerAdd_onlyField (ht : pointerTokens path = t :: ts)
    (h : pointerAdd (.obj m) path value = .ok v') :
    OnlyField t (.obj m) v' := by
  unfold pointerAdd at h
  simp only [ht] at h
  split at h
  · rename_i hl
    simp at hl
  · rename_i last hl
    obtain ⟨a, ha⟩ := map_fst_ok h
    exact atParent_onlyField (f := fun last => addLast (.jsonPointer path) last value)
      addLast_onlyField hl ha

theorem pointerReplace_onlyField (ht : pointerTokens path = t :: ts)
    (h : pointerReplace (.obj m) path value = .ok v') : OnlyField t (.obj m) v' := by
  unfold pointerReplace at h
  simp only [ht] at h
  split at h
  · rename_i hl
    simp at hl
  · rename_i last hl
    obtain ⟨a, ha⟩ := map_fst_ok h
    exact atParent_onlyField (f := fun last => replaceLast (.jsonPointer path) last value)
      replaceLast_onlyField hl ha

/-! ## Removals -/

/-- `v'` is `v` without what stands at the tokens. -/
inductive Removes : List String → Json → Json → Prop where
  | field {t : String} {m : JsonMap} {x : Json} (hx : m.lookup t = some x) :
      Removes [t] (.obj m) (.obj (Assoc.drop t m))
  | item {t : String} {xs : List Json} {i : Nat} (ht : parseUsize t = some i) (hi : i < xs.length) :
      Removes [t] (.arr xs) (.arr (xs.eraseIdx i))
  | underField {t : String} {ts : List String} {m : JsonMap} {x x' : Json}
      (hx : m.lookup t = some x) (h : Removes ts x x') :
      Removes (t :: ts) (.obj m) (.obj (Assoc.put t x' m))
  | underItem {t : String} {ts : List String} {xs : List Json} {i : Nat} {x x' : Json}
      (ht : parseUsize t = some i) (hx : xs[i]? = some x) (h : Removes ts x x') :
      Removes (t :: ts) (.arr xs) (.arr (xs.set i x'))

theorem removeLast_removes (h : removeLast bad last v = .ok (v', x)) : Removes [last] v v' := by
  cases v with
  | obj m =>
    rw [removeLast] at h
    split at h
    · cases h
    · rename_i hx
      cases h
      exact .field hx
  | arr xs =>
    rw [removeLast] at h
    split at h
    · cases h
    rename_i hi
    split at h
    · cases h
    · rename_i hx
      cases h
      exact .item hi (List.getElem?_eq_some_iff.mp hx).1
  | _ => cases h

theorem modifyAt_removes (h : modifyAt bad (removeLast bad last) ts v = .ok (v', x)) :
    Removes (ts ++ [last]) v v' := by
  induction ts generalizing v v' x with
  | nil => exact removeLast_removes h
  | cons t ts ih =>
    cases v with
    | obj m =>
      rw [modifyAt] at h
      split at h
      · cases h
      · rename_i y hy
        obtain ⟨⟨y', x'⟩, hr, h⟩ := of_bind_ok h
        cases h
        exact .underField hy (ih hr)
    | arr xs =>
      rw [modifyAt] at h
      split at h
      · cases h
      rename_i hi
      split at h
      · cases h
      · rename_i y hy
        obtain ⟨⟨y', x'⟩, hr, h⟩ := of_bind_ok h
        cases h
        exact .underItem hi hy (ih hr)
    | _ => cases h

theorem pointerRemove_removes {doc doc' : Json} (hne : pointerTokens path ≠ [])
    (h : pointerRemove doc path = .ok (doc', x)) : Removes (pointerTokens path) doc doc' := by
  unfold pointerRemove at h
  simp only at h
  split at h
  · rename_i hl
    exact absurd (List.getLast?_eq_none_iff.mp hl) hne
  · rename_i last hl
    have hsplit : pointerTokens path = (pointerTokens path).dropLast ++ [last] := by
      obtain ⟨pre, hpre⟩ := List.getLast?_eq_some_iff.mp hl
      rw [hpre, dropLast_concat]
    rw [hsplit]
    exact modifyAt_removes h

theorem Removes.onlyField (h : Removes (t :: ts) (.obj m) v') : OnlyField t (.obj m) v' := by
  cases h with
  | field hx => exact ⟨m, _, rfl, rfl, fun name hn => lookup_drop_ne hn _⟩
  | underField hx _ => exact ⟨m, _, rfl, rfl, fun name hn => lookup_put_ne hn ..⟩

/-- The field a removal goes through: it is gone, or something is gone from it. -/
theorem Removes.get_field (h : Removes (t :: ts) (.obj m) v') : ∃ x, m.lookup t = some x ∧
      ((ts = [] ∧ v'.get t = none) ∨ ∃ x', v'.get t = some x' ∧ Removes ts x x') := by
  cases h with
  | field hx => exact ⟨_, hx, .inl ⟨rfl, lookup_drop_self t m⟩⟩
  | underField hx hr => exact ⟨_, hx, .inr ⟨_, lookup_put_self .., hr⟩⟩

/-! ## Weight -/

/-- The keys an object can be asked for. -/
def keySet (m : JsonMap) : Finset String := (m.map Prod.fst).toFinset

theorem mem_keySet {k : String} : k ∈ keySet m ↔ ∃ x, m.lookup k = some x := by
  rw [keySet, mem_toFinset]
  constructor
  · intro h
    induction m with
    | nil => simp at h
    | cons e m ih =>
      obtain ⟨k', x⟩ := e
      rw [lookup_cons_ite]
      split
      · exact ⟨x, rfl⟩
      · rename_i hk
        refine ih ?_
        rw [map_cons, mem_cons] at h
        exact h.resolve_left hk
  · rintro ⟨x, hx⟩
    exact mem_map.mpr ⟨_, mem_of_lookup hx, rfl⟩

/-- What a document holds down to depth `n`. An object counts each of its keys once. -/
def weight : Nat → Json → Nat
  | n + 1, .obj m => ∑ k ∈ keySet m, (1 + weight n ((m.lookup k).getD .null))
  | n + 1, .arr xs => (xs.map fun x => 1 + weight n x).sum
  | _, _ => 0

theorem keySet_put (hx : m.lookup t = some x) (x' : Json) : keySet (put t x' m) = keySet m := by
  ext k
  rw [mem_keySet, mem_keySet, lookup_put]
  split
  · rename_i hk
    subst hk
    simp [hx]
  · rfl

theorem keySet_drop (m : JsonMap) (t : String) : keySet (drop t m) = (keySet m).erase t := by
  ext k
  rw [mem_keySet, Finset.mem_erase, mem_keySet, lookup_drop]
  split
  · rename_i hk
    simp [hk]
  · rename_i hk
    simp [hk]

/-- The weight of an object is that of the field `t` and that of the other fields. -/
theorem weight_obj (hx : m.lookup t = some x) (n : Nat) :
    weight (n + 1) (.obj m) = (1 + weight n x) +
      ∑ k ∈ (keySet m).erase t, (1 + weight n ((m.lookup k).getD .null)) := by
  rw [weight, ← Finset.add_sum_erase _ _ (mem_keySet.mpr ⟨x, hx⟩), hx]
  rfl

theorem weight_drop (hx : m.lookup t = some x) (n : Nat) :
    weight (n + 1) (.obj m) = (1 + weight n x) + weight (n + 1) (.obj (drop t m)) := by
  rw [weight_obj hx, weight, keySet_drop]
  congr 1
  refine Finset.sum_congr rfl fun k hk => ?_
  rw [lookup_drop_ne (Finset.ne_of_mem_erase hk)]

theorem weight_put (hx : m.lookup t = some x) (x' : Json) (n : Nat) :
    weight (n + 1) (.obj (put t x' m)) + weight n x = weight (n + 1) (.obj m) + weight n x' := by
  have hrest : ∑ k ∈ (keySet (put t x' m)).erase t,
      (1 + weight n (((put t x' m).lookup k).getD .null)) =
      ∑ k ∈ (keySet m).erase t, (1 + weight n ((m.lookup k).getD .null)) := by
    rw [keySet_put hx]
    refine Finset.sum_congr rfl fun k hk => ?_
    rw [lookup_put_ne (Finset.ne_of_mem_erase hk)]
  rw [weight_obj hx, weight_obj (lookup_put_self t x' m)]
  omega

theorem weight_eraseIdx {i : Nat} (hi : i < xs.length) (n : Nat) :
    weight (n + 1) (.arr (xs.eraseIdx i)) < weight (n + 1) (.arr xs) := by
  rw [weight, weight]
  induction xs generalizing i with
  | nil => simp at hi
  | cons x xs ih =>
    cases i with
    | zero => simp
    | succ i =>
      have := ih (by simpa using hi)
      simpa using this

theorem weight_set {i : Nat} (hx : xs[i]? = some x) (x' : Json) (n : Nat) :
    weight (n + 1) (.arr (xs.set i x')) + weight n x = weight (n + 1) (.arr xs) + weight n x' := by
  rw [weight, weight]
  induction xs generalizing i with
  | nil => simp at hx
  | cons y xs ih =>
    cases i with
    | zero =>
      cases hx
      simp
      omega
    | succ i =>
      have := ih (by simpa using hx)
      rw [set_cons_succ, map_cons, sum_cons, map_cons, sum_cons]
      omega

/-- A removal never makes a document heavier, and it makes it lighter if it is deep enough
counted. -/
theorem Removes.weigh (h : Removes ts v v') (n : Nat) :
    weight n v' ≤ weight n v ∧ (ts.length ≤ n → weight n v' < weight n v) := by
  induction h generalizing n with
  | field hx =>
    cases n with
    | zero => exact ⟨le_rfl, fun h => absurd h (by simp)⟩
    | succ n =>
      have := weight_drop hx n
      omega
  | item _ hi =>
    cases n with
    | zero => exact ⟨le_rfl, fun h => absurd h (by simp)⟩
    | succ n => exact ⟨(weight_eraseIdx hi n).le, fun _ => weight_eraseIdx hi n⟩
  | @underField t ts m x x' hx _ ih =>
    cases n with
    | zero => exact ⟨le_rfl, fun h => absurd h (by simp)⟩
    | succ n =>
      have hput := weight_put hx x' n
      obtain ⟨hle, hlt⟩ := ih n
      refine ⟨by omega, fun hlen => ?_⟩
      have := hlt (by simpa using hlen)
      omega
  | @underItem t ts xs i x x' _ hx _ ih =>
    cases n with
    | zero => exact ⟨le_rfl, fun h => absurd h (by simp)⟩
    | succ n =>
      have hset := weight_set hx x' n
      obtain ⟨hle, hlt⟩ := ih n
      refine ⟨by omega, fun hlen => ?_⟩
      have := hlt (by simpa using hlen)
      omega

/-- The weight of a field: nothing if it is absent. -/
def fieldWeight (n : Nat) : Option Json → Nat
  | none => 0
  | some v => 1 + weight n v

theorem Removes.weighField (h : Removes (t :: ts) (.obj m) v') (n : Nat) :
    fieldWeight n (v'.get t) ≤ fieldWeight n (m.lookup t) ∧
      (ts.length ≤ n → fieldWeight n (v'.get t) < fieldWeight n (m.lookup t)) := by
  obtain ⟨x, hx, ⟨-, hgone⟩ | ⟨x', hx', hr⟩⟩ := h.get_field
  · rw [hx, hgone]
    simp only [fieldWeight]
    omega
  · rw [hx, hx']
    obtain ⟨hle, hlt⟩ := hr.weigh n
    simp only [fieldWeight]
    exact ⟨by omega, fun hlen => by have := hlt hlen; omega⟩

end Engenho
