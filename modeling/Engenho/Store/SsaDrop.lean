import Mathlib.Data.List.Perm.Basic
import Engenho.Store.Ownership
import Engenho.Store.SsaApplied

/-!
# What an apply gives up

The fields that a manager owned and no longer applies are removed one path at a time, in the order
of its entry. Every removal only makes the document smaller (`Shrinks`), so that a value that is
gone stays gone where the lists on its way have one element per key (`single`):
`valueAt_foldl_removed`.

A list element is found by its key fields, and these are among the paths removed. An element whose
key goes while it has other fields is left behind without a key, and no later removal finds it
(`applySsa_leaves_remains`). `inOrder` is the condition that every key field goes last, and under it
the lists stay keyed: `keyed_foldl_removeAt`.
-/

namespace Engenho
open Assoc Json List
variable {env : Env} {gvk : Gvk} {x x' v doc start : Json} {t m : JsonMap} {a : String}
  {path : List String} {p r q : Path} {gone rs : List Path} {α : Type} {xs : List α} {y : α}

/-! ## What is left -/

namespace Shrinks

/-- A scalar that is left was there. -/
theorem eq_of_scalar (h : Shrinks v x) (hv : isScalar v = true) : x = v := by
  cases h with
  | refl => rfl
  | _ => cases hv

theorem get_of_scalar {k : String} (h : Shrinks x' x) (hv : isScalar v = true)
    (hget : x'.get k = some v) : x.get k = some v := by
  cases h with
  | refl => exact hget
  | drop name m =>
    rw [get_obj, lookup_drop] at hget
    split at hget
    · cases hget
    · exact hget
  | @field m name w w' hl hw =>
    rw [get_obj, lookup_put] at hget
    split at hget
    · rename_i hk
      obtain rfl : w' = v := Option.some.inj hget
      rw [hw.eq_of_scalar hv] at hl
      rw [hk]
      exact hl
    · exact hget
  | sublist | element => cases hget

/-- An element that is found by scalar keys was found by them. -/
theorem matches_of (ht : ∀ kv ∈ t, isScalar kv.2 = true) (h : Shrinks x' x)
    (hm : matchesKeys t x' = true) : matchesKeys t x = true :=
  matchesKeys_iff.mpr fun kv hkv => h.get_of_scalar (ht kv hkv) (matchesKeys_iff.mp hm kv hkv)

end Shrinks

/-! ## One element per key -/

theorem valueAt_key (t : JsonMap) (xs : List Json) (p : Path) :
    valueAt (.arr xs) (.key t :: p) = (xs.find? (matchesKeys t)).bind fun y => valueAt y p := rfl

/-- Every list on the way has at most one element with the key of the path; keys and list values are
scalars, and no step is by position. -/
def single : Path → Json → Bool
  | [], _ => true
  | .field name :: p, x => (x.get name).all (single p)
  | .key t :: p, x =>
    !t.isEmpty && t.all (fun kv => isScalar kv.2) && x.asArray.all fun xs =>
      decide (xs.countP (matchesKeys t) ≤ 1) && xs.all fun y => !matchesKeys t y || single p y
  | .value v :: p, _ => isScalar v && p.isEmpty
  | .index _ :: _, _ => false

theorem single_key : single (.key t :: p) x = true ↔
      t ≠ [] ∧ (∀ kv ∈ t, isScalar kv.2 = true) ∧ ∀ xs, x = .arr xs →
        xs.countP (matchesKeys t) ≤ 1 ∧ ∀ y ∈ xs, matchesKeys t y = true → single p y = true := by
  have hbelow : ∀ y, (!matchesKeys t y || single p y) = true ↔
      (matchesKeys t y = true → single p y = true) := by
    intro y
    cases matchesKeys t y <;> simp
  simp only [single, Bool.and_eq_true, Bool.not_eq_true', isEmpty_eq_false_iff,
    all_eq_true, and_assoc]
  refine and_congr_right fun _ => and_congr_right fun _ => ?_
  cases x with
  | arr xs => simp [Json.asArray, hbelow]
  | _ => simp [Json.asArray]

/-- Where one element at most has `p`, whoever has it is found. -/
theorem find?_of_countP_le_one {p : α → Bool} (h : xs.countP p ≤ 1) (hy : y ∈ xs)
    (hp : p y = true) : xs.find? p = some y := by
  induction xs with
  | nil => cases hy
  | cons x xs ih =>
    cases hx : p x with
    | true =>
      have hnone : xs.countP p = 0 := by
        rw [countP_cons_of_pos hx] at h
        omega
      rcases mem_cons.mp hy with rfl | hy
      · simp [hx]
      · exact absurd hp (by simpa using countP_eq_zero.mp hnone y hy)
    | false =>
      rw [countP_cons_of_neg (by simp [hx])] at h
      rcases mem_cons.mp hy with rfl | hy
      · rw [hx] at hp
        cases hp
      · simpa [hx] using ih h hy

theorem others_of_countP_le_one {p : α → Bool} (h : xs.countP p ≤ 1) {i : Nat}
    (hi : xs[i]? = some y) (hp : p y = true) : ∀ z ∈ xs.eraseIdx i, p z = false := by
  obtain ⟨hlt, rfl⟩ := List.getElem?_eq_some_iff.mp hi
  have hperm := (getElem_cons_eraseIdx_perm hlt).countP_eq p
  rw [countP_cons_of_pos hp] at hperm
  have hnone : (xs.eraseIdx i).countP p = 0 := by omega
  intro z hz
  simpa using countP_eq_zero.mp hnone z hz

/-- An element of a list with one element replaced is the new one, or stands at another place. -/
theorem mem_set_cases {i : Nat} {x : α} (h : y ∈ xs.set i x) : y = x ∨ y ∈ xs.eraseIdx i := by
  obtain ⟨j, hj⟩ := mem_iff_getElem?.mp h
  rw [List.getElem?_set] at hj
  split at hj
  · split at hj
    · exact .inl (Option.some.inj hj).symm
    · cases hj
  · rename_i hne
    exact .inr (mem_eraseIdx_iff_getElem?.mpr ⟨j, fun hji => hne hji.symm, hj⟩)

namespace Shrinks

theorem single_of (h : Shrinks x' x) (hp : single p x = true) : single p x' = true := by
  induction h generalizing p with
  | refl => exact hp
  | drop k m =>
    cases p with
    | nil => rfl
    | cons el p =>
      cases el with
      | field name =>
        simp only [single, get_obj, lookup_drop] at hp ⊢
        split
        · rfl
        · exact hp
      | _ => exact hp
  | @field m k v v' hl hv ih =>
    cases p with
    | nil => rfl
    | cons el p =>
      cases el with
      | field name =>
        simp only [single, get_obj, lookup_put] at hp ⊢
        split
        · rename_i hk
          rw [hk, hl] at hp
          exact ih hp
        · exact hp
      | _ => exact hp
  | @sublist xs ys hsub =>
    cases p with
    | nil => rfl
    | cons el p =>
      cases el with
      | key t =>
        obtain ⟨hne, ht, hxs⟩ := single_key.mp hp
        obtain ⟨hcount, hbelow⟩ := hxs xs rfl
        refine single_key.mpr ⟨hne, ht, fun zs hzs => ?_⟩
        cases hzs
        exact ⟨(hsub.countP_le).trans hcount, fun y hy => hbelow y (hsub.subset hy)⟩
      | _ => exact hp
  | @element xs i x x' hi hx ih =>
    cases p with
    | nil => rfl
    | cons el p =>
      cases el with
      | key t =>
        obtain ⟨hne, ht, hxs⟩ := single_key.mp hp
        obtain ⟨hcount, hbelow⟩ := hxs xs rfl
        refine single_key.mpr ⟨hne, ht, fun zs hzs => ?_⟩
        cases hzs
        have hmono := hx.matches_of ht
        refine ⟨?_, fun y hy hm => ?_⟩
        · obtain ⟨hlt, rfl⟩ := List.getElem?_eq_some_iff.mp hi
          rw [countP_set hlt]
          by_cases hx' : matchesKeys t x' = true
          · have hx := hmono hx'
            rw [if_pos hx, if_pos hx']
            omega
          · rw [if_neg hx']
            omega
        · rcases mem_or_eq_of_mem_set hy with hy | rfl
          · exact hbelow y hy hm
          · exact ih (hbelow x (mem_of_getElem? hi) (hmono hm))
      | _ => exact hp

/-- A value that was not there is not there afterwards. -/
theorem valueAt_eq_none (h : Shrinks x' x) (hp : single p x = true) (hnone : valueAt x p = none) :
    valueAt x' p = none := by
  induction h generalizing p with
  | refl => exact hnone
  | drop k m => exact valueAt_drop k hnone
  | @field m k v v' hl hv ih =>
    cases p with
    | nil => cases hnone
    | cons el p =>
      by_cases hel : el = .field k
      · subst hel
        rw [valueAt_field, get_obj, hl, Option.bind_some] at hnone
        rw [valueAt_field, get_obj, lookup_put_self, Option.bind_some]
        refine ih ?_ hnone
        simpa [single, hl] using hp
      · rw [valueAt_put_other hel]
        exact hnone
  | @sublist xs ys hsub =>
    cases p with
    | nil => cases hnone
    | cons el p =>
      cases el with
      | field name => rfl
      | index i => cases hp
      | value v =>
        simp only [valueAt, Option.bind_eq_none_iff] at hnone ⊢
        intro y hy
        obtain rfl : y = v := by simpa using List.find?_some hy
        exact hnone y (find?_self (hsub.subset (mem_of_find?_eq_some hy)))
      | key t =>
        obtain ⟨-, ht, hxs⟩ := single_key.mp hp
        obtain ⟨hcount, -⟩ := hxs xs rfl
        simp only [valueAt_key, Option.bind_eq_none_iff] at hnone ⊢
        intro y hy
        have hmem := hsub.subset (mem_of_find?_eq_some hy)
        exact hnone y (find?_of_countP_le_one hcount hmem (List.find?_some hy))
  | @element xs i x x' hi hx ih =>
    cases p with
    | nil => cases hnone
    | cons el p =>
      cases el with
      | field name => rfl
      | index i => cases hp
      | value v =>
        simp only [single, Bool.and_eq_true] at hp
        simp only [valueAt, Option.bind_eq_none_iff] at hnone ⊢
        intro y hy
        obtain rfl : y = v := by simpa using List.find?_some hy
        refine hnone y (find?_self ?_)
        rcases mem_or_eq_of_mem_set (mem_of_find?_eq_some hy) with hmem | rfl
        · exact hmem
        · rw [← hx.eq_of_scalar hp.1]
          exact mem_of_getElem? hi
      | key t =>
        obtain ⟨-, ht, hxs⟩ := single_key.mp hp
        obtain ⟨hcount, hbelow⟩ := hxs xs rfl
        simp only [valueAt_key, Option.bind_eq_none_iff] at hnone ⊢
        intro y hy
        have hm := List.find?_some hy
        rcases mem_or_eq_of_mem_set (mem_of_find?_eq_some hy) with hmem | rfl
        · exact hnone y (find?_of_countP_le_one hcount hmem hm)
        · have hmx := hx.matches_of ht hm
          have hmem := mem_of_getElem? hi
          exact ih (hbelow x hmem hmx) (hnone x (find?_of_countP_le_one hcount hmem hmx))

end Shrinks

/-- Removing a value takes it, where the lists on its way have one element per key. -/
theorem valueAt_removeRec_self (hne : p ≠ []) (hp : single p x = true) :
    valueAt (removeRec p x).1 p = none := by
  induction p generalizing x with
  | nil => exact absurd rfl hne
  | cons el tp ih =>
    cases el with
    | index i => cases hp
    | field name =>
      cases tp with
      | nil =>
        cases x with
        | obj m => simp [removeRec, removeLeaf, valueAt, stepElement]
        | _ => rfl
      | cons hd tl =>
        cases x with
        | obj m =>
          cases hm : m.lookup name with
          | none => simp [removeRec, hm, valueAt, stepElement]
          | some child =>
            simp only [single, get_obj, hm] at hp
            simp only [removeRec, hm, valueAt_field, get_obj, lookup_put_self]
            exact ih (by simp) hp
        | _ => rfl
    | value v =>
      simp only [single, Bool.and_eq_true, List.isEmpty_iff] at hp
      obtain ⟨-, rfl⟩ := hp
      cases x with
      | arr xs => simp [removeRec, removeLeaf, valueAt, stepElement, Json.asArray]
      | _ => rfl
    | key t =>
      obtain ⟨htne, ht, hxs⟩ := single_key.mp hp
      cases tp with
      | nil =>
        cases x with
        | arr xs =>
          simp only [removeRec, removeLeaf, valueAt_key, Option.bind_eq_none_iff]
          intro y hy
          have hkept := of_mem_filter (mem_of_find?_eq_some hy)
          rw [List.find?_some hy] at hkept
          cases hkept
        | _ => rfl
      | cons hd tl =>
        cases hstep : stepElement x (.key t) with
        | none =>
          -- there is no such element, and none appears
          refine (removeRec_shrinks _ x).valueAt_eq_none hp ?_
          simp [valueAt, hstep]
        | some y =>
          obtain ⟨xs, i, rfl, hi, hxi⟩ := listElementIndex_of_step (by simp) hstep
          obtain ⟨hcount, hbelow⟩ := hxs xs rfl
          have hmem := mem_of_getElem? hxi
          have hmy := matchesKeys_of_index hi hxi
          have hothers := others_of_countP_le_one hcount hxi hmy
          rw [removeRec_cons_list (by simp) (by simp)]
          simp only [hi, hxi, valueAt_key, Option.bind_eq_none_iff]
          intro z hz
          have hmz := List.find?_some hz
          split at hz
          · rw [hothers z (mem_of_find?_eq_some hz)] at hmz
            cases hmz
          · rcases mem_set_cases (mem_of_find?_eq_some hz) with rfl | hother
            · exact ih (by simp) (hbelow y hmem hmy)
            · rw [hothers z hother] at hmz
              cases hmz

/-! ## One removal after another -/

/-- `doc` is what is left of `start` when the paths in `gone` have been removed. -/
structure Removed (start : Json) (gone : List Path) (doc : Json) : Prop where
  single : ∀ p, single p start = true → single p doc = true
  none : ∀ p, Engenho.single p start = true → valueAt start p = none ∨ p ∈ gone →
    valueAt doc p = none

namespace Removed

theorem refl (doc : Json) : Removed doc [] doc := by
  refine ⟨fun _ h => h, fun p _ h => ?_⟩
  rcases h with h | h
  · exact h
  · cases h

theorem step (h : Removed start gone doc) (hr : r ≠ []) :
    Removed start (gone ++ [r]) (removeAt doc r) := by
  have hshrinks := removeRec_shrinks r doc
  refine ⟨fun p hp => hshrinks.single_of (h.single p hp), fun p hp hgone => ?_⟩
  rw [mem_append, mem_singleton, ← or_assoc] at hgone
  rcases hgone with hgone | rfl
  · exact hshrinks.valueAt_eq_none (h.single p hp) (h.none p hp hgone)
  · exact valueAt_removeRec_self hr (h.single p hp)

theorem foldl (h : Removed start gone doc) (hrs : ∀ r ∈ rs, r ≠ []) :
    Removed start (gone ++ rs) (rs.foldl removeAt doc) := by
  induction rs generalizing gone doc with
  | nil => simpa using h
  | cons r rs ih =>
    have hstep := h.step (hrs r (.head _))
    have hrest := ih hstep fun r' hr' => hrs r' (.tail _ hr')
    simpa using hrest

end Removed

/-! ## Lists keep their keys -/

section
variable (env : Env) (gvk : Gvk)

/-- The fields that the elements of a list are told apart by. -/
def mergeKeys (path : List String) : List String :=
  match env.mergeStrategy gvk path with
  | .mergeByKey keys => keys
  | .mergeByKeyRetainKeys keys => keys
  | _ => []

mutual
/-- Every element of a list that is merged by key has the whole key. -/
def keyed (path : List String) : Json → Bool
  | .obj fields => keyedFields path fields
  | .arr xs => keyedList path xs
  | _ => true
def keyedFields (path : List String) : List (String × Json) → Bool
  | [] => true
  | (k, v) :: rest => keyed (path ++ [k]) v && keyedFields path rest
def keyedList (path : List String) : List Json → Bool
  | [] => true
  | x :: rest =>
    (mergeKeys env gvk path).all (fun k => (x.get k).isSome) && keyed path x && keyedList path rest
end

/-- A removal at `r` takes a key field only from an element that is gone with it. -/
def Safe (path : List String) : Path → Json → Prop
  | [], _ => True
  | .field k :: tr, x => ∀ y, x.get k = some y → Safe (path ++ [k]) tr y
  | el :: tr, x => ∀ y, stepElement x el = some y →
      (∀ a ∈ mergeKeys env gvk path, tr.head? = some (.field a) → (removeRec tr y).2 = true) ∧
      Safe path tr y

/-- The field `a` is the only one of the element at `q` that is not removed before. -/
def keyLast (gone : List Path) (start : Json) (q : Path) (a : String) : Bool :=
  (valueAt start q).all fun x =>
    (x.asObject.getD []).all fun e => decide (e.1 = a) || gone.contains (q ++ [.field e.1])

/-- A path below the list element at `q` that goes into a key field takes that field, and it is the
last one of the element. -/
def takesLast (gone : List Path) (start : Json) (path : List String) (q : Path) : Path → Bool
  | .field a :: rest =>
    decide (a ∉ mergeKeys env gvk path) || (rest.isEmpty && keyLast gone start q a)
  | _ => true

/-- The path takes the key of every list element on its way last. -/
def keysLast (gone : List Path) (start : Json) (path : List String) (q : Path) : Path → Bool
  | [] => true
  | .field k :: tr => keysLast gone start (path ++ [k]) (q ++ [.field k]) tr
  | el :: tr =>
    takesLast env gvk gone start path (q ++ [el]) tr && keysLast gone start path (q ++ [el]) tr

/-- The removals at `rs`, one after another, take the key of a list element last. -/
def inOrder (start : Json) (gone : List Path) : List Path → Bool
  | [] => true
  | r :: rs => keysLast env gvk gone start [] [] r && inOrder start (gone ++ [r]) rs

end

theorem keyedFields_iff {fields : JsonMap} :
    keyedFields env gvk path fields = true ↔
    ∀ e ∈ fields, keyed env gvk (path ++ [e.1]) e.2 = true := by
  induction fields with
  | nil => simp [keyedFields]
  | cons e rest ih => simp [keyedFields, ih]

theorem keyedList_iff {xs : List Json} : keyedList env gvk path xs = true ↔
      ∀ x ∈ xs, (∀ k ∈ mergeKeys env gvk path, (x.get k).isSome = true) ∧
      keyed env gvk path x = true := by
  induction xs with
  | nil => simp [keyedList]
  | cons x rest ih => simp [keyedList, ih]

theorem keyed_removeRec (hk : keyed env gvk path x = true) (hs : Safe env gvk path r x) :
    keyed env gvk path (removeRec r x).1 = true := by
  induction r generalizing path x with
  | nil => exact hk
  | cons el tr ih =>
    have sublist : ∀ {xs ys : List Json}, keyedList env gvk path xs = true → (∀ y ∈ ys, y ∈ xs) →
        keyedList env gvk path ys = true := fun hxs hys =>
      keyedList_iff.mpr fun y hy => keyedList_iff.mp hxs y (hys y hy)
    by_cases htr : tr = []
    · subst htr
      have hstep : (removeRec [el] x).1 = removeLeaf el x := by cases el <;> rfl
      rw [hstep]
      unfold removeLeaf
      split
      · exact keyedFields_iff.mpr fun e he => keyedFields_iff.mp hk e (mem_of_mem_filter he)
      · exact sublist hk fun y hy => mem_of_mem_eraseIdx hy
      · exact sublist hk fun y hy => mem_of_mem_filter hy
      · exact sublist hk fun y hy => mem_of_mem_filter hy
      · exact hk
    · by_cases hel : ∀ name, el ≠ .field name
      · have hsafe : ∀ y, stepElement x el = some y →
            (∀ a ∈ mergeKeys env gvk path, tr.head? = some (.field a) → (removeRec tr y).2 = true) ∧
              Safe env gvk path tr y := by
          cases el with
          | field name => exact absurd rfl (hel name)
          | _ => exact hs
        obtain he | ⟨xs, i, y, rfl, hi, hy, ⟨hfull, he⟩ | ⟨-, he⟩⟩ := removeRec_element hel htr x
        · rw [he]
          exact hk
        · obtain ⟨y', hy', hstep⟩ := getElem?_listElementIndex hel hi
          obtain rfl : y' = y := Option.some.inj (hy'.symm.trans hy)
          obtain ⟨hkeys, hbelow⟩ := hsafe _ hstep
          obtain ⟨hykeys, hyk⟩ := keyedList_iff.mp hk _ (mem_of_getElem? hy)
          rw [he]
          refine keyedList_iff.mpr fun z hz => ?_
          rcases mem_or_eq_of_mem_set hz with hz | rfl
          · exact keyedList_iff.mp hk z hz
          refine ⟨fun k hkey => ?_, ih hyk hbelow⟩
          -- the element is not empty, so the removal does not take its key
          have hhead : tr.head? ≠ some (.field k) := by
            intro hhead
            rw [hkeys k hkey hhead] at hfull
            cases hfull
          rw [get_removeRec hhead]
          exact hykeys k hkey
        · rw [he]
          exact sublist hk fun y hy => mem_of_mem_eraseIdx hy
      · obtain ⟨name, rfl⟩ : ∃ name, el = .field name := by simpa using hel
        obtain ⟨hd, tl, rfl⟩ := exists_cons_of_ne_nil htr
        cases x with
        | obj m =>
          cases hm : m.lookup name with
          | none => simpa [removeRec, hm] using hk
          | some child =>
            simp only [removeRec, hm]
            refine keyedFields_iff.mpr fun e he => ?_
            rcases mem_put he with rfl | he
            · exact ih (keyedFields_iff.mp hk _ (mem_of_lookup hm)) (hs child hm)
            · exact keyedFields_iff.mp hk e he
        | _ => exact hk

theorem valueAt_append (x : Json) (p q : Path) :
    valueAt x (p ++ q) = (valueAt x p).bind fun y => valueAt y q := by
  induction p generalizing x with
  | nil => rfl
  | cons el p ih =>
    simp only [cons_append, valueAt]
    cases stepElement x el with
    | none => rfl
    | some y => exact ih y

/-- Which field of a node a path takes is no matter. -/
theorem single_field {b : String} (h : single (q ++ [.field a]) x = true) :
    single (q ++ [.field b]) x = true := by
  induction q generalizing x with
  | nil =>
    simp only [nil_append, single]
    cases x.get b <;> rfl
  | cons el q ih =>
    cases el with
    | field name =>
      simp only [cons_append, single] at h ⊢
      cases hx : x.get name with
      | none => rfl
      | some y =>
        rw [hx] at h
        exact ih h
    | key t =>
      obtain ⟨hne, ht, hxs⟩ := single_key.mp h
      refine single_key.mpr ⟨hne, ht, fun xs hx => ?_⟩
      obtain ⟨hcount, hbelow⟩ := hxs xs hx
      exact ⟨hcount, fun y hy hm => ih (hbelow y hy hm)⟩
    | value v => simp [single] at h
    | index i => cases h

theorem single_below {y : Json} (h : single (p ++ r) x = true) (hy : valueAt x p = some y) :
    single r y = true := by
  induction p generalizing x with
  | nil =>
    cases hy
    exact h
  | cons el p ih =>
    obtain ⟨z, hz, hzy⟩ : ∃ z, stepElement x el = some z ∧ valueAt z p = some y :=
      Option.bind_eq_some_iff.mp hy
    cases el with
    | field name =>
      have hget : x.get name = some z := hz
      rw [cons_append, single, hget] at h
      exact ih h hzy
    | key t =>
      obtain ⟨-, -, hxs⟩ := single_key.mp h
      obtain ⟨xs, i, rfl, hi, hxi⟩ := listElementIndex_of_step (by simp) hz
      exact ih ((hxs xs rfl).2 z (mem_of_getElem? hxi) (matchesKeys_of_index hi hxi)) hzy
    | value v =>
      simp only [cons_append, single, Bool.and_eq_true, List.isEmpty_iff, append_eq_nil_iff] at h
      obtain ⟨-, rfl, rfl⟩ := h
      rfl
    | index i => cases h

/-- An object that is left with its key field alone is empty without it. -/
theorem emptied_of_only (h : ∀ k, k ≠ a → m.lookup k = none) :
    (removeRec [.field a] (.obj m)).2 = true := by
  simp only [removeRec, removeLeaf, isEmptyContainer, List.isEmpty_iff, Assoc.drop,
    filter_eq_nil_iff]
  intro e he
  by_contra hne
  have hnone := h e.1 (by simpa using hne)
  simpa using lookup_eq_none_iff.mp hnone e he

/-- What is left of an element whose other fields have been removed is its key field. -/
theorem only_of_keyLast (hdoc : Removed start gone doc)
    (hs : single (q ++ [.field a]) start = true) (hm : valueAt doc q = some (.obj m))
    (h : keyLast gone start q a = true) : ∀ k, k ≠ a → m.lookup k = none := by
  intro k hk
  have hgone : valueAt start (q ++ [.field k]) = none ∨ q ++ [.field k] ∈ gone := by
    cases hv : valueAt start (q ++ [.field k]) with
    | none => exact .inl rfl
    | some v =>
      rw [valueAt_append] at hv
      obtain ⟨x, hx, hget⟩ := Option.bind_eq_some_iff.mp hv
      cases x with
      | obj fields =>
        have hmem : (k, v) ∈ fields := mem_of_lookup (by simpa [valueAt, stepElement] using hget)
        simp only [keyLast, hx, Option.all_some, all_eq_true] at h
        have hcase := h _ hmem
        rw [Bool.or_eq_true, decide_eq_true_eq, contains_iff_mem] at hcase
        exact .inr (hcase.resolve_left hk)
      | _ => cases hget
  have hnone := hdoc.none _ (single_field hs) hgone
  simpa [valueAt_append, hm, valueAt, stepElement] using hnone

theorem keysLast_element {tr : Path} {el : PathElement}
    (hel : ∀ name, el ≠ .field name) (h : keysLast env gvk gone start path q (el :: tr) = true) :
    (∀ a ∈ mergeKeys env gvk path, tr.head? = some (.field a) →
      tr = [.field a] ∧ keyLast gone start (q ++ [el]) a = true) ∧
    keysLast env gvk gone start path (q ++ [el]) tr = true := by
  have hboth : takesLast env gvk gone start path (q ++ [el]) tr = true ∧
      keysLast env gvk gone start path (q ++ [el]) tr = true := by
    cases el with
    | field name => exact absurd rfl (hel name)
    | _ => simpa only [keysLast, Bool.and_eq_true] using h
  refine ⟨fun a ha hhead => ?_, hboth.2⟩
  cases tr with
  | nil => cases hhead
  | cons hd rest =>
    obtain rfl : hd = .field a := by simpa using hhead
    have hkey := hboth.1
    simp only [takesLast, ha, not_true_eq_false, decide_false, Bool.false_or, Bool.and_eq_true,
      List.isEmpty_iff] at hkey
    rw [hkey.1]
    exact ⟨rfl, hkey.2⟩

/-- A removal takes the key of an element last, if all its other fields have been removed. -/
theorem safe_of_keysLast (hdoc : Removed start gone doc) (hx : valueAt doc q = some x)
    (hs : single (q ++ r) start = true) (h : keysLast env gvk gone start path q r = true) :
    Safe env gvk path r x := by
  induction r generalizing q path x with
  | nil => trivial
  | cons el tr ih =>
    have hs' : single ((q ++ [el]) ++ tr) start = true := by simpa using hs
    have hnext : ∀ {y}, stepElement x el = some y → valueAt doc (q ++ [el]) = some y := by
      intro y hy
      simp [valueAt_append, hx, valueAt, hy]
    by_cases hel : ∀ name, el ≠ .field name
    · have hstep : ∀ y, stepElement x el = some y →
          (∀ a ∈ mergeKeys env gvk path, tr.head? = some (.field a) → (removeRec tr y).2 = true) ∧
            Safe env gvk path tr y := by
        intro y hy
        obtain ⟨hkeys, hrest⟩ := keysLast_element hel h
        refine ⟨fun a ha hhead => ?_, ih (hnext hy) hs' hrest⟩
        obtain ⟨rfl, hlast⟩ := hkeys a ha hhead
        have hbelow := single_below (hdoc.single _ hs) hx
        obtain ⟨m, rfl⟩ : ∃ m, y = .obj m := by
          cases el with
          | field name => exact absurd rfl (hel name)
          | key t =>
            obtain ⟨xs, i, rfl, hi, hxi⟩ := listElementIndex_of_step (by simp) hy
            refine isObject_iff.mp ?_
            by_contra hobj
            have hno := matchesKeys_of_not_object (single_key.mp hbelow).1 (by simpa using hobj)
            rw [matchesKeys_of_index hi hxi] at hno
            cases hno
          | value v => simp [single] at hbelow
          | index i => cases hbelow
        exact emptied_of_only (only_of_keyLast hdoc hs' (hnext hy) hlast)
      cases el with
      | field name => exact absurd rfl (hel name)
      | _ => exact hstep
    · obtain ⟨name, rfl⟩ : ∃ name, el = .field name := by simpa using hel
      exact fun y hy => ih (hnext hy) hs' h

/-- Removals that take the keys of list elements last leave no element without a key. -/
theorem keyed_foldl_removeAt (hdoc : Removed start gone doc)
    (hrs : ∀ r ∈ rs, r ≠ [] ∧ single r start = true) (horder : inOrder env gvk start gone rs = true)
    (hk : keyed env gvk [] doc = true) : keyed env gvk [] (rs.foldl removeAt doc) = true := by
  induction rs generalizing gone doc with
  | nil => exact hk
  | cons r rs ih =>
    obtain ⟨hne, hs⟩ := hrs r (.head _)
    rw [inOrder, Bool.and_eq_true] at horder
    have hsafe : Safe env gvk [] r doc := safe_of_keysLast hdoc (q := []) rfl hs horder.1
    exact ih (hdoc.step hne) (fun r' hr' => hrs r' (.tail _ hr')) horder.2
      (keyed_removeRec hk hsafe)

/-! ## The apply -/

/-- The record of ownership is no value that was removed, unless the metadata is. -/
theorem valueAt_withoutManagedFields_none (managed : Json) (hp : p ≠ [.field "metadata"])
    (h : valueAt x p = none) :
    valueAt (withoutManagedFields (setManagedFields x managed)) p = none := by
  cases p with
  | nil => cases h
  | cons el rest =>
    by_cases hel : el = .field "metadata"
    · subst hel
      have hrest : rest ≠ [] := by
        rintro rfl
        exact hp rfl
      rw [valueAt_field] at h
      rw [valueAt_field, get_metadata_withoutManagedFields]
      split
      · cases hx : x.get "metadata" with
        | none =>
          obtain ⟨el, rest, rfl⟩ := exists_cons_of_ne_nil hrest
          cases el <;> rfl
        | some v =>
          rw [hx] at h
          cases v with
          | obj md => exact valueAt_drop _ h
          | _ => exact h
      · rfl
    · rw [valueAt_withoutManagedFields_other hel, valueAt_setManagedFields_other hel, h]

theorem keyed_withoutManagedFields (managed : Json) (h : keyed env gvk [] x = true) :
    keyed env gvk [] (withoutManagedFields (setManagedFields x managed)) = true := by
  have put : ∀ {m : JsonMap} {v : Json}, keyedFields env gvk [] m = true →
    keyed env gvk ["metadata"] v = true →
      keyedFields env gvk [] (Assoc.put "metadata" v m) = true := by
    intro m v hm hv
    refine keyedFields_iff.mpr fun e he => ?_
    rcases mem_put he with rfl | he
    · exact hv
    · exact keyedFields_iff.mp hm e he
  have drop : ∀ {md : JsonMap}, keyedFields env gvk ["metadata"] md = true →
      keyed env gvk ["metadata"] (.obj (Assoc.drop "managedFields" md)) = true := fun hmd =>
    keyedFields_iff.mpr fun e he => keyedFields_iff.mp hmd e (mem_of_mem_filter he)
  cases x with
  | obj m =>
    cases hm : m.lookup "metadata" with
    | none =>
      simp only [setManagedFields, hm, Option.getD_none, withoutManagedFields, lookup_put_self,
        drop_put_self, put_put]
      exact put h (drop rfl)
    | some v =>
      have hv : keyed env gvk ["metadata"] v = true := keyedFields_iff.mp h _ (mem_of_lookup hm)
      cases v with
      | obj md =>
        simp only [setManagedFields, hm, Option.getD_some, withoutManagedFields, lookup_put_self,
          drop_put_self, put_put]
        exact put h (drop hv)
      | _ => simpa [setManagedFields, hm, withoutManagedFields] using h
  | _ => exact h

/-- Where no element has the field `a` of a key, no element has the key. -/
theorem valueAt_key_none (ha : t.lookup a = some v)
    (h : valueAt x (q ++ [.key t, .field a]) = none) : valueAt x (q ++ [.key t]) = none := by
  rw [valueAt_append] at h ⊢
  cases hx : valueAt x q with
  | none => rfl
  | some y =>
    rw [hx, Option.bind_some] at h
    cases hstep : stepElement y (.key t) with
    | none => simp [valueAt, hstep]
    | some z =>
      obtain ⟨xs, i, rfl, hi, hxi⟩ := listElementIndex_of_step (by simp) hstep
      have hget := matchesKeys_iff.mp (matchesKeys_of_index hi hxi) _ (mem_of_lookup ha)
      have hbelow : valueAt (.arr xs) [.key t, .field a] = (z.get a).bind some := by
        rw [valueAt, hstep]
        rfl
      rw [hbelow, hget] at h
      cases h

section
variable (env : Env) (gvk : Gvk)

/-- The object with the config merged in, before anything is removed. -/
def configured (current config : Json) : Json :=
  (strategicMerge env gvk [] current config).toOption.getD current

/-- The paths that an apply of `config` gives up. -/
def givenUp (current config : Json) (manager : String) : List Path :=
  droppedPaths env (fieldsetOf env gvk config) manager (readManagedFields env current)

/-- The removals find what they are to remove: lists have one element per key, and the key of an
element goes last. -/
@[mk_iff]
structure Removable (current config : Json) (manager : String) : Prop where
  path : ∀ r ∈ givenUp env gvk current config manager,
    r ≠ [] ∧ r ≠ [.field "metadata"] ∧ single r (configured env gvk current config) = true
  order : inOrder env gvk (configured env gvk current config) []
    (givenUp env gvk current config manager) = true

end

instance (current config : Json) (manager : String) :
    Decidable (Removable env gvk current config manager) :=
  decidable_of_iff _ (removable_iff ..).symm

theorem mem_givenUp {current config : Json} {manager : String} {own : DecodedEntry}
    (hown : (readManagedFields env current).find? (isMine manager) = some own)
    (hr : r ∈ own.fields.ownedPaths) (happlied : (fieldsetOf env gvk config).owns env r = false)
    (hothers : ∀ e ∈ readManagedFields env current, isOtherApply manager e = true →
      e.fields.owns env r = false) :
    r ∈ givenUp env gvk current config manager := by
  have hfind : ((readManagedFields env current).find? fun e =>
      decide (e.manager = manager) && decide (e.operation = .apply)) = some own := hown
  have hnone : ((readManagedFields env current).any fun e =>
      isOtherApply manager e && e.fields.owns env r) = false := by
    refine any_eq_false.mpr fun e he hboth => ?_
    rw [Bool.and_eq_true] at hboth
    rw [hothers e he hboth.1] at hboth
    cases hboth.2
  simp only [givenUp, droppedPaths, hfind, Option.map_some, Option.getD_some, mem_filter,
    happlied, hnone, Bool.not_false, Bool.and_self, and_true]
  exact hr

/-- An apply removes what the manager owned and no longer applies. A list element whose key it gives
up is gone, and no element is left without a key. A path that parts from all that is given up, and
that the config does not mention, keeps its value. -/
theorem applySsa_gives_up (env : Env) (gvk : Gvk) (current config : Json) (manager : String)
    (force : Bool)
    (time : String) (out : SsaOutcome) (own : DecodedEntry) (hconfig : uniqueKeys config = true)
    (hok : applySsa env gvk (some current) config manager force time = .ok out)
    (hown : (readManagedFields env current).find? (isMine manager) = some own)
    (hremove : Removable env gvk current config manager) :
    (∀ r ∈ own.fields.ownedPaths, (fieldsetOf env gvk config).owns env r = false →
      (∀ e ∈ readManagedFields env current, isOtherApply manager e = true →
        e.fields.owns env r = false) →
      valueAt (withoutManagedFields out.merged) r = none ∧
      ∀ q t a, r = q ++ [.key t, .field a] → (t.lookup a).isSome = true →
        valueAt (withoutManagedFields out.merged) (q ++ [.key t]) = none) ∧
    (keyed env gvk [] (configured env gvk current config) = true →
      keyed env gvk [] (withoutManagedFields out.merged) = true) ∧
    ∀ p, valueAt config p = none → sparesNode env gvk (decide (valueAt current p = none))
      [] p config = true → (∀ r ∈ givenUp env gvk current config manager, parted r p = true) →
      valueAt (withoutManagedFields out.merged) p = valueAt (withoutManagedFields current) p := by
  obtain ⟨-, -, hmerged⟩ := applySsa_ok hok
  have hmerged' : out.merged = setManagedFields
    ((givenUp env gvk current config manager).foldl removeAt
      (configured env gvk current config)) out.managedFields := hmerged
  rw [hmerged']
  have hstart := Removed.refl (configured env gvk current config)
  refine ⟨fun r hr happlied hothers => ?_, fun hk => ?_, fun p hp hspares hparted => ?_⟩
  · have hgone := mem_givenUp hown hr happlied hothers
    obtain ⟨-, hmeta, hsingle⟩ := hremove.path r hgone
    have hall := hstart.foldl fun r hr => (hremove.path r hr).1
    have hnone := valueAt_withoutManagedFields_none out.managedFields hmeta
      (hall.none r hsingle (.inr (List.mem_append_right _ hgone)))
    refine ⟨hnone, ?_⟩
    rintro q t a rfl ha
    obtain ⟨v, hv⟩ := Option.isSome_iff_exists.mp ha
    exact valueAt_key_none hv hnone
  · refine keyed_withoutManagedFields _
      (keyed_foldl_removeAt hstart (fun r hr => ?_) hremove.order hk)
    exact ⟨(hremove.path r hr).1, (hremove.path r hr).2.2⟩
  · obtain ⟨m, md, rfl, hmd⟩ := metadata_of_readManagedFields (List.mem_of_find?_eq_some hown)
    have hmerge : valueAt (configured env gvk (.obj m) config) p = valueAt (.obj m) p := by
      unfold configured
      cases hm : strategicMerge env gvk [] (.obj m) config with
      | error _ => rfl
      | ok merged =>
        exact strategicMerge_spares config hconfig hm hspares ⟨.inl hp,
          fun h => of_decide_eq_true h⟩
    refine valueAt_withoutManagedFields hmd _ _ p ?_
    rw [valueAt_removeAll hparted, hmerge]

theorem takeWeb_gives_up :
    (givenUp namedEnv podGvk sidecarPod (.obj takeWeb) "deployer").length = 3 ∧
    ∃ own out, (readManagedFields namedEnv sidecarPod).find? (isMine "deployer") = some own ∧
      own.fields.ownedPaths.length = 3 ∧
      applySsa namedEnv podGvk (some sidecarPod) (.obj takeWeb) "deployer" false "now" = .ok out ∧
      (∀ r ∈ own.fields.ownedPaths, (fieldsetOf namedEnv podGvk (.obj takeWeb)).owns namedEnv r =
        false →
        (∀ e ∈ readManagedFields namedEnv sidecarPod, isOtherApply "deployer" e = true →
          e.fields.owns namedEnv r = false) →
        valueAt (withoutManagedFields out.merged) r = none ∧
        ∀ q t a, r = q ++ [.key t, .field a] → (t.lookup a).isSome = true →
          valueAt (withoutManagedFields out.merged) (q ++ [.key t]) = none) ∧
      keyed namedEnv podGvk [] (withoutManagedFields out.merged) = true := by
  have hown : (readManagedFields namedEnv sidecarPod).find? (isMine "deployer") = some _ := rfl
  have hok : applySsa namedEnv podGvk (some sidecarPod) (.obj takeWeb) "deployer" false "now" =
    .ok _ := rfl
  have hgives := applySsa_gives_up namedEnv podGvk sidecarPod (.obj takeWeb)
    "deployer" false "now" _ _
    (by decide +kernel) hok hown (by decide +kernel)
  exact ⟨by decide +kernel, _, _, hown, by decide +kernel, hok, hgives.1,
    hgives.2.1 (by decide +kernel)⟩

/-- A pod with a sidecar that has a port, as the deployer creates it. -/
def portedPod : Json :=
  .obj [("spec", .obj [("containers", .arr [
    .obj [("image", .str "side:1"), ("name", .str "side"), ("port", .num (.int 80))],
    .obj [("image", .str "web:1"), ("name", .str "web")]])])]

/-- The same without the sidecar. -/
def webOnlyPod : Json :=
  .obj [("spec", .obj
    [("containers", .arr [.obj [("image", .str "web:1"), ("name", .str "web")]])])]

def sidePath (name : String) : Path :=
  [.field "spec", .field "containers", .key [("name", .str "side")], .field name]

/-- The name of a dropped container goes before its port, and the container stays, without a name. A
field that nobody owns is gone with the empty object around it that a manager applied and gives
up. -/
theorem applySsa_leaves_remains :
    (∃ created out, applySsa namedEnv podGvk none portedPod "deployer" false "then" = .ok created ∧
      applySsa namedEnv podGvk (some created.merged) webOnlyPod "deployer" false "now" = .ok out ∧
      givenUp namedEnv podGvk created.merged webOnlyPod "deployer" =
        [sidePath "image", sidePath "name", sidePath "port"] ∧
      keyed namedEnv podGvk [] created.merged = true ∧
      valueAt out.merged [.field "spec", .field "containers"] = some (.arr [
        .obj [("port", .num (.int 80))], .obj [("image", .str "web:1"), ("name", .str "web")]]) ∧
      keyed namedEnv podGvk [] (withoutManagedFields out.merged) = false) ∧
    ∃ created out, applySsa namedEnv podGvk none (volume (.obj [])) "deployer" false "then" =
    .ok created ∧
      ∃ current, current =
        setManagedFields (volume (.obj [("medium", .str "disk")])) created.managedFields ∧
        applySsa namedEnv podGvk (some current) (.obj [("spec", .obj [("paused", .bool true)])])
        "deployer" false
          "now" = .ok out ∧
        givenUp namedEnv podGvk current (.obj [("spec", .obj [("paused", .bool true)])])
        "deployer" = [volumePath] ∧
        valueAt current (volumePath ++ [.field "medium"]) = some (.str "disk") ∧
        valueAt out.merged (volumePath ++ [.field "medium"]) = none := by
  refine ⟨⟨_, _, rfl,
    rfl, by decide +kernel, by decide +kernel, by decide +kernel, by decide +kernel⟩, ?_⟩
  exact ⟨_, _, rfl, _, rfl, rfl, by decide +kernel, by decide +kernel, by decide +kernel⟩

end Engenho
