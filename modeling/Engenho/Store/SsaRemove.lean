import Engenho.Store.Ssa

/-!
# What a removal leaves alone

`removeAt` takes out the value at a path, and with it list elements that it empties. `parted r p` is
a condition on two paths under which a removal at `r` leaves the value at `p`, whatever the
document: `valueAt_removeRec`. Paths branch at a field, or at list elements whose keys differ; a
removal below a list element must not take a field that the other path finds the element by.
-/

namespace Engenho
open Json Assoc Option List Bool

/-! ## Finding a list element -/

variable {i : Nat} {e x : Json} {name : String} {q : Json → Bool}
section
variable {α β : Type} {p : α → Bool} {f : α → Option β}
variable {xs : List α}

/-- Replacing an element changes nothing for who finds the first element with `p`, if the new
element is found as the old one was and looks the same. -/
theorem find?_set_bind {x x' : α} (hx : xs[i]? = some x) (hp : p x' = p x)
    (hf : p x = true → f x' = f x) : ((xs.set i x').find? p).bind f = (xs.find? p).bind f := by
  induction xs generalizing i with
  | nil => rfl
  | cons y ys ih =>
    cases i with
    | zero =>
      obtain rfl : y = x := by simpa using hx
      simp only [set_cons_zero, List.find?_cons, hp]
      cases h : p y with
      | true => exact hf h
      | false => rfl
    | succ i =>
      simp only [set_cons_succ, List.find?_cons]
      cases p y with
      | true => rfl
      | false => exact ih (by simpa using hx)

theorem find?_eraseIdx {x : α} (hx : xs[i]? = some x) (hp : p x = false) :
    (xs.eraseIdx i).find? p = xs.find? p := by
  induction xs generalizing i with
  | nil => rfl
  | cons y ys ih =>
    cases i with
    | zero =>
      obtain rfl : y = x := by simpa using hx
      simp [hp]
    | succ i =>
      simp only [eraseIdx_cons_succ, List.find?_cons]
      cases p y with
      | true => rfl
      | false => exact ih (by simpa using hx)

theorem find?_filter {q : α → Bool} (h : ∀ x ∈ xs, p x = true → q x = true) :
    (xs.filter q).find? p = xs.find? p := by
  induction xs with
  | nil => rfl
  | cons y ys ih =>
    have htail := ih fun x hx => h x (.tail _ hx)
    cases hp : p y with
    | true =>
      rw [filter_cons_of_pos (h y (mem_cons_self ..) hp)]
      simp [hp]
    | false =>
      cases hq : q y with
      | true | false => simp [hq, hp, htail]

end

/-! ## Paths that part -/

/-- No element carries both key tuples. -/
def keysClash (a b : JsonMap) : Bool := a.any fun kv => (b.lookup kv.1).any fun v => v ≠ kv.2

/-- The path goes into a field that `keys` is found by. -/
def entersKey (keys : JsonMap) : Path → Bool
  | .field name :: _ => keys.any fun kv => kv.1 = name
  | _ => false

/-- The removal takes one field of a node. -/
def takesField : Path → Bool
  | [.field _] => true
  | _ => false

/-- A removal at the first path leaves the value at the second, in every document. An element that
the second path does not go through may lose the very field that tells the two apart. -/
def parted : Path → Path → Bool
  | [], _ => true
  | _ :: _, [] => false
  | .field a :: tr, .field b :: tp => a ≠ b || (!tr.isEmpty && parted tr tp)
  | .field _ :: _, _ :: _ => true
  | _ :: _, .field _ :: _ => true
  | .key t :: [], .key t' :: _ => keysClash t t'
  | .key t :: tr, .key t' :: tp =>
    (keysClash t t' && (takesField tr || !entersKey t' tr)) ||
      (!t'.isEmpty && !entersKey t' tr && parted tr tp)
  | .key t :: tr, .value v :: _ => !matchesKeys t v && !entersKey t tr
  | .value v :: [], .key t' :: _ => !matchesKeys t' v
  | .value v :: [], .value w :: _ => v ≠ w
  | _ :: _, _ :: _ => false

variable {r tr : Path} {keys t : JsonMap} {node : Json} {el : PathElement}

theorem matchesKeys_iff : matchesKeys keys e = true ↔ ∀ kv ∈ keys, e.get kv.1 = some kv.2 := by
  simp [matchesKeys]

theorem keysClash_not_both {a b : JsonMap} (h : keysClash a b = true)
    (ha : matchesKeys a e = true) :
    matchesKeys b e = false := by
  obtain ⟨kv, hkv, hany⟩ := any_eq_true.mp h
  obtain ⟨v, hl, hne⟩ := (any_eq_true _ _).mp hany
  by_contra hb
  have hb' := matchesKeys_iff.mp (by simpa using hb) _ (mem_of_lookup hl)
  have ha' := matchesKeys_iff.mp ha kv hkv
  rw [ha'] at hb'
  exact absurd (Option.some.inj hb').symm (by simpa using hne)

theorem matchesKeys_of_not_object (hne : keys ≠ []) (h : e.isObject = false) :
    matchesKeys keys e = false := by
  cases keys with
  | nil => exact absurd rfl hne
  | cons kv keys => simp [matchesKeys, get_eq_none_of_not_object h]

/-! ## Removals -/

theorem isEmptyContainer_of_emptied (h : (removeRec r node).2 = true) :
    isEmptyContainer (removeRec r node).1 = true := by
  unfold removeRec at h ⊢
  split at h
  · cases h
  · exact h
  · split at h
    · split at h
      · cases h
      · exact h
    · cases h
  · split at h
    · exact h
    · cases h

/-- A removal that does not go into the field `name` leaves it. -/
theorem get_removeRec (h : r.head? ≠ some (.field name)) (node : Json) :
    (removeRec r node).1.get name = node.get name := by
  unfold removeRec
  split
  · rfl
  · unfold removeLeaf
    split
    · rename_i a m
      have hne : name ≠ a := by
        rintro rfl
        exact h rfl
      exact lookup_drop_ne hne m
    · rfl
    · rfl
    · rfl
    · rfl
  · rename_i a tail _
    have hne : name ≠ a := by
      rintro rfl
      exact h rfl
    split
    · split
      · rfl
      · exact lookup_put_ne hne ..
    · rfl
  · split <;> rfl

theorem matchesKeys_removeRec (h : entersKey keys r = false) (node : Json) :
    matchesKeys keys (removeRec r node).1 = matchesKeys keys node := by
  rw [Bool.eq_iff_iff, matchesKeys_iff, matchesKeys_iff]
  refine forall₂_congr fun kv hkv => ?_
  have hhead : r.head? ≠ some (.field kv.1) := by
    intro hr
    cases r with
    | nil => cases hr
    | cons el r =>
      obtain rfl : el = .field kv.1 := by simpa using hr
      have : keys.any (fun kv' => decide (kv'.1 = kv.1)) = true :=
        any_eq_true.mpr ⟨kv, hkv, by simp⟩
      simp only [entersKey] at h
      rw [this] at h
      cases h
  rw [get_removeRec hhead]

/-- A step into a list finds nothing outside a list. -/
theorem stepElement_of_not_array (h : node.asArray = none) (hel : ∀ name, el ≠ .field name) :
    stepElement node el = none := by
  cases el with
  | field name => exact absurd rfl (hel name)
  | key keys | value v | index i => simp [stepElement, h]

section
variable (hel : ∀ name, el ≠ .field name)
include hel

/-- The element a removal goes into is the one a path finds. -/
theorem getElem?_listElementIndex {xs : List Json} (hi : listElementIndex (.arr xs) el = some i) :
    ∃ x, xs[i]? = some x ∧ stepElement (.arr xs) el = some x := by
  have first : ∀ {p : Json → Bool}, xs.findIdx? p = some i → ∃ x, xs[i]? = some x ∧
      xs.find? p = some x := by
    intro p hp
    obtain ⟨hlt, hx, hbefore⟩ := List.findIdx?_eq_some_iff_getElem.mp hp
    refine ⟨xs[i], List.getElem?_eq_getElem hlt, ?_⟩
    exact List.find?_eq_some_iff_getElem.mpr ⟨hx, i, hlt, rfl,
      fun j hj => by simpa using hbefore j hj⟩
  cases el with
  | field name => exact absurd rfl (hel name)
  | key keys | value v => exact first hi
  | index j =>
    simp only [listElementIndex, Json.asArray, bind_some] at hi
    split at hi
    · rename_i hlt
      cases hi
      exact ⟨xs[i], List.getElem?_eq_getElem hlt, List.getElem?_eq_getElem hlt⟩
    · cases hi

theorem removeRec_cons_list (htr : tr ≠ []) (node : Json) : removeRec (el :: tr) node =
      match node, listElementIndex node el with
      | .arr xs, some idx =>
        let (child, emptied) := removeRec tr ((xs[idx]?).getD .null)
        let xs := if emptied then xs.eraseIdx idx else xs.set idx child
        (.arr xs, xs.isEmpty)
      | node, _ => (node, false) := by
  obtain ⟨hd, tl, rfl⟩ := exists_cons_of_ne_nil htr
  cases el with
  | field name => exact absurd rfl (hel name)
  | key keys | value v | index i => rfl

/-- A removal below a list element: the element is replaced, or erased if nothing is left of it. -/
theorem removeRec_element (htr : tr ≠ []) (node : Json) : (removeRec (el :: tr) node).1 = node ∨
    ∃ xs i x, node = .arr xs ∧ listElementIndex node el = some i ∧ xs[i]? = some x ∧
      (((removeRec tr x).2 = false ∧ (removeRec (el :: tr) node).1 =
        .arr (xs.set i (removeRec tr x).1)) ∨
        ((removeRec tr x).2 = true ∧ (removeRec (el :: tr) node).1 = .arr (xs.eraseIdx i))) := by
  rw [removeRec_cons_list hel htr]
  split
  · rename_i xs i hi
    right
    obtain ⟨x, hx, -⟩ := getElem?_listElementIndex hel hi
    refine ⟨xs, i, x, rfl, hi, hx, ?_⟩
    simp only [hx, getD_some]
    cases he : (removeRec tr x).2 with
    | true => exact .inr ⟨rfl, rfl⟩
    | false => exact .inl ⟨rfl, rfl⟩
  · exact .inl rfl

end

theorem matchesKeys_of_index {xs : List Json} (hi : listElementIndex (.arr xs) (.key t) = some i)
    (hx : xs[i]? = some x) : matchesKeys t x = true := by
  have hi' : xs.findIdx? (matchesKeys t) = some i := hi
  obtain ⟨hlt, hp, -⟩ := List.findIdx?_eq_some_iff_getElem.mp hi'
  rw [List.getElem?_eq_getElem hlt] at hx
  cases hx
  exact hp

/-- A path that goes into another field is not concerned. -/
theorem valueAt_removeRec_field (h : r.head? ≠ some (.field name)) (node : Json) (tp : Path) :
    valueAt (removeRec r node).1 (.field name :: tp) = valueAt node (.field name :: tp) := by
  simp only [valueAt, stepElement, get_removeRec h]

/-- A removal in a list, seen by a path that finds its element by `q`. -/
theorem find?_removeRec_bind (hel : ∀ name, el ≠ .field name) (htr : tr ≠ [])
    {f : Json → Option Json}
    (node : Json) (hkeep : ∀ xs i x, node = .arr xs → listElementIndex node el = some i →
      xs[i]? = some x →
      q (removeRec tr x).1 = q x ∧
      (q x = true → (removeRec tr x).2 = false ∧ f (removeRec tr x).1 = f x)) :
    ((removeRec (el :: tr) node).1.asArray.bind fun xs => xs.find? q).bind f =
      (node.asArray.bind fun xs => xs.find? q).bind f := by
  obtain he | ⟨xs, i, x, rfl, hi, hx, ⟨-, he⟩ | ⟨hempty, he⟩⟩ := removeRec_element hel htr node
  · rw [he]
  · obtain ⟨hq, hf⟩ := hkeep xs i x rfl hi hx
    rw [he]
    exact find?_set_bind hx hq fun h => (hf h).2
  · -- an element that the path finds is not emptied
    obtain ⟨-, hf⟩ := hkeep xs i x rfl hi hx
    have hq : q x = false := by
      cases h : q x with
      | false => rfl
      | true =>
        rw [(hf h).1] at hempty
        cases hempty
    rw [he]
    exact congrArg (·.bind f) (find?_eraseIdx hx hq)

/-- What carries a key is not empty. -/
theorem not_emptied_of_matches (hne : t ≠ []) (hm : matchesKeys t (removeRec tr x).1 = true) :
    (removeRec tr x).2 = false := by
  cases he : (removeRec tr x).2 with
  | false => rfl
  | true =>
    have hempty := isEmptyContainer_of_emptied he
    obtain ⟨kv, t', rfl⟩ := exists_cons_of_ne_nil hne
    have hget := matchesKeys_iff.mp hm kv (mem_cons_self ..)
    cases hx : (removeRec tr x).1 with
    | obj m =>
      rw [hx] at hget hempty
      simp only [isEmptyContainer, List.isEmpty_iff] at hempty
      rw [hempty] at hget
      cases hget
    | _ =>
      rw [hx] at hget
      cases hget

/-- The removal of a field does not concern a path that goes into a list. -/
theorem valueAt_removeRec_list (hel : ∀ name, el ≠ .field name) (a : String) (tr : Path)
    (node : Json) (tp : Path) :
    valueAt (removeRec (.field a :: tr) node).1 (el :: tp) = valueAt node (el :: tp) := by
  cases node with
  | obj m =>
    have hobj : ∃ m', (removeRec (.field a :: tr) (.obj m)).1 = .obj m' := by
      cases tr with
      | nil => exact ⟨_, rfl⟩
      | cons hd tl =>
        cases hm : m.lookup a with
        | none => exact ⟨m, by simp [removeRec, hm]⟩
        | some child => exact ⟨put a (removeRec (hd :: tl) child).1 m, by simp [removeRec, hm]⟩
    obtain ⟨m', hm'⟩ := hobj
    simp only [valueAt]
    rw [hm', stepElement_of_not_array rfl hel, stepElement_of_not_array rfl hel]
  | _ => cases tr <;> rfl

/-- The removal of list elements, seen by a path that finds its element by `q`. -/
theorem find?_removeLeaf {keep : Json → Bool}
    (hleaf : ∀ xs, removeLeaf el (.arr xs) = .arr (xs.filter keep))
    (hkeep : ∀ x, q x = true → keep x = true) (node : Json) :
    ((removeRec [el] node).1.asArray.bind fun xs => xs.find? q) = node.asArray.bind fun xs =>
    xs.find? q := by
  have hstep : (removeRec [el] node).1 = removeLeaf el node := by cases el <;> rfl
  rw [hstep]
  cases node with
  | arr xs =>
    rw [hleaf]
    exact find?_filter fun x _ => hkeep x
  | _ => cases el <;> rfl

/-- An object that loses a field carries no further keys. -/
theorem matchesKeys_of_takesField (hr : takesField r = true)
    (h : matchesKeys keys (removeRec r x).1 = true) : matchesKeys keys x = true := by
  obtain ⟨a, rfl⟩ : ∃ a, r = [.field a] := by
    unfold takesField at hr
    split at hr
    · exact ⟨_, rfl⟩
    · cases hr
  rw [matchesKeys_iff] at h ⊢
  intro kv hkv
  have hget := h kv hkv
  cases x with
  | obj m =>
    have hlook : (drop a m).lookup kv.1 = some kv.2 := hget
    rw [lookup_drop] at hlook
    split at hlook
    · cases hlook
    · exact hlook
  | _ => exact hget

/-- A removal below a list element, seen by a path through the list. -/
theorem valueAt_removeRec_key {t' : JsonMap} {tp : Path} (htr : tr ≠ [])
    (h : (keysClash t t' = true ∧ (takesField tr = true ∨ entersKey t' tr = false)) ∨
      (t' ≠ [] ∧ entersKey t' tr = false ∧ ∀ x, valueAt (removeRec tr x).1 tp = valueAt x tp))
      (node : Json) :
    valueAt (removeRec (.key t :: tr) node).1 (.key t' :: tp) = valueAt node (.key t' :: tp) := by
  refine find?_removeRec_bind (by simp) htr node fun xs i x hnode hi hx => ?_
  subst hnode
  rcases h with ⟨hclash, hkeys⟩ | ⟨hne, henter, hbelow⟩
  · -- the element is another one, and stays another one
    have hother := keysClash_not_both hclash (matchesKeys_of_index hi hx)
    have hstill : matchesKeys t' (removeRec tr x).1 = false := by
      rcases hkeys with htakes | henter
      · cases hm : matchesKeys t' (removeRec tr x).1 with
        | false => rfl
        | true =>
          rw [matchesKeys_of_takesField htakes hm] at hother
          cases hother
      · rw [matchesKeys_removeRec henter, hother]
    rw [hother, hstill]
    exact ⟨rfl, fun h => (by cases h)⟩
  · have hsame := matchesKeys_removeRec henter x
    exact ⟨hsame, fun hm => ⟨not_emptied_of_matches hne (hsame.trans hm), hbelow x⟩⟩

/-- A removal of or below a list element with a key, seen by a path to an element without it. -/
theorem valueAt_removeRec_key_value {w : Json} (hw : matchesKeys t w = false)
    (henter : entersKey t tr = false) (node : Json) (tp : Path) :
    valueAt (removeRec (.key t :: tr) node).1 (.value w :: tp) = valueAt node (.value w :: tp) := by
  have differs : ∀ x, matchesKeys t x = true → decide (x = w) = false := by
    intro x hm
    refine decide_eq_false ?_
    rintro rfl
    rw [hw] at hm
    cases hm
  simp only [valueAt, stepElement]
  cases tr with
  | nil =>
    rw [find?_removeLeaf (fun _ => rfl) ?_ node]
    intro x hx
    obtain rfl : x = w := by simpa using hx
    simp [hw]
  | cons hd tl =>
    refine find?_removeRec_bind (by simp) (by simp) node fun xs i x hnode hi hx => ?_
    subst hnode
    have hm := matchesKeys_of_index hi hx
    rw [differs _ hm, differs _ ((matchesKeys_removeRec henter x).trans hm)]
    exact ⟨rfl, fun h => (by cases h)⟩

theorem valueAt_removeRec (r p : Path) (node : Json) (h : parted r p = true) :
    valueAt (removeRec r node).1 p = valueAt node p := by
  induction r generalizing p node with
  | nil => rfl
  | cons hr tr ih =>
    cases p with
    | nil => cases hr <;> simp [parted] at h
    | cons hp tp =>
      cases hr with
      | field a =>
        cases hp with
        | field b =>
          by_cases hab : a = b
          · subst hab
            simp only [parted, ne_eq, not_true_eq_false, decide_false, Bool.false_or, and_eq_true,
              not_eq_true', isEmpty_eq_false_iff] at h
            obtain ⟨hd, tl, rfl⟩ := exists_cons_of_ne_nil h.1
            cases node with
            | obj m =>
              cases hm : m.lookup a with
              | none => simp [removeRec, hm]
              | some child =>
                simp only [removeRec, hm, valueAt, stepElement, get_obj, lookup_put_self, bind_some]
                exact ih tp child h.2
            | _ => rfl
          · exact valueAt_removeRec_field (by simpa using hab) node tp
        | _ => exact valueAt_removeRec_list (by simp) a tr node tp
      | key t =>
        cases hp with
        | field b => exact valueAt_removeRec_field (by simp) node tp
        | key t' =>
          cases tr with
          | nil =>
            simp only [valueAt, stepElement]
            rw [find?_removeLeaf (fun _ => rfl) ?_ node]
            intro x hx
            cases hm : matchesKeys t x with
            | false => rfl
            | true =>
              rw [keysClash_not_both h hm] at hx
              cases hx
          | cons hd tl =>
            simp only [parted, and_eq_true, or_eq_true, not_eq_true', isEmpty_eq_false_iff] at h
            refine valueAt_removeRec_key (by simp) (h.imp_right fun hrest => ?_) node
            exact ⟨hrest.1.1, hrest.1.2, fun x => ih tp x hrest.2⟩
        | value w =>
          have hh : matchesKeys t w = false ∧ entersKey t tr = false := by
            cases tr <;> simpa [parted] using h
          exact valueAt_removeRec_key_value hh.1 hh.2 node tp
        | index i => cases tr <;> simp [parted] at h
      | value v =>
        cases hp with
        | field b => exact valueAt_removeRec_field (by simp) node tp
        | index i => cases tr <;> simp [parted] at h
        | key t' =>
          cases tr with
          | cons hd tl => simp [parted] at h
          | nil =>
            simp only [parted, not_eq_true'] at h
            simp only [valueAt, stepElement]
            rw [find?_removeLeaf (fun _ => rfl) ?_ node]
            intro x hx
            have : x ≠ v := by
              rintro rfl
              rw [h] at hx
              cases hx
            simpa using this
        | value w =>
          cases tr with
          | cons hd tl => simp [parted] at h
          | nil =>
            simp only [parted, decide_not, not_eq_true', decide_eq_false_iff_not] at h
            simp only [valueAt, stepElement]
            rw [find?_removeLeaf (fun _ => rfl) ?_ node]
            intro x hx
            obtain rfl : x = w := by simpa using hx
            simpa using fun he => h he.symm
      | index i =>
        cases hp with
        | field b => exact valueAt_removeRec_field (by simp) node tp
        | _ => cases tr <;> simp [parted] at h

/-- Removals that all part from a path leave its value. -/
theorem valueAt_removeAll {rs : List Path} {p : Path}
    (h : ∀ r ∈ rs, parted r p = true) (root : Json) :
    valueAt (rs.foldl removeAt root) p = valueAt root p := by
  induction rs generalizing root with
  | nil => rfl
  | cons r rs ih =>
    rw [foldl_cons, ih (fun r' hr' => h r' (.tail _ hr'))]
    exact valueAt_removeRec r p root (h r (mem_cons_self ..))

/-! ## What a removal goes through -/

/-- A path that finds a list element goes where a removal goes. -/
theorem listElementIndex_of_step (hel : ∀ name, el ≠ .field name)
    (h : stepElement node el = some x) :
    ∃ xs i, node = .arr xs ∧ listElementIndex node el = some i ∧ xs[i]? = some x := by
  cases node with
  | arr xs =>
    have hindex : ∃ i, listElementIndex (.arr xs) el = some i := by
      refine isSome_iff_exists.mp ?_
      cases el with
      | field name => exact absurd rfl (hel name)
      | key keys =>
        have hsome : (xs.find? (matchesKeys keys)).isSome = true := isSome_iff_exists.mpr ⟨x, h⟩
        have hany : (xs.any (matchesKeys keys)) = true := by simpa using List.find?_isSome.mp hsome
        simpa [listElementIndex, Json.asArray] using hany
      | value v =>
        have hsome : (xs.find? fun e => decide (e = v)).isSome = true :=
          isSome_iff_exists.mpr ⟨x, h⟩
        simpa [listElementIndex, Json.asArray] using List.find?_isSome.mp hsome
      | index j =>
        have hj : xs[j]? = some x := h
        simp [listElementIndex, Json.asArray, (List.getElem?_eq_some_iff.mp hj).1]
    obtain ⟨i, hi⟩ := hindex
    obtain ⟨y, hy, hstep⟩ := getElem?_listElementIndex hel hi
    rw [h] at hstep
    exact ⟨xs, i, rfl, hi, Option.some.inj hstep ▸ hy⟩
  | _ =>
    rw [stepElement_of_not_array rfl hel] at h
    cases h

/-! ## Removals make a document smaller -/

/-- The first document is what one removal leaves of the second. -/
inductive Shrinks : Json → Json → Prop
  | refl (x : Json) : Shrinks x x
  | drop (k : String) (m : JsonMap) : Shrinks (.obj (Assoc.drop k m)) (.obj m)
  | field {m : JsonMap} {k : String} {v v' : Json} (hl : m.lookup k = some v) (hv : Shrinks v' v) :
      Shrinks (.obj (Assoc.put k v' m)) (.obj m)
  | sublist {xs ys : List Json} (h : ys.Sublist xs) : Shrinks (.arr ys) (.arr xs)
  | element {xs : List Json} {i : Nat} {x x' : Json} (hi : xs[i]? = some x) (hx : Shrinks x' x) :
      Shrinks (.arr (xs.set i x')) (.arr xs)

theorem removeLeaf_shrinks (el : PathElement) (node : Json) :
    Shrinks (removeLeaf el node) node := by
  unfold removeLeaf
  split
  · exact .drop ..
  · exact .sublist (eraseIdx_sublist ..)
  · exact .sublist filter_sublist
  · exact .sublist filter_sublist
  · exact .refl _

theorem removeRec_shrinks (r : Path) (node : Json) : Shrinks (removeRec r node).1 node := by
  induction r generalizing node with
  | nil => exact .refl _
  | cons el tr ih =>
    by_cases htr : tr = []
    · subst htr
      exact removeLeaf_shrinks el node
    by_cases hel : ∀ name, el ≠ .field name
    · obtain he | ⟨xs, i, x, rfl, -, hx, ⟨-, he⟩ | ⟨-, he⟩⟩ := removeRec_element hel htr node
      · rw [he]
        exact .refl _
      · rw [he]
        exact .element hx (ih x)
      · rw [he]
        exact .sublist (eraseIdx_sublist ..)
    · obtain ⟨name, rfl⟩ : ∃ name, el = .field name := by simpa using hel
      obtain ⟨hd, tl, rfl⟩ := exists_cons_of_ne_nil htr
      cases node with
      | obj m =>
        cases hm : m.lookup name with
        | none =>
          simp only [removeRec, hm]
          exact .refl _
        | some child =>
          simp only [removeRec, hm]
          exact .field hm (ih child)
      | _ => exact .refl _

theorem Shrinks.canonical {node' : Json} (hs : Shrinks node' node) (h : node.canonical = true) :
    node'.canonical = true := by
  induction hs with
  | refl => exact h
  | drop k m => exact canonicalFields_filter h _
  | @field m k v v' hl hv ih => exact canonicalFields_put h (ih (canonical_of_lookup h hl)) k
  | @sublist xs ys hsub =>
    exact canonicalList_iff.mpr fun y hy => canonicalList_iff.mp h y (hsub.subset hy)
  | @element xs i x x' hi hx ih =>
    refine canonicalList_iff.mpr fun y hy => ?_
    rcases mem_or_eq_of_mem_set hy with hy | rfl
    · exact canonicalList_iff.mp h y hy
    · exact ih (canonicalList_iff.mp h x (mem_of_getElem? hi))

end Engenho
