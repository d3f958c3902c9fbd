import Engenho.Store.SsaConfig

/-!
# Directives in a merged object

A strategic merge patch carries instructions: the `$` fields, and a null for a field to be removed.
The merge acts on them where it merges an object into an object. What it inserts whole keeps them:
the elements of a list that is replaced or united, a new element of a list merged by key, and an
object under `$patch: replace`; and it treats `$setElementOrder/…` and `$deleteFromPrimitiveList/…`
as fields.

`tidy` says of a patch and the object it is for that nothing of the kind is inserted. A tidy patch
leaves no directive and no new null (`strategicMerge_within`), and a patch that names each list
element once and leaves none is tidy (`tidy_of_free`).
-/

namespace Engenho
open Assoc Json List

/-! ## Values without directives -/

/-- An instruction to the merge, never a field of an object. -/
def directiveName (k : String) : Bool :=
  k = patchSentinel || k = retainKeysSentinel || "$setElementOrder/".toList.isPrefixOf k.toList ||
    "$deleteFromPrimitiveList/".toList.isPrefixOf k.toList

section
variable (nulls : Bool)

mutual
/-- No object in the value has a directive among its fields and, if `nulls`, none has a null
field. -/
def free : Json → Bool
  | .arr xs => freeList xs
  | .obj fields => freeFields fields
  | _ => true
def freeList : List Json → Bool
  | [] => true
  | x :: xs => free x && freeList xs
def freeFields : List (String × Json) → Bool
  | [] => true
  | (k, v) :: rest => !directiveName k && !(nulls && v.isNull) && free v && freeFields rest
end

mutual
/-- The value has no directive and, if `nulls`, no null field that `cur` does not have at the same
place. For an element of a list, some element of the list in `cur` is compared. -/
def within (cur : Json) : Json → Bool
  | .arr xs => withinList (cur.asArray.getD []) xs
  | .obj fields => withinFields (cur.asObject.getD []) fields
  | _ => true
def withinList (cur : List Json) : List Json → Bool
  | [] => true
  | x :: xs => (free nulls x || cur.any fun c => within c x) && withinList cur xs
def withinFields (cur : JsonMap) : List (String × Json) → Bool
  | [] => true
  | (k, v) :: rest =>
    !directiveName k && !(nulls && v.isNull && !(cur.lookup k == some .null)) &&
      within ((cur.lookup k).getD .null) v && withinFields cur rest
end
end

variable {xs : List Json} {fields : JsonMap} {v : Json} {path : List String}
variable {c : Json}
section
variable {nulls : Bool}

theorem freeList_iff : freeList nulls xs = true ↔ ∀ x ∈ xs, free nulls x = true := by
  induction xs with
  | nil => simp [freeList]
  | cons x xs ih => simp [freeList, ih]

theorem freeFields_iff : freeFields nulls fields = true ↔ ∀ e ∈ fields,
      directiveName e.1 = false ∧ (nulls && e.2.isNull) = false ∧ free nulls e.2 = true := by
  induction fields with
  | nil => simp [freeFields]
  | cons e fields ih =>
    rw [freeFields, forall_mem_cons, Bool.and_eq_true, ih]
    refine and_congr_left fun _ => ?_
    simp only [Bool.and_eq_true, Bool.not_eq_true', and_assoc]

theorem withinList_iff {cur : List Json} : withinList nulls cur xs = true ↔
      ∀ x ∈ xs, free nulls x = true ∨ ∃ c ∈ cur, within nulls c x = true := by
  induction xs with
  | nil => simp [withinList]
  | cons x xs ih => simp [withinList, ih]

theorem withinFields_iff {cur : JsonMap} : withinFields nulls cur fields = true ↔ ∀ e ∈ fields,
      directiveName e.1 = false ∧ ((nulls && e.2.isNull) = true → cur.lookup e.1 = some .null) ∧
        within nulls ((cur.lookup e.1).getD .null) e.2 = true := by
  induction fields with
  | nil => simp [withinFields]
  | cons e fields ih =>
    obtain ⟨k, v⟩ := e
    rw [withinFields, forall_mem_cons, Bool.and_eq_true, ih]
    refine and_congr_left fun _ => ?_
    generalize (nulls && v.isNull) = n
    cases n <;> simp [and_assoc]

/-! ## Comparing with another value -/

theorem within_of_free (v c : Json) (h : free nulls v = true) : within nulls c v = true := by
  induction v generalizing c with
  | arr xs => exact withinList_iff.mpr fun x hx => .inl (freeList_iff.mp h x hx)
  | obj fields ih =>
    refine withinFields_iff.mpr fun e he => ?_
    obtain ⟨hk, hnull, hv⟩ := freeFields_iff.mp h e he
    exact ⟨hk, fun hn => absurd hn (by simp [hnull]), ih e he _ hv⟩
  | _ => rfl

theorem freeList_asArray (h : free nulls v = true) : freeList nulls (v.asArray.getD []) = true := by
  cases v with
  | arr xs => exact h
  | _ => rfl

theorem freeFields_asObject (h : free nulls v = true) :
    freeFields nulls (v.asObject.getD []) = true := by
  cases v with
  | obj fields => exact h
  | _ => rfl

theorem free_lookup (h : freeFields nulls fields = true) {d : Json} (hd : free nulls d = true)
    (k : String) :
    free nulls ((fields.lookup k).getD d) = true := by
  cases hl : fields.lookup k with
  | none => exact hd
  | some v => exact (freeFields_iff.mp h _ (mem_of_lookup hl)).2.2

theorem free_of_within (v : Json) (h : within nulls c v = true) (hc : free nulls c = true) :
    free nulls v = true := by
  induction v generalizing c with
  | arr xs ih =>
    refine freeList_iff.mpr fun x hx => ?_
    obtain hfree | ⟨c', hmem, hx'⟩ := withinList_iff.mp h x hx
    · exact hfree
    · exact ih x hx hx' (freeList_iff.mp (freeList_asArray hc) c' hmem)
  | obj fields ih =>
    have hcur := freeFields_asObject hc
    refine freeFields_iff.mpr fun e he => ?_
    obtain ⟨hk, hnull, hv⟩ := withinFields_iff.mp h e he
    refine ⟨hk, ?_, ih e he hv (free_lookup hcur rfl _)⟩
    cases hn : (nulls && e.2.isNull) with
    | false => rfl
    | true =>
      have hmem := mem_of_lookup (hnull hn)
      rw [← (freeFields_iff.mp hcur _ hmem).2.1, (Bool.and_eq_true_iff.mp hn).1]
      rfl
  | _ => rfl

/-- An absent field, or a value of another kind, is compared like an empty object. -/
theorem within_empty (v : Json) : within nulls (.obj []) v = within nulls .null v := by
  cases v <;> rfl

theorem within_of_null (h : within nulls .null v = true) (c : Json) : within nulls c v = true :=
  within_of_free v c (free_of_within v h rfl)

theorem within_trans (v : Json) {b : Json} (h : within nulls b v = true)
    (hb : within nulls c b = true) :
    within nulls c v = true := by
  induction v generalizing b c with
  | arr xs ih =>
    refine withinList_iff.mpr fun x hx => ?_
    have hold : withinList nulls (c.asArray.getD []) (b.asArray.getD []) = true := by
      cases b with
      | arr bs => exact hb
      | _ => rfl
    obtain hfree | ⟨b', hmem, hx'⟩ := withinList_iff.mp h x hx
    · exact .inl hfree
    · obtain hfree | ⟨c', hc, hbc⟩ := withinList_iff.mp hold b' hmem
      · exact .inl (free_of_within x hx' hfree)
      · exact .inr ⟨c', hc, ih x hx hx' hbc⟩
  | obj fields ih =>
    refine withinFields_iff.mpr fun e he => ?_
    have hold : withinFields nulls (c.asObject.getD []) (b.asObject.getD []) = true := by
      cases b with
      | obj bs => exact hb
      | _ => rfl
    obtain ⟨hk, hnull, hv⟩ := withinFields_iff.mp h e he
    refine ⟨hk, fun hn => ?_, ih e he hv ?_⟩
    · refine (withinFields_iff.mp hold _ (mem_of_lookup (hnull hn))).2.1 ?_
      rw [(Bool.and_eq_true_iff.mp hn).1]
      rfl
    · cases hl : (b.asObject.getD []).lookup e.1 with
      | none => rfl
      | some b' => exact (withinFields_iff.mp hold _ (mem_of_lookup hl)).2.2
  | _ => rfl

theorem within_self (v : Json) (hc : v.canonical = true) (h : free false v = true) :
    within nulls v v = true := by
  induction v with
  | arr xs ih =>
    refine withinList_iff.mpr fun x hx => .inr ⟨x, hx, ih x hx ?_ (freeList_iff.mp h x hx)⟩
    exact canonicalList_iff.mp hc x hx
  | obj fields ih =>
    refine withinFields_iff.mpr fun e he => ?_
    have hl := (sorted_of_canonicalFields hc).lookup_of_mem he
    obtain ⟨hk, -, hv⟩ := freeFields_iff.mp h e he
    rw [asObject_obj, Option.getD_some, hl]
    refine ⟨hk, fun hn => ?_, ih e he (canonical_of_mem hc he) hv⟩
    rw [isNull_iff.mp (Bool.and_eq_true_iff.mp hn).2]
  | _ => rfl

end

/-! ## Tidy patches -/

section
variable (env : Env) (gvk : Gvk) (nulls : Bool)

mutual
/-- The patch leaves no directive, and no null, in what it inserts whole when merged into `cur`. -/
def tidy (path : List String) (cur : Json) : Json → Bool
  | .obj fields =>
    if directiveOf fields = some (some .replace) then freeFields nulls
      (Assoc.drop patchSentinel fields)
    else tidyFields path (retained cur fields) fields
  | patch => free nulls patch
def tidyFields (path : List String) (out : JsonMap) : List (String × Json) → Bool
  | [] => true
  | (k, pv) :: rest =>
    (k = patchSentinel || k = retainKeysSentinel ||
      match pv with
      | .null => true
      | .arr ps =>
        !directiveName k &&
          match (env.mergeStrategy gvk (path ++ [k])).byKey with
          | none => freeList nulls ps
          | some keys =>
            tidyList keys (path ++ [k]) (((out.lookup k).bind Json.asArray).getD []) [] ps
      | .obj fs => !directiveName k && tidy (path ++ [k]) ((out.lookup k).getD (.obj [])) (.obj fs)
      | _ => !directiveName k) &&
      tidyFields path out rest
/-- `seen` are the keys that the patch has named before. An element that it names again has to be
free of directives itself, as what it meets is no longer the element of `existing`. -/
def tidyList (keys path : List String) (existing : List Json) (seen : List (List Json)) :
    List Json → Bool
  | [] => true
  | pel :: rest =>
    match keyOf keys pel with
    | none => free nulls pel && tidyList keys path existing seen rest
    | some pkey =>
      (deletes pel ||
        if pkey ∈ seen then free nulls (appended pel)
        else
          match existing.find? fun e => keyOf keys e = some pkey with
          | some e => tidy path e pel
          | none => free nulls (appended pel)) &&
        tidyList keys path existing (pkey :: seen) rest
end

theorem tidyFields_cons (path : List String) (out : JsonMap) (k : String) (pv : Json)
    (rest : List (String × Json)) : tidyFields env gvk nulls path out ((k, pv) :: rest) =
      (tidyFields env gvk nulls path out [(k, pv)] && tidyFields env gvk nulls path out rest) := by
  cases pv <;> simp only [tidyFields, Bool.and_true]

theorem tidyFields_sentinel {path : List String} {out : JsonMap} {k : String} {pv : Json}
    (h : k = patchSentinel ∨ k = retainKeysSentinel) :
    tidyFields env gvk nulls path out [(k, pv)] = true := by
  cases pv <;> simp [tidyFields, h]

variable (once : Bool)

mutual
/-- In every list that is merged by key, the keys of the patch elements are made of scalars and, if
`once`, no two patch elements have the same key. -/
def wellKeyed (path : List String) : Json → Bool
  | .obj fields => wellKeyedFields path fields
  | _ => true
def wellKeyedFields (path : List String) : List (String × Json) → Bool
  | [] => true
  | (k, pv) :: rest =>
    (match pv with
      | .arr ps =>
        match (env.mergeStrategy gvk (path ++ [k])).byKey with
        | none => true
        | some keys => wellKeyedList keys (path ++ [k]) ps
      | .obj fs => wellKeyed (path ++ [k]) (.obj fs)
      | _ => true) &&
      wellKeyedFields path rest
def wellKeyedList (keys path : List String) : List Json → Bool
  | [] => true
  | pel :: rest =>
    ((keyOf keys pel).all fun pkey => (deletes pel || pkey.all isScalar) &&
      (!once || rest.all fun p => keyOf keys p ≠ some pkey)) &&
      wellKeyed path pel && wellKeyedList keys path rest
end

theorem wellKeyedFields_cons (path : List String) (k : String) (pv : Json)
    (rest : List (String × Json)) :
    wellKeyedFields env gvk once path ((k, pv) :: rest) =
      (wellKeyedFields env gvk once path [(k, pv)] && wellKeyedFields env gvk once path rest) := by
  cases pv <;> simp only [wellKeyedFields, Bool.and_true]

end

section
variable {env : Env} {gvk : Gvk} {nulls once : Bool}

/-! ## The keys of a list -/

variable {keys : List String} {out out' rest pkey mid : List Json} {pel cur : Json} {k : String}
variable {e merged : Json}

/-- An element that is merged keeps its key, if that is made of scalars and no directive. -/
theorem keyOf_strategicMerge (hm : strategicMerge env gvk path e pel = .ok merged)
    (hc : pel.canonical = true) (hkey : keyOf keys pel = some pkey)
    (hscalar : pkey.all isScalar = true)
    (hnames : ∀ k ∈ keys, k ≠ patchSentinel ∧ k ≠ retainKeysSentinel) :
    keyOf keys merged = some pkey := by
  obtain ⟨m, rfl, hmm⟩ := keyOf_eq_some hkey
  refine keyOf_strategicMerge_obj hm (sorted_of_canonicalFields hc).nodup_keys hkey fun k hk =>
    ⟨hnames k hk, ?_⟩
  have hmem : m.lookup k ∈ pkey.map some := hmm ▸ mem_map_of_mem hk
  obtain ⟨v, hv, hl⟩ := mem_map.mp hmem
  rw [← hl]
  exact all_eq_true.mp hscalar v hv

/-- The names of the merge keys, as an element shows that carries them and no directive. -/
theorem names_of_keyOf (hkey : keyOf keys e = some pkey) (hfree : free false e = true) :
    ∀ k ∈ keys, k ≠ patchSentinel ∧ k ≠ retainKeysSentinel := by
  intro k hk
  obtain ⟨m, rfl, hm⟩ := keyOf_eq_some hkey
  have hmem : m.lookup k ∈ pkey.map some := hm ▸ mem_map_of_mem hk
  obtain ⟨v, -, hl⟩ := mem_map.mp hmem
  have hname := (freeFields_iff.mp hfree _ (mem_of_lookup hl.symm)).1
  simp only [directiveName, Bool.or_eq_false_iff, decide_eq_false_iff_not] at hname
  exact ⟨hname.1.1.1, hname.1.1.2⟩

/-- A patch has each field once, so that what a field meets is what was there at the start. -/
theorem FieldMerge.others {start out mid : JsonMap} {pv : Json} {rest : List (String × Json)}
    (h : FieldMerge env gvk path out k pv mid) (hk : k ∉ rest.map Prod.fst)
    (hsame : ∀ k' ∈ rest.map Prod.fst, out.lookup k' = start.lookup k') :
    ∀ k' ∈ rest.map Prod.fst, mid.lookup k' = start.lookup k' := by
  intro k' hk'
  rw [h.lookup_ne (ne_of_mem_of_not_mem hk' hk), hsame k' hk']

/-! ## A tidy patch -/

theorem directiveFree_of_within (v : Json) (h : within nulls c v = true) : free false v = true := by
  induction v generalizing c with
  | arr xs ih =>
    refine freeList_iff.mpr fun x hx => ?_
    obtain hfree | ⟨c', -, hx'⟩ := withinList_iff.mp h x hx
    · exact ih x hx (within_of_free x .null hfree)
    · exact ih x hx hx'
  | obj fields ih =>
    refine freeFields_iff.mpr fun e he => ?_
    obtain ⟨hk, -, hv⟩ := withinFields_iff.mp h e he
    exact ⟨hk, rfl, ih e he hv⟩
  | _ => rfl

theorem strategicFields_sentinel {out : JsonMap} (hk : k = patchSentinel ∨ k = retainKeysSentinel)
    (pv : Json) (rest : List (String × Json)) :
    strategicFields env gvk path out ((k, pv) :: rest) = strategicFields env gvk path out rest := by
  conv_lhs => unfold strategicFields
  rw [if_pos hk]

theorem withinFields_put {cur out : JsonMap} (h : withinFields nulls cur out = true)
    (hk : directiveName k = false) (hnull : v.isNull = false)
    (hv : within nulls ((cur.lookup k).getD .null) v = true) :
    withinFields nulls cur (Assoc.put k v out) = true := by
  refine withinFields_iff.mpr fun e he => ?_
  rcases mem_put he with rfl | he
  · refine ⟨hk, fun hn => ?_, hv⟩
    rw [hnull, Bool.and_false] at hn
    cases hn
  · exact withinFields_iff.mp h e he

theorem withinFields_filter {cur out : JsonMap} (h : withinFields nulls cur out = true)
    (p : String × Json → Bool) : withinFields nulls cur (out.filter p) = true :=
  withinFields_iff.mpr fun e he => withinFields_iff.mp h e (mem_of_mem_filter he)

theorem mem_retained {e : String × Json} (h : e ∈ retained cur fields) :
    e ∈ cur.asObject.getD [] := by
  unfold retained at h
  split at h
  · exact h
  · exact mem_of_mem_filter h

theorem freeFields_retained (h : free nulls cur = true) (fields : JsonMap) :
    freeFields nulls (retained cur fields) = true :=
  freeFields_iff.mpr fun e he => freeFields_iff.mp (freeFields_asObject h) e (mem_retained he)

/-- What is compared with the retained fields may be compared with all of them. -/
theorem withinFields_of_retained {out : JsonMap} (hc : cur.canonical = true)
    (h : withinFields nulls (retained cur fields) out = true) :
    withinFields nulls (cur.asObject.getD []) out = true := by
  refine withinFields_iff.mpr fun e he => ?_
  obtain ⟨hk, hnull, hv⟩ := withinFields_iff.mp h e he
  have hcur : Assoc.Sorted (cur.asObject.getD []) := by
    cases cur with
    | obj c => exact sorted_of_canonicalFields hc
    | _ => exact List.Pairwise.nil
  have hsub : ∀ {v}, (retained cur fields).lookup e.1 = some v →
      (cur.asObject.getD []).lookup e.1 = some v :=
    fun hl => hcur.lookup_of_mem (mem_retained (mem_of_lookup hl))
  refine ⟨hk, fun hn => hsub (hnull hn), ?_⟩
  cases hl : (retained cur fields).lookup e.1 with
  | none =>
    rw [hl] at hv
    exact within_of_null hv _
  | some v =>
    rw [hl] at hv
    rw [hsub hl]
    exact hv

/-! A patch that is free of directives, but for its own `$patch`, is tidy wherever it is merged. -/

theorem free_appended (h : free nulls pel = true) : free nulls (appended pel) = true := by
  cases pel with
  | obj m => exact freeFields_iff.mpr fun e he => freeFields_iff.mp h e (mem_of_mem_filter he)
  | _ => rfl

mutual
theorem tidy_of_free_appended :
    ∀ (patch : Json) {path : List String} {cur : Json}, patch.isObject = true →
    free nulls (appended patch) = true → tidy env gvk nulls path cur patch = true
  | .obj fields, path, cur, _, h => by
    rw [tidy]
    split
    · exact h
    · refine tidyFields_of_free fields fun e he hne => ?_
      exact freeFields_iff.mp h e (List.mem_filter.mpr ⟨he, decide_eq_true hne⟩)
theorem tidyFields_of_free : ∀ (fields : List (String × Json)) {path : List String} {out : JsonMap},
    (∀ e ∈ fields, e.1 ≠ patchSentinel →
      directiveName e.1 = false ∧ (nulls && e.2.isNull) = false ∧ free nulls e.2 = true) →
    tidyFields env gvk nulls path out fields = true
  | [], _, _, _ => rfl
  | (k, pv) :: rest, path, out, h => by
    obtain ⟨hk, hrest⟩ := List.forall_mem_cons.mp h
    rw [tidyFields_cons, tidyFields_of_free rest hrest, Bool.and_true]
    by_cases hp : k = patchSentinel
    · exact tidyFields_sentinel _ _ _ (.inl hp)
    obtain ⟨hname, -, hv⟩ := hk hp
    cases pv with
    | arr ps =>
      simp only [tidyFields, hname, Bool.not_false, Bool.true_and, Bool.and_true, Bool.or_eq_true]
      refine .inr ?_
      split
      · exact hv
      · exact tidyList_of_free ps hv
    | obj fs =>
      simp only [tidyFields, hname, Bool.not_false, Bool.true_and, Bool.and_true, Bool.or_eq_true]
      exact .inr (tidy_of_free_appended (.obj fs) rfl (free_appended hv))
    | _ => simp [tidyFields, hname]
theorem tidyList_of_free : ∀ (ps : List Json) {keys path : List String} {existing : List Json}
    {seen : List (List Json)}, freeList nulls ps = true →
    tidyList env gvk nulls keys path existing seen ps = true
  | [], _, _, _, _, _ => rfl
  | pel :: rest, keys, path, existing, seen, h => by
    simp only [freeList, Bool.and_eq_true] at h
    rw [tidyList]
    split
    · rw [h.1, tidyList_of_free rest h.2]
      rfl
    rename_i pkey hkey
    rw [tidyList_of_free rest h.2, Bool.and_true, Bool.or_eq_true]
    refine .inr ?_
    split
    · exact free_appended h.1
    · split
      · obtain ⟨m, rfl, -⟩ := keyOf_eq_some hkey
        exact tidy_of_free_appended (.obj m) rfl (free_appended h.1)
      · exact free_appended h.1
end

/-- A merged element keeps its key, in a list without directives. -/
theorem keyOf_merged_of_wellKeyed (hkey : keyOf keys pel = some pkey) (hp : pel.canonical = true)
    (hw : wellKeyedList env gvk once keys path (pel :: rest) = true) (he : free false e = true)
    (hdel : deletes pel = false) (hke : keyOf keys e = some pkey)
    (hm : strategicMerge env gvk path e pel = .ok merged) : keyOf keys merged = some pkey := by
  simp only [wellKeyedList, hkey, Option.all_some, hdel, Bool.and_eq_true] at hw
  exact keyOf_strategicMerge hm hp hkey hw.1.1.1 (names_of_keyOf hke he)

theorem find?_keyless (hkey : keyOf keys pel = none) (pkey : List Json) :
    (if pel ∈ out then out else out ++ [pel]).find? (fun e => keyOf keys e = some pkey) =
      out.find? (fun e => keyOf keys e = some pkey) := by
  split
  · rfl
  · simp [hkey]

mutual
/-- A tidy patch leaves no directive and no null of its own. -/
theorem strategicMerge_within : ∀ (patch : Json) {path : List String} {cur m : Json},
    strategicMerge env gvk path cur patch = .ok m → patch.canonical = true →
    wellKeyed env gvk once path patch = true → cur.canonical = true → free false cur = true →
    tidy env gvk nulls path cur patch = true → within nulls cur m = true
  | .obj fields, path, cur, m, h, hp, hw, hc, hfree, ht => by
    rw [tidy] at ht
    obtain ⟨hd, rfl⟩ | ⟨-, hd, out, hout, rfl⟩ := strategicMerge_obj h
    · rw [if_pos hd] at ht
      exact within_of_free _ _ ht
    · rw [if_neg hd] at ht
      have hcr := canonicalFields_retained hc fields
      have hfr := freeFields_retained hfree fields
      have hstart : within nulls (.obj (retained cur fields)) (.obj (retained cur fields)) = true :=
        within_self _ hcr hfr
      have hrel := strategicFields_within fields hout hp hw hcr hfr (fun _ _ => rfl) ht hstart
      exact withinFields_of_retained hc hrel
  | .null, _, _, _, h, _, _, _, _, ht | .bool _, _, _, _, h, _, _, _, _, ht
  | .num _, _, _, _, h, _, _, _, _, ht | .str _, _, _, _, h, _, _, _, _, ht
  | .arr _, _, _, _, h, _, _, _, _, ht => by cases h; exact within_of_free _ _ ht
theorem strategicFields_within : ∀ (fields : List (String × Json)) {path : List String}
    {start out out' : JsonMap}, strategicFields env gvk path out fields = .ok out' →
    Json.canonicalFields fields = true → wellKeyedFields env gvk once path fields = true →
    Json.canonicalFields start = true → freeFields false start = true →
    (∀ k ∈ fields.map Prod.fst, out.lookup k = start.lookup k) →
    tidyFields env gvk nulls path start fields = true → withinFields nulls start out = true →
    withinFields nulls start out' = true
  | [], _, _, _, _, h, _, _, _, _, _, _, hin => by cases h; exact hin
  | (k, pv) :: rest, path, start, out, out', h, hp, hw, hc, hfree, hsame, ht, hin => by
    rw [tidyFields_cons, Bool.and_eq_true] at ht
    rw [wellKeyedFields_cons, Bool.and_eq_true] at hw
    have hnd := (sorted_of_canonicalFields hp).nodup_keys
    simp only [Json.canonicalFields, Bool.and_eq_true] at hp
    by_cases hsent : k = patchSentinel ∨ k = retainKeysSentinel
    · rw [strategicFields_sentinel hsent] at h
      exact strategicFields_within rest h hp.2 hw.2 hc hfree
        (fun k' hk' => hsame k' (.tail _ hk')) ht.2 hin
    obtain ⟨mid, hstep, hrest⟩ := strategicFields_cons h
    have hk : out.lookup k = start.lookup k := hsame k (.head _)
    have hothers := hstep.others (List.nodup_cons.mp hnd).1 fun k' hk' => hsame k' (.tail _ hk')
    obtain ⟨htidy, ht⟩ := ht
    refine strategicFields_within rest hrest hp.2 hw.2 hc hfree hothers ht ?_
    cases hstep with
    | sentinel _ hs => exact absurd hs hsent
    | null => exact withinFields_filter hin _
    | scalar _ hv =>
      cases pv with
      | null | arr | obj => cases hv
      | _ => exact withinFields_put hin (by simpa [tidyFields, hsent] using htidy) rfl rfl
    | object fs merged hm =>
      simp only [tidyFields, Bool.and_true, Bool.or_eq_true, decide_eq_true_eq, hsent, false_or,
        Bool.and_eq_true, Bool.not_eq_true'] at htidy
      rw [hk] at hm
      have hmerged : within nulls ((start.lookup k).getD (.obj [])) merged = true := by
        refine strategicMerge_within (.obj fs) hm hp.1.2 (by simpa [wellKeyedFields] using hw.1)
          ?_ ?_ htidy.2
        · exact canonical_lookup hc rfl k
        · exact free_lookup hfree rfl k
      have hnull : merged.isNull = false := by
        obtain ⟨-, rfl⟩ | ⟨-, -, o, -, rfl⟩ := strategicMerge_obj hm <;> rfl
      refine withinFields_put hin htidy.1 hnull ?_
      cases hl : start.lookup k with
      | none =>
        rw [hl] at hmerged
        exact (within_empty merged).symm.trans hmerged
      | some x =>
        rw [hl] at hmerged
        exact hmerged
    | list ps merged hm =>
      simp only [tidyFields, Bool.and_true, Bool.or_eq_true, decide_eq_true_eq, hsent, false_or,
        Bool.and_eq_true, Bool.not_eq_true'] at htidy
      refine withinFields_put hin htidy.1 rfl ?_
      rw [hk] at hm
      obtain ⟨hname, htidy⟩ := htidy
      have hexc : (Json.arr (((start.lookup k).bind Json.asArray).getD [])).canonical = true :=
        existing_of_lookup (P := fun v => v.canonical = true) rfl fun x hx =>
          canonical_of_lookup hc hx
      have hexf : free false (Json.arr (((start.lookup k).bind Json.asArray).getD [])) = true :=
        existing_of_lookup (P := fun v => free false v = true) rfl fun x hx =>
          (freeFields_iff.mp hfree _ (mem_of_lookup hx)).2.2
      have hold : within nulls ((start.lookup k).getD .null) (.arr merged) =
          withinList nulls (((start.lookup k).bind Json.asArray).getD []) merged := by
        cases start.lookup k <;> rfl
      have hself : within nulls _ _ = true := within_self _ hexc hexf
      rw [hold]
      obtain ⟨keys, hs, hm⟩ | ⟨hs, hm⟩ := hm.cases
      · rw [hs] at htidy
        have hwl : wellKeyedList env gvk once keys (path ++ [k]) ps = true := by
          have := hw.1
          simp only [wellKeyedFields, hs, Bool.and_true] at this
          exact this
        exact mergeListByKey_within ps hm hp.1.2 hwl hexc hexc hexf (fun _ _ => rfl) htidy hself
      · rw [hs] at htidy
        refine withinList_iff.mpr fun x hx => ?_
        obtain rfl | rfl := hm
        · exact .inl (freeList_iff.mp htidy x hx)
        · rcases mem_setUnion.mp hx with hx | hx
          · exact withinList_iff.mp hself x hx
          · exact .inl (freeList_iff.mp htidy x hx)
theorem mergeListByKey_within : ∀ (ps : List Json) {keys path : List String}
    {existing out out' : List Json} {seen : List (List Json)},
    mergeListByKey env gvk keys path out ps = .ok out' → Json.canonicalList ps = true →
    wellKeyedList env gvk once keys path ps = true → Json.canonicalList existing = true →
    Json.canonicalList out = true → freeList false existing = true →
    (∀ pkey, pkey ∉ seen → out.find? (fun e => keyOf keys e = some pkey) =
      existing.find? (fun e => keyOf keys e = some pkey)) →
    tidyList env gvk nulls keys path existing seen ps = true →
    withinList nulls existing out = true →
    withinList nulls existing out' = true
  | [], _, _, _, _, _, _, h, _, _, _, _, _, _, _, hin => by cases h; exact hin
  | pel :: rest, keys, path, existing, out, out', seen, h, hp, hw, hce, hco, hfree,
    hfind, ht, hin => by
    have hwl := hw
    simp only [wellKeyedList, Bool.and_eq_true] at hw
    simp only [Json.canonicalList, Bool.and_eq_true] at hp
    have hall := canonicalList_iff.mp hco
    have hclean : ∀ e ∈ out, free false e = true :=
      freeList_iff.mp (directiveFree_of_within (.arr out) (c := .arr existing) hin)
    rw [tidyList] at ht
    cases hkey : keyOf keys pel with
    | none =>
      simp only [hkey, Bool.and_eq_true] at ht
      refine mergeListByKey_within rest (mergeListByKey_keyless hkey h).2 hp.2 hw.2 hce ?_
        hfree ?_ ht.2 ?_
      · refine canonicalList_iff.mpr fun x hx => ?_
        rcases mem_keyless hx with hx | rfl
        · exact hall x hx
        · exact hp.1
      · intro pkey hpkey
        rw [find?_keyless hkey, hfind pkey hpkey]
      · refine withinList_iff.mpr fun x hx => ?_
        rcases mem_keyless hx with hx | rfl
        · exact withinList_iff.mp hin x hx
        · exact .inl ht.1
    | some pkey =>
      simp only [hkey, Bool.and_eq_true] at ht
      obtain ⟨mid, hstep, hrest⟩ := mergeListByKey_keyed hkey h
      refine mergeListByKey_within rest hrest hp.2 hw.2 hce ?_ hfree ?_ ht.2 ?_
      · exact canonicalList_iff.mpr (hstep.forall_mem hall (canonical_appended hp.1)
          fun e he x hm => canonical_strategicMerge pel hm hp.1 (hall e he))
      · intro pkey' hpkey'
        obtain ⟨hne, hseen⟩ := not_or.mp (mt List.mem_cons.mpr hpkey')
        rw [hstep.find?_other hkey (fun e he merged hdel hke hm =>
          keyOf_merged_of_wellKeyed hkey hp.1 hwl (hclean e he) hdel hke hm) hne, hfind pkey' hseen]
      · refine withinList_iff.mpr fun x hx => ?_
        obtain hx | ⟨hdel, hnone, rfl⟩ | ⟨e, he, hdel, hke, hsome, hm⟩ := hstep.mem_cases hx
        · exact withinList_iff.mp hin x hx
        · have htidy := ht.1
          rw [hdel, Bool.false_or] at htidy
          split at htidy
          · exact .inl htidy
          · rename_i hseen
            rw [← hfind pkey hseen, hnone] at htidy
            exact .inl htidy
        · have htidy := ht.1
          rw [hdel, Bool.false_or] at htidy
          have ih := strategicMerge_within pel hm hp.1 hw.1.2 (hall e he) (hclean e he)
          split at htidy
          · obtain ⟨m, rfl, -⟩ := keyOf_eq_some hkey
            have hx := ih (tidy_of_free_appended (.obj m) rfl htidy)
            obtain hfree' | ⟨c, hc, hec⟩ := withinList_iff.mp hin e he
            · exact .inl (free_of_within x hx hfree')
            · exact .inr ⟨c, hc, within_trans x hx hec⟩
          · rename_i hseen
            rw [← hfind pkey hseen, hsome] at htidy
            have hexisting := hfind pkey hseen
            rw [hsome] at hexisting
            exact .inr ⟨e, List.mem_of_find?_eq_some hexisting.symm, ih htidy⟩
end

/-! ## A patch that leaves nothing behind -/

theorem getElem?_ne_of_mem {α : Type} {l : List α} {i : Nat} {a b : α} (ha : a ∈ l)
    (hb : l[i]? = some b) (hne : b ≠ a) : ∃ j, j ≠ i ∧ l[j]? = some a := by
  obtain ⟨j, hj⟩ := mem_iff_getElem?.mp ha
  refine ⟨j, ?_, hj⟩
  rintro rfl
  exact hne (Option.some.inj (hb.symm.trans hj))

/-- An element stays until the patch names its key. -/
theorem mem_of_mergeListByKey {ps : List Json} {x : Json}
    (h : mergeListByKey env gvk keys path out ps = .ok out') (hx : x ∈ out)
    (hother : ∀ p ∈ ps, ∀ pkey, keyOf keys p = some pkey → keyOf keys x ≠ some pkey) :
    x ∈ out' := by
  induction ps generalizing out with
  | nil =>
    cases h
    exact hx
  | cons pel rest ih =>
    have hrest : ∀ p ∈ rest, ∀ pkey, keyOf keys p = some pkey → keyOf keys x ≠ some pkey :=
      fun p hp => hother p (.tail _ hp)
    cases hkey : keyOf keys pel with
    | none =>
      refine ih (mergeListByKey_keyless hkey h).2 ?_ hrest
      split
      · exact hx
      · exact mem_append_left _ hx
    | some pkey =>
      have hne := hother pel (.head _) pkey hkey
      obtain ⟨mid, hstep, hrun⟩ := mergeListByKey_keyed hkey h
      refine ih hrun ?_ hrest
      have hfound : ∀ {idx : Nat}, out.findIdx? (fun e => keyOf keys e = some pkey) = some idx →
          ∃ j, j ≠ idx ∧ out[j]? = some x := by
        intro idx hout
        obtain ⟨e, he, hke, -⟩ := findIdx?_keyOf hout
        refine getElem?_ne_of_mem hx he ?_
        rintro rfl
        exact hne hke
      cases hstep with
      | absent => exact hx
      | append => exact mem_append_left _ hx
      | delete idx _ hout => exact mem_eraseIdx_iff_getElem?.mpr (hfound hout)
      | merge idx e merged _ hout he hm =>
        obtain ⟨j, hj, hxj⟩ := hfound hout
        refine mem_iff_getElem?.mpr ⟨j, ?_⟩
        rw [List.getElem?_set_ne hj.symm, hxj]

theorem directiveFree_of_free (h : free nulls v = true) : free false v = true :=
  directiveFree_of_within v (within_of_free v .null h)

mutual
/-- A patch that names each list element once and leaves no directive, and no null, is tidy. -/
theorem tidy_of_strategicMerge : ∀ (patch : Json) {path : List String} {cur m : Json},
    strategicMerge env gvk path cur patch = .ok m → patch.canonical = true →
    wellKeyed env gvk true path patch = true → free nulls cur = true → free nulls m = true →
    tidy env gvk nulls path cur patch = true
  | .obj fields, path, cur, m, h, hp, hw, hcur, hm => by
    rw [tidy]
    obtain ⟨hd, rfl⟩ | ⟨-, hd, out, hout, rfl⟩ := strategicMerge_obj h
    · rw [if_pos hd]
      exact hm
    · rw [if_neg hd]
      exact tidyFields_of_strategicFields fields hout hp hw (freeFields_retained hcur fields)
        (fun _ _ => rfl) hm
  | .null, _, _, _, h, _, _, _, hm | .bool _, _, _, _, h, _, _, _, hm | .num _, _, _,
    _, h, _, _, _, hm
  | .str _, _, _, _, h, _, _, _, hm | .arr _, _, _, _, h, _, _, _, hm => by cases h; exact hm
theorem tidyFields_of_strategicFields : ∀ (fields : List (String × Json)) {path : List String}
    {start out out' : JsonMap}, strategicFields env gvk path out fields = .ok out' →
    Json.canonicalFields fields = true → wellKeyedFields env gvk true path fields = true →
    freeFields nulls start = true → (∀ k ∈ fields.map Prod.fst, out.lookup k = start.lookup k) →
    freeFields nulls out' = true → tidyFields env gvk nulls path start fields = true
  | [], _, _, _, _, _, _, _, _, _, _ => rfl
  | (k, pv) :: rest, path, start, out, out', h, hp, hw, hstart, hsame, hout' => by
    rw [tidyFields_cons, Bool.and_eq_true]
    rw [wellKeyedFields_cons, Bool.and_eq_true] at hw
    have hnd := List.nodup_cons.mp (sorted_of_canonicalFields hp).nodup_keys
    simp only [Json.canonicalFields, Bool.and_eq_true] at hp
    by_cases hsent : k = patchSentinel ∨ k = retainKeysSentinel
    · rw [strategicFields_sentinel hsent] at h
      exact ⟨tidyFields_sentinel _ _ _ hsent, tidyFields_of_strategicFields rest h hp.2 hw.2 hstart
        (fun k' hk' => hsame k' (.tail _ hk')) hout'⟩
    obtain ⟨mid, hstep, hrest⟩ := strategicFields_cons h
    have hk : out.lookup k = start.lookup k := hsame k (.head _)
    have hothers := hstep.others hnd.1 fun k' hk' => hsame k' (.tail _ hk')
    -- what the field leaves is in the result, as no later field has its name
    have hkept : ∀ v, mid.lookup k = some v → directiveName k = false ∧ free nulls v = true := by
      intro v hv
      have hl : out'.lookup k = some v := by rw [strategicFields_other hrest hnd.1, hv]
      obtain ⟨hname, -, hfree⟩ := freeFields_iff.mp hout' _ (mem_of_lookup hl)
      exact ⟨hname, hfree⟩
    refine ⟨?_, tidyFields_of_strategicFields rest hrest hp.2 hw.2 hstart hothers hout'⟩
    cases hstep with
    | sentinel _ hs => exact absurd hs hsent
    | null => simp [tidyFields]
    | scalar _ hv =>
      obtain ⟨hname, -⟩ := hkept pv (lookup_put_self ..)
      cases pv with
      | null | arr | obj => cases hv
      | _ => simp [tidyFields, hname]
    | object fs merged hm =>
      obtain ⟨hname, hfree⟩ := hkept merged (lookup_put_self ..)
      rw [hk] at hm
      simp only [tidyFields, hname, Bool.not_false, Bool.true_and, Bool.and_true, Bool.or_eq_true]
      refine .inr ?_
      exact tidy_of_strategicMerge (.obj fs) hm hp.1.2 (by simpa [wellKeyedFields] using hw.1)
        (free_lookup hstart rfl k) hfree
    | list ps merged hm =>
      obtain ⟨hname, hfree⟩ := hkept (.arr merged) (lookup_put_self ..)
      rw [hk] at hm
      simp only [tidyFields, hname, Bool.not_false, Bool.true_and, Bool.and_true, Bool.or_eq_true]
      refine .inr ?_
      have hexisting : free nulls (.arr (((start.lookup k).bind Json.asArray).getD [])) = true :=
        existing_of_lookup (P := fun v => free nulls v = true) rfl fun x hx =>
          (freeFields_iff.mp hstart _ (mem_of_lookup hx)).2.2
      obtain ⟨keys, hs, hm⟩ | ⟨hs, hm⟩ := hm.cases
      · have hwl : wellKeyedList env gvk true keys (path ++ [k]) ps = true := by
          have := hw.1
          simp only [wellKeyedFields, hs, Bool.and_true] at this
          exact this
        rw [hs]
        exact tidyList_of_mergeListByKey ps hm hp.1.2 hwl (freeList_iff.mp hexisting)
          (fun _ _ => rfl) (by simp) hfree
      · rw [hs]
        refine freeList_iff.mpr fun x hx => freeList_iff.mp hfree x ?_
        obtain rfl | rfl := hm
        · exact hx
        · exact mem_setUnion.mpr (.inr hx)
theorem tidyList_of_mergeListByKey : ∀ (ps : List Json) {keys path : List String}
    {existing out out' : List Json} {seen : List (List Json)},
    mergeListByKey env gvk keys path out ps = .ok out' → Json.canonicalList ps = true →
    wellKeyedList env gvk true keys path ps = true → (∀ e ∈ out, free nulls e = true) →
    (∀ pkey, pkey ∉ seen → out.find? (fun e => keyOf keys e = some pkey) =
      existing.find? (fun e => keyOf keys e = some pkey)) →
    (∀ p ∈ ps, ∀ pkey, keyOf keys p = some pkey → pkey ∉ seen) → freeList nulls out' = true →
    tidyList env gvk nulls keys path existing seen ps = true
  | [], _, _, _, _, _, _, _, _, _, _, _, _, _ => rfl
  | pel :: rest, keys, path, existing, out, out', seen, h, hp, hw, hfree, hfind, hnew, hout' => by
    have hwl := hw
    simp only [wellKeyedList, Bool.and_eq_true] at hw
    simp only [Json.canonicalList, Bool.and_eq_true] at hp
    have hlast := freeList_iff.mp hout'
    rw [tidyList]
    cases hkey : keyOf keys pel with
    | none =>
      have hrest := (mergeListByKey_keyless hkey h).2
      have hpel : free nulls pel = true := by
        refine hlast pel (mem_of_mergeListByKey hrest ?_ fun p _ pkey _ => by simp [hkey])
        split <;> simp_all
      simp only [hpel, Bool.true_and]
      refine tidyList_of_mergeListByKey rest hrest hp.2 hw.2 ?_ ?_
        (fun p hmem => hnew p (.tail _ hmem)) hout'
      · intro e he
        rcases mem_keyless he with he | rfl
        · exact hfree e he
        · exact hpel
      · intro pkey hpkey
        rw [find?_keyless hkey, hfind pkey hpkey]
    | some pkey =>
      have hseen : pkey ∉ seen := hnew pel (.head _) pkey hkey
      have honce : ∀ p ∈ rest, keyOf keys p ≠ some pkey := by
        have := hw.1.1
        simp only [hkey, Option.all_some, Bool.and_eq_true, Bool.not_true, Bool.false_or,
          List.all_eq_true, decide_eq_true_eq] at this
        exact this.2
      obtain ⟨mid, hstep, hrest⟩ := mergeListByKey_keyed hkey h
      have hstable : ∀ e ∈ out, ∀ merged, deletes pel = false → keyOf keys e = some pkey →
          strategicMerge env gvk path e pel = .ok merged → keyOf keys merged = some pkey :=
        fun e he merged hdel hke hm =>
          keyOf_merged_of_wellKeyed hkey hp.1 hwl (directiveFree_of_free (hfree e he)) hdel hke hm
      -- what the patch element leaves is in the result, as no later one has its key
      have hkept : ∀ x ∈ mid, (∀ pkey', keyOf keys x = some pkey' → pkey' = pkey) →
          free nulls x = true := by
        intro x hx hxkey
        refine hlast x (mem_of_mergeListByKey hrest hx fun p hmem pkey' hp' hx' => ?_)
        rw [hxkey pkey' hx'] at hp'
        exact honce p hmem hp'
      have hmid : ∀ x ∈ mid, free nulls x = true := by
        intro x hx
        obtain hx' | ⟨-, -, rfl⟩ | ⟨e, he, hdel, hke, -, hm⟩ := hstep.mem_cases hx
        · exact hfree x hx'
        · exact hkept _ hx fun pkey' => keyOf_appended hkey
        · refine hkept x hx fun pkey' hx' => ?_
          exact Option.some.inj (hx'.symm.trans (hstable e he x hdel hke hm))
      have hfind' : ∀ pkey', pkey' ∉ pkey :: seen → mid.find? (fun e => keyOf keys e = some pkey') =
          existing.find? (fun e => keyOf keys e = some pkey') := by
        intro pkey' hpkey'
        obtain ⟨hne, hseen'⟩ := not_or.mp (mt List.mem_cons.mpr hpkey')
        rw [hstep.find?_other hkey hstable hne, hfind pkey' hseen']
      have hnew' : ∀ p ∈ rest, ∀ pkey', keyOf keys p = some pkey' → pkey' ∉ pkey :: seen := by
        intro p hmem pkey' hp' hcon
        rcases List.mem_cons.mp hcon with rfl | hcon
        · exact honce p hmem hp'
        · exact hnew p (.tail _ hmem) pkey' hp' hcon
      have hlater := tidyList_of_mergeListByKey rest hrest hp.2 hw.2 hmid hfind' hnew' hout'
      simp only [hlater, Bool.and_true, if_neg hseen, ← hfind pkey hseen]
      cases hstep with
      | absent hdel | delete _ hdel => simp [hdel]
      | append hdel hout =>
        rw [find?_of_findIdx? hout, hdel]
        exact hmid _ (List.mem_append_right _ (.head _))
      | merge idx e merged hdel hout he hm =>
        rw [(keyOf_of_findIdx? hout he).2, hdel]
        have hmem : merged ∈ out.set idx merged :=
          List.mem_iff_getElem?.mpr ⟨idx, by simp [(List.getElem?_eq_some_iff.mp he).1]⟩
        exact tidy_of_strategicMerge pel hm hp.1 hw.1.2 (hfree e (List.mem_of_getElem? he))
          (hmid merged hmem)
end

/-! ## The patch engine -/

mutual
/-- No object in the value has a key that starts with a dollar sign. -/
def noDollar : Json → Bool
  | .arr xs => noDollarList xs
  | .obj fields => noDollarFields fields
  | _ => true
def noDollarList : List Json → Bool
  | [] => true
  | x :: xs => noDollar x && noDollarList xs
def noDollarFields : List (String × Json) → Bool
  | [] => true
  | (k, v) :: rest => decide (k.toList.head? ≠ some '$') && noDollar v && noDollarFields rest
end

theorem head?_of_directiveName (h : directiveName k = true) : k.toList.head? = some '$' := by
  simp only [directiveName, Bool.or_eq_true, decide_eq_true_eq, isPrefixOf_iff_prefix] at h
  obtain ((rfl | rfl) | h) | h := h
  · rfl
  · rfl
  · obtain ⟨rest, hrest⟩ := h
    rw [← hrest]
    rfl
  · obtain ⟨rest, hrest⟩ := h
    rw [← hrest]
    rfl

theorem noDollarList_iff : noDollarList xs = true ↔ ∀ x ∈ xs, noDollar x = true := by
  induction xs with
  | nil => simp [noDollarList]
  | cons x xs ih => simp [noDollarList, ih]

theorem noDollarFields_iff :
    noDollarFields fields = true ↔ ∀ e ∈ fields, e.1.toList.head? ≠ some '$' ∧
    noDollar e.2 = true := by
  induction fields with
  | nil => simp [noDollarFields]
  | cons e fields ih => simp [noDollarFields, ih]

theorem free_of_noDollar (v : Json) (h : noDollar v = true) : free false v = true := by
  induction v with
  | arr xs ih => exact freeList_iff.mpr fun x hx => ih x hx (noDollarList_iff.mp h x hx)
  | obj fields ih =>
    refine freeFields_iff.mpr fun e he => ?_
    obtain ⟨hk, hv⟩ := noDollarFields_iff.mp h e he
    exact ⟨Bool.eq_false_iff.mpr fun hd => hk (head?_of_directiveName hd), rfl, ih e he hv⟩
  | _ => rfl

/-- A strategic merge patch that is tidy for an object leaves no directive in it and no null field
that it did not have. A patch that names each list element once, and leaves none in an object
without null fields, is tidy for it. -/
theorem strategic_leaves_none {current patch m : Json} (hdollar : noDollar current = true)
    (hc : current.canonical = true) (hp : patch.canonical = true)
    (h : applyPatchBody env gvk .strategic current (.strategic patch) = .ok m) :
    (wellKeyed env gvk false [] patch = true → tidy env gvk true [] current patch = true →
      within true current m = true) ∧
    (wellKeyed env gvk true [] patch = true → free true current = true →
      (within true current m = true ↔ tidy env gvk true [] current patch = true)) := by
  have hfree := free_of_noDollar current hdollar
  refine ⟨fun hw ht => strategicMerge_within patch h hp hw hc hfree ht,
    fun hw hnull => ⟨fun hm => ?_, ?_⟩⟩
  · exact tidy_of_strategicMerge patch h hp hw hnull (free_of_within m hm hnull)
  · exact fun ht => strategicMerge_within patch h hp hw hc hfree ht

end

/-- The containers and the volumes of a pod are merged by name. -/
def podEnv : Env :=
  { atomicEnv with
    mergeStrategy := fun _ path =>
      if path = ["spec", "containers"] then .mergeByKey ["name"]
      else if path = ["spec", "volumes"] then .mergeByKeyRetainKeys ["name"]
      else .replace }

def twoContainers : Json :=
  .obj [("metadata", .obj [("labels", .obj [("app", .str "web")])]),
    ("spec", .obj [("containers", .arr [.obj [("name", .str "a"), ("tty", .bool true)],
      .obj [("name", .str "b")]]), ("nodeName", .str "n")])]

/-- Every directive that is acted on: a replaced object, a removed field, a removed list element,
fields that are not retained, and a new element. -/
def tidyPatch : Json :=
  .obj [("metadata", .obj [("labels", .obj [("$patch", .str "replace"), ("tier", .str "front")])]),
    ("spec", .obj [("containers",
      .arr [.obj [("$retainKeys", .arr [.str "name"]), ("name", .str "a")],
      .obj [("$patch", .str "delete"), ("name", .str "b")], .obj [("name", .str "c")]]),
      ("nodeName", .null)])]

theorem tidyPatch_leaves_none :
    ∃ m, applyPatchBody podEnv podGvk .strategic twoContainers (.strategic tidyPatch) = .ok m ∧
      within true twoContainers m = true := by
  have hm : applyPatchBody podEnv podGvk .strategic twoContainers (.strategic tidyPatch) = .ok _ :=
    rfl
  exact ⟨_, hm, (strategic_leaves_none (by decide +kernel) (by decide +kernel)
    (by decide +kernel) hm).1
    (by decide +kernel) (by decide +kernel)⟩

/-- A new volume with `$retainKeys`, as a client sends it; a null in a new container; the order of a
list; a directive in a list that is replaced. Each is in the object that is stored. -/
theorem strategic_leaves_some :
    let stored := fun spec : JsonMap =>
      (applyPatchBody podEnv podGvk .strategic twoContainers
        (.strategic (.obj [("spec", .obj spec)]))).toOption
    let left := fun spec : JsonMap => (stored spec).any fun m => !within true twoContainers m
    noDollar twoContainers = true ∧
      left [("volumes", .arr [.obj [("$retainKeys", .arr [.str "name"]), ("name", .str "v")]])] =
        true ∧
      left [("containers", .arr [.obj [("name", .str "c"), ("tty", .null)]])] = true ∧
      left [("$setElementOrder/containers", .arr [.obj [("name", .str "a")]])] = true ∧
      left [("tolerations", .arr [.obj [("$patch", .str "delete"), ("key", .str "k")]])] =
        true := by
  decide +kernel

end Engenho
