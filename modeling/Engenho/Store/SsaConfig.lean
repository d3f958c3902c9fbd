import Engenho.Store.SsaMerge

/-!
# What a config says

A node carries a config (`carries`) when it has the config's value everywhere the config has one:
its scalars and its atomic lists, the elements of its sets, and its elements of the lists merged by
key.

* Merging a config into a node that carries it changes nothing (`strategicMerge_of_carries`).
* A config is `plain` when it has no nulls and no directives, and its lists merged by key have
  elements with full keys, each key once. A plain config carries itself, and its merge succeeds and
  gives a node that carries it (`strategicMerge_of_plain`).
-/

namespace Engenho
open Assoc Json List Bool
section
variable (env : Env) (gvk : Gvk)

/-- The text under which an element of a list merged by `keys` is owned. -/
def elementText (keys : List String) : Json → String
  | .obj m => (PathElement.key (keyTuple keys m)).toFieldsV1Key env
  | v => (PathElement.value v).toFieldsV1Key env

mutual
/-- No nulls and no directives; the elements of a list merged by key are objects with the full key,
and no two of a list have the same. What is inside atomic lists and sets is not looked at. -/
def plain (path : List String) : Json → Bool
  | .null => false
  | .obj fields => plainFields path fields
  | .arr ps =>
    match env.mergeStrategy gvk path with
    | .replace => true
    | .set => true
    | .mergeByKey keys => !keys.isEmpty && plainList keys path ps
    | .mergeByKeyRetainKeys keys => !keys.isEmpty && plainList keys path ps
  | _ => true
def plainFields (path : List String) : List (String × Json) → Bool
  | [] => true
  | (k, v) :: rest =>
    k ≠ patchSentinel && k ≠ retainKeysSentinel && plain (path ++ [k]) v && plainFields path rest
def plainList (keys path : List String) : List Json → Bool
  | [] => true
  | .obj m :: rest =>
    (keyOf keys (.obj m)).isSome && plain path (.obj m) &&
      rest.all (fun e => elementText env keys e ≠ elementText env keys (.obj m)) &&
      plainList keys path rest
  | _ :: _ => false
end

mutual
/-- The node `x` has what the config says. A null says that there is no field, and an empty object
that there is an object. -/
def carries (path : List String) (x : Json) : Json → Bool
  | .obj fields => x.isObject && carriesFields path x fields
  | .arr ps =>
    match env.mergeStrategy gvk path with
    | .replace => x = .arr ps
    | .set => x.asArray.any fun xs => ps.all (· ∈ xs)
    | .mergeByKey keys => !keys.isEmpty && x.asArray.any fun xs => carriesList keys path xs ps
    | .mergeByKeyRetainKeys keys =>
      !keys.isEmpty && x.asArray.any fun xs => carriesList keys path xs ps
  | v => x = v
def carriesFields (path : List String) (x : Json) : List (String × Json) → Bool
  | [] => true
  | (k, v) :: rest =>
    k ≠ patchSentinel && k ≠ retainKeysSentinel &&
      (if v.isNull then (x.get k).isNone else (x.get k).any fun y => carries (path ++ [k]) y v) &&
      carriesFields path x rest
def carriesList (keys path : List String) (xs : List Json) : List Json → Bool
  | [] => true
  | .obj m :: rest =>
    (keyOf keys (.obj m)).isSome &&
      (xs.find? (matchesKeys (keyTuple keys m))).any (fun y => carries path y (.obj m)) &&
      carriesList keys path xs rest
  | v :: rest => v ∈ xs && carriesList keys path xs rest
end
end

variable {env : Env} {gvk : Gvk}

/-! ## A merge into what carries the config -/

variable {fields m out : JsonMap} {path keys : List String} {pkey ps : List Json}

theorem plainFields_iff : plainFields env gvk path fields = true ↔ ∀ e ∈ fields,
      (e.1 ≠ patchSentinel ∧ e.1 ≠ retainKeysSentinel) ∧
      plain env gvk (path ++ [e.1]) e.2 = true := by
  induction fields with
  | nil => simp [plainFields]
  | cons e fields ih => simp [plainFields, ih]

variable {x : Json}

theorem carriesFields_iff : carriesFields env gvk path x fields = true ↔ ∀ e ∈ fields,
      (e.1 ≠ patchSentinel ∧ e.1 ≠ retainKeysSentinel) ∧ (if e.2.isNull then (x.get e.1).isNone
          else (x.get e.1).any fun y => carries env gvk (path ++ [e.1]) y e.2) = true := by
  induction fields with
  | nil => simp [carriesFields]
  | cons e fields ih => simp [carriesFields, ih]

variable {xs : List Json}

theorem carriesList_iff : carriesList env gvk keys path xs ps = true ↔ ∀ pel ∈ ps, match pel with
      | .obj m => (keyOf keys (.obj m)).isSome = true ∧
        (xs.find? (matchesKeys (keyTuple keys m))).any
        (fun y => carries env gvk path y (.obj m)) = true
      | v => v ∈ xs := by
  induction ps with
  | nil => simp [carriesList]
  | cons pel ps ih => cases pel <;> simp [carriesList, ih]

theorem noDirective_of_names (h : ∀ e ∈ fields, e.1 ≠ patchSentinel ∧ e.1 ≠ retainKeysSentinel) :
    fields.lookup patchSentinel = none ∧ fields.lookup retainKeysSentinel = none :=
  ⟨lookup_eq_none_iff.mpr fun e he => by simpa using (h e he).1.symm,
    lookup_eq_none_iff.mpr fun e he => by simpa using (h e he).2.symm⟩

theorem noDirective_of_carriesFields (h : carriesFields env gvk path x fields = true) :
    fields.lookup patchSentinel = none ∧ fields.lookup retainKeysSentinel = none :=
  noDirective_of_names fun e he => (carriesFields_iff.mp h e he).1

theorem noDirective_of_plainFields (h : plainFields env gvk path fields = true) :
    fields.lookup patchSentinel = none ∧ fields.lookup retainKeysSentinel = none :=
  noDirective_of_names fun e he => (plainFields_iff.mp h e he).1

theorem matchesKeys_eq_keyOf (hne : keys ≠ []) (hkey : keyOf keys (.obj m) = some pkey) :
    matchesKeys (keyTuple keys m) = fun e => decide (keyOf keys e = some pkey) := by
  funext e
  rw [Bool.eq_iff_iff, matchesKeys_keyTuple (keyTuple_ne_nil hne hkey) hkey]
  simp

/-- The element that a path finds by a full merge key is the one the merge finds. -/
theorem findIdx?_of_find? {y : Json} (hne : keys ≠ []) (hkey : keyOf keys (.obj m) = some pkey)
    (hy : xs.find? (matchesKeys (keyTuple keys m)) = some y) :
    ∃ idx, xs.findIdx? (fun e => keyOf keys e = some pkey) = some idx ∧ xs[idx]? = some y := by
  rw [matchesKeys_eq_keyOf hne hkey] at hy
  obtain ⟨hp, idx, hlt, hidx, hbefore⟩ := List.find?_eq_some_iff_getElem.mp hy
  refine ⟨idx, List.findIdx?_eq_some_iff_getElem.mpr ⟨hlt, ?_, ?_⟩, ?_⟩
  · rw [hidx]
    exact hp
  · intro j hj
    simpa using hbefore j hj
  · rw [List.getElem?_eq_getElem hlt, hidx]

variable {k : String}

/-- A list field that is merged to the list that is there. -/
theorem FieldMerge.list_self (hsorted : Assoc.Sorted out) (hl : out.lookup k = some (.arr xs))
    (h : ListMerge env gvk (path ++ [k]) xs ps xs (env.mergeStrategy gvk (path ++ [k]))) :
    FieldMerge env gvk path out k (.arr ps) out := by
  have hstep : FieldMerge env gvk path out k (.arr ps) (Assoc.put k (.arr xs) out) := by
    refine .list ps xs ?_
    rw [hl]
    exact h
  rwa [hsorted.put_of_lookup hl] at hstep

theorem eq_arr_of_asArray {q : List Json → Bool} (h : x.asArray.any q = true) :
    ∃ xs, x = .arr xs ∧ q xs = true := by
  cases x with
  | arr xs => exact ⟨xs, rfl, h⟩
  | _ => cases h

theorem set_of_getElem? {α : Type} {xs : List α} {i : Nat} {x : α} (h : xs[i]? = some x) :
    xs.set i x = xs := by
  obtain ⟨hlt, rfl⟩ := List.getElem?_eq_some_iff.mp h
  exact set_getElem_self hlt

mutual
theorem strategicMerge_of_carries : ∀ (config : Json) {path : List String} {x : Json},
    config.isObject = true → x.canonical = true → carries env gvk path x config = true →
    strategicMerge env gvk path x config = .ok x
  | .obj fields, path, x, _, hx, h => by
    simp only [carries, Bool.and_eq_true] at h
    obtain ⟨hobj, hfields⟩ := h
    obtain ⟨out, rfl⟩ := isObject_iff.mp hobj
    obtain ⟨hpatch, hretain⟩ := noDirective_of_carriesFields hfields
    rw [strategicMerge_fields hpatch hretain, asObject_obj, Option.getD_some,
      strategicFields_of_carries fields hx hfields]
    rfl
theorem strategicFields_of_carries :
    ∀ (fields : List (String × Json)) {path : List String} {out : JsonMap},
    Json.canonicalFields out = true → carriesFields env gvk path (.obj out) fields = true →
    strategicFields env gvk path out fields = .ok out
  | [], _, _, _, _ => rfl
  | (k, v) :: rest, path, out, hout, h => by
    simp only [carriesFields, Bool.and_eq_true, decide_eq_true_eq, get_obj] at h
    obtain ⟨⟨hk, hv⟩, hrest⟩ := h
    have hsorted := sorted_of_canonicalFields hout
    have hsame : FieldMerge env gvk path out k v out := by
      cases hnull : v.isNull with
      | true =>
        rw [hnull] at hv
        obtain rfl : v = .null := by
          cases v with
          | null => rfl
          | _ => cases hnull
        have hstep : FieldMerge env gvk path out k .null (Assoc.drop k out) := .null
        rwa [drop_of_lookup_none (by simpa using hv)] at hstep
      | false =>
        rw [hnull] at hv
        obtain ⟨y, hy, hcarries⟩ := (Option.any_eq_true _ _).mp hv
        have hput := hsorted.put_of_lookup hy
        have scalar : isScalar v = true → y = v → FieldMerge env gvk path out k v out := by
          rintro hs rfl
          have hstep : FieldMerge env gvk path out k y (Assoc.put k y out) := .scalar y hs
          rwa [hput] at hstep
        cases v with
        | null => cases hnull
        | bool b | num n | str s => exact scalar rfl (of_decide_eq_true hcarries)
        | obj fs =>
          have hmerge := strategicMerge_of_carries (.obj fs) rfl (canonical_of_lookup hout hy)
            hcarries
          have hstep : FieldMerge env gvk path out k (.obj fs) (Assoc.put k y out) := by
            refine .object fs y ?_
            rw [hy]
            exact hmerge
          rwa [hput] at hstep
        | arr ps =>
          unfold carries at hcarries
          cases hs : env.mergeStrategy gvk (path ++ [k]) with
          | replace =>
            rw [hs] at hcarries
            obtain rfl : y = .arr ps := of_decide_eq_true hcarries
            exact .list_self hsorted hy (by rw [hs]; rfl)
          | set =>
            rw [hs] at hcarries
            obtain ⟨xs, rfl, hall⟩ := eq_arr_of_asArray hcarries
            refine .list_self hsorted hy ?_
            rw [hs]
            exact (setUnion_of_subset fun p hp => by simpa using List.all_eq_true.mp hall p hp).symm
          | mergeByKey keys | mergeByKeyRetainKeys keys =>
            rw [hs] at hcarries
            simp only [Bool.and_eq_true, Bool.not_eq_true', List.isEmpty_eq_false_iff] at hcarries
            obtain ⟨xs, rfl, hlist⟩ := eq_arr_of_asArray hcarries.2
            refine .list_self hsorted hy ?_
            rw [hs]
            exact mergeListByKey_of_carries ps hcarries.1 (canonical_of_lookup hout hy) hlist
    rw [strategicFields_step hsame hk, strategicFields_of_carries rest hout hrest]
theorem mergeListByKey_of_carries : ∀ (ps : List Json) {keys path : List String} {xs : List Json},
    keys ≠ [] → Json.canonicalList xs = true → carriesList env gvk keys path xs ps = true →
    mergeListByKey env gvk keys path xs ps = .ok xs
  | [], _, _, _, _, _, _ => by rw [mergeListByKey]
  | pel :: rest, keys, path, xs, hne, hxs, h => by
    cases pel with
    | obj m =>
      simp only [carriesList, Bool.and_eq_true] at h
      obtain ⟨⟨hkey, hfound⟩, hrest⟩ := h
      obtain ⟨pkey, hkey⟩ := Option.isSome_iff_exists.mp hkey
      obtain ⟨y, hy, hcarries⟩ := (Option.any_eq_true _ _).mp hfound
      obtain ⟨idx, hidx, hat⟩ := findIdx?_of_find? hne hkey hy
      have hcanonical := canonicalList_iff.mp hxs y (List.mem_of_find?_eq_some hy)
      have hmerge : strategicMerge env gvk path y (.obj m) = .ok y :=
        strategicMerge_of_carries (.obj m) rfl hcanonical hcarries
      have hpatch : m.lookup patchSentinel = none := by
        simp only [carries, Bool.and_eq_true] at hcarries
        exact (noDirective_of_carriesFields hcarries.2).1
      rw [mergeListByKey_merge hpatch hkey hidx (by rw [hat]; exact hmerge), set_of_getElem? hat,
        mergeListByKey_of_carries rest hne hxs hrest]
    | _ =>
      simp only [carriesList, Bool.and_eq_true, decide_eq_true_eq] at h
      rw [mergeListByKey_primitive rfl, if_pos h.1, mergeListByKey_of_carries rest hne hxs h.2]
end

/-! ## Plain configs -/

theorem keyTuple_congr {m' : JsonMap} (h : keyOf keys (.obj m) = some pkey)
    (h' : keyOf keys (.obj m') = some pkey) : keyTuple keys m = keyTuple keys m' := by
  have hsame := map_inj_left.mp
    (((keyOf_obj keys m pkey).mp h).trans ((keyOf_obj keys m' pkey).mp h').symm)
  refine Assoc.Sorted.ext (keyTuple_foldl m keys [] List.Pairwise.nil).1
    (keyTuple_foldl m' keys [] List.Pairwise.nil).1 fun k => ?_
  rw [lookup_keyTuple, lookup_keyTuple]
  split
  · rename_i hk
    exact hsame k hk
  · rfl

variable {e : Json}

/-- Elements owned under different texts have different keys. -/
theorem keyOf_ne_of_elementText (h : elementText env keys e ≠ elementText env keys (.obj m))
    (hkey : keyOf keys (.obj m) = some pkey) : keyOf keys e ≠ some pkey := by
  intro he
  obtain ⟨m', rfl, -⟩ := keyOf_eq_some he
  exact h (congrArg (fun t => (PathElement.key t).toFieldsV1Key env) (keyTuple_congr he hkey))

theorem plainList_cons {pel : Json} {rest : List Json}
    (h : plainList env gvk keys path (pel :: rest) = true) :
    ∃ m pkey, pel = .obj m ∧ keyOf keys (.obj m) = some pkey ∧ plain env gvk path (.obj m) = true ∧
      (∀ e ∈ rest, elementText env keys e ≠ elementText env keys (.obj m)) ∧
      plainList env gvk keys path rest = true := by
  cases pel with
  | obj m =>
    simp only [plainList, and_eq_true, all_eq_true, decide_eq_true_eq] at h
    obtain ⟨⟨⟨hkey, hm⟩, hothers⟩, hrest⟩ := h
    obtain ⟨pkey, hkey⟩ := Option.isSome_iff_exists.mp hkey
    exact ⟨m, pkey, rfl, hkey, hm, hothers, hrest⟩
  | _ => cases h

theorem plainList_of_mem (h : plainList env gvk keys path ps = true) (he : e ∈ ps) :
    ∃ m pkey, e = .obj m ∧ keyOf keys (.obj m) = some pkey ∧
    plain env gvk path (.obj m) = true := by
  induction ps with
  | nil => cases he
  | cons pel rest ih =>
    obtain ⟨m, pkey, rfl, hkey, hm, -, hrest⟩ := plainList_cons h
    rcases mem_cons.mp he with rfl | he
    · exact ⟨m, pkey, rfl, hkey, hm⟩
    · exact ih hrest he

variable {v : Json}

theorem isNull_of_plain (h : plain env gvk path v = true) : v.isNull = false := by
  cases v with
  | null => cases h
  | _ => rfl

/-- Each element of a plain list is the first one with its key. -/
theorem find?_of_plainList (hne : keys ≠ []) (h : plainList env gvk keys path ps = true)
    (hm : .obj m ∈ ps) :
    ps.find? (matchesKeys (keyTuple keys m)) = some (.obj m) := by
  induction ps with
  | nil => cases hm
  | cons pel rest ih =>
    obtain ⟨m', pkey', rfl, hkey', -, hothers, hrest⟩ := plainList_cons h
    obtain ⟨_, pkey, ⟨⟩, hkey, -⟩ := plainList_of_mem h hm
    have hmatch := matchesKeys_keyTuple (keyTuple_ne_nil hne hkey) hkey
    rcases mem_cons.mp hm with hm | hm
    · cases hm
      rw [List.find?_cons_of_pos ((hmatch _).mpr hkey)]
    · rw [List.find?_cons_of_neg, ih hrest hm]
      intro hcon
      refine keyOf_ne_of_elementText (hothers _ hm) hkey' ?_
      rw [hkey, ← (hmatch _).mp hcon, hkey']

theorem carries_self (config : Json) (h : plain env gvk path config = true)
    (hc : config.canonical = true) :
    carries env gvk path config config = true := by
  induction config generalizing path with
  | null => cases h
  | obj fields ih =>
    have hfields : carriesFields env gvk path (.obj fields) fields = true := by
      refine carriesFields_iff.mpr fun e he => ?_
      obtain ⟨hk, hv⟩ := plainFields_iff.mp h e he
      rw [isNull_of_plain hv, get_obj, (sorted_of_canonicalFields hc).lookup_of_mem he]
      exact ⟨hk, ih e he hv (canonical_of_mem hc he)⟩
    simp only [carries, and_eq_true]
    exact ⟨rfl, hfields⟩
  | arr ps ih =>
    unfold carries
    unfold plain at h
    cases hs : env.mergeStrategy gvk path with
    | replace => simp
    | set => simp [Json.asArray]
    | mergeByKey keys | mergeByKeyRetainKeys keys =>
      rw [hs] at h
      simp only [and_eq_true, not_eq_true', isEmpty_eq_false_iff] at h
      simp only [and_eq_true, not_eq_true', isEmpty_eq_false_iff]
      refine ⟨h.1, carriesList_iff.mpr fun pel hpel => ?_⟩
      obtain ⟨m, pkey, rfl, hkey, hm⟩ := plainList_of_mem h.2 hpel
      dsimp only
      rw [hkey, find?_of_plainList h.1 h.2 hpel]
      exact ⟨rfl, ih _ hpel hm (canonicalList_iff.mp hc _ hpel)⟩
  | _ => simp [carries]

/-! ## The merge of a plain config -/

/-- Merging a plain value into itself gives it back. -/
theorem FieldMerge.eq_of_self {mid : JsonMap} (h : FieldMerge env gvk path out k v mid)
    (hk : k ≠ patchSentinel ∧ k ≠ retainKeysSentinel) (hv : plain env gvk (path ++ [k]) v = true)
    (hc : v.canonical = true) (hl : out.lookup k = some v) : mid.lookup k = some v := by
  cases h with
  | sentinel _ hs =>
    rcases hs with hs | hs
    · exact absurd hs hk.1
    · exact absurd hs hk.2
  | null => cases hv
  | scalar => exact lookup_put_self ..
  | object fs merged h =>
    have hself : carries env gvk (path ++ [k]) (.obj fs) (.obj fs) = true := carries_self _ hv hc
    rw [hl, Option.getD_some, strategicMerge_of_carries (.obj fs) rfl hc hself] at h
    cases h
    exact lookup_put_self ..
  | list ps merged h =>
    have hself : carries env gvk (path ++ [k]) (.arr ps) (.arr ps) = true := carries_self _ hv hc
    rw [lookup_put_self]
    rw [hl] at h
    unfold carries at hself
    cases hs : env.mergeStrategy gvk (path ++ [k]) with
    | replace =>
      rw [hs] at h
      rw [show merged = ps from h]
    | set =>
      rw [hs] at h
      rw [show merged = setUnion ps ps from h, setUnion_of_subset fun p hp => hp]
    | mergeByKey keys | mergeByKeyRetainKeys keys =>
      rw [hs] at h hself
      simp only [and_eq_true, not_eq_true', isEmpty_eq_false_iff] at hself
      have hsame := mergeListByKey_of_carries ps hself.1 hc hself.2
      cases hsame.symm.trans h
      rfl

theorem strategicFields_same {out' : JsonMap}
    (h : strategicFields env gvk path out fields = .ok out')
    (hplain : plainFields env gvk path fields = true) (hc : Json.canonicalFields fields = true)
    (hv : fields.lookup k = some v) (hl : out.lookup k = some v) : out'.lookup k = some v := by
  obtain ⟨start, mid, hstart, hstep, hmid⟩ :=
    strategicFields_at h (sorted_of_canonicalFields hc).nodup_keys hv
  obtain ⟨hk, hplain⟩ := plainFields_iff.mp hplain _ (mem_of_lookup hv)
  rw [hmid]
  exact hstep.eq_of_self hk hplain (canonical_of_lookup hc hv) (hstart.trans hl)

theorem keyOf_merged {merged : Json} (hm : strategicMerge env gvk path e (.obj m) = .ok merged)
    (hplain : plain env gvk path (.obj m) = true) (hc : (Json.obj m).canonical = true)
    (he : keyOf keys e = some pkey) (hkey : keyOf keys (.obj m) = some pkey) :
    keyOf keys merged = some pkey := by
  obtain ⟨hpatch, hretain⟩ := noDirective_of_plainFields hplain
  obtain ⟨me, rfl, hme⟩ := keyOf_eq_some he
  rw [strategicMerge_fields hpatch hretain, asObject_obj, Option.getD_some] at hm
  obtain ⟨out, hout, rfl⟩ := Except.of_map_ok hm
  have hmm := (keyOf_obj keys m pkey).mp hkey
  have hsame := map_inj_left.mp (hme.trans hmm.symm)
  rw [keyOf_obj, ← hmm]
  refine map_inj_left.mpr fun k hk => ?_
  have hmem : m.lookup k ∈ pkey.map some := hmm ▸ mem_map_of_mem hk
  obtain ⟨v, -, hv⟩ := mem_map.mp hmem
  rw [← hv]
  exact strategicFields_same hout hplain hc hv.symm (by rw [hsame k hk, hv])

/-- Elements with other keys do not concern the element with a key. -/
theorem find?_mergeListByKey {out out' : List Json}
    (h : mergeListByKey env gvk keys path out ps = .ok out')
    (hplain : plainList env gvk keys path ps = true) (hc : Json.canonicalList ps = true)
    (hothers : ∀ e ∈ ps, keyOf keys e ≠ some pkey) :
    out'.find? (fun e => keyOf keys e = some pkey) =
      out.find? (fun e => keyOf keys e = some pkey) := by
  induction ps generalizing out with
  | nil =>
    cases h
    rfl
  | cons pel rest ih =>
    obtain ⟨m, pkey', rfl, hkey', hm, -, hplain'⟩ := plainList_cons hplain
    obtain ⟨mid, hstep, hrest⟩ := mergeListByKey_keyed hkey' h
    have hne : pkey ≠ pkey' := by
      rintro rfl
      exact hothers _ (.head _) hkey'
    simp only [Json.canonicalList, and_eq_true] at hc
    rw [ih hrest hplain' hc.2 fun e he => hothers e (.tail _ he)]
    exact hstep.find?_other hkey'
      (fun e _ merged _ hke hmerge => keyOf_merged hmerge hm hc.1 hke hkey') hne

/-- The first element with `p`, replaced by another with `p`. -/
theorem find?_set_first {α : Type} {p : α → Bool} {xs : List α} {i : Nat} {x : α}
    (hi : xs.findIdx? p = some i) (hx : p x = true) : (xs.set i x).find? p = some x := by
  obtain ⟨hlt, -, hbefore⟩ := List.findIdx?_eq_some_iff_getElem.mp hi
  refine List.find?_eq_some_iff_getElem.mpr ⟨hx, i, by simpa using hlt, by simp, fun j hj => ?_⟩
  rw [getElem_set_ne (by omega)]
  simpa using hbefore j hj

mutual
theorem strategicFields_plain :
    ∀ (fields : List (String × Json)) {path : List String} {out : JsonMap},
    plainFields env gvk path fields = true → Json.canonicalFields fields = true →
    ∃ out', strategicFields env gvk path out fields = .ok out' ∧
      carriesFields env gvk path (.obj out') fields = true
  | [], _, out, _, _ => ⟨out, rfl, rfl⟩
  | (k, v) :: rest, path, out, hplain, hc => by
    have hnd := (sorted_of_canonicalFields hc).nodup_keys
    simp only [plainFields, Bool.and_eq_true, decide_eq_true_eq] at hplain
    obtain ⟨⟨hk, hv⟩, hrest⟩ := hplain
    simp only [Json.canonicalFields, Bool.and_eq_true] at hc
    have hstep : ∃ y, FieldMerge env gvk path out k v (Assoc.put k y out) ∧
        carries env gvk (path ++ [k]) y v = true := by
      cases v with
      | null => cases hv
      | bool b | num n | str s => exact ⟨_, .scalar _ rfl, by simp [carries]⟩
      | obj fs =>
        obtain ⟨hpatch, hretain⟩ := noDirective_of_plainFields hv
        obtain ⟨merged, hmerged, hcarries⟩ := strategicFields_plain fs hv hc.1.2
        refine ⟨.obj merged, .object fs _ ?_, ?_⟩
        · rw [strategicMerge_fields hpatch hretain, hmerged]
          rfl
        · simp only [carries, Bool.and_eq_true]
          exact ⟨rfl, hcarries⟩
      | arr ps =>
        cases hs : env.mergeStrategy gvk (path ++ [k]) with
        | replace => exact ⟨.arr ps, .list ps ps (by rw [hs]; rfl), by simp [carries, hs]⟩
        | set =>
          refine ⟨.arr (setUnion (((out.lookup k).bind Json.asArray).getD []) ps),
            .list ps _ (by rw [hs]; rfl), ?_⟩
          simp only [carries, hs, Json.asArray, Option.any_some, List.all_eq_true,
            decide_eq_true_eq]
          exact fun p hp => mem_setUnion.mpr (.inr hp)
        | mergeByKey keys | mergeByKeyRetainKeys keys =>
          unfold plain at hv
          rw [hs] at hv
          simp only [Bool.and_eq_true, Bool.not_eq_true', List.isEmpty_eq_false_iff] at hv
          obtain ⟨merged, hmerged, hcarries⟩ := mergeListByKey_plain ps hv.1 hv.2 hc.1.2
          refine ⟨.arr merged, .list ps merged (by rw [hs]; exact hmerged), ?_⟩
          unfold carries
          rw [hs]
          simpa [Json.asArray] using ⟨hv.1, hcarries⟩
    obtain ⟨y, hstep, hcarries⟩ := hstep
    obtain ⟨out', hout', hcarries'⟩ := strategicFields_plain rest hrest hc.2
    have hget : out'.lookup k = some y := by
      rw [strategicFields_other hout' (List.nodup_cons.mp hnd).1, lookup_put_self]
    have hnull := isNull_of_plain hv
    refine ⟨out', by rw [strategicFields_step hstep hk, hout'], ?_⟩
    simp only [carriesFields, Bool.and_eq_true, decide_eq_true_eq, hnull,
      Bool.false_eq_true, if_false, get_obj, hget, Option.any_some]
    exact ⟨⟨hk, hcarries⟩, hcarries'⟩
theorem mergeListByKey_plain : ∀ (ps : List Json) {keys path : List String} {out : List Json},
    keys ≠ [] → plainList env gvk keys path ps = true → Json.canonicalList ps = true →
    ∃ out', mergeListByKey env gvk keys path out ps = .ok out' ∧
    carriesList env gvk keys path out' ps = true
  | [], _, _, out, _, _, _ => ⟨out, by rw [mergeListByKey], rfl⟩
  | pel :: rest, keys, path, out, hne, hplain, hc => by
    cases pel with
    | obj m =>
      obtain ⟨m', pkey, hm', hkey, hm, hothers, hrest⟩ := plainList_cons hplain
      cases hm'
      simp only [Json.canonicalList, Bool.and_eq_true] at hc
      obtain ⟨hpatch, hretain⟩ := noDirective_of_plainFields hm
      have hstep : ∃ mid y, mergeListByKey env gvk keys path out (.obj m :: rest) =
            mergeListByKey env gvk keys path mid rest ∧
          mid.find? (fun e => keyOf keys e = some pkey) = some y ∧
          carries env gvk path y (.obj m) = true := by
        cases hidx : out.findIdx? (fun e => keyOf keys e = some pkey) with
        | none =>
          refine ⟨out ++ [.obj m], .obj m, mergeListByKey_append hpatch hkey hidx rest, ?_,
            carries_self _ hm hc.1⟩
          rw [List.find?_append, find?_of_findIdx? hidx, List.find?_singleton]
          simp [hkey]
        | some idx =>
          obtain ⟨e, he, hke, hfirst⟩ := findIdx?_keyOf hidx
          obtain ⟨merged, hmerged, hcarries⟩ := strategicFields_plain m hm hc.1
          have hmerge : strategicMerge env gvk path e (.obj m) = .ok (.obj merged) := by
            rw [strategicMerge_fields hpatch hretain, hmerged]
            rfl
          refine ⟨out.set idx (.obj merged), .obj merged,
            mergeListByKey_merge hpatch hkey hidx (by rw [he]; exact hmerge) rest, ?_, ?_⟩
          · exact find?_set_first hidx (by simp [keyOf_merged hmerge hm hc.1 hke hkey])
          · simp only [carries, Bool.and_eq_true]
            exact ⟨rfl, hcarries⟩
      obtain ⟨mid, y, hstep, hfind, hcarries⟩ := hstep
      obtain ⟨out', hout', hcarries'⟩ := mergeListByKey_plain rest hne hrest hc.2
      have hfind' : out'.find? (matchesKeys (keyTuple keys m)) = some y := by
        rw [matchesKeys_eq_keyOf hne hkey,
          find?_mergeListByKey hout' hrest hc.2 fun e he =>
            keyOf_ne_of_elementText (hothers e he) hkey, hfind]
      refine ⟨out', hstep.trans hout', ?_⟩
      simp [carriesList, hkey, hfind', hcarries, hcarries']
    | _ => cases hplain
end

/-- The merge of a plain config succeeds, and gives an object that carries the config. -/
theorem strategicMerge_of_plain (hplain : plain env gvk path (.obj fields) = true)
    (hc : (Json.obj fields).canonical = true) (hx : x.canonical = true) :
    ∃ m, strategicMerge env gvk path x (.obj fields) = .ok m ∧ m.canonical = true ∧
      carries env gvk path m (.obj fields) = true := by
  obtain ⟨hpatch, hretain⟩ := noDirective_of_plainFields hplain
  obtain ⟨out, hout, hcarries⟩ := strategicFields_plain fields hplain hc
  have hm : strategicMerge env gvk path x (.obj fields) = .ok (.obj out) := by
    rw [strategicMerge_fields hpatch hretain, hout]
    rfl
  refine ⟨.obj out, hm, canonical_strategicMerge _ hm hc hx, ?_⟩
  simp only [carries, and_eq_true]
  exact ⟨rfl, hcarries⟩

end Engenho
