import Engenho.Store.SsaRemove
import Engenho.Store.Strategic

/-!
# What a strategic merge leaves alone

`sparesNode` is a condition on a config and a path under which merging the config leaves the value
at the path, whatever it is merged into, if the config gives the path no other value than it has:
`strategicMerge_spares`. The path is followed through the config. It must not end above or below
what the config replaces as a whole, be deleted by a null or by a directive, or name a list element
by other keys than the list is merged by.
-/

namespace Engenho
open Assoc List Bool

/-! ## Values with unique keys -/

mutual
/-- Every object of the value has each key once, as every value of the source's map type. -/
def uniqueKeys : Json → Bool
  | .obj fields => decide (fields.map Prod.fst).Nodup && uniqueKeysFields fields
  | .arr xs => uniqueKeysList xs
  | _ => true
def uniqueKeysFields : List (String × Json) → Bool
  | [] => true
  | (_, v) :: rest => uniqueKeys v && uniqueKeysFields rest
def uniqueKeysList : List Json → Bool
  | [] => true
  | v :: rest => uniqueKeys v && uniqueKeysList rest
end

theorem uniqueKeys_obj {fields : JsonMap} (h : uniqueKeys (.obj fields) = true) :
    (fields.map Prod.fst).Nodup ∧ uniqueKeysFields fields = true := by
  simpa [uniqueKeys] using h

/-! ## The condition -/

variable (keys : List String)

/-- The element `m` of a list merged by `keys` has another merge key than `t`. -/
def otherKey (t m : JsonMap) : Bool :=
  keys.any fun k => k ≠ patchSentinel && k ≠ retainKeysSentinel &&
    (t.lookup k).any fun v => (m.lookup k).any fun v' => isScalar v' && v ≠ v'

/-- The element has another key. -/
def otherElement (t : JsonMap) : Json → Bool
  | .obj m => otherKey keys t m
  | _ => true

/-- The element `m` of a list merged by `keys` is the one with the merge key `t`. -/
def sameKey (t m : JsonMap) : Bool :=
  keyTuple keys m = t && keys.all fun k =>
    k ≠ patchSentinel && k ≠ retainKeysSentinel && (m.lookup k).any isScalar

/-- Where a node becomes `v`: the path has a value in `v`, or none before. -/
def sparesLeaf (absent : Bool) (p : Path) (v : Json) : Bool := (valueAt v p).isSome || absent

section
variable (env : Env) (gvk : Gvk) (absent : Bool)

mutual
/-- Merging a config into a node leaves the value at `p`. `absent` says that there is none. -/
def sparesNode (path : List String) (p : Path) : Json → Bool
  | .obj fields =>
    match directiveOf fields with
    -- the merge fails
    | some none => true
    | some (some .replace) =>
      p ≠ [] && p.head? ≠ some (.field patchSentinel) && sparesLeaf absent p (.obj fields)
    | _ =>
      match p with
      | [] => fields.isEmpty
      | .field name :: rest =>
        (retains fields name || absent) && sparesFields path name rest fields
      | _ :: _ => absent
  | v => sparesLeaf absent p v
def sparesFields (path : List String) (name : String) (rest : Path) : List (String × Json) → Bool
  | [] => true
  | (k, pv) :: fields =>
    if k ≠ name then sparesFields path name rest fields
    else
      match pv with
      | .null => absent
      | .arr ps =>
        match env.mergeStrategy gvk (path ++ [k]), rest with
        | .replace, rest => sparesLeaf absent rest (.arr ps)
        | _, .field _ :: _ => absent
        | _, .index _ :: _ => false
        -- a union loses nothing, and what it adds is in the config
        | .set, _ => true
        | .mergeByKey keys, .key t :: rest => t ≠ [] && sparesList (path ++ [k]) keys t rest ps
        | .mergeByKeyRetainKeys keys, .key t :: rest =>
          t ≠ [] && sparesList (path ++ [k]) keys t rest ps
        | _, _ => false
      | .obj fs => sparesNode (path ++ [k]) rest (.obj fs)
      | v => sparesLeaf absent rest v
def sparesList (path keys : List String) (t : JsonMap) (rest : Path) : List Json → Bool
  | [] => true
  | .obj m :: ps =>
    if otherKey keys t m then sparesList path keys t rest ps
    else
      sameKey keys t m && (m.lookup patchSentinel).bind PatchDirective.fromValue ≠ some .delete &&
        sparesNode path rest (.obj m) && ps.all (otherElement keys t)
  | _ :: ps => sparesList path keys t rest ps
end
end

/-! ## Merge keys -/

theorem keyTuple_foldl (m : JsonMap) (keys : List String) (t : JsonMap) (ht : Sorted t) :
    let t' := keys.foldl (fun t k => match m.lookup k with
      | some v => put k v t
      | none => t) t
    Sorted t' ∧ ∀ k, t'.lookup k = if k ∈ keys ∧
      (m.lookup k).isSome then m.lookup k else t.lookup k := by
  induction keys generalizing t with
  | nil => exact ⟨ht, fun k => by simp⟩
  | cons k₀ keys ih =>
    have hmem : ∀ {k : String}, k ≠ k₀ → (k ∈ k₀ :: keys ↔ k ∈ keys) := by
      intro k h
      simp [h]
    cases hk₀ : m.lookup k₀ with
    | none =>
      obtain ⟨hs, hl⟩ := ih t ht
      simp only [foldl_cons, hk₀]
      refine ⟨hs, fun k => ?_⟩
      rw [hl]
      by_cases h : k = k₀
      · subst h
        simp [hk₀]
      · simp only [hmem h]
    | some v =>
      obtain ⟨hs, hl⟩ := ih (put k₀ v t) ht.put
      simp only [foldl_cons, hk₀]
      refine ⟨hs, fun k => ?_⟩
      rw [hl, lookup_put]
      by_cases h : k = k₀
      · subst h
        simp [hk₀]
      · simp only [hmem h, h, if_false]

theorem lookup_keyTuple (keys : List String) (m : JsonMap) (k : String) :
    (keyTuple keys m).lookup k = if k ∈ keys then m.lookup k else none := by
  refine ((keyTuple_foldl m keys [] List.Pairwise.nil).2 k).trans ?_
  by_cases hk : k ∈ keys
  · cases hm : m.lookup k <;> simp [hk]
  · simp [hk]

variable {keys : List String} {m t : JsonMap} {pkey out ps : List Json}

theorem mem_keyTuple {kv : String × Json} :
    kv ∈ keyTuple keys m ↔ kv.1 ∈ keys ∧ m.lookup kv.1 = some kv.2 := by
  have hsorted := (keyTuple_foldl m keys [] List.Pairwise.nil).1
  have hmem : kv ∈ keyTuple keys m ↔ (keyTuple keys m).lookup kv.1 = some kv.2 :=
    ⟨fun h => hsorted.lookup_of_mem h, mem_of_lookup⟩
  rw [hmem, lookup_keyTuple]
  by_cases hk : kv.1 ∈ keys <;> simp

theorem matchesKeys_of_sameKey (h : sameKey keys t m = true) : matchesKeys t (.obj m) = true := by
  simp only [sameKey, and_eq_true, decide_eq_true_eq] at h
  obtain ⟨rfl, -⟩ := h
  exact matchesKeys_iff.mpr fun kv hkv => (mem_keyTuple.mp hkv).2

theorem keyTuple_ne_nil (hne : keys ≠ []) (hkey : keyOf keys (.obj m) = some pkey) :
    keyTuple keys m ≠ [] := by
  obtain ⟨k, keys', rfl⟩ := exists_cons_of_ne_nil hne
  have hm := (keyOf_obj _ m pkey).mp hkey
  cases pkey with
  | nil => cases hm
  | cons v pkey =>
    have hv : m.lookup k = some v := (List.cons.inj hm).1
    exact ne_nil_of_mem (mem_keyTuple.mpr ⟨mem_cons_self, hv⟩ : (k, v) ∈ _)

/-- An element is addressed by a full merge key exactly when it is the one the merge finds. -/
theorem matchesKeys_keyTuple (ht : keyTuple keys m ≠ []) (hkey : keyOf keys (.obj m) = some pkey)
    (e : Json) :
    matchesKeys (keyTuple keys m) e = true ↔ keyOf keys e = some pkey := by
  have hm := (keyOf_obj keys m pkey).mp hkey
  have present : ∀ k ∈ keys, ∃ v, m.lookup k = some v := by
    intro k hk
    have hmem : m.lookup k ∈ pkey.map some := hm ▸ mem_map_of_mem hk
    obtain ⟨v, -, hv⟩ := mem_map.mp hmem
    exact ⟨v, hv.symm⟩
  have carries : matchesKeys (keyTuple keys m) e = true ↔ ∀ k ∈ keys, e.get k = m.lookup k := by
    rw [matchesKeys_iff]
    constructor
    · intro h k hk
      obtain ⟨v, hv⟩ := present k hk
      rw [hv]
      exact h (k, v) (mem_keyTuple.mpr ⟨hk, hv⟩)
    · intro h kv hkv
      obtain ⟨hk, hv⟩ := mem_keyTuple.mp hkv
      rw [h _ hk, hv]
  rw [carries]
  constructor
  · intro h
    obtain ⟨kv, hkv⟩ := exists_mem_of_ne_nil _ ht
    obtain ⟨hk, hv⟩ := mem_keyTuple.mp hkv
    have hget := (h _ hk).trans hv
    cases e with
    | obj m' =>
      rw [keyOf_obj, ← hm]
      exact map_inj_left.mpr h
    | _ => cases hget
  · intro h
    obtain ⟨m', rfl, hm'⟩ := keyOf_eq_some h
    exact map_inj_left.mp (hm'.trans hm.symm)

theorem matchesKeys_iff_keyOf (hs : sameKey keys t m = true) (ht : t ≠ [])
    (hkey : keyOf keys (.obj m) = some pkey) (e : Json) :
    matchesKeys t e = true ↔ keyOf keys e = some pkey := by
  simp only [sameKey, and_eq_true, decide_eq_true_eq] at hs
  obtain ⟨rfl, -⟩ := hs
  exact matchesKeys_keyTuple ht hkey e

/-- An element with another merge key is not addressed by `t`, before and after a merge. -/
theorem otherKey_spec (h : otherKey keys t m = true) :
    ∃ k ∈ keys, (k ≠ patchSentinel ∧ k ≠ retainKeysSentinel) ∧ ∃ v, m.lookup k = some v ∧
      isScalar v = true ∧ ∀ e : Json, e.get k = some v → matchesKeys t e = false := by
  obtain ⟨k, hk, h⟩ := any_eq_true.mp h
  simp only [decide_not, and_eq_true, not_eq_true', decide_eq_false_iff_not] at h
  obtain ⟨hsent, hany⟩ := h
  obtain ⟨v, hv, hany⟩ := (Option.any_eq_true _ _).mp hany
  obtain ⟨v', hv', hne⟩ := (Option.any_eq_true _ _).mp hany
  simp only [and_eq_true, not_eq_true', decide_eq_false_iff_not] at hne
  refine ⟨k, hk, hsent, v', hv', hne.1, fun e he => ?_⟩
  by_contra hm
  have hget := matchesKeys_iff.mp (by simpa using hm) _ (mem_of_lookup hv)
  exact hne.2 (Option.some.inj (hget.symm.trans he))

variable {env : Env} {gvk : Gvk} {path : List String}
variable {pel : Json} {mid : List Json}
variable {pkey' existing : List Json} {f : Json → Option Json} {q : Json → Bool} {c : Option Json}

theorem keyOf_appended (hkey : keyOf keys pel = some pkey)
    (h : keyOf keys (appended pel) = some pkey') : pkey' = pkey := by
  obtain ⟨m, rfl, hm⟩ := keyOf_eq_some hkey
  have hm' := (keyOf_obj keys _ pkey').mp h
  have hlen : ∀ k ∈ keys, (drop patchSentinel m).lookup k = m.lookup k := by
    intro k hk
    by_cases hp : k = patchSentinel
    · subst hp
      have hmem : (drop patchSentinel m).lookup patchSentinel ∈ pkey'.map some :=
        hm' ▸ mem_map_of_mem hk
      simp at hmem
    · exact lookup_drop_ne hp m
  have hsame : pkey'.map some = pkey.map some := by
    rw [← hm, ← hm']
    exact map_inj_left.mpr hlen
  exact map_injective_iff.mpr (Option.some_injective _) hsame

/-- A step on a patch element finds what it would have found before by a predicate that holds
neither of the elements with the key of the patch element nor of what it makes of them. -/
theorem KeyedStep.find?_bind (h : KeyedStep env gvk path keys out pel pkey mid)
    (happended : q (appended pel) = false) (hold : ∀ e, keyOf keys e = some pkey → q e = false)
    (hnew : ∀ e ∈ out, ∀ merged, deletes pel = false → keyOf keys e = some pkey →
      strategicMerge env gvk path e pel = .ok merged → q merged = false) :
    (mid.find? q).bind f = (out.find? q).bind f := by
  cases h with
  | absent => rfl
  | append =>
    rw [List.find?_append, List.find?_singleton, happended]
    simp
  | delete idx _ hout =>
    obtain ⟨e, he, hke, -⟩ := findIdx?_keyOf hout
    rw [find?_eraseIdx he (hold e hke)]
  | merge idx e merged hdel hout he hm =>
    have hke := (keyOf_of_findIdx? hout he).1
    have hkm := hnew e (mem_of_getElem? he) merged hdel hke hm
    refine find?_set_bind he (hkm.trans (hold e hke).symm) fun hcon => ?_
    rw [hold e hke] at hcon
    cases hcon

theorem KeyedStep.find?_other (h : KeyedStep env gvk path keys out pel pkey mid)
    (hkey : keyOf keys pel = some pkey)
    (hmerged : ∀ e ∈ out, ∀ merged, deletes pel = false → keyOf keys e = some pkey →
      strategicMerge env gvk path e pel = .ok merged → keyOf keys merged = some pkey) (hne :
      pkey' ≠ pkey) :
    mid.find? (fun e => keyOf keys e = some pkey') =
      out.find? (fun e => keyOf keys e = some pkey') := by
  have hother : ∀ e, keyOf keys e = some pkey → decide (keyOf keys e = some pkey') = false := by
    intro e he
    rw [he]
    exact decide_eq_false fun hcon => hne (Option.some.inj hcon).symm
  have hfind := h.find?_bind (f := some)
    (decide_eq_false fun hcon => hne (keyOf_appended hkey hcon)) hother
    fun e he merged hdel hke hm => hother merged (hmerged e he merged hdel hke hm)
  simpa using hfind

/-- An element of the patch with another merge key than `t` does not concern the element at `t`. -/
theorem ElementMerge.other (h : ElementMerge env gvk path keys out pel mid)
    (ho : otherElement keys t pel = true) (ht : t ≠ []) (hu : uniqueKeys pel = true)
    (f : Json → Option Json) :
    (mid.find? (matchesKeys t)).bind f = (out.find? (matchesKeys t)).bind f := by
  cases h with
  | keyless hobj =>
    split
    · rfl
    have hpel : matchesKeys t pel = false := by
      refine matchesKeys_of_not_object ht ?_
      cases pel with
      | obj m => cases hobj
      | _ => rfl
    rw [List.find?_append, List.find?_singleton, hpel]
    simp
  | keyed pkey _ hkey h =>
    obtain ⟨m, rfl, hm⟩ := keyOf_eq_some hkey
    obtain ⟨k, hk, hsent, v, hv, hscalar, hmatch⟩ := otherKey_spec ho
    refine h.find?_bind ?_ (fun e he => ?_) fun e _ merged _ _ hmerge => ?_
    · exact hmatch _ ((lookup_drop_ne hsent.1 m).trans hv)
    · -- the element found by the merge key of the patch element is another one, too
      obtain ⟨m', rfl, hm'⟩ := keyOf_eq_some he
      exact hmatch _ ((map_inj_left.mp (hm'.trans hm.symm) k hk).trans hv)
    · exact hmatch _ (strategicMerge_scalar hmerge (uniqueKeys_obj hu).1 hv hscalar hsent)

theorem mergeListByKey_others {out' : List Json}
    (h : mergeListByKey env gvk keys path out ps = .ok out')
    (ho : ps.all (otherElement keys t) = true) (ht : t ≠ []) (hu : uniqueKeysList ps = true)
    (f : Json → Option Json) :
    (out'.find? (matchesKeys t)).bind f = (out.find? (matchesKeys t)).bind f := by
  induction ps generalizing out with
  | nil =>
    cases h
    rfl
  | cons pel ps ih =>
    obtain ⟨mid, hstep, hrest⟩ := mergeListByKey_cons h
    simp only [all_cons, and_eq_true] at ho
    simp only [uniqueKeysList, and_eq_true] at hu
    rw [ih hrest ho.2 hu.2, hstep.other ho.1 ht hu.1]

/-! ## Unions -/

theorem setUnion_of_subset (h : ∀ p ∈ ps, p ∈ existing) : setUnion existing ps = existing := by
  induction ps with
  | nil => rfl
  | cons p ps ih =>
    rw [setUnion, if_pos (h p (mem_cons_self ..))]
    exact ih fun q hq => h q (.tail _ hq)

/-- What is found in a union was there, or else is what is found in the config. -/
theorem find?_setUnion (q : Json → Bool) (existing ps : List Json) :
    (setUnion existing ps).find? q = (existing.find? q).or (ps.find? q) := by
  induction ps generalizing existing with
  | nil => simp [setUnion]
  | cons p ps ih =>
    rw [setUnion, ih, List.find?_cons]
    split
    · rename_i hp
      cases hq : q p with
      | false => rfl
      | true =>
        have hsome : (existing.find? q).isSome = true := List.find?_isSome.mpr ⟨p, hp, hq⟩
        obtain ⟨e, he⟩ := Option.isSome_iff_exists.mp hsome
        rw [he]
        rfl
    · rw [List.find?_append, List.find?_singleton]
      cases q p <;> simp

/-! ## The merge -/

/-- A config whose value at a path is `c` does not speak against the value `x` that is there, and
`absent` is right about `x`. -/
structure Agrees (absent : Bool) (c x : Option Json) : Prop where
  same : c = none ∨ c = x
  gone : absent = true → x = none

variable {absent : Bool}

theorem Agrees.of_leaf {x : Option Json} (h : Agrees absent c x)
    (hs : (c.isSome || absent) = true) : c = x := by
  rcases h.same with hc | hc
  · rw [hc] at hs ⊢
    exact (h.gone (by simpa using hs)).symm
  · exact hc

/-- A config agrees with what is absent only by having no value itself. -/
theorem Agrees.eq_none (h : Agrees absent c none) : c = none := h.same.elim id id

/-- A step into a list by key or by value finds its element by a predicate. -/
theorem Agrees.union (h : Agrees absent ((ps.find? q).bind f) ((existing.find? q).bind f)) :
    ((setUnion existing ps).find? q).bind f = (existing.find? q).bind f := by
  rw [find?_setUnion]
  cases he : existing.find? q with
  | some e => rfl
  | none =>
    rw [he] at h
    exact h.eq_none

theorem valueAt_field (v : Json) (name : String) (rest : Path) :
    valueAt v (.field name :: rest) = (v.get name).bind fun w => valueAt w rest := rfl

/-- An object without one of its fields has no further values. -/
theorem valueAt_drop (k : String) {p : Path} (h : valueAt (.obj m) p = none) :
    valueAt (.obj (drop k m)) p = none := by
  cases p with
  | nil => cases h
  | cons el rest =>
    cases el with
    | field name =>
      rw [valueAt_field, Json.get_obj] at h ⊢
      by_cases hname : name = k
      · subst hname
        rw [lookup_drop_self]
        rfl
      · rw [lookup_drop_ne hname, h]
    | _ => rfl

/-- The list that a list field is merged into, seen by a path into a list. -/
theorem valueAt_existing (x : Option Json) {el : PathElement} (hel : ∀ name, el ≠ .field name)
    (rest : Path) :
    valueAt (.arr ((x.bind Json.asArray).getD [])) (el :: rest) = x.bind fun v =>
    valueAt v (el :: rest) := by
  have hempty : valueAt (.arr []) (el :: rest) = none := by
    cases el with
    | field name => exact absurd rfl (hel name)
    | _ => rfl
  cases x with
  | none => exact hempty
  | some v =>
    cases v with
    | arr xs => rfl
    | _ =>
      refine hempty.trans ?_
      simp only [Option.bind_some, valueAt]
      rw [stepElement_of_not_array rfl hel]
      rfl

/-- The element of the patch with the merge key `t` is merged into the element at `t`, so the value
there stays if the merge of the two leaves it. -/
theorem ElementMerge.same {rest : Path}
    (h : ElementMerge env gvk path keys out (.obj m) mid) (hs : sameKey keys t m = true)
    (ht : t ≠ []) (hu : uniqueKeys (.obj m) = true)
    (hdel : (m.lookup patchSentinel).bind PatchDirective.fromValue ≠ some .delete)
    (ha : Agrees absent (valueAt (.obj m) rest) (valueAt (.arr out) (.key t :: rest)))
    (hnode : ∀ x merged, strategicMerge env gvk path x (.obj m) = .ok merged →
      Agrees absent (valueAt (.obj m) rest) (valueAt x rest) →
      valueAt merged rest = valueAt x rest) :
    valueAt (.arr mid) (.key t :: rest) = valueAt (.arr out) (.key t :: rest) := by
  have step : ∀ xs : List Json,
      valueAt (.arr xs) (.key t :: rest) = (xs.find? (matchesKeys t)).bind fun v =>
        valueAt v rest := fun _ => rfl
  cases h with
  | keyless hobj => cases hobj
  | keyed pkey _ hkey h =>
  cases h with
  | absent hd | delete _ hd => exact absurd (of_decide_eq_true hd) hdel
  | append _ hout =>
    have hnone : out.find? (matchesKeys t) = none := by
      refine List.find?_eq_none.mpr fun e he hmatch => ?_
      have hke := (matchesKeys_iff_keyOf hs ht hkey e).mp hmatch
      have hno := List.findIdx?_eq_none_iff.mp hout e he
      simp [hke] at hno
    rw [step, hnone] at ha
    have hnew := valueAt_drop patchSentinel ha.eq_none
    rw [step, step, List.find?_append, hnone, List.find?_singleton]
    split
    · exact hnew
    · rfl
  | merge idx e merged _ hout he hm =>
    obtain ⟨hke, hfind⟩ := keyOf_of_findIdx? hout he
    have hpred : matchesKeys t = fun e => decide (keyOf keys e = some pkey) := by
      funext e
      rw [Bool.eq_iff_iff, matchesKeys_iff_keyOf hs ht hkey e]
      simp
    have hfirst : out.find? (matchesKeys t) = some e := by
      rw [hpred]
      exact hfind
    rw [step, hfirst] at ha
    refine find?_set_bind he ?_ fun _ => hnode e merged hm ha
    -- the merged element has the scalars of the patch element, its merge key among them
    have hkeys : keyOf keys merged = some pkey := by
      simp only [sameKey, and_eq_true, decide_eq_true_eq, all_eq_true, ne_eq, decide_not,
        not_eq_true', decide_eq_false_iff_not] at hs
      exact keyOf_strategicMerge_obj hm (uniqueKeys_obj hu).1 hkey hs.2
    rw [Bool.eq_iff_iff, matchesKeys_iff_keyOf hs ht hkey, matchesKeys_iff_keyOf hs ht hkey,
      hkeys, hke]

mutual
theorem strategicMerge_spares : ∀ (config : Json) {absent : Bool} {path : List String}
    {p : Path} {x m : Json}, uniqueKeys config = true →
    strategicMerge env gvk path x config = .ok m → sparesNode env gvk absent path p config = true →
    Agrees absent (valueAt config p) (valueAt x p) → valueAt m p = valueAt x p
  | .obj fields, absent, path, p, x, m, hu, hm, hs, ha => by
    unfold sparesNode at hs
    obtain ⟨hdir, rfl⟩ | ⟨hbad, hreplace, out, hout, rfl⟩ := strategicMerge_obj hm
    · rw [hdir] at hs
      simp only [ne_eq, Bool.and_eq_true, decide_eq_true_eq] at hs
      obtain ⟨⟨hnil, hhead⟩, hleaf⟩ := hs
      rw [← ha.of_leaf hleaf]
      obtain ⟨el, rest, rfl⟩ := List.exists_cons_of_ne_nil hnil
      cases el with
      | field name =>
        have hname : name ≠ patchSentinel := by
          rintro rfl
          exact hhead rfl
        rw [valueAt_field, valueAt_field, Json.get_obj, Json.get_obj, lookup_drop_ne hname]
      | _ => rfl
    · split at hs
      · rename_i h
        exact absurd h hbad
      · rename_i h
        exact absurd h hreplace
      · cases p with
        | nil =>
          have hf : fields = [] := by simpa using hs
          subst hf
          -- the config is the empty object, and so is the node
          have hx : x = .obj [] := by
            rcases ha.same with h | h
            · cases h
            · exact (Option.some.inj h).symm
          subst hx
          cases hout
          rfl
        | cons el rest =>
          cases el with
          | field name =>
            simp only [Bool.and_eq_true, Bool.or_eq_true] at hs
            obtain ⟨hretain, hfields⟩ := hs
            have hkept : ((retained x fields).lookup name).bind (fun w => valueAt w rest) =
                valueAt x (.field name :: rest) := by
              rw [lookup_retained]
              split
              · rfl
              · rename_i hr
                exact (ha.gone (hretain.resolve_left hr)).symm
            rw [valueAt_field (.obj out), Json.get_obj, ← hkept]
            refine strategicFields_spares fields (uniqueKeys_obj hu).1
              (uniqueKeys_obj hu).2 hout hfields ?_
            rw [hkept]
            exact ha
          | _ => exact (ha.gone hs).symm
  | .null, absent, path, p, x, m, _, hm, hs, ha | .bool _, absent, path, p, x, m, _, hm, hs, ha
  | .num _, absent, path, p, x, m, _, hm, hs, ha | .str _, absent, path, p, x, m, _, hm, hs, ha
  | .arr _, absent, path, p, x, m, _, hm, hs, ha => by
    cases hm
    exact ha.of_leaf hs
theorem strategicFields_spares : ∀ (fields : List (String × Json)) {absent : Bool}
    {path : List String}
    {name : String} {rest : Path} {out out' : JsonMap}, (fields.map Prod.fst).Nodup →
    uniqueKeysFields fields = true → strategicFields env gvk path out fields = .ok out' →
    sparesFields env gvk absent path name rest fields = true →
    Agrees absent ((fields.lookup name).bind fun v => valueAt v rest)
      ((out.lookup name).bind fun v => valueAt v rest) →
    ((out'.lookup name).bind fun v => valueAt v rest) = (out.lookup name).bind fun v =>
    valueAt v rest
  | [], absent, path, name, rest, out, out', _, _, hm, _, _ => by
    cases hm
    rfl
  | (k, pv) :: fields, absent, path, name, rest, out, out', hnd, hu, hm, hs, ha => by
    obtain ⟨mid, hstep, hrest⟩ := strategicFields_cons hm
    obtain ⟨hk, hnd'⟩ := List.nodup_cons.mp hnd
    simp only [uniqueKeysFields, Bool.and_eq_true] at hu
    rw [lookup_cons_ite] at ha
    unfold sparesFields at hs
    by_cases hne : k ≠ name
    · rw [if_pos hne] at hs
      rw [if_neg hne.symm, ← hstep.lookup_ne hne.symm] at ha
      rw [← hstep.lookup_ne hne.symm]
      exact strategicFields_spares fields hnd' hu.2 hrest hs ha
    · rw [if_neg hne] at hs
      obtain rfl : k = name := not_not.mp hne
      rw [if_pos rfl, Option.bind_some] at ha
      rw [strategicFields_other hrest hk]
      cases hstep with
      | sentinel => rfl
      | null =>
        rw [lookup_drop_self]
        exact (ha.gone hs).symm
      | scalar _ hv =>
        rw [lookup_put_self, Option.bind_some]
        cases pv with
        | null | arr | obj => cases hv
        | _ => exact ha.of_leaf hs
      | object fs merged h =>
        rw [lookup_put_self, Option.bind_some]
        have hx : valueAt ((out.lookup k).getD (.obj [])) rest =
            (out.lookup k).bind fun v => valueAt v rest := by
          cases hl : out.lookup k with
          | some v => rfl
          | none =>
            -- nothing is there, so the config has no value at the path either
            rw [hl] at ha
            cases rest with
            | nil => cases ha.eq_none
            | cons el rest => cases el <;> rfl
        rw [← hx] at ha ⊢
        exact strategicMerge_spares (.obj fs) hu.1 h hs ha
      | list ps merged h =>
        rw [lookup_put_self, Option.bind_some]
        have byKey : ∀ keys t rest', rest = .key t :: rest' → (decide (t ≠ []) &&
            sparesList env gvk absent (path ++ [k]) keys t rest' ps) = true →
            mergeListByKey env gvk keys (path ++ [k]) (((out.lookup k).bind Json.asArray).getD [])
              ps =
              .ok merged →
            valueAt (.arr merged) rest = (out.lookup k).bind fun v => valueAt v rest := by
          rintro keys t rest' rfl hsl hml
          simp only [ne_eq, Bool.and_eq_true, decide_eq_true_eq] at hsl
          rw [← valueAt_existing _ (by simp)] at ha ⊢
          exact mergeListByKey_spares ps hsl.1 hu.1 hml hsl.2 ha
        cases hstrategy : env.mergeStrategy gvk (path ++ [k]) with
        | replace =>
          rw [hstrategy] at h hs
          obtain rfl : merged = ps := h
          exact ha.of_leaf hs
        | set =>
          rw [hstrategy] at h hs
          obtain rfl : merged = _ := h
          cases rest with
          | nil =>
            -- the config has the very list that is there
            have hx : out.lookup k = some (.arr ps) := by
              rcases ha.same with hc | hc
              · cases hc
              · exact (Option.bind_fun_some _).symm.trans hc.symm
            rw [hx]
            exact congrArg (fun xs => some (Json.arr xs)) (setUnion_of_subset fun p hp => hp)
          | cons el rest =>
            cases el with
            | field name => exact (ha.gone hs).symm
            | index i => cases hs
            | value v | key t =>
              rw [← valueAt_existing _ (by simp)] at ha ⊢
              exact ha.union
        | mergeByKey keys | mergeByKeyRetainKeys keys =>
          rw [hstrategy] at h hs
          cases rest with
          | nil => cases hs
          | cons el rest =>
            cases el with
            | field name => exact (ha.gone hs).symm
            | index i | value v => cases hs
            | key t => exact byKey keys t rest rfl hs h
theorem mergeListByKey_spares : ∀ (ps : List Json) {absent : Bool} {path keys : List String}
    {t : JsonMap} {rest : Path} {out out' : List Json}, t ≠ [] → uniqueKeysList ps = true →
    mergeListByKey env gvk keys path out ps = .ok out' →
    sparesList env gvk absent path keys t rest ps = true →
    Agrees absent (valueAt (.arr ps) (.key t :: rest)) (valueAt (.arr out) (.key t :: rest)) →
    valueAt (.arr out') (.key t :: rest) = valueAt (.arr out) (.key t :: rest)
  | [], absent, path, keys, t, rest, out, out', _, _, hm, _, _ => by
    cases hm
    rfl
  | pel :: ps, absent, path, keys, t, rest, out, out', ht, hu, hm, hs, ha => by
    obtain ⟨mid, hstep, hrest⟩ := mergeListByKey_cons hm
    simp only [uniqueKeysList, Bool.and_eq_true] at hu
    have step : ∀ xs : List Json, valueAt (.arr xs) (.key t :: rest) =
      (xs.find? (matchesKeys t)).bind fun v => valueAt v rest := fun _ => rfl
    -- an element with another merge key: the rest of the list is left
    have other : otherElement keys t pel = true → matchesKeys t pel = false →
        sparesList env gvk absent path keys t rest ps = true →
        valueAt (.arr out') (.key t :: rest) = valueAt (.arr out) (.key t :: rest) := by
      intro ho hpel hsl
      have hmid : valueAt (.arr mid) (.key t :: rest) = valueAt (.arr out) (.key t :: rest) :=
        hstep.other ho ht hu.1 _
      rw [step (pel :: ps), List.find?_cons_of_neg (by simp [hpel]), ← step ps, ← hmid] at ha
      rw [← hmid]
      exact mergeListByKey_spares ps ht hu.2 hrest hsl ha
    cases pel with
    | obj m =>
      unfold sparesList at hs
      by_cases ho : otherKey keys t m = true
      · rw [if_pos ho] at hs
        obtain ⟨k, -, -, v, hv, -, hmatch⟩ := otherKey_spec ho
        exact other ho (hmatch _ hv) hs
      · rw [if_neg ho] at hs
        simp only [Bool.and_eq_true, decide_eq_true_eq] at hs
        obtain ⟨⟨⟨hsame, hdel⟩, hnode⟩, hothers⟩ := hs
        rw [step (.obj m :: ps), List.find?_cons_of_pos (matchesKeys_of_sameKey hsame),
          Option.bind_some] at ha
        rw [step out', mergeListByKey_others hrest hothers ht hu.2, ← step mid]
        exact hstep.same hsame ht hu.1 hdel ha fun x merged hx hax =>
          strategicMerge_spares (.obj m) hu.1 hx hnode hax
    | _ => exact other rfl (matchesKeys_of_not_object ht rfl) hs
end
end Engenho
