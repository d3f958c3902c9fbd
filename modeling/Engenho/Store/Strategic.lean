import Engenho.Lib.Except
import Engenho.Store.Patch

/-!
# Strategic merges, step by step

What one step of `strategicMerge` does, for a merge that succeeds: a patch object replaces or is
merged field by field (`strategicMerge_obj`), a field of the patch is one of the cases of
`FieldMerge`, and an element of a list merged by key is one of the cases of `ElementMerge`. The
results about whole merges are inductions over these.
-/

namespace Engenho
open Assoc Json List Except
variable {env : Env} {gvk : Gvk} {path : List String}

/-! ## Objects -/

/-- The `$patch` directive of a patch object: `some none` if there is one that is not known. -/
def directiveOf (fields : JsonMap) : Option (Option PatchDirective) :=
  (fields.lookup patchSentinel).map PatchDirective.fromValue

variable {fields out' : JsonMap} {name : String}
variable {current pv v e : Json} {idx : Nat} {existing ps : List Json}

theorem strategicMerge_obj {m : Json}
    (h : strategicMerge env gvk path current (.obj fields) = .ok m) :
    (directiveOf fields = some (some .replace) ∧ m = .obj (Assoc.drop patchSentinel fields)) ∨
    (directiveOf fields ≠ some none ∧ directiveOf fields ≠ some (some .replace) ∧
      ∃ out, strategicFields env gvk path (retained current fields) fields = .ok out ∧
      m = .obj out) := by
  have fieldwise : (strategicFields env gvk path (retained current fields) fields).map .obj =
    .ok m →
      ∃ out, strategicFields env gvk path (retained current fields) fields = .ok out ∧
      m = .obj out := by
    intro hm
    obtain ⟨out, hout, rfl⟩ := of_map_ok hm
    exact ⟨out, hout, rfl⟩
  unfold strategicMerge at h
  unfold directiveOf
  split at h
  · rename_i hdir
    rw [hdir]
    exact .inr ⟨by simp, by simp, fieldwise h⟩
  rename_i dir hdir
  rw [hdir]
  split at h
  · rename_i hreplace
    cases h
    exact .inl ⟨by simp [hreplace], rfl⟩
  · rename_i d hne hd
    rw [Option.map_some, hd]
    refine .inr ⟨by simp, ?_, fieldwise h⟩
    intro he
    simp only [Option.some.injEq] at he
    exact hne he
  · cases h

/-- A patch object keeps the field `name` of what it is merged into: it has no `$retainKeys` list,
or one with `name`. -/
def retains (fields : JsonMap) (name : String) : Bool :=
  match (fields.lookup retainKeysSentinel).bind Json.asArray with
  | none => true
  | some keys => name ∈ keys.filterMap Json.asStr

theorem lookup_retained (current : Json) (fields : JsonMap) (name : String) :
    (retained current fields).lookup name =
      if retains fields name then current.get name else none := by
  have hget : (current.asObject.getD []).lookup name = current.get name := by cases current <;> rfl
  unfold retained retains
  cases (fields.lookup retainKeysSentinel).bind asArray with
  | none => exact hget
  | some keys => rw [Assoc.lookup_filter (fun k => decide (k ∈ keys.filterMap asStr)), hget]

/-- A patch object without a directive is merged field by field. -/
theorem strategicMerge_fields (hpatch : fields.lookup patchSentinel = none)
    (hretain : fields.lookup retainKeysSentinel = none) (current : Json) :
    strategicMerge env gvk path current (.obj fields) =
      (strategicFields env gvk path (current.asObject.getD []) fields).map .obj := by
  have hkept : retained current fields = current.asObject.getD [] := by
    rw [retained, hretain]
    rfl
  rw [strategicMerge, hpatch, hkept]

/-! ## Fields -/

/-- A string, a number or a boolean. -/
def isScalar : Json → Bool
  | .str _ => true
  | .num _ => true
  | .bool _ => true
  | _ => false

variable (env gvk path) in
/-- A list field of a patch, merged as the schema says. -/
def ListMerge (existing ps merged : List Json) : ListMergeStrategy → Prop
  | .replace => merged = ps
  | .set => merged = setUnion existing ps
  | .mergeByKey keys => mergeListByKey env gvk keys path existing ps = .ok merged
  | .mergeByKeyRetainKeys keys => mergeListByKey env gvk keys path existing ps = .ok merged

variable (env gvk path) in
/-- What a field `k` of a patch object makes of the fields `out`. -/
inductive FieldMerge (out : JsonMap) (k : String) : Json → JsonMap → Prop
  | sentinel (pv : Json) (h : k = patchSentinel ∨ k = retainKeysSentinel) : FieldMerge out k pv out
  | null : FieldMerge out k .null (Assoc.drop k out)
  | list (ps merged : List Json)
      (h : ListMerge env gvk (path ++ [k]) (((out.lookup k).bind Json.asArray).getD []) ps merged
        (env.mergeStrategy gvk (path ++ [k]))) :
      FieldMerge out k (.arr ps) (Assoc.put k (.arr merged) out)
  | object (fs : JsonMap) (merged : Json)
      (h : strategicMerge env gvk (path ++ [k]) ((out.lookup k).getD (.obj [])) (.obj fs) =
        .ok merged) :
      FieldMerge out k (.obj fs) (Assoc.put k merged out)
  | scalar (pv : Json) (h : isScalar pv = true) : FieldMerge out k pv (Assoc.put k pv out)

variable {k : String}

theorem strategicFields_cons {out rest : JsonMap}
    (h : strategicFields env gvk path out ((k, pv) :: rest) = .ok out') :
    ∃ mid, FieldMerge env gvk path out k pv mid ∧
    strategicFields env gvk path mid rest = .ok out' := by
  unfold strategicFields at h
  split at h
  · rename_i hk
    exact ⟨out, .sentinel pv hk, h⟩
  cases pv with
  | null => exact ⟨_, .null, h⟩
  | bool b | num n | str s => exact ⟨_, .scalar _ rfl, h⟩
  | obj fs =>
    obtain ⟨merged, hm, h⟩ := of_bind_ok h
    exact ⟨_, .object fs merged hm, h⟩
  | arr ps =>
    cases hs : env.mergeStrategy gvk (path ++ [k]) with
    | replace | set =>
      simp only [hs] at h
      exact ⟨_, .list ps _ (by rw [hs]; rfl), h⟩
    | mergeByKey keys | mergeByKeyRetainKeys keys =>
      simp only [hs] at h
      obtain ⟨merged, hm, h⟩ := of_bind_ok h
      exact ⟨_, .list ps merged (by rw [hs]; exact hm), h⟩

/-- The step of the merge at a field that is no directive. -/
theorem strategicFields_step {out mid : JsonMap} (h : FieldMerge env gvk path out k pv mid)
    (hk : k ≠ patchSentinel ∧ k ≠ retainKeysSentinel) (rest : JsonMap) :
    strategicFields env gvk path out ((k, pv) :: rest) = strategicFields env gvk path mid rest := by
  have hsent : ¬ (k = patchSentinel ∨ k = retainKeysSentinel) := by
    rintro (h | h)
    · exact hk.1 h
    · exact hk.2 h
  conv_lhs => unfold strategicFields
  rw [if_neg hsent]
  cases h with
  | sentinel _ hs => exact absurd hs hsent
  | null => rfl
  | list ps merged h =>
    cases hs : env.mergeStrategy gvk (path ++ [k]) with
    | replace =>
      rw [hs] at h
      rw [show merged = ps from h]
      rfl
    | set =>
      rw [hs] at h
      rw [show merged = _ from h]
      rfl
    | mergeByKey keys | mergeByKeyRetainKeys keys =>
      rw [hs] at h
      simp only [show mergeListByKey env gvk keys (path ++ [k]) _ ps = .ok merged from h,
        bind, Except.bind]
  | object fs merged h => simp only [h, bind, Except.bind]
  | scalar _ hv =>
    cases pv with
    | null | arr | obj => cases hv
    | _ => rfl

/-- A field of the patch concerns no other field. -/
theorem FieldMerge.lookup_ne {out mid : JsonMap} (h : FieldMerge env gvk path out k pv mid)
    (hne : name ≠ k) : mid.lookup name = out.lookup name := by
  cases h with
  | sentinel => rfl
  | null => exact lookup_drop_ne hne out
  | list | object | scalar => exact lookup_put_ne hne ..

section
variable {out : JsonMap} (h : strategicFields env gvk path out fields = .ok out')
include h

theorem strategicFields_other (hne : name ∉ fields.map Prod.fst) :
    out'.lookup name = out.lookup name := by
  induction fields generalizing out with
  | nil =>
    cases h
    rfl
  | cons f fields ih =>
    obtain ⟨mid, hstep, hrest⟩ := strategicFields_cons h
    simp only [map_cons, mem_cons, not_or] at hne
    rw [ih hrest hne.2, hstep.lookup_ne hne.1]

/-- A field of the result is what the field of the patch makes of the field that was there. -/
theorem strategicFields_at (hnd : (fields.map Prod.fst).Nodup) (hl : fields.lookup name = some v) :
    ∃ start mid, start.lookup name = out.lookup name ∧ FieldMerge env gvk path start name v mid ∧
      out'.lookup name = mid.lookup name := by
  induction fields generalizing out with
  | nil => cases hl
  | cons f fields ih =>
    obtain ⟨k, pv⟩ := f
    obtain ⟨mid, hstep, hrest⟩ := strategicFields_cons h
    obtain ⟨hk, hnd'⟩ := nodup_cons.mp hnd
    rw [lookup_cons_ite] at hl
    by_cases he : name = k
    · subst he
      rw [if_pos rfl] at hl
      cases hl
      exact ⟨out, mid, rfl, hstep, strategicFields_other hrest hk⟩
    · rw [if_neg he] at hl
      rw [← hstep.lookup_ne he]
      exact ih hrest hnd' hl

end

theorem strategicMerge_scalar {m : Json}
    (h : strategicMerge env gvk path current (.obj fields) = .ok m)
    (hnd : (fields.map Prod.fst).Nodup) (hl : fields.lookup name = some v) (hv : isScalar v = true)
    (hname : name ≠ patchSentinel ∧ name ≠ retainKeysSentinel) : m.get name = some v := by
  obtain ⟨-, rfl⟩ | ⟨-, -, out, hout, rfl⟩ := strategicMerge_obj h
  · rw [get_obj, lookup_drop_ne hname.1, hl]
  obtain ⟨start, mid, -, hstep, hmid⟩ := strategicFields_at hout hnd hl
  rw [get_obj, hmid]
  cases hstep with
  | sentinel _ hs => exact absurd hs (by simp [hname])
  | scalar => exact lookup_put_self ..
  | _ => cases hv

/-! ## Lists merged by key -/

theorem keyOf_obj (keys : List String) (m : JsonMap) (pkey : List Json) :
    keyOf keys (.obj m) = some pkey ↔ keys.map (fun k => m.lookup k) = pkey.map some := by
  simp only [keyOf, asObject_obj, Option.bind_some]
  induction keys generalizing pkey with
  | nil => cases pkey <;> simp
  | cons k keys ih =>
    rw [mapM_cons]
    cases hk : m.lookup k with
    | none => cases pkey <;> simp [hk]
    | some v =>
      cases pkey with
      | nil => simp [hk, Option.bind_eq_some_iff]
      | cons w pkey =>
        simp only [Option.bind_eq_bind, Option.bind_some, Option.pure_def, Option.bind_eq_some_iff,
          Option.some.injEq, List.cons.injEq, map_cons, hk]
        constructor
        · rintro ⟨vs, hvs, rfl, rfl⟩
          exact ⟨rfl, (ih _).mp hvs⟩
        · rintro ⟨rfl, hvs⟩
          exact ⟨pkey, (ih _).mpr hvs, rfl, rfl⟩

theorem keyOf_eq_some {keys : List String} {pkey : List Json} (h : keyOf keys e = some pkey) :
    ∃ m, e = .obj m ∧ keys.map (fun k => m.lookup k) = pkey.map some := by
  cases e with
  | obj m => exact ⟨m, rfl, (keyOf_obj keys m pkey).mp h⟩
  | _ => cases h

section
variable {keys : List String} {out : List Json} {pel : Json} {pkey rest out' : List Json}
section
variable (h : out.findIdx? (fun e => keyOf keys e = some pkey) = some idx)
include h

theorem findIdx?_keyOf : ∃ e, out[idx]? = some e ∧ keyOf keys e = some pkey ∧
      out.find? (fun e => keyOf keys e = some pkey) = some e := by
  obtain ⟨hlt, hp, hbefore⟩ := List.findIdx?_eq_some_iff_getElem.mp h
  refine ⟨out[idx], List.getElem?_eq_getElem hlt, by simpa using hp, ?_⟩
  refine List.find?_eq_some_iff_getElem.mpr ⟨hp, idx, hlt, rfl, fun j hj => ?_⟩
  simpa using hbefore j hj

theorem keyOf_of_findIdx? (he : out[idx]? = some e) :
    keyOf keys e = some pkey ∧ out.find? (fun e => keyOf keys e = some pkey) = some e := by
  obtain ⟨e', he', hfound⟩ := findIdx?_keyOf h
  rwa [Option.some.inj (he.symm.trans he')]

end

theorem find?_of_findIdx? (h : out.findIdx? (fun e => keyOf keys e = some pkey) = none) :
    out.find? (fun e => keyOf keys e = some pkey) = none :=
  List.find?_eq_none.mpr fun e he => by simpa using List.findIdx?_eq_none_iff.mp h e he

/-- The patch element asks for the removal of the element with its key. -/
def deletes (pel : Json) : Bool :=
  (pel.get patchSentinel).bind PatchDirective.fromValue = some .delete

/-- What is appended for a patch element with a new key. -/
def appended (pel : Json) : Json := .obj (Assoc.drop patchSentinel (pel.asObject.getD []))

/-- A step on a patch element that has a key, with what it does to the list. -/
inductive KeyedStep (env : Env) (gvk : Gvk) (path keys : List String) (out : List Json) (pel : Json)
    (pkey : List Json) : List Json → Prop
  | absent (hdel : deletes pel = true)
      (hout : out.findIdx? (fun e => keyOf keys e = some pkey) = none) :
      KeyedStep env gvk path keys out pel pkey out
  | append (hdel : deletes pel = false)
      (hout : out.findIdx? (fun e => keyOf keys e = some pkey) = none) :
      KeyedStep env gvk path keys out pel pkey (out ++ [appended pel])
  | delete (idx : Nat) (hdel : deletes pel = true)
      (hout : out.findIdx? (fun e => keyOf keys e = some pkey) = some idx) :
      KeyedStep env gvk path keys out pel pkey (out.eraseIdx idx)
  | merge (idx : Nat) (e merged : Json) (hdel : deletes pel = false)
      (hout : out.findIdx? (fun e => keyOf keys e = some pkey) = some idx) (he : out[idx]? = some e)
      (h : strategicMerge env gvk path e pel = .ok merged) :
      KeyedStep env gvk path keys out pel pkey (out.set idx merged)

theorem mergeListByKey_keyed (hkey : keyOf keys pel = some pkey)
    (h : mergeListByKey env gvk keys path out (pel :: rest) = .ok out') :
    ∃ mid, KeyedStep env gvk path keys out pel pkey mid ∧
      mergeListByKey env gvk keys path mid rest = .ok out' := by
  rw [mergeListByKey] at h
  simp only [hkey] at h
  by_cases hdel : (pel.get patchSentinel).bind PatchDirective.fromValue = some .delete
  · have hd : deletes pel = true := decide_eq_true hdel
    simp only [hdel] at h
    split at h
    · rename_i hout
      exact ⟨out, .absent hd hout, h⟩
    · rename_i idx hout
      exact ⟨_, .delete idx hd hout, h⟩
  · have hd : deletes pel = false := decide_eq_false hdel
    simp only [hdel] at h
    split at h
    · rename_i hout
      exact ⟨_, .append hd hout, h⟩
    · rename_i idx hout
      obtain ⟨e, he, -, -⟩ := findIdx?_keyOf hout
      rw [he] at h
      obtain ⟨merged, hm, h⟩ := of_bind_ok h
      exact ⟨_, .merge idx e merged hd hout he hm, h⟩

theorem mergeListByKey_keyless (hkey : keyOf keys pel = none)
    (h : mergeListByKey env gvk keys path out (pel :: rest) = .ok out') : pel.asObject = none ∧
      mergeListByKey env gvk keys path (if pel ∈ out then out else out ++ [pel])
      rest = .ok out' := by
  rw [mergeListByKey] at h
  simp only [hkey] at h
  split at h
  · cases h
  · rename_i hobj
    exact ⟨hobj, h⟩

variable (env gvk path keys out pel) in
/-- What an element of a patch list makes of the list `out`. -/
inductive ElementMerge : List Json → Prop
  | keyless (hobj : pel.asObject = none) : ElementMerge (if pel ∈ out then out else out ++ [pel])
  | keyed (pkey mid : List Json) (hkey : keyOf keys pel = some pkey)
      (h : KeyedStep env gvk path keys out pel pkey mid) : ElementMerge mid

theorem mergeListByKey_cons (h : mergeListByKey env gvk keys path out (pel :: rest) = .ok out') :
    ∃ mid, ElementMerge env gvk path keys out pel mid ∧
      mergeListByKey env gvk keys path mid rest = .ok out' := by
  cases hkey : keyOf keys pel with
  | none =>
    obtain ⟨hobj, hrest⟩ := mergeListByKey_keyless hkey h
    exact ⟨_, .keyless hobj, hrest⟩
  | some pkey =>
    obtain ⟨mid, hstep, hrest⟩ := mergeListByKey_keyed hkey h
    exact ⟨mid, .keyed pkey mid hkey hstep, hrest⟩

end

section
variable {keys : List String} {out : List Json} {m : JsonMap} {pkey : List Json}
variable {merged : Json}

/-- An element without a directive is merged into the one with its key. -/
theorem mergeListByKey_merge (hpatch : m.lookup patchSentinel = none)
    (hkey : keyOf keys (.obj m) = some pkey)
    (hout : out.findIdx? (fun e => keyOf keys e = some pkey) = some idx)
    (hm : strategicMerge env gvk path ((out[idx]?).getD .null) (.obj m) = .ok merged)
    (rest : List Json) :
    mergeListByKey env gvk keys path out (.obj m :: rest) =
      mergeListByKey env gvk keys path (out.set idx merged) rest := by
  rw [mergeListByKey]
  simp only [hkey, hout, hm, get_obj, hpatch, Option.bind_none, reduceCtorEq, if_false,
    bind, Except.bind]

/-- An element without a directive and with a new key goes to the end. -/
theorem mergeListByKey_append (hpatch : m.lookup patchSentinel = none)
    (hkey : keyOf keys (.obj m) = some pkey)
    (hout : out.findIdx? (fun e => keyOf keys e = some pkey) = none) (rest : List Json) :
    mergeListByKey env gvk keys path out (.obj m :: rest) =
      mergeListByKey env gvk keys path (out ++ [.obj m]) rest := by
  rw [mergeListByKey]
  simp [hkey, hout, hpatch, drop_of_lookup_none hpatch]

theorem mergeListByKey_primitive (hv : v.asObject = none) (rest : List Json) :
    mergeListByKey env gvk keys path out (v :: rest) =
      mergeListByKey env gvk keys path (if v ∈ out then out else out ++ [v]) rest := by
  have hkey : keyOf keys v = none := by simp [keyOf, hv]
  rw [mergeListByKey]
  simp [hkey, hv]

/-- An element that is merged keeps its key, if that is made of scalars and no directive. -/
theorem keyOf_strategicMerge_obj (hm : strategicMerge env gvk path e (.obj m) = .ok merged)
    (hnd : (m.map Prod.fst).Nodup) (hkey : keyOf keys (.obj m) = some pkey)
    (hall : ∀ k ∈ keys, (k ≠ patchSentinel ∧ k ≠ retainKeysSentinel) ∧
      (m.lookup k).any isScalar = true) :
    keyOf keys merged = some pkey := by
  have hfield : ∀ k ∈ keys, merged.get k = m.lookup k := by
    intro k hk
    obtain ⟨hsent, hany⟩ := hall k hk
    obtain ⟨v, hv, hscalar⟩ := (Option.any_eq_true _ _).mp hany
    rw [hv]
    exact strategicMerge_scalar hm hnd hv hscalar hsent
  obtain ⟨-, rfl⟩ | ⟨-, -, out, -, rfl⟩ := strategicMerge_obj hm
  · rw [keyOf_obj, ← (keyOf_obj keys m pkey).mp hkey]
    exact map_inj_left.mpr hfield
  · rw [keyOf_obj, ← (keyOf_obj keys m pkey).mp hkey]
    exact map_inj_left.mpr hfield

end

/-! ## Where elements come from -/

/-- The merge key of a list whose elements are merged one by one. -/
def ListMergeStrategy.byKey : ListMergeStrategy → Option (List String)
  | .mergeByKey keys => some keys
  | .mergeByKeyRetainKeys keys => some keys
  | _ => none

theorem ListMerge.cases {merged : List Json} {s : ListMergeStrategy}
    (h : ListMerge env gvk path existing ps merged s) :
    (∃ keys, s.byKey = some keys ∧ mergeListByKey env gvk keys path existing ps = .ok merged) ∨
      (s.byKey = none ∧ (merged = ps ∨ merged = setUnion existing ps)) := by
  cases s with
  | replace => exact .inr ⟨rfl, .inl h⟩
  | set => exact .inr ⟨rfl, .inr h⟩
  | mergeByKey keys | mergeByKeyRetainKeys keys => exact .inl ⟨keys, rfl, h⟩

section
variable {keys : List String} {out pkey mid : List Json} {pel : Json}

theorem mem_setUnion : v ∈ setUnion existing ps ↔ v ∈ existing ∨ v ∈ ps := by
  induction ps generalizing existing with
  | nil => simp [setUnion]
  | cons p ps ih =>
    rw [setUnion, ih]
    by_cases hp : p ∈ existing
    · rw [if_pos hp, mem_cons]
      constructor
      · rintro (h | h)
        · exact .inl h
        · exact .inr (.inr h)
      · rintro (h | rfl | h)
        · exact .inl h
        · exact .inl hp
        · exact .inr h
    · rw [if_neg hp, mem_append, mem_singleton, mem_cons, or_assoc]

theorem KeyedStep.mem_cases {x : Json} (h : KeyedStep env gvk path keys out pel pkey mid)
    (hx : x ∈ mid) :
    x ∈ out ∨
      (deletes pel = false ∧ out.find? (fun e => keyOf keys e = some pkey) = none ∧
        x = appended pel) ∨
      ∃ e ∈ out, deletes pel = false ∧ keyOf keys e = some pkey ∧
        out.find? (fun e => keyOf keys e = some pkey) = some e ∧
        strategicMerge env gvk path e pel = .ok x := by
  cases h with
  | absent => exact .inl hx
  | append hdel hout =>
    rcases mem_append.mp hx with hx | hx
    · exact .inl hx
    · exact .inr (.inl ⟨hdel, find?_of_findIdx? hout, mem_singleton.mp hx⟩)
  | delete => exact .inl (mem_of_mem_eraseIdx hx)
  | merge idx e merged hdel hout he hm =>
    obtain ⟨hke, hfind⟩ := keyOf_of_findIdx? hout he
    rcases mem_or_eq_of_mem_set hx with hx | rfl
    · exact .inl hx
    · exact .inr (.inr ⟨e, mem_of_getElem? he, hdel, hke, hfind, hm⟩)

variable {P : Json → Prop}

theorem KeyedStep.forall_mem (h : KeyedStep env gvk path keys out pel pkey mid)
    (hout : ∀ x ∈ out, P x) (happended : P (appended pel))
    (hmerge : ∀ e ∈ out, ∀ x, strategicMerge env gvk path e pel = .ok x → P x) :
    ∀ x ∈ mid, P x := by
  intro x hx
  obtain hx | ⟨-, -, rfl⟩ | ⟨e, he, -, -, -, hm⟩ := h.mem_cases hx
  · exact hout x hx
  · exact happended
  · exact hmerge e he x hm

theorem canonical_appended (h : pel.canonical = true) : (appended pel).canonical = true := by
  cases pel with
  | obj m => exact canonicalFields_filter h _
  | _ => rfl

theorem mem_keyless {x : Json} (h : x ∈ if pel ∈ out then out else out ++ [pel]) :
    x ∈ out ∨ x = pel := by
  split at h
  · exact .inl h
  · simpa using h

theorem existing_of_lookup {out : JsonMap} (hempty : P (.arr []))
    (h : ∀ x, out.lookup k = some x → P x) :
    P (.arr (((out.lookup k).bind asArray).getD [])) := by
  cases hl : out.lookup k with
  | none => exact hempty
  | some x =>
    have hx := h x hl
    cases x with
    | arr xs => exact hx
    | _ => exact hempty

end

/-! ## Objects stay maps -/

open Json

theorem canonicalFields_retained {cur : Json} (h : cur.canonical = true) (fields : JsonMap) :
    canonicalFields (retained cur fields) = true := by
  unfold retained
  split
  · exact canonicalFields_asObject h
  · exact canonicalFields_filter (canonicalFields_asObject h) _

mutual
theorem canonical_strategicMerge : ∀ (patch : Json) {path : List String} {cur m : Json},
    strategicMerge env gvk path cur patch = .ok m → patch.canonical = true → cur.canonical = true →
    m.canonical = true
  | .obj fields, path, cur, m, h, hp, hc => by
    obtain ⟨-, rfl⟩ | ⟨-, -, out, hout, rfl⟩ := strategicMerge_obj h
    · exact canonicalFields_filter hp _
    · exact canonical_strategicFields fields hout hp (canonicalFields_retained hc fields)
  | .null, _, _, _, h, hp, _ | .bool _, _, _, _, h, hp, _ | .num _, _, _, _, h, hp, _
  | .str _, _, _, _, h, hp, _ | .arr _, _, _, _, h, hp, _ => by cases h; exact hp
theorem canonical_strategicFields : ∀ (fields : List (String × Json)) {path : List String}
    {out out' : JsonMap}, strategicFields env gvk path out fields = .ok out' →
    Json.canonicalFields fields = true → Json.canonicalFields out = true →
    Json.canonicalFields out' = true
  | [], _, _, _, h, _, hc => by cases h; exact hc
  | (k, pv) :: rest, path, out, out', h, hp, hc => by
    obtain ⟨mid, hstep, hrest⟩ := strategicFields_cons h
    simp only [Json.canonicalFields, Bool.and_eq_true] at hp
    refine canonical_strategicFields rest hrest hp.2 ?_
    cases hstep with
    | sentinel => exact hc
    | null => exact canonicalFields_filter hc _
    | scalar => exact canonicalFields_put hc hp.1.2 k
    | object fs merged hm =>
      have hcur := canonical_lookup hc (d := .obj []) rfl k
      exact canonicalFields_put hc (canonical_strategicMerge (.obj fs) hm hp.1.2 hcur) k
    | list ps merged hm =>
      have hexisting : (Json.arr (((out.lookup k).bind Json.asArray).getD [])).canonical = true :=
        existing_of_lookup (P := fun v => v.canonical = true) rfl fun x hx =>
          canonical_of_lookup hc hx
      have hlist : Json.canonicalList merged = true := by
        obtain ⟨keys, -, hm⟩ | ⟨-, rfl | rfl⟩ := hm.cases
        · exact canonical_mergeListByKey ps hm hp.1.2 hexisting
        · exact hp.1.2
        · refine canonicalList_iff.mpr fun x hx => ?_
          rcases mem_setUnion.mp hx with hx | hx
          · exact canonicalList_iff.mp hexisting x hx
          · exact canonicalList_iff.mp hp.1.2 x hx
      have harr : (Json.arr merged).canonical = true := hlist
      exact canonicalFields_put hc harr k
theorem canonical_mergeListByKey :
    ∀ (ps : List Json) {keys path : List String} {out out' : List Json},
    mergeListByKey env gvk keys path out ps = .ok out' → Json.canonicalList ps = true →
    Json.canonicalList out = true → Json.canonicalList out' = true
  | [], _, _, _, _, h, _, hc => by cases h; exact hc
  | pel :: rest, keys, path, out, out', h, hp, hc => by
    simp only [Json.canonicalList, Bool.and_eq_true] at hp
    cases hkey : keyOf keys pel with
    | none =>
      refine canonical_mergeListByKey rest (mergeListByKey_keyless hkey h).2 hp.2 ?_
      refine canonicalList_iff.mpr fun x hx => ?_
      rcases mem_keyless hx with hx | rfl
      · exact canonicalList_iff.mp hc x hx
      · exact hp.1
    | some pkey =>
      obtain ⟨mid, hstep, hrest⟩ := mergeListByKey_keyed hkey h
      have hall := canonicalList_iff.mp hc
      refine canonical_mergeListByKey rest hrest hp.2 (canonicalList_iff.mpr ?_)
      exact hstep.forall_mem hall (canonical_appended hp.1) fun e he x hm =>
        canonical_strategicMerge pel hm hp.1 (hall e he)
end
end Engenho
